import Mathlib.Data.Set.Insert
import Mathlib.Data.List.Induction

/-!
# Logs of replacements

A change adds one name and drops others, and a log of changes stands for the
names that are left when all of them are made in order.  When every change adds
a name that was never used before, a name that is once dropped is gone for good.
-/

namespace Shrimpd.Lib

variable {α : Type*}

structure Change (α : Type*) where
  add : α
  drop : List α

def Change.apply (c : Change α) (names : Set α) : Set α := insert c.add (names \ {a | a ∈ c.drop})

/-- The names left after all changes. -/
def replay (cs : List (Change α)) : Set α := cs.foldl (fun names c => c.apply names) ∅

/-- The change adds a name that neither it nor the log has used. -/
structure Change.NewIn (c : Change α) (cs : List (Change α)) : Prop where
  self : c.add ∉ c.drop
  add : ∀ d ∈ cs, c.add ≠ d.add
  drop : ∀ d ∈ cs, c.add ∉ d.drop

instance [DecidableEq α] (c : Change α) (cs : List (Change α)) : Decidable (c.NewIn cs) :=
  decidable_of_iff (c.add ∉ c.drop ∧ (∀ d ∈ cs, c.add ≠ d.add) ∧ ∀ d ∈ cs, c.add ∉ d.drop)
    ⟨fun h => ⟨h.1, h.2.1, h.2.2⟩, fun h => ⟨h.self, h.add, h.drop⟩⟩

/-- Every change is new in the log before it. -/
inductive FreshLog : List (Change α) → Prop where
  | nil : FreshLog []
  | concat {cs c} : FreshLog cs → c.NewIn cs → FreshLog (cs ++ [c])

theorem Change.mem_apply {c : Change α} {names : Set α} {a : α} :
    a ∈ c.apply names ↔ a = c.add ∨ a ∈ names ∧ a ∉ c.drop := Iff.rfl

@[simp] theorem replay_nil : replay ([] : List (Change α)) = ∅ := rfl

theorem replay_concat (cs : List (Change α)) (c : Change α) :
    replay (cs ++ [c]) = c.apply (replay cs) := by
  rw [replay, List.foldl_append]
  rfl

theorem FreshLog.of_concat {cs : List (Change α)} {c : Change α} (h : FreshLog (cs ++ [c])) :
    FreshLog cs ∧ c.NewIn cs := by
  generalize hlog : cs ++ [c] = log at h
  cases h with
  | nil => exact absurd hlog (by simp)
  | concat hcs hc =>
      obtain ⟨rfl, hlast⟩ := List.append_inj' hlog rfl
      obtain rfl := List.singleton_inj.mp hlast
      exact ⟨hcs, hc⟩

theorem FreshLog.of_append {cs ds : List (Change α)} (h : FreshLog (cs ++ ds)) : FreshLog cs := by
  induction ds using List.reverseRecOn with
  | nil => rwa [List.append_nil] at h
  | append_singleton ds c ih =>
      rw [← List.append_assoc] at h
      exact ih h.of_concat.1

theorem added_of_mem_replay {cs : List (Change α)} {a : α} (h : a ∈ replay cs) :
    ∃ c ∈ cs, c.add = a := by
  induction cs using List.reverseRecOn with
  | nil => exact absurd h (Set.notMem_empty a)
  | append_singleton cs c ih =>
      rw [replay_concat] at h
      rcases h with rfl | ⟨hmem, -⟩
      · exact ⟨c, by simp, rfl⟩
      · obtain ⟨d, hd, rfl⟩ := ih hmem
        exact ⟨d, List.mem_append_left _ hd, rfl⟩

/-- What is left after more changes was left before or has been added by them. -/
theorem mem_or_added_of_mem_replay_append {cs ds : List (Change α)} {a : α}
    (h : a ∈ replay (cs ++ ds)) : a ∈ replay cs ∨ ∃ d ∈ ds, d.add = a := by
  induction ds using List.reverseRecOn with
  | nil =>
      rw [List.append_nil] at h
      exact Or.inl h
  | append_singleton ds d ih =>
      rw [← List.append_assoc, replay_concat] at h
      rcases h with rfl | ⟨hmem, -⟩
      · exact Or.inr ⟨d, by simp, rfl⟩
      · exact (ih hmem).imp_right fun ⟨c, hc, heq⟩ => ⟨c, List.mem_append_left _ hc, heq⟩

/-- What is no longer left after more changes has been dropped by them. -/
theorem dropped_of_not_mem_replay_append {cs ds : List (Change α)} {a : α} (h : a ∈ replay cs)
    (hnot : a ∉ replay (cs ++ ds)) : ∃ d ∈ ds, a ∈ d.drop := by
  induction ds using List.reverseRecOn with
  | nil =>
      rw [List.append_nil] at hnot
      exact absurd h hnot
  | append_singleton ds d ih =>
      rw [← List.append_assoc, replay_concat, Change.mem_apply, not_or, not_and, not_not] at hnot
      by_cases hmem : a ∈ replay (cs ++ ds)
      · exact ⟨d, by simp, hnot.2 hmem⟩
      · obtain ⟨c, hc, hdrop⟩ := ih hmem
        exact ⟨c, List.mem_append_left _ hc, hdrop⟩

theorem FreshLog.add_not_mem_drop {cs : List (Change α)} (h : FreshLog cs) {c : Change α}
    (hc : c ∈ cs) : c.add ∉ c.drop := by
  induction h with
  | nil => exact absurd hc List.not_mem_nil
  | concat _ hnew ih =>
      rcases List.mem_append.mp hc with hc | hc
      · exact ih hc
      · obtain rfl := List.mem_singleton.mp hc
        exact hnew.self

/-- A dropped name does not come back. -/
theorem FreshLog.not_mem_replay {cs : List (Change α)} (h : FreshLog cs) {c : Change α} {a : α}
    (hc : c ∈ cs) (ha : a ∈ c.drop) : a ∉ replay cs := by
  induction h with
  | nil => exact absurd hc List.not_mem_nil
  | concat _ hnew ih =>
      rw [replay_concat, Change.mem_apply, not_or]
      rcases List.mem_append.mp hc with hc | hc
      · exact ⟨fun heq => hnew.drop c hc (heq ▸ ha), fun hmem => ih hc hmem.1⟩
      · obtain rfl := List.mem_singleton.mp hc
        exact ⟨fun heq => hnew.self (heq ▸ ha), fun hmem => hmem.2 ha⟩

/-- A name that an initial part of the log adds and the whole log leaves is already left by
the initial part. -/
theorem FreshLog.mem_replay_of_append {cs ds : List (Change α)} (h : FreshLog (cs ++ ds))
    {a : α} (hadd : ∃ c ∈ cs, c.add = a) (ha : a ∈ replay (cs ++ ds)) : a ∈ replay cs := by
  induction ds using List.reverseRecOn with
  | nil => rwa [List.append_nil] at ha
  | append_singleton ds d ih =>
      rw [← List.append_assoc] at h ha
      obtain ⟨hlog, hnew⟩ := h.of_concat
      rw [replay_concat] at ha
      rcases ha with rfl | ⟨hmem, -⟩
      · obtain ⟨c, hc, heq⟩ := hadd
        exact absurd heq.symm (hnew.add c (List.mem_append_left _ hc))
      · exact ih hlog hmem

end Shrimpd.Lib
