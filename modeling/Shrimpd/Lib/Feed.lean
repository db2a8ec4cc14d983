import Mathlib.Algebra.Order.Ring.Nat
import Mathlib.Data.Nat.Find
import Mathlib.Tactic.SplitIfs

/-!
# Groups of calls

A callback is called for the items of one group after the other.  `bad` says
which of its calls fail, counted over all groups.  A failed call ends its group,
and the next group starts all the same.  A caller that should stop for good does
so just when no call of a group fails, or when it was going to end anyway and no
later group has an item.
-/

namespace Shrimpd.Lib

variable {bad : Nat → Bool}

/-! ## One group -/

/-- The number of calls for a group of `k` items, of which the first is call number `n`. -/
def used (bad : Nat → Bool) : Nat → Nat → Nat
  | _, 0 => 0
  | n, k + 1 => if bad n then 1 else used bad (n + 1) k + 1

/-- Whether one of the calls for the group fails. -/
def failing (bad : Nat → Bool) : Nat → Nat → Bool
  | _, 0 => false
  | n, k + 1 => if bad n then true else failing bad (n + 1) k

theorem used_succ (n k : Nat) :
    used bad n (k + 1) = if bad n then 1 else used bad (n + 1) k + 1 := rfl

theorem failing_succ (n k : Nat) :
    failing bad n (k + 1) = if bad n then true else failing bad (n + 1) k := rfl

theorem used_le (n k : Nat) : used bad n k ≤ k := by
  induction k generalizing n with
  | zero => exact le_rfl
  | succ k ih =>
      rw [used_succ]
      split_ifs
      · omega
      · exact Nat.succ_le_succ (ih (n + 1))

theorem used_pos {k : Nat} (hk : 0 < k) (n : Nat) : 0 < used bad n k := by
  cases k with
  | zero => exact absurd hk (Nat.lt_irrefl 0)
  | succ k =>
      rw [used_succ]
      split_ifs
      · exact Nat.one_pos
      · exact Nat.succ_pos _

theorem used_of_good {n k : Nat} (h : ∀ i, n ≤ i → i < n + k → bad i = false) :
    used bad n k = k := by
  induction k generalizing n with
  | zero => rfl
  | succ k ih =>
      have hn : ¬bad n = true := Bool.eq_false_iff.mp (h n le_rfl (by omega))
      rw [used_succ, if_neg hn, ih fun i hle hlt => h i (by omega) (by omega)]

/-- A call that fails is the last one of its group. -/
theorem used_of_bad {n k i : Nat} (hle : n ≤ i) (hlt : i < n + used bad n k) (hi : bad i = true) :
    i + 1 = n + used bad n k ∧ failing bad n k = true := by
  induction k generalizing n with
  | zero => exact absurd hlt (not_lt.mpr hle)
  | succ k ih =>
      rw [used_succ] at hlt ⊢
      rw [failing_succ]
      by_cases hn : bad n = true
      · rw [if_pos hn] at hlt ⊢
        exact ⟨by omega, if_pos hn⟩
      · rw [if_neg hn] at hlt ⊢
        rw [if_neg hn]
        have hne : n ≠ i := by
          rintro rfl
          exact hn hi
        obtain ⟨hlast, hfailing⟩ := ih (n := n + 1) (by omega) (by omega)
        exact ⟨by omega, hfailing⟩

/-- The group ends with its first call that fails. -/
theorem used_eq_of_first {n k i : Nat} (hle : n ≤ i) (hlt : i < n + k) (hi : bad i = true)
    (hfirst : ∀ j, n ≤ j → j < i → bad j = false) : n + used bad n k = i + 1 := by
  induction k generalizing n with
  | zero => omega
  | succ k ih =>
      rw [used_succ]
      by_cases hn : n = i
      · rw [hn, if_pos hi]
      · have hgood : ¬bad n = true := Bool.eq_false_iff.mp (hfirst n le_rfl (by omega))
        have hrest := ih (n := n + 1) (by omega) (by omega) fun j hj hji => hfirst j (by omega) hji
        rw [if_neg hgood]
        omega

/-! ## One group after the other -/

/-- The number of calls after these groups, when `n` were made before. -/
def feed (bad : Nat → Bool) : Nat → List Nat → Nat
  | n, [] => n
  | n, k :: ks => feed bad (n + used bad n k) ks

theorem feed_cons (n k : Nat) (ks : List Nat) :
    feed bad n (k :: ks) = feed bad (n + used bad n k) ks := rfl

theorem le_feed (n : Nat) (ks : List Nat) : n ≤ feed bad n ks := by
  induction ks generalizing n with
  | nil => exact le_rfl
  | cons k ks ih => exact (Nat.le_add_right _ _).trans (ih _)

theorem feed_append (n : Nat) (ks ms : List Nat) :
    feed bad n (ks ++ ms) = feed bad (feed bad n ks) ms := by
  induction ks generalizing n with
  | nil => rfl
  | cons k ks ih => exact ih _

theorem feed_of_good {n : Nat} {ks : List Nat}
    (h : ∀ i, n ≤ i → i < n + ks.sum → bad i = false) : feed bad n ks = n + ks.sum := by
  induction ks generalizing n with
  | nil => rfl
  | cons k ks ih =>
      rw [List.sum_cons] at h ⊢
      rw [feed_cons, used_of_good fun i hle hlt => h i hle (by omega),
        ih fun i hle hlt => h i (by omega) (by omega), Nat.add_assoc]

/-- Nothing is called just when no group has an item. -/
theorem feed_eq_self_iff {n : Nat} {ks : List Nat} :
    feed bad n ks = n ↔ ∀ k ∈ ks, k = 0 := by
  induction ks generalizing n with
  | nil => exact ⟨fun _ => nofun, fun _ => rfl⟩
  | cons k ks ih =>
      rw [feed_cons, List.forall_mem_cons]
      constructor
      · intro h
        have hge := @le_feed bad (n + used bad n k) ks
        have hk : k = 0 := by
          by_contra hk
          have hpos := @used_pos bad k (Nat.pos_of_ne_zero hk) n
          omega
        subst hk
        exact ⟨rfl, ih.mp h⟩
      · rintro ⟨rfl, hks⟩
        exact ih.mpr hks

/-- The group of an item, by its number. -/
theorem exists_group {ks : List Nat} {i : Nat} (hi : i < ks.sum) :
    ∃ before k after, ks = before ++ k :: after ∧ before.sum ≤ i ∧ i < before.sum + k := by
  induction ks generalizing i with
  | nil => exact absurd hi (Nat.not_lt_zero i)
  | cons k ks ih =>
      by_cases hk : i < k
      · exact ⟨[], k, ks, rfl, Nat.zero_le _, by rw [List.sum_nil]; omega⟩
      · rw [List.sum_cons] at hi
        obtain ⟨before, m, after, rfl, hle, hlt⟩ := ih (i := i - k) (by omega)
        refine ⟨k :: before, m, after, rfl, ?_, ?_⟩
        · rw [List.sum_cons]
          omega
        · rw [List.sum_cons]
          omega

/-! ## Stopping for good -/

/-- What comes after the groups: the caller hangs, it ends with an error of its own, or it calls
for one more group and returns the error of that. -/
inductive Ending where
  | hung
  | ended
  | last (k : Nat)
  deriving DecidableEq, Repr

/-- The number of calls, and whether the caller returns an error. -/
def outcome (bad : Nat → Bool) (ks : List Nat) : Ending → Nat × Bool
  | .hung => (feed bad 0 ks, false)
  | .ended => (feed bad 0 ks, true)
  | .last k => (feed bad 0 ks + used bad (feed bad 0 ks) k, failing bad (feed bad 0 ks) k)

theorem outcome_hung (ks : List Nat) : outcome bad ks .hung = (feed bad 0 ks, false) := rfl

theorem outcome_ended (ks : List Nat) : outcome bad ks .ended = (feed bad 0 ks, true) := rfl

theorem outcome_last (ks : List Nat) (k : Nat) : outcome bad ks (.last k) =
    (feed bad 0 ks + used bad (feed bad 0 ks) k, failing bad (feed bad 0 ks) k) := rfl

/-- A call that fails is the last call, and an error is returned. -/
def Stopped (bad : Nat → Bool) (r : Nat × Bool) : Prop :=
  ∀ i < r.1, bad i = true → i + 1 = r.1 ∧ r.2 = true

theorem stopped_of_good {ks : List Nat} (h : ∀ i < ks.sum, bad i = false) (fin : Ending) :
    Stopped bad (outcome bad ks fin) := by
  have hfeed : feed bad 0 ks = ks.sum := by
    rw [feed_of_good fun i _ hlt => h i (by omega), Nat.zero_add]
  intro i hi hbad
  have hge : ks.sum ≤ i := by
    by_contra hlt
    rw [h i (not_le.mp hlt)] at hbad
    cases hbad
  cases fin with
  | hung =>
      rw [outcome_hung, hfeed] at hi
      exact absurd hi (not_lt.mpr hge)
  | ended =>
      rw [outcome_ended, hfeed] at hi
      exact absurd hi (not_lt.mpr hge)
  | last k =>
      rw [outcome_last, hfeed] at hi ⊢
      exact used_of_bad hge hi hbad

theorem stopped_of_ended {before after : List Nat} {k : Nat} (hafter : ∀ m ∈ after, m = 0)
    (hbefore : ∀ i < before.sum, bad i = false) :
    Stopped bad (outcome bad (before ++ k :: after) .ended) := by
  have hfeed : feed bad 0 before = before.sum := by
    rw [feed_of_good fun i _ hlt => hbefore i (by omega), Nat.zero_add]
  have hcalls : feed bad 0 (before ++ k :: after) = before.sum + used bad before.sum k := by
    rw [feed_append, hfeed, feed_cons, feed_eq_self_iff.mpr hafter]
  intro i hi hbad
  rw [outcome_ended, hcalls] at hi ⊢
  have hge : before.sum ≤ i := by
    by_contra hlt
    rw [hbefore i (not_le.mp hlt)] at hbad
    cases hbad
  exact ⟨(used_of_bad hge hi hbad).1, rfl⟩

/-- The caller stops just when no call for a group fails, or when it ends with an error of its own
and no call fails but for the last group that has an item. -/
theorem stopped_outcome_iff (bad : Nat → Bool) (ks : List Nat) (fin : Ending) :
    Stopped bad (outcome bad ks fin) ↔
      (∀ i < ks.sum, bad i = false) ∨
        fin = .ended ∧ ∃ before k after, ks = before ++ k :: after ∧ (∀ m ∈ after, m = 0) ∧
          ∀ i < before.sum, bad i = false := by
  constructor
  · intro h
    by_cases hgood : ∀ i < ks.sum, bad i = false
    · exact Or.inl hgood
    · right
      have hex : ∃ i, i < ks.sum ∧ bad i = true := by
        simpa using hgood
      obtain ⟨hi, hbad⟩ := Nat.find_spec hex
      have hfirst : ∀ j < Nat.find hex, bad j = false := by
        intro j hj
        have hmin := Nat.find_min hex hj
        rw [not_and, Bool.not_eq_true] at hmin
        exact hmin (hj.trans hi)
      generalize Nat.find hex = i at hi hbad hfirst
      -- The first call that fails is in some group; it has to be the last call of all.
      obtain ⟨before, k, after, rfl, hle, hlt⟩ := exists_group hi
      have hbefore : ∀ j < before.sum, bad j = false := fun j hj => hfirst j (hj.trans_le hle)
      have hfeed : feed bad 0 (before ++ k :: after) = feed bad (i + 1) after := by
        have hstart : feed bad 0 before = before.sum := by
          rw [feed_of_good fun j _ hj => hbefore j (by omega), Nat.zero_add]
        rw [feed_append, hstart, feed_cons,
          used_eq_of_first hle hlt hbad fun j _ hj => hfirst j hj]
      have hge := @le_feed bad (i + 1) after
      cases fin with
      | hung =>
          rw [outcome_hung, hfeed] at h
          exact absurd (h i hge hbad).2 Bool.false_ne_true
      | ended =>
          rw [outcome_ended, hfeed] at h
          have hlast := (h i hge hbad).1
          exact ⟨rfl, before, k, after, rfl, feed_eq_self_iff.mp hlast.symm, hbefore⟩
      | last m =>
          -- One more call would be a later one, and without it there is no error to return.
          rw [outcome_last, hfeed] at h
          obtain ⟨hlast, hreturned⟩ := h i (Nat.lt_of_lt_of_le hge (Nat.le_add_right _ _)) hbad
          have hm : m = 0 := by
            by_contra hm
            have hpos := @used_pos bad m (Nat.pos_of_ne_zero hm) (feed bad (i + 1) after)
            dsimp only at hlast
            omega
          rw [hm] at hreturned
          exact absurd hreturned Bool.false_ne_true
  · rintro (hgood | ⟨rfl, before, k, after, rfl, hafter, hbefore⟩)
    · exact stopped_of_good hgood fin
    · exact stopped_of_ended hafter hbefore

end Shrimpd.Lib
