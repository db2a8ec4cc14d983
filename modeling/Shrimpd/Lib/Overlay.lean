import Mathlib.Data.List.AList

/-!
# Maps filled from lists

A map can be filled from a list of items so that the last item of a key decides,
or so that the first one does and what the map already has stays.
-/

namespace Shrimpd.Lib.Overlay

variable {α β γ : Type*} [DecidableEq α]

/-- The value of the first item with a key. -/
def first (key : γ → α) (val : γ → β) (k : α) (l : List γ) : Option β :=
  (l.find? fun x => key x = k).map val

/-- The value of the last item with a key. -/
def last (key : γ → α) (val : γ → β) (k : α) (l : List γ) : Option β :=
  first key val k l.reverse

section

variable {key : γ → α} {val : γ → β} {k : α} {x : γ} {l : List γ} {v : β}

@[simp] theorem first_nil : first key val k [] = none := rfl

@[simp] theorem last_nil : last key val k [] = none := rfl

theorem first_cons :
    first key val k (x :: l) = if key x = k then some (val x) else first key val k l := by
  by_cases h : key x = k <;> simp [first, h]

theorem first_append (l m : List γ) :
    first key val k (l ++ m) = (first key val k l).or (first key val k m) := by
  simp only [first, List.find?_append]
  cases l.find? fun x => key x = k <;> simp

theorem last_append (l m : List γ) :
    last key val k (l ++ m) = (last key val k m).or (last key val k l) := by
  rw [last, List.reverse_append, first_append]
  rfl

theorem last_cons :
    last key val k (x :: l) = (last key val k l).or (if key x = k then some (val x) else none) := by
  rw [← List.singleton_append, last_append]
  simp [last, first_cons]

theorem first_map {δ : Type*} (g : δ → γ) (l : List δ) :
    first key val k (l.map g) = first (key ∘ g) (val ∘ g) k l := by
  simp only [first, List.find?_map, Option.map_map]
  rfl

theorem last_map {δ : Type*} (g : δ → γ) (l : List δ) :
    last key val k (l.map g) = last (key ∘ g) (val ∘ g) k l := by
  rw [last, ← List.map_reverse, first_map]
  rfl

theorem exists_mem_of_first (h : first key val k l = some v) :
    ∃ x ∈ l, key x = k ∧ val x = v := by
  obtain ⟨x, hfind, hv⟩ := Option.map_eq_some_iff.mp h
  exact ⟨x, List.mem_of_find?_eq_some hfind, by simpa using List.find?_some hfind, hv⟩

theorem exists_mem_of_last (h : last key val k l = some v) :
    ∃ x ∈ l, key x = k ∧ val x = v := by
  obtain ⟨x, hx, hrest⟩ := exists_mem_of_first h
  exact ⟨x, List.mem_reverse.mp hx, hrest⟩

theorem first_eq_none_iff : first key val k l = none ↔ ∀ x ∈ l, key x ≠ k := by
  simp [first]

theorem last_eq_none_iff : last key val k l = none ↔ ∀ x ∈ l, key x ≠ k := by
  rw [last, first_eq_none_iff]
  simp

end

section Maps

variable (key : γ → α) (val : γ → β) (k : α) (l : List γ) (out : AList fun _ : α => β)

theorem lookup_foldl_insert :
    (l.foldl (fun out x => out.insert (key x) (val x)) out).lookup k =
      (last key val k l).or (out.lookup k) := by
  induction l generalizing out with
  | nil => rfl
  | cons x l ih =>
      rw [List.foldl_cons, ih, last_cons, Option.or_assoc]
      congr 1
      by_cases h : key x = k
      · subst h
        simp
      · rw [AList.lookup_insert_ne (Ne.symm h), if_neg h, Option.none_or]

theorem lookup_foldl_fill :
    (l.foldl (fun out x => if (out.lookup (key x)).isSome then out
      else out.insert (key x) (val x)) out).lookup k =
      (out.lookup k).or (first key val k l) := by
  induction l generalizing out with
  | nil => simp
  | cons x l ih =>
      rw [List.foldl_cons, ih, first_cons]
      by_cases h : key x = k
      · subst h
        cases hout : out.lookup (key x) <;> simp [hout]
      · rw [if_neg h]
        split_ifs
        · rfl
        · rw [AList.lookup_insert_ne (Ne.symm h)]

theorem first_entries : first Sigma.fst Sigma.snd k out.entries = out.lookup k := by
  rw [AList.lookup]
  induction out.entries with
  | nil => rfl
  | cons x l ih =>
      obtain ⟨a, b⟩ := x
      rw [first_cons, ih]
      by_cases h : a = k
      · subst h
        simp
      · rw [List.dlookup_cons_ne l ⟨a, b⟩ (Ne.symm h), if_neg h]

end Maps

end Shrimpd.Lib.Overlay
