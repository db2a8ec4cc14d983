import Mathlib.Data.List.Sort
import Mathlib.Order.Basic

/-!
# Binary heaps in a list

The heap order relates each position to the two below it, so that the first
element is least.  A library's operations are given by what they promise: they
keep the elements, and they restore the heap order when the first element is
changed or removed.
-/

namespace Shrimpd.Lib

variable {α : Type}

/-- No element is less than the one above it. -/
def IsHeap (less : α → α → Bool) (h : List α) : Prop :=
  ∀ i j a b, j = 2 * i + 1 ∨ j = 2 * i + 2 → h[i]? = some a → h[j]? = some b → less b a = false

/-- The operations of a heap library, which only know `less`. -/
structure HeapOps (less : α → α → Bool) where
  init : List α → List α
  fix : List α → List α
  pop : List α → List α
  init_perm : ∀ h, (init h).Perm h
  init_heap : ∀ h, IsHeap less (init h)
  fix_perm : ∀ h, (fix h).Perm h
  fix_heap : ∀ a b h, IsHeap less (a :: h) → IsHeap less (fix (b :: h))
  pop_perm : ∀ a h, (pop (a :: h)).Perm h
  pop_heap : ∀ a b h, IsHeap less (a :: h) → IsHeap less (pop (b :: h))

section Order

variable {κ : Type} [LinearOrder κ] {key : α → κ} {less : α → α → Bool}

/-- The first element of a heap is least. -/
theorem IsHeap.first_le (hless : ∀ a b, less a b = true ↔ key a < key b) {a : α} {h : List α}
    (hheap : IsHeap less (a :: h)) {b : α} (hb : b ∈ a :: h) : key a ≤ key b := by
  obtain ⟨j, hj⟩ := List.mem_iff_getElem?.mp hb
  clear hb
  induction j using Nat.strong_induction_on generalizing b with
  | _ j ih =>
      rcases Nat.eq_zero_or_pos j with rfl | hpos
      · rw [List.getElem?_cons_zero, Option.some.injEq] at hj
        rw [hj]
      · have hlt := (List.getElem?_eq_some_iff.mp hj).1
        have hparent : (j - 1) / 2 < (a :: h).length := by omega
        have hup := List.getElem?_eq_getElem hparent
        have hle := hheap ((j - 1) / 2) j _ b (by omega) hup hj
        have hge : key (a :: h)[(j - 1) / 2] ≤ key b :=
          not_lt.mp fun hlt => Bool.eq_false_iff.mp hle ((hless _ _).mpr hlt)
        exact (ih _ (by omega) hup).trans hge

/-- What is in order is a heap. -/
theorem IsHeap.of_sorted (hless : ∀ a b, less a b = true ↔ key a < key b) {h : List α}
    (hsorted : h.Pairwise fun a b => key a ≤ key b) : IsHeap less h := by
  intro i j a b hij ha hb
  obtain ⟨hi, rfl⟩ := List.getElem?_eq_some_iff.mp ha
  obtain ⟨hj, rfl⟩ := List.getElem?_eq_some_iff.mp hb
  have hle := List.pairwise_iff_getElem.mp hsorted i j hi hj (by omega)
  exact Bool.eq_false_iff.mpr fun hlt => ((hless _ _).mp hlt).not_ge hle

theorem pairwise_insertionSort_key (h : List α) :
    (h.insertionSort fun a b => key a ≤ key b).Pairwise fun a b => key a ≤ key b := by
  have : Std.Total fun a b : α => key a ≤ key b := ⟨fun a b => le_total _ _⟩
  have : IsTrans α fun a b => key a ≤ key b := ⟨fun _ _ _ => le_trans⟩
  exact List.pairwise_insertionSort _ h

/-- A heap that is always kept in order. -/
def HeapOps.sorting (key : α → κ) (hless : ∀ a b, less a b = true ↔ key a < key b) :
    HeapOps less where
  init h := h.insertionSort fun a b => key a ≤ key b
  fix h := h.insertionSort fun a b => key a ≤ key b
  pop h := h.tail.insertionSort fun a b => key a ≤ key b
  init_perm h := List.perm_insertionSort _ h
  init_heap h := .of_sorted hless (pairwise_insertionSort_key h)
  fix_perm h := List.perm_insertionSort _ h
  fix_heap _ b h _ := .of_sorted hless (pairwise_insertionSort_key (b :: h))
  pop_perm _ h := List.perm_insertionSort _ h
  pop_heap _ _ h _ := .of_sorted hless (pairwise_insertionSort_key h)

end Order

end Shrimpd.Lib
