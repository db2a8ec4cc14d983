import Mathlib.Data.List.Sort
import Mathlib.Order.Basic

/-!
# Sorted lists: search and merge

Binary search as the Go library does it, and the merge of several sorted
sequences by repeatedly taking the least head.  On a sorted list the search
finds exactly the members; the merge is a sorted permutation of its inputs.
-/

namespace Shrimpd.Lib

/-! ## Binary search -/

section Search

variable {α : Type} [LinearOrder α]

/-- The loop over `[i, j)`; `fuel` bounds the number of halvings. -/
def searchLoop (x : List α) (target : α) : Nat → Nat → Nat → Nat
  | 0, i, _ => i
  | fuel + 1, i, j =>
      if i < j then
        match x[(i + j) / 2]? with
        | none => i
        | some y =>
            if y < target then searchLoop x target fuel ((i + j) / 2 + 1) j
            else searchLoop x target fuel i ((i + j) / 2)
      else i

/-- Position of `target` in a sorted list, and whether it is there. -/
def binarySearch (x : List α) (target : α) : Nat × Bool :=
  let i := searchLoop x target x.length 0 x.length
  (i, x[i]? == some target)

theorem searchLoop_le (x : List α) (target : α) {fuel i j : Nat} (hij : i ≤ j) :
    searchLoop x target fuel i j ≤ j := by
  induction fuel generalizing i j with
  | zero => exact hij
  | succ fuel ih =>
      rw [searchLoop]
      by_cases hlt : i < j
      · rw [if_pos hlt]
        cases x[(i + j) / 2]? with
        | none => exact hij
        | some y =>
            simp only
            split_ifs
            · exact ih (by omega)
            · exact (ih (by omega)).trans (by omega)
      · rw [if_neg hlt]
        exact hij

theorem binarySearch_le_length (x : List α) (target : α) :
    (binarySearch x target).1 ≤ x.length :=
  searchLoop_le x target (Nat.zero_le _)

/-- Everything before the position is smaller, nothing from it on is. -/
theorem searchLoop_spec {x : List α} {target : α} (hsorted : x.Pairwise (· ≤ ·))
    {fuel i j : Nat} (hfuel : j - i ≤ fuel) (hij : i ≤ j) (hj : j ≤ x.length)
    (hlow : ∀ k y, k < i → x[k]? = some y → y < target)
    (hhigh : ∀ k y, j ≤ k → x[k]? = some y → target ≤ y) :
    (∀ k y, k < searchLoop x target fuel i j → x[k]? = some y → y < target) ∧
      ∀ k y, searchLoop x target fuel i j ≤ k → x[k]? = some y → target ≤ y := by
  induction fuel generalizing i j with
  | zero =>
      have heq : i = j := by omega
      subst heq
      exact ⟨hlow, hhigh⟩
  | succ fuel ih =>
      rw [searchLoop]
      by_cases hlt : i < j
      · rw [if_pos hlt]
        have hmid : (i + j) / 2 < x.length := by omega
        have hget : x[(i + j) / 2]? = some (x[(i + j) / 2]) := List.getElem?_eq_getElem hmid
        simp only [hget]
        by_cases hy : x[(i + j) / 2] < target
        · rw [if_pos hy]
          refine ih (by omega) (by omega) hj ?_ hhigh
          intro k y hk hxk
          rcases Nat.lt_or_eq_of_le (Nat.lt_succ_iff.mp hk) with hk | rfl
          · have hkx : k < x.length := by omega
            rw [List.getElem?_eq_getElem hkx, Option.some.injEq] at hxk
            subst hxk
            exact (List.pairwise_iff_getElem.mp hsorted k _ hkx hmid hk).trans_lt hy
          · rw [hget, Option.some.injEq] at hxk
            exact hxk ▸ hy
        · rw [if_neg hy]
          refine ih (by omega) (by omega) (by omega) hlow ?_
          intro k y hk hxk
          have hle : target ≤ x[(i + j) / 2] := not_lt.mp hy
          rcases Nat.lt_or_eq_of_le hk with hk | rfl
          · have hkx : k < x.length := by
              by_contra hge
              rw [List.getElem?_eq_none (by omega)] at hxk
              simp at hxk
            rw [List.getElem?_eq_getElem hkx, Option.some.injEq] at hxk
            subst hxk
            exact hle.trans (List.pairwise_iff_getElem.mp hsorted _ k hmid hkx hk)
          · rw [hget, Option.some.injEq] at hxk
            exact hxk ▸ hle
      · rw [if_neg hlt]
        have heq : i = j := by omega
        subst heq
        exact ⟨hlow, hhigh⟩

/-- Before the position everything is less than the target, and from it on nothing is. -/
theorem binarySearch_spec {x : List α} (hsorted : x.Pairwise (· ≤ ·)) (target : α) :
    (∀ k y, k < (binarySearch x target).1 → x[k]? = some y → y < target) ∧
      ∀ k y, (binarySearch x target).1 ≤ k → x[k]? = some y → target ≤ y :=
  searchLoop_spec hsorted (by omega) (Nat.zero_le _) (le_refl _) (by simp)
    fun k y hk hxk => by rw [List.getElem?_eq_none hk] at hxk; simp at hxk

theorem binarySearch_found {x : List α} {target : α} (hsorted : x.Pairwise (· ≤ ·)) :
    (binarySearch x target).2 = true ↔ target ∈ x := by
  obtain ⟨hlow, hhigh⟩ := binarySearch_spec hsorted target
  simp only [binarySearch, beq_iff_eq] at hlow hhigh ⊢
  constructor
  · exact fun hget => List.mem_of_getElem? hget
  · intro hmem
    obtain ⟨k, hk, rfl⟩ := List.mem_iff_getElem.mp hmem
    -- The position is at most `k`, and what stands there is neither smaller nor larger.
    have hle : searchLoop x x[k] x.length 0 x.length ≤ k := by
      by_contra hlt
      exact absurd (hlow k _ (by omega) (List.getElem?_eq_getElem hk)) (lt_irrefl _)
    have hpos : searchLoop x x[k] x.length 0 x.length < x.length := by omega
    rw [List.getElem?_eq_getElem hpos, Option.some.injEq]
    apply le_antisymm
    · rcases Nat.lt_or_eq_of_le hle with hlt | heq
      · exact List.pairwise_iff_getElem.mp hsorted _ _ hpos hk hlt
      · simp only [heq, le_refl]
    · exact hhigh _ _ (le_refl _) (List.getElem?_eq_getElem hpos)

end Search

/-! ## Merging sorted sequences -/

section Merge

variable {α κ : Type} [LinearOrder κ] (key : α → κ)

/-- Remove the least head; of equal ones the earliest sequence's. -/
def popMin : List (List α) → Option (α × List (List α))
  | [] => none
  | [] :: ls => (popMin ls).map fun r => (r.1, [] :: r.2)
  | (a :: as) :: ls =>
      match popMin ls with
      | none => some (a, as :: ls)
      | some r => if key a ≤ key r.1 then some (a, as :: ls) else some (r.1, (a :: as) :: r.2)

/-- At most `fuel` elements of the merge. -/
def mergeFuel : Nat → List (List α) → List α
  | 0, _ => []
  | fuel + 1, ls =>
      match popMin key ls with
      | none => []
      | some r => r.1 :: mergeFuel fuel r.2

def mergeAll (ls : List (List α)) : List α := mergeFuel key ls.flatten.length ls

variable {key}

theorem popMin_nil_cons (ls : List (List α)) :
    popMin key ([] :: ls) = (popMin key ls).map fun r => (r.1, [] :: r.2) := rfl

theorem popMin_cons_cons (a : α) (as : List α) (ls : List (List α)) :
    popMin key ((a :: as) :: ls) =
      match popMin key ls with
      | none => some (a, as :: ls)
      | some r =>
          if key a ≤ key r.1 then some (a, as :: ls) else some (r.1, (a :: as) :: r.2) := rfl

theorem popMin_none {ls : List (List α)} (h : popMin key ls = none) : ls.flatten = [] := by
  induction ls with
  | nil => rfl
  | cons l ls ih =>
      cases l with
      | nil =>
          rw [popMin_nil_cons, Option.map_eq_none_iff] at h
          simpa using ih h
      | cons a as =>
          rw [popMin_cons_cons] at h
          cases hrest : popMin key ls with
          | none => simp [hrest] at h
          | some r =>
              simp only [hrest] at h
              split_ifs at h

/-- The ways in which an element is removed. -/
inductive Pops (key : α → κ) : List (List α) → α × List (List α) → Prop
  | skip {ls r} (h : Pops key ls r) : Pops key ([] :: ls) (r.1, [] :: r.2)
  | only {a as ls} (h : ls.flatten = []) : Pops key ((a :: as) :: ls) (a, as :: ls)
  | first {a as ls r} (h : Pops key ls r) (hle : key a ≤ key r.1) :
      Pops key ((a :: as) :: ls) (a, as :: ls)
  | later {a as ls r} (h : Pops key ls r) (hlt : key r.1 < key a) :
      Pops key ((a :: as) :: ls) (r.1, (a :: as) :: r.2)

theorem pops {ls : List (List α)} {r : α × List (List α)} (h : popMin key ls = some r) :
    Pops key ls r := by
  induction ls generalizing r with
  | nil => cases h
  | cons l ls ih =>
      cases l with
      | nil =>
          rw [popMin_nil_cons, Option.map_eq_some_iff] at h
          obtain ⟨q, hq, rfl⟩ := h
          exact .skip (ih hq)
      | cons a as =>
          rw [popMin_cons_cons] at h
          cases hrest : popMin key ls with
          | none =>
              simp only [hrest, Option.some.injEq] at h
              exact h ▸ .only (popMin_none hrest)
          | some q =>
              simp only [hrest] at h
              split_ifs at h with hle <;> obtain rfl := Option.some.inj h
              · exact .first (ih hrest) hle
              · exact .later (ih hrest) (not_le.mp hle)

theorem Pops.perm {ls : List (List α)} {r : α × List (List α)} (h : Pops key ls r) :
    ls.flatten.Perm (r.1 :: r.2.flatten) := by
  induction h with
  | skip _ ih => simpa using ih
  | only _ => simp
  | first _ _ _ => simp
  | @later a as ls r _ _ ih =>
      rw [List.flatten_cons, List.flatten_cons]
      exact (ih.append_left (a :: as)).trans List.perm_middle

/-- The removed element is least where every sequence is sorted. -/
theorem Pops.le {ls : List (List α)} {r : α × List (List α)} (h : Pops key ls r)
    (hsorted : ∀ l ∈ ls, l.Pairwise fun a b => key a ≤ key b) :
    (∀ b ∈ r.2.flatten, key r.1 ≤ key b) ∧
      ∀ l ∈ r.2, l.Pairwise fun a b => key a ≤ key b := by
  induction h with
  | skip _ ih =>
      obtain ⟨hle, hall⟩ := ih fun l hl => hsorted l (List.mem_cons_of_mem _ hl)
      exact ⟨by simpa using hle, List.forall_mem_cons.mpr ⟨List.Pairwise.nil, hall⟩⟩
  | only hnil =>
      rw [List.forall_mem_cons, List.pairwise_cons] at hsorted
      refine ⟨?_, List.forall_mem_cons.mpr ⟨hsorted.1.2, hsorted.2⟩⟩
      rw [List.flatten_cons, hnil, List.append_nil]
      exact hsorted.1.1
  | first h hle ih =>
      rw [List.forall_mem_cons, List.pairwise_cons] at hsorted
      refine ⟨?_, List.forall_mem_cons.mpr ⟨hsorted.1.2, hsorted.2⟩⟩
      rw [List.flatten_cons, List.forall_mem_append]
      refine ⟨hsorted.1.1, fun b hb => ?_⟩
      rcases List.mem_cons.mp (h.perm.mem_iff.mp hb) with rfl | hb
      · exact hle
      · exact hle.trans ((ih hsorted.2).1 b hb)
  | later _ hlt ih =>
      rw [List.forall_mem_cons] at hsorted
      obtain ⟨hle, hall⟩ := ih hsorted.2
      refine ⟨?_, List.forall_mem_cons.mpr ⟨hsorted.1, hall⟩⟩
      rw [List.flatten_cons, List.forall_mem_append, List.forall_mem_cons]
      exact ⟨⟨hlt.le, fun b hb => hlt.le.trans ((List.pairwise_cons.mp hsorted.1).1 b hb)⟩, hle⟩

theorem Pops.exists_head {ls : List (List α)} {r : α × List (List α)} (h : Pops key ls r) :
    ∃ (j : Nat) (bs : List α), ls[j]? = some (r.1 :: bs) := by
  induction h with
  | skip _ ih | later _ _ ih =>
      obtain ⟨j, bs, hj⟩ := ih
      exact ⟨j + 1, bs, hj⟩
  | only _ | first _ _ _ => exact ⟨0, _, rfl⟩

theorem popMin_eq_none {ls : List (List α)} (h : ∀ l ∈ ls, l = []) : popMin key ls = none := by
  induction ls with
  | nil => rfl
  | cons l ls ih =>
      rw [h l List.mem_cons_self, popMin_nil_cons, ih fun l hl => h l (List.mem_cons_of_mem _ hl)]
      rfl

/-- The head of sequence `i` is removed where it is least, and less than those before it. -/
theorem popMin_eq_some {ls : List (List α)} {i : Nat} {a : α} {as : List α}
    (hi : ls[i]? = some (a :: as))
    (hbefore : ∀ j b bs, j < i → ls[j]? = some (b :: bs) → key a < key b)
    (hafter : ∀ j b bs, i < j → ls[j]? = some (b :: bs) → key a ≤ key b) :
    popMin key ls = some (a, ls.set i as) := by
  induction ls generalizing i with
  | nil => exact absurd hi (by simp)
  | cons l ls ih =>
      cases i with
      | zero =>
          rw [List.getElem?_cons_zero, Option.some.injEq] at hi
          subst hi
          rw [popMin_cons_cons, List.set_cons_zero]
          cases hpop : popMin key ls with
          | none => rfl
          | some r =>
              -- what is popped from the rest is a head there
              obtain ⟨j, bs, hj⟩ := (pops hpop).exists_head
              have hle := hafter (j + 1) r.1 bs (by omega) hj
              simp only [hle, if_true]
      | succ i =>
          have hrest := ih (i := i) hi
            (fun j b bs hj hb => hbefore (j + 1) b bs (by omega) hb)
            (fun j b bs hj hb => hafter (j + 1) b bs (by omega) hb)
          cases l with
          | nil =>
              rw [popMin_nil_cons, hrest]
              rfl
          | cons b bs =>
              have hlt := hbefore 0 b bs (by omega) rfl
              rw [popMin_cons_cons, hrest]
              simp only [not_le.mpr hlt, if_false, List.set_cons_succ]

/-- The removed element is the first of its key. -/
theorem Pops.filter {ls : List (List α)} {r : α × List (List α)} (h : Pops key ls r)
    (hsorted : ∀ l ∈ ls, l.Pairwise fun a b => key a ≤ key b) (k : κ) :
    ls.flatten.filter (fun a => key a = k) =
      [r.1].filter (fun a => key a = k) ++ r.2.flatten.filter fun a => key a = k := by
  induction h with
  | skip _ ih => simpa using ih fun l hl => hsorted l (List.mem_cons_of_mem _ hl)
  | only _ | first _ _ _ =>
      rw [← List.filter_append]
      rfl
  | @later a as ls r _ hlt ih =>
      rw [List.forall_mem_cons] at hsorted
      -- the whole first sequence is above the removed element
      have habove : ∀ x ∈ a :: as, key r.1 < key x :=
        List.forall_mem_cons.mpr
          ⟨hlt, fun x hx => hlt.trans_le ((List.pairwise_cons.mp hsorted.1).1 x hx)⟩
      have hcomm : (a :: as).filter (fun x => key x = k) ++ [r.1].filter (fun x => key x = k) =
          [r.1].filter (fun x => key x = k) ++ (a :: as).filter fun x => key x = k := by
        by_cases hk : key r.1 = k
        · have hnone : (a :: as).filter (fun x => key x = k) = [] := by
            refine List.filter_eq_nil_iff.mpr fun x hx => ?_
            simpa [hk] using (habove x hx).ne'
          rw [hnone, List.append_nil, List.nil_append]
        · have hnone : [r.1].filter (fun x => key x = k) = [] := by simp [hk]
          rw [hnone, List.append_nil, List.nil_append]
      rw [List.flatten_cons, List.flatten_cons, List.filter_append, List.filter_append,
        ih hsorted.2, ← List.append_assoc, hcomm, List.append_assoc]

theorem mergeFuel_perm {fuel : Nat} {ls : List (List α)} (hfuel : ls.flatten.length ≤ fuel) :
    (mergeFuel key fuel ls).Perm ls.flatten := by
  induction fuel generalizing ls with
  | zero =>
      have hnil : ls.flatten = [] := List.length_eq_zero_iff.mp (by omega)
      rw [hnil]
      exact List.Perm.refl _
  | succ fuel ih =>
      rw [mergeFuel]
      cases hpop : popMin key ls with
      | none =>
          rw [popMin_none hpop]
      | some r =>
          have hperm := (pops hpop).perm
          have hlen := hperm.length_eq
          rw [List.length_cons] at hlen
          exact ((ih (by omega)).cons r.1).trans hperm.symm

/-- The merge holds exactly the elements of its inputs. -/
theorem mergeAll_perm (ls : List (List α)) : (mergeAll key ls).Perm ls.flatten :=
  mergeFuel_perm (le_refl _)

theorem mergeFuel_sorted {fuel : Nat} {ls : List (List α)}
    (hfuel : ls.flatten.length ≤ fuel)
    (hsorted : ∀ l ∈ ls, l.Pairwise fun a b => key a ≤ key b) :
    (mergeFuel key fuel ls).Pairwise fun a b => key a ≤ key b := by
  induction fuel generalizing ls with
  | zero => exact List.Pairwise.nil
  | succ fuel ih =>
      rw [mergeFuel]
      cases hpop : popMin key ls with
      | none => exact List.Pairwise.nil
      | some r =>
          obtain ⟨hle, hall⟩ := (pops hpop).le hsorted
          have hlen := (pops hpop).perm.length_eq
          rw [List.length_cons] at hlen
          refine List.pairwise_cons.mpr ⟨?_, ih (by omega) hall⟩
          intro b hb
          exact hle b ((mergeFuel_perm (by omega)).mem_iff.mp hb)

theorem mergeAll_sorted {ls : List (List α)}
    (hsorted : ∀ l ∈ ls, l.Pairwise fun a b => key a ≤ key b) :
    (mergeAll key ls).Pairwise fun a b => key a ≤ key b :=
  mergeFuel_sorted (le_refl _) hsorted

theorem mergeFuel_eq {fuel : Nat} {ls : List (List α)} (hfuel : ls.flatten.length ≤ fuel) :
    mergeFuel key fuel ls = mergeAll key ls := by
  unfold mergeAll
  generalize hn : ls.flatten.length = n at hfuel ⊢
  induction n generalizing fuel ls with
  | zero =>
      have hpop : popMin key ls = none := by
        refine popMin_eq_none fun l hl => ?_
        exact List.flatten_eq_nil_iff.mp (List.length_eq_zero_iff.mp hn) l hl
      cases fuel with
      | zero => rfl
      | succ fuel => simp only [mergeFuel, hpop]
  | succ n ih =>
      obtain ⟨fuel, rfl⟩ : ∃ m, fuel = m + 1 := ⟨fuel - 1, by omega⟩
      rw [mergeFuel, mergeFuel]
      cases hpop : popMin key ls with
      | none => rfl
      | some r =>
          have hlen := (pops hpop).perm.length_eq
          rw [List.length_cons] at hlen
          simp only
          rw [ih (by omega) (by omega)]

/-- Elements of one key stay in the order of the inputs. -/
theorem mergeAll_filter {ls : List (List α)}
    (hsorted : ∀ l ∈ ls, l.Pairwise fun a b => key a ≤ key b) (k : κ) :
    (mergeAll key ls).filter (fun a => key a = k) = ls.flatten.filter fun a => key a = k := by
  unfold mergeAll
  generalize hn : ls.flatten.length = n
  induction n generalizing ls with
  | zero =>
      rw [List.length_eq_zero_iff.mp hn]
      rfl
  | succ n ih =>
      rw [mergeFuel]
      cases hpop : popMin key ls with
      | none =>
          rw [popMin_none hpop] at hn
          exact absurd hn (by simp)
      | some r =>
          have hlen := (pops hpop).perm.length_eq
          rw [List.length_cons] at hlen
          have hrest := ih ((pops hpop).le hsorted).2 (by omega)
          rw [(pops hpop).filter hsorted k, ← hrest, ← List.filter_append]
          rfl

end Merge

end Shrimpd.Lib
