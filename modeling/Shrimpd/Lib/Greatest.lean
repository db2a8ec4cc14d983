import Mathlib.Data.List.Flatten
import Mathlib.Data.List.Perm.Basic

/-!
# The greatest members of a list

The last `n` of a list are `n` of its greatest members for every `n` just when
the list is sorted.
-/

namespace Shrimpd.Lib

variable {α β : Type*} {r : α → α → Prop}

/-- `kept` are `n` of the greatest members of `all`, or all of them when there are fewer. -/
structure Greatest (r : α → α → Prop) (n : Nat) (kept all : List α) : Prop where
  count : kept.length = min n all.length
  others : ∃ rest, (kept ++ rest).Perm all ∧ ∀ a ∈ rest, ∀ b ∈ kept, r a b

section Last

variable {l all : List α} {n : Nat}

theorem Greatest.perm (h : Greatest r n l all) (hn : all.length ≤ n) : l.Perm all := by
  obtain ⟨rest, hperm, -⟩ := h.others
  have hlen := hperm.length_eq
  rw [List.length_append, h.count, Nat.min_eq_right hn] at hlen
  have hnil : rest = [] := List.length_eq_zero_iff.mp (by omega)
  rwa [hnil, List.append_nil] at hperm

theorem greatest_drop (hperm : l.Perm all) (hsorted : l.Pairwise r) (n : Nat) :
    Greatest r n (l.drop (l.length - n)) all := by
  have hsplit := List.take_append_drop (l.length - n) l
  refine ⟨?_, l.take (l.length - n), ?_, ?_⟩
  · rw [List.length_drop, ← hperm.length_eq]
    omega
  · have hswap : (l.drop (l.length - n) ++ l.take (l.length - n)).Perm l := by
      conv_rhs => rw [← hsplit]
      exact List.perm_append_comm
    exact hswap.trans hperm
  · rw [← hsplit, List.pairwise_append] at hsorted
    exact hsorted.2.2

theorem sorted_of_greatest (hperm : l.Perm all)
    (h : ∀ n > 0, Greatest r n (l.drop (l.length - n)) all) : l.Pairwise r := by
  refine List.pairwise_iff_getElem.mpr fun i j hi hj hij => ?_
  -- the members from `j` on are kept, so all that is left comes from before
  obtain ⟨rest, hrest, hle⟩ := (h (l.length - j) (by omega)).others
  rw [Nat.sub_sub_self (Nat.le_of_lt hj)] at hrest hle
  have hsplit : (l.drop j ++ l.take j).Perm all := by
    refine List.Perm.trans ?_ hperm
    conv_rhs => rw [← List.take_append_drop j l]
    exact List.perm_append_comm
  have hsame := (List.perm_append_left_iff _).mp (hrest.trans hsplit.symm)
  refine hle _ (hsame.mem_iff.mpr ?_) _ ?_
  · exact List.mem_take_iff_getElem.mpr ⟨i, by omega, rfl⟩
  · exact List.mem_drop_iff_getElem.mpr ⟨0, by omega, rfl⟩

theorem greatest_iff : (∀ n > 0, Greatest r n (l.drop (l.length - n)) all) ↔
    l.Perm all ∧ l.Pairwise r := by
  refine ⟨fun h => ?_, fun ⟨hperm, hsorted⟩ n _ => greatest_drop hperm hsorted n⟩
  have hall := h (l.length + all.length + 1) (Nat.succ_pos _)
  rw [Nat.sub_eq_zero_of_le (by omega), List.drop_zero] at hall
  have hperm := hall.perm (by omega)
  exact ⟨hperm, sorted_of_greatest hperm h⟩

end Last

/-- Images that are parts of others make up the same as these only if none lacks anything. -/
theorem flatMap_perm_iff {l : List α} {f g : α → List β} (h : ∀ a ∈ l, (f a).Sublist (g a)) :
    (l.flatMap f).Perm (l.flatMap g) ↔ ∀ a ∈ l, f a = g a := by
  induction l with
  | nil => simp
  | cons a l ih =>
      have hhead := h a List.mem_cons_self
      have htail := ih fun b hb => h b (List.mem_cons_of_mem _ hb)
      rw [List.forall_mem_cons, ← htail, List.flatMap_cons, List.flatMap_cons]
      constructor
      · intro hperm
        have hle := (List.Sublist.flatMap_right l
          fun b hb => h b (List.mem_cons_of_mem _ hb)).length_le
        have hlen := hperm.length_eq
        rw [List.length_append, List.length_append] at hlen
        have hshort := hhead.length_le
        have heq := hhead.eq_of_length (by omega)
        rw [heq] at hperm
        exact ⟨heq, (List.perm_append_left_iff _).mp hperm⟩
      · rintro ⟨heq, hperm⟩
        rw [heq]
        exact hperm.append_left _

end Shrimpd.Lib
