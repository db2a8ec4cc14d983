import Shrimpd.Lib.Bytes

/-!
# Strings ended by a zero byte

A string ended by a zero byte is followed by more.  As long as the strings have
no zero byte themselves, the order of the wholes follows the order of the
strings, and the first zero byte ends the string.  The 16-bit numbers, high
byte first, are ordered as the numbers.
-/

namespace Shrimpd.Lib

/-! ## Numbers of two bytes -/

def bigEndian16 (n : Nat) : Bytes := [UInt8.ofNat (n / 256), UInt8.ofNat n]

def readBigEndian16 (bs : Bytes) : Nat := (bs.getD 0 0).toNat * 256 + (bs.getD 1 0).toNat

section BigEndian

variable {m n : Nat}

theorem toNat_bigEndian16 (hn : n < 65536) :
    (UInt8.ofNat (n / 256)).toNat = n / 256 ∧ (UInt8.ofNat n).toNat = n % 256 := by
  rw [UInt8.toNat_ofNat', UInt8.toNat_ofNat']
  exact ⟨Nat.mod_eq_of_lt (by omega), rfl⟩

theorem readBigEndian16_bigEndian16 (hn : n < 65536) : readBigEndian16 (bigEndian16 n) = n := by
  obtain ⟨hhigh, hlow⟩ := toNat_bigEndian16 hn
  change (UInt8.ofNat (n / 256)).toNat * 256 + (UInt8.ofNat n).toNat = n
  rw [hhigh, hlow]
  omega

/-- Two bytes are those of the number that is read from them. -/
theorem bigEndian16_readBigEndian16 {bs : Bytes} (hlen : bs.length = 2) :
    readBigEndian16 bs < 65536 ∧ bigEndian16 (readBigEndian16 bs) = bs := by
  obtain ⟨hi, lo, rfl⟩ := List.length_eq_two.mp hlen
  have hhi : hi.toNat < 256 := hi.toNat_lt
  have hlo : lo.toNat < 256 := lo.toNat_lt
  have hread : readBigEndian16 [hi, lo] = hi.toNat * 256 + lo.toNat := rfl
  have hlt : readBigEndian16 [hi, lo] < 65536 := by omega
  obtain ⟨hhigh, hlow⟩ := toNat_bigEndian16 hlt
  have hfirst : UInt8.ofNat (readBigEndian16 [hi, lo] / 256) = hi := by
    rw [← UInt8.toNat_inj, hhigh]
    omega
  have hsecond : UInt8.ofNat (readBigEndian16 [hi, lo]) = lo := by
    rw [← UInt8.toNat_inj, hlow]
    omega
  exact ⟨hlt, by rw [bigEndian16, hfirst, hsecond]⟩

theorem bigEndian16_lt (hn : n < 65536) (h : m < n) : bigEndian16 m < bigEndian16 n := by
  obtain ⟨hhigh, hlow⟩ := toNat_bigEndian16 hn
  obtain ⟨hhigh', hlow'⟩ := toNat_bigEndian16 (h.trans hn)
  rw [bigEndian16, bigEndian16, List.cons_lt_cons_iff, List.cons_lt_cons_iff,
    UInt8.lt_iff_toNat_lt, UInt8.lt_iff_toNat_lt, ← UInt8.toNat_inj, hhigh, hlow, hhigh', hlow']
  rcases Nat.lt_or_ge (m / 256) (n / 256) with hdiv | hdiv
  · exact Or.inl hdiv
  · exact Or.inr ⟨by omega, Or.inl (by omega)⟩

end BigEndian

/-! ## The separator -/

section Separator

variable {a b t : Bytes}

/-- A smaller string stays smaller when it is ended, unless it is continued by a zero byte. -/
theorem separated_lt_or (h : a < b) :
    (∃ rest, b = a ++ 0 :: rest) ∨ ∀ x y : Bytes, a ++ 0 :: x < b ++ y := by
  induction a generalizing b with
  | nil =>
      cases b with
      | nil => exact absurd h (lt_irrefl _)
      | cons c b =>
          by_cases hc : c = 0
          · exact Or.inl ⟨b, by rw [hc]; rfl⟩
          · refine Or.inr fun x y => ?_
            rw [List.nil_append, List.cons_append, List.cons_lt_cons_iff]
            exact Or.inl (UInt8.pos_iff_ne_zero.mpr hc)
  | cons u a ih =>
      cases b with
      | nil => exact absurd h (by simp)
      | cons v b =>
          rcases List.cons_lt_cons_iff.mp h with hlt | ⟨rfl, hlt⟩
          · refine Or.inr fun x y => ?_
            rw [List.cons_append, List.cons_append, List.cons_lt_cons_iff]
            exact Or.inl hlt
          · rcases ih hlt with ⟨rest, rfl⟩ | hall
            · exact Or.inl ⟨rest, rfl⟩
            · refine Or.inr fun x y => ?_
              rw [List.cons_append, List.cons_append, List.cons_lt_cons_iff]
              exact Or.inr ⟨rfl, hall x y⟩

theorem separated_lt (hb : 0 ∉ b) (h : a < b) (x y : Bytes) : a ++ 0 :: x < b ++ y := by
  rcases separated_lt_or h with ⟨rest, rfl⟩ | hall
  · exact absurd (List.mem_append_right a List.mem_cons_self) hb
  · exact hall x y

theorem lt_separated (a x : Bytes) : a < a ++ 0 :: x := by
  have hlt : a ++ [] < a ++ 0 :: x := (append_lt_append_left a).mpr (by simp)
  rwa [List.append_nil] at hlt

/-- What lies between the string ended by zero and by one starts with it and a zero. -/
theorem between_iff (k : Bytes) : a ++ [0] ≤ k ∧ k < a ++ [1] ↔ a ++ [0] <+: k := by
  constructor
  · rintro ⟨hle, hlt⟩
    obtain ⟨rest, rfl⟩ := List.isPrefixOf_iff_prefix.mp (isPrefixOf_of_between hle hlt)
    rw [← not_lt, append_lt_append_left] at hle
    rw [append_lt_append_left] at hlt
    cases rest with
    | nil => exact absurd (by simp) hle
    | cons c rest =>
        have hc : c < 1 := by
          rcases List.cons_lt_cons_iff.mp hlt with h | ⟨-, h⟩
          · exact h
          · exact absurd h (by simp)
        have hzero : c = 0 := by
          rw [← UInt8.toNat_inj]
          rw [UInt8.lt_iff_toNat_lt] at hc
          exact Nat.lt_one_iff.mp hc
        exact ⟨rest, by rw [hzero, List.append_assoc]; rfl⟩
  · rintro ⟨rest, rfl⟩
    rw [List.append_assoc, ← not_lt, append_lt_append_left, append_lt_append_left]
    constructor
    · rw [List.singleton_append, List.cons_lt_cons_iff]
      rintro (h | ⟨-, h⟩)
      · exact absurd h (lt_irrefl _)
      · exact absurd h (by simp)
    · rw [List.singleton_append, List.cons_lt_cons_iff]
      exact Or.inl (by decide)

theorem idxOf_separator (ha : 0 ∉ a) (x : Bytes) : (a ++ 0 :: x).idxOf 0 = a.length := by
  rw [List.idxOf_append_of_notMem ha, List.idxOf_cons_self, Nat.add_zero]

/-- Ended by the first zero byte of both, the strings are the same. -/
theorem separated_inj (ha : 0 ∉ a) (hb : 0 ∉ b) {x y : Bytes} (h : a ++ 0 :: x = b ++ 0 :: y) :
    a = b ∧ x = y := by
  have hlen : a.length = b.length := by rw [← idxOf_separator ha x, h, idxOf_separator hb y]
  obtain ⟨hab, hxy⟩ := List.append_inj h hlen
  exact ⟨hab, (List.cons.inj hxy).2⟩

/-- A string with the separator at its end starts another one only if the strings agree, or it
goes on behind the other's separator. -/
theorem prefix_separated_iff (ht : 0 ∉ t) (x : Bytes) :
    a ++ [0] <+: t ++ 0 :: x ↔ a = t ∨ ∃ r, a = t ++ 0 :: r ∧ r ++ [0] <+: x := by
  constructor
  · rintro ⟨rest, hrest⟩
    rw [List.append_assoc, List.singleton_append] at hrest
    by_cases ha : 0 ∈ a
    · right
      obtain ⟨s, r, ha', hs⟩ := List.eq_append_cons_of_mem ha
      rw [ha', List.append_assoc, List.cons_append] at hrest
      obtain ⟨rfl, hx⟩ := separated_inj hs ht hrest
      exact ⟨r, ha', rest, by rw [List.append_assoc]; exact hx⟩
    · exact Or.inl (separated_inj ha ht hrest).1
  · rintro (rfl | ⟨r, rfl, rest, hx⟩)
    · exact ⟨x, by rw [List.append_assoc]; rfl⟩
    · refine ⟨rest, ?_⟩
      rw [← hx]
      simp

end Separator

end Shrimpd.Lib
