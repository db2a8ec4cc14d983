import Shrimpd.Lib.Bytes
import Mathlib.Data.Nat.Bitwise

/-!
# Byte strings as bit arrays

Bit `n` of a byte string is bit `n % 8` of byte `n / 8`.  A bit is set by an
`or` with a power of two and read by an `and` with it.
-/

namespace Shrimpd.Lib

def bitAt (b : Bytes) (n : Nat) : Bool := (b.getD (n / 8) 0).toNat.testBit (n % 8)

section Bits

variable {k i : Nat}

theorem toNat_ofNat_two_pow (hk : k < 8) : (UInt8.ofNat (2 ^ k)).toNat = 2 ^ k := by
  have hlt : 2 ^ k < 2 ^ 8 := Nat.pow_lt_pow_right (by decide) hk
  rw [UInt8.toNat_ofNat', Nat.mod_eq_of_lt hlt]

theorem and_two_pow_ne_zero_iff (x : UInt8) (hk : k < 8) :
    x &&& UInt8.ofNat (2 ^ k) ≠ 0 ↔ x.toNat.testBit k = true := by
  have hand : (x &&& UInt8.ofNat (2 ^ k)).toNat = (x.toNat.testBit k).toNat * 2 ^ k := by
    rw [UInt8.toNat_and, toNat_ofNat_two_pow hk, Nat.and_two_pow]
  rw [ne_eq, ← UInt8.toNat_inj, hand]
  cases x.toNat.testBit k with
  | false => simp
  | true => simp

theorem testBit_or_two_pow (x : UInt8) (hk : k < 8) (j : Nat) :
    (x ||| UInt8.ofNat (2 ^ k)).toNat.testBit j = (x.toNat.testBit j || decide (k = j)) := by
  rw [UInt8.toNat_or, toNat_ofNat_two_pow hk, Nat.testBit_or, Nat.testBit_two_pow]

/-- Setting one bit sets this bit and no other. -/
theorem bitAt_modify_or (b : Bytes) (hi : i / 8 < b.length) (n : Nat) :
    bitAt (b.modify (i / 8) fun x => x ||| UInt8.ofNat (2 ^ (i % 8))) n =
      (bitAt b n || decide (i = n)) := by
  have hbit : i % 8 < 8 := Nat.mod_lt i (by decide)
  rw [bitAt, bitAt, List.getD_eq_getElem?_getD, List.getElem?_modify, List.getD_eq_getElem?_getD]
  by_cases hbyte : i / 8 = n / 8
  · rw [← hbyte, List.getElem?_eq_getElem hi]
    simp only [Option.map_eq_map, Option.map_some, Option.getD_some, if_true]
    have hsame : i % 8 = n % 8 ↔ i = n := by omega
    rw [testBit_or_two_pow _ hbit, decide_eq_decide.mpr hsame]
  · have hne : i ≠ n := fun h => hbyte (by rw [h])
    simp only [if_neg hbyte, Option.map_eq_map, Option.map_id', decide_eq_false hne,
      Bool.or_false]

theorem bitAt_replicate_zero (len n : Nat) : bitAt (List.replicate len 0) n = false := by
  have hzero : (List.replicate len (0 : UInt8)).getD (n / 8) 0 = 0 := by
    rw [List.getD_eq_getElem?_getD, List.getElem?_replicate]
    split_ifs
    · rfl
    · rfl
  rw [bitAt, hzero]
  exact Nat.zero_testBit _

/-- Byte strings of one length with the same bits are the same. -/
theorem ext_bitAt {a b : Bytes} (hlen : a.length = b.length)
    (hbits : ∀ n, bitAt a n = bitAt b n) : a = b := by
  apply List.ext_getElem hlen
  intro i ha hb
  rw [← UInt8.toNat_inj]
  apply Nat.eq_of_testBit_eq
  intro j
  rcases Nat.lt_or_ge j 8 with hj | hj
  · have hbit := hbits (8 * i + j)
    have hbyte : (8 * i + j) / 8 = i := by omega
    have hpos : (8 * i + j) % 8 = j := by omega
    rw [bitAt, bitAt, hbyte, hpos, List.getD_eq_getElem _ _ ha, List.getD_eq_getElem _ _ hb] at hbit
    exact hbit
  · have hpow : 2 ^ 8 ≤ 2 ^ j := Nat.pow_le_pow_right (by decide) hj
    rw [Nat.testBit_lt_two_pow ((a[i]).toNat_lt.trans_le hpow),
      Nat.testBit_lt_two_pow ((b[i]).toNat_lt.trans_le hpow)]

end Bits

end Shrimpd.Lib
