import Shrimpd.Lib.Bytes
import Mathlib.Tactic.Ring

/-!
# Byte buffers

Fixed-width little-endian integers, conversions between signed and unsigned
machine integers, and buffers that are filled by writes at given positions.
Writes that follow one another amount to one write of their concatenation.
-/

namespace Shrimpd.Lib

/-! ## Little-endian integers -/

/-- The low `w` bytes of `n`, least significant first. -/
def putUint : Nat → Nat → Bytes
  | 0, _ => []
  | w + 1, n => UInt8.ofNat n :: putUint w (n / 256)

/-- The number whose little-endian bytes these are. -/
def getUint (bs : Bytes) : Nat := bs.foldr (fun b acc => b.toNat + 256 * acc) 0

@[simp] theorem length_putUint (w n : Nat) : (putUint w n).length = w := by
  induction w generalizing n with
  | zero => rfl
  | succ w ih => rw [putUint, List.length_cons, ih]

theorem getUint_putUint (w n : Nat) : getUint (putUint w n) = n % 256 ^ w := by
  induction w generalizing n with
  | zero => simp [putUint, getUint, Nat.mod_one]
  | succ w ih =>
      change (UInt8.ofNat n).toNat + 256 * getUint (putUint w (n / 256)) = _
      have hsplit : n % 256 ^ (w + 1) = n % 256 + 256 * (n / 256 % 256 ^ w) := by
        rw [pow_succ', Nat.mod_mul]
      rw [ih, UInt8.toNat_ofNat', hsplit]

theorem getUint_lt (bs : Bytes) : getUint bs < 256 ^ bs.length := by
  induction bs with
  | nil => exact Nat.one_pos
  | cons b bs ih =>
      change b.toNat + 256 * getUint bs < 256 ^ (bs.length + 1)
      have hb : b.toNat < 256 := b.toNat_lt
      rw [pow_succ]
      omega

/-- An integer of `k` bits fits in its bytes. -/
theorem getUint_putUint_of_lt {w k n : Nat} (hk : k = 8 * w) (hn : n < 2 ^ k) :
    getUint (putUint w n) = n := by
  have hpow : 256 ^ w = 2 ^ k := by
    rw [hk, pow_mul]
    norm_num
  rw [getUint_putUint, hpow, Nat.mod_eq_of_lt hn]

/-- The bytes of the number that was read from them. -/
theorem putUint_getUint (bs : Bytes) : putUint bs.length (getUint bs) = bs := by
  induction bs with
  | nil => rfl
  | cons b bs ih =>
      have hb : b.toNat < 256 := b.toNat_lt
      have hlow : UInt8.ofNat (b.toNat + 256 * getUint bs) = b := by
        rw [← UInt8.toNat_inj, UInt8.toNat_ofNat']
        omega
      have hhigh : (b.toNat + 256 * getUint bs) / 256 = getUint bs := by omega
      change UInt8.ofNat (b.toNat + 256 * getUint bs) ::
        putUint bs.length ((b.toNat + 256 * getUint bs) / 256) = _
      rw [hlow, hhigh, ih]

/-! ## Machine integers -/

/-- The `w`-bit unsigned integer with the value of `x` modulo `2 ^ w`. -/
def toUint (w : Nat) (x : Int) : Nat := (x % 2 ^ w).toNat

/-- The `w`-bit signed integer with the bits of `n`. -/
def toInt (w : Nat) (n : Nat) : Int := (n : Int).bmod (2 ^ w)

/-- The values of the type `int64`. -/
def IsInt64 (x : Int) : Prop := -2 ^ 63 ≤ x ∧ x < 2 ^ 63

instance (x : Int) : Decidable (IsInt64 x) := inferInstanceAs (Decidable (_ ∧ _))

theorem toUint_lt (w : Nat) (x : Int) : toUint w x < 2 ^ w := by
  have hpos : (0 : Int) < 2 ^ w := by positivity
  have hlt := Int.emod_lt_of_pos x hpos
  have hnonneg := Int.emod_nonneg x hpos.ne'
  rw [toUint, Int.toNat_lt hnonneg]
  exact_mod_cast hlt

/-- A conversion there and back reduces modulo the word size. -/
theorem toInt_toUint (w : Nat) (x : Int) : toInt w (toUint w x) = x.bmod (2 ^ w) := by
  have hpos : (0 : Int) < 2 ^ w := by positivity
  rw [toInt, toUint, Int.toNat_of_nonneg (Int.emod_nonneg x hpos.ne')]
  exact_mod_cast Int.emod_bmod (x := x) (n := 2 ^ w)

/-- The bits of a signed integer are those it was made of. -/
theorem toUint_toInt {w n : Nat} (hn : n < 2 ^ w) : toUint w (toInt w n) = n := by
  have hlt : (n : Int) < 2 ^ w := by exact_mod_cast hn
  have hmod : (n : Int).bmod (2 ^ w) % 2 ^ w = n % 2 ^ w := by
    exact_mod_cast Int.bmod_emod (x := n) (m := 2 ^ w)
  rw [toUint, toInt, hmod, Int.emod_eq_of_lt (Int.natCast_nonneg n) hlt, Int.toNat_natCast]

theorem toInt64_toUint64 {x : Int} (hx : IsInt64 x) : toInt 64 (toUint 64 x) = x := by
  obtain ⟨hlow, hhigh⟩ := hx
  rw [toInt_toUint]
  apply Int.bmod_eq_of_le <;> norm_num <;> omega

/-- A signed integer that went through its eight bytes. -/
theorem toInt64_word {x : Int} (hx : IsInt64 x) :
    toInt 64 (getUint (putUint 8 (toUint 64 x))) = x := by
  rw [getUint_putUint_of_lt rfl (toUint_lt 64 x), toInt64_toUint64 hx]

theorem isInt64_natCast {n : Nat} (hn : n < 2 ^ 63) : IsInt64 n := by
  have hcast : (n : Int) < 2 ^ 63 := by exact_mod_cast hn
  constructor
  · omega
  · exact hcast

theorem toInt_natCast {w n : Nat} (hn : 2 * n < 2 ^ w) : toInt w n = n := by
  have hcast : ((2 ^ w : Nat) : Int) = 2 ^ w := by push_cast; rfl
  apply Int.bmod_eq_of_le
  · omega
  · omega

theorem toUint_natCast {w n : Nat} (hn : n < 2 ^ w) : toUint w n = n := by
  have hlt : (n : Int) < 2 ^ w := by exact_mod_cast hn
  rw [toUint, Int.emod_eq_of_lt (Int.natCast_nonneg n) hlt, Int.toNat_natCast]

/-- A natural number that went through `w` bytes as a signed integer. -/
theorem toInt_word_natCast {w k n : Nat} (hk : k = 8 * w) (hn : 2 * n < 2 ^ k) :
    toInt k (getUint (putUint w (toUint k n))) = n := by
  rw [getUint_putUint_of_lt hk (toUint_lt k n), toUint_natCast (by omega), toInt_natCast hn]

/-! ## Writing in place -/

/-- Overwrite the bytes from `pos` on; the buffer keeps its length if they fit. -/
def writeAt (buf : Bytes) (pos : Nat) (bs : Bytes) : Bytes :=
  buf.take pos ++ bs ++ buf.drop (pos + bs.length)

/-- Write the chunks one after the other, starting at `pos`. -/
def writeChunks (buf : Bytes) (pos : Nat) : List Bytes → Bytes
  | [] => buf
  | c :: cs => writeChunks (writeAt buf pos c) (pos + c.length) cs

/-- A buffer that every step leaves at its length. -/
theorem length_foldl {α : Type*} {f : Bytes → α → Bytes} (hf : ∀ b a, (f b a).length = b.length)
    (as : List α) (b : Bytes) : (as.foldl f b).length = b.length := by
  induction as generalizing b with
  | nil => rfl
  | cons a as ih => rw [List.foldl_cons, ih, hf]

theorem length_writeAt {buf : Bytes} {pos : Nat} {bs : Bytes} (h : pos + bs.length ≤ buf.length) :
    (writeAt buf pos bs).length = buf.length := by
  simp only [writeAt, List.length_append, List.length_take, List.length_drop]
  omega

theorem writeAt_append {buf : Bytes} {pos : Nat} {a b : Bytes} (h : pos + a.length ≤ buf.length) :
    writeAt (writeAt buf pos a) (pos + a.length) b = writeAt buf pos (a ++ b) := by
  have hlen : (buf.take pos ++ a).length = pos + a.length := by
    rw [List.length_append, List.length_take]
    omega
  have htake : (writeAt buf pos a).take (pos + a.length) = buf.take pos ++ a := by
    rw [writeAt, ← hlen, List.take_left]
  have hdrop : (writeAt buf pos a).drop (pos + a.length + b.length) =
      buf.drop (pos + (a ++ b).length) := by
    rw [← List.drop_drop, writeAt, ← hlen, List.drop_left, List.drop_drop, hlen,
      List.length_append, Nat.add_assoc]
  rw [writeAt, htake, hdrop, writeAt, List.append_assoc (buf.take pos) a b]

theorem writeChunks_eq {buf : Bytes} {pos : Nat} {cs : List Bytes}
    (h : pos + cs.flatten.length ≤ buf.length) :
    writeChunks buf pos cs = writeAt buf pos cs.flatten := by
  induction cs generalizing buf pos with
  | nil => simp [writeChunks, writeAt]
  | cons c cs ih =>
      rw [List.flatten_cons, List.length_append] at h
      have hfit : pos + c.length + cs.flatten.length ≤ (writeAt buf pos c).length := by
        rw [length_writeAt (by omega)]
        omega
      rw [writeChunks, ih hfit, writeAt_append (by omega), List.flatten_cons]

theorem writeChunks_append (buf : Bytes) (pos : Nat) (as bs : List Bytes) :
    writeChunks (writeChunks buf pos as) (pos + as.flatten.length) bs =
      writeChunks buf pos (as ++ bs) := by
  induction as generalizing buf pos with
  | nil => simp [writeChunks]
  | cons a as ih =>
      rw [List.cons_append, writeChunks, writeChunks, ← ih, List.flatten_cons,
        List.length_append, Nat.add_assoc]

/-- A buffer that is overwritten from end to end. -/
theorem writeChunks_all {buf : Bytes} {cs : List Bytes} (h : cs.flatten.length = buf.length) :
    writeChunks buf 0 cs = cs.flatten := by
  rw [writeChunks_eq (by omega)]
  simp [writeAt, h]

end Shrimpd.Lib
