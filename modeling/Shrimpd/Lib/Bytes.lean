import Mathlib.Data.Nat.Digits.Lemmas
import Mathlib.Data.List.Sort
import Mathlib.Data.List.Lex
import Mathlib.Order.Basic

/-!
# Byte strings

Strings are byte sequences, ordered bytewise.  This file fixes that type, the
order, ASCII literals, and the decimal notation of natural numbers together
with its parser.
-/

namespace Shrimpd.Lib

abbrev Bytes := List UInt8

/-- The bytes of an ASCII literal. -/
def ascii (s : String) : Bytes := s.toList.map fun c => c.toNat.toUInt8

instance linearOrderUInt8 : LinearOrder UInt8 where
  le_refl := UInt8.le_refl
  le_trans := fun _ _ _ => UInt8.le_trans
  lt_iff_le_not_ge := by
    intro a b
    rw [UInt8.lt_iff_toNat_lt, UInt8.le_iff_toNat_le, UInt8.le_iff_toNat_le]
    omega
  le_antisymm := fun _ _ => UInt8.le_antisymm
  le_total := UInt8.le_total
  toDecidableLE := inferInstance

instance lawfulBEqBytes : LawfulBEq (List UInt8) := inferInstance

/-! ## Decimal notation -/

/-- The byte of one decimal digit. -/
def digitByte (d : Nat) : UInt8 := UInt8.ofNat (48 + d)

/-- Decimal digits without leading zeros; zero is the empty string here, and
its callers pad. -/
def decimal (n : Nat) : Bytes := (Nat.digits 10 n).reverse.map digitByte

/-- `fmt.Sprintf("%0wd", n)`: decimal digits padded with zeros to width `w`. -/
def paddedDecimal (w n : Nat) : Bytes :=
  List.replicate (w - (decimal n).length) (digitByte 0) ++ decimal n

def isDigit (b : UInt8) : Bool := 48 ≤ b && b ≤ 57

/-- Read a nonempty string of decimal digits. -/
def parseUint : Bytes → Option Nat
  | [] => none
  | b :: bs =>
      (b :: bs).foldlM
        (fun acc c => if isDigit c then some (acc * 10 + (c.toNat - 48)) else none) 0

theorem toNat_digitByte {d : Nat} (hd : d < 10) : (digitByte d).toNat = 48 + d := by
  simp only [digitByte, UInt8.toNat_ofNat']
  omega

theorem isDigit_digitByte {d : Nat} (hd : d < 10) : isDigit (digitByte d) = true := by
  have htoNat := toNat_digitByte hd
  simp only [isDigit, Bool.and_eq_true, decide_eq_true_eq, UInt8.le_iff_toNat_le]
  constructor
  · show (48 : Nat) ≤ _
    omega
  · show _ ≤ (57 : Nat)
    omega

private theorem foldlM_digits (ds : List Nat) (hds : ∀ d ∈ ds, d < 10) (acc : Nat) :
    (ds.map digitByte).foldlM
        (fun acc c => if isDigit c then some (acc * 10 + (c.toNat - 48)) else none)
        acc =
      some (ds.foldl (fun acc d => acc * 10 + d) acc) := by
  induction ds generalizing acc with
  | nil => rfl
  | cons d ds ih =>
      have hd : d < 10 := hds d (by simp)
      simp only [List.map_cons, List.foldlM_cons, isDigit_digitByte hd, if_true,
        List.foldl_cons]
      rw [toNat_digitByte hd, Nat.add_sub_cancel_left]
      exact ih (fun d' hd' => hds d' (by simp [hd'])) _

private theorem foldl_digits_reverse (n k : Nat) :
    (List.replicate k 0 ++ (Nat.digits 10 n).reverse).foldl
      (fun acc d => acc * 10 + d) 0 = n := by
  have hrev : List.replicate k 0 ++ (Nat.digits 10 n).reverse =
      (Nat.digits 10 n ++ List.replicate k 0).reverse := by simp
  rw [hrev, List.foldl_reverse]
  have hfold := Nat.ofDigits_eq_foldr (α := Nat) 10 (Nat.digits 10 n ++ List.replicate k 0)
  rw [Nat.ofDigits_append_replicate_zero, Nat.ofDigits_digits] at hfold
  conv_rhs => rw [hfold]
  congr 1
  funext d acc
  simp only [Nat.cast_id]
  omega

/-- Parsing undoes padded printing, whatever the width. -/
theorem parseUint_paddedDecimal (w n : Nat) (hw : 0 < w) :
    parseUint (paddedDecimal w n) = some n := by
  have hmap : paddedDecimal w n =
      (List.replicate (w - (decimal n).length) 0 ++
        (Nat.digits 10 n).reverse).map digitByte := by
    simp [paddedDecimal, decimal]
  have hlt : ∀ d ∈ List.replicate (w - (decimal n).length) 0 ++
      (Nat.digits 10 n).reverse, d < 10 := by
    intro d hd
    rcases List.mem_append.mp hd with hd | hd
    · rw [List.eq_of_mem_replicate hd]
      omega
    · exact Nat.digits_lt_base (by omega) (List.mem_reverse.mp hd)
  have hne : paddedDecimal w n ≠ [] := by
    intro hnil
    have hlen := congrArg List.length hnil
    simp only [paddedDecimal, List.length_append, List.length_replicate,
      List.length_nil] at hlen
    omega
  unfold parseUint
  split
  · contradiction
  · rename_i b bs heq
    rw [← heq, hmap, foldlM_digits _ hlt, foldl_digits_reverse]

theorem isDigit_of_mem_paddedDecimal {w n : Nat} {b : UInt8} (hb : b ∈ paddedDecimal w n) :
    isDigit b = true := by
  rw [paddedDecimal, decimal, List.mem_append] at hb
  rcases hb with hb | hb
  · rw [List.eq_of_mem_replicate hb]
    decide
  · obtain ⟨d, hd, rfl⟩ := List.mem_map.mp hb
    exact isDigit_digitByte (Nat.digits_lt_base (by omega) (List.mem_reverse.mp hd))

theorem paddedDecimal_ne_nil {w : Nat} (hw : 0 < w) (n : Nat) : paddedDecimal w n ≠ [] := by
  intro hnil
  have hparse := parseUint_paddedDecimal w n hw
  rw [hnil] at hparse
  simp [parseUint] at hparse

/-! ## Signed numbers -/

def printInt (t : Int) : Bytes :=
  if t < 0 then 45 :: paddedDecimal 1 t.natAbs else paddedDecimal 1 t.natAbs

def parseInt : Bytes → Option Int
  | [] => none
  | b :: bs =>
      if b = 45 then (parseUint bs).map fun n => -Int.ofNat n
      else (parseUint (b :: bs)).map Int.ofNat

theorem parseInt_printInt (t : Int) : parseInt (printInt t) = some t := by
  have hparse := parseUint_paddedDecimal 1 t.natAbs (by omega)
  unfold printInt
  split_ifs with hneg
  · rw [parseInt, if_pos rfl, hparse, Option.map_some]
    congr 1
    show -((t.natAbs : Nat) : Int) = t
    omega
  · cases hdec : paddedDecimal 1 t.natAbs with
    | nil => exact absurd hdec (paddedDecimal_ne_nil (by omega) _)
    | cons b bs =>
        have hb : isDigit b = true :=
          isDigit_of_mem_paddedDecimal (w := 1) (n := t.natAbs) (by simp [hdec])
        have hne : b ≠ 45 := by
          rintro rfl
          exact absurd hb (by decide)
        rw [parseInt, if_neg hne, ← hdec, hparse, Option.map_some]
        congr 1
        show ((t.natAbs : Nat) : Int) = t
        omega

def isNumberByte (b : UInt8) : Bool := isDigit b || b == 45

theorem isNumberByte_of_mem_printInt {t : Int} {b : UInt8} (hb : b ∈ printInt t) :
    isNumberByte b = true := by
  unfold printInt at hb
  split_ifs at hb
  · rcases List.mem_cons.mp hb with rfl | hb
    · decide
    · simp [isNumberByte, isDigit_of_mem_paddedDecimal hb]
  · simp [isNumberByte, isDigit_of_mem_paddedDecimal hb]

theorem printInt_ne_nil (t : Int) : printInt t ≠ [] := by
  unfold printInt
  split_ifs
  · simp
  · exact paddedDecimal_ne_nil (by omega) _

/-! ## Order -/

theorem paddedDecimal_succ (w n : Nat) (hn : n < 10 ^ (w + 1)) :
    paddedDecimal (w + 1) n = paddedDecimal w (n / 10) ++ [digitByte (n % 10)] := by
  rcases Nat.eq_zero_or_pos n with rfl | hpos
  · simp [paddedDecimal, decimal, List.replicate_succ']
  · have hdigits : decimal n = decimal (n / 10) ++ [digitByte (n % 10)] := by
      rw [decimal, Nat.digits_def' (by omega) hpos, List.reverse_cons, List.map_append]
      rfl
    rw [paddedDecimal, paddedDecimal, hdigits, List.length_append, List.length_singleton,
      Nat.add_sub_add_right, List.append_assoc]

theorem length_paddedDecimal {w n : Nat} (hn : n < 10 ^ w) : (paddedDecimal w n).length = w := by
  induction w generalizing n with
  | zero =>
      obtain rfl : n = 0 := by omega
      rfl
  | succ w ih =>
      rw [paddedDecimal_succ w n hn, List.length_append, List.length_singleton, ih (by omega)]

theorem append_lt_append_of_lt {a b : Bytes} (hlen : a.length = b.length) (h : a < b)
    (x y : Bytes) : a ++ x < b ++ y := by
  induction a generalizing b with
  | nil =>
      rw [List.eq_nil_of_length_eq_zero hlen.symm] at h
      exact absurd h (lt_irrefl _)
  | cons u a ih =>
      cases b with
      | nil => exact absurd hlen (by simp)
      | cons v b =>
          rw [List.cons_append, List.cons_append]
          rw [List.cons_lt_cons_iff] at h ⊢
          exact h.imp_right fun ⟨heq, hlt⟩ => ⟨heq, ih (by simpa using hlen) hlt⟩

theorem append_lt_append_left (a : Bytes) {x y : Bytes} : a ++ x < a ++ y ↔ x < y := by
  induction a with
  | nil => rfl
  | cons u a ih => rw [List.cons_append, List.cons_append, List.cons_lt_cons_iff]; simp [ih]

/-- What lies between two strings with a common start has that start too. -/
theorem isPrefixOf_of_between {a x y k : Bytes} (hle : a ++ x ≤ k) (hlt : k < a ++ y) :
    a.isPrefixOf k = true := by
  induction a generalizing k with
  | nil => rfl
  | cons u a ih =>
      cases k with
      | nil => exact absurd hle (by simp)
      | cons v k =>
          rw [List.cons_append, List.cons_lt_cons_iff] at hlt
          rw [List.cons_append, ← not_lt, List.cons_lt_cons_iff] at hle
          obtain ⟨rfl, hrest⟩ := hlt.resolve_left fun h => hle (Or.inl h)
          have htail := ih (not_lt.mp fun h => hle (Or.inr ⟨rfl, h⟩)) hrest
          simpa using htail

/-- Numbers of one width are ordered as their notations. -/
theorem paddedDecimal_lt_paddedDecimal {w m n : Nat} (h : m < n) (hn : n < 10 ^ w) :
    paddedDecimal w m < paddedDecimal w n := by
  induction w generalizing m n with
  | zero => omega
  | succ w ih =>
      rw [paddedDecimal_succ w m (by omega), paddedDecimal_succ w n hn]
      rcases Nat.lt_or_ge (m / 10) (n / 10) with hdiv | hdiv
      · apply append_lt_append_of_lt ?_ (ih hdiv (by omega))
        rw [length_paddedDecimal (by omega), length_paddedDecimal (by omega)]
      · have heq : m / 10 = n / 10 := by omega
        rw [heq, append_lt_append_left, List.cons_lt_cons_iff, UInt8.lt_iff_toNat_lt,
          toNat_digitByte (by omega), toNat_digitByte (by omega)]
        left
        omega

end Shrimpd.Lib
