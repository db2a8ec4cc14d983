import Shrimpd.Lib.Bytes

/-!
# UTF-8 text as runes

A byte string is read rune by rune.  A byte that starts no well-formed
sequence is a replacement rune of width one, so every string decodes.
-/

namespace Shrimpd.Lib

/-- The rune that stands for a byte outside any well-formed sequence. -/
def runeError : Nat := 0xFFFD

/-- Length of the sequence that a first byte announces, with the range of the second byte. -/
def leading (b : UInt8) : Option (Nat × UInt8 × UInt8) :=
  if 0xC2 ≤ b ∧ b ≤ 0xDF then some (2, 0x80, 0xBF)
  else if b = 0xE0 then some (3, 0xA0, 0xBF)
  else if b = 0xED then some (3, 0x80, 0x9F)
  else if 0xE1 ≤ b ∧ b ≤ 0xEF then some (3, 0x80, 0xBF)
  else if b = 0xF0 then some (4, 0x90, 0xBF)
  else if b = 0xF4 then some (4, 0x80, 0x8F)
  else if 0xF1 ≤ b ∧ b ≤ 0xF3 then some (4, 0x80, 0xBF)
  else none

def isTail (b : UInt8) : Bool := 0x80 ≤ b && b ≤ 0xBF

/-- The payload of a continuation byte. -/
def tailBits (b : UInt8) : Nat := b.toNat % 64

/-- A sequence of more than one byte, by what its first byte announces. -/
def decodeLong (b₀ : UInt8) (rest : Bytes) : Nat × Nat :=
  match leading b₀, rest with
  | some (2, lo, hi), b₁ :: _ =>
      if lo ≤ b₁ ∧ b₁ ≤ hi then (b₀.toNat % 32 * 64 + tailBits b₁, 2) else (runeError, 1)
  | some (3, lo, hi), b₁ :: b₂ :: _ =>
      if lo ≤ b₁ ∧ b₁ ≤ hi ∧ isTail b₂ then
        ((b₀.toNat % 16 * 64 + tailBits b₁) * 64 + tailBits b₂, 3)
      else (runeError, 1)
  | some (4, lo, hi), b₁ :: b₂ :: b₃ :: _ =>
      if lo ≤ b₁ ∧ b₁ ≤ hi ∧ isTail b₂ ∧ isTail b₃ then
        (((b₀.toNat % 8 * 64 + tailBits b₁) * 64 + tailBits b₂) * 64 + tailBits b₃, 4)
      else (runeError, 1)
  | _, _ => (runeError, 1)

/-- First rune of a string and its width in bytes. -/
def decodeRune : Bytes → Nat × Nat
  | [] => (runeError, 0)
  | b₀ :: rest => if b₀ < 0x80 then (b₀.toNat, 1) else decodeLong b₀ rest

def runesFuel : Nat → Bytes → List (Nat × Bytes)
  | 0, _ => []
  | _ + 1, [] => []
  | fuel + 1, b :: bs =>
      let r := decodeRune (b :: bs)
      (r.1, (b :: bs).take r.2) :: runesFuel fuel ((b :: bs).drop r.2)

/-- The runes of a string, each with the bytes it was read from. -/
def runes (s : Bytes) : List (Nat × Bytes) := runesFuel s.length s

def encodeTail (n : Nat) : UInt8 := UInt8.ofNat (0x80 + n % 64)

/-- The bytes of a rune; what is no scalar value is written as the replacement rune. -/
def encodeRune (r : Nat) : Bytes :=
  if r < 0x80 then [UInt8.ofNat r]
  else if r < 0x800 then [UInt8.ofNat (0xC0 + r / 64), encodeTail r]
  else if 0xD800 ≤ r ∧ r < 0xE000 ∨ 0x110000 ≤ r then [0xEF, 0xBF, 0xBD]
  else if r < 0x10000 then
    [UInt8.ofNat (0xE0 + r / 4096), encodeTail (r / 64), encodeTail r]
  else
    [UInt8.ofNat (0xF0 + r / 262144), encodeTail (r / 4096), encodeTail (r / 64), encodeTail r]

/-- A string as `encoding/json` writes it and reads it back: a byte outside any well-formed sequence
becomes the replacement rune. -/
def jsonString (s : Bytes) : Bytes :=
  (runes s).flatMap fun r => if r.1 = runeError ∧ r.2.length = 1 then encodeRune runeError else r.2

theorem decodeRune_ascii {b : UInt8} (hb : b < 0x80) (bs : Bytes) :
    decodeRune (b :: bs) = (b.toNat, 1) := by
  rw [decodeRune, if_pos hb]

theorem runesFuel_ascii {fuel : Nat} {s : Bytes} (hfuel : s.length ≤ fuel)
    (hs : ∀ b ∈ s, b < 0x80) : runesFuel fuel s = s.map fun b => (b.toNat, [b]) := by
  induction fuel generalizing s with
  | zero =>
      have hnil : s = [] := List.length_eq_zero_iff.mp (by omega)
      rw [hnil]
      rfl
  | succ fuel ih =>
      cases s with
      | nil => rfl
      | cons b bs =>
          have hb : b < 0x80 := hs b (by simp)
          rw [List.length_cons] at hfuel
          have htail := ih (s := bs) (by omega) fun c hc => hs c (by simp [hc])
          rw [runesFuel, decodeRune_ascii hb]
          simp only [List.take_succ_cons, List.take_zero, List.drop_succ_cons, List.drop_zero,
            List.map_cons, htail]

/-- On ASCII text each byte is its own rune. -/
theorem runes_ascii {s : Bytes} (hs : ∀ b ∈ s, b < 0x80) :
    runes s = s.map fun b => (b.toNat, [b]) :=
  runesFuel_ascii (le_refl _) hs

/-! ## Cutting at an ASCII byte -/

theorem leading_cases {b : UInt8} {k : Nat} {lo hi : UInt8} (h : leading b = some (k, lo, hi)) :
    0x80 ≤ lo ∧ (k = 2 ∨ k = 3 ∨ k = 4) := by
  unfold leading at h
  split_ifs at h
  all_goals
    simp only [Option.some.injEq, Prod.mk.injEq] at h
    obtain ⟨rfl, rfl, -⟩ := h
    decide

/-- An ASCII byte continues no sequence, so what follows it does not matter. -/
theorem decodeLong_append_ascii {c : UInt8} (hc : c < 0x80) (b₀ : UInt8) (as rest : Bytes) :
    decodeLong b₀ (as ++ c :: rest) = decodeLong b₀ as := by
  have hlt : ∀ lo : UInt8, 0x80 ≤ lo → ¬ lo ≤ c := fun lo hlo hle =>
    absurd (hlo.trans hle) (not_le.mpr hc)
  have htail : isTail c = false := by simp [isTail, hlt 0x80 le_rfl]
  rcases hlead : leading b₀ with _ | ⟨k, lo, hi⟩
  · simp [decodeLong, hlead]
  · obtain ⟨hlo, hk⟩ := leading_cases hlead
    rcases hk with rfl | rfl | rfl <;>
      rcases as with _ | ⟨x, _ | ⟨y, _ | ⟨z, as⟩⟩⟩ <;>
      rcases rest with _ | ⟨r, _ | ⟨t, rest⟩⟩ <;>
      simp [decodeLong, hlead, hlt lo hlo, htail]

theorem decodeRune_append_ascii {c : UInt8} (hc : c < 0x80) {a : Bytes} (ha : a ≠ [])
    (rest : Bytes) : decodeRune (a ++ c :: rest) = decodeRune a := by
  cases a with
  | nil => exact absurd rfl ha
  | cons b₀ as =>
      rw [List.cons_append, decodeRune, decodeRune, decodeLong_append_ascii hc]

theorem width_pos (b : UInt8) (bs : Bytes) : 0 < (decodeRune (b :: bs)).2 := by
  rw [decodeRune]
  split_ifs
  · exact Nat.one_pos
  · unfold decodeLong
    split <;> (try split_ifs) <;> simp

theorem width_le (a : Bytes) : (decodeRune a).2 ≤ a.length := by
  cases a with
  | nil => exact le_rfl
  | cons b₀ as =>
      rw [decodeRune]
      split_ifs
      · simp
      · unfold decodeLong
        split <;> (try split_ifs) <;> simp

theorem runesFuel_eq {fuel : Nat} {s : Bytes} (hfuel : s.length ≤ fuel) :
    runesFuel fuel s = runes s := by
  suffices h : ∀ (f g : Nat) (t : Bytes), t.length ≤ f → t.length ≤ g →
      runesFuel f t = runesFuel g t from h fuel s.length s hfuel le_rfl
  intro f
  induction f with
  | zero =>
      intro g t hf _
      rw [List.length_eq_zero_iff.mp (Nat.le_zero.mp hf)]
      cases g <;> rfl
  | succ f ih =>
      intro g t hf hg
      cases t with
      | nil => cases g <;> rfl
      | cons b bs =>
          cases g with
          | zero => simp at hg
          | succ g =>
              have hpos := width_pos b bs
              rw [List.length_cons] at hf hg
              simp only [runesFuel]
              congr 1
              apply ih
              all_goals
                rw [List.length_drop, List.length_cons]
                omega

theorem runes_cons (b : UInt8) (bs : Bytes) :
    runes (b :: bs) = ((decodeRune (b :: bs)).1, (b :: bs).take (decodeRune (b :: bs)).2) ::
      runes ((b :: bs).drop (decodeRune (b :: bs)).2) := by
  have hpos := width_pos b bs
  rw [runes, List.length_cons, runesFuel, runesFuel_eq]
  rw [List.length_drop, List.length_cons]
  omega

/-- Runes before and after an ASCII byte are read separately. -/
theorem runes_append_ascii {c : UInt8} (hc : c < 0x80) (a rest : Bytes) :
    runes (a ++ c :: rest) = runes a ++ runes (c :: rest) := by
  induction hlen : a.length using Nat.strong_induction_on generalizing a with
  | _ len ih =>
      cases a with
      | nil => rfl
      | cons b bs =>
          have hdecode := decodeRune_append_ascii hc (List.cons_ne_nil b bs) rest
          have hpos := width_pos b bs
          have hle := width_le (b :: bs)
          rw [List.cons_append] at hdecode
          rw [List.cons_append, runes_cons, runes_cons, hdecode, ← List.cons_append,
            List.take_append_of_le_length hle, List.drop_append_of_le_length hle,
            List.cons_append]
          congr 1
          apply ih _ ?_ _ rfl
          rw [List.length_drop]
          omega

theorem encodeRune_ascii {b : UInt8} (hb : b < 0x80) : encodeRune b.toNat = [b] := by
  have hlt : b.toNat < 0x80 := UInt8.lt_iff_toNat_lt.mp hb
  rw [encodeRune, if_pos hlt, UInt8.ofNat_toNat]

end Shrimpd.Lib
