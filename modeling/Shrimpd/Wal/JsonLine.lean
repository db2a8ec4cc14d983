import Shrimpd.Wal.Record

/-!
# A JSON library for the log

Printing and reading of the objects the log writes: decimal integers, strings
with the usual escapes, keys in any order.  It satisfies `Jx.Lawful`, so the
assumptions on the JSON library are consistent and runs of the log can be
evaluated.
-/

namespace Shrimpd.Wal.JsonLine

open Shrimpd.Lib Shrimpd.Types

/-! ## Strings -/

def hexDigit (n : UInt8) : UInt8 := if n < 10 then 48 + n else 87 + n

def hexValue (b : UInt8) : UInt8 := if b ≤ 57 then b - 48 else b - 87

/-- Quote, backslash and control characters are escaped. -/
def escapeByte (b : UInt8) : Bytes :=
  if b = 34 then [92, 34]
  else if b = 92 then [92, 92]
  else if b = 10 then [92, 110]
  else if b = 13 then [92, 114]
  else if b = 9 then [92, 116]
  else if b < 32 then [92, 117, 48, 48, hexDigit (b / 16), hexDigit (b % 16)]
  else [b]

/-- The byte a two-character escape stands for. -/
def unescapeByte (c : UInt8) : UInt8 :=
  if c = 110 then 10 else if c = 114 then 13 else if c = 116 then 9 else c

def printStr (d : Bytes) : Bytes := 34 :: (d.flatMap escapeByte ++ [34])

/-- The contents of a string after its opening quote, and what follows it. -/
def unescape : Bytes → Option (Bytes × Bytes)
  | [] => none
  | b :: rest =>
      if b = 34 then some ([], rest)
      else if b = 92 then
        match rest with
        | [] => none
        | c :: rest =>
            if c = 117 then
              match rest with
              | _ :: _ :: h :: l :: rest =>
                  (unescape rest).map fun r => ((hexValue h * 16 + hexValue l) :: r.1, r.2)
              | _ => none
            else (unescape rest).map fun r => (unescapeByte c :: r.1, r.2)
      else (unescape rest).map fun r => (b :: r.1, r.2)

/-- The raw text of a string after its opening quote, and what follows it. -/
def skipString : Bytes → Option (Bytes × Bytes)
  | [] => none
  | b :: rest =>
      if b = 34 then some ([34], rest)
      else if b = 92 then
        match rest with
        | [] => none
        | c :: rest => (skipString rest).map fun r => (92 :: c :: r.1, r.2)
      else (skipString rest).map fun r => (b :: r.1, r.2)

def parseStr : Bytes → Option Bytes
  | [] => none
  | b :: rest => if b = 34 then (unescape rest).map Prod.fst else none

section Equations

variable {b c h l : UInt8} (rest : Bytes)

theorem unescape_quote : unescape (34 :: rest) = some ([], rest) := by
  conv_lhs => unfold unescape
  rw [if_pos rfl]

theorem skipString_quote : skipString (34 :: rest) = some ([34], rest) := by
  conv_lhs => unfold skipString
  rw [if_pos rfl]

theorem unescape_plain (hquote : b ≠ 34) (hslash : b ≠ 92) :
    unescape (b :: rest) = (unescape rest).map fun r => (b :: r.1, r.2) := by
  conv_lhs => unfold unescape
  rw [if_neg hquote, if_neg hslash]

theorem unescape_pair (hc : c ≠ 117) :
    unescape (92 :: c :: rest) = (unescape rest).map fun r => (unescapeByte c :: r.1, r.2) := by
  conv_lhs => unfold unescape
  rw [if_neg (by decide), if_pos rfl]
  simp only [if_neg hc]

theorem unescape_hex :
    unescape (92 :: 117 :: 48 :: 48 :: h :: l :: rest) =
      (unescape rest).map fun r => ((hexValue h * 16 + hexValue l) :: r.1, r.2) := rfl

theorem skipString_plain (hquote : b ≠ 34) (hslash : b ≠ 92) :
    skipString (b :: rest) = (skipString rest).map fun r => (b :: r.1, r.2) := by
  conv_lhs => unfold skipString
  rw [if_neg hquote, if_neg hslash]

theorem skipString_pair :
    skipString (92 :: c :: rest) = (skipString rest).map fun r => (92 :: c :: r.1, r.2) := rfl

end Equations

/-- Control characters below 32 survive the hexadecimal form. -/
theorem hex_roundtrip : ∀ b : Fin 32,
    hexValue (hexDigit (UInt8.ofNat b / 16)) * 16 + hexValue (hexDigit (UInt8.ofNat b % 16)) =
      UInt8.ofNat b := by
  decide

theorem hexDigit_plain : ∀ n : Fin 16,
    hexDigit (UInt8.ofNat n) ≠ 34 ∧ hexDigit (UInt8.ofNat n) ≠ 92 ∧
      hexDigit (UInt8.ofNat n) ≠ newline := by
  decide

theorem hexDigit_mod_plain (b : UInt8) :
    hexDigit (b % 16) ≠ 34 ∧ hexDigit (b % 16) ≠ 92 ∧ hexDigit (b % 16) ≠ newline := by
  have hlt : (b % 16).toNat < 16 := by
    rw [UInt8.toNat_mod]
    exact Nat.mod_lt _ (by decide)
  have hplain := hexDigit_plain ⟨(b % 16).toNat, hlt⟩
  rwa [UInt8.ofNat_toNat] at hplain

theorem hexDigit_div_plain (b : UInt8) :
    hexDigit (b / 16) ≠ 34 ∧ hexDigit (b / 16) ≠ 92 ∧ hexDigit (b / 16) ≠ newline := by
  have hlt : (b / 16).toNat < 16 := by
    have := b.toNat_lt
    rw [UInt8.toNat_div]
    show b.toNat / 16 < 16
    omega
  have hplain := hexDigit_plain ⟨(b / 16).toNat, hlt⟩
  rwa [UInt8.ofNat_toNat] at hplain

theorem newline_free_escapeByte (b : UInt8) : newline ∉ escapeByte b := by
  have hmod := (hexDigit_mod_plain b).2.2
  have hdiv := (hexDigit_div_plain b).2.2
  unfold escapeByte
  split_ifs
  · decide
  · decide
  · decide
  · decide
  · decide
  · simp only [List.mem_cons, List.not_mem_nil, or_false, not_or]
    exact ⟨by decide, by decide, by decide, by decide, hdiv.symm, hmod.symm⟩
  · rename_i h34 h92 h10 h13 h9 h32
    simpa [newline, eq_comm] using h10

theorem unescape_escapeByte (b : UInt8) (rest : Bytes) :
    unescape (escapeByte b ++ rest) = (unescape rest).map fun r => (b :: r.1, r.2) := by
  unfold escapeByte
  split_ifs with h34 h92 h10 h13 h9 h32
  · subst h34
    exact unescape_pair rest (by decide)
  · subst h92
    exact unescape_pair rest (by decide)
  · subst h10
    exact unescape_pair rest (by decide)
  · subst h13
    exact unescape_pair rest (by decide)
  · subst h9
    exact unescape_pair rest (by decide)
  · have hlt : b.toNat < 32 := UInt8.lt_iff_toNat_lt.mp h32
    have hround := hex_roundtrip ⟨b.toNat, hlt⟩
    simp only [UInt8.ofNat_toNat] at hround
    have hhex := unescape_hex (h := hexDigit (b / 16)) (l := hexDigit (b % 16)) rest
    rw [hround] at hhex
    exact hhex
  · exact unescape_plain rest h34 h92

theorem skipString_escapeByte (b : UInt8) (rest : Bytes) :
    skipString (escapeByte b ++ rest) =
      (skipString rest).map fun r => (escapeByte b ++ r.1, r.2) := by
  have hmod := hexDigit_mod_plain b
  have hdiv := hexDigit_div_plain b
  unfold escapeByte
  split_ifs with h34 h92 h10 h13 h9 h32
  · exact skipString_pair rest
  · exact skipString_pair rest
  · exact skipString_pair rest
  · exact skipString_pair rest
  · exact skipString_pair rest
  · change skipString (92 :: 117 :: 48 :: 48 :: hexDigit (b / 16) :: hexDigit (b % 16) :: rest) = _
    rw [skipString_pair, skipString_plain _ (by decide) (by decide),
      skipString_plain _ (by decide) (by decide), skipString_plain _ hdiv.1 hdiv.2.1,
      skipString_plain _ hmod.1 hmod.2.1]
    simp only [Option.map_map]
    rfl
  · exact skipString_plain rest h34 h92

theorem unescape_escaped (d rest : Bytes) :
    unescape (d.flatMap escapeByte ++ 34 :: rest) = some (d, rest) := by
  induction d with
  | nil => exact unescape_quote rest
  | cons b d ih =>
      rw [List.flatMap_cons, List.append_assoc, unescape_escapeByte, ih, Option.map_some]

theorem skipString_escaped (d rest : Bytes) :
    skipString (d.flatMap escapeByte ++ 34 :: rest) =
      some (d.flatMap escapeByte ++ [34], rest) := by
  induction d with
  | nil => exact skipString_quote rest
  | cons b d ih =>
      rw [List.flatMap_cons, List.append_assoc, skipString_escapeByte, ih, Option.map_some]
      simp

theorem parseStr_printStr (d : Bytes) : parseStr (printStr d) = some d := by
  rw [printStr, parseStr, if_pos rfl, unescape_escaped, Option.map_some]

theorem newline_free_printStr (d : Bytes) : newline ∉ printStr d := by
  simp only [printStr, List.mem_cons, List.mem_append, List.mem_flatMap, not_or, not_exists,
    List.not_mem_nil, or_false, not_and]
  exact ⟨by decide, fun b _ => newline_free_escapeByte b, by decide⟩

/-- A plain key needs no escapes. -/
theorem flatMap_escapeByte_plainKey {key : Bytes} (hkey : plainKey key = true) :
    key.flatMap escapeByte = key := by
  induction key with
  | nil => rfl
  | cons b key ih =>
      rw [plainKey, List.all_cons, Bool.and_eq_true] at hkey
      have hb : escapeByte b = [b] := by
        have hrange := hkey.1
        simp only [Bool.or_eq_true, Bool.and_eq_true, decide_eq_true_eq, beq_iff_eq] at hrange
        unfold escapeByte
        rcases hrange with ⟨hlo, hhi⟩ | rfl
        · rw [UInt8.le_iff_toNat_le] at hlo
          have hlo' : 97 ≤ b.toNat := hlo
          have hne : ∀ c : UInt8, c.toNat < 97 → b ≠ c := by
            rintro c hc rfl
            omega
          rw [if_neg (hne 34 (by decide)), if_neg (hne 92 (by decide)),
            if_neg (hne 10 (by decide)), if_neg (hne 13 (by decide)),
            if_neg (hne 9 (by decide)), if_neg]
          rw [UInt8.lt_iff_toNat_lt]
          show ¬b.toNat < 32
          omega
        · decide
      rw [List.flatMap_cons, hb, ih hkey.2]
      rfl

/-! ## Objects -/

def readValue : Bytes → Option (Bytes × Bytes)
  | [] => none
  | b :: rest =>
      if b = 34 then (skipString rest).map fun r => (34 :: r.1, r.2)
      else if isNumberByte b then some ((b :: rest).span isNumberByte)
      else none

/-- Members up to the closing brace, at most `fuel` of them. -/
def readFields : Nat → Bytes → Option (List (Bytes × Bytes))
  | 0, _ => none
  | fuel + 1, bs =>
      if bs.head? = some 34 then
        (unescape bs.tail).bind fun key =>
          if key.2.head? = some 58 then
            (readValue key.2.tail).bind fun value =>
              if value.2.head? = some 44 then
                (readFields fuel value.2.tail).map ((key.1, value.1) :: ·)
              else if value.2.head? = some 125 then some [(key.1, value.1)]
              else none
          else none
      else none

def readObject (bs : Bytes) : Option (List (Bytes × Bytes)) :=
  if bs.head? = some 123 then
    if bs.tail.head? = some 125 then some [] else readFields bs.length bs.tail
  else none

def json : Jx where
  int64 := printInt
  str := printStr
  int64Of := parseInt
  strOf := parseStr
  obj := readObject

theorem obj_json (bs : Bytes) : json.obj bs = readObject bs := rfl

theorem readValue_written {v : Bytes} (hv : json.Written v) {sep : UInt8}
    (hsep : isNumberByte sep = false) (rest : Bytes) :
    readValue (v ++ sep :: rest) = some (v, sep :: rest) := by
  rcases hv with ⟨t, rfl⟩ | ⟨d, rfl⟩
  · change readValue (printInt t ++ sep :: rest) = some (printInt t, sep :: rest)
    have hall : ∀ b ∈ printInt t, isNumberByte b = true :=
      fun b hb => isNumberByte_of_mem_printInt hb
    have hspan : (printInt t ++ sep :: rest).span isNumberByte = (printInt t, sep :: rest) := by
      rw [List.span_eq_takeWhile_dropWhile, List.takeWhile_append_of_pos hall,
        List.dropWhile_append_of_pos hall]
      simp [hsep]
    cases hprint : printInt t with
    | nil => exact absurd hprint (printInt_ne_nil t)
    | cons b bs =>
        have hb : isNumberByte b = true := hall b (by simp [hprint])
        have hne : b ≠ 34 := by
          rintro rfl
          exact absurd hb (by decide)
        rw [hprint] at hspan
        rw [List.cons_append, readValue, if_neg hne, if_pos hb, ← List.cons_append, hspan]
  · change readValue (printStr d ++ sep :: rest) = some (printStr d, sep :: rest)
    rw [printStr, List.cons_append, readValue, if_pos rfl, List.append_assoc,
      List.singleton_append, skipString_escaped, Option.map_some]

theorem readFields_member {key v : Bytes} (hkey : plainKey key = true) (hv : json.Written v)
    {sep : UInt8} (hsep : isNumberByte sep = false) (fuel : Nat) (rest : Bytes) :
    readFields (fuel + 1) (34 :: (key ++ 34 :: 58 :: (v ++ sep :: rest))) =
      if sep = 44 then (readFields fuel rest).map ((key, v) :: ·)
      else if sep = 125 then some [(key, v)]
      else none := by
  have hunescape := unescape_escaped key (58 :: (v ++ sep :: rest))
  rw [flatMap_escapeByte_plainKey hkey] at hunescape
  simp only [readFields, List.head?_cons, List.tail_cons, hunescape, Option.bind_some,
    readValue_written hv hsep, Option.some.injEq, if_true]

theorem lawful_json : json.Lawful where
  newline_free := by
    rintro v (⟨t, rfl⟩ | ⟨d, rfl⟩)
    · intro hmem
      exact absurd (isNumberByte_of_mem_printInt hmem) (by decide)
    · exact newline_free_printStr d
  int64Of_int64 := parseInt_printInt
  strOf_str := parseStr_printStr
  obj_objectLine := by
    intro k₁ v₁ k₂ v₂ hk₁ hk₂ hv₁ hv₂
    have hline : objectLine k₁ v₁ k₂ v₂ =
        123 :: 34 :: (k₁ ++ 34 :: 58 :: (v₁ ++
          44 :: 34 :: (k₂ ++ 34 :: 58 :: (v₂ ++ 125 :: [])))) := by
      have hopen : ascii "\x7b\"" = [123, 34] := by decide
      have hcolon : ascii "\":" = [34, 58] := by decide
      have hcomma : ascii ",\"" = [44, 34] := by decide
      have hclose : ascii "\x7d" = [125] := by decide
      rw [objectLine, hopen, hcolon, hcomma, hclose]
      simp
    rw [obj_json, hline, readObject, if_pos List.head?_cons, if_neg (by simp), List.tail_cons, List.length_cons,
      List.length_cons, readFields_member hk₁ hv₁ (by decide), if_pos rfl,
      readFields_member hk₂ hv₂ (by decide), if_neg (by decide), if_pos rfl, Option.map_some]

end Shrimpd.Wal.JsonLine
