import Shrimpd.Api.JsonAny

/-!
# A JSON library for log records

Strings with the usual escapes, decimal numbers, and a reader that finds the
fields of an object by keeping count of open brackets.  It satisfies
`JsonLib.Lawful`, so what is assumed of the JSON library is consistent and lines
can be evaluated.
-/

namespace Shrimpd.Api.Otlp.JsonText

open Shrimpd.Lib Shrimpd.Filter Shrimpd.Wal.JsonLine

/-! ## The end of a value -/

inductive Mode where
  | plain
  | string
  | escaped

/-- Put a text in front of what was scanned. -/
def prepend (text : Bytes) (out : Option (Bytes × Bytes)) : Option (Bytes × Bytes) :=
  out.map fun r => (text ++ r.1, r.2)

/-- The text up to the comma or closing bracket that ends a value at depth 0, and the rest. -/
def scan : Nat → Mode → Bytes → Option (Bytes × Bytes)
  | _, _, [] => none
  | depth, .plain, b :: rest =>
      if b = 34 then prepend [b] (scan depth .string rest)
      else if b = 123 ∨ b = 91 then prepend [b] (scan (depth + 1) .plain rest)
      else if b = 125 ∨ b = 93 then
        if depth = 0 then some ([], b :: rest) else prepend [b] (scan (depth - 1) .plain rest)
      else if b = 44 ∧ depth = 0 then some ([], b :: rest)
      else prepend [b] (scan depth .plain rest)
  | depth, .string, b :: rest =>
      if b = 92 then prepend [b] (scan depth .escaped rest)
      else if b = 34 then prepend [b] (scan depth .plain rest)
      else prepend [b] (scan depth .string rest)
  | depth, .escaped, b :: rest => prepend [b] (scan depth .string rest)

theorem prepend_prepend (a b : Bytes) (out : Option (Bytes × Bytes)) :
    prepend a (prepend b out) = prepend (a ++ b) out := by
  cases out <;> simp [prepend]

/-- The scan goes through a text without stopping and comes out at the same depth. -/
def Passes (depth : Nat) (text : Bytes) : Prop :=
  ∀ rest, scan depth .plain (text ++ rest) = prepend text (scan depth .plain rest)

section Scanning

variable {depth : Nat} {b : UInt8} {rest : Bytes}

theorem scan_open (h : b = 123 ∨ b = 91) :
    scan depth .plain (b :: rest) = prepend [b] (scan (depth + 1) .plain rest) := by
  rcases h with rfl | rfl <;> rfl

theorem scan_close (h : b = 125 ∨ b = 93) :
    scan (depth + 1) .plain (b :: rest) = prepend [b] (scan depth .plain rest) := by
  rcases h with rfl | rfl <;> rfl

theorem scan_stop (h : b = 44 ∨ b = 125) : scan 0 .plain (b :: rest) = some ([], b :: rest) := by
  rcases h with rfl | rfl <;> rfl

theorem Passes.append {s t : Bytes} (hs : Passes depth s) (ht : Passes depth t) :
    Passes depth (s ++ t) := by
  intro rest
  rw [List.append_assoc, hs, ht, prepend_prepend]

/-- Bytes that neither open nor close anything. -/
def isInert (b : UInt8) : Bool :=
  b != 34 && b != 123 && b != 91 && b != 125 && b != 93 && b != 44

theorem passes_of_inert {text : Bytes} (h : text.all isInert = true) : Passes depth text := by
  intro rest
  induction text with
  | nil =>
      rw [List.nil_append]
      cases scan depth .plain rest <;> rfl
  | cons b text ih =>
      rw [List.all_cons, Bool.and_eq_true] at h
      have hb := h.1
      simp only [isInert, Bool.and_eq_true, bne_iff_ne, ne_eq] at hb
      rw [List.cons_append, scan, ih h.2, prepend_prepend]
      simp [hb]

theorem passes_comma : Passes (depth + 1) [44] := fun _ => rfl

theorem Passes.bracketed {text : Bytes} (h : Passes (depth + 1) text) {opening closing : UInt8}
    (hopen : opening = 123 ∨ opening = 91) (hclose : closing = 125 ∨ closing = 93) :
    Passes depth (opening :: (text ++ [closing])) := by
  intro rest
  rw [List.cons_append, scan_open hopen, List.append_assoc, List.singleton_append, h,
    scan_close hclose, prepend_prepend, prepend_prepend]
  rfl

theorem scan_string_plain (hslash : b ≠ 92) (hquote : b ≠ 34) :
    scan depth .string (b :: rest) = prepend [b] (scan depth .string rest) :=
  (if_neg hslash).trans (if_neg hquote)

theorem scan_string_pair {c : UInt8} :
    scan depth .string (92 :: c :: rest) = prepend [92, c] (scan depth .string rest) :=
  prepend_prepend [92] [c] _

theorem scan_escapeByte (b : UInt8) :
    scan depth .string (escapeByte b ++ rest) =
      prepend (escapeByte b) (scan depth .string rest) := by
  unfold escapeByte
  split_ifs with hquote hslash hnewline hreturn htab hcontrol
  iterate 5 exact scan_string_pair
  · have hdiv := hexDigit_div_plain b
    have hmod := hexDigit_mod_plain b
    simp only [List.cons_append, List.nil_append]
    rw [scan_string_pair, scan_string_plain (by decide) (by decide),
      scan_string_plain (by decide) (by decide), scan_string_plain hdiv.2.1 hdiv.1,
      scan_string_plain hmod.2.1 hmod.1]
    simp only [prepend_prepend]
    rfl
  · exact scan_string_plain hslash hquote

theorem scan_escaped (d : Bytes) :
    scan depth .string (d.flatMap escapeByte ++ 34 :: rest) =
      prepend (d.flatMap escapeByte ++ [34]) (scan depth .plain rest) := by
  induction d with
  | nil => rfl
  | cons b d ih =>
      rw [List.flatMap_cons, List.append_assoc, scan_escapeByte, ih, prepend_prepend,
        List.append_assoc]

theorem passes_printStr (d : Bytes) : Passes depth (printStr d) := by
  intro rest
  have hopen : scan depth .plain (printStr d ++ rest) =
      prepend [34] (scan depth .string (d.flatMap escapeByte ++ 34 :: rest)) := by
    rw [printStr, List.cons_append, List.append_assoc]
    rfl
  rw [hopen, scan_escaped, prepend_prepend]
  rfl

theorem commaJoin_cons_cons (a b : Bytes) (l : List Bytes) :
    commaJoin (a :: b :: l) = a ++ 44 :: commaJoin (b :: l) := by
  simp [commaJoin]

theorem commaJoin_singleton (a : Bytes) : commaJoin [a] = a := by
  simp [commaJoin]

theorem passes_commaJoin {texts : List Bytes} (h : ∀ t ∈ texts, Passes (depth + 1) t) :
    Passes (depth + 1) (commaJoin texts) := by
  induction texts with
  | nil => exact passes_of_inert rfl
  | cons a l ih =>
      rw [List.forall_mem_cons] at h
      cases l with
      | nil =>
          rw [commaJoin_singleton]
          exact h.1
      | cons b l =>
          rw [commaJoin_cons_cons, ← List.singleton_append]
          exact h.1.append (passes_comma.append (ih h.2))

end Scanning

/-! ## The library -/

/-- A value by its first byte. -/
def classify (raw : Bytes) : JsonValue :=
  match raw.head? with
  | none => .other raw
  | some b =>
      if b = 34 then
        match parseStr raw with
        | some s => .str s raw
        | none => .other raw
      else if isNumberByte b then .num raw
      else .other raw

/-- Members up to the closing brace, at most `fuel` of them. -/
def readMembers : Nat → Bytes → Option (List Field)
  | 0, _ => none
  | fuel + 1, bs =>
      if bs.head? = some 34 then
        (unescape bs.tail).bind fun key =>
          if key.2.head? = some 58 then
            (scan 0 .plain key.2.tail).bind fun value =>
              if value.2.head? = some 44 then
                (readMembers fuel value.2.tail).map ((key.1, classify value.1) :: ·)
              else if value.2 = [125] then some [(key.1, classify value.1)]
              else none
          else none
      else none

def reader : JsonReader where
  fields text :=
    if text.head? = some 123 then
      if text.tail = [125] then ([], true)
      else
        match readMembers text.length text.tail with
        | some fs => (fs, true)
        | none => ([], false)
    else ([], false)

def printed (s : Bytes) : JsonValue := .str s (printStr s)

def lib : JsonLib where
  str := printed
  base64 := printed
  float64 bits := .num (printInt bits)
  int64 i := .num (printInt i)
  reader := reader
  valid text := (reader.fields text).2

theorem inert_of_number {b : UInt8} (h : isNumberByte b = true) : isInert b = true := by
  by_contra hnot
  simp only [isInert, Bool.and_eq_true, bne_iff_ne, ne_eq, not_and_or, not_not] at hnot
  rcases hnot with ((((rfl | rfl) | rfl) | rfl) | rfl) | rfl <;> exact absurd h (by decide)

theorem passes_printInt (depth : Nat) (i : Int) : Passes depth (printInt i) :=
  passes_of_inert (List.all_eq_true.mpr fun _ hb =>
    inert_of_number (isNumberByte_of_mem_printInt hb))

theorem passes_written {v : AnyValue} (h : Writable lib v) (depth : Nat) :
    Passes depth (written lib v) := by
  induction v using AnyValue.induct generalizing depth with
  | hnull => exact passes_of_inert rfl
  | hbool b => cases b <;> exact passes_of_inert rfl
  | hstr s => exact passes_printStr s
  | hbytes b => exact passes_printStr b
  | hfloat bits =>
      by_cases hfinite : isFinite bits = true
      · rw [Writable, writeJSONAny, if_pos hfinite] at h
        rw [← Except.ok.inj h]
        exact passes_printInt depth bits
      · rw [Writable, writeJSONAny, if_neg hfinite] at h
        cases h
  | hint i => exact passes_printInt depth i
  | hmap fields ih =>
      rw [written_map h]
      apply Passes.bracketed _ (Or.inl rfl) (Or.inl rfl)
      apply passes_commaJoin
      intro text htext
      obtain ⟨f, hf, rfl⟩ := List.mem_map.mp htext
      rw [memberOf, memberText, ← List.singleton_append]
      have hcolon : Passes (depth + 1) [58] := passes_of_inert rfl
      exact (passes_printStr f.1).append
        (hcolon.append (ih f hf (writable_map_iff.mp h f hf) (depth + 1)))
  | hslice items ih =>
      rw [written_slice h]
      apply Passes.bracketed _ (Or.inr rfl) (Or.inr rfl)
      apply passes_commaJoin
      intro text htext
      obtain ⟨v, hv, rfl⟩ := List.mem_map.mp htext
      exact ih v hv (writable_slice_iff.mp h v hv) (depth + 1)

theorem classify_printInt (i : Int) : classify (printInt i) = .num (printInt i) := by
  cases hprint : printInt i with
  | nil => exact absurd hprint (printInt_ne_nil i)
  | cons b bs =>
      have hb : isNumberByte b = true := isNumberByte_of_mem_printInt (t := i) (by simp [hprint])
      have hquote : b ≠ 34 := by
        rintro rfl
        exact absurd hb (by decide)
      simp [classify, hquote, hb]

theorem classify_printStr (s : Bytes) : classify (printStr s) = printed s := by
  have hhead : (printStr s).head? = some 34 := rfl
  simp only [classify, hhead, if_true, parseStr_printStr]
  rfl

/-- A written value is handed over as what it was. -/
theorem classify_written {v : AnyValue} (h : Writable lib v) :
    classify (written lib v) = readBack lib v := by
  cases v with
  | null => decide
  | bool b => cases b <;> decide
  | str s => exact classify_printStr s
  | bytes b => exact classify_printStr b
  | float64 bits =>
      by_cases hfinite : isFinite bits = true
      · rw [Writable, writeJSONAny, if_pos hfinite] at h
        rw [← Except.ok.inj h]
        exact classify_printInt bits
      · rw [Writable, writeJSONAny, if_neg hfinite] at h
        cases h
  | int64 i => exact classify_printInt i
  | map fields =>
      have hhead : (written lib (.map fields)).head? = some 123 := by
        rw [written_map h]
        rfl
      simp only [classify, hhead]
      rfl
  | slice items =>
      have hhead : (written lib (.slice items)).head? = some 91 := by
        rw [written_slice h]
        rfl
      simp only [classify, hhead]
      rfl

theorem scan_written {v : AnyValue} (h : Writable lib v) {sep : UInt8} (hsep : sep = 44 ∨ sep = 125)
    (rest : Bytes) :
    scan 0 .plain (written lib v ++ sep :: rest) = some (written lib v, sep :: rest) := by
  rw [passes_written h 0, scan_stop hsep]
  simp [prepend]

theorem readMembers_member {f : Bytes × AnyValue} (h : Writable lib f.2) {sep : UInt8}
    (hsep : sep = 44 ∨ sep = 125) (fuel : Nat) (rest : Bytes) :
    readMembers (fuel + 1) (memberOf lib f ++ sep :: rest) =
      if sep = 44 then (readMembers fuel rest).map (readField lib f :: ·)
      else if rest = [] then some [readField lib f]
      else none := by
  have htext : memberOf lib f ++ sep :: rest =
      34 :: (f.1.flatMap escapeByte ++ 34 :: 58 :: (written lib f.2 ++ sep :: rest)) := by
    simp [memberOf, memberText, lib, printed, rawText, printStr]
  rw [htext, readMembers]
  simp only [List.head?_cons, List.tail_cons, if_true, unescape_escaped, Option.bind_some,
    scan_written h hsep, classify_written h]
  rcases hsep with rfl | rfl <;> simp [readField, lib, printed, JsonValue.text]

theorem readMembers_fields {f : Bytes × AnyValue} {fields : List (Bytes × AnyValue)}
    (h : ∀ g ∈ f :: fields, Writable lib g.2) {fuel : Nat} (hfuel : fields.length < fuel) :
    readMembers fuel (commaJoin ((f :: fields).map (memberOf lib)) ++ [125]) =
      some ((f :: fields).map (readField lib)) := by
  induction fields generalizing f fuel with
  | nil =>
      obtain ⟨fuel, rfl⟩ := Nat.exists_eq_add_of_lt hfuel
      rw [List.map_singleton, commaJoin_singleton,
        readMembers_member (h f List.mem_cons_self) (Or.inr rfl)]
      simp
  | cons g fields ih =>
      obtain ⟨fuel, rfl⟩ : ∃ n, fuel = n + 1 := ⟨fuel - 1, by omega⟩
      rw [List.length_cons] at hfuel
      rw [List.forall_mem_cons] at h
      rw [List.map_cons, List.map_cons, commaJoin_cons_cons, List.append_assoc, List.cons_append,
        readMembers_member h.1 (Or.inl rfl), ← List.map_cons, ih h.2 (by omega)]
      simp

theorem length_le_commaJoin (fields : List (Bytes × AnyValue)) :
    fields.length ≤ (commaJoin (fields.map (memberOf lib))).length := by
  induction fields with
  | nil => exact Nat.zero_le _
  | cons f fields ih =>
      have hpos : 0 < (memberOf lib f).length := by
        simp [memberOf, memberText]
      cases fields with
      | nil =>
          rw [List.map_singleton, commaJoin_singleton]
          exact hpos
      | cons g fields =>
          rw [List.map_cons, List.map_cons, commaJoin_cons_cons]
          simp only [List.map_cons, List.length_append, List.length_cons] at ih ⊢
          omega

theorem fields_written {fields : List (Bytes × AnyValue)} (h : Writable lib (.map fields)) :
    reader.fields (written lib (.map fields)) = (fields.map (readField lib), true) := by
  rw [written_map h]
  cases fields with
  | nil => rfl
  | cons f fields =>
      have hlength := length_le_commaJoin (f :: fields)
      have hfuel : fields.length < (objText ((f :: fields).map (memberOf lib))).length := by
        rw [List.length_cons] at hlength
        rw [objText, List.length_cons, List.length_append]
        omega
      have hread := readMembers_fields (writable_map_iff.mp h) hfuel
      have hmore : commaJoin ((f :: fields).map (memberOf lib)) ++ [125] ≠ [125] := by
        intro heq
        have hlen := congrArg List.length heq
        rw [List.length_append, List.length_singleton] at hlen
        rw [List.length_cons] at hlength
        omega
      have htail : (objText ((f :: fields).map (memberOf lib))).tail =
          commaJoin ((f :: fields).map (memberOf lib)) ++ [125] := rfl
      have hhead : (objText ((f :: fields).map (memberOf lib))).head? = some 123 := rfl
      simp only [reader, hhead, if_true, htail, if_neg hmore, hread]

theorem lawful_lib : lib.Lawful where
  str_isStr _ := rfl
  str_text _ _ := rfl
  valid fields text h := by
    rw [← written_eq h]
    change (reader.fields (written lib (.map fields))).2 = true
    rw [fields_written (writable_of_eq h)]
  fields fields text h := by
    rw [← written_eq h]
    exact fields_written (writable_of_eq h)

end Shrimpd.Api.Otlp.JsonText
