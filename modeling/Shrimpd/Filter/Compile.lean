import Shrimpd.Filter.Matcher

/-!
# Compiled matchers

A query's filters are compiled before they are used.  A line is then matched by
one of two evaluators: one takes the text of an entry in memory, the other the
bytes of a row in a block.  They tell a match of an expression from none in
different ways, and differ where an expression matches the empty text.
-/

namespace Shrimpd.Filter

open Shrimpd.Lib

/-! ## Compilation -/

/-- `regexp.Compile`, with the text of the error. -/
structure RegexpLib where
  compile : Bytes → Except Bytes Regexp

inductive CompileErr where
  | lineRegex (value err : Bytes)
  | labelRegex (value err : Bytes)
  deriving DecidableEq, Repr

section Compile

variable (R : RegexpLib)

def compileLine (lf : LineFilter) : Except CompileErr LineFilter :=
  if lf.op = .re ∨ lf.op = .notRe then
    match R.compile lf.value with
    | .error err => .error (.lineRegex lf.value err)
    | .ok re => .ok ⟨lf.op, lf.value, some re⟩
  else .ok ⟨lf.op, lf.value, none⟩

/-- Expressions on labels have to match the whole value. -/
def compileLabel (lf : LabelFilter) : Except CompileErr LabelFilter :=
  if lf.op = .re ∨ lf.op = .notRe then
    let anchored := ascii "^(?:" ++ lf.value ++ ascii ")$"
    match R.compile anchored with
    | .error err => .error (.labelRegex lf.value err)
    | .ok re => .ok ⟨lf.label, lf.op, lf.value, some re⟩
  else .ok ⟨lf.label, lf.op, lf.value, none⟩

def compileMatcher (line : List LineFilter) (labels : List LabelFilter) :
    Except CompileErr Matcher := do
  let line ← line.mapM (compileLine R)
  let labels ← labels.mapM (compileLabel R)
  return ⟨line, labels⟩

end Compile

/-! ## The two evaluators of a line -/

/-- The filter's expression matches the line, and its leftmost match is empty. -/
def LineFilter.matchesEmpty (f : LineFilter) (data : Bytes) : Bool :=
  match f.op, f.re with
  | .re, some re => (re.find data).isSome && re.findString data = []
  | .notRe, some re => (re.find data).isSome && re.findString data = []
  | _, _ => false

theorem Regexp.findString_eq_nil_of_find {re : Regexp} {data : Bytes}
    (h : (re.find data).isSome = false) : re.findString data = [] := by
  rw [Option.isSome_eq_false_iff, Option.isNone_iff_eq_none] at h
  rw [Regexp.findString, h]

section Evaluators

variable {f : LineFilter} {data : Bytes}

theorem LineFilter.accepts_eq_acceptsBytes (h : f.matchesEmpty data = false) :
    f.accepts data = f.acceptsBytes data := by
  obtain ⟨op, value, re⟩ := f
  cases op with
  | eq => rfl
  | notEq => rfl
  | re =>
      cases re with
      | none => rfl
      | some re =>
          cases hfind : (re.find data).isSome with
          | false => simp [accepts, acceptsBytes, hfind, re.findString_eq_nil_of_find hfind]
          | true => simpa [matchesEmpty, accepts, acceptsBytes, hfind] using h
  | notRe =>
      cases re with
      | none => rfl
      | some re =>
          cases hfind : (re.find data).isSome with
          | false => simp [accepts, acceptsBytes, hfind, re.findString_eq_nil_of_find hfind]
          | true => simpa [matchesEmpty, accepts, acceptsBytes, hfind] using h

/-- A match of the empty text is a match for one evaluator only. -/
theorem LineFilter.accepts_of_matchesEmpty (h : f.matchesEmpty data = true) :
    (f.op = .re ∧ f.accepts data = false ∧ f.acceptsBytes data = true) ∨
      (f.op = .notRe ∧ f.accepts data = true ∧ f.acceptsBytes data = false) := by
  obtain ⟨op, value, re⟩ := f
  cases op with
  | eq => cases h
  | notEq => cases h
  | re =>
      cases re with
      | none => cases h
      | some re =>
          obtain ⟨hfind, htext⟩ : (re.find data).isSome = true ∧ re.findString data = [] := by
            simpa [matchesEmpty] using h
          exact Or.inl ⟨rfl, by simp [accepts, htext], hfind⟩
  | notRe =>
      cases re with
      | none => cases h
      | some re =>
          obtain ⟨hfind, htext⟩ : (re.find data).isSome = true ∧ re.findString data = [] := by
            simpa [matchesEmpty] using h
          exact Or.inr ⟨rfl, by simp [accepts, htext], by simp [acceptsBytes, hfind]⟩

/-- Both evaluators reject the line, whatever expressions match empty text in it. -/
def Matcher.Rejected (m : Matcher) (data : Bytes) : Prop :=
  (∃ f ∈ m.line, f.matchesEmpty data = false ∧ f.accepts data = false) ∨
    (∃ f ∈ m.line, f.matchesEmpty data = true ∧ f.op = .re) ∧
      ∃ f ∈ m.line, f.matchesEmpty data = true ∧ f.op = .notRe

theorem Matcher.rejected_iff {m : Matcher} :
    m.Rejected data ↔ m.matchLine data = false ∧ m.matchLineBytes data = false := by
  simp only [matchLine, matchLineBytes, List.all_eq_false, Bool.not_eq_true]
  constructor
  · rintro (⟨f, hf, hempty, haccepts⟩ | ⟨⟨f, hf, hempty, hop⟩, ⟨g, hg, hempty', hop'⟩⟩)
    · exact ⟨⟨f, hf, haccepts⟩, f, hf, LineFilter.accepts_eq_acceptsBytes hempty ▸ haccepts⟩
    · rcases LineFilter.accepts_of_matchesEmpty hempty with h | h
      · rcases LineFilter.accepts_of_matchesEmpty hempty' with h' | h'
        · exact absurd (hop'.symm.trans h'.1) nofun
        · exact ⟨⟨f, hf, h.2.1⟩, g, hg, h'.2.2⟩
      · exact absurd (hop.symm.trans h.1) nofun
  · rintro ⟨⟨f, hf, haccepts⟩, g, hg, haccepts'⟩
    by_cases hempty : f.matchesEmpty data = true
    · by_cases hempty' : g.matchesEmpty data = true
      · refine Or.inr ⟨⟨f, hf, hempty, ?_⟩, g, hg, hempty', ?_⟩
        · rcases LineFilter.accepts_of_matchesEmpty hempty with h | h
          · exact h.1
          · exact absurd (haccepts.symm.trans h.2.1) nofun
        · rcases LineFilter.accepts_of_matchesEmpty hempty' with h | h
          · exact absurd (haccepts'.symm.trans h.2.2) nofun
          · exact h.1
      · rw [Bool.not_eq_true] at hempty'
        exact Or.inl ⟨g, hg, hempty', (LineFilter.accepts_eq_acceptsBytes hempty').trans haccepts'⟩
    · rw [Bool.not_eq_true] at hempty
      exact Or.inl ⟨f, hf, hempty, haccepts⟩

/-- The evaluators agree on a line just when no expression matches empty text in it, or else
when both reject it. -/
theorem matchLine_eq_matchLineBytes_iff (m : Matcher) (data : Bytes) :
    m.matchLine data = m.matchLineBytes data ↔
      (∀ f ∈ m.line, f.matchesEmpty data = false) ∨ m.Rejected data := by
  constructor
  · intro heq
    cases hbytes : m.matchLineBytes data with
    | false => exact Or.inr (Matcher.rejected_iff.mpr ⟨heq.trans hbytes, hbytes⟩)
    | true =>
        refine Or.inl fun f hf => ?_
        have haccepts := List.all_eq_true.mp (heq.trans hbytes) f hf
        have hacceptsBytes := List.all_eq_true.mp hbytes f hf
        by_contra hempty
        rw [Bool.not_eq_false] at hempty
        rcases LineFilter.accepts_of_matchesEmpty hempty with h | h
        · exact absurd (haccepts.symm.trans h.2.1) nofun
        · exact absurd (hacceptsBytes.symm.trans h.2.2) nofun
  · rintro (hnone | hrejected)
    · rw [Matcher.matchLine, Matcher.matchLineBytes, Bool.eq_iff_iff, List.all_eq_true,
        List.all_eq_true]
      exact forall₂_congr fun f hf => by rw [LineFilter.accepts_eq_acceptsBytes (hnone f hf)]
    · obtain ⟨hline, hbytes⟩ := Matcher.rejected_iff.mp hrejected
      exact hline.trans hbytes.symm

end Evaluators

/-- The expression `x*`: a run of that letter at the start, however short. -/
def xStar : Regexp := ⟨fun s => some (0, (s.takeWhile (· == 120)).length)⟩

/-- A library that knows this one expression. -/
def xStarLib : RegexpLib :=
  ⟨fun text => if text = ascii "x*" then .ok xStar else .error (ascii "unknown expression")⟩

/-- The filter `|~ "x*"` accepts the bytes of the line `abc`, and rejects its text. -/
theorem star_matches_bytes_only :
    ∃ m, compileMatcher xStarLib [⟨.re, ascii "x*", none⟩] [] = .ok m ∧
      m.matchLine (ascii "abc") = false ∧ m.matchLineBytes (ascii "abc") = true :=
  ⟨⟨[⟨.re, ascii "x*", some xStar⟩], []⟩, rfl, by decide, by decide⟩

end Shrimpd.Filter
