import Shrimpd.Filter.Labels

/-!
# Line and label filters

A matcher is a conjunction of filters on the line and on its labels.  A compiled
regular expression is a function that finds the leftmost match.
-/

namespace Shrimpd.Filter

open Shrimpd.Lib

/-- A compiled expression: start and end of the leftmost match. -/
structure Regexp where
  find : Bytes → Option (Nat × Nat)

/-- The matched text, empty when there is no match. -/
def Regexp.findString (re : Regexp) (s : Bytes) : Bytes :=
  match re.find s with
  | none => []
  | some (i, j) => (s.take j).drop i

def Regexp.matchString (re : Regexp) (s : Bytes) : Bool := (re.find s).isSome

inductive LineOp where
  | eq
  | notEq
  | re
  | notRe
  deriving DecidableEq, Repr

inductive LabelOp where
  | eq
  | notEq
  | re
  | notRe
  deriving DecidableEq, Repr

structure LineFilter where
  op : LineOp
  value : Bytes
  re : Option Regexp

structure LabelFilter where
  label : Bytes
  op : LabelOp
  value : Bytes
  re : Option Regexp

structure Matcher where
  line : List LineFilter
  labels : List LabelFilter

/-- `strings.Contains`. -/
def contains (s t : Bytes) : Bool := decide (t <:+: s)

/-- A match of the empty text counts as none here. -/
def LineFilter.accepts (f : LineFilter) (data : Bytes) : Bool :=
  match f.op, f.re with
  | .eq, _ => contains data f.value
  | .notEq, _ => !contains data f.value
  | .re, none => false
  | .re, some re => re.findString data ≠ []
  | .notRe, none => true
  | .notRe, some re => re.findString data = []

/-- A missing label reads as the empty text. -/
def LabelFilter.accepts (f : LabelFilter) (labels : Labels) : Bool :=
  let val := (labels.lookup f.label).getD []
  match f.op, f.re with
  | .eq, _ => val = f.value
  | .notEq, _ => val ≠ f.value
  | .re, none => false
  | .re, some re => re.matchString val
  | .notRe, none => true
  | .notRe, some re => !re.matchString val

def Matcher.matchLine (m : Matcher) (data : Bytes) : Bool := m.line.all fun f => f.accepts data

/-- The filter on a byte slice; here a match of the empty text counts. -/
def LineFilter.acceptsBytes (f : LineFilter) (data : Bytes) : Bool :=
  match f.op, f.re with
  | .eq, _ => contains data f.value
  | .notEq, _ => !contains data f.value
  | .re, none => false
  | .re, some re => (re.find data).isSome
  | .notRe, none => true
  | .notRe, some re => !(re.find data).isSome

def Matcher.matchLineBytes (m : Matcher) (data : Bytes) : Bool :=
  m.line.all fun f => f.acceptsBytes data

def Matcher.matchLabels (m : Matcher) (labels : Labels) : Bool :=
  m.labels.all fun f => f.accepts labels

def Matcher.empty (m : Matcher) : Bool := m.line.length == 0 && m.labels.length == 0

/-- Labels are extracted only when there is a filter on them. -/
def Matcher.labelsPass (m : Matcher) (J : JsonReader) (data : Bytes) : Bool :=
  if m.labels.length > 0 then m.matchLabels (extractLabels J data) else true

/-- The line has to satisfy both lists. -/
def Matcher.accepts (m : Matcher) (J : JsonReader) (data : Bytes) : Bool :=
  m.matchLine data && m.matchLabels (extractLabels J data)

end Shrimpd.Filter
