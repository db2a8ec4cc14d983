import Shrimpd.Wal.JsonLine
import Mathlib.Data.List.AList

/-!
# Labels of a data line

`ExtractLabels` reads a JSON object field by field and assembles a label map from
its resource, its attributes, its other top-level fields and a few fields with
names of their own.  The JSON decoder is a parameter.
-/

namespace Shrimpd.Filter

open Shrimpd.Lib

/-! ## The decoder -/

/-- A value as the decoder hands it over; `raw` is its text in the document, quotes and
escapes included. -/
inductive JsonValue where
  | str (text raw : Bytes)
  | num (raw : Bytes)
  | other (raw : Bytes)
  deriving DecidableEq, Repr

/-- A string's text, any other value as it stands. -/
def JsonValue.text : JsonValue → Bytes
  | .str text _ => text
  | .num raw => raw
  | .other raw => raw

/-- The JSON decoder: the fields of an object, in order, up to its end or the first
error, and whether the end was reached. -/
structure JsonReader where
  fields : Bytes → List (Bytes × JsonValue) × Bool

/-- A decoder for objects of strings and integers. -/
def JsonReader.flat : JsonReader where
  fields text :=
    match Wal.JsonLine.readObject text with
    | none => ([], false)
    | some members =>
        (members.map fun member =>
          (member.1,
            match Wal.JsonLine.parseStr member.2 with
            | some s => .str s member.2
            | none => .num member.2), true)

/-! ## Extraction -/

abbrev Labels := AList fun _ : Bytes => Bytes

/-- `strings.ReplaceAll(k, ".", "_")`. -/
def flatten (k : Bytes) : Bytes := k.map fun b => if b = 46 then 95 else b

/-- What the callback has gathered of the top-level fields. -/
structure Gathered where
  resource : Option JsonValue := none
  attributes : Option JsonValue := none
  level : Bytes := []
  body : Bytes := []
  traceID : Bytes := []
  spanID : Bytes := []
  extra : Labels := ∅

/-- One top-level field.  `Str` leaves a value that is no string where it is, and the
object ends in an error there. -/
def Gathered.field (g : Gathered) (f : Bytes × JsonValue) : Option Gathered :=
  if f.1 = ascii "resource" then some { g with resource := some f.2 }
  else if f.1 = ascii "attributes" then some { g with attributes := some f.2 }
  else if f.1 = ascii "severity_text" then
    match f.2 with
    | .str s _ => some { g with level := s }
    | _ => none
  else if f.1 = ascii "body" then some { g with body := f.2.text }
  else if f.1 = ascii "trace_id" then
    match f.2 with
    | .str s _ => some { g with traceID := s }
    | _ => none
  else if f.1 = ascii "span_id" then
    match f.2 with
    | .str s _ => some { g with spanID := s }
    | _ => none
  else
    match f.2 with
    | .other _ => some g
    | v => some { g with extra := g.extra.insert (flatten f.1) v.text }

/-- The fields of an attribute map, given as an object or as a string that holds one.
What was decoded before an error stays. -/
def decodeAttrMapRaw (J : JsonReader) (v : JsonValue) (out : Labels) (force : Bool) : Labels :=
  if v.text = [] then out
  else
    (J.fields v.text).1.foldl
      (fun out f =>
        if !force && (out.lookup (flatten f.1)).isSome then out
        else out.insert (flatten f.1) f.2.text)
      out

/-- A label the map does not have yet. -/
def addMissing (out : Labels) (k v : Bytes) : Labels :=
  if (out.lookup k).isSome then out else out.insert k v

def setNonEmpty (out : Labels) (k v : Bytes) : Labels := if v = [] then out else out.insert k v

/-- Later steps of the list override or fill what earlier ones left. -/
def Gathered.labels (J : JsonReader) (g : Gathered) : Labels :=
  let out : Labels := ∅
  let out := match g.resource with
    | none => out
    | some v => decodeAttrMapRaw J v out true
  let out := match g.attributes with
    | none => out
    | some v => decodeAttrMapRaw J v out false
  let out := g.extra.entries.foldl (fun out kv => addMissing out kv.1 kv.2) out
  let out := setNonEmpty out (ascii "level") g.level
  let out := setNonEmpty out (ascii "body") g.body
  let out := setNonEmpty out (ascii "trace_id") g.traceID
  setNonEmpty out (ascii "span_id") g.spanID

/-- `ExtractLabels`: after a decoding error there are no labels. -/
def extractLabels (J : JsonReader) (data : Bytes) : Labels :=
  if data = [] then ∅
  else
    match J.fields data with
    | (_, false) => ∅
    | (fs, true) => ((fs.foldlM Gathered.field {}).map (Gathered.labels J)).getD ∅

end Shrimpd.Filter
