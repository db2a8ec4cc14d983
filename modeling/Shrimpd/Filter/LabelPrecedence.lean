import Shrimpd.Filter.Labels
import Shrimpd.Lib.Overlay

/-!
# Which source a label comes from

A label can come from a field of its own, from the resource, from the attributes
or from another top-level field.  The sources are asked in this order.  Within
one of them a name may occur more than once, and fields of different names may
be flattened to the same label: then the last of them decides, but among the
attributes the first.
-/

namespace Shrimpd.Filter

open Shrimpd.Lib

/-! ## The order of the sources -/

/-- The field that sets a label whatever the other sources say, unless it is empty. -/
def specialField (k : Bytes) : Option Bytes :=
  if k = ascii "level" then some (ascii "severity_text")
  else if k = ascii "body" then some (ascii "body")
  else if k = ascii "trace_id" then some (ascii "trace_id")
  else if k = ascii "span_id" then some (ascii "span_id")
  else none

def reservedNames : List Bytes :=
  [ascii "resource", ascii "attributes", ascii "severity_text", ascii "body", ascii "trace_id",
    ascii "span_id"]

abbrev Field := Bytes × JsonValue

def flatName (f : Field) : Bytes := flatten f.1

def fieldText (f : Field) : Bytes := f.2.text

/-- A top-level string or number under a name that is not reserved. -/
def isExtra (f : Field) : Bool :=
  !reservedNames.contains f.1 &&
    match f.2 with
    | .other _ => false
    | _ => true

/-- The last top-level field of a name. -/
def lastField (name : Bytes) (fs : List Field) : Option JsonValue :=
  Overlay.last Prod.fst Prod.snd name fs

def nonEmpty (text : Bytes) : Option Bytes := if text = [] then none else some text

def specialLabel (fs : List Field) (k : Bytes) : Option Bytes :=
  (specialField k).bind fun name => (lastField name fs).bind fun v => nonEmpty v.text

def resourceLabel (J : JsonReader) (fs : List Field) (k : Bytes) : Option Bytes :=
  (lastField (ascii "resource") fs).bind fun v =>
    Overlay.last flatName fieldText k (J.fields v.text).1

def attributesLabel (J : JsonReader) (fs : List Field) (k : Bytes) : Option Bytes :=
  (lastField (ascii "attributes") fs).bind fun v =>
    Overlay.first flatName fieldText k (J.fields v.text).1

def extraLabel (fs : List Field) (k : Bytes) : Option Bytes :=
  Overlay.last flatName fieldText k (fs.filter isExtra)

/-- The first defined of the four sources of a label. -/
def labelOf (J : JsonReader) (fs : List Field) (k : Bytes) : Option Bytes :=
  (specialLabel fs k).or <| (resourceLabel J fs k).or <| (attributesLabel J fs k).or <|
    extraLabel fs k

/-! ## What is gathered -/

def JsonValue.isStr : JsonValue → Bool
  | .str _ _ => true
  | _ => false

theorem JsonValue.isStr_iff {v : JsonValue} : v.isStr = true ↔ ∃ s raw, v = .str s raw := by
  cases v <;> simp [isStr]

/-- Severity and IDs are strings; resource and attributes are objects or strings that hold
one, so their text is not empty. -/
structure WellShaped (fs : List Field) : Prop where
  strings : ∀ f ∈ fs, f.1 = ascii "severity_text" ∨ f.1 = ascii "trace_id" ∨
    f.1 = ascii "span_id" → f.2.isStr = true
  objects : ∀ f ∈ fs, f.1 = ascii "resource" ∨ f.1 = ascii "attributes" → f.2.text ≠ []

theorem WellShaped.append {fs gs : List Field} (hfs : WellShaped fs) (hgs : WellShaped gs) :
    WellShaped (fs ++ gs) where
  strings := List.forall_mem_append.mpr ⟨hfs.strings, hgs.strings⟩
  objects := List.forall_mem_append.mpr ⟨hfs.objects, hgs.objects⟩

/-- The text of the last field of a name, else an earlier one. -/
def lastText (name : Bytes) (fs : List Field) (earlier : Bytes) : Bytes :=
  ((lastField name fs).map JsonValue.text).getD earlier

/-- What the fields add to what was gathered before. -/
structure Gathers (fs : List Field) (g g' : Gathered) : Prop where
  resource : g'.resource = (lastField (ascii "resource") fs).or g.resource
  attributes : g'.attributes = (lastField (ascii "attributes") fs).or g.attributes
  level : g'.level = lastText (ascii "severity_text") fs g.level
  body : g'.body = lastText (ascii "body") fs g.body
  traceID : g'.traceID = lastText (ascii "trace_id") fs g.traceID
  spanID : g'.spanID = lastText (ascii "span_id") fs g.spanID
  extra : ∀ k, g'.extra.lookup k = (extraLabel fs k).or (g.extra.lookup k)

theorem lastField_append (name : Bytes) (fs gs : List Field) :
    lastField name (fs ++ gs) = (lastField name gs).or (lastField name fs) :=
  Overlay.last_append fs gs

theorem lastText_append (name : Bytes) (fs gs : List Field) (earlier : Bytes) :
    lastText name (fs ++ gs) earlier = lastText name gs (lastText name fs earlier) := by
  rw [lastText, lastText, lastText, lastField_append]
  cases lastField name gs <;> simp

theorem extraLabel_append (fs gs : List Field) (k : Bytes) :
    extraLabel (fs ++ gs) k = (extraLabel gs k).or (extraLabel fs k) := by
  rw [extraLabel, List.filter_append, Overlay.last_append]
  rfl

theorem lastField_singleton (name : Bytes) (f : Field) :
    lastField name [f] = if f.1 = name then some f.2 else none := by
  rw [lastField, Overlay.last_cons, Overlay.last_nil, Option.none_or]

theorem lastText_singleton (name : Bytes) (f : Field) (earlier : Bytes) :
    lastText name [f] earlier = if f.1 = name then f.2.text else earlier := by
  rw [lastText, lastField_singleton]
  by_cases h : f.1 = name <;> simp [h]

theorem extraLabel_singleton (f : Field) (k : Bytes) :
    extraLabel [f] k = if isExtra f = true ∧ flatName f = k then some (fieldText f) else none := by
  by_cases h : isExtra f = true
  · simp [extraLabel, h, Overlay.last_cons]
  · simp [extraLabel, h]

theorem Gathers.append {fs gs : List Field} {g g₁ g₂ : Gathered} (h : Gathers fs g g₁)
    (h' : Gathers gs g₁ g₂) : Gathers (fs ++ gs) g g₂ where
  resource := by rw [h'.resource, h.resource, lastField_append, Option.or_assoc]
  attributes := by rw [h'.attributes, h.attributes, lastField_append, Option.or_assoc]
  level := by rw [h'.level, h.level, lastText_append]
  body := by rw [h'.body, h.body, lastText_append]
  traceID := by rw [h'.traceID, h.traceID, lastText_append]
  spanID := by rw [h'.spanID, h.spanID, lastText_append]
  extra k := by rw [h'.extra, h.extra, extraLabel_append, Option.or_assoc]

theorem gathers_extra (g : Gathered) (f : Field) (hname : f.1 ∉ reservedNames) :
    ∃ g', g.field f = some g' ∧ Gathers [f] g g' := by
  obtain ⟨name, v⟩ := f
  have hnames := hname
  simp only [reservedNames, List.mem_cons, List.not_mem_nil, or_false, not_or] at hnames
  obtain ⟨hres, hattr, hsev, hbody, htrace, hspan⟩ := hnames
  simp only [Gathered.field, hres, hattr, hsev, hbody, htrace, hspan, if_false]
  cases v with
  | other raw =>
      refine ⟨g, rfl, ?_⟩
      constructor <;>
        simp [lastField_singleton, lastText_singleton, extraLabel_singleton, isExtra, *]
  | str text raw | num raw =>
      refine ⟨_, rfl, ?_⟩
      constructor
      case extra =>
        intro k
        rw [extraLabel_singleton]
        by_cases hk : flatten name = k
        · subst hk
          simp [isExtra, hname, flatName, fieldText]
        · rw [AList.lookup_insert_ne (Ne.symm hk)]
          simp [flatName, hk]
      all_goals simp [lastField_singleton, lastText_singleton, *]

/-- A field replaces its own part of what is gathered, or adds an extra label. -/
theorem gathers_field (g : Gathered) {f : Field}
    (hstr : f.1 = ascii "severity_text" ∨ f.1 = ascii "trace_id" ∨ f.1 = ascii "span_id" →
      f.2.isStr = true) :
    ∃ g', g.field f = some g' ∧ Gathers [f] g g' := by
  by_cases hname : f.1 ∈ reservedNames
  · obtain ⟨name, v⟩ := f
    simp only at hstr
    simp only [reservedNames, List.mem_cons, List.not_mem_nil, or_false] at hname
    have hreserved : ∀ k, extraLabel [(name, v)] k = none := by
      intro k
      rw [extraLabel_singleton]
      simp [isExtra, reservedNames, hname]
    rcases hname with rfl | rfl | rfl | rfl | rfl | rfl
    case inl | inr.inl | inr.inr.inr.inl =>
      refine ⟨_, rfl, ?_⟩
      constructor <;>
        simp +decide only [lastField_singleton, lastText_singleton, hreserved, if_true, if_false,
          Option.none_or, Option.some_or, implies_true]
    all_goals
      obtain ⟨s, raw, rfl⟩ := JsonValue.isStr_iff.mp (hstr (by simp))
      refine ⟨_, rfl, ?_⟩
      constructor <;>
        simp +decide only [lastField_singleton, lastText_singleton, hreserved, if_true, if_false,
          Option.none_or, implies_true, JsonValue.text]
  · exact gathers_extra g f hname

theorem gathers_foldlM {fs : List Field} (hshaped : WellShaped fs) (g : Gathered) :
    ∃ g', fs.foldlM Gathered.field g = some g' ∧ Gathers fs g g' := by
  obtain ⟨hstr, -⟩ := hshaped
  induction fs generalizing g with
  | nil =>
      refine ⟨g, rfl, ?_⟩
      constructor <;> simp [lastField, lastText, extraLabel]
  | cons f fs ih =>
      rw [List.forall_mem_cons] at hstr
      obtain ⟨g₁, hfield, hone⟩ := gathers_field g hstr.1
      obtain ⟨g₂, hrest, hall⟩ := ih g₁ hstr.2
      refine ⟨g₂, ?_, hone.append hall⟩
      rw [List.foldlM_cons, hfield]
      exact hrest

/-! ## What is made of it -/

theorem lookup_decodeAttrMapRaw_force (J : JsonReader) {v : JsonValue} (hv : v.text ≠ [])
    (out : Labels) (k : Bytes) :
    (decodeAttrMapRaw J v out true).lookup k =
      (Overlay.last flatName fieldText k (J.fields v.text).1).or (out.lookup k) := by
  rw [decodeAttrMapRaw, if_neg hv]
  exact Overlay.lookup_foldl_insert flatName fieldText k _ out

theorem lookup_decodeAttrMapRaw (J : JsonReader) {v : JsonValue} (hv : v.text ≠ [])
    (out : Labels) (k : Bytes) :
    (decodeAttrMapRaw J v out false).lookup k =
      (out.lookup k).or (Overlay.first flatName fieldText k (J.fields v.text).1) := by
  rw [decodeAttrMapRaw, if_neg hv]
  exact Overlay.lookup_foldl_fill flatName fieldText k _ out

theorem lookup_addMissing (extra out : Labels) (k : Bytes) :
    (extra.entries.foldl (fun out kv => addMissing out kv.1 kv.2) out).lookup k =
      (out.lookup k).or (extra.lookup k) := by
  rw [← Overlay.first_entries k extra]
  exact Overlay.lookup_foldl_fill (fun kv : Sigma fun _ : Bytes => Bytes => kv.1) (fun kv => kv.2)
    k _ out

theorem lookup_setNonEmpty (out : Labels) (name v k : Bytes) :
    (setNonEmpty out name v).lookup k =
      (if k = name then nonEmpty v else none).or (out.lookup k) := by
  unfold setNonEmpty nonEmpty
  by_cases hv : v = []
  · simp [hv]
  · by_cases hk : k = name
    · subst hk
      simp [hv]
    · simp [hv, hk, AList.lookup_insert_ne hk]

/-- The part of the gathered that sets a label whatever the other sources say. -/
def Gathered.special (g : Gathered) (k : Bytes) : Bytes :=
  if k = ascii "level" then g.level
  else if k = ascii "body" then g.body
  else if k = ascii "trace_id" then g.traceID
  else if k = ascii "span_id" then g.spanID
  else []

theorem lookup_specials (g : Gathered) (out : Labels) (k : Bytes) :
    (setNonEmpty (setNonEmpty (setNonEmpty (setNonEmpty out (ascii "level") g.level)
      (ascii "body") g.body) (ascii "trace_id") g.traceID) (ascii "span_id") g.spanID).lookup k =
      (nonEmpty (g.special k)).or (out.lookup k) := by
  simp only [lookup_setNonEmpty, Gathered.special]
  by_cases hlevel : k = ascii "level"
  · subst hlevel
    simp +decide
  by_cases hbody : k = ascii "body"
  · subst hbody
    simp +decide
  by_cases htrace : k = ascii "trace_id"
  · subst htrace
    simp +decide
  by_cases hspan : k = ascii "span_id"
  · subst hspan
    simp +decide
  simp [hlevel, hbody, htrace, hspan, nonEmpty]

theorem lookup_labels (J : JsonReader) {g : Gathered}
    (hres : ∀ v, g.resource = some v → v.text ≠ [])
    (hattr : ∀ v, g.attributes = some v → v.text ≠ []) (k : Bytes) :
    (g.labels J).lookup k = (nonEmpty (g.special k)).or
      ((g.resource.bind fun v => Overlay.last flatName fieldText k (J.fields v.text).1).or
        ((g.attributes.bind fun v => Overlay.first flatName fieldText k (J.fields v.text).1).or
          (g.extra.lookup k))) := by
  simp only [Gathered.labels]
  rw [lookup_specials, lookup_addMissing]
  congr 1
  cases hr : g.resource with
  | none =>
      cases ha : g.attributes with
      | none => simp
      | some v => simp [lookup_decodeAttrMapRaw J (hattr v ha)]
  | some u =>
      cases ha : g.attributes with
      | none => simp [lookup_decodeAttrMapRaw_force J (hres u hr)]
      | some v =>
          simp [lookup_decodeAttrMapRaw J (hattr v ha),
            lookup_decodeAttrMapRaw_force J (hres u hr), Option.or_assoc]

/-! ## The whole extraction -/

theorem special_eq {fs : List Field} {g : Gathered} (h : Gathers fs {} g) (k : Bytes) :
    nonEmpty (g.special k) = specialLabel fs k := by
  have htext : ∀ name, nonEmpty (lastText name fs []) =
      (lastField name fs).bind fun v => nonEmpty v.text := by
    intro name
    rw [lastText]
    cases lastField name fs <;> simp [nonEmpty]
  rw [specialLabel, specialField, Gathered.special, h.level, h.body, h.traceID, h.spanID]
  split_ifs
  all_goals first | exact htext _ | rfl

theorem text_of_lastField {fs : List Field} (hshaped : WellShaped fs) {name : Bytes}
    (hname : name = ascii "resource" ∨ name = ascii "attributes") {v : JsonValue}
    (hv : lastField name fs = some v) : v.text ≠ [] := by
  obtain ⟨f, hf, hkey, rfl⟩ := Overlay.exists_mem_of_last hv
  exact hshaped.objects f hf (by rw [hkey]; exact hname)

theorem lookup_of_gathers (J : JsonReader) {fs : List Field} (hshaped : WellShaped fs)
    {g : Gathered} (h : Gathers fs {} g) (k : Bytes) :
    (g.labels J).lookup k = labelOf J fs k := by
  have hres : g.resource = lastField (ascii "resource") fs := by simpa using h.resource
  have hattr : g.attributes = lastField (ascii "attributes") fs := by simpa using h.attributes
  have hextra : g.extra.lookup k = extraLabel fs k := by simpa using h.extra k
  rw [lookup_labels J (fun v hv => text_of_lastField hshaped (Or.inl rfl) (hres ▸ hv))
    (fun v hv => text_of_lastField hshaped (Or.inr rfl) (hattr ▸ hv)), special_eq h, hres, hattr,
    hextra]
  rfl

/-- For every line that is a complete object of the expected shape, a label is the first
defined of its sources. -/
theorem label_precedence (J : JsonReader) {data : Bytes} {fs : List Field} (hdata : data ≠ [])
    (hfields : J.fields data = (fs, true)) (hshaped : WellShaped fs) (k : Bytes) :
    (extractLabels J data).lookup k = labelOf J fs k := by
  obtain ⟨g, hgather, hg⟩ := gathers_foldlM hshaped {}
  rw [extractLabels, if_neg hdata, hfields]
  simp only [hgather, Option.map_some, Option.getD_some]
  exact lookup_of_gathers J hshaped hg k

/-- A resource and attributes given as strings, with names that clash. -/
def clashingLine : Bytes :=
  ascii "\x7b\"resource\":\"\x7b\\\"a.b\\\":1,\\\"a_b\\\":2\x7d\"," ++
    ascii "\"attributes\":\"\x7b\\\"a_b\\\":3,\\\"c\\\":4,\\\"c\\\":5\x7d\"," ++
    ascii "\"severity_text\":\"e\",\"level\":6\x7d"

def clashingFields : List Field :=
  [(ascii "resource", .str (ascii "\x7b\"a.b\":1,\"a_b\":2\x7d")
      (ascii "\"\x7b\\\"a.b\\\":1,\\\"a_b\\\":2\x7d\"")),
    (ascii "attributes", .str (ascii "\x7b\"a_b\":3,\"c\":4,\"c\":5\x7d")
      (ascii "\"\x7b\\\"a_b\\\":3,\\\"c\\\":4,\\\"c\\\":5\x7d\"")),
    (ascii "severity_text", .str (ascii "e") (ascii "\"e\"")), (ascii "level", .num (ascii "6"))]

theorem label_precedence_clashes :
    (extractLabels JsonReader.flat clashingLine).lookup (ascii "level") = some (ascii "e") ∧
    (extractLabels JsonReader.flat clashingLine).lookup (ascii "a_b") = some (ascii "2") ∧
    (extractLabels JsonReader.flat clashingLine).lookup (ascii "c") = some (ascii "4") ∧
    (extractLabels JsonReader.flat clashingLine).lookup (ascii "d") = none := by
  have hfields : JsonReader.flat.fields clashingLine = (clashingFields, true) := by
    decide +kernel
  have hshaped : WellShaped clashingFields := ⟨by decide +kernel, by decide +kernel⟩
  have hlabel := label_precedence JsonReader.flat (by decide +kernel) hfields hshaped
  rw [hlabel, hlabel, hlabel, hlabel]
  decide +kernel

end Shrimpd.Filter
