import Shrimpd.Api.JsonText

/-!
# Labels of an ingested record

`writeOTLPLogRecordJSON` writes a log record as one JSON line, and
`ExtractLabels` reads its labels back.  Resource and attributes are Go maps:
their fields come in the order of an iteration.  Attributes that are flattened
to one label, and values that hold maps themselves, make the labels of the line
depend on that order.
-/

namespace Shrimpd.Api.Otlp

open Shrimpd.Lib Shrimpd.Filter

/-! ## The line -/

structure LogRecord where
  timestamp : Nat
  observedTimestamp : Nat
  severityNumber : Int
  severityText : Bytes
  body : AnyValue
  attributes : List (Bytes × AnyValue)
  traceID : Bytes
  spanID : Bytes
  flags : Nat
  resource : List (Bytes × AnyValue)
  scopeName : Bytes
  scopeVersion : Bytes
  scopeAttributes : List (Bytes × AnyValue)

def AnyValue.isNull : AnyValue → Bool
  | .null => true
  | _ => false

/-- `String` of a trace or span ID, empty for an ID of zeros. -/
def idHex (id : Bytes) : Bytes :=
  if id.all (· == 0) then []
  else id.flatMap fun b => [Wal.JsonLine.hexDigit (b / 16), Wal.JsonLine.hexDigit (b % 16)]

/-- A field that is left out under some condition. -/
def field (present : Bool) (name : Bytes) (v : AnyValue) : List (Bytes × AnyValue) :=
  if present then [(name, v)] else []

namespace LogRecord

variable (r : LogRecord)

def headFields : List (Bytes × AnyValue) :=
  field true (ascii "timestamp") (.int64 r.timestamp) ++
    field (r.observedTimestamp != 0) (ascii "observed_timestamp") (.int64 r.observedTimestamp) ++
    field (r.severityNumber != 0) (ascii "severity_number") (.int64 r.severityNumber) ++
    field (!r.severityText.isEmpty) (ascii "severity_text") (.str r.severityText)

def bodyField : List (Bytes × AnyValue) := field (!r.body.isNull) (ascii "body") r.body

def attributesField : List (Bytes × AnyValue) :=
  field (!r.attributes.isEmpty) (ascii "attributes") (.map r.attributes)

def idFields : List (Bytes × AnyValue) :=
  field (!(idHex r.traceID).isEmpty) (ascii "trace_id") (.str (idHex r.traceID)) ++
    field (!(idHex r.spanID).isEmpty) (ascii "span_id") (.str (idHex r.spanID)) ++
    field (r.flags != 0) (ascii "flags") (.int64 r.flags)

def resourceField : List (Bytes × AnyValue) :=
  field (!r.resource.isEmpty) (ascii "resource") (.map r.resource)

def scopeHead : List (Bytes × AnyValue) :=
  field (!r.scopeName.isEmpty) (ascii "name") (.str r.scopeName) ++
    field (!r.scopeVersion.isEmpty) (ascii "version") (.str r.scopeVersion)

def scopeAttributesField : List (Bytes × AnyValue) :=
  field (!r.scopeAttributes.isEmpty) (ascii "attributes") (.map r.scopeAttributes)

end LogRecord

/-- `fmt.Errorf("encode ...: %w", err)`. -/
def wrapEncode (what : Bytes) : Except Bytes (List Bytes) → Except Bytes (List Bytes)
  | .error err => .error (ascii "encode " ++ what ++ ascii ": " ++ err)
  | .ok members => .ok members

def writeOTLPLogRecordJSON (L : JsonLib) (r : LogRecord) : Except Bytes Bytes := do
  let head ← writeFields L r.headFields
  let body ← wrapEncode (ascii "body") (writeFields L r.bodyField)
  let attributes ← wrapEncode (ascii "attributes") (writeFields L r.attributesField)
  let ids ← writeFields L r.idFields
  let resource ← wrapEncode (ascii "resource") (writeFields L r.resourceField)
  let scopeHead ← writeFields L r.scopeHead
  let scopeAttributes ← wrapEncode (ascii "scope attributes") (writeFields L r.scopeAttributesField)
  let scope := memberText L (ascii "scope") (objText (scopeHead ++ scopeAttributes))
  let line := objText (head ++ body ++ attributes ++ ids ++ resource ++ [scope])
  if L.valid line then .ok line else .error (ascii "invalid JSON produced")

/-- The fields of the line. -/
def LogRecord.fields (r : LogRecord) : List (Bytes × AnyValue) :=
  r.headFields ++ r.bodyField ++ r.attributesField ++ r.idFields ++ r.resourceField ++
    field true (ascii "scope") (.map (r.scopeHead ++ r.scopeAttributesField))

section Line

variable {L : JsonLib} {r : LogRecord} {line : Bytes}

variable (L) in
def AllWritable (fields : List (Bytes × AnyValue)) : Prop := ∀ f ∈ fields, Writable L f.2

theorem wrapEncode_eq_ok_iff {what : Bytes} {out : Except Bytes (List Bytes)}
    {members : List Bytes} : wrapEncode what out = .ok members ↔ out = .ok members := by
  cases out <;> simp [wrapEncode]

theorem bind_eq_ok_iff {α β ε : Type} {x : Except ε α} {f : α → Except ε β} {b : β} :
    (x >>= f) = .ok b ↔ ∃ a, x = .ok a ∧ f a = .ok b := by
  cases x <;> simp [bind, Except.bind]

/-- The line is the record's fields written as one object. -/
theorem writeOTLPLogRecordJSON_eq_ok_iff (hL : L.Lawful) :
    writeOTLPLogRecordJSON L r = .ok line ↔
      Writable L (.map r.fields) ∧ line = written L (.map r.fields) := by
  have hscope : Writable L (.map (r.scopeHead ++ r.scopeAttributesField)) ↔
      AllWritable L r.scopeHead ∧ AllWritable L r.scopeAttributesField := by
    rw [writable_map_iff, List.forall_mem_append]
    rfl
  have hall : Writable L (.map r.fields) ↔ AllWritable L r.headFields ∧
      AllWritable L r.bodyField ∧ AllWritable L r.attributesField ∧ AllWritable L r.idFields ∧
      AllWritable L r.resourceField ∧ AllWritable L r.scopeHead ∧
      AllWritable L r.scopeAttributesField := by
    simp only [writable_map_iff, LogRecord.fields, field, if_true, List.forall_mem_append,
      List.mem_singleton, forall_eq, hscope, and_assoc]
    rfl
  have htext : Writable L (.map r.fields) → written L (.map r.fields) =
      objText (r.headFields.map (memberOf L) ++ r.bodyField.map (memberOf L) ++
        r.attributesField.map (memberOf L) ++ r.idFields.map (memberOf L) ++
        r.resourceField.map (memberOf L) ++
        [memberText L (ascii "scope") (objText (r.scopeHead.map (memberOf L) ++
          r.scopeAttributesField.map (memberOf L)))]) := by
    intro h
    have hinner : Writable L (.map (r.scopeHead ++ r.scopeAttributesField)) :=
      hscope.mpr (hall.mp h).2.2.2.2.2
    rw [written_map h]
    simp only [LogRecord.fields, field, if_true, List.map_append, List.map_cons, List.map_nil,
      memberOf, written_map hinner]
  simp only [writeOTLPLogRecordJSON, bind_eq_ok_iff, wrapEncode_eq_ok_iff, writeFields_eq_ok_iff]
  constructor
  · rintro ⟨_, ⟨h₁, rfl⟩, _, ⟨h₂, rfl⟩, _, ⟨h₃, rfl⟩, _, ⟨h₄, rfl⟩, _, ⟨h₅, rfl⟩, _, ⟨h₆, rfl⟩, _,
      ⟨h₇, rfl⟩, hline⟩
    have hwritable := hall.mpr ⟨h₁, h₂, h₃, h₄, h₅, h₆, h₇⟩
    refine ⟨hwritable, ?_⟩
    rw [htext hwritable]
    split_ifs at hline
    exact (Except.ok.inj hline).symm
  · rintro ⟨hwritable, rfl⟩
    obtain ⟨h₁, h₂, h₃, h₄, h₅, h₆, h₇⟩ := hall.mp hwritable
    refine ⟨_, ⟨h₁, rfl⟩, _, ⟨h₂, rfl⟩, _, ⟨h₃, rfl⟩, _, ⟨h₄, rfl⟩, _, ⟨h₅, rfl⟩, _, ⟨h₆, rfl⟩, _,
      ⟨h₇, rfl⟩, ?_⟩
    rw [← htext hwritable, if_pos (hL.valid _ _ hwritable)]

end Line

/-! ## The labels of the line -/

section Labels

variable {L : JsonLib} (hL : L.Lawful) {r : LogRecord}

/-- The fields that are neither reserved nor objects. -/
def LogRecord.otherFields (r : LogRecord) : List (Bytes × AnyValue) :=
  field true (ascii "timestamp") (.int64 r.timestamp) ++
    field (r.observedTimestamp != 0) (ascii "observed_timestamp") (.int64 r.observedTimestamp) ++
    field (r.severityNumber != 0) (ascii "severity_number") (.int64 r.severityNumber) ++
    field (r.flags != 0) (ascii "flags") (.int64 r.flags)

variable (L) in
/-- The text of the special field of a label, empty when the line has none. -/
def LogRecord.special (r : LogRecord) (k : Bytes) : Bytes :=
  if k = ascii "level" then if r.severityText.isEmpty then [] else (L.str r.severityText).text
  else if k = ascii "body" then if r.body.isNull then [] else (readBack L r.body).text
  else if k = ascii "trace_id" then
    if (idHex r.traceID).isEmpty then [] else (L.str (idHex r.traceID)).text
  else if k = ascii "span_id" then
    if (idHex r.spanID).isEmpty then [] else (L.str (idHex r.spanID)).text
  else []

variable (L) in
def labelName (f : Bytes × AnyValue) : Bytes := flatten (L.str f.1).text

variable (L) in
def labelText (f : Bytes × AnyValue) : Bytes := (readBack L f.2).text

variable (L) in
def LogRecord.label (r : LogRecord) (k : Bytes) : Option Bytes :=
  (nonEmpty (r.special L k)).or <|
    (Overlay.last (labelName L) (labelText L) k r.resource).or <|
      (Overlay.first (labelName L) (labelText L) k r.attributes).or <|
        extraLabel (r.otherFields.map (readField L)) k

include hL

theorem map_field {name : Bytes} (hname : Wal.plainKey name = true) (present : Bool)
    (v : AnyValue) :
    (field present name v).map (readField L) = if present then [(name, readBack L v)] else [] := by
  cases present
  · rfl
  · simp [field, readField, hL.str_text name hname]

theorem lastField_field {name : Bytes} (hname : Wal.plainKey name = true) (present : Bool)
    (v : AnyValue) (target : Bytes) :
    lastField target ((field present name v).map (readField L)) =
      if present = true ∧ name = target then some (readBack L v) else none := by
  rw [map_field hL hname]
  cases present
  · rfl
  · simp [lastField_singleton]

theorem filter_field_reserved {name : Bytes} (hname : name ∈ reservedNames)
    (hplain : Wal.plainKey name = true) (present : Bool) (v : AnyValue) :
    ((field present name v).map (readField L)).filter isExtra = [] := by
  rw [map_field hL hplain]
  cases present
  · rfl
  · simp [isExtra, hname]

/-- What the decoder finds under a reserved name. -/
structure LogRecord.Found (L : JsonLib) (r : LogRecord) (fs : List Field) : Prop where
  resource : lastField (ascii "resource") fs =
    if r.resource.isEmpty then none else some (.other (written L (.map r.resource)))
  attributes : lastField (ascii "attributes") fs =
    if r.attributes.isEmpty then none else some (.other (written L (.map r.attributes)))
  severityText : lastField (ascii "severity_text") fs =
    if r.severityText.isEmpty then none else some (L.str r.severityText)
  body : lastField (ascii "body") fs = if r.body.isNull then none else some (readBack L r.body)
  traceID : lastField (ascii "trace_id") fs =
    if (idHex r.traceID).isEmpty then none else some (L.str (idHex r.traceID))
  spanID : lastField (ascii "span_id") fs =
    if (idHex r.spanID).isEmpty then none else some (L.str (idHex r.spanID))

theorem found_fields (r : LogRecord) : r.Found L (r.fields.map (readField L)) := by
  constructor
  case body =>
    simp +decide [LogRecord.fields, LogRecord.headFields, LogRecord.bodyField,
      LogRecord.attributesField, LogRecord.idFields, LogRecord.resourceField,
      lastField_append, lastField_field hL]
    cases r.body.isNull <;> rfl
  all_goals
    simp +decide [LogRecord.fields, LogRecord.headFields, LogRecord.bodyField,
      LogRecord.attributesField, LogRecord.idFields, LogRecord.resourceField,
      lastField_append, lastField_field hL, readBack]

theorem extra_fields (r : LogRecord) (k : Bytes) :
    extraLabel (r.fields.map (readField L)) k =
      extraLabel (r.otherFields.map (readField L)) k := by
  have hscope : ((field true (ascii "scope")
      (.map (r.scopeHead ++ r.scopeAttributesField))).map (readField L)).filter isExtra = [] := by
    rw [map_field hL (by decide)]
    simp [isExtra, readBack]
  simp +decide [extraLabel, LogRecord.fields, LogRecord.otherFields, LogRecord.headFields,
    LogRecord.bodyField, LogRecord.attributesField, LogRecord.idFields, LogRecord.resourceField,
    filter_field_reserved hL, hscope]

theorem wellShaped_field {name : Bytes} {v : AnyValue} {present : Bool}
    (hname : Wal.plainKey name = true)
    (hstr : name = ascii "severity_text" ∨ name = ascii "trace_id" ∨ name = ascii "span_id" →
      (readBack L v).isStr = true)
    (hobj : present = true → name = ascii "resource" ∨ name = ascii "attributes" →
      (readBack L v).text ≠ []) :
    WellShaped ((field present name v).map (readField L)) := by
  rw [map_field hL hname]
  cases present with
  | false => exact ⟨by simp, by simp⟩
  | true => exact ⟨by simpa using hstr, by simpa using hobj rfl⟩

omit hL in
theorem written_map_ne_nil {fields : List (Bytes × AnyValue)} (h : Writable L (.map fields)) :
    written L (.map fields) ≠ [] := by
  rw [written_map h]
  exact List.cons_ne_nil _ _

theorem wellShaped_fields (h : Writable L (.map r.fields)) :
    WellShaped (r.fields.map (readField L)) := by
  have hmap : ∀ name fields, field true name (.map fields) ⊆ r.fields →
      (readBack L (.map fields)).text ≠ [] := by
    intro name fields hsub
    exact written_map_ne_nil (writable_map_iff.mp h (name, .map fields) (hsub (by simp [field])))
  have hattributes : (!r.attributes.isEmpty) = true →
      (readBack L (.map r.attributes)).text ≠ [] := by
    intro hsome
    apply hmap (ascii "attributes")
    simp [LogRecord.fields, LogRecord.attributesField, hsome, field]
  have hresource : (!r.resource.isEmpty) = true → (readBack L (.map r.resource)).text ≠ [] := by
    intro hsome
    apply hmap (ascii "resource")
    simp [LogRecord.fields, LogRecord.resourceField, hsome, field]
  simp only [LogRecord.fields, LogRecord.headFields, LogRecord.bodyField,
    LogRecord.attributesField, LogRecord.idFields, LogRecord.resourceField, List.map_append]
  repeat' apply WellShaped.append
  all_goals apply wellShaped_field hL (by decide)
  all_goals
    first
      | exact fun _ => hL.str_isStr _
      | exact fun hsome _ => hattributes hsome
      | exact fun hsome _ => hresource hsome
      | simp +decide

/-- The labels that `ExtractLabels` finds in the line. -/
theorem lookup_line {line : Bytes} (hline : writeOTLPLogRecordJSON L r = .ok line) (k : Bytes) :
    (extractLabels L.reader line).lookup k = r.label L k := by
  obtain ⟨hwritable, rfl⟩ := (writeOTLPLogRecordJSON_eq_ok_iff hL).mp hline
  have hshaped := wellShaped_fields hL hwritable
  have hfound := found_fields hL r
  obtain ⟨g, hgather, hg⟩ := gathers_foldlM hshaped {}
  have hlookup : (extractLabels L.reader (written L (.map r.fields))).lookup k =
      labelOf L.reader (r.fields.map (readField L)) k := by
    rw [extractLabels, if_neg (written_map_ne_nil hwritable), hL.fields _ _ hwritable]
    simp only [hgather, Option.map_some, Option.getD_some]
    exact lookup_of_gathers L.reader hshaped hg k
  have hmap : ∀ name fields, (name, AnyValue.map fields) ∈ r.fields →
      (L.reader.fields (written L (.map fields))).1 = fields.map (readField L) := by
    intro name fields hmem
    rw [hL.fields _ _ (writable_map_iff.mp hwritable _ hmem)]
  have hspecial : specialLabel (r.fields.map (readField L)) k = nonEmpty (r.special L k) := by
    rw [specialLabel, specialField, LogRecord.special]
    split_ifs <;> simp_all [hfound.severityText, hfound.body, hfound.traceID, hfound.spanID,
      nonEmpty]
  have hresource : resourceLabel L.reader (r.fields.map (readField L)) k =
      Overlay.last (labelName L) (labelText L) k r.resource := by
    rw [resourceLabel, hfound.resource]
    by_cases hempty : r.resource = []
    · simp [hempty]
    · have hmem : (ascii "resource", AnyValue.map r.resource) ∈ r.fields := by
        simp [LogRecord.fields, LogRecord.resourceField, field, hempty]
      rw [if_neg (by simpa using hempty), Option.bind_some]
      change Overlay.last _ _ k (L.reader.fields (written L (.map r.resource))).1 = _
      rw [hmap _ _ hmem, Overlay.last_map]
      rfl
  have hattributes : attributesLabel L.reader (r.fields.map (readField L)) k =
      Overlay.first (labelName L) (labelText L) k r.attributes := by
    rw [attributesLabel, hfound.attributes]
    by_cases hempty : r.attributes = []
    · simp [hempty]
    · have hmem : (ascii "attributes", AnyValue.map r.attributes) ∈ r.fields := by
        simp [LogRecord.fields, LogRecord.attributesField, field, hempty]
      rw [if_neg (by simpa using hempty), Option.bind_some]
      change Overlay.first _ _ k (L.reader.fields (written L (.map r.attributes))).1 = _
      rw [hmap _ _ hmem, Overlay.first_map]
      rfl
  rw [hlookup, labelOf, hspecial, hresource, hattributes, extra_fields hL]
  rfl

end Labels

/-! ## Orders of iteration -/

/-- Two forms of one record, by the orders in which its maps are iterated. -/
structure LogRecord.Reordered (r s : LogRecord) : Prop where
  body : Reorder r.body s.body
  attributes : ReorderFields r.attributes s.attributes
  resource : ReorderFields r.resource s.resource
  scopeAttributes : ReorderFields r.scopeAttributes s.scopeAttributes
  rest : s = { r with
    body := s.body
    attributes := s.attributes
    resource := s.resource
    scopeAttributes := s.scopeAttributes }

theorem Reorder.isNull {v w : AnyValue} (h : Reorder v w) : w.isNull = v.isNull := by
  cases h <;> rfl

theorem reorderFields_field {present present' : Bool} (hpresent : present' = present)
    (name : Bytes) {v w : AnyValue} (h : Reorder v w) :
    ReorderFields (field present name v) (field present' name w) := by
  subst hpresent
  cases present'
  · exact ReorderFields.refl []
  · exact ReorderFields.singleton name h

theorem LogRecord.Reordered.fields {r s : LogRecord} (h : r.Reordered s) :
    ReorderFields r.fields s.fields := by
  have hhead : s.headFields = r.headFields := by rw [h.rest]; rfl
  have hids : s.idFields = r.idFields := by rw [h.rest]; rfl
  have hscope : s.scopeHead = r.scopeHead := by rw [h.rest]; rfl
  have hbody : ReorderFields r.bodyField s.bodyField :=
    reorderFields_field (by rw [h.body.isNull]) _ h.body
  have hmap : ∀ {a b : List (Bytes × AnyValue)} (name : Bytes), ReorderFields a b →
      ReorderFields (field (!a.isEmpty) name (.map a)) (field (!b.isEmpty) name (.map b)) :=
    fun name hab => reorderFields_field (by rw [hab.isEmpty]) name (reorder_map_iff.mpr hab)
  have hinner : ReorderFields (r.scopeHead ++ r.scopeAttributesField)
      (s.scopeHead ++ s.scopeAttributesField) := by
    rw [hscope]
    exact (ReorderFields.refl _).append (hmap _ h.scopeAttributes)
  rw [LogRecord.fields, LogRecord.fields, hhead, hids]
  exact (((((ReorderFields.refl _).append hbody).append (hmap _ h.attributes)).append
    (ReorderFields.refl _)).append (hmap _ h.resource)).append
      (reorderFields_field rfl _ (reorder_map_iff.mpr hinner))

/-- The texts that a label can get from the fields of a map, over all orders. -/
def forms (L : JsonLib) (fields : List (Bytes × AnyValue)) (k : Bytes) : Set Bytes :=
  {text | ∃ f ∈ fields, labelName L f = k ∧ ∃ v, Reorder f.2 v ∧ (readBack L v).text = text}

section Forms

variable {L : JsonLib} {fields others : List (Bytes × AnyValue)} {k text : Bytes}

theorem mem_forms_of_mem (h : ReorderFields fields others) {g : Bytes × AnyValue}
    (hg : g ∈ others) (hname : labelName L g = k) : labelText L g ∈ forms L fields k := by
  obtain ⟨f, hf, hkey, hform⟩ := h.of_mem hg
  refine ⟨f, hf, ?_, g.2, hform, rfl⟩
  rw [labelName, hkey]
  exact hname

theorem forms_eq_empty_iff (h : ReorderFields fields others) :
    forms L fields k = ∅ ↔ ∀ g ∈ others, labelName L g ≠ k := by
  rw [Set.eq_empty_iff_forall_notMem]
  constructor
  · intro hnone g hg hname
    exact hnone _ (mem_forms_of_mem h hg hname)
  · rintro hnone text ⟨f, hf, hname, -⟩
    obtain ⟨g, hg, hkey, -⟩ := h.mem hf
    apply hnone g hg
    rw [labelName, ← hkey]
    exact hname

/-- In some order the last field of a label has a given form, in another one the first. -/
theorem exists_order (h : text ∈ forms L fields k) :
    (∃ others, ReorderFields fields others ∧
      Overlay.last (labelName L) (labelText L) k others = some text) ∧
    ∃ others, ReorderFields fields others ∧
      Overlay.first (labelName L) (labelText L) k others = some text := by
  obtain ⟨f, hf, hname, v, hv, rfl⟩ := h
  obtain ⟨rest, hfirst, hlast⟩ := exists_reorderFields hf hv
  have hkey : labelName L (f.1, v) = k := hname
  refine ⟨⟨_, hlast, ?_⟩, _, hfirst, ?_⟩
  · rw [Overlay.last_append, Overlay.last_cons, if_pos hkey]
    rfl
  · rw [Overlay.first_cons, if_pos hkey]
    rfl

/-- A label with one form only gets it in every order, from the first field of its name. -/
theorem first_eq (hone : (forms L fields k).Subsingleton) (h : ReorderFields fields others) :
    Overlay.first (labelName L) (labelText L) k others =
      Overlay.first (labelName L) (labelText L) k fields := by
  have hform : ∀ others text, ReorderFields fields others →
      Overlay.first (labelName L) (labelText L) k others = some text → text ∈ forms L fields k := by
    intro others text hothers htext
    obtain ⟨g, hg, hname, rfl⟩ := Overlay.exists_mem_of_first htext
    exact mem_forms_of_mem hothers hg hname
  have hnone : ∀ others, ReorderFields fields others →
      (Overlay.first (labelName L) (labelText L) k others = none ↔ forms L fields k = ∅) :=
    fun others hothers => Overlay.first_eq_none_iff.trans (forms_eq_empty_iff hothers).symm
  have hrefl := ReorderFields.refl fields
  cases ha : Overlay.first (labelName L) (labelText L) k others with
  | none => exact ((hnone _ hrefl).mpr ((hnone _ h).mp ha)).symm
  | some a =>
      cases hb : Overlay.first (labelName L) (labelText L) k fields with
      | none =>
          rw [(hnone _ h).mpr ((hnone _ hrefl).mp hb)] at ha
          cases ha
      | some b => rw [hone (hform _ a h ha) (hform _ b hrefl hb)]

/-- So too from the last one: it is the first of another order. -/
theorem last_eq (hone : (forms L fields k).Subsingleton) (h : ReorderFields fields others) :
    Overlay.last (labelName L) (labelText L) k others =
      Overlay.last (labelName L) (labelText L) k fields := by
  have hreverse : ∀ {others}, ReorderFields fields others →
      ReorderFields fields others.reverse := fun hothers =>
    hothers.trans_perm (List.reverse_perm _).symm
  rw [Overlay.last, Overlay.last, first_eq hone (hreverse h),
    first_eq hone (hreverse (ReorderFields.refl fields))]

end Forms

/-! ## Independence of the order -/

section Independence

variable {L : JsonLib} {r : LogRecord}

/-- The body has one text, and so has each label that no special field sets: among the
resource's fields of that label, or, if there are none, among the attributes. -/
def LogRecord.Determined (L : JsonLib) (r : LogRecord) : Prop :=
  (∀ v, Reorder r.body v → (readBack L v).text = (readBack L r.body).text) ∧
    ∀ k, r.special L k ≠ [] ∨
      (forms L r.resource k).Nonempty ∧ (forms L r.resource k).Subsingleton ∨
        forms L r.resource k = ∅ ∧ (forms L r.attributes k).Subsingleton

/-- A value that has several forms is not written as an empty text. -/
theorem Reorder.eq_or_ne_nil {v w : AnyValue} (h : Reorder v w) (hv : Writable L v) :
    w = v ∨ (readBack L v).text ≠ [] ∧ (readBack L w).text ≠ [] := by
  have hw := h.writable_iff.mp hv
  cases h with
  | refl => exact Or.inl rfl
  | slice hall =>
      right
      change written L _ ≠ [] ∧ written L _ ≠ []
      rw [written_slice hv, written_slice hw]
      exact ⟨List.cons_ne_nil _ _, List.cons_ne_nil _ _⟩
  | map hkeys hvalues hperm =>
      exact Or.inr ⟨written_map_ne_nil hv, written_map_ne_nil hw⟩

theorem LogRecord.Reordered.writable_iff {s : LogRecord} (h : r.Reordered s) :
    Writable L (.map r.fields) ↔ Writable L (.map s.fields) :=
  (reorder_map_iff.mpr h.fields).writable_iff

theorem LogRecord.Reordered.special {s : LogRecord} (h : r.Reordered s)
    (hbody : (readBack L s.body).text = (readBack L r.body).text) (k : Bytes) :
    s.special L k = r.special L k := by
  have hnull := h.body.isNull
  rw [h.rest] at hnull hbody ⊢
  simp only [LogRecord.special] at hnull hbody ⊢
  rw [hnull, hbody]

theorem LogRecord.Reordered.otherFields {s : LogRecord} (h : r.Reordered s) :
    s.otherFields = r.otherFields := by
  rw [h.rest]
  rfl

/-- Under the condition the labels are those of the record's own order. -/
theorem LogRecord.Determined.label_eq (hdet : r.Determined L) {s : LogRecord}
    (h : r.Reordered s) (k : Bytes) : s.label L k = r.label L k := by
  obtain ⟨hbody, hlabels⟩ := hdet
  rw [LogRecord.label, LogRecord.label, h.special (hbody _ h.body), h.otherFields]
  rcases hlabels k with hspecial | ⟨hsome, hone⟩ | ⟨hnone, hone⟩
  · simp [nonEmpty, hspecial]
  · rw [last_eq hone h.resource]
    cases hlast : Overlay.last (labelName L) (labelText L) k r.resource with
    | none =>
        have hempty := (forms_eq_empty_iff (ReorderFields.refl _)).mpr
          (Overlay.last_eq_none_iff.mp hlast)
        exact absurd hempty hsome.ne_empty
    | some text => simp
  · have hresource : (forms L r.resource k).Subsingleton := by
      rw [hnone]
      exact Set.subsingleton_empty
    rw [last_eq hresource h.resource, first_eq hone h.attributes]

/-- The labels are the same in any two orders. -/
def LogRecord.Independent (L : JsonLib) (r : LogRecord) : Prop :=
  ∀ s t, r.Reordered s → r.Reordered t → ∀ k, s.label L k = t.label L k

theorem LogRecord.Reordered.refl (r : LogRecord) : r.Reordered r :=
  ⟨.refl _, .refl _, .refl _, .refl _, rfl⟩

theorem LogRecord.Independent.body (h : r.Independent L) (hr : Writable L (.map r.fields))
    {v : AnyValue} (hv : Reorder r.body v) :
    (readBack L v).text = (readBack L r.body).text := by
  by_cases hnull : r.body.isNull = true
  · have hsame : v = r.body := by
      cases hbody : r.body <;> rw [hbody] at hv hnull <;> cases hv <;> simp_all [AnyValue.isNull]
    rw [hsame]
  have hnull' : r.body.isNull = false := by simpa using hnull
  have hbody : Writable L r.body := by
    refine writable_map_iff.mp hr (ascii "body", r.body) ?_
    simp [LogRecord.fields, LogRecord.bodyField, field, hnull']
  rcases hv.eq_or_ne_nil hbody with rfl | ⟨hne, hne'⟩
  · rfl
  · have hother : r.Reordered { r with body := v } := ⟨hv, .refl _, .refl _, .refl _, rfl⟩
    have hsame := h _ _ hother (LogRecord.Reordered.refl r) (ascii "body")
    simpa +decide [LogRecord.label, LogRecord.special, hv.isNull, hnull', nonEmpty, hne, hne']
      using hsame

theorem LogRecord.Independent.determined (h : r.Independent L)
    (hr : Writable L (.map r.fields)) : r.Determined L := by
  refine ⟨fun v hv => h.body hr hv, ?_⟩
  intro k
  by_cases hspecial : r.special L k = []
  · right
    by_cases hempty : forms L r.resource k = ∅
    · refine Or.inr ⟨hempty, ?_⟩
      intro a ha b hb
      obtain ⟨as, has, hfirsta⟩ := (exists_order ha).2
      obtain ⟨bs, hbs, hfirstb⟩ := (exists_order hb).2
      have hsame := h { r with attributes := as } { r with attributes := bs }
        ⟨.refl _, has, .refl _, .refl _, rfl⟩ ⟨.refl _, hbs, .refl _, .refl _, rfl⟩ k
      have hlast : Overlay.last (labelName L) (labelText L) k r.resource = none :=
        Overlay.last_eq_none_iff.mpr ((forms_eq_empty_iff (ReorderFields.refl _)).mp hempty)
      have hnone : ∀ as, LogRecord.special L { r with attributes := as } k = [] := fun _ => hspecial
      simpa [LogRecord.label, hnone, nonEmpty, hlast, hfirsta, hfirstb] using hsame
    · refine Or.inl ⟨Set.nonempty_iff_ne_empty.mpr hempty, ?_⟩
      intro a ha b hb
      obtain ⟨as, has, hlasta⟩ := (exists_order ha).1
      obtain ⟨bs, hbs, hlastb⟩ := (exists_order hb).1
      have hsame := h { r with resource := as } { r with resource := bs }
        ⟨.refl _, .refl _, has, .refl _, rfl⟩ ⟨.refl _, .refl _, hbs, .refl _, rfl⟩ k
      have hnone : ∀ as, LogRecord.special L { r with resource := as } k = [] := fun _ => hspecial
      simpa [LogRecord.label, hnone, nonEmpty, hlasta, hlastb] using hsame
  · exact Or.inl hspecial

/-- For every record: the lines written in any two orders have the same labels if and only
if no line can be written, or the condition holds. -/
theorem record_labels_independent_iff (hL : L.Lawful) (r : LogRecord) :
    (∀ s t line line', r.Reordered s → r.Reordered t →
        writeOTLPLogRecordJSON L s = .ok line → writeOTLPLogRecordJSON L t = .ok line' →
          ∀ k, (extractLabels L.reader line).lookup k = (extractLabels L.reader line').lookup k) ↔
      (∀ line, writeOTLPLogRecordJSON L r ≠ .ok line) ∨ r.Determined L := by
  by_cases hr : Writable L (.map r.fields)
  · have hlines : ∀ s, r.Reordered s →
        writeOTLPLogRecordJSON L s = .ok (written L (.map s.fields)) := fun s hs =>
      (writeOTLPLogRecordJSON_eq_ok_iff hL).mpr ⟨hs.writable_iff.mp hr, rfl⟩
    constructor
    · intro h
      refine Or.inr (LogRecord.Independent.determined ?_ hr)
      intro s t hs ht k
      have hsame := h s t _ _ hs ht (hlines s hs) (hlines t ht) k
      rwa [lookup_line hL (hlines s hs), lookup_line hL (hlines t ht)] at hsame
    · rintro (hnone | hdet)
      · exact absurd (hlines r (LogRecord.Reordered.refl r)) (hnone _)
      · intro s t line line' hs ht hline hline' k
        rw [lookup_line hL hline, lookup_line hL hline', hdet.label_eq hs, hdet.label_eq ht]
  · have hnone : ∀ line, writeOTLPLogRecordJSON L r ≠ .ok line := fun line hline =>
      hr ((writeOTLPLogRecordJSON_eq_ok_iff hL).mp hline).1
    refine iff_of_true ?_ (Or.inl hnone)
    intro s t line line' hs ht hline
    exact absurd (hs.writable_iff.mpr ((writeOTLPLogRecordJSON_eq_ok_iff hL).mp hline).1) hr

end Independence

/-! ## One attribute, and two that clash -/

/-- A record with a body and given attributes. -/
def plainRecord (attributes : List (Bytes × AnyValue)) : LogRecord where
  timestamp := 1
  observedTimestamp := 0
  severityNumber := 0
  severityText := []
  body := .str (ascii "m")
  attributes := attributes
  traceID := []
  spanID := []
  flags := 0
  resource := []
  scopeName := []
  scopeVersion := []
  scopeAttributes := []

theorem determined_one (k : Bytes) (s : Bytes) :
    (plainRecord [(k, .str s)]).Determined JsonText.lib := by
  constructor
  · intro v hv
    cases hv
    rfl
  · intro name
    refine Or.inr (Or.inr ⟨?_, ?_⟩)
    · rw [Set.eq_empty_iff_forall_notMem]
      rintro text ⟨f, hf, -⟩
      simp [plainRecord] at hf
    · rintro a ⟨f, hf, -, v, hv, rfl⟩ b ⟨g, hg, -, w, hw, rfl⟩
      obtain rfl := List.mem_singleton.mp hf
      obtain rfl := List.mem_singleton.mp hg
      cases hv
      cases hw
      rfl

theorem record_labels_independent_one :
    (writeOTLPLogRecordJSON JsonText.lib
      (plainRecord [(ascii "a.b", .str (ascii "1"))])).toOption.isSome = true ∧
    ∀ s t line line', (plainRecord [(ascii "a.b", .str (ascii "1"))]).Reordered s →
      (plainRecord [(ascii "a.b", .str (ascii "1"))]).Reordered t →
      writeOTLPLogRecordJSON JsonText.lib s = .ok line →
      writeOTLPLogRecordJSON JsonText.lib t = .ok line' →
        ∀ k, (extractLabels JsonText.reader line).lookup k =
          (extractLabels JsonText.reader line').lookup k :=
  ⟨by decide +kernel, (record_labels_independent_iff JsonText.lawful_lib _).mpr
    (Or.inr (determined_one (ascii "a.b") (ascii "1")))⟩

theorem reordered_swap (f g : Bytes × AnyValue) :
    (plainRecord [f, g]).Reordered (plainRecord [g, f]) :=
  ⟨.refl _, ⟨[f, g], rfl, forall₂_refl _, List.Perm.swap g f []⟩, .refl _, .refl _, rfl⟩

def dotted : Bytes × AnyValue := (ascii "a.b", .str (ascii "1"))

def underscored : Bytes × AnyValue := (ascii "a_b", .str (ascii "2"))

/-- Two attributes with different names and one label: the order of the iteration decides. -/
theorem clashing_attributes_depend_on_order :
    (plainRecord [dotted, underscored]).Reordered (plainRecord [underscored, dotted]) ∧
      ∃ line line', writeOTLPLogRecordJSON JsonText.lib (plainRecord [dotted, underscored]) =
          .ok line ∧
        writeOTLPLogRecordJSON JsonText.lib (plainRecord [underscored, dotted]) = .ok line' ∧
        (extractLabels JsonText.reader line).lookup (ascii "a_b") = some (ascii "1") ∧
        (extractLabels JsonText.reader line').lookup (ascii "a_b") = some (ascii "2") := by
  have hline : ∀ r text, (writeOTLPLogRecordJSON JsonText.lib r).toOption.bind
        (fun line => (extractLabels JsonText.reader line).lookup (ascii "a_b")) = some text →
      ∃ line, writeOTLPLogRecordJSON JsonText.lib r = .ok line ∧
        (extractLabels JsonText.reader line).lookup (ascii "a_b") = some text := by
    intro r text h
    cases hwrite : writeOTLPLogRecordJSON JsonText.lib r with
    | error err => simp [hwrite, Except.toOption] at h
    | ok line => exact ⟨line, rfl, by simpa [hwrite, Except.toOption] using h⟩
  obtain ⟨line, hwrite, hlabel⟩ := hline (plainRecord [dotted, underscored]) (ascii "1")
    (by decide +kernel)
  obtain ⟨line', hwrite', hlabel'⟩ := hline (plainRecord [underscored, dotted]) (ascii "2")
    (by decide +kernel)
  exact ⟨reordered_swap dotted underscored, line, line', hwrite, hwrite', hlabel, hlabel'⟩

end Shrimpd.Api.Otlp
