import Shrimpd.Filter.LabelPrecedence

/-!
# Writing a value as JSON

`writeJSONAny` writes a value of a log record.  It iterates over Go maps, whose
order changes from one iteration to the next: the fields of a map are listed in
the order of an iteration, and `Reorder` relates the forms of one value.  The
JSON library is a parameter; it reads an object back as the fields written.
-/

namespace Shrimpd.Api.Otlp

open Shrimpd.Lib Shrimpd.Filter

/-! ## Values and the writer -/

/-- What `AsRaw` makes of a value.  A float is given by its bits. -/
inductive AnyValue where
  | null
  | bool (b : Bool)
  | str (s : Bytes)
  | bytes (b : Bytes)
  | float64 (bits : Nat)
  | int64 (i : Int)
  | map (fields : List (Bytes × AnyValue))
  | slice (items : List AnyValue)

/-- The text of a value in its document. -/
def rawText : JsonValue → Bytes
  | .str _ raw => raw
  | .num raw => raw
  | .other raw => raw

/-- The calls into the JSON library.  What a writer prints is given as the decoder hands
it over again. -/
structure JsonLib where
  str : Bytes → JsonValue
  base64 : Bytes → JsonValue
  float64 : Nat → JsonValue
  int64 : Int → JsonValue
  reader : JsonReader
  valid : Bytes → Bool

/-- Neither NaN nor an infinity: the exponent is not all ones. -/
def isFinite (bits : Nat) : Bool := bits / 2 ^ 52 % 2 ^ 11 ≠ 2 ^ 11 - 1

def commaJoin (texts : List Bytes) : Bytes := (texts.intersperse [44]).flatten

/-- From `ObjStart` to `ObjEnd`. -/
def objText (members : List Bytes) : Bytes := 123 :: (commaJoin members ++ [125])

def arrText (items : List Bytes) : Bytes := 91 :: (commaJoin items ++ [93])

section Writer

variable (L : JsonLib)

/-- `FieldStart` and the value. -/
def memberText (key value : Bytes) : Bytes := rawText (L.str key) ++ 58 :: value

mutual

def writeJSONAny : AnyValue → Except Bytes Bytes
  | .null => .ok (ascii "null")
  | .bool b => .ok (if b then ascii "true" else ascii "false")
  | .str s => .ok (rawText (L.str s))
  | .bytes b => .ok (rawText (L.base64 b))
  | .float64 bits =>
      if isFinite bits then .ok (rawText (L.float64 bits))
      else .error (ascii "unsupported float64 value")
  | .int64 i => .ok (rawText (L.int64 i))
  | .map fields =>
      match writeFields fields with
      | .error err => .error err
      | .ok members => .ok (objText members)
  | .slice items =>
      match writeItems items with
      | .error err => .error err
      | .ok texts => .ok (arrText texts)

def writeFields : List (Bytes × AnyValue) → Except Bytes (List Bytes)
  | [] => .ok []
  | (k, v) :: fields =>
      match writeJSONAny v with
      | .error err => .error err
      | .ok text =>
          match writeFields fields with
          | .error err => .error err
          | .ok members => .ok (memberText L k text :: members)

def writeItems : List AnyValue → Except Bytes (List Bytes)
  | [] => .ok []
  | v :: items =>
      match writeJSONAny v with
      | .error err => .error err
      | .ok text =>
          match writeItems items with
          | .error err => .error err
          | .ok texts => .ok (text :: texts)

end

/-- The written text; empty where there is none. -/
def written (v : AnyValue) : Bytes := (writeJSONAny L v).toOption.getD []

/-- A written value as the decoder hands it over. -/
def readBack : AnyValue → JsonValue
  | .str s => L.str s
  | .bytes b => L.base64 b
  | .float64 bits => L.float64 bits
  | .int64 i => L.int64 i
  | v => .other (written L v)

def readField (f : Bytes × AnyValue) : Field := ((L.str f.1).text, readBack L f.2)

/-- The library writes and reads JSON. -/
structure JsonLib.Lawful : Prop where
  str_isStr : ∀ s, (L.str s).isStr = true
  str_text : ∀ s, Wal.plainKey s = true → (L.str s).text = s
  valid : ∀ fields text, writeJSONAny L (.map fields) = .ok text → L.valid text = true
  fields : ∀ fields text, writeJSONAny L (.map fields) = .ok text →
    L.reader.fields text = (fields.map (readField L), true)

end Writer

/-! ## Values that can be written -/

theorem AnyValue.induct {P : AnyValue → Prop} (hnull : P .null) (hbool : ∀ b, P (.bool b))
    (hstr : ∀ s, P (.str s)) (hbytes : ∀ b, P (.bytes b)) (hfloat : ∀ bits, P (.float64 bits))
    (hint : ∀ i, P (.int64 i)) (hmap : ∀ fields, (∀ f ∈ fields, P f.2) → P (.map fields))
    (hslice : ∀ items, (∀ v ∈ items, P v) → P (.slice items)) : ∀ v, P v
  | .null => hnull
  | .bool b => hbool b
  | .str s => hstr s
  | .bytes b => hbytes b
  | .float64 bits => hfloat bits
  | .int64 i => hint i
  | .map fields => hmap fields fun f _hf =>
      induct hnull hbool hstr hbytes hfloat hint hmap hslice f.2
  | .slice items => hslice items fun v _hv =>
      induct hnull hbool hstr hbytes hfloat hint hmap hslice v
decreasing_by
  · have hlt := List.sizeOf_lt_of_mem _hf
    obtain ⟨k, v⟩ := f
    simp only [Prod.mk.sizeOf_spec, AnyValue.map.sizeOf_spec] at hlt ⊢
    omega
  · have hlt := List.sizeOf_lt_of_mem _hv
    simp only [AnyValue.slice.sizeOf_spec] at hlt ⊢
    omega

/-- A list is written item by item and stops at the first error. -/
theorem gathered_eq_ok_iff {α β ε : Type} {one : α → Except ε β} {all : List α → Except ε (List β)}
    {val : α → β} (hval : ∀ x y, one x = .ok y → y = val x) (hnil : all [] = .ok [])
    (hcons : ∀ x l, all (x :: l) = match one x with
      | .error err => .error err
      | .ok y => match all l with
        | .error err => .error err
        | .ok ys => .ok (y :: ys)) (l : List α) (ys : List β) :
    all l = .ok ys ↔ (∀ x ∈ l, one x = .ok (val x)) ∧ ys = l.map val := by
  induction l generalizing ys with
  | nil => simp [hnil, eq_comm]
  | cons x l ih =>
      rw [hcons, List.forall_mem_cons, List.map_cons]
      cases hx : one x with
      | error err => simp
      | ok y =>
          obtain rfl := hval x y hx
          cases hl : all l with
          | error err =>
              constructor
              · intro h
                cases h
              · rintro ⟨⟨-, hall⟩, -⟩
                rw [(ih _).mpr ⟨hall, rfl⟩] at hl
                cases hl
          | ok zs =>
              obtain ⟨hall, rfl⟩ := (ih zs).mp hl
              constructor
              · intro h
                exact ⟨⟨rfl, hall⟩, (Except.ok.inj h).symm⟩
              · rintro ⟨-, rfl⟩
                rfl

theorem map_eq_ok_iff {β γ ε : Type} {all : Except ε β} {p : Prop} {b : β}
    (hall : ∀ y, all = .ok y ↔ p ∧ y = b) (wrap : β → γ) (z : γ) :
    all.map wrap = .ok z ↔ p ∧ z = wrap b := by
  cases h : all with
  | error err =>
      have hnot : ¬p := by
        intro hp
        rw [(hall b).mpr ⟨hp, rfl⟩] at h
        cases h
      simp [Except.map, hnot]
  | ok y =>
      obtain ⟨hp, rfl⟩ := (hall y).mp h
      simp [Except.map, hp, eq_comm]

section Writable

variable {L : JsonLib}

variable (L) in
def Writable (v : AnyValue) : Prop := writeJSONAny L v = .ok (written L v)

theorem written_eq {v : AnyValue} {text : Bytes} (h : writeJSONAny L v = .ok text) :
    written L v = text := by
  rw [written, h]
  rfl

theorem writable_of_eq {v : AnyValue} {text : Bytes} (h : writeJSONAny L v = .ok text) :
    Writable L v := by
  rw [Writable, written_eq h]
  exact h

variable (L) in
def memberOf (f : Bytes × AnyValue) : Bytes := memberText L f.1 (written L f.2)

theorem writeFields_eq_ok_iff (fields : List (Bytes × AnyValue)) (texts : List Bytes) :
    writeFields L fields = .ok texts ↔
      (∀ f ∈ fields, Writable L f.2) ∧ texts = fields.map (memberOf L) := by
  have hone : ∀ f : Bytes × AnyValue,
      (writeJSONAny L f.2).map (memberText L f.1) = .ok (memberOf L f) ↔ Writable L f.2 := by
    intro f
    cases hv : writeJSONAny L f.2 with
    | error err => simp [Writable, hv, Except.map]
    | ok text => simp [writable_of_eq hv, memberOf, written_eq hv, Except.map]
  simp only [← hone]
  apply gathered_eq_ok_iff
  · intro f text h
    cases hv : writeJSONAny L f.2 with
    | error err => simp [hv, Except.map] at h
    | ok t => simpa [hv, Except.map, memberOf, written_eq hv, eq_comm] using h
  · rw [writeFields]
  · intro f fields
    obtain ⟨k, v⟩ := f
    rw [writeFields]
    cases writeJSONAny L v <;> cases writeFields L fields <;> rfl

theorem writeItems_eq_ok_iff (items : List AnyValue) (texts : List Bytes) :
    writeItems L items = .ok texts ↔
      (∀ v ∈ items, Writable L v) ∧ texts = items.map (written L) := by
  apply gathered_eq_ok_iff
  · exact fun v text h => (written_eq h).symm
  · rw [writeItems]
  · intro v items
    rw [writeItems]
    cases writeJSONAny L v <;> cases writeItems L items <;> rfl

theorem writeJSONAny_map_iff (fields : List (Bytes × AnyValue)) (text : Bytes) :
    writeJSONAny L (.map fields) = .ok text ↔
      (∀ f ∈ fields, Writable L f.2) ∧ text = objText (fields.map (memberOf L)) := by
  rw [← map_eq_ok_iff (writeFields_eq_ok_iff fields) objText, writeJSONAny]
  cases writeFields L fields <;> rfl

theorem writeJSONAny_slice_iff (items : List AnyValue) (text : Bytes) :
    writeJSONAny L (.slice items) = .ok text ↔
      (∀ v ∈ items, Writable L v) ∧ text = arrText (items.map (written L)) := by
  rw [← map_eq_ok_iff (writeItems_eq_ok_iff items) arrText, writeJSONAny]
  cases writeItems L items <;> rfl

theorem writable_map_iff {fields : List (Bytes × AnyValue)} :
    Writable L (.map fields) ↔ ∀ f ∈ fields, Writable L f.2 := by
  constructor
  · exact fun h => ((writeJSONAny_map_iff fields _).mp h).1
  · exact fun h => writable_of_eq ((writeJSONAny_map_iff fields _).mpr ⟨h, rfl⟩)

theorem writable_slice_iff {items : List AnyValue} :
    Writable L (.slice items) ↔ ∀ v ∈ items, Writable L v := by
  constructor
  · exact fun h => ((writeJSONAny_slice_iff items _).mp h).1
  · exact fun h => writable_of_eq ((writeJSONAny_slice_iff items _).mpr ⟨h, rfl⟩)

theorem written_map {fields : List (Bytes × AnyValue)} (h : Writable L (.map fields)) :
    written L (.map fields) = objText (fields.map (memberOf L)) :=
  ((writeJSONAny_map_iff fields _).mp h).2

theorem written_slice {items : List AnyValue} (h : Writable L (.slice items)) :
    written L (.slice items) = arrText (items.map (written L)) :=
  ((writeJSONAny_slice_iff items _).mp h).2

end Writable

/-! ## Orders of iteration -/

/-- Two forms of one value, by the orders in which its maps are iterated. -/
inductive Reorder : AnyValue → AnyValue → Prop where
  | refl (v : AnyValue) : Reorder v v
  | slice {items others : List AnyValue} (h : List.Forall₂ Reorder items others) :
      Reorder (.slice items) (.slice others)
  | map {fields same others : List (Bytes × AnyValue)}
      (hkeys : same.map Prod.fst = fields.map Prod.fst)
      (hvalues : List.Forall₂ Reorder (fields.map Prod.snd) (same.map Prod.snd))
      (hperm : same.Perm others) : Reorder (.map fields) (.map others)

/-- The fields of one map in two orders of iteration. -/
def ReorderFields (fields others : List (Bytes × AnyValue)) : Prop :=
  ∃ same : List (Bytes × AnyValue), same.map Prod.fst = fields.map Prod.fst ∧
    List.Forall₂ Reorder (fields.map Prod.snd) (same.map Prod.snd) ∧ same.Perm others

theorem forall₂_refl (items : List AnyValue) : List.Forall₂ Reorder items items :=
  List.forall₂_same.mpr fun v _ => Reorder.refl v

theorem ReorderFields.refl (fields : List (Bytes × AnyValue)) : ReorderFields fields fields :=
  ⟨fields, rfl, forall₂_refl _, List.Perm.refl _⟩

theorem reorder_map_iff {fields others : List (Bytes × AnyValue)} :
    Reorder (.map fields) (.map others) ↔ ReorderFields fields others := by
  constructor
  · intro h
    cases h with
    | refl => exact ReorderFields.refl fields
    | map hkeys hvalues hperm => exact ⟨_, hkeys, hvalues, hperm⟩
  · rintro ⟨same, hkeys, hvalues, hperm⟩
    exact .map hkeys hvalues hperm

theorem exists_of_mem_left {α β : Type} {R : α → β → Prop} {l : List α} {m : List β}
    (h : List.Forall₂ R l m) {x : α} (hx : x ∈ l) : ∃ y ∈ m, R x y := by
  induction h with
  | nil => simp at hx
  | @cons a b l m hab _ ih =>
      rcases List.mem_cons.mp hx with rfl | hrest
      · exact ⟨b, List.mem_cons_self, hab⟩
      · obtain ⟨y, hy, hxy⟩ := ih hrest
        exact ⟨y, List.mem_cons_of_mem _ hy, hxy⟩

/-- Field by field, before the order changes. -/
theorem forall₂_fields {fields same : List (Bytes × AnyValue)}
    (hkeys : same.map Prod.fst = fields.map Prod.fst)
    (hvalues : List.Forall₂ Reorder (fields.map Prod.snd) (same.map Prod.snd)) :
    List.Forall₂ (fun f g => f.1 = g.1 ∧ Reorder f.2 g.2) fields same := by
  induction same generalizing fields with
  | nil =>
      obtain rfl : fields = [] := by simpa using hkeys.symm
      exact List.Forall₂.nil
  | cons g same ih =>
      cases fields with
      | nil => simp at hkeys
      | cons f fields =>
          rw [List.map_cons, List.map_cons, List.cons.injEq] at hkeys
          rw [List.map_cons, List.map_cons, List.forall₂_cons] at hvalues
          exact List.Forall₂.cons ⟨hkeys.1.symm, hvalues.1⟩ (ih hkeys.2 hvalues.2)

/-- A field in one order is a form of a field in the other. -/
theorem ReorderFields.of_mem {fields others : List (Bytes × AnyValue)}
    (h : ReorderFields fields others) {g : Bytes × AnyValue} (hg : g ∈ others) :
    ∃ f ∈ fields, f.1 = g.1 ∧ Reorder f.2 g.2 := by
  obtain ⟨same, hkeys, hvalues, hperm⟩ := h
  exact exists_of_mem_left (forall₂_fields hkeys hvalues).flip (hperm.mem_iff.mpr hg)

theorem ReorderFields.mem {fields others : List (Bytes × AnyValue)}
    (h : ReorderFields fields others) {f : Bytes × AnyValue} (hf : f ∈ fields) :
    ∃ g ∈ others, f.1 = g.1 ∧ Reorder f.2 g.2 := by
  obtain ⟨same, hkeys, hvalues, hperm⟩ := h
  obtain ⟨g, hg, hform⟩ := exists_of_mem_left (forall₂_fields hkeys hvalues) hf
  exact ⟨g, hperm.mem_iff.mp hg, hform⟩

theorem ReorderFields.trans_perm {fields others more : List (Bytes × AnyValue)}
    (h : ReorderFields fields others) (hperm : others.Perm more) : ReorderFields fields more := by
  obtain ⟨same, hkeys, hvalues, hsame⟩ := h
  exact ⟨same, hkeys, hvalues, hsame.trans hperm⟩

theorem ReorderFields.append {a b c d : List (Bytes × AnyValue)} (hab : ReorderFields a b)
    (hcd : ReorderFields c d) : ReorderFields (a ++ c) (b ++ d) := by
  obtain ⟨same, hkeys, hvalues, hperm⟩ := hab
  obtain ⟨same', hkeys', hvalues', hperm'⟩ := hcd
  refine ⟨same ++ same', ?_, ?_, hperm.append hperm'⟩
  · rw [List.map_append, List.map_append, hkeys, hkeys']
  · rw [List.map_append, List.map_append]
    exact List.rel_append hvalues hvalues'

theorem ReorderFields.singleton (k : Bytes) {v v' : AnyValue} (h : Reorder v v') :
    ReorderFields [(k, v)] [(k, v')] :=
  ⟨[(k, v')], rfl, List.Forall₂.cons h List.Forall₂.nil, List.Perm.refl _⟩

theorem ReorderFields.isEmpty {fields others : List (Bytes × AnyValue)}
    (h : ReorderFields fields others) : others.isEmpty = fields.isEmpty := by
  obtain ⟨same, hkeys, -, hperm⟩ := h
  have hlength := congrArg List.length hkeys
  rw [List.length_map, List.length_map, hperm.length_eq] at hlength
  rw [Bool.eq_iff_iff, List.isEmpty_iff_length_eq_zero, List.isEmpty_iff_length_eq_zero, hlength]

/-- Any field can come in any of its forms before all the others, or after them. -/
theorem exists_reorderFields {fields : List (Bytes × AnyValue)} {f : Bytes × AnyValue}
    (hf : f ∈ fields) {v : AnyValue} (hv : Reorder f.2 v) :
    ∃ rest, ReorderFields fields ((f.1, v) :: rest) ∧ ReorderFields fields (rest ++ [(f.1, v)]) := by
  obtain ⟨before, after, rfl⟩ := List.append_of_mem hf
  have hkeys : (before ++ (f.1, v) :: after).map Prod.fst =
      (before ++ f :: after).map Prod.fst := by simp
  have hvalues : List.Forall₂ Reorder ((before ++ f :: after).map Prod.snd)
      ((before ++ (f.1, v) :: after).map Prod.snd) := by
    rw [List.map_append, List.map_append, List.map_cons, List.map_cons]
    exact List.rel_append (forall₂_refl _) (List.Forall₂.cons hv (forall₂_refl _))
  refine ⟨before ++ after, ⟨_, hkeys, hvalues, List.perm_middle⟩, _, hkeys, hvalues, ?_⟩
  exact List.perm_middle.trans (List.perm_append_singleton _ _).symm

/-- Whether a value can be written does not depend on the order. -/
theorem Reorder.writable_iff {L : JsonLib} {v w : AnyValue} (h : Reorder v w) :
    Writable L v ↔ Writable L w := by
  induction v using AnyValue.induct generalizing w with
  | hmap fields ih =>
      cases h with
      | refl => rfl
      | map hkeys hvalues hperm =>
          have hfields : ReorderFields fields _ := ⟨_, hkeys, hvalues, hperm⟩
          rw [writable_map_iff, writable_map_iff]
          constructor
          · intro hall g hg
            obtain ⟨f, hf, -, hform⟩ := hfields.of_mem hg
            exact (ih f hf hform).mp (hall f hf)
          · intro hall f hf
            obtain ⟨g, hg, -, hform⟩ := hfields.mem hf
            exact (ih f hf hform).mpr (hall g hg)
  | hslice items ih =>
      cases h with
      | refl => rfl
      | slice hitems =>
          rw [writable_slice_iff, writable_slice_iff]
          induction hitems with
          | nil => simp
          | cons hone _ ihitems =>
              rw [List.forall_mem_cons, List.forall_mem_cons, ih _ List.mem_cons_self hone,
                ihitems fun u hu => ih u (List.mem_cons_of_mem _ hu)]
  | hnull | hbool | hstr | hbytes | hfloat | hint =>
      cases h
      rfl

end Shrimpd.Api.Otlp
