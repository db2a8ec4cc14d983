import Shrimpd.Lib.Lines
import Shrimpd.Types.Entry

/-!
# Log records as JSON lines

`Enqueue` writes an entry as one JSON object with two fields, `Recover` reads
it back field by field.  The JSON library is a parameter: `Jx` lists the calls
the log makes, `Jx.Lawful` what the log relies on.
-/

namespace Shrimpd.Wal

open Shrimpd.Lib Shrimpd.Types

/-- The calls into the JSON library. -/
structure Jx where
  int64 : Int → Bytes
  str : Bytes → Bytes
  int64Of : Bytes → Option Int
  strOf : Bytes → Option Bytes
  /-- The keys of an object and the raw text of their values, in order. -/
  obj : Bytes → Option (List (Bytes × Bytes))

/-- An object with two fields, as the writers print it. -/
def objectLine (key₁ value₁ key₂ value₂ : Bytes) : Bytes :=
  ascii "\x7b\"" ++ key₁ ++ ascii "\":" ++ value₁ ++ ascii ",\"" ++ key₂ ++ ascii "\":" ++
    value₂ ++ ascii "\x7d"

/-- Keys that print as themselves: lower case letters and underscores. -/
def plainKey (key : Bytes) : Bool := key.all fun b => (97 ≤ b && b ≤ 122) || b == 95

namespace Jx

/-- The text of a value the log writes. -/
def Written (jx : Jx) (v : Bytes) : Prop := (∃ t, v = jx.int64 t) ∨ ∃ d, v = jx.str d

structure Lawful (jx : Jx) : Prop where
  newline_free : ∀ v, jx.Written v → newline ∉ v
  int64Of_int64 : ∀ t, jx.int64Of (jx.int64 t) = some t
  strOf_str : ∀ d, jx.strOf (jx.str d) = some d
  obj_objectLine : ∀ k₁ v₁ k₂ v₂, plainKey k₁ → plainKey k₂ → jx.Written v₁ → jx.Written v₂ →
    jx.obj (objectLine k₁ v₁ k₂ v₂) = some [(k₁, v₁), (k₂, v₂)]

/-! ## Entries -/

/-- One line of `WAL.Enqueue`, without its newline. -/
def encodeEntry (jx : Jx) (e : Entry) : Bytes :=
  objectLine (ascii "timestamp") (jx.int64 e.timestamp) (ascii "data") (jx.str e.data)

/-- The callback of `WAL.Recover` on one field; unknown keys are skipped. -/
def setEntryField (jx : Jx) (e : Entry) (field : Bytes × Bytes) : Option Entry :=
  if field.1 = ascii "timestamp" then
    (jx.int64Of field.2).map fun t => { e with timestamp := t }
  else if field.1 = ascii "data" then
    (jx.strOf field.2).map fun d => { e with data := d }
  else some e

def decodeEntry (jx : Jx) (line : Bytes) : Option Entry :=
  (jx.obj line).bind fun fields => fields.foldlM jx.setEntryField ⟨0, []⟩

def entryCodec (jx : Jx) : LineCodec Entry := ⟨jx.encodeEntry, jx.decodeEntry⟩

variable {jx : Jx}

theorem newline_free_objectLine (hjx : jx.Lawful) {k₁ v₁ k₂ v₂ : Bytes}
    (hk₁ : newline ∉ k₁) (hk₂ : newline ∉ k₂) (hv₁ : jx.Written v₁) (hv₂ : jx.Written v₂) :
    newline ∉ objectLine k₁ v₁ k₂ v₂ := by
  have h₁ := hjx.newline_free v₁ hv₁
  have h₂ := hjx.newline_free v₂ hv₂
  have hopen : newline ∉ ascii "\x7b\"" := by decide
  have hcolon : newline ∉ ascii "\":" := by decide
  have hcomma : newline ∉ ascii ",\"" := by decide
  have hclose : newline ∉ ascii "\x7d" := by decide
  simp only [objectLine, List.mem_append, not_or]
  exact ⟨⟨⟨⟨⟨⟨⟨⟨hopen, hk₁⟩, hcolon⟩, h₁⟩, hcomma⟩, hk₂⟩, hcolon⟩, h₂⟩, hclose⟩

theorem getLast_objectLine (k₁ v₁ k₂ v₂ : Bytes) :
    (objectLine k₁ v₁ k₂ v₂).getLast? = some 125 := by
  rw [objectLine, show ascii "\x7d" = [125] by decide, List.getLast?_concat]

/-- Two fields written and read back. -/
theorem lawful_entryCodec (hjx : jx.Lawful) : jx.entryCodec.Lawful where
  newline_free := fun e =>
    newline_free_objectLine hjx (by decide) (by decide) (Or.inl ⟨_, rfl⟩) (Or.inr ⟨_, rfl⟩)
  ne_nil := by
    intro e hnil
    have hlast := getLast_objectLine (ascii "timestamp") (jx.int64 e.timestamp)
      (ascii "data") (jx.str e.data)
    change jx.encodeEntry e = [] at hnil
    rw [encodeEntry] at hnil
    rw [hnil] at hlast
    simp at hlast
  no_cr := by
    intro e
    change (jx.encodeEntry e).getLast? ≠ some 13
    rw [encodeEntry, getLast_objectLine]
    decide
  decode_encode := by
    intro e
    change jx.decodeEntry (jx.encodeEntry e) = some e
    have hobj := hjx.obj_objectLine (ascii "timestamp") (jx.int64 e.timestamp) (ascii "data")
      (jx.str e.data) (by decide) (by decide) (Or.inl ⟨_, rfl⟩) (Or.inr ⟨_, rfl⟩)
    have hkey : ¬ascii "data" = ascii "timestamp" := by decide
    rw [decodeEntry, encodeEntry, hobj, Option.bind_some, List.foldlM_cons, setEntryField,
      if_pos rfl, hjx.int64Of_int64, Option.map_some]
    simp only [Option.bind_eq_bind, Option.bind_some, List.foldlM_cons, setEntryField,
      if_neg hkey, if_pos, hjx.strOf_str, Option.map_some, List.foldlM_nil, pure]

end Jx

end Shrimpd.Wal
