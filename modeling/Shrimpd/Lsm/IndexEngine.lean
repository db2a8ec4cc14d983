import Shrimpd.Lsm.Compact
import Shrimpd.Filter.Matcher
import Shrimpd.Wal.AbstractLog
import Mathlib.Data.Prod.Lex

/-!
# The index engine

The engine maps tokens to parts.  Entries are logged and kept in a memtable,
flushes turn the memtable into immutable index parts, and a restart reads the
log and the index parts back.  A part is covered once its entries are logged.
An index part is an exact set of entries, and the log is the abstract one that
the segmented log refines.
-/

namespace Shrimpd.Lsm

open Shrimpd.Lib Shrimpd.Types Shrimpd.Block Shrimpd.Filter Shrimpd.Wal

/-! ## Index entries of a part -/

def labelTokenPrefix : Bytes := ascii "lbl:"

def labelToken (k v : Bytes) : Bytes := labelTokenPrefix ++ k ++ ascii "=" ++ v

section Entries

variable (J : JsonReader)

/-- The label tokens of all rows. -/
def rowLabelTokens (rows : List Entry) : List Bytes :=
  rows.flatMap fun e => (extractLabels J e.data).entries.map fun kv => labelToken kv.1 kv.2

/-- By token, then by part. -/
def sortEntries (es : List IndexEntry) : List IndexEntry :=
  es.insertionSort fun a b => toLex (a.token, a.dataID) ≤ toLex (b.token, b.dataID)

def buildIndexEntries (dataID : Bytes) (entries : List Entry) : List IndexEntry :=
  sortEntries ((rowLabelTokens J entries).dedup.map fun tok => ⟨tok, dataID⟩)

/-- The rows of the blocks from number `i` on that can be read. -/
def readRows (reads : Nat → Bool) : Nat → List RowBlock → List Entry
  | _, [] => []
  | i, b :: bs => (if reads i then b.rows else []) ++ readRows reads (i + 1) bs

/-- Blocks that cannot be read are left out. -/
def buildIndexEntriesFromPart (reads : Nat → Bool) (dataID : Bytes) (file : PartFile) :
    List IndexEntry :=
  buildIndexEntries J dataID (readRows reads 0 file.blocks)

end Entries

theorem mem_rowLabelTokens {J : JsonReader} {rows : List Entry} {e : Entry} (he : e ∈ rows)
    {k v : Bytes} (hlabel : (extractLabels J e.data).lookup k = some v) :
    labelToken k v ∈ rowLabelTokens J rows := by
  refine List.mem_flatMap.mpr ⟨e, he, List.mem_map.mpr ⟨⟨k, v⟩, ?_, rfl⟩⟩
  exact AList.mem_lookup_iff.mp hlabel

theorem readRows_eq {reads : Nat → Bool} (hreads : ∀ i, reads i = true) (bs : List RowBlock)
    (i : Nat) : readRows reads i bs = bs.flatMap RowBlock.rows := by
  induction bs generalizing i with
  | nil => rfl
  | cons b bs ih => rw [readRows, if_pos (hreads i), ih, List.flatMap_cons]

/-- Sorted and without repetitions. -/
def sortedEntries (es : List IndexEntry) : List IndexEntry := (sortEntries es).dedup

theorem mem_sortEntries {es : List IndexEntry} {x : IndexEntry} : x ∈ sortEntries es ↔ x ∈ es :=
  (List.perm_insertionSort _ es).mem_iff

theorem sorted_sortEntries (es : List IndexEntry) :
    (sortEntries es).Pairwise fun a b => a.token ≤ b.token := by
  have hsorted := List.pairwise_insertionSort
    (fun a b : IndexEntry => toLex (a.token, a.dataID) ≤ toLex (b.token, b.dataID)) es
  refine hsorted.imp fun {a b} hab => ?_
  rcases Prod.Lex.toLex_le_toLex.mp hab with hlt | ⟨heq, -⟩
  · exact hlt.le
  · exact le_of_eq heq

theorem mem_buildIndexEntries {J : JsonReader} {dataID : Bytes} {rows : List Entry} {tok : Bytes}
    (h : tok ∈ rowLabelTokens J rows) : ⟨tok, dataID⟩ ∈ buildIndexEntries J dataID rows := by
  rw [buildIndexEntries, mem_sortEntries, List.mem_map]
  exact ⟨tok, List.mem_dedup.mpr h, rfl⟩

theorem buildIndexEntriesFromPart_eq {J : JsonReader} {reads : Nat → Bool}
    (hreads : ∀ i, reads i = true) (dataID : Bytes) (file : PartFile) :
    buildIndexEntriesFromPart J reads dataID file = buildIndexEntries J dataID file.rows := by
  rw [buildIndexEntriesFromPart, readRows_eq hreads]
  rfl

theorem mem_sortedEntries {es : List IndexEntry} {x : IndexEntry} :
    x ∈ sortedEntries es ↔ x ∈ es := by
  rw [sortedEntries, List.mem_dedup, mem_sortEntries]

theorem sorted_sortedEntries (es : List IndexEntry) :
    (sortedEntries es).Pairwise fun a b => a.token ≤ b.token :=
  (sorted_sortEntries es).sublist (List.dedup_sublist _)

theorem sortedEntries_ne_nil {es : List IndexEntry} (hes : es ≠ []) :
    sortedEntries es ≠ [] := by
  obtain ⟨x, hx⟩ := List.exists_mem_of_ne_nil es hes
  exact List.ne_nil_of_mem (mem_sortedEntries.mpr hx)

/-! ## The engine -/

/-- An immutable index part. -/
structure IndexPart where
  entries : List IndexEntry
  ne : entries ≠ []
  sorted : entries.Pairwise fun a b => a.token ≤ b.token

def IndexPart.minToken (p : IndexPart) : Bytes := (p.entries.head p.ne).token

def IndexPart.maxToken (p : IndexPart) : Bytes := (p.entries.getLast p.ne).token

/-- `parts` and `covered` are in memory; `disk` and `savedCovered` are their files. -/
structure Engine where
  mem : List IndexEntry
  wal : AbsLog IndexEntry
  parts : List IndexPart
  disk : List IndexPart
  covered : List Bytes
  savedCovered : List Bytes

namespace Engine

def empty : Engine := ⟨[], AbsLog.init [], [], [], [], []⟩

/-- Whether the log acknowledges a batch; a failed one may have left its first records. -/
inductive CommitAnswer where
  | acked
  | failed (kept : Nat)
  deriving DecidableEq, Repr

def log (en : Engine) (entries : List IndexEntry) : AbsLog IndexEntry :=
  { en.wal with records := en.wal.records ++ entries.map fun x => (none, x) }

/-- The memtable has the entries before the log answers. -/
def write (en : Engine) (answer : CommitAnswer) (entries : List IndexEntry) : Engine × Bool :=
  if entries = [] then (en, true)
  else
    match answer with
    | .acked => ({ en with mem := en.mem ++ entries, wal := en.log entries }, true)
    | .failed kept =>
        ({ en with mem := en.mem ++ entries, wal := en.log (entries.take kept) }, false)

/-- The map in memory changes even when saving it fails. -/
def markCovered (en : Engine) (saved : Bool) (ids : List Bytes) : Engine :=
  { en with
    covered := en.covered ++ ids
    savedCovered := if saved then en.covered ++ ids else en.savedCovered }

structure CoverIO where
  commit : CommitAnswer
  saved : Bool

/-- How every path indexes a part: write its entries and, unless that fails, cover it. -/
def cover (en : Engine) (io : CoverIO) (id : Bytes) (entries : List IndexEntry) : Engine :=
  match en.write io.commit entries with
  | (en, false) => en
  | (en, true) => en.markCovered io.saved [id]

/-- The answers a flush meets: the number `Seal` returns, if it works, whether the index
part and its metadata are written, and how far `Discard` gets. -/
structure FlushIO where
  sealed : Option Nat
  built : Bool
  writeMeta : WriteAnswer
  removes : Bool
  discarded : Nat

/-- The index part of a non-empty memtable. -/
def indexPart (mem : List IndexEntry) (hmem : mem ≠ []) : IndexPart :=
  ⟨sortedEntries mem, sortedEntries_ne_nil hmem, sorted_sortedEntries mem⟩

/-- A flush that fails puts the entries back; metadata without its index part is never
used. -/
def flush (en : Engine) (io : FlushIO) : Option Engine :=
  if hmem : en.mem = [] then some en
  else
    match io.sealed with
    | none => some en
    | some seq =>
        (en.wal.step (.sealSegment, .sealed seq)).bind fun wal =>
          let part := indexPart en.mem hmem
          let back := { en with mem := part.entries, wal := wal }
          if !io.built then some back
          else
            match io.writeMeta with
            | .failed => some back
            | .failedAfterRename =>
                some { back with disk := if io.removes then en.disk else en.disk ++ [part] }
            | .ok =>
                (wal.step (.discard (min io.discarded seq), .ok)).map fun wal =>
                  { en with
                    mem := []
                    wal := wal
                    parts := en.parts ++ [part]
                    disk := en.disk ++ [part] }

/-- `NewIndexEngine`.  The covered list is renamed into place without a sync of its
directory, so a crash may leave an older one, which is a smaller one. -/
def restart (en : Engine) (keeps : Bytes → Bool) : Engine :=
  let covered := en.savedCovered.filter keeps
  { en with
    mem := en.wal.contents
    parts := en.disk
    covered := covered
    savedCovered := covered }

/-! ## Lookup -/

def lookupToken (en : Engine) (tok : Bytes) : List Bytes :=
  (en.mem.filter fun x => x.token = tok).map IndexEntry.dataID ++
    en.parts.flatMap fun p =>
      if tok < p.minToken ∨ tok > p.maxToken then []
      else (p.entries.filter fun x => x.token = tok).map IndexEntry.dataID

/-- The parts that have all tokens; `none` when the index cannot tell. -/
def lookupTokens (en : Engine) (tokens : List Bytes) (candidates : List PartMeta) :
    Option (List Bytes) :=
  match tokens with
  | [] => none
  | tok :: toks =>
      if en.parts.isEmpty && en.covered.isEmpty then none
      else if candidates.any fun p => !en.covered.contains p.id then none
      else
        some (toks.foldl (fun ids t => ids.filter fun id => (en.lookupToken t).contains id)
          (en.lookupToken tok))

end Engine

/-- The tokens a label query looks up. -/
def labelTokens (m : Matcher) : List Bytes :=
  (m.labels.filter fun f => f.op == .eq).map fun f => labelToken f.label f.value

/-- A label query skips the part because a complete lookup does not name it. -/
def indexPruned (en : Engine) (m : Matcher) (timeParts : List PartMeta) (part : PartMeta) : Bool :=
  match en.lookupTokens (labelTokens m) timeParts with
  | none => false
  | some ids => !ids.contains part.id

/-! ## What the engine keeps -/

namespace Engine

/-- A lookup finds the entry. -/
def Seen (en : Engine) (x : IndexEntry) : Prop := x ∈ en.mem ∨ ∃ p ∈ en.parts, x ∈ p.entries

/-- The entry is still there after a restart. -/
def Durable (en : Engine) (x : IndexEntry) : Prop :=
  x ∈ en.wal.contents ∨ ∃ p ∈ en.parts, x ∈ p.entries

structure Ok (en : Engine) : Prop where
  logged : ∀ x ∈ en.wal.contents, en.Seen x
  onDisk : ∀ p ∈ en.parts, p ∈ en.disk

/-- Nothing durable is lost. -/
structure Keeps (en en' : Engine) : Prop where
  ok : en'.Ok
  durable : ∀ x, en.Durable x → en'.Durable x

variable {en : Engine}

theorem ok_empty : Engine.empty.Ok := ⟨by simp [Engine.empty, AbsLog.init, AbsLog.contents], by
  simp [Engine.empty]⟩

theorem Ok.seen (h : en.Ok) {x : IndexEntry} (hx : en.Durable x) : en.Seen x :=
  hx.elim (h.logged x) Or.inr

theorem contents_log (entries : List IndexEntry) :
    (en.log entries).contents = en.wal.contents ++ entries := by
  simp [log, AbsLog.contents, Function.comp_def]

/-- Appending to the memtable and logging some of it keeps what is there. -/
theorem keeps_log (h : en.Ok) {entries logged : List IndexEntry} (hsub : ∀ x ∈ logged, x ∈ entries) :
    en.Keeps { en with mem := en.mem ++ entries, wal := en.log logged } := by
  have hseen : ∀ x, en.Seen x →
      Engine.Seen { en with mem := en.mem ++ entries, wal := en.log logged } x :=
    fun x hx => hx.imp_left (List.mem_append_left _)
  refine ⟨⟨?_, h.onDisk⟩, ?_⟩
  · intro x hx
    rw [contents_log, List.mem_append] at hx
    rcases hx with hx | hx
    · exact hseen x (h.logged x hx)
    · exact Or.inl (List.mem_append_right _ (hsub x hx))
  · intro x hx
    refine hx.imp_left fun hx => ?_
    rw [contents_log]
    exact List.mem_append_left _ hx

theorem keeps_write (h : en.Ok) (answer : CommitAnswer) (entries : List IndexEntry) :
    en.Keeps (en.write answer entries).1 := by
  unfold write
  split_ifs
  · exact ⟨h, fun _ hx => hx⟩
  · cases answer with
    | acked => exact keeps_log h fun _ hx => hx
    | failed kept => exact keeps_log h fun _ hx => List.mem_of_mem_take hx

theorem durable_write {answer : CommitAnswer} {entries : List IndexEntry}
    (hok : (en.write answer entries).2 = true) {x : IndexEntry} (hx : x ∈ entries) :
    (en.write answer entries).1.Durable x := by
  unfold write at hok ⊢
  split_ifs at hok ⊢ with hnil
  · exact absurd (hnil ▸ hx) List.not_mem_nil
  · cases answer with
    | acked =>
        refine Or.inl ?_
        rw [contents_log]
        exact List.mem_append_right _ hx
    | failed kept => exact absurd hok (by simp)

theorem covered_write (answer : CommitAnswer) (entries : List IndexEntry) :
    (en.write answer entries).1.covered = en.covered ∧
      (en.write answer entries).1.savedCovered = en.savedCovered := by
  unfold write
  split_ifs
  · exact ⟨rfl, rfl⟩
  · cases answer <;> exact ⟨rfl, rfl⟩

theorem contents_seal {wal wal' : AbsLog IndexEntry} {seq : Nat}
    (h : wal.step (.sealSegment, .sealed seq) = some wal') : wal'.contents = wal.contents := by
  simp only [AbsLog.step] at h
  split_ifs at h
  obtain rfl := Option.some.inj h
  simp [AbsLog.contents, AbsLog.sealTag, Function.comp_def]

theorem contents_discard {wal wal' : AbsLog IndexEntry} {upto : Nat}
    (h : wal.step (.discard upto, .ok) = some wal') : ∀ x ∈ wal'.contents, x ∈ wal.contents := by
  obtain rfl := Option.some.inj h
  intro x hx
  obtain ⟨r, hr, rfl⟩ := List.mem_map.mp hx
  exact List.mem_map_of_mem (List.mem_filter.mp hr).1

/-- A flush that did not get through: the memtable holds the same entries. -/
theorem keeps_back (h : en.Ok) (hmem : en.mem ≠ []) {wal : AbsLog IndexEntry}
    (hwal : wal.contents = en.wal.contents) {disk : List IndexPart}
    (hdisk : ∀ p ∈ en.disk, p ∈ disk) :
    en.Keeps { en with mem := (indexPart en.mem hmem).entries, wal := wal, disk := disk } := by
  refine ⟨⟨?_, fun p hp => hdisk p (h.onDisk p hp)⟩, ?_⟩
  · intro x hx
    rw [hwal] at hx
    exact (h.logged x hx).imp_left mem_sortedEntries.mpr
  · intro x hx
    exact hx.imp_left fun hx => hwal ▸ hx

/-- A flush that got through: every logged entry is in an index part. -/
theorem keeps_flushed (h : en.Ok) (hmem : en.mem ≠ []) {wal : AbsLog IndexEntry}
    (hwal : ∀ x ∈ wal.contents, x ∈ en.wal.contents) :
    en.Keeps
      { en with
        mem := []
        wal := wal
        parts := en.parts ++ [indexPart en.mem hmem]
        disk := en.disk ++ [indexPart en.mem hmem] } := by
  have hparts : ∀ x, en.Seen x →
      ∃ p ∈ en.parts ++ [indexPart en.mem hmem], x ∈ p.entries := by
    intro x hx
    rcases hx with hx | ⟨p, hp, hx⟩
    · exact ⟨indexPart en.mem hmem, by simp, mem_sortedEntries.mpr hx⟩
    · exact ⟨p, List.mem_append_left _ hp, hx⟩
  refine ⟨⟨fun x hx => Or.inr (hparts x (h.logged x (hwal x hx))), ?_⟩, ?_⟩
  · intro p hp
    rcases List.mem_append.mp hp with hp | hp
    · exact List.mem_append_left _ (h.onDisk p hp)
    · exact List.mem_append_right _ hp
  · exact fun x hx => Or.inr (hparts x (h.seen hx))

theorem keeps_flush {en' : Engine} (h : en.Ok) {io : FlushIO} (hflush : en.flush io = some en') :
    en.Keeps en' ∧ en'.covered = en.covered ∧ en'.savedCovered = en.savedCovered := by
  unfold flush at hflush
  by_cases hmem : en.mem = []
  · rw [dif_pos hmem] at hflush
    obtain rfl := Option.some.inj hflush
    exact ⟨⟨h, fun _ hx => hx⟩, rfl, rfl⟩
  rw [dif_neg hmem] at hflush
  cases hseal : io.sealed with
  | none =>
      rw [hseal] at hflush
      obtain rfl := Option.some.inj hflush
      exact ⟨⟨h, fun _ hx => hx⟩, rfl, rfl⟩
  | some seq =>
      simp only [hseal, Option.bind_eq_some_iff] at hflush
      obtain ⟨wal, hwal, hflush⟩ := hflush
      have hcontents := contents_seal hwal
      have hback : en.Keeps { en with mem := (indexPart en.mem hmem).entries, wal := wal } :=
        keeps_back h hmem hcontents fun _ hp => hp
      by_cases hbuilt : io.built = true
      · simp only [hbuilt, Bool.not_true, Bool.false_eq_true, if_false] at hflush
        cases hwrite : io.writeMeta with
        | failed =>
            rw [hwrite] at hflush
            obtain rfl := Option.some.inj hflush
            exact ⟨hback, rfl, rfl⟩
        | failedAfterRename =>
            rw [hwrite] at hflush
            obtain rfl := Option.some.inj hflush
            refine ⟨keeps_back h hmem hcontents ?_, rfl, rfl⟩
            intro p hp
            split_ifs
            · exact hp
            · exact List.mem_append_left _ hp
        | ok =>
            simp only [hwrite, Option.map_eq_some_iff] at hflush
            obtain ⟨wal', hdiscard, rfl⟩ := hflush
            refine ⟨keeps_flushed h hmem fun x hx => ?_, rfl, rfl⟩
            rw [← hcontents]
            exact contents_discard hdiscard x hx
      · simp only [hbuilt] at hflush
        obtain rfl := Option.some.inj hflush
        exact ⟨hback, rfl, rfl⟩

theorem keeps_restart (h : en.Ok) (keeps : Bytes → Bool) : en.Keeps (en.restart keeps) := by
  refine ⟨⟨fun x hx => Or.inl hx, fun p hp => hp⟩, ?_⟩
  intro x hx
  refine hx.imp_right fun hx => ?_
  obtain ⟨p, hp, hx⟩ := hx
  exact ⟨p, h.onDisk p hp, hx⟩

/-! ## What a lookup finds -/

theorem bounds_of_mem {p : IndexPart} {x : IndexEntry} (hx : x ∈ p.entries) :
    p.minToken ≤ x.token ∧ x.token ≤ p.maxToken :=
  ⟨p.sorted.rel_head_of_rel_head_head hx le_rfl,
    p.sorted.rel_getLast_of_rel_getLast_getLast hx le_rfl⟩

theorem mem_lookupToken {x : IndexEntry} (hx : en.Seen x) :
    x.dataID ∈ en.lookupToken x.token := by
  unfold lookupToken
  rw [List.mem_append]
  rcases hx with hx | ⟨p, hp, hx⟩
  · exact Or.inl (List.mem_map_of_mem (List.mem_filter.mpr ⟨hx, by simp⟩))
  · refine Or.inr (List.mem_flatMap.mpr ⟨p, hp, ?_⟩)
    obtain ⟨hmin, hmax⟩ := bounds_of_mem hx
    rw [if_neg (not_or.mpr ⟨not_lt.mpr hmin, not_lt.mpr hmax⟩)]
    exact List.mem_map_of_mem (List.mem_filter.mpr ⟨hx, by simp⟩)

end Engine

end Shrimpd.Lsm
