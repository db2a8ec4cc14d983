import Shrimpd.Lib.Utf8
import Shrimpd.Lsm.IndexEngine
import Shrimpd.Wal.Stored

/-!
# Index entries stay visible

Writes, flushes and lookups of the index engine as the sections that `mu` and
`writeMu` make atomic, over the segmented log with its group commit.  A flush
takes the memtable, seals the log, writes an index part and its metadata, and
discards the sealed segments after it has released `mu`, so that flushes may
overlap there.  A restart reads the log and the metadata files.

The metadata keeps the smallest and the largest token of a part as JSON strings,
which cannot hold every byte string; a restarted engine skips a part by these.
-/

namespace Shrimpd.Lsm.IndexVisible

open Shrimpd.Lib Shrimpd.Lib.Exec Shrimpd.Types Shrimpd.Wal

/-! ## The model -/

/-- The metadata of an index part with its FST, unless that file is missing. -/
structure IndexFile where
  minToken : Bytes
  maxToken : Bytes
  fst : Option (List IndexEntry)

/-- The metadata that a flush publishes. -/
def IndexFile.ofPart (part : IndexPart) : IndexFile :=
  ⟨part.minToken, part.maxToken, some part.entries⟩

/-- The metadata that a restart reads. -/
def IndexFile.saved (part : IndexPart) : IndexFile :=
  ⟨jsonString part.minToken, jsonString part.maxToken, some part.entries⟩

/-- Where the flush that holds `mu` is; while `snapped`, it holds `writeMu` too. -/
inductive FlushPC where
  | idle
  | locked
  | snapped (entries : List IndexEntry) (ne : entries ≠ [])
  | sealed (seq : Nat) (entries : List IndexEntry) (ne : entries ≠ [])
  | built (seq : Nat) (part : IndexPart)
  | written (seq : Nat) (part : IndexPart)
  | failed (entries : List IndexEntry)

/-- A lookup that holds `mu` for reading: the entries acknowledged when it began, the tokens still
to look up, what it found for the others, and the parts that have all of these. -/
structure Reader where
  before : List IndexEntry
  tokens : List Bytes
  found : List (Bytes × List Bytes)
  matched : Option (List Bytes)
  deriving DecidableEq

/-- `disk` are the metadata files whose names are synced, `loose` those whose names are not, and
`discards` the seals that published flushes are about to discard. -/
structure State where
  mem : List IndexEntry
  wal : GroupCommit.State IndexEntry
  parts : List IndexFile
  disk : List IndexFile
  loose : List IndexFile
  covered : List Bytes
  savedCovered : List Bytes
  pc : FlushPC
  discards : List Nat
  readers : List Reader
  answered : List Reader
  acked : List IndexEntry

inductive Label where
  | write (entries : List IndexEntry)
  | commit (sec : GroupCommit.Sec IndexEntry)
  | lockFlush
  | snapshot
  | sealWal (io : SealIO)
  | build (ok : Bool)
  | writeMeta (answer : WriteAnswer)
  | publish
  | restore
  | discard (seq : Nat) (removes : Nat → Bool) (dirSynced : Bool)
  | markCovered (ids : List Bytes) (saved : Bool)
  | lookup (tokens : List Bytes) (candidates : List PartMeta)
  | lookupToken (k : Nat)
  | lookupReturns (k : Nat)
  | crash (keep : Nat → Nat) (survives : Nat → Option Bool) (keepsCovered : Bytes → Bool)

namespace FlushPC

/-- The entries that the flush has taken from the memtable. -/
def entries : FlushPC → List IndexEntry
  | .idle => []
  | .locked => []
  | .snapped es _ => es
  | .sealed _ es _ => es
  | .built _ part => part.entries
  | .written _ part => part.entries
  | .failed es => es

def seq : FlushPC → Option Nat
  | .sealed n _ _ => some n
  | .built n _ => some n
  | .written n _ => some n
  | _ => none

def holdsWriteMu : FlushPC → Bool
  | .snapped _ _ => true
  | _ => false

def isIdle : FlushPC → Bool
  | .idle => true
  | _ => false

/-- The part whose metadata is to be written. -/
def unsaved : FlushPC → Option IndexPart
  | .built _ part => some part
  | _ => none

end FlushPC

/-- The sections of `commit.Wait`. -/
def ofWaiter : GroupCommit.Sec IndexEntry → Bool
  | .lock (.commitWait _) => true
  | .lock _ => false
  | sec => sec.ofHolder

/-- The entries whose `Write` is told of no error by this section. -/
def acknowledged (wal : GroupCommit.State IndexEntry) : GroupCommit.Sec IndexEntry → List IndexEntry
  | .unlock =>
      match wal.io with
      | some (.leaving (.commitWait c) none) => GroupCommit.enqueuedUnder wal c
      | _ => []
  | _ => []

/-- What the FSTs of the parts that the bounds do not exclude have for the token. -/
def lookupParts (parts : List IndexFile) (tok : Bytes) : List Bytes :=
  parts.flatMap fun p =>
    if tok < p.minToken ∨ tok > p.maxToken then []
    else ((p.fst.getD []).filter fun x => x.token = tok).map IndexEntry.dataID

def lookupToken (s : State) (tok : Bytes) : List Bytes :=
  (s.mem.filter fun x => x.token = tok).map IndexEntry.dataID ++ lookupParts s.parts tok

def Reader.advance (r : Reader) (tok : Bytes) (rest ids : List Bytes) : Reader :=
  { r with
    tokens := rest
    found := r.found ++ [(tok, ids)]
    matched := match r.matched with
      | none => some ids
      | some acc => some (acc.filter ids.contains) }

/-- The loose metadata files that a crash leaves, with or without their FST. -/
def survivors (survives : Nat → Option Bool) (loose : List IndexFile) : List IndexFile :=
  loose.zipIdx.filterMap fun p =>
    (survives p.2).map fun fst => if fst then p.1 else { p.1 with fst := none }

section Model

-- Whether the log line of an entry fits the scanner's buffer.
variable (fits : IndexEntry → Bool)

/-- `NewIndexEngine` on what is on disk; it fails on a line that is too long. -/
def newIndexEngine (pfx : Bytes) (dir : Dir IndexEntry) (disk : List IndexFile)
    (savedCovered : List Bytes) (acked : List IndexEntry) : Option State :=
  let log := openSegLog pfx dir
  if (GroupCommit.recovered log).all fits then
    some
      { mem := GroupCommit.recovered log
        wal := GroupCommit.start log
        parts := disk
        disk := disk
        loose := []
        covered := savedCovered
        savedCovered := savedCovered
        pc := .idle
        discards := []
        readers := []
        answered := []
        acked := acked }
  else none

/-- The writing section of a flush that holds `mu`. -/
def flushStep (s : State) : Label → Option State
  | .snapshot =>
      match s.pc with
      | .locked =>
          if hmem : s.mem = [] then some { s with pc := .idle }
          else some { s with mem := [], pc := .snapped s.mem hmem }
      | _ => none
  | .sealWal io =>
      match s.pc, s.wal.io with
      | .snapped es hes, none =>
          some { s with
            wal := GroupCommit.sealStep s.wal io
            pc := match (s.wal.log.sealSegment io).2 with
              | .ok n => .sealed n es hes
              | .error _ => .failed es }
      | _, _ => none
  | .build ok =>
      match s.pc with
      | .sealed n es hes =>
          let part := Engine.indexPart es hes
          some { s with pc := if ok then .built n part else .failed part.entries }
      | _ => none
  | .writeMeta answer =>
      match s.pc, answer with
      | .built n part, .ok => some { s with disk := s.disk ++ [.saved part], pc := .written n part }
      | .built _ part, .failed => some { s with pc := .failed part.entries }
      | .built _ part, .failedAfterRename =>
          some { s with loose := s.loose ++ [.saved part], pc := .failed part.entries }
      | _, _ => none
  | .publish =>
      match s.pc with
      | .written n part =>
          some { s with
            parts := s.parts ++ [.ofPart part]
            pc := .idle
            discards := s.discards ++ [n] }
      | _ => none
  | .restore =>
      match s.pc with
      | .failed es => some { s with mem := s.mem ++ es, pc := .idle }
      | _ => none
  | _ => none

def step (s : State) : Label → Option State
  | .write entries =>
      if entries.isEmpty then some s
      else if s.pc.holdsWriteMu then none
      else some { s with mem := s.mem ++ entries, wal := GroupCommit.enqueueStep s.wal entries }
  | .commit sec =>
      if ofWaiter sec then
        (GroupCommit.step s.wal sec).map fun wal =>
          { s with wal := wal, acked := s.acked ++ acknowledged s.wal sec }
      else none
  | .lockFlush =>
      if s.pc.isIdle && s.readers.isEmpty then some { s with pc := .locked } else none
  | .discard n removes dirSynced =>
      if n ∈ s.discards then
        match s.wal.io with
        | none =>
            some { s with
              wal := { s.wal with log := (s.wal.log.discard removes dirSynced n).1 }
              discards := s.discards.erase n }
        | some _ => none
      else none
  | .markCovered ids saved =>
      if s.pc.isIdle && s.readers.isEmpty then
        some { s with
          covered := s.covered ++ ids
          savedCovered := if saved then s.covered ++ ids else s.savedCovered }
      else none
  | .lookup tokens candidates =>
      if s.pc.isIdle then
        -- The index is consulted unless it is empty or a candidate is not covered.
        if tokens.isEmpty || (s.parts.isEmpty && s.covered.isEmpty) ||
            candidates.any fun p => !s.covered.contains p.id then some s
        else some { s with readers := s.readers ++ [⟨s.acked, tokens, [], none⟩] }
      else none
  | .lookupToken k =>
      match s.readers[k]? with
      | none => none
      | some r =>
          match r.tokens with
          | [] => none
          | tok :: rest =>
              some { s with
                readers := s.readers.set k (r.advance tok rest (lookupToken s tok)) }
  | .lookupReturns k =>
      match s.readers[k]? with
      | none => none
      | some r =>
          if r.tokens.isEmpty then
            some { s with readers := s.readers.eraseIdx k, answered := s.answered ++ [r] }
          else none
  | .crash keep survives keepsCovered =>
      newIndexEngine fits s.wal.log.pfx (s.wal.log.dir.crash keep)
        (s.disk ++ survivors survives s.loose) (s.savedCovered.filter keepsCovered) s.acked
  | l => flushStep s l

end Model

/-! ## The invariant -/

/-- A lookup finds the entry in the part. -/
def IndexFile.Shows (p : IndexFile) (x : IndexEntry) : Prop :=
  x ∈ p.fst.getD [] ∧ p.minToken ≤ x.token ∧ x.token ≤ p.maxToken

namespace State

/-- A lookup after a restart finds the entry in a part. -/
def OnDisk (s : State) (x : IndexEntry) : Prop := ∃ p ∈ s.disk, p.Shows x

def InParts (s : State) (x : IndexEntry) : Prop := ∃ p ∈ s.parts, p.Shows x

/-- The entry is in the memtable, or the flush that holds `mu` has it, or a part on disk. -/
def Held (s : State) (x : IndexEntry) : Prop := x ∈ s.mem ∨ x ∈ s.pc.entries ∨ s.OnDisk x

end State

/-- What a lookup has to report: the entries that were acknowledged when it began. -/
structure Reader.Reports (r : Reader) : Prop where
  found : ∀ a ∈ r.found, ∀ x ∈ r.before, x.token = a.1 → x.dataID ∈ a.2
  matched : ∀ ids, r.matched = some ids → ∀ id,
    (∀ a ∈ r.found, ⟨a.1, id⟩ ∈ r.before) → id ∈ ids

structure Inv (s : State) : Prop where
  wal : GroupCommit.Inv s.wal
  stored : GroupCommit.Stored s.Held s.OnDisk s.wal
  sealed : ∀ n, s.pc.seq = some n →
    GroupCommit.Below n (fun x => x ∈ s.pc.entries ∨ s.OnDisk x) s.wal
  discards : ∀ n ∈ s.discards, GroupCommit.Below n s.OnDisk s.wal
  drained : s.pc.holdsWriteMu = true → s.mem = []
  written : ∀ n part, s.pc = .written n part → ∀ x ∈ part.entries, s.OnDisk x
  durable : ∀ x ∈ s.acked, GroupCommit.OnDisk s.wal x ∨ s.OnDisk x
  enqueued : ∀ q ∈ s.wal.enqueued, ∀ x ∈ q.2, x ∈ s.mem ∨ x ∈ s.pc.entries ∨ s.InParts x
  seen : ∀ x ∈ s.acked, x ∈ s.mem ∨ x ∈ s.pc.entries ∨ s.InParts x
  readers : s.readers ≠ [] → s.pc = .idle
  before : ∀ r ∈ s.readers, ∀ x ∈ r.before, x ∈ s.acked
  reports : ∀ r ∈ s.readers ++ s.answered, r.Reports

/-- The metadata of an index part still has the bounds of its tokens when it is read. -/
def Bounded (part : IndexPart) : Prop :=
  jsonString part.minToken ≤ part.minToken ∧ part.maxToken ≤ jsonString part.maxToken

instance (part : IndexPart) : Decidable (Bounded part) := inferInstanceAs (Decidable (_ ∧ _))

def Label.savesMeta : Label → Bool
  | .writeMeta .ok => true
  | _ => false

/-- Metadata is written only for parts whose bounds it can hold. -/
def Meets (s : State) (l : Label) : Prop :=
  l.savesMeta = true → ∀ part ∈ s.pc.unsaved, Bounded part

instance (s : State) (l : Label) : Decidable (Meets s l) := inferInstanceAs (Decidable (_ → _))

section Lookups

theorem shows_ofPart {part : IndexPart} {x : IndexEntry} (hx : x ∈ part.entries) :
    (IndexFile.ofPart part).Shows x :=
  ⟨hx, Engine.bounds_of_mem hx⟩

/-- All entries of the part are found after a restart exactly if its bounds can be stored. -/
theorem saved_shows_iff (part : IndexPart) :
    (∀ x ∈ part.entries, (IndexFile.saved part).Shows x) ↔ Bounded part := by
  constructor
  · intro h
    exact ⟨(h _ (List.head_mem part.ne)).2.1, (h _ (List.getLast_mem part.ne)).2.2⟩
  · intro h x hx
    obtain ⟨hmin, hmax⟩ := Engine.bounds_of_mem hx
    exact ⟨hx, h.1.trans hmin, hmax.trans h.2⟩

theorem mem_lookupToken {s : State} {x : IndexEntry} (hx : x ∈ s.mem ∨ s.InParts x) :
    x.dataID ∈ lookupToken s x.token := by
  refine List.mem_append.mpr (hx.imp ?_ ?_)
  · intro hmem
    exact List.mem_map.mpr ⟨x, List.mem_filter.mpr ⟨hmem, by simp⟩, rfl⟩
  · rintro ⟨p, hp, hfst, hmin, hmax⟩
    refine List.mem_flatMap.mpr ⟨p, hp, ?_⟩
    rw [if_neg (by simp only [not_or, not_lt]; exact ⟨hmin, hmax⟩)]
    exact List.mem_map.mpr ⟨x, List.mem_filter.mpr ⟨hfst, by simp⟩, rfl⟩

theorem Reader.Reports.advance {r : Reader} (h : r.Reports) {tok : Bytes} {ids : List Bytes}
    (rest : List Bytes) (hids : ∀ x ∈ r.before, x.token = tok → x.dataID ∈ ids) :
    (r.advance tok rest ids).Reports := by
  refine ⟨?_, ?_⟩
  · intro a ha
    rcases List.mem_append.mp ha with ha | ha
    · exact h.found a ha
    · rw [List.mem_singleton.mp ha]
      exact hids
  · intro acc hacc id hall
    have hid : id ∈ ids := hids ⟨tok, id⟩ (hall (tok, ids) (by simp [Reader.advance])) rfl
    have hold : ∀ a ∈ r.found, ⟨a.1, id⟩ ∈ r.before :=
      fun a ha => hall a (List.mem_append_left _ ha)
    simp only [Reader.advance] at hacc
    cases hmatched : r.matched with
    | none =>
        rw [hmatched] at hacc
        cases hacc
        exact hid
    | some acc' =>
        rw [hmatched] at hacc
        cases hacc
        exact List.mem_filter.mpr ⟨h.matched acc' hmatched id hold, by simpa using hid⟩

end Lookups

/-! ## One section -/

section Sections

variable {s : State}

/-- Entries move between the memtable and the flush. -/
theorem Inv.move (h : Inv s) {mem : List IndexEntry} {pc : FlushPC}
    (hmove : ∀ x, x ∈ s.mem ∨ x ∈ s.pc.entries → x ∈ mem ∨ x ∈ pc.entries)
    (hsealed : ∀ n, pc.seq = some n →
      GroupCommit.Below n (fun x => x ∈ pc.entries ∨ s.OnDisk x) s.wal)
    (hdrained : pc.holdsWriteMu = true → mem = [])
    (hwritten : ∀ n part, pc = .written n part → ∀ x ∈ part.entries, s.OnDisk x)
    (hreaders : s.readers ≠ [] → pc = .idle) : Inv { s with mem := mem, pc := pc } := by
  have hthree : ∀ {P : Prop} {x : IndexEntry},
      x ∈ s.mem ∨ x ∈ s.pc.entries ∨ P → x ∈ mem ∨ x ∈ pc.entries ∨ P := by
    intro P x hx
    rw [← or_assoc] at hx ⊢
    exact hx.imp_left (hmove x)
  exact
    { h with
      stored := h.stored.mono (fun x hx => hthree hx) fun _ hx => hx
      sealed := hsealed
      drained := hdrained
      written := hwritten
      enqueued := fun q hq x hx => hthree (h.enqueued q hq x hx)
      seen := fun x hx => hthree (h.seen x hx)
      readers := hreaders }

theorem inv_write (h : Inv s) (hmu : s.pc.holdsWriteMu = false) (entries : List IndexEntry) :
    Inv { s with mem := s.mem ++ entries, wal := GroupCommit.enqueueStep s.wal entries } := by
  have hthree : ∀ {P : Prop} {x : IndexEntry},
      x ∈ s.mem ∨ P → x ∈ s.mem ++ entries ∨ P := fun hx => hx.imp_left (List.mem_append_left _)
  have hext := GroupCommit.Stored.extends_enqueue s.wal entries
  refine
    { h with
      wal := GroupCommit.inv_enqueue h.wal entries
      stored := (h.stored.mono (fun x hx => hthree hx) fun _ hx => hx).enqueue h.wal
        fun x hx => .inl (List.mem_append_right _ hx)
      sealed := fun n hn => (h.sealed n hn).extended hext
      discards := fun n hn => (h.discards n hn).extended hext
      drained := fun hmu' => absurd (hmu.symm.trans hmu') Bool.false_ne_true
      durable := fun x hx => (h.durable x hx).imp_left (hext.onDisk x)
      enqueued := ?_
      seen := fun x hx => hthree (h.seen x hx) }
  intro q hq x hx
  rcases List.mem_append.mp hq with hq | hq
  · exact hthree (h.enqueued q hq x hx)
  · rw [List.mem_singleton.mp hq] at hx
    exact .inl (List.mem_append_right _ hx)

theorem ofHolder_of_ofWaiter {sec : GroupCommit.Sec IndexEntry} (h : ofWaiter sec = true) :
    sec.ofHolder = true := by
  cases sec <;> first | rfl | exact h

/-- Acknowledged entries were enqueued, and they are synced. -/
theorem of_mem_acknowledged (h : Inv s) {sec : GroupCommit.Sec IndexEntry} {x : IndexEntry}
    (hx : x ∈ acknowledged s.wal sec) :
    (GroupCommit.OnDisk s.wal x ∨ s.OnDisk x) ∧ ∃ q ∈ s.wal.enqueued, x ∈ q.2 := by
  unfold acknowledged at hx
  split at hx
  · split at hx
    · rename_i c hio
      have hanswered : GroupCommit.Answered s.wal c none := by
        have hholder := h.wal.holder
        rw [hio] at hholder
        exact hholder
      refine ⟨h.stored.settled c hanswered x hx, ?_⟩
      obtain ⟨q, hq, hxq⟩ := List.mem_flatMap.mp hx
      exact ⟨q, List.mem_of_mem_filter hq, hxq⟩
    · cases hx
  · cases hx

theorem inv_commit (h : Inv s) {sec : GroupCommit.Sec IndexEntry} (hwaiter : ofWaiter sec = true)
    {wal : GroupCommit.State IndexEntry} (hstep : GroupCommit.step s.wal sec = some wal) :
    Inv { s with wal := wal, acked := s.acked ++ acknowledged s.wal sec } := by
  have hsec := ofHolder_of_ofWaiter hwaiter
  have hext := GroupCommit.Stored.extends_holder hsec hstep
  refine
    { h with
      wal := GroupCommit.inv_holder s.wal sec wal h.wal hsec hstep
      stored := h.stored.holder h.wal hsec hstep
      sealed := fun n hn => (h.sealed n hn).extended hext
      discards := fun n hn => (h.discards n hn).extended hext
      durable := ?_
      enqueued := ?_
      seen := ?_
      before := fun r hr x hx => List.mem_append_left _ (h.before r hr x hx) }
  · intro x hx
    have hold : GroupCommit.OnDisk s.wal x ∨ s.OnDisk x :=
      (List.mem_append.mp hx).elim (h.durable x) fun hx => (of_mem_acknowledged h hx).1
    exact hold.imp_left (hext.onDisk x)
  · rw [GroupCommit.enqueued_holder hsec hstep]
    exact h.enqueued
  · intro x hx
    rcases List.mem_append.mp hx with hx | hx
    · exact h.seen x hx
    · obtain ⟨-, q, hq, hxq⟩ := of_mem_acknowledged h hx
      exact h.enqueued q hq x hxq

theorem inv_discard (h : Inv s) {n : Nat} (hn : n ∈ s.discards) (hio : s.wal.io = none)
    (removes : Nat → Bool) (dirSynced : Bool) :
    Inv { s with
      wal := { s.wal with log := (s.wal.log.discard removes dirSynced n).1 }
      discards := s.discards.erase n } := by
  have hbelow := h.discards n hn
  refine
    { h with
      wal := GroupCommit.inv_discard h.wal hio removes dirSynced n
      stored := h.stored.discard hio removes dirSynced n fun f hf hle _ => hbelow.files f hf hle
      sealed := fun m hm => (h.sealed m hm).discard removes dirSynced n
      discards := fun m hm => (h.discards m (List.mem_of_mem_erase hm)).discard removes dirSynced n
      durable := ?_ }
  intro x hx
  rcases h.durable x hx with ⟨f, hf, hxf⟩ | hdisk
  · rcases SegLog.mem_discard removes dirSynced n hf with hkept | ⟨hle, -⟩
    · exact .inl ⟨f, hkept, hxf⟩
    · exact .inr (hbelow.files f hf hle x (Segment.mem_data_of_mem_durable hxf))
  · exact .inr hdisk

theorem FlushPC.eq_idle {pc : FlushPC} (h : pc.isIdle = true) : pc = .idle := by
  cases pc <;> first | rfl | cases h

theorem Inv.readers_eq_nil (h : Inv s) (hpc : s.pc ≠ .idle) : s.readers = [] := by
  by_contra hne
  exact hpc (h.readers hne)

/-- The flush moves on, or gives its entries back to the memtable. -/
theorem Inv.moveFlush (h : Inv s) {mem : List IndexEntry} {pc : FlushPC} (hpc : s.pc ≠ .idle)
    (hmove : ∀ x, x ∈ s.mem ∨ x ∈ s.pc.entries → x ∈ mem ∨ x ∈ pc.entries)
    (hsealed : ∀ n, pc.seq = some n →
      GroupCommit.Below n (fun x => x ∈ pc.entries ∨ s.OnDisk x) s.wal)
    (hdrained : pc.holdsWriteMu = true → mem = [])
    (hwritten : ∀ n part, pc = .written n part → ∀ x ∈ part.entries, s.OnDisk x) :
    Inv { s with mem := mem, pc := pc } :=
  h.move hmove hsealed hdrained hwritten fun hne => absurd (h.readers_eq_nil hpc) hne

theorem inv_snapshot (h : Inv s) (hpc : s.pc = .locked) (hmem : s.mem ≠ []) :
    Inv { s with mem := [], pc := .snapped s.mem hmem } := by
  refine h.moveFlush (by simp [hpc]) ?_ (by simp [FlushPC.seq]) (fun _ => rfl) (by simp)
  intro x hx
  rw [hpc] at hx
  exact .inr (hx.resolve_right List.not_mem_nil)

/-- Sealing the log while the memtable is empty: all that was logged is in the snapshot or on
disk. -/
theorem inv_sealWal (h : Inv s) {es : List IndexEntry} {ne : es ≠ []}
    (hpc : s.pc = .snapped es ne) (hio : s.wal.io = none) (io : SealIO) :
    Inv { s with
      wal := GroupCommit.sealStep s.wal io
      pc := match (s.wal.log.sealSegment io).2 with
        | .ok n => .sealed n es ne
        | .error _ => .failed es } := by
  have hseal : Inv { s with wal := GroupCommit.sealStep s.wal io } :=
    { h with
      wal := GroupCommit.inv_seal h.wal hio io
      stored := h.stored.sealSegment h.wal hio io
      sealed := fun n hn => (h.sealed n hn).sealSegment hio io
      discards := fun n hn => (h.discards n hn).sealSegment hio io
      durable := fun x hx => (h.durable x hx).imp_left (GroupCommit.Stored.onDisk_seal hio io)
      enqueued := by
        rw [GroupCommit.enqueued_seal hio io]
        exact h.enqueued }
  have hkept : ∀ x, x ∈ s.mem ∨ x ∈ s.pc.entries → x ∈ s.mem ∨ x ∈ es := by
    intro x hx
    rw [hpc] at hx
    exact hx
  cases hres : (s.wal.log.sealSegment io).2 with
  | error err =>
      exact hseal.moveFlush (by simp [hpc]) hkept (by simp [FlushPC.seq]) nofun (by simp)
  | ok n =>
      refine hseal.moveFlush (by simp [hpc]) hkept ?_ nofun (by simp)
      rintro n' hn'
      obtain rfl : n = n' := Option.some.inj hn'
      refine (h.stored.below h.wal hio hres).mono fun x hx => ?_
      have hnil : s.mem = [] := h.drained (by rw [hpc]; rfl)
      rw [State.Held, hnil, hpc] at hx
      exact hx.resolve_left List.not_mem_nil

theorem inv_build (h : Inv s) {n : Nat} {es : List IndexEntry} {ne : es ≠ []}
    (hpc : s.pc = .sealed n es ne) (ok : Bool) :
    Inv { s with
      pc := if ok then .built n (Engine.indexPart es ne)
        else .failed (Engine.indexPart es ne).entries } := by
  have hkept : ∀ x, x ∈ s.mem ∨ x ∈ s.pc.entries →
      x ∈ s.mem ∨ x ∈ (Engine.indexPart es ne).entries := by
    intro x hx
    rw [hpc] at hx
    exact hx.imp_right mem_sortedEntries.mpr
  cases ok with
  | false =>
      exact h.moveFlush (by simp [hpc]) hkept (by simp [FlushPC.seq])
        (by simp [FlushPC.holdsWriteMu]) (by simp)
  | true =>
      refine h.moveFlush (by simp [hpc]) hkept ?_ (by simp [FlushPC.holdsWriteMu]) (by simp)
      intro n' hn'
      refine (h.sealed n' (by rw [hpc]; exact hn')).mono fun x hx => ?_
      rw [hpc] at hx
      exact hx.imp_left mem_sortedEntries.mpr

/-- Metadata files are added. -/
theorem Inv.addDisk (h : Inv s) (files : List IndexFile) :
    Inv { s with disk := s.disk ++ files } := by
  have hgrow : ∀ x, s.OnDisk x → State.OnDisk { s with disk := s.disk ++ files } x :=
    fun x ⟨p, hp, hx⟩ => ⟨p, List.mem_append_left _ hp, hx⟩
  exact
    { h with
      stored := h.stored.mono (fun x hx => hx.imp_right fun hx => hx.imp_right (hgrow x)) hgrow
      sealed := fun n hn => (h.sealed n hn).mono fun x hx => hx.imp_right (hgrow x)
      discards := fun n hn => (h.discards n hn).mono hgrow
      written := fun n part hpc x hx => hgrow x (h.written n part hpc x hx)
      durable := fun x hx => (h.durable x hx).imp_right (hgrow x) }

theorem inv_writeMeta (h : Inv s) {n : Nat} {part : IndexPart} (hpc : s.pc = .built n part)
    (hbounded : Bounded part) :
    Inv { s with disk := s.disk ++ [.saved part], pc := .written n part } := by
  have hadd := h.addDisk [.saved part]
  refine hadd.moveFlush (by simp [hpc]) ?_ ?_ nofun ?_
  · intro x hx
    rw [show s.pc = _ from hpc] at hx
    exact hx
  · intro n' hn'
    refine (hadd.sealed n' (by rw [show s.pc = _ from hpc]; exact hn')).mono fun x hx => ?_
    rw [show s.pc = _ from hpc] at hx
    exact hx
  · rintro _ _ ⟨⟩ x hx
    exact ⟨.saved part, by simp, (saved_shows_iff part).mpr hbounded x hx⟩

theorem inv_failMeta (h : Inv s) {n : Nat} {part : IndexPart} (hpc : s.pc = .built n part) :
    Inv { s with pc := .failed part.entries } := by
  refine h.moveFlush (by simp [hpc]) ?_ (by simp [FlushPC.seq]) nofun (by simp)
  intro x hx
  rw [hpc] at hx
  exact hx

theorem inv_publish (h : Inv s) {n : Nat} {part : IndexPart} (hpc : s.pc = .written n part) :
    Inv { s with
      parts := s.parts ++ [.ofPart part], pc := .idle, discards := s.discards ++ [n] } := by
  have hdisk := h.written n part hpc
  have hshown : ∀ {x : IndexEntry}, x ∈ s.mem ∨ x ∈ s.pc.entries ∨ s.InParts x →
      x ∈ s.mem ∨ x ∈ FlushPC.idle.entries ∨ ∃ p ∈ s.parts ++ [.ofPart part], p.Shows x := by
    intro x hx
    rw [hpc] at hx
    rcases hx with hx | hx | ⟨p, hp, hx⟩
    · exact .inl hx
    · exact .inr (.inr ⟨.ofPart part, by simp, shows_ofPart hx⟩)
    · exact .inr (.inr ⟨p, List.mem_append_left _ hp, hx⟩)
  have hbelow : GroupCommit.Below n s.OnDisk s.wal := by
    refine (h.sealed n (by rw [hpc]; rfl)).mono fun x hx => ?_
    rw [hpc] at hx
    exact hx.elim (hdisk x) id
  refine
    { h with
      stored := h.stored.mono ?_ fun _ hx => hx
      sealed := nofun
      discards := ?_
      drained := nofun
      written := nofun
      enqueued := fun q hq x hx => hshown (h.enqueued q hq x hx)
      seen := fun x hx => hshown (h.seen x hx)
      readers := fun _ => rfl }
  · intro x hx
    rw [State.Held, hpc] at hx
    rcases hx with hx | hx | hx
    · exact .inl hx
    · exact .inr (.inr (hdisk x hx))
    · exact .inr (.inr hx)
  · intro n' hn'
    rcases List.mem_append.mp hn' with hn' | hn'
    · exact h.discards n' hn'
    · rw [List.mem_singleton.mp hn']
      exact hbelow

theorem inv_restore (h : Inv s) {es : List IndexEntry} (hpc : s.pc = .failed es) :
    Inv { s with mem := s.mem ++ es, pc := .idle } := by
  refine h.moveFlush (by simp [hpc]) ?_ nofun nofun nofun
  intro x hx
  rw [hpc] at hx
  exact .inl (List.mem_append.mpr hx)

end Sections

section Readers

variable {s : State}

theorem inv_lookup (h : Inv s) (hpc : s.pc = .idle) (tokens : List Bytes) :
    Inv { s with readers := s.readers ++ [⟨s.acked, tokens, [], none⟩] } := by
  refine { h with readers := fun _ => hpc, before := ?_, reports := ?_ }
  · intro r hr
    rcases List.mem_append.mp hr with hr | hr
    · exact h.before r hr
    · rw [List.mem_singleton.mp hr]
      exact fun x hx => hx
  · intro r hr
    rw [List.append_assoc, List.mem_append, List.mem_append, List.mem_singleton] at hr
    rcases hr with hr | rfl | hr
    · exact h.reports r (List.mem_append_left _ hr)
    · exact ⟨nofun, nofun⟩
    · exact h.reports r (List.mem_append_right _ hr)

/-- While a lookup holds `mu`, no flush has taken entries away. -/
theorem mem_lookupToken_of_before (h : Inv s) {r : Reader} (hr : r ∈ s.readers) {x : IndexEntry}
    (hx : x ∈ r.before) : x.dataID ∈ lookupToken s x.token := by
  have hidle := h.readers (List.ne_nil_of_mem hr)
  have hseen := h.seen x (h.before r hr x hx)
  rw [hidle] at hseen
  exact mem_lookupToken (hseen.imp_right fun hx => hx.resolve_left List.not_mem_nil)

theorem inv_lookupToken (h : Inv s) {k : Nat} {r : Reader} (hr : s.readers[k]? = some r)
    (tok : Bytes) (rest : List Bytes) :
    Inv { s with readers := s.readers.set k (r.advance tok rest (lookupToken s tok)) } := by
  have hmem := List.mem_of_getElem? hr
  refine
    { h with
      readers := fun _ => h.readers (List.ne_nil_of_mem hmem)
      before := ?_
      reports := ?_ }
  · intro r' hr'
    rcases List.mem_or_eq_of_mem_set hr' with hr' | rfl
    · exact h.before r' hr'
    · exact h.before r hmem
  · intro r' hr'
    rcases List.mem_append.mp hr' with hr' | hr'
    · rcases List.mem_or_eq_of_mem_set hr' with hr' | rfl
      · exact h.reports r' (List.mem_append_left _ hr')
      · refine (h.reports r (List.mem_append_left _ hmem)).advance rest ?_
        rintro x hx rfl
        exact mem_lookupToken_of_before h hmem hx
    · exact h.reports r' (List.mem_append_right _ hr')

theorem inv_lookupReturns (h : Inv s) {k : Nat} {r : Reader} (hr : s.readers[k]? = some r) :
    Inv { s with readers := s.readers.eraseIdx k, answered := s.answered ++ [r] } := by
  have hmem := List.mem_of_getElem? hr
  refine
    { h with
      readers := fun _ => h.readers (List.ne_nil_of_mem hmem)
      before := fun r' hr' => h.before r' (List.mem_of_mem_eraseIdx hr')
      reports := ?_ }
  intro r' hr'
  rw [List.mem_append, List.mem_append, List.mem_singleton] at hr'
  rcases hr' with hr' | hr' | rfl
  · exact h.reports r' (List.mem_append_left _ (List.mem_of_mem_eraseIdx hr'))
  · exact h.reports r' (List.mem_append_right _ hr')
  · exact h.reports r' (List.mem_append_left _ hmem)

end Readers

section Runs

variable {fits : IndexEntry → Bool}

/-- An engine opens with the log in its memtable and the metadata files as its parts. -/
theorem inv_newIndexEngine {pfx : Bytes} {dir : Dir IndexEntry} {disk : List IndexFile}
    {savedCovered : List Bytes} {acked : List IndexEntry} {s : State}
    (hacked : ∀ x ∈ acked,
      (∃ f ∈ (openSegLog pfx dir).dir.segs, x ∈ f.durable) ∨ ∃ p ∈ disk, p.Shows x)
    (hnew : newIndexEngine fits pfx dir disk savedCovered acked = some s) : Inv s := by
  unfold newIndexEngine at hnew
  simp only at hnew
  split_ifs at hnew
  obtain rfl := Option.some.inj hnew
  exact
    { wal := GroupCommit.inv_start pfx dir
      stored := GroupCommit.stored_start (GroupCommit.activeSeq_openSegLog pfx dir) rfl rfl
        fun _ hx => .inl hx
      sealed := nofun
      discards := nofun
      drained := nofun
      written := nofun
      durable := hacked
      enqueued := nofun
      seen := by
        intro x hx
        rcases hacked x hx with ⟨f, hf, hxf⟩ | hdisk
        · exact .inl (GroupCommit.mem_recovered hf (Segment.mem_data_of_mem_durable hxf))
        · exact .inr (.inr hdisk)
      readers := nofun
      before := nofun
      reports := nofun }

theorem inv_crash {s t : State} (h : Inv s) {keep : Nat → Nat} {survives : Nat → Option Bool}
    {keepsCovered : Bytes → Bool}
    (hstep : step fits s (.crash keep survives keepsCovered) = some t) : Inv t := by
  refine inv_newIndexEngine (fun x hx => ?_) hstep
  rcases h.durable x hx with hlog | ⟨p, hp, hx⟩
  · exact .inl (GroupCommit.onDisk_crash hlog _ keep)
  · exact .inr ⟨p, List.mem_append_left _ hp, hx⟩

theorem inv_flushStep {s t : State} {l : Label} (h : Inv s) (hmeets : Meets s l)
    (hstep : flushStep s l = some t) : Inv t := by
  unfold flushStep at hstep
  split at hstep
  · split at hstep
    · rename_i hpc
      split_ifs at hstep with hmem
      · cases hstep
        refine h.moveFlush (by simp [hpc]) (fun x hx => ?_) nofun nofun nofun
        rwa [hpc] at hx
      · cases hstep
        exact inv_snapshot h hpc hmem
    · cases hstep
  · split at hstep
    · rename_i es hes hpc hio
      cases hstep
      exact inv_sealWal h hpc hio _
    · cases hstep
  · split at hstep
    · rename_i n es hes hpc
      cases hstep
      exact inv_build h hpc _
    · cases hstep
  · split at hstep
    · rename_i n part hpc
      cases hstep
      exact inv_writeMeta h hpc (hmeets rfl part (by rw [hpc]; rfl))
    · rename_i n part hpc
      cases hstep
      exact inv_failMeta h hpc
    · rename_i n part hpc
      cases hstep
      have hloose : Inv { s with loose := s.loose ++ [.saved part] } := { h with }
      exact inv_failMeta hloose hpc
    · cases hstep
  · split at hstep
    · rename_i n part hpc
      cases hstep
      exact inv_publish h hpc
    · cases hstep
  · split at hstep
    · rename_i es hpc
      cases hstep
      exact inv_restore h hpc
    · cases hstep
  · cases hstep

theorem inv_step (s : State) (l : Label) (t : State) (h : Inv s) (hmeets : Meets s l)
    (hstep : step fits s l = some t) : Inv t := by
  cases l with
  | write entries =>
      simp only [step] at hstep
      split_ifs at hstep with hempty hmu
      · cases hstep
        exact h
      · cases hstep
        exact inv_write h (by simpa using hmu) entries
  | commit sec =>
      simp only [step] at hstep
      split_ifs at hstep with hwaiter
      obtain ⟨wal, hwal, rfl⟩ := Option.map_eq_some_iff.mp hstep
      exact inv_commit h hwaiter hwal
  | lockFlush =>
      simp only [step] at hstep
      split_ifs at hstep with hguard
      cases hstep
      obtain ⟨hidle, hreaders⟩ := Bool.and_eq_true_iff.mp hguard
      rw [List.isEmpty_iff] at hreaders
      refine h.move (fun x hx => ?_) nofun nofun nofun fun hne => absurd hreaders hne
      rwa [FlushPC.eq_idle hidle] at hx
  | snapshot => exact inv_flushStep h hmeets hstep
  | sealWal io => exact inv_flushStep h hmeets hstep
  | build ok => exact inv_flushStep h hmeets hstep
  | writeMeta answer => exact inv_flushStep h hmeets hstep
  | publish => exact inv_flushStep h hmeets hstep
  | restore => exact inv_flushStep h hmeets hstep
  | discard n removes dirSynced =>
      simp only [step] at hstep
      split_ifs at hstep with hn
      split at hstep
      · rename_i hio
        cases hstep
        exact inv_discard h hn hio removes dirSynced
      · cases hstep
  | markCovered ids saved =>
      simp only [step] at hstep
      split_ifs at hstep
      · cases hstep
        exact { h with }
      · cases hstep
        exact { h with }
  | lookup tokens candidates =>
      simp only [step] at hstep
      split_ifs at hstep with hidle
      · cases hstep
        exact h
      · cases hstep
        exact inv_lookup h (FlushPC.eq_idle hidle) tokens
  | lookupToken k =>
      simp only [step] at hstep
      split at hstep
      · cases hstep
      · rename_i r hr
        split at hstep
        · cases hstep
        · cases hstep
          exact inv_lookupToken h hr _ _
  | lookupReturns k =>
      simp only [step] at hstep
      split at hstep
      · cases hstep
      · rename_i r hr
        split_ifs at hstep
        cases hstep
        exact inv_lookupReturns h hr
  | crash keep survives keepsCovered => exact inv_crash h hstep

/-- Along a run in which the written metadata keeps the bounds of its part, every lookup reports all
entries that were acknowledged when it began. -/
theorem lookups_report_along {pfx : Bytes} {dir : Dir IndexEntry} {disk : List IndexFile}
    {savedCovered : List Bytes} {s₀ s : State} {ls : List Label}
    (hnew : newIndexEngine fits pfx dir disk savedCovered [] = some s₀)
    (hmeets : Along (step fits) Meets s₀ ls) (hrun : exec (step fits) s₀ ls = some s) :
    ∀ r ∈ s.readers ++ s.answered, r.Reports := by
  have hinit : Inv s₀ := inv_newIndexEngine (fun _ hx => absurd hx List.not_mem_nil) hnew
  have hinv : Inv s := invariant_along inv_step hinit hmeets hrun
  exact hinv.reports

end Runs

/-- An engine on an empty disk. -/
def opened : State :=
  { mem := []
    wal := GroupCommit.start (openSegLog (ascii "wal-") (Dir.fresh none))
    parts := []
    disk := []
    loose := []
    covered := []
    savedCovered := []
    pc := .idle
    discards := []
    readers := []
    answered := []
    acked := [] }

def demoStep : State → Label → Option State := step fun _ => true

/-- The entry is acknowledged, its part is covered, and the entry is flushed. -/
def writeAndFlush (x : IndexEntry) : List Label :=
  [.write [x], .commit (.lock (.commitWait 0)), .commit .check, .commit .take,
    .commit (.write none), .commit (.fsync true), .commit .resolve, .commit .unlock,
    .markCovered [x.dataID] true, .lockFlush, .snapshot, .sealWal .good, .build true,
    .writeMeta .ok, .publish, .discard 1 (fun _ => true) true]

/-- The engine is restarted and the token looked up. -/
def restartAndLookup (x : IndexEntry) : List Label :=
  [.crash (fun _ => 0) (fun _ => none) fun _ => true,
    .lookup [x.token] [⟨x.dataID, ascii "n1", 0, 0, 0, 1, [], false, 1⟩], .lookupToken 0,
    .lookupReturns 0]

def demoEnd (x : IndexEntry) : State :=
  (exec demoStep opened (writeAndFlush x ++ restartAndLookup x)).getD opened

def plainEntry : IndexEntry := ⟨ascii "lbl:a=b", ascii "p"⟩

theorem lookups_report_along_restart :
    Bounded (Engine.indexPart [plainEntry] (List.cons_ne_nil _ _)) ∧
    (demoEnd plainEntry).answered.map Reader.found = [[(ascii "lbl:a=b", [ascii "p"])]] ∧
    ∀ r ∈ (demoEnd plainEntry).readers ++ (demoEnd plainEntry).answered, r.Reports := by
  have hnew : newIndexEngine (fun _ => true) (ascii "wal-") (Dir.fresh none) [] [] [] =
      some opened := rfl
  have hmeets : Along demoStep Meets opened
      (writeAndFlush plainEntry ++ restartAndLookup plainEntry) := by
    decide +kernel
  exact ⟨by decide +kernel, by decide +kernel,
    lookups_report_along hnew hmeets (exec_eq_getD (by decide +kernel))⟩

/-- A label value with a byte that is not UTF-8. -/
def brokenEntry : IndexEntry := ⟨ascii "lbl:a=" ++ [0xff], ascii "p"⟩

/-- The entry is acknowledged and found before the restart and not found after it. -/
theorem flushed_entry_lost :
    brokenEntry ∈ (demoEnd brokenEntry).acked ∧
    ((exec demoStep opened (writeAndFlush brokenEntry)).map
      fun s => lookupToken s brokenEntry.token) = some [ascii "p"] ∧
    ∃ r ∈ (demoEnd brokenEntry).answered, r.before = [brokenEntry] ∧
      r.found = [(brokenEntry.token, [])] ∧ r.matched = some [] ∧ ¬r.Reports := by
  have hanswered : (demoEnd brokenEntry).answered =
      [⟨[brokenEntry], [], [(brokenEntry.token, [])], some []⟩] := by
    decide +kernel
  refine ⟨by decide +kernel, by decide +kernel, ?_⟩
  rw [hanswered]
  refine ⟨_, List.mem_singleton_self _, rfl, rfl, rfl, ?_⟩
  intro hreports
  exact List.not_mem_nil (hreports.found _ (List.mem_singleton_self _) brokenEntry
    (List.mem_singleton_self _) rfl)

end Shrimpd.Lsm.IndexVisible
