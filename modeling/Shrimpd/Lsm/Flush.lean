import Shrimpd.Types.Entry
import Shrimpd.Wal.Stored

/-!
# Writing and flushing

`Write` and `flush` of the LSM over a shared write-ahead log.  `Write` enqueues
and inserts into the memtable under `writeMu` and then waits for its batch;
`flush` takes a snapshot and seals under `writeMu`, then writes the part, its
metadata and the log entry, and discards the sealed segments.  Flushes are
serialised by `flushMu`, so there is one flush program counter; every failure
puts the snapshot back.  A crash loses everything but the files and the parts
whose log entry was committed; the restart replays the log.

The log is one of whole entries: a segment write appends entries, not parts of
them.  Timestamps order the part, nothing else depends on the entries.
-/

namespace Shrimpd.Lsm.Flush

open Shrimpd.Lib Shrimpd.Lib.Exec Shrimpd.Types Shrimpd.Wal Shrimpd.Wal.GroupCommit

/-! ## The node -/

/-- Where the holder of `flushMu` is. -/
inductive FlushPC where
  | idle
  | sealed (seq : Nat) (snap : List Entry)
  | partWritten (seq : Nat) (snap : List Entry)
  | metaWritten (seq : Nat) (snap : List Entry)
  | appended (seq : Nat)
  | restoring (snap : List Entry)
  deriving DecidableEq, Repr

namespace FlushPC

/-- Entries taken from the memtable and neither published nor put back. -/
def snapshot : FlushPC → List Entry
  | .sealed _ snap => snap
  | .partWritten _ snap => snap
  | .metaWritten _ snap => snap
  | .restoring snap => snap
  | _ => []

/-- The number a later `Discard` will use. -/
def sealedSeq : FlushPC → Option Nat
  | .sealed seq _ => some seq
  | .partWritten seq _ => some seq
  | .metaWritten seq _ => some seq
  | .appended seq => some seq
  | _ => none

end FlushPC

structure Node where
  wal : GroupCommit.State Entry
  mem : List Entry
  /-- `Write` calls waiting for their batch. -/
  writers : List (Nat × List Entry)
  /-- Entries whose `Write` returned nil. -/
  acked : List Entry
  flush : FlushPC
  /-- The parts whose `AppendLog` succeeded. -/
  parts : List (List Entry)
  up : Bool

inductive Label where
  | write (es : List Entry)
  /-- A section of some caller's wait on the log. -/
  | walIo (sec : Sec Entry)
  /-- The `i`-th waiting `Write` returns what its wait returned. -/
  | writeReturn (i : Nat)
  | flushBegin (io : SealIO)
  | writePart (ok : Bool)
  | writeMeta (ok : Bool)
  | appendLog (ok : Bool)
  | discard (removes : Nat → Bool) (dirSynced : Bool)
  | restore
  /-- Crash, `OpenWAL` and `NewLSM`; the node stays down if `Recover` fails. -/
  | crash (keep : Nat → Nat) (recovers : Bool)

def boot (log : SegLog Entry) : Node where
  wal := start log
  mem := recovered log
  writers := []
  acked := []
  flush := .idle
  parts := []
  up := true

/-- Snapshot and `Seal` under `writeMu`; an empty memtable is not flushed. -/
def beginFlush (s : Node) (io : SealIO) : Node :=
  if s.mem = [] then s
  else
    { s with
      wal := sealStep s.wal io
      mem := []
      flush := match (s.wal.log.sealSegment io).2 with
        | .ok seq => .sealed seq s.mem
        | .error _ => .restoring s.mem }

def stepUp (s : Node) : Label → Option Node
  | .write es =>
      some { s with
        wal := enqueueStep s.wal es
        mem := s.mem ++ es
        writers := s.writers ++ [((s.wal.log.enqueue es).2, es)] }
  | .walIo sec =>
      if sec.ofHolder then (step s.wal sec).map fun wal => { s with wal := wal } else none
  | .writeReturn i =>
      match s.writers[i]? with
      | none => none
      | some (c, es) =>
          match s.wal.returned.find? fun r => r.1 == c with
          | none => none
          | some (_, none) =>
              some { s with writers := s.writers.eraseIdx i, acked := s.acked ++ es }
          | some (_, some _) => some { s with writers := s.writers.eraseIdx i }
  | .flushBegin io =>
      match s.flush, s.wal.io with
      | .idle, none => some (beginFlush s io)
      | _, _ => none
  | .writePart ok =>
      match s.flush with
      | .sealed seq snap =>
          some { s with flush :=
            if ok then .partWritten seq (sortByTimestamp snap)
            else .restoring (sortByTimestamp snap) }
      | _ => none
  | .writeMeta ok =>
      match s.flush with
      | .partWritten seq snap =>
          some { s with flush := if ok then .metaWritten seq snap else .restoring snap }
      | _ => none
  | .appendLog ok =>
      match s.flush with
      | .metaWritten seq snap =>
          if ok then some { s with flush := .appended seq, parts := s.parts ++ [snap] }
          else some { s with flush := .restoring snap }
      | _ => none
  | .discard removes dirSynced =>
      match s.flush, s.wal.io with
      | .appended seq, none =>
          some { s with
            wal := { s.wal with log := (s.wal.log.discard removes dirSynced seq).1 }
            flush := .idle }
      | _, _ => none
  | .restore =>
      match s.flush with
      | .restoring snap => some { s with mem := s.mem ++ snap, flush := .idle }
      | _ => none
  | .crash _ _ => none

def crashNode (s : Node) (keep : Nat → Nat) (recovers : Bool) : Node :=
  let log := openSegLog s.wal.log.pfx (s.wal.log.dir.crash keep)
  { s with
    wal := start log
    mem := if recovers then recovered log else []
    writers := []
    flush := .idle
    up := recovers }

def nodeStep (s : Node) : Label → Option Node
  | .crash keep recovers => some (crashNode s keep recovers)
  | l => if s.up then stepUp s l else none

/-! ## The invariant -/

def Published (s : Node) (e : Entry) : Prop := ∃ p ∈ s.parts, e ∈ p

/-- A running node accounts for every entry of the log. -/
def Accounted (s : Node) (e : Entry) : Prop :=
  s.up = true → e ∈ s.mem ∨ e ∈ s.flush.snapshot ∨ Published s e

/-- Safe from a crash. -/
def Safe (s : Node) (e : Entry) : Prop := OnDisk s.wal e ∨ Published s e

structure Inv (s : Node) : Prop where
  wal : GroupCommit.Inv s.wal
  stored : Stored (Accounted s) (Published s) s.wal
  sealedSegs : ∀ q, s.flush.sealedSeq = some q → q < s.wal.log.activeSeq ∧
    ∀ f ∈ s.wal.log.dir.segs, f.seq ≤ q → ∀ e ∈ f.data,
      e ∈ s.flush.snapshot ∨ Published s e
  writers : ∀ w ∈ s.writers, w ∈ s.wal.enqueued
  acked : ∀ e ∈ s.acked, Safe s e

/-- What the flush has sealed lies below the active segment. -/
theorem Inv.below {s : Node} (h : Inv s) {q : Nat} (hq : s.flush.sealedSeq = some q) :
    Below q (fun e => e ∈ s.flush.snapshot ∨ Published s e) s.wal :=
  ⟨(h.sealedSegs q hq).1, (h.sealedSegs q hq).2⟩

theorem inv_boot (pfx : Bytes) (d : Dir Entry) : Inv (boot (openSegLog pfx d)) where
  wal := GroupCommit.inv_start pfx d
  stored := stored_start (activeSeq_openSegLog pfx d) rfl rfl fun _ he _ => Or.inl he
  sealedSegs := by simp [boot, FlushPC.sealedSeq]
  writers := by simp [boot]
  acked := by simp [boot]

/-- A step of the flush that only moves its program counter. -/
theorem Inv.moveFlush {s : Node} (h : Inv s) {pc : FlushPC}
    (hsnap : ∀ e, e ∈ s.flush.snapshot ↔ e ∈ pc.snapshot)
    (hseq : ∀ q, pc.sealedSeq = some q → s.flush.sealedSeq = some q) :
    Inv { s with flush := pc } where
  wal := h.wal
  stored := h.stored.mono
    (fun e he hup => (he hup).imp_right (Or.imp_left (hsnap e).mp)) fun _ he => he
  sealedSegs := by
    intro q hq
    have hbelow := (h.below (hseq q hq)).mono fun e he => he.imp_left (hsnap e).mp
    exact ⟨hbelow.lt_active, hbelow.files⟩
  writers := h.writers
  acked := h.acked

theorem inv_write {s : Node} (h : Inv s) (es : List Entry) :
    Inv { s with
      wal := enqueueStep s.wal es
      mem := s.mem ++ es
      writers := s.writers ++ [((s.wal.log.enqueue es).2, es)] } := by
  have hdir : (enqueueStep s.wal es).log.dir = s.wal.log.dir := by
    simp only [enqueueStep, SegLog.enqueue]
    cases s.wal.log.cur <;> rfl
  have hseq : (enqueueStep s.wal es).log.activeSeq = s.wal.log.activeSeq := by
    simp only [enqueueStep, SegLog.enqueue]
    cases s.wal.log.cur <;> rfl
  refine ⟨GroupCommit.inv_enqueue h.wal es, ?_, ?_, ?_, ?_⟩
  · have hmono : Stored (fun e => s.up = true →
        e ∈ s.mem ++ es ∨ e ∈ s.flush.snapshot ∨ Published s e) (Published s) s.wal :=
      h.stored.mono (fun e he hup => (he hup).imp_left (List.mem_append_left es))
        fun _ he => he
    exact hmono.enqueue h.wal fun e he _ => Or.inl (List.mem_append_right _ he)
  · intro q hq
    rw [hdir, hseq]
    exact h.sealedSegs q hq
  · intro w hw
    rcases List.mem_append.mp hw with hw | hw
    · exact List.mem_append_left _ (h.writers w hw)
    · exact List.mem_append_right _ hw
  · intro e he
    rw [Safe, OnDisk, hdir]
    exact h.acked e he

theorem inv_walIo {s : Node} (h : Inv s) {sec : Sec Entry} (hsec : sec.ofHolder = true)
    {wal : GroupCommit.State Entry} (hstep : step s.wal sec = some wal) :
    Inv { s with wal := wal } := by
  have hext := Stored.extends_holder hsec hstep
  refine ⟨GroupCommit.inv_holder s.wal sec wal h.wal hsec hstep,
    h.stored.holder h.wal hsec hstep, ?_, ?_, ?_⟩
  · intro q hq
    have hbelow := (h.below hq).extended hext
    exact ⟨hbelow.lt_active, hbelow.files⟩
  · intro w hw
    rw [enqueued_holder hsec hstep]
    exact h.writers w hw
  · intro e he
    exact (h.acked e he).imp_left (hext.onDisk e)

/-- A waiting `Write` whose batch was resolved without an error is safe. -/
theorem Inv.safe_of_returned {s : Node} (h : Inv s) {c : Nat} {es : List Entry}
    (hw : (c, es) ∈ s.writers) (hret : (c, none) ∈ s.wal.returned) : ∀ e ∈ es, Safe s e := by
  intro e he
  apply h.stored.settled c (h.wal.returned _ hret) e
  rw [enqueuedUnder, List.mem_flatMap]
  exact ⟨(c, es), List.mem_filter.mpr ⟨h.writers _ hw, by simp⟩, he⟩

theorem inv_writeReturn {s t : Node} (h : Inv s) {i : Nat}
    (hstep : stepUp s (.writeReturn i) = some t) : Inv t := by
  simp only [stepUp] at hstep
  cases hw : s.writers[i]? with
  | none => simp [hw] at hstep
  | some w =>
      obtain ⟨c, es⟩ := w
      have hmem : (c, es) ∈ s.writers := List.mem_of_getElem? hw
      have herase : ∀ w ∈ s.writers.eraseIdx i, w ∈ s.wal.enqueued :=
        fun w hw' => h.writers w (List.mem_of_mem_eraseIdx hw')
      cases hfind : s.wal.returned.find? fun r => r.1 == c with
      | none => simp [hw, hfind] at hstep
      | some r =>
          obtain ⟨c', err⟩ := r
          have hret : (c', err) ∈ s.wal.returned := List.mem_of_find?_eq_some hfind
          have hc : c' = c := by simpa using List.find?_some hfind
          subst hc
          cases err with
          | some err =>
              simp only [hw, hfind] at hstep
              obtain rfl := Option.some.inj hstep
              exact ⟨h.wal, h.stored, h.sealedSegs, herase, h.acked⟩
          | none =>
              simp only [hw, hfind] at hstep
              obtain rfl := Option.some.inj hstep
              refine ⟨h.wal, h.stored, h.sealedSegs, herase, ?_⟩
              intro e he
              rcases List.mem_append.mp he with he | he
              · exact h.acked e he
              · exact h.safe_of_returned hmem hret e he

theorem inv_flushBegin {s : Node} (h : Inv s) (hidle : s.flush = .idle)
    (hio : s.wal.io = none) (hup : s.up = true) (io : SealIO) : Inv (beginFlush s io) := by
  unfold beginFlush
  split_ifs with hmem
  · exact h
  · have hseal := h.stored.sealSegment h.wal hio io
    have hfiles : ∀ f ∈ (sealStep s.wal io).log.dir.segs, ∀ e ∈ f.data,
        e ∈ s.mem ∨ Published s e := by
      intro f hf e he
      have hacc := hseal.files f hf e he hup
      simpa [hidle, FlushPC.snapshot] using hacc
    have hsnap : ∀ pc : FlushPC, pc.snapshot = s.mem →
        (∀ q, pc.sealedSeq = some q → q < (sealStep s.wal io).log.activeSeq) →
        Inv { s with wal := sealStep s.wal io, mem := [], flush := pc } := by
      intro pc hpc hseq
      refine ⟨GroupCommit.inv_seal h.wal hio io, ?_, ?_, ?_, ?_⟩
      · apply hseal.mono _ fun _ he => he
        intro e he hup'
        right
        rw [hpc]
        rcases he hup' with hmem | hsnap | hpub
        · exact Or.inl hmem
        · simp [hidle, FlushPC.snapshot] at hsnap
        · exact Or.inr hpub
      · intro q hq
        refine ⟨hseq q hq, ?_⟩
        intro f hf _ e he
        rw [hpc]
        exact hfiles f hf e he
      · intro w hw
        rw [enqueued_seal hio io]
        exact h.writers w hw
      · intro e he
        exact (h.acked e he).imp_left (Stored.onDisk_seal hio io)
    cases hres : (s.wal.log.sealSegment io).2 with
    | error err => exact hsnap _ rfl (by simp [FlushPC.sealedSeq])
    | ok seq =>
        apply hsnap _ rfl
        intro q hq
        obtain rfl : seq = q := Option.some.inj hq
        rw [log_sealStep]
        exact seal_ok hres

theorem inv_appendLog {s : Node} (h : Inv s) {seq : Nat} {snap : List Entry}
    (hpc : s.flush = .metaWritten seq snap) :
    Inv { s with flush := .appended seq, parts := s.parts ++ [snap] } := by
  have hnew : ∀ e, Published s e ∨ e ∈ snap →
      Published { s with flush := .appended seq, parts := s.parts ++ [snap] } e := by
    rintro e (⟨p, hp, he⟩ | he)
    · exact ⟨p, List.mem_append_left _ hp, he⟩
    · exact ⟨snap, by simp, he⟩
  refine ⟨h.wal, ?_, ?_, h.writers, ?_⟩
  · apply h.stored.mono
    · intro e he hup
      have hacc := he hup
      rw [hpc] at hacc
      rcases hacc with hmem | hsnap | hpub
      · exact Or.inl hmem
      · exact Or.inr (Or.inr (hnew e (Or.inr hsnap)))
      · exact Or.inr (Or.inr (hnew e (Or.inl hpub)))
    · exact fun e he => hnew e (Or.inl he)
  · intro q hq
    have hbelow := h.below (by rw [hpc]; exact hq)
    rw [hpc] at hbelow
    exact ⟨hbelow.lt_active, fun f hf hle e he => Or.inr (hnew e (hbelow.files f hf hle e he).symm)⟩
  · intro e he
    exact (h.acked e he).imp_right fun hpub => hnew e (Or.inl hpub)

/-- The segments `Discard` may remove hold published entries only. -/
theorem Inv.discardable_published {s : Node} (h : Inv s) {seq : Nat}
    (hpc : s.flush = .appended seq) :
    ∀ f ∈ s.wal.log.dir.segs, f.seq ≤ seq → ∀ e ∈ f.data, Published s e := by
  have hbelow := h.below (by rw [hpc]; rfl)
  rw [hpc] at hbelow
  exact (hbelow.mono fun e he => by simpa [FlushPC.snapshot] using he).files

theorem inv_discard {s : Node} (h : Inv s) {seq : Nat} (hpc : s.flush = .appended seq)
    (hio : s.wal.io = none) (removes : Nat → Bool) (dirSynced : Bool) :
    Inv { s with
      wal := { s.wal with log := (s.wal.log.discard removes dirSynced seq).1 }
      flush := .idle } := by
  have hpub := h.discardable_published hpc
  have hstored := h.stored.discard hio removes dirSynced seq
    fun f hf hle _ => hpub f hf hle
  refine ⟨GroupCommit.inv_discard h.wal hio removes dirSynced seq, ?_, ?_, h.writers, ?_⟩
  · apply hstored.mono _ fun _ he => he
    intro e he hup
    have hacc := he hup
    rw [hpc] at hacc
    exact hacc
  · simp [FlushPC.sealedSeq]
  · intro e he
    rcases h.acked e he with ⟨f, hf, hdur⟩ | hpubl
    · by_cases hkeep : f ∈ (s.wal.log.discard removes dirSynced seq).1.dir.segs
      · exact Or.inl ⟨f, hkeep, hdur⟩
      · have hle : f.seq ≤ seq := by
          by_contra hgt
          exact hkeep (SegLog.mem_discard_of_lt hf (by omega))
        exact Or.inr (hpub f hf hle e (Segment.mem_data_of_mem_durable hdur))
    · exact Or.inr hpubl

theorem inv_restore {s : Node} (h : Inv s) {snap : List Entry}
    (hpc : s.flush = .restoring snap) :
    Inv { s with mem := s.mem ++ snap, flush := .idle } where
  wal := h.wal
  stored := by
    apply h.stored.mono _ fun _ he => he
    intro e he hup
    have hacc := he hup
    rw [hpc] at hacc
    rcases hacc with hmem | hsnap | hpub
    · exact Or.inl (List.mem_append_left _ hmem)
    · exact Or.inl (List.mem_append_right _ hsnap)
    · exact Or.inr (Or.inr hpub)
  sealedSegs := by simp [FlushPC.sealedSeq]
  writers := h.writers
  acked := h.acked

theorem inv_crash {s : Node} (h : Inv s) (keep : Nat → Nat) (recovers : Bool) :
    Inv (crashNode s keep recovers) where
  wal := GroupCommit.inv_start _ _
  stored := by
    apply stored_start (activeSeq_openSegLog _ _) rfl rfl
    intro e he hup
    have hrec : recovers = true := hup
    left
    simp only [crashNode, hrec, if_true]
    exact he
  sealedSegs := by simp [crashNode, FlushPC.sealedSeq]
  writers := by simp [crashNode]
  acked := by
    intro e he
    exact (h.acked e he).imp_left fun hdisk => onDisk_crash hdisk _ keep

theorem inv_stepUp {s t : Node} {l : Label} (h : Inv s) (hup : s.up = true)
    (hstep : stepUp s l = some t) : Inv t := by
  cases l with
  | write es =>
      obtain rfl := Option.some.inj hstep
      exact inv_write h es
  | walIo sec =>
      simp only [stepUp] at hstep
      split_ifs at hstep with hsec
      obtain ⟨wal, hwal, rfl⟩ := Option.map_eq_some_iff.mp hstep
      exact inv_walIo h hsec hwal
  | writeReturn i => exact inv_writeReturn h hstep
  | flushBegin io =>
      simp only [stepUp] at hstep
      split at hstep
      · rename_i hidle hio
        obtain rfl := Option.some.inj hstep
        exact inv_flushBegin h hidle hio hup io
      · simp at hstep
  | writePart ok =>
      simp only [stepUp] at hstep
      split at hstep
      · rename_i seq snap hpc
        obtain rfl := Option.some.inj hstep
        cases ok
        · exact h.moveFlush
            (fun e => by simp [hpc, FlushPC.snapshot, mem_sortByTimestamp])
            (by simp [FlushPC.sealedSeq])
        · exact h.moveFlush
            (fun e => by simp [hpc, FlushPC.snapshot, mem_sortByTimestamp])
            (by simp [hpc, FlushPC.sealedSeq])
      · simp at hstep
  | writeMeta ok =>
      simp only [stepUp] at hstep
      split at hstep
      · rename_i seq snap hpc
        obtain rfl := Option.some.inj hstep
        cases ok
        · exact h.moveFlush (fun e => by simp [hpc, FlushPC.snapshot])
            (by simp [FlushPC.sealedSeq])
        · exact h.moveFlush (fun e => by simp [hpc, FlushPC.snapshot])
            (by simp [hpc, FlushPC.sealedSeq])
      · simp at hstep
  | appendLog ok =>
      simp only [stepUp] at hstep
      split at hstep
      · rename_i seq snap hpc
        split_ifs at hstep
        · obtain rfl := Option.some.inj hstep
          exact inv_appendLog h hpc
        · obtain rfl := Option.some.inj hstep
          exact h.moveFlush (fun e => by simp [hpc, FlushPC.snapshot])
            (by simp [FlushPC.sealedSeq])
      · simp at hstep
  | discard removes dirSynced =>
      simp only [stepUp] at hstep
      split at hstep
      · rename_i seq hpc hio
        obtain rfl := Option.some.inj hstep
        exact inv_discard h hpc hio removes dirSynced
      · simp at hstep
  | restore =>
      simp only [stepUp] at hstep
      split at hstep
      · rename_i snap hpc
        obtain rfl := Option.some.inj hstep
        exact inv_restore h hpc
      · simp at hstep
  | crash keep recovers => simp [stepUp] at hstep

/-- A step is a crash or a step of a running node. -/
theorem nodeStep_cases {s t : Node} {l : Label} (hstep : nodeStep s l = some t) :
    (∃ keep recovers, t = crashNode s keep recovers) ∨
      s.up = true ∧ stepUp s l = some t := by
  cases l with
  | crash keep recovers => exact Or.inl ⟨keep, recovers, (Option.some.inj hstep).symm⟩
  | _ =>
      right
      simp only [nodeStep] at hstep
      split_ifs at hstep with hup
      exact ⟨hup, hstep⟩

theorem inv_nodeStep (s : Node) (l : Label) (t : Node) (h : Inv s)
    (hstep : nodeStep s l = some t) : Inv t := by
  rcases nodeStep_cases hstep with ⟨keep, recovers, rfl⟩ | ⟨hup, hstep⟩
  · exact inv_crash h keep recovers
  · exact inv_stepUp h hup hstep

/-! ## Whole runs -/

/-- Steps that do not touch the log. -/
def Label.offLog : Label → Bool
  | .writeReturn _ => true
  | .writePart _ => true
  | .writeMeta _ => true
  | .appendLog _ => true
  | .restore => true
  | _ => false

theorem wal_of_offLog {s t : Node} {l : Label} (hl : l.offLog = true)
    (hstep : stepUp s l = some t) : t.wal = s.wal := by
  cases l with
  | writeReturn i =>
      simp only [stepUp] at hstep
      split at hstep
      · simp at hstep
      · split at hstep
        · simp at hstep
        · obtain rfl := Option.some.inj hstep
          rfl
        · obtain rfl := Option.some.inj hstep
          rfl
  | writePart ok =>
      simp only [stepUp] at hstep
      split at hstep
      · obtain rfl := Option.some.inj hstep
        rfl
      · simp at hstep
  | writeMeta ok =>
      simp only [stepUp] at hstep
      split at hstep
      · obtain rfl := Option.some.inj hstep
        rfl
      · simp at hstep
  | appendLog ok =>
      simp only [stepUp] at hstep
      split at hstep
      · cases ok <;> (obtain rfl := Option.some.inj hstep; rfl)
      · simp at hstep
  | restore =>
      simp only [stepUp] at hstep
      split at hstep
      · obtain rfl := Option.some.inj hstep
        rfl
      · simp at hstep
  | _ => simp [Label.offLog] at hl

/-- Of the steps of a running node only a flush's `Discard` removes segments. -/
theorem stepUp_removes {s t : Node} {l : Label} (hstep : stepUp s l = some t)
    {f : Segment Entry} (hf : f ∈ s.wal.log.dir.segs) (hgone : f.seq ∉ t.wal.log.dir.seqs) :
    ∃ seq, s.flush = .appended seq ∧ f.seq ≤ seq := by
  have hmem : f.seq ∈ s.wal.log.dir.seqs := List.mem_map_of_mem hf
  by_cases hl : l.offLog = true
  · rw [wal_of_offLog hl hstep] at hgone
    exact absurd hmem hgone
  · cases l with
    | write es =>
        obtain rfl := Option.some.inj hstep
        have hdir : (enqueueStep s.wal es).log.dir = s.wal.log.dir := by
          simp only [enqueueStep, SegLog.enqueue]
          cases s.wal.log.cur <;> rfl
        change f.seq ∉ (enqueueStep s.wal es).log.dir.seqs at hgone
        rw [hdir] at hgone
        exact absurd hmem hgone
    | walIo sec =>
        simp only [stepUp] at hstep
        split_ifs at hstep with hsec
        obtain ⟨wal, hwal, rfl⟩ := Option.map_eq_some_iff.mp hstep
        change f.seq ∉ wal.log.dir.seqs at hgone
        rw [(Stored.extends_holder hsec hwal).seqs] at hgone
        exact absurd hmem hgone
    | flushBegin io =>
        simp only [stepUp] at hstep
        split at hstep
        · rename_i hidle hio
          obtain rfl := Option.some.inj hstep
          exfalso
          apply hgone
          unfold beginFlush
          split_ifs
          · exact hmem
          · exact Stored.seqs_seal hio io hmem
        · simp at hstep
    | discard removes dirSynced =>
        simp only [stepUp] at hstep
        split at hstep
        · rename_i seq hpc hio
          refine ⟨seq, hpc, ?_⟩
          by_contra hgt
          obtain rfl := Option.some.inj hstep
          exact hgone (Dir.mem_seqs.mpr ⟨f, SegLog.mem_discard_of_lt hf (by omega), rfl⟩)
        · simp at hstep
    | crash keep recovers => simp [stepUp] at hstep
    | _ => exact absurd rfl hl

theorem removed_by_discard {s t : Node} {l : Label} (hstep : nodeStep s l = some t)
    {f : Segment Entry} (hf : f ∈ s.wal.log.dir.segs) (hgone : f.seq ∉ t.wal.log.dir.seqs) :
    ∃ seq, s.flush = .appended seq ∧ f.seq ≤ seq := by
  rcases nodeStep_cases hstep with ⟨keep, recovers, rfl⟩ | ⟨-, hup⟩
  · have hcrash : f.seq ∈ (s.wal.log.dir.crash keep).seqs := by
      rw [Dir.seqs_crash]
      exact List.mem_map_of_mem hf
    exact absurd (seqs_openSegLog s.wal.log.pfx hcrash) hgone
  · exact stepUp_removes hup hf hgone

/-- No acknowledged write is lost by flushing: in every state reached, every
acknowledged entry is synced in a segment that was not discarded or is in a part
whose `AppendLog` succeeded, and the next step, whatever it is, removes only
segments all of whose entries are in such parts. -/
theorem acknowledged_writes_survive (pfx : Bytes) (d : Dir Entry) (ls : List Label) (s : Node)
    (hrun : exec nodeStep (boot (openSegLog pfx d)) ls = some s) :
    (∀ e ∈ s.acked, (∃ f ∈ s.wal.log.dir.segs, e ∈ f.durable) ∨ ∃ p ∈ s.parts, e ∈ p) ∧
      ∀ l t, nodeStep s l = some t → ∀ f ∈ s.wal.log.dir.segs,
        f.seq ∉ t.wal.log.dir.seqs → ∀ e ∈ f.data, ∃ p ∈ s.parts, e ∈ p := by
  have hinv : Inv s := invariant inv_nodeStep (inv_boot pfx d) hrun
  refine ⟨hinv.acked, ?_⟩
  intro l t hstep f hf hgone e he
  obtain ⟨seq, hpc, hle⟩ := removed_by_discard hstep hf hgone
  exact hinv.discardable_published hpc f hf hle e he

/-- Two writes share a batch; the flush's `AppendLog` fails and the snapshot is
put back; a third write follows, the second flush publishes all three and its
`Discard` removes both sealed segments; then the node crashes. -/
def retriedFlush : List Label :=
  [.write [⟨2, [98]⟩], .write [⟨1, [97]⟩], .walIo (.lock (.commitWait 0)), .walIo .check,
    .walIo .take, .walIo (.write none), .walIo (.fsync true), .walIo .resolve,
    .walIo .unlock, .writeReturn 1, .writeReturn 0, .flushBegin .good, .writePart true,
    .writeMeta true, .appendLog false, .write [⟨3, [99]⟩], .restore, .flushBegin .good,
    .writePart true, .writeMeta true, .appendLog true, .discard (fun _ => true) true,
    .crash (fun _ => 0) true]

theorem acknowledged_writes_survive_retriedFlush :
    ∃ s, exec nodeStep (boot (openSegLog (ascii "wal") (Dir.fresh none))) retriedFlush =
        some s ∧
      s.acked = [⟨1, [97]⟩, ⟨2, [98]⟩] ∧ s.wal.log.dir.seqs = [3] ∧
      (∀ e ∈ s.acked, (∃ f ∈ s.wal.log.dir.segs, e ∈ f.durable) ∨ ∃ p ∈ s.parts, e ∈ p) :=
  ⟨_, rfl, rfl, rfl,
    (acknowledged_writes_survive (ascii "wal") (Dir.fresh none) retriedFlush _ rfl).1⟩

end Shrimpd.Lsm.Flush
