import Shrimpd.Wal.Directory

/-!
# The segmented log

`segLog` of the write-ahead log: an active segment, a pending batch and the
commit handles handed out for it.  Every operation takes what the operating
system answers as an argument, so that each error exit of the source is one
value of that argument.  Sequence numbers are natural numbers: overflowing the
source's `uint64` takes `2 ^ 64` seals.
-/

namespace Shrimpd.Wal

open Shrimpd.Lib

inductive IOErr where
  | write | fsync | close | openFile | syncDir | closed | remove | tooLong
  deriving DecidableEq, Repr

/-- Result of one group-commit batch. -/
structure Commit where
  done : Bool
  err : Option IOErr
  deriving DecidableEq, Repr

structure SegLog (α : Type) where
  pfx : Bytes
  dir : Dir α
  /-- `active` is an open file; its segment is always number `activeSeq`. -/
  active : Bool
  activeSeq : Nat
  pending : List α
  /-- The handle the pending units belong to, as an index into `commits`. -/
  cur : Option Nat
  commits : List Commit

/-- Outcome of one `Write` followed by one `Sync` of the active segment.
`torn = some k` is a failed write that left `k` units of the buffer behind. -/
structure BatchIO where
  torn : Option Nat
  synced : Bool

/-- Outcomes of the system calls of `seal`, in program order. -/
structure SealIO where
  batch : BatchIO
  closed : Bool
  opened : Bool
  reopened : Bool
  dirSynced : Bool

def BatchIO.good : BatchIO := ⟨none, true⟩

def SealIO.good : SealIO := ⟨.good, true, true, true, true⟩

variable {α : Type}

namespace SegLog

def updateActive (s : SegLog α) (f : Segment α → Segment α)
    (hf : ∀ g, (f g).seq = g.seq) : SegLog α :=
  { s with dir := s.dir.update s.activeSeq f hf }

/-- `f.Write(buf)` on the active file. -/
def write (torn : Option Nat) (buf : List α) (s : SegLog α) :
    SegLog α × Option IOErr :=
  if s.active then
    match torn with
    | none => (s.updateActive (Segment.write buf) (Segment.seq_write buf), none)
    | some k =>
        (s.updateActive (Segment.write (buf.take k)) (Segment.seq_write _), some .write)
  else (s, some .closed)

/-- `f.Sync()` on the active file. -/
def fsync (synced : Bool) (s : SegLog α) : SegLog α × Option IOErr :=
  if s.active then
    if synced then (s.updateActive Segment.sync Segment.seq_sync, none)
    else (s, some .fsync)
  else (s, some .closed)

/-- Write, then sync only if the write succeeded. -/
def writeSync (io : BatchIO) (buf : List α) (s : SegLog α) :
    SegLog α × Option IOErr :=
  match s.write io.torn buf with
  | (s, some err) => (s, some err)
  | (s, none) => s.fsync io.synced

/-- The critical section of `flushPending` under `mu`. -/
def takePending (s : SegLog α) : SegLog α := { s with pending := [], cur := none }

/-- `batch.err = err; batch.done = true`. -/
def resolve (batch : Nat) (err : Option IOErr) (s : SegLog α) : SegLog α :=
  { s with commits := s.commits.set batch ⟨true, err⟩ }

def enqueue (buf : List α) (s : SegLog α) : SegLog α × Nat :=
  match s.cur with
  | some c => ({ s with pending := s.pending ++ buf }, c)
  | none =>
      ({ s with
          cur := some s.commits.length
          commits := s.commits ++ [⟨false, none⟩]
          pending := s.pending ++ buf }, s.commits.length)

def flushPending (io : BatchIO) (s : SegLog α) : SegLog α × Option IOErr :=
  match s.cur with
  | none => (s, none)
  | some batch =>
      match s.takePending.writeSync io s.pending with
      | (s, err) => (s.resolve batch err, err)

/-- `c.err`; the zero value for a handle that was never handed out. -/
def errOf (s : SegLog α) (c : Nat) : Option IOErr := (s.commits[c]?).bind Commit.err

def isDone (s : SegLog α) (c : Nat) : Bool := ((s.commits[c]?).map Commit.done).getD false

def commitWait (io : BatchIO) (c : Nat) (s : SegLog α) : SegLog α × Option IOErr :=
  if s.isDone c then (s, s.errOf c)
  else
    match s.flushPending io with
    | (s, some err) => (s, some err)
    | (s, none) => (s, s.errOf c)

/-- `WAL.Append`: enqueue and wait. -/
def append (io : BatchIO) (buf : List α) (s : SegLog α) : SegLog α × Option IOErr :=
  match s.enqueue buf with
  | (s, c) => s.commitWait io c

/-- The part of `seal` after the pending batch was drained. -/
def rotate (io : SealIO) (s : SegLog α) : SegLog α × Except IOErr Nat :=
  if s.active then
    if io.closed then
      if io.opened then
        let next := s.dir.create (s.activeSeq + 1)
        if io.dirSynced then
          ({ s with dir := next, active := true, activeSeq := s.activeSeq + 1 },
            .ok s.activeSeq)
        else ({ s with dir := next, active := false }, .error .syncDir)
      else if io.reopened then
        ({ s with dir := s.dir.create s.activeSeq, active := true }, .error .openFile)
      else ({ s with active := false }, .error .openFile)
    else ({ s with active := false }, .error .close)
  else (s, .error .closed)

/-- `seal` repeats the body of `flushPending` under both locks, then rotates. -/
def sealSegment (io : SealIO) (s : SegLog α) : SegLog α × Except IOErr Nat :=
  match s.flushPending io.batch with
  | (s, some err) => (s, .error err)
  | (s, none) => s.rotate io

/-- Numbers `discard` tries to remove, in order. -/
def discardable (upto : Nat) (s : SegLog α) : List Nat :=
  (listSegments s.pfx (s.dir.names s.pfx)).filter fun q => q ≤ upto && q != s.activeSeq

/-- The loop returns at the first `os.Remove` that fails; `removes` says which
removals succeed. -/
def discard (removes : Nat → Bool) (dirSynced : Bool) (upto : Nat) (s : SegLog α) :
    SegLog α × Option IOErr :=
  let gone := (s.discardable upto).takeWhile removes
  let s' := { s with dir := s.dir.remove gone.contains }
  if gone.length < (s.discardable upto).length then (s', some .remove)
  else if gone.isEmpty || dirSynced then (s', none)
  else (s', some .syncDir)

def close (io : BatchIO) (closed : Bool) (s : SegLog α) : SegLog α × Option IOErr :=
  match s.flushPending io with
  | (s, err) =>
      ({ s with active := false },
        err.or (if !s.active then some .closed else if closed then none else some .close))

end SegLog

/-- Reuse the highest segment as the active one, or start at segment 1. -/
def openSegLog (pfx : Bytes) (d : Dir α) : SegLog α :=
  let d := d.migrate
  let seq := (listSegments pfx (d.names pfx)).getLast?.getD 1
  { pfx := pfx
    dir := d.create seq
    active := true
    activeSeq := seq
    pending := []
    cur := none
    commits := [] }

/-! ## Frame: which fields an operation leaves alone -/

namespace SegLog

section Frame

variable (s : SegLog α) (torn : Option Nat) (buf : List α) (synced : Bool) (io : SealIO)

/-- A write changes nothing but the directory. -/
theorem write_frame :
    (s.write torn buf).1 = { s with dir := (s.write torn buf).1.dir } := by
  unfold write
  split
  · cases torn <;> rfl
  · rfl

theorem fsync_frame :
    (s.fsync synced).1 = { s with dir := (s.fsync synced).1.dir } := by
  unfold fsync
  split
  · split <;> rfl
  · rfl

/-- What a write can do to the files: append the buffer, append a part of it
and fail, or find the file closed. -/
theorem write_dir :
    (∃ b, (b = buf ∧ (s.write torn buf).2 = none ∨
        (∃ k, b = buf.take k) ∧ (s.write torn buf).2 = some .write) ∧
      (s.write torn buf).1.dir =
        s.dir.update s.activeSeq (Segment.write b) (Segment.seq_write b)) ∨
    ((s.write torn buf).2 = some .closed ∧ (s.write torn buf).1.dir = s.dir) := by
  unfold write
  by_cases hactive : s.active
  · rw [if_pos hactive]
    left
    cases torn with
    | none => exact ⟨buf, Or.inl ⟨rfl, rfl⟩, rfl⟩
    | some k => exact ⟨buf.take k, Or.inr ⟨⟨k, rfl⟩, rfl⟩, rfl⟩
  · rw [if_neg hactive]
    exact Or.inr ⟨rfl, rfl⟩

theorem fsync_dir :
    ((s.fsync synced).2 = none ∧
      (s.fsync synced).1.dir = s.dir.update s.activeSeq Segment.sync Segment.seq_sync) ∨
    ((s.fsync synced).2 ≠ none ∧ (s.fsync synced).1.dir = s.dir) := by
  unfold fsync
  split_ifs
  · exact Or.inl ⟨rfl, rfl⟩
  · exact Or.inr ⟨by simp, rfl⟩
  · exact Or.inr ⟨by simp, rfl⟩

@[simp] theorem write_commits : (s.write torn buf).1.commits = s.commits := by
  rw [write_frame]

@[simp] theorem write_cur : (s.write torn buf).1.cur = s.cur := by
  rw [write_frame]

@[simp] theorem write_pending : (s.write torn buf).1.pending = s.pending := by
  rw [write_frame]

@[simp] theorem write_activeSeq : (s.write torn buf).1.activeSeq = s.activeSeq := by
  rw [write_frame]

@[simp] theorem fsync_commits : (s.fsync synced).1.commits = s.commits := by
  rw [fsync_frame]

@[simp] theorem fsync_cur : (s.fsync synced).1.cur = s.cur := by
  rw [fsync_frame]

@[simp] theorem fsync_pending : (s.fsync synced).1.pending = s.pending := by
  rw [fsync_frame]

@[simp] theorem fsync_activeSeq : (s.fsync synced).1.activeSeq = s.activeSeq := by
  rw [fsync_frame]

/-- Rotation leaves the batch state alone. -/
theorem rotate_frame :
    (s.rotate io).1 = { s with
      dir := (s.rotate io).1.dir
      active := (s.rotate io).1.active
      activeSeq := (s.rotate io).1.activeSeq } := by
  unfold rotate
  split_ifs <;> rfl

/-- Discarding changes nothing but the directory. -/
theorem discard_frame (removes : Nat → Bool) (upto : Nat) :
    (s.discard removes synced upto).1 =
      { s with dir := s.dir.remove ((s.discardable upto).takeWhile removes).contains } := by
  unfold discard
  dsimp only
  split_ifs <;> rfl

@[simp] theorem discard_activeSeq (removes : Nat → Bool) (upto : Nat) :
    (s.discard removes synced upto).1.activeSeq = s.activeSeq := by
  rw [discard_frame]

@[simp] theorem rotate_commits : (s.rotate io).1.commits = s.commits := by
  rw [rotate_frame]

@[simp] theorem rotate_cur : (s.rotate io).1.cur = s.cur := by
  rw [rotate_frame]

@[simp] theorem rotate_pending : (s.rotate io).1.pending = s.pending := by
  rw [rotate_frame]

end Frame

/-- A segment that `discard` removes is covered and not active. -/
theorem mem_discard (removes : Nat → Bool) (dirSynced : Bool) (upto : Nat) {s : SegLog α}
    {f : Segment α} (hf : f ∈ s.dir.segs) :
    f ∈ (s.discard removes dirSynced upto).1.dir.segs ∨
      f.seq ≤ upto ∧ f.seq ≠ s.activeSeq := by
  rw [discard_frame]
  by_cases hmem : ((s.discardable upto).takeWhile removes).contains f.seq = true
  · right
    rw [List.contains_iff_mem] at hmem
    have hdiscardable := (List.takeWhile_sublist _).mem hmem
    rw [discardable, List.mem_filter] at hdiscardable
    simpa using hdiscardable.2
  · exact Or.inl (Dir.mem_remove.mpr ⟨hf, by simpa using hmem⟩)

theorem mem_discard_of_lt {s : SegLog α} {removes : Nat → Bool} {dirSynced : Bool}
    {upto : Nat} {f : Segment α} (hf : f ∈ s.dir.segs) (hlt : upto < f.seq) :
    f ∈ (s.discard removes dirSynced upto).1.dir.segs := by
  rcases mem_discard removes dirSynced upto hf with hmem | ⟨hle, -⟩
  · exact hmem
  · omega

theorem mem_discard_of_active {s : SegLog α} {removes : Nat → Bool} {dirSynced : Bool}
    {upto : Nat} {f : Segment α} (hf : f ∈ s.dir.segs) (hactive : f.seq = s.activeSeq) :
    f ∈ (s.discard removes dirSynced upto).1.dir.segs := by
  rcases mem_discard removes dirSynced upto hf with hmem | ⟨-, hne⟩
  · exact hmem
  · exact absurd hactive hne

theorem of_mem_discard {s : SegLog α} {removes : Nat → Bool} {dirSynced : Bool} {upto : Nat}
    {f : Segment α} (hf : f ∈ (s.discard removes dirSynced upto).1.dir.segs) :
    f ∈ s.dir.segs := by
  rw [discard_frame] at hf
  exact (Dir.mem_remove.mp hf).1

end SegLog

/-- Opening a log keeps the segments it finds. -/
theorem mem_openSegLog {pfx : Bytes} {d : Dir α} {f : Segment α} (hf : f ∈ d.segs) :
    f ∈ (openSegLog pfx d).dir.segs := by
  apply Dir.mem_insertSeg_of_mem
  unfold Dir.migrate
  split
  · exact hf
  · split_ifs
    · exact hf
    · exact Dir.mem_insertSeg_of_mem hf

theorem seqs_openSegLog (pfx : Bytes) {d : Dir α} {q : Nat} (hq : q ∈ d.seqs) :
    q ∈ (openSegLog pfx d).dir.seqs := by
  obtain ⟨f, hf, rfl⟩ := Dir.mem_seqs.mp hq
  exact Dir.mem_seqs.mpr ⟨f, mem_openSegLog hf, rfl⟩

end Shrimpd.Wal
