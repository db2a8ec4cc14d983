import Shrimpd.Lib.Exec
import Shrimpd.Wal.SegLog

/-!
# Group commit

`enqueue`, `commitWait`, `seal`, `forEachLine` and `close` as sequences of the
sections that `ioMu` and `mu` make atomic.  `io` is the program counter of the
goroutine that holds `ioMu`; while it writes and syncs, `mu` is free and other
goroutines may enqueue.  `seal` holds both locks throughout and is one section.

Alongside the log the state keeps what has happened so far: the strings handed
to `enqueue` with their handles, the segment writes, the fsyncs, and the values
`commitWait` returned.
-/

namespace Shrimpd.Wal.GroupCommit

open Shrimpd.Lib Shrimpd.Lib.Exec

variable {α : Type}

/-- The calls that run `flushPending` under `ioMu`. -/
inductive IoOp where
  | commitWait (c : Nat)
  | forEachLine
  | close
  deriving DecidableEq, Repr

/-- Where the holder of `ioMu` is. -/
inductive IoPC (α : Type) where
  | entered (op : IoOp)
  | flushing (op : IoOp)
  | taken (op : IoOp) (batch : Nat) (buf : List α)
  | written (op : IoOp) (batch : Nat)
  | settling (op : IoOp) (batch : Nat) (err : Option IOErr)
  | leaving (op : IoOp) (err : Option IOErr)
  deriving DecidableEq, Repr

/-- One `Write` call on a segment file. -/
structure SegWrite (α : Type) where
  batch : Nat
  buf : List α
  ok : Bool
  deriving DecidableEq, Repr

structure State (α : Type) where
  log : SegLog α
  io : Option (IoPC α)
  enqueued : List (Nat × List α)
  writes : List (SegWrite α)
  syncs : List (Nat × Bool)
  returned : List (Nat × Option IOErr)

/-- One atomic section, with the answers of the operating system. -/
inductive Sec (α : Type) where
  | enqueue (buf : List α)
  | lock (op : IoOp)
  | check
  | take
  | write (torn : Option Nat)
  | fsync (synced : Bool)
  | resolve
  | unlock
  | sealSegment (io : SealIO)
  | discard (removes : Nat → Bool) (dirSynced : Bool) (upto : Nat)

def start (log : SegLog α) : State α := ⟨log, none, [], [], [], []⟩

/-- What a call returns once `flushPending` has returned `err`. -/
def result (op : IoOp) (err : Option IOErr) (log : SegLog α) : Option IOErr :=
  match err, op with
  | some e, _ => some e
  | none, .commitWait c => log.errOf c
  | none, _ => none

/-- `write` and `fsync` of the holder, or of `seal`, on batch `b`. -/
def recordWrite (s : State α) (b : Nat) (buf : List α) (torn : Option Nat) : State α :=
  { s with
    log := (s.log.write torn buf).1
    writes := s.writes ++ [⟨b, buf, (s.log.write torn buf).2.isNone⟩] }

def recordSync (s : State α) (b : Nat) (synced : Bool) : State α :=
  { s with
    log := (s.log.fsync synced).1
    syncs := s.syncs ++ [(b, (s.log.fsync synced).2.isNone)] }

def takeBatch (s : State α) : State α := { s with log := s.log.takePending }

/-- The pending batch `b` drained by `seal`: write, sync after a successful
write, resolve. -/
def drain (s : State α) (b : Nat) (io : BatchIO) : State α × Option IOErr :=
  let w := recordWrite (takeBatch s) b s.log.pending io.torn
  match ((takeBatch s).log.write io.torn s.log.pending).2 with
  | some err => ({ w with log := w.log.resolve b (some err) }, some err)
  | none =>
      let y := recordSync w b io.synced
      let err := (w.log.fsync io.synced).2
      ({ y with log := y.log.resolve b err }, err)

def rotate (s : State α) (io : SealIO) : State α := { s with log := (s.log.rotate io).1 }

def sealStep (s : State α) (io : SealIO) : State α :=
  match s.log.cur with
  | none => rotate s io
  | some b =>
      match drain s b io.batch with
      | (s, some _) => s
      | (s, none) => rotate s io

def step (s : State α) : Sec α → Option (State α)
  | .enqueue buf =>
      some { s with
        log := (s.log.enqueue buf).1
        enqueued := s.enqueued ++ [((s.log.enqueue buf).2, buf)] }
  | .lock op =>
      match s.io, op with
      | none, .commitWait c =>
          if c < s.log.commits.length then
            some { s with io := some (.entered (.commitWait c)) } else none
      | none, op => some { s with io := some (.entered op) }
      | some _, _ => none
  | .check =>
      match s.io with
      | some (.entered (.commitWait c)) =>
          if s.log.isDone c then
            some { s with io := some (.leaving (.commitWait c) (s.log.errOf c)) }
          else some { s with io := some (.flushing (.commitWait c)) }
      | some (.entered op) => some { s with io := some (.flushing op) }
      | _ => none
  | .take =>
      match s.io, s.log.cur with
      | some (.flushing op), none =>
          some { s with io := some (.leaving op (result op none s.log)) }
      | some (.flushing op), some b =>
          some { takeBatch s with io := some (.taken op b s.log.pending) }
      | _, _ => none
  | .write torn =>
      match s.io with
      | some (.taken op b buf) =>
          some { recordWrite s b buf torn with
            io := some (match (s.log.write torn buf).2 with
              | none => .written op b
              | some err => .settling op b (some err)) }
      | _ => none
  | .fsync synced =>
      match s.io with
      | some (.written op b) =>
          some { recordSync s b synced with
            io := some (.settling op b (s.log.fsync synced).2) }
      | _ => none
  | .resolve =>
      match s.io with
      | some (.settling op b err) =>
          some { s with
            log := s.log.resolve b err
            io := some (.leaving op (result op err (s.log.resolve b err))) }
      | _ => none
  | .unlock =>
      match s.io with
      | some (.leaving (.commitWait c) err) =>
          some { s with io := none, returned := s.returned ++ [(c, err)] }
      | some (.leaving .close _) =>
          some { s with io := none, log := { s.log with active := false } }
      | some (.leaving .forEachLine _) => some { s with io := none }
      | _ => none
  | .sealSegment io =>
      match s.io with
      | none => some (sealStep s io)
      | some _ => none
  | .discard removes dirSynced upto =>
      match s.io with
      | none => some { s with log := (s.log.discard removes dirSynced upto).1 }
      | some _ => none

/-- The sections of a call that runs `flushPending`. -/
def Sec.ofHolder : Sec α → Bool
  | .enqueue _ => false
  | .sealSegment _ => false
  | .discard _ _ _ => false
  | _ => true

/-- The drain inside `seal` is a run of the holder's sections. -/
theorem drain_exec {s : State α} {b : Nat} (hio : s.io = none) (hcur : s.log.cur = some b)
    (io : BatchIO) :
    ∃ secs, (∀ sec ∈ secs, sec.ofHolder = true) ∧ exec step s secs = some (drain s b io).1 := by
  have hlock : step s (.lock .forEachLine) = some { s with io := some (.entered .forEachLine) } := by
    simp only [step, hio]
  have htake : step { s with io := some (.flushing .forEachLine) } .take = some
      { takeBatch s with io := some (.taken .forEachLine b s.log.pending) } := by
    simp only [step, hcur]
    rfl
  -- the first three sections are the same whether the write fails or not
  have hrun : ∀ {secs : List (Sec α)} {t : State α},
      exec step { takeBatch s with io := some (.taken .forEachLine b s.log.pending) } secs = some t →
        exec step s (.lock .forEachLine :: .check :: .take :: secs) = some t :=
    fun hrest => exec_cons.mpr ⟨_, hlock, exec_cons.mpr ⟨_, rfl, exec_cons.mpr ⟨_, htake, hrest⟩⟩⟩
  rw [drain]
  cases herr : ((takeBatch s).log.write io.torn s.log.pending).2 with
  | some err =>
      refine ⟨[.lock .forEachLine, .check, .take, .write io.torn, .resolve, .unlock],
        by simp [Sec.ofHolder], hrun ?_⟩
      have hwrite : step { takeBatch s with io := some (.taken .forEachLine b s.log.pending) }
          (.write io.torn) = some { recordWrite (takeBatch s) b s.log.pending io.torn with
            io := some (.settling .forEachLine b (some err)) } := by
        simp only [step, herr]
        rfl
      refine exec_cons.mpr ⟨_, hwrite, exec_cons.mpr ⟨_, rfl, exec_cons.mpr ⟨_, rfl, ?_⟩⟩⟩
      simp only [exec_nil, recordWrite, takeBatch, hio]
  | none =>
      refine ⟨[.lock .forEachLine, .check, .take, .write io.torn, .fsync io.synced, .resolve,
        .unlock], by simp [Sec.ofHolder], hrun ?_⟩
      have hwrite : step { takeBatch s with io := some (.taken .forEachLine b s.log.pending) }
          (.write io.torn) = some { recordWrite (takeBatch s) b s.log.pending io.torn with
            io := some (.written .forEachLine b) } := by
        simp only [step, herr]
        rfl
      refine exec_cons.mpr ⟨_, hwrite, exec_cons.mpr ⟨_, rfl, exec_cons.mpr ⟨_, rfl,
        exec_cons.mpr ⟨_, rfl, ?_⟩⟩⟩⟩
      simp only [exec_nil, recordSync, recordWrite, takeBatch, hio]

theorem drain_io (s : State α) (b : Nat) (io : BatchIO) : (drain s b io).1.io = s.io := by
  unfold drain
  split <;> rfl

/-- `seal` either stops after a failed drain or goes on to rotate. -/
theorem sealStep_cases (s : State α) (io : SealIO) :
    (s.log.cur = none ∧ sealStep s io = rotate s io) ∨
      ∃ b, s.log.cur = some b ∧
        (((drain s b io.batch).2 ≠ none ∧ sealStep s io = (drain s b io.batch).1) ∨
          ((drain s b io.batch).2 = none ∧ sealStep s io = rotate (drain s b io.batch).1 io)) := by
  unfold sealStep
  cases hcur : s.log.cur with
  | none => exact Or.inl ⟨rfl, rfl⟩
  | some b =>
      right
      refine ⟨b, rfl, ?_⟩
      rcases hd : drain s b io.batch with ⟨t, _ | err⟩ <;> simp [hd]

/-- A property that the holder's sections and the rotation keep, `seal` keeps. -/
theorem seal_keeps {I : State α → Prop} {s : State α} (hio : s.io = none) (io : SealIO)
    (hholder : ∀ s sec t, I s → sec.ofHolder = true → step s sec = some t → I t)
    (hrotate : ∀ s, s.io = none → I s → I (rotate s io)) (h : I s) : I (sealStep s io) := by
  have hdrain : ∀ b, s.log.cur = some b → I (drain s b io.batch).1 := by
    intro b hcur
    obtain ⟨secs, hsecs, hrun⟩ := drain_exec hio hcur io.batch
    exact invariant_along hholder h (along_of_forall hsecs s) hrun
  rcases sealStep_cases s io with ⟨-, heq⟩ | ⟨b, hcur, ⟨-, heq⟩ | ⟨-, heq⟩⟩
  · rw [heq]
    exact hrotate s hio h
  · rw [heq]
    exact hdrain b hcur
  · rw [heq]
    exact hrotate _ ((drain_io s b _).trans hio) (hdrain b hcur)

/-- The section is the log's own `seal`. -/
theorem log_sealStep (s : State α) (io : SealIO) :
    (sealStep s io).log = (s.log.sealSegment io).1 := by
  unfold sealStep SegLog.sealSegment SegLog.flushPending drain SegLog.writeSync
  cases hcur : s.log.cur with
  | none => rfl
  | some b =>
      simp only [takeBatch, recordWrite, recordSync]
      rcases hw : s.log.takePending.write io.batch.torn s.log.pending with ⟨log, _ | err⟩
      · rcases hf : log.fsync io.batch.synced with ⟨log', _ | err⟩ <;>
          simp [hf, rotate]
      · rfl

end Shrimpd.Wal.GroupCommit
