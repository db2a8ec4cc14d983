import Shrimpd.Wal.Durability
import Shrimpd.Wal.Stored
import Shrimpd.Wal.ReadBack

/-!
# A log after a failed seal

`seal` drains the pending batch, closes the active segment, opens the next one
and syncs the directory, and each of these calls may fail.  A failed write or
fsync leaves the handle open, and a failed open is repaired by opening the sealed
segment again.  A failed close or a failed sync of the directory leaves a closed
handle behind: from then on every append and every seal fails.  A failed write
may also leave a fragment, to which the next record is glued.
-/

namespace Shrimpd.Wal.FailedSeal

open Shrimpd.Lib Shrimpd.Lib.Exec Shrimpd.Types

/-! ## Writing to the active segment -/

/-- `t` is `s` with `w` written to its active segment. -/
structure Wrote (s t : SegLog UInt8) (w : Bytes) : Prop where
  active : t.active = s.active
  activeSeq : t.activeSeq = s.activeSeq
  segs : ∃ g : Segment UInt8 → Segment UInt8,
    (∀ f, (g f).seq = f.seq ∧ (g f).data = f.data ++ w ∧ f.durable <+: (g f).durable) ∧
      t.dir.segs = s.dir.segs.map fun f => if f.seq = s.activeSeq then g f else f

namespace Wrote

variable {s t u : SegLog UInt8} {w v : Bytes}

theorem seqs (h : Wrote s t w) : t.dir.seqs = s.dir.seqs := by
  obtain ⟨g, hg, hsegs⟩ := h.segs
  rw [Dir.seqs, hsegs, List.map_map]
  apply List.map_congr_left
  intro f _
  rw [Function.comp_apply]
  split_ifs
  · exact (hg f).1
  · rfl

theorem trans (h : Wrote s t w) (h' : Wrote t u v) : Wrote s u (w ++ v) := by
  obtain ⟨g, hg, hsegs⟩ := h.segs
  obtain ⟨g', hg', hsegs'⟩ := h'.segs
  refine ⟨h'.active.trans h.active, h'.activeSeq.trans h.activeSeq, fun f => g' (g f),
    fun f => ⟨?_, ?_, ?_⟩, ?_⟩
  · exact (hg' (g f)).1.trans (hg f).1
  · rw [(hg' (g f)).2.1, (hg f).2.1, List.append_assoc]
  · exact (hg f).2.2.trans (hg' (g f)).2.2
  · rw [hsegs', hsegs, List.map_map, h.activeSeq]
    apply List.map_congr_left
    intro f _
    rw [Function.comp_apply]
    by_cases hf : f.seq = s.activeSeq
    · rw [if_pos hf, if_pos hf, if_pos ((hg f).1.trans hf)]
    · rw [if_neg hf, if_neg hf, if_neg hf]

/-- Nothing was written. -/
theorem of_segs (hactive : t.active = s.active) (hseq : t.activeSeq = s.activeSeq)
    (hsegs : t.dir.segs = s.dir.segs) : Wrote s t [] := by
  refine ⟨hactive, hseq, id, fun f => ⟨rfl, (List.append_nil _).symm, List.prefix_rfl⟩, ?_⟩
  rw [hsegs]
  simp

theorem of_update {g : Segment UInt8 → Segment UInt8} (hseq : ∀ f, (g f).seq = f.seq)
    (hdata : ∀ f, (g f).data = f.data ++ w) (hdurable : ∀ f, f.durable <+: (g f).durable)
    (ht : t.dir = s.dir.update s.activeSeq g hseq) (hactive : t.active = s.active)
    (hactiveSeq : t.activeSeq = s.activeSeq) : Wrote s t w := by
  refine ⟨hactive, hactiveSeq, g, fun f => ⟨hseq f, hdata f, hdurable f⟩, ?_⟩
  rw [ht]
  rfl

/-- What was durable still is. -/
theorem durable (h : Wrote s t w) {f : Segment UInt8} (hf : f ∈ s.dir.segs) :
    ∃ g ∈ t.dir.segs, g.seq = f.seq ∧ f.durable <+: g.durable := by
  obtain ⟨g, hg, hsegs⟩ := h.segs
  refine ⟨if f.seq = s.activeSeq then g f else f, ?_, ?_, ?_⟩
  · rw [hsegs]
    exact List.mem_map_of_mem hf
  · split_ifs
    · exact (hg f).1
    · rfl
  · split_ifs
    · exact (hg f).2.2
    · exact List.prefix_rfl

end Wrote

/-- What a write of the batch leaves in the file. -/
def written (io : BatchIO) (buf : Bytes) : Bytes :=
  match io.torn with
  | none => buf
  | some k => buf.take k

def batchErr (io : BatchIO) : Option IOErr :=
  if io.torn.isSome then some .write else if io.synced then none else some .fsync

section Log

variable {s : SegLog UInt8}

theorem writeSync_inactive (h : s.active = false) (io : BatchIO) (buf : Bytes) :
    s.writeSync io buf = (s, some .closed) := by
  simp [SegLog.writeSync, SegLog.write, h]

theorem writeSync_active (h : s.active = true) (io : BatchIO) (buf : Bytes) :
    Wrote s (s.writeSync io buf).1 (written io buf) ∧ (s.writeSync io buf).2 = batchErr io := by
  obtain ⟨torn, synced⟩ := io
  cases torn with
  | some k =>
      have hws : s.writeSync ⟨some k, synced⟩ buf =
          (s.updateActive (Segment.write (buf.take k)) (Segment.seq_write _), some .write) := by
        simp [SegLog.writeSync, SegLog.write, h]
      rw [hws]
      exact ⟨.of_update (Segment.seq_write _) (Segment.data_write _)
        (fun f => List.prefix_rfl) rfl rfl rfl, rfl⟩
  | none =>
      have hwrote : Wrote s (s.updateActive (Segment.write buf) (Segment.seq_write _)) buf :=
        .of_update (Segment.seq_write _) (Segment.data_write _) (fun f => List.prefix_rfl)
          rfl rfl rfl
      cases synced with
      | false =>
          have hws : s.writeSync ⟨none, false⟩ buf =
              (s.updateActive (Segment.write buf) (Segment.seq_write _), some .fsync) := by
            simp [SegLog.writeSync, SegLog.write, SegLog.fsync, SegLog.updateActive, h]
          rw [hws]
          exact ⟨hwrote, rfl⟩
      | true =>
          have hws : s.writeSync ⟨none, true⟩ buf =
              ((s.updateActive (Segment.write buf) (Segment.seq_write _)).updateActive
                Segment.sync Segment.seq_sync, none) := by
            simp [SegLog.writeSync, SegLog.write, SegLog.fsync, SegLog.updateActive, h]
          have hsync : Wrote (s.updateActive (Segment.write buf) (Segment.seq_write _))
              ((s.updateActive (Segment.write buf) (Segment.seq_write _)).updateActive
                Segment.sync Segment.seq_sync) [] := by
            refine .of_update Segment.seq_sync (fun f => ?_) (fun f => ?_) rfl rfl rfl
            · rw [Segment.data_sync, List.append_nil]
            · rw [Segment.durable_sync]
              exact List.prefix_append _ _
          rw [hws]
          have hboth := hwrote.trans hsync
          rw [List.append_nil] at hboth
          exact ⟨hboth, rfl⟩

theorem writeSync_frame (s : SegLog UInt8) (io : BatchIO) (buf : Bytes) :
    (s.writeSync io buf).1 = { s with dir := (s.writeSync io buf).1.dir } := by
  have hwrite := s.write_frame io.torn buf
  unfold SegLog.writeSync
  rcases hresult : s.write io.torn buf with ⟨t, _ | err⟩
  · rw [hresult] at hwrite
    have hsync := t.fsync_frame io.synced
    simp only at hwrite ⊢
    rw [hsync, hwrite]
  · rw [hresult] at hwrite
    exact hwrite

/-- `flushPending` does nothing, or writes the pending batch and empties it. -/
theorem flushPending_cases (s : SegLog UInt8) (io : BatchIO) :
    s.cur = none ∧ s.flushPending io = (s, none) ∨
      (∃ b, s.cur = some b) ∧ (s.flushPending io).1.cur = none ∧
        (s.flushPending io).1.pending = [] ∧
          (s.active = false ∧ Wrote s (s.flushPending io).1 [] ∧
              (s.flushPending io).2 = some .closed ∨
            s.active = true ∧ Wrote s (s.flushPending io).1 (written io s.pending) ∧
              (s.flushPending io).2 = batchErr io) := by
  cases hcur : s.cur with
  | none =>
      left
      exact ⟨rfl, by rw [SegLog.flushPending, hcur]⟩
  | some b =>
      right
      have hflush : s.flushPending io =
          ((s.takePending.writeSync io s.pending).1.resolve b
            (s.takePending.writeSync io s.pending).2, (s.takePending.writeSync io s.pending).2) := by
        rw [SegLog.flushPending, hcur]
      have hframe := writeSync_frame s.takePending io s.pending
      rw [hflush]
      refine ⟨⟨b, rfl⟩, ?_, ?_, ?_⟩
      · rw [hframe]
        rfl
      · rw [hframe]
        rfl
      · cases hactive : s.active with
        | false =>
            have hclosed : s.takePending.active = false := hactive
            rw [writeSync_inactive hclosed]
            exact Or.inl ⟨rfl, .of_segs rfl rfl rfl, rfl⟩
        | true =>
            have hopen : s.takePending.active = true := hactive
            obtain ⟨hwrote, herr⟩ := writeSync_active hopen io s.pending
            exact Or.inr ⟨rfl, ⟨hwrote.active, hwrote.activeSeq, hwrote.segs⟩, herr⟩

/-- An append to an idle log with an open handle. -/
theorem append_good (hactive : s.active = true) (hcur : s.cur = none) (hpending : s.pending = [])
    (buf : Bytes) :
    (s.append .good buf).2 = none ∧ Wrote s (s.append .good buf).1 buf ∧
      (s.append .good buf).1.cur = none ∧ (s.append .good buf).1.pending = [] := by
  obtain ⟨commits, happend⟩ := SegLog.append_idle hcur hpending .good buf
  obtain ⟨hwrote, herr⟩ := writeSync_active hactive .good buf
  rw [happend]
  refine ⟨herr, ⟨?_, ?_, hwrote.segs⟩, hcur, hpending⟩
  · rfl
  · rfl

/-- A seal of an idle log with an open handle. -/
theorem seal_good (hactive : s.active = true) (hcur : s.cur = none) :
    s.sealSegment .good =
      ({ s with dir := s.dir.create (s.activeSeq + 1), active := true,
                activeSeq := s.activeSeq + 1 }, .ok s.activeSeq) := by
  have hflush : s.flushPending .good = (s, none) := by
    rw [SegLog.flushPending, hcur]
  have hbatch : SealIO.good.batch = .good := rfl
  rw [SegLog.sealSegment, hbatch, hflush]
  simp only [SegLog.rotate, hactive, if_true]
  rfl

end Log

/-! ## The state of a log -/

/-- The active segment exists and, while its handle is open, is the last one. -/
structure Sound (s : SegLog UInt8) : Prop where
  mem : s.activeSeq ∈ s.dir.seqs
  high : s.active = true → ∀ q ∈ s.dir.seqs, q ≤ s.activeSeq
  idle : s.cur = none → s.pending = []

section Runs

variable {ρ : Type}

inductive Label (ρ : Type) where
  | enqueue (rs : List ρ)
  | commitWait (handle : Nat) (io : BatchIO)
  | sealSegment (io : SealIO)
  | discard (removes : Nat → Bool) (dirSynced : Bool) (upto : Nat)
  | forEachLine (io : BatchIO) (opens : Nat → Bool)
  | close (io : BatchIO) (closed : Bool)
  /-- The process ends, and the log is opened again on what is left of the files. -/
  | reopen (keep : Nat → Nat)

def step (c : LineCodec ρ) (s : SegLog UInt8) : Label ρ → Option (SegLog UInt8)
  | .enqueue rs => some (s.enqueue (c.lines rs)).1
  | .commitWait handle io => some (s.commitWait io handle).1
  | .sealSegment io => some (s.sealSegment io).1
  | .discard removes dirSynced upto => some (s.discard removes dirSynced upto).1
  | .forEachLine io opens => some (s.forEachLine io opens).1
  | .close io closed => some (s.close io closed).1
  | .reopen keep => some (openSegLog s.pfx (s.dir.crash keep))

namespace Sound

variable {s : SegLog UInt8}

theorem openSegLog (pfx : Bytes) (d : Dir UInt8) : Sound (Wal.openSegLog pfx d) where
  mem := GroupCommit.activeSeq_openSegLog pfx d
  high := by
    intro _ q hq
    change q ∈ (d.migrate.create _).seqs at hq
    change q ≤ (listSegments pfx (d.migrate.names pfx)).getLast?.getD 1
    rcases Dir.mem_seqs_create.mp hq with rfl | hq
    · exact le_rfl
    · have hle : d.migrate.seqs.Pairwise (· ≤ ·) :=
        (show d.migrate.seqs.Pairwise (· < ·) from d.migrate.ordered).imp fun hlt => hlt.le
      rw [listSegments_names, List.getLast?_eq_some_getLast (List.ne_nil_of_mem hq),
        Option.getD_some]
      exact hle.rel_getLast hq
  idle := fun _ => rfl

theorem flushPending (h : Sound s) (io : BatchIO) : Sound (s.flushPending io).1 := by
  rcases flushPending_cases s io with ⟨-, hflush⟩ | ⟨-, hcur, hpending, hcases⟩
  · rw [hflush]
    exact h
  · obtain ⟨w, hwrote⟩ : ∃ w, Wrote s (s.flushPending io).1 w := by
      rcases hcases with ⟨-, hwrote, -⟩ | ⟨-, hwrote, -⟩
      · exact ⟨_, hwrote⟩
      · exact ⟨_, hwrote⟩
    refine ⟨?_, ?_, fun _ => hpending⟩
    · rw [hwrote.seqs, hwrote.activeSeq]
      exact h.mem
    · rw [hwrote.seqs, hwrote.activeSeq, hwrote.active]
      exact h.high

theorem rotate (h : Sound s) (io : SealIO) : Sound (s.rotate io).1 := by
  unfold SegLog.rotate
  split_ifs with hactive hclosed hopened hsynced hreopened
  · refine ⟨Dir.mem_seqs_create.mpr (Or.inl rfl), fun _ q hq => ?_, h.idle⟩
    rcases Dir.mem_seqs_create.mp hq with rfl | hq
    · exact le_rfl
    · exact (h.high hactive q hq).trans (Nat.le_succ _)
  · exact ⟨Dir.mem_seqs_create.mpr (Or.inr h.mem), nofun, h.idle⟩
  · refine ⟨Dir.mem_seqs_create.mpr (Or.inl rfl), fun _ q hq => ?_, h.idle⟩
    rcases Dir.mem_seqs_create.mp hq with rfl | hq
    · exact le_rfl
    · exact h.high hactive q hq
  · exact ⟨h.mem, nofun, h.idle⟩
  · exact ⟨h.mem, nofun, h.idle⟩
  · exact h

theorem sealSegment (h : Sound s) (io : SealIO) : Sound (s.sealSegment io).1 := by
  have hflush := h.flushPending io.batch
  rw [SegLog.sealSegment]
  rcases hresult : s.flushPending io.batch with ⟨t, _ | err⟩
  · rw [hresult] at hflush
    exact hflush.rotate io
  · rw [hresult] at hflush
    exact hflush

theorem discard (h : Sound s) (removes : Nat → Bool) (dirSynced : Bool) (upto : Nat) :
    Sound (s.discard removes dirSynced upto).1 := by
  have hsub : ∀ q ∈ (s.discard removes dirSynced upto).1.dir.seqs, q ∈ s.dir.seqs := by
    intro q hq
    obtain ⟨f, hf, hseq⟩ := Dir.mem_seqs.mp hq
    exact Dir.mem_seqs.mpr ⟨f, SegLog.of_mem_discard hf, hseq⟩
  obtain ⟨f, hf, hseq⟩ := Dir.mem_seqs.mp h.mem
  refine ⟨?_, fun hactive q hq => ?_, ?_⟩
  · rw [SegLog.discard_activeSeq]
    exact Dir.mem_seqs.mpr ⟨f, SegLog.mem_discard_of_active hf hseq, hseq⟩
  · rw [SegLog.discard_frame] at hactive
    rw [SegLog.discard_activeSeq]
    exact h.high hactive q (hsub q hq)
  · rw [SegLog.discard_frame]
    exact h.idle

theorem step {c : LineCodec ρ} {l : Label ρ} {t : SegLog UInt8} (h : Sound s)
    (hstep : FailedSeal.step c s l = some t) : Sound t := by
  cases l with
  | enqueue rs =>
      obtain rfl := Option.some.inj hstep
      rw [SegLog.enqueue]
      cases s.cur with
      | none => exact ⟨h.mem, h.high, by simp⟩
      | some b => exact ⟨h.mem, h.high, by simp⟩
  | commitWait handle io =>
      obtain rfl := Option.some.inj hstep
      have hflush := h.flushPending io
      rw [SegLog.commitWait]
      split_ifs
      · exact h
      · rcases hresult : s.flushPending io with ⟨t, _ | err⟩
        · rw [hresult] at hflush
          exact hflush
        · rw [hresult] at hflush
          exact hflush
  | sealSegment io =>
      obtain rfl := Option.some.inj hstep
      exact h.sealSegment io
  | discard removes dirSynced upto =>
      obtain rfl := Option.some.inj hstep
      exact h.discard removes dirSynced upto
  | forEachLine io opens =>
      obtain rfl := Option.some.inj hstep
      have hflush := h.flushPending io
      rw [SegLog.forEachLine]
      rcases hresult : s.flushPending io with ⟨t, _ | err⟩
      · rw [hresult] at hflush
        exact hflush
      · rw [hresult] at hflush
        exact hflush
  | close io closed =>
      obtain rfl := Option.some.inj hstep
      have hflush := h.flushPending io
      exact ⟨hflush.mem, by simp [SegLog.close], hflush.idle⟩
  | reopen keep =>
      obtain rfl := Option.some.inj hstep
      exact openSegLog _ _

end Sound

end Runs

/-! ## One fault -/

/-- The calls of `seal` that may fail; a failed write leaves the first bytes of the batch. -/
inductive Fault where
  | write (left : Nat)
  | fsync
  | close
  | openNext
  | syncDir
  deriving DecidableEq, Repr

def Fault.io : Fault → SealIO
  | .write left => { SealIO.good with batch := ⟨some left, true⟩ }
  | .fsync => { SealIO.good with batch := ⟨none, false⟩ }
  | .close => { SealIO.good with closed := false }
  | .openNext => { SealIO.good with opened := false }
  | .syncDir => { SealIO.good with dirSynced := false }

/-- The faults after which no handle is open. -/
def Fault.Fatal (fault : Fault) : Prop := fault = .close ∨ fault = .syncDir

instance (fault : Fault) : Decidable fault.Fatal := inferInstanceAs (Decidable (_ ∨ _))

section Seal

variable {s : SegLog UInt8} {fault : Fault} {err : IOErr}

theorem seal_of_flush_error {io : SealIO} (h : (s.flushPending io.batch).2 = some err) :
    s.sealSegment io = ((s.flushPending io.batch).1, .error err) := by
  rw [SegLog.sealSegment]
  rcases hresult : s.flushPending io.batch with ⟨t, out⟩
  rw [hresult] at h
  obtain rfl : out = some err := h
  rfl

theorem seal_of_flush_ok {io : SealIO} (h : (s.flushPending io.batch).2 = none) :
    s.sealSegment io = (s.flushPending io.batch).1.rotate io := by
  rw [SegLog.sealSegment]
  rcases hresult : s.flushPending io.batch with ⟨t, out⟩
  rw [hresult] at h
  obtain rfl : out = none := h
  rfl

theorem active_rotate_of_fatal (h : fault.Fatal) (s : SegLog UInt8) :
    (s.rotate fault.io).1.active = false := by
  cases hactive : s.active with
  | false => simp [SegLog.rotate, hactive]
  | true => rcases h with rfl | rfl <;> simp [SegLog.rotate, hactive, Fault.io, SealIO.good]

theorem active_flushPending (s : SegLog UInt8) (io : BatchIO) :
    (s.flushPending io).1.active = s.active := by
  rcases flushPending_cases s io with ⟨-, hflush⟩ | ⟨-, -, -, ⟨-, hwrote, -⟩ | ⟨-, hwrote, -⟩⟩
  · rw [hflush]
  · exact hwrote.active
  · exact hwrote.active

theorem active_seal_of_inactive (h : s.active = false) (io : SealIO) :
    (s.sealSegment io).1.active = false := by
  have hflush := active_flushPending s io.batch
  rw [h] at hflush
  cases hout : (s.flushPending io.batch).2 with
  | none =>
      rw [seal_of_flush_ok hout]
      simp [SegLog.rotate, hflush]
  | some err =>
      rw [seal_of_flush_error hout]
      exact hflush

theorem flushPending_good_ok (h : s.active = true) : (s.flushPending .good).2 = none := by
  rcases flushPending_cases s .good with ⟨-, hflush⟩ | ⟨-, -, -, ⟨hclosed, -, -⟩ | ⟨-, -, herr⟩⟩
  · rw [hflush]
  · rw [h] at hclosed
    cases hclosed
  · exact herr

theorem active_seal_of_fatal (h : fault.Fatal) (s : SegLog UInt8) :
    (s.sealSegment fault.io).1.active = false := by
  cases hactive : s.active with
  | false => exact active_seal_of_inactive hactive _
  | true =>
      have hbatch : fault.io.batch = .good := by
        rcases h with rfl | rfl <;> rfl
      have hok : (s.flushPending fault.io.batch).2 = none := by
        rw [hbatch]
        exact flushPending_good_ok hactive
      rw [seal_of_flush_ok hok]
      exact active_rotate_of_fatal h _

/-- The sealed segment is opened again where the next one could not be. -/
theorem rotate_openNext (hsound : Sound s) (hactive : s.active = true) :
    s.rotate Fault.openNext.io = (s, .error .openFile) := by
  have hsame : s.dir.create s.activeSeq = s.dir := Dir.create_of_mem hsound.mem
  simp only [SegLog.rotate, Fault.io, SealIO.good, hactive, hsame, if_true, Bool.false_eq_true,
    if_false]
  rw [← hactive]

/-- After any other fault the handle is open, and part of the pending batch was written. -/
theorem wrote_of_failed (hsound : Sound s) (hactive : s.active = true) (hfatal : ¬fault.Fatal)
    (hfail : (s.sealSegment fault.io).2 = .error err) :
    Wrote s (s.sealSegment fault.io).1 (written fault.io.batch s.pending) ∧
      (s.sealSegment fault.io).1.cur = none ∧ (s.sealSegment fault.io).1.pending = [] := by
  rcases flushPending_cases s fault.io.batch with
    ⟨hcur, hflush⟩ | ⟨-, hcur, hpending, ⟨hclosed, -, -⟩ | ⟨-, hwrote, herr⟩⟩
  · -- Without a batch only opening the next segment can have failed.
    have hidle := hsound.idle hcur
    have hwritten : written fault.io.batch s.pending = [] := by
      rw [hidle, written]
      split
      · rfl
      · exact List.take_nil
    have hseal : s.sealSegment fault.io = s.rotate fault.io := by
      rw [SegLog.sealSegment, hflush]
    rw [hseal] at hfail
    rw [hwritten]
    cases fault with
    | write left => simp [SegLog.rotate, Fault.io, SealIO.good, hactive] at hfail
    | fsync => simp [SegLog.rotate, Fault.io, SealIO.good, hactive] at hfail
    | close => exact absurd (Or.inl rfl) hfatal
    | openNext =>
        rw [hseal, rotate_openNext hsound hactive]
        exact ⟨.of_segs rfl rfl rfl, hcur, hidle⟩
    | syncDir => exact absurd (Or.inr rfl) hfatal
  · rw [hactive] at hclosed
    cases hclosed
  · cases fault with
    | write left =>
        rw [seal_of_flush_error herr]
        exact ⟨hwrote, hcur, hpending⟩
    | fsync =>
        rw [seal_of_flush_error herr]
        exact ⟨hwrote, hcur, hpending⟩
    | close => exact absurd (Or.inl rfl) hfatal
    | openNext =>
        have hopen := hwrote.active.trans hactive
        rw [seal_of_flush_ok herr, rotate_openNext (hsound.flushPending _) hopen]
        exact ⟨hwrote, hcur, hpending⟩
    | syncDir => exact absurd (Or.inr rfl) hfatal

end Seal

/-! ## Usable again -/

/-- The active segment is the last file. -/
theorem segs_eq_concat {d : Dir UInt8} {q : Nat} (hmem : q ∈ d.seqs) (hhigh : ∀ p ∈ d.seqs, p ≤ q) :
    ∃ init f, d.segs = init ++ [f] ∧ f.seq = q ∧ ∀ g ∈ init, g.seq ≠ q := by
  obtain ⟨x, hx, hxseq⟩ := Dir.mem_seqs.mp hmem
  obtain ⟨init, f, hsegs⟩ : ∃ init f, d.segs = init ++ [f] :=
    ⟨_, _, (List.dropLast_append_getLast (List.ne_nil_of_mem hx)).symm⟩
  have hord := d.ordered
  rw [hsegs, List.map_append, List.pairwise_append] at hord
  have hbelow : ∀ g ∈ init, g.seq < f.seq :=
    fun g hg => hord.2.2 g.seq (List.mem_map_of_mem hg) f.seq List.mem_cons_self
  have hf : f.seq ≤ q := by
    apply hhigh
    rw [Dir.seqs, hsegs]
    exact List.mem_map_of_mem (List.mem_append_right _ List.mem_cons_self)
  have hlast : f.seq = q := by
    rw [hsegs] at hx
    rcases List.mem_append.mp hx with hx | hx
    · have hlt := hbelow x hx
      omega
    · rw [← List.mem_singleton.mp hx]
      exact hxseq
  refine ⟨init, f, hsegs, hlast, fun g hg => ?_⟩
  have hlt := hbelow g hg
  omega

section Main

variable {ρ : Type} (c : LineCodec ρ)

/-- What a failed seal has to leave: an open handle on the active segment and all that was durable;
the next append and the next seal succeed, and recovery returns the lines that were in the files,
records of the batch that was pending, and the records appended since. -/
structure Usable (s : SegLog UInt8) (ps : List ρ) (fault : Fault) (rs : List ρ) : Prop where
  active : (s.sealSegment fault.io).1.active = true
  handle : (s.sealSegment fault.io).1.activeSeq ∈ (s.sealSegment fault.io).1.dir.seqs
  durable : ∀ f ∈ s.dir.segs, ∃ g ∈ (s.sealSegment fault.io).1.dir.segs,
    g.seq = f.seq ∧ f.durable <+: g.durable
  appends : ((s.sealSegment fault.io).1.append .good (c.lines rs)).2 = none
  seals : ∃ seq,
    (((s.sealSegment fault.io).1.append .good (c.lines rs)).1.sealSegment .good).2 = .ok seq
  recovers : ∃ before extra, (scanResult (segLines s.dir.segs)) = .ok before ∧ extra <+: ps ∧
    ((((s.sealSegment fault.io).1.append .good (c.lines rs)).1.sealSegment .good).1.forEachLine
      .good fun _ => true).2 = .ok (before ++ (extra ++ rs).map c.encode)

/-- The handle was open and neither closing the segment nor syncing the directory failed; the
active segment ends with a line, and so does what was written of the batch; the files could be
recovered, and the records that were written fit into the scanner's buffer. -/
structure Spared (s : SegLog UInt8) (ps : List ρ) (fault : Fault) (rs : List ρ) : Prop where
  active : s.active = true
  nonfatal : ¬fault.Fatal
  clean : LineCodec.Clean ((s.dir.contents s.activeSeq).getD [])
  readable : ∃ before, segLines s.dir.segs = some before
  whole : ∃ kept, kept <+: ps ∧ written fault.io.batch (c.lines ps) = c.lines kept ∧
    c.Short scannerLimit (kept ++ rs)

variable {c} {s t : SegLog UInt8}

theorem written_isPrefix (io : BatchIO) (buf : Bytes) : written io buf <+: buf := by
  rw [written]
  split
  · exact List.prefix_rfl
  · exact List.take_prefix _ _

theorem scanResult_eq_ok {o : Option (List Bytes)} {ls : List Bytes} :
    scanResult o = .ok ls ↔ o = some ls := by
  cases o with
  | none => exact ⟨nofun, nofun⟩
  | some ms => exact ⟨fun h => congrArg some (Except.ok.inj h), fun h => by
      rw [Option.some.inj h]; rfl⟩

/-- The lines of the files before and after a write to the active segment. -/
theorem segLines_of_wrote {w : Bytes} (hsound : Sound s) (hactive : s.active = true)
    (hwrote : Wrote s t w) :
    ∃ ls : Option (List Bytes), segLines s.dir.segs = ls.bind (fun a =>
        (textLines scannerLimit ((s.dir.contents s.activeSeq).getD [])).map (a ++ ·)) ∧
      segLines t.dir.segs = ls.bind (fun a =>
        (textLines scannerLimit ((s.dir.contents s.activeSeq).getD [] ++ w)).map (a ++ ·)) := by
  obtain ⟨init, f, hsegs, hseq, hinit⟩ := segs_eq_concat hsound.mem (hsound.high hactive)
  obtain ⟨g, hg, htsegs⟩ := hwrote.segs
  have hcontents : (s.dir.contents s.activeSeq).getD [] = f.data := by
    rw [← hseq, Dir.contents_of_mem (by rw [hsegs]; simp), Option.getD_some]
  have hone : ∀ x : Segment UInt8, segLines [x] = textLines scannerLimit x.data := by
    intro x
    rw [segLines, segLines]
    cases textLines scannerLimit x.data with
    | none => rfl
    | some ls => exact congrArg some (List.append_nil ls)
  have hmap : t.dir.segs = init ++ [g f] := by
    rw [htsegs, hsegs, List.map_append, List.map_singleton, if_pos hseq]
    congr 1
    conv_rhs => rw [← List.map_id init]
    exact List.map_congr_left fun x hx => if_neg (hinit x hx)
  refine ⟨segLines init, ?_, ?_⟩
  · rw [hsegs, segLines_append, hone, hcontents]
  · rw [hmap, segLines_append, hone, (hg f).2.1, hcontents]

/-- A log with an open handle and an idle batch takes records and can be sealed. -/
theorem append_seal (hsound : Sound t) (hactive : t.active = true) (hcur : t.cur = none)
    (hpending : t.pending = []) (buf : Bytes) :
    (t.append .good buf).2 = none ∧
      (∃ seq, ((t.append .good buf).1.sealSegment .good).2 = .ok seq) ∧
        ∃ u, Wrote t u buf ∧
          (((t.append .good buf).1.sealSegment .good).1.forEachLine .good fun _ => true).2 =
            scanResult (segLines u.dir.segs) := by
  obtain ⟨hok, hwrote, hidle, -⟩ := append_good hactive hcur hpending buf
  have hopen : (t.append .good buf).1.active = true := hwrote.active.trans hactive
  have hseal := seal_good hopen hidle
  refine ⟨hok, ⟨_, by rw [hseal]⟩, (t.append .good buf).1, hwrote, ?_⟩
  have hlt : ∀ q ∈ (t.append .good buf).1.dir.seqs, q < (t.append .good buf).1.activeSeq + 1 := by
    intro q hq
    rw [hwrote.seqs] at hq
    rw [hwrote.activeSeq]
    exact Nat.lt_succ_of_le (hsound.high hactive q hq)
  have hidle' : ((t.append .good buf).1.sealSegment .good).1.cur = none := by
    rw [hseal]
    exact hidle
  rw [SegLog.forEachLine_idle hidle', hseal]
  change scanResult (segLines ((t.append .good buf).1.dir.create _).segs) = _
  rw [Dir.segs_create_of_lt hlt, segLines_append]
  cases segLines (t.append .good buf).1.dir.segs with
  | none => rfl
  | some ls =>
      change scanResult (some (ls ++ [])) = _
      rw [List.append_nil]

/-- The lines of the other segments come first, before and after. -/
theorem recovered_iff {ps rs : List ρ} {init : Option (List Bytes)} {data w : Bytes}
    {fs gs : List (Segment UInt8)} {Whole : Prop}
    (hbefore : segLines fs = init.bind fun a => (textLines scannerLimit data).map (a ++ ·))
    (hafter : segLines gs = init.bind fun a => (textLines scannerLimit (data ++ w)).map (a ++ ·))
    (hjoin : (∃ before extra, textLines scannerLimit data = some before ∧ extra <+: ps ∧
        textLines scannerLimit (data ++ w) = some (before ++ (extra ++ rs).map c.encode)) ↔
      LineCodec.Clean data ∧ (∃ before, textLines scannerLimit data = some before) ∧ Whole) :
    (∃ before extra, scanResult (segLines fs) = .ok before ∧ extra <+: ps ∧
        scanResult (segLines gs) = .ok (before ++ (extra ++ rs).map c.encode)) ↔
      LineCodec.Clean data ∧ (∃ before, segLines fs = some before) ∧ Whole := by
  simp only [scanResult_eq_ok, hbefore, hafter]
  cases init with
  | none =>
      constructor
      · rintro ⟨before, extra, hb, -⟩
        cases hb
      · rintro ⟨-, ⟨before, hb⟩, -⟩
        cases hb
  | some a =>
      simp only [Option.bind_some, Option.map_eq_some_iff]
      constructor
      · rintro ⟨before, extra, ⟨b, hb, rfl⟩, hextra, b', hb', heq⟩
        rw [List.append_assoc] at heq
        obtain rfl := List.append_cancel_left heq
        obtain ⟨hclean, -, hwhole⟩ := hjoin.mp ⟨b, extra, hb, hextra, hb'⟩
        exact ⟨hclean, ⟨_, b, hb, rfl⟩, hwhole⟩
      · rintro ⟨hclean, ⟨_, b, hb, rfl⟩, hwhole⟩
        obtain ⟨before, extra, hbefore, hextra, hafter⟩ := hjoin.mpr ⟨hclean, ⟨b, hb⟩, hwhole⟩
        exact ⟨_, extra, ⟨before, hbefore, rfl⟩, hextra, _, hafter, (List.append_assoc _ _ _).symm⟩

/-- In every state that a log can reach, with any failures before, a `seal` with one fault that
returns an error leaves a usable log just when the fault spares the handle and no fragment. -/
theorem failed_seal_usable_iff (hc : c.Lawful) (pfx : Bytes) (d : Dir UInt8)
    (ls : List (Label ρ)) (s : SegLog UInt8) (hrun : exec (step c) (openSegLog pfx d) ls = some s)
    (ps : List ρ) (hps : s.pending = c.lines ps) (fault : Fault) (err : IOErr)
    (hfail : (s.sealSegment fault.io).2 = .error err) (rs : List ρ) (hrs : rs ≠ []) :
    Usable c s ps fault rs ↔ Spared c s ps fault rs := by
  have hsound : Sound s :=
    invariant (fun s l t h hstep => Sound.step h hstep) (Sound.openSegLog pfx d) hrun
  by_cases hactive : s.active = true
  swap
  · have hclosed := active_seal_of_inactive (Bool.eq_false_iff.mpr hactive) fault.io
    constructor
    · intro h
      rw [h.active] at hclosed
      cases hclosed
    · exact fun h => absurd h.active hactive
  by_cases hfatal : fault.Fatal
  · have hclosed := active_seal_of_fatal hfatal s
    constructor
    · intro h
      rw [h.active] at hclosed
      cases hclosed
    · exact fun h => absurd hfatal h.nonfatal
  · obtain ⟨hwrote, hcur, hpending⟩ := wrote_of_failed hsound hactive hfatal hfail
    have hopen := hwrote.active.trans hactive
    obtain ⟨happends, hseals, u, hrest, hread⟩ := append_seal
      (hsound.sealSegment fault.io) hopen hcur hpending (c.lines rs)
    obtain ⟨init, hbefore, hafter⟩ := segLines_of_wrote hsound hactive (hwrote.trans hrest)
    rw [hps] at hafter
    have hjoin := @LineCodec.textLines_behind_iff ρ c scannerLimit hc
      ((s.dir.contents s.activeSeq).getD []) (written fault.io.batch (c.lines ps)) ps rs hrs
      (written_isPrefix _ _)
    rw [List.append_assoc] at hjoin
    have hrecovers := recovered_iff hbefore hafter hjoin
    constructor
    · intro h
      obtain ⟨before, extra, hb, hextra, ha⟩ := h.recovers
      rw [hread] at ha
      obtain ⟨hclean, hreadable, hwhole⟩ := hrecovers.mp ⟨before, extra, hb, hextra, ha⟩
      exact ⟨hactive, hfatal, hclean, hreadable, hwhole⟩
    · intro h
      obtain ⟨before, extra, hb, hextra, ha⟩ := hrecovers.mpr ⟨h.clean, h.readable, h.whole⟩
      refine ⟨hopen, (hsound.sealSegment fault.io).mem, fun f hf => hwrote.durable hf, happends,
        hseals, before, extra, hb, hextra, ?_⟩
      rw [hread]
      exact ha

end Main

/-- A batch that is pending when the next segment cannot be opened. -/
theorem failed_seal_usable_reopened :
    ∃ s, exec (step JsonLine.json.entryCodec) (openSegLog (ascii "wal") (Dir.fresh none))
        [.enqueue [⟨1, [97]⟩]] = some s ∧
      Usable JsonLine.json.entryCodec s [⟨1, [97]⟩] .openNext [⟨2, [98]⟩] := by
  refine ⟨_, rfl, (failed_seal_usable_iff (Jx.lawful_entryCodec JsonLine.lawful_json)
    (ascii "wal") (Dir.fresh none) [.enqueue [⟨1, [97]⟩]] _ rfl [⟨1, [97]⟩] rfl .openNext .openFile
    rfl [⟨2, [98]⟩] (List.cons_ne_nil _ _)).mpr ?_⟩
  refine ⟨rfl, by decide, by decide, ⟨[], rfl⟩, [⟨1, [97]⟩], List.prefix_rfl, rfl, by decide⟩

/-- The log of a fresh directory with one pending record. -/
def pendingLog : SegLog UInt8 :=
  ((openSegLog (ascii "wal") (Dir.fresh none)).enqueue
    (JsonLine.json.entryCodec.lines [⟨1, [97]⟩])).1

/-- A failed close and a failed sync of the directory, after which every append and every seal
fails, and a write of one byte, to which the next record is glued. -/
theorem failed_seal_unusable :
    (∀ fault, fault = .close ∨ fault = .syncDir →
      (∃ err, (pendingLog.sealSegment (Fault.io fault)).2 = .error err) ∧
        ((pendingLog.sealSegment fault.io).1.append .good
          (JsonLine.json.entryCodec.lines [⟨2, [98]⟩])).2 = some .closed ∧
        ((pendingLog.sealSegment fault.io).1.sealSegment .good).2 = .error .closed ∧
        ¬Usable JsonLine.json.entryCodec pendingLog [⟨1, [97]⟩] fault [⟨2, [98]⟩]) ∧
      (pendingLog.sealSegment (Fault.io (.write 1))).2 = .error .write ∧
        ¬Usable JsonLine.json.entryCodec pendingLog [⟨1, [97]⟩] (.write 1) [⟨2, [98]⟩] := by
  refine ⟨?_, rfl, ?_⟩
  · rintro fault (rfl | rfl)
    · exact ⟨⟨_, rfl⟩, rfl, rfl, fun h => absurd h.active (by decide)⟩
    · exact ⟨⟨_, rfl⟩, rfl, rfl, fun h => absurd h.active (by decide)⟩
  · intro h
    obtain ⟨before, extra, -, -, hlines⟩ := h.recovers
    have hglued : ((((pendingLog.sealSegment (Fault.io (.write 1))).1.append .good
        (JsonLine.json.entryCodec.lines [⟨2, [98]⟩])).1.sealSegment .good).1.forEachLine
          .good fun _ => true).2 = .ok [123 :: JsonLine.json.encodeEntry ⟨2, [98]⟩] := by
      decide +kernel
    rw [hglued] at hlines
    have hlast := congrArg List.getLast? (Except.ok.inj hlines)
    rw [List.map_append, ← List.append_assoc, List.map_singleton, List.getLast?_concat] at hlast
    exact absurd hlast (by decide)

end Shrimpd.Wal.FailedSeal
