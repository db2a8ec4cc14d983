import Shrimpd.Wal.GroupCommitCorrect

/-!
# What the files of a shared log hold

Group commit seen from the records: every record that reached the log satisfies
`P`, and the records of a batch that was resolved without an error are synced
in some segment, unless they satisfy `Q` and may be discarded.  The users of
the log choose `P` and `Q`; here the sections of the log are shown to keep both.
-/

namespace Shrimpd.Wal.GroupCommit

open Shrimpd.Lib Shrimpd.Lib.Exec

variable {α : Type}

/-! ## The sections of the holder -/

/-- What one section of the holder of `ioMu` does. -/
inductive HolderStep (s : State α) : State α → Prop
  | idle {pc : Option (IoPC α)} {active : Bool} {returned : List (Nat × Option IOErr)}
      (hfrom : flyOf s.io = none) (hto : flyOf pc = none) :
      HolderStep s { s with io := pc, returned := returned, log := { s.log with active := active } }
  | take {op : IoOp} {b : Nat} (hcur : s.log.cur = some b) :
      HolderStep s { takeBatch s with io := some (.taken op b s.log.pending) }
  | write {op : IoOp} {b : Nat} {buf : List α} (torn : Option Nat)
      (hio : s.io = some (.taken op b buf)) :
      HolderStep s { recordWrite s b buf torn with
        io := some (match (s.log.write torn buf).2 with
          | none => .written op b
          | some err => .settling op b (some err)) }
  | fsync {op : IoOp} {b : Nat} (synced : Bool) (hio : s.io = some (.written op b)) :
      HolderStep s { recordSync s b synced with
        io := some (.settling op b (s.log.fsync synced).2) }
  | resolve {op : IoOp} {b : Nat} {err res : Option IOErr}
      (hio : s.io = some (.settling op b err)) :
      HolderStep s { s with log := s.log.resolve b err, io := some (.leaving op res) }

theorem HolderStep.enqueued_eq {s t : State α} (hstep : HolderStep s t) :
    t.enqueued = s.enqueued := by
  cases hstep <;> rfl

theorem holderStep_of_step {s t : State α} {sec : Sec α} (hsec : sec.ofHolder = true)
    (hstep : step s sec = some t) : HolderStep s t := by
  cases sec with
  | enqueue buf => cases hsec
  | sealSegment io => cases hsec
  | discard removes dirSynced upto => cases hsec
  | lock op =>
      cases hio : s.io with
      | some pc => simp [step, hio] at hstep
      | none =>
          have hfrom : flyOf s.io = none := by rw [hio]; rfl
          cases op with
          | commitWait c =>
              simp only [step, hio] at hstep
              split at hstep
              · cases hstep
                exact .idle hfrom rfl
              · cases hstep
          | forEachLine =>
              simp only [step, hio] at hstep
              cases hstep
              exact .idle hfrom rfl
          | close =>
              simp only [step, hio] at hstep
              cases hstep
              exact .idle hfrom rfl
  | check =>
      rcases hio : s.io with _ | ⟨op⟩ | _ | _ | _ | _ | _
      case some.entered =>
        have hfrom : flyOf s.io = none := by rw [hio]; rfl
        cases op with
        | commitWait c =>
            simp only [step, hio] at hstep
            split at hstep <;>
            · cases hstep
              exact .idle hfrom rfl
        | forEachLine =>
            simp only [step, hio] at hstep
            cases hstep
            exact .idle hfrom rfl
        | close =>
            simp only [step, hio] at hstep
            cases hstep
            exact .idle hfrom rfl
      all_goals simp [step, hio] at hstep
  | take =>
      rcases hio : s.io with _ | _ | ⟨op⟩ | _ | _ | _ | _
      case some.flushing =>
        have hfrom : flyOf s.io = none := by rw [hio]; rfl
        cases hcur : s.log.cur with
        | none =>
            simp only [step, hio, hcur] at hstep
            cases hstep
            exact .idle hfrom rfl
        | some b =>
            simp only [step, hio, hcur] at hstep
            cases hstep
            exact .take hcur
      all_goals simp [step, hio] at hstep
  | write torn =>
      rcases hio : s.io with _ | _ | _ | ⟨op, b, buf⟩ | _ | _ | _
      case some.taken =>
        simp only [step, hio] at hstep
        cases hstep
        exact .write torn hio
      all_goals simp [step, hio] at hstep
  | fsync synced =>
      rcases hio : s.io with _ | _ | _ | _ | ⟨op, b⟩ | _ | _
      case some.written =>
        simp only [step, hio] at hstep
        cases hstep
        exact .fsync synced hio
      all_goals simp [step, hio] at hstep
  | resolve =>
      rcases hio : s.io with _ | _ | _ | _ | _ | ⟨op, b, err⟩ | _
      case some.settling =>
        simp only [step, hio] at hstep
        cases hstep
        exact .resolve hio
      all_goals simp [step, hio] at hstep
  | unlock =>
      rcases hio : s.io with _ | _ | _ | _ | _ | _ | ⟨op, err⟩
      case some.leaving =>
        have hfrom : flyOf s.io = none := by rw [hio]; rfl
        cases op with
        | commitWait c =>
            simp only [step, hio] at hstep
            cases hstep
            exact .idle hfrom rfl
        | forEachLine =>
            simp only [step, hio] at hstep
            cases hstep
            exact .idle hfrom rfl
        | close =>
            simp only [step, hio] at hstep
            cases hstep
            exact .idle hfrom rfl
      all_goals simp [step, hio] at hstep

/-! ## The records of the log -/

/-- The record is synced in a segment that still exists. -/
def OnDisk (s : State α) (e : α) : Prop := ∃ f ∈ s.log.dir.segs, e ∈ f.durable

structure Stored (P Q : α → Prop) (s : State α) : Prop where
  active : s.log.activeSeq ∈ s.log.dir.seqs
  files : ∀ f ∈ s.log.dir.segs, ∀ e ∈ f.data, P e
  fly : ∀ e ∈ flyBuf (flyOf s.io), P e
  pending : ∀ e ∈ s.log.pending, P e
  settled : ∀ c, Answered s c none → ∀ e ∈ enqueuedUnder s c, OnDisk s e ∨ Q e
  /-- Between the write and its fsync the batch is in the active segment. -/
  written : ∀ op b, s.io = some (.written op b) → ∀ e ∈ enqueuedUnder s b,
    ∃ f ∈ s.log.dir.segs, f.seq = s.log.activeSeq ∧ e ∈ f.data
  settling : ∀ op b, s.io = some (.settling op b none) → ∀ e ∈ enqueuedUnder s b,
    OnDisk s e ∨ Q e

variable {P Q : α → Prop}

namespace Stored

theorem mono {P' Q' : α → Prop} {s : State α} (h : Stored P Q s) (hP : ∀ e, P e → P' e)
    (hQ : ∀ e, Q e → Q' e) : Stored P' Q' s where
  active := h.active
  files := fun f hf e he => hP e (h.files f hf e he)
  fly := fun e he => hP e (h.fly e he)
  pending := fun e he => hP e (h.pending e he)
  settled := fun c hc e he => (h.settled c hc e he).imp_right (hQ e)
  written := h.written
  settling := fun op b hio e he => (h.settling op b hio e he).imp_right (hQ e)

/-- A section that leaves files, batch and handles alone and is not between
write and resolution. -/
theorem frame {s t : State α} (h : Stored P Q s) (hdir : t.log.dir = s.log.dir)
    (hseq : t.log.activeSeq = s.log.activeSeq) (hpending : t.log.pending = s.log.pending)
    (hcommits : t.log.commits = s.log.commits) (henq : t.enqueued = s.enqueued)
    (hio : flyOf t.io = none) : Stored P Q t where
  active := by
    rw [hdir, hseq]
    exact h.active
  files := by
    rw [hdir]
    exact h.files
  fly := by simp [hio, flyBuf]
  pending := by
    rw [hpending]
    exact h.pending
  settled := by
    intro c hc e he
    rw [Answered, hcommits] at hc
    rw [enqueuedUnder, henq] at he
    rw [OnDisk, hdir]
    exact h.settled c hc e he
  written := by
    intro op b hb
    simp [hb, flyOf] at hio
  settling := by
    intro op b hb
    simp [hb, flyOf] at hio

/-! ## The holder's sections -/

theorem take {s : State α} {op : IoOp} {b : Nat} (h : Stored P Q s) :
    Stored P Q { takeBatch s with io := some (.taken op b s.log.pending) } where
  active := h.active
  files := h.files
  fly := h.pending
  pending := by simp [takeBatch, SegLog.takePending]
  settled := h.settled
  written := by simp
  settling := by simp

/-- A write changes only the active segment, and only past its synced part. -/
theorem mem_write {log : SegLog α} {torn : Option Nat} {buf : List α} {x : Segment α}
    (hx : x ∈ (log.write torn buf).1.dir.segs) :
    ∃ f ∈ log.dir.segs, ∀ e ∈ x.data, e ∈ f.data ∨ e ∈ buf := by
  rcases log.write_dir torn buf with ⟨b, hb, hdir⟩ | ⟨-, hdir⟩
  · have hsub : ∀ e ∈ b, e ∈ buf := by
      rcases hb with ⟨rfl, -⟩ | ⟨⟨k, rfl⟩, -⟩
      · exact fun e he => he
      · exact fun e he => List.mem_of_mem_take he
    rw [hdir] at hx
    obtain ⟨f, hf, rfl⟩ := Dir.mem_update.mp hx
    refine ⟨f, hf, ?_⟩
    intro e he
    split_ifs at he
    · rw [Segment.data_write, List.mem_append] at he
      exact he.imp_right (hsub e)
    · exact Or.inl he
  · rw [hdir] at hx
    exact ⟨x, hx, fun e he => Or.inl he⟩

theorem onDisk_write {s : State α} {torn : Option Nat} {buf : List α} {e : α}
    (h : OnDisk s e) : ∃ f ∈ (s.log.write torn buf).1.dir.segs, e ∈ f.durable := by
  obtain ⟨f, hf, he⟩ := h
  rcases s.log.write_dir torn buf with ⟨b, -, hdir⟩ | ⟨-, hdir⟩
  · rw [hdir]
    refine ⟨_, Dir.mem_update.mpr ⟨f, hf, rfl⟩, ?_⟩
    split_ifs <;> exact he
  · rw [hdir]
    exact ⟨f, hf, he⟩

theorem seqs_write (log : SegLog α) (torn : Option Nat) (buf : List α) :
    (log.write torn buf).1.dir.seqs = log.dir.seqs := by
  rcases log.write_dir torn buf with ⟨b, -, hdir⟩ | ⟨-, hdir⟩
  · rw [hdir, Dir.seqs_update]
  · rw [hdir]

theorem write {s : State α} {op : IoOp} {b : Nat} {buf : List α} (h : Stored P Q s)
    (hinv : Inv s) (hio : s.io = some (.taken op b buf)) (torn : Option Nat) :
    Stored P Q { recordWrite s b buf torn with
      io := some (match (s.log.write torn buf).2 with
        | none => .written op b
        | some err => .settling op b (some err)) } where
  active := by
    change (s.log.write torn buf).1.activeSeq ∈ (s.log.write torn buf).1.dir.seqs
    rw [seqs_write, SegLog.write_activeSeq]
    exact h.active
  files := by
    intro f hf e he
    obtain ⟨g, hg, hdata⟩ := mem_write hf
    rcases hdata e he with he | he
    · exact h.files g hg e he
    · apply h.fly
      rw [hio]
      exact he
  fly := by
    cases (s.log.write torn buf).2 <;> simp [flyOf, flyBuf]
  pending := by
    intro e he
    apply h.pending
    simpa [recordWrite] using he
  settled := by
    intro c hc e he
    have hc' : Answered s c none := by simpa [Answered, recordWrite] using hc
    exact (h.settled c hc' e he).imp_left onDisk_write
  written := by
    intro op' b' hb' e he
    cases herr : (s.log.write torn buf).2 with
    | some err => simp [herr] at hb'
    | none =>
        rw [herr] at hb'
        obtain ⟨rfl, rfl⟩ : op = op' ∧ b = b' := by simpa using hb'
        -- The batch taken by the holder is all that was enqueued under it.
        have hfly : Waiting s b buf := by
          have hcore := hinv.core
          rw [hio] at hcore
          exact hcore.flying b _ rfl
        have hbuf : e ∈ buf := by
          rw [← hfly.2.2.1]
          exact he
        obtain ⟨f, hf, hseq⟩ := Dir.mem_seqs.mp h.active
        have hwrite : (s.log.write torn buf).1.dir =
            s.log.dir.update s.log.activeSeq (Segment.write buf) (Segment.seq_write buf) := by
          rcases s.log.write_dir torn buf with ⟨b', hb', hdir⟩ | ⟨hclosed, -⟩
          · rcases hb' with ⟨rfl, -⟩ | ⟨-, hfail⟩
            · exact hdir
            · simp [herr] at hfail
          · simp [herr] at hclosed
        change ∃ f ∈ (s.log.write torn buf).1.dir.segs,
          f.seq = (s.log.write torn buf).1.activeSeq ∧ e ∈ f.data
        rw [hwrite, SegLog.write_activeSeq]
        refine ⟨f.write buf, Dir.mem_update.mpr ⟨f, hf, by rw [if_pos hseq]⟩, hseq, ?_⟩
        rw [Segment.data_write]
        exact List.mem_append_right _ hbuf
  settling := by
    intro op' b' hb'
    cases herr : (s.log.write torn buf).2 with
    | none => simp [herr] at hb'
    | some err => simp [herr] at hb'

theorem mem_fsync {log : SegLog α} {synced : Bool} {x : Segment α}
    (hx : x ∈ (log.fsync synced).1.dir.segs) :
    ∃ f ∈ log.dir.segs, x.data = f.data := by
  rcases log.fsync_dir synced with ⟨-, hdir⟩ | ⟨-, hdir⟩
  · rw [hdir] at hx
    obtain ⟨f, hf, rfl⟩ := Dir.mem_update.mp hx
    refine ⟨f, hf, ?_⟩
    split_ifs <;> simp
  · rw [hdir] at hx
    exact ⟨x, hx, rfl⟩

theorem onDisk_fsync {s : State α} {synced : Bool} {e : α} (h : OnDisk s e) :
    ∃ f ∈ (s.log.fsync synced).1.dir.segs, e ∈ f.durable := by
  obtain ⟨f, hf, he⟩ := h
  rcases s.log.fsync_dir synced with ⟨-, hdir⟩ | ⟨-, hdir⟩
  · rw [hdir]
    refine ⟨_, Dir.mem_update.mpr ⟨f, hf, rfl⟩, ?_⟩
    split_ifs
    · exact Segment.mem_data_of_mem_durable he
    · exact he
  · rw [hdir]
    exact ⟨f, hf, he⟩

theorem seqs_fsync (log : SegLog α) (synced : Bool) :
    (log.fsync synced).1.dir.seqs = log.dir.seqs := by
  rcases log.fsync_dir synced with ⟨-, hdir⟩ | ⟨-, hdir⟩
  · rw [hdir, Dir.seqs_update]
  · rw [hdir]

theorem sync {s : State α} {op : IoOp} {b : Nat} (h : Stored P Q s)
    (hio : s.io = some (.written op b)) (synced : Bool) :
    Stored P Q { recordSync s b synced with
      io := some (.settling op b (s.log.fsync synced).2) } where
  active := by
    change (s.log.fsync synced).1.activeSeq ∈ (s.log.fsync synced).1.dir.seqs
    rw [seqs_fsync, SegLog.fsync_activeSeq]
    exact h.active
  files := by
    intro f hf e he
    obtain ⟨g, hg, hdata⟩ := mem_fsync hf
    rw [hdata] at he
    exact h.files g hg e he
  fly := by simp [flyOf, flyBuf]
  pending := by
    intro e he
    apply h.pending
    simpa [recordSync] using he
  settled := by
    intro c hc e he
    have hc' : Answered s c none := by simpa [Answered, recordSync] using hc
    exact (h.settled c hc' e he).imp_left onDisk_fsync
  written := by simp
  settling := by
    intro op' b' hb' e he
    obtain ⟨rfl, rfl, hnone⟩ : op = op' ∧ b = b' ∧ (s.log.fsync synced).2 = none := by
      simpa using hb'
    obtain ⟨f, hf, hseq, hdata⟩ := h.written op b hio e he
    left
    have hsync : (s.log.fsync synced).1.dir =
        s.log.dir.update s.log.activeSeq Segment.sync Segment.seq_sync := by
      rcases s.log.fsync_dir synced with ⟨-, hdir⟩ | ⟨hfail, -⟩
      · exact hdir
      · exact absurd hnone hfail
    change ∃ f ∈ (s.log.fsync synced).1.dir.segs, e ∈ f.durable
    rw [hsync]
    exact ⟨f.sync, Dir.mem_update.mpr ⟨f, hf, by rw [if_pos hseq]⟩, hdata⟩

theorem resolve {s : State α} {op : IoOp} {b : Nat} {err : Option IOErr} (h : Stored P Q s)
    (hio : s.io = some (.settling op b err)) (res : Option IOErr) :
    Stored P Q { s with log := s.log.resolve b err, io := some (.leaving op res) } where
  active := h.active
  files := h.files
  fly := by simp [flyOf, flyBuf]
  pending := h.pending
  settled := by
    intro c hc e he
    change (s.log.commits.set b ⟨true, err⟩)[c]? = some ⟨true, none⟩ at hc
    by_cases hbc : b = c
    · subst hbc
      have herr : err = none := by
        rw [List.getElem?_set_self' ] at hc
        cases hb : s.log.commits[b]? with
        | none => simp [hb] at hc
        | some x => simpa [hb] using hc
      subst herr
      exact h.settling op b hio e he
    · rw [List.getElem?_set_ne hbc] at hc
      exact h.settled c hc e he
  written := by simp
  settling := by simp

/-- Segments below the active one stay as they are and nothing synced is lost. -/
structure Extends (s t : State α) : Prop where
  activeSeq : t.log.activeSeq = s.log.activeSeq
  seqs : t.log.dir.seqs = s.log.dir.seqs
  below : ∀ x ∈ t.log.dir.segs, x.seq ≠ s.log.activeSeq →
    ∃ f ∈ s.log.dir.segs, f.seq = x.seq ∧ x.data = f.data
  onDisk : ∀ e, OnDisk s e → OnDisk t e

theorem extends_of_dir {s t : State α} (hdir : t.log.dir = s.log.dir)
    (hseq : t.log.activeSeq = s.log.activeSeq) : Extends s t where
  activeSeq := hseq
  seqs := by rw [hdir]
  below := by
    intro x hx _
    rw [hdir] at hx
    exact ⟨x, hx, rfl, rfl⟩
  onDisk := by
    intro e he
    rw [OnDisk, hdir]
    exact he

theorem extends_write {s t : State α} {torn : Option Nat} {buf : List α}
    (hlog : t.log = (s.log.write torn buf).1) : Extends s t where
  activeSeq := by rw [hlog, SegLog.write_activeSeq]
  seqs := by rw [hlog, seqs_write]
  below := by
    intro x hx hne
    rw [hlog] at hx
    rcases s.log.write_dir torn buf with ⟨b, -, hdir⟩ | ⟨-, hdir⟩
    · rw [hdir] at hx
      obtain ⟨f, hf, rfl⟩ := Dir.mem_update.mp hx
      by_cases hf' : f.seq = s.log.activeSeq
      · rw [if_pos hf'] at hne
        exact absurd hf' hne
      · rw [if_neg hf']
        exact ⟨f, hf, rfl, rfl⟩
    · rw [hdir] at hx
      exact ⟨x, hx, rfl, rfl⟩
  onDisk := by
    intro e he
    rw [OnDisk, hlog]
    exact onDisk_write he

theorem extends_fsync {s t : State α} {synced : Bool}
    (hlog : t.log = (s.log.fsync synced).1) : Extends s t where
  activeSeq := by rw [hlog, SegLog.fsync_activeSeq]
  seqs := by rw [hlog, seqs_fsync]
  below := by
    intro x hx hne
    rw [hlog] at hx
    rcases s.log.fsync_dir synced with ⟨-, hdir⟩ | ⟨-, hdir⟩
    · rw [hdir] at hx
      obtain ⟨f, hf, rfl⟩ := Dir.mem_update.mp hx
      refine ⟨f, hf, ?_⟩
      split_ifs <;> simp
    · rw [hdir] at hx
      exact ⟨x, hx, rfl, rfl⟩
  onDisk := by
    intro e he
    rw [OnDisk, hlog]
    exact onDisk_fsync he

/-- Only the write and the fsync touch the files. -/
theorem extends_holder {s t : State α} {sec : Sec α} (hsec : sec.ofHolder = true)
    (hstep : step s sec = some t) : Extends s t := by
  cases holderStep_of_step hsec hstep with
  | idle hfrom hto => exact extends_of_dir rfl rfl
  | take hcur => exact extends_of_dir rfl rfl
  | write torn hio => exact extends_write rfl
  | fsync synced hio => exact extends_fsync rfl
  | resolve hio => exact extends_of_dir rfl rfl

theorem holder {s t : State α} {sec : Sec α} (h : Stored P Q s) (hinv : Inv s)
    (hsec : sec.ofHolder = true) (hstep : step s sec = some t) : Stored P Q t := by
  cases holderStep_of_step hsec hstep with
  | idle hfrom hto => exact h.frame rfl rfl rfl rfl rfl hto
  | take hcur => exact h.take
  | write torn hio => exact h.write hinv hio torn
  | fsync synced hio => exact h.sync hio synced
  | resolve hio => exact h.resolve hio _

/-! ## The sections of the log's users -/

theorem extends_enqueue (s : State α) (buf : List α) : Extends s (enqueueStep s buf) := by
  unfold enqueueStep SegLog.enqueue
  cases s.log.cur <;> exact extends_of_dir rfl rfl

theorem enqueue {s : State α} (h : Stored P Q s) (hinv : Inv s) {buf : List α}
    (hbuf : ∀ e ∈ buf, P e) : Stored P Q (enqueueStep s buf) := by
  have hdir : (enqueueStep s buf).log.dir = s.log.dir := by
    simp only [enqueueStep, SegLog.enqueue]
    cases s.log.cur <;> rfl
  have hseq : (enqueueStep s buf).log.activeSeq = s.log.activeSeq := by
    simp only [enqueueStep, SegLog.enqueue]
    cases s.log.cur <;> rfl
  have hpending : (enqueueStep s buf).log.pending = s.log.pending ++ buf := by
    simp only [enqueueStep, SegLog.enqueue]
    cases s.log.cur <;> rfl
  have hunder : ∀ c, c ≠ (s.log.enqueue buf).2 →
      enqueuedUnder (enqueueStep s buf) c = enqueuedUnder s c := by
    intro c hc
    have happ : (enqueueStep s buf).enqueued = s.enqueued ++ [((s.log.enqueue buf).2, buf)] := rfl
    rw [enqueuedUnder_append happ, if_neg hc.symm, List.append_nil]
  -- The handle the strings go to is unresolved and not in flight.
  have hopen : ∀ c err, Answered s c err → c ≠ (s.log.enqueue buf).2 := by
    rintro c err hans rfl
    cases hcur : s.log.cur with
    | none =>
        simp only [SegLog.enqueue, hcur, Answered] at hans
        simp at hans
    | some b =>
        simp only [SegLog.enqueue, hcur] at hans
        have hwait : Open s b := (hinv.core.waiting b hcur).1
        rw [Answered, hwait] at hans
        simp at hans
  have hflying : ∀ b st, flyOf s.io = some (b, st) → b ≠ (s.log.enqueue buf).2 := by
    rintro b st hfly rfl
    have hlast := hinv.core.fly_last _ st hfly
    cases hcur : s.log.cur with
    | none => simp [SegLog.enqueue, hcur] at hlast
    | some c =>
        have hc := hinv.core.cur_last c hcur
        simp only [SegLog.enqueue, hcur, Option.isSome_some, if_true] at hlast
        omega
  refine ⟨?_, ?_, h.fly, ?_, ?_, ?_, ?_⟩
  · rw [hdir, hseq]
    exact h.active
  · rw [hdir]
    exact h.files
  · intro e he
    rw [hpending, List.mem_append] at he
    rcases he with he | he
    · exact h.pending e he
    · exact hbuf e he
  · intro c hc e he
    have hc' : Answered s c none := by
      by_contra hnot
      rw [Answered] at hc hnot
      simp only [enqueueStep, SegLog.enqueue] at hc
      cases hcur : s.log.cur with
      | some b => exact hnot (by simpa [hcur] using hc)
      | none =>
          simp only [hcur] at hc
          by_cases hlt : c < s.log.commits.length
          · rw [List.getElem?_append_left hlt] at hc
            exact hnot hc
          · rw [List.getElem?_append_right (by omega)] at hc
            rcases hk : c - s.log.commits.length with _ | k <;> simp [hk] at hc
    rw [hunder c (hopen c none hc')] at he
    rw [OnDisk, hdir]
    exact h.settled c hc' e he
  · intro op b hb e he
    rw [hunder b (hflying b .written (by rw [show s.io = _ from hb]; rfl))] at he
    rw [hdir, hseq]
    exact h.written op b hb e he
  · intro op b hb e he
    rw [hunder b (hflying b (.settling none) (by rw [show s.io = _ from hb]; rfl))] at he
    rw [OnDisk, hdir]
    exact h.settling op b hb e he

theorem rotate {s : State α} (h : Stored P Q s) (hio : s.io = none) (io : SealIO) :
    Stored P Q (rotate s io) := by
  have hcreate : ∀ (seq q : Nat) (b : Bool), q ∈ (s.log.dir.create seq).seqs →
      Stored P Q { s with
        log := { s.log with dir := s.log.dir.create seq, active := b, activeSeq := q } } := by
    intro seq q b hq
    refine ⟨hq, ?_, h.fly, h.pending, ?_, ?_, ?_⟩
    · intro f hf e he
      rcases Dir.mem_insertSeg hf with rfl | hf
      · simp at he
      · exact h.files f hf e he
    · intro c hc e he
      apply (h.settled c hc e he).imp_left
      rintro ⟨f, hf, hdur⟩
      exact ⟨f, Dir.mem_insertSeg_of_mem hf, hdur⟩
    · intro op b' hb'
      rw [show s.io = _ from hb'] at hio
      simp at hio
    · intro op b' hb'
      rw [show s.io = _ from hb'] at hio
      simp at hio
  have hfly : flyOf s.io = none := by rw [hio]; rfl
  unfold GroupCommit.rotate SegLog.rotate
  split_ifs
  · exact hcreate _ _ _ (Dir.mem_seqs_create.mpr (Or.inl rfl))
  · exact hcreate _ _ _ (Dir.mem_seqs_create.mpr (Or.inr h.active))
  · exact hcreate _ _ _ (Dir.mem_seqs_create.mpr (Or.inr h.active))
  · exact h.frame rfl rfl rfl rfl rfl hfly
  · exact h.frame rfl rfl rfl rfl rfl hfly
  · exact h

theorem mem_rotate {s : State α} {f : Segment α} (io : SealIO) (hf : f ∈ s.log.dir.segs) :
    f ∈ (GroupCommit.rotate s io).log.dir.segs := by
  unfold GroupCommit.rotate SegLog.rotate
  split_ifs
  · exact Dir.mem_insertSeg_of_mem hf
  · exact Dir.mem_insertSeg_of_mem hf
  · exact Dir.mem_insertSeg_of_mem hf
  · exact hf
  · exact hf
  · exact hf

/-- Sealing keeps everything synced. -/
theorem onDisk_seal {s : State α} {e : α} (hio : s.io = none) (io : SealIO)
    (h : OnDisk s e) : OnDisk (sealStep s io) e := by
  refine seal_keeps (I := fun s => OnDisk s e) hio io ?_ ?_ h
  · intro s sec t hs hsec hstep
    exact (extends_holder hsec hstep).onDisk e hs
  · rintro s - ⟨f, hf, he⟩
    exact ⟨f, mem_rotate io hf, he⟩

/-- Sealing removes no segment. -/
theorem seqs_seal {s : State α} {q : Nat} (hio : s.io = none) (io : SealIO)
    (h : q ∈ s.log.dir.seqs) : q ∈ (sealStep s io).log.dir.seqs := by
  refine seal_keeps (I := fun s => q ∈ s.log.dir.seqs) hio io ?_ ?_ h
  · intro s sec t hs hsec hstep
    rw [(extends_holder hsec hstep).seqs]
    exact hs
  · intro s _ hs
    obtain ⟨f, hf, rfl⟩ := Dir.mem_seqs.mp hs
    exact Dir.mem_seqs.mpr ⟨f, mem_rotate io hf, rfl⟩

theorem sealSegment {s : State α} (h : Stored P Q s) (hinv : Inv s) (hio : s.io = none)
    (io : SealIO) : Stored P Q (sealStep s io) := by
  have hboth := seal_keeps (I := fun s => Inv s ∧ Stored P Q s) hio io
    (fun s sec t hs hsec hstep =>
      ⟨inv_holder s sec t hs.1 hsec hstep, hs.2.holder hs.1 hsec hstep⟩)
    (fun s hio' hs => ⟨inv_rotate hs.1 hio' io, hs.2.rotate hio' io⟩) ⟨hinv, h⟩
  exact hboth.2

/-- Discarding is safe where the removed segments hold only records of `Q`. -/
theorem discard {s : State α} (h : Stored P Q s) (hio : s.io = none) (removes : Nat → Bool)
    (dirSynced : Bool) (upto : Nat)
    (hgone : ∀ f ∈ s.log.dir.segs, f.seq ≤ upto → f.seq ≠ s.log.activeSeq →
      ∀ e ∈ f.data, Q e) :
    Stored P Q { s with log := (s.log.discard removes dirSynced upto).1 } := by
  refine ⟨?_, ?_, ?_, ?_, ?_, ?_, ?_⟩
  · obtain ⟨f, hf, hseq⟩ := Dir.mem_seqs.mp h.active
    rw [SegLog.discard_activeSeq]
    exact Dir.mem_seqs.mpr ⟨f, SegLog.mem_discard_of_active hf hseq, hseq⟩
  · intro f hf e he
    exact h.files f (SegLog.of_mem_discard hf) e he
  · exact h.fly
  · intro e he
    rw [SegLog.discard_frame] at he
    exact h.pending e he
  · intro c hc e he
    have hc' : Answered s c none := by simpa [Answered, SegLog.discard_frame] using hc
    rcases h.settled c hc' e he with ⟨f, hf, hdur⟩ | hQ
    · rcases SegLog.mem_discard removes dirSynced upto hf with hmem | ⟨hle, hne⟩
      · exact Or.inl ⟨f, hmem, hdur⟩
      · exact Or.inr (hgone f hf hle hne e (Segment.mem_data_of_mem_durable hdur))
    · exact Or.inr hQ
  · intro op b hb
    rw [show s.io = _ from hb] at hio
    simp at hio
  · intro op b hb
    rw [show s.io = _ from hb] at hio
    simp at hio

end Stored

theorem enqueued_holder {s t : State α} {sec : Sec α} (hsec : sec.ofHolder = true)
    (hstep : step s sec = some t) : t.enqueued = s.enqueued :=
  (holderStep_of_step hsec hstep).enqueued_eq

theorem enqueued_seal {s : State α} (hio : s.io = none) (io : SealIO) :
    (sealStep s io).enqueued = s.enqueued := by
  refine seal_keeps (I := fun t => t.enqueued = s.enqueued) hio io ?_ (fun _ _ h => h) rfl
  intro t sec u ht hsec hstep
  rw [enqueued_holder hsec hstep, ht]

/-! ## Sealed segments -/

/-- A successful `Seal` returns a number below the new active segment. -/
theorem seal_ok {s : SegLog α} {io : SealIO} {seq : Nat}
    (h : (s.sealSegment io).2 = .ok seq) : seq < (s.sealSegment io).1.activeSeq := by
  unfold SegLog.sealSegment at h ⊢
  rcases hflush : s.flushPending io.batch with ⟨t, _ | err⟩
  · rw [hflush] at h
    simp only at h ⊢
    unfold SegLog.rotate at h ⊢
    split_ifs at h ⊢
    all_goals simp only [Except.ok.injEq] at h
    subst h
    exact Nat.lt_succ_self _
  · rw [hflush] at h
    simp at h

/-- The segments up to number `n` are not written any more, and `P` is true of their records. -/
structure Below (n : Nat) (P : α → Prop) (s : State α) : Prop where
  lt_active : n < s.log.activeSeq
  files : ∀ f ∈ s.log.dir.segs, f.seq ≤ n → ∀ e ∈ f.data, P e

namespace Below

variable {n : Nat} {s t : State α}

theorem mono {P' : α → Prop} (h : Below n P s) (hP : ∀ e, P e → P' e) : Below n P' s :=
  ⟨h.lt_active, fun f hf hle e he => hP e (h.files f hf hle e he)⟩

theorem extended (h : Below n P s) (hext : Stored.Extends s t) : Below n P t := by
  have hlt := h.lt_active
  refine ⟨hext.activeSeq ▸ hlt, ?_⟩
  intro x hx hle e he
  obtain ⟨f, hf, hseq, hdata⟩ := hext.below x hx (by omega)
  rw [hdata] at he
  exact h.files f hf (hseq ▸ hle) e he

/-- Rotation only adds an empty segment. -/
theorem rotate (h : Below n P s) (io : SealIO) : Below n P (rotate s io) := by
  have hcreate : ∀ (seq q : Nat) (b : Bool), n < q →
      Below n P { s with
        log := { s.log with dir := s.log.dir.create seq, active := b, activeSeq := q } } := by
    intro seq q b hq
    refine ⟨hq, ?_⟩
    intro f hf hle e he
    rcases Dir.mem_insertSeg hf with rfl | hf
    · simp at he
    · exact h.files f hf hle e he
  have hlt := h.lt_active
  unfold GroupCommit.rotate SegLog.rotate
  split_ifs
  · exact hcreate _ _ _ (by omega)
  · exact hcreate _ _ _ hlt
  · exact hcreate _ _ _ hlt
  · exact ⟨hlt, h.files⟩
  · exact ⟨hlt, h.files⟩
  · exact h

theorem sealSegment (h : Below n P s) (hio : s.io = none) (io : SealIO) :
    Below n P (sealStep s io) :=
  seal_keeps hio io (fun _ _ _ hs hsec hstep => hs.extended (Stored.extends_holder hsec hstep))
    (fun _ _ hs => hs.rotate io) h

theorem discard (h : Below n P s) (removes : Nat → Bool) (dirSynced : Bool) (upto : Nat) :
    Below n P { s with log := (s.log.discard removes dirSynced upto).1 } :=
  ⟨by simpa using h.lt_active, fun f hf => h.files f (SegLog.of_mem_discard hf)⟩

end Below

/-- What `seal` closes holds what the log held. -/
theorem Stored.below {s : State α} (h : Stored P Q s) (hinv : Inv s) (hio : s.io = none)
    {io : SealIO} {n : Nat} (hok : (s.log.sealSegment io).2 = .ok n) :
    Below n P (sealStep s io) := by
  refine ⟨?_, fun f hf _ => (h.sealSegment hinv hio io).files f hf⟩
  rw [log_sealStep]
  exact seal_ok hok

/-! ## Opening -/

/-- The records `Recover` returns: all segments, oldest first. -/
def recovered (log : SegLog α) : List α := log.dir.segs.flatMap Segment.data

theorem mem_recovered {log : SegLog α} {f : Segment α} {e : α} (hf : f ∈ log.dir.segs)
    (he : e ∈ f.data) : e ∈ recovered log := List.mem_flatMap.mpr ⟨f, hf, he⟩

theorem activeSeq_openSegLog (pfx : Bytes) (d : Dir α) :
    (openSegLog pfx d).activeSeq ∈ (openSegLog pfx d).dir.seqs :=
  Dir.mem_seqs_create.mpr (Or.inl rfl)

/-- What is synced survives a crash and the reopening. -/
theorem onDisk_crash {s : State α} {e : α} (h : OnDisk s e) (pfx : Bytes) (keep : Nat → Nat) :
    ∃ f ∈ (openSegLog pfx (s.log.dir.crash keep)).dir.segs, e ∈ f.durable := by
  obtain ⟨f, hf, he⟩ := h
  have hcrash : f.crash (keep f.seq) ∈ (s.log.dir.crash keep).segs :=
    Dir.mem_crash.mpr ⟨f, hf, rfl⟩
  exact ⟨_, mem_openSegLog hcrash, List.mem_append_left _ he⟩

/-- A log that was just opened, with `P` true of all it recovers. -/
theorem stored_start {log : SegLog α} (hactive : log.activeSeq ∈ log.dir.seqs)
    (hcommits : log.commits = []) (hpending : log.pending = [])
    (hP : ∀ e ∈ recovered log, P e) : Stored P Q (start log) where
  active := hactive
  files := fun _ hf _ he => hP _ (mem_recovered hf he)
  fly := by simp [start, flyOf, flyBuf]
  pending := by simp [start, hpending]
  settled := by
    intro c hc
    simp [Answered, start, hcommits] at hc
  written := by simp [start]
  settling := by simp [start]

end Shrimpd.Wal.GroupCommit
