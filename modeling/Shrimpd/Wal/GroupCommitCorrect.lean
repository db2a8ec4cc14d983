import Shrimpd.Wal.GroupCommitInv

/-!
# Group commit under every interleaving

The holder of `ioMu` moves a batch through `Core`'s stages; this file adds
which handle it works for, shows that every section preserves the whole, and
reads off the three guarantees of the commit protocol.
-/

namespace Shrimpd.Wal.GroupCommit

open Shrimpd.Lib Shrimpd.Lib.Exec

variable {α : Type}

/-! ## The holder of `ioMu` -/

def flyOf : Option (IoPC α) → Option (Nat × Fly α)
  | some (.taken _ b buf) => some (b, .taken buf)
  | some (.written _ b) => some (b, .written)
  | some (.settling _ b err) => some (b, .settling err)
  | _ => none

/-- Handle `c` was resolved with outcome `err`. -/
def Answered (s : State α) (c : Nat) (err : Option IOErr) : Prop :=
  s.log.commits[c]? = some ⟨true, err⟩

/-- A waiter that flushes is the leader of its own batch. -/
def HolderOk (s : State α) : Option (IoPC α) → Prop
  | some (.entered (.commitWait c)) => c < s.log.commits.length
  | some (.flushing (.commitWait c)) => s.log.cur = some c
  | some (.taken (.commitWait c) b _) => b = c
  | some (.written (.commitWait c) b) => b = c
  | some (.settling (.commitWait c) b _) => b = c
  | some (.leaving (.commitWait c) err) => Answered s c err
  | _ => True

structure Inv (s : State α) : Prop where
  core : Core s (flyOf s.io)
  holder : HolderOk s s.io
  returned : ∀ p ∈ s.returned, Answered s p.1 p.2

theorem Inv.core_of {s : State α} (h : Inv s) {pc : Option (IoPC α)} (hio : s.io = pc) :
    Core s (flyOf pc) := hio ▸ h.core

theorem Settled.answered {s : State α} {c : Nat} (h : Settled s c) :
    ∃ err, Answered s c err := by
  obtain ⟨err, -, hcommit, -⟩ := h
  exact ⟨err, hcommit⟩

theorem Answered.isDone {s : State α} {c : Nat} {err : Option IOErr}
    (h : Answered s c err) : s.log.isDone c = true := by
  rw [Answered] at h
  simp [SegLog.isDone, h]

theorem Open.isDone {s : State α} {c : Nat} (h : Open s c) : s.log.isDone c = false := by
  rw [Open] at h
  simp [SegLog.isDone, h]

theorem answered_of_isDone {s : State α} {c : Nat} (h : s.log.isDone c = true) :
    Answered s c (s.log.errOf c) := by
  unfold SegLog.isDone at h
  cases hc : s.log.commits[c]? with
  | none => simp [hc] at h
  | some commit =>
      obtain ⟨done, err⟩ := commit
      obtain rfl : done = true := by simpa [hc] using h
      simp [Answered, SegLog.errOf, hc]

theorem Answered.enqueue {s : State α} {c : Nat} {err : Option IOErr}
    (h : Answered s c err) (buf : List α) : Answered (enqueueStep s buf) c err := by
  have hlt : c < s.log.commits.length := by
    by_contra hge
    rw [Answered, List.getElem?_eq_none (by omega)] at h
    simp at h
  rw [Answered] at h ⊢
  simp only [enqueueStep, SegLog.enqueue]
  cases s.log.cur with
  | none => rw [List.getElem?_append_left hlt, h]
  | some _ => exact h

theorem Answered.resolve {s : State α} {b c : Nat} {err err' : Option IOErr}
    (h : Answered s c err) (hb : Open s b) :
    Answered { s with log := s.log.resolve b err' } c err := by
  have hne : b ≠ c := by
    rintro rfl
    rw [Answered, hb] at h
    simp at h
  rw [Answered] at h ⊢
  exact (List.getElem?_set_ne hne).trans h

theorem Core.open_of_fly {s : State α} {b : Nat} {st : Fly α}
    (h : Core s (some (b, st))) : Open s b := by
  have hf := h.flying b st rfl
  cases st with
  | taken buf => exact hf.1
  | written => exact hf.1
  | settling err => exact hf.1

/-- While nothing is in flight, an unresolved handle is the current batch. -/
theorem Core.cur_of_not_done {s : State α} {c : Nat} (h : Core s none)
    (hlt : c < s.log.commits.length) (hdone : s.log.isDone c = false) :
    s.log.cur = some c := by
  by_contra hne
  obtain ⟨err, hans⟩ := (h.settled c hlt hne (by simp)).answered
  rw [hans.isDone] at hdone
  simp at hdone

/-! ## Every section preserves the invariant -/

theorem inv_enqueue {s : State α} (h : Inv s) (buf : List α) : Inv (enqueueStep s buf) where
  core := h.core.enqueue buf
  holder := by
    have hio : (enqueueStep s buf).io = s.io := rfl
    have hcommits : s.log.commits.length ≤ (enqueueStep s buf).log.commits.length := by
      simp only [enqueueStep, SegLog.enqueue]
      cases s.log.cur <;> simp
    have hcur : ∀ c, s.log.cur = some c → (enqueueStep s buf).log.cur = some c := by
      intro c hc
      simp [enqueueStep, SegLog.enqueue, hc]
    have hold := h.holder
    rw [hio]
    rcases hs : s.io with _ | pc
    · trivial
    · rw [hs] at hold
      cases pc with
      | entered op => cases op <;> [exact Nat.lt_of_lt_of_le hold hcommits; trivial; trivial]
      | flushing op => cases op <;> [exact hcur _ hold; trivial; trivial]
      | taken op b buf => cases op <;> exact hold
      | written op b => cases op <;> exact hold
      | settling op b err => cases op <;> exact hold
      | leaving op err =>
          cases op <;> [exact Answered.enqueue (s := s) hold buf; trivial; trivial]
  returned := fun p hp => (h.returned p hp).enqueue buf

theorem inv_check {s : State α} {op : IoOp} (h : Inv s) (hio : s.io = some (.entered op)) :
    ∀ t, step s .check = some t → Inv t := by
  intro t hstep
  have hcore : Core s none := h.core_of hio
  have hold := h.holder
  rw [hio] at hold
  cases op with
  | commitWait c =>
      simp only [step, hio] at hstep
      split_ifs at hstep with hdone
      · obtain rfl := Option.some.inj hstep
        exact ⟨hcore.frame rfl rfl rfl rfl rfl rfl, answered_of_isDone hdone, h.returned⟩
      · obtain rfl := Option.some.inj hstep
        have hcur := hcore.cur_of_not_done hold (by simpa using hdone)
        exact ⟨hcore.frame rfl rfl rfl rfl rfl rfl, hcur, h.returned⟩
  | forEachLine =>
      simp only [step, hio] at hstep
      obtain rfl := Option.some.inj hstep
      exact ⟨hcore.frame rfl rfl rfl rfl rfl rfl, trivial, h.returned⟩
  | close =>
      simp only [step, hio] at hstep
      obtain rfl := Option.some.inj hstep
      exact ⟨hcore.frame rfl rfl rfl rfl rfl rfl, trivial, h.returned⟩

theorem inv_take {s : State α} {op : IoOp} (h : Inv s) (hio : s.io = some (.flushing op)) :
    ∀ t, step s .take = some t → Inv t := by
  intro t hstep
  have hcore : Core s none := h.core_of hio
  have hold := h.holder
  rw [hio] at hold
  cases hcur : s.log.cur with
  | none =>
      simp only [step, hio, hcur] at hstep
      obtain rfl := Option.some.inj hstep
      refine ⟨hcore.frame rfl rfl rfl rfl rfl rfl, ?_, h.returned⟩
      cases op with
      | commitWait c =>
          -- A leader never finds the batch gone: it is the batch.
          rw [HolderOk, hcur] at hold
          simp at hold
      | forEachLine => trivial
      | close => trivial
  | some b =>
      simp only [step, hio, hcur] at hstep
      obtain rfl := Option.some.inj hstep
      refine ⟨(hcore.take hcur).frame rfl rfl rfl rfl rfl rfl, ?_, h.returned⟩
      cases op with
      | commitWait c =>
          rw [HolderOk, hcur] at hold
          exact Option.some.inj hold
      | forEachLine => trivial
      | close => trivial

theorem inv_write {s : State α} {op : IoOp} {b : Nat} {buf : List α} (h : Inv s)
    (hio : s.io = some (.taken op b buf)) (torn : Option Nat) :
    ∀ t, step s (.write torn) = some t → Inv t := by
  intro t hstep
  have hcore : Core s (some (b, .taken buf)) := h.core_of hio
  have hwrite := hcore.write torn
  have hold := h.holder
  rw [hio] at hold
  simp only [step, hio] at hstep
  obtain rfl := Option.some.inj hstep
  refine ⟨?_, ?_, ?_⟩
  · cases herr : (s.log.write torn buf).2 <;> rw [herr] at hwrite <;>
      exact hwrite.frame rfl rfl rfl rfl rfl rfl
  · cases herr : (s.log.write torn buf).2 <;> cases op <;> exact hold
  · intro p hp
    simpa [Answered, recordWrite] using h.returned p hp

theorem inv_fsync {s : State α} {op : IoOp} {b : Nat} (h : Inv s)
    (hio : s.io = some (.written op b)) (synced : Bool) :
    ∀ t, step s (.fsync synced) = some t → Inv t := by
  intro t hstep
  have hcore : Core s (some (b, .written)) := h.core_of hio
  have hold := h.holder
  rw [hio] at hold
  simp only [step, hio] at hstep
  obtain rfl := Option.some.inj hstep
  refine ⟨(hcore.sync synced).frame rfl rfl rfl rfl rfl rfl, ?_, ?_⟩
  · cases op <;> exact hold
  · intro p hp
    simpa [Answered, recordSync] using h.returned p hp

theorem inv_resolve {s : State α} {op : IoOp} {b : Nat} {err : Option IOErr} (h : Inv s)
    (hio : s.io = some (.settling op b err)) :
    ∀ t, step s .resolve = some t → Inv t := by
  intro t hstep
  have hcore : Core s (some (b, .settling err)) := h.core_of hio
  have hopen := hcore.open_of_fly
  have hlt : b < s.log.commits.length := by
    have := hcore.fly_last b _ rfl
    omega
  have hold := h.holder
  rw [hio] at hold
  simp only [step, hio] at hstep
  obtain rfl := Option.some.inj hstep
  refine ⟨hcore.resolve.frame rfl rfl rfl rfl rfl rfl, ?_, ?_⟩
  · cases op with
    | commitWait c =>
        obtain rfl : b = c := hold
        have hans : (s.log.resolve b err).commits[b]? = some ⟨true, err⟩ :=
          List.getElem?_set_self hlt
        have hresult : result (.commitWait b) err (s.log.resolve b err) = err := by
          cases err with
          | none => simp [result, SegLog.errOf, hans]
          | some e => rfl
        show (s.log.resolve b err).commits[b]? = _
        rw [hresult, hans]
    | forEachLine => trivial
    | close => trivial
  · intro p hp
    exact (h.returned p hp).resolve hopen

theorem inv_unlock {s : State α} {op : IoOp} {err : Option IOErr} (h : Inv s)
    (hio : s.io = some (.leaving op err)) :
    ∀ t, step s .unlock = some t → Inv t := by
  intro t hstep
  have hcore : Core s none := h.core_of hio
  have hold := h.holder
  rw [hio] at hold
  cases op with
  | commitWait c =>
      simp only [step, hio] at hstep
      obtain rfl := Option.some.inj hstep
      refine ⟨hcore.frame rfl rfl rfl rfl rfl rfl, trivial, ?_⟩
      intro p hp
      rcases List.mem_append.mp hp with hp | hp
      · exact h.returned p hp
      · obtain rfl := List.mem_singleton.mp hp
        exact hold
  | forEachLine =>
      simp only [step, hio] at hstep
      obtain rfl := Option.some.inj hstep
      exact ⟨hcore.frame rfl rfl rfl rfl rfl rfl, trivial, h.returned⟩
  | close =>
      simp only [step, hio] at hstep
      obtain rfl := Option.some.inj hstep
      exact ⟨hcore.frame rfl rfl rfl rfl rfl rfl, trivial, h.returned⟩

theorem inv_lock {s : State α} {op : IoOp} (h : Inv s) :
    ∀ t, step s (.lock op) = some t → Inv t := by
  intro t hstep
  cases hio : s.io with
  | some pc => cases op <;> simp [step, hio] at hstep
  | none =>
      have hcore : Core s none := h.core_of hio
      cases op with
      | commitWait c =>
          simp only [step, hio] at hstep
          split_ifs at hstep with hlt
          obtain rfl := Option.some.inj hstep
          exact ⟨hcore.frame rfl rfl rfl rfl rfl rfl, hlt, h.returned⟩
      | forEachLine =>
          simp only [step, hio] at hstep
          obtain rfl := Option.some.inj hstep
          exact ⟨hcore.frame rfl rfl rfl rfl rfl rfl, trivial, h.returned⟩
      | close =>
          simp only [step, hio] at hstep
          obtain rfl := Option.some.inj hstep
          exact ⟨hcore.frame rfl rfl rfl rfl rfl rfl, trivial, h.returned⟩

/-- The holder's sections; the program counter determines which one is enabled. -/
theorem inv_holder (s : State α) (sec : Sec α) (t : State α) (h : Inv s)
    (hsec : sec.ofHolder = true) (hstep : step s sec = some t) : Inv t := by
  cases sec with
  | enqueue buf => simp [Sec.ofHolder] at hsec
  | sealSegment io => simp [Sec.ofHolder] at hsec
  | discard removes dirSynced upto => simp [Sec.ofHolder] at hsec
  | lock op => exact inv_lock h t hstep
  | check =>
      rcases hio : s.io with _ | ⟨op⟩ | _ | _ | _ | _ | _
      case some.entered => exact inv_check h hio t hstep
      all_goals simp [step, hio] at hstep
  | take =>
      rcases hio : s.io with _ | _ | ⟨op⟩ | _ | _ | _ | _
      case some.flushing => exact inv_take h hio t hstep
      all_goals simp [step, hio] at hstep
  | write torn =>
      rcases hio : s.io with _ | _ | _ | ⟨op, b, buf⟩ | _ | _ | _
      case some.taken => exact inv_write h hio torn t hstep
      all_goals simp [step, hio] at hstep
  | fsync synced =>
      rcases hio : s.io with _ | _ | _ | _ | ⟨op, b⟩ | _ | _
      case some.written => exact inv_fsync h hio synced t hstep
      all_goals simp [step, hio] at hstep
  | resolve =>
      rcases hio : s.io with _ | _ | _ | _ | _ | ⟨op, b, err⟩ | _
      case some.settling => exact inv_resolve h hio t hstep
      all_goals simp [step, hio] at hstep
  | unlock =>
      rcases hio : s.io with _ | _ | _ | _ | _ | _ | ⟨op, err⟩
      case some.leaving => exact inv_unlock h hio t hstep
      all_goals simp [step, hio] at hstep

theorem inv_rotate {s : State α} (h : Inv s) (hio : s.io = none) (io : SealIO) :
    Inv (rotate s io) where
  core := by
    apply h.core.frame <;> simp [rotate]
  holder := by
    rw [show (rotate s io).io = none from hio]
    trivial
  returned := by
    intro p hp
    simpa [Answered, rotate] using h.returned p hp

theorem inv_seal {s : State α} (h : Inv s) (hio : s.io = none) (io : SealIO) :
    Inv (sealStep s io) :=
  seal_keeps hio io inv_holder (fun _ hio' hs => inv_rotate hs hio' io) h

theorem inv_discard {s : State α} (h : Inv s) (hio : s.io = none) (removes : Nat → Bool)
    (dirSynced : Bool) (upto : Nat) :
    Inv { s with log := (s.log.discard removes dirSynced upto).1 } where
  core := by
    have hcore : Core s none := h.core_of hio
    simp only [hio, SegLog.discard_frame]
    exact hcore.frame rfl rfl rfl rfl rfl rfl
  holder := by
    simp only [hio]
    trivial
  returned := by
    intro p hp
    simpa [Answered, SegLog.discard_frame] using h.returned p hp

theorem inv_step (s : State α) (sec : Sec α) (t : State α) (h : Inv s)
    (hstep : step s sec = some t) : Inv t := by
  by_cases hsec : sec.ofHolder = true
  · exact inv_holder s sec t h hsec hstep
  · cases sec with
    | enqueue buf =>
        obtain rfl := Option.some.inj hstep
        exact inv_enqueue h buf
    | sealSegment io =>
        cases hio : s.io with
        | some pc => simp [step, hio] at hstep
        | none =>
            simp only [step, hio] at hstep
            obtain rfl := Option.some.inj hstep
            exact inv_seal h hio io
    | discard removes dirSynced upto =>
        cases hio : s.io with
        | some pc => simp [step, hio] at hstep
        | none =>
            simp only [step, hio] at hstep
            obtain rfl := Option.some.inj hstep
            have hinv := inv_discard h hio removes dirSynced upto
            rwa [hio] at hinv
    | _ => exact absurd rfl hsec

theorem inv_start (pfx : Bytes) (d : Dir α) : Inv (start (openSegLog pfx d)) where
  core := core_start rfl rfl rfl
  holder := trivial
  returned := fun _ hp => by simp [start] at hp

/-! ## The guarantees -/

theorem Core.writesOf_eq {s : State α} {fly : Option (Nat × Fly α)} (h : Core s fly)
    (c : Nat) : writesOf s c = [] ∨ ∃ ok, writesOf s c = [⟨c, enqueuedUnder s c, ok⟩] := by
  by_cases hlt : c < s.log.commits.length
  · by_cases hcur : s.log.cur = some c
    · exact Or.inl (h.waiting c hcur).2.1
    · by_cases hfly : ∃ st, fly = some (c, st)
      · obtain ⟨st, hst⟩ := hfly
        have hflying := h.flying c st hst
        cases st with
        | taken buf => exact Or.inl hflying.2.1
        | written => exact Or.inr ⟨true, hflying.2.1⟩
        | settling err =>
            obtain ⟨-, ok, hwrites, -⟩ := hflying
            exact Or.inr ⟨ok, hwrites⟩
      · obtain ⟨-, ok, -, hwrites, -⟩ :=
          h.settled c hlt hcur fun st hst => hfly ⟨st, hst⟩
        exact Or.inr ⟨ok, hwrites⟩
  · apply Or.inl
    apply writesOf_eq_nil
    intro w hw
    have := h.writes_handles w hw
    omega

/-- A resolved handle is neither waiting nor in flight. -/
theorem Core.settled_of_isDone {s : State α} {fly : Option (Nat × Fly α)} {c : Nat}
    (h : Core s fly) (hdone : s.log.isDone c = true) : Settled s c := by
  have hlt : c < s.log.commits.length := by
    by_contra hge
    rw [SegLog.isDone, List.getElem?_eq_none (by omega)] at hdone
    simp at hdone
  apply h.settled c hlt
  · intro hcur
    have hopen : s.log.isDone c = false := (h.waiting c hcur).1.isDone
    rw [hdone] at hopen
    exact Bool.noConfusion hopen
  · rintro st rfl
    have hopen : s.log.isDone c = false := h.open_of_fly.isDone
    rw [hdone] at hopen
    exact Bool.noConfusion hopen

/-- The outcome stored in a settled handle is that of its batch's own I/O. -/
theorem Settled.persisted_iff {s : State α} {c : Nat} {err : Option IOErr}
    (h : Settled s c) (hans : Answered s c err) : err = none ↔ Persisted s c := by
  obtain ⟨err', ok, hcommit, hwrites, hiff⟩ := h
  obtain rfl : err' = err := by
    rw [Answered, hcommit] at hans
    simpa using hans
  have hok : (∃ w ∈ s.writes, w.batch = c ∧ w.ok = true) ↔ ok = true := by
    constructor
    · rintro ⟨w, hw, hbatch, hwok⟩
      have hmem : w ∈ writesOf s c := mem_writesOf.mpr ⟨hw, hbatch⟩
      rw [hwrites, List.mem_singleton] at hmem
      rw [hmem] at hwok
      exact hwok
    · intro htrue
      have hmem : ⟨c, enqueuedUnder s c, ok⟩ ∈ writesOf s c := by simp [hwrites]
      obtain ⟨hw, hbatch⟩ := mem_writesOf.mp hmem
      exact ⟨_, hw, hbatch, htrue⟩
  rw [hiff, Persisted, hok]

/-- What the commit protocol promises its callers. -/
structure Guarantees (s : State α) : Prop where
  /-- The remark in `commitWait`: with `ioMu` free, an open handle is `cur`. -/
  open_is_cur : s.io = none → ∀ c < s.log.commits.length,
    s.log.isDone c = false → s.log.cur = some c
  /-- All that was enqueued under a handle goes to one write, or to none yet. -/
  one_write : ∀ c, writesOf s c = [] ∨ ∃ ok, writesOf s c = [⟨c, enqueuedUnder s c, ok⟩]
  done_written : ∀ c, s.log.isDone c = true →
    ∃ ok, writesOf s c = [⟨c, enqueuedUnder s c, ok⟩]
  /-- The writes so far, the buffer being written and `pending` are together
  the enqueued strings in enqueue order. -/
  in_order : s.writes.flatMap SegWrite.buf ++ flyBuf (flyOf s.io) ++ s.log.pending =
    s.enqueued.flatMap Prod.snd
  handles_in_order : (s.enqueued.map Prod.fst).Pairwise (· ≤ ·) ∧
    (s.writes.map SegWrite.batch).Pairwise (· < ·)
  returned_nil : ∀ p ∈ s.returned, p.2 = none ↔ Persisted s p.1

theorem guarantees_of_inv {s : State α} (h : Inv s) : Guarantees s where
  open_is_cur := by
    intro hio c hlt hdone
    have hcore : Core s none := h.core_of hio
    exact hcore.cur_of_not_done hlt hdone
  one_write := h.core.writesOf_eq
  done_written := by
    intro c hdone
    obtain ⟨-, ok, -, hwrites, -⟩ := h.core.settled_of_isDone hdone
    exact ⟨ok, hwrites⟩
  in_order := h.core.units
  handles_in_order := ⟨h.core.enqueued_sorted, h.core.writes_sorted⟩
  returned_nil := by
    intro p hp
    have hans := h.returned p hp
    exact (h.core.settled_of_isDone hans.isDone).persisted_iff hans

/-- Group commit is correct under every interleaving of its sections and every
outcome of the writes and fsyncs. -/
theorem group_commit_correct (pfx : Bytes) (d : Dir α) (secs : List (Sec α)) (s : State α)
    (hrun : exec step (start (openSegLog pfx d)) secs = some s) : Guarantees s :=
  guarantees_of_inv (invariant inv_step (inv_start pfx d) hrun)

/-- Two writers share batch 0 and a third enqueues while it is being written;
the fsync of the third's batch then fails. -/
def threeWriters : List (Sec UInt8) :=
  [.enqueue [1], .enqueue [2], .lock (.commitWait 0), .check, .take, .enqueue [3],
    .write none, .fsync true, .resolve, .unlock, .lock (.commitWait 0), .check, .unlock,
    .lock (.commitWait 1), .check, .take, .write none, .fsync false, .resolve, .unlock]

theorem group_commit_correct_threeWriters :
    ∃ s, exec step (start (openSegLog (ascii "wal") (Dir.fresh none))) threeWriters = some s ∧
      s.returned = [(0, none), (0, none), (1, some .fsync)] ∧
      s.writes = [⟨0, [1, 2], true⟩, ⟨1, [3], true⟩] ∧ Guarantees s :=
  ⟨_, rfl, rfl, rfl, group_commit_correct _ _ threeWriters _ rfl⟩

end Shrimpd.Wal.GroupCommit
