import Shrimpd.Wal.GroupCommit

/-!
# Every batch is written once and its outcome reported to every waiter

A handle is in exactly one of three places: it is the current batch, it is in
flight between the holder's snapshot and its resolution, or it is settled.
`Core` states this together with the bookkeeping of the segment writes; the
primitive moves of the sections preserve it, and the program counter adds only
which handle the holder is working for.
-/

namespace Shrimpd.Wal.GroupCommit

open Shrimpd.Lib Shrimpd.Lib.Exec

variable {α : Type}

/-! ## The history of one handle -/

/-- The strings enqueued under handle `c`, concatenated in enqueue order. -/
def enqueuedUnder (s : State α) (c : Nat) : List α :=
  (s.enqueued.filter fun p => p.1 == c).flatMap Prod.snd

/-- The segment writes that carried batch `c`. -/
def writesOf (s : State α) (c : Nat) : List (SegWrite α) :=
  s.writes.filter fun w => w.batch == c

/-- The write and the fsync of batch `c` both succeeded. -/
def Persisted (s : State α) (c : Nat) : Prop :=
  (∃ w ∈ s.writes, w.batch = c ∧ w.ok = true) ∧ (c, true) ∈ s.syncs

/-- Progress of the batch in flight. -/
inductive Fly (α : Type) where
  | taken (buf : List α)
  | written
  | settling (err : Option IOErr)

def Open (s : State α) (c : Nat) : Prop := s.log.commits[c]? = some ⟨false, none⟩

def Waiting (s : State α) (c : Nat) (buf : List α) : Prop :=
  Open s c ∧ writesOf s c = [] ∧ enqueuedUnder s c = buf ∧ (c, true) ∉ s.syncs

def Flying (s : State α) (b : Nat) : Fly α → Prop
  | .taken buf => Waiting s b buf
  | .written =>
      Open s b ∧ writesOf s b = [⟨b, enqueuedUnder s b, true⟩] ∧ (b, true) ∉ s.syncs
  | .settling err =>
      Open s b ∧ ∃ ok, writesOf s b = [⟨b, enqueuedUnder s b, ok⟩] ∧
        (err = none ↔ ok = true ∧ (b, true) ∈ s.syncs)

def Settled (s : State α) (c : Nat) : Prop :=
  ∃ err ok, s.log.commits[c]? = some ⟨true, err⟩ ∧
    writesOf s c = [⟨c, enqueuedUnder s c, ok⟩] ∧
    (err = none ↔ ok = true ∧ (c, true) ∈ s.syncs)

/-- Units taken from `pending` and not yet handed to a write. -/
def flyBuf : Option (Nat × Fly α) → List α
  | some (_, .taken buf) => buf
  | _ => []

structure Core (s : State α) (fly : Option (Nat × Fly α)) : Prop where
  cur_last : ∀ c, s.log.cur = some c → c + 1 = s.log.commits.length
  fly_last : ∀ b st, fly = some (b, st) →
    b + 1 + (if s.log.cur.isSome then 1 else 0) = s.log.commits.length
  pending_nil : s.log.cur = none → s.log.pending = []
  waiting : ∀ c, s.log.cur = some c → Waiting s c s.log.pending
  flying : ∀ b st, fly = some (b, st) → Flying s b st
  settled : ∀ c < s.log.commits.length, s.log.cur ≠ some c →
    (∀ st, fly ≠ some (c, st)) → Settled s c
  handles : ∀ p ∈ s.enqueued, p.1 < s.log.commits.length
  enqueued_sorted : (s.enqueued.map Prod.fst).Pairwise (· ≤ ·)
  writes_handles : ∀ w ∈ s.writes, w.batch < s.log.commits.length
  writes_sorted : (s.writes.map SegWrite.batch).Pairwise (· < ·)
  syncs_handles : ∀ p ∈ s.syncs, p.1 < s.log.commits.length
  units : s.writes.flatMap SegWrite.buf ++ flyBuf fly ++ s.log.pending =
    s.enqueued.flatMap Prod.snd

theorem mem_writesOf {s : State α} {c : Nat} {w : SegWrite α} :
    w ∈ writesOf s c ↔ w ∈ s.writes ∧ w.batch = c := by
  simp [writesOf]

theorem enqueuedUnder_eq_nil {s : State α} {c : Nat}
    (h : ∀ p ∈ s.enqueued, p.1 ≠ c) : enqueuedUnder s c = [] := by
  have hnil : (s.enqueued.filter fun p => p.1 == c) = [] := by
    rw [List.filter_eq_nil_iff]
    intro p hp
    simp [h p hp]
  simp [enqueuedUnder, hnil]

theorem writesOf_eq_nil {s : State α} {c : Nat}
    (h : ∀ w ∈ s.writes, w.batch ≠ c) : writesOf s c = [] := by
  rw [writesOf, List.filter_eq_nil_iff]
  intro w hw
  simp [h w hw]

/-- Two states agree on everything recorded about handle `c`. -/
structure SameHandle (s t : State α) (c : Nat) : Prop where
  commit : t.log.commits[c]? = s.log.commits[c]?
  writes : writesOf t c = writesOf s c
  enqueued : enqueuedUnder t c = enqueuedUnder s c
  syncs : (c, true) ∈ t.syncs ↔ (c, true) ∈ s.syncs

namespace SameHandle

variable {s t : State α} {c : Nat}

theorem waiting (h : SameHandle s t c) {buf : List α} (hw : Waiting s c buf) :
    Waiting t c buf := by
  obtain ⟨hopen, hwrites, henq, hsync⟩ := hw
  exact ⟨h.commit.trans hopen, h.writes.trans hwrites, h.enqueued.trans henq,
    fun hmem => hsync (h.syncs.mp hmem)⟩

theorem flying (h : SameHandle s t c) {st : Fly α} (hf : Flying s c st) :
    Flying t c st := by
  cases st with
  | taken buf => exact h.waiting hf
  | written =>
      obtain ⟨hopen, hwrites, hsync⟩ := hf
      refine ⟨h.commit.trans hopen, ?_, fun hmem => hsync (h.syncs.mp hmem)⟩
      rw [h.writes, h.enqueued, hwrites]
  | settling err =>
      obtain ⟨hopen, ok, hwrites, herr⟩ := hf
      refine ⟨h.commit.trans hopen, ok, ?_, ?_⟩
      · rw [h.writes, h.enqueued, hwrites]
      · rw [h.syncs, herr]

theorem settled (h : SameHandle s t c) (hs : Settled s c) : Settled t c := by
  obtain ⟨err, ok, hcommit, hwrites, herr⟩ := hs
  refine ⟨err, ok, h.commit.trans hcommit, ?_, ?_⟩
  · rw [h.writes, h.enqueued, hwrites]
  · rw [h.syncs, herr]

end SameHandle

theorem enqueuedUnder_append {s t : State α} {b c : Nat} {buf : List α}
    (h : t.enqueued = s.enqueued ++ [(b, buf)]) :
    enqueuedUnder t c = enqueuedUnder s c ++ if b = c then buf else [] := by
  unfold enqueuedUnder
  rw [h, List.filter_append, List.flatMap_append]
  by_cases hbc : b = c <;> simp [hbc]

theorem writesOf_append {s t : State α} {c : Nat} {w : SegWrite α}
    (h : t.writes = s.writes ++ [w]) :
    writesOf t c = writesOf s c ++ if w.batch = c then [w] else [] := by
  unfold writesOf
  rw [h, List.filter_append]
  by_cases hwc : w.batch = c <;> simp [hwc]

/-! ## The primitive moves preserve the invariant -/

theorem core_start {log : SegLog α} (hcommits : log.commits = []) (hcur : log.cur = none)
    (hpending : log.pending = []) : Core (start log) none where
  cur_last := by simp [start, hcur]
  fly_last := by simp
  pending_nil := fun _ => hpending
  waiting := by simp [start, hcur]
  flying := by simp
  settled := by simp [start, hcommits]
  handles := by simp [start]
  enqueued_sorted := by simp [start]
  writes_handles := by simp [start]
  writes_sorted := by simp [start]
  syncs_handles := by simp [start]
  units := by simp [start, flyBuf, hpending]

/-- Moves that only touch the files and the active handle. -/
theorem Core.frame {s t : State α} {fly : Option (Nat × Fly α)} (h : Core s fly)
    (hcommits : t.log.commits = s.log.commits) (hcur : t.log.cur = s.log.cur)
    (hpending : t.log.pending = s.log.pending) (henq : t.enqueued = s.enqueued)
    (hwrites : t.writes = s.writes) (hsyncs : t.syncs = s.syncs) : Core t fly := by
  have hsame : ∀ c, SameHandle s t c := fun c =>
    ⟨by rw [hcommits], by rw [writesOf, hwrites, writesOf],
      by rw [enqueuedUnder, henq, enqueuedUnder], by rw [hsyncs]⟩
  constructor
  · intro c hc
    rw [hcommits]
    exact h.cur_last c (hcur ▸ hc)
  · intro b st hb
    rw [hcommits, hcur]
    exact h.fly_last b st hb
  · intro hnone
    rw [hpending]
    exact h.pending_nil (hcur ▸ hnone)
  · intro c hc
    rw [hpending]
    exact (hsame c).waiting (h.waiting c (hcur ▸ hc))
  · intro b st hb
    exact (hsame b).flying (h.flying b st hb)
  · intro c hlt hne hfly
    rw [hcommits] at hlt
    exact (hsame c).settled (h.settled c hlt (hcur ▸ hne) hfly)
  · rw [henq, hcommits]
    exact h.handles
  · rw [henq]
    exact h.enqueued_sorted
  · rw [hwrites, hcommits]
    exact h.writes_handles
  · rw [hwrites]
    exact h.writes_sorted
  · rw [hsyncs, hcommits]
    exact h.syncs_handles
  · rw [hwrites, hpending, henq]
    exact h.units

/-- `enqueue` as a move of the whole state. -/
def enqueueStep (s : State α) (buf : List α) : State α :=
  { s with
    log := (s.log.enqueue buf).1
    enqueued := s.enqueued ++ [((s.log.enqueue buf).2, buf)] }

theorem Core.ne_cur_of_fly {s : State α} {b c : Nat} {st : Fly α}
    (h : Core s (some (b, st))) (hc : s.log.cur = some c) : b + 1 = c := by
  have hb := h.fly_last b st rfl
  have hlast := h.cur_last c hc
  simp only [hc, Option.isSome_some, if_true] at hb
  omega

private theorem core_enqueue_open {s : State α} {fly : Option (Nat × Fly α)} {c : Nat}
    (h : Core s fly) (hc : s.log.cur = some c) (buf : List α) :
    Core (enqueueStep s buf) fly := by
  have hlog : (s.log.enqueue buf).1 = { s.log with pending := s.log.pending ++ buf } := by
    simp [SegLog.enqueue, hc]
  have hhandle : (s.log.enqueue buf).2 = c := by simp [SegLog.enqueue, hc]
  have henq : (enqueueStep s buf).enqueued = s.enqueued ++ [(c, buf)] := by
    simp [enqueueStep, hhandle]
  have hlast := h.cur_last c hc
  have hsame : ∀ c', c' ≠ c → SameHandle s (enqueueStep s buf) c' := by
    intro c' hne
    refine ⟨by simp [enqueueStep, hlog], rfl, ?_, Iff.rfl⟩
    rw [enqueuedUnder_append henq, if_neg (Ne.symm hne), List.append_nil]
  constructor
  · intro c' hc'
    simp only [enqueueStep, hlog] at hc' ⊢
    exact h.cur_last c' hc'
  · intro b st hb
    simp only [enqueueStep, hlog]
    exact h.fly_last b st hb
  · intro hnone
    simp only [enqueueStep, hlog, hc] at hnone
    contradiction
  · intro c' hc'
    obtain rfl : c = c' := by simpa [enqueueStep, hlog, hc] using hc'
    obtain ⟨hopen, hwrites, hunder, hsync⟩ := h.waiting c hc
    refine ⟨by simpa [Open, enqueueStep, hlog] using hopen, hwrites, ?_, hsync⟩
    rw [enqueuedUnder_append henq, if_pos rfl, hunder]
    simp [enqueueStep, hlog]
  · intro b st hb
    subst hb
    have hne : b ≠ c := by
      have := h.ne_cur_of_fly hc
      omega
    exact (hsame b hne).flying (h.flying b st rfl)
  · intro c' hlt hne hfly
    simp only [enqueueStep, hlog] at hlt hne
    have hc' : c' ≠ c := fun heq => hne (heq ▸ hc)
    exact (hsame c' hc').settled (h.settled c' hlt hne hfly)
  · intro p hp
    rw [henq, List.mem_append, List.mem_singleton] at hp
    simp only [enqueueStep, hlog]
    rcases hp with hp | rfl
    · exact h.handles p hp
    · show c < _
      omega
  · rw [henq, List.map_append, List.pairwise_append]
    refine ⟨h.enqueued_sorted, by simp, ?_⟩
    intro a ha b hb
    obtain ⟨p, hp, rfl⟩ := List.mem_map.mp ha
    obtain rfl : b = c := by simpa using hb
    have := h.handles p hp
    omega
  · simp only [enqueueStep, hlog]
    exact h.writes_handles
  · exact h.writes_sorted
  · simp only [enqueueStep, hlog]
    exact h.syncs_handles
  · have hunits := h.units
    rw [henq]
    simp only [enqueueStep, hlog, List.flatMap_append, List.flatMap_cons,
      List.flatMap_nil, List.append_nil]
    rw [← hunits, List.append_assoc _ s.log.pending]

private theorem core_enqueue_fresh {s : State α} {fly : Option (Nat × Fly α)}
    (h : Core s fly) (hc : s.log.cur = none) (buf : List α) :
    Core (enqueueStep s buf) fly := by
  have hlog : (s.log.enqueue buf).1 =
      { s.log with
        cur := some s.log.commits.length
        commits := s.log.commits ++ [⟨false, none⟩]
        pending := s.log.pending ++ buf } := by
    simp [SegLog.enqueue, hc]
  have hhandle : (s.log.enqueue buf).2 = s.log.commits.length := by
    simp [SegLog.enqueue, hc]
  have henq : (enqueueStep s buf).enqueued =
      s.enqueued ++ [(s.log.commits.length, buf)] := by
    simp [enqueueStep, hhandle]
  have hnil := h.pending_nil hc
  have hsame : ∀ c', c' < s.log.commits.length →
      SameHandle s (enqueueStep s buf) c' := by
    intro c' hlt
    refine ⟨?_, rfl, ?_, Iff.rfl⟩
    · simp only [enqueueStep, hlog]
      rw [List.getElem?_append_left hlt]
    · rw [enqueuedUnder_append henq, if_neg (by omega), List.append_nil]
  constructor
  · intro c' hc'
    simp only [enqueueStep, hlog, Option.some.injEq, List.length_append,
      List.length_singleton] at hc' ⊢
    omega
  · intro b st hb
    have := h.fly_last b st hb
    simp only [enqueueStep, hlog, hc, Option.isSome_none, Option.isSome_some,
      List.length_append, List.length_singleton, if_true] at this ⊢
    simp only [Bool.false_eq_true, if_false] at this
    omega
  · intro hnone
    simp [enqueueStep, hlog] at hnone
  · intro c' hc'
    obtain rfl : s.log.commits.length = c' := by simpa [enqueueStep, hlog] using hc'
    refine ⟨by simp [Open, enqueueStep, hlog], ?_, ?_, ?_⟩
    · apply writesOf_eq_nil
      intro w hw
      exact (h.writes_handles w hw).ne
    · rw [enqueuedUnder_append henq, if_pos rfl, enqueuedUnder_eq_nil]
      · simp [enqueueStep, hlog, hnil]
      · intro p hp
        exact (h.handles p hp).ne
    · intro hmem
      exact absurd (h.syncs_handles _ hmem) (by simp)
  · intro b st hb
    have hlt : b < s.log.commits.length := by
      have := h.fly_last b st hb
      omega
    exact (hsame b hlt).flying (h.flying b st hb)
  · intro c' hlt hne hfly
    simp only [enqueueStep, hlog, List.length_append, List.length_singleton,
      ne_eq, Option.some.injEq] at hlt hne
    have hlt' : c' < s.log.commits.length := by omega
    exact (hsame c' hlt').settled (h.settled c' hlt' (by simp [hc]) hfly)
  · intro p hp
    rw [henq, List.mem_append, List.mem_singleton] at hp
    simp only [enqueueStep, hlog, List.length_append, List.length_singleton]
    rcases hp with hp | rfl
    · have := h.handles p hp
      omega
    · exact Nat.lt_succ_self _
  · rw [henq, List.map_append, List.pairwise_append]
    refine ⟨h.enqueued_sorted, by simp, ?_⟩
    intro a ha b hb
    obtain ⟨p, hp, rfl⟩ := List.mem_map.mp ha
    obtain rfl : b = s.log.commits.length := by simpa using hb
    exact (h.handles p hp).le
  · intro w hw
    have := h.writes_handles w hw
    simp only [enqueueStep, hlog, List.length_append, List.length_singleton]
    omega
  · exact h.writes_sorted
  · intro p hp
    have := h.syncs_handles p hp
    simp only [enqueueStep, hlog, List.length_append, List.length_singleton]
    omega
  · have hunits := h.units
    rw [henq]
    simp only [enqueueStep, hlog, List.flatMap_append, List.flatMap_cons,
      List.flatMap_nil, List.append_nil]
    rw [← hunits, List.append_assoc _ s.log.pending]

theorem Core.enqueue {s : State α} {fly : Option (Nat × Fly α)} (h : Core s fly)
    (buf : List α) : Core (enqueueStep s buf) fly := by
  cases hc : s.log.cur with
  | none => exact core_enqueue_fresh h hc buf
  | some c => exact core_enqueue_open h hc buf

/-- The snapshot under `mu` moves the current batch into flight. -/
theorem Core.take {s : State α} {b : Nat} (h : Core s none) (hb : s.log.cur = some b) :
    Core (takeBatch s) (some (b, .taken s.log.pending)) := by
  have hlast := h.cur_last b hb
  have hsame : ∀ c, SameHandle s (takeBatch s) c := fun _ => ⟨rfl, rfl, rfl, Iff.rfl⟩
  constructor
  · intro c hc
    simp [takeBatch, SegLog.takePending] at hc
  · intro b' st hb'
    obtain ⟨rfl, rfl⟩ : b = b' ∧ Fly.taken s.log.pending = st := by simpa using hb'
    simpa [takeBatch, SegLog.takePending] using hlast
  · intro _
    rfl
  · intro c hc
    simp [takeBatch, SegLog.takePending] at hc
  · intro b' st hb'
    obtain ⟨rfl, rfl⟩ : b = b' ∧ Fly.taken s.log.pending = st := by simpa using hb'
    exact (hsame b).waiting (h.waiting b hb)
  · intro c hlt _ hfly
    have hne : c ≠ b := by
      intro heq
      exact hfly _ (by rw [heq])
    refine (hsame c).settled (h.settled c hlt ?_ (by simp))
    rw [hb]
    simpa using Ne.symm hne
  · exact h.handles
  · exact h.enqueued_sorted
  · exact h.writes_handles
  · exact h.writes_sorted
  · exact h.syncs_handles
  · have hunits := h.units
    simpa [takeBatch, SegLog.takePending, flyBuf] using hunits

theorem Core.write {s : State α} {b : Nat} {buf : List α}
    (h : Core s (some (b, .taken buf))) (torn : Option Nat) :
    Core (recordWrite s b buf torn)
      (some (b, match (s.log.write torn buf).2 with
        | none => .written
        | some err => .settling (some err))) := by
  have hb := h.fly_last b _ rfl
  obtain ⟨hopen, hnowrites, hunder, hsync⟩ : Waiting s b buf := h.flying b _ rfl
  have hwrites : (recordWrite s b buf torn).writes =
      s.writes ++ [⟨b, buf, (s.log.write torn buf).2.isNone⟩] := rfl
  have hsame : ∀ c, c ≠ b → SameHandle s (recordWrite s b buf torn) c := by
    intro c hne
    refine ⟨by simp [recordWrite], ?_, rfl, Iff.rfl⟩
    rw [writesOf_append hwrites, if_neg (Ne.symm hne), List.append_nil]
  have hwritten : writesOf (recordWrite s b buf torn) b =
      [⟨b, buf, (s.log.write torn buf).2.isNone⟩] := by
    rw [writesOf_append hwrites, if_pos rfl, hnowrites, List.nil_append]
  -- No earlier write can carry `b` or the batch that is filling up behind it.
  have hearlier : ∀ w ∈ s.writes, w.batch < b := by
    intro w hw
    have hlt := h.writes_handles w hw
    have hneb : w.batch ≠ b := by
      intro heq
      have hmem : w ∈ writesOf s b := mem_writesOf.mpr ⟨hw, heq⟩
      rw [hnowrites] at hmem
      simp at hmem
    cases hcur : s.log.cur with
    | none =>
        simp only [hcur, Option.isSome_none, Bool.false_eq_true, if_false] at hb
        omega
    | some c =>
        have hnec : w.batch ≠ c := by
          intro heq
          have hmem : w ∈ writesOf s c := mem_writesOf.mpr ⟨hw, heq⟩
          rw [(h.waiting c hcur).2.1] at hmem
          simp at hmem
        have hbc := h.ne_cur_of_fly hcur
        have hlast := h.cur_last c hcur
        omega
  constructor
  · simpa [recordWrite] using h.cur_last
  · intro b' st hb'
    obtain ⟨rfl, -⟩ : b = b' ∧ _ := by simpa using hb'
    simpa [recordWrite] using hb
  · simpa [recordWrite] using h.pending_nil
  · intro c hc
    have hc' : s.log.cur = some c := by simpa [recordWrite] using hc
    have hne : c ≠ b := by
      have := h.ne_cur_of_fly hc'
      omega
    simpa [recordWrite] using (hsame c hne).waiting (h.waiting c hc')
  · intro b' st hb'
    obtain ⟨rfl, rfl⟩ : b = b' ∧ (match (s.log.write torn buf).2 with
        | none => Fly.written
        | some err => Fly.settling (some err)) = st := by simpa using hb'
    have hopen' : Open (recordWrite s b buf torn) b := by simpa [Open, recordWrite] using hopen
    have hunder' : enqueuedUnder (recordWrite s b buf torn) b = buf := hunder
    cases herr : (s.log.write torn buf).2 with
    | none =>
        rw [herr] at hwritten
        refine ⟨hopen', ?_, hsync⟩
        rw [hwritten, hunder']
        rfl
    | some err =>
        rw [herr] at hwritten
        refine ⟨hopen', false, ?_, by simp⟩
        rw [hwritten, hunder']
        rfl
  · intro c hlt hne hfly
    have hcb : c ≠ b := by
      intro heq
      exact hfly _ (by rw [heq])
    refine (hsame c hcb).settled (h.settled c ?_ ?_ ?_)
    · simpa [recordWrite] using hlt
    · simpa [recordWrite] using hne
    · intro st
      simpa using fun heq => absurd heq.symm hcb
  · simpa [recordWrite] using h.handles
  · exact h.enqueued_sorted
  · intro w hw
    simp only [recordWrite, SegLog.write_commits]
    rcases List.mem_append.mp hw with hw | hw
    · exact h.writes_handles w hw
    · obtain rfl := List.mem_singleton.mp hw
      show b < _
      omega
  · rw [hwrites, List.map_append, List.pairwise_append]
    refine ⟨h.writes_sorted, by simp, ?_⟩
    intro a ha c hc
    obtain ⟨w, hw, rfl⟩ := List.mem_map.mp ha
    obtain rfl : c = b := by simpa using hc
    exact hearlier w hw
  · simpa [recordWrite] using h.syncs_handles
  · have hunits := h.units
    rw [hwrites, List.flatMap_append]
    cases (s.log.write torn buf).2 <;>
      simpa [flyBuf, recordWrite] using hunits

theorem Core.sync {s : State α} {b : Nat} (h : Core s (some (b, .written)))
    (synced : Bool) :
    Core (recordSync s b synced) (some (b, .settling (s.log.fsync synced).2)) := by
  have hb := h.fly_last b _ rfl
  obtain ⟨hopen, hwritten, hsync⟩ := h.flying b _ rfl
  have hsyncs : (recordSync s b synced).syncs =
      s.syncs ++ [(b, (s.log.fsync synced).2.isNone)] := rfl
  have hsame : ∀ c, c ≠ b → SameHandle s (recordSync s b synced) c := by
    intro c hne
    refine ⟨by simp [recordSync], rfl, rfl, ?_⟩
    rw [hsyncs, List.mem_append, List.mem_singleton]
    simp [hne]
  constructor
  · simpa [recordSync] using h.cur_last
  · intro b' st hb'
    obtain ⟨rfl, -⟩ : b = b' ∧ _ := by simpa using hb'
    simpa [recordSync] using hb
  · simpa [recordSync] using h.pending_nil
  · intro c hc
    have hc' : s.log.cur = some c := by simpa [recordSync] using hc
    have hne : c ≠ b := by
      have := h.ne_cur_of_fly hc'
      omega
    simpa [recordSync] using (hsame c hne).waiting (h.waiting c hc')
  · intro b' st hb'
    obtain ⟨rfl, rfl⟩ : b = b' ∧ Fly.settling (s.log.fsync synced).2 = st := by
      simpa using hb'
    refine ⟨by simpa [Open, recordSync] using hopen, true, hwritten, ?_⟩
    rw [hsyncs, List.mem_append, List.mem_singleton]
    cases herr : (s.log.fsync synced).2 <;> simp [hsync]
  · intro c hlt hne hfly
    have hcb : c ≠ b := by
      intro heq
      exact hfly _ (by rw [heq])
    refine (hsame c hcb).settled (h.settled c ?_ ?_ ?_)
    · simpa [recordSync] using hlt
    · simpa [recordSync] using hne
    · intro st
      simpa using fun heq => absurd heq.symm hcb
  · simpa [recordSync] using h.handles
  · exact h.enqueued_sorted
  · simpa [recordSync] using h.writes_handles
  · exact h.writes_sorted
  · intro p hp
    simp only [recordSync, SegLog.fsync_commits]
    rcases List.mem_append.mp hp with hp | hp
    · exact h.syncs_handles p hp
    · obtain rfl := List.mem_singleton.mp hp
      show b < _
      omega
  · simpa [recordSync, flyBuf] using h.units

/-- Resolving the handle lands the batch. -/
theorem Core.resolve {s : State α} {b : Nat} {err : Option IOErr}
    (h : Core s (some (b, .settling err))) :
    Core { s with log := s.log.resolve b err } none := by
  have hb := h.fly_last b _ rfl
  obtain ⟨hopen, ok, hwritten, herr⟩ := h.flying b _ rfl
  have hlt : b < s.log.commits.length := by omega
  have hsame : ∀ c, c ≠ b → SameHandle s { s with log := s.log.resolve b err } c := by
    intro c hne
    refine ⟨?_, rfl, rfl, Iff.rfl⟩
    exact List.getElem?_set_ne (Ne.symm hne)
  constructor
  · intro c hc
    rw [show ({ s with log := s.log.resolve b err } : State α).log.commits.length =
      s.log.commits.length from List.length_set]
    exact h.cur_last c hc
  · simp
  · exact h.pending_nil
  · intro c hc
    have hne : c ≠ b := by
      have := h.ne_cur_of_fly hc
      omega
    exact (hsame c hne).waiting (h.waiting c hc)
  · simp
  · intro c hc hne _
    have hc' : c < s.log.commits.length := by simpa [SegLog.resolve] using hc
    by_cases hcb : c = b
    · subst hcb
      refine ⟨err, ok, ?_, hwritten, herr⟩
      exact List.getElem?_set_self hlt
    · refine (hsame c hcb).settled (h.settled c hc' hne ?_)
      intro st
      simpa using fun heq => absurd heq.symm hcb
  · simpa [SegLog.resolve] using h.handles
  · exact h.enqueued_sorted
  · simpa [SegLog.resolve] using h.writes_handles
  · exact h.writes_sorted
  · simpa [SegLog.resolve] using h.syncs_handles
  · simpa [SegLog.resolve, flyBuf] using h.units

end Shrimpd.Wal.GroupCommit
