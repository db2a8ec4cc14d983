import Shrimpd.Registry.Truncate
import Shrimpd.Lsm.Bootstrap

/-!
# The replication loop

On each tick the loop retries what is pending, looks for a gap after its
pointer, and then applies the log page by page.  Each of its requests to etcd is
a step of its own and may fail; other nodes append and truncate in between.  A
gap makes it bootstrap: the bootstrap stores the index of its snapshot, and the
loop reads the stored pointer back when the bootstrap has succeeded.
-/

namespace Shrimpd.Lsm.Loop

open Shrimpd.Lib Shrimpd.Lib.Etcd Shrimpd.Lib.Exec Shrimpd.Types Shrimpd.Block
open Shrimpd.Lsm.Replication hiding State Label step
open Shrimpd.Lsm.Boot hiding step
open Shrimpd.Registry (Answer Data LogRecord Commit Call getLogs logEntryExists getQueuePointer
  latestIndex activeParts pointerKey logKey maxIndex)

def logReplicationPageLimit : Nat := 1024

/-! ## States -/

/-- Where a gap is found: before the first page of a tick, or in a page. -/
inductive Gap where
  | tick
  | page

/-- What the loop does next.  `full` says that the page has as many entries as were asked for. -/
inductive Phase where
  | start
  | waiting
  | checking
  | fetching
  | page (rest : List LogRecord) (full : Bool)
  | saving (rest : List LogRecord) (full : Bool)
  | bootstrap (gap : Gap)
  | snapshotIndex (gap : Gap) (index : Int) (revision : Nat)
  | storing (gap : Gap) (index : Int) (parts : List PartMeta)
  | loading (gap : Gap) (index : Int) (parts : List PartMeta)
  | rereading (gap : Gap) (index : Int)
  | stopped

/-- After a bootstrap, whether it succeeds or not. -/
def Gap.next : Gap → Phase
  | .tick => .fetching
  | .page => .waiting

inductive Event where
  | reached (p : Int)
  | entry (r : LogRecord)
  | bootstrapped (index : Int)

/-- `history` is a ghost, newest first: the values of the pointer, the entries that were handed
to `applyLogEntry`, and the bootstraps that succeeded with the index of their snapshot. -/
structure State (ι : Type) where
  registry : Registry.State ι
  node : Node
  pending : List PendingEntry
  phase : Phase
  pointer : Int
  history : List Event

inductive Label (ι : Type) where
  | others (l : Registry.Label ι)
  | tick
  | retry (id : Bytes) (asked : Bool) (io : FetchIO)
  | call (answer : Answer)
  | getLogs (answer : Answer) (decodes : Bytes → Bool)
  | entry (io : FetchIO)
  | load (io : LoadIO) (order : List PartMeta)

/-! ## Steps -/

section Model

variable {ι : Type}

def State.start (calls : ι → Call) (node : Node) : State ι :=
  ⟨.start calls, node, [], .start, 0, []⟩

/-- The node as the replication of parts sees it. -/
def State.replica (s : State ι) : Replication.State :=
  ⟨s.node, (activeParts s.registry.etcd.now).map PartMeta.id, [], 0, s.pending⟩

def State.update (s : State ι) (r : Replication.State) : State ι :=
  { s with node := r.node, pending := r.pending }

def State.go (s : State ι) (phase : Phase) : State ι := { s with phase := phase }

/-- The pointer variable is set. -/
def State.reach (s : State ι) (p : Int) (phase : Phase) : State ι :=
  { s with pointer := p, phase := phase, history := .reached p :: s.history }

def State.record (s : State ι) (e : Event) : State ι := { s with history := e :: s.history }

/-- `SetQueuePointer`. -/
def State.save (s : State ι) (nodeID : Bytes) (index : Int) : State ι :=
  { s with registry := s.registry.write [.put (pointerKey nodeID) (.text (printInt index))] }

variable (nodeID : Bytes)

/-- A request to etcd. -/
def State.call (s : State ι) (answer : Answer) : Option (State ι) :=
  match s.phase with
  | .start =>
      match answer, getQueuePointer s.registry.etcd.now nodeID with
      | .ok, some p => some (s.reach p .waiting)
      | _, _ => some (s.go .stopped)
  | .checking =>
      if 0 < s.pointer ∧ answer = .ok ∧
          logEntryExists s.registry.etcd.now (s.pointer + 1) = false then
        some (s.go (.bootstrap .tick))
      else some (s.go .fetching)
  | .saving rest full =>
      match answer with
      | .failed => some (s.go (.page rest full))
      | _ => some ((s.save nodeID s.pointer).go (.page rest full))
  | .bootstrap gap =>
      match answer with
      | .ok => some (s.go (.snapshotIndex gap (latestIndex s.registry.etcd.now)
          s.registry.etcd.revision))
      | _ => some (s.go gap.next)
  | .snapshotIndex gap index revision =>
      match answer, s.registry.etcd.version revision with
      | .ok, some c => some (s.go (.storing gap index (activeParts c)))
      | _, _ => some (s.go gap.next)
  | .storing gap index parts =>
      if index ≤ 0 then some (s.go (.loading gap index parts))
      else
        match answer with
        | .ok => some ((s.save nodeID index).go (.loading gap index parts))
        | .failed => some (s.go gap.next)
        | .failedAfter => some ((s.save nodeID index).go gap.next)
  | .rereading gap _ =>
      match answer, getQueuePointer s.registry.etcd.now nodeID with
      | .ok, some p => some (s.reach p gap.next)
      | _, _ => some (s.go gap.next)
  | _ => none

variable (content : Bytes → PartFile) (U : Unicode)

/-- The next entry of the page. -/
def State.entry (s : State ι) (io : FetchIO) : Option (State ι) :=
  match s.phase with
  | .page [] full => some (s.go (if full then .fetching else .waiting))
  | .page (r :: rest) full =>
      if r.index ≤ s.pointer then some (s.go (.page rest full))
      else if s.pointer + 1 < r.index then some (s.go (.bootstrap .page))
      else
        some (((s.update (applyLogEntry content U s.replica io r.entry)).record (.entry r)).reach
          r.index (.saving rest full))
  | _ => none

/-- The parts of the snapshot are loaded in any order. -/
def State.load (s : State ι) (io : LoadIO) (order : List PartMeta) : Option (State ι) :=
  match s.phase with
  | .loading gap index parts =>
      if order.Perm parts then
        match bootstrapFromParts content U s.replica io order with
        | (r, true) => some (((s.update r).record (.bootstrapped index)).go (.rereading gap index))
        | (r, false) => some ((s.update r).go gap.next)
      else none
  | _ => none

variable [DecidableEq ι]

def step (s : State ι) : Label ι → Option (State ι)
  | .others l => (Registry.step s.registry l).map fun r => { s with registry := r }
  | .tick =>
      match s.phase with
      | .waiting => some (s.go .checking)
      | _ => none
  | .retry id asked io =>
      match s.phase, s.pending.find? fun p => p.part.id == id with
      | .checking, some p => some (s.update (retryPendingPart content U s.replica asked io p))
      | _, _ => none
  | .call answer => s.call nodeID answer
  | .getLogs answer decodes =>
      match s.phase, answer with
      | .fetching, .ok =>
          match getLogs s.registry.etcd.now (s.pointer + 1) logReplicationPageLimit decodes with
          | [] => some (s.go .waiting)
          | entries => some (s.go (.page entries (logReplicationPageLimit ≤ entries.length)))
      | .fetching, _ => some (s.go .waiting)
      | _, _ => none
  | .entry io => s.entry content U io
  | .load io order => s.load content U io order

end Model

/-! ## Histories -/

def Event.index? : Event → Option Int
  | .entry r => some r.index
  | _ => none

/-- The indices that were handed to `applyLogEntry`, oldest first. -/
def State.applied {ι : Type} (s : State ι) : List Int :=
  (s.history.filterMap Event.index?).reverse

/-- How a history comes about: the pointer is read, an entry moves it on by one, and a
bootstrap that has succeeded since moves it to the index it has stored. -/
inductive Traced : List Event → Int → List Int → Prop where
  | start (p : Int) : Traced [.reached p] p []
  | bootstrapped {h p qs} (q : Int) (ht : Traced h p qs) :
      Traced (.bootstrapped q :: h) p (q :: qs)
  | entry {h p qs r} (ht : Traced h p qs) (hindex : r.index = p + 1) :
      Traced (.reached r.index :: .entry r :: h) r.index []
  | reread {h p qs q} (ht : Traced h p qs) (hq : q ∈ qs) (hle : p ≤ q) :
      Traced (.reached q :: h) q []

section Histories

variable {h : List Event} {p : Int} {qs : List Int}

theorem Traced.increasing (ht : Traced h p qs) :
    (h.filterMap Event.index?).Pairwise (fun a b => b < a) ∧
      ∀ i ∈ h.filterMap Event.index?, i ≤ p := by
  induction ht with
  | start p => exact ⟨List.Pairwise.nil, nofun⟩
  | bootstrapped q _ ih => exact ih
  | @entry h p qs r _ hindex ih =>
      obtain ⟨hsorted, hle⟩ := ih
      have hnew : ((.reached r.index :: .entry r :: h).filterMap Event.index?) =
          r.index :: h.filterMap Event.index? := rfl
      rw [hnew]
      refine ⟨List.pairwise_cons.mpr ⟨fun i hi => ?_, hsorted⟩,
        List.forall_mem_cons.mpr ⟨le_rfl, fun i hi => ?_⟩⟩
      · have hi := hle i hi
        omega
      · have hi := hle i hi
        omega
  | reread _ _ hle ih => exact ⟨ih.1, fun i hi => (ih.2 i hi).trans hle⟩

/-- The bootstraps have succeeded since the pointer has its value. -/
theorem Traced.since (ht : Traced h p qs) : ∃ since before, h = since ++ .reached p :: before ∧
    (∀ r, .reached r ∉ since) ∧ ∀ q ∈ qs, .bootstrapped q ∈ since := by
  induction ht with
  | start p => exact ⟨[], [], rfl, nofun, nofun⟩
  | entry _ _ => exact ⟨[], _, rfl, nofun, nofun⟩
  | reread _ _ _ => exact ⟨[], _, rfl, nofun, nofun⟩
  | bootstrapped q _ ih =>
      obtain ⟨since, before, rfl, hsince, hqs⟩ := ih
      refine ⟨.bootstrapped q :: since, before, rfl, fun r hr => ?_, ?_⟩
      · exact hsince r ((List.mem_cons.mp hr).resolve_left nofun)
      · exact List.forall_mem_cons.mpr
          ⟨List.mem_cons_self, fun q hq => List.mem_cons_of_mem _ (hqs q hq)⟩

end Histories

/-! ## What a step does -/

/-- The loop has read its pointer and goes on. -/
def Phase.Live : Phase → Prop
  | .start | .stopped => False
  | _ => True

/-- Nothing is to be known of these phases. -/
def Phase.Idle : Phase → Prop
  | .waiting | .checking | .fetching => True
  | _ => False

theorem Gap.idle_next (gap : Gap) : gap.next.Idle := by cases gap <;> trivial

/-- The loop goes on to a phase and leaves its pointer and etcd as they are. -/
inductive Next {ι : Type} (s : State ι) : Phase → Prop where
  | idle {phase} (h : phase.Idle) : Next s phase
  | fetched {decodes full} : Next s (.page (getLogs s.registry.etcd.now (s.pointer + 1)
      logReplicationPageLimit decodes) full)
  | unsaved {rest full} (hphase : s.phase = .saving rest full) : Next s (.page rest full)
  | skip {r rest full} (hphase : s.phase = .page (r :: rest) full) : Next s (.page rest full)
  | gapTick (hpos : 0 < s.pointer) : Next s (.bootstrap .tick)
  | gapPage {r rest full} (hphase : s.phase = .page (r :: rest) full) : Next s (.bootstrap .page)
  | snapshot {gap} (hphase : s.phase = .bootstrap gap) :
      Next s (.snapshotIndex gap (latestIndex s.registry.etcd.now) s.registry.etcd.revision)
  | parts {gap index revision parts} (hphase : s.phase = .snapshotIndex gap index revision) :
      Next s (.storing gap index parts)
  | unstored {gap index parts} (hphase : s.phase = .storing gap index parts) (hindex : index ≤ 0) :
      Next s (.loading gap index parts)

inductive Steps {ι : Type} [DecidableEq ι] (nodeID : Bytes) (content : Bytes → PartFile)
    (U : Unicode) (s : State ι) : Label ι → State ι → Prop where
  | others {l r} (h : Registry.step s.registry l = some r) :
      Steps nodeID content U s (.others l) { s with registry := r }
  | start {answer p} (hphase : s.phase = .start)
      (hp : getQueuePointer s.registry.etcd.now nodeID = some p) :
      Steps nodeID content U s (.call answer) (s.reach p .waiting)
  | stop {answer} (hphase : s.phase = .start) :
      Steps nodeID content U s (.call answer) (s.go .stopped)
  | go {l r phase} (hlive : s.phase.Live) (h : Next s phase) :
      Steps nodeID content U s l ((s.update r).go phase)
  | save {answer rest full} (hphase : s.phase = .saving rest full) :
      Steps nodeID content U s (.call answer) ((s.save nodeID s.pointer).go (.page rest full))
  | store {answer gap index parts phase} (hphase : s.phase = .storing gap index parts)
      (hpos : 0 < index) (hnext : phase = .loading gap index parts ∨ phase.Idle) :
      Steps nodeID content U s (.call answer) ((s.save nodeID index).go phase)
  | entry {io r rest full} (hphase : s.phase = .page (r :: rest) full)
      (hindex : r.index = s.pointer + 1) :
      Steps nodeID content U s (.entry io)
        (((s.update (applyLogEntry content U s.replica io r.entry)).record (.entry r)).reach
          r.index (.saving rest full))
  | load {l gap index parts r} (hphase : s.phase = .loading gap index parts) :
      Steps nodeID content U s l
        (((s.update r).record (.bootstrapped index)).go (.rereading gap index))
  | reread {answer gap index p} (hphase : s.phase = .rereading gap index)
      (hp : getQueuePointer s.registry.etcd.now nodeID = some p) :
      Steps nodeID content U s (.call answer) (s.reach p gap.next)

section Inversion

variable {ι : Type} [DecidableEq ι] {nodeID : Bytes} {content : Bytes → PartFile} {U : Unicode}
  {s t : State ι}

theorem Steps.next {l : Label ι} {phase phase' : Phase} (hphase : s.phase = phase')
    (hlive : phase'.Live) (h : Next s phase) : Steps nodeID content U s l (s.go phase) :=
  .go (r := s.replica) (hphase ▸ hlive) h

theorem steps_call {answer : Answer} (h : s.call nodeID answer = some t) :
    Steps nodeID content U s (.call answer) t := by
  unfold State.call at h
  cases hphase : s.phase with
  | start =>
      simp only [hphase] at h
      split at h <;> obtain rfl := Option.some.inj h
      · exact .start hphase (by assumption)
      · exact .stop hphase
  | checking =>
      simp only [hphase] at h
      split_ifs at h with hgap <;> obtain rfl := Option.some.inj h
      · exact .next hphase trivial (.gapTick hgap.1)
      · exact .next hphase trivial (.idle trivial)
  | saving rest full =>
      simp only [hphase] at h
      split at h <;> obtain rfl := Option.some.inj h
      · exact .next hphase trivial (.unsaved hphase)
      · exact .save hphase
  | bootstrap gap =>
      simp only [hphase] at h
      split at h <;> obtain rfl := Option.some.inj h
      · exact .next hphase trivial (.snapshot hphase)
      · exact .next hphase trivial (.idle gap.idle_next)
  | snapshotIndex gap index revision =>
      simp only [hphase] at h
      split at h <;> obtain rfl := Option.some.inj h
      · exact .next hphase trivial (.parts hphase)
      · exact .next hphase trivial (.idle gap.idle_next)
  | storing gap index parts =>
      simp only [hphase] at h
      split_ifs at h with hindex
      · obtain rfl := Option.some.inj h
        exact .next hphase trivial (.unstored hphase hindex)
      · have hpos := not_le.mp hindex
        split at h <;> obtain rfl := Option.some.inj h
        · exact .store hphase hpos (Or.inl rfl)
        · exact .next hphase trivial (.idle gap.idle_next)
        · exact .store hphase hpos (Or.inr gap.idle_next)
  | rereading gap index =>
      simp only [hphase] at h
      split at h <;> obtain rfl := Option.some.inj h
      · exact .reread hphase (by assumption)
      · exact .next hphase trivial (.idle gap.idle_next)
  | _ => simp [hphase] at h

theorem steps_entry {io : FetchIO} (h : s.entry content U io = some t) :
    Steps nodeID content U s (.entry io) t := by
  unfold State.entry at h
  split at h
  next full hphase =>
    obtain rfl := Option.some.inj h
    refine .next hphase trivial (.idle ?_)
    split_ifs <;> trivial
  next r rest full hphase =>
    split_ifs at h with hskip hgap <;> obtain rfl := Option.some.inj h
    · exact .next hphase trivial (.skip hphase)
    · exact .next hphase trivial (.gapPage hphase)
    · exact .entry hphase (by omega)
  next => exact absurd h (by simp)

theorem steps_of_step {l : Label ι} (h : step nodeID content U s l = some t) :
    Steps nodeID content U s l t := by
  cases l with
  | others l =>
      obtain ⟨r, hr, rfl⟩ := Option.map_eq_some_iff.mp h
      exact .others hr
  | tick =>
      simp only [step] at h
      split at h
      next hphase =>
        obtain rfl := Option.some.inj h
        exact .next hphase trivial (.idle trivial)
      next => exact absurd h (by simp)
  | retry id asked io =>
      simp only [step] at h
      split at h
      next p hphase hp =>
        obtain rfl := Option.some.inj h
        have hidle : s.phase.Idle := by rw [hphase]; trivial
        exact .go (r := retryPendingPart content U s.replica asked io p)
          (by rw [hphase]; trivial) (.idle hidle)
      next => exact absurd h (by simp)
  | call answer => exact steps_call h
  | getLogs answer decodes =>
      simp only [step] at h
      split at h
      next hphase =>
        split at h <;> obtain rfl := Option.some.inj h
        · exact .next hphase trivial (.idle trivial)
        · exact .next hphase trivial .fetched
      next hphase _ =>
        obtain rfl := Option.some.inj h
        exact .next hphase trivial (.idle trivial)
      next => exact absurd h (by simp)
  | entry io => exact steps_entry h
  | load io order =>
      simp only [step, State.load] at h
      split at h
      next gap index parts hphase =>
        split_ifs at h
        split at h <;> obtain rfl := Option.some.inj h
        · exact .load hphase
        · exact .go (by rw [hphase]; trivial) (.idle gap.idle_next)
      next => exact absurd h (by simp)

end Inversion

/-! ## Runs -/

def Phase.isStart : Phase → Bool
  | .start => true
  | _ => false

/-- What the others do: no pointer is stored above the last index, nodes come and go under IDs
without a slash, and once the loop has started nobody else stores this node's pointer. -/
def Others {ι : Type} (nodeID : Bytes) (s : State ι) : Label ι → Prop
  | .others (.setQueuePointer id index) =>
      (0 ≤ index ∧ index ≤ s.registry.commits.length) ∧ (id = nodeID → s.phase.isStart = true)
  | .others (.registerNode id) => 47 ∉ id
  | .others (.expireNode id) => 47 ∉ id
  | _ => True

instance {ι : Type} (nodeID : Bytes) (s : State ι) : ∀ l, Decidable (Others nodeID s l)
  | .others (.setQueuePointer _ _) => inferInstanceAs (Decidable ((_ ∧ _) ∧ (_ → _)))
  | .others (.registerNode id) => inferInstanceAs (Decidable (47 ∉ id))
  | .others (.expireNode id) => inferInstanceAs (Decidable (47 ∉ id))
  | .others (.advance _ _) => inferInstanceAs (Decidable True)
  | .tick | .retry _ _ _ | .call _ | .getLogs _ _ | .entry _ | .load _ _ =>
      inferInstanceAs (Decidable True)

/-- The index of a snapshot is a committed one, and not behind the loop's pointer. -/
def Ahead (pointer : Int) (last : Nat) (index : Int) : Prop :=
  0 < index ∧ pointer ≤ index ∧ index ≤ last

def PhaseOk {ι : Type} (nodeID : Bytes) (r : Registry.State ι) (pointer : Int) : Phase → Prop
  | .page rest _ | .saving rest _ => ∀ x ∈ rest, ∃ c ∈ r.commits, c.record = x
  | .bootstrap _ => r.commits ≠ []
  | .snapshotIndex _ index _ | .storing _ index _ => Ahead pointer r.commits.length index
  | .loading _ index _ | .rereading _ index =>
      Ahead pointer r.commits.length index ∧ getQueuePointer r.etcd.now nodeID = some index
  | _ => True

structure Inv {ι : Type} (nodeID : Bytes) (s : State ι) : Prop where
  consistent : Registry.Consistent s.registry
  kept : Registry.Kept s.registry
  fresh : ¬s.phase.Live → s.history = []
  traced : s.phase.Live → ∃ qs, Traced s.history s.pointer qs ∧
    ∀ gap index, s.phase = .rereading gap index → index ∈ qs
  pointer : 0 ≤ s.pointer ∧ s.pointer ≤ s.registry.commits.length
  phase : PhaseOk nodeID s.registry s.pointer s.phase

section Invariant

variable {ι : Type} {nodeID : Bytes} {s t : State ι} {r r' : Registry.State ι}

theorem Others.bounded {l : Registry.Label ι} (h : Others nodeID s (.others l)) :
    Registry.Bounded s.registry l := by
  cases l with
  | setQueuePointer id index => exact h.1
  | _ => exact h

theorem pointer_of_getQueuePointer {c : Data} {p : Int} (h : getQueuePointer c nodeID = some p) :
    Registry.pointer c nodeID = p := by
  unfold getQueuePointer at h
  unfold Registry.pointer
  split at h <;> rename_i hfind <;> rw [hfind]
  · exact Option.some.inj h
  · rw [Option.bind_some, h]
    rfl

theorem PhaseOk.of_idle {phase : Phase} (h : phase.Idle) (pointer : Int) :
    PhaseOk nodeID r pointer phase := by
  cases phase with
  | waiting | checking | fetching => trivial
  | _ => exact h.elim

theorem PhaseOk.mono {pointer : Int} {phase : Phase} (h : PhaseOk nodeID r pointer phase)
    (hgrow : r.commits <+: r'.commits)
    (hstored : r'.etcd.now.find (pointerKey nodeID) = r.etcd.now.find (pointerKey nodeID)) :
    PhaseOk nodeID r' pointer phase := by
  have hlength : (r.commits.length : Int) ≤ r'.commits.length := by
    exact_mod_cast hgrow.length_le
  have hpointer : getQueuePointer r'.etcd.now nodeID = getQueuePointer r.etcd.now nodeID := by
    rw [getQueuePointer, getQueuePointer, hstored]
  cases phase with
  | page rest full =>
      intro x hx
      obtain ⟨c, hc, hrecord⟩ := h x hx
      exact ⟨c, hgrow.subset hc, hrecord⟩
  | saving rest full =>
      intro x hx
      obtain ⟨c, hc, hrecord⟩ := h x hx
      exact ⟨c, hgrow.subset hc, hrecord⟩
  | bootstrap gap => exact fun hnil => h (List.prefix_nil.mp (hnil ▸ hgrow))
  | snapshotIndex gap index revision => exact ⟨h.1, h.2.1, h.2.2.trans hlength⟩
  | storing gap index parts => exact ⟨h.1, h.2.1, h.2.2.trans hlength⟩
  | loading gap index parts =>
      exact ⟨⟨h.1.1, h.1.2.1, h.1.2.2.trans hlength⟩, hpointer.trans h.2⟩
  | rereading gap index =>
      exact ⟨⟨h.1.1, h.1.2.1, h.1.2.2.trans hlength⟩, hpointer.trans h.2⟩
  | _ => trivial

/-- A page has committed entries only. -/
theorem committed_of_mem_getLogs (h : Registry.Serial r.etcd r.commits) {fromIndex limit : Int}
    {decodes : Bytes → Bool} {x : LogRecord}
    (hx : x ∈ getLogs r.etcd.now fromIndex limit decodes) : ∃ c ∈ r.commits, c.record = x := by
  obtain ⟨kv, hkv, hvalue⟩ := List.mem_filterMap.mp hx
  obtain ⟨hkv, hkey⟩ := Contents.mem_range.mp (List.mem_of_mem_take hkv)
  have hkey := of_decide_eq_true hkey
  obtain ⟨k, c, hc, rfl⟩ := h.log kv hkv (isPrefixOf_of_between hkey.1 hkey.2)
  split_ifs at hvalue
  exact ⟨c, List.mem_of_getElem? hc, Option.some.inj hvalue⟩

/-- A committed entry has a positive index up to the last one. -/
theorem index_of_committed (h : Registry.Serial r.etcd r.commits) {x : LogRecord}
    (hx : ∃ c ∈ r.commits, c.record = x) : 0 < x.index ∧ x.index ≤ r.commits.length := by
  obtain ⟨c, hc, rfl⟩ := hx
  obtain ⟨k, hk⟩ := List.mem_iff_getElem?.mp hc
  have hindex := h.index k c hk
  have hlt := (List.getElem?_eq_some_iff.mp hk).1
  omega

theorem phaseOk_next (h : Inv nodeID s) (hbound : s.registry.commits.length < maxIndex)
    {phase : Phase} (hnext : Next s phase) : PhaseOk nodeID s.registry s.pointer phase := by
  have hphase := h.phase
  cases hnext with
  | idle hidle => exact .of_idle hidle _
  | fetched => exact fun x hx => committed_of_mem_getLogs h.consistent.serial hx
  | unsaved heq =>
      rw [heq] at hphase
      exact hphase
  | skip heq =>
      rw [heq] at hphase
      exact fun x hx => hphase x (List.mem_cons_of_mem _ hx)
  | gapTick hpos =>
      intro hnil
      have hle := h.pointer.2
      rw [hnil] at hle
      exact absurd hle (not_le.mpr hpos)
  | gapPage heq =>
      rw [heq] at hphase
      obtain ⟨c, hc, -⟩ := hphase _ List.mem_cons_self
      exact List.ne_nil_of_mem hc
  | snapshot heq =>
      rw [heq] at hphase
      have hlast := Registry.latestIndex_eq h.consistent h.kept hbound
      have hpos := List.length_pos_iff.mpr hphase
      refine ⟨?_, ?_, hlast.le⟩
      · rw [hlast]
        exact_mod_cast hpos
      · rw [hlast]
        exact h.pointer.2
  | parts heq =>
      rw [heq] at hphase
      exact hphase
  | unstored heq hindex =>
      rw [heq] at hphase
      exact absurd hphase.1 (not_lt.mpr hindex)

theorem Phase.Idle.live {phase : Phase} (h : phase.Idle) :
    phase.Live ∧ ∀ gap index, phase ≠ .rereading gap index := by
  cases phase with
  | waiting | checking | fetching => exact ⟨trivial, nofun⟩
  | _ => exact h.elim

theorem Next.live {phase : Phase} (h : Next s phase) :
    phase.Live ∧ ∀ gap index, phase ≠ .rereading gap index := by
  cases h with
  | idle hidle => exact hidle.live
  | _ => exact ⟨trivial, nofun⟩

theorem getQueuePointer_of_find {c : Data} {key : Bytes} {index : Int} {revision : Nat}
    (h : c.find (pointerKey nodeID) = some ⟨key, .text (printInt index), revision⟩)
    (hindex : IsInt64 index) : getQueuePointer c nodeID = some index := by
  rw [getQueuePointer, h]
  exact Registry.parseInt64_printInt hindex

theorem getQueuePointer_save {index : Int} (hindex : IsInt64 index) :
    getQueuePointer (s.save nodeID index).registry.etcd.now nodeID = some index :=
  getQueuePointer_of_find
    (Contents.find_eq_some.mpr ⟨Etcd.Store.mem_commit_put.mpr (Or.inl rfl), rfl⟩) hindex

theorem inv_start {calls : ι → Call} (hidle : ∀ i, (calls i).Idle) (node : Node) :
    Inv nodeID (State.start calls node) where
  consistent := Registry.consistent_start hidle
  kept := (Registry.spared_start hidle).toKept
  fresh _ := rfl
  traced := False.elim
  pointer := ⟨le_rfl, le_rfl⟩
  phase := trivial

variable [DecidableEq ι] {content : Bytes → PartFile} {U : Unicode}

theorem Inv.registry_step (h : Inv nodeID s) {l : Registry.Label ι}
    (hok : Registry.Bounded s.registry l) (hstep : Registry.Steps s.registry l r)
    (hbound : r.commits.length < maxIndex) :
    Registry.Consistent r ∧ Registry.Kept r := by
  have hlength := (Registry.commits_grow hstep).length_le.trans_lt hbound
  exact ⟨Registry.consistent_step h.consistent hbound hstep,
    Registry.kept_step h.kept h.consistent hlength hok hstep⟩

/-- The loop stores a pointer and goes on. -/
theorem Inv.save (h : Inv nodeID s) (hbound : s.registry.commits.length < maxIndex) {index : Int}
    (hindex : 0 ≤ index ∧ index ≤ s.registry.commits.length) (hlive : s.phase.Live)
    {phase : Phase} (hnext : phase.Live) (hreread : ∀ gap index, phase ≠ .rereading gap index)
    (hphase : PhaseOk nodeID (s.save nodeID index).registry s.pointer phase) :
    Inv nodeID ((s.save nodeID index).go phase) := by
  obtain ⟨hconsistent, hkept⟩ := h.registry_step (l := .setQueuePointer nodeID index) hindex
    .setQueuePointer hbound
  obtain ⟨qs, htraced, -⟩ := h.traced hlive
  exact ⟨hconsistent, hkept, fun hnot => absurd hnext hnot,
    fun _ => ⟨qs, htraced, fun gap index heq => absurd heq (hreread gap index)⟩, h.pointer, hphase⟩

theorem commits_grow {l : Label ι} (hstep : Steps nodeID content U s l t) :
    s.registry.commits.length ≤ t.registry.commits.length := by
  cases hstep with
  | others hr => exact (Registry.commits_grow (Registry.steps_of_step hr)).length_le
  | _ => exact le_rfl

theorem inv_others {l : Registry.Label ι} (h : Inv nodeID s) (hok : Others nodeID s (.others l))
    (hbound : r.commits.length < maxIndex) (hr : Registry.step s.registry l = some r) :
    Inv nodeID { s with registry := r } := by
  have hsteps := Registry.steps_of_step hr
  obtain ⟨hconsistent, hkept⟩ := h.registry_step hok.bounded hsteps hbound
  have hgrow := Registry.commits_grow hsteps
  have hlength : (s.registry.commits.length : Int) ≤ r.commits.length := by
    exact_mod_cast hgrow.length_le
  refine ⟨hconsistent, hkept, h.fresh, h.traced,
    ⟨h.pointer.1, h.pointer.2.trans hlength⟩, ?_⟩
  rcases Registry.stored_of_step hok.bounded.plain hsteps nodeID with hsame | ⟨index, rfl, -⟩
  · exact h.phase.mono hgrow hsame
  · have hstart := hok.2 rfl
    show PhaseOk nodeID r s.pointer s.phase
    cases heq : s.phase with
    | start => trivial
    | _ =>
        rw [heq] at hstart
        cases hstart

theorem inv_step {l : Label ι} (h : Inv nodeID s) (hok : Others nodeID s l)
    (hbound : t.registry.commits.length < maxIndex) (hstep : Steps nodeID content U s l t) :
    Inv nodeID t := by
  have hphase := h.phase
  cases hstep with
  | others hr => exact inv_others h hok hbound hr
  | @start answer p heq hp =>
      have hfresh := h.fresh (by rw [heq]; exact id)
      refine ⟨h.consistent, h.kept, fun hnot => absurd trivial hnot, fun _ => ⟨[], ?_, nofun⟩,
        ?_, trivial⟩
      · show Traced (.reached p :: s.history) p []
        rw [hfresh]
        exact .start p
      · show 0 ≤ p ∧ p ≤ s.registry.commits.length
        rw [← pointer_of_getQueuePointer hp]
        exact h.kept.pointers nodeID
  | stop heq =>
      exact ⟨h.consistent, h.kept, fun _ => h.fresh (by rw [heq]; exact id), False.elim,
        h.pointer, trivial⟩
  | go hlive hnext =>
      obtain ⟨qs, htraced, -⟩ := h.traced hlive
      exact ⟨h.consistent, h.kept, fun hnot => absurd hnext.live.1 hnot,
        fun _ => ⟨qs, htraced, fun gap index heq => absurd heq (hnext.live.2 gap index)⟩,
        h.pointer, phaseOk_next h hbound hnext⟩
  | save heq =>
      rw [heq] at hphase
      exact h.save hbound h.pointer (by rw [heq]; trivial) trivial nofun hphase
  | @store answer gap index parts phase heq hpos hnext =>
      rw [heq] at hphase
      have hindex : 0 ≤ index ∧ index ≤ s.registry.commits.length := ⟨hpos.le, hphase.2.2⟩
      have hlive : s.phase.Live := by rw [heq]; trivial
      rcases hnext with rfl | hidle
      · have hbounded : Registry.Bounded s.registry (.setQueuePointer nodeID index) := hindex
        have hint : IsInt64 index := hbounded.isInt64 hbound
        exact h.save hbound hindex hlive trivial nofun ⟨hphase, getQueuePointer_save hint⟩
      · exact h.save hbound hindex hlive hidle.live.1 hidle.live.2 (.of_idle hidle _)
  | @entry io x rest full heq hindex =>
      obtain ⟨qs, htraced, -⟩ := h.traced (by rw [heq]; trivial)
      rw [heq] at hphase
      have hx := index_of_committed h.consistent.serial (hphase x List.mem_cons_self)
      exact ⟨h.consistent, h.kept, fun hnot => absurd trivial hnot,
        fun _ => ⟨[], .entry htraced hindex, nofun⟩, ⟨hx.1.le, hx.2⟩,
        fun y hy => hphase y (List.mem_cons_of_mem _ hy)⟩
  | @load l gap index parts r heq =>
      obtain ⟨qs, htraced, -⟩ := h.traced (by rw [heq]; trivial)
      rw [heq] at hphase
      refine ⟨h.consistent, h.kept, fun hnot => absurd trivial hnot,
        fun _ => ⟨index :: qs, .bootstrapped index htraced, fun gap' index' hread => ?_⟩,
        h.pointer, hphase⟩
      obtain ⟨-, rfl⟩ := Phase.rereading.inj hread
      exact List.mem_cons_self
  | @reread answer gap index p heq hp =>
      obtain ⟨qs, htraced, hqs⟩ := h.traced (by rw [heq]; trivial)
      rw [heq] at hphase
      obtain ⟨hahead, hstored⟩ := hphase
      obtain rfl : index = p := Option.some.inj (hstored.symm.trans hp)
      have hidle := gap.idle_next
      exact ⟨h.consistent, h.kept, fun hnot => absurd hidle.live.1 hnot,
        fun _ => ⟨[], .reread htraced (hqs gap index heq) hahead.2.1,
          fun gap' index' hread => absurd hread (hidle.live.2 gap' index')⟩,
        ⟨hahead.1.le, hahead.2.2⟩, .of_idle hidle _⟩

end Invariant

/-! ## Entries in order -/

/-- What an entry has come to: it is the node's own, or its part is deferred, or its part is
listed and the parts it replaces are not. -/
def Processed {ι : Type} (e : LogEntry) (s t : State ι) : Prop :=
  e.nodeID = s.node.nodeID ∧ t.node = s.node ∧ t.pending = s.pending ∨
    ⟨e.part, e.oldParts⟩ ∈ t.pending ∨
    e.part.id ∈ t.node.parts.map PartMeta.id ∧ (e.op = .merge → ∀ a ∈ e.oldParts,
      a ≠ e.part.id → a ∉ t.node.parts.map PartMeta.id)

section Results

variable {ι : Type} {nodeID : Bytes} {content : Bytes → PartFile} {U : Unicode}

theorem processed_applyLogEntry (s : State ι) (io : FetchIO) (e : LogEntry) :
    Processed e s (s.update (applyLogEntry content U s.replica io e)) := by
  unfold applyLogEntry
  by_cases hown : e.nodeID = s.replica.node.nodeID
  · rw [if_pos hown]
    exact Or.inl ⟨hown, rfl, rfl⟩
  · rw [if_neg hown]
    have hfetched : Fetched content s.replica.node _ io e.part.id _ :=
      fetched_fetchPart U s.replica.node io e.part
    cases hfetch : fetchPart content U s.replica.node io e.part with
    | mk n result =>
        cases result with
        | none => exact Or.inr (Or.inl (mem_setPending.mpr (Or.inr rfl)))
        | some part =>
            rw [hfetch] at hfetched
            have hid : part.id = e.part.id := (hfetched.done part rfl).1
            have hlisted : ∀ old a, a ∈ ((n.publish part old).getPart io.opens part.id).1.parts.map
                PartMeta.id ↔ a = e.part.id ∨ a ∈ n.parts.map PartMeta.id ∧ a ∉ old := by
              intro old a
              rw [parts_getPart, mem_publish, hid]
            refine Or.inr (Or.inr ?_)
            cases hop : e.op with
            | put => exact ⟨(hlisted [] _).mpr (Or.inl rfl), nofun⟩
            | merge =>
                refine ⟨(hlisted e.oldParts _).mpr (Or.inl rfl), fun _ a ha hne hmem => ?_⟩
                rcases (hlisted e.oldParts a).mp hmem with heq | ⟨-, hnot⟩
                · exact hne heq
                · exact hnot ha

theorem State.applied_increasing {s : State ι} (h : Inv nodeID s) :
    s.applied.Pairwise (· < ·) := by
  rw [State.applied, List.pairwise_reverse]
  by_cases hlive : s.phase.Live
  · obtain ⟨qs, htraced, -⟩ := h.traced hlive
    exact htraced.increasing.1
  · rw [h.fresh hlive]
    exact List.Pairwise.nil

variable [DecidableEq ι]

theorem inv_run {calls : ι → Call} {node : Node} {ls : List (Label ι)} {t : State ι}
    (hidle : ∀ i, (calls i).Idle)
    (hok : Along (step nodeID content U) (Others nodeID) (State.start calls node) ls)
    (hrun : exec (step nodeID content U) (State.start calls node) ls = some t)
    (hbound : t.registry.commits.length < maxIndex) : Inv nodeID t := by
  refine invariant_along (I := fun u => u.registry.commits.length < maxIndex → Inv nodeID u) ?_
    (fun _ => inv_start hidle node) hok hrun hbound
  intro u l v hu hothers hstep hv
  have hsteps := steps_of_step hstep
  exact inv_step (hu ((commits_grow hsteps).trans_lt hv)) hothers hv hsteps

end Results

/-- In every run of the loop among appends and truncations by others, with indices below
`10 ^ 16`: the indices handed to `applyLogEntry` increase, and a step that moves the pointer
either applies or defers the entry after it, or reads what a bootstrap has stored that succeeded
since the pointer had its value. -/
theorem entries_applied_in_order {ι : Type} [DecidableEq ι] {nodeID : Bytes}
    {content : Bytes → PartFile} {U : Unicode} {calls : ι → Call} {node : Node}
    {ls : List (Label ι)} {t : State ι} (hidle : ∀ i, (calls i).Idle)
    (hok : Along (step nodeID content U) (Others nodeID) (State.start calls node) ls)
    (hrun : exec (step nodeID content U) (State.start calls node) ls = some t)
    (hbound : t.registry.commits.length < 10 ^ 16) :
    t.applied.Pairwise (· < ·) ∧
    ∀ l u, step nodeID content U t l = some u → t.phase ≠ .start → u.pointer ≠ t.pointer →
      (u.pointer = t.pointer + 1 ∧ u.applied = t.applied ++ [u.pointer] ∧
        ∃ c ∈ t.registry.commits, c.record.index = u.pointer ∧ Processed c.record.entry t u) ∨
      ∃ since before, t.history = since ++ .reached t.pointer :: before ∧
        (∀ r, .reached r ∉ since) ∧ .bootstrapped u.pointer ∈ since := by
  have h := inv_run hidle hok hrun hbound
  refine ⟨State.applied_increasing h, ?_⟩
  intro l u hstep hstart hmoves
  have hphase := h.phase
  cases steps_of_step hstep with
  | start heq => exact absurd heq hstart
  | @entry io x rest full heq hindex =>
      rw [heq] at hphase
      obtain ⟨c, hc, hrecord⟩ := hphase x List.mem_cons_self
      have happlied : State.applied (((t.update (applyLogEntry content U t.replica io
          x.entry)).record (.entry x)).reach x.index (.saving rest full)) =
          t.applied ++ [x.index] := List.reverse_cons
      refine Or.inl ⟨hindex, happlied, c, hc, congrArg LogRecord.index hrecord, ?_⟩
      rw [hrecord]
      exact processed_applyLogEntry t io x.entry
  | @reread answer gap index p heq hp =>
      obtain ⟨qs, htraced, hqs⟩ := h.traced (by rw [heq]; trivial)
      rw [heq] at hphase
      obtain rfl : index = p := Option.some.inj (hphase.2.symm.trans hp)
      obtain ⟨since, before, hsplit, hsince, hboots⟩ := htraced.since
      exact Or.inr ⟨since, before, hsplit, hsince, hboots index (hqs gap index heq)⟩
  | others | stop | go | save | store | load => exact absurd rfl hmoves

def demoNode : Node := ⟨ascii "n2", [], fun _ => none, fun _ => none, fun _ => none⟩

def demoStep {ι : Type} [DecidableEq ι] : State ι → Label ι → Option (State ι) :=
  step (ascii "n2") (fun _ => soloFile) Unicode.asciiOnly

def demoCalls : Fin 4 → Call :=
  ![.appendLog chainPut 100, .appendLog (chainMerge (ascii "p1") (ascii "p2")) 100,
    .appendLog (chainMerge (ascii "p2") (ascii "p3")) 100, .logCleanup (ascii "n1")]

def demoEnd (ls : List (Label (Fin 4))) : State (Fin 4) :=
  (exec demoStep (State.start demoCalls demoNode) ls).getD (State.start demoCalls demoNode)

/-- The first entry is applied.  Then two more are appended and the second is truncated, and the
loop bootstraps. -/
def truncatedAhead : List (Label (Fin 4)) :=
  [.others (.advance 0 .ok), .others (.advance 0 .ok), .others (.advance 0 .ok), .call .ok, .tick,
    .call .ok, .getLogs .ok (fun _ => true), .entry .good, .call .ok, .entry .good,
    .others (.advance 1 .ok), .others (.advance 1 .ok), .others (.advance 2 .ok),
    .others (.advance 2 .ok), .others (.registerNode (ascii "n1")),
    .others (.setQueuePointer (ascii "n1") 3), .others (.advance 3 .ok),
    .others (.advance 3 .ok), .others (.advance 3 .ok), .tick, .call .ok, .call .ok, .call .ok,
    .call .ok, .load .good [Registry.etcdPart (chainPart (ascii "p3"))]]

/-- The pointer moves from the first entry to the third. -/
theorem entries_applied_in_order_truncatedAhead :
    (demoEnd truncatedAhead).applied = [1] ∧ (demoEnd truncatedAhead).pointer = 1 ∧
      (demoEnd truncatedAhead).applied.Pairwise (· < ·) ∧
      ∃ u, demoStep (demoEnd truncatedAhead) (.call .ok) = some u ∧ u.pointer = 3 ∧
        ∃ since before, (demoEnd truncatedAhead).history =
          since ++ .reached (demoEnd truncatedAhead).pointer :: before ∧
          (∀ r, .reached r ∉ since) ∧ .bootstrapped u.pointer ∈ since := by
  -- one evaluation, so that the run is computed once
  have hall : Along demoStep (Others (ascii "n2")) (State.start demoCalls demoNode) truncatedAhead ∧
      (exec demoStep (State.start demoCalls demoNode) truncatedAhead).isSome = true ∧
      (demoEnd truncatedAhead).registry.commits.length < 10 ^ 16 ∧
      (demoEnd truncatedAhead).phase.isStart = false ∧
      (demoEnd truncatedAhead).applied = [1] ∧ (demoEnd truncatedAhead).pointer = 1 ∧
      (demoStep (demoEnd truncatedAhead) (.call .ok)).map State.pointer = some 3 := by
    decide +kernel
  obtain ⟨hok, hrun, hbound, hphase, happlied, hone, hthree⟩ := hall
  have hrun : exec demoStep (State.start demoCalls demoNode) truncatedAhead =
      some (demoEnd truncatedAhead) := exec_eq_getD hrun
  have h := entries_applied_in_order (by decide) hok hrun hbound
  have hstart : (demoEnd truncatedAhead).phase ≠ .start := fun heq => by
    rw [heq] at hphase
    cases hphase
  obtain ⟨u, hu, hpointer⟩ := Option.map_eq_some_iff.mp hthree
  refine ⟨happlied, hone, h.1, u, hu, hpointer, ?_⟩
  rcases h.2 (.call .ok) u hu hstart (by rw [hpointer, hone]; decide) with ⟨hnext, -⟩ | hboots
  · rw [hpointer, hone] at hnext
    exact absurd hnext (by decide)
  · exact hboots

/-! ## An index of seventeen digits -/

/-- The log ends with an entry of index `10 ^ 16`, whose key is not the last one. -/
structure Wide (etcd : Etcd.Store Bytes Registry.Value) (x : LogRecord) : Prop where
  index : x.index = maxIndex
  next : logEntryExists etcd.now maxIndex = true
  gap : logEntryExists etcd.now (maxIndex + 1) = false
  last : latestIndex etcd.now = (maxIndex - 1 : Nat)
  page : getLogs etcd.now maxIndex logReplicationPageLimit (fun _ => true) = [x]

theorem Wide.put {etcd : Etcd.Store Bytes Registry.Value} {x : LogRecord} (h : Wide etcd x)
    (id : Bytes) (v : Registry.Value) : Wide (etcd.commit [.put (pointerKey id) v]) x := by
  have hlog : ∀ kv : KV Bytes Registry.Value, Registry.logDir.isPrefixOf kv.key = true →
      (kv ∈ (etcd.commit [.put (pointerKey id) v]).now.kvs ↔ kv ∈ etcd.now.kvs) :=
    fun kv hdir => Registry.mem_commit_of_untouched (valid_put _ _)
      (Registry.untouched_put (Registry.isPrefixOf_pointerKey id) v (Or.inr hdir))
  have hfind : ∀ index, (etcd.commit [.put (pointerKey id) v]).now.find (logKey index) =
      etcd.now.find (logKey index) :=
    fun index => Contents.find_congr fun kv hkey =>
      hlog kv (by rw [hkey]; exact Registry.isPrefixOf_logKey index)
  refine ⟨h.index, ?_, ?_, ?_, ?_⟩
  · rw [logEntryExists, hfind]
    exact h.next
  · rw [logEntryExists, hfind]
    exact h.gap
  · rw [latestIndex, Registry.lastLog, Contents.last, Contents.range_congr hlog]
    exact h.last
  · rw [getLogs, Contents.range_congr fun kv hkey => hlog kv ?_]
    · exact h.page
    · have hkey := of_decide_eq_true hkey
      exact isPrefixOf_of_between hkey.1 hkey.2

/-- A cleanup up to the last index leaves the last entry. -/
theorem only_last {ι : Type} {etcd : Etcd.Store Bytes Registry.Value} {commits : List (Commit ι)}
    (h : Registry.Serial etcd commits) (hbound : commits.length < maxIndex) :
    ∀ kv ∈ (etcd.commit [Registry.deleteLogs commits.length]).now.kvs,
      Registry.logDir.isPrefixOf kv.key = true → kv.key = logKey commits.length := by
  intro kv hkv hdir
  obtain ⟨hkv, hkept⟩ := Registry.mem_deleteLogs.mp hkv
  obtain ⟨k, c, hc, rfl⟩ := h.log kv hkv hdir
  have hk := (List.getElem?_eq_some_iff.mp hc).1
  by_contra hne
  apply hkept
  have hlt : k + 1 < commits.length := by
    refine lt_of_le_of_ne hk fun heq => hne ?_
    rw [← heq]
  exact ⟨(Registry.logKey_le_logKey (m := 0) (by decide) (by omega)).mpr (Nat.zero_le (k + 1)),
    Registry.logKey_lt_logKey hlt hbound⟩

/-- The append of index `10 ^ 16` to a log of which only the last entry is left. -/
theorem wide_append {ι : Type} {etcd : Etcd.Store Bytes Registry.Value} {commits : List (Commit ι)}
    (h : Registry.Serial etcd commits) (hlength : commits.length = maxIndex - 1)
    (hlogged : Registry.Logged etcd commits.length)
    (honly : ∀ kv ∈ etcd.now.kvs, Registry.logDir.isPrefixOf kv.key = true →
      kv.key = logKey (maxIndex - 1 : Nat)) {e : LogEntry}
    (hvalid : valid (Registry.appendOps maxIndex e) = true) :
    Wide (etcd.commit (Registry.appendOps maxIndex e)) ⟨maxIndex, Registry.etcdEntry e⟩ := by
  have hmem : ∀ kv : KV Bytes Registry.Value, Registry.logDir.isPrefixOf kv.key = true →
      (kv ∈ (etcd.commit (Registry.appendOps maxIndex e)).now.kvs ↔
        kv = ⟨logKey maxIndex, .record ⟨maxIndex, Registry.etcdEntry e⟩, etcd.revision + 1⟩ ∨
          kv ∈ etcd.now.kvs ∧ kv.key = logKey (maxIndex - 1 : Nat)) := by
    intro kv hdir
    rw [Registry.mem_appendOps hvalid]
    constructor
    · rintro (rfl | rfl | rfl | ⟨hkv, -⟩)
      · exact absurd hdir (by simp)
      · exact Or.inl rfl
      · exact absurd hdir (by simp)
      · exact Or.inr ⟨hkv, honly kv hkv hdir⟩
    · rintro (rfl | ⟨hkv, hkey⟩)
      · exact Or.inr (Or.inl rfl)
      · refine Or.inr (Or.inr (Or.inr ⟨hkv, ?_, ?_, ?_, fun a _ => ?_⟩))
        · exact Registry.ne_of_isPrefixOf hdir Registry.logDir_baseKey
        · rw [hkey]
          exact Registry.logKey_maxIndex_lt.ne'
        · exact Registry.ne_of_isPrefixOf hdir (Registry.logDir_partKey _)
        · exact Registry.ne_of_isPrefixOf hdir (Registry.logDir_partKey a)
  refine ⟨rfl, ?_, ?_, ?_, ?_⟩
  · rw [logEntryExists, Contents.find_eq_some.mpr ⟨(hmem _ (by simp)).mpr (Or.inl rfl), rfl⟩]
    rfl
  · rw [logEntryExists, Contents.find_eq_none.mpr, Option.isSome_none]
    intro kv hkv hkey
    have hdir : Registry.logDir.isPrefixOf kv.key = true := by rw [hkey]; simp
    have hne : ∀ n : Nat, n ≠ maxIndex + 1 → logKey n ≠ logKey (maxIndex + 1 : Nat) :=
      fun n hn heq => hn (Registry.logKey_inj.mp heq)
    rcases (hmem kv hdir).mp hkv with rfl | ⟨-, hold⟩
    · exact hne maxIndex (by decide) hkey
    · exact hne (maxIndex - 1) (by decide) (hold.symm.trans hkey)
  · rw [Registry.latestIndex_wide h hlength hlogged hvalid, hlength]
  · rw [getLogs, Contents.range_eq (List.pairwise_singleton _
      (⟨logKey maxIndex, .record ⟨maxIndex, Registry.etcdEntry e⟩, etcd.revision + 1⟩ :
        KV Bytes Registry.Value))]
    · rfl
    · intro kv
      rw [Contents.mem_range, List.mem_singleton]
      constructor
      · rintro ⟨hkv, hkey⟩
        have hkey := of_decide_eq_true hkey
        have hdir := isPrefixOf_of_between hkey.1 hkey.2
        exact ((hmem kv hdir).mp hkv).resolve_right fun hold => hkey.2.ne hold.2
      · rintro rfl
        exact ⟨(hmem _ (by simp)).mpr (Or.inl rfl),
          decide_eq_true ⟨le_rfl, Registry.logKey_maxIndex_lt⟩⟩

/-- Downloads that all succeed load every part. -/
theorem loadParts_good (content : Bytes → PartFile) (U : Unicode) (parts : List PartMeta)
    (ld : Loading) : (loadParts content U .good parts ld).2 = true := by
  induction parts generalizing ld with
  | nil => rfl
  | cons part parts ih =>
      unfold loadParts loadPart
      cases ld.node.metas part.id with
      | some disk => exact ih _
      | none => exact ih _

/-- A bootstrap that nobody disturbs moves the pointer to the last index. -/
theorem bootstrap_alone {ι : Type} [DecidableEq ι] {nodeID : Bytes} {content : Bytes → PartFile}
    {U : Unicode} {s : State ι} {gap : Gap} {index : Int} (hphase : s.phase = .bootstrap gap)
    (hindex : latestIndex s.registry.etcd.now = index) (hpos : 0 < index) (hint : IsInt64 index) :
    ∃ t, Reaches (step nodeID content U) (Others nodeID) s t ∧ t.phase = gap.next ∧
      t.pointer = index ∧ t.registry = (s.save nodeID index).registry ∧
      t.applied = s.applied := by
  generalize hparts : activeParts s.registry.etcd.now = parts
  generalize hu : s.save nodeID index = u
  have hread : step nodeID content U s (.call .ok) =
      some (s.go (.snapshotIndex gap index s.registry.etcd.revision)) := by
    simp only [step, State.call, hphase, hindex]
  have hpinned : step nodeID content U (s.go (.snapshotIndex gap index s.registry.etcd.revision))
      (.call .ok) = some (s.go (.storing gap index parts)) := by
    simp only [step, State.call, State.go, Etcd.Store.version_revision, hparts]
  have hstored : step nodeID content U (s.go (.storing gap index parts)) (.call .ok) =
      some (u.go (.loading gap index parts)) := by
    rw [← hu]
    exact if_neg (not_le.mpr hpos)
  obtain ⟨r, hr⟩ : ∃ r, bootstrapFromParts content U (u.go (.loading gap index parts)).replica
      .good parts = (r, true) := by
    have hgood := loadParts_good content U parts
      ⟨(u.go (.loading gap index parts)).replica.node,
        (u.go (.loading gap index parts)).replica.pending, []⟩
    unfold bootstrapFromParts
    split
    next heq =>
      rw [heq] at hgood
      exact absurd hgood (by simp)
    next => exact ⟨_, rfl⟩
  have hloaded : step nodeID content U (u.go (.loading gap index parts)) (.load .good parts) =
      some (((u.update r).record (.bootstrapped index)).go (.rereading gap index)) := by
    simp only [step, State.load, State.go] at hr ⊢
    rw [if_pos (List.Perm.refl parts), hr]
    rfl
  have hreread : step nodeID content U
      (((u.update r).record (.bootstrapped index)).go (.rereading gap index)) (.call .ok) =
      some (((u.update r).record (.bootstrapped index)).reach index gap.next) := by
    have hpointer : getQueuePointer u.registry.etcd.now nodeID = some index := by
      rw [← hu]
      exact getQueuePointer_save hint
    simp only [step, State.call, State.go, State.record, State.update, hpointer]
    rfl
  refine ⟨_, .head (by trivial) hread (.head (by trivial) hpinned (.head (by trivial) hstored
    (.head (by trivial) hloaded (.head (by trivial) hreread (.refl _))))), rfl, rfl, rfl, ?_⟩
  rw [← hu]
  rfl

section Wide

variable {ι : Type} [DecidableEq ι] (content : Bytes → PartFile) (U : Unicode) {s : State ι}
  {x : LogRecord}

theorem wide_applied (h : Wide s.registry.etcd x) (hphase : s.phase = .fetching)
    (hpointer : s.pointer = (maxIndex - 1 : Nat)) :
    ∃ t, Reaches (step (ascii "n1") content U) (Others (ascii "n1")) s t ∧
      t.phase = .saving [] false ∧ t.pointer = maxIndex ∧ t.registry = s.registry ∧
      t.applied = s.applied ++ [(maxIndex : Int)] := by
  have hnext : s.pointer + 1 = maxIndex := by rw [hpointer]; decide
  have hfetch : step (ascii "n1") content U s (.getLogs .ok fun _ => true) =
      some (s.go (.page [x] false)) := by
    simp only [step, hphase, hnext, h.page]
    rfl
  have hentry : step (ascii "n1") content U (s.go (.page [x] false)) (.entry .good) =
      some (((s.update (applyLogEntry content U s.replica .good x.entry)).record (.entry x)).reach
        x.index (.saving [] false)) := by
    have hlt : ¬x.index ≤ s.pointer := by rw [h.index]; omega
    have hle : ¬s.pointer + 1 < x.index := by rw [h.index]; omega
    simp only [step, State.entry, State.go, hlt, hle, if_false]
    rfl
  refine ⟨_, .head (by trivial) hfetch (.head (by trivial) hentry (.refl _)), rfl, h.index, rfl, ?_⟩
  rw [← h.index]
  exact List.reverse_cons

/-- The entry after the pointer does not exist, and the bootstrap stores the index below it. -/
theorem wide_bootstrapped (h : Wide s.registry.etcd x) (hphase : s.phase = .saving [] false)
    (hpointer : s.pointer = maxIndex) :
    ∃ t, Reaches (step (ascii "n1") content U) (Others (ascii "n1")) s t ∧
      t.phase = .fetching ∧ t.pointer = (maxIndex - 1 : Nat) ∧ Wide t.registry.etcd x ∧
      t.applied = s.applied := by
  have hsaved : step (ascii "n1") content U s (.call .ok) =
      some ((s.save (ascii "n1") s.pointer).go (.page [] false)) := by
    simp only [step, State.call, hphase]
  have hone : Wide (s.save (ascii "n1") s.pointer).registry.etcd x := h.put _ _
  have hgap : step (ascii "n1") content U ((s.save (ascii "n1") s.pointer).go .checking)
      (.call .ok) = some ((s.save (ascii "n1") s.pointer).go (.bootstrap .tick)) := by
    have hcond : 0 < s.pointer ∧ Answer.ok = .ok ∧
        logEntryExists (s.save (ascii "n1") s.pointer).registry.etcd.now (s.pointer + 1) =
          false := by
      refine ⟨?_, rfl, ?_⟩
      · rw [hpointer]
        decide
      · rw [hpointer] at hone ⊢
        exact hone.gap
    exact if_pos hcond
  have hwaits : step (ascii "n1") content U
      ((s.save (ascii "n1") s.pointer).go (.page [] false)) (.entry .good) =
      some ((s.save (ascii "n1") s.pointer).go .waiting) := rfl
  have hticks : step (ascii "n1") content U ((s.save (ascii "n1") s.pointer).go .waiting) .tick =
      some ((s.save (ascii "n1") s.pointer).go .checking) := rfl
  have hlast : latestIndex ((s.save (ascii "n1") s.pointer).go
      (.bootstrap .tick)).registry.etcd.now = (maxIndex - 1 : Nat) := hone.last
  obtain ⟨t, hreach, ht, htpointer, hregistry, happlied⟩ :=
    bootstrap_alone rfl hlast (by decide) (isInt64_natCast (by decide))
  refine ⟨t, .head (by trivial) hsaved (.head (by trivial) hwaits (.head (by trivial) hticks
    (.head (by trivial) hgap hreach))), ht, htpointer, ?_, happlied⟩
  rw [hregistry]
  exact hone.put _ _

end Wide

def wideNode : Node := { demoNode with nodeID := ascii "n1" }

/-- The loop of the node before it has read its pointer. -/
def wideState (r : Registry.State Nat) : State Nat :=
  { State.start Registry.wideCalls wideNode with registry := r }

/-- Of `10 ^ 16 - 1` entries all but the last are truncated, and one more is appended. -/
theorem exists_wide : ∃ r x, Wide r.etcd x ∧
    getQueuePointer r.etcd.now (ascii "n1") = some ((maxIndex - 1 : Nat) : Int) ∧
    Reaches Registry.step (fun r l => Others (ascii "n1") (wideState r) (.others l))
      (Registry.State.start Registry.wideCalls) r := by
  have hslash : (47 : UInt8) ∉ ascii "n1" := by decide
  obtain ⟨u, hreach, h⟩ : ∃ u, Reaches Registry.step
      (fun r l => Others (ascii "n1") (wideState r) (.others l))
      (Registry.State.start Registry.wideCalls) u ∧ Registry.AtDelete u :=
    Registry.exists_atDelete (fun _ _ => trivial) (fun _ => hslash) fun s hlength _ =>
      ⟨⟨Int.natCast_nonneg _, (congrArg Nat.cast hlength).ge⟩, fun _ => rfl⟩
  have hdelete : Registry.step u (.advance 0 .ok) =
      some ((u.write [Registry.deleteLogs (maxIndex - 1 : Nat)]).move 0 .cleaned) := by
    simp only [Registry.step, Registry.advance, h.delete]
  have hreach := hreach.trans (.head (by trivial) hdelete (.refl _))
  have honly := only_last h.consistent.serial (by rw [h.length]; decide)
  rw [h.length] at honly
  have hlogged : Registry.Logged (u.etcd.commit [Registry.deleteLogs (maxIndex - 1 : Nat)])
      (maxIndex - 1) := by
    obtain ⟨kv, hkv, hkey⟩ := h.logged
    rw [h.length] at hkey
    exact ⟨kv, Registry.mem_deleteLogs.mpr ⟨hkv, fun hdeleted => hdeleted.2.ne hkey⟩, hkey⟩
  have hstored : ((u.write [Registry.deleteLogs (maxIndex - 1 : Nat)]).move 0
      .cleaned).etcd.now.find (pointerKey (ascii "n1")) =
      u.etcd.now.find (pointerKey (ascii "n1")) := by
    have hplain : Registry.Plain (.advance 0 .ok : Registry.Label Nat) := trivial
    rcases Registry.stored_of_step hplain (Registry.steps_of_step hdelete) (ascii "n1") with
      hsame | ⟨_, hl, -⟩
    · exact hsame
    · cases hl
  generalize hv : (u.write [Registry.deleteLogs (maxIndex - 1 : Nat)]).move 0 .cleaned = v
    at hreach hstored
  have hsame : v.commits.length = maxIndex - 1 := by rw [← hv]; exact h.length
  have hconsistent : Registry.Consistent v := by
    obtain ⟨ls, -, hrun⟩ := hreach
    exact Registry.consistent_run Registry.idle_wideCalls hrun (by rw [hsame]; decide)
  have hcall : v.calls maxIndex = .appendLog (Registry.demoPut (ascii "n1") (ascii "p1")) 100 := by
    rw [← hv]
    exact (Registry.calls_move_of_ne (by decide) _).trans h.append
  have hreach := hreach.trans (Registry.append_alone (fun _ => trivial) hconsistent
    (by rw [hsame]; decide) hcall (by decide) Registry.valid_wideOps)
  have hindex : (v.commits.length : Int) + 1 = maxIndex := by rw [hsame]; decide
  rw [hindex] at hreach
  refine ⟨_, _, wide_append hconsistent.serial hsame ?_ ?_ (Registry.valid_wideOps _), ?_, hreach⟩
  · rw [hsame, ← hv]
    exact hlogged
  · rw [← hv]
    exact honly
  · obtain ⟨revision, hfind⟩ := h.stored
    exact getQueuePointer_of_find ((Registry.find_append (Registry.valid_wideOps maxIndex) _).trans
      (hstored.trans hfind)) (isInt64_natCast (by decide))

/-- The loop applies the entry of index `10 ^ 16`, bootstraps because there is none after it, and
applies it again. -/
theorem wide_index_applied_twice : (∀ i, (Registry.wideCalls i).Idle) ∧ ∃ ls t,
    exec (step (ascii "n1") (fun _ => soloFile) Unicode.asciiOnly)
      (State.start Registry.wideCalls wideNode) ls = some t ∧
    Along (step (ascii "n1") (fun _ => soloFile) Unicode.asciiOnly) (Others (ascii "n1"))
      (State.start Registry.wideCalls wideNode) ls ∧
    t.applied = [(maxIndex : Int), (maxIndex : Int)] := by
  obtain ⟨r, x, hwide, hpointer, hreach⟩ := exists_wide
  have hlifted : Reaches (step (ascii "n1") (fun _ => soloFile) Unicode.asciiOnly)
      (Others (ascii "n1")) (State.start Registry.wideCalls wideNode) (wideState r) := by
    refine hreach.map wideState Label.others fun s l t hok hstep => ⟨hok, ?_⟩
    simp only [step, wideState, hstep, Option.map_some]
  have hstart : step (ascii "n1") (fun _ => soloFile) Unicode.asciiOnly (wideState r) (.call .ok) =
      some ((wideState r).reach (maxIndex - 1 : Nat) .waiting) := by
    simp only [step, State.call, wideState, State.start, hpointer]
  have hnext : step (ascii "n1") (fun _ => soloFile) Unicode.asciiOnly
      ((wideState r).reach (maxIndex - 1 : Nat) .checking) (.call .ok) =
      some ((wideState r).reach (maxIndex - 1 : Nat) .fetching) := by
    have hexists : ¬(0 < ((maxIndex - 1 : Nat) : Int) ∧ Answer.ok = .ok ∧
        logEntryExists r.etcd.now ((maxIndex - 1 : Nat) + 1) = false) := by
      rintro ⟨-, -, hnot⟩
      rw [show ((maxIndex - 1 : Nat) : Int) + 1 = maxIndex by decide, hwide.next] at hnot
      exact absurd hnot (by decide)
    exact if_neg hexists
  obtain ⟨s₁, hreach₁, hphase₁, hpointer₁, hregistry₁, happlied₁⟩ :=
    wide_applied (fun _ => soloFile) Unicode.asciiOnly hwide
      (s := (wideState r).reach (maxIndex - 1 : Nat) .fetching) rfl rfl
  have hwide₁ : Wide s₁.registry.etcd x := by
    rw [hregistry₁]
    exact hwide
  obtain ⟨s₂, hreach₂, hphase₂, hpointer₂, hwide₂, happlied₂⟩ :=
    wide_bootstrapped (fun _ => soloFile) Unicode.asciiOnly hwide₁ hphase₁ hpointer₁
  obtain ⟨t, hreach₃, -, -, -, happlied₃⟩ :=
    wide_applied (fun _ => soloFile) Unicode.asciiOnly hwide₂ hphase₂ hpointer₂
  obtain ⟨ls, hok, hrun⟩ := hlifted.trans (.head (by trivial) hstart
    (.head (l := .tick) (by trivial) rfl (.head (by trivial) hnext
      (hreach₁.trans (hreach₂.trans hreach₃)))))
  refine ⟨Registry.idle_wideCalls, ls, t, hrun, hok, ?_⟩
  rw [happlied₃, happlied₂, happlied₁]
  rfl

end Shrimpd.Lsm.Loop
