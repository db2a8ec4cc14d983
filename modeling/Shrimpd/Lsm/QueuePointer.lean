import Shrimpd.Lsm.Held
import Shrimpd.Lsm.ReplicationLoop
import Shrimpd.Registry.Snapshot

/-!
# The advertised queue pointer

A node stores in etcd how far it has read the log, and log cleanup relies on
that.  A start stores the index of its snapshot when the parts are loaded, the
loop stores its pointer when an entry is applied or deferred, and a bootstrap
stores the index of its snapshot before it loads anything.  Here is which parts
may be missing at each of these moments.
-/

namespace Shrimpd.Lsm.QueuePointer

open Shrimpd.Lib Shrimpd.Lib.Exec Shrimpd.Types Shrimpd.Block
open Shrimpd.Lsm.Replication hiding State step Label
open Shrimpd.Lsm.Boot (startup LoadIO)
open Shrimpd.Registry (Answer Call Pinned Fits entries entriesUpTo getQueuePointer latestIndex
  activeParts nodeKey maxIndex)

/-! ## States -/

/-- Where the start of the process is; a running loop remembers the index of the start. -/
inductive Start where
  | down
  | registering
  | snapshot
  | snapshotIndex (index : Int) (revision : Nat)
  | loading (index : Int) (parts : List PartMeta)
  | storing (index : Int)
  | running (index : Int)
  | stopped

/-- `missed` is a ghost: the parts that a retry has dropped because etcd does not have them any
more, and those whose metadata a load has found without a data file. -/
structure State (ι : Type) where
  loop : Loop.State ι
  start : Start
  missed : List Bytes

inductive Label (ι : Type) where
  | loop (l : Loop.Label ι)
  | start
  | call (answer : Answer)
  | load (io : LoadIO) (order : List PartMeta)

section Model

variable {ι : Type}

/-- A process that has not started, on this disk. -/
def State.down (calls : ι → Call) (node : Node) : State ι := ⟨.start calls node, .down, []⟩

def State.go (s : State ι) (start : Start) : State ι := { s with start := start }

def State.register (s : State ι) (nodeID : Bytes) : State ι :=
  { s with loop := { s.loop with
      registry := s.loop.registry.write [.put (nodeKey nodeID) (.node nodeID)] } }

def State.save (s : State ι) (nodeID : Bytes) (index : Int) : State ι :=
  { s with loop := s.loop.save nodeID index }

/-- What a step of the loop misses. -/
def State.misses (s : State ι) : Loop.Label ι → List Bytes
  | .retry id asked _ => if asked && !s.loop.replica.active.contains id then [id] else []
  | .load _ order => unbacked s.loop.node order
  | _ => []

variable (nodeID : Bytes)

/-- The requests of `startup`. -/
def State.call (s : State ι) (answer : Answer) : Option (State ι) :=
  match s.start with
  | .registering =>
      match answer with
      | .ok => some ((s.register nodeID).go .snapshot)
      | .failed => some (s.go .stopped)
      | .failedAfter => some ((s.register nodeID).go .stopped)
  | .snapshot =>
      match answer with
      | .ok => some (s.go (.snapshotIndex (latestIndex s.loop.registry.etcd.now)
          s.loop.registry.etcd.revision))
      | _ => some (s.go .stopped)
  | .snapshotIndex index revision =>
      match answer, s.loop.registry.etcd.version revision with
      | .ok, some c => some (s.go (.loading index (activeParts c)))
      | _, _ => some (s.go .stopped)
  | .storing index =>
      if index ≤ 0 then some (s.go (.running index))
      else
        match answer with
        | .ok => some ((s.save nodeID index).go (.running index))
        | .failed => some (s.go .stopped)
        | .failedAfter => some ((s.save nodeID index).go .stopped)
  | _ => none

variable (content : Bytes → PartFile) (U : Unicode)

/-- The parts of the snapshot are loaded in any order. -/
def State.load (s : State ι) (io : LoadIO) (order : List PartMeta) : Option (State ι) :=
  match s.start with
  | .loading index parts =>
      if order.Perm parts then
        match startup content U s.loop.replica io order with
        | (r, true) => some ⟨s.loop.update r, .storing index, s.missed ++ unbacked s.loop.node order⟩
        | (r, false) => some ⟨s.loop.update r, .stopped, s.missed⟩
      else none
  | _ => none

variable [DecidableEq ι]

def step (s : State ι) : Label ι → Option (State ι)
  | .loop (.others l) =>
      (Loop.step nodeID content U s.loop (.others l)).map fun t => { s with loop := t }
  | .loop l =>
      match s.start with
      | .running _ =>
          (Loop.step nodeID content U s.loop l).map fun t =>
            { s with loop := t, missed := s.missed ++ s.misses l }
      | _ => none
  | .start =>
      match s.start with
      | .down => some (s.go .registering)
      | _ => none
  | .call answer => s.call nodeID answer
  | .load io order => s.load content U io order

end Model

/-! ## Stored pointers -/

section Stores

variable {ι : Type}

/-- All parts that the entries up to this index leave are listed with their files or deferred. -/
def Covers (s : State ι) (index : Int) : Prop :=
  ∀ a ∈ foldLog (entriesUpTo s.loop.registry.commits index), Held s.loop.replica a

instance (s : State ι) (index : Int) : Decidable (Covers s index) :=
  inferInstanceAs (Decidable (∀ a ∈ foldLog _, _))

/-- The index up to which the list of parts has been brought when a pointer is stored. -/
def State.reached (s : State ι) : Int :=
  match s.start with
  | .storing index => index
  | _ => s.loop.pointer

end Stores

/-! ## The others -/

def Start.isDown : Start → Bool
  | .down => true
  | _ => false

def isRereading : Loop.Phase → Bool
  | .rereading _ _ => true
  | _ => false

section Environment

variable {ι : Type}

/-- The entry that a call is about to append. -/
def appending (r : Registry.State ι) : Registry.Label ι → Option LogEntry
  | .advance i _ =>
      match r.calls i with
      | .nextIndex e _ _ _ => some e
      | _ => none
  | _ => none

def storesFor (nodeID : Bytes) : Registry.Label ι → Bool
  | .setQueuePointer id _ => id == nodeID
  | _ => false

/-- Parts have IDs of their own and flushes replace nothing.  Once the process has started, nobody
else stores its pointer or writes in its name, and etcd answers when the loop reads its pointer
after a bootstrap. -/
def Env (nodeID : Bytes) (s : State ι) : Label ι → Prop
  | .loop (.others l) =>
      Registry.Bounded s.loop.registry l ∧
      (s.start.isDown = false → storesFor nodeID l = false) ∧
      ∀ e ∈ appending s.loop.registry l,
        (s.start.isDown = false → e.nodeID ≠ nodeID) ∧ (e.op = .put → e.oldParts = []) ∧
          e.change.NewIn ((entries s.loop.registry.commits).map LogEntry.change)
  | .loop (.call answer) => isRereading s.loop.phase = true → answer = .ok
  | _ => True

instance (r : Registry.State ι) : ∀ l, Decidable (Registry.Bounded r l)
  | .advance _ _ => inferInstanceAs (Decidable True)
  | .setQueuePointer _ _ => inferInstanceAs (Decidable (_ ∧ _))
  | .registerNode id => inferInstanceAs (Decidable (47 ∉ id))
  | .expireNode id => inferInstanceAs (Decidable (47 ∉ id))

instance (nodeID : Bytes) (s : State ι) : ∀ l, Decidable (Env nodeID s l)
  | .loop (.others l) =>
      inferInstanceAs (Decidable (_ ∧ (_ → _) ∧ ∀ e ∈ appending s.loop.registry l, _ ∧ _ ∧ _))
  | .loop (.call _) => inferInstanceAs (Decidable (_ → _))
  | .loop .tick | .loop (.retry _ _ _) | .loop (.getLogs _ _) | .loop (.entry _)
  | .loop (.load _ _) | .start | .call _ | .load _ _ => inferInstanceAs (Decidable True)

end Environment

/-! ## The invariant -/

section Invariant

variable {ι : Type}

/-- What the node knows of the first `k` entries. -/
structure Tracks (nodeID : Bytes) (missed : List Bytes) (s : Loop.State ι) (k : Nat) : Prop where
  le : k ≤ s.registry.commits.length
  held : ∀ a ∈ foldLog (entries (s.registry.commits.take k)), Held s.replica a ∨ a ∈ missed
  deferred : ∀ d ∈ s.pending, d.oldParts = [] ∨
    ∃ e ∈ entries (s.registry.commits.take k), e.oldParts = d.oldParts
  foreign : ∀ c ∈ s.registry.commits.drop k, c.record.entry.nodeID ≠ nodeID

/-- A snapshot of the start; an empty log leaves the pointer at zero. -/
structure Snapped (nodeID : Bytes) (s : Loop.State ι) (index : Int) (c : Call) : Prop where
  pinned : Pinned s.registry.etcd.revision s.registry.commits c
  foreign : ∀ c ∈ s.registry.commits.drop index.toNat, c.record.entry.nodeID ≠ nodeID
  zero : index = 0 → Registry.pointer s.registry.etcd.now nodeID = 0

def AtPointer (nodeID : Bytes) (missed : List Bytes) (s : Loop.State ι) : Prop :=
  ∃ k : Nat, s.pointer = k ∧ Tracks nodeID missed s k

def LoopOk (nodeID : Bytes) (missed : List Bytes) (index : Int) (s : Loop.State ι) :
    Loop.Phase → Prop
  | .start => ∃ k : Nat, index = k ∧ Tracks nodeID missed s k ∧
      Registry.pointer s.registry.etcd.now nodeID = k
  | .stopped => True
  | .snapshotIndex _ i revision => AtPointer nodeID missed s ∧
      Pinned s.registry.etcd.revision s.registry.commits (.snapshotIndex i revision)
  | .storing _ i parts | .loading _ i parts => AtPointer nodeID missed s ∧
      Pinned s.registry.etcd.revision s.registry.commits (.gotSnapshot i parts)
  | .rereading _ i => ∃ k : Nat, i = k ∧ Tracks nodeID missed s k
  | _ => AtPointer nodeID missed s

def StartOk (nodeID : Bytes) (missed : List Bytes) (s : Loop.State ι) : Start → Prop
  | .down | .registering | .snapshot => s.phase = .start ∧ s.pending = []
  | .snapshotIndex index revision => s.phase = .start ∧ s.pending = [] ∧
      Snapped nodeID s index (.snapshotIndex index revision)
  | .loading index parts => s.phase = .start ∧ s.pending = [] ∧
      Snapped nodeID s index (.gotSnapshot index parts)
  | .storing index => s.phase = .start ∧ ∃ k : Nat, index = k ∧ Tracks nodeID missed s k ∧
      (k = 0 → Registry.pointer s.registry.etcd.now nodeID = 0)
  | .running index => LoopOk nodeID missed index s s.phase
  | .stopped => True

structure Inv (nodeID : Bytes) (s : State ι) : Prop where
  loop : Loop.Inv nodeID s.loop
  materialised : Registry.Materialised s.loop.registry
  fresh : FreshLog ((entries s.loop.registry.commits).map LogEntry.change)
  puts : ∀ e ∈ entries s.loop.registry.commits, e.op = .put → e.oldParts = []
  owner : s.loop.node.nodeID = nodeID
  described : Described s.loop.node
  start : StartOk nodeID s.missed s.loop s.start

variable {nodeID : Bytes} {missed : List Bytes} {s t : Loop.State ι} {k : Nat} {a : Bytes}

theorem Tracks.congr {new : List (Registry.Commit ι)} (h : Tracks nodeID missed s k)
    (hcommits : t.registry.commits = s.registry.commits ++ new)
    (hnew : ∀ c ∈ new, c.record.entry.nodeID ≠ nodeID) (hnode : t.node = s.node)
    (hpending : t.pending = s.pending) : Tracks nodeID missed t k := by
  have htake : t.registry.commits.take k = s.registry.commits.take k := by
    rw [hcommits, List.take_append_of_le_length h.le]
  have hheld : ∀ a, Held s.replica a → Held t.replica a := by
    intro a ha
    unfold Held Loop.State.replica
    rw [hnode, hpending]
    exact ha
  refine ⟨?_, ?_, ?_, ?_⟩
  · rw [hcommits, List.length_append]
    exact h.le.trans (Nat.le_add_right _ _)
  · intro a ha
    rw [htake] at ha
    exact (h.held a ha).imp_left (hheld a)
  · rw [htake, hpending]
    exact h.deferred
  · intro c hc
    rw [hcommits, List.drop_append_of_le_length h.le] at hc
    exact (List.mem_append.mp hc).elim (h.foreign c) (hnew c)

theorem Tracks.same (h : Tracks nodeID missed s k)
    (hcommits : t.registry.commits = s.registry.commits) (hnode : t.node = s.node)
    (hpending : t.pending = s.pending) : Tracks nodeID missed t k :=
  h.congr (hcommits.trans (List.append_nil _).symm) (List.forall_mem_nil _) hnode hpending

theorem Tracks.mono {missed' : List Bytes} (h : Tracks nodeID missed s k)
    (hmissed : ∀ a ∈ missed, a ∈ missed') : Tracks nodeID missed' s k :=
  ⟨h.le, fun a ha => (h.held a ha).imp_right (hmissed a), h.deferred, h.foreign⟩

section Log

variable (hfresh : FreshLog ((entries s.registry.commits).map LogEntry.change))
  (hputs : ∀ e ∈ entries s.registry.commits, e.op = .put → e.oldParts = [])

include hfresh hputs

/-- What an entry replaces is not left by the entries up to it. -/
theorem not_mem_foldLog_of_old {e : LogEntry} (he : e ∈ entries (s.registry.commits.take k))
    (ha : a ∈ e.oldParts) : a ∉ foldLog (entries (s.registry.commits.take k)) := by
  have hsplit : entries s.registry.commits =
      entries (s.registry.commits.take k) ++ entries (s.registry.commits.drop k) := by
    rw [← Registry.entries_append, List.take_append_drop]
  rw [hsplit, List.map_append] at hfresh
  rw [hsplit] at hputs
  rw [mem_foldLog fun x hx => hputs x (List.mem_append_left _ hx)]
  exact hfresh.of_append.not_mem_replay (List.mem_map_of_mem he) ha

/-- No deferred part replaces one that the entries leave. -/
theorem Tracks.not_mem_old (h : Tracks nodeID missed s k) {d : PendingEntry} (hd : d ∈ s.pending)
    (ha : a ∈ foldLog (entries (s.registry.commits.take k))) : a ∉ d.oldParts := by
  intro hold
  rcases h.deferred d hd with hnil | ⟨e, he, heq⟩
  · rw [hnil] at hold
    exact List.not_mem_nil hold
  · rw [← heq] at hold
    exact not_mem_foldLog_of_old hfresh hputs he hold ha

theorem Tracks.retried (h : Tracks nodeID missed s k) {d : PendingEntry} (hd : d ∈ s.pending)
    {asked : Bool} {r : Replication.State} (hr : RetriedPart s.replica asked d r) :
    Tracks nodeID (missed ++
      if asked && !s.replica.active.contains d.part.id then [d.part.id] else []) (s.update r) k := by
  refine ⟨h.le, ?_, ?_, h.foreign⟩
  · intro a ha
    rcases h.held a ha with hheld | hmissed
    · have hold := h.not_mem_old hfresh hputs hd ha
      rcases hr.held hd hheld hold with hheld | ⟨rfl, rfl, hgone⟩
      · exact .inl hheld
      · refine .inr (List.mem_append_right _ ?_)
        rw [if_pos (by simpa using hgone)]
        exact List.mem_singleton_self _
    · exact .inr (List.mem_append_left _ hmissed)
  · have hsub : ∀ x ∈ r.pending, x ∈ s.pending := by
      cases hr with
      | failed _ => exact fun x hx => hx
      | dropped _ _ => exact fun x hx => (mem_dropPending.mp hx).1
      | published _ => exact fun x hx => (mem_dropPending.mp hx).1
    exact fun x hx => h.deferred x (hsub x hx)

end Log

theorem foldEntry_of_puts {e : LogEntry} (hput : e.op = .put → e.oldParts = [])
    {active : List Bytes} :
    a ∈ foldEntry active e ↔ a ∈ active ∧ a ∉ e.oldParts ∧ a ≠ e.part.id ∨ a = e.part.id := by
  rw [foldEntry_eq hput, mem_commitPart]

theorem entries_take_succ {c : Registry.Commit ι} (hc : s.registry.commits[k]? = some c) :
    entries (s.registry.commits.take (k + 1)) =
      entries (s.registry.commits.take k) ++ [c.record.entry] := by
  obtain ⟨hlt, rfl⟩ := List.getElem?_eq_some_iff.mp hc
  rw [List.take_add_one, List.getElem?_eq_getElem hlt, Option.toList_some,
    Registry.entries_concat]

/-- The next entry is applied. -/
theorem Tracks.applied (h : Tracks nodeID missed s k) {c : Registry.Commit ι}
    (hc : s.registry.commits[k]? = some c)
    (hput : c.record.entry.op = .put → c.record.entry.oldParts = []) {r : Replication.State}
    (hr : AppliedEntry s.replica c.record.entry r) : Tracks nodeID missed (s.update r) (k + 1) := by
  obtain ⟨hlt, -⟩ := List.getElem?_eq_some_iff.mp hc
  have htake := entries_take_succ hc
  refine ⟨hlt, ?_, ?_, ?_⟩
  · intro a ha
    have ha : a ∈ foldLog (entries (s.registry.commits.take (k + 1))) := ha
    rw [htake, foldLog, List.foldl_concat] at ha
    rcases (foldEntry_of_puts hput).mp ha with ⟨hmem, hold, -⟩ | hid
    · exact (h.held a hmem).imp_left fun hheld => hr.held (.inr ⟨hheld, hold⟩)
    · exact .inl (hr.held (.inl hid))
  · intro d hd
    show d.oldParts = [] ∨ ∃ e ∈ entries (s.registry.commits.take (k + 1)), _
    rw [htake]
    have hold : d ∈ s.pending → d.oldParts = [] ∨ ∃ e ∈
        entries (s.registry.commits.take k) ++ [c.record.entry], e.oldParts = d.oldParts := by
      intro hd
      rcases h.deferred d hd with hnone | ⟨e, he, heq⟩
      · exact .inl hnone
      · exact .inr ⟨e, List.mem_append_left _ he, heq⟩
    cases hr with
    | deferred _ =>
        rcases mem_setPending.mp hd with ⟨hd, -⟩ | rfl
        · exact hold hd
        · exact .inr ⟨c.record.entry, by simp, rfl⟩
    | published _ => exact hold (mem_dropPending.mp hd).1
  · intro x hx
    refine h.foreign x ?_
    have hx : x ∈ s.registry.commits.drop (k + 1) := hx
    rw [← List.drop_drop] at hx
    exact List.mem_of_mem_drop hx

/-- The parts of a snapshot are loaded. -/
theorem tracks_booted {index : Int} {parts order : List PartMeta}
    (hpinned : Pinned s.registry.etcd.revision s.registry.commits (.gotSnapshot index parts))
    (horder : order.Perm parts) {r : Replication.State × Bool}
    (hr : Booted s.replica order r) (hok : r.2 = true)
    (hdeferred : ∀ d ∈ s.pending, d.oldParts = [] ∨
      ∃ e ∈ entries (s.registry.commits.take index.toNat), e.oldParts = d.oldParts)
    (hforeign : ∀ c ∈ s.registry.commits.drop index.toNat, c.record.entry.nodeID ≠ nodeID)
    (missed : List Bytes) :
    ∃ k : Nat, index = k ∧
      Tracks nodeID (missed ++ unbacked s.node order) (s.update r.1) k := by
  obtain ⟨k, hk, rfl, hparts⟩ := hpinned
  refine ⟨k, rfl, hk, ?_, ?_, hforeign⟩
  · intro a ha
    obtain ⟨p, hp, rfl⟩ := List.mem_map.mp ((hparts a).mpr ha)
    exact (hr.stored hok p (horder.mem_iff.mpr hp)).imp_right (List.mem_append_right _)
  · intro d hd
    rcases hr.deferred d hd with hd | hnil
    · exact hdeferred d hd
    · exact .inl hnil

theorem Tracks.failed (h : Tracks nodeID missed s k) {order : List PartMeta}
    {r : Replication.State × Bool} (hr : Booted s.replica order r) (hok : r.2 = false) :
    Tracks nodeID missed (s.update r.1) k := by
  refine ⟨h.le, fun a ha => (h.held a ha).imp_left (hr.failed hok a), ?_, h.foreign⟩
  intro d hd
  rcases hr.deferred d hd with hd | hnil
  · exact h.deferred d hd
  · exact .inl hnil

end Invariant

/-! ## Steps of the others -/

section Others

variable {ι : Type} {nodeID : Bytes} {missed : List Bytes}

/-- The log grows by entries of other nodes, and nobody stores the node's pointer. -/
structure Grows (nodeID : Bytes) (r r' : Registry.State ι) : Prop where
  commits : ∃ new, r'.commits = r.commits ++ new ∧ ∀ c ∈ new, c.record.entry.nodeID ≠ nodeID
  pinned : ∀ c, Pinned r.etcd.revision r.commits c → Pinned r'.etcd.revision r'.commits c
  pointer : Registry.pointer r'.etcd.now nodeID = Registry.pointer r.etcd.now nodeID

variable {s : Loop.State ι} {r : Registry.State ι}

theorem Grows.tracks (hgrows : Grows nodeID s.registry r) {k : Nat}
    (h : Tracks nodeID missed s k) : Tracks nodeID missed { s with registry := r } k := by
  obtain ⟨new, hcommits, hnew⟩ := hgrows.commits
  exact h.congr hcommits hnew rfl rfl

theorem Grows.snapped (hgrows : Grows nodeID s.registry r) {index : Int} {c : Call}
    (h : Snapped nodeID s index c) : Snapped nodeID { s with registry := r } index c := by
  obtain ⟨new, hcommits, hnew⟩ := hgrows.commits
  refine ⟨hgrows.pinned c h.pinned, ?_, fun hzero => hgrows.pointer.trans (h.zero hzero)⟩
  intro x hx
  have hx : x ∈ r.commits.drop index.toNat := hx
  rw [hcommits, List.drop_append] at hx
  rcases List.mem_append.mp hx with hx | hx
  · exact h.foreign x hx
  · exact hnew x (List.mem_of_mem_drop hx)

theorem Grows.loopOk (hgrows : Grows nodeID s.registry r) {index : Int} {phase : Loop.Phase}
    (h : LoopOk nodeID missed index s phase) :
    LoopOk nodeID missed index { s with registry := r } phase := by
  have hpointer : AtPointer nodeID missed s → AtPointer nodeID missed { s with registry := r } :=
    fun ⟨k, hk, htracks⟩ => ⟨k, hk, hgrows.tracks htracks⟩
  cases phase with
  | start =>
      obtain ⟨k, hk, htracks, hstored⟩ := h
      exact ⟨k, hk, hgrows.tracks htracks, hgrows.pointer.trans hstored⟩
  | stopped => trivial
  | snapshotIndex gap i revision => exact ⟨hpointer h.1, hgrows.pinned _ h.2⟩
  | storing gap i parts => exact ⟨hpointer h.1, hgrows.pinned _ h.2⟩
  | loading gap i parts => exact ⟨hpointer h.1, hgrows.pinned _ h.2⟩
  | rereading gap i =>
      obtain ⟨k, hk, htracks⟩ := h
      exact ⟨k, hk, hgrows.tracks htracks⟩
  | waiting | checking | fetching | page | saving | bootstrap => exact hpointer h

theorem Grows.startOk (hgrows : Grows nodeID s.registry r) {start : Start}
    (h : StartOk nodeID missed s start) :
    StartOk nodeID missed { s with registry := r } start := by
  cases start with
  | down | registering | snapshot => exact h
  | snapshotIndex index revision => exact ⟨h.1, h.2.1, hgrows.snapped h.2.2⟩
  | loading index parts => exact ⟨h.1, h.2.1, hgrows.snapped h.2.2⟩
  | storing index =>
      obtain ⟨hphase, k, hk, htracks, hzero⟩ := h
      exact ⟨hphase, k, hk, hgrows.tracks htracks, fun hk => hgrows.pointer.trans (hzero hk)⟩
  | running index => exact hgrows.loopOk h
  | stopped => trivial

theorem loopOthers_of_env {s : State ι} {l : Registry.Label ι} (h : Inv nodeID s)
    (henv : Env nodeID s (.loop (.others l))) : Loop.Others nodeID s.loop (.others l) := by
  obtain ⟨hbounded, hown, -⟩ := henv
  cases l with
  | setQueuePointer id index =>
      refine ⟨hbounded, fun hid => ?_⟩
      cases hdown : s.start.isDown with
      | false =>
          have hown := hown hdown
          simp [storesFor, hid] at hown
      | true =>
          have hstart := h.start
          cases hs : s.start with
          | down =>
              rw [hs] at hstart
              rw [hstart.1]
              rfl
          | _ =>
              rw [hs] at hdown
              cases hdown
  | advance i answer => trivial
  | registerNode id => exact hbounded
  | expireNode id => exact hbounded

variable [DecidableEq ι]

theorem appended_of_step {r r' : Registry.State ι} {l : Registry.Label ι}
    (hstep : Registry.Steps r l r') : r'.commits = r.commits ∨ ∃ e ∈ appending r l, ∃ c,
      r'.commits = r.commits ++ [c] ∧ c.record.entry = Registry.etcdEntry e := by
  cases hstep with
  | @append i answer e tries index revision c hcall =>
      refine .inr ⟨e, ?_, _, rfl, rfl⟩
      simp only [appending, hcall]
      rfl
  | _ => exact .inl rfl

theorem pointer_of_env {r r' : Registry.State ι} {l : Registry.Label ι}
    (hplain : Registry.Plain l) (hown : storesFor nodeID l = false)
    (hstep : Registry.Steps r l r') :
    Registry.pointer r'.etcd.now nodeID = Registry.pointer r.etcd.now nodeID := by
  rcases Registry.pointer_of_step hplain hstep nodeID with hsame | ⟨index, rfl, -⟩
  · exact hsame
  · simp [storesFor] at hown

/-- The log of entries after a step of the others. -/
theorem log_of_env {s : State ι} {l : Registry.Label ι} (h : Inv nodeID s)
    (henv : Env nodeID s (.loop (.others l))) (hstep : Registry.Steps s.loop.registry l r) :
    FreshLog ((entries r.commits).map LogEntry.change) ∧
      ∀ e ∈ entries r.commits, e.op = .put → e.oldParts = [] := by
  rcases appended_of_step hstep with hsame | ⟨e, he, c, hcommits, hentry⟩
  · rw [hsame]
    exact ⟨h.fresh, h.puts⟩
  · obtain ⟨-, hput, hnew⟩ := henv.2.2 e he
    rw [hcommits, Registry.entries_concat, hentry]
    refine ⟨?_, ?_⟩
    · rw [List.map_append]
      exact h.fresh.concat hnew
    · intro x hx
      rcases List.mem_append.mp hx with hx | hx
      · exact h.puts x hx
      · rw [List.mem_singleton.mp hx]
        exact hput

theorem grows_of_env {s : State ι} {l : Registry.Label ι}
    (henv : Env nodeID s (.loop (.others l))) (hup : s.start.isDown = false)
    (hstep : Registry.Steps s.loop.registry l r) : Grows nodeID s.loop.registry r := by
  refine ⟨?_, fun _ => Registry.pinned_of_step hstep,
    pointer_of_env henv.1.plain (henv.2.1 hup) hstep⟩
  rcases appended_of_step hstep with hsame | ⟨e, he, c, hcommits, hentry⟩
  · exact ⟨[], by rw [hsame, List.append_nil], List.forall_mem_nil _⟩
  · refine ⟨[c], hcommits, fun x hx => ?_⟩
    rw [List.mem_singleton.mp hx, hentry]
    exact (henv.2.2 e he).1 hup

theorem inv_others {s : State ι} {l : Registry.Label ι} (h : Inv nodeID s)
    (henv : Env nodeID s (.loop (.others l))) (hr : Registry.step s.loop.registry l = some r)
    (hbound : r.commits.length < maxIndex) :
    Inv nodeID { s with loop := { s.loop with registry := r } } := by
  have hstep := Registry.steps_of_step hr
  have hlength := (Registry.commits_grow hstep).length_le.trans_lt hbound
  obtain ⟨hfresh, hputs⟩ := log_of_env h henv hstep
  refine ⟨Loop.inv_others h.loop (loopOthers_of_env h henv) hbound hr,
    Registry.materialised_step h.materialised h.loop.consistent h.loop.kept hlength hstep,
    hfresh, hputs, h.owner, h.described, ?_⟩
  cases hdown : s.start.isDown with
  | false => exact (grows_of_env henv hdown hstep).startOk h.start
  | true =>
      have hstart := h.start
      cases hs : s.start with
      | down =>
          rw [hs] at hstart
          exact hstart
      | _ =>
          rw [hs] at hdown
          cases hdown

end Others

/-! ## Steps of the loop -/

/-- Nothing but the pointer is to be known of these phases. -/
def Plain : Loop.Phase → Prop
  | .waiting | .checking | .fetching | .page _ _ | .saving _ _ | .bootstrap _ => True
  | _ => False

/-- What a request of the loop does. -/
inductive Called {ι : Type} (nodeID : Bytes) (s : Loop.State ι) (answer : Answer) :
    Loop.State ι → Prop where
  | start {p} (hphase : s.phase = .start)
      (hp : getQueuePointer s.registry.etcd.now nodeID = some p) :
      Called nodeID s answer (s.reach p .waiting)
  | stop (hphase : s.phase = .start) : Called nodeID s answer (s.go .stopped)
  | plain {phase} (hstart : s.phase ≠ .start) (hstopped : s.phase ≠ .stopped)
      (hread : isRereading s.phase = false) (h : Plain phase) :
      Called nodeID s answer (s.go phase)
  | save {rest full} (hphase : s.phase = .saving rest full) :
      Called nodeID s answer ((s.save nodeID s.pointer).go (.page rest full))
  | snapshot {gap} (hphase : s.phase = .bootstrap gap) :
      Called nodeID s answer
        (s.go (.snapshotIndex gap (latestIndex s.registry.etcd.now) s.registry.etcd.revision))
  | parts {gap index revision c} (hphase : s.phase = .snapshotIndex gap index revision)
      (hversion : s.registry.etcd.version revision = some c) :
      Called nodeID s answer (s.go (.storing gap index (activeParts c)))
  | unstored {gap index parts} (hphase : s.phase = .storing gap index parts) (hindex : index ≤ 0) :
      Called nodeID s answer (s.go (.loading gap index parts))
  | store {gap index parts phase} (hphase : s.phase = .storing gap index parts) (hpos : 0 < index)
      (hnext : phase = .loading gap index parts ∨ Plain phase) :
      Called nodeID s answer ((s.save nodeID index).go phase)
  | reread {gap index p} (hphase : s.phase = .rereading gap index)
      (hp : getQueuePointer s.registry.etcd.now nodeID = some p) :
      Called nodeID s answer (s.reach p gap.next)
  | unread {gap index} (hphase : s.phase = .rereading gap index)
      (h : answer = .ok → getQueuePointer s.registry.etcd.now nodeID = none) :
      Called nodeID s answer (s.go gap.next)

section Loop

variable {ι : Type} {nodeID : Bytes} {missed : List Bytes} {s t : Loop.State ι}

theorem plain_next (gap : Loop.Gap) : Plain gap.next := by cases gap <;> trivial

theorem Called.of_phase {answer : Answer} {phase phase' : Loop.Phase} (hphase : s.phase = phase')
    (hstart : phase' ≠ .start) (hstopped : phase' ≠ .stopped) (hread : isRereading phase' = false)
    (h : Plain phase) : Called nodeID s answer (s.go phase) := by
  subst hphase
  exact .plain hstart hstopped hread h

theorem called_of_call {answer : Answer} (h : s.call nodeID answer = some t) :
    Called nodeID s answer t := by
  unfold Loop.State.call at h
  cases hphase : s.phase with
  | start =>
      simp only [hphase] at h
      split at h <;> obtain rfl := Option.some.inj h
      · exact .start hphase (by assumption)
      · exact .stop hphase
  | checking =>
      simp only [hphase] at h
      split_ifs at h <;> obtain rfl := Option.some.inj h
      · exact .of_phase hphase nofun nofun rfl trivial
      · exact .of_phase hphase nofun nofun rfl trivial
  | saving rest full =>
      simp only [hphase] at h
      split at h <;> obtain rfl := Option.some.inj h
      · exact .of_phase hphase nofun nofun rfl trivial
      · exact .save hphase
  | bootstrap gap =>
      simp only [hphase] at h
      split at h <;> obtain rfl := Option.some.inj h
      · exact .snapshot hphase
      · exact .of_phase hphase nofun nofun rfl (plain_next gap)
  | snapshotIndex gap index revision =>
      simp only [hphase] at h
      split at h <;> obtain rfl := Option.some.inj h
      · exact .parts hphase (by assumption)
      · exact .of_phase hphase nofun nofun rfl (plain_next gap)
  | storing gap index parts =>
      simp only [hphase] at h
      split_ifs at h with hindex
      · obtain rfl := Option.some.inj h
        exact .unstored hphase hindex
      · have hpos := not_le.mp hindex
        split at h <;> obtain rfl := Option.some.inj h
        · exact .store hphase hpos (.inl rfl)
        · exact .of_phase hphase nofun nofun rfl (plain_next gap)
        · exact .store hphase hpos (.inr (plain_next gap))
  | rereading gap index =>
      simp only [hphase] at h
      split at h
      · obtain rfl := Option.some.inj h
        exact .reread hphase (by assumption)
      · rename_i hnot
        obtain rfl := Option.some.inj h
        refine .unread hphase fun hok => ?_
        cases hp : getQueuePointer s.registry.etcd.now nodeID with
        | none => rfl
        | some p => exact absurd hp (hnot p hok)
  | _ => simp [hphase] at h

theorem LoopOk.of_plain {phase : Loop.Phase} (hplain : Plain phase) {index : Int}
    (h : AtPointer nodeID missed s) : LoopOk nodeID missed index s phase := by
  cases phase with
  | waiting | checking | fetching | page | saving | bootstrap => exact h
  | _ => exact hplain.elim

theorem LoopOk.atPointer {phase : Loop.Phase} {index : Int}
    (h : LoopOk nodeID missed index s phase) (hstart : phase ≠ .start) (hstopped : phase ≠ .stopped)
    (hread : isRereading phase = false) : AtPointer nodeID missed s := by
  cases phase with
  | start => exact absurd rfl hstart
  | stopped => exact absurd rfl hstopped
  | rereading gap i => cases hread
  | snapshotIndex gap i revision => exact h.1
  | storing gap i parts => exact h.1
  | loading gap i parts => exact h.1
  | waiting | checking | fetching | page | saving | bootstrap => exact h

/-- Storing the pointer leaves the log and the snapshots as they are. -/
theorem AtPointer.save (h : AtPointer nodeID missed s) (id : Bytes) (index : Int) :
    AtPointer nodeID missed (s.save id index) := by
  obtain ⟨k, hk, htracks⟩ := h
  exact ⟨k, hk, htracks.same rfl rfl rfl⟩

theorem AtPointer.go (h : AtPointer nodeID missed s) (phase : Loop.Phase) :
    AtPointer nodeID missed (s.go phase) := by
  obtain ⟨k, hk, htracks⟩ := h
  exact ⟨k, hk, htracks.same rfl rfl rfl⟩

theorem loopOk_called {answer : Answer} {index : Int} (hloop : Loop.Inv nodeID s)
    (hmaterialised : Registry.Materialised s.registry)
    (hbound : s.registry.commits.length < maxIndex)
    (h : LoopOk nodeID missed index s s.phase)
    (henv : isRereading s.phase = true → answer = .ok) (hcalled : Called nodeID s answer t) :
    LoopOk nodeID missed index t t.phase := by
  have hphase := hloop.phase
  cases hcalled with
  | @start p heq hp =>
      rw [heq] at h
      obtain ⟨k, -, htracks, hstored⟩ := h
      refine ⟨k, ?_, htracks.same rfl rfl rfl⟩
      rw [← hstored, Loop.pointer_of_getQueuePointer hp]
      rfl
  | stop => trivial
  | plain hstart hstopped hread hplain =>
      exact .of_plain hplain ((h.atPointer hstart hstopped hread).go _)
  | save heq =>
      rw [heq] at h
      have h : AtPointer nodeID missed s := h
      exact (h.save nodeID s.pointer).go _
  | snapshot heq =>
      rw [heq] at h
      have h : AtPointer nodeID missed s := h
      exact ⟨h.go _, Registry.pinned_snapshotIndex hloop.consistent hloop.kept hbound⟩
  | parts heq hversion =>
      rw [heq] at h
      exact ⟨h.1.go _, hmaterialised.pinned_gotSnapshot h.2 hversion⟩
  | unstored heq hindex =>
      rw [heq] at h
      exact ⟨h.1.go _, h.2⟩
  | @store gap i parts phase heq hpos hnext =>
      rw [heq] at h
      rcases hnext with rfl | hplain
      · exact ⟨(h.1.save nodeID i).go _, h.2.mono (s.registry.etcd.revision_le_commit _)⟩
      · exact .of_plain hplain ((h.1.save nodeID i).go _)
  | @reread gap i p heq hp =>
      rw [heq] at h hphase
      obtain rfl : i = p := Option.some.inj (hphase.2.symm.trans hp)
      obtain ⟨k, hk, htracks⟩ := h
      exact .of_plain (plain_next gap) ⟨k, hk, htracks.same rfl rfl rfl⟩
  | unread heq hnone =>
      rw [heq] at hphase henv
      rw [hphase.2] at hnone
      exact absurd (hnone (henv rfl)) nofun

/-- What a step does to the node's list, its files and its deferred parts, and to what is known of
them. -/
structure Keeps (nodeID : Bytes) (missed : List Bytes) (index : Int) (s t : Loop.State ι) :
    Prop where
  owner : t.node.nodeID = s.node.nodeID
  described : Described s.node → Described t.node
  ok : LoopOk nodeID missed index t t.phase

theorem keeps_plain {index : Int} (h : LoopOk nodeID missed index s s.phase)
    (hstart : s.phase ≠ .start) (hstopped : s.phase ≠ .stopped)
    (hread : isRereading s.phase = false) {phase : Loop.Phase} (hplain : Plain phase) :
    Keeps nodeID missed index s (s.go phase) :=
  ⟨rfl, id, .of_plain hplain ((h.atPointer hstart hstopped hread).go phase)⟩

theorem node_of_called {answer : Answer} (h : Called nodeID s answer t) : t.node = s.node := by
  cases h <;> rfl

variable {content : Bytes → PartFile} {U : Unicode}
  (hfresh : FreshLog ((entries s.registry.commits).map LogEntry.change))
  (hputs : ∀ e ∈ entries s.registry.commits, e.op = .put → e.oldParts = [])

theorem RetriedPart.owner {s r : Replication.State} {asked : Bool} {d : PendingEntry}
    (h : RetriedPart s asked d r) : r.node.nodeID = s.node.nodeID := by
  cases h with
  | dropped => rfl
  | failed htouch => exact htouch.nodeID
  | published hpublished => exact hpublished.nodeID

theorem AppliedEntry.owner {s r : Replication.State} {e : LogEntry} (h : AppliedEntry s e r) :
    r.node.nodeID = s.node.nodeID := by
  cases h with
  | deferred htouch => exact htouch.nodeID
  | published hpublished => exact hpublished.nodeID

include hputs in
/-- The next entry of the page: it is skipped, or it shows a gap, or it is applied. -/
theorem keeps_entry {index : Int} (hloop : Loop.Inv nodeID s) (howner : s.node.nodeID = nodeID)
    (h : LoopOk nodeID missed index s s.phase) {io : FetchIO}
    (hstep : s.entry content U io = some t) : Keeps nodeID missed index s t := by
  unfold Loop.State.entry at hstep
  split at hstep
  next full hphase =>
    obtain rfl := Option.some.inj hstep
    rw [hphase] at h
    refine ⟨rfl, id, .of_plain ?_ (AtPointer.go h _)⟩
    split_ifs <;> trivial
  next x rest full hphase =>
    have hpage := hloop.phase
    rw [hphase] at h hpage
    have hat : AtPointer nodeID missed s := h
    split_ifs at hstep with hskip hgap <;> obtain rfl := Option.some.inj hstep
    · exact ⟨rfl, id, hat.go _⟩
    · exact ⟨rfl, id, hat.go _⟩
    · obtain ⟨k, hk, htracks⟩ := hat
      obtain ⟨c, hc, rfl⟩ := hpage x List.mem_cons_self
      have hindex : c.record.index = k + 1 := by omega
      have hget : s.registry.commits[k]? = some c := by
        obtain ⟨j, hj⟩ := List.mem_iff_getElem?.mp hc
        have hjk := hloop.consistent.serial.index j c hj
        obtain rfl : j = k := by omega
        exact hj
      have hother : c.record.entry.nodeID ≠ s.replica.node.nodeID := by
        refine fun heq => htracks.foreign c ?_ (heq.trans howner)
        exact List.mem_of_getElem? (i := 0) (by rw [List.getElem?_drop]; exact hget)
      have hput := hputs c.record.entry (List.mem_map_of_mem hc)
      have happlied := @appliedEntry_applyLogEntry content s.replica U io c.record.entry hother hput
      refine ⟨happlied.owner, happlied.described, k + 1, hindex, ?_⟩
      exact (htracks.applied hget hput happlied).same rfl rfl rfl
  next => exact absurd hstep (by simp)

include hfresh hputs in
theorem keeps_retry {index : Int} (h : LoopOk nodeID missed index s s.phase)
    (hphase : s.phase = .checking) {d : PendingEntry} (hd : d ∈ s.pending) (asked : Bool)
    (io : FetchIO) :
    Keeps nodeID (missed ++
      if asked && !s.replica.active.contains d.part.id then [d.part.id] else []) index s
      (s.update (retryPendingPart content U s.replica asked io d)) := by
  have hretried := @retriedPart_retryPendingPart content U s.replica asked io d
  refine ⟨hretried.owner, hretried.described, ?_⟩
  rw [hphase] at h
  obtain ⟨k, hk, htracks⟩ := h
  have hplain : Plain s.phase := by rw [hphase]; trivial
  exact .of_plain hplain ⟨k, hk, htracks.retried hfresh hputs hd hretried⟩

theorem take_subset_take {k k' : Nat} (h : k ≤ k') {e : LogEntry}
    (he : e ∈ entries (s.registry.commits.take k)) : e ∈ entries (s.registry.commits.take k') :=
  List.map_subset _ (List.take_subset_take_left _ h) he

theorem keeps_load {index : Int} (hloop : Loop.Inv nodeID s) (hdescribed : Described s.node)
    (h : LoopOk nodeID missed index s s.phase) {io : LoadIO} {order : List PartMeta}
    (hstep : s.load content U io order = some t) :
    Keeps nodeID (missed ++ unbacked s.node order) index s t := by
  unfold Loop.State.load at hstep
  split at hstep
  next gap i parts hphase =>
    have hahead := hloop.phase
    rw [hphase] at h hahead
    obtain ⟨⟨k, hk, htracks⟩, hpinned⟩ := h
    have hbooted : Booted s.replica order _ :=
      @booted_bootstrapFromParts content U order s.replica io hdescribed
    split_ifs at hstep with horder
    split at hstep <;> rename_i r hr <;> obtain rfl := Option.some.inj hstep
    · rw [hr] at hbooted
      refine ⟨hbooted.nodeID, fun _ => hbooted.described, ?_⟩
      have hle : k ≤ i.toNat := by
        have := hahead.1.2.1
        omega
      obtain ⟨k', hk', htracks'⟩ := tracks_booted hpinned horder hbooted rfl
        (fun d hd => (htracks.deferred d hd).imp_right fun ⟨e, he, heq⟩ =>
          ⟨e, take_subset_take hle he, heq⟩)
        (fun c hc => htracks.foreign c (List.drop_subset_drop_left _ hle hc)) missed
      exact ⟨k', hk', htracks'.same rfl rfl rfl⟩
    · rw [hr] at hbooted
      refine ⟨hbooted.nodeID, fun _ => hbooted.described, ?_⟩
      refine .of_plain (plain_next gap) ⟨k, hk, ?_⟩
      exact ((htracks.failed hbooted rfl).mono fun a ha => List.mem_append_left _ ha).same
        rfl rfl rfl
  next => exact absurd hstep (by simp)

end Loop

/-! ## Runs -/

section Runs

variable {ι : Type} {nodeID : Bytes} {content : Bytes → PartFile} {U : Unicode} {s t : State ι}

theorem Inv.go (h : Inv nodeID s) {start : Start} (hstart : StartOk nodeID s.missed s.loop start) :
    Inv nodeID (s.go start) := { h with start := hstart }

theorem snapped_snapshot (h : Inv nodeID s)
    (hbound : s.loop.registry.commits.length < maxIndex) :
    Snapped nodeID s.loop (latestIndex s.loop.registry.etcd.now)
      (.snapshotIndex (latestIndex s.loop.registry.etcd.now) s.loop.registry.etcd.revision) := by
  have hlast := Registry.latestIndex_eq h.loop.consistent h.loop.kept hbound
  refine ⟨Registry.pinned_snapshotIndex h.loop.consistent h.loop.kept hbound, ?_, ?_⟩
  · rw [hlast, Int.toNat_natCast, List.drop_length]
    exact List.forall_mem_nil _
  · intro hzero
    have hpointers := h.loop.kept.pointers nodeID
    rw [hlast] at hzero
    omega

theorem inv_load {io : LoadIO} {order : List PartMeta} (h : Inv nodeID s)
    (hstep : s.load content U io order = some t) : Inv nodeID t := by
  have hok := h.start
  unfold State.load at hstep
  cases hs : s.start with
  | loading index parts =>
      rw [hs] at hok
      obtain ⟨hphase, hpending, hsnapped⟩ := hok
      have hbooted := @booted_startup content U order s.loop.replica io h.described
      simp only [hs] at hstep
      split_ifs at hstep with horder
      split at hstep <;> rename_i r hr <;> obtain rfl := Option.some.inj hstep
      all_goals
        rw [hr] at hbooted
        have hloop : Loop.Inv nodeID (s.loop.update r) :=
          ⟨h.loop.consistent, h.loop.kept, h.loop.fresh, h.loop.traced, h.loop.pointer,
            h.loop.phase⟩
      · refine ⟨hloop, h.materialised, h.fresh, h.puts, hbooted.nodeID.trans h.owner,
          hbooted.described, hphase, ?_⟩
        obtain ⟨k, rfl, htracks⟩ := tracks_booted hsnapped.pinned horder hbooted rfl
          (by rw [hpending]; exact List.forall_mem_nil _) hsnapped.foreign s.missed
        exact ⟨k, rfl, htracks, fun hzero => hsnapped.zero (by rw [hzero]; rfl)⟩
      · exact ⟨hloop, h.materialised, h.fresh, h.puts, hbooted.nodeID.trans h.owner,
          hbooted.described, trivial⟩
  | _ => simp [hs] at hstep

variable [DecidableEq ι]

/-- The node's own steps leave the log alone; they may store the node's pointer. -/
inductive Own (nodeID : Bytes) (r : Registry.State ι) : Registry.State ι → Prop where
  | none : Own nodeID r r
  | stored (index : Int) (r' : Registry.State ι)
      (h : Registry.Steps r (.setQueuePointer nodeID index) r') : Own nodeID r r'
  | registered (r' : Registry.State ι)
      (h : Registry.Steps r (.registerNode nodeID) r') : Own nodeID r r'

theorem Own.commits {r r' : Registry.State ι} (h : Own nodeID r r') : r'.commits = r.commits := by
  cases h with
  | none => rfl
  | stored index r' h => cases h; rfl
  | registered r' h => cases h; rfl

theorem Own.materialised {r r' : Registry.State ι} (h : Own nodeID r r')
    (hr : Registry.Materialised r) (hconsistent : Registry.Consistent r) (hkept : Registry.Kept r)
    (hbound : r.commits.length < maxIndex) : Registry.Materialised r' := by
  cases h with
  | none => exact hr
  | stored index r' h => exact Registry.materialised_step hr hconsistent hkept hbound h
  | registered r' h => exact Registry.materialised_step hr hconsistent hkept hbound h

theorem own_of_loop {s t : Loop.State ι} {l : Loop.Label ι} (hl : ∀ r, l ≠ .others r)
    (hstep : Loop.Steps nodeID content U s l t) : Own nodeID s.registry t.registry := by
  cases hstep with
  | others => exact absurd rfl (hl _)
  | save => exact .stored s.pointer _ .setQueuePointer
  | @store _ _ index => exact .stored index _ .setQueuePointer
  | _ => exact .none

theorem keeps_of_loop {l : Loop.Label ι} {index : Int} {u : Loop.State ι} (h : Inv nodeID s)
    (hbound : s.loop.registry.commits.length < maxIndex) (henv : Env nodeID s (.loop l))
    (hs : s.start = .running index) (hl : ∀ r, l ≠ .others r)
    (hstep : Loop.step nodeID content U s.loop l = some u) :
    Keeps nodeID (s.missed ++ s.misses l) index s.loop u := by
  have hok := h.start
  rw [hs] at hok
  have hok : LoopOk nodeID s.missed index s.loop s.loop.phase := hok
  have hnone : LoopOk nodeID (s.missed ++ []) index s.loop s.loop.phase := by
    rw [List.append_nil]
    exact hok
  cases l with
  | others r => exact absurd rfl (hl r)
  | tick =>
      simp only [Loop.step] at hstep
      split at hstep
      next hphase =>
        obtain rfl := Option.some.inj hstep
        exact keeps_plain hnone (by simp [hphase]) (by simp [hphase]) (by rw [hphase]; rfl) trivial
      next => cases hstep
  | retry id asked io =>
      simp only [Loop.step] at hstep
      split at hstep
      next d hphase hd =>
        obtain rfl := Option.some.inj hstep
        have hid : d.part.id = id := by simpa using List.find?_some hd
        subst hid
        exact keeps_retry h.fresh h.puts hok hphase (List.mem_of_find?_eq_some hd) asked io
      next => cases hstep
  | call answer =>
      have hcalled := called_of_call hstep
      have hnode := node_of_called hcalled
      refine ⟨by rw [hnode], by rw [hnode]; exact id, ?_⟩
      exact loopOk_called h.loop h.materialised hbound hnone henv hcalled
  | getLogs answer decodes =>
      simp only [Loop.step] at hstep
      split at hstep
      next hphase =>
        split at hstep <;> obtain rfl := Option.some.inj hstep
        · exact keeps_plain hnone (by simp [hphase]) (by simp [hphase]) (by rw [hphase]; rfl)
            trivial
        · exact keeps_plain hnone (by simp [hphase]) (by simp [hphase]) (by rw [hphase]; rfl)
            trivial
      next hphase _ =>
        obtain rfl := Option.some.inj hstep
        exact keeps_plain hnone (by simp [hphase]) (by simp [hphase]) (by rw [hphase]; rfl) trivial
      next => cases hstep
  | entry io => exact keeps_entry h.puts h.loop h.owner hnone hstep
  | load io order => exact keeps_load h.loop h.described hok hstep

theorem inv_loop {l : Loop.Label ι} {index : Int} {u : Loop.State ι} (h : Inv nodeID s)
    (hbound : s.loop.registry.commits.length < maxIndex) (henv : Env nodeID s (.loop l))
    (hs : s.start = .running index) (hl : ∀ r, l ≠ .others r)
    (hstep : Loop.step nodeID content U s.loop l = some u) :
    Inv nodeID { s with loop := u, missed := s.missed ++ s.misses l } := by
  have hsteps := Loop.steps_of_step hstep
  have hown := own_of_loop hl hsteps
  have hkeeps := keeps_of_loop h hbound henv hs hl hstep
  have hothers : Loop.Others nodeID s.loop l := by
    cases l with
    | others r => exact absurd rfl (hl r)
    | _ => trivial
  refine ⟨Loop.inv_step h.loop hothers (by rw [hown.commits]; exact hbound) hsteps,
    hown.materialised h.materialised h.loop.consistent h.loop.kept hbound,
    by rw [hown.commits]; exact h.fresh, by rw [hown.commits]; exact h.puts,
    hkeeps.owner.trans h.owner, hkeeps.described h.described, ?_⟩
  show StartOk nodeID _ u s.start
  rw [hs]
  exact hkeeps.ok

/-- The start of the process writes to etcd. -/
theorem Inv.write {l : Registry.Label ι} {r : Registry.State ι} (h : Inv nodeID s)
    (hbound : s.loop.registry.commits.length < maxIndex)
    (hothers : Loop.Others nodeID s.loop (.others l))
    (hr : Registry.step s.loop.registry l = some r) (hown : Own nodeID s.loop.registry r)
    {start : Start} (hstart : StartOk nodeID s.missed { s.loop with registry := r } start) :
    Inv nodeID ⟨{ s.loop with registry := r }, start, s.missed⟩ := by
  exact ⟨Loop.inv_others h.loop hothers (by rw [hown.commits]; exact hbound) hr,
    hown.materialised h.materialised h.loop.consistent h.loop.kept hbound,
    by rw [hown.commits]; exact h.fresh, by rw [hown.commits]; exact h.puts, h.owner, h.described,
    hstart⟩

/-- The pointer of the start is stored. -/
theorem inv_stored (h : Inv nodeID s) (hbound : s.loop.registry.commits.length < maxIndex)
    {k : Nat} (hphase : s.loop.phase = .start) (htracks : Tracks nodeID s.missed s.loop k)
    {start : Start} (hstart : start = .running k ∨ start = .stopped) :
    Inv nodeID ((s.save nodeID k).go start) := by
  have hindex : (0 : Int) ≤ k ∧ (k : Int) ≤ s.loop.registry.commits.length := by
    have := htracks.le
    omega
  have hothers : Loop.Others nodeID s.loop (.others (.setQueuePointer nodeID k)) :=
    ⟨hindex, fun _ => by rw [hphase]; rfl⟩
  have hint : IsInt64 (k : Int) := by
    have hbounded : Registry.Bounded s.loop.registry (.setQueuePointer nodeID k) := hindex
    exact hbounded.isInt64 hbound
  have hsaved := @Loop.getQueuePointer_save ι nodeID s.loop k hint
  refine h.write hbound hothers rfl (.stored k _ .setQueuePointer) ?_
  rcases hstart with rfl | rfl
  · show LoopOk nodeID s.missed k _ s.loop.phase
    rw [hphase]
    exact ⟨k, rfl, htracks.same rfl rfl rfl,
      Loop.pointer_of_getQueuePointer hsaved⟩
  · trivial

theorem inv_call {answer : Answer} (h : Inv nodeID s) (hslash : 47 ∉ nodeID)
    (hbound : s.loop.registry.commits.length < maxIndex)
    (hstep : s.call nodeID answer = some t) : Inv nodeID t := by
  have hok := h.start
  unfold State.call at hstep
  cases hs : s.start with
  | registering =>
      rw [hs] at hok
      have hregister : ∀ start, StartOk nodeID s.missed (s.register nodeID).loop start →
          Inv nodeID ((s.register nodeID).go start) := fun start hstart =>
        h.write (l := .registerNode nodeID) hbound hslash rfl (.registered _ .registerNode) hstart
      simp only [hs] at hstep
      split at hstep <;> obtain rfl := Option.some.inj hstep
      · exact hregister .snapshot hok
      · exact h.go trivial
      · exact hregister .stopped trivial
  | snapshot =>
      rw [hs] at hok
      simp only [hs] at hstep
      split at hstep <;> obtain rfl := Option.some.inj hstep
      · exact h.go ⟨hok.1, hok.2, snapped_snapshot h hbound⟩
      · exact h.go trivial
  | snapshotIndex index revision =>
      rw [hs] at hok
      obtain ⟨hphase, hpending, hsnapped⟩ := hok
      simp only [hs] at hstep
      split at hstep
      · rename_i c hversion
        obtain rfl := Option.some.inj hstep
        exact h.go ⟨hphase, hpending, h.materialised.pinned_gotSnapshot hsnapped.pinned hversion,
          hsnapped.foreign, hsnapped.zero⟩
      · obtain rfl := Option.some.inj hstep
        exact h.go trivial
  | storing index =>
      rw [hs] at hok
      obtain ⟨hphase, k, rfl, htracks, hzero⟩ := hok
      simp only [hs] at hstep
      split_ifs at hstep with hindex
      · obtain rfl := Option.some.inj hstep
        obtain rfl : k = 0 := by omega
        refine h.go ?_
        show LoopOk nodeID s.missed _ s.loop s.loop.phase
        rw [hphase]
        exact ⟨0, rfl, htracks, hzero rfl⟩
      · split at hstep <;> obtain rfl := Option.some.inj hstep
        · exact inv_stored h hbound hphase htracks (.inl rfl)
        · exact h.go trivial
        · exact inv_stored h hbound hphase htracks (.inr rfl)
  | _ => simp [hs] at hstep

theorem inv_step {l : Label ι} (h : Inv nodeID s) (hslash : 47 ∉ nodeID) (henv : Env nodeID s l)
    (hbound : t.loop.registry.commits.length < maxIndex)
    (hlength : s.loop.registry.commits.length < maxIndex)
    (hstep : step nodeID content U s l = some t) : Inv nodeID t := by
  cases l with
  | start =>
      simp only [step] at hstep
      split at hstep
      next hs =>
        obtain rfl := Option.some.inj hstep
        have hok := h.start
        rw [hs] at hok
        exact h.go hok
      next => cases hstep
  | call answer => exact inv_call h hslash hlength hstep
  | load io order => exact inv_load h hstep
  | loop l =>
      cases l with
      | others l =>
          obtain ⟨u, hu, rfl⟩ := Option.map_eq_some_iff.mp hstep
          obtain ⟨r, hr, rfl⟩ := Option.map_eq_some_iff.mp hu
          exact inv_others h henv hr hbound
      | _ =>
          simp only [step] at hstep
          split at hstep
          next index hs =>
            obtain ⟨u, hu, rfl⟩ := Option.map_eq_some_iff.mp hstep
            exact inv_loop h hlength henv hs nofun hu
          next => cases hstep

end Runs

def demoStep : State (Fin 4) → Label (Fin 4) → Option (State (Fin 4)) :=
  step (ascii "n2") (fun _ => soloFile) Unicode.asciiOnly

def demoStart : State (Fin 4) := .down Loop.demoCalls Loop.demoNode

def demoEnd (ls : List (Label (Fin 4))) : State (Fin 4) :=
  (exec demoStep demoStart ls).getD demoStart

/-- The node starts when the log has one entry and loads its part. -/
def started : List (Label (Fin 4)) :=
  [.loop (.others (.advance 0 .ok)), .loop (.others (.advance 0 .ok)),
    .loop (.others (.advance 0 .ok)), .start, .call .ok, .call .ok, .call .ok,
    .load .good [Registry.etcdPart (chainPart (ascii "p1"))]]

/-- The loop has caught up and bootstraps; meanwhile another entry is appended. -/
def bootstrapping : List (Label (Fin 4)) :=
  started ++
    [.call .ok, .loop (.call .ok), .loop .tick, .loop (.call .ok),
      .loop (.others (.advance 1 .ok)), .loop (.others (.advance 1 .ok)), .loop (.call .ok),
      .loop (.call .ok)]

/-- The pointer is stored, and then the part cannot be written. -/
def unwritten : List (Label (Fin 4)) :=
  bootstrapping ++
    [.loop (.call .ok),
      .loop (.load ⟨fun _ => true, fun _ => { FetchIO.good with writePart := .failed }⟩
        [Registry.etcdPart (chainPart (ascii "p2"))])]

end Shrimpd.Lsm.QueuePointer
