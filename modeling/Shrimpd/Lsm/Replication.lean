import Shrimpd.Lsm.CompactCommit
import Shrimpd.Lib.Exec
import Mathlib.Logic.Relation

/-!
# Replication of parts and garbage collection

A replica applies the global log entry by entry: it downloads the part, and a
merge also drops the parts it replaces.  A download that fails is deferred and
retried later.  Garbage collection looks only at etcd's active parts and at file
ages.  A part may be collected while its replacement is still to be downloaded;
where that never happens, the replica keeps every entry it holds.
-/

namespace Shrimpd.Lsm.Replication

open Shrimpd.Lib Shrimpd.Lib.Exec Shrimpd.Types Shrimpd.Block

/-! ## The log -/

inductive LogOp where
  | put
  | merge
  deriving DecidableEq, Repr

structure LogEntry where
  op : LogOp
  part : PartMeta
  oldParts : List Bytes
  nodeID : Bytes
  deriving DecidableEq

/-- A part that is to be downloaded, with the parts it replaces. -/
structure PendingEntry where
  part : PartMeta
  oldParts : List Bytes

/-- The replica, etcd's active parts, the log, and how far the replica has read it. -/
structure State where
  node : Node
  active : List Bytes
  log : List LogEntry
  pointer : Nat
  pending : List PendingEntry

section Model

variable (content : Bytes → PartFile)

/-- A part's rows are among those of the part that replaces it. -/
def Covers (oldParts : List Bytes) (id : Bytes) : Prop :=
  ∀ a ∈ oldParts, ∀ r ∈ (content a).rows, r ∈ (content id).rows

instance (oldParts : List Bytes) (id : Bytes) : Decidable (Covers content oldParts id) :=
  inferInstanceAs (Decidable (∀ a ∈ oldParts, ∀ r ∈ (content a).rows, r ∈ (content id).rows))

/-- As flushes and compactions write it: a flush replaces nothing, and a merged part has
the rows of the parts it replaces. -/
def LogEntry.WellFormed (e : LogEntry) : Prop :=
  (e.op = .put → e.oldParts = []) ∧ Covers content e.oldParts e.part.id

instance (e : LogEntry) : Decidable (e.WellFormed content) :=
  inferInstanceAs (Decidable (_ ∧ _))

/-! ## Downloading a part -/

structure FetchIO where
  fetched : Bool
  writePart : WriteAnswer
  rebuilt : Bool
  writeMeta : WriteAnswer
  removes : Bool
  opens : Bytes → Bool

def FetchIO.good : FetchIO := ⟨true, .ok, true, .ok, true, fun _ => true⟩

/-- No peer answers. -/
def FetchIO.unreachable : FetchIO := { FetchIO.good with fetched := false }

/-- The downloaded file is written and then removed again. -/
def FetchIO.discards (io : FetchIO) : Bool :=
  io.fetched && io.writePart == .ok && (!io.rebuilt || io.writeMeta != .ok) && io.removes

def rebuildPartTokens (U : Unicode) (file : PartFile) (part : PartMeta) : PartMeta :=
  { part with
    tokens := (buildTokenSetFromPart U file).1
    tokensTruncated := (buildTokenSetFromPart U file).2
    blockCount := file.blocks.length }

/-- Fetch, write and describe a part; peers serve the part's own bytes. -/
def fetchPart (U : Unicode) (n : Node) (io : FetchIO) (part : PartMeta) :
    Node × Option PartMeta :=
  if !io.fetched then (n, none)
  else
    let written := n.setFile part.id (some (content part.id))
    let full := rebuildPartTokens U (content part.id) part
    match io.writePart with
    | .failed => (n, none)
    | .failedAfterRename => (written, none)
    | .ok =>
        if !io.rebuilt then (written.removeFile io.removes part.id, none)
        else
          match io.writeMeta with
          | .failed => (written.removeFile io.removes part.id, none)
          | .failedAfterRename =>
              ((written.setMeta part.id (some full)).removeFile io.removes part.id, none)
          | .ok => (written.setMeta part.id (some full), some full)

/-! ## Steps -/

/-- `l.pendingParts[id] = ...`. -/
def setPending (pending : List PendingEntry) (p : PendingEntry) : List PendingEntry :=
  (pending.filter fun q => q.part.id != p.part.id) ++ [p]

def dropPending (pending : List PendingEntry) (ids : List Bytes) : List PendingEntry :=
  pending.filter fun q => !ids.contains q.part.id

/-- One log entry; a failure defers the part. -/
def applyLogEntry (U : Unicode) (s : State) (io : FetchIO) (e : LogEntry) : State :=
  if e.nodeID = s.node.nodeID then s
  else
    match fetchPart content U s.node io e.part with
    | (n, none) =>
        { s with node := n, pending := setPending s.pending ⟨e.part, e.oldParts⟩ }
    | (n, some part) =>
        match e.op with
        | .put => { s with node := ((n.publish part []).getPart io.opens part.id).1 }
        | .merge =>
            { s with
              node := ((n.publish part e.oldParts).getPart io.opens part.id).1
              pending := dropPending s.pending e.oldParts }

/-- A retried part is appended without looking whether it is listed already. -/
def publishPending (n : Node) (part : PartMeta) (oldParts : List Bytes) : Node :=
  { n with parts := (n.parts.filter fun p => !oldParts.contains p.id) ++ [part] }

/-- One part of a retry pass; `asked` says whether etcd answers if the part exists. -/
def retryPendingPart (U : Unicode) (s : State) (asked : Bool) (io : FetchIO)
    (p : PendingEntry) : State :=
  if asked && !s.active.contains p.part.id then
    { s with pending := dropPending s.pending [p.part.id] }
  else
    match fetchPart content U s.node io p.part with
    | (n, none) => { s with node := n }
    | (n, some part) =>
        { s with
          node := ((publishPending n part p.oldParts).getPart io.opens part.id).1
          pending := dropPending s.pending [p.part.id] }

inductive Label where
  | append (e : LogEntry)
  | apply (io : FetchIO)
  | retry (id : Bytes) (asked : Bool) (io : FetchIO)
  | collect (pass : GCPass)

def step (U : Unicode) (s : State) : Label → Option State
  | .append e =>
      if e.WellFormed content then
        some { s with
          active := commitPart s.active e.part.id e.oldParts
          log := s.log ++ [e] }
      else none
  | .apply io =>
      match s.log[s.pointer]? with
      | none => none
      | some e => some { applyLogEntry content U s io e with pointer := s.pointer + 1 }
  | .retry id asked io =>
      match s.pending.find? fun p => p.part.id == id with
      | none => none
      | some p => some (retryPendingPart content U s asked io p)
  | .collect pass => some { s with node := s.node.runGC s.active pass }

end Model

/-! ## What is held -/

/-- The entry is in a listed part whose data file is on disk. -/
def Holds (n : Node) (e : Entry) : Prop := ∃ p ∈ n.parts, e ∈ n.onDisk p.id

/-- The part is listed and its data file is on disk. -/
def Has (n : Node) (id : Bytes) : Prop :=
  id ∈ n.parts.map PartMeta.id ∧ (n.files id).isSome = true

section Held

variable {content : Bytes → PartFile}

/-- The node's copies are the parts' own files. -/
def Faithful (content : Bytes → PartFile) (n : Node) : Prop :=
  ∀ id f, n.files id = some f ∨ n.fds id = some f → f = content id

/-- Whatever part `n` has, `n'` has it or one with all its rows. -/
def Succeeds (content : Bytes → PartFile) (n n' : Node) : Prop :=
  ∀ id, Has n id → ∃ id', Has n' id' ∧ ∀ r ∈ (content id).rows, r ∈ (content id').rows

theorem Succeeds.refl (n : Node) : Succeeds content n n :=
  fun id h => ⟨id, h, fun _ hr => hr⟩

theorem Succeeds.trans {a b c : Node} (hab : Succeeds content a b)
    (hbc : Succeeds content b c) : Succeeds content a c := by
  intro id hid
  obtain ⟨id', hid', hrows⟩ := hab id hid
  obtain ⟨id'', hid'', hrows'⟩ := hbc id' hid'
  exact ⟨id'', hid'', fun r hr => hrows' r (hrows r hr)⟩

/-- What a download leaves: only the part's own files differ, and the data file is
removed only when the download discards it. -/
structure Fetched (content : Bytes → PartFile) (n n' : Node) (io : FetchIO) (id : Bytes)
    (r : Option PartMeta) : Prop where
  nodeID : n'.nodeID = n.nodeID
  parts : n'.parts = n.parts
  fds : n'.fds = n.fds
  other : ∀ a, a ≠ id → n'.files a = n.files a
  own : ∀ f, n'.files id = some f → n.files id = some f ∨ f = content id
  kept : io.discards = false → (n.files id).isSome = true → (n'.files id).isSome = true
  done : ∀ m, r = some m → m.id = id ∧ (n'.files id).isSome = true

theorem Fetched.unchanged (n : Node) (io : FetchIO) (id : Bytes) :
    Fetched content n n io id none :=
  ⟨rfl, rfl, rfl, fun _ _ => rfl, fun _ h => Or.inl h, fun _ h => h, by simp⟩

theorem Fetched.written {n n' : Node} {io : FetchIO} {id : Bytes} {r : Option PartMeta}
    (hnode : n'.nodeID = n.nodeID) (hparts : n'.parts = n.parts) (hfds : n'.fds = n.fds)
    (hfiles : n'.files = Function.update n.files id (some (content id)))
    (hr : ∀ m, r = some m → m.id = id) : Fetched content n n' io id r := by
  have hown : n'.files id = some (content id) := by rw [hfiles, Function.update_self]
  refine ⟨hnode, hparts, hfds, ?_, ?_, ?_, ?_⟩
  · intro a ha
    rw [hfiles, Function.update_of_ne ha]
  · intro f hf
    rw [hown, Option.some.injEq] at hf
    exact Or.inr hf.symm
  · intro _ _
    rw [hown]
    rfl
  · intro m hm
    refine ⟨hr m hm, ?_⟩
    rw [hown]
    rfl

theorem Fetched.removeFile {n n' : Node} {io : FetchIO} {id : Bytes} {r : Option PartMeta}
    (h : Fetched content n n' io id r) (hdiscards : io.removes = true → io.discards = true) :
    Fetched content n (n'.removeFile io.removes id) io id none := by
  unfold Node.removeFile
  split_ifs with hremoves
  · refine ⟨h.nodeID, h.parts, h.fds, ?_, ?_, ?_, by simp⟩
    · intro a ha
      rw [← h.other a ha]
      simp [Node.setFile, ha]
    · intro f hf
      simp [Node.setFile] at hf
    · intro hkeep
      rw [hdiscards hremoves] at hkeep
      simp at hkeep
  · exact ⟨h.nodeID, h.parts, h.fds, h.other, h.own, h.kept, by simp⟩

theorem fetched_fetchPart (U : Unicode) (n : Node) (io : FetchIO) (part : PartMeta) :
    Fetched content n (fetchPart content U n io part).1 io part.id
      (fetchPart content U n io part).2 := by
  have hwritten : ∀ m, Fetched content n
      ((n.setFile part.id (some (content part.id))).setMeta part.id m) io part.id none :=
    fun m => Fetched.written rfl rfl rfl rfl (by simp)
  unfold fetchPart
  by_cases hfetched : io.fetched = true
  · simp only [hfetched, Bool.not_true, Bool.false_eq_true, if_false]
    cases hwrite : io.writePart with
    | failed => exact Fetched.unchanged n io part.id
    | failedAfterRename => exact Fetched.written rfl rfl rfl rfl (by simp)
    | ok =>
        by_cases hrebuilt : io.rebuilt = true
        · simp only [hrebuilt, Bool.not_true, Bool.false_eq_true, if_false]
          cases hmeta : io.writeMeta with
          | ok =>
              refine Fetched.written rfl rfl rfl rfl ?_
              intro m hm
              obtain rfl := Option.some.inj hm
              rfl
          | failed =>
              refine Fetched.removeFile (r := none) (Fetched.written rfl rfl rfl rfl (by simp)) ?_
              simp [ FetchIO.discards, hfetched, hwrite, hrebuilt, hmeta]
          | failedAfterRename =>
              refine Fetched.removeFile (hwritten _) ?_
              simp [ FetchIO.discards, hfetched, hwrite, hrebuilt, hmeta]
        · simp only [hrebuilt]
          refine Fetched.removeFile (r := none) (Fetched.written rfl rfl rfl rfl (by simp)) ?_
          simp [ FetchIO.discards, hfetched, hwrite, hrebuilt]
  · simp only [hfetched]
    exact Fetched.unchanged n io part.id

theorem Fetched.faithful {n n' : Node} {io : FetchIO} {id : Bytes} {r : Option PartMeta}
    (h : Fetched content n n' io id r) (hn : Faithful content n) : Faithful content n' := by
  rintro a f (hf | hf)
  · by_cases ha : a = id
    · subst ha
      rcases h.own f hf with hold | heq
      · exact hn a f (Or.inl hold)
      · exact heq
    · rw [h.other a ha] at hf
      exact hn a f (Or.inl hf)
  · rw [h.fds] at hf
    exact hn a f (Or.inr hf)

theorem Fetched.has {n n' : Node} {io : FetchIO} {id a : Bytes} {r : Option PartMeta}
    (h : Fetched content n n' io id r)
    (hok : io.discards = true → id ∉ n.parts.map PartMeta.id) (ha : Has n a) : Has n' a := by
  obtain ⟨hlisted, hfile⟩ := ha
  refine ⟨by rw [h.parts]; exact hlisted, ?_⟩
  by_cases heq : a = id
  · subst heq
    refine h.kept ?_ hfile
    rw [Bool.eq_false_iff]
    exact fun hdiscards => hok hdiscards hlisted
  · rw [h.other a heq]
    exact hfile

theorem Fetched.succeeds {n n' : Node} {io : FetchIO} {id : Bytes} {r : Option PartMeta}
    (h : Fetched content n n' io id r)
    (hok : io.discards = true → id ∉ n.parts.map PartMeta.id) : Succeeds content n n' :=
  fun a ha => ⟨a, h.has hok ha, fun _ hr => hr⟩

/-! ## Publishing -/

theorem faithful_getPart {n : Node} (h : Faithful content n) (opens : Bytes → Bool)
    (id : Bytes) : Faithful content (n.getPart opens id).1 := by
  have hsame := same_getPart n opens id
  rintro a f (hf | hf)
  · rw [hsame.files] at hf
    exact h a f (Or.inl hf)
  · have hread : n.content a = some f := by
      rw [← hsame.content, Node.content, hf]
      rfl
    rw [Node.content, Option.or_eq_some_iff] at hread
    rcases hread with hfd | ⟨-, hfile⟩
    · exact h a f (Or.inr hfd)
    · exact h a f (Or.inl hfile)

theorem succeeds_getPart (n : Node) (opens : Bytes → Bool) (id : Bytes) :
    Succeeds content n (n.getPart opens id).1 := by
  have hsame := same_getPart n opens id
  rintro a ⟨hlisted, hfile⟩
  refine ⟨a, ⟨?_, ?_⟩, fun _ hr => hr⟩
  · rw [hsame.parts]
    exact hlisted
  · rw [hsame.files]
    exact hfile

/-- A list change that keeps all but the old parts and adds the new one. -/
theorem succeeds_of_parts {n n' : Node} {id : Bytes} {oldParts : List Bytes}
    (hfiles : n'.files = n.files) (hfile : (n.files id).isSome = true)
    (hcover : Covers content oldParts id) (hnew : id ∈ n'.parts.map PartMeta.id)
    (hold : ∀ a ∈ n.parts.map PartMeta.id, a ∉ oldParts → a ∈ n'.parts.map PartMeta.id) :
    Succeeds content n n' := by
  rintro a ⟨hlisted, hfa⟩
  by_cases ha : a ∈ oldParts
  · exact ⟨id, ⟨hnew, by rw [hfiles]; exact hfile⟩, hcover a ha⟩
  · exact ⟨a, ⟨hold a hlisted ha, by rw [hfiles]; exact hfa⟩, fun _ hr => hr⟩

theorem mem_filter_listed {parts : List PartMeta} {oldParts : List Bytes} {a : Bytes}
    (ha : a ∈ parts.map PartMeta.id) (hnot : a ∉ oldParts) :
    ∃ p ∈ parts.filter fun p => !oldParts.contains p.id, p.id = a := by
  obtain ⟨p, hp, rfl⟩ := List.mem_map.mp ha
  exact ⟨p, List.mem_filter.mpr ⟨hp, by simpa using hnot⟩, rfl⟩

theorem succeeds_publish {n : Node} {part : PartMeta} {oldParts : List Bytes}
    (hfile : (n.files part.id).isSome = true) (hcover : Covers content oldParts part.id) :
    Succeeds content n (n.publish part oldParts) := by
  refine @succeeds_of_parts content n _ part.id oldParts rfl hfile hcover ?_ ?_
  · simp only [Node.publish]
    split_ifs with hany
    · obtain ⟨p, hp, heq⟩ := List.any_eq_true.mp hany
      exact List.mem_map.mpr ⟨p, hp, beq_iff_eq.mp heq⟩
    · simp
  · intro a ha hnot
    obtain ⟨p, hp, rfl⟩ := mem_filter_listed ha hnot
    simp only [Node.publish]
    split_ifs
    · exact List.mem_map_of_mem hp
    · exact List.mem_map_of_mem (List.mem_append_left _ hp)

theorem succeeds_publishPending {n : Node} {part : PartMeta} {oldParts : List Bytes}
    (hfile : (n.files part.id).isSome = true) (hcover : Covers content oldParts part.id) :
    Succeeds content n (publishPending n part oldParts) := by
  refine @succeeds_of_parts content n _ part.id oldParts rfl hfile hcover ?_ ?_
  · simp [publishPending]
  · intro a ha hnot
    obtain ⟨p, hp, rfl⟩ := mem_filter_listed ha hnot
    exact List.mem_map_of_mem (List.mem_append_left _ hp)

/-! ## The list and the deferred parts -/

theorem mem_publish {n : Node} {part : PartMeta} {oldParts : List Bytes} {a : Bytes} :
    a ∈ (n.publish part oldParts).parts.map PartMeta.id ↔
      a = part.id ∨ a ∈ n.parts.map PartMeta.id ∧ a ∉ oldParts := by
  have hkept : a ∈ (n.parts.filter fun p => !oldParts.contains p.id).map PartMeta.id ↔
      a ∈ n.parts.map PartMeta.id ∧ a ∉ oldParts := by
    simp only [List.mem_map, List.mem_filter]
    grind
  simp only [Node.publish]
  split_ifs with hany
  · rw [hkept, iff_or_self]
    rintro rfl
    obtain ⟨p, hp, heq⟩ := List.any_eq_true.mp hany
    rw [← hkept]
    exact List.mem_map.mpr ⟨p, hp, beq_iff_eq.mp heq⟩
  · rw [List.map_append, List.mem_append, hkept, or_comm, List.map_singleton, List.mem_singleton]

theorem mem_publishPending {n : Node} {part : PartMeta} {oldParts : List Bytes} {a : Bytes} :
    a ∈ (publishPending n part oldParts).parts.map PartMeta.id ↔
      a = part.id ∨ a ∈ n.parts.map PartMeta.id ∧ a ∉ oldParts := by
  simp only [publishPending, List.map_append, List.mem_append, List.mem_map, List.mem_filter]
  grind

theorem mem_parts_publish {n : Node} {part p : PartMeta} {oldParts : List Bytes}
    (hp : p ∈ (n.publish part oldParts).parts) : p ∈ n.parts ∨ p = part := by
  simp only [Node.publish] at hp
  split_ifs at hp
  · exact Or.inl (List.mem_filter.mp hp).1
  · simpa using (List.mem_append.mp hp).imp_left fun h => (List.mem_filter.mp h).1

theorem mem_parts_publishPending {n : Node} {part p : PartMeta} {oldParts : List Bytes}
    (hp : p ∈ (publishPending n part oldParts).parts) : p ∈ n.parts ∨ p = part := by
  simpa using (List.mem_append.mp hp).imp_left fun h => (List.mem_filter.mp h).1

/-- What one log entry of another node does, depending on whether the part is downloaded:
it is deferred, or it is published and the parts it replaces are no longer pending. -/
inductive Applied (s : State) (e : LogEntry) : Bool → State → Prop where
  | deferred {n : Node} (parts : n.parts = s.node.parts) (nodeID : n.nodeID = s.node.nodeID)
      (metas : s.node.GainsMeta n e.part.id e.part.nodeID) :
      Applied s e false
        { s with node := n, pending := setPending s.pending ⟨e.part, e.oldParts⟩ }
  | published {n : Node} {part : PartMeta} (id : part.id = e.part.id)
      (owner : part.nodeID = e.part.nodeID)
      (parts : n.parts = (s.node.publish part e.oldParts).parts)
      (nodeID : n.nodeID = s.node.nodeID)
      (metas : s.node.GainsMeta n e.part.id e.part.nodeID) :
      Applied s e true { s with node := n, pending := dropPending s.pending e.oldParts }

/-- What the retry of a deferred part does. -/
inductive Retried (s : State) (asked : Bool) (p : PendingEntry) : Bool → State → Prop where
  | dropped {downloaded : Bool} (hasked : asked = true) (gone : p.part.id ∉ s.active) :
      Retried s asked p downloaded { s with pending := dropPending s.pending [p.part.id] }
  | failed {n : Node} (parts : n.parts = s.node.parts) (nodeID : n.nodeID = s.node.nodeID)
      (metas : s.node.GainsMeta n p.part.id p.part.nodeID) :
      Retried s asked p false { s with node := n }
  | published {n : Node} {part : PartMeta} (alive : asked = true → p.part.id ∈ s.active)
      (id : part.id = p.part.id) (owner : part.nodeID = p.part.nodeID)
      (parts : n.parts = (publishPending s.node part p.oldParts).parts)
      (nodeID : n.nodeID = s.node.nodeID)
      (metas : s.node.GainsMeta n p.part.id p.part.nodeID) :
      Retried s asked p true { s with node := n, pending := dropPending s.pending [p.part.id] }

/-- The part is downloaded, written and described. -/
def downloads (content : Bytes → PartFile) (U : Unicode) (n : Node) (io : FetchIO)
    (part : PartMeta) : Bool := (fetchPart content U n io part).2.isSome

/-- A download describes the part as it is described in etcd. -/
theorem fetchPart_metas (content : Bytes → PartFile) (U : Unicode) (n : Node) (io : FetchIO)
    (part : PartMeta) :
    n.GainsMeta (fetchPart content U n io part).1 part.id part.nodeID ∧
      ∀ m, (fetchPart content U n io part).2 = some m → m.nodeID = part.nodeID := by
  have hsame : ∀ n' : Node, n'.metas = n.metas → n.GainsMeta n' part.id part.nodeID :=
    fun _ h => Or.inl h
  have hnew : ∀ n' : Node, n'.metas = Function.update n.metas part.id
      (some (rebuildPartTokens U (content part.id) part)) →
        n.GainsMeta n' part.id part.nodeID :=
    fun _ h => Or.inr ⟨rebuildPartTokens U (content part.id) part, rfl, rfl, h⟩
  have hremove : ∀ n' : Node, (n'.removeFile io.removes part.id).metas = n'.metas := by
    intro n'
    unfold Node.removeFile
    split_ifs <;> rfl
  unfold fetchPart
  by_cases hfetched : io.fetched = true
  · simp only [hfetched, Bool.not_true, Bool.false_eq_true, if_false]
    cases io.writePart with
    | failed => exact ⟨hsame n rfl, nofun⟩
    | failedAfterRename => exact ⟨hsame _ rfl, nofun⟩
    | ok =>
        by_cases hrebuilt : io.rebuilt = true
        · simp only [hrebuilt, Bool.not_true, Bool.false_eq_true, if_false]
          cases io.writeMeta with
          | ok =>
              refine ⟨hnew _ rfl, fun m hm => ?_⟩
              rw [← Option.some.inj hm]
              rfl
          | failed => exact ⟨hsame _ (hremove _), nofun⟩
          | failedAfterRename => exact ⟨hnew _ (hremove _), nofun⟩
        · simp only [hrebuilt]
          exact ⟨hsame _ (hremove _), nofun⟩
  · simp only [hfetched]
    exact ⟨hsame n rfl, nofun⟩

theorem dropPending_nil (pending : List PendingEntry) : dropPending pending [] = pending := by
  simp [dropPending]

theorem parts_getPart (n : Node) (opens : Bytes → Bool) (id : Bytes) :
    (n.getPart opens id).1.parts = n.parts := (same_getPart n opens id).parts

theorem nodeID_getPart (n : Node) (opens : Bytes → Bool) (id : Bytes) :
    (n.getPart opens id).1.nodeID = n.nodeID := (same_getPart n opens id).nodeID

theorem applied_applyLogEntry (U : Unicode) {s : State} (io : FetchIO) {e : LogEntry}
    (hother : e.nodeID ≠ s.node.nodeID) (hput : e.op = .put → e.oldParts = []) :
    Applied s e (downloads content U s.node io e.part) (applyLogEntry content U s io e) := by
  have hmetas := fetchPart_metas content U s.node io e.part
  have hfetch : Fetched content s.node _ io e.part.id _ := fetched_fetchPart U s.node io e.part
  unfold applyLogEntry downloads
  rw [if_neg hother]
  rcases hresult : fetchPart content U s.node io e.part with ⟨n, _ | part⟩
  all_goals rw [hresult] at hfetch hmetas
  · exact .deferred hfetch.parts hfetch.nodeID hmetas.1
  · have hid := (hfetch.done part rfl).1
    have howner := hmetas.2 part rfl
    have hlist : n.parts = s.node.parts := hfetch.parts
    have hparts : ∀ oldParts, (n.publish part oldParts).parts =
        (s.node.publish part oldParts).parts := by
      intro oldParts
      simp only [Node.publish, hlist]
    cases hop : e.op with
    | put =>
        have hpublished : Applied s e true { s with
            node := ((n.publish part []).getPart io.opens part.id).1
            pending := dropPending s.pending e.oldParts } := by
          apply Applied.published hid howner
          · rw [parts_getPart, hput hop, hparts]
          · rw [nodeID_getPart]
            exact hfetch.nodeID
          · rw [Node.GainsMeta, metas_getPart]
            exact hmetas.1
        rw [hput hop, dropPending_nil] at hpublished
        exact hpublished
    | merge =>
        apply Applied.published hid howner
        · rw [parts_getPart, hparts]
        · rw [nodeID_getPart]
          exact hfetch.nodeID
        · rw [Node.GainsMeta, metas_getPart]
          exact hmetas.1

theorem retried_retryPendingPart (U : Unicode) (s : State) (asked : Bool) (io : FetchIO)
    (p : PendingEntry) :
    Retried s asked p (downloads content U s.node io p.part)
      (retryPendingPart content U s asked io p) := by
  have hmetas := fetchPart_metas content U s.node io p.part
  have hfetch : Fetched content s.node _ io p.part.id _ := fetched_fetchPart U s.node io p.part
  unfold retryPendingPart downloads
  split_ifs with hgone
  · simp only [Bool.and_eq_true, Bool.not_eq_true', List.contains_eq_mem,
      decide_eq_false_iff_not] at hgone
    exact .dropped hgone.1 hgone.2
  · rcases hresult : fetchPart content U s.node io p.part with ⟨n, _ | part⟩
    all_goals rw [hresult] at hfetch hmetas
    · exact .failed hfetch.parts hfetch.nodeID hmetas.1
    · have hlist : n.parts = s.node.parts := hfetch.parts
      apply Retried.published
      · intro hasked
        simpa [hasked] using hgone
      · exact (hfetch.done part rfl).1
      · exact hmetas.2 part rfl
      · rw [parts_getPart]
        simp only [publishPending, hlist]
      · rw [nodeID_getPart]
        exact hfetch.nodeID
      · rw [Node.GainsMeta, metas_getPart]
        exact hmetas.1

/-! ## Garbage collection -/

/-- The pass drops the part from the list or removes its data file. -/
def Takes (n : Node) (active : List Bytes) (pass : GCPass) (id : Bytes) : Prop :=
  gcRemoves active pass (dataName id) = true ∨
    (n.sweep active pass).gcKeeps active pass id = false

theorem has_runGC {n : Node} {active : List Bytes} {pass : GCPass} {id : Bytes}
    (h : Has n id) (hnot : pass.listed = true → ¬ Takes n active pass id) :
    Has (n.runGC active pass) id := by
  by_cases hlisted : pass.listed = true
  · have hspared := hnot hlisted
    rw [Takes, not_or, Bool.not_eq_true, Bool.not_eq_false] at hspared
    refine ⟨?_, by rw [files_runGC hspared.1]; exact h.2⟩
    obtain ⟨p, hp, rfl⟩ := List.mem_map.mp h.1
    rw [Node.runGC, if_pos hlisted]
    exact List.mem_map_of_mem (List.mem_filter.mpr ⟨hp, hspared.2⟩)
  · rw [Node.runGC, if_neg hlisted]
    exact h

theorem faithful_runGC {n : Node} (h : Faithful content n) (active : List Bytes)
    (pass : GCPass) : Faithful content (n.runGC active pass) := by
  rintro a f (hf | hf)
  · exact h a f (Or.inl (files_runGC_of_some hf))
  · unfold Node.runGC at hf
    split_ifs at hf
    · simp only [Node.reconcile] at hf
      split_ifs at hf
      exact h a f (Or.inr hf)
    · exact h a f (Or.inr hf)

/-- A chain of merges in the log leads from part `a` to part `b`. -/
def Superseded (log : List LogEntry) : Bytes → Bytes → Prop :=
  Relation.TransGen fun a b => ∃ e ∈ log, a ∈ e.oldParts ∧ b = e.part.id

theorem rows_of_superseded {log : List LogEntry} (hlog : ∀ e ∈ log, e.WellFormed content)
    {a b : Bytes} (h : Superseded log a b) : ∀ r ∈ (content a).rows, r ∈ (content b).rows := by
  have hone : ∀ {a b}, (∃ e ∈ log, a ∈ e.oldParts ∧ b = e.part.id) →
      ∀ r ∈ (content a).rows, r ∈ (content b).rows := by
    rintro a b ⟨e, he, ha, rfl⟩
    exact (hlog e he).2 a ha
  induction h with
  | single hab => exact hone hab
  | tail _ hbc ih => exact fun r hr => hone hbc r (ih r hr)

/-! ## Runs -/

/-- What the environment has to grant: a garbage collection pass takes a part whose file
is there only if the active part that superseded it is listed with its own file, and a
download removes the file it has written only if the part is not listed. -/
def Ok (s : State) : Label → Prop
  | .append _ => True
  | .apply io => io.discards = true → ∀ e, s.log[s.pointer]? = some e →
      e.part.id ∉ s.node.parts.map PartMeta.id
  | .retry id _ io => io.discards = true → id ∉ s.node.parts.map PartMeta.id
  | .collect pass => pass.listed = true → ∀ id, Has s.node id → Takes s.node s.active pass id →
      ∃ id', Has s.node id' ∧ id' ∈ s.active ∧ gcID (dataName id') = some id' ∧
        Superseded s.log id id'

structure Inv (content : Bytes → PartFile) (s : State) : Prop where
  faithful : Faithful content s.node
  log : ∀ e ∈ s.log, e.WellFormed content
  pending : ∀ p ∈ s.pending, Covers content p.oldParts p.part.id

theorem collect_step {s : State} {pass : GCPass} (h : Inv content s)
    (hok : Ok s (.collect pass)) :
    Succeeds content s.node (s.node.runGC s.active pass) := by
  intro id hid
  by_cases htakes : pass.listed = true ∧ Takes s.node s.active pass id
  · obtain ⟨id', hid', hactive, hname, hsuper⟩ := hok htakes.1 id hid htakes.2
    refine ⟨id', has_runGC hid' fun _ htaken => ?_, rows_of_superseded h.log hsuper⟩
    rcases htaken with hremoved | hdropped
    · rw [gcRemoves_of_active hname hactive] at hremoved
      simp at hremoved
    · rw [gcKeeps_of_active hactive] at hdropped
      simp at hdropped
  · exact ⟨id, has_runGC hid fun hlisted htaken => htakes ⟨hlisted, htaken⟩, fun _ hr => hr⟩

theorem applyLogEntry_step {U : Unicode} {s : State} {io : FetchIO} {e : LogEntry}
    (h : Inv content s) (he : e.WellFormed content)
    (hok : io.discards = true → e.part.id ∉ s.node.parts.map PartMeta.id) :
    Inv content (applyLogEntry content U s io e) ∧
      Succeeds content s.node (applyLogEntry content U s io e).node := by
  unfold applyLogEntry
  split_ifs with hown
  · exact ⟨h, Succeeds.refl _⟩
  have hfetch : Fetched content s.node _ io e.part.id _ := fetched_fetchPart U s.node io e.part
  rcases hresult : fetchPart content U s.node io e.part with ⟨n, _ | part⟩
  all_goals
    rw [hresult] at hfetch
    have hnode := hfetch.faithful h.faithful
    have hgrow := hfetch.succeeds hok
  · -- The download failed: the part is deferred with the parts it replaces.
    refine ⟨⟨hnode, h.log, ?_⟩, hgrow⟩
    intro p hp
    rcases List.mem_append.mp hp with hp | hp
    · exact h.pending p (List.mem_filter.mp hp).1
    · rw [List.mem_singleton.mp hp]
      exact he.2
  · obtain ⟨hid, hfile⟩ := hfetch.done part rfl
    rw [← hid] at hfile
    cases hop : e.op with
    | put =>
        have hcover : Covers content [] part.id := by simp [Covers]
        have hlist : Faithful content (n.publish part []) := hnode
        exact ⟨⟨faithful_getPart hlist _ _, h.log, h.pending⟩,
          (hgrow.trans (succeeds_publish hfile hcover)).trans (succeeds_getPart _ _ _)⟩
    | merge =>
        have hcover : Covers content e.oldParts part.id := by rw [hid]; exact he.2
        have hlist : Faithful content (n.publish part e.oldParts) := hnode
        refine ⟨⟨faithful_getPart hlist _ _, h.log, ?_⟩,
          (hgrow.trans (succeeds_publish hfile hcover)).trans (succeeds_getPart _ _ _)⟩
        exact fun p hp => h.pending p (List.mem_filter.mp hp).1

theorem retryPendingPart_step {U : Unicode} {s : State} {asked : Bool} {io : FetchIO}
    {p : PendingEntry} (h : Inv content s) (hp : p ∈ s.pending)
    (hok : io.discards = true → p.part.id ∉ s.node.parts.map PartMeta.id) :
    Inv content (retryPendingPart content U s asked io p) ∧
      Succeeds content s.node (retryPendingPart content U s asked io p).node := by
  have hdrop : ∀ q ∈ dropPending s.pending [p.part.id], Covers content q.oldParts q.part.id :=
    fun q hq => h.pending q (List.mem_filter.mp hq).1
  unfold retryPendingPart
  split_ifs with hgone
  · exact ⟨⟨h.faithful, h.log, hdrop⟩, Succeeds.refl _⟩
  have hfetch : Fetched content s.node _ io p.part.id _ := fetched_fetchPart U s.node io p.part
  rcases hresult : fetchPart content U s.node io p.part with ⟨n, _ | part⟩
  all_goals
    rw [hresult] at hfetch
    have hnode := hfetch.faithful h.faithful
    have hgrow := hfetch.succeeds hok
  · exact ⟨⟨hnode, h.log, h.pending⟩, hgrow⟩
  · obtain ⟨hid, hfile⟩ := hfetch.done part rfl
    rw [← hid] at hfile
    have hcover : Covers content p.oldParts part.id := by rw [hid]; exact h.pending p hp
    have hlist : Faithful content (publishPending n part p.oldParts) := hnode
    exact ⟨⟨faithful_getPart hlist _ _, h.log, hdrop⟩,
      (hgrow.trans (succeeds_publishPending hfile hcover)).trans (succeeds_getPart _ _ _)⟩

theorem inv_step {U : Unicode} {s t : State} {l : Label} (h : Inv content s) (hok : Ok s l)
    (hstep : step content U s l = some t) :
    Inv content t ∧ Succeeds content s.node t.node := by
  cases l with
  | append e =>
      simp only [step] at hstep
      split_ifs at hstep with he
      obtain rfl := Option.some.inj hstep
      refine ⟨⟨h.faithful, ?_, h.pending⟩, Succeeds.refl _⟩
      intro e' he'
      rcases List.mem_append.mp he' with he' | he'
      · exact h.log e' he'
      · rw [List.mem_singleton.mp he']
        exact he
  | apply io =>
      simp only [step] at hstep
      cases hentry : s.log[s.pointer]? with
      | none => simp [hentry] at hstep
      | some e =>
          simp only [hentry, Option.some.injEq] at hstep
          subst hstep
          obtain ⟨hinv, hsucc⟩ := applyLogEntry_step (U := U) h
            (h.log e (List.mem_of_getElem? hentry)) fun hd => hok hd e hentry
          exact ⟨⟨hinv.faithful, hinv.log, hinv.pending⟩, hsucc⟩
  | retry id asked io =>
      simp only [step] at hstep
      cases hfind : s.pending.find? fun p => p.part.id == id with
      | none => simp [hfind] at hstep
      | some p =>
          simp only [hfind, Option.some.injEq] at hstep
          subst hstep
          have hid : p.part.id = id := by simpa using List.find?_some hfind
          exact retryPendingPart_step h (List.mem_of_find?_eq_some hfind)
            fun hd => hid ▸ hok hd
  | collect pass =>
      obtain rfl := Option.some.inj hstep
      exact ⟨⟨faithful_runGC h.faithful _ _, h.log, h.pending⟩, collect_step h hok⟩

end Held

/-! ## One part and its replacement -/

end Shrimpd.Lsm.Replication
