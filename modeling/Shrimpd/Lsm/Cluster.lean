import Shrimpd.Lsm.Bootstrap
import Shrimpd.Lsm.Listed

/-!
# A cluster of nodes

Several nodes share one global log and one set of active parts.  Each of them
flushes and compacts parts of its own, commits them with a transaction and lists
them, follows the log by downloading the others' parts from a peer, retries what
it could not download, and collects garbage.  The steps of different nodes, and
the sections of one node's calls, may interleave in any way.

Entries come in with the memtable snapshot of a flush.  Every part ID is used
once; the model records the file that was written under it, so that all copies
of a part can be compared with what its origin wrote.
-/

namespace Shrimpd.Lsm.Nodes

open Shrimpd.Lib Shrimpd.Lib.Exec Shrimpd.Types Shrimpd.Block
open Shrimpd.Lsm.Replication hiding step Label Inv

/-! ## Members and their steps -/

/-- A part whose files have been written, with the parts it is to replace and the entries
that come in with it. -/
structure Publication where
  op : LogOp
  part : PartMeta
  oldParts : List Bytes
  entries : List Entry

/-- `committed` holds the parts whose transaction went through and which are still to be
listed. -/
structure Member where
  node : Node
  pointer : Nat
  pending : List PendingEntry
  committed : List Publication

/-- `prepared` holds the parts whose transaction is still to run, with their origin. -/
structure Cluster (ι : Type) where
  members : ι → Member
  prepared : List (ι × Publication)
  active : List Bytes
  log : List LogEntry
  /-- The IDs handed out so far, each with the file written under it. -/
  ids : Bytes → Option PartFile
  /-- The entries of the flushes that were committed. -/
  flushed : List Entry

/-- A garbage collection pass works with the active parts it has `seen` before. -/
inductive Label (ι : Type) where
  | flush (i : ι) (snap : List Entry) (id : Bytes) (io : CompactIO)
  | compact (i : ι) (call : CompactCall)
  | append (k : Nat) (io : CompactIO)
  | publish (i : ι) (k : Nat)
  | apply (i peer : ι) (io : FetchIO)
  | retry (i peer : ι) (id : Bytes) (asked : Bool) (io : FetchIO)
  | collect (i : ι) (seen : List Bytes) (pass : GCPass)

/-- The node after a call has written its files. -/
def preparedNode : Prepared → Node
  | .done n _ => n
  | .ready n _ _ => n

/-- The tokens are not stored in etcd. -/
def etcdPart (part : PartMeta) : PartMeta := { part with tokens := [] }

/-- The rows under an ID. -/
def rowsOf (ids : Bytes → Option PartFile) (id : Bytes) : List Entry :=
  ((ids id).map PartFile.rows).getD []

section Steps

variable {ι : Type} [DecidableEq ι]

/-- No part has this ID yet, and it does not look like a side file's. -/
def Cluster.NewID (c : Cluster ι) (id : Bytes) : Prop :=
  c.ids id = none ∧ ¬ ascii ".sparse" <:+ id

instance (c : Cluster ι) (id : Bytes) : Decidable (c.NewID id) :=
  inferInstanceAs (Decidable (_ ∧ _))

def Cluster.set (c : Cluster ι) (i : ι) (m : Member) : Cluster ι :=
  { c with members := Function.update c.members i m }

def Cluster.setNode (c : Cluster ι) (i : ι) (n : Node) : Cluster ι :=
  c.set i { c.members i with node := n }

/-- A call of member `i` has written the files of part `id`, as far as it got. -/
def Cluster.prepare (c : Cluster ι) (i : ι) (op : LogOp) (entries : List Entry) (id : Bytes)
    (p : Prepared) : Cluster ι :=
  { c.setNode i (preparedNode p) with
    prepared := match p with
      | .done _ _ => c.prepared
      | .ready _ part oldParts => c.prepared ++ [(i, ⟨op, part, oldParts, entries⟩)]
    ids := Function.update c.ids id (some (((preparedNode p).files id).getD ⟨[]⟩)) }

/-- The transaction of `AppendLog`. -/
def Cluster.commit (c : Cluster ι) (i : ι) (q : Publication) : Cluster ι :=
  { c with
    active := commitPart c.active q.part.id q.oldParts
    log := c.log ++ [⟨q.op, etcdPart q.part, q.oldParts, (c.members i).node.nodeID⟩]
    flushed := c.flushed ++ q.entries }

/-- After an error of `AppendLog` the files are removed. -/
def Cluster.withdraw (c : Cluster ι) (i : ι) (io : CompactIO) (q : Publication) : Cluster ι :=
  c.setNode i ((c.members i).node.abandon io q.part.id)

/-- What a member's replication works on. -/
def Cluster.replica (c : Cluster ι) (i : ι) : State :=
  ⟨(c.members i).node, c.active, c.log, (c.members i).pointer, (c.members i).pending⟩

def Cluster.follow (c : Cluster ι) (i : ι) (s : State) : Cluster ι :=
  c.set i { c.members i with node := s.node, pointer := s.pointer, pending := s.pending }

/-- The file a peer serves for a part. -/
def Cluster.served (c : Cluster ι) (peer : ι) (id : Bytes) : PartFile :=
  ((c.members peer).node.files id).getD ⟨[]⟩

/-- A download works only if the peer has the file. -/
def Cluster.download (c : Cluster ι) (peer : ι) (io : FetchIO) (id : Bytes) : FetchIO :=
  { io with fetched := io.fetched && ((c.members peer).node.files id).isSome }

def step (U : Unicode) (c : Cluster ι) : Label ι → Option (Cluster ι)
  | .flush i snap id io =>
      if c.NewID id then
        some (c.prepare i .put snap id (Boot.prepareFlush U (c.members i).node io id snap))
      else none
  | .compact i call =>
      if c.NewID call.id then
        some (c.prepare i .merge [] call.id (Boot.prepareCompact U (c.members i).node call))
      else none
  | .append k io =>
      match c.prepared[k]? with
      | none => none
      | some (i, q) =>
          let c := { c with prepared := c.prepared.eraseIdx k }
          match io.append with
          | .committed => some ((c.commit i q).set i
              { c.members i with committed := (c.members i).committed ++ [q] })
          | .notCommitted => some (c.withdraw i io q)
          | .committedError => some ((c.commit i q).withdraw i io q)
  | .publish i k =>
      match (c.members i).committed[k]? with
      | none => none
      | some q => some (c.set i { c.members i with
          node := (c.members i).node.publish q.part q.oldParts
          committed := (c.members i).committed.eraseIdx k })
  | .apply i peer io =>
      match c.log[(c.members i).pointer]? with
      | none => none
      | some e => some (c.follow i { applyLogEntry (c.served peer) U (c.replica i)
          (c.download peer io e.part.id) e with pointer := (c.members i).pointer + 1 })
  | .retry i peer id asked io =>
      match (c.members i).pending.find? fun d => d.part.id == id with
      | none => none
      | some d => some (c.follow i (retryPendingPart (c.served peer) U (c.replica i) asked
          (c.download peer io id) d))
  | .collect i seen pass => some (c.setNode i ((c.members i).node.runGC seen pass))

/-- What a step has done. -/
inductive Stepped (U : Unicode) (c : Cluster ι) : Label ι → Cluster ι → Prop where
  | flush {i snap id io} (new : c.NewID id) :
      Stepped U c (.flush i snap id io)
        (c.prepare i .put snap id (Boot.prepareFlush U (c.members i).node io id snap))
  | compact {i call} (new : c.NewID call.id) :
      Stepped U c (.compact i call)
        (c.prepare i .merge [] call.id (Boot.prepareCompact U (c.members i).node call))
  | commit {k io i q} (found : c.prepared[k]? = some (i, q)) (done : io.append = .committed) :
      Stepped U c (.append k io)
        ((Cluster.commit { c with prepared := c.prepared.eraseIdx k } i q).set i
          { c.members i with committed := (c.members i).committed ++ [q] })
  | withdraw {k io i q} (found : c.prepared[k]? = some (i, q))
      (failed : io.append = .notCommitted) :
      Stepped U c (.append k io)
        (Cluster.withdraw { c with prepared := c.prepared.eraseIdx k } i io q)
  | lost {k io i q} (found : c.prepared[k]? = some (i, q)) (failed : io.append = .committedError) :
      Stepped U c (.append k io)
        ((Cluster.commit { c with prepared := c.prepared.eraseIdx k } i q).withdraw i io q)
  | publish {i k q} (found : (c.members i).committed[k]? = some q) :
      Stepped U c (.publish i k)
        (c.set i { c.members i with
          node := (c.members i).node.publish q.part q.oldParts
          committed := (c.members i).committed.eraseIdx k })
  | apply {i peer io e} (found : c.log[(c.members i).pointer]? = some e) :
      Stepped U c (.apply i peer io)
        (c.follow i { applyLogEntry (c.served peer) U (c.replica i)
          (c.download peer io e.part.id) e with pointer := (c.members i).pointer + 1 })
  | retry {i peer asked io d} (found : d ∈ (c.members i).pending) :
      Stepped U c (.retry i peer d.part.id asked io)
        (c.follow i (retryPendingPart (c.served peer) U (c.replica i) asked
          (c.download peer io d.part.id) d))
  | collect {i seen pass} :
      Stepped U c (.collect i seen pass) (c.setNode i ((c.members i).node.runGC seen pass))

theorem stepped {U : Unicode} {c c' : Cluster ι} {l : Label ι} (hstep : step U c l = some c') :
    Stepped U c l c' := by
  unfold step at hstep
  repeat' split at hstep
  all_goals cases hstep
  · exact .flush (by assumption)
  · exact .compact (by assumption)
  · exact .commit (by assumption) (by assumption)
  · exact .withdraw (by assumption) (by assumption)
  · exact .lost (by assumption) (by assumption)
  · exact .publish (by assumption)
  · exact .apply (by assumption)
  · rename_i id _ _ _ d hd
    obtain rfl : d.part.id = id := by simpa using List.find?_some hd
    exact .retry (List.mem_of_find?_eq_some hd)
  · exact .collect

end Steps

/-! ## What is on record -/

/-- The metadata that etcd keeps of a part is that of the file. -/
structure Outlines (part : PartMeta) (f : PartFile) : Prop where
  min : part.minTimestamp = firstTimestamp f.rows
  max : part.maxTimestamp = lastTimestamp f.rows
  count : part.count = f.rows.length

theorem outlines_etcdPart {U : Unicode} {part : PartMeta} {f : PartFile}
    (h : Describes U part f) : Outlines (etcdPart part) f :=
  ⟨h.min, h.max, h.count⟩

/-- A replica restores what etcd has dropped. -/
theorem Outlines.rebuilt {part : PartMeta} {f : PartFile} (h : Outlines part f) (U : Unicode) :
    Describes U (rebuildPartTokens U f part) f := by
  refine ⟨h.min, h.max, h.count, ?_, rfl⟩
  change buildTokenSetFromPart U f = _
  exact buildTokenSetFromPart_eq f

section Record

variable (U : Unicode) (ids : Bytes → Option PartFile)

/-- The file under the part's ID has sorted rows, and `R` relates the metadata to it. -/
def OnRecord (R : PartMeta → PartFile → Prop) (part : PartMeta) : Prop :=
  ∃ f, ids part.id = some f ∧ R part f ∧ SortedRows f.rows ∧ f.rows ≠ []

/-- All the node's copies are what was written under their IDs. -/
def Copies (n : Node) : Prop :=
  ∀ a f, n.files a = some f ∨ n.fds a = some f → ids a = some f

/-- The log and the active parts it leaves. -/
structure LogOk (log : List LogEntry) (active : List Bytes) : Prop where
  once : (log.map fun e => e.part.id).Nodup
  outlined : ∀ e ∈ log, OnRecord ids Outlines e.part
  put : ∀ e ∈ log, e.op = .put → e.oldParts = []
  oldIn : ∀ e ∈ log, ∀ a ∈ e.oldParts, a ∈ log.map fun e => e.part.id
  oldOut : ∀ e ∈ log, ∀ a ∈ e.oldParts, a ∉ active
  nodup : active.Nodup
  known : ∀ a ∈ active, a ∈ log.map fun e => e.part.id
  named : ∀ a f, ids a = some f → ¬ ascii ".sparse" <:+ a

/-- A written part whose transaction is still to run. -/
structure PreparedOk (log : List LogEntry) (n : Node) (q : Publication) : Prop where
  new : q.part.id ∉ log.map fun e => e.part.id
  file : (n.files q.part.id).isSome = true
  described : OnRecord ids (Describes U) q.part
  put : q.op = .put → q.oldParts = []
  oldIn : ∀ a ∈ q.oldParts, a ∈ log.map fun e => e.part.id
  nodup : q.oldParts.Nodup
  rows : (rowsOf ids q.part.id).Perm (q.entries ++ q.oldParts.flatMap (rowsOf ids))

/-- A committed part that is still to be listed. -/
structure CommittedOk (log : List LogEntry) (active : List Bytes) (n : Node)
    (q : Publication) : Prop where
  logged : ∃ e ∈ log, e.nodeID = n.nodeID ∧ e.part.id = q.part.id ∧ e.oldParts = q.oldParts
  hidden : q.part.id ∉ n.parts.map PartMeta.id
  described : OnRecord ids (Describes U) q.part
  file : q.part.id ∈ active → (n.files q.part.id).isSome = true

/-- What a member knows of the log: every active part that it has read of is listed or
deferred, and every active part of its own is listed or about to be. -/
structure MemberOk (log : List LogEntry) (active : List Bytes) (m : Member) : Prop where
  copies : Copies ids m.node
  pointer : m.pointer ≤ log.length
  nodup : (m.node.parts.map PartMeta.id).Nodup
  known : ∀ p ∈ m.node.parts, (∃ e ∈ log.take m.pointer, e.part.id = p.id) ∨
    ∃ e ∈ log, e.nodeID = m.node.nodeID ∧ e.part.id = p.id
  described : ∀ p ∈ m.node.parts, OnRecord ids (Describes U) p
  held : ∀ p ∈ m.node.parts, p.id ∈ active → (m.node.files p.id).isSome = true
  deferred : ∀ d ∈ m.pending, ∃ e ∈ log.take m.pointer,
    e.part = d.part ∧ e.oldParts = d.oldParts ∧ e.nodeID ≠ m.node.nodeID
  hidden : ∀ d ∈ m.pending, d.part.id ∉ m.node.parts.map PartMeta.id
  read : ∀ e ∈ log.take m.pointer, e.nodeID ≠ m.node.nodeID → e.part.id ∈ active →
    e.part.id ∈ m.node.parts.map PartMeta.id ∨ ∃ d ∈ m.pending, d.part.id = e.part.id
  own : ∀ e ∈ log, e.nodeID = m.node.nodeID → e.part.id ∈ active →
    e.part.id ∈ m.node.parts.map PartMeta.id ∨ ∃ q ∈ m.committed, q.part.id = e.part.id
  committed : ∀ q ∈ m.committed, CommittedOk U ids log active m.node q
  distinct : (m.committed.map fun q => q.part.id).Nodup

end Record

structure Inv {ι : Type} (U : Unicode) (c : Cluster ι) : Prop where
  names : Function.Injective fun i => (c.members i).node.nodeID
  origin : ∀ e ∈ c.log, ∃ i, (c.members i).node.nodeID = e.nodeID
  log : LogOk c.ids c.log c.active
  prepared : ∀ x ∈ c.prepared, PreparedOk U c.ids c.log (c.members x.1).node x.2
  preparedOnce : (c.prepared.map fun x => x.2.part.id).Nodup
  member : ∀ i, MemberOk U c.ids c.log c.active (c.members i)

/-! ## Writing a part -/

section Prepare

variable {U : Unicode} {ids : Bytes → Option PartFile} {n : Node} {id : Bytes}

theorem Copies.content {n : Node} (h : Copies ids n) {a : Bytes} {f : PartFile}
    (hf : n.content a = some f) : ids a = some f := by
  rw [Node.content, Option.or_eq_some_iff] at hf
  rcases hf with hfd | ⟨-, hfile⟩
  · exact h a f (Or.inr hfd)
  · exact h a f (Or.inl hfile)

theorem Copies.unused {n : Node} (h : Copies ids n) (hid : ids id = none) :
    n.files id = none ∧ n.fds id = none := by
  constructor
  · cases hf : n.files id with
    | none => rfl
    | some f => exact absurd (h id f (Or.inl hf)) (by rw [hid]; simp)
  · cases hf : n.fds id with
    | none => rfl
    | some f => exact absurd (h id f (Or.inr hf)) (by rw [hid]; simp)

theorem Copies.flatMap_rows {n : Node} (h : Copies ids n) {ms : List PartMeta}
    {pfs : List PartFile} (hpfs : List.Forall₂ (fun m f => n.content m.id = some f) ms pfs) :
    pfs.flatMap PartFile.rows = (ms.map PartMeta.id).flatMap (rowsOf ids) := by
  induction hpfs with
  | nil => rfl
  | cons hf _ ih =>
      rw [List.map_cons, List.flatMap_cons, List.flatMap_cons, ih, rowsOf, h.content hf]
      rfl

/-- Copies are kept by a change of one part's files to what is written under its ID. -/
theorem Copies.of_sameBut {ids' : Bytes → Option PartFile} {n' : Node} (h : Copies ids n)
    (hsame : n.SameBut n' id) (hids : ∀ a, a ≠ id → ids' a = ids a)
    (hid : ∀ f, n'.files id = some f ∨ n'.fds id = some f → ids' id = some f) :
    Copies ids' n' := by
  intro a f hf
  by_cases ha : a = id
  · exact ha ▸ hid f (ha ▸ hf)
  · rw [hids a ha]
    rcases hf with hf | hf
    · rw [hsame.files a ha] at hf
      exact h a f (Or.inl hf)
    · apply h.content
      rw [← hsame.content a ha, Node.content, hf]
      rfl

/-- What a call that writes part `id` has come to; `old` are the parts it merges. -/
inductive Wrote (U : Unicode) (ids : Bytes → Option PartFile) (n : Node) (id : Bytes)
    (entries : List Entry) (old : List Bytes) : Prepared → Prop where
  | done {n' err} (same : n.SameBut n' id) (fds : n'.fds id = n.fds id) :
      Wrote U ids n id entries old (.done n' err)
  | ready {n' part f} (same : n.SameBut n' id) (fds : n'.fds id = n.fds id)
      (file : n'.files id = some f) (name : part.id = id) (owner : part.nodeID = n.nodeID)
      (describes : Describes U part f)
      (sorted : SortedRows f.rows) (nonempty : f.rows ≠ [])
      (rows : f.rows.Perm (entries ++ old.flatMap (rowsOf ids))) :
      Wrote U ids n id entries old (.ready n' part old)

theorem Wrote.sameBut {entries : List Entry} {old : List Bytes} {p : Prepared}
    (h : Wrote U ids n id entries old p) :
    n.SameBut (preparedNode p) id ∧ (preparedNode p).fds id = n.fds id := by
  cases h with
  | done same fds => exact ⟨same, fds⟩
  | ready same fds => exact ⟨same, fds⟩

theorem fds_removeFile (n : Node) (removes : Bool) (id : Bytes) :
    (n.removeFile removes id).fds = n.fds := by
  unfold Node.removeFile
  split_ifs <;> rfl

theorem wrote_flush (io : CompactIO) (snap : List Entry) :
    Wrote U ids n id snap [] (Boot.prepareFlush U n io id snap) := by
  have hput : ∀ f, n.SameBut (n.setFile id f) id := fun f => ((Node.Same.refl n).but id).setFile f
  unfold Boot.prepareFlush
  split_ifs with hnil
  · exact .done ((Node.Same.refl n).but id) rfl
  simp only
  cases io.writePart with
  | failed => exact .done ((Node.Same.refl n).but id) rfl
  | failedAfterRename => exact .done (hput _) rfl
  | ok =>
      cases io.writeMeta with
      | failed => exact .done ((hput _).removeFile _) (by rw [fds_removeFile]; rfl)
      | failedAfterRename =>
          exact .done (((hput _).setMeta _).removeFile _) (by rw [fds_removeFile]; rfl)
      | ok =>
          have hrows : (writePartV2 (sortByTimestamp snap)).rows = sortByTimestamp snap :=
            rows_writePartV2 _
          refine Wrote.ready ((hput _).setMeta _) rfl (Function.update_self _ _ _) rfl
            rfl (describes_flushMeta _ _ _) ?_ ?_ ?_
          · rw [hrows]
            exact sorted_sortByTimestamp snap
          · rw [hrows]
            intro hempty
            exact hnil (List.nil_perm.mp (hempty ▸ sortByTimestamp_perm snap))
          · rw [hrows, List.flatMap_nil, List.append_nil]
            exact sortByTimestamp_perm snap

theorem fds_prepareMerge (io : CompactIO) (level : Int) {selected : List PartMeta}
    (hid : id ∉ selected.map PartMeta.id) :
    (preparedNode (n.prepareMerge U io level id selected)).fds id = n.fds id := by
  have hgot := gotParts_getParts n io.opens selected
  unfold Node.prepareMerge
  split_ifs
  · rfl
  rcases hparts : n.getParts io.opens selected with ⟨n₁, err | pfs⟩
  all_goals
    rw [hparts] at hgot
    have hfds := hgot.fds id hid
  · exact hfds
  simp only
  cases io.writePart with
  | failed => exact hfds
  | failedAfterRename => exact hfds
  | ok =>
      simp only
      split_ifs
      · rw [preparedNode, fds_removeFile]
        exact hfds
      · cases io.writeMeta with
        | failed =>
            rw [preparedNode, fds_removeFile]
            exact hfds
        | failedAfterRename =>
            rw [preparedNode, fds_removeFile]
            exact hfds
        | ok => exact hfds

/-- A merge of sorted parts writes a sorted part with their rows. -/
theorem wrote_compact {call : CompactCall} (hcopies : Copies ids n)
    (hid : call.id ∉ n.parts.map PartMeta.id)
    (hlisted : ∀ p ∈ n.parts, OnRecord ids (Describes U) p) :
    Wrote U ids n call.id [] ((n.selectParts call.level call.force).map PartMeta.id)
      (Boot.prepareCompact U n call) := by
  have hnew : call.id ∉ (n.selectParts call.level call.force).map PartMeta.id :=
    not_mem_selectParts hid
  have hkept := fds_prepareMerge (U := U) (n := n) call.io call.level hnew
  unfold Boot.prepareCompact
  rcases prepareMerge_cases U n call.io call.level call.id
    (n.selectParts call.level call.force) with
    ⟨n', err, hprep, hsame⟩ | ⟨n', part, old, hprep, hmerged⟩
  all_goals rw [hprep] at hkept ⊢
  · exact .done hsame hkept
  · obtain ⟨pfs, hcontents, hfile, hmeta⟩ := hmerged.file
    rw [hmerged.oldIDs]
    have hdescribes : Describes U part (writePartV2Seq (mergeParts pfs) v2BlockRows) :=
      hmeta ▸ describes_mergedMeta n.nodeID call.level call.id _
    refine .ready hmerged.same hkept hfile hmerged.id_eq (hmeta ▸ rfl) hdescribes ?_ ?_ ?_
    · rw [rows_writePartV2Seq]
      apply mergeParts_sorted
      intro f hf
      obtain ⟨p, hp, hcontent⟩ := part_of_mem_contents hcontents hf
      obtain ⟨g, hg, -, hsorted, -⟩ := hlisted p (mem_selectParts hp).1
      rw [hcopies.content hcontent, Option.some.injEq] at hg
      exact hg ▸ hsorted
    · intro hnil
      apply hmerged.count
      rw [hdescribes.count, hnil]
      rfl
    · rw [rows_writePartV2Seq, ← hcopies.flatMap_rows hcontents]
      exact mergeParts_perm pfs

end Prepare

end Shrimpd.Lsm.Nodes
