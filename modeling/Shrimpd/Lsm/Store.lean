import Shrimpd.Lsm.Query
import Shrimpd.Lib.Exec

/-!
# Storage histories of one node

Writes, flushes, compactions and queries in any order; compactions and queries
may meet faults.  The memtable and the listed parts together always hold exactly what was
written, and every listed part has a readable file that its metadata describes.
-/

namespace Shrimpd.Lsm

open Shrimpd.Lib Shrimpd.Lib.Exec Shrimpd.Types Shrimpd.Block

/-- The node with etcd, its block cache and memtable, and all entries written so far. -/
structure Store where
  world : World
  cache : RowCache
  mem : List Entry
  written : List Entry

namespace Store

def empty (nodeID : Bytes) : Store :=
  ⟨⟨⟨nodeID, [], fun _ => none, fun _ => none, fun _ => none⟩, []⟩, fun _ _ => none, [], []⟩

/-- The IDs are those `newPartID` hands out. -/
inductive Op where
  | write (entries : List Entry)
  | flush (id : Bytes)
  | compact (call : CompactCall)
  | query (io : QueryIO) (start stop : Int) (term : Bytes)
  | queryStream (io : QueryIO) (start stop : Int) (term : Bytes)
  | evict (keeps : Bytes → Nat → Bool)

def flush (U : Unicode) (s : Store) (id : Bytes) : Store :=
  if s.mem = [] then s else { s with world := s.world.flushPart U s.mem id, mem := [] }

/-- What a query leaves behind: open files and cached blocks. -/
def reads {σ : Type} (s : Store) (st : Scan σ) : Store :=
  { s with world := ⟨st.node, s.world.active⟩, cache := st.cache }

def query (U : Unicode) (s : Store) (io : QueryIO) (start stop : Int) (term : Bytes) :
    Scan (List Entry) × Option (QueryErr Empty) :=
  queryWithStats U io start stop term s.world.node s.cache s.mem

/-- The consumer records the entries. -/
def queryStream (U : Unicode) (s : Store) (io : QueryIO) (start stop : Int) (term : Bytes) :
    Scan (List Entry) × Option (QueryErr Empty) :=
  queryStreamWithStats U io start stop term record [] s.world.node s.cache s.mem

def step (U : Unicode) (s : Store) : Op → Option Store
  | .write entries =>
      some { s with mem := s.mem ++ entries, written := s.written ++ entries }
  | .flush id => if s.world.Fresh id then some (s.flush U id) else none
  | .compact call =>
      if s.world.Fresh call.id then some { s with world := (s.world.compactLevel U call).1 }
      else none
  | .query io start stop term => some (s.reads (s.query U io start stop term).1)
  | .queryStream io start stop term => some (s.reads (s.queryStream U io start stop term).1)
  | .evict keeps => some { s with cache := fun id i => if keeps id i then s.cache id i else none }

end Store

/-! ## Histories -/

structure Store.Ok (U : Unicode) (s : Store) : Prop where
  parts : PartsOk U s.world.node
  cache : CacheOk s.world.node s.cache
  entries : (s.mem ++ partEntries s.world).Perm s.written

section Histories

variable {U : Unicode} {s : Store} {id : Bytes}

theorem ok_empty (nodeID : Bytes) : (Store.empty nodeID).Ok U :=
  ⟨⟨List.nodup_nil, by simp [Store.empty]⟩, nofun, List.Perm.refl _⟩

theorem CacheOk.of_sameBut {n n' : Node} {cache : RowCache} (h : CacheOk n cache)
    (hsame : n.SameBut n' id) (hid : n.content id = none) : CacheOk n' cache := by
  intro a i b hb
  obtain ⟨f, hf, hblock⟩ := h a i b hb
  have hne : a ≠ id := by
    intro heq
    rw [heq, hid] at hf
    exact absurd hf (by simp)
  exact ⟨f, by rw [hsame.content a hne, hf], hblock⟩

theorem content_of_fresh {w : World} (h : w.Fresh id) : w.node.content id = none := by
  rw [Node.content, h.2.2.1, h.2.1]
  rfl

/-- Only files of an unused name have changed. -/
theorem Store.Ok.of_sameBut {n : Node} (h : s.Ok U) (hfresh : s.world.Fresh id)
    (hsame : s.world.node.SameBut n id) (active : List Bytes) :
    Store.Ok U { s with world := ⟨n, active⟩ } := by
  have hid := hfresh.2.2.2
  refine ⟨h.parts.of_sameBut hsame hid, h.cache.of_sameBut hsame (content_of_fresh hfresh), ?_⟩
  rw [partEntries_of_sameBut hsame hid s.world.active]
  exact h.entries

theorem ok_flush (h : s.Ok U) (hfresh : s.world.Fresh id) : (s.flush U id).Ok U := by
  unfold Store.flush World.flushPart
  split_ifs with hmem
  · exact h
  have hid := hfresh.2.2.2
  generalize hrows : sortByTimestamp s.mem = rows
  have hperm : rows.Perm s.mem := hrows ▸ sortByTimestamp_perm s.mem
  have hne : rows ≠ [] := fun hnil => hmem (List.nil_perm.mp (hnil ▸ hperm))
  let part := flushMeta U s.world.node.nodeID id (writePartV2 rows)
  let node := (s.world.node.setFile id (some (writePartV2 rows))).setMeta id (some part)
  have hsame : s.world.node.SameBut node id :=
    (((Node.Same.refl s.world.node).but id).setFile _).setMeta _
  have hpart : PartOk U node part (writePartV2 rows) := by
    refine ⟨?_, describes_flushMeta _ _ _, ?_, ?_⟩
    · simp [node, part, flushMeta, Node.content, Node.setFile, Node.setMeta, hfresh.2.2.1]
    · rw [rows_writePartV2, ← hrows]
      exact sorted_sortByTimestamp s.mem
    · rw [rows_writePartV2]
      exact hne
  have hlisted : part.id ∉ node.parts.map PartMeta.id := by
    rw [hsame.parts]
    exact hid
  have hbut := h.of_sameBut hfresh hsame s.world.active
  refine ⟨hbut.parts.publish hpart hlisted, hbut.cache, ?_⟩
  have hentries := partEntries_publish hbut.parts hlisted List.nodup_nil (by simp)
    s.world.active (commitPart s.world.active id [])
  rw [List.flatMap_nil, List.append_nil, hpart.rows, rows_writePartV2] at hentries
  have hswap := List.perm_append_comm.trans
    (hperm.append_right (partEntries ⟨node, s.world.active⟩))
  exact (hentries.trans hswap).trans hbut.entries

theorem ok_compact (h : s.Ok U) (call : CompactCall) (hfresh : s.world.Fresh call.id) :
    Store.Ok U { s with world := (s.world.compactLevel U call).1 } := by
  have hends := compactEnds U s.world call
  generalize s.world.compactLevel U call = r at hends ⊢
  cases hends with
  | done _ hsame => exact h.of_sameBut hfresh hsame _
  | notCommitted _ hmerged _ => exact h.of_sameBut hfresh (hmerged.abandon call.io) _
  | committedError _ hmerged _ => exact h.of_sameBut hfresh (hmerged.abandon call.io) _
  | committed _ hmerged _ =>
      have hid := hfresh.2.2.2
      have hfds := hfresh.2.2.1
      refine ⟨hmerged.partsOk_publish h.parts hfds hid,
        (h.of_sameBut hfresh hmerged.same s.world.active).cache, ?_⟩
      apply List.Perm.trans (List.Perm.append_left _ ?_) h.entries
      exact hmerged.partEntries_publish h.parts hfds hid s.world.active _

/-- Reading changes nothing the node lists or reads. -/
theorem ok_reads {σ : Type} {st : Scan σ} (h : s.Ok U) (hst : st.Ok s.world.node) :
    (s.reads st).Ok U := by
  have hrows : st.node.rows = s.world.node.rows := by
    funext a
    rw [Node.rows, Node.rows, hst.same.content]
  refine ⟨⟨?_, ?_⟩, ?_, ?_⟩
  · simp only [Store.reads, hst.same.parts]
    exact h.parts.nodup
  · intro p hp
    simp only [Store.reads, hst.same.parts] at hp
    obtain ⟨f, hf⟩ := h.parts.part p hp
    refine ⟨f, ?_, hf.describes, hf.sorted, hf.nonempty⟩
    rw [← hf.content]
    exact congrFun hst.same.content p.id
  · intro a i b hb
    simp only [Store.reads, hst.same.content]
    exact hst.cache a i b hb
  · simp only [Store.reads, partEntries, listed, hst.same.parts, hrows]
    exact h.entries

theorem ok_step {s' : Store} {op : Store.Op} (h : s.Ok U) (hstep : s.step U op = some s') :
    s'.Ok U := by
  cases op with
  | write entries =>
      obtain rfl := Option.some.inj hstep
      refine ⟨h.parts, h.cache, ?_⟩
      rw [List.append_assoc]
      refine (List.perm_append_comm.append_left _).trans ?_
      rw [← List.append_assoc]
      exact h.entries.append_right _
  | flush id =>
      simp only [Store.step] at hstep
      split_ifs at hstep with hfresh
      obtain rfl := Option.some.inj hstep
      exact ok_flush h hfresh
  | compact call =>
      simp only [Store.step] at hstep
      split_ifs at hstep with hfresh
      obtain rfl := Option.some.inj hstep
      exact ok_compact h call hfresh
  | query io start stop term =>
      obtain rfl := Option.some.inj hstep
      exact ok_reads h (queryWithStats_spec io start stop term s.mem h.cache).1
  | queryStream io start stop term =>
      obtain rfl := Option.some.inj hstep
      exact ok_reads h (queryStreamWithStats_spec io start stop term s.mem h.cache).1
  | evict keeps =>
      obtain rfl := Option.some.inj hstep
      refine ⟨h.parts, ?_, h.entries⟩
      intro a i b hb
      simp only at hb
      split_ifs at hb
      exact h.cache a i b hb

/-- After any history the memtable and the listed parts hold exactly what was written. -/
theorem ok_exec {nodeID : Bytes} {ops : List Store.Op}
    (hrun : exec (Store.step U) (Store.empty nodeID) ops = some s) : s.Ok U :=
  invariant (fun _ _ _ hok hstep => ok_step hok hstep) (ok_empty nodeID) hrun

end Histories

end Shrimpd.Lsm
