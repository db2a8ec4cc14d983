import Shrimpd.Lsm.IndexEngine
import Shrimpd.Lsm.Listed
import Shrimpd.Lsm.Query
import Shrimpd.Lsm.Replication

/-!
# Index coverage over whole runs

Flushes, compactions, replication and reindexing publish parts, write their
index entries and cover them.  A label query trusts the index for covered parts.
A compaction writes the plain tokens of the merged rows where the others write
label tokens; where no compaction covers a part with labels, the index answers
for every covered part in every state of a run.
-/

namespace Shrimpd.Lsm.Indexing

open Shrimpd.Lib Shrimpd.Lib.Exec Shrimpd.Types Shrimpd.Block Shrimpd.Filter Replication

/-! ## The node with its index -/

structure State where
  rep : Replication.State
  mem : List Entry
  engine : Engine

namespace State

def empty (nodeID : Bytes) : State where
  rep := ⟨⟨nodeID, [], fun _ => none, fun _ => none, fun _ => none⟩, [], [], 0, []⟩
  mem := []
  engine := Engine.empty

def world (s : State) : World := ⟨s.rep.node, s.rep.active⟩

def setNode (s : State) (n : Node) : State := { s with rep := { s.rep with node := n } }

def setWorld (s : State) (w : World) : State :=
  { s with rep := { s.rep with node := w.node, active := w.active } }

end State

section Model

variable (content : Bytes → PartFile) (J : JsonReader) (U : Unicode)

structure ReindexIO where
  reads : Nat → Bool
  cover : Engine.CoverIO

/-- Open a part and index what can be read of it. -/
def reindex (s : State) (opens : Bytes → Bool) (id : Bytes) (io : ReindexIO) : State :=
  match s.rep.node.getPart opens id with
  | (n, .found f) =>
      { s.setNode n with
        engine := s.engine.cover io.cover id (buildIndexEntriesFromPart J io.reads id f) }
  | (n, _) => s.setNode n

def flush (s : State) (id : Bytes) (io : Engine.CoverIO) : State :=
  if s.mem = [] then s
  else
    { s.setWorld (s.world.flushPart U s.mem id) with
      mem := []
      engine := s.engine.cover io id (buildIndexEntries J id (sortByTimestamp s.mem)) }

/-- The part that a compaction publishes. -/
def mergedPart (w : World) (call : CompactCall) : Option PartMeta :=
  match w.node.prepareMerge U call.io call.level call.id
      (w.node.selectParts call.level call.force) with
  | .done _ _ => none
  | .ready _ merged _ => if call.io.append = .committed then some merged else none

/-- A compaction indexes the part's own tokens, unless there are too many. -/
def coverMerged (en : Engine) (io : Engine.CoverIO) (merged : PartMeta) : Engine :=
  if merged.tokensTruncated then en
  else en.cover io merged.id (merged.tokens.map fun tok => ⟨tok, merged.id⟩)

def compactLevel (s : State) (call : CompactCall) (io : Engine.CoverIO) : State :=
  let s' := s.setWorld (s.world.compactLevel U call).1
  match mergedPart U s.world call with
  | none => s'
  | some merged => { s' with engine := coverMerged s.engine io merged }

/-- A log entry of another node, once its part is fetched and listed, is indexed. -/
def applyLogEntry (s : State) (io : FetchIO) (e : LogEntry) (ix : ReindexIO) : State :=
  let s' := { s with rep := Replication.applyLogEntry content U s.rep io e }
  if e.nodeID = s.rep.node.nodeID then s'
  else
    match (fetchPart content U s.rep.node io e.part).2 with
    | none => s'
    | some part => reindex J s' io.opens part.id ix

/-- `download`, `relist` and `reindex` are what a start, a bootstrap and a retry consist of. -/
inductive Op where
  | write (entries : List Entry)
  | flush (id : Bytes) (io : Engine.CoverIO)
  | compact (call : CompactCall) (io : Engine.CoverIO)
  | apply (io : FetchIO) (e : LogEntry) (ix : ReindexIO)
  | download (io : FetchIO) (part : PartMeta)
  | relist (parts : List PartMeta)
  | reindex (opens : Bytes → Bool) (id : Bytes) (ix : ReindexIO)
  | indexFlush (io : Engine.FlushIO)
  | restart (keeps : Bytes → Bool)

/-- What the node has under the name is the part's file. -/
def own (n : Node) (id : Bytes) : Bool :=
  ((n.files id).all fun f => f = content id) && (n.content id).all fun f => f = content id

/-- `content` names the file of every part: a new ID is one under which nothing else is
ever written, and peers serve a part's own bytes. -/
def step (s : State) : Op → Option State
  | .write entries => some { s with mem := s.mem ++ entries }
  | .flush id io =>
      let s' := flush J U s id io
      if s.world.Fresh id ∧ own content s'.rep.node id then some s' else none
  | .compact call io =>
      let s' := compactLevel U s call io
      if s.world.Fresh call.id ∧ own content s'.rep.node call.id then some s' else none
  | .apply io e ix => some (applyLogEntry content J U s io e ix)
  | .download io part => some (s.setNode (fetchPart content U s.rep.node io part).1)
  | .relist parts =>
      if parts.all fun p => (s.rep.node.files p.id).isSome then
        some (s.setNode { s.rep.node with parts := parts })
      else none
  | .reindex opens id ix => some (reindex J s opens id ix)
  | .indexFlush io => (s.engine.flush io).map fun en => { s with engine := en }
  | .restart keeps =>
      some { s.setNode { s.rep.node with parts := [], fds := fun _ => none } with
        engine := s.engine.restart keeps }

/-- A compaction publishes no part with labels whose tokens it indexes, and a part is
indexed from all its blocks. -/
def StepOk (s : State) : Op → Prop
  | .compact call _ => ∀ merged, mergedPart U s.world call = some merged →
      merged.tokensTruncated = true ∨ rowLabelTokens J (content merged.id).rows = []
  | .apply _ _ ix => ∀ i, ix.reads i = true
  | .reindex _ _ ix => ∀ i, ix.reads i = true
  | _ => True

/-! ## The invariant -/

/-- The label tokens of every covered part are durable in the index. -/
def Indexed (en : Engine) : Prop :=
  ∀ id, id ∈ en.covered ∨ id ∈ en.savedCovered →
    ∀ tok ∈ rowLabelTokens J (content id).rows, en.Durable ⟨tok, id⟩

structure Inv (s : State) : Prop where
  faithful : Faithful content s.rep.node
  engine : s.engine.Ok
  indexed : Indexed content J s.engine

end Model

section Steps

variable {content : Bytes → PartFile} {J : JsonReader} {U : Unicode} {s : State}

theorem Indexed.keeps {en en' : Engine} (h : Indexed content J en) (hkeeps : en.Keeps en')
    (hcovered : ∀ id, id ∈ en'.covered ∨ id ∈ en'.savedCovered →
      id ∈ en.covered ∨ id ∈ en.savedCovered) : Indexed content J en' :=
  fun id hid tok htok => hkeeps.durable _ (h id (hcovered id hid) tok htok)

/-- Indexing a part with all its label tokens. -/
theorem indexed_cover {en : Engine} (hok : en.Ok) (h : Indexed content J en) (io : Engine.CoverIO)
    {id : Bytes} {entries : List IndexEntry}
    (hall : ∀ tok ∈ rowLabelTokens J (content id).rows, ⟨tok, id⟩ ∈ entries) :
    (en.cover io id entries).Ok ∧ Indexed content J (en.cover io id entries) := by
  have hkeeps := Engine.keeps_write hok io.commit entries
  have hwritten := @Engine.durable_write en io.commit entries
  obtain ⟨hcovered, hsaved⟩ := @Engine.covered_write en io.commit entries
  unfold Engine.cover
  rcases hwrite : en.write io.commit entries with ⟨en', ok⟩
  rw [hwrite] at hkeeps hwritten hcovered hsaved
  have hold : Indexed content J en' := by
    apply h.keeps hkeeps
    rw [hcovered, hsaved]
    exact fun _ hid => hid
  cases ok with
  | false => exact ⟨hkeeps.ok, hold⟩
  | true =>
      refine ⟨⟨hkeeps.ok.logged, hkeeps.ok.onDisk⟩, ?_⟩
      intro a ha tok htok
      have hcases : a ∈ en'.covered ∨ a ∈ en'.savedCovered ∨ a = id := by
        cases hsave : io.saved <;>
          simp only [Engine.markCovered, hsave, List.mem_append, List.mem_singleton,
            Bool.false_eq_true, if_true, if_false] at ha <;> tauto
      rcases hcases with ha | ha | rfl
      · exact hold a (Or.inl ha) tok htok
      · exact hold a (Or.inr ha) tok htok
      · exact hwritten rfl (hall tok htok)

theorem inv_setNode {n : Node} (h : Inv content J s) (hn : Faithful content n) :
    Inv content J (s.setNode n) :=
  ⟨hn, h.engine, h.indexed⟩

theorem inv_reindex (h : Inv content J s) (opens : Bytes → Bool) (id : Bytes) {io : ReindexIO}
    (hreads : ∀ i, io.reads i = true) : Inv content J (reindex J s opens id io) := by
  have hnode := faithful_getPart h.faithful opens id
  have hfound := @content_of_found s.rep.node opens id
  unfold reindex
  rcases hget : s.rep.node.getPart opens id with ⟨n, f | _ | _⟩
  all_goals rw [hget] at hnode hfound
  · have hf : f = content id := by
      have hread := hfound rfl
      rw [Node.content, Option.or_eq_some_iff] at hread
      rcases hread with hfd | ⟨-, hfile⟩
      · exact h.faithful id f (Or.inr hfd)
      · exact h.faithful id f (Or.inl hfile)
    have hall : ∀ tok ∈ rowLabelTokens J (content id).rows,
        ⟨tok, id⟩ ∈ buildIndexEntriesFromPart J io.reads id f := by
      rw [buildIndexEntriesFromPart_eq hreads, hf]
      exact fun tok htok => mem_buildIndexEntries htok
    obtain ⟨hok, hindexed⟩ := indexed_cover h.engine h.indexed io.cover hall
    exact ⟨hnode, hok, hindexed⟩
  · exact inv_setNode h hnode
  · exact inv_setNode h hnode

/-- Only the files of one part differ, and they are its own. -/
theorem faithful_of_sameBut {n n' : Node} {id : Bytes} (h : Faithful content n)
    (hsame : n.SameBut n' id) (hown : own content n' id = true) : Faithful content n' := by
  have hread : ∀ a f, n'.files a = some f ∨ n'.content a = some f → f = content a := by
    intro a f hf
    by_cases ha : a = id
    · subst ha
      rw [own, Bool.and_eq_true] at hown
      rcases hf with hf | hf
      · simpa [hf] using hown.1
      · simpa [hf] using hown.2
    · rw [hsame.files a ha, hsame.content a ha, Node.content, Option.or_eq_some_iff] at hf
      rcases hf with hf | hf | ⟨-, hf⟩
      · exact h a f (Or.inl hf)
      · exact h a f (Or.inr hf)
      · exact h a f (Or.inl hf)
  intro a f hf
  refine hread a f (hf.imp_right fun hfd => ?_)
  rw [Node.content, hfd]
  rfl

theorem inv_flush {id : Bytes} (io : Engine.CoverIO) (h : Inv content J s)
    (hown : own content (flush J U s id io).rep.node id = true) : Inv content J (flush J U s id io) := by
  unfold flush at hown ⊢
  split_ifs at hown ⊢ with hmem
  · exact h
  let file := writePartV2 (sortByTimestamp s.mem)
  let node := (s.rep.node.setFile id (some file)).setMeta id
    (some (flushMeta U s.rep.node.nodeID id file))
  have hsame : s.rep.node.SameBut node id :=
    (((Node.Same.refl s.rep.node).but id).setFile _).setMeta _
  have hnode : Faithful content node := faithful_of_sameBut h.faithful hsame hown
  have hfile : content id = file := by
    refine (hnode id file (Or.inl ?_)).symm
    simp [node, Node.setFile, Node.setMeta]
  have hall : ∀ tok ∈ rowLabelTokens J (content id).rows,
      ⟨tok, id⟩ ∈ buildIndexEntries J id (sortByTimestamp s.mem) := by
    rw [hfile, rows_writePartV2]
    exact fun tok htok => mem_buildIndexEntries htok
  obtain ⟨hok, hindexed⟩ := indexed_cover h.engine h.indexed io hall
  exact ⟨hnode, hok, hindexed⟩

theorem faithful_compactLevel {w : World} {call : CompactCall} (h : Faithful content w.node)
    (hown : own content (w.compactLevel U call).1.node call.id = true) :
    Faithful content (w.compactLevel U call).1.node := by
  rcases prepareMerge_cases U w.node call.io call.level call.id
    (w.node.selectParts call.level call.force) with
    ⟨n, err, hprep, hsame⟩ | ⟨n, part, oldIDs, hprep, hmerged⟩
  · simp only [World.compactLevel, hprep] at hown ⊢
    exact faithful_of_sameBut h hsame hown
  have habandon : w.node.SameBut (n.abandon call.io part.id) call.id := by
    rw [hmerged.id_eq]
    exact (hmerged.same.removeFile _).removeMeta _
  cases happend : call.io.append <;> simp only [World.compactLevel, hprep, happend] at hown ⊢
  case committed =>
    have hn : Faithful content n := faithful_of_sameBut h hmerged.same hown
    exact hn
  all_goals exact faithful_of_sameBut h habandon hown

theorem inv_compact {call : CompactCall} (io : Engine.CoverIO) (h : Inv content J s)
    (hok : StepOk content J U s (.compact call io))
    (hown : own content (compactLevel U s call io).rep.node call.id = true) :
    Inv content J (compactLevel U s call io) := by
  have hnode : Faithful content (s.world.compactLevel U call).1.node := by
    apply faithful_compactLevel h.faithful
    unfold compactLevel at hown
    cases hmerged : mergedPart U s.world call <;> rw [hmerged] at hown <;> exact hown
  unfold compactLevel
  cases hmerged : mergedPart U s.world call with
  | none => exact ⟨hnode, h.engine, h.indexed⟩
  | some merged =>
      suffices hcover : (coverMerged s.engine io merged).Ok ∧
          Indexed content J (coverMerged s.engine io merged) from
        ⟨hnode, hcover.1, hcover.2⟩
      unfold coverMerged
      split_ifs with htrunc
      · exact ⟨h.engine, h.indexed⟩
      · apply indexed_cover h.engine h.indexed
        rw [(hok merged hmerged).resolve_left htrunc]
        exact fun tok htok => absurd htok List.not_mem_nil

theorem faithful_applyLogEntry {r : Replication.State} (h : Faithful content r.node) (io : FetchIO)
    (e : LogEntry) : Faithful content (Replication.applyLogEntry content U r io e).node := by
  unfold Replication.applyLogEntry
  split_ifs
  · exact h
  have hnode := (fetched_fetchPart U r.node io e.part).faithful h
  rcases hfetch : fetchPart content U r.node io e.part with ⟨n, _ | part⟩
  all_goals rw [hfetch] at hnode
  · exact hnode
  · cases e.op with
    | put =>
        have hlist : Faithful content (n.publish part []) := hnode
        exact faithful_getPart hlist _ _
    | merge =>
        have hlist : Faithful content (n.publish part e.oldParts) := hnode
        exact faithful_getPart hlist _ _

theorem inv_apply (io : FetchIO) (e : LogEntry) {ix : ReindexIO} (h : Inv content J s)
    (hreads : ∀ i, ix.reads i = true) :
    Inv content J (applyLogEntry content J U s io e ix) := by
  have hrep : Inv content J { s with rep := Replication.applyLogEntry content U s.rep io e } :=
    ⟨faithful_applyLogEntry h.faithful io e, h.engine, h.indexed⟩
  unfold applyLogEntry
  simp only
  split_ifs
  · exact hrep
  · cases (fetchPart content U s.rep.node io e.part).2 with
    | none => exact hrep
    | some part => exact inv_reindex hrep io.opens part.id hreads

theorem inv_step {s' : State} {op : Op} (h : Inv content J s) (hok : StepOk content J U s op)
    (hstep : step content J U s op = some s') : Inv content J s' := by
  cases op with
  | write entries =>
      obtain rfl := Option.some.inj hstep
      exact ⟨h.faithful, h.engine, h.indexed⟩
  | flush id io =>
      simp only [step] at hstep
      split_ifs at hstep with hguard
      obtain rfl := Option.some.inj hstep
      exact inv_flush io h hguard.2
  | compact call io =>
      simp only [step] at hstep
      split_ifs at hstep with hguard
      obtain rfl := Option.some.inj hstep
      exact inv_compact io h hok hguard.2
  | apply io e ix =>
      obtain rfl := Option.some.inj hstep
      exact inv_apply io e h hok
  | download io part =>
      obtain rfl := Option.some.inj hstep
      exact inv_setNode h ((fetched_fetchPart U s.rep.node io part).faithful h.faithful)
  | relist parts =>
      simp only [step] at hstep
      split_ifs at hstep
      obtain rfl := Option.some.inj hstep
      exact inv_setNode h h.faithful
  | reindex opens id ix =>
      obtain rfl := Option.some.inj hstep
      exact inv_reindex h opens id hok
  | indexFlush io =>
      simp only [step, Option.map_eq_some_iff] at hstep
      obtain ⟨en, hflush, rfl⟩ := hstep
      obtain ⟨hkeeps, hcovered, hsaved⟩ := Engine.keeps_flush h.engine hflush
      refine ⟨h.faithful, hkeeps.ok, h.indexed.keeps hkeeps ?_⟩
      rw [hcovered, hsaved]
      exact fun _ hid => hid
  | restart keeps =>
      obtain rfl := Option.some.inj hstep
      have hkeeps := Engine.keeps_restart h.engine keeps
      refine ⟨fun a f hf => h.faithful a f (hf.imp_right nofun), hkeeps.ok,
        h.indexed.keeps hkeeps ?_⟩
      intro id hid
      simp only [Engine.restart, or_self, List.mem_filter] at hid
      exact Or.inr hid.1

/-- The labels of a covered part are in the index. -/
theorem Inv.seen (h : Inv content J s) {id : Bytes} (hid : id ∈ s.engine.covered) {e : Entry}
    (he : e ∈ s.rep.node.rows id) {k v : Bytes}
    (hlabel : (extractLabels J e.data).lookup k = some v) : s.engine.Seen ⟨labelToken k v, id⟩ := by
  have hrow : e ∈ (content id).rows := by
    unfold Node.rows at he
    cases hread : s.rep.node.content id with
    | none => simp [hread] at he
    | some f =>
        rw [hread] at he
        rw [Node.content, Option.or_eq_some_iff] at hread
        have hf : f = content id := by
          rcases hread with hfd | ⟨-, hfile⟩
          · exact h.faithful id f (Or.inr hfd)
          · exact h.faithful id f (Or.inl hfile)
        exact hf ▸ he
  exact h.engine.seen (h.indexed id (Or.inl hid) _ (mem_rowLabelTokens hrow hlabel))

end Steps

end Shrimpd.Lsm.Indexing
