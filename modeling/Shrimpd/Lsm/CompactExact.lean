import Shrimpd.Lsm.CompactCommit
import Shrimpd.Lsm.Listed

/-!
# What a compaction publishes

The parts of a node are those that flushes and compactions make.  One call
replaces a few parts of one level by a single part of the next, with the same
entries and exact metadata, or leaves the list and etcd as they were.
-/

namespace Shrimpd.Lsm

open Shrimpd.Lib Shrimpd.Types Shrimpd.Block

/-! ## Parts as they are made -/

/-- Metadata and file of a part that a flush has written, or a compaction of such parts. -/
inductive Produced (U : Unicode) : PartMeta → PartFile → Prop where
  | flushed (nodeID id : Bytes) {mem : List Entry} (hmem : mem ≠ []) :
      Produced U (flushMeta U nodeID id (writePartV2 (sortByTimestamp mem)))
        (writePartV2 (sortByTimestamp mem))
  | merged (nodeID : Bytes) (level : Int) (id : Bytes) {parts : List (PartMeta × PartFile)}
      (hparts : ∀ p ∈ parts, Produced U p.1 p.2)
      (hrows : mergeParts (parts.map Prod.snd) ≠ []) :
      Produced U
        (mergedMeta U nodeID level id
          (writePartV2Seq (mergeParts (parts.map Prod.snd)) v2BlockRows))
        (writePartV2Seq (mergeParts (parts.map Prod.snd)) v2BlockRows)

/-- Different parts, each as a flush or a compaction made it. -/
structure ListsProduced (U : Unicode) (n : Node) : Prop where
  nodup : (n.parts.map PartMeta.id).Nodup
  part : ∀ p ∈ n.parts, ∃ f, n.content p.id = some f ∧ Produced U p f

section Produced

variable {U : Unicode} {n n' : Node}

theorem Produced.describes {m : PartMeta} {f : PartFile} (h : Produced U m f) :
    Describes U m f := by
  cases h with
  | flushed nodeID id _ => exact describes_flushMeta nodeID id _
  | merged nodeID level id _ _ => exact describes_mergedMeta nodeID level id _

theorem Produced.nonempty {m : PartMeta} {f : PartFile} (h : Produced U m f) : f.rows ≠ [] := by
  cases h with
  | @flushed nodeID id mem hmem =>
      rw [rows_writePartV2]
      exact fun hnil => hmem (List.nil_perm.mp (hnil ▸ sortByTimestamp_perm mem))
  | merged nodeID level id hparts hrows =>
      rw [rows_writePartV2Seq]
      exact hrows

/-- Flushes sort and merges keep the order, through any number of levels. -/
theorem Produced.sorted {m : PartMeta} {f : PartFile} (h : Produced U m f) :
    SortedRows f.rows := by
  induction h with
  | @flushed nodeID id mem hmem =>
      rw [rows_writePartV2]
      exact sorted_sortByTimestamp mem
  | @merged nodeID level id parts hparts hrows ih =>
      rw [rows_writePartV2Seq]
      apply mergeParts_sorted
      intro f hf
      obtain ⟨p, hp, rfl⟩ := List.mem_map.mp hf
      exact ih p hp

theorem ListsProduced.partsOk (h : ListsProduced U n) : PartsOk U n := by
  refine ⟨h.nodup, fun p hp => ?_⟩
  obtain ⟨f, hcontent, hf⟩ := h.part p hp
  exact ⟨f, hcontent, hf.describes, hf.sorted, hf.nonempty⟩

/-- The files of listed parts, with their metadata. -/
theorem ListsProduced.of_contents (h : ListsProduced U n) {ms : List PartMeta}
    {pfs : List PartFile} (hms : ∀ m ∈ ms, m ∈ n.parts)
    (hcontents : List.Forall₂ (fun m f => n.content m.id = some f) ms pfs) :
    ∃ parts : List (PartMeta × PartFile), parts.map Prod.snd = pfs ∧
      ∀ p ∈ parts, Produced U p.1 p.2 := by
  induction hcontents with
  | nil => exact ⟨[], rfl, by simp⟩
  | @cons m f ms pfs hf _ ih =>
      obtain ⟨parts, hmap, hparts⟩ := ih fun p hp => hms p (List.mem_cons_of_mem _ hp)
      obtain ⟨g, hg, hproduced⟩ := h.part m (hms m List.mem_cons_self)
      rw [hf, Option.some.injEq] at hg
      refine ⟨(m, f) :: parts, by rw [List.map_cons, hmap], ?_⟩
      intro p hp
      rcases List.mem_cons.mp hp with rfl | hp
      · exact hg ▸ hproduced
      · exact hparts p hp

/-- The part a compaction of produced parts commits is produced. -/
theorem Merged.produced {level : Int} {id : Bytes} {selected : List PartMeta} {part : PartMeta}
    {oldIDs : List Bytes} (hmerged : Merged U n n' level id selected part oldIDs)
    (h : ListsProduced U n) (hsel : ∀ p ∈ selected, p ∈ n.parts) (hfds : n.fds id = none)
    (hnew : id ∉ selected.map PartMeta.id) :
    ∃ f, n'.content part.id = some f ∧ Produced U part f := by
  obtain ⟨pfs, hcontents, hfile, hmeta⟩ := hmerged.file
  obtain ⟨parts, rfl, hparts⟩ := h.of_contents hsel hcontents
  have hcount := hmerged.count
  rw [hmeta, (describes_mergedMeta n.nodeID level id _).count, rows_writePartV2Seq,
    Ne, List.length_eq_zero_iff] at hcount
  refine ⟨writePartV2Seq (mergeParts (parts.map Prod.snd)) v2BlockRows, ?_, ?_⟩
  · rw [hmerged.id_eq, Node.content, hmerged.fds hnew, hfds, hfile]
    rfl
  · rw [hmeta]
    exact .merged n.nodeID level id hparts hcount

end Produced

/-! ## The call -/

/-- The parts `old` have given way to `part`, whose file is `f`. -/
structure Replacement (U : Unicode) (w w' : World) (level : Int) (old : List PartMeta)
    (part : PartMeta) (f : PartFile) : Prop where
  nonempty : old ≠ []
  few : old.length ≤ compactTrigger
  members : ∀ p ∈ old, p ∈ w.node.parts ∧ p.level = level ∧ p.nodeID = w.node.nodeID
  parts : w'.node.parts =
    (w.node.parts.filter fun p => !(old.map PartMeta.id).contains p.id) ++ [part]
  active : w'.active = commitPart w.active part.id (old.map PartMeta.id)
  level : part.level = level + 1
  nodeID : part.nodeID = w.node.nodeID
  content : w'.node.content part.id = some f
  sorted : SortedRows f.rows
  describes : Describes U part f
  produced : Produced U part f

section Call

variable {U : Unicode} {w : World} {call : CompactCall}

theorem length_selectParts (n : Node) (level : Int) (force : Bool) :
    (n.selectParts level force).length ≤ compactTrigger := by
  unfold Node.selectParts
  simp only
  split_ifs
  · exact Nat.zero_le _
  · exact List.length_take_le _ _

/-- A call that ends well before it reaches etcd had no parts or no rows. -/
theorem prepareMerge_done_none {n n' : Node} {io : CompactIO} {level : Int} {id : Bytes}
    {selected : List PartMeta} (h : n.prepareMerge U io level id selected = .done n' none) :
    selected = [] ∧ n' = n ∨
      selected ≠ [] ∧ ∃ pfs, mergeParts pfs = [] ∧
        List.Forall₂ (fun m f => n.content m.id = some f) selected pfs := by
  unfold Node.prepareMerge at h
  by_cases hnil : selected = []
  · rw [if_pos hnil, Prepared.done.injEq] at h
    exact Or.inl ⟨hnil, h.1.symm⟩
  rw [if_neg hnil] at h
  have hgot := gotParts_getParts n io.opens selected
  rcases hparts : n.getParts io.opens selected with ⟨n₁, err | pfs⟩
  all_goals
    rw [hparts] at hgot
    simp only [hparts] at h
  · simp at h
  · refine Or.inr ⟨hnil, pfs, ?_, hgot.found pfs rfl⟩
    cases hwrite : io.writePart with
    | failed => simp [hwrite] at h
    | failedAfterRename => simp [hwrite] at h
    | ok =>
        simp only [hwrite] at h
        split_ifs at h with hcount
        · rw [(describes_mergedMeta _ level id _).count, rows_writePartV2Seq] at hcount
          exact List.length_eq_zero_iff.mp hcount
        · cases hmeta : io.writeMeta <;> simp [hmeta] at h

theorem ListsProduced.mergeParts_ne_nil {n : Node} (h : ListsProduced U n) {ms : List PartMeta}
    {pfs : List PartFile} (hms : ∀ m ∈ ms, m ∈ n.parts) (hne : ms ≠ [])
    (hcontents : List.Forall₂ (fun m f => n.content m.id = some f) ms pfs) :
    mergeParts pfs ≠ [] := by
  intro hrows
  cases hcontents with
  | nil => exact hne rfl
  | @cons m f ms pfs hf _ =>
      obtain ⟨g, hg, hproduced⟩ := h.part m (hms m List.mem_cons_self)
      rw [hf, Option.some.injEq] at hg
      have hall := mergeParts_perm (f :: pfs)
      rw [hrows, List.nil_perm, List.flatMap_cons, List.append_eq_nil_iff] at hall
      exact hproduced.nonempty (hg ▸ hall.1)

/-- Produced parts have rows, so only an empty selection leaves nothing to do. -/
theorem ListsProduced.nothing_to_do (h : ListsProduced U w.node) {n : Node}
    (hprep : w.node.prepareMerge U call.io call.level call.id (call.selected w) =
      .done n none) : call.selected w = [] ∧ n = w.node := by
  rcases prepareMerge_done_none hprep with hnothing | ⟨hne, pfs, hrows, hcontents⟩
  · exact hnothing
  · exact absurd hrows (h.mergeParts_ne_nil (fun p hp => (mem_selectParts hp).1) hne hcontents)

/-- A committed call has made the replacement. -/
theorem Merged.replacement (h : ListsProduced U w.node) (hfresh : w.Fresh call.id) {n : Node}
    {part : PartMeta} {oldIDs : List Bytes}
    (hmerged : Merged U w.node n call.level call.id (call.selected w) part oldIDs)
    (hne : call.selected w ≠ []) :
    ∃ f, Replacement U w ⟨n.publish part oldIDs, commitPart w.active part.id oldIDs⟩ call.level
      (call.selected w) part f := by
  have hid := hfresh.2.2.2
  obtain ⟨f, hcontent, hproduced⟩ := hmerged.produced h (fun p hp => (mem_selectParts hp).1)
    hfresh.2.2.1 (not_mem_selectParts hid)
  obtain ⟨pfs, -, -, hmeta⟩ := hmerged.file
  refine ⟨f, hne, length_selectParts _ _ _, fun p hp => mem_selectParts hp, ?_, ?_, ?_, ?_,
    hcontent, hproduced.sorted, hproduced.describes, hproduced⟩
  · rw [parts_publish (hmerged.not_listed hid), hmerged.same.parts, hmerged.oldIDs]
  · rw [hmerged.oldIDs]
  · rw [hmeta]
    rfl
  · rw [hmeta]
    rfl

/-- Parts of other levels and nodes stay listed with their files. -/
theorem Merged.keeps_others (h : ListsProduced U w.node) (hfresh : w.Fresh call.id) {n : Node}
    {part : PartMeta} {oldIDs : List Bytes}
    (hmerged : Merged U w.node n call.level call.id (call.selected w) part oldIDs)
    (p : PartMeta) (hp : p ∈ w.node.parts)
    (hother : p.level ≠ call.level ∨ p.nodeID ≠ w.node.nodeID) :
    p ∈ (n.publish part oldIDs).parts ∧
      (n.publish part oldIDs).content p.id = w.node.content p.id := by
  have hid := hfresh.2.2.2
  have hkeep : p.id ∉ oldIDs := by
    rw [hmerged.oldIDs]
    intro hmem
    obtain ⟨q, hq, heq⟩ := List.mem_map.mp hmem
    obtain ⟨hlisted, hlevel, hnode⟩ := mem_selectParts hq
    obtain rfl := List.inj_on_of_nodup_map h.nodup hlisted hp heq
    exact hother.elim (fun hne => hne hlevel) fun hne => hne hnode
  refine ⟨?_, hmerged.same.content p.id fun heq => hid (heq ▸ List.mem_map_of_mem hp)⟩
  rw [parts_publish (hmerged.not_listed hid), hmerged.same.parts]
  exact List.mem_append_left _ (List.mem_filter.mpr ⟨hp, by simpa using hkeep⟩)

theorem selected_ne_nil {n n' : Node} {io : CompactIO} {level : Int} {id : Bytes}
    {selected : List PartMeta} {part : PartMeta} {oldIDs : List Bytes}
    (h : n.prepareMerge U io level id selected = .ready n' part oldIDs) : selected ≠ [] := by
  intro hempty
  rw [hempty, Node.prepareMerge, if_pos rfl] at h
  cases h

/-- A call that returns no error has replaced its selection, if it had one; the entries,
and the parts of other levels and nodes, are as before.  A call that fails before its
transaction commits leaves the list and etcd unchanged. -/
theorem compactLevel_exact (hparts : ListsProduced U w.node) (hfresh : w.Fresh call.id) :
    ((w.compactLevel U call).2 = none →
      (partEntries (w.compactLevel U call).1).Perm (partEntries w) ∧
      (∀ p ∈ w.node.parts, p.level ≠ call.level ∨ p.nodeID ≠ w.node.nodeID →
        p ∈ (w.compactLevel U call).1.node.parts ∧
          (w.compactLevel U call).1.node.content p.id = w.node.content p.id) ∧
      (call.selected w = [] ∧ (w.compactLevel U call).1 = w ∨
        ∃ part f, Replacement U w (w.compactLevel U call).1 call.level (call.selected w)
          part f)) ∧
    ((w.compactLevel U call).2 ≠ none →
      ¬ (call.Reaches U w ∧ call.io.append = .committedError) →
      (w.compactLevel U call).1.node.parts = w.node.parts ∧
        (w.compactLevel U call).1.active = w.active) := by
  have hends := compactEnds U w call
  generalize w.compactLevel U call = r at hends ⊢
  cases hends with
  | done hprep hsame =>
      refine ⟨fun hnone => ?_, fun _ _ => ⟨hsame.parts, rfl⟩⟩
      simp only at hnone
      obtain ⟨hempty, rfl⟩ := hparts.nothing_to_do (hnone ▸ hprep)
      exact ⟨List.Perm.refl _, fun p hp _ => ⟨hp, rfl⟩, Or.inl ⟨hempty, rfl⟩⟩
  | @committed n part oldIDs hprep hmerged happend =>
      refine ⟨fun _ => ⟨?_, hmerged.keeps_others hparts hfresh, Or.inr ?_⟩,
        fun hnone => absurd rfl hnone⟩
      · exact hmerged.partEntries_publish hparts.partsOk hfresh.2.2.1 hfresh.2.2.2 _ _
      · obtain ⟨f, hf⟩ := hmerged.replacement hparts hfresh (selected_ne_nil hprep)
        exact ⟨part, f, hf⟩
  | notCommitted hprep hmerged happend =>
      exact ⟨nofun, fun _ _ => ⟨(hmerged.abandon call.io).parts, rfl⟩⟩
  | committedError hprep hmerged happend =>
      exact ⟨nofun, fun _ hnot => absurd ⟨⟨_, _, _, hprep⟩, happend⟩ hnot⟩

end Call

def pairWorld : World where
  node :=
    { soloWorld.node with
      parts := soloWorld.node.parts ++
        [flushMeta Unicode.asciiOnly (ascii "n2") (ascii "1-1-n2") soloFile]
      files := fun id =>
        if id = ascii "1-1-n1" ∨ id = ascii "1-1-n2" then some soloFile else none }
  active := [ascii "1-1-n1", ascii "1-1-n2"]

theorem listsProduced_pairWorld : ListsProduced Unicode.asciiOnly pairWorld.node := by
  have hfile : soloFile = writePartV2 (sortByTimestamp [soloRow]) := rfl
  refine ⟨by decide, fun p hp => ⟨soloFile, ?_⟩⟩
  simp only [pairWorld, soloWorld, List.cons_append, List.nil_append, List.mem_cons,
    List.not_mem_nil, or_false] at hp
  rcases hp with rfl | rfl
  · refine ⟨rfl, ?_⟩
    rw [hfile]
    exact .flushed _ _ (by simp)
  · refine ⟨rfl, ?_⟩
    rw [hfile]
    exact .flushed _ _ (by simp)

/-- The theorem at a part of this node and one of another. -/
theorem compactLevel_exact_ownPart :
    (partEntries (pairWorld.compactLevel Unicode.asciiOnly (soloCall .committed)).1).Perm
        (partEntries pairWorld) ∧
      (pairWorld.compactLevel Unicode.asciiOnly (soloCall .committed)).1.node.parts.map
        (fun p => (p.id, p.level)) = [(ascii "1-1-n2", 0), (ascii "2-2-n1", 1)] := by
  have hfresh : pairWorld.Fresh (soloCall .committed).id := by
    change pairWorld.Fresh (ascii "2-2-n1")
    exact ⟨by decide, rfl, rfl, by decide⟩
  have hexact := compactLevel_exact listsProduced_pairWorld hfresh
  exact ⟨(hexact.1 rfl).1, by decide⟩

end Shrimpd.Lsm
