import Shrimpd.Lsm.Compact

/-!
# Listed parts

Every part in the node's list has a readable file of sorted rows that its
metadata describes.  Listing a new part in the place of merged ones keeps this,
and keeps the entries.
-/

namespace Shrimpd.Lsm

open Shrimpd.Lib Shrimpd.Types Shrimpd.Block

/-- The data side of a flush: `mem` becomes a part of level 0. -/
def World.flushPart (U : Unicode) (w : World) (mem : List Entry) (id : Bytes) : World :=
  let file := writePartV2 (sortByTimestamp mem)
  let part := flushMeta U w.node.nodeID id file
  let node := (w.node.setFile id (some file)).setMeta id (some part)
  ⟨node.publish part [], commitPart w.active id []⟩

/-- The node reads the part, and the metadata is that of its sorted rows. -/
structure PartOk (U : Unicode) (n : Node) (p : PartMeta) (f : PartFile) : Prop where
  content : n.content p.id = some f
  describes : Describes U p f
  sorted : SortedRows f.rows
  nonempty : f.rows ≠ []

/-- Every listed part is readable and described, and none is listed twice. -/
structure PartsOk (U : Unicode) (n : Node) : Prop where
  nodup : (n.parts.map PartMeta.id).Nodup
  part : ∀ p ∈ n.parts, ∃ f, PartOk U n p f

section Listed

variable {U : Unicode} {n n' : Node} {id : Bytes}

theorem PartOk.of_sameBut {p : PartMeta} {f : PartFile} (h : PartOk U n p f)
    (hsame : n.SameBut n' id) (hp : p.id ≠ id) : PartOk U n' p f := by
  refine ⟨?_, h.describes, h.sorted, h.nonempty⟩
  rw [hsame.content p.id hp]
  exact h.content

theorem PartOk.rows {p : PartMeta} {f : PartFile} (h : PartOk U n p f) : n.rows p.id = f.rows := by
  rw [Node.rows, h.content]
  rfl

theorem PartsOk.of_sameBut (h : PartsOk U n) (hsame : n.SameBut n' id)
    (hid : id ∉ n.parts.map PartMeta.id) : PartsOk U n' := by
  refine ⟨by rw [hsame.parts]; exact h.nodup, ?_⟩
  intro p hp
  rw [hsame.parts] at hp
  obtain ⟨f, hf⟩ := h.part p hp
  exact ⟨f, hf.of_sameBut hsame fun heq => hid (heq ▸ List.mem_map_of_mem hp)⟩

theorem partEntries_of_sameBut (hsame : n.SameBut n' id)
    (hid : id ∉ n.parts.map PartMeta.id) (active active' : List Bytes) :
    partEntries ⟨n', active'⟩ = partEntries ⟨n, active⟩ := by
  simp only [partEntries, listed, hsame.parts]
  apply List.flatMap_congr
  exact fun a ha => hsame.rows fun heq => hid (heq ▸ ha)

/-- Listing a new part in the place of old ones. -/
theorem PartsOk.publish {part : PartMeta} {f : PartFile} {oldIDs : List Bytes}
    (h : PartsOk U n) (hpart : PartOk U n part f) (hnew : part.id ∉ n.parts.map PartMeta.id) :
    PartsOk U (n.publish part oldIDs) := by
  refine ⟨?_, ?_⟩
  · rw [listed_publish hnew]
    apply List.Nodup.append (h.nodup.filter _) (List.nodup_singleton _)
    intro a ha hsingle
    rw [List.mem_singleton] at hsingle
    exact hnew (hsingle ▸ (List.mem_filter.mp ha).1)
  · intro p hp
    have hcases : p ∈ n.parts ∨ p = part := by
      simp only [Node.publish] at hp
      split_ifs at hp
      · exact Or.inl (List.mem_filter.mp hp).1
      · rcases List.mem_append.mp hp with hp | hp
        · exact Or.inl (List.mem_filter.mp hp).1
        · exact Or.inr (List.mem_singleton.mp hp)
    rcases hcases with hp | rfl
    · obtain ⟨g, hg⟩ := h.part p hp
      exact ⟨g, hg.content, hg.describes, hg.sorted, hg.nonempty⟩
    · exact ⟨f, hpart.content, hpart.describes, hpart.sorted, hpart.nonempty⟩

theorem partEntries_publish {part : PartMeta} {oldIDs : List Bytes} (h : PartsOk U n)
    (hnew : part.id ∉ n.parts.map PartMeta.id) (hnodup : oldIDs.Nodup)
    (hold : ∀ a ∈ oldIDs, a ∈ n.parts.map PartMeta.id) (active active' : List Bytes) :
    (partEntries ⟨n.publish part oldIDs, active'⟩ ++ oldIDs.flatMap n.rows).Perm
      (partEntries ⟨n, active⟩ ++ n.rows part.id) := by
  have hentries : partEntries ⟨n.publish part oldIDs, active'⟩ =
      ((n.parts.map PartMeta.id).filter fun a => !oldIDs.contains a).flatMap n.rows ++
        n.rows part.id := by
    change ((n.publish part oldIDs).parts.map PartMeta.id).flatMap n.rows = _
    rw [listed_publish hnew, List.flatMap_append, List.flatMap_singleton]
  have hsplit := flatMap_filter_append h.nodup hnodup hold n.rows
  rw [hentries, List.append_assoc]
  refine (List.perm_append_comm.append_left _).trans ?_
  rw [← List.append_assoc]
  exact hsplit.append_right _

theorem part_of_mem_contents {ms : List PartMeta} {pfs : List PartFile} {f : PartFile}
    (h : List.Forall₂ (fun m f => n.content m.id = some f) ms pfs) (hf : f ∈ pfs) :
    ∃ p ∈ ms, n.content p.id = some f := by
  induction h with
  | nil => exact absurd hf List.not_mem_nil
  | @cons p g ms pfs hp _ ih =>
      rcases List.mem_cons.mp hf with rfl | hf
      · exact ⟨p, List.mem_cons_self, hp⟩
      · obtain ⟨q, hq, hcontent⟩ := ih hf
        exact ⟨q, List.mem_cons_of_mem _ hq, hcontent⟩

/-- The part a compaction has written is read and described like any other. -/
theorem Merged.partOk {level : Int} {selected : List PartMeta} {part : PartMeta}
    {oldIDs : List Bytes} (hmerged : Merged U n n' level id selected part oldIDs)
    (h : PartsOk U n) (hsel : ∀ p ∈ selected, p ∈ n.parts) (hfds : n.fds id = none)
    (hnew : id ∉ selected.map PartMeta.id) : ∃ f, PartOk U n' part f := by
  obtain ⟨pfs, hcontents, hfile, hmeta⟩ := hmerged.file
  have hdescribes : Describes U part (writePartV2Seq (mergeParts pfs) v2BlockRows) :=
    hmeta ▸ describes_mergedMeta n.nodeID level id _
  refine ⟨writePartV2Seq (mergeParts pfs) v2BlockRows, ?_, hdescribes, ?_, ?_⟩
  · rw [hmerged.id_eq, Node.content, hmerged.fds hnew, hfds, hfile]
    rfl
  · rw [rows_writePartV2Seq]
    apply mergeParts_sorted
    intro f hf
    obtain ⟨p, hp, hcontent⟩ := part_of_mem_contents hcontents hf
    obtain ⟨g, hg⟩ := h.part p (hsel p hp)
    rw [hg.content, Option.some.injEq] at hcontent
    exact hcontent ▸ hg.sorted
  · intro hnil
    apply hmerged.count
    rw [hdescribes.count, hnil]
    rfl

/-! ## A compaction that commits -/

section Committed

variable {level : Int} {force : Bool} {part : PartMeta} {oldIDs : List Bytes}

theorem not_mem_selectParts (hid : id ∉ n.parts.map PartMeta.id) :
    id ∉ (n.selectParts level force).map PartMeta.id := by
  intro hmem
  obtain ⟨p, hp, heq⟩ := List.mem_map.mp hmem
  exact hid (List.mem_map.mpr ⟨p, (mem_selectParts hp).1, heq⟩)

theorem Merged.not_listed
    (hmerged : Merged U n n' level id (n.selectParts level force) part oldIDs)
    (hid : id ∉ n.parts.map PartMeta.id) : part.id ∉ n'.parts.map PartMeta.id := by
  rw [hmerged.id_eq, hmerged.same.parts]
  exact hid

theorem Merged.partsOk_publish
    (hmerged : Merged U n n' level id (n.selectParts level force) part oldIDs)
    (h : PartsOk U n) (hfds : n.fds id = none) (hid : id ∉ n.parts.map PartMeta.id) :
    PartsOk U (n'.publish part oldIDs) := by
  obtain ⟨f, hpart⟩ := hmerged.partOk h (fun p hp => (mem_selectParts hp).1) hfds
    (not_mem_selectParts hid)
  exact (h.of_sameBut hmerged.same hid).publish hpart (hmerged.not_listed hid)

/-- The rows that leave with the old parts are those that come with the merged one. -/
theorem Merged.partEntries_publish
    (hmerged : Merged U n n' level id (n.selectParts level force) part oldIDs)
    (h : PartsOk U n) (hfds : n.fds id = none) (hid : id ∉ n.parts.map PartMeta.id)
    (active active' : List Bytes) :
    (partEntries ⟨n'.publish part oldIDs, active'⟩).Perm (partEntries ⟨n, active⟩) := by
  have hnew : id ∉ (n.selectParts level force).map PartMeta.id := not_mem_selectParts hid
  have hold := hmerged.oldIDs
  have hlisted : ∀ a ∈ oldIDs, a ∈ n'.parts.map PartMeta.id := by
    intro a ha
    rw [hold] at ha
    obtain ⟨p, hp, rfl⟩ := List.mem_map.mp ha
    rw [hmerged.same.parts]
    exact List.mem_map_of_mem (mem_selectParts hp).1
  have hrows : (n'.rows part.id).Perm (oldIDs.flatMap n'.rows) := by
    have hsame : oldIDs.flatMap n'.rows = oldIDs.flatMap n.rows := by
      apply List.flatMap_congr
      exact fun a ha => hmerged.same.rows fun heq => hnew (heq ▸ hold ▸ ha)
    rw [hsame, hold, hmerged.id_eq]
    exact hmerged.rows hfds hnew
  have hpublish := Lsm.partEntries_publish (h.of_sameBut hmerged.same hid)
    (hmerged.not_listed hid) (hold ▸ nodup_selectParts h.nodup level force) hlisted active active'
  have hentries := (List.perm_append_right_iff _).mp (hpublish.trans (hrows.append_left _))
  rw [partEntries_of_sameBut hmerged.same hid active active] at hentries
  exact hentries

end Committed

end Listed

end Shrimpd.Lsm
