import Shrimpd.Lsm.ClusterInv
import Shrimpd.Lsm.QueryMatcher

/-!
# The entries of the cluster

The active parts hold the entries of every flush that was committed, on the disk
of one member or another.  If every transaction finds the parts that it replaces
active, they hold them exactly once.
-/

namespace Shrimpd.Lsm.Nodes

open Shrimpd.Lib Shrimpd.Lib.Exec Shrimpd.Types Shrimpd.Block
open Shrimpd.Lsm.Replication hiding step Label Inv

/-! ## Runs from the start -/

def Member.start (nodeID : Bytes) : Member :=
  ⟨⟨nodeID, [], fun _ => none, fun _ => none, fun _ => none⟩, 0, [], []⟩

/-- Nodes without parts, and nothing in etcd. -/
def Cluster.start {ι : Type} (nodeID : ι → Bytes) : Cluster ι :=
  ⟨fun i => Member.start (nodeID i), [], [], [], fun _ => none, []⟩

section Runs

variable {ι : Type} [DecidableEq ι] {U : Unicode} {nodeID : ι → Bytes} {c c' : Cluster ι}

omit [DecidableEq ι] in
theorem inv_start (h : Function.Injective nodeID) : Inv U (Cluster.start nodeID) := by
  refine ⟨h, by simp [Cluster.start], ?_, by simp [Cluster.start], by simp [Cluster.start],
    fun i => ?_⟩
  · constructor <;> simp [Cluster.start]
  · constructor <;> simp [Cluster.start, Member.start, Copies]

theorem inv_exec (h : Function.Injective nodeID) {ls : List (Label ι)}
    (hsound : Along (step U) Sound (Cluster.start nodeID) ls)
    (hrun : exec (step U) (Cluster.start nodeID) ls = some c) : Inv U c :=
  invariant_along (fun _ _ _ hinv hok hstep => inv_step hinv hok hstep) (inv_start h) hsound hrun

/-! ## What a step does to the active parts -/

/-- The parts stay, or one of the prepared parts takes its place among them. -/
inductive Progresses (c c' : Cluster ι) : Label ι → Prop where
  | stays {l} (active : c'.active = c.active) (flushed : c'.flushed = c.flushed)
      (log : c'.log = c.log) (ids : ∀ a f, c.ids a = some f → c'.ids a = some f) :
      Progresses c c' l
  | commits {k io i q} (prepared : c.prepared[k]? = some (i, q))
      (active : c'.active = commitPart c.active q.part.id q.oldParts)
      (flushed : c'.flushed = c.flushed ++ q.entries) (ids : c'.ids = c.ids) :
      Progresses c c' (.append k io)

theorem ids_prepare {i : ι} {op : LogOp} {entries : List Entry} {id : Bytes} {p : Prepared}
    (hid : c.NewID id) (a : Bytes) (f : PartFile) (hf : c.ids a = some f) :
    (c.prepare i op entries id p).ids a = some f := by
  have ha : a ≠ id := fun heq => by
    rw [heq, hid.1] at hf
    exact absurd hf (by simp)
  exact (Function.update_of_ne ha _ _).trans hf

theorem progresses {l : Label ι} (hstep : step U c l = some c') : Progresses c c' l := by
  cases stepped hstep with
  | flush new => exact .stays rfl rfl rfl (ids_prepare new)
  | compact new => exact .stays rfl rfl rfl (ids_prepare new)
  | commit found => exact .commits found rfl rfl rfl
  | lost found => exact .commits found rfl rfl rfl
  | withdraw | publish | apply | retry | collect => exact .stays rfl rfl rfl fun _ _ hf => hf

/-! ## Nothing is lost -/

def Cluster.stored (c : Cluster ι) : List Entry := c.active.flatMap (rowsOf c.ids)

omit [DecidableEq ι] in
theorem stored_stays (h : Inv U c) (hactive : c'.active = c.active)
    (hids : ∀ a f, c.ids a = some f → c'.ids a = some f) : c'.stored = c.stored := by
  rw [Cluster.stored, hactive]
  exact h.log.flatMap_rowsOf h.log.known hids

omit [DecidableEq ι] in
/-- What a committed part leaves of the others, and what it brings. -/
theorem stored_commits (h : Inv U c) {i : ι} {q : Publication} (hq : (i, q) ∈ c.prepared)
    (hactive : c'.active = commitPart c.active q.part.id q.oldParts) (hids : c'.ids = c.ids) :
    c'.stored.Perm ((c.active.filter fun a => !q.oldParts.contains a).flatMap (rowsOf c.ids) ++
      (q.oldParts.flatMap (rowsOf c.ids) ++ q.entries)) := by
  have hok : PreparedOk U c.ids c.log (c.members i).node q := h.prepared _ hq
  have hnew : q.part.id ∉ c.active := fun hmem => hok.new (h.log.known _ hmem)
  rw [Cluster.stored, hids, hactive, commitPart_of_not_mem hnew, List.flatMap_append,
    List.flatMap_singleton]
  exact (hok.rows.trans List.perm_append_comm).append_left _

theorem subperm_flatMap {α β : Type} {l₁ l₂ : List α} (h : l₁.Subperm l₂) (g : α → List β) :
    (l₁.flatMap g).Subperm (l₂.flatMap g) := by
  obtain ⟨l, hperm, hsub⟩ := h
  exact (hperm.symm.flatMap_right g).subperm.trans (hsub.flatMap g).subperm

theorem subperm_filter_append {α : Type} [BEq α] [LawfulBEq α] {ids : List α} (hids : ids.Nodup)
    (old : List α) : ids.Subperm ((ids.filter fun a => !old.contains a) ++ old) := by
  have hin : (ids.filter fun a => old.contains a).Subperm old := by
    apply List.Nodup.subperm (hids.filter _)
    intro a ha
    exact List.contains_iff_mem.mp (List.mem_filter.mp ha).2
  have hsplit := List.filter_append_perm (fun a => old.contains a) ids
  exact (hsplit.symm.trans List.perm_append_comm).subperm.trans ((List.Subperm.refl _).append hin)

theorem kept_step {l : Label ι} (h : Inv U c) (hkept : c.flushed.Subperm c.stored)
    (hstep : step U c l = some c') : c'.flushed.Subperm c'.stored := by
  cases progresses hstep with
  | stays active flushed log ids =>
      rw [flushed, stored_stays h active ids]
      exact hkept
  | @commits k io i q prepared active flushed ids =>
      have hstored := stored_commits h (List.mem_of_getElem? prepared) active ids
      have hold := subperm_flatMap (subperm_filter_append h.log.nodup q.oldParts) (rowsOf c.ids)
      rw [List.flatMap_append] at hold
      rw [← List.append_assoc] at hstored
      rw [flushed, hstored.subperm_left, List.subperm_append_right]
      exact hkept.trans hold

theorem flushed_subperm_stored (h : Function.Injective nodeID) {ls : List (Label ι)}
    (hsound : Along (step U) Sound (Cluster.start nodeID) ls)
    (hrun : exec (step U) (Cluster.start nodeID) ls = some c) : c.flushed.Subperm c.stored := by
  have hall : Inv U c ∧ c.flushed.Subperm c.stored := by
    refine invariant_along (I := fun c => Inv U c ∧ c.flushed.Subperm c.stored) ?_
      ⟨inv_start h, List.Subperm.refl _⟩ hsound hrun
    rintro s l t ⟨hinv, hkept⟩ hok hstep
    exact ⟨inv_step hinv hok hstep, kept_step hinv hkept hstep⟩
  exact hall.2

/-- The parts that the transaction replaces are all active. -/
def Serial (c : Cluster ι) : Label ι → Prop
  | .append k _ => ∀ x, c.prepared[k]? = some x → ∀ a ∈ x.2.oldParts, a ∈ c.active
  | _ => True

theorem exact_step {l : Label ι} (h : Inv U c) (hserial : Serial c l)
    (hexact : c.stored.Perm c.flushed) (hstep : step U c l = some c') :
    c'.stored.Perm c'.flushed := by
  cases progresses hstep with
  | stays active flushed log ids =>
      rw [flushed, stored_stays h active ids]
      exact hexact
  | @commits k io i q prepared active flushed ids =>
      have hq := List.mem_of_getElem? prepared
      have hstored := stored_commits h hq active ids
      have hold := flatMap_filter_append h.log.nodup (h.prepared _ hq).nodup
        (hserial _ prepared) (rowsOf c.ids)
      rw [← List.append_assoc] at hstored
      rw [flushed]
      exact hstored.trans ((hold.trans hexact).append_right _)

end Runs

end Shrimpd.Lsm.Nodes
