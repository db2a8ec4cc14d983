import Shrimpd.Block.Part
import Mathlib.Logic.Function.Basic

/-!
# A node's parts and their garbage collection

The node keeps the list of parts it serves, the data and metadata files of its
parts directory, and the part files its part manager has open.  A garbage
collection pass removes the files of parts that are no longer active in etcd
and drops those parts from the list.  File ages and the answers of the file
system are inputs of the pass.
-/

namespace Shrimpd.Lsm

open Shrimpd.Lib Shrimpd.Types Shrimpd.Block

/-! ## File names -/

def dataName (id : Bytes) : Bytes := id ++ ascii ".json"

def metaName (id : Bytes) : Bytes := id ++ ascii ".meta"

/-- `filepath.Ext`: what follows the last dot, dot included. -/
def fileExt (name : Bytes) : Bytes :=
  let tail := (name.reverse.takeWhile fun b => b ≠ 46).reverse
  if tail.length < name.length then 46 :: tail else []

def trimSuffix (name suffix : Bytes) : Bytes := name.take (name.length - suffix.length)

/-- The part a garbage collection reads off a file name, if it looks at the file at all. -/
def gcID (name : Bytes) : Option Bytes :=
  if ascii ".sparse.json" <:+ name then some (trimSuffix name (ascii ".sparse.json"))
  else if fileExt name = ascii ".meta" ∨ fileExt name = ascii ".json" then
    some (trimSuffix name (fileExt name))
  else none

theorem trimSuffix_append (s t : Bytes) : trimSuffix (s ++ t) t = s := by
  rw [trimSuffix, List.length_append, Nat.add_sub_cancel, List.take_left]

theorem fileExt_append {t : Bytes} (ht : (46 : UInt8) ∉ t) (s : Bytes) :
    fileExt (s ++ 46 :: t) = 46 :: t := by
  have htail : (s ++ 46 :: t).reverse.takeWhile (fun b => b ≠ 46) = t.reverse := by
    rw [List.reverse_append, List.reverse_cons, List.append_assoc, List.takeWhile_append_of_pos]
    · simp
    · intro b hb
      have hbt : b ∈ t := List.mem_reverse.mp hb
      simpa using fun hdot : b = 46 => ht (hdot ▸ hbt)
  simp only [fileExt, htail, List.reverse_reverse]
  rw [if_pos (by rw [List.length_append, List.length_cons]; omega)]

theorem suffix_append_iff {a b c : Bytes} : a ++ c <:+ b ++ c ↔ a <:+ b := by
  constructor
  · intro h
    obtain ⟨t, ht⟩ := h
    rw [← List.append_assoc] at ht
    exact ⟨t, List.append_cancel_right ht⟩
  · intro h
    obtain ⟨t, ht⟩ := h
    exact ⟨t, by rw [← List.append_assoc, ht]⟩

theorem gcID_dataName_sparse (id : Bytes) :
    gcID (dataName (id ++ ascii ".sparse")) = some id := by
  have hname : dataName (id ++ ascii ".sparse") = id ++ ascii ".sparse.json" := by
    rw [dataName, List.append_assoc]
    rfl
  rw [gcID, hname, if_pos (List.suffix_append _ _), trimSuffix_append]

/-- Unless it looks like a side file's, a data file's name gives the part itself. -/
theorem gcID_dataName {id : Bytes} (hid : ¬ ascii ".sparse" <:+ id) :
    gcID (dataName id) = some id := by
  have hside : ¬ ascii ".sparse.json" <:+ dataName id := by
    intro h
    exact hid ((suffix_append_iff (c := ascii ".json")).mp h)
  have hext : fileExt (dataName id) = ascii ".json" := fileExt_append (by decide) id
  rw [gcID, if_neg hside, hext, if_pos (Or.inr rfl), dataName, trimSuffix_append]

/-! ## The node -/

structure Node where
  nodeID : Bytes
  parts : List PartMeta
  files : Bytes → Option PartFile
  metas : Bytes → Option PartMeta
  fds : Bytes → Option PartFile

namespace Node

def setFile (n : Node) (id : Bytes) (f : Option PartFile) : Node :=
  { n with files := Function.update n.files id f }

def setMeta (n : Node) (id : Bytes) (m : Option PartMeta) : Node :=
  { n with metas := Function.update n.metas id m }

/-- What the node reads of a part: the open file, else the one on disk. -/
def content (n : Node) (id : Bytes) : Option PartFile := (n.fds id).or (n.files id)

/-- The rows the node reads of a part. -/
def rows (n : Node) (id : Bytes) : List Entry := ((n.content id).map PartFile.rows).getD []

/-- The rows of a part whose data file exists. -/
def onDisk (n : Node) (id : Bytes) : List Entry := if (n.files id).isSome then n.rows id else []

end Node

/-- Outcome of `PartManager.Get`. -/
inductive Opened where
  | found (f : PartFile)
  | missing
  | failed

/-- `PartManager.Get`; `opens` says for which parts opening and verifying the file works. -/
def Node.getPart (n : Node) (opens : Bytes → Bool) (id : Bytes) : Node × Opened :=
  match n.fds id with
  | some f => (n, .found f)
  | none =>
      match n.files id with
      | none => (n, .missing)
      | some f =>
          if opens id then ({ n with fds := Function.update n.fds id (some f) }, .found f)
          else (n, .failed)

/-! ## Garbage collection -/

/-- The answers one pass meets: file times by name, and whether listing, removing
and looking up a file work. -/
structure GCPass where
  listed : Bool
  cutoff : Int
  mtime : Bytes → Int
  removes : Bytes → Bool
  stats : Bytes → Bool

section Collect

variable (active : List Bytes) (pass : GCPass)

/-- The pass removes this file. -/
def gcRemoves (name : Bytes) : Bool :=
  match gcID name with
  | none => false
  | some id => !active.contains id && pass.mtime name < pass.cutoff && pass.removes name

def Node.sweep (n : Node) : Node :=
  { n with
    files := fun id => if gcRemoves active pass (dataName id) then none else n.files id
    metas := fun id => if gcRemoves active pass (metaName id) then none else n.metas id }

/-- A listed part stays when it is active or its metadata file is recent. -/
def Node.gcKeeps (n : Node) (id : Bytes) : Bool :=
  active.contains id ||
    (n.metas id).isSome && pass.stats (metaName id) && pass.cutoff < pass.mtime (metaName id)

/-- Listed parts that do not stay are dropped and their open files released. -/
def Node.reconcile (n : Node) : Node :=
  { n with
    parts := n.parts.filter fun p => n.gcKeeps active pass p.id
    fds := fun id =>
      if n.parts.any fun p => p.id == id && !n.gcKeeps active pass p.id then none
      else n.fds id }

def Node.runGC (n : Node) : Node :=
  if pass.listed then (n.sweep active pass).reconcile active pass else n

variable {active pass}

theorem gcRemoves_of_active {name id : Bytes} (hname : gcID name = some id)
    (hid : id ∈ active) : gcRemoves active pass name = false := by
  simp [gcRemoves, hname, hid]

theorem gcKeeps_of_active {n : Node} {id : Bytes} (hid : id ∈ active) :
    n.gcKeeps active pass id = true := by
  simp [Node.gcKeeps, hid]

theorem files_runGC {n : Node} {id : Bytes} (hkeep : gcRemoves active pass (dataName id) = false) :
    (n.runGC active pass).files id = n.files id := by
  unfold Node.runGC
  split_ifs
  · simp [Node.reconcile, Node.sweep, hkeep]
  · rfl

theorem files_runGC_of_some {n : Node} {id : Bytes} {f : PartFile}
    (h : (n.runGC active pass).files id = some f) : n.files id = some f := by
  unfold Node.runGC at h
  split_ifs at h
  · simp only [Node.reconcile, Node.sweep] at h
    split_ifs at h
    exact h
  · exact h

/-- An active part's open file is not released. -/
theorem fds_runGC {n : Node} {id : Bytes} (hid : id ∈ active) :
    (n.runGC active pass).fds id = n.fds id := by
  unfold Node.runGC
  split_ifs
  · have hkeep : (n.sweep active pass).gcKeeps active pass id = true := gcKeeps_of_active hid
    have hany : ¬ (n.sweep active pass).parts.any
        (fun p => p.id == id && !(n.sweep active pass).gcKeeps active pass p.id) = true := by
      rw [List.any_eq_true]
      intro h
      obtain ⟨p, -, hp⟩ := h
      rw [Bool.and_eq_true, beq_iff_eq] at hp
      rw [hp.1, hkeep] at hp
      simp at hp
    simp only [Node.reconcile, if_neg hany]
    rfl
  · rfl

/-- A pass changes nothing about the data of an active part whose name is its own. -/
theorem content_runGC {n : Node} {id : Bytes} (hid : id ∈ active)
    (hkeep : gcRemoves active pass (dataName id) = false) :
    (n.runGC active pass).content id = n.content id := by
  rw [Node.content, Node.content, fds_runGC hid, files_runGC hkeep]

theorem onDisk_runGC {n : Node} {id : Bytes} (hid : id ∈ active)
    (hkeep : gcRemoves active pass (dataName id) = false) :
    (n.runGC active pass).onDisk id = n.onDisk id := by
  rw [Node.onDisk, Node.onDisk, Node.rows, Node.rows, files_runGC hkeep,
    content_runGC hid hkeep]

end Collect

/-- The node and the active parts that etcd lists. -/
structure World where
  node : Node
  active : List Bytes

/-- Garbage collection passes, one after the other. -/
def World.collect (w : World) (passes : List GCPass) : World :=
  { w with node := passes.foldl (fun n pass => n.runGC w.active pass) w.node }

/-- The entry is in a part that is active in etcd and whose data file exists. -/
def World.Stored (w : World) (e : Entry) : Prop := ∃ id ∈ w.active, e ∈ w.node.onDisk id

/-- As `Stored`, in a part whose data file a pass will not take for another part's. -/
def World.Kept (w : World) (e : Entry) : Prop :=
  ∃ id ∈ w.active, e ∈ w.node.onDisk id ∧ ∀ owner, gcID (dataName id) = some owner →
    owner ∈ w.active

theorem gcRemoves_eq_false {active : List Bytes} {name : Bytes}
    (h : ∀ owner, gcID name = some owner → owner ∈ active) (pass : GCPass) :
    gcRemoves active pass name = false := by
  cases hname : gcID name with
  | none => simp [gcRemoves, hname]
  | some owner => exact gcRemoves_of_active hname (h owner hname)

theorem World.Kept.collect {w : World} {e : Entry} (h : w.Kept e) (passes : List GCPass) :
    (w.collect passes).Kept e := by
  obtain ⟨id, hid, he, howner⟩ := h
  refine ⟨id, hid, ?_, howner⟩
  suffices honDisk : ∀ n : Node,
      (passes.foldl (fun n pass => n.runGC w.active pass) n).onDisk id = n.onDisk id by
    rw [World.collect, honDisk]
    exact he
  induction passes with
  | nil => exact fun n => rfl
  | cons pass passes ih =>
      intro n
      rw [List.foldl_cons, ih, onDisk_runGC hid (gcRemoves_eq_false howner pass)]

theorem World.Kept.stored {w : World} {e : Entry} (h : w.Kept e) : w.Stored e := by
  obtain ⟨id, hid, he, -⟩ := h
  exact ⟨id, hid, he⟩

end Shrimpd.Lsm
