import Shrimpd.Lsm.CompactCommit
import Shrimpd.Lib.Loop

/-!
# Compaction passes

A pass compacts level after level, up to the highest level of the node's parts.
That level is asked for again in each round, and a round may have raised it by
one.  It has then merged four parts into one, so the distance to the highest
level and the number of parts together go down in every round, and the pass ends.
The level is a 64-bit integer: a part of the largest level is never passed.
-/

namespace Shrimpd.Lsm

open Shrimpd.Lib Shrimpd.Types Shrimpd.Block

/-! ## The loops -/

def Node.maxPartLevel (n : Node) : Int :=
  n.parts.foldl
    (fun maxLevel p => if p.nodeID == n.nodeID && p.level > maxLevel then p.level else maxLevel) 0

/-- The level the loop is at, and how many calls of `compactLevel` there have been. -/
structure Pass where
  world : World
  level : Int
  calls : Nat

section Loops

-- For each call of `compactLevel`: the new part's ID, the answers of the disk and of etcd.
variable (U : Unicode) (answers : Nat → Bytes × CompactIO)

def Pass.call (force : Bool) (s : Pass) : CompactCall :=
  ⟨s.level, force, (answers s.calls).1, (answers s.calls).2⟩

/-- One round of the loop over the levels; the level wraps around at 64 bits. -/
def Pass.round (force : Bool) (s : Pass) : Pass ⊕ (World × Option CompactErr) :=
  if s.level ≤ s.world.node.maxPartLevel then
    match s.world.compactLevel U (s.call answers force) with
    | (w, some err) => .inr (w, some err)
    | (w, none) => .inl ⟨w, (s.level + 1).bmod (2 ^ 64), s.calls + 1⟩
  else .inr (s.world, none)

/-- `LSM.compact`, with the rounds it goes through; undefined when so many do not suffice. -/
def World.compact (force : Bool) (rounds : Nat) (w : World) :
    Option (List Pass × World × Option CompactErr) :=
  Loop.run (Pass.round U answers force) rounds ⟨w, 0, 0⟩

/-- `LSM.Compact` up to the compaction of the index: level 0 by force, then the levels above. -/
def World.compactForced (rounds : Nat) (w : World) :
    Option (List Pass × World × Option CompactErr) :=
  match w.compactLevel U (Pass.call answers true ⟨w, 0, 0⟩) with
  | (w, some err) => some ([], w, some err)
  | (w, none) => Loop.run (Pass.round U answers false) rounds ⟨w, 1, 1⟩

end Loops

/-! ## The node's own parts -/

def Node.ownParts (n : Node) : List PartMeta := n.parts.filter fun p => p.nodeID == n.nodeID

theorem mem_ownParts {n : Node} {p : PartMeta} :
    p ∈ n.ownParts ↔ p ∈ n.parts ∧ p.nodeID = n.nodeID := by
  simp [Node.ownParts]

theorem maxPartLevel_le_iff {n : Node} {b : Int} :
    n.maxPartLevel ≤ b ↔ 0 ≤ b ∧ ∀ p ∈ n.ownParts, p.level ≤ b := by
  have hfold : ∀ (ps : List PartMeta) (acc : Int),
      ps.foldl (fun maxLevel p =>
        if p.nodeID == n.nodeID && p.level > maxLevel then p.level else maxLevel) acc ≤ b ↔
      acc ≤ b ∧ ∀ p ∈ ps, p.nodeID = n.nodeID → p.level ≤ b := by
    intro ps
    induction ps with
    | nil => simp
    | cons p ps ih =>
        intro acc
        rw [List.foldl_cons, ih, List.forall_mem_cons, ← and_assoc]
        apply and_congr_left
        intro _
        by_cases hown : p.nodeID = n.nodeID
        · by_cases hlevel : p.level > acc
          · simp only [hown, hlevel, beq_self_eq_true, decide_true, Bool.and_self, if_true]
            constructor
            · intro h
              exact ⟨by omega, fun _ => h⟩
            · intro h
              exact h.2 trivial
          · simp only [hown, hlevel, decide_false, Bool.and_false]
            constructor
            · intro h
              exact ⟨h, fun _ => by omega⟩
            · exact And.left
        · simp [hown]
  rw [Node.maxPartLevel, hfold]
  apply and_congr_right
  intro _
  constructor
  · intro h p hp
    obtain ⟨hmem, hown⟩ := mem_ownParts.mp hp
    exact h p hmem hown
  · intro h p hp hown
    exact h p (mem_ownParts.mpr ⟨hp, hown⟩)

theorem maxPartLevel_nonneg (n : Node) : 0 ≤ n.maxPartLevel :=
  (maxPartLevel_le_iff.mp le_rfl).1

theorem level_le_maxPartLevel {n : Node} {p : PartMeta} (hp : p ∈ n.ownParts) :
    p.level ≤ n.maxPartLevel :=
  (maxPartLevel_le_iff.mp le_rfl).2 p hp

/-! ## One call -/

section OneCall

variable {U : Unicode} {w : World} {call : CompactCall}

/-- The call commits a merged part. -/
def CompactCall.Merges (U : Unicode) (w : World) (call : CompactCall) : Prop :=
  call.Reaches U w ∧ call.io.append = .committed

theorem prepareMerge_nil (n : Node) (io : CompactIO) (level : Int) (id : Bytes) :
    n.prepareMerge U io level id [] = .done n none := by
  rw [Node.prepareMerge, if_pos rfl]

theorem compactLevel_of_no_parts (h : w.node.selectParts call.level call.force = []) :
    w.compactLevel U call = (w, none) := by
  rw [World.compactLevel, h, prepareMerge_nil]

theorem selectParts_ne_nil (h : call.Reaches U w) :
    w.node.selectParts call.level call.force ≠ [] := by
  intro hnil
  obtain ⟨n, part, oldIDs, hprep⟩ := h
  rw [hnil, prepareMerge_nil] at hprep
  cases hprep

theorem length_selectParts_unforced {n : Node} {level : Int}
    (h : n.selectParts level false ≠ []) :
    (n.selectParts level false).length = compactTrigger := by
  unfold Node.selectParts at h ⊢
  simp only [Bool.not_false, Bool.true_and, decide_eq_true_eq] at h ⊢
  split_ifs at h ⊢ with hfew
  · exact absurd rfl h
  · have hsort := (List.perm_insertionSort
      (fun a b : PartMeta => a.minTimestamp ≤ b.minTimestamp) (n.levelParts level)).length_eq
    rw [List.length_take, sortByMinTimestamp, hsort]
    omega

/-- What a call does to the part list. -/
inductive ListedAfter (U : Unicode) (w : World) (call : CompactCall) : World → Prop where
  | same {w'} (hmerges : ¬ call.Merges U w) (hnode : w'.node.nodeID = w.node.nodeID)
      (hparts : w'.node.parts = w.node.parts) : ListedAfter U w call w'
  | replaced {w' part} (hmerges : call.Merges U w) (hnode : w'.node.nodeID = w.node.nodeID)
      (hid : part.id = call.id) (howner : part.nodeID = w.node.nodeID)
      (hlevel : part.level = call.level + 1)
      (hparts : w'.node.parts = (w.node.parts.filter fun p =>
        !((w.node.selectParts call.level call.force).map PartMeta.id).contains p.id) ++ [part]) :
      ListedAfter U w call w'

theorem listedAfter (hnew : call.id ∉ listed w) :
    ListedAfter U w call (w.compactLevel U call).1 := by
  have hend := compactEnds U w call
  generalize w.compactLevel U call = out at hend
  cases hend with
  | done hprep hsame =>
      refine .same ?_ hsame.nodeID hsame.parts
      rintro ⟨⟨n, part, oldIDs, hready⟩, -⟩
      rw [hprep] at hready
      cases hready
  | @committed n part oldIDs hprep hmerged happend =>
      have hlist : part.id ∉ n.parts.map PartMeta.id := by
        rw [hmerged.same.parts, hmerged.id_eq]
        exact hnew
      obtain ⟨pfs, -, -, hmeta⟩ := hmerged.file
      refine .replaced ⟨⟨n, part, oldIDs, hprep⟩, happend⟩ hmerged.same.nodeID
        hmerged.id_eq ?_ ?_ ?_
      · rw [hmeta]
        rfl
      · rw [hmeta]
        rfl
      · rw [parts_publish hlist, hmerged.same.parts, hmerged.oldIDs]
  | notCommitted hprep hmerged happend =>
      refine .same ?_ (hmerged.abandon _).nodeID (hmerged.abandon _).parts
      rintro ⟨-, hcommitted⟩
      rw [happend] at hcommitted
      cases hcommitted
  | committedError hprep hmerged happend =>
      refine .same ?_ (hmerged.abandon _).nodeID (hmerged.abandon _).parts
      rintro ⟨-, hcommitted⟩
      rw [happend] at hcommitted
      cases hcommitted

/-- The selected parts are own parts, so each of them leaves the list. -/
theorem length_without_selected (hids : (listed w).Nodup) (level : Int) (force : Bool) :
    (w.node.ownParts.filter fun p =>
      !((w.node.selectParts level force).map PartMeta.id).contains p.id).length +
        (w.node.selectParts level force).length = w.node.ownParts.length := by
  set old := (w.node.selectParts level force).map PartMeta.id with hold
  have hown : (w.node.ownParts.map PartMeta.id).Nodup :=
    hids.sublist (List.filter_sublist.map _)
  have hin : ((w.node.ownParts.map PartMeta.id).filter fun a => old.contains a).Perm old := by
    rw [List.perm_ext_iff_of_nodup (hown.filter _) (nodup_selectParts hids level force)]
    intro a
    rw [List.mem_filter, List.contains_iff_mem]
    refine ⟨And.right, fun ha => ⟨?_, ha⟩⟩
    obtain ⟨p, hp, rfl⟩ := List.mem_map.mp ha
    obtain ⟨hmem, -, howner⟩ := mem_selectParts hp
    exact List.mem_map_of_mem (mem_ownParts.mpr ⟨hmem, howner⟩)
  have hlength := hin.length_eq
  rw [List.filter_map, List.length_map, hold, List.length_map] at hlength
  have hsplit := List.length_eq_length_filter_add (l := w.node.ownParts)
    fun p => old.contains p.id
  rw [← hold] at hlength
  simp only [Function.comp_def] at hlength
  omega

/-- What a call does to the number of own parts and to their highest level. -/
structure Shrinks (U : Unicode) (w : World) (call : CompactCall) (w' : World) : Prop where
  count_le : w'.node.ownParts.length ≤ w.node.ownParts.length
  merged : call.Merges U w → call.force = false →
    w.node.ownParts.length = w'.node.ownParts.length + (compactTrigger - 1)
  level : w'.node.maxPartLevel ≤ w.node.maxPartLevel ∨
    call.Merges U w ∧ w'.node.maxPartLevel ≤ max w.node.maxPartLevel (call.level + 1)

theorem shrinks_compactLevel (hids : (listed w).Nodup) (hnew : call.id ∉ listed w)
    (hlevel : 0 ≤ call.level) : Shrinks U w call (w.compactLevel U call).1 := by
  have hafter := listedAfter (U := U) hnew
  generalize (w.compactLevel U call).1 = w' at hafter
  cases hafter with
  | same hmerges hnode hparts =>
      have hown : w'.node.ownParts = w.node.ownParts := by
        rw [Node.ownParts, Node.ownParts, hnode, hparts]
      refine ⟨by rw [hown], fun h => absurd h hmerges, Or.inl ?_⟩
      rw [maxPartLevel_le_iff, hown]
      exact maxPartLevel_le_iff.mp le_rfl
  | @replaced part hmerges hnode hid howner hpart hparts =>
      have hown : w'.node.ownParts = (w.node.ownParts.filter fun p =>
          !((w.node.selectParts call.level call.force).map PartMeta.id).contains p.id) ++
            [part] := by
        rw [Node.ownParts, Node.ownParts, hnode, hparts, List.filter_append, List.filter_comm]
        simp [howner]
      have hcount := length_without_selected hids call.level call.force
      have hsome := List.length_pos_iff.mpr (selectParts_ne_nil hmerges.1)
      have hlength := congrArg List.length hown
      rw [List.length_append, List.length_singleton] at hlength
      refine ⟨by omega, ?_, Or.inr ⟨hmerges, ?_⟩⟩
      · intro _ hforce
        have hfour : (w.node.selectParts call.level call.force).length = compactTrigger := by
          have hne := selectParts_ne_nil hmerges.1
          rw [hforce] at hne ⊢
          exact length_selectParts_unforced hne
        rw [compactTrigger] at hfour ⊢
        omega
      · rw [maxPartLevel_le_iff, hown]
        refine ⟨by omega, ?_⟩
        intro p hp
        rcases List.mem_append.mp hp with hold | hone
        · exact le_max_of_le_left (level_le_maxPartLevel (List.mem_filter.mp hold).1)
        · rw [List.mem_singleton.mp hone, hpart]
          exact le_max_right _ _

end OneCall

/-! ## Whole passes -/

section Passes

variable {U : Unicode} {answers : Nat → Bytes × CompactIO}

/-- A state of a pass that began with `count` own parts: the IDs to come are new, and the
levels still to be reached fit into 64 bits. -/
structure Pass.Sound (answers : Nat → Bytes × CompactIO) (count : Nat) (s : Pass) : Prop where
  ids : (listed s.world).Nodup
  new : ∀ k, s.calls ≤ k → (answers k).1 ∉ listed s.world
  level : 0 ≤ s.level
  count_le : s.world.node.ownParts.length ≤ count
  bound : s.world.node.maxPartLevel + s.world.node.ownParts.length + 1 < 2 ^ 63

/-- The levels that are left and the own parts. -/
def Pass.potential (s : Pass) : Nat :=
  (s.world.node.maxPartLevel + 1 - s.level).toNat + s.world.node.ownParts.length

theorem Pass.Sound.shrinks {count : Nat} {s : Pass} (h : s.Sound answers count) (force : Bool) :
    Shrinks U s.world (s.call answers force) (s.world.compactLevel U (s.call answers force)).1 :=
  shrinks_compactLevel h.ids (h.new s.calls le_rfl) h.level

/-- The IDs stay distinct, and those to come stay new. -/
theorem Pass.Sound.listed {count : Nat} {s : Pass} (h : s.Sound answers count)
    (hinj : Function.Injective fun k => (answers k).1) (force : Bool) :
    (listed (s.world.compactLevel U (s.call answers force)).1).Nodup ∧
      ∀ k, s.calls + 1 ≤ k →
        (answers k).1 ∉ Lsm.listed (s.world.compactLevel U (s.call answers force)).1 := by
  have hcall := h.new s.calls le_rfl
  have hafter : ListedAfter U s.world (s.call answers force) _ := listedAfter hcall
  generalize (s.world.compactLevel U (s.call answers force)).1 = w' at hafter
  cases hafter with
  | same hmerges hnode hparts =>
      rw [Lsm.listed, hparts]
      exact ⟨h.ids, fun k hk => h.new k (by omega)⟩
  | @replaced part hmerges hnode hid howner hpart hparts =>
      rw [Lsm.listed, hparts, List.map_append, List.map_singleton, hid]
      have hsub := (List.filter_sublist (l := s.world.node.parts) (p := fun p =>
        !((s.world.node.selectParts s.level force).map PartMeta.id).contains p.id)).map PartMeta.id
      constructor
      · rw [List.nodup_append_comm, List.singleton_append, List.nodup_cons]
        exact ⟨fun hmem => hcall (hsub.subset hmem), h.ids.sublist hsub⟩
      · intro k hk hmem
        rcases List.mem_append.mp hmem with hold | hone
        · exact h.new k (by omega) (hsub.subset hold)
        · have hsame : k = s.calls := hinj (List.mem_singleton.mp hone)
          omega

/-- A round that leads to another lowers the potential: where it raises the highest level
by one, it has taken three parts away. -/
theorem Pass.Sound.round {count : Nat} {s t : Pass} (h : s.Sound answers count)
    (hinj : Function.Injective fun k => (answers k).1)
    (hround : s.round U answers false = .inl t) :
    t.Sound answers count ∧ t.potential < s.potential := by
  have hshrinks := h.shrinks (U := U) false
  obtain ⟨hids, hnew⟩ := h.listed (U := U) hinj false
  have hcount := h.count_le
  have hbound := h.bound
  have hlevel := h.level
  unfold Pass.round at hround
  split_ifs at hround with hle
  rcases hout : s.world.compactLevel U (s.call answers false) with ⟨w', err | _⟩
  all_goals rw [hout] at hround hshrinks hids hnew
  · obtain rfl := Sum.inl.inj hround
    have hwrap : (s.level + 1).bmod (2 ^ 64) = s.level + 1 := by
      apply Int.bmod_eq_of_le <;> norm_num <;> omega
    have hless : w'.node.ownParts.length ≤ s.world.node.ownParts.length := hshrinks.count_le
    have hmerged : w'.node.maxPartLevel ≤ s.world.node.maxPartLevel ∨
        w'.node.maxPartLevel ≤ s.world.node.maxPartLevel + 1 ∧
          s.world.node.ownParts.length = w'.node.ownParts.length + 3 := by
      rcases hshrinks.level with hsame | ⟨hmerges, hraised⟩
      · exact Or.inl hsame
      · have hraised' : w'.node.maxPartLevel ≤
            max s.world.node.maxPartLevel (s.level + 1) := hraised
        exact Or.inr ⟨by omega, hshrinks.merged hmerges rfl⟩
    refine ⟨⟨hids, hnew, ?_, by simp only; omega, by simp only; omega⟩, ?_⟩
    · simp only [hwrap]
      omega
    · simp only [Pass.potential, hwrap]
      omega
  · cases hround

theorem Pass.Sound.result {count : Nat} {s : Pass} {r : World × Option CompactErr}
    (h : s.Sound answers count) (hround : s.round U answers false = .inr r) :
    r.1.node.ownParts.length ≤ count := by
  have hshrinks := (h.shrinks (U := U) false).count_le
  have hcount := h.count_le
  unfold Pass.round at hround
  split_ifs at hround with hle
  · rcases hout : s.world.compactLevel U (s.call answers false) with ⟨w', err | _⟩
    all_goals rw [hout] at hround hshrinks
    · cases hround
    · obtain rfl := Sum.inr.inj hround
      exact hshrinks.trans hcount
  · obtain rfl := Sum.inr.inj hround
    exact hcount

theorem exists_run_round {count rounds : Nat} {s : Pass} (h : s.Sound answers count)
    (hinj : Function.Injective fun k => (answers k).1) (hrounds : s.potential < rounds) :
    ∃ visited r, Loop.run (Pass.round U answers false) rounds s = some (visited, r) ∧
      (∀ t ∈ visited, t.Sound answers count) ∧ r.1.node.ownParts.length ≤ count :=
  Loop.exists_run (fun _ _ hs hround => hs.round hinj hround)
    (fun _ _ hs hround => hs.result hround) h hrounds

variable (U answers) in
/-- The call of a round does not add to the own parts, and takes three away when it merges. -/
def Pass.Drops (s : Pass) : Prop :=
  let after := (s.world.compactLevel U (s.call answers false)).1
  after.node.ownParts.length ≤ s.world.node.ownParts.length ∧
    ((s.call answers false).Merges U s.world →
      s.world.node.ownParts.length = after.node.ownParts.length + (compactTrigger - 1))

theorem Pass.Sound.drops {count : Nat} {s : Pass} (h : s.Sound answers count) :
    s.Drops U answers :=
  ⟨(h.shrinks false).count_le, fun hmerges => (h.shrinks false).merged hmerges rfl⟩

/-- Both passes end within a number of rounds given by the parts they start from. -/
theorem compaction_passes_end {w : World} (hids : (listed w).Nodup)
    (hnew : ∀ k, (answers k).1 ∉ listed w) (hinj : Function.Injective fun k => (answers k).1)
    (hbound : w.node.maxPartLevel + w.node.ownParts.length + 2 < 2 ^ 63) :
    (∃ visited r, w.compact U answers false
        (w.node.maxPartLevel.toNat + w.node.ownParts.length + 2) = some (visited, r) ∧
      (∀ s ∈ visited, s.Drops U answers) ∧
      r.1.node.ownParts.length ≤ w.node.ownParts.length) ∧
    ∃ visited r, w.compactForced U answers
        (w.node.maxPartLevel.toNat + w.node.ownParts.length + 2) = some (visited, r) ∧
      (w.compactLevel U (Pass.call answers true ⟨w, 0, 0⟩)).1.node.ownParts.length ≤
        w.node.ownParts.length ∧
      (∀ s ∈ visited, s.Drops U answers) ∧
      r.1.node.ownParts.length ≤ w.node.ownParts.length := by
  have hmax := maxPartLevel_nonneg w.node
  have hstart : Pass.Sound answers w.node.ownParts.length ⟨w, 0, 0⟩ :=
    ⟨hids, fun k _ => hnew k, le_rfl, le_rfl, by simp only; omega⟩
  constructor
  · have hrounds : Pass.potential ⟨w, 0, 0⟩ <
        w.node.maxPartLevel.toNat + w.node.ownParts.length + 2 := by
      simp only [Pass.potential]
      omega
    obtain ⟨visited, r, hrun, hall, hr⟩ := exists_run_round (U := U) hstart hinj hrounds
    exact ⟨visited, r, hrun, fun s hs => (hall s hs).drops, hr⟩
  · have hshrinks := hstart.shrinks (U := U) true
    obtain ⟨hids', hnew'⟩ := hstart.listed (U := U) hinj true
    rw [World.compactForced]
    rcases hout : w.compactLevel U (Pass.call answers true ⟨w, 0, 0⟩) with ⟨w', _ | err⟩
    all_goals
      simp only [hout] at hshrinks hids' hnew' ⊢
      have hless : w'.node.ownParts.length ≤ w.node.ownParts.length := hshrinks.count_le
    · have hraised : w'.node.maxPartLevel ≤ w.node.maxPartLevel + 1 := by
        rcases hshrinks.level with hsame | ⟨-, hone⟩
        · omega
        · have hone' : w'.node.maxPartLevel ≤ max w.node.maxPartLevel (0 + 1) := hone
          omega
      have hnext : Pass.Sound answers w.node.ownParts.length ⟨w', 1, 1⟩ :=
        ⟨hids', hnew', by simp, hless, by simp only; omega⟩
      have hrounds : Pass.potential ⟨w', 1, 1⟩ <
          w.node.maxPartLevel.toNat + w.node.ownParts.length + 2 := by
        simp only [Pass.potential]
        omega
      obtain ⟨visited, r, hrun, hall, hr⟩ := exists_run_round (U := U) hnext hinj hrounds
      exact ⟨visited, r, hrun, hless, fun s hs => (hall s hs).drops, hr⟩
    · exact ⟨[], (w', some err), rfl, hless, by simp, hless⟩

end Passes

/-! ## Four parts, and a part of the largest level -/

/-- A node's own part of one row, at a given level. -/
def leveledPart (level : Int) (id : String) : PartMeta :=
  { flushMeta Unicode.asciiOnly (ascii "n1") (ascii id) soloFile with level := level }

def leveledWorld (parts : List PartMeta) : World where
  node :=
    { nodeID := ascii "n1"
      parts := parts
      files := fun _ => some soloFile
      metas := fun _ => none
      fds := fun _ => none }
  active := parts.map PartMeta.id

def nthAnswers (k : Nat) : Bytes × CompactIO := (List.replicate (k + 1) 65, CompactIO.good)

theorem nthAnswers_injective : Function.Injective fun k => (nthAnswers k).1 := by
  intro i j hij
  have hlength := congrArg List.length hij
  simpa [nthAnswers] using hlength

def fourParts : List PartMeta := ["p1", "p2", "p3", "p4"].map (leveledPart 0)

theorem compaction_passes_end_four :
    (Pass.call nthAnswers false ⟨leveledWorld fourParts, 0, 0⟩).Merges Unicode.asciiOnly
      (leveledWorld fourParts) ∧
    ∃ visited r, (leveledWorld fourParts).compact Unicode.asciiOnly nthAnswers false 6 =
        some (visited, r) ∧
      (∀ s ∈ visited, s.Drops Unicode.asciiOnly nthAnswers) ∧ r.1.node.ownParts.length ≤ 4 := by
  have hnew : ∀ k, (nthAnswers k).1 ∉ listed (leveledWorld fourParts) := by
    intro k hk
    have hhead : ∀ id ∈ listed (leveledWorld fourParts), id.head? ≠ some 65 := by decide
    exact hhead _ hk rfl
  refine ⟨⟨⟨_, _, _, rfl⟩, rfl⟩, ?_⟩
  exact (compaction_passes_end (U := Unicode.asciiOnly) (w := leveledWorld fourParts) (by decide)
    hnew nthAnswers_injective (by decide)).1

def topWorld : World := leveledWorld [leveledPart (2 ^ 63 - 1) "p1"]

/-- The loop over the levels goes round in the 64-bit integers. -/
theorem round_topWorld {s : Pass} (h : s.world = topWorld ∧ s.level < 2 ^ 63) :
    ∃ t, s.round Unicode.asciiOnly nthAnswers false = .inl t ∧
      t.world = topWorld ∧ t.level < 2 ^ 63 := by
  obtain ⟨w, level, calls⟩ := s
  obtain ⟨rfl, hlevel⟩ := h
  have hmax : topWorld.node.maxPartLevel = 2 ^ 63 - 1 := by decide
  have hfew : (topWorld.node.levelParts level).length ≤ 1 := List.length_filter_le _ _
  have hselect : topWorld.node.selectParts level false = [] := by
    have hless : (topWorld.node.levelParts level).length < compactTrigger := by
      rw [compactTrigger]
      omega
    simp [Node.selectParts, hless]
  have hcall : topWorld.compactLevel Unicode.asciiOnly
      (Pass.call nthAnswers false ⟨topWorld, level, calls⟩) = (topWorld, none) :=
    compactLevel_of_no_parts hselect
  refine ⟨⟨topWorld, (level + 1).bmod (2 ^ 64), calls + 1⟩, ?_, rfl, ?_⟩
  · have hle : level ≤ topWorld.node.maxPartLevel := by
      rw [hmax]
      simp only at hlevel
      omega
    simp only [Pass.round, if_pos hle, hcall]
  · have hlt := Int.bmod_lt (x := level + 1) (m := 2 ^ 64) (by norm_num)
    norm_num at hlt ⊢
    omega

theorem largest_level_never_ends :
    (listed topWorld).Nodup ∧
    (¬ ∃ rounds out, topWorld.compact Unicode.asciiOnly nthAnswers false rounds = some out) ∧
    ¬ ∃ rounds out, topWorld.compactForced Unicode.asciiOnly nthAnswers rounds = some out := by
  have hround : ∀ s : Pass, s.world = topWorld ∧ s.level < 2 ^ 63 → ∃ t,
      s.round Unicode.asciiOnly nthAnswers false = .inl t ∧
        t.world = topWorld ∧ t.level < 2 ^ 63 := fun _ => round_topWorld
  have hforced : topWorld.compactLevel Unicode.asciiOnly
      (Pass.call nthAnswers true ⟨topWorld, 0, 0⟩) = (topWorld, none) :=
    compactLevel_of_no_parts (by decide)
  refine ⟨by decide, ?_, ?_⟩
  · rintro ⟨rounds, out, hout⟩
    rw [World.compact, Loop.run_eq_none hround rounds ⟨rfl, by norm_num⟩] at hout
    cases hout
  · rintro ⟨rounds, out, hout⟩
    rw [World.compactForced, hforced] at hout
    simp only [Loop.run_eq_none hround rounds (s := ⟨topWorld, 1, 1⟩) ⟨rfl, by norm_num⟩] at hout
    cases hout

end Shrimpd.Lsm
