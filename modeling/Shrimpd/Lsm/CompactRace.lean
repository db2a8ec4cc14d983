import Shrimpd.Lsm.CompactCommit
import Shrimpd.Lib.Exec

/-!
# Concurrent compactions of one node

Any number of compaction calls run on one node.  Each selects its parts under
the list's lock, writes the merged part, runs the etcd transaction and publishes
the result under the lock again; between these sections the other calls may take
theirs.  The entries are unchanged as long as every transaction finds its old
parts still active.
-/

namespace Shrimpd.Lsm.Race

open Shrimpd.Lib Shrimpd.Lib.Exec Shrimpd.Types Shrimpd.Block

/-! ## The calls and their sections -/

inductive Call where
  | idle (level : Int) (force : Bool)
  | selected (level : Int) (parts : List PartMeta)
  | merged (part : PartMeta) (oldIDs : List Bytes)
  | committed (part : PartMeta) (oldIDs : List Bytes)
  | returned (err : Option CompactErr)

/-- `used` holds the part IDs that calls have seen; `newPartID` returns none of them. -/
structure State (ι : Type) where
  world : World
  calls : ι → Call
  used : List Bytes

inductive Label (ι : Type) where
  | select (i : ι)
  | merge (i : ι) (id : Bytes) (io : CompactIO)
  | append (i : ι) (io : CompactIO)
  | publish (i : ι)

section Step

variable {ι : Type} [DecidableEq ι]

/-- Call `i` moves to `c`. -/
def State.move (s : State ι) (i : ι) (w : World) (c : Call) (ids : List Bytes) : State ι :=
  ⟨w, Function.update s.calls i c, ids ++ s.used⟩

def step (U : Unicode) (s : State ι) : Label ι → Option (State ι)
  | .select i =>
      match s.calls i with
      | .idle level force =>
          let parts := s.world.node.selectParts level force
          some (s.move i s.world (.selected level parts) (parts.map PartMeta.id))
      | _ => none
  | .merge i id io =>
      match s.calls i with
      | .selected level parts =>
          if s.world.Fresh id ∧ id ∉ s.used then
            match s.world.node.prepareMerge U io level id parts with
            | .done n err => some (s.move i ⟨n, s.world.active⟩ (.returned err) [id])
            | .ready n part oldIDs =>
                some (s.move i ⟨n, s.world.active⟩ (.merged part oldIDs) [id])
          else none
      | _ => none
  | .append i io =>
      match s.calls i with
      | .merged part oldIDs =>
          match io.append with
          | .committed =>
              some (s.move i ⟨s.world.node, commitPart s.world.active part.id oldIDs⟩
                (.committed part oldIDs) [])
          | .notCommitted =>
              some (s.move i ⟨s.world.node.abandon io part.id, s.world.active⟩
                (.returned (some .appendLog)) [])
          | .committedError =>
              some (s.move i ⟨s.world.node.abandon io part.id,
                commitPart s.world.active part.id oldIDs⟩ (.returned (some .appendLog)) [])
      | _ => none
  | .publish i =>
      match s.calls i with
      | .committed part oldIDs =>
          some (s.move i ⟨s.world.node.publish part oldIDs, s.world.active⟩
            (.returned none) [])
      | _ => none

/-- What a step can be. -/
inductive Steps (U : Unicode) (s : State ι) : Label ι → State ι → Prop where
  | select {i level force} (hcall : s.calls i = .idle level force) :
      Steps U s (.select i) (s.move i s.world
        (.selected level (s.world.node.selectParts level force))
        ((s.world.node.selectParts level force).map PartMeta.id))
  | stop {i level parts id io n err} (hcall : s.calls i = .selected level parts)
      (hfresh : s.world.Fresh id) (hused : id ∉ s.used) (hsame : s.world.node.SameBut n id) :
      Steps U s (.merge i id io) (s.move i ⟨n, s.world.active⟩ (.returned err) [id])
  | merge {i level parts id io n part oldIDs} (hcall : s.calls i = .selected level parts)
      (hfresh : s.world.Fresh id) (hused : id ∉ s.used)
      (hmerged : Merged U s.world.node n level id parts part oldIDs) :
      Steps U s (.merge i id io)
        (s.move i ⟨n, s.world.active⟩ (.merged part oldIDs) [id])
  | commit {i part oldIDs io} (hcall : s.calls i = .merged part oldIDs)
      (hio : io.append = .committed) :
      Steps U s (.append i io) (s.move i
        ⟨s.world.node, commitPart s.world.active part.id oldIDs⟩ (.committed part oldIDs) [])
  | fail {i part oldIDs io w} (hcall : s.calls i = .merged part oldIDs) :
      Steps U s (.append i io) (s.move i w (.returned (some .appendLog)) [])
  | publish {i part oldIDs} (hcall : s.calls i = .committed part oldIDs) :
      Steps U s (.publish i) (s.move i
        ⟨s.world.node.publish part oldIDs, s.world.active⟩ (.returned none) [])

theorem steps_of_step {U : Unicode} {s t : State ι} {l : Label ι} (h : step U s l = some t) :
    Steps U s l t := by
  cases l with
  | select i =>
      cases hcall : s.calls i <;> simp only [step, hcall, reduceCtorEq, Option.some.injEq] at h
      subst h
      exact .select hcall
  | merge i id io =>
      cases hcall : s.calls i <;> simp only [step, hcall, reduceCtorEq] at h
      rename_i level parts
      split_ifs at h with hnew
      rcases prepareMerge_cases U s.world.node io level id parts with
        ⟨n, err, hprep, hsame⟩ | ⟨n, part, oldIDs, hprep, hmerged⟩
      · simp only [hprep, Option.some.injEq] at h
        subst h
        exact .stop hcall hnew.1 hnew.2 hsame
      · simp only [hprep, Option.some.injEq] at h
        subst h
        exact .merge hcall hnew.1 hnew.2 hmerged
  | append i io =>
      cases hcall : s.calls i <;> simp only [step, hcall, reduceCtorEq] at h
      cases hio : io.append <;> simp only [hio, Option.some.injEq] at h <;> subst h
      · exact .commit hcall hio
      · exact .fail hcall
      · exact .fail hcall
  | publish i =>
      cases hcall : s.calls i <;> simp only [step, hcall, reduceCtorEq, Option.some.injEq] at h
      subst h
      exact .publish hcall

@[simp] theorem calls_move (s : State ι) (i : ι) (w : World) (c : Call) (ids : List Bytes) :
    (s.move i w c ids).calls i = c := by
  simp [State.move]

end Step

/-! ## The invariant -/

/-- The part a call has written and not yet published. -/
def Call.newID : Call → Option Bytes
  | .merged part _ => some part.id
  | .committed part _ => some part.id
  | _ => none

/-- The parts a call is to replace. -/
def Call.oldIDs : Call → List Bytes
  | .selected _ parts => parts.map PartMeta.id
  | .merged _ oldIDs => oldIDs
  | .committed _ oldIDs => oldIDs
  | _ => []

/-- The old parts of a call are listed unless another transaction replaced them; the new
part holds their rows. -/
structure CallOk (w : World) (used : List Bytes) (c : Call) : Prop where
  nodup : c.oldIDs.Nodup
  usedOld : ∀ a ∈ c.oldIDs, a ∈ used
  live : ∀ a ∈ c.oldIDs, a ∈ listed w ∨ a ∉ w.active
  usedNew : ∀ x, c.newID = some x → x ∈ used
  hidden : ∀ x, c.newID = some x → x ∉ listed w
  rows : ∀ x, c.newID = some x → (w.node.rows x).Perm (c.oldIDs.flatMap w.node.rows)
  merged : ∀ part oldIDs, c = .merged part oldIDs → part.id ∉ w.active
  committed : ∀ part oldIDs, c = .committed part oldIDs → ∀ a ∈ oldIDs,
    a ∈ listed w ∧ a ∉ w.active

/-- Two calls have different new parts, neither replaces the other's, and once both have
committed they replace different parts. -/
structure Compatible (c d : Call) : Prop where
  new : ∀ x, c.newID = some x → d.newID ≠ some x
  left : ∀ x, c.newID = some x → x ∉ d.oldIDs
  right : ∀ x, d.newID = some x → x ∉ c.oldIDs
  disjoint : ∀ p q old old', c = .committed p old → d = .committed q old' →
    ∀ a ∈ old, a ∉ old'

structure Good {ι : Type} (w₀ : World) (s : State ι) : Prop where
  parts : (listed s.world).Nodup
  active : s.world.active.Nodup
  call : ∀ i, CallOk s.world s.used (s.calls i)
  compat : ∀ i j, i ≠ j → Compatible (s.calls i) (s.calls j)
  partEntries : (partEntries s.world).Perm (partEntries w₀)
  activeEntries : (activeEntries s.world).Perm (activeEntries w₀)

theorem Compatible.symm {c d : Call} (h : Compatible c d) : Compatible d c :=
  ⟨fun x hx hc => h.new x hc hx, h.right, h.left,
    fun p q old old' hd hc a ha ha' => h.disjoint q p old' old hc hd a ha' ha⟩

theorem compatible_returned (err : Option CompactErr) (d : Call) :
    Compatible (.returned err) d :=
  ⟨by simp [Call.newID], by simp [Call.newID], by simp [Call.oldIDs], by simp⟩

theorem callOk_returned (w : World) (used : List Bytes) (err : Option CompactErr) :
    CallOk w used (.returned err) :=
  ⟨List.nodup_nil, by simp [Call.oldIDs], by simp [Call.oldIDs], by simp [Call.newID],
    by simp [Call.newID], by simp [Call.newID], by simp, by simp⟩

section Invariant

variable {ι : Type} [DecidableEq ι] {U : Unicode} {w₀ : World} {s : State ι}

theorem compatible_update {calls : ι → Call} {i : ι} {c : Call}
    (h : ∀ i j, i ≠ j → Compatible (calls i) (calls j))
    (hc : ∀ j, j ≠ i → Compatible c (calls j)) (a b : ι) (hab : a ≠ b) :
    Compatible (Function.update calls i c a) (Function.update calls i c b) := by
  by_cases ha : a = i
  · subst ha
    rw [Function.update_self, Function.update_of_ne (Ne.symm hab)]
    exact hc b (Ne.symm hab)
  · rw [Function.update_of_ne ha]
    by_cases hb : b = i
    · subst hb
      rw [Function.update_self]
      exact (hc a ha).symm
    · rw [Function.update_of_ne hb]
      exact h a b hab

theorem callOk_update {calls : ι → Call} {w : World} {used : List Bytes} {i : ι} {c : Call}
    (h : ∀ j, j ≠ i → CallOk w used (calls j)) (hc : CallOk w used c) (j : ι) :
    CallOk w used (Function.update calls i c j) := by
  by_cases hj : j = i
  · subst hj
    rw [Function.update_self]
    exact hc
  · rw [Function.update_of_ne hj]
    exact h j hj

/-- More used IDs and other files than the call's leave a call as it is. -/
theorem CallOk.mono {w w' : World} {used used' : List Bytes} {c : Call} (h : CallOk w used c)
    (hlisted : listed w' = listed w) (hactive : w'.active = w.active) (hused : used ⊆ used')
    (hrows : ∀ a ∈ used, w'.node.rows a = w.node.rows a) : CallOk w' used' c := by
  refine ⟨h.nodup, fun a ha => hused (h.usedOld a ha), ?_, fun x hx => hused (h.usedNew x hx),
    ?_, ?_, ?_, ?_⟩
  · rw [hlisted, hactive]
    exact h.live
  · rw [hlisted]
    exact h.hidden
  · intro x hx
    rw [hrows x (h.usedNew x hx)]
    refine (h.rows x hx).trans (List.Perm.of_eq ?_)
    apply List.flatMap_congr
    exact fun a ha => (hrows a (h.usedOld a ha)).symm
  · rw [hactive]
    exact h.merged
  · rw [hlisted, hactive]
    exact h.committed

theorem good_select (h : Good w₀ s) {i : ι} (level : Int) (force : Bool) :
    Good w₀ (s.move i s.world (.selected level (s.world.node.selectParts level force))
      ((s.world.node.selectParts level force).map PartMeta.id)) := by
  have hlisted : ∀ a ∈ (s.world.node.selectParts level force).map PartMeta.id,
      a ∈ listed s.world := by
    intro a ha
    obtain ⟨p, hp, rfl⟩ := List.mem_map.mp ha
    exact List.mem_map_of_mem (mem_selectParts hp).1
  refine ⟨h.parts, h.active, ?_, ?_, h.partEntries, h.activeEntries⟩
  · apply callOk_update
    · intro j _
      exact (h.call j).mono rfl rfl (List.subset_append_right _ _) fun _ _ => rfl
    · refine ⟨?_, fun a ha => List.mem_append_left _ ha, fun a ha => Or.inl (hlisted a ha),
        by simp [Call.newID], by simp [Call.newID], by simp [Call.newID], by simp, by simp⟩
      exact nodup_selectParts h.parts level force
  · apply compatible_update h.compat
    intro j _
    refine ⟨by simp [Call.newID], by simp [Call.newID], ?_, by simp⟩
    intro x hx hmem
    exact (h.call j).hidden x hx (hlisted x hmem)

/-- A section that only writes the files of a fresh part. -/
theorem good_write (h : Good w₀ s) {i : ι} {id : Bytes} {n : Node} {c : Call}
    (hfresh : s.world.Fresh id) (hused : id ∉ s.used) (hsame : s.world.node.SameBut n id)
    (hcall : CallOk ⟨n, s.world.active⟩ ([id] ++ s.used) c)
    (hcompat : ∀ j, j ≠ i → Compatible c (s.calls j)) :
    Good w₀ (s.move i ⟨n, s.world.active⟩ c [id]) := by
  obtain ⟨hactive, -, -, hparts⟩ := hfresh
  have hlisted : listed ⟨n, s.world.active⟩ = listed s.world := by
    simp only [listed, hsame.parts]
  have hrows : ∀ {a}, a ≠ id → n.rows a = s.world.node.rows a := fun ha => hsame.rows ha
  refine ⟨?_, h.active, ?_, compatible_update h.compat hcompat, ?_, ?_⟩
  · change (listed ⟨n, s.world.active⟩).Nodup
    rw [hlisted]
    exact h.parts
  · apply callOk_update _ hcall
    intro j _
    refine (h.call j).mono hlisted rfl (List.subset_append_right _ _) ?_
    intro a ha
    exact hrows fun heq => hused (heq ▸ ha)
  · refine List.Perm.trans (List.Perm.of_eq ?_) h.partEntries
    change (listed ⟨n, s.world.active⟩).flatMap n.rows = _
    rw [hlisted]
    apply List.flatMap_congr
    exact fun a ha => hrows fun heq => hparts (heq ▸ ha)
  · refine List.Perm.trans (List.Perm.of_eq ?_) h.activeEntries
    apply List.flatMap_congr
    exact fun a ha => hrows fun heq => hactive (heq ▸ ha)

theorem good_merge (h : Good w₀ s) {i : ι} {level : Int} {parts : List PartMeta} {id : Bytes}
    {n : Node} {part : PartMeta} {oldIDs : List Bytes}
    (hcall : s.calls i = .selected level parts) (hfresh : s.world.Fresh id)
    (hused : id ∉ s.used) (hmerged : Merged U s.world.node n level id parts part oldIDs) :
    Good w₀ (s.move i ⟨n, s.world.active⟩ (.merged part oldIDs) [id]) := by
  have hi := h.call i
  rw [hcall] at hi
  have hactive : id ∉ s.world.active := hfresh.1
  have hfds : s.world.node.fds id = none := hfresh.2.2.1
  have hparts : id ∉ listed s.world := hfresh.2.2.2
  have hold : oldIDs = parts.map PartMeta.id := hmerged.oldIDs
  have hid : id ∉ parts.map PartMeta.id := fun hmem => hused (hi.usedOld id hmem)
  have hlisted : listed ⟨n, s.world.active⟩ = listed s.world := by
    simp only [listed, hmerged.same.parts]
  subst hold
  refine good_write h hfresh hused hmerged.same ?_ ?_
  · refine ⟨hi.nodup, fun a ha => List.mem_append_right _ (hi.usedOld a ha), ?_, ?_, ?_, ?_, ?_,
      by simp⟩
    · rw [hlisted]
      exact hi.live
    all_goals simp only [Call.newID, Option.some.injEq, hmerged.id_eq, forall_eq']
    · exact List.mem_append_left _ (List.mem_singleton.mpr rfl)
    · rw [hlisted]
      exact hparts
    · refine (hmerged.rows hfds hid).trans (List.Perm.of_eq ?_)
      apply List.flatMap_congr
      intro a ha
      exact (hmerged.same.rows fun heq => hid (heq ▸ ha)).symm
    · rintro p old hp
      obtain ⟨rfl, rfl⟩ := Call.merged.inj hp
      rw [hmerged.id_eq]
      exact hactive
  · intro j hj
    have hij := (h.compat i j (Ne.symm hj))
    rw [hcall] at hij
    refine ⟨?_, ?_, hij.right, by simp⟩
    all_goals simp only [Call.newID, Option.some.injEq, hmerged.id_eq, forall_eq']
    · exact fun hx => hused ((h.call j).usedNew id hx)
    · exact fun hx => hused ((h.call j).usedOld id hx)

/-- A transaction whose old parts are all still active. -/
theorem good_commit (h : Good w₀ s) {i : ι} {part : PartMeta} {oldIDs : List Bytes}
    (hcall : s.calls i = .merged part oldIDs) (hactive : ∀ a ∈ oldIDs, a ∈ s.world.active) :
    Good w₀ (s.move i ⟨s.world.node, commitPart s.world.active part.id oldIDs⟩
      (.committed part oldIDs) []) := by
  have hi := h.call i
  rw [hcall] at hi
  have hnodup : oldIDs.Nodup := hi.nodup
  have hrows : (s.world.node.rows part.id).Perm (oldIDs.flatMap s.world.node.rows) :=
    hi.rows part.id rfl
  have hnew : part.id ∉ s.world.active := hi.merged part oldIDs rfl
  have hhidden : part.id ∉ listed s.world := hi.hidden part.id rfl
  have hlive : ∀ a ∈ oldIDs, a ∈ listed s.world :=
    fun a ha => (hi.live a ha).resolve_right fun hn => hn (hactive a ha)
  have hcompat : ∀ j, j ≠ i → Compatible (.merged part oldIDs) (s.calls j) := by
    intro j hj
    rw [← hcall]
    exact h.compat i j (Ne.symm hj)
  -- An ID other than the new one can only leave the active set.
  have hgone : ∀ a, a ∉ s.world.active → a ≠ part.id →
      a ∉ commitPart s.world.active part.id oldIDs := by
    intro a ha hne hmem
    rcases mem_commitPart.mp hmem with ⟨hact, -, -⟩ | heq
    · exact ha hact
    · exact hne heq
  refine ⟨h.parts, ?_, ?_, ?_, h.partEntries, ?_⟩
  · rw [State.move, commitPart_of_not_mem hnew]
    apply List.Nodup.append (h.active.filter _) (List.nodup_singleton _)
    intro a ha hnewID
    rw [List.mem_singleton] at hnewID
    subst hnewID
    exact hnew (List.mem_filter.mp ha).1
  · apply callOk_update
    · intro j hj
      have hc := h.call j
      refine ⟨hc.nodup, hc.usedOld, ?_, hc.usedNew, hc.hidden, hc.rows, ?_, ?_⟩
      · intro a ha
        refine (hc.live a ha).imp_right fun hn => hgone a hn ?_
        rintro rfl
        exact (hcompat j hj).left _ rfl ha
      · intro p old hp
        refine hgone _ (hc.merged p old hp) fun heq => ?_
        apply (hcompat j hj).new part.id rfl
        rw [hp, Call.newID, heq]
      · intro p old hp a ha
        refine ⟨(hc.committed p old hp a ha).1, hgone a (hc.committed p old hp a ha).2 ?_⟩
        rintro rfl
        exact hhidden (hc.committed p old hp _ ha).1
    · refine ⟨hi.nodup, hi.usedOld, fun a ha => Or.inl (hlive a ha), hi.usedNew, hi.hidden,
        hi.rows, by simp, ?_⟩
      intro p old hp a ha
      obtain ⟨rfl, rfl⟩ := Call.committed.inj hp
      refine ⟨hlive a ha, fun hmem => ?_⟩
      rcases mem_commitPart.mp hmem with ⟨-, hnot, -⟩ | rfl
      · exact hnot ha
      · exact hhidden (hlive _ ha)
  · apply compatible_update h.compat
    intro j hj
    have hij := hcompat j hj
    refine ⟨hij.new, hij.left, hij.right, ?_⟩
    intro p q old old' hp hq a ha ha'
    obtain ⟨rfl, rfl⟩ := Call.committed.inj hp
    exact ((h.call j).committed q old' hq a ha').2 (hactive a ha)
  · refine List.Perm.trans ?_ h.activeEntries
    change ((commitPart s.world.active part.id oldIDs).flatMap s.world.node.rows).Perm _
    rw [commitPart_of_not_mem hnew, List.flatMap_append, List.flatMap_singleton]
    refine List.Perm.trans ?_
      (flatMap_filter_append h.active hnodup hactive s.world.node.rows)
    exact hrows.append_left _

theorem good_publish (h : Good w₀ s) {i : ι} {part : PartMeta} {oldIDs : List Bytes}
    (hcall : s.calls i = .committed part oldIDs) :
    Good w₀ (s.move i ⟨s.world.node.publish part oldIDs, s.world.active⟩
      (.returned none) []) := by
  have hi := h.call i
  rw [hcall] at hi
  have hhidden : part.id ∉ listed s.world := hi.hidden part.id rfl
  have hnodup : oldIDs.Nodup := hi.nodup
  have hrows : (s.world.node.rows part.id).Perm (oldIDs.flatMap s.world.node.rows) :=
    hi.rows part.id rfl
  have hold := hi.committed part oldIDs rfl
  have hlisted : listed ⟨s.world.node.publish part oldIDs, s.world.active⟩ =
      ((listed s.world).filter fun a => !oldIDs.contains a) ++ [part.id] :=
    listed_publish hhidden
  have hcompat : ∀ j, j ≠ i → Compatible (.committed part oldIDs) (s.calls j) := by
    intro j hj
    rw [← hcall]
    exact h.compat i j (Ne.symm hj)
  have hstays : ∀ a ∈ listed s.world, a ∉ oldIDs →
      a ∈ listed ⟨s.world.node.publish part oldIDs, s.world.active⟩ := by
    intro a ha hnot
    rw [hlisted]
    exact List.mem_append_left _ (List.mem_filter.mpr ⟨ha, by simpa using hnot⟩)
  refine ⟨?_, h.active, ?_, ?_, ?_, h.activeEntries⟩
  · rw [State.move, hlisted]
    apply List.Nodup.append (h.parts.filter _) (List.nodup_singleton _)
    intro a ha hnewID
    rw [List.mem_singleton] at hnewID
    subst hnewID
    exact hhidden (List.mem_filter.mp ha).1
  · apply callOk_update _ (callOk_returned _ _ _)
    intro j hj
    have hc := h.call j
    refine ⟨hc.nodup, hc.usedOld, ?_, hc.usedNew, ?_, hc.rows, hc.merged, ?_⟩
    · intro a ha
      rcases hc.live a ha with hmem | hnot
      · by_cases hin : a ∈ oldIDs
        · exact Or.inr (hold a hin).2
        · exact Or.inl (hstays a hmem hin)
      · exact Or.inr hnot
    · intro x hx hmem
      change x ∈ listed ⟨s.world.node.publish part oldIDs, s.world.active⟩ at hmem
      rw [hlisted, List.mem_append, List.mem_singleton] at hmem
      rcases hmem with hmem | rfl
      · exact hc.hidden x hx (List.mem_filter.mp hmem).1
      · exact (hcompat j hj).new _ rfl hx
    · intro p old hp a ha
      refine ⟨hstays a (hc.committed p old hp a ha).1 fun hin => ?_,
        (hc.committed p old hp a ha).2⟩
      exact (hcompat j hj).disjoint part p oldIDs old rfl hp a hin ha
  · exact compatible_update h.compat fun j _ => compatible_returned none _
  · refine List.Perm.trans ?_ h.partEntries
    change ((listed ⟨s.world.node.publish part oldIDs, s.world.active⟩).flatMap
      s.world.node.rows).Perm _
    rw [hlisted, List.flatMap_append, List.flatMap_singleton]
    refine List.Perm.trans ?_ (flatMap_filter_append h.parts hnodup
      (fun a ha => (hold a ha).1) s.world.node.rows)
    exact hrows.append_left _

/-- A call has returned an error. -/
def Failed (s : State ι) : Prop := ∃ i err, s.calls i = .returned (some err)

theorem failed_step {t : State ι} {l : Label ι} (h : Failed s) (hstep : Steps U s l t) :
    Failed t := by
  obtain ⟨i, err, hi⟩ := h
  have hother : ∀ {j w c ids}, s.calls j ≠ .returned (some err) →
      (s.move j w c ids).calls i = .returned (some err) := by
    intro j w c ids hj
    have hne : i ≠ j := fun heq => hj (heq ▸ hi)
    exact (Function.update_of_ne hne c s.calls).trans hi
  refine ⟨i, err, ?_⟩
  cases hstep with
  | select hcall => exact hother (by simp [hcall])
  | stop hcall => exact hother (by simp [hcall])
  | merge hcall => exact hother (by simp [hcall])
  | commit hcall => exact hother (by simp [hcall])
  | fail hcall => exact hother (by simp [hcall])
  | publish hcall => exact hother (by simp [hcall])

/-- A transaction that commits finds all its old parts still active. -/
def Ok (s : State ι) : Label ι → Prop
  | .append i io => ∀ part oldIDs, s.calls i = .merged part oldIDs →
      io.append = .committed → ∀ a ∈ oldIDs, a ∈ s.world.active
  | _ => True

theorem good_step {t : State ι} {l : Label ι} (h : Good w₀ s) (hok : Ok s l)
    (hstep : Steps U s l t) : Failed t ∨ Good w₀ t := by
  cases hstep with
  | select hcall => exact Or.inr (good_select h _ _)
  | stop hcall hfresh hused hsame =>
      exact Or.inr (good_write h hfresh hused hsame (callOk_returned _ _ _)
        fun j _ => compatible_returned _ _)
  | merge hcall hfresh hused hmerged => exact Or.inr (good_merge h hcall hfresh hused hmerged)
  | commit hcall hio => exact Or.inr (good_commit h hcall (hok _ _ hcall hio))
  | @fail i part oldIDs io w hcall =>
      exact Or.inl ⟨i, .appendLog, Function.update_self i _ s.calls⟩
  | publish hcall => exact Or.inr (good_publish h hcall)

end Invariant

/-! ## Runs -/

section Runs

variable {ι : Type} {U : Unicode}

/-- No call has started, and no part is listed twice. -/
structure Start (s : State ι) : Prop where
  idle : ∀ i, ∃ level force, s.calls i = .idle level force
  parts : (listed s.world).Nodup
  active : s.world.active.Nodup

theorem good_start {s : State ι} (h : Start s) : Good s.world s := by
  refine ⟨h.parts, h.active, ?_, ?_, List.Perm.refl _, List.Perm.refl _⟩
  · intro i
    obtain ⟨level, force, hi⟩ := h.idle i
    rw [hi]
    exact ⟨List.nodup_nil, by simp [Call.oldIDs], by simp [Call.oldIDs], by simp [Call.newID],
      by simp [Call.newID], by simp [Call.newID], by simp, by simp⟩
  · intro i j _
    obtain ⟨level, force, hi⟩ := h.idle i
    rw [hi]
    exact ⟨by simp [Call.newID], by simp [Call.newID], by simp [Call.oldIDs], by simp⟩

/-- In every run in which each committing transaction finds its old parts still active,
once all calls have returned nil the entries listed and the entries active are those of
the start. -/
theorem concurrent_compactions_keep_entries [DecidableEq ι] (s t : State ι) (ls : List (Label ι))
    (hstart : Start s) (hok : Along (step U) Ok s ls) (hrun : exec (step U) s ls = some t)
    (hdone : ∀ i, t.calls i = .returned none) :
    (partEntries t.world).Perm (partEntries s.world) ∧
      (activeEntries t.world).Perm (activeEntries s.world) := by
  have hinv : Failed t ∨ Good s.world t := by
    refine invariant_along (I := fun t => Failed t ∨ Good s.world t) ?_
      (Or.inr (good_start hstart)) hok hrun
    rintro u l v (hfailed | hgood) hu hstep
    · exact Or.inl (failed_step hfailed (steps_of_step hstep))
    · exact good_step hgood hu (steps_of_step hstep)
  rcases hinv with ⟨i, err, hi⟩ | hgood
  · rw [hdone i] at hi
    simp at hi
  · exact ⟨hgood.partEntries, hgood.activeEntries⟩

end Runs

/-- Every call takes each of its sections before any takes the next one. -/
def lockstep : List (Label Bool) :=
  [.select false, .select true, .merge false (ascii "2-2-n1") .good,
    .merge true (ascii "3-3-n1") .good, .append false .good, .append true .good,
    .publish false, .publish true]

/-- The single part of `soloWorld` and a part of level 1 beside it. -/
def twoLevels : World where
  node :=
    { soloWorld.node with
      parts := soloWorld.node.parts ++
        [mergedMeta Unicode.asciiOnly (ascii "n1") 0 (ascii "1-2-n1") soloFile]
      files := fun id =>
        if id = ascii "1-2-n1" then some soloFile else soloWorld.node.files id }
  active := soloWorld.active ++ [ascii "1-2-n1"]

theorem concurrent_compactions_keep_entries_twoLevels :
    ∃ t, exec (step Unicode.asciiOnly)
        ⟨twoLevels, fun i => .idle (if i then 1 else 0) true, []⟩ lockstep = some t ∧
      (partEntries t.world).Perm (partEntries twoLevels) ∧
      (activeEntries t.world).Perm (activeEntries twoLevels) := by
  refine ⟨_, rfl, concurrent_compactions_keep_entries (U := Unicode.asciiOnly)
    ⟨twoLevels, fun i => .idle (if i then 1 else 0) true, []⟩ _ lockstep
    ⟨fun i => ⟨_, _, rfl⟩, by decide, by decide⟩ ?_ rfl ?_⟩
  · refine along_cons trivial rfl (along_cons trivial rfl (along_cons trivial rfl
      (along_cons trivial rfl (along_cons ?_ rfl (along_cons ?_ rfl
        (along_cons trivial rfl (along_cons trivial rfl trivial)))))))
    all_goals
      intro part oldIDs hcall _
      obtain ⟨-, rfl⟩ := Call.merged.inj hcall
      decide
  · intro i
    cases i <;> rfl

/-- Two calls select the same part, both commit and both publish: every entry is there
twice. -/
theorem racing_compactions_duplicate_entries :
    ∃ t, Start (⟨soloWorld, fun _ => .idle 0 true, []⟩ : State Bool) ∧
      exec (step Unicode.asciiOnly) ⟨soloWorld, fun _ => .idle 0 true, []⟩ lockstep = some t ∧
      (∀ i, t.calls i = .returned none) ∧
      partEntries soloWorld = [soloRow] ∧ partEntries t.world = [soloRow, soloRow] ∧
      activeEntries soloWorld = [soloRow] ∧ activeEntries t.world = [soloRow, soloRow] := by
  refine ⟨_, ⟨fun i => ⟨_, _, rfl⟩, by decide, by decide⟩, rfl, ?_, rfl, rfl, rfl, rfl⟩
  intro i
  cases i <;> rfl

end Shrimpd.Lsm.Race
