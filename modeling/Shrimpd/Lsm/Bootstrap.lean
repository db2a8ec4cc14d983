import Shrimpd.Lsm.Converge

/-!
# Bootstrapping from the part set

A start and a bootstrap replace the node's list by the parts of an etcd
snapshot: those whose metadata is on disk, and those that can be downloaded; the
others are deferred.  Log entries and retries add parts one by one, and a retry
does not look whether its part is listed already.  So a part may become listed
twice when it is loaded while it is pending, or deferred while it is listed.
-/

namespace Shrimpd.Lsm.Boot

open Shrimpd.Lib Shrimpd.Lib.Exec Shrimpd.Types Shrimpd.Block
open Shrimpd.Lsm.Replication hiding step Label

/-! ## Loading a snapshot -/

/-- Whether a metadata file can be read, and how a download goes. -/
structure LoadIO where
  readsMeta : Bytes → Bool
  fetch : Bytes → FetchIO

def LoadIO.good : LoadIO := ⟨fun _ => true, fun _ => FetchIO.good⟩

inductive LoadResult where
  | loaded (part : PartMeta)
  | deferred
  | failed

/-- What the loop over the snapshot has gathered. -/
structure Loading where
  node : Node
  pending : List PendingEntry
  loaded : List PartMeta

section Model

variable (content : Bytes → PartFile) (U : Unicode)

/-- The metadata on disk is preferred, since etcd's has no tokens. -/
def loadPart (n : Node) (io : LoadIO) (part : PartMeta) : Node × LoadResult :=
  match n.metas part.id with
  | some disk => (n, .loaded (if io.readsMeta part.id then disk else part))
  | none =>
      if !(io.fetch part.id).fetched then (n, .deferred)
      else
        match fetchPart content U n (io.fetch part.id) part with
        | (n, some part) => (n, .loaded part)
        | (n, none) => (n, .failed)

/-- An unreachable part is deferred; any other failure ends the loop. -/
def loadParts (io : LoadIO) : List PartMeta → Loading → Loading × Bool
  | [], ld => (ld, true)
  | part :: parts, ld =>
      match loadPart content U ld.node io part with
      | (n, .loaded part) =>
          loadParts io parts { ld with node := n, loaded := ld.loaded ++ [part] }
      | (n, .deferred) =>
          loadParts io parts { ld with node := n, pending := setPending ld.pending ⟨part, []⟩ }
      | (n, .failed) => ({ ld with node := n }, false)

/-- Deferred parts outside the snapshot are dropped. -/
def bootstrapFromParts (s : State) (io : LoadIO) (snap : List PartMeta) : State × Bool :=
  match loadParts content U io snap ⟨s.node, s.pending, []⟩ with
  | (ld, false) => ({ s with node := ld.node, pending := ld.pending }, false)
  | (ld, true) =>
      ({ s with
          node := { ld.node with parts := ld.loaded }
          pending := ld.pending.filter fun d => (snap.map PartMeta.id).contains d.part.id }, true)

def startup (s : State) (io : LoadIO) (snap : List PartMeta) : State × Bool :=
  match loadParts content U io snap ⟨s.node, s.pending, []⟩ with
  | (ld, false) => ({ s with node := ld.node, pending := ld.pending }, false)
  | (ld, true) =>
      ({ s with node := { ld.node with parts := ld.loaded }, pending := ld.pending }, true)

/-! ## Flushes and compactions -/

/-- Write the memtable's entries to the files of part `id`. -/
def prepareFlush (n : Node) (io : CompactIO) (id : Bytes) (mem : List Entry) : Prepared :=
  if mem = [] then .done n none
  else
    let file := writePartV2 (sortByTimestamp mem)
    let part := flushMeta U n.nodeID id file
    match io.writePart with
    | .failed => .done n (some .writePart)
    | .failedAfterRename => .done (n.setFile id (some file)) (some .writePart)
    | .ok =>
        let n := n.setFile id (some file)
        match io.writeMeta with
        | .failed => .done (n.removeFile io.removes id) (some .writeMeta)
        | .failedAfterRename =>
            .done ((n.setMeta id (some part)).removeFile io.removes id) (some .writeMeta)
        | .ok => .ready (n.setMeta id (some part)) part []

def logged (s : State) (op : LogOp) (part : PartMeta) (oldIDs : List Bytes) : State :=
  { s with
    active := commitPart s.active part.id oldIDs
    log := s.log ++ [⟨op, part, oldIDs, s.node.nodeID⟩] }

/-- The transaction and, if it is acknowledged, the publication. -/
def commit (s : State) (io : CompactIO) (op : LogOp) : Prepared → State
  | .done n _ => { s with node := n }
  | .ready n part oldIDs =>
      match io.append with
      | .committed => { logged s op part oldIDs with node := n.publish part oldIDs }
      | .notCommitted => { s with node := n.abandon io part.id }
      | .committedError => { logged s op part oldIDs with node := n.abandon io part.id }

def prepareCompact (n : Node) (call : CompactCall) : Prepared :=
  n.prepareMerge U call.io call.level call.id (n.selectParts call.level call.force)

theorem commit_compactLevel (s : State) (call : CompactCall) :
    (⟨(commit s call.io .merge (prepareCompact U s.node call)).node,
      (commit s call.io .merge (prepareCompact U s.node call)).active⟩ : World) =
      ((⟨s.node, s.active⟩ : World).compactLevel U call).1 := by
  unfold World.compactLevel prepareCompact
  simp only
  cases s.node.prepareMerge U call.io call.level call.id
      (s.node.selectParts call.level call.force) with
  | done n err => rfl
  | ready n part oldIDs => cases happend : call.io.append <;> simp only [commit, happend] <;> rfl

end Model

/-! ## Runs -/

/-- `reread` says whether the loop reads the pointer that a bootstrap has stored, and `saved`
whether a start stores it. -/
inductive Op where
  | flush (mem : List Entry) (id : Bytes) (io : CompactIO)
  | compact (call : CompactCall)
  | replicate (l : Replication.Label)
  | bootstrap (snap : List PartMeta) (io : LoadIO) (reread : Bool)
  | startup (snap : List PartMeta) (io : LoadIO) (saved : Bool)

/-- No part, listed or deferred, has this ID. -/
def Unused (s : State) (id : Bytes) : Prop :=
  (⟨s.node, s.active⟩ : World).Fresh id ∧ id ∉ s.pending.map fun d => d.part.id

instance (s : State) (id : Bytes) : Decidable (Unused s id) :=
  inferInstanceAs (Decidable (_ ∧ _))

/-- The snapshot has the active parts, in any order. -/
def IsSnapshot (s : State) (snap : List PartMeta) : Prop := (snap.map PartMeta.id).Perm s.active

instance (s : State) (snap : List PartMeta) : Decidable (IsSnapshot s snap) :=
  inferInstanceAs (Decidable (List.Perm _ _))

section Step

variable (content : Bytes → PartFile) (U : Unicode)

def step (s : State) : Op → Option State
  | .flush mem id io =>
      if Unused s id then some (commit s io .put (prepareFlush U s.node io id mem)) else none
  | .compact call =>
      if Unused s call.id then some (commit s call.io .merge (prepareCompact U s.node call))
      else none
  | .replicate l => Replication.step content U s l
  | .bootstrap snap io reread =>
      if IsSnapshot s snap then
        match bootstrapFromParts content U s io snap with
        | (t, ok) => some { t with pointer := if ok && reread then s.log.length else s.pointer }
      else none
  | .startup snap io saved =>
      if IsSnapshot s snap then
        match startup content U s io snap with
        | (t, ok) => some { t with pointer := if ok && saved then s.log.length else s.pointer }
      else none

/-- A snapshot is loaded without a part that is pending, or fails without deferring one that
is listed. -/
def LoadsApart (s : State) (io : LoadIO) (snap : List PartMeta) : Prop :=
  if (loadParts content U io snap ⟨s.node, s.pending, []⟩).2 then
    ∀ d ∈ s.pending, d.part.id ∉
      (loadParts content U io snap ⟨s.node, s.pending, []⟩).1.loaded.map PartMeta.id
  else
    ∀ d ∈ (loadParts content U io snap ⟨s.node, s.pending, []⟩).1.pending, d.part.id ∉ s.listed

/-- No part is listed by a log entry, a start or a bootstrap while it is pending, and none
is deferred while it is listed. -/
def KeptApart (s : State) : Op → Prop
  | .replicate (.apply io) => ∀ e ∈ s.log[s.pointer]?, e.nodeID ≠ s.node.nodeID →
      if downloads content U s.node io e.part then ∀ d ∈ s.pending, d.part.id ≠ e.part.id
      else e.part.id ∉ s.listed
  | .bootstrap snap io _ => LoadsApart content U s io snap
  | .startup snap io _ => LoadsApart content U s io snap
  | _ => True

instance (s : State) (io : LoadIO) (snap : List PartMeta) :
    Decidable (LoadsApart content U s io snap) :=
  inferInstanceAs (Decidable (ite _ _ _))

instance (s : State) : ∀ op, Decidable (KeptApart content U s op)
  | .flush _ _ _ => inferInstanceAs (Decidable True)
  | .compact _ => inferInstanceAs (Decidable True)
  | .replicate (.append _) => inferInstanceAs (Decidable True)
  | .replicate (.apply _) => inferInstanceAs (Decidable (∀ e ∈ s.log[s.pointer]?, _ → ite _ _ _))
  | .replicate (.retry _ _ _) => inferInstanceAs (Decidable True)
  | .replicate (.collect _) => inferInstanceAs (Decidable True)
  | .bootstrap snap io _ => inferInstanceAs (Decidable (LoadsApart content U s io snap))
  | .startup snap io _ => inferInstanceAs (Decidable (LoadsApart content U s io snap))

end Step

/-! ## What a call prepares -/

/-- The node when the files of part `id` are written; nothing is listed yet. -/
structure Prepares (n : Node) (id : Bytes) (n' : Node) : Prop where
  nodeID : n'.nodeID = n.nodeID
  parts : n'.parts = n.parts
  metas : n.GainsMeta n' id n.nodeID

/-- What a flush or a compaction with part `id` can have come to. -/
inductive PreparedOf (n : Node) (id : Bytes) (old : List Bytes) : Prepared → Prop where
  | done {n' err} (h : Prepares n id n') : PreparedOf n id old (.done n' err)
  | ready {n' part} (h : Prepares n id n') (hid : part.id = id) (howner : part.nodeID = n.nodeID)
      (hmeta : n'.metas id = some part) : PreparedOf n id old (.ready n' part old)

section Prepared

variable {U : Unicode} {n n' : Node} {id : Bytes}

theorem Prepares.refl (n : Node) (id : Bytes) : Prepares n id n := ⟨rfl, rfl, Or.inl rfl⟩

theorem Prepares.removeFile (h : Prepares n id n') (removes : Bool) (a : Bytes) :
    Prepares n id (n'.removeFile removes a) := by
  unfold Node.removeFile
  split_ifs
  · exact ⟨h.nodeID, h.parts, h.metas⟩
  · exact h

theorem preparedOf_flush (io : CompactIO) (mem : List Entry) :
    PreparedOf n id [] (prepareFlush U n io id mem) := by
  have hfile : ∀ f, Prepares n id (n.setFile id f) := fun _ => ⟨rfl, rfl, Or.inl rfl⟩
  have hmeta : ∀ f, Prepares n id ((n.setFile id f).setMeta id (some (flushMeta U n.nodeID id
      (writePartV2 (sortByTimestamp mem))))) := fun _ => ⟨rfl, rfl, Or.inr ⟨_, rfl, rfl, rfl⟩⟩
  unfold prepareFlush
  split_ifs
  · exact .done (.refl n id)
  · simp only
    cases io.writePart with
    | failed => exact .done (.refl n id)
    | failedAfterRename => exact .done (hfile _)
    | ok =>
        cases io.writeMeta with
        | failed => exact .done ((hfile _).removeFile _ _)
        | failedAfterRename => exact .done ((hmeta _).removeFile _ _)
        | ok => exact .ready (hmeta _) rfl rfl (Function.update_self _ _ _)

theorem preparedOf_merge (io : CompactIO) (level : Int) (selected : List PartMeta) :
    PreparedOf n id (selected.map PartMeta.id) (n.prepareMerge U io level id selected) := by
  have hgot := gotParts_getParts n io.opens selected
  have hmetas := metas_getParts n io.opens selected
  unfold Node.prepareMerge
  split_ifs
  · exact .done (.refl n id)
  rcases hparts : n.getParts io.opens selected with ⟨n₁, err | pfs⟩
  all_goals
    rw [hparts] at hgot hmetas
    have hopened : Prepares n id n₁ := ⟨hgot.same.nodeID, hgot.same.parts, Or.inl hmetas⟩
  · exact .done hopened
  · have hfile : ∀ f, Prepares n id (n₁.setFile id f) := fun _ => ⟨hopened.1, hopened.2, hopened.3⟩
    have hmeta : ∀ f g, Prepares n id ((n₁.setFile id f).setMeta id
        (some (mergedMeta U n₁.nodeID level id g))) := by
      intro f g
      refine ⟨hopened.nodeID, hopened.parts, Or.inr ⟨mergedMeta U n₁.nodeID level id g, rfl,
        hopened.nodeID, ?_⟩⟩
      rw [← hmetas]
      rfl
    simp only
    cases io.writePart with
    | failed => exact .done hopened
    | failedAfterRename => exact .done (hfile _)
    | ok =>
        simp only
        split_ifs
        · exact .done ((hfile _).removeFile _ _)
        · cases io.writeMeta with
          | failed => exact .done ((hfile _).removeFile _ _)
          | failedAfterRename => exact .done ((hmeta _ _).removeFile _ _)
          | ok => exact .ready (hmeta _ _) rfl hopened.nodeID (Function.update_self _ _ _)

end Prepared

/-! ## What a load gathers -/

/-- What loading one part can have come to. -/
inductive LoadsPart (n : Node) (part : PartMeta) : Node × LoadResult → Prop where
  | disk {q} (hmeta : n.metas part.id = some q) : LoadsPart n part (n, .loaded q)
  | etcd (hmeta : (n.metas part.id).isSome = true) : LoadsPart n part (n, .loaded part)
  | fetched {n' q} (hmeta : n.metas part.id = none) (nodeID : n'.nodeID = n.nodeID)
      (parts : n'.parts = n.parts) (metas : n.GainsMeta n' part.id part.nodeID)
      (hid : q.id = part.id) (howner : q.nodeID = part.nodeID) :
      LoadsPart n part (n', .loaded q)
  | deferred (hmeta : n.metas part.id = none) : LoadsPart n part (n, .deferred)
  | failed {n'} (nodeID : n'.nodeID = n.nodeID) (parts : n'.parts = n.parts)
      (metas : n.GainsMeta n' part.id part.nodeID) : LoadsPart n part (n', .failed)

section Load

variable {content : Bytes → PartFile} {U : Unicode}

theorem loadsPart_loadPart (n : Node) (io : LoadIO) (part : PartMeta) :
    LoadsPart n part (loadPart content U n io part) := by
  unfold loadPart
  cases hmeta : n.metas part.id with
  | some disk =>
      simp only
      split_ifs
      · exact .disk hmeta
      · exact .etcd (by rw [hmeta]; rfl)
  | none =>
      simp only
      split_ifs
      · exact .deferred hmeta
      · have hmetas := fetchPart_metas content U n (io.fetch part.id) part
        have hfetch : Fetched content n _ (io.fetch part.id) part.id _ :=
          fetched_fetchPart U n (io.fetch part.id) part
        rcases hresult : fetchPart content U n (io.fetch part.id) part with ⟨n', _ | q⟩
        all_goals rw [hresult] at hmetas hfetch
        · exact .failed hfetch.nodeID hfetch.parts hmetas.1
        · exact .fetched hmeta hfetch.nodeID hfetch.parts hmetas.1 (hfetch.done q rfl).1
            (hmetas.2 q rfl)

/-- The parts of the snapshot that a load lists in this order, and those it defers; `P` holds
of all metadata files. -/
structure Gathered (P : Bytes → PartMeta → Prop) (ld : Loading) (snap : List PartMeta)
    (new : List PartMeta) (r : Loading × Bool) : Prop where
  nodeID : r.1.node.nodeID = ld.node.nodeID
  parts : r.1.node.parts = ld.node.parts
  kept : ∀ a, (ld.node.metas a).isSome = true → (r.1.node.metas a).isSome = true
  metas : ∀ a m, r.1.node.metas a = some m → P a m
  loaded : r.1.loaded = ld.loaded ++ new
  order : (new.map PartMeta.id).Sublist (snap.map PartMeta.id)
  described : ∀ q ∈ new, P q.id q
  deferred : ∀ d ∈ r.1.pending, d ∈ ld.pending ∨ d.oldParts = [] ∧ d.part ∈ snap ∧
    ld.node.metas d.part.id = none ∧ d.part.id ∉ new.map PartMeta.id
  present : r.2 = true → ∀ p ∈ snap, (ld.node.metas p.id).isSome = true →
    p.id ∈ new.map PartMeta.id

variable {P : Bytes → PartMeta → Prop}

/-- One more part is loaded. -/
theorem Gathered.cons_loaded {ld : Loading} {n : Node} {p q : PartMeta} {snap new : List PartMeta}
    {r : Loading × Bool}
    (h : Gathered P { ld with node := n, loaded := ld.loaded ++ [q] } snap new r)
    (hp : p.id ∉ snap.map PartMeta.id) (hnodeID : n.nodeID = ld.node.nodeID)
    (hparts : n.parts = ld.node.parts)
    (hkept : ∀ a, (ld.node.metas a).isSome = true → (n.metas a).isSome = true)
    (hid : q.id = p.id) (hq : P q.id q) : Gathered P ld (p :: snap) (q :: new) r where
  nodeID := h.nodeID.trans hnodeID
  parts := h.parts.trans hparts
  kept a ha := h.kept a (hkept a ha)
  metas := h.metas
  loaded := by
    rw [h.loaded, List.append_assoc]
    rfl
  order := by
    rw [List.map_cons, List.map_cons, hid]
    exact h.order.cons_cons p.id
  described := List.forall_mem_cons.mpr ⟨hq, h.described⟩
  deferred := by
    intro d hd
    rcases h.deferred d hd with hold | ⟨hnil, hsnap, hnone, hnew⟩
    · exact Or.inl hold
    · refine Or.inr ⟨hnil, List.mem_cons_of_mem p hsnap, ?_, ?_⟩
      · by_contra hsome
        have := hkept _ (Option.isSome_iff_ne_none.mpr hsome)
        rw [hnone] at this
        exact absurd this (by simp)
      · rw [List.map_cons, List.mem_cons, not_or, hid]
        exact ⟨fun heq => hp (heq ▸ List.mem_map_of_mem hsnap), hnew⟩
  present := by
    intro hok x hx hmeta
    rcases List.mem_cons.mp hx with rfl | hx
    · rw [List.map_cons, hid]
      exact List.mem_cons_self
    · exact List.mem_cons_of_mem _ (h.present hok x hx (hkept _ hmeta))

/-- One more part is deferred. -/
theorem Gathered.cons_deferred {ld : Loading} {p : PartMeta} {snap new : List PartMeta}
    {r : Loading × Bool}
    (h : Gathered P { ld with pending := setPending ld.pending ⟨p, []⟩ } snap new r)
    (hp : p.id ∉ snap.map PartMeta.id) (hmeta : ld.node.metas p.id = none) :
    Gathered P ld (p :: snap) new r where
  nodeID := h.nodeID
  parts := h.parts
  kept := h.kept
  metas := h.metas
  loaded := h.loaded
  order := h.order.cons p.id
  described := h.described
  deferred := by
    intro d hd
    rcases h.deferred d hd with hold | ⟨hnil, hsnap, hnone, hnew⟩
    · rcases mem_setPending.mp hold with ⟨hold, -⟩ | rfl
      · exact Or.inl hold
      · exact Or.inr ⟨rfl, List.mem_cons_self, hmeta, fun hmem => hp (h.order.subset hmem)⟩
    · exact Or.inr ⟨hnil, List.mem_cons_of_mem p hsnap, hnone, hnew⟩
  present := by
    intro hok x hx hsome
    rcases List.mem_cons.mp hx with rfl | hx
    · rw [hmeta] at hsome
      exact absurd hsome (by simp)
    · exact h.present hok x hx hsome

theorem gathered_loadParts (io : LoadIO) (hname : ∀ a m, P a m → m.id = a)
    {snap : List PartMeta} (hsnap : (snap.map PartMeta.id).Nodup)
    (hnew : ∀ p ∈ snap, ∀ m : PartMeta, m.id = p.id → m.nodeID = p.nodeID → P p.id m)
    {ld : Loading} (hmetas : ∀ a m, ld.node.metas a = some m → P a m) :
    ∃ new, Gathered P ld snap new (loadParts content U io snap ld) := by
  induction snap generalizing ld with
  | nil =>
      exact ⟨[], ⟨rfl, rfl, fun _ h => h, hmetas, by simp [loadParts], by simp, nofun,
        fun d hd => Or.inl hd, fun _ => nofun⟩⟩
  | cons p snap ih =>
      rw [List.map_cons, List.nodup_cons] at hsnap
      have hp := hnew p List.mem_cons_self
      have ih := @ih hsnap.2 fun q hq => hnew q (List.mem_cons_of_mem p hq)
      have hload : LoadsPart ld.node p (loadPart content U ld.node io p) :=
        loadsPart_loadPart ld.node io p
      rw [loadParts]
      generalize loadPart content U ld.node io p = r at hload ⊢
      cases hload with
      | @disk q hmeta =>
          have hq := hmetas p.id q hmeta
          obtain ⟨new, h⟩ := @ih { ld with loaded := ld.loaded ++ [q] } hmetas
          have hid := hname _ _ hq
          exact ⟨q :: new, h.cons_loaded hsnap.1 rfl rfl (fun _ h => h) hid (hid ▸ hq)⟩
      | etcd hmeta =>
          obtain ⟨new, h⟩ := @ih { ld with loaded := ld.loaded ++ [p] } hmetas
          exact ⟨p :: new, h.cons_loaded hsnap.1 rfl rfl (fun _ h => h) rfl (hp p rfl rfl)⟩
      | @fetched n q _ hnodeID hparts hgain hid howner =>
          have hall := hgain.all hmetas hp
          obtain ⟨new, h⟩ := @ih { ld with node := n, loaded := ld.loaded ++ [q] } hall
          refine ⟨q :: new, h.cons_loaded hsnap.1 hnodeID hparts
            (fun _ => hgain.isSome) hid ?_⟩
          rw [hid]
          exact hp q hid howner
      | deferred hmeta =>
          obtain ⟨new, h⟩ := @ih { ld with pending := setPending ld.pending ⟨p, []⟩ } hmetas
          exact ⟨new, h.cons_deferred hsnap.1 hmeta⟩
      | @failed n hnodeID hparts hgain =>
          exact ⟨[], ⟨hnodeID, hparts, fun _ => hgain.isSome,
            hgain.all hmetas hp, by simp, by simp, nofun,
            fun d hd => Or.inl hd, nofun⟩⟩

/-- What a start or a bootstrap does with what it has gathered. -/
inductive Boots (s : State) : Loading × Bool → State × Bool → Prop where
  | failed {ld} : Boots s (ld, false) ({ s with node := ld.node, pending := ld.pending }, false)
  | stored {ld pending} (hpending : ∀ d ∈ pending, d ∈ ld.pending) :
      Boots s (ld, true)
        ({ s with node := { ld.node with parts := ld.loaded }, pending := pending }, true)

theorem boots_bootstrapFromParts (s : State) (io : LoadIO) (snap : List PartMeta) :
    Boots s (loadParts content U io snap ⟨s.node, s.pending, []⟩)
      (bootstrapFromParts content U s io snap) := by
  unfold bootstrapFromParts
  rcases loadParts content U io snap ⟨s.node, s.pending, []⟩ with ⟨ld, _ | _⟩
  · exact .failed
  · exact .stored fun d hd => (List.mem_filter.mp hd).1

theorem boots_startup (s : State) (io : LoadIO) (snap : List PartMeta) :
    Boots s (loadParts content U io snap ⟨s.node, s.pending, []⟩)
      (startup content U s io snap) := by
  unfold startup
  rcases loadParts content U io snap ⟨s.node, s.pending, []⟩ with ⟨ld, _ | _⟩
  · exact .failed
  · exact .stored fun _ hd => hd

end Load

/-! ## No part twice -/

/-- No part is listed twice, and what is pending is not listed. -/
structure Distinct (s : State) : Prop where
  parts : s.listed.Nodup
  active : s.active.Nodup
  pending : ∀ d ∈ s.pending, d.part.id ∉ s.listed
  metas : ∀ id m, s.node.metas id = some m → m.id = id
  puts : ∀ e ∈ s.log, e.op = .put → e.oldParts = []

section Distinct

variable {content : Bytes → PartFile} {U : Unicode} {s t : State} {id : Bytes}

theorem nodup_publish {n : Node} (h : (n.parts.map PartMeta.id).Nodup) (part : PartMeta)
    (oldIDs : List Bytes) : ((n.publish part oldIDs).parts.map PartMeta.id).Nodup := by
  have hkept : ((n.parts.filter fun p => !oldIDs.contains p.id).map PartMeta.id).Nodup :=
    h.sublist (List.filter_sublist.map _)
  simp only [Node.publish]
  split_ifs with hany
  · exact hkept
  · rw [List.map_append, List.map_singleton, ← List.concat_eq_append, List.nodup_concat]
    refine ⟨fun hmem => hany ?_, hkept⟩
    obtain ⟨p, hp, heq⟩ := List.mem_map.mp hmem
    exact List.any_eq_true.mpr ⟨p, hp, beq_iff_eq.mpr heq⟩

theorem nodup_publishPending {n : Node} (h : (n.parts.map PartMeta.id).Nodup) {part : PartMeta}
    (hnew : part.id ∉ n.parts.map PartMeta.id) (oldIDs : List Bytes) :
    ((publishPending n part oldIDs).parts.map PartMeta.id).Nodup := by
  have hsub := (List.filter_sublist (p := fun p : PartMeta => !oldIDs.contains p.id)
    (l := n.parts)).map PartMeta.id
  simp only [publishPending]
  rw [List.map_append, List.map_singleton, ← List.concat_eq_append, List.nodup_concat]
  exact ⟨fun hmem => hnew (hsub.subset hmem), h.sublist hsub⟩

theorem distinct_empty (nodeID : Bytes) : Distinct (State.empty nodeID) :=
  ⟨List.nodup_nil, List.nodup_nil, nofun, nofun, nofun⟩

theorem metas_abandon {n : Node} {P : Bytes → PartMeta → Prop}
    (h : ∀ a m, n.metas a = some m → P a m) (io : CompactIO) (id : Bytes) :
    ∀ a m, (n.abandon io id).metas a = some m → P a m := by
  intro a m hm
  apply h a m
  unfold Node.abandon Node.removeMeta Node.removeFile at hm
  split_ifs at hm
  · by_cases ha : a = id
    · simp [Node.setMeta, ha] at hm
    · simpa [Node.setMeta, Node.setFile, ha] using hm
  · by_cases ha : a = id
    · simp [Node.setMeta, ha] at hm
    · simpa [Node.setMeta, ha] using hm
  · exact hm
  · exact hm

theorem parts_abandon (n : Node) (io : CompactIO) (id : Bytes) :
    (n.abandon io id).parts = n.parts := by
  unfold Node.abandon Node.removeMeta Node.removeFile
  split_ifs <;> rfl

theorem Distinct.commit (h : Distinct s) (hid : Unused s id) {r : Prepared} {old : List Bytes}
    (hr : PreparedOf s.node id old r) (io : CompactIO) {op : LogOp} (hop : op = .put → old = []) :
    Distinct (commit s io op r) := by
  cases hr with
  | done hprep =>
      refine ⟨?_, h.active, ?_, hprep.metas.all h.metas fun m hm _ => hm, h.puts⟩
      · simpa only [Boot.commit, State.listed, hprep.parts] using h.parts
      · simpa only [Boot.commit, State.listed, hprep.parts] using h.pending
  | @ready n part hprep hpart _ _ =>
      have hmetas := hprep.metas.all h.metas fun m hm _ => hm
      have hactive := nodup_commitPart h.active part.id old
      have hputs : ∀ e ∈ (logged s op part old).log, e.op = .put → e.oldParts = [] :=
        List.forall_mem_append.mpr ⟨h.puts, List.forall_mem_singleton.mpr hop⟩
      have habandon : (n.abandon io part.id).parts = s.node.parts :=
        (parts_abandon n io part.id).trans hprep.parts
      simp only [Boot.commit]
      cases io.append with
      | committed =>
          have hlist : (n.publish part old).parts = (s.node.publish part old).parts := by
            simp only [Node.publish, hprep.parts]
          refine ⟨?_, hactive, ?_, hmetas, hputs⟩
          · simp only [State.listed, hlist]
            exact nodup_publish h.parts part old
          · intro d hd
            simp only [State.listed, hlist, mem_publish, hpart]
            rintro (heq | ⟨hmem, -⟩)
            · exact hid.2 (heq ▸ List.mem_map_of_mem hd)
            · exact h.pending d hd hmem
      | notCommitted =>
          refine ⟨?_, h.active, ?_, metas_abandon hmetas io part.id, h.puts⟩
          · simpa only [State.listed, habandon] using h.parts
          · simpa only [State.listed, habandon] using h.pending
      | committedError =>
          refine ⟨?_, hactive, ?_, metas_abandon hmetas io part.id, hputs⟩
          · simpa only [State.listed, habandon] using h.parts
          · simpa only [State.listed, habandon, logged] using h.pending

theorem Distinct.applied (h : Distinct s) {e : LogEntry} {ok : Bool} (happlied : Applied s e ok t)
    (hapart : if ok then ∀ d ∈ s.pending, d.part.id ≠ e.part.id else e.part.id ∉ s.listed)
    (pointer : Nat) : Distinct { t with pointer := pointer } := by
  cases happlied with
  | deferred hparts _ hmetas =>
      refine ⟨?_, h.active, ?_, hmetas.all h.metas fun m hm _ => hm, h.puts⟩
      · simpa only [State.listed, hparts] using h.parts
      · intro d hd
        simp only [State.listed, hparts]
        rcases mem_setPending.mp hd with ⟨hd, -⟩ | rfl
        · exact h.pending d hd
        · exact hapart
  | @published n part hid _ hparts _ hmetas =>
      refine ⟨?_, h.active, ?_, hmetas.all h.metas fun m hm _ => hm, h.puts⟩
      · simp only [State.listed, hparts]
        exact nodup_publish h.parts part e.oldParts
      · intro d hd
        simp only [State.listed, hparts, mem_publish, hid]
        have hold := (mem_dropPending.mp hd).1
        rintro (heq | ⟨hmem, -⟩)
        · exact hapart d hold heq
        · exact h.pending d hold hmem

theorem Distinct.retried (h : Distinct s) {asked ok : Bool} {p : PendingEntry} (hp : p ∈ s.pending)
    (hretried : Retried s asked p ok t) : Distinct t := by
  have hdrop : ∀ d ∈ dropPending s.pending [p.part.id], d ∈ s.pending ∧ d.part.id ≠ p.part.id := by
    intro d hd
    simpa using mem_dropPending.mp hd
  cases hretried with
  | dropped => exact ⟨h.parts, h.active, fun d hd => h.pending d (hdrop d hd).1, h.metas,
      h.puts⟩
  | failed hparts _ hmetas =>
      refine ⟨?_, h.active, ?_, hmetas.all h.metas fun m hm _ => hm, h.puts⟩
      · simpa only [State.listed, hparts] using h.parts
      · simpa only [State.listed, hparts] using h.pending
  | @published n part _ hid _ hparts _ hmetas =>
      have hnew : part.id ∉ s.node.parts.map PartMeta.id := by
        rw [hid]
        exact h.pending p hp
      refine ⟨?_, h.active, ?_, hmetas.all h.metas fun m hm _ => hm, h.puts⟩
      · simp only [State.listed, hparts]
        exact nodup_publishPending h.parts hnew p.oldParts
      · intro d hd
        simp only [State.listed, hparts, mem_publishPending, hid]
        rintro (heq | ⟨hmem, -⟩)
        · exact (hdrop d hd).2 heq
        · exact h.pending d (hdrop d hd).1 hmem

theorem Distinct.collect (h : Distinct s) (pass : GCPass) :
    Distinct { s with node := s.node.runGC s.active pass } := by
  have hsub : ((s.node.runGC s.active pass).parts.map PartMeta.id).Sublist s.listed := by
    unfold Node.runGC
    split_ifs
    · exact List.filter_sublist.map _
    · exact List.Sublist.refl _
  refine ⟨h.parts.sublist hsub, h.active, fun d hd hmem => h.pending d hd (hsub.subset hmem), ?_,
    h.puts⟩
  intro id m hm
  apply h.metas id m
  unfold Node.runGC at hm
  split_ifs at hm
  · simp only [Node.reconcile, Node.sweep] at hm
    split_ifs at hm
    exact hm
  · exact hm

/-- A load that succeeds replaces the list; one that fails leaves it as it was. -/
theorem Distinct.boots (h : Distinct s) {snap : List PartMeta} (hsnap : IsSnapshot s snap)
    {io : LoadIO} (hapart : LoadsApart content U s io snap) {r : State × Bool}
    (hboots : Boots s (loadParts content U io snap ⟨s.node, s.pending, []⟩) r) (pointer : Nat) :
    Distinct { r.1 with pointer := pointer } := by
  have hnodup : (snap.map PartMeta.id).Nodup := hsnap.nodup_iff.mpr h.active
  have hgathered : ∃ new, Gathered (fun a m => m.id = a) ⟨s.node, s.pending, []⟩ snap new
      (loadParts content U io snap ⟨s.node, s.pending, []⟩) :=
    gathered_loadParts io (fun _ _ h => h) hnodup (fun _ _ _ hm _ => hm) h.metas
  obtain ⟨new, hg⟩ := hgathered
  rw [LoadsApart] at hapart
  generalize loadParts content U io snap ⟨s.node, s.pending, []⟩ = load at hg hapart hboots
  cases hboots with
  | @failed ld =>
      have hparts : ld.node.parts = s.node.parts := hg.parts
      refine ⟨?_, h.active, ?_, hg.metas, h.puts⟩
      · simpa only [State.listed, hparts] using h.parts
      · simpa only [State.listed, hparts, Bool.false_eq_true, if_false] using hapart
  | @stored ld pending hpending =>
      have hlist : ld.loaded = new := hg.loaded
      simp only [if_true, hlist] at hapart
      refine ⟨?_, h.active, ?_, hg.metas, h.puts⟩
      · simp only [State.listed, hlist]
        exact hnodup.sublist hg.order
      · intro d hd
        simp only [State.listed, hlist]
        rcases hg.deferred d (hpending d hd) with hold | ⟨-, -, -, hnew⟩
        · exact hapart d hold
        · exact hnew

theorem Distinct.replicate (h : Distinct s) {l : Replication.Label}
    (hok : KeptApart content U s (.replicate l))
    (hstep : Replication.step content U s l = some t) : Distinct t := by
  cases l with
  | append e =>
      simp only [Replication.step] at hstep
      split_ifs at hstep with he
      obtain rfl := Option.some.inj hstep
      exact ⟨h.parts, nodup_commitPart h.active _ _, h.pending, h.metas,
        List.forall_mem_append.mpr ⟨h.puts, List.forall_mem_singleton.mpr he.1⟩⟩
  | apply io =>
      simp only [Replication.step] at hstep
      cases hentry : s.log[s.pointer]? with
      | none => simp [hentry] at hstep
      | some e =>
          simp only [hentry, Option.some.injEq] at hstep
          subst hstep
          by_cases hown : e.nodeID = s.node.nodeID
          · rw [applyLogEntry, if_pos hown]
            exact ⟨h.parts, h.active, h.pending, h.metas, h.puts⟩
          · exact h.applied (applied_applyLogEntry U io hown
              (h.puts e (List.mem_of_getElem? hentry))) (hok e hentry hown) _
  | retry id asked io =>
      simp only [Replication.step] at hstep
      cases hfind : s.pending.find? fun p => p.part.id == id with
      | none => simp [hfind] at hstep
      | some d =>
          simp only [hfind, Option.some.injEq] at hstep
          subst hstep
          exact h.retried (List.mem_of_find?_eq_some hfind)
            (retried_retryPendingPart U s asked io d)
  | collect pass =>
      obtain rfl := Option.some.inj hstep
      exact h.collect pass

theorem distinct_step {op : Op} (h : Distinct s) (hok : KeptApart content U s op)
    (hstep : step content U s op = some t) : Distinct t := by
  cases op with
  | flush mem id io =>
      simp only [step] at hstep
      split_ifs at hstep with hid
      obtain rfl := Option.some.inj hstep
      exact h.commit hid (preparedOf_flush io mem) io fun _ => rfl
  | compact call =>
      simp only [step] at hstep
      split_ifs at hstep with hid
      obtain rfl := Option.some.inj hstep
      exact h.commit hid (preparedOf_merge call.io call.level _) call.io nofun
  | replicate l => exact h.replicate hok hstep
  | bootstrap snap io reread =>
      simp only [step] at hstep
      by_cases hsnap : IsSnapshot s snap
      · rw [if_pos hsnap] at hstep
        obtain rfl := Option.some.inj hstep
        exact h.boots hsnap hok (boots_bootstrapFromParts s io snap) _
      · simp [hsnap] at hstep
  | startup snap io saved =>
      simp only [step] at hstep
      by_cases hsnap : IsSnapshot s snap
      · rw [if_pos hsnap] at hstep
        obtain rfl := Option.some.inj hstep
        exact h.boots hsnap hok (boots_startup s io snap) _
      · simp [hsnap] at hstep

end Distinct

/-- In every run that keeps the listed and the deferred parts apart, no part is listed twice. -/
theorem parts_listed_once {content : Bytes → PartFile} {U : Unicode} {nodeID : Bytes}
    {ops : List Op} {t : State}
    (hok : Along (step content U) (KeptApart content U) (State.empty nodeID) ops)
    (hrun : exec (step content U) (State.empty nodeID) ops = some t) :
    (t.node.parts.map PartMeta.id).Nodup := by
  have h : Distinct t :=
    invariant_along (fun _ _ _ h hl hstep => distinct_step h hl hstep) (distinct_empty nodeID)
      hok hrun
  exact h.parts

def bootEnd (ops : List Op) : State :=
  (exec (step (fun _ => soloFile) Unicode.asciiOnly) (State.empty (ascii "n2")) ops).getD
    (State.empty [])

/-- A part is deferred and retried, and the next bootstrap finds it listed. -/
def retriedFirst : List Op :=
  [.startup [] .good true, .flush [soloRow] (ascii "f1") .good, .replicate (.apply .good),
    .replicate (.append chainPut), .replicate (.apply .unreachable),
    .replicate (.retry (ascii "p1") true .good),
    .bootstrap [chainPart (ascii "p1"), chainPart (ascii "f1")] .good true]

theorem parts_listed_once_retriedFirst :
    exec (step (fun _ => soloFile) Unicode.asciiOnly) (State.empty (ascii "n2")) retriedFirst =
        some (bootEnd retriedFirst) ∧
      (bootEnd retriedFirst).listed = [ascii "p1", ascii "f1"] ∧
      ((bootEnd retriedFirst).node.parts.map PartMeta.id).Nodup := by
  have hrun : exec (step (fun _ => soloFile) Unicode.asciiOnly) (State.empty (ascii "n2"))
      retriedFirst = some (bootEnd retriedFirst) := exec_eq_getD (by decide +kernel)
  exact ⟨hrun, by decide +kernel, parts_listed_once (by decide +kernel) hrun⟩

/-- The bootstrap downloads the deferred part, and so does the retry after it. -/
def retriedLast : List Op :=
  [.replicate (.append chainPut), .replicate (.apply .unreachable),
    .bootstrap [chainPart (ascii "p1")] .good true, .replicate (.retry (ascii "p1") true .good)]

/-- The one row of the part is then found twice. -/
theorem bootstrapped_part_retried_listed_twice :
    exec (step (fun _ => soloFile) Unicode.asciiOnly) (State.empty (ascii "n2")) retriedLast =
        some (bootEnd retriedLast) ∧
      (bootEnd retriedLast).node.parts.map PartMeta.id = [ascii "p1", ascii "p1"] ∧
      soloFile.rows = [soloRow] ∧
      ((bootEnd retriedLast).node.parts.flatMap fun p => (bootEnd retriedLast).node.onDisk p.id) =
        [soloRow, soloRow] := by
  have hrun : exec (step (fun _ => soloFile) Unicode.asciiOnly) (State.empty (ascii "n2"))
      retriedLast = some (bootEnd retriedLast) := exec_eq_getD (by decide +kernel)
  exact ⟨hrun, by decide +kernel, by decide +kernel, by decide +kernel⟩

end Shrimpd.Lsm.Boot
