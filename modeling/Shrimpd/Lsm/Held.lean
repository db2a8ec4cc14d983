import Shrimpd.Lsm.Bootstrap

/-!
# Parts that a node holds or defers

A node has a part when it lists it and its data file is on disk; a part that it
could not download is deferred.  Here is what log entries, retries and loads of
a snapshot do to the parts that are held in either way.  A load trusts a
metadata file without looking for the data file beside it.
-/

namespace Shrimpd.Lsm.QueuePointer

open Shrimpd.Lib Shrimpd.Types Shrimpd.Block
open Shrimpd.Lsm.Replication hiding step Label
open Shrimpd.Lsm.Boot hiding step

/-- The part is listed and its data file is on disk, or it is deferred. -/
def Held (s : Replication.State) (a : Bytes) : Prop :=
  Has s.node a ∨ a ∈ s.pending.map fun d => d.part.id

instance (n : Node) (a : Bytes) : Decidable (Has n a) := inferInstanceAs (Decidable (_ ∧ _))

instance (s : Replication.State) (a : Bytes) : Decidable (Held s a) :=
  inferInstanceAs (Decidable (_ ∨ _))

/-- The metadata files are named after their parts, and every listed part has one. -/
structure Described (n : Node) : Prop where
  named : ∀ a m, n.metas a = some m → m.id = a
  listed : ∀ p ∈ n.parts, (n.metas p.id).isSome = true

/-! ## Downloads -/

/-- At most the files of this part have changed, and no metadata file is gone. -/
structure Touches (n n' : Node) (id : Bytes) : Prop where
  nodeID : n'.nodeID = n.nodeID
  parts : n'.parts = n.parts
  files : ∀ a, a ≠ id → n'.files a = n.files a
  metas : ∀ a, (n.metas a).isSome = true → (n'.metas a).isSome = true
  named : (∀ a m, n.metas a = some m → m.id = a) → ∀ a m, n'.metas a = some m → m.id = a

/-- The part is listed with its files, and the old parts are not listed any more. -/
structure Publishes (n n' : Node) (id : Bytes) (old : List Bytes) : Prop where
  nodeID : n'.nodeID = n.nodeID
  listed : ∀ a, a ∈ n'.parts.map PartMeta.id ↔ a = id ∨ a ∈ n.parts.map PartMeta.id ∧ a ∉ old
  files : ∀ a, a ≠ id → n'.files a = n.files a
  file : (n'.files id).isSome = true
  described : Described n → Described n'

section Downloads

variable {content : Bytes → PartFile} {U : Unicode} {n n' : Node} {id a : Bytes}

theorem touches_fetchPart (io : FetchIO) (part : PartMeta) :
    Touches n (fetchPart content U n io part).1 part.id := by
  have hfetch : Fetched content n _ io part.id _ := fetched_fetchPart U n io part
  have hmetas := (fetchPart_metas content U n io part).1
  exact ⟨hfetch.nodeID, hfetch.parts, hfetch.other, fun _ => hmetas.isSome,
    fun hnamed => hmetas.all hnamed fun _ hid _ => hid⟩

theorem fetchPart_done {io : FetchIO} {part m : PartMeta}
    (h : (fetchPart content U n io part).2 = some m) :
    m.id = part.id ∧ ((fetchPart content U n io part).1.files part.id).isSome = true ∧
      ((fetchPart content U n io part).1.metas part.id).isSome = true := by
  have hfetch : Fetched content n _ io part.id _ := fetched_fetchPart U n io part
  refine ⟨(hfetch.done m h).1, (hfetch.done m h).2, ?_⟩
  unfold fetchPart at h ⊢
  by_cases hfetched : io.fetched = true
  · by_cases hrebuilt : io.rebuilt = true
    · cases hwrite : io.writePart <;> cases hmeta : io.writeMeta <;>
        simp [hfetched, hrebuilt, hwrite, hmeta, Node.setMeta] at h ⊢
    · cases hwrite : io.writePart <;> simp [hfetched, hrebuilt, hwrite] at h
  · simp [hfetched] at h

theorem Touches.has (h : Touches n n' id) (ha : Has n a) (hne : a ≠ id) : Has n' a := by
  obtain ⟨hlisted, hfile⟩ := ha
  rw [Has, h.parts, h.files a hne]
  exact ⟨hlisted, hfile⟩

theorem Touches.described (h : Touches n n' id) (hn : Described n) : Described n' := by
  refine ⟨h.named hn.named, fun p hp => h.metas _ (hn.listed p ?_)⟩
  rwa [h.parts] at hp

theorem Publishes.has_self {old : List Bytes} (h : Publishes n n' id old) : Has n' id :=
  ⟨(h.listed id).mpr (.inl rfl), h.file⟩

theorem Publishes.has {old : List Bytes} (h : Publishes n n' id old) (ha : Has n a)
    (hold : a ∉ old) : Has n' a := by
  by_cases hid : a = id
  · rw [hid]
    exact h.has_self
  · refine ⟨(h.listed a).mpr (.inr ⟨ha.1, hold⟩), ?_⟩
    rw [h.files a hid]
    exact ha.2

/-- A downloaded part is listed and opened. -/
theorem Touches.publishes {n'' : Node} {part : PartMeta} {old : List Bytes}
    (h : Touches n n' id) (hid : part.id = id) (hfile : (n'.files id).isSome = true)
    (hmeta : (n'.metas id).isSome = true) (hnodeID : n''.nodeID = n'.nodeID)
    (hfiles : n''.files = n'.files) (hmetas : n''.metas = n'.metas)
    (hlisted : ∀ a, a ∈ n''.parts.map PartMeta.id ↔
      a = part.id ∨ a ∈ n'.parts.map PartMeta.id ∧ a ∉ old)
    (hparts : ∀ p ∈ n''.parts, p ∈ n'.parts ∨ p = part) : Publishes n n'' id old where
  nodeID := hnodeID.trans h.nodeID
  listed a := by rw [hlisted a, hid, h.parts]
  files a ha := by rw [hfiles, h.files a ha]
  file := by rw [hfiles]; exact hfile
  described := by
    intro hn
    have hn' := h.described hn
    refine ⟨by rw [hmetas]; exact hn'.named, fun p hp => ?_⟩
    rw [hmetas]
    rcases hparts p hp with hp | rfl
    · exact hn'.listed p hp
    · rw [hid]
      exact hmeta

theorem publishes_publish {io : FetchIO} {part m : PartMeta}
    (hfetch : fetchPart content U n io part = (n', some m)) (old : List Bytes) :
    Publishes n ((n'.publish m old).getPart io.opens m.id).1 part.id old := by
  have htouch := @touches_fetchPart content U n io part
  have hdone := @fetchPart_done content U n io part m
  rw [hfetch] at htouch hdone
  obtain ⟨hid, hfile, hmeta⟩ := hdone rfl
  have hsame := same_getPart (n'.publish m old) io.opens m.id
  refine htouch.publishes hid hfile hmeta hsame.nodeID hsame.files (metas_getPart _ _ _) ?_ ?_
  · intro a
    rw [hsame.parts, mem_publish]
  · intro p hp
    rw [hsame.parts] at hp
    exact mem_parts_publish hp

theorem publishes_publishPending {io : FetchIO} {part m : PartMeta}
    (hfetch : fetchPart content U n io part = (n', some m)) (old : List Bytes) :
    Publishes n ((publishPending n' m old).getPart io.opens m.id).1 part.id old := by
  have htouch := @touches_fetchPart content U n io part
  have hdone := @fetchPart_done content U n io part m
  rw [hfetch] at htouch hdone
  obtain ⟨hid, hfile, hmeta⟩ := hdone rfl
  have hsame := same_getPart (publishPending n' m old) io.opens m.id
  refine htouch.publishes hid hfile hmeta hsame.nodeID hsame.files (metas_getPart _ _ _) ?_ ?_
  · intro a
    rw [hsame.parts, mem_publishPending]
  · intro p hp
    rw [hsame.parts] at hp
    exact mem_parts_publishPending hp

end Downloads

/-! ## Log entries and retries -/

section Entries

variable {content : Bytes → PartFile} {U : Unicode} {s : Replication.State} {io : FetchIO}

/-- What an entry of another node does: it defers its part or publishes it. -/
inductive AppliedEntry (s : Replication.State) (e : LogEntry) : Replication.State → Prop where
  | deferred {n : Node} (h : Touches s.node n e.part.id) :
      AppliedEntry s e
        { s with node := n, pending := setPending s.pending ⟨e.part, e.oldParts⟩ }
  | published {n : Node} (h : Publishes s.node n e.part.id e.oldParts) :
      AppliedEntry s e { s with node := n, pending := dropPending s.pending e.oldParts }

/-- What the retry of a deferred part does: it drops it, leaves it deferred or publishes it. -/
inductive RetriedPart (s : Replication.State) (asked : Bool) (d : PendingEntry) :
    Replication.State → Prop where
  | dropped (hasked : asked = true) (hgone : d.part.id ∉ s.active) :
      RetriedPart s asked d { s with pending := dropPending s.pending [d.part.id] }
  | failed {n : Node} (h : Touches s.node n d.part.id) :
      RetriedPart s asked d { s with node := n }
  | published {n : Node} (h : Publishes s.node n d.part.id d.oldParts) :
      RetriedPart s asked d { s with node := n, pending := dropPending s.pending [d.part.id] }

theorem appliedEntry_applyLogEntry (U : Unicode) (io : FetchIO) {e : LogEntry}
    (hother : e.nodeID ≠ s.node.nodeID) (hput : e.op = .put → e.oldParts = []) :
    AppliedEntry s e (applyLogEntry content U s io e) := by
  have htouch := @touches_fetchPart content U s.node io e.part
  have hpublish := @publishes_publish content U s.node
  unfold applyLogEntry
  rw [if_neg hother]
  rcases hfetch : fetchPart content U s.node io e.part with ⟨n, _ | m⟩
  · rw [hfetch] at htouch
    exact .deferred htouch
  · cases hop : e.op with
    | merge => exact .published (hpublish hfetch e.oldParts)
    | put =>
        have hput := hput hop
        have hpublished := AppliedEntry.published (hput ▸ hpublish hfetch [])
        rw [hput, dropPending_nil] at hpublished
        exact hpublished

theorem retriedPart_retryPendingPart (U : Unicode) (s : Replication.State) (asked : Bool)
    (io : FetchIO) (d : PendingEntry) :
    RetriedPart s asked d (retryPendingPart content U s asked io d) := by
  have htouch := @touches_fetchPart content U s.node io d.part
  unfold retryPendingPart
  split_ifs with hgone
  · simp only [Bool.and_eq_true, Bool.not_eq_true', List.contains_eq_mem,
      decide_eq_false_iff_not] at hgone
    exact .dropped hgone.1 hgone.2
  · rcases hfetch : fetchPart content U s.node io d.part with ⟨n, _ | m⟩
    · rw [hfetch] at htouch
      exact .failed htouch
    · exact .published (publishes_publishPending hfetch d.oldParts)

variable {a : Bytes} {t : Replication.State}

theorem mem_ids_setPending {pending : List PendingEntry} {d : PendingEntry} :
    a ∈ (setPending pending d).map (fun d => d.part.id) ↔
      a = d.part.id ∨ a ∈ pending.map fun d => d.part.id := by
  simp only [List.mem_map, mem_setPending]
  grind

theorem mem_ids_dropPending {pending : List PendingEntry} {ids : List Bytes} :
    a ∈ (dropPending pending ids).map (fun d => d.part.id) ↔
      a ∈ (pending.map fun d => d.part.id) ∧ a ∉ ids := by
  simp only [List.mem_map, mem_dropPending]
  grind

/-- An applied entry leaves its part held, and what is held unless the entry replaces it. -/
theorem AppliedEntry.held {e : LogEntry} (h : AppliedEntry s e t)
    (ha : a = e.part.id ∨ Held s a ∧ a ∉ e.oldParts) : Held t a := by
  by_cases hid : a = e.part.id
  · cases h with
    | deferred _ => exact .inr (mem_ids_setPending.mpr (.inl hid))
    | published hpublished => exact .inl (hid ▸ hpublished.has_self)
  · obtain ⟨hheld, hold⟩ := ha.resolve_left hid
    cases h with
    | deferred htouch =>
        exact hheld.imp (fun hhas => htouch.has hhas hid) fun hpending =>
          mem_ids_setPending.mpr (.inr hpending)
    | published hpublished =>
        exact hheld.imp (fun hhas => hpublished.has hhas hold) fun hpending =>
          mem_ids_dropPending.mpr ⟨hpending, hold⟩

/-- A retry leaves what is held, unless it drops the part or the part replaces it. -/
theorem RetriedPart.held {asked : Bool} {d : PendingEntry} (h : RetriedPart s asked d t)
    (hd : d ∈ s.pending) (ha : Held s a) (hold : a ∉ d.oldParts) :
    Held t a ∨ a = d.part.id ∧ asked = true ∧ d.part.id ∉ s.active := by
  cases h with
  | dropped hasked hgone =>
      by_cases hid : a = d.part.id
      · exact .inr ⟨hid, hasked, hgone⟩
      · exact .inl (ha.imp_right fun hpending =>
          mem_ids_dropPending.mpr ⟨hpending, by simpa using hid⟩)
  | failed htouch =>
      by_cases hid : a = d.part.id
      · exact .inl (.inr (List.mem_map.mpr ⟨d, hd, hid.symm⟩))
      · exact .inl (ha.imp_left fun hhas => htouch.has hhas hid)
  | published hpublished =>
      by_cases hid : a = d.part.id
      · exact .inl (.inl (hid ▸ hpublished.has_self))
      · exact .inl (ha.imp (fun hhas => hpublished.has hhas hold) fun hpending =>
          mem_ids_dropPending.mpr ⟨hpending, by simpa using hid⟩)

theorem AppliedEntry.described {e : LogEntry} (h : AppliedEntry s e t)
    (hs : Described s.node) : Described t.node := by
  cases h with
  | deferred htouch => exact htouch.described hs
  | published hpublished => exact hpublished.described hs

theorem RetriedPart.described {asked : Bool} {d : PendingEntry} (h : RetriedPart s asked d t)
    (hs : Described s.node) : Described t.node := by
  cases h with
  | dropped _ _ => exact hs
  | failed htouch => exact htouch.described hs
  | published hpublished => exact hpublished.described hs

end Entries

/-! ## Loads -/

/-- The parts of the snapshot whose metadata is on disk without a data file. -/
def unbacked (n : Node) (snap : List PartMeta) : List Bytes :=
  (snap.filter fun p => (n.metas p.id).isSome && (n.files p.id).isNone).map PartMeta.id

theorem mem_unbacked {n : Node} {snap : List PartMeta} {p : PartMeta} (hp : p ∈ snap)
    (hmeta : (n.metas p.id).isSome = true) (hfile : n.files p.id = none) :
    p.id ∈ unbacked n snap := by
  refine List.mem_map_of_mem (List.mem_filter.mpr ⟨hp, ?_⟩)
  rw [hmeta, hfile]
  rfl

/-- What a load does to what the node holds, whether it gets through (`r.2`) or not. -/
structure Loads (ld : Loading) (snap : List PartMeta) (r : Loading × Bool) : Prop where
  nodeID : r.1.node.nodeID = ld.node.nodeID
  parts : r.1.node.parts = ld.node.parts
  named : ∀ a m, r.1.node.metas a = some m → m.id = a
  kept : ∀ a, (ld.node.metas a).isSome = true →
    (r.1.node.metas a).isSome = true ∧ r.1.node.files a = ld.node.files a
  new : r.2 = true → ∀ a, ld.node.metas a = none → (r.1.node.metas a).isSome = true →
    (r.1.node.files a).isSome = true
  pending : ∀ d ∈ ld.pending, d.part.id ∈ r.1.pending.map fun d => d.part.id
  deferred : ∀ d ∈ r.1.pending, d ∈ ld.pending ∨ d.oldParts = []
  loaded : ∀ q ∈ ld.loaded, q ∈ r.1.loaded
  described : ∀ q ∈ r.1.loaded, q ∈ ld.loaded ∨ (r.1.node.metas q.id).isSome = true
  all : r.2 = true → ∀ p ∈ snap, p.id ∈ r.1.pending.map (fun d => d.part.id) ∨
    p.id ∈ r.1.loaded.map PartMeta.id ∧ (r.1.node.metas p.id).isSome = true

section Loads

variable {content : Bytes → PartFile} {U : Unicode} {ld ld' : Loading} {r : Loading × Bool}
  {p : PartMeta} {snap : List PartMeta}

theorem Loads.cons (h : Loads ld [p] (ld', true)) (hrest : Loads ld' snap r) :
    Loads ld (p :: snap) r where
  nodeID := hrest.nodeID.trans h.nodeID
  parts := hrest.parts.trans h.parts
  named := hrest.named
  kept := by
    intro a ha
    obtain ⟨hmeta, hfile⟩ := h.kept a ha
    obtain ⟨hmeta', hfile'⟩ := hrest.kept a hmeta
    exact ⟨hmeta', hfile'.trans hfile⟩
  new := by
    intro hok a hnone hsome
    by_cases hmeta : (ld'.node.metas a).isSome = true
    · rw [(hrest.kept a hmeta).2]
      exact h.new rfl a hnone hmeta
    · exact hrest.new hok a (Option.not_isSome_iff_eq_none.mp hmeta) hsome
  pending := by
    intro d hd
    obtain ⟨d', hd', hid⟩ := List.mem_map.mp (h.pending d hd)
    rw [← hid]
    exact hrest.pending d' hd'
  deferred := by
    intro d hd
    rcases hrest.deferred d hd with hd | hnil
    · exact h.deferred d hd
    · exact .inr hnil
  loaded q hq := hrest.loaded q (h.loaded q hq)
  described := by
    intro q hq
    rcases hrest.described q hq with hq | hmeta
    · exact (h.described q hq).imp_right fun hmeta => (hrest.kept q.id hmeta).1
    · exact .inr hmeta
  all := by
    intro hok x hx
    rcases List.mem_cons.mp hx with rfl | hx
    · rcases h.all rfl x (List.mem_singleton_self x) with hpending | ⟨hloaded, hmeta⟩
      · obtain ⟨d, hd, hid⟩ := List.mem_map.mp hpending
        exact .inl (hid ▸ hrest.pending d hd)
      · obtain ⟨q, hq, hid⟩ := List.mem_map.mp hloaded
        exact .inr ⟨List.mem_map.mpr ⟨q, hrest.loaded q hq, hid⟩, (hrest.kept _ hmeta).1⟩
    · exact hrest.all hok x hx

/-- Without a download the files stay as they are. -/
theorem loads_of_node {pending : List PendingEntry} {loaded : List PartMeta}
    (hnamed : ∀ a m, ld.node.metas a = some m → m.id = a)
    (hpending : ∀ d ∈ ld.pending, d.part.id ∈ pending.map fun d => d.part.id)
    (hdeferred : ∀ d ∈ pending, d ∈ ld.pending ∨ d.oldParts = [])
    (hloaded : ∀ q ∈ ld.loaded, q ∈ loaded)
    (hdescribed : ∀ q ∈ loaded, q ∈ ld.loaded ∨ (ld.node.metas q.id).isSome = true)
    (hall : ∀ p ∈ snap, p.id ∈ pending.map (fun d => d.part.id) ∨
      p.id ∈ loaded.map PartMeta.id ∧ (ld.node.metas p.id).isSome = true) :
    Loads ld snap (⟨ld.node, pending, loaded⟩, true) where
  nodeID := rfl
  parts := rfl
  named := hnamed
  kept _ ha := ⟨ha, rfl⟩
  new := by
    intro _ a hnone hsome
    rw [hnone] at hsome
    cases hsome
  pending := hpending
  deferred := hdeferred
  loaded := hloaded
  described := hdescribed
  all _ := hall

theorem loads_nil (hnamed : ∀ a m, ld.node.metas a = some m → m.id = a) : Loads ld [] (ld, true) :=
  loads_of_node hnamed (fun d hd => List.mem_map.mpr ⟨d, hd, rfl⟩) (fun _ hd => .inl hd)
    (fun _ hq => hq) (fun _ hq => .inl hq) nofun

/-- A part whose metadata is on disk is loaded as it is. -/
theorem loads_disk (hnamed : ∀ a m, ld.node.metas a = some m → m.id = a)
    (hmeta : (ld.node.metas p.id).isSome = true) {q : PartMeta} (hq : q.id = p.id) :
    Loads ld [p] ({ ld with loaded := ld.loaded ++ [q] }, true) := by
  refine loads_of_node hnamed (fun d hd => List.mem_map.mpr ⟨d, hd, rfl⟩) (fun _ hd => .inl hd)
    (fun _ hx => List.mem_append_left _ hx) ?_ ?_
  · intro x hx
    rcases List.mem_append.mp hx with hx | hx
    · exact .inl hx
    · rw [List.mem_singleton.mp hx, hq]
      exact .inr hmeta
  · intro x hx
    rw [List.mem_singleton.mp hx]
    exact .inr ⟨by simp [hq], hmeta⟩

theorem loads_deferred (hnamed : ∀ a m, ld.node.metas a = some m → m.id = a) :
    Loads ld [p] ({ ld with pending := setPending ld.pending ⟨p, []⟩ }, true) := by
  refine loads_of_node hnamed
    (fun d hd => mem_ids_setPending.mpr (.inr (List.mem_map.mpr ⟨d, hd, rfl⟩))) ?_
    (fun _ hx => hx) (fun _ hx => .inl hx) ?_
  · intro d hd
    rcases mem_setPending.mp hd with ⟨hd, -⟩ | rfl
    · exact .inl hd
    · exact .inr rfl
  · intro x hx
    rw [List.mem_singleton.mp hx]
    exact .inl (mem_ids_setPending.mpr (.inl rfl))

/-- A download changes only files of a part that had no metadata. -/
theorem Touches.loads {n : Node} (h : Touches ld.node n p.id)
    (hnamed : ∀ a m, ld.node.metas a = some m → m.id = a) (hnone : ld.node.metas p.id = none)
    {loaded : List PartMeta} {ok : Bool} (hloaded : ∀ q ∈ ld.loaded, q ∈ loaded)
    (hnew : ∀ q ∈ loaded, q ∈ ld.loaded ∨ (n.metas q.id).isSome = true)
    (hok : ok = true → (n.files p.id).isSome = true)
    (hall : ok = true → ∀ x ∈ snap, x.id ∈ loaded.map PartMeta.id ∧
      (n.metas x.id).isSome = true) (hmetas : ∀ a, a ≠ p.id → n.metas a = ld.node.metas a) :
    Loads ld snap (⟨n, ld.pending, loaded⟩, ok) where
  nodeID := h.nodeID
  parts := h.parts
  named := h.named hnamed
  kept := by
    intro a ha
    refine ⟨h.metas a ha, h.files a ?_⟩
    rintro rfl
    rw [hnone] at ha
    cases ha
  new := by
    intro hok' a hnone' hsome
    by_cases ha : a = p.id
    · rw [ha]
      exact hok hok'
    · rw [hmetas a ha, hnone'] at hsome
      cases hsome
  pending d hd := List.mem_map.mpr ⟨d, hd, rfl⟩
  deferred _ hd := .inl hd
  loaded := hloaded
  described := hnew
  all hok' x hx := .inr (hall hok' x hx)

theorem loads_loadParts (io : LoadIO) (hnamed : ∀ a m, ld.node.metas a = some m → m.id = a) :
    Loads ld snap (loadParts content U io snap ld) := by
  induction snap generalizing ld with
  | nil => exact loads_nil hnamed
  | cons p snap ih =>
      rw [loadParts]
      unfold loadPart
      cases hmeta : ld.node.metas p.id with
      | some disk =>
          have hid : (if io.readsMeta p.id then disk else p).id = p.id := by
            split_ifs
            · exact hnamed _ _ hmeta
            · rfl
          have hone := loads_disk hnamed (by rw [hmeta]; rfl) hid
          exact hone.cons (ih hone.named)
      | none =>
          simp only
          split_ifs with hfetched
          · have hone : Loads ld [p] _ := loads_deferred hnamed
            exact hone.cons (ih hone.named)
          · have htouch := @touches_fetchPart content U ld.node (io.fetch p.id) p
            have hdone := @fetchPart_done content U ld.node (io.fetch p.id) p
            have hgain := (fetchPart_metas content U ld.node (io.fetch p.id) p).1
            have hmetas : ∀ a, a ≠ p.id →
                (fetchPart content U ld.node (io.fetch p.id) p).1.metas a = ld.node.metas a := by
              intro a ha
              rcases hgain with hsame | ⟨m, -, -, hupdate⟩
              · rw [hsame]
              · rw [hupdate, Function.update_of_ne ha]
            rcases hfetch : fetchPart content U ld.node (io.fetch p.id) p with ⟨n, _ | m⟩
            · rw [hfetch] at htouch hmetas
              exact htouch.loads hnamed hmeta (fun _ hx => hx) (fun _ hx => .inl hx) (by simp)
                (by simp) hmetas
            · rw [hfetch] at htouch hmetas hdone
              obtain ⟨hid, hfile, hsome⟩ := hdone rfl
              have hone : Loads ld [p] (⟨n, ld.pending, ld.loaded ++ [m]⟩, true) := by
                refine htouch.loads hnamed hmeta (fun _ hx => List.mem_append_left _ hx) ?_
                  (fun _ => hfile) ?_ hmetas
                · intro q hq
                  rcases List.mem_append.mp hq with hq | hq
                  · exact .inl hq
                  · rw [List.mem_singleton.mp hq, hid]
                    exact .inr hsome
                · intro _ x hx
                  rw [List.mem_singleton.mp hx]
                  exact ⟨by simp [hid], hsome⟩
              exact hone.cons (ih hone.named)

/-- What a start or a bootstrap leaves: all parts of the snapshot are held, but for those whose
metadata it has trusted in vain; or, if it fails, what was held before. -/
structure Booted (s : Replication.State) (snap : List PartMeta) (r : Replication.State × Bool) :
    Prop where
  nodeID : r.1.node.nodeID = s.node.nodeID
  described : Described r.1.node
  deferred : ∀ d ∈ r.1.pending, d ∈ s.pending ∨ d.oldParts = []
  stored : r.2 = true → ∀ p ∈ snap, Held r.1 p.id ∨ p.id ∈ unbacked s.node snap
  failed : r.2 = false → ∀ a, Held s a → Held r.1 a

variable {s : Replication.State}

theorem Loads.failed (h : Loads ⟨s.node, s.pending, []⟩ snap (ld, false))
    (hs : Described s.node) :
    Booted s snap ({ s with node := ld.node, pending := ld.pending }, false) where
  nodeID := h.nodeID
  described := by
    refine ⟨h.named, fun p hp => ?_⟩
    have hp : p ∈ s.node.parts := h.parts ▸ hp
    exact (h.kept _ (hs.listed p hp)).1
  deferred := h.deferred
  stored := nofun
  failed := by
    intro _ a ha
    rcases ha with ⟨hlisted, hfile⟩ | hpending
    · obtain ⟨p, hp, rfl⟩ := List.mem_map.mp hlisted
      refine .inl ⟨?_, ?_⟩
      · show p.id ∈ ld.node.parts.map PartMeta.id
        rw [h.parts]
        exact hlisted
      · show (ld.node.files p.id).isSome = true
        rw [(h.kept _ (hs.listed p hp)).2]
        exact hfile
    · obtain ⟨d, hd, rfl⟩ := List.mem_map.mp hpending
      exact .inr (h.pending d hd)

/-- The list is stored, and the deferred parts of the snapshot are kept. -/
theorem Loads.stored (h : Loads ⟨s.node, s.pending, []⟩ snap (ld, true))
    {pending : List PendingEntry} (hsub : ∀ d ∈ pending, d ∈ ld.pending)
    (hkeep : ∀ p ∈ snap, ∀ d ∈ ld.pending, d.part.id = p.id → d ∈ pending) :
    Booted s snap
      ({ s with node := { ld.node with parts := ld.loaded }, pending := pending }, true) where
  nodeID := h.nodeID
  described := ⟨h.named, fun q hq => (h.described q hq).resolve_left List.not_mem_nil⟩
  deferred d hd := h.deferred d (hsub d hd)
  stored := by
    intro _ p hp
    rcases h.all rfl p hp with hpending | ⟨hloaded, hmeta⟩
    · obtain ⟨d, hd, hid⟩ := List.mem_map.mp hpending
      exact .inl (.inr (List.mem_map.mpr ⟨d, hkeep p hp d hd hid, hid⟩))
    · cases hfile : ld.node.files p.id with
      | some f => exact .inl (.inl ⟨hloaded, by rw [hfile]; rfl⟩)
      | none =>
          -- A metadata file that the load has written itself has its data file.
          have hold : (s.node.metas p.id).isSome = true := by
            by_contra hnot
            have hnew := h.new rfl p.id (Option.not_isSome_iff_eq_none.mp hnot) hmeta
            rw [hfile] at hnew
            cases hnew
          exact .inr (mem_unbacked hp hold ((h.kept _ hold).2.symm.trans hfile))
  failed := nofun

theorem booted_bootstrapFromParts (io : LoadIO) (hs : Described s.node) :
    Booted s snap (bootstrapFromParts content U s io snap) := by
  have hloads := @loads_loadParts content U ⟨s.node, s.pending, []⟩ snap io hs.named
  unfold bootstrapFromParts
  rcases hload : loadParts content U io snap ⟨s.node, s.pending, []⟩ with ⟨ld, _ | _⟩
  all_goals rw [hload] at hloads
  · exact hloads.failed hs
  · refine hloads.stored (fun d hd => List.mem_of_mem_filter hd) fun p hp d hd hid => ?_
    refine List.mem_filter.mpr ⟨hd, ?_⟩
    rw [hid]
    simpa using ⟨p, hp, rfl⟩

theorem booted_startup (io : LoadIO) (hs : Described s.node) :
    Booted s snap (startup content U s io snap) := by
  have hloads := @loads_loadParts content U ⟨s.node, s.pending, []⟩ snap io hs.named
  unfold startup
  rcases hload : loadParts content U io snap ⟨s.node, s.pending, []⟩ with ⟨ld, _ | _⟩
  all_goals rw [hload] at hloads
  · exact hloads.failed hs
  · exact hloads.stored (fun _ hd => hd) fun _ _ d hd _ => hd

end Loads

end Shrimpd.Lsm.QueuePointer
