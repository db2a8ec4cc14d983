import Shrimpd.Lsm.Cluster

/-!
# What a member of the cluster keeps

What a member has listed, deferred or committed accounts for every active part
it has read of.  One lemma says what a change of the member's files keeps, one
what a new part in its list keeps, and one what a new log entry keeps; the steps
of a member are instances of these.
-/

namespace Shrimpd.Lsm.Nodes

open Shrimpd.Lib Shrimpd.Lib.Exec Shrimpd.Types Shrimpd.Block
open Shrimpd.Lsm.Replication hiding step Label Inv

section Member

variable {U : Unicode} {ids ids' : Bytes → Option PartFile} {log : List LogEntry}
  {active : List Bytes} {m : Member} {n' : Node} {id : Bytes}

theorem OnRecord.mono {R : PartMeta → PartFile → Prop} {part : PartMeta}
    (h : OnRecord ids R part) (hids : ∀ a f, ids a = some f → ids' a = some f) :
    OnRecord ids' R part := by
  obtain ⟨f, hf, hrest⟩ := h
  exact ⟨f, hids _ f hf, hrest⟩

theorem OnRecord.rows_eq {R : PartMeta → PartFile → Prop} {part : PartMeta}
    (h : OnRecord ids R part) (hids : ∀ a f, ids a = some f → ids' a = some f) :
    rowsOf ids' part.id = rowsOf ids part.id := by
  obtain ⟨f, hf, -⟩ := h
  rw [rowsOf, rowsOf, hf, hids _ f hf]

/-- Only the files of part `id` differ, and all copies are good. -/
structure Touched (ids : Bytes → Option PartFile) (n n' : Node) (id : Bytes) : Prop where
  nodeID : n'.nodeID = n.nodeID
  files : ∀ a, a ≠ id → n'.files a = n.files a
  copies : Copies ids n'

/-- The member neither lists the part nor is about to. -/
structure Absent (m : Member) (id : Bytes) : Prop where
  listed : id ∉ m.node.parts.map PartMeta.id
  committed : ∀ q ∈ m.committed, q.part.id ≠ id

/-- The files of a part that the member does not list change. -/
theorem MemberOk.touch (h : MemberOk U ids log active m) (ht : Touched ids' m.node n' id)
    (hparts : n'.parts = m.node.parts) (habsent : Absent m id)
    (hids : ∀ a f, ids a = some f → ids' a = some f) :
    MemberOk U ids' log active { m with node := n' } := by
  obtain ⟨nodeID, parts, files, metas, fds⟩ := n'
  obtain ⟨hnode, hfiles, hcopies⟩ := ht
  simp only at hnode hparts hfiles
  subst hnode hparts
  refine { h with
    copies := hcopies
    described := fun p hp => (h.described p hp).mono hids
    held := fun p hp hactive => ?_
    committed := fun q hq => ?_ }
  · have hne : p.id ≠ id := fun heq => habsent.listed (heq ▸ List.mem_map_of_mem hp)
    change (files p.id).isSome = true
    rw [hfiles _ hne]
    exact h.held p hp hactive
  · have hok := h.committed q hq
    refine { hok with described := hok.described.mono hids, file := fun hactive => ?_ }
    change (files q.part.id).isSome = true
    rw [hfiles _ (habsent.committed q hq)]
    exact hok.file hactive

/-- How the other fields of a member change when part `id` is listed in place of `old`: the
part is no longer deferred or waiting, and what else disappears is replaced. -/
structure Settles (m m' : Member) (log : List LogEntry) (id : Bytes) (old : List Bytes) :
    Prop where
  pointer : m.pointer ≤ m'.pointer ∧ m'.pointer ≤ log.length
  read : ∀ e ∈ log.take m'.pointer, e ∈ log.take m.pointer ∨ e.part.id = id
  known : (∃ e ∈ log.take m'.pointer, e.part.id = id) ∨
    ∃ e ∈ log, e.nodeID = m.node.nodeID ∧ e.part.id = id
  pending : ∀ d ∈ m'.pending, d ∈ m.pending ∧ d.part.id ≠ id
  pendingKept : ∀ d ∈ m.pending, d ∈ m'.pending ∨ d.part.id = id ∨ d.part.id ∈ old
  committed : ∀ q ∈ m'.committed, q ∈ m.committed ∧ q.part.id ≠ id
  committedKept : ∀ q ∈ m.committed, q ∈ m'.committed ∨ q.part.id = id
  distinct : (m'.committed.map fun q => q.part.id).Nodup

theorem MemberOk.known_mono (h : MemberOk U ids log active m) {j : Nat} (hj : m.pointer ≤ j)
    {p : PartMeta} (hp : p ∈ m.node.parts) : (∃ e ∈ log.take j, e.part.id = p.id) ∨
      ∃ e ∈ log, e.nodeID = m.node.nodeID ∧ e.part.id = p.id := by
  refine (h.known p hp).imp_left ?_
  rintro ⟨e, he, hid⟩
  exact ⟨e, (List.take_prefix_take_left hj).subset he, hid⟩

theorem MemberOk.deferred_mono (h : MemberOk U ids log active m) {j : Nat} (hj : m.pointer ≤ j)
    {d : PendingEntry} (hd : d ∈ m.pending) : ∃ e ∈ log.take j,
      e.part = d.part ∧ e.oldParts = d.oldParts ∧ e.nodeID ≠ m.node.nodeID := by
  obtain ⟨e, he, hrest⟩ := h.deferred d hd
  exact ⟨e, (List.take_prefix_take_left hj).subset he, hrest⟩

/-- A downloaded or committed part takes its place in the list. -/
theorem MemberOk.relist {m' : Member} {part : PartMeta} {old : List Bytes}
    (h : MemberOk U ids log active m) (ht : Touched ids m.node m'.node id)
    (hs : Settles m m' log id old) (hname : part.id = id)
    (hdescribed : OnRecord ids (Describes U) part)
    (hfile : id ∈ active → (m'.node.files id).isSome = true)
    (hnodup : (m'.node.parts.map PartMeta.id).Nodup)
    (hparts : ∀ p ∈ m'.node.parts, p ∈ m.node.parts ∨ p = part)
    (hlisted : ∀ a, a ∈ m'.node.parts.map PartMeta.id ↔
      a = id ∨ a ∈ m.node.parts.map PartMeta.id ∧ a ∉ old)
    (hold : ∀ a ∈ old, a ∉ active) : MemberOk U ids log active m' where
  copies := ht.copies
  pointer := hs.pointer.2
  nodup := hnodup
  known := by
    intro p hp
    rw [ht.nodeID]
    rcases hparts p hp with hp | rfl
    · exact h.known_mono hs.pointer.1 hp
    · rw [hname]
      exact hs.known
  described := by
    intro p hp
    rcases hparts p hp with hp | rfl
    · exact h.described p hp
    · exact hdescribed
  held := by
    intro p hp hactive
    by_cases hid : p.id = id
    · rw [hid] at hactive ⊢
      exact hfile hactive
    · rw [ht.files _ hid]
      rcases hparts p hp with hp | rfl
      · exact h.held p hp hactive
      · exact absurd hname hid
  deferred := by
    intro d hd
    rw [ht.nodeID]
    exact h.deferred_mono hs.pointer.1 (hs.pending d hd).1
  hidden := by
    intro d hd hmem
    obtain ⟨hd, hne⟩ := hs.pending d hd
    rcases (hlisted _).mp hmem with heq | ⟨hmem, -⟩
    · exact hne heq
    · exact h.hidden d hd hmem
  read := by
    intro e he hother hactive
    rw [ht.nodeID] at hother
    rcases hs.read e he with he | hid
    · rcases h.read e he hother hactive with hmem | ⟨d, hd, hid⟩
      · exact Or.inl ((hlisted _).mpr (Or.inr ⟨hmem, fun hmem => hold _ hmem hactive⟩))
      · rcases hs.pendingKept d hd with hd | heq | hmem
        · exact Or.inr ⟨d, hd, hid⟩
        · exact Or.inl ((hlisted _).mpr (Or.inl (hid ▸ heq)))
        · exact absurd hactive (hold _ (hid ▸ hmem))
    · exact Or.inl ((hlisted _).mpr (Or.inl hid))
  own := by
    intro e he hown hactive
    rw [ht.nodeID] at hown
    rcases h.own e he hown hactive with hmem | ⟨q, hq, hid⟩
    · exact Or.inl ((hlisted _).mpr (Or.inr ⟨hmem, fun hmem => hold _ hmem hactive⟩))
    · rcases hs.committedKept q hq with hq | heq
      · exact Or.inr ⟨q, hq, hid⟩
      · exact Or.inl ((hlisted _).mpr (Or.inl (hid ▸ heq)))
  committed := by
    intro q hq
    obtain ⟨hq, hne⟩ := hs.committed q hq
    have hok := h.committed q hq
    refine ⟨?_, ?_, hok.described, ?_⟩
    · rw [ht.nodeID]
      exact hok.logged
    · intro hmem
      rcases (hlisted _).mp hmem with heq | ⟨hmem, -⟩
      · exact hne heq
      · exact hok.hidden hmem
    · rw [ht.files _ hne]
      exact hok.file
  distinct := hs.distinct

/-! ## The log grows -/

theorem nodup_map_concat {α β : Type} {f : α → β} {l : List α} {x : α} :
    ((l ++ [x]).map f).Nodup ↔ f x ∉ l.map f ∧ (l.map f).Nodup := by
  rw [List.map_append, List.map_singleton, ← List.concat_eq_append, List.nodup_concat]

theorem LogOk.append {e : LogEntry} (h : LogOk ids log active)
    (hid : e.part.id ∉ log.map fun e => e.part.id) (hout : OnRecord ids Outlines e.part)
    (hput : e.op = .put → e.oldParts = [])
    (holdIn : ∀ a ∈ e.oldParts, a ∈ log.map fun e => e.part.id) :
    LogOk ids (log ++ [e]) (commitPart active e.part.id e.oldParts) := by
  have hin : ∀ a ∈ log.map (fun e => e.part.id), a ∈ (log ++ [e]).map fun e => e.part.id := by
    intro a ha
    rw [List.map_append]
    exact List.mem_append_left _ ha
  refine ⟨?_, ?_, ?_, ?_, ?_, nodup_commitPart h.nodup _ _, ?_, h.named⟩
  · exact nodup_map_concat.mpr ⟨hid, h.once⟩
  · exact List.forall_mem_append.mpr ⟨h.outlined, List.forall_mem_singleton.mpr hout⟩
  · exact List.forall_mem_append.mpr ⟨h.put, List.forall_mem_singleton.mpr hput⟩
  · refine List.forall_mem_append.mpr ⟨?_, List.forall_mem_singleton.mpr ?_⟩
    · exact fun x hx a ha => hin a (h.oldIn x hx a ha)
    · exact fun a ha => hin a (holdIn a ha)
  · -- a replaced part is an earlier one, so the new part is not among them
    intro x hx a ha hactive
    rcases List.mem_append.mp hx with hx | hx
    · rcases mem_commitPart.mp hactive with ⟨hactive, -⟩ | rfl
      · exact h.oldOut x hx a ha hactive
      · exact hid (h.oldIn x hx _ ha)
    · rw [List.mem_singleton.mp hx] at ha
      rcases mem_commitPart.mp hactive with ⟨-, hnot, -⟩ | rfl
      · exact hnot ha
      · exact hid (holdIn _ ha)
  · intro a ha
    rcases mem_commitPart.mp ha with ⟨ha, -⟩ | rfl
    · exact hin a (h.known a ha)
    · simp

theorem MemberOk.mem_log (h : MemberOk U ids log active m) {p : PartMeta}
    (hp : p ∈ m.node.parts) : p.id ∈ log.map fun e => e.part.id := by
  rcases h.known p hp with ⟨e, he, hid⟩ | ⟨e, he, -, hid⟩
  · exact List.mem_map.mpr ⟨e, List.mem_of_mem_take he, hid⟩
  · exact List.mem_map.mpr ⟨e, he, hid⟩

/-- A part that is not in the log is unknown to all members. -/
theorem MemberOk.absent_of_new (h : MemberOk U ids log active m)
    (hid : id ∉ log.map fun e => e.part.id) : Absent m id := by
  refine ⟨fun hmem => ?_, fun q hq heq => ?_⟩
  · obtain ⟨p, hp, rfl⟩ := List.mem_map.mp hmem
    exact hid (h.mem_log hp)
  · obtain ⟨e, he, -, heid, -⟩ := (h.committed q hq).logged
    exact hid (List.mem_map.mpr ⟨e, he, heid.trans heq⟩)

/-- A new log entry; if it is the member's own, the part waits to be listed. -/
theorem MemberOk.append {e : LogEntry} {committed : List Publication}
    (h : MemberOk U ids log active m) (hid : e.part.id ∉ log.map fun e => e.part.id)
    (hkept : ∀ q ∈ m.committed, q ∈ committed)
    (hnew : ∀ q ∈ committed, q ∈ m.committed ∨
      CommittedOk U ids (log ++ [e]) (commitPart active e.part.id e.oldParts) m.node q)
    (hown : e.nodeID = m.node.nodeID → ∃ q ∈ committed, q.part.id = e.part.id)
    (hdistinct : (committed.map fun q => q.part.id).Nodup) :
    MemberOk U ids (log ++ [e]) (commitPart active e.part.id e.oldParts)
      { m with committed := committed } := by
  have htake : (log ++ [e]).take m.pointer = log.take m.pointer :=
    List.take_append_of_le_length h.pointer
  have habsent := h.absent_of_new hid
  -- a part that is in the log already is active only if it was
  have hwas : ∀ x ∈ log, x.part.id ∈ commitPart active e.part.id e.oldParts →
      x.part.id ∈ active := by
    intro x hx hactive
    rcases mem_commitPart.mp hactive with ⟨hactive, -⟩ | heq
    · exact hactive
    · exact absurd (List.mem_map.mpr ⟨x, hx, heq⟩) hid
  refine { h with
    pointer := h.pointer.trans (by simp)
    known := fun p hp => ?_
    held := fun p hp hactive => ?_
    deferred := htake.symm ▸ h.deferred
    read := fun x hx hother hactive => ?_
    own := fun x hx hxown hactive => ?_
    committed := fun q hq => ?_
    distinct := hdistinct }
  · rw [htake]
    refine (h.known p hp).imp_right ?_
    rintro ⟨x, hx, hrest⟩
    exact ⟨x, List.mem_append_left _ hx, hrest⟩
  · rcases mem_commitPart.mp hactive with ⟨hactive, -⟩ | heq
    · exact h.held p hp hactive
    · exact absurd (heq ▸ List.mem_map_of_mem hp) habsent.listed
  · rw [htake] at hx
    exact h.read x hx hother (hwas x (List.mem_of_mem_take hx) hactive)
  · rcases List.mem_append.mp hx with hx | hx
    · refine (h.own x hx hxown (hwas x hx hactive)).imp_right ?_
      rintro ⟨q, hq, hrest⟩
      exact ⟨q, hkept q hq, hrest⟩
    · rw [List.mem_singleton.mp hx] at hxown ⊢
      exact Or.inr (hown hxown)
  · rcases hnew q hq with hq | hok
    · have hok := h.committed q hq
      obtain ⟨x, hx, hxown, hxid, hxold⟩ := hok.logged
      refine { hok with
        logged := ⟨x, List.mem_append_left _ hx, hxown, hxid, hxold⟩
        file := fun hactive => hok.file ?_ }
      rw [← hxid] at hactive ⊢
      exact hwas x hx hactive
    · exact hok

theorem LogOk.eq_of_id (h : LogOk ids log active) {e x : LogEntry} (he : e ∈ log) (hx : x ∈ log)
    (heq : e.part.id = x.part.id) : e = x :=
  List.inj_on_of_nodup_map h.once he hx heq

theorem LogOk.ids_ne_none (h : LogOk ids log active) (hid : ids id = none) :
    id ∉ log.map fun e => e.part.id := by
  intro hmem
  obtain ⟨e, he, rfl⟩ := List.mem_map.mp hmem
  obtain ⟨f, hf, -⟩ := h.outlined e he
  rw [hid] at hf
  exact absurd hf (by simp)

theorem LogOk.mem_ids (h : LogOk ids log active) (hid : id ∈ log.map fun e => e.part.id) :
    ∃ f, ids id = some f := by
  obtain ⟨e, he, rfl⟩ := List.mem_map.mp hid
  obtain ⟨f, hf, -⟩ := h.outlined e he
  exact ⟨f, hf⟩

/-- A part of another node is absent until its entry has been read and it is not deferred. -/
theorem MemberOk.absent_of_other (h : MemberOk U ids log active m) (hlog : LogOk ids log active)
    {e : LogEntry} (he : e ∈ log) (hother : e.nodeID ≠ m.node.nodeID)
    (hnot : e.part.id ∉ m.node.parts.map PartMeta.id) : Absent m e.part.id := by
  refine ⟨hnot, fun q hq heq => ?_⟩
  obtain ⟨x, hx, hown, hid, -⟩ := (h.committed q hq).logged
  rw [hlog.eq_of_id hx he (hid.trans heq)] at hown
  exact hother hown

theorem take_succ {i : Nat} {e : LogEntry} (he : log[i]? = some e) :
    log.take (i + 1) = log.take i ++ [e] := by
  rw [List.take_add_one, he]
  rfl

theorem not_mem_take {i : Nat} {e x : LogEntry} (hlog : LogOk ids log active)
    (he : log[i]? = some e) (hx : x ∈ log.take i) : x.part.id ≠ e.part.id := by
  have hnodup : ((log.take (i + 1)).map fun e => e.part.id).Nodup :=
    hlog.once.sublist ((List.take_sublist _ _).map _)
  rw [take_succ he, nodup_map_concat] at hnodup
  exact fun heq => hnodup.1 (List.mem_map.mpr ⟨x, hx, heq⟩)

/-- The next entry's part is absent, unless it is the member's own. -/
theorem MemberOk.absent_next (h : MemberOk U ids log active m) (hlog : LogOk ids log active)
    {e : LogEntry} (he : log[m.pointer]? = some e) (hother : e.nodeID ≠ m.node.nodeID) :
    Absent m e.part.id ∧ ∀ d ∈ m.pending, d.part.id ≠ e.part.id := by
  have hmem := List.mem_of_getElem? he
  refine ⟨h.absent_of_other hlog hmem hother ?_, ?_⟩
  · intro hlisted
    obtain ⟨p, hp, hid⟩ := List.mem_map.mp hlisted
    rcases h.known p hp with ⟨x, hx, hxid⟩ | ⟨x, hx, hown, hxid⟩
    · exact not_mem_take hlog he hx (hxid.trans hid)
    · rw [hlog.eq_of_id hx hmem (hxid.trans hid)] at hown
      exact hother hown
  · intro d hd heq
    obtain ⟨x, hx, hpart, -⟩ := h.deferred d hd
    exact not_mem_take hlog he hx (hpart ▸ heq)

/-! ## Steps of one member -/

/-- An entry of the member's own is passed over. -/
theorem MemberOk.skip (h : MemberOk U ids log active m) {e : LogEntry}
    (he : log[m.pointer]? = some e) (hown : e.nodeID = m.node.nodeID) :
    MemberOk U ids log active { m with pointer := m.pointer + 1 } := by
  refine { h with
    pointer := (List.getElem?_eq_some_iff.mp he).1
    known := fun p hp => h.known_mono (Nat.le_succ _) hp
    deferred := fun d hd => h.deferred_mono (Nat.le_succ _) hd
    read := fun x hx hother hactive => ?_ }
  rw [take_succ he, List.mem_append, List.mem_singleton] at hx
  rcases hx with hx | rfl
  · exact h.read x hx hother hactive
  · exact absurd hown hother

/-- The part of the next entry could not be downloaded. -/
theorem MemberOk.defer (h : MemberOk U ids log active m) (hlog : LogOk ids log active)
    {e : LogEntry} (he : log[m.pointer]? = some e) (hother : e.nodeID ≠ m.node.nodeID) :
    MemberOk U ids log active { m with
      pointer := m.pointer + 1, pending := setPending m.pending ⟨e.part, e.oldParts⟩ } := by
  obtain ⟨habsent, hpending⟩ := h.absent_next hlog he hother
  refine { h with
    pointer := (List.getElem?_eq_some_iff.mp he).1
    known := fun p hp => h.known_mono (Nat.le_succ _) hp
    deferred := fun d hd => ?_
    hidden := fun d hd => ?_
    read := fun x hx hxother hactive => ?_ }
  · rcases mem_setPending.mp hd with ⟨hd, -⟩ | rfl
    · exact h.deferred_mono (Nat.le_succ _) hd
    · refine ⟨e, ?_, rfl, rfl, hother⟩
      rw [take_succ he]
      simp
  · rcases mem_setPending.mp hd with ⟨hd, -⟩ | rfl
    · exact h.hidden d hd
    · exact habsent.listed
  · rw [take_succ he, List.mem_append, List.mem_singleton] at hx
    rcases hx with hx | rfl
    · refine (h.read x hx hxother hactive).imp_right ?_
      rintro ⟨d, hd, hid⟩
      exact ⟨d, mem_setPending.mpr (Or.inl ⟨hd, hpending d hd⟩), hid⟩
    · exact Or.inr ⟨_, mem_setPending.mpr (Or.inr rfl), rfl⟩

/-- A deferred part that is no longer active is given up. -/
theorem MemberOk.drop (h : MemberOk U ids log active m) (hgone : id ∉ active) :
    MemberOk U ids log active { m with pending := dropPending m.pending [id] } := by
  refine { h with
    deferred := fun d hd => h.deferred d (mem_dropPending.mp hd).1
    hidden := fun d hd => h.hidden d (mem_dropPending.mp hd).1
    read := fun e he hother hactive => (h.read e he hother hactive).imp_right ?_ }
  rintro ⟨d, hd, hid⟩
  refine ⟨d, mem_dropPending.mpr ⟨hd, ?_⟩, hid⟩
  rw [List.mem_singleton, hid]
  exact fun heq => hgone (heq ▸ hactive)

/-- The pass has seen the part as an active one, or finds its files too young. -/
structure Safe (n : Node) (seen : List Bytes) (pass : GCPass) (id : Bytes) : Prop where
  file : id ∈ seen ∨ gcRemoves seen pass (dataName id) = false
  listed : id ∈ seen ∨ id ∉ n.parts.map PartMeta.id ∨
    (n.sweep seen pass).gcKeeps seen pass id = true

instance decidableSafe (n : Node) (seen : List Bytes) (pass : GCPass) (id : Bytes) :
    Decidable (Safe n seen pass id) :=
  decidable_of_iff _ ⟨fun h => ⟨h.1, h.2⟩, fun h => And.intro h.file h.listed⟩

theorem Safe.files_eq {n : Node} {seen : List Bytes} {pass : GCPass}
    (h : Safe n seen pass id) (hname : ¬ ascii ".sparse" <:+ id) :
    (n.runGC seen pass).files id = n.files id := by
  rcases h.file with hseen | hyoung
  · exact files_runGC (gcRemoves_of_active (gcID_dataName hname) hseen)
  · exact files_runGC hyoung

theorem Copies.runGC {n : Node} (h : Copies ids n) (seen : List Bytes) (pass : GCPass) :
    Copies ids (n.runGC seen pass) := by
  rintro a f (hf | hf)
  · exact h a f (Or.inl (files_runGC_of_some hf))
  · unfold Node.runGC at hf
    split_ifs at hf
    · simp only [Node.reconcile] at hf
      split_ifs at hf
      exact h a f (Or.inr hf)
    · exact h a f (Or.inr hf)

theorem parts_runGC (n : Node) (seen : List Bytes) (pass : GCPass) :
    (n.runGC seen pass).parts.Sublist n.parts := by
  unfold Node.runGC
  split_ifs
  · exact List.filter_sublist
  · exact List.Sublist.refl _

/-- A pass removes no file of a safe part and drops none from the list. -/
theorem MemberOk.collect (h : MemberOk U ids log active m) (hlog : LogOk ids log active)
    {seen : List Bytes} {pass : GCPass} (hsafe : ∀ a ∈ active, Safe m.node seen pass a) :
    MemberOk U ids log active { m with node := m.node.runGC seen pass } := by
  have hsub := parts_runGC m.node seen pass
  have hids := (hsub.map PartMeta.id).subset
  have hlisted : ∀ a ∈ active, a ∈ m.node.parts.map PartMeta.id →
      a ∈ (m.node.runGC seen pass).parts.map PartMeta.id := by
    intro a ha hmem
    obtain ⟨p, hp, rfl⟩ := List.mem_map.mp hmem
    refine List.mem_map_of_mem ?_
    unfold Node.runGC
    split_ifs
    · refine List.mem_filter.mpr ⟨hp, ?_⟩
      rcases (hsafe _ ha).listed with hseen | hnot | hkept
      · exact gcKeeps_of_active hseen
      · exact absurd (List.mem_map_of_mem hp) hnot
      · exact hkept
    · exact hp
  have hfile : ∀ part, OnRecord ids (Describes U) part → part.id ∈ active →
      (m.node.files part.id).isSome = true →
        ((m.node.runGC seen pass).files part.id).isSome = true := by
    intro part hpart hactive hsome
    obtain ⟨f, hf, -⟩ := hpart
    rw [(hsafe _ hactive).files_eq (hlog.named _ f hf)]
    exact hsome
  have hname := nodeID_runGC m.node seen pass
  refine { h with
    copies := h.copies.runGC seen pass
    nodup := h.nodup.sublist (hsub.map _)
    known := fun p hp => hname ▸ h.known p (hsub.subset hp)
    described := fun p hp => h.described p (hsub.subset hp)
    held := fun p hp hactive =>
      hfile p (h.described p (hsub.subset hp)) hactive (h.held p (hsub.subset hp) hactive)
    deferred := hname.symm ▸ h.deferred
    hidden := fun d hd hmem => h.hidden d hd (hids hmem)
    read := fun e he hother hactive =>
      (h.read e he (hname ▸ hother) hactive).imp_left (hlisted _ hactive)
    own := fun e he hown hactive =>
      (h.own e he (hname ▸ hown) hactive).imp_left (hlisted _ hactive)
    committed := fun q hq => ?_ }
  have hok := h.committed q hq
  exact ⟨hname.symm ▸ hok.logged, fun hmem => hok.hidden (hids hmem), hok.described,
    fun hactive => hfile q.part hok.described hactive (hok.file hactive)⟩

/-! ## Downloads and publications -/

theorem Copies.of_same {n : Node} (h : Copies ids n) (hsame : n.Same n') : Copies ids n' := by
  rintro a f (hf | hf)
  · rw [hsame.files] at hf
    exact h a f (Or.inl hf)
  · apply h.content
    rw [← hsame.content, Node.content, hf]
    rfl

theorem fetchPart_some {content : Bytes → PartFile} {n : Node} {io : FetchIO} {part full : PartMeta}
    (h : (fetchPart content U n io part).2 = some full) :
    full = rebuildPartTokens U (content part.id) part ∧ io.fetched = true := by
  unfold fetchPart at h
  grind

/-- A download changes the part's own files only, to what is on record. -/
theorem touched_fetchPart {content : Bytes → PartFile} {n : Node} {io : FetchIO} {part : PartMeta}
    (hn : Copies ids n) (hserved : io.fetched = true → ids part.id = some (content part.id)) :
    Touched ids n (fetchPart content U n io part).1 part.id := by
  have hfetch : Fetched content n _ io part.id _ := fetched_fetchPart U n io part
  refine ⟨hfetch.nodeID, hfetch.other, ?_⟩
  by_cases hfetched : io.fetched = true
  · rintro a f (hf | hf)
    · by_cases ha : a = part.id
      · subst ha
        rcases hfetch.own f hf with hold | heq
        · exact hn _ f (Or.inl hold)
        · rw [heq]
          exact hserved hfetched
      · rw [hfetch.other a ha] at hf
        exact hn a f (Or.inl hf)
    · rw [hfetch.fds] at hf
      exact hn a f (Or.inr hf)
  · have hsame : (fetchPart content U n io part).1 = n := by
      unfold fetchPart
      rw [if_pos (by simpa using hfetched)]
    rw [hsame]
    exact hn

theorem sameBut_abandon (n : Node) (io : CompactIO) (id : Bytes) :
    n.SameBut (n.abandon io id) id :=
  (((Node.Same.refl n).but id).removeFile _).removeMeta _

/-- Giving up a part touches its own files only. -/
theorem touched_abandon {n : Node} (hn : Copies ids n) (io : CompactIO) (id : Bytes) :
    Touched ids n (n.abandon io id) id := by
  have hsame := sameBut_abandon n io id
  refine ⟨hsame.nodeID, hsame.files, hn.of_sameBut hsame (fun _ _ => rfl) ?_⟩
  rintro f (hf | hf)
  · unfold Node.abandon Node.removeMeta Node.removeFile at hf
    split_ifs at hf
    · simp [Node.setFile, Node.setMeta] at hf
    · exact hn id f (Or.inl hf)
    · simp [Node.setFile] at hf
    · exact hn id f (Or.inl hf)
  · unfold Node.abandon Node.removeMeta at hf
    split_ifs at hf
    all_goals
      apply hn id f (Or.inr ?_)
      rw [← fds_removeFile n io.removes id]
      exact hf

/-- What a download comes to; a downloaded part is described in full. -/
inductive Downloaded (U : Unicode) (ids : Bytes → Option PartFile) (n : Node) (part : PartMeta) :
    Node × Option PartMeta → Prop where
  | failed {n₁} (touched : Touched ids n n₁ part.id) (parts : n₁.parts = n.parts) :
      Downloaded U ids n part (n₁, none)
  | done {n₁ full} (touched : Touched ids n n₁ part.id) (parts : n₁.parts = n.parts)
      (name : full.id = part.id) (owner : full.nodeID = part.nodeID)
      (file : (n₁.files part.id).isSome = true) (described : OnRecord ids (Describes U) full) :
      Downloaded U ids n part (n₁, some full)

theorem downloaded {content : Bytes → PartFile} {n : Node} {io : FetchIO} {part : PartMeta}
    (hn : Copies ids n) (hpart : OnRecord ids Outlines part)
    (hserved : io.fetched = true → ids part.id = some (content part.id)) :
    Downloaded U ids n part (fetchPart content U n io part) := by
  have htouch : Touched ids n (fetchPart content U n io part).1 part.id :=
    touched_fetchPart hn hserved
  have hfetch : Fetched content n _ io part.id _ := fetched_fetchPart U n io part
  have hsome := @fetchPart_some U content n io part
  rcases hresult : fetchPart content U n io part with ⟨n', _ | full⟩
  all_goals rw [hresult] at htouch hfetch hsome
  · exact .failed htouch hfetch.parts
  · obtain ⟨rfl, hfetched⟩ := hsome rfl
    obtain ⟨hid, hfile⟩ := hfetch.done _ rfl
    obtain ⟨f, hf, houtlines, hrest⟩ := hpart
    have hserved := hserved hfetched
    rw [hf, Option.some.injEq] at hserved
    exact .done htouch hfetch.parts hid rfl hfile
      ⟨f, hf, hserved ▸ houtlines.rebuilt U, hrest⟩

/-- What one step of a member leaves alone: its name, and the files of parts outside the log. -/
structure Spares (log : List LogEntry) (n n' : Node) : Prop where
  nodeID : n'.nodeID = n.nodeID
  files : ∀ a, a ∉ log.map (fun e => e.part.id) → n'.files a = n.files a

theorem Touched.spares {n : Node} (h : Touched ids n n' id)
    (hid : id ∈ log.map fun e => e.part.id) : Spares log n n' :=
  ⟨h.nodeID, fun a ha => h.files a fun heq => ha (heq ▸ hid)⟩

/-- Following the log, a member leaves them alone and lists other nodes' parts. -/
structure Follows (log : List LogEntry) (n n' : Node) : Prop extends Spares log n n' where
  parts : ∀ p ∈ n'.parts, p ∈ n.parts ∨
    ∃ e ∈ log, e.part.id = p.id ∧ e.part.nodeID = p.nodeID ∧ e.nodeID ≠ n.nodeID

/-- A downloaded part takes its place in the list and is opened. -/
theorem MemberOk.lists {m' : Member} {n : Node} {full : PartMeta} {e : LogEntry}
    (h : MemberOk U ids log active m) (hlog : LogOk ids log active) (n₂ : Node) (he : e ∈ log)
    (hother : e.nodeID ≠ m.node.nodeID) (hs : Settles m m' log e.part.id e.oldParts)
    (hd : Downloaded U ids m.node e.part (n, some full))
    (hn₂ : n₂.files = n.files ∧ n₂.fds = n.fds ∧ n₂.nodeID = n.nodeID) (hsame : n₂.Same m'.node)
    (hnodup : (n₂.parts.map PartMeta.id).Nodup) (hparts : ∀ p ∈ n₂.parts, p ∈ n.parts ∨ p = full)
    (hlisted : ∀ a, a ∈ n₂.parts.map PartMeta.id ↔
      a = full.id ∨ a ∈ n.parts.map PartMeta.id ∧ a ∉ e.oldParts) :
    MemberOk U ids log active m' ∧ Follows log m.node m'.node := by
  cases hd with
  | done touched parts name owner file described =>
  obtain ⟨hfiles, hfds, hnode⟩ := hn₂
  have hcopies : Copies ids n₂ := fun a f hf => touched.copies a f (by rw [← hfiles, ← hfds]; exact hf)
  have htouched : Touched ids m.node m'.node e.part.id := by
    refine ⟨hsame.nodeID.trans (hnode.trans touched.nodeID), fun a ha => ?_,
      hcopies.of_same hsame⟩
    rw [hsame.files, hfiles]
    exact touched.files a ha
  simp only [← hsame.parts, parts, name] at hnodup hparts hlisted
  refine ⟨h.relist htouched hs name described ?_ hnodup hparts hlisted (hlog.oldOut e he),
    ⟨htouched.nodeID, fun a ha => htouched.files a fun heq => ha ?_⟩, fun p hp => ?_⟩
  · rw [hsame.files, hfiles]
    exact fun _ => file
  · exact heq ▸ List.mem_map_of_mem he
  · refine (hparts p hp).imp_right ?_
    rintro rfl
    exact ⟨e, he, name.symm, owner.symm, hother⟩

/-- One log entry, applied by a member. -/
theorem MemberOk.applyEntry (h : MemberOk U ids log active m) (hlog : LogOk ids log active)
    {content : Bytes → PartFile} {io : FetchIO} {e : LogEntry} {s : State}
    (hs : s = ⟨m.node, active, log, m.pointer, m.pending⟩) (he : log[m.pointer]? = some e)
    (hserved : io.fetched = true → ids e.part.id = some (content e.part.id)) :
    MemberOk U ids log active
      { m with
        node := (applyLogEntry content U s io e).node
        pointer := m.pointer + 1
        pending := (applyLogEntry content U s io e).pending } ∧
      Follows log m.node (applyLogEntry content U s io e).node := by
  have hmem := List.mem_of_getElem? he
  subst hs
  unfold applyLogEntry
  split_ifs with hown
  · exact ⟨h.skip he hown, ⟨rfl, fun _ _ => rfl⟩, fun p hp => Or.inl hp⟩
  obtain ⟨habsent, hpending⟩ := h.absent_next hlog he hown
  have hdown := downloaded (U := U) h.copies (hlog.outlined e hmem) hserved
  rcases hresult : fetchPart content U m.node io e.part with ⟨n, _ | full⟩
  all_goals rw [hresult] at hdown
  · cases hdown with
    | failed touched parts =>
    refine ⟨(h.touch touched parts habsent fun _ _ hf => hf).defer hlog he ?_,
      touched.spares (List.mem_map_of_mem hmem), fun p hp => Or.inl (parts ▸ hp)⟩
    rw [touched.nodeID]
    exact hown
  -- a flush replaces nothing, so both kinds of entries list the part in the same way
  have hlist : ∀ old pending, old = e.oldParts →
      (∀ d, d ∈ pending ↔ d ∈ m.pending ∧ d.part.id ∉ old) →
      MemberOk U ids log active
        { m with
          node := ((n.publish full old).getPart io.opens full.id).1
          pointer := m.pointer + 1
          pending := pending } ∧
        Follows log m.node ((n.publish full old).getPart io.opens full.id).1 := by
    rintro _ pending rfl hpend
    refine h.lists hlog (n.publish full e.oldParts) hmem hown ?_ hdown ⟨rfl, rfl, rfl⟩
      (same_getPart _ io.opens full.id) (Boot.nodup_publish ?_ full e.oldParts)
      (fun p => mem_parts_publish) fun a => mem_publish
    · refine ⟨⟨Nat.le_succ _, (List.getElem?_eq_some_iff.mp he).1⟩, ?_, ?_, ?_, ?_, ?_,
        fun q hq => Or.inl hq, h.distinct⟩
      · intro x hx
        rw [take_succ he, List.mem_append, List.mem_singleton] at hx
        exact hx.imp_right fun heq => by rw [heq]
      · exact Or.inl ⟨e, by rw [take_succ he]; simp, rfl⟩
      · exact fun d hd => ⟨((hpend d).mp hd).1, hpending d ((hpend d).mp hd).1⟩
      · intro d hd
        by_cases hdold : d.part.id ∈ e.oldParts
        · exact Or.inr (Or.inr hdold)
        · exact Or.inl ((hpend d).mpr ⟨hd, hdold⟩)
      · exact fun q hq => ⟨hq, habsent.committed q hq⟩
    · cases hdown with
      | done _ parts => exact parts ▸ h.nodup
  cases hop : e.op with
  | put => exact hlist [] m.pending (hlog.put e hmem hop).symm (by simp)
  | merge => exact hlist e.oldParts _ rfl fun d => mem_dropPending

theorem pointer_retryPendingPart (content : Bytes → PartFile) (s : State) (asked : Bool)
    (io : FetchIO) (d : PendingEntry) :
    (retryPendingPart content U s asked io d).pointer = s.pointer := by
  unfold retryPendingPart
  split_ifs
  · rfl
  · split <;> rfl

/-- A deferred part, tried again. -/
theorem MemberOk.retryPart (h : MemberOk U ids log active m) (hlog : LogOk ids log active)
    {content : Bytes → PartFile} {io : FetchIO} {d : PendingEntry} {s : State} (asked : Bool)
    (hs : s = ⟨m.node, active, log, m.pointer, m.pending⟩) (hd : d ∈ m.pending)
    (hserved : io.fetched = true → ids d.part.id = some (content d.part.id)) :
    MemberOk U ids log active
      { m with
        node := (retryPendingPart content U s asked io d).node
        pointer := (retryPendingPart content U s asked io d).pointer
        pending := (retryPendingPart content U s asked io d).pending } ∧
      Follows log m.node (retryPendingPart content U s asked io d).node := by
  obtain ⟨⟨op, part, old, nodeID⟩, he, hpart, hold, hother⟩ := h.deferred d hd
  obtain ⟨dpart, dold⟩ := d
  simp only at hpart hold hother
  subst hpart hold
  have hmem := List.mem_of_mem_take he
  have hnot := h.hidden _ hd
  have habsent : Absent m part.id := h.absent_of_other hlog hmem hother hnot
  rw [pointer_retryPendingPart]
  subst hs
  unfold retryPendingPart
  split_ifs with hgone
  · refine ⟨h.drop ?_, ⟨rfl, fun _ _ => rfl⟩, fun p hp => Or.inl hp⟩
    simp only [Bool.and_eq_true, Bool.not_eq_true', List.contains_eq_mem,
      decide_eq_false_iff_not] at hgone
    exact hgone.2
  have hdown := downloaded (U := U) h.copies (hlog.outlined _ hmem) hserved
  rcases hresult : fetchPart content U m.node io part with ⟨n, _ | full⟩
  all_goals rw [hresult] at hdown
  · cases hdown with
    | failed touched parts =>
    exact ⟨h.touch touched parts habsent fun _ _ hf => hf,
      touched.spares (List.mem_map_of_mem hmem), fun p hp => Or.inl (parts ▸ hp)⟩
  refine h.lists hlog (publishPending n full old) hmem hother ?_ hdown ⟨rfl, rfl, rfl⟩
    (same_getPart _ io.opens full.id) ?_ (fun p => mem_parts_publishPending)
    fun a => mem_publishPending
  · refine ⟨⟨le_rfl, h.pointer⟩, fun x hx => Or.inl hx, Or.inl ⟨_, he, rfl⟩, ?_, ?_,
      ?_, fun q hq => Or.inl hq, h.distinct⟩
    · intro x hx
      have hkept := mem_dropPending.mp hx
      exact ⟨hkept.1, by simpa using hkept.2⟩
    · intro x hx
      by_cases hxid : x.part.id = part.id
      · exact Or.inr (Or.inl hxid)
      · exact Or.inl (mem_dropPending.mpr ⟨hx, by simpa using hxid⟩)
    · exact fun q hq => ⟨hq, habsent.committed q hq⟩
  · cases hdown with
    | done _ parts name =>
    refine Boot.nodup_publishPending (parts ▸ h.nodup) ?_ old
    rw [name, parts]
    exact hnot

theorem mem_eraseIdx_of_nodup {α β : Type} {f : α → β} {l : List α} (h : (l.map f).Nodup)
    {k : Nat} {q x : α} (hq : l[k]? = some q) : x ∈ l.eraseIdx k ↔ x ∈ l ∧ f x ≠ f q := by
  obtain ⟨hk, hkq⟩ := List.getElem?_eq_some_iff.mp hq
  have hperm := List.getElem_cons_eraseIdx_perm hk
  rw [hkq] at hperm
  have hnodup := (hperm.map f).nodup_iff.mpr h
  rw [List.map_cons, List.nodup_cons] at hnodup
  rw [← hperm.mem_iff, List.mem_cons]
  constructor
  · intro hx
    exact ⟨Or.inr hx, fun heq => hnodup.1 (heq ▸ List.mem_map_of_mem hx)⟩
  · rintro ⟨rfl | hx, hne⟩
    · exact absurd rfl hne
    · exact hx

/-- A committed part takes its place in the list. -/
theorem MemberOk.publish (h : MemberOk U ids log active m) (hlog : LogOk ids log active) {k : Nat}
    {q : Publication} (hq : m.committed[k]? = some q) :
    MemberOk U ids log active
      { m with
        node := m.node.publish q.part q.oldParts
        committed := m.committed.eraseIdx k } ∧
      Spares log m.node (m.node.publish q.part q.oldParts) := by
  have hok := h.committed q (List.mem_of_getElem? hq)
  obtain ⟨e, he, hown, hid, hold⟩ := hok.logged
  have herase : ∀ x, x ∈ m.committed.eraseIdx k ↔ x ∈ m.committed ∧ x.part.id ≠ q.part.id :=
    fun x => mem_eraseIdx_of_nodup h.distinct hq
  have htouched : Touched ids m.node (m.node.publish q.part q.oldParts) q.part.id :=
    ⟨rfl, fun _ _ => rfl, h.copies⟩
  have hpending : ∀ d ∈ m.pending, d.part.id ≠ q.part.id := by
    intro d hd heq
    obtain ⟨x, hx, hxpart, -, hxother⟩ := h.deferred d hd
    apply hxother
    rw [hlog.eq_of_id (List.mem_of_mem_take hx) he (by rw [hxpart, heq, hid])]
    exact hown
  refine ⟨h.relist htouched ?_ rfl hok.described hok.file
    (Boot.nodup_publish h.nodup q.part q.oldParts) (fun p => mem_parts_publish)
    (fun a => mem_publish) (hold ▸ hlog.oldOut e he), rfl, fun _ _ => rfl⟩
  refine ⟨⟨le_rfl, h.pointer⟩, fun x hx => Or.inl hx, Or.inr ⟨e, he, hown, hid⟩,
    fun d hd => ⟨hd, hpending d hd⟩, fun d hd => Or.inl hd, fun x hx => (herase x).mp hx, ?_,
    h.distinct.sublist ((List.eraseIdx_sublist _ _).map _)⟩
  intro x hx
  by_cases heq : x.part.id = q.part.id
  · exact Or.inr heq
  · exact Or.inl ((herase x).mpr ⟨hx, heq⟩)

end Member

end Shrimpd.Lsm.Nodes
