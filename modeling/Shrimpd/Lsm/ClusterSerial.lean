import Shrimpd.Lsm.ClusterEntries

/-!
# Compactions of the cluster

A node merges parts of its own only.  If it runs one compaction at a time, the
parts that a transaction replaces are active when it runs, whatever the other
nodes do in between.
-/

namespace Shrimpd.Lsm.Nodes

open Shrimpd.Lib Shrimpd.Lib.Exec Shrimpd.Types Shrimpd.Block
open Shrimpd.Lsm.Replication hiding step Label Inv

section Owners

variable {ι : Type}

/-- A node starts a compaction only when its last one is through. -/
def OneAtATime (c : Cluster ι) : Label ι → Prop
  | .compact i _ => (∀ x ∈ c.prepared, x.1 = i → x.2.oldParts = []) ∧
      ∀ q ∈ (c.members i).committed, q.oldParts = []
  | _ => True

instance decidableOneAtATime [DecidableEq ι] (c : Cluster ι) : ∀ l, Decidable (OneAtATime c l)
  | .compact _ _ => inferInstanceAs (Decidable ((∀ x ∈ c.prepared, _) ∧ ∀ q ∈ _, _))
  | .flush .. | .append .. | .publish .. | .apply .. | .retry .. | .collect .. => isTrue trivial

/-- The log has a part of this ID from this node. -/
def Made (log : List LogEntry) (nodeID a : Bytes) : Prop :=
  ∃ e ∈ log, e.part.id = a ∧ e.nodeID = nodeID

/-- The part is to replace active parts of the member that it has listed, and the member has
no other such part. -/
structure Claimed (log : List LogEntry) (active : List Bytes) (m : Member) (q : Publication) :
    Prop where
  owner : q.part.nodeID = m.node.nodeID
  active : ∀ a ∈ q.oldParts, a ∈ active
  made : ∀ a ∈ q.oldParts, Made log m.node.nodeID a
  shown : ∀ a ∈ q.oldParts, ∀ r ∈ m.committed, r.part.id ≠ a
  alone : q.oldParts ≠ [] → ∀ r ∈ m.committed, r.oldParts = []

/-- The parts of its own that a member lists are active, or a committed part is about to
replace them. -/
structure Owned (log : List LogEntry) (active : List Bytes) (m : Member) : Prop where
  committed : ∀ q ∈ m.committed, q.part.nodeID = m.node.nodeID ∧ q.part.id ∈ active
  listed : ∀ p ∈ m.node.parts, Made log p.nodeID p.id
  current : ∀ p ∈ m.node.parts, p.nodeID = m.node.nodeID →
    p.id ∈ active ∨ ∃ q ∈ m.committed, p.id ∈ q.oldParts

structure Ownership (c : Cluster ι) : Prop where
  logged : ∀ e ∈ c.log, e.part.nodeID = e.nodeID
  claimed : ∀ x ∈ c.prepared, Claimed c.log c.active (c.members x.1) x.2
  single : ∀ x ∈ c.prepared, ∀ y ∈ c.prepared, x.1 = y.1 → x.2.oldParts ≠ [] →
    y.2.oldParts ≠ [] → x.2.part.id = y.2.part.id
  owned : ∀ i, Owned c.log c.active (c.members i)

end Owners

section Steps

variable {ι : Type} [DecidableEq ι] {U : Unicode} {c c' : Cluster ι} {i : ι}

theorem Made.mono {log : List LogEntry} {nodeID a : Bytes} (h : Made log nodeID a) (e : LogEntry) :
    Made (log ++ [e]) nodeID a := by
  obtain ⟨x, hx, hrest⟩ := h
  exact ⟨x, List.mem_append_left _ hx, hrest⟩

theorem Made.eq {ids : Bytes → Option PartFile} {log : List LogEntry} {active : List Bytes}
    {nodeID nodeID' a : Bytes} (h : Made log nodeID a) (h' : Made log nodeID' a)
    (hlog : LogOk ids log active) : nodeID = nodeID' := by
  obtain ⟨x, hx, hxid, rfl⟩ := h
  obtain ⟨y, hy, hyid, rfl⟩ := h'
  rw [hlog.eq_of_id hx hy (hxid.trans hyid.symm)]

/-- A member whose list gains parts of other nodes only. -/
theorem Owned.relist {log : List LogEntry} {active : List Bytes} {m m' : Member}
    (h : Owned log active m) (hnode : m'.node.nodeID = m.node.nodeID)
    (hcommitted : m'.committed = m.committed)
    (hparts : ∀ p ∈ m'.node.parts, p ∈ m.node.parts ∨
      Made log p.nodeID p.id ∧ p.nodeID ≠ m.node.nodeID) : Owned log active m' := by
  refine ⟨?_, ?_, ?_⟩
  · rw [hcommitted, hnode]
    exact h.committed
  · intro p hp
    rcases hparts p hp with hp | hp
    · exact h.listed p hp
    · exact hp.1
  · intro p hp hown
    rw [hcommitted]
    rw [hnode] at hown
    rcases hparts p hp with hp | hp
    · exact h.current p hp hown
    · exact absurd hown hp.2

theorem Claimed.relist {log : List LogEntry} {active : List Bytes} {m m' : Member}
    {q : Publication} (h : Claimed log active m q) (hnode : m'.node.nodeID = m.node.nodeID)
    (hcommitted : ∀ r ∈ m'.committed, r ∈ m.committed) : Claimed log active m' q := by
  exact ⟨hnode ▸ h.owner, h.active, hnode ▸ h.made,
    fun a ha r hr => h.shown a ha r (hcommitted r hr),
    fun hne r hr => h.alone hne r (hcommitted r hr)⟩

/-- A step of one member that only relists. -/
theorem Ownership.set (h : Ownership c) {m : Member} (hm : Owned c.log c.active m)
    (hnode : m.node.nodeID = (c.members i).node.nodeID)
    (hcommitted : ∀ r ∈ m.committed, r ∈ (c.members i).committed) : Ownership (c.set i m) where
  logged := h.logged
  claimed := by
    intro x hx
    have hok := h.claimed x hx
    by_cases hi : x.1 = i
    · rw [hi] at hok ⊢
      rw [members_set_self]
      exact hok.relist hnode hcommitted
    · rw [members_set_of_ne hi]
      exact hok
  single := h.single
  owned := member_set hm fun j _ => h.owned j

theorem Ownership.prepare (h : Ownership c) {op : LogOp} {id : Bytes} {entries : List Entry}
    {old : List Bytes} {p : Prepared}
    (hp : Wrote U c.ids (c.members i).node id entries old p)
    (hclaim : ∀ part : PartMeta, part.nodeID = (c.members i).node.nodeID →
      Claimed c.log c.active (c.members i) ⟨op, part, old, entries⟩)
    (hsingle : old ≠ [] → ∀ x ∈ c.prepared, x.1 = i → x.2.oldParts = []) :
    Ownership (c.prepare i op entries id p) := by
  obtain ⟨hsame, -⟩ := hp.sameBut
  have hset : Ownership (c.setNode i (preparedNode p)) := by
    refine h.set ((h.owned i).relist hsame.nodeID rfl fun q hq => Or.inl ?_) hsame.nodeID
      fun r hr => hr
    rw [← hsame.parts]
    exact hq
  cases hp with
  | done same fds => exact ⟨hset.logged, hset.claimed, hset.single, hset.owned⟩
  | @ready n' part f same fds file name owner describes sorted nonempty rows =>
      have hnew : Claimed c.log c.active ((c.setNode i n').members i)
          ⟨op, part, old, entries⟩ := by
        rw [Cluster.setNode, members_set_self]
        exact (hclaim part owner).relist same.nodeID fun r hr => hr
      refine ⟨hset.logged, ?_, ?_, hset.owned⟩
      · exact List.forall_mem_append.mpr ⟨hset.claimed, List.forall_mem_singleton.mpr hnew⟩
      · intro x hx y hy hxy hxold hyold
        rcases List.mem_append.mp hx with hx | hx <;> rcases List.mem_append.mp hy with hy | hy
        · exact h.single x hx y hy hxy hxold hyold
        · rw [List.mem_singleton] at hy
          subst hy
          exact absurd (hsingle hyold x hx hxy) hxold
        · rw [List.mem_singleton] at hx
          subst hx
          exact absurd (hsingle hxold y hy hxy.symm) hyold
        · rw [List.mem_singleton] at hx hy
          rw [hx, hy]

/-- A transaction replaces only parts of its node, which the node's own list accounts for. -/
theorem Ownership.commit (h : Ownership c) (hinv : Inv U c) {k : Nat} {q : Publication}
    (hk : c.prepared[k]? = some (i, q)) :
    Ownership ((Cluster.commit { c with prepared := c.prepared.eraseIdx k } i q).set i
      { c.members i with committed := (c.members i).committed ++ [q] }) := by
  have hmem := List.mem_of_getElem? hk
  have hq : Claimed c.log c.active (c.members i) q := h.claimed _ hmem
  have hok : PreparedOk U c.ids c.log (c.members i).node q := hinv.prepared _ hmem
  generalize he : LogEntry.mk q.op (etcdPart q.part) q.oldParts (c.members i).node.nodeID = e
  have herase : ∀ x, x ∈ c.prepared.eraseIdx k ↔
      x ∈ c.prepared ∧ x.2.part.id ≠ q.part.id := fun x =>
    mem_eraseIdx_of_nodup hinv.preparedOnce hk
  have hother : ∀ j a, Made c.log (c.members j).node.nodeID a → j ≠ i → a ∉ q.oldParts :=
    fun j a hmade hj ha => hj (hinv.names (hmade.eq (hq.made a ha) hinv.log))
  have hstays : ∀ a, a ∈ c.active → a ∉ q.oldParts →
      a ∈ commitPart c.active q.part.id q.oldParts := by
    intro a ha hnot
    by_cases heq : a = q.part.id
    · exact mem_commitPart.mpr (Or.inr heq)
    · exact mem_commitPart.mpr (Or.inl ⟨ha, hnot, heq⟩)
  have hnew : ∀ a, Made c.log (c.members i).node.nodeID a → q.part.id ≠ a := by
    rintro a ⟨x, hx, rfl, -⟩ heq
    exact hok.new (heq ▸ List.mem_map_of_mem hx)
  have hclaimed : ∀ x ∈ c.prepared.eraseIdx k, Claimed (c.log ++ [e])
      (commitPart c.active q.part.id q.oldParts) ((c.set i
        { c.members i with committed := (c.members i).committed ++ [q] }).members x.1) x.2 := by
    intro x hx
    obtain ⟨hx, hne⟩ := (herase x).mp hx
    have hclaim := h.claimed x hx
    by_cases hi : x.1 = i
    · have hboth : x.2.oldParts ≠ [] → q.oldParts = [] := fun hxold => by
        by_contra hqold
        exact hne (h.single x hx _ hmem hi hxold hqold)
      rw [hi] at hclaim ⊢
      rw [members_set_self]
      refine ⟨hclaim.owner, fun a ha => ?_, fun a ha => (hclaim.made a ha).mono e, ?_, ?_⟩
      · refine hstays a (hclaim.active a ha) ?_
        rw [hboth (List.ne_nil_of_mem ha)]
        exact List.not_mem_nil
      · intro a ha
        exact List.forall_mem_append.mpr ⟨hclaim.shown a ha,
          List.forall_mem_singleton.mpr (hnew a (hclaim.made a ha))⟩
      · intro hxold
        exact List.forall_mem_append.mpr ⟨hclaim.alone hxold,
          List.forall_mem_singleton.mpr (hboth hxold)⟩
    · rw [members_set_of_ne hi]
      exact ⟨hclaim.owner,
        fun a ha => hstays a (hclaim.active a ha) (hother x.1 a (hclaim.made a ha) hi),
        fun a ha => (hclaim.made a ha).mono e, hclaim.shown, hclaim.alone⟩
  have hself : Owned (c.log ++ [e]) (commitPart c.active q.part.id q.oldParts)
      { c.members i with committed := (c.members i).committed ++ [q] } := by
    have hown := h.owned i
    refine ⟨?_, fun p hp => (hown.listed p hp).mono e, fun p hp hp_own => ?_⟩
    · refine List.forall_mem_append.mpr ⟨fun r hr => ⟨(hown.committed r hr).1, ?_⟩,
        List.forall_mem_singleton.mpr ⟨hq.owner, mem_commitPart.mpr (Or.inr rfl)⟩⟩
      refine hstays _ (hown.committed r hr).2 fun hr_old => ?_
      exact hq.shown _ hr_old r hr rfl
    · by_cases hp_old : p.id ∈ q.oldParts
      · exact Or.inr ⟨q, by simp, hp_old⟩
      · refine (hown.current p hp hp_own).imp (fun ha => hstays _ ha hp_old) ?_
        rintro ⟨r, hr, hr_old⟩
        exact ⟨r, List.mem_append_left _ hr, hr_old⟩
  have hothers : ∀ j, j ≠ i → Owned (c.log ++ [e]) (commitPart c.active q.part.id q.oldParts)
      (c.members j) := by
    intro j hj
    have hown := h.owned j
    refine ⟨fun r hr => ⟨(hown.committed r hr).1, ?_⟩, fun p hp => (hown.listed p hp).mono e,
      fun p hp hp_own => ?_⟩
    · obtain ⟨x, hx, hxown, hxid, -⟩ := ((hinv.member j).committed r hr).logged
      exact hstays _ (hown.committed r hr).2 (hother j _ ⟨x, hx, hxid, hxown⟩ hj)
    · have hmade := hown.listed p hp
      rw [hp_own] at hmade
      exact (hown.current p hp hp_own).imp_left fun ha => hstays _ ha (hother j _ hmade hj)
  unfold Cluster.commit
  rw [he]
  refine ⟨?_, hclaimed, ?_, member_set hself hothers⟩
  · refine List.forall_mem_append.mpr ⟨h.logged, List.forall_mem_singleton.mpr ?_⟩
    rw [← he]
    exact hq.owner
  · intro x hx y hy
    exact h.single x ((herase x).mp hx).1 y ((herase y).mp hy).1

theorem Ownership.withdraw (h : Ownership c) (k : Nat) (io : CompactIO) (q : Publication) :
    Ownership (Cluster.withdraw { c with prepared := c.prepared.eraseIdx k } i io q) := by
  have hsame := sameBut_abandon (c.members i).node io q.part.id
  have hset := h.set (i := i) (m := { c.members i with
    node := (c.members i).node.abandon io q.part.id })
    ((h.owned i).relist hsame.nodeID rfl fun p hp => Or.inl (hsame.parts ▸ hp)) hsame.nodeID
    fun r hr => hr
  have herase : ∀ x ∈ c.prepared.eraseIdx k, x ∈ c.prepared := fun x hx =>
    (List.eraseIdx_sublist _ _).subset hx
  exact ⟨hset.logged, fun x hx => hset.claimed x (herase x hx),
    fun x hx y hy => hset.single x (herase x hx) y (herase y hy), hset.owned⟩

theorem Ownership.publish (h : Ownership c) (hinv : Inv U c) {k : Nat} {q : Publication}
    (hk : (c.members i).committed[k]? = some q) :
    Ownership (c.set i { c.members i with
      node := (c.members i).node.publish q.part q.oldParts
      committed := (c.members i).committed.eraseIdx k }) := by
  have hown := h.owned i
  have hmem := List.mem_of_getElem? hk
  obtain ⟨howner, hactive⟩ := hown.committed q hmem
  have hsub : ∀ r ∈ (c.members i).committed.eraseIdx k, r ∈ (c.members i).committed :=
    fun r hr => (List.eraseIdx_sublist _ _).subset hr
  have herase : ∀ r, r ∈ (c.members i).committed.eraseIdx k ↔
      r ∈ (c.members i).committed ∧ r.part.id ≠ q.part.id := fun r =>
    mem_eraseIdx_of_nodup (hinv.member i).distinct hk
  refine h.set ⟨fun r hr => hown.committed r (hsub r hr), ?_, ?_⟩ rfl hsub
  · intro p hp
    rcases mem_parts_publish hp with hp | rfl
    · exact hown.listed p hp
    · obtain ⟨e, he, heown, heid, -⟩ := ((hinv.member i).committed q hmem).logged
      exact ⟨e, he, heid, heown.trans howner.symm⟩
  · intro p hp hp_own
    have hlisted := mem_publish.mp (List.mem_map_of_mem hp)
    rcases hlisted with heq | ⟨-, hnot⟩
    · exact Or.inl (heq ▸ hactive)
    rcases mem_parts_publish hp with hp | rfl
    · refine (hown.current p hp hp_own).imp_right ?_
      rintro ⟨r, hr, hr_old⟩
      refine ⟨r, (herase r).mpr ⟨hr, fun heq => ?_⟩, hr_old⟩
      rw [List.inj_on_of_nodup_map (hinv.member i).distinct hr hmem heq] at hr_old
      exact hnot hr_old
    · exact Or.inl hactive

/-- The parts that replication lists are other nodes'. -/
theorem Ownership.follow (h : Ownership c) {s : State} (hs : Follows c.log (c.members i).node s.node) :
    Ownership (c.follow i s) := by
  refine h.set ((h.owned i).relist hs.nodeID rfl fun p hp => (hs.parts p hp).imp_right ?_)
    hs.nodeID fun r hr => hr
  rintro ⟨e, he, hid, hnode, hother⟩
  rw [← hnode, h.logged e he]
  exact ⟨⟨e, he, hid, rfl⟩, hother⟩

theorem owned_step {l : Label ι} (h : Ownership c) (hinv : Inv U c) (hsound : Sound c l)
    (hone : OneAtATime c l) (hstep : step U c l = some c') : Ownership c' := by
  cases stepped hstep with
  | flush new =>
      refine h.prepare (wrote_flush _ _) (fun part howner => ?_) (by simp)
      exact ⟨howner, by simp, by simp, by simp, by simp⟩
  | @compact i call new =>
      have hm := hinv.member i
      have hnew := (hm.absent_of_new (hinv.log.ids_ne_none new.1)).listed
      have hselected : ∀ a ∈ ((c.members i).node.selectParts call.level call.force).map PartMeta.id,
          ∃ p ∈ (c.members i).node.parts, p.id = a ∧ p.nodeID = (c.members i).node.nodeID := by
        intro a ha
        obtain ⟨p, hp, rfl⟩ := List.mem_map.mp ha
        exact ⟨p, (mem_selectParts hp).1, rfl, (mem_selectParts hp).2.2⟩
      refine h.prepare (wrote_compact hm.copies hnew hm.described) (fun part howner => ?_)
        fun _ => hone.1
      refine ⟨howner, fun a ha => ?_, fun a ha => ?_, fun a ha r hr heq => ?_, fun _ => hone.2⟩
      · obtain ⟨p, hp, rfl, hown⟩ := hselected a ha
        rcases (h.owned i).current p hp hown with hactive | ⟨q, hq, hold⟩
        · exact hactive
        · rw [hone.2 q hq] at hold
          exact absurd hold List.not_mem_nil
      · obtain ⟨p, hp, rfl, hown⟩ := hselected a ha
        exact hown ▸ (h.owned i).listed p hp
      · obtain ⟨p, hp, rfl, -⟩ := hselected a ha
        exact (hm.committed r hr).hidden (heq ▸ List.mem_map_of_mem hp)
  | commit found => exact h.commit hinv found
  | withdraw found => exact h.withdraw _ _ _
  | lost _ failed => exact absurd failed hsound
  | publish found => exact h.publish hinv found
  | @apply i peer io e found =>
      exact h.follow ((hinv.member i).applyEntry hinv.log rfl found (hinv.served peer io _)).2
  | @retry i peer asked io d found =>
      exact h.follow ((hinv.member i).retryPart hinv.log asked rfl found (hinv.served peer io _)).2
  | @collect i seen pass =>
      have hname := nodeID_runGC (c.members i).node seen pass
      exact h.set ((h.owned i).relist hname rfl fun p hp => Or.inl ((parts_runGC _ _ _).subset hp))
        hname fun r hr => hr

omit [DecidableEq ι] in
theorem Ownership.serial (h : Ownership c) (l : Label ι) : Serial c l := by
  cases l with
  | append k io => exact fun x hx => (h.claimed x (List.mem_of_getElem? hx)).active
  | _ => trivial

omit [DecidableEq ι] in
theorem ownership_start (nodeID : ι → Bytes) : Ownership (Cluster.start nodeID) := by
  refine ⟨by simp [Cluster.start], by simp [Cluster.start], by simp [Cluster.start], fun i => ?_⟩
  constructor <;> simp [Cluster.start, Member.start]

/-- The active parts hold what was flushed, once. -/
theorem stored_perm_flushed {nodeID : ι → Bytes} (hnames : Function.Injective nodeID)
    {ls : List (Label ι)} (hsound : Along (step U) Sound (Cluster.start nodeID) ls)
    (hone : Along (step U) OneAtATime (Cluster.start nodeID) ls)
    (hrun : exec (step U) (Cluster.start nodeID) ls = some c) : c.stored.Perm c.flushed := by
  have hall : Inv U c ∧ Ownership c ∧ c.stored.Perm c.flushed := by
    refine invariant_along (I := fun c => Inv U c ∧ Ownership c ∧ c.stored.Perm c.flushed) ?_
      ⟨inv_start hnames, ownership_start nodeID, .nil⟩ (hsound.and hone) hrun
    rintro s l t ⟨hinv, howned, hexact⟩ ⟨hok, hone⟩ hstep
    exact ⟨inv_step hinv hok hstep, owned_step howned hinv hok hone hstep,
      exact_step hinv (howned.serial l) hexact hstep⟩
  exact hall.2.2

end Steps

end Shrimpd.Lsm.Nodes
