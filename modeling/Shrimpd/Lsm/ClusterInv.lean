import Shrimpd.Lsm.ClusterMember

/-!
# The invariant of the cluster

Every step of the cluster keeps the log, the parts that wait for their
transaction, and each of its members in order.
-/

namespace Shrimpd.Lsm.Nodes

open Shrimpd.Lib Shrimpd.Lib.Exec Shrimpd.Types Shrimpd.Block
open Shrimpd.Lsm.Replication hiding step Label Inv

/-! ## Parts that are still to be committed -/

section Prepared

variable {U : Unicode} {ids ids' : Bytes → Option PartFile} {log : List LogEntry}
  {active : List Bytes} {n : Node} {q : Publication}

theorem LogOk.flatMap_rowsOf (h : LogOk ids log active) {old : List Bytes}
    (hold : ∀ a ∈ old, a ∈ log.map fun e => e.part.id)
    (hids : ∀ a f, ids a = some f → ids' a = some f) :
    old.flatMap (rowsOf ids') = old.flatMap (rowsOf ids) := by
  apply List.flatMap_congr
  intro a ha
  obtain ⟨f, hf⟩ := h.mem_ids (hold a ha)
  rw [rowsOf, rowsOf, hf, hids a f hf]

theorem PreparedOk.mono (h : PreparedOk U ids log n q) (hlog : LogOk ids log active)
    (hids : ∀ a f, ids a = some f → ids' a = some f) : PreparedOk U ids' log n q := by
  refine ⟨h.new, h.file, h.described.mono hids, h.put, h.oldIn, h.nodup, ?_⟩
  rw [h.described.rows_eq hids, hlog.flatMap_rowsOf h.oldIn hids]
  exact h.rows

end Prepared

/-! ## Steps of the cluster -/

/-- What the environment has to grant: an error of `AppendLog` means that nothing was
committed, and a pass finds no part too old that was active only after it had asked, or whose
transaction is still to run. -/
def Sound {ι : Type} (c : Cluster ι) : Label ι → Prop
  | .append _ io => io.append ≠ .committedError
  | .collect i seen pass =>
      (∀ a ∈ c.active, Safe (c.members i).node seen pass a) ∧
        ∀ x ∈ c.prepared, x.1 = i → Safe (c.members i).node seen pass x.2.part.id
  | _ => True

instance decidableSound {ι : Type} [DecidableEq ι] (c : Cluster ι) : ∀ l, Decidable (Sound c l)
  | .append _ _ => inferInstanceAs (Decidable (_ ≠ _))
  | .collect _ _ _ => inferInstanceAs (Decidable (_ ∧ ∀ x ∈ c.prepared, _))
  | .flush .. | .compact .. | .publish .. | .apply .. | .retry .. => isTrue trivial

section Steps

variable {ι : Type} [DecidableEq ι] {U : Unicode} {c : Cluster ι} {i : ι}

@[simp] theorem members_set_self (c : Cluster ι) (i : ι) (m : Member) :
    (c.set i m).members i = m :=
  Function.update_self _ _ _

theorem members_set_of_ne {j : ι} (h : j ≠ i) (c : Cluster ι) (m : Member) :
    (c.set i m).members j = c.members j :=
  Function.update_of_ne h _ _

theorem nodeID_set {m : Member} (hm : m.node.nodeID = (c.members i).node.nodeID) (j : ι) :
    ((c.set i m).members j).node.nodeID = (c.members j).node.nodeID := by
  by_cases hj : j = i
  · rw [hj, members_set_self, hm]
  · rw [members_set_of_ne hj]

theorem Inv.names_set {m : Member} (h : Inv U c)
    (hm : m.node.nodeID = (c.members i).node.nodeID) :
    Function.Injective fun j => ((c.set i m).members j).node.nodeID := by
  simp only [nodeID_set hm]
  exact h.names

theorem Inv.origin_set {m : Member} (h : Inv U c)
    (hm : m.node.nodeID = (c.members i).node.nodeID) :
    ∀ e ∈ c.log, ∃ j, ((c.set i m).members j).node.nodeID = e.nodeID := by
  simp only [nodeID_set hm]
  exact h.origin

theorem member_set {P : Member → Prop} {m : Member} (hm : P m)
    (h : ∀ j, j ≠ i → P (c.members j)) (j : ι) : P ((c.set i m).members j) := by
  by_cases hj : j = i
  · rw [hj, members_set_self]
    exact hm
  · rw [members_set_of_ne hj]
    exact h j hj

/-- A step of one member that does not touch the files of its prepared parts. -/
theorem prepared_set {ids : Bytes → Option PartFile} {log : List LogEntry}
    {prepared : List (ι × Publication)} {m : Member}
    (h : ∀ x ∈ prepared, PreparedOk U ids log (c.members x.1).node x.2)
    (hfiles : ∀ x ∈ prepared, x.1 = i →
      m.node.files x.2.part.id = (c.members i).node.files x.2.part.id) :
    ∀ x ∈ prepared, PreparedOk U ids log ((c.set i m).members x.1).node x.2 := by
  intro x hx
  have hok := h x hx
  by_cases hi : x.1 = i
  · rw [hi] at hok ⊢
    rw [members_set_self]
    refine { hok with file := ?_ }
    rw [hfiles x hx hi]
    exact hok.file
  · rw [members_set_of_ne hi]
    exact hok

/-- A step of one member that writes nothing outside the log. -/
theorem Inv.set {m : Member} (h : Inv U c) (hm : MemberOk U c.ids c.log c.active m)
    (hs : Spares c.log (c.members i).node m.node) : Inv U (c.set i m) where
  names := h.names_set hs.nodeID
  origin := h.origin_set hs.nodeID
  log := h.log
  prepared := prepared_set h.prepared fun x hx _ => hs.files _ (h.prepared x hx).new
  preparedOnce := h.preparedOnce
  member := member_set hm fun j _ => h.member j

/-- A call has written the files of a new part. -/
theorem Inv.prepare (h : Inv U c) {id : Bytes} (hid : c.NewID id) {op : LogOp}
    {entries : List Entry} {old : List Bytes} {p : Prepared}
    (hp : Wrote U c.ids (c.members i).node id entries old p) (hput : op = .put → old = [])
    (hold : ∀ a ∈ old, a ∈ c.log.map fun e => e.part.id) (hnodup : old.Nodup) :
    Inv U (c.prepare i op entries id p) := by
  obtain ⟨hsame, hfds⟩ := hp.sameBut
  have hnew := h.log.ids_ne_none hid.1
  generalize hids : Function.update c.ids id
    (some (((preparedNode p).files id).getD ⟨[]⟩)) = ids'
  have hmono : ∀ a f, c.ids a = some f → ids' a = some f := by
    intro a f hf
    have ha : a ≠ id := fun heq => by
      rw [heq, hid.1] at hf
      exact absurd hf (by simp)
    rw [← hids, Function.update_of_ne ha]
    exact hf
  have hother : ∀ a, a ≠ id → ids' a = c.ids a := by
    intro a ha
    rw [← hids, Function.update_of_ne ha]
  have hfile : ∀ f, (preparedNode p).files id = some f → ids' id = some f := by
    intro f hf
    rw [← hids, Function.update_self, hf]
    rfl
  have htouch : Touched ids' (c.members i).node (preparedNode p) id := by
    refine ⟨hsame.nodeID, hsame.files, (h.member i).copies.of_sameBut hsame hother ?_⟩
    rintro f (hf | hf)
    · exact hfile f hf
    · rw [hfds, ((h.member i).copies.unused hid.1).2] at hf
      exact absurd hf (by simp)
  have hmember : ∀ j, MemberOk U ids' c.log c.active
      ((c.setNode i (preparedNode p)).members j) := by
    refine member_set ((h.member i).touch htouch hsame.parts
      ((h.member i).absent_of_new hnew) hmono) fun j _ => ?_
    have hunchanged : Touched ids' (c.members j).node (c.members j).node id :=
      ⟨rfl, fun _ _ => rfl, fun a f hf => hmono a f ((h.member j).copies a f hf)⟩
    exact (h.member j).touch hunchanged rfl ((h.member j).absent_of_new hnew) hmono
  -- no part that was written before has this ID
  have hwas : ∀ x ∈ c.prepared, x.2.part.id ≠ id := by
    intro x hx heq
    obtain ⟨f, hf, -⟩ := (h.prepared x hx).described
    rw [heq, hid.1] at hf
    exact absurd hf (by simp)
  have hprepared : ∀ x ∈ c.prepared, PreparedOk U ids' c.log
      ((c.setNode i (preparedNode p)).members x.1).node x.2 :=
    prepared_set (fun x hx => (h.prepared x hx).mono h.log hmono)
      fun x hx _ => hsame.files _ (hwas x hx)
  have hlog : LogOk ids' c.log c.active := by
    refine ⟨h.log.once, fun e he => (h.log.outlined e he).mono hmono, h.log.put, h.log.oldIn,
      h.log.oldOut, h.log.nodup, h.log.known, fun a f hf => ?_⟩
    by_cases ha : a = id
    · exact ha ▸ hid.2
    · rw [hother a ha] at hf
      exact h.log.named a f hf
  have hnames := h.names_set (m := { c.members i with node := preparedNode p }) hsame.nodeID
  have horigin := h.origin_set (m := { c.members i with node := preparedNode p }) hsame.nodeID
  cases hp with
  | done same fds =>
      rw [Cluster.prepare, hids]
      exact ⟨hnames, horigin, hlog, hprepared, h.preparedOnce, hmember⟩
  | @ready n' part f same fds file name owner describes sorted nonempty rows =>
      have hf := hfile f file
      rw [← name] at hf
      have hrows : (rowsOf ids' part.id).Perm (entries ++ old.flatMap (rowsOf ids')) := by
        rw [h.log.flatMap_rowsOf hold hmono, rowsOf, hf]
        exact rows
      have hlast : PreparedOk U ids' c.log
          ((c.setNode i n').members i).node ⟨op, part, old, entries⟩ := by
        rw [Cluster.setNode, members_set_self]
        refine ⟨by rw [name]; exact hnew, ?_, ⟨f, hf, describes, sorted, nonempty⟩, hput, hold,
          hnodup, hrows⟩
        rw [name, file]
        rfl
      rw [Cluster.prepare, hids]
      refine ⟨hnames, horigin, hlog, ?_, ?_, hmember⟩
      · exact List.forall_mem_append.mpr ⟨hprepared, List.forall_mem_singleton.mpr hlast⟩
      · refine nodup_map_concat.mpr ⟨fun hmem => ?_, h.preparedOnce⟩
        obtain ⟨x, hx, heq⟩ := List.mem_map.mp hmem
        exact hwas x hx (heq.trans name)

/-- A transaction has gone through. -/
theorem Inv.commit (h : Inv U c) {k : Nat} {q : Publication} (hk : c.prepared[k]? = some (i, q)) :
    Inv U ((Cluster.commit { c with prepared := c.prepared.eraseIdx k } i q).set i
      { c.members i with committed := (c.members i).committed ++ [q] }) := by
  have hq : PreparedOk U c.ids c.log (c.members i).node q := h.prepared _ (List.mem_of_getElem? hk)
  generalize he : LogEntry.mk q.op (etcdPart q.part) q.oldParts (c.members i).node.nodeID = e
  have hid : e.part.id = q.part.id := by rw [← he]; rfl
  have hnew : e.part.id ∉ c.log.map fun e => e.part.id := by
    rw [hid]
    exact hq.new
  have hold : e.oldParts = q.oldParts := by rw [← he]
  have hoffer : CommittedOk U c.ids (c.log ++ [e]) (commitPart c.active e.part.id e.oldParts)
      (c.members i).node q := by
    refine ⟨⟨e, by simp, by rw [← he], hid, hold⟩, ?_, hq.described, fun _ => hq.file⟩
    exact ((h.member i).absent_of_new hq.new).listed
  have hlog : LogOk c.ids (c.log ++ [e]) (commitPart c.active e.part.id e.oldParts) := by
    apply h.log.append hnew
    · obtain ⟨f, hf, hdescribes, hrest⟩ := hq.described
      rw [← he]
      exact ⟨f, hf, outlines_etcdPart hdescribes, hrest⟩
    · rw [← he]
      exact hq.put
    · rw [hold]
      exact hq.oldIn
  have herase : ∀ x, x ∈ c.prepared.eraseIdx k ↔
      x ∈ c.prepared ∧ x.2.part.id ≠ q.part.id := fun x =>
    mem_eraseIdx_of_nodup h.preparedOnce hk
  have hself : MemberOk U c.ids (c.log ++ [e]) (commitPart c.active e.part.id e.oldParts)
      { c.members i with committed := (c.members i).committed ++ [q] } := by
    refine (h.member i).append hnew (fun x hx => List.mem_append_left _ hx) ?_ ?_ ?_
    · intro x hx
      refine (List.mem_append.mp hx).imp_right fun hx => ?_
      rw [List.mem_singleton.mp hx]
      exact hoffer
    · exact fun _ => ⟨q, by simp, hid.symm⟩
    · refine nodup_map_concat.mpr ⟨fun hmem => ?_, (h.member i).distinct⟩
      obtain ⟨x, hx, heq⟩ := List.mem_map.mp hmem
      exact ((h.member i).absent_of_new hq.new).committed x hx heq
  have hother : ∀ j, j ≠ i → MemberOk U c.ids (c.log ++ [e])
      (commitPart c.active e.part.id e.oldParts) (c.members j) := by
    intro j hj
    refine (h.member j).append hnew (fun x hx => hx) (fun x hx => Or.inl hx) ?_
      (h.member j).distinct
    intro heq
    rw [← he] at heq
    exact absurd (h.names heq).symm hj
  have hprepared : ∀ x ∈ c.prepared.eraseIdx k,
      PreparedOk U c.ids (c.log ++ [e]) (c.members x.1).node x.2 := by
    intro x hx
    obtain ⟨hx, hne⟩ := (herase x).mp hx
    have hok := h.prepared x hx
    refine ⟨?_, hok.file, hok.described, hok.put, fun a ha => ?_, hok.nodup, hok.rows⟩
    · rw [List.map_append, List.map_singleton, List.mem_append, List.mem_singleton, hid]
      rintro (hmem | heq)
      · exact hok.new hmem
      · exact hne heq
    · rw [List.map_append]
      exact List.mem_append_left _ (hok.oldIn a ha)
  unfold Cluster.commit
  rw [he, ← hid, ← hold]
  refine ⟨h.names_set rfl, ?_, hlog, prepared_set hprepared fun _ _ _ => rfl,
    h.preparedOnce.sublist ((List.eraseIdx_sublist _ _).map _), member_set hself hother⟩
  refine List.forall_mem_append.mpr ⟨h.origin_set rfl, List.forall_mem_singleton.mpr ⟨i, ?_⟩⟩
  rw [members_set_self, ← he]

/-- A transaction has failed, and the files are removed. -/
theorem Inv.withdraw (h : Inv U c) {k : Nat} {q : Publication}
    (hk : c.prepared[k]? = some (i, q)) (io : CompactIO) :
    Inv U (Cluster.withdraw { c with prepared := c.prepared.eraseIdx k } i io q) := by
  have hq : PreparedOk U c.ids c.log (c.members i).node q := h.prepared _ (List.mem_of_getElem? hk)
  have herase : ∀ x, x ∈ c.prepared.eraseIdx k ↔
      x ∈ c.prepared ∧ x.2.part.id ≠ q.part.id := fun x =>
    mem_eraseIdx_of_nodup h.preparedOnce hk
  have htouch := touched_abandon (h.member i).copies io q.part.id
  have hparts : ((c.members i).node.abandon io q.part.id).parts = (c.members i).node.parts :=
    (sameBut_abandon _ io _).parts
  exact ⟨h.names_set htouch.nodeID, h.origin_set htouch.nodeID, h.log,
    prepared_set (fun x hx => h.prepared x ((herase x).mp hx).1)
      fun x hx _ => htouch.files _ ((herase x).mp hx).2,
    h.preparedOnce.sublist ((List.eraseIdx_sublist _ _).map _),
    member_set ((h.member i).touch htouch hparts ((h.member i).absent_of_new hq.new)
      fun _ _ hf => hf) fun j _ => h.member j⟩

omit [DecidableEq ι] in
/-- What a download brings is on record. -/
theorem Inv.served (h : Inv U c) (peer : ι) (io : FetchIO) (id : Bytes)
    (hio : (c.download peer io id).fetched = true) : c.ids id = some (c.served peer id) := by
  rw [Cluster.download, Bool.and_eq_true] at hio
  obtain ⟨f, hf⟩ := Option.isSome_iff_exists.mp hio.2
  rw [Cluster.served, hf]
  exact (h.member peer).copies id f (Or.inl hf)

theorem Inv.collect (h : Inv U c) {seen : List Bytes} {pass : GCPass}
    (hsound : Sound c (.collect i seen pass)) :
    Inv U (c.setNode i ((c.members i).node.runGC seen pass)) := by
  have hname := nodeID_runGC (c.members i).node seen pass
  refine ⟨h.names_set hname, h.origin_set hname, h.log, prepared_set h.prepared ?_,
    h.preparedOnce, member_set ((h.member i).collect h.log hsound.1) fun j _ => h.member j⟩
  intro x hx hi
  obtain ⟨f, hf, -⟩ := (h.prepared x hx).described
  exact (hsound.2 x hx hi).files_eq (h.log.named _ f hf)

theorem inv_step {c' : Cluster ι} {l : Label ι} (h : Inv U c) (hsound : Sound c l)
    (hstep : step U c l = some c') : Inv U c' := by
  cases stepped hstep with
  | flush new => exact h.prepare new (wrote_flush _ _) (fun _ => rfl) (by simp) List.nodup_nil
  | @compact i call new =>
      have hm := h.member i
      have hnew := (hm.absent_of_new (h.log.ids_ne_none new.1)).listed
      refine h.prepare new (wrote_compact hm.copies hnew hm.described) (by simp) ?_
        (nodup_selectParts hm.nodup _ _)
      intro a ha
      obtain ⟨p, hp, rfl⟩ := List.mem_map.mp ha
      exact hm.mem_log (mem_selectParts hp).1
  | commit found => exact h.commit found
  | withdraw found => exact h.withdraw found _
  | lost _ failed => exact absurd failed hsound
  | publish found =>
      obtain ⟨hm, hs⟩ := (h.member _).publish h.log found
      exact h.set hm hs
  | @apply i peer io e found =>
      obtain ⟨hm, hs⟩ := (h.member i).applyEntry h.log rfl found (h.served peer io _)
      exact h.set hm hs.toSpares
  | @retry i peer asked io d found =>
      obtain ⟨hm, hs⟩ := (h.member i).retryPart h.log asked rfl found (h.served peer io _)
      exact h.set hm hs.toSpares
  | collect => exact h.collect hsound

end Steps

end Shrimpd.Lsm.Nodes
