import Shrimpd.Lsm.ClusterSerial
import Mathlib.Algebra.Order.BigOperators.Group.Finset

/-!
# Agreement

Whatever faults and delays there were, the members can catch up with the log by
replication alone.  Once they have, each of them lists every active part with
the file its origin wrote, and after a garbage collection no others, so that a
query answers the same on all of them.
-/

namespace Shrimpd.Lsm.Nodes

open Shrimpd.Lib Shrimpd.Lib.Exec Shrimpd.Types Shrimpd.Block
open Shrimpd.Lsm.Replication hiding step Label Inv

section Agree

variable {ι : Type} {U : Unicode} {c : Cluster ι}

/-- Some member has the file of every active part. -/
theorem Inv.holder (h : Inv U c) {a : Bytes} (ha : a ∈ c.active) :
    ∃ i f, (c.members i).node.files a = some f ∧ c.ids a = some f := by
  obtain ⟨e, he, rfl⟩ := List.mem_map.mp (h.log.known a ha)
  obtain ⟨i, hi⟩ := h.origin e he
  have hm := h.member i
  have hfile : ((c.members i).node.files e.part.id).isSome = true := by
    rcases hm.own e he hi.symm ha with hlisted | ⟨q, hq, hid⟩
    · obtain ⟨p, hp, hid⟩ := List.mem_map.mp hlisted
      rw [← hid] at ha ⊢
      exact hm.held p hp ha
    · rw [← hid] at ha ⊢
      exact (hm.committed q hq).file ha
  obtain ⟨f, hf⟩ := Option.isSome_iff_exists.mp hfile
  exact ⟨i, f, hf, hm.copies _ f (Or.inl hf)⟩

/-- Every member has read the log, and no part of it waits. -/
structure Cluster.Settled (c : Cluster ι) : Prop where
  pointer : ∀ i, (c.members i).pointer = c.log.length
  pending : ∀ i, (c.members i).pending = []
  committed : ∀ i, (c.members i).committed = []

theorem Inv.listed_of_settled (h : Inv U c) (hsettled : c.Settled) (i : ι) {a : Bytes}
    (ha : a ∈ c.active) : a ∈ (c.members i).node.parts.map PartMeta.id := by
  obtain ⟨e, he, rfl⟩ := List.mem_map.mp (h.log.known a ha)
  have hm := h.member i
  by_cases hown : e.nodeID = (c.members i).node.nodeID
  · rcases hm.own e he hown ha with hlisted | ⟨q, hq, -⟩
    · exact hlisted
    · rw [hsettled.committed i] at hq
      exact absurd hq List.not_mem_nil
  · have hread : e ∈ c.log.take (c.members i).pointer := by
      rw [hsettled.pointer i, List.take_length]
      exact he
    rcases hm.read e hread hown ha with hlisted | ⟨d, hd, -⟩
    · exact hlisted
    · rw [hsettled.pending i] at hd
      exact absurd hd List.not_mem_nil

theorem Inv.file_of_settled (h : Inv U c) (hsettled : c.Settled) (i : ι) {a : Bytes}
    (ha : a ∈ c.active) : ∃ f, (c.members i).node.files a = some f ∧ c.ids a = some f := by
  obtain ⟨p, hp, rfl⟩ := List.mem_map.mp (h.listed_of_settled hsettled i ha)
  obtain ⟨f, hf⟩ := Option.isSome_iff_exists.mp ((h.member i).held p hp ha)
  exact ⟨f, hf, (h.member i).copies _ f (Or.inl hf)⟩

/-- The pass reads the directory and finds the metadata of inactive parts old. -/
structure Tidies (active : List Bytes) (pass : GCPass) : Prop where
  listed : pass.listed = true
  old : ∀ a, a ∉ active → pass.mtime (metaName a) ≤ pass.cutoff

/-- A garbage collection of a settled member leaves the active parts. -/
theorem Inv.listed_perm_active (h : Inv U c) (hsettled : c.Settled) (i : ι) {pass : GCPass}
    (hpass : Tidies c.active pass) :
    (((c.members i).node.runGC c.active pass).parts.map PartMeta.id).Perm c.active := by
  have hsafe : ∀ a ∈ c.active, Safe (c.members i).node c.active pass a :=
    fun a ha => ⟨Or.inl ha, Or.inl ha⟩
  have hm := (h.member i).collect h.log hsafe
  rw [List.perm_ext_iff_of_nodup hm.nodup h.log.nodup]
  intro a
  simp only [Node.runGC, hpass.listed, if_true, Node.reconcile, List.mem_map, List.mem_filter]
  constructor
  · rintro ⟨p, ⟨-, hkept⟩, rfl⟩
    by_contra hnot
    have hold := hpass.old _ hnot
    simp only [Node.gcKeeps, Bool.or_eq_true, List.contains_iff_mem, hnot, false_or,
      Bool.and_eq_true, decide_eq_true_eq] at hkept
    omega
  · intro ha
    obtain ⟨p, hp, rfl⟩ := List.mem_map.mp (h.listed_of_settled hsettled i ha)
    exact ⟨p, ⟨hp, gcKeeps_of_active ha⟩, rfl⟩

theorem Inv.content_of_settled (h : Inv U c) (hsettled : c.Settled) (i : ι) (pass : GCPass)
    {a : Bytes} (ha : a ∈ c.active) :
    ∃ f, ((c.members i).node.runGC c.active pass).content a = some f ∧ c.ids a = some f := by
  obtain ⟨f, hf, hids⟩ := h.file_of_settled hsettled i ha
  have hcontent : (c.members i).node.content a = some f := by
    rw [Node.content, hf]
    cases hfd : (c.members i).node.fds a with
    | none => rfl
    | some g =>
        rw [(h.member i).copies a g (Or.inr hfd)] at hids
        exact hids
  refine ⟨f, ?_, hids⟩
  rw [content_runGC ha (gcRemoves_of_active (gcID_dataName (h.log.named a f hids)) ha)]
  exact hcontent

theorem Inv.partsOk (h : Inv U c) (hsettled : c.Settled) (i : ι) {pass : GCPass}
    (hpass : Tidies c.active pass) : PartsOk U ((c.members i).node.runGC c.active pass) := by
  have hperm := h.listed_perm_active hsettled i hpass
  refine ⟨hperm.nodup_iff.mpr h.log.nodup, fun p hp => ?_⟩
  obtain ⟨f, hf, hids⟩ := h.content_of_settled hsettled i pass
    (hperm.mem_iff.mp (List.mem_map_of_mem hp))
  have hmem : p ∈ (c.members i).node.parts := by
    simp only [Node.runGC, hpass.listed, if_true, Node.reconcile] at hp
    exact (List.mem_filter.mp hp).1
  obtain ⟨g, hg, hdescribes, hsorted, hne⟩ := (h.member i).described p hmem
  rw [hids, Option.some.injEq] at hg
  subst hg
  exact ⟨f, hf, hdescribes, hsorted, hne⟩

end Agree

/-! ## Catching up -/

/-- A member lists what it has committed, follows the log, or tries a part again. -/
def CatchesUp {ι : Type} : Label ι → Prop
  | .publish _ _ => True
  | .apply _ _ _ => True
  | .retry _ _ _ _ _ => True
  | _ => False

/-- The steps that a member is behind. -/
def Member.behind (m : Member) (length : Nat) : Nat :=
  2 * (length - m.pointer) + m.pending.length + m.committed.length

section CatchUp

variable {ι : Type} [DecidableEq ι] {U : Unicode} {c : Cluster ι}

theorem length_setPending (pending : List PendingEntry) (d : PendingEntry) :
    (setPending pending d).length ≤ pending.length + 1 := by
  rw [setPending, List.length_append, List.length_singleton]
  exact Nat.add_le_add_right (List.length_filter_le _ _) 1

theorem length_dropPending {pending : List PendingEntry} {d : PendingEntry} (hd : d ∈ pending) :
    (dropPending pending [d.part.id]).length < pending.length := by
  refine List.length_filter_lt_length_iff_exists.mpr ⟨d, hd, ?_⟩
  simp

theorem length_pending_applyLogEntry (content : Bytes → PartFile) (s : State) (io : FetchIO)
    (e : LogEntry) :
    (applyLogEntry content U s io e).pending.length ≤ s.pending.length + 1 := by
  unfold applyLogEntry
  split_ifs
  · exact Nat.le_succ _
  rcases fetchPart content U s.node io e.part with ⟨n, _ | full⟩
  · exact length_setPending _ _
  · cases e.op with
    | put => exact Nat.le_succ _
    | merge => exact (List.length_filter_le _ _).trans (Nat.le_succ _)

/-- A part that is no longer active, or that is downloaded, is deferred no more. -/
theorem pending_retryPendingPart (content : Bytes → PartFile) {s : State} {io : FetchIO}
    {d : PendingEntry} (hio : d.part.id ∈ s.active → io = FetchIO.good) :
    (retryPendingPart content U s true io d).pending = dropPending s.pending [d.part.id] := by
  unfold retryPendingPart
  split_ifs with hgone
  · rfl
  · have hactive : d.part.id ∈ s.active := by simpa using hgone
    rw [hio hactive]
    rfl

/-- A member that is behind can take a step. -/
theorem Inv.catch_up_step (h : Inv U c) (i : ι) (hbehind : (c.members i).behind c.log.length ≠ 0) :
    ∃ l m, CatchesUp l ∧ step U c l = some (c.set i m) ∧
      m.behind c.log.length < (c.members i).behind c.log.length := by
  have hm := h.member i
  by_cases hcommitted : (c.members i).committed = []
  swap
  · -- list a committed part
    obtain ⟨q, rest, hq⟩ := List.exists_cons_of_ne_nil hcommitted
    refine ⟨.publish i 0, _, trivial, by simp only [step, hq, List.getElem?_cons_zero]; rfl, ?_⟩
    simp [Member.behind, hq]
  by_cases hpointer : (c.members i).pointer = c.log.length
  swap
  · -- read the next entry; without an answer its part is deferred
    have hlt : (c.members i).pointer < c.log.length := lt_of_le_of_ne hm.pointer hpointer
    refine ⟨.apply i i FetchIO.unreachable, _, trivial,
      by simp only [step, List.getElem?_eq_getElem hlt]; rfl, ?_⟩
    have hpending := length_pending_applyLogEntry (U := U) (c.served i) (c.replica i)
      (c.download i FetchIO.unreachable (c.log.get ⟨_, hlt⟩).part.id) (c.log.get ⟨_, hlt⟩)
    simp only [Member.behind, Cluster.replica, List.get_eq_getElem] at hpending ⊢
    omega
  · -- try a deferred part again, at a member that has its file
    have hpending : (c.members i).pending ≠ [] := by
      intro hnil
      apply hbehind
      simp [Member.behind, hnil, hcommitted, hpointer]
    obtain ⟨d, rest, hd⟩ := List.exists_cons_of_ne_nil hpending
    have hmem : d ∈ (c.members i).pending := by
      rw [hd]
      exact List.mem_cons_self
    obtain ⟨peer, hpeer⟩ : ∃ peer, d.part.id ∈ c.active →
        c.download peer FetchIO.good d.part.id = FetchIO.good := by
      by_cases hactive : d.part.id ∈ c.active
      · obtain ⟨peer, f, hf, -⟩ := h.holder hactive
        exact ⟨peer, fun _ => by simp [Cluster.download, hf, FetchIO.good]⟩
      · exact ⟨i, fun hmem => absurd hmem hactive⟩
    have hfind : (c.members i).pending.find? (fun x => x.part.id == d.part.id) = some d := by
      rw [hd, List.find?_cons_of_pos (by simp)]
    refine ⟨.retry i peer d.part.id true FetchIO.good, _, trivial,
      by simp only [step, hfind]; rfl, ?_⟩
    have hdropped := pending_retryPendingPart (U := U) (c.served peer) (s := c.replica i) hpeer
    have hless := length_dropPending hmem
    simp only [Member.behind, hdropped, pointer_retryPendingPart]
    simp only [Cluster.replica]
    omega

omit [DecidableEq ι] in
theorem settled_of_behind (h : ∀ i, (c.members i).behind c.log.length = 0)
    (hpointer : ∀ i, (c.members i).pointer ≤ c.log.length) : c.Settled := by
  have hzero : ∀ i, c.log.length - (c.members i).pointer = 0 ∧
      (c.members i).pending = [] ∧ (c.members i).committed = [] := by
    intro i
    have hi := h i
    simp only [Member.behind, Nat.add_eq_zero_iff, List.length_eq_zero_iff] at hi
    exact ⟨by omega, hi.1.2, hi.2⟩
  refine ⟨fun i => ?_, fun i => (hzero i).2.1, fun i => (hzero i).2.2⟩
  have hbehind := (hzero i).1
  have hle := hpointer i
  omega

/-- The members can settle without a new entry in the log. -/
theorem Inv.settles [Fintype ι] (h : Inv U c) :
    ∃ c', Reaches (step U) (fun _ l => CatchesUp l) c c' ∧ Inv U c' ∧ c'.Settled ∧
      c'.log = c.log ∧ c'.active = c.active := by
  induction hn : ∑ i, (c.members i).behind c.log.length using Nat.strong_induction_on
    generalizing c with
  | _ n ih =>
  by_cases hall : ∀ i, (c.members i).behind c.log.length = 0
  · exact ⟨c, .refl c, h, settled_of_behind hall fun i => (h.member i).pointer, rfl, rfl⟩
  obtain ⟨i, hi⟩ := not_forall.mp hall
  obtain ⟨l, m, hl, hstep, hless⟩ := h.catch_up_step i hi
  have hsound : Sound c l := by
    cases l <;> trivial
  have hinv := inv_step h hsound hstep
  have hsum : ∑ j, ((c.set i m).members j).behind c.log.length <
      ∑ j, (c.members j).behind c.log.length := by
    refine Finset.sum_lt_sum (fun j _ => ?_) ⟨i, Finset.mem_univ i, ?_⟩
    · by_cases hj : j = i
      · rw [hj, members_set_self]
        exact hless.le
      · rw [members_set_of_ne hj]
    · rw [members_set_self]
      exact hless
  obtain ⟨c', hreach, hinv', hsettled, hsame⟩ := ih _ (hn ▸ hsum) hinv rfl
  exact ⟨c', hreach.head hl hstep, hinv', hsettled, hsame⟩

end CatchUp

/-! ## A run of three members -/

def trioID (i : Fin 3) : Bytes := [110, 49 + UInt8.ofNat i]

theorem trioID_injective : Function.Injective trioID := by decide

/-- The first member flushes twice and merges both parts while the second one, which has not
reached its peer before, only has the first of them; the third one flushes a part that is
refused, and another one. -/
def trioRun : List (Label (Fin 3)) :=
  [.flush 0 [⟨3, ascii "c"⟩, ⟨1, ascii "a"⟩] (ascii "1-1-n1") CompactIO.good,
    .append 0 CompactIO.good, .apply 1 0 FetchIO.unreachable, .publish 0 0,
    .retry 1 0 (ascii "1-1-n1") true FetchIO.good,
    .flush 0 [⟨2, ascii "b"⟩] (ascii "2-2-n1") CompactIO.good,
    .flush 2 [⟨7, ascii "x"⟩] (ascii "3-1-n3") CompactIO.good,
    .append 0 CompactIO.good, .append 0 { CompactIO.good with append := .notCommitted },
    .publish 0 0, .compact 0 ⟨0, true, ascii "4-3-n1", CompactIO.good⟩,
    .flush 2 [⟨9, ascii "y"⟩] (ascii "5-2-n3") CompactIO.good,
    .append 1 CompactIO.good, .append 0 CompactIO.good,
    .publish 2 0, .publish 0 0,
    .apply 0 1 FetchIO.good, .apply 0 1 FetchIO.good, .apply 0 2 FetchIO.good,
    .apply 0 1 FetchIO.good,
    .apply 1 0 FetchIO.good, .apply 1 2 FetchIO.good, .apply 1 0 FetchIO.good,
    .apply 2 0 FetchIO.good, .apply 2 0 FetchIO.good, .apply 2 0 FetchIO.good,
    .apply 2 1 FetchIO.good]

def trio : Cluster (Fin 3) :=
  (exec (step Unicode.asciiOnly) (Cluster.start trioID) trioRun).getD (Cluster.start trioID)

-- The run is evaluated once, and its last state once in `trio_fields`.
theorem trioRun_taken :
    (exec (step Unicode.asciiOnly) (Cluster.start trioID) trioRun).isSome = true ∧
      Along (step Unicode.asciiOnly) Sound (Cluster.start trioID) trioRun ∧
      Along (step Unicode.asciiOnly) OneAtATime (Cluster.start trioID) trioRun := by
  decide +kernel

theorem trio_fields :
    (∀ i, (trio.members i).pointer = trio.log.length ∧ (trio.members i).pending = [] ∧
      (trio.members i).committed = []) ∧
    trio.active = [ascii "5-2-n3", ascii "4-3-n1"] ∧
    trio.flushed = [⟨3, ascii "c"⟩, ⟨1, ascii "a"⟩, ⟨2, ascii "b"⟩, ⟨9, ascii "y"⟩] := by
  decide +kernel

theorem exec_trioRun :
    exec (step Unicode.asciiOnly) (Cluster.start trioID) trioRun = some trio :=
  exec_eq_getD trioRun_taken.1

section Main

variable {ι : Type} [DecidableEq ι] {U : Unicode} {nodeID : ι → Bytes} {ls : List (Label ι)}
  {c : Cluster ι}

/-- At every moment the active parts are on disk, each at some member, and hold the entries of
every committed flush; they hold nothing twice if no node runs two compactions at once. -/
theorem committed_entries_on_disk (hnames : Function.Injective nodeID)
    (hsound : Along (step U) Sound (Cluster.start nodeID) ls)
    (hrun : exec (step U) (Cluster.start nodeID) ls = some c) :
    ∃ fs : List PartFile,
      List.Forall₂ (fun a f => ∃ i, (c.members i).node.files a = some f) c.active fs ∧
      c.flushed.Subperm (fs.flatMap PartFile.rows) ∧
      (Along (step U) OneAtATime (Cluster.start nodeID) ls →
        (fs.flatMap PartFile.rows).Perm c.flushed) := by
  have hinv := inv_exec hnames hsound hrun
  have hrows : (c.active.map fun a => (c.ids a).getD ⟨[]⟩).flatMap PartFile.rows = c.stored := by
    rw [List.flatMap_map]
    apply List.flatMap_congr
    intro a ha
    obtain ⟨-, f, -, hids⟩ := hinv.holder ha
    rw [rowsOf, hids]
    rfl
  refine ⟨c.active.map fun a => (c.ids a).getD ⟨[]⟩, ?_, ?_, fun hone => ?_⟩
  · rw [List.forall₂_map_right_iff, List.forall₂_same]
    intro a ha
    obtain ⟨i, f, hf, hids⟩ := hinv.holder ha
    rw [hids]
    exact ⟨i, hf⟩
  · rw [hrows]
    exact flushed_subperm_stored hnames hsound hrun
  · rw [hrows]
    exact stored_perm_flushed hnames hsound hone hrun

theorem committed_entries_on_disk_trio :
    trio.active.length = 2 ∧ ∃ fs : List PartFile,
      List.Forall₂ (fun a f => ∃ i, (trio.members i).node.files a = some f) trio.active fs ∧
        (fs.flatMap PartFile.rows).Perm
          [⟨3, ascii "c"⟩, ⟨1, ascii "a"⟩, ⟨2, ascii "b"⟩, ⟨9, ascii "y"⟩] := by
  obtain ⟨-, hsound, hone⟩ := trioRun_taken
  obtain ⟨-, hactive, hflushed⟩ := trio_fields
  obtain ⟨fs, hfiles, -, hexact⟩ :=
    committed_entries_on_disk trioID_injective hsound exec_trioRun
  exact ⟨by rw [hactive]; rfl, fs, hfiles, hflushed ▸ hexact hone⟩

/-- From every state that can come about, listing, following the log and retrying are enough
to bring all members up to the log as it is. -/
theorem members_can_settle [Fintype ι] (hnames : Function.Injective nodeID)
    (hsound : Along (step U) Sound (Cluster.start nodeID) ls)
    (hrun : exec (step U) (Cluster.start nodeID) ls = some c) :
    ∃ c', Reaches (step U) (fun _ l => CatchesUp l) c c' ∧ c'.Settled ∧ c'.log = c.log ∧
      c'.active = c.active := by
  obtain ⟨c', hreach, -, hsettled, hsame⟩ := (inv_exec hnames hsound hrun).settles
  exact ⟨c', hreach, hsettled, hsame⟩

/-- Before its last twelve steps the run has two members behind. -/
theorem members_can_settle_trio :
    ∃ c c', exec (step Unicode.asciiOnly) (Cluster.start trioID) (trioRun.take 15) = some c ∧
      (c.members 1).pointer = 1 ∧ (c.members 2).pointer = 0 ∧
      Reaches (step Unicode.asciiOnly) (fun _ l => CatchesUp l) c c' ∧ c'.Settled := by
  have hrun : exec (step Unicode.asciiOnly) (Cluster.start trioID) (trioRun.take 15) =
      some ((exec (step Unicode.asciiOnly) (Cluster.start trioID) (trioRun.take 15)).getD
        (Cluster.start trioID)) := exec_eq_getD (by decide +kernel)
  obtain ⟨c', hreach, hsettled, -⟩ :=
    members_can_settle trioID_injective (by decide +kernel) hrun
  exact ⟨_, c', hrun, by decide +kernel, by decide +kernel, hreach, hsettled⟩

end Main

end Shrimpd.Lsm.Nodes
