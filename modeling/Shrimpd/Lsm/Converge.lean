import Shrimpd.Lsm.Replication
import Shrimpd.Lib.Changes

/-!
# Convergence of a replica

When a replica has read the whole log and has no deferred part left, it should
list exactly the parts that are active in etcd.  A deferred merge carries the
removal of the parts it replaces.  When it is given up because a later merge
supersedes it, that removal is lost unless somebody else makes it up; where it
never is lost, the replica converges.
-/

namespace Shrimpd.Lsm.Replication

open Shrimpd.Lib Shrimpd.Lib.Exec Shrimpd.Types Shrimpd.Block

/-! ## The meaning of the log -/

/-- A flush adds its part; a merge removes the old parts and adds the merged one. -/
def foldEntry (active : List Bytes) (e : LogEntry) : List Bytes :=
  match e.op with
  | .put => commitPart active e.part.id []
  | .merge => commitPart active e.part.id e.oldParts

def foldLog (log : List LogEntry) : List Bytes := log.foldl foldEntry []

def LogEntry.change (e : LogEntry) : Change Bytes := ⟨e.part.id, e.oldParts⟩

theorem foldEntry_eq {e : LogEntry} (hput : e.op = .put → e.oldParts = [])
    (active : List Bytes) : foldEntry active e = commitPart active e.part.id e.oldParts := by
  unfold foldEntry
  cases hop : e.op with
  | put => simp only [hput hop]
  | merge => rfl

theorem mem_foldLog {log : List LogEntry} (h : ∀ e ∈ log, e.op = .put → e.oldParts = [])
    {a : Bytes} : a ∈ foldLog log ↔ a ∈ replay (log.map LogEntry.change) := by
  induction log using List.reverseRecOn generalizing a with
  | nil => simp [foldLog]
  | append_singleton log e ih =>
      have hlog : ∀ e ∈ log, e.op = .put → e.oldParts = [] :=
        fun x hx => h x (List.mem_append_left _ hx)
      rw [foldLog, List.foldl_concat, foldEntry_eq (h e (by simp)), mem_commitPart,
        List.map_append, List.map_singleton, replay_concat, Change.mem_apply, ← ih hlog]
      unfold LogEntry.change foldLog
      grind

theorem nodup_commitPart {active : List Bytes} (h : active.Nodup) (id : Bytes)
    (oldIDs : List Bytes) : (commitPart active id oldIDs).Nodup := by
  rw [commitPart, ← List.concat_eq_append, List.nodup_concat]
  exact ⟨by simp, h.filter _⟩

theorem nodup_foldLog (log : List LogEntry) : (foldLog log).Nodup := by
  induction log using List.reverseRecOn with
  | nil => exact List.nodup_nil
  | append_singleton log e ih =>
      rw [foldLog, List.foldl_concat, foldEntry]
      cases e.op with
      | put => exact nodup_commitPart ih _ _
      | merge => exact nodup_commitPart ih _ _

/-! ## Runs -/

def State.empty (nodeID : Bytes) : State :=
  ⟨⟨nodeID, [], fun _ => none, fun _ => none, fun _ => none⟩, [], [], 0, []⟩

/-- The parts that are left by the log entries the replica has read. -/
def State.read (s : State) : Set Bytes := replay ((s.log.take s.pointer).map LogEntry.change)

def State.listed (s : State) : List Bytes := s.node.parts.map PartMeta.id

/-- Some deferred merge is going to remove the part. -/
def Removes (pending : List PendingEntry) (a : Bytes) : Prop := ∃ d ∈ pending, a ∈ d.oldParts

instance (pending : List PendingEntry) (a : Bytes) : Decidable (Removes pending a) :=
  inferInstanceAs (Decidable (∃ d ∈ pending, _))

/-- Other nodes write the log, and every part has an ID of its own. -/
def OthersLog (s : State) : Label → Prop
  | .append e => e.nodeID ≠ s.node.nodeID ∧ e.change.NewIn (s.log.map LogEntry.change)
  | _ => True

instance (s : State) : ∀ l, Decidable (OthersLog s l)
  | .append _ => inferInstanceAs (Decidable (_ ∧ _))
  | .apply _ => inferInstanceAs (Decidable True)
  | .retry _ _ _ => inferInstanceAs (Decidable True)
  | .collect _ => inferInstanceAs (Decidable True)

/-- Each listed part that `d` replaces is among `ids`, or one of the others replaces it. -/
def Relieves (s : State) (others : List PendingEntry) (ids : List Bytes) (d : PendingEntry) : Prop :=
  ∀ a ∈ d.oldParts, a ∈ s.listed → a ∈ ids ∨ Removes others a

instance (s : State) (others : List PendingEntry) (ids : List Bytes) (d : PendingEntry) :
    Decidable (Relieves s others ids d) :=
  inferInstanceAs (Decidable (∀ a ∈ d.oldParts, a ∈ s.listed → _))

section Runs

variable (content : Bytes → PartFile) (U : Unicode)

/-- A deferred merge is given up only when each listed part it replaces is also replaced by
the entry being applied or by another deferred merge; and a part that etcd could not be asked
about is published only if it is not superseded yet or a deferred merge replaces it. -/
def RemovalsKept (s : State) : Label → Prop
  | .append _ => True
  | .apply io => ∀ e ∈ s.log[s.pointer]?, downloads content U s.node io e.part = true →
      ∀ d ∈ s.pending, d.part.id ∈ e.oldParts →
        Relieves s (dropPending s.pending e.oldParts) e.oldParts d
  | .retry id asked io => ∀ d ∈ s.pending, d.part.id = id →
      if asked then id ∉ s.active → Relieves s (dropPending s.pending [id]) [] d
      else downloads content U s.node io d.part = true →
        id ∈ foldLog (s.log.take s.pointer) ∨ Removes (dropPending s.pending [id]) id
  | .collect _ => True

instance (s : State) : ∀ l, Decidable (RemovalsKept content U s l)
  | .append _ => inferInstanceAs (Decidable True)
  | .apply _ => inferInstanceAs (Decidable (∀ e ∈ s.log[s.pointer]?, _ → ∀ d ∈ s.pending, _ → _))
  | .retry id _ _ => inferInstanceAs (Decidable (∀ d ∈ s.pending, d.part.id = id → ite _ _ _))
  | .collect _ => inferInstanceAs (Decidable True)

end Runs

/-- What a replica knows of the log while it lags behind. -/
structure Tracks (content : Bytes → PartFile) (s : State) : Prop where
  log : ∀ e ∈ s.log, e.WellFormed content
  others : ∀ e ∈ s.log, e.nodeID ≠ s.node.nodeID
  pointer : s.pointer ≤ s.log.length
  fresh : FreshLog (s.log.map LogEntry.change)
  active : s.active = foldLog s.log
  unique : (s.pending.map fun d => d.part.id).Nodup
  deferred : ∀ d ∈ s.pending, ∃ e ∈ s.log.take s.pointer, e.change = ⟨d.part.id, d.oldParts⟩
  present : ∀ a ∈ s.read, a ∈ s.active → a ∈ s.listed ∨ ∃ d ∈ s.pending, d.part.id = a
  removed : ∀ a ∈ s.listed, a ∈ s.read ∨ Removes s.pending a

section Tracking

variable {content : Bytes → PartFile} {U : Unicode} {s t : State} {e : LogEntry}
  {d : PendingEntry} {a : Bytes}

theorem mem_dropPending {pending : List PendingEntry} {ids : List Bytes} :
    d ∈ dropPending pending ids ↔ d ∈ pending ∧ d.part.id ∉ ids := by
  simp [dropPending]

theorem mem_setPending {pending : List PendingEntry} {p : PendingEntry} :
    d ∈ setPending pending p ↔ d ∈ pending ∧ d.part.id ≠ p.part.id ∨ d = p := by
  simp [setPending]

theorem nodup_dropPending {pending : List PendingEntry}
    (h : (pending.map fun d => d.part.id).Nodup) (ids : List Bytes) :
    ((dropPending pending ids).map fun d => d.part.id).Nodup :=
  h.sublist (List.filter_sublist.map _)

theorem nodup_setPending {pending : List PendingEntry}
    (h : (pending.map fun d => d.part.id).Nodup) (p : PendingEntry) :
    ((setPending pending p).map fun d => d.part.id).Nodup := by
  rw [setPending, List.map_append, List.map_singleton, ← List.concat_eq_append,
    List.nodup_concat]
  refine ⟨?_, h.sublist (List.filter_sublist.map _)⟩
  simp

theorem Tracks.fresh_read (h : Tracks content s) :
    FreshLog ((s.log.take s.pointer).map LogEntry.change) := by
  have hlog := h.fresh
  rw [← List.take_append_drop s.pointer s.log, List.map_append] at hlog
  exact hlog.of_append

theorem Tracks.puts (h : Tracks content s) : ∀ e ∈ s.log, e.op = .put → e.oldParts = [] :=
  fun e he => (h.log e he).1

theorem Tracks.mem_active (h : Tracks content s) :
    a ∈ s.active ↔ a ∈ replay (s.log.map LogEntry.change) := by
  rw [h.active, mem_foldLog h.puts]

theorem Tracks.mem_foldLog_take (h : Tracks content s) :
    a ∈ foldLog (s.log.take s.pointer) ↔ a ∈ s.read :=
  mem_foldLog fun e he => h.puts e (List.mem_of_mem_take he)

theorem Tracks.not_read (h : Tracks content s) (hd : d ∈ s.pending) (ha : a ∈ d.oldParts) :
    a ∉ s.read := by
  obtain ⟨e, he, hchange⟩ := h.deferred d hd
  apply h.fresh_read.not_mem_replay (List.mem_map_of_mem he)
  rw [hchange]
  exact ha

/-- A deferred part that is still active has not been superseded in what was read. -/
theorem Tracks.read_of_active (h : Tracks content s) (hd : d ∈ s.pending)
    (hactive : d.part.id ∈ s.active) : d.part.id ∈ s.read := by
  obtain ⟨e, he, hchange⟩ := h.deferred d hd
  have hlog := h.fresh
  rw [h.mem_active] at hactive
  rw [← List.take_append_drop s.pointer s.log, List.map_append] at hlog hactive
  apply hlog.mem_replay_of_append ?_ hactive
  exact ⟨e.change, List.mem_map_of_mem he, by rw [hchange]⟩

theorem Tracks.eq_of_id (h : Tracks content s) {d' : PendingEntry} (hd : d ∈ s.pending)
    (hd' : d' ∈ s.pending) (hid : d.part.id = d'.part.id) : d = d' :=
  List.inj_on_of_nodup_map h.unique hd hd' hid

theorem take_succ_of_getElem? (he : s.log[s.pointer]? = some e) :
    s.log.take (s.pointer + 1) = s.log.take s.pointer ++ [e] := by
  rw [List.take_add_one, he]
  rfl

theorem read_succ (he : s.log[s.pointer]? = some e) :
    replay ((s.log.take (s.pointer + 1)).map LogEntry.change) = e.change.apply s.read := by
  rw [take_succ_of_getElem? he, List.map_append, List.map_singleton, replay_concat]
  rfl

/-- The next entry is new in what was read. -/
theorem Tracks.newIn (h : Tracks content s) (he : s.log[s.pointer]? = some e) :
    e.change.NewIn ((s.log.take s.pointer).map LogEntry.change) := by
  have hlog := h.fresh
  rw [← List.take_append_drop (s.pointer + 1) s.log, List.map_append] at hlog
  have hread := hlog.of_append
  rw [take_succ_of_getElem? he, List.map_append, List.map_singleton] at hread
  exact hread.of_concat.2

theorem tracks_empty (nodeID : Bytes) : Tracks content (State.empty nodeID) where
  log := nofun
  others := nofun
  pointer := le_rfl
  fresh := .nil
  active := rfl
  unique := List.nodup_nil
  deferred := nofun
  present := by
    intro a ha
    exact absurd ha (Set.notMem_empty a)
  removed := nofun

theorem Tracks.append (h : Tracks content s) (he : e.WellFormed content)
    (hnew : OthersLog s (.append e)) :
    Tracks content { s with
      active := commitPart s.active e.part.id e.oldParts
      log := s.log ++ [e] } := by
  obtain ⟨hother, hnew⟩ := hnew
  have htake : (s.log ++ [e]).take s.pointer = s.log.take s.pointer :=
    List.take_append_of_le_length h.pointer
  have hread : State.read { s with
      active := commitPart s.active e.part.id e.oldParts
      log := s.log ++ [e] } = s.read := by
    simp only [State.read, htake]
  constructor
  · exact List.forall_mem_append.mpr ⟨h.log, List.forall_mem_singleton.mpr he⟩
  · exact List.forall_mem_append.mpr ⟨h.others, List.forall_mem_singleton.mpr hother⟩
  · exact h.pointer.trans (by simp)
  · rw [List.map_append, List.map_singleton]
    exact .concat h.fresh hnew
  · rw [foldLog, List.foldl_concat, foldEntry_eq he.1, h.active]
    rfl
  · exact h.unique
  · intro d hd
    simp only [htake]
    exact h.deferred d hd
  · intro a ha hactive
    rw [hread] at ha
    rcases mem_commitPart.mp hactive with ⟨hactive, -⟩ | rfl
    · exact h.present a ha hactive
    · -- what was read cannot name the new part
      obtain ⟨c, hc, heq⟩ := added_of_mem_replay ha
      obtain ⟨x, hx, rfl⟩ := List.mem_map.mp hc
      exact absurd heq.symm (hnew.add _ (List.mem_map_of_mem (List.mem_of_mem_take hx)))
  · intro a ha
    rw [hread]
    exact h.removed a ha

theorem Tracks.applied (h : Tracks content s) (he : s.log[s.pointer]? = some e) {ok : Bool}
    (happlied : Applied s e ok t)
    (hkept : ok = true → ∀ d ∈ s.pending, d.part.id ∈ e.oldParts →
      Relieves s (dropPending s.pending e.oldParts) e.oldParts d) :
    Tracks content { t with pointer := s.pointer + 1 } := by
  have hpointer : s.pointer + 1 ≤ s.log.length := (List.getElem?_eq_some_iff.mp he).1
  have htake := take_succ_of_getElem? he
  have hread := read_succ he
  have hnew := h.newIn he
  have hsome : ∀ d ∈ s.pending, d.part.id ≠ e.part.id := by
    intro d hd heq
    obtain ⟨x, hx, hchange⟩ := h.deferred d hd
    apply hnew.add _ (List.mem_map_of_mem hx)
    rw [hchange]
    exact heq.symm
  have hold : ∀ d ∈ s.pending, ∃ x ∈ s.log.take (s.pointer + 1),
      x.change = ⟨d.part.id, d.oldParts⟩ := by
    intro d hd
    obtain ⟨x, hx, hchange⟩ := h.deferred d hd
    rw [htake]
    exact ⟨x, List.mem_append_left _ hx, hchange⟩
  have hread' : ∀ n pending, State.read { s with
      node := n, pending := pending, pointer := s.pointer + 1 } = e.change.apply s.read :=
    fun _ _ => hread
  cases happlied with
  | @deferred n hparts hnode _ =>
      have hlisted : State.listed { s with
          node := n
          pending := setPending s.pending ⟨e.part, e.oldParts⟩
          pointer := s.pointer + 1 } = s.listed := by
        simp only [State.listed, hparts]
      have hstays : ∀ d ∈ s.pending, d ∈ setPending s.pending ⟨e.part, e.oldParts⟩ :=
        fun d hd => mem_setPending.mpr (Or.inl ⟨hd, hsome d hd⟩)
      have hself : ⟨e.part, e.oldParts⟩ ∈ setPending s.pending ⟨e.part, e.oldParts⟩ :=
        mem_setPending.mpr (Or.inr rfl)
      refine ⟨h.log, ?_, hpointer, h.fresh, h.active, nodup_setPending h.unique _, ?_, ?_, ?_⟩
      · simpa only [hnode] using h.others
      · intro d hd
        rcases mem_setPending.mp hd with ⟨hd, -⟩ | rfl
        · exact hold d hd
        · exact ⟨e, by simp [htake], rfl⟩
      · intro a ha hactive
        rw [hread'] at ha
        rw [hlisted]
        rcases ha with rfl | ⟨ha, -⟩
        · exact Or.inr ⟨_, hself, rfl⟩
        · rcases h.present a ha hactive with hmem | ⟨d, hd, rfl⟩
          · exact Or.inl hmem
          · exact Or.inr ⟨d, hstays d hd, rfl⟩
      · intro a ha
        rw [hlisted] at ha
        rw [hread', Change.mem_apply]
        rcases h.removed a ha with hmem | ⟨d, hd, hda⟩
        · by_cases hdrop : a ∈ e.oldParts
          · exact Or.inr ⟨_, hself, hdrop⟩
          · exact Or.inl (Or.inr ⟨hmem, hdrop⟩)
        · exact Or.inr ⟨d, hstays d hd, hda⟩
  | @published n part hid _ hparts hnode _ =>
      have hlisted : ∀ a, a ∈ State.listed { s with
          node := n
          pending := dropPending s.pending e.oldParts
          pointer := s.pointer + 1 } ↔ a = e.part.id ∨ a ∈ s.listed ∧ a ∉ e.oldParts := by
        intro a
        simp only [State.listed, hparts, mem_publish, hid]
      refine ⟨h.log, ?_, hpointer, h.fresh, h.active, nodup_dropPending h.unique _, ?_, ?_, ?_⟩
      · simpa only [hnode] using h.others
      · exact fun d hd => hold d (mem_dropPending.mp hd).1
      · intro a ha hactive
        rw [hread'] at ha
        rw [hlisted]
        rcases ha with rfl | ⟨ha, hdrop⟩
        · exact Or.inl (Or.inl rfl)
        · rcases h.present a ha hactive with hmem | ⟨d, hd, rfl⟩
          · exact Or.inl (Or.inr ⟨hmem, hdrop⟩)
          · exact Or.inr ⟨d, mem_dropPending.mpr ⟨hd, hdrop⟩, rfl⟩
      · intro a ha
        rw [hread', Change.mem_apply]
        rcases (hlisted a).mp ha with rfl | ⟨ha, hdrop⟩
        · exact Or.inl (Or.inl rfl)
        rcases h.removed a ha with hmem | ⟨d, hd, hda⟩
        · exact Or.inl (Or.inr ⟨hmem, hdrop⟩)
        · by_cases hgone : d.part.id ∈ e.oldParts
          · rcases hkept rfl d hd hgone a hda ha with hin | hother
            · exact absurd hin hdrop
            · exact Or.inr hother
          · exact Or.inr ⟨d, mem_dropPending.mpr ⟨hd, hgone⟩, hda⟩

theorem Tracks.retried (h : Tracks content s) (hd : d ∈ s.pending) {asked ok : Bool}
    (hretried : Retried s asked d ok t)
    (hkept : if asked then
        d.part.id ∉ s.active → Relieves s (dropPending s.pending [d.part.id]) [] d
      else ok = true → d.part.id ∈ foldLog (s.log.take s.pointer) ∨
        Removes (dropPending s.pending [d.part.id]) d.part.id) :
    Tracks content t := by
  -- every other deferred part stays
  have hstays : ∀ x ∈ s.pending, x ≠ d → x ∈ dropPending s.pending [d.part.id] := by
    intro x hx hne
    refine mem_dropPending.mpr ⟨hx, ?_⟩
    rw [List.mem_singleton]
    exact fun hid => hne (h.eq_of_id hx hd hid)
  have hold : ∀ x ∈ dropPending s.pending [d.part.id], x ∈ s.pending :=
    fun x hx => (mem_dropPending.mp hx).1
  cases hretried with
  | dropped hasked hgone =>
      refine ⟨h.log, h.others, h.pointer, h.fresh, h.active, nodup_dropPending h.unique _,
        fun x hx => h.deferred x (hold x hx), ?_, ?_⟩
      · intro a ha hactive
        rcases h.present a ha hactive with hmem | ⟨x, hx, rfl⟩
        · exact Or.inl hmem
        · exact Or.inr ⟨x, hstays x hx (fun heq => hgone (heq ▸ hactive)), rfl⟩
      · intro a ha
        rcases h.removed a ha with hmem | ⟨x, hx, hxa⟩
        · exact Or.inl hmem
        · by_cases hne : x = d
          · subst hne
            rw [if_pos hasked] at hkept
            rcases hkept hgone a hxa ha with hin | hother
            · exact absurd hin List.not_mem_nil
            · exact Or.inr hother
          · exact Or.inr ⟨x, hstays x hx hne, hxa⟩
  | @failed n hparts hnode _ =>
      refine ⟨h.log, by simpa only [hnode] using h.others, h.pointer, h.fresh, h.active,
        h.unique, h.deferred, ?_, ?_⟩
      · simpa only [State.listed, State.read, hparts] using h.present
      · simpa only [State.listed, State.read, hparts] using h.removed
  | @published n part halive hid _ hparts hnode _ =>
      have hlisted : ∀ a, a ∈ n.parts.map PartMeta.id ↔
          a = d.part.id ∨ a ∈ s.listed ∧ a ∉ d.oldParts := by
        intro a
        rw [hparts, mem_publishPending, hid]
        rfl
      refine ⟨h.log, by simpa only [hnode] using h.others, h.pointer, h.fresh, h.active,
        nodup_dropPending h.unique _, fun x hx => h.deferred x (hold x hx), ?_, ?_⟩
      · intro a ha hactive
        rcases h.present a ha hactive with hmem | ⟨x, hx, rfl⟩
        · exact Or.inl ((hlisted a).mpr (Or.inr ⟨hmem, fun hda => h.not_read hd hda ha⟩))
        · by_cases hne : x = d
          · exact Or.inl ((hlisted _).mpr (Or.inl (by rw [hne])))
          · exact Or.inr ⟨x, hstays x hx hne, rfl⟩
      · intro a ha
        rcases (hlisted a).mp ha with rfl | ⟨ha, hda⟩
        · cases asked with
          | true => exact Or.inl (h.read_of_active hd (halive rfl))
          | false => exact (hkept rfl).imp_left h.mem_foldLog_take.mp
        · rcases h.removed a ha with hmem | ⟨x, hx, hxa⟩
          · exact Or.inl hmem
          · exact Or.inr ⟨x, hstays x hx (fun heq => hda (heq ▸ hxa)), hxa⟩

theorem listed_runGC {n : Node} {active : List Bytes} {pass : GCPass} {a : Bytes}
    (ha : a ∈ (n.runGC active pass).parts.map PartMeta.id) : a ∈ n.parts.map PartMeta.id := by
  unfold Node.runGC at ha
  split_ifs at ha
  · exact (List.filter_sublist.map PartMeta.id).subset ha
  · exact ha

theorem listed_runGC_of_active {n : Node} {active : List Bytes} (pass : GCPass) {a : Bytes}
    (ha : a ∈ n.parts.map PartMeta.id) (hactive : a ∈ active) :
    a ∈ (n.runGC active pass).parts.map PartMeta.id := by
  unfold Node.runGC
  split_ifs
  · obtain ⟨p, hp, rfl⟩ := List.mem_map.mp ha
    exact List.mem_map_of_mem (List.mem_filter.mpr ⟨hp, gcKeeps_of_active hactive⟩)
  · exact ha

theorem nodeID_runGC (n : Node) (active : List Bytes) (pass : GCPass) :
    (n.runGC active pass).nodeID = n.nodeID := by
  unfold Node.runGC
  split_ifs <;> rfl

/-- Garbage collection takes only parts that are not active. -/
theorem Tracks.collect (h : Tracks content s) (pass : GCPass) :
    Tracks content { s with node := s.node.runGC s.active pass } := by
  refine ⟨h.log, by simpa only [nodeID_runGC] using h.others, h.pointer, h.fresh, h.active,
    h.unique, h.deferred, ?_, fun a ha => h.removed a (listed_runGC ha)⟩
  intro a ha hactive
  rcases h.present a ha hactive with hmem | hpending
  · exact Or.inl (listed_runGC_of_active pass hmem hactive)
  · exact Or.inr hpending

theorem tracks_step {l : Label} (h : Tracks content s)
    (hok : OthersLog s l ∧ RemovalsKept content U s l) (hstep : step content U s l = some t) :
    Tracks content t := by
  cases l with
  | append e =>
      simp only [step] at hstep
      split_ifs at hstep with he
      obtain rfl := Option.some.inj hstep
      exact h.append he hok.1
  | apply io =>
      simp only [step] at hstep
      cases hentry : s.log[s.pointer]? with
      | none => simp [hentry] at hstep
      | some e =>
          simp only [hentry, Option.some.injEq] at hstep
          subst hstep
          have hmem := List.mem_of_getElem? hentry
          exact h.applied hentry
            (applied_applyLogEntry U io (h.others e hmem) (h.puts e hmem)) (hok.2 e hentry)
  | retry id asked io =>
      simp only [step] at hstep
      cases hfind : s.pending.find? fun p => p.part.id == id with
      | none => simp [hfind] at hstep
      | some d =>
          simp only [hfind, Option.some.injEq] at hstep
          subst hstep
          have hd := List.mem_of_find?_eq_some hfind
          obtain rfl : d.part.id = id := by simpa using List.find?_some hfind
          exact h.retried hd (retried_retryPendingPart U s asked io d) (hok.2 d hd rfl)
  | collect pass =>
      obtain rfl := Option.some.inj hstep
      exact h.collect pass

end Tracking

/-- A replica that starts empty, has read the whole log and has no part to download lists
exactly what the log leaves, in every run in which no removal is lost. -/
theorem replica_converges {content : Bytes → PartFile} {U : Unicode} {nodeID : Bytes}
    {ls : List Label} {t : State}
    (hok : Along (step content U) (fun s l => OthersLog s l ∧ RemovalsKept content U s l)
      (State.empty nodeID) ls)
    (hrun : exec (step content U) (State.empty nodeID) ls = some t)
    (hread : t.pointer = t.log.length) (hpending : t.pending = []) :
    (∀ id, id ∈ t.listed ↔ id ∈ foldLog t.log) ∧ t.active = foldLog t.log := by
  have h : Tracks content t :=
    invariant_along (fun _ _ _ h hl hstep => tracks_step h hl hstep) (tracks_empty nodeID) hok hrun
  have hall : t.read = replay (t.log.map LogEntry.change) := by
    rw [State.read, hread, List.take_length]
  refine ⟨fun id => ?_, h.active⟩
  rw [mem_foldLog h.puts, ← hall]
  constructor
  · intro hid
    rcases h.removed id hid with hmem | ⟨d, hd, -⟩
    · exact hmem
    · rw [hpending] at hd
      exact absurd hd List.not_mem_nil
  · intro hid
    have hactive : id ∈ t.active := by
      rw [h.mem_active, ← hall]
      exact hid
    rcases h.present id hid hactive with hmem | ⟨d, hd, -⟩
    · exact hmem
    · rw [hpending] at hd
      exact absurd hd List.not_mem_nil

/-! ## A chain of merges -/

def chainPart (id : Bytes) : PartMeta := flushMeta Unicode.asciiOnly (ascii "n1") id soloFile

def chainPut : LogEntry := ⟨.put, chainPart (ascii "p1"), [], ascii "n1"⟩

def chainMerge (old id : Bytes) : LogEntry := ⟨.merge, chainPart id, [old], ascii "n1"⟩

/-- A put is applied, and the merge that replaces its part is deferred. -/
def deferLabels : List Label :=
  [.append chainPut, .apply .good, .append (chainMerge (ascii "p1") (ascii "p2")),
    .apply .unreachable]

def chainEnd (ls : List Label) : State :=
  (exec (step (fun _ => soloFile) Unicode.asciiOnly) (State.empty (ascii "n2")) ls).getD
    (State.empty [])

def retriedLabels : List Label := deferLabels ++ [.retry (ascii "p2") true .good]

/-- The deferred merge is downloaded later. -/
theorem replica_converges_retried :
    exec (step (fun _ => soloFile) Unicode.asciiOnly) (State.empty (ascii "n2")) retriedLabels =
        some (chainEnd retriedLabels) ∧
      (∀ id, id ∈ (chainEnd retriedLabels).listed ↔ id ∈ foldLog (chainEnd retriedLabels).log) ∧
      foldLog (chainEnd retriedLabels).log = [ascii "p2"] := by
  have hrun : exec (step (fun _ => soloFile) Unicode.asciiOnly) (State.empty (ascii "n2"))
      retriedLabels = some (chainEnd retriedLabels) := exec_eq_getD (by decide +kernel)
  have hpending : (chainEnd retriedLabels).pending = [] :=
    List.length_eq_zero_iff.mp (by decide +kernel)
  have hconverges := replica_converges (by decide +kernel) hrun (by decide +kernel) hpending
  exact ⟨hrun, hconverges.1, by decide +kernel⟩

def supersededLabels : List Label :=
  deferLabels ++ [.append (chainMerge (ascii "p2") (ascii "p3")), .apply .good]

/-- A second merge supersedes the deferred one, whose removal is lost. -/
theorem superseded_merge_keeps_old_part :
    exec (step (fun _ => soloFile) Unicode.asciiOnly) (State.empty (ascii "n2"))
        supersededLabels = some (chainEnd supersededLabels) ∧
      Along (step (fun _ => soloFile) Unicode.asciiOnly) OthersLog (State.empty (ascii "n2"))
        supersededLabels ∧
      (chainEnd supersededLabels).pointer = (chainEnd supersededLabels).log.length ∧
      (chainEnd supersededLabels).pending.length = 0 ∧
      (chainEnd supersededLabels).listed = [ascii "p1", ascii "p3"] ∧
      foldLog (chainEnd supersededLabels).log = [ascii "p3"] := by
  have hrun : exec (step (fun _ => soloFile) Unicode.asciiOnly) (State.empty (ascii "n2"))
      supersededLabels = some (chainEnd supersededLabels) := exec_eq_getD (by decide +kernel)
  exact ⟨hrun, by decide +kernel⟩

end Shrimpd.Lsm.Replication
