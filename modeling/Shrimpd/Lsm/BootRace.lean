import Shrimpd.Lsm.Bootstrap
import Mathlib.Data.Fin.VecNotation

/-!
# Bootstraps that race with flushes and compactions

Flushes, compactions, starts and bootstraps of one node run at the same time.  A
flush or a compaction commits its log entry first and updates the part list
later; a start or a bootstrap reads a snapshot of etcd first and overwrites the
list later, and the log's replay skips the node's own entries.  So a part that is
committed after the snapshot and listed before the overwrite is lost.  Where the
updates of the list come in a good order, the list has exactly the node's own
active parts once all calls have returned.
-/

namespace Shrimpd.Lsm.BootRace

open Shrimpd.Lib Shrimpd.Lib.Exec Shrimpd.Types Shrimpd.Block Shrimpd.Lsm.Replication
open Shrimpd.Lsm.Boot hiding step

/-! ## The calls and their sections -/

inductive Call where
  | flush (mem : List Entry)
  | compact (level : Int) (force : Bool)
  | boot (starting : Bool)
  | selected (level : Int) (parts : List PartMeta)
  | written (op : LogOp) (part : PartMeta) (oldIDs : List Bytes)
  | committed (part : PartMeta) (oldIDs : List Bytes)
  | snapshot (starting : Bool) (index : Nat) (parts : List PartMeta)
  | returned (ok : Bool)

/-- The call has not begun. -/
def Call.Idle : Call → Prop
  | .flush _ | .compact _ _ | .boot _ => True
  | _ => False

instance : ∀ c : Call, Decidable c.Idle
  | .flush _ | .compact _ _ | .boot _ => inferInstanceAs (Decidable True)
  | .selected _ _ | .written _ _ _ | .committed _ _ | .snapshot _ _ _ | .returned _ =>
      inferInstanceAs (Decidable False)

def Call.result : Call → Option Bool
  | .returned ok => some ok
  | _ => none

/-- The change that is in the log and not yet in the list. -/
def Call.unpublished : Call → Option (Change Bytes)
  | .committed part oldIDs => some ⟨part.id, oldIDs⟩
  | _ => none

/-- `booted` says that the list has the node's own parts: a start or a bootstrap has stored
it, or there was none to store. -/
structure Race (ι : Type) where
  rep : State
  calls : ι → Call
  booted : Bool

inductive Section (ι : Type) where
  | select (i : ι)
  | write (i : ι) (id : Bytes) (io : CompactIO)
  | append (i : ι) (io : CompactIO)
  | publish (i : ι)
  | snapshot (i : ι) (parts : List PartMeta)
  | store (i : ι) (io : LoadIO) (saved reread : Bool)
  | foreign (e : LogEntry)
  | apply (io : FetchIO)
  | retry (id : Bytes) (asked : Bool) (io : FetchIO)

section Model

variable {ι : Type} [DecidableEq ι] (content : Bytes → PartFile) (U : Unicode)

def Race.move (s : Race ι) (i : ι) (rep : State) (c : Call) : Race ι :=
  { s with rep := rep, calls := Function.update s.calls i c }

/-- The part's files are written, or the call ends. -/
def Race.prepared (s : Race ι) (i : ι) (op : LogOp) : Prepared → Race ι
  | .done n err => s.move i { s.rep with node := n } (.returned err.isNone)
  | .ready n part oldIDs => s.move i { s.rep with node := n } (.written op part oldIDs)

/-- A start loads the parts and then saves the pointer; a failure ends it either way. -/
def Race.storeStartup (s : Race ι) (i : ι) (index : Nat) (parts : List PartMeta) (io : LoadIO)
    (saved : Bool) : Race ι :=
  match startup content U s.rep io parts with
  | (rep, ok) =>
      { s.move i { rep with pointer := if ok && saved then index else s.rep.pointer }
          (.returned (ok && saved)) with
        booted := s.booted || ok }

/-- A bootstrap saves the pointer before it loads the parts; the loop reads it afterwards. -/
def Race.storeBootstrap (s : Race ι) (i : ι) (index : Nat) (parts : List PartMeta) (io : LoadIO)
    (saved reread : Bool) : Race ι :=
  if !saved then s.move i s.rep (.returned false)
  else
    match bootstrapFromParts content U s.rep io parts with
    | (rep, ok) =>
        { s.move i { rep with pointer := if ok && reread then index else s.rep.pointer }
            (.returned ok) with
          booted := s.booted || ok }

def step (s : Race ι) : Section ι → Option (Race ι)
  | .select i =>
      match s.calls i with
      | .compact level force =>
          some (s.move i s.rep (.selected level (s.rep.node.selectParts level force)))
      | _ => none
  | .write i id io =>
      match s.calls i with
      | .flush mem => some (s.prepared i .put (prepareFlush U s.rep.node io id mem))
      | .selected level parts =>
          some (s.prepared i .merge (s.rep.node.prepareMerge U io level id parts))
      | _ => none
  | .append i io =>
      match s.calls i with
      | .written op part oldIDs =>
          match io.append with
          | .committed =>
              some (s.move i (logged s.rep op part oldIDs) (.committed part oldIDs))
          | .notCommitted =>
              some (s.move i { s.rep with node := s.rep.node.abandon io part.id }
                (.returned false))
          | .committedError =>
              some (s.move i { logged s.rep op part oldIDs with
                node := s.rep.node.abandon io part.id } (.returned false))
      | _ => none
  | .publish i =>
      match s.calls i with
      | .committed part oldIDs =>
          some (s.move i { s.rep with node := s.rep.node.publish part oldIDs } (.returned true))
      | _ => none
  | .snapshot i parts =>
      match s.calls i with
      | .boot starting =>
          if IsSnapshot s.rep parts then
            some (s.move i s.rep (.snapshot starting s.rep.log.length parts))
          else none
      | _ => none
  | .store i io saved reread =>
      match s.calls i with
      | .snapshot true index parts => some (s.storeStartup content U i index parts io saved)
      | .snapshot false index parts =>
          some (s.storeBootstrap content U i index parts io saved reread)
      | _ => none
  | .foreign e => (Replication.step content U s.rep (.append e)).map fun rep => { s with rep }
  | .apply io => (Replication.step content U s.rep (.apply io)).map fun rep => { s with rep }
  | .retry id asked io =>
      (Replication.step content U s.rep (.retry id asked io)).map fun rep => { s with rep }

end Model

/-! ## Conditions on runs -/

section Conditions

variable {ι : Type} (owner : Bytes → Bytes)

/-- The entry's node has written all the parts it names. -/
def Attributed (e : LogEntry) : Prop :=
  e.part.nodeID = e.nodeID ∧ owner e.part.id = e.nodeID ∧ ∀ a ∈ e.oldParts, owner a = e.nodeID

/-- Every part has an ID of its own, and its ID and metadata say which node has written it;
another node replaces only parts of its own. -/
def Named (s : Race ι) : Section ι → Prop
  | .write _ id _ => owner id = s.rep.node.nodeID
  | .append i _ => match s.calls i with
      | .written _ part oldIDs =>
          (⟨part.id, oldIDs⟩ : Change Bytes).NewIn (s.rep.log.map LogEntry.change)
      | _ => True
  | .snapshot _ parts => ∀ p ∈ parts, p.nodeID = owner p.id
  | .foreign e => e.nodeID ≠ s.rep.node.nodeID ∧ Attributed owner e ∧
      e.change.NewIn (s.rep.log.map LogEntry.change)
  | _ => True

/-- When a start or a bootstrap stores its list, the node's own entries since its snapshot are
not in the list yet; and when a part is listed by its own call, it is still active or the one
that replaces it is not in the list yet. -/
def Ordered (s : Race ι) : Section ι → Prop
  | .store i _ _ _ => match s.calls i with
      | .snapshot _ index _ => ∀ e ∈ s.rep.log.drop index, e.nodeID = s.rep.node.nodeID →
          ∃ j, ∃ c ∈ (s.calls j).unpublished, c.add = e.part.id ∧ c.drop = e.oldParts
      | _ => True
  | .publish i => match s.calls i with
      | .committed part _ => part.id ∈ s.rep.active ∨
          ∃ j, ∃ c ∈ (s.calls j).unpublished, part.id ∈ c.drop
      | _ => True
  | _ => True

/-- A process begins: the list is empty, no call has begun, and the node's active parts are on
its disk. -/
structure Begins (s : Race ι) : Prop where
  calls : ∀ i, (s.calls i).Idle
  parts : s.rep.node.parts = []
  pending : s.rep.pending = []
  entries : ∀ e ∈ s.rep.log, (e.op = .put → e.oldParts = []) ∧ Attributed owner e
  fresh : FreshLog (s.rep.log.map LogEntry.change)
  active : s.rep.active = foldLog s.rep.log
  metas : ∀ a m, s.rep.node.metas a = some m → m.id = a ∧ m.nodeID = owner a
  disk : ∀ a ∈ s.rep.active, owner a = s.rep.node.nodeID → (s.rep.node.metas a).isSome = true
  booted : s.booted = true → ∀ a ∈ s.rep.active, owner a ≠ s.rep.node.nodeID

end Conditions

/-! ## The node's own parts -/

/-- The deferred part and those it replaces are another node's. -/
def Foreign (owner : Bytes → Bytes) (mine : Bytes) (d : PendingEntry) : Prop :=
  d.part.nodeID = owner d.part.id ∧ owner d.part.id ≠ mine ∧ ∀ a ∈ d.oldParts, owner a ≠ mine

/-- What the node knows of the parts; `mine` is its ID. -/
structure Knows (owner : Bytes → Bytes) (mine : Bytes) (r : State) : Prop where
  nodeID : r.node.nodeID = mine
  entries : ∀ e ∈ r.log, (e.op = .put → e.oldParts = []) ∧ Attributed owner e
  fresh : FreshLog (r.log.map LogEntry.change)
  active : r.active = foldLog r.log
  metas : ∀ a m, r.node.metas a = some m → m.id = a ∧ m.nodeID = owner a
  parts : ∀ p ∈ r.node.parts, p.nodeID = owner p.id
  pending : ∀ d ∈ r.pending, Foreign owner mine d
  disk : ∀ a ∈ r.active, owner a = mine → (r.node.metas a).isSome = true

/-- The log grows and no part loses its metadata. -/
structure Grows (r r' : State) : Prop where
  log : r.log <+: r'.log
  metas : ∀ a, (r.node.metas a).isSome = true → (r'.node.metas a).isSome = true

/-- What holds of a call between its sections; none has failed. -/
def Sound (owner : Bytes → Bytes) (mine : Bytes) (r : State) : Call → Prop
  | .flush _ | .compact _ _ | .boot _ => True
  | .selected _ parts => ∀ p ∈ parts, owner p.id = mine
  | .written op part oldIDs => (op = .put → oldIDs = []) ∧ part.nodeID = mine ∧
      owner part.id = mine ∧ (∀ a ∈ oldIDs, owner a = mine) ∧
      (r.node.metas part.id).isSome = true
  | .committed part oldIDs => part.nodeID = owner part.id ∧
      (⟨part.id, oldIDs⟩ : Change Bytes) ∈ r.log.map LogEntry.change
  | .snapshot _ index parts => index ≤ r.log.length ∧
      (parts.map PartMeta.id).Perm (foldLog (r.log.take index)) ∧
      (∀ p ∈ parts, p.nodeID = owner p.id) ∧
      ∀ p ∈ parts, owner p.id = mine → (r.node.metas p.id).isSome = true
  | .returned ok => ok = true

section Keeps

variable {ι : Type} {owner : Bytes → Bytes} {mine : Bytes}

/-- The node's own active parts are listed, up to what calls have yet to publish. -/
structure Keeps (owner : Bytes → Bytes) (mine : Bytes) (s : Race ι) : Prop where
  knows : Knows owner mine s.rep
  calls : ∀ i, Sound owner mine s.rep (s.calls i)
  present : s.booted = true → ∀ a ∈ s.rep.active, owner a = mine →
    a ∈ s.rep.listed ∨ ∃ i, ∃ c ∈ (s.calls i).unpublished, c.add = a
  removed : ∀ a ∈ s.rep.listed, owner a = mine →
    a ∈ s.rep.active ∨ ∃ i, ∃ c ∈ (s.calls i).unpublished, a ∈ c.drop

def Failed (s : Race ι) : Prop := ∃ i, s.calls i = .returned false

theorem Grows.refl (r : State) : Grows r r := ⟨List.prefix_rfl, fun _ h => h⟩

theorem Sound.grows {r r' : State} (hgrows : Grows r r') {c : Call} (h : Sound owner mine r c) :
    Sound owner mine r' c := by
  cases c with
  | flush mem => trivial
  | compact level force => trivial
  | boot starting => trivial
  | selected level parts => exact h
  | written op part oldIDs => exact ⟨h.1, h.2.1, h.2.2.1, h.2.2.2.1, hgrows.metas _ h.2.2.2.2⟩
  | committed part oldIDs => exact ⟨h.1, (hgrows.log.map _).subset h.2⟩
  | snapshot starting index parts =>
      have htake : r'.log.take index = r.log.take index := by
        obtain ⟨more, hmore⟩ := hgrows.log
        rw [← hmore, List.take_append_of_le_length h.1]
      refine ⟨h.1.trans hgrows.log.length_le, ?_, h.2.2.1, ?_⟩
      · rw [htake]
        exact h.2.1
      · exact fun p hp hown => hgrows.metas _ (h.2.2.2 p hp hown)
  | returned ok => exact h

theorem Knows.puts {r : State} (h : Knows owner mine r) :
    ∀ e ∈ r.log, e.op = .put → e.oldParts = [] := fun e he => (h.entries e he).1

theorem Knows.mem_active {r : State} (h : Knows owner mine r) {a : Bytes} :
    a ∈ r.active ↔ a ∈ replay (r.log.map LogEntry.change) := by
  rw [h.active, mem_foldLog h.puts]

variable {s : Race ι} {r : State}

theorem Begins.keeps (h : Begins owner s) : Keeps owner s.rep.node.nodeID s where
  knows := by
    refine ⟨rfl, h.entries, h.fresh, h.active, h.metas, ?_, ?_, h.disk⟩
    · rw [h.parts]
      exact nofun
    · rw [h.pending]
      exact nofun
  calls i := by
    have hidle := h.calls i
    cases hcall : s.calls i <;> rw [hcall] at hidle <;> trivial
  present hbooted a ha hown := absurd hown (h.booted hbooted a ha)
  removed a ha := by
    rw [State.listed, h.parts] at ha
    exact absurd ha List.not_mem_nil

/-! ## Replication -/

theorem Knows.update (h : Knows owner mine r) {n : Node} {pending : List PendingEntry}
    (hnode : n.nodeID = r.node.nodeID)
    (hmetas : ∀ a m, n.metas a = some m → m.id = a ∧ m.nodeID = owner a)
    (hkept : ∀ a, (r.node.metas a).isSome = true → (n.metas a).isSome = true)
    (hparts : ∀ p ∈ n.parts, p.nodeID = owner p.id)
    (hpending : ∀ d ∈ pending, Foreign owner mine d) (pointer : Nat) :
    Knows owner mine { r with node := n, pending := pending, pointer := pointer } :=
  ⟨hnode.trans h.nodeID, h.entries, h.fresh, h.active, hmetas, hparts, hpending,
    fun a ha hown => hkept a (h.disk a ha hown)⟩

theorem Knows.append (h : Knows owner mine r) {e : LogEntry}
    (hentry : (e.op = .put → e.oldParts = []) ∧ Attributed owner e)
    (hnew : e.change.NewIn (r.log.map LogEntry.change))
    (hdisk : e.nodeID = mine → (r.node.metas e.part.id).isSome = true) :
    Knows owner mine { r with
      active := commitPart r.active e.part.id e.oldParts, log := r.log ++ [e] } := by
  refine ⟨h.nodeID, ?_, ?_, ?_, h.metas, h.parts, h.pending, ?_⟩
  · exact List.forall_mem_append.mpr ⟨h.entries, List.forall_mem_singleton.mpr hentry⟩
  · rw [List.map_append, List.map_singleton]
    exact .concat h.fresh hnew
  · rw [foldLog, List.foldl_concat, foldEntry_eq hentry.1, h.active]
    rfl
  · intro a ha hown
    rcases mem_commitPart.mp ha with ⟨ha, -⟩ | rfl
    · exact h.disk a ha hown
    · exact hdisk (hentry.2.2.1.symm.trans hown)

theorem Knows.pending_drop (h : Knows owner mine r) (ids : List Bytes) :
    ∀ d ∈ dropPending r.pending ids, Foreign owner mine d :=
  fun d hd => h.pending d (mem_dropPending.mp hd).1

/-- Replication leaves the node's own parts alone. -/
theorem Keeps.replicated (h : Keeps owner mine s) (hknows : Knows owner mine r)
    (hgrows : Grows s.rep r)
    (hactive : ∀ a, owner a = mine → (a ∈ r.active ↔ a ∈ s.rep.active))
    (hlisted : ∀ a, owner a = mine → (a ∈ r.listed ↔ a ∈ s.rep.listed)) :
    Keeps owner mine { s with rep := r } := by
  refine ⟨hknows, fun j => (h.calls j).grows hgrows, ?_, ?_⟩
  · intro hbooted a ha hown
    rw [hlisted a hown]
    exact h.present hbooted a ((hactive a hown).mp ha) hown
  · intro a ha hown
    rw [hactive a hown]
    exact h.removed a ((hlisted a hown).mp ha) hown

theorem Keeps.foreign (h : Keeps owner mine s) {e : LogEntry} {content : Bytes → PartFile}
    (he : e.WellFormed content) (hnamed : Named owner s (.foreign e)) :
    Keeps owner mine { s with rep := { s.rep with
      active := commitPart s.rep.active e.part.id e.oldParts, log := s.rep.log ++ [e] } } := by
  obtain ⟨hother, hentry, hnew⟩ := hnamed
  rw [h.knows.nodeID] at hother
  have hknows := h.knows.append ⟨he.1, hentry⟩ hnew (fun hmine => absurd hmine hother)
  apply h.replicated hknows ⟨List.prefix_append _ _, fun _ h => h⟩ ?_ (fun _ _ => Iff.rfl)
  intro a hown
  have hid : a ≠ e.part.id := by
    rintro rfl
    exact hother (hentry.2.1.symm.trans hown)
  have hold : a ∉ e.oldParts := fun hmem => hother ((hentry.2.2 a hmem).symm.trans hown)
  simp only [mem_commitPart, hid, hold, not_false_eq_true, and_true, ne_eq, or_false]

/-- A step on a part of another node.  It may describe the part, and list it in the place of parts
of other nodes. -/
theorem Keeps.touched (h : Keeps owner mine s) {d : PendingEntry} (hd : Foreign owner mine d)
    {n : Node} (hnode : n.nodeID = s.rep.node.nodeID)
    (hmetas : s.rep.node.GainsMeta n d.part.id d.part.nodeID)
    (hparts : ∀ p ∈ n.parts,
      p ∈ s.rep.node.parts ∨ p.id = d.part.id ∧ p.nodeID = d.part.nodeID)
    (hlisted : ∀ a, a ≠ d.part.id → a ∉ d.oldParts →
      (a ∈ n.parts.map PartMeta.id ↔ a ∈ s.rep.listed))
    {pending : List PendingEntry} (hpending : ∀ x ∈ pending, Foreign owner mine x)
    (pointer : Nat) :
    Keeps owner mine
      { s with rep := { s.rep with node := n, pending := pending, pointer := pointer } } := by
  obtain ⟨hdescribed, hother, hold⟩ := hd
  have hmeta : ∀ m : PartMeta, m.id = d.part.id → m.nodeID = d.part.nodeID →
      m.id = d.part.id ∧ m.nodeID = owner d.part.id :=
    fun m hm hnode => ⟨hm, hnode.trans hdescribed⟩
  have hlist : ∀ p ∈ n.parts, p.nodeID = owner p.id := by
    intro p hp
    rcases hparts p hp with hp | ⟨hid, howner⟩
    · exact h.knows.parts p hp
    · rw [hid]
      exact (hmeta p hid howner).2
  have hknows := h.knows.update hnode (hmetas.all h.knows.metas hmeta) (fun _ => hmetas.isSome)
    hlist hpending pointer
  apply h.replicated hknows ⟨List.prefix_rfl, fun _ => hmetas.isSome⟩ (fun _ _ => Iff.rfl)
  intro a hown
  refine hlisted a ?_ fun hmem => hold a hmem hown
  rintro rfl
  exact hother hown

theorem Keeps.applied (h : Keeps owner mine s) {e : LogEntry} (he : e ∈ s.rep.log)
    (hother : e.nodeID ≠ mine) {ok : Bool} (happlied : Applied s.rep e ok r) (pointer : Nat) :
    Keeps owner mine { s with rep := { r with pointer := pointer } } := by
  obtain ⟨hdescribed, hid, hold⟩ := (h.knows.entries e he).2
  have hforeign : Foreign owner mine ⟨e.part, e.oldParts⟩ :=
    ⟨hdescribed.trans hid.symm, hid ▸ hother, fun a ha => hold a ha ▸ hother⟩
  cases happlied with
  | @deferred n hparts hnode hmetas =>
      have hpending : ∀ d ∈ setPending s.rep.pending ⟨e.part, e.oldParts⟩,
          Foreign owner mine d := by
        intro d hd
        rcases mem_setPending.mp hd with ⟨hd, -⟩ | rfl
        · exact h.knows.pending d hd
        · exact hforeign
      apply h.touched hforeign hnode hmetas ?_ ?_ hpending
      · exact fun p hp => Or.inl (hparts ▸ hp)
      · intro a _ _
        rw [hparts, State.listed]
  | @published n part hpart howner hparts hnode hmetas =>
      apply h.touched hforeign hnode hmetas ?_ ?_ (h.knows.pending_drop e.oldParts)
      · intro p hp
        rw [hparts] at hp
        rcases mem_parts_publish hp with hp | rfl
        · exact Or.inl hp
        · exact Or.inr ⟨hpart, howner⟩
      · intro a hne hkept
        simp only [State.listed, hparts, mem_publish, hpart, hne, hkept, not_false_eq_true,
          and_true, false_or]

theorem Keeps.retried (h : Keeps owner mine s) {d : PendingEntry} (hd : d ∈ s.rep.pending)
    {asked ok : Bool} (hretried : Retried s.rep asked d ok r) :
    Keeps owner mine { s with rep := r } := by
  have hforeign := h.knows.pending d hd
  have hdrop := h.knows.pending_drop [d.part.id]
  cases hretried with
  | dropped =>
      have hknows := h.knows.update rfl h.knows.metas (fun _ h => h) h.knows.parts hdrop
        s.rep.pointer
      exact h.replicated hknows ⟨List.prefix_rfl, fun _ h => h⟩ (fun _ _ => Iff.rfl)
        fun _ _ => Iff.rfl
  | @failed n hparts hnode hmetas =>
      apply h.touched hforeign hnode hmetas ?_ ?_ h.knows.pending
      · exact fun p hp => Or.inl (hparts ▸ hp)
      · intro a _ _
        rw [hparts, State.listed]
  | @published n part _ hpart howner hparts hnode hmetas =>
      apply h.touched hforeign hnode hmetas ?_ ?_ hdrop
      · intro p hp
        rw [hparts] at hp
        rcases mem_parts_publishPending hp with hp | rfl
        · exact Or.inl hp
        · exact Or.inr ⟨hpart, howner⟩
      · intro a hne hkept
        simp only [State.listed, hparts, mem_publishPending, hpart, hne, hkept,
          not_false_eq_true, and_true, false_or]

/-! ## The sections -/

variable [DecidableEq ι] {i : ι} {c : Call} {t : Race ι} {content : Bytes → PartFile} {U : Unicode}
  {io : LoadIO} {saved reread : Bool}

/-- The other calls are as before. -/
theorem Keeps.sound_move (h : Keeps owner mine s) (hgrows : Grows s.rep r)
    (hc : Sound owner mine r c) : ∀ j, Sound owner mine r ((s.move i r c).calls j) := by
  intro j
  by_cases hj : j = i
  · subst hj
    simpa only [Race.move, Function.update_self] using hc
  · simp only [Race.move, Function.update_of_ne hj]
    exact (h.calls j).grows hgrows

theorem unpublished_move_of_ne {j : ι} (hj : j ≠ i) :
    ((s.move i r c).calls j).unpublished = (s.calls j).unpublished := by
  simp only [Race.move, Function.update_of_ne hj]

theorem unpublished_move_self : ((s.move i r c).calls i).unpublished = c.unpublished := by
  simp only [Race.move, Function.update_self]

/-- A call whose section changes neither the node's own parts nor what is to be published. -/
theorem Keeps.move (h : Keeps owner mine s) (hknows : Knows owner mine r)
    (hgrows : Grows s.rep r) (hc : Sound owner mine r c)
    (hactive : r.active = s.rep.active) (hlisted : r.listed = s.rep.listed)
    (hbefore : (s.calls i).unpublished = none) (hafter : c.unpublished = none) :
    Keeps owner mine (s.move i r c) := by
  have hunpublished : ∀ j, ((s.move i r c).calls j).unpublished = (s.calls j).unpublished := by
    intro j
    by_cases hj : j = i
    · rw [hj, unpublished_move_self, hafter, hbefore]
    · exact unpublished_move_of_ne hj
  refine ⟨hknows, h.sound_move hgrows hc, ?_, ?_⟩
  · intro hbooted
    simp only [hunpublished]
    rw [show (s.move i r c).rep = r from rfl, hactive, hlisted]
    exact h.present hbooted
  · simp only [hunpublished]
    rw [show (s.move i r c).rep = r from rfl, hactive, hlisted]
    exact h.removed

theorem Keeps.select (h : Keeps owner mine s) {level : Int} {force : Bool}
    (hcall : s.calls i = .compact level force) :
    Keeps owner mine
      (s.move i s.rep (.selected level (s.rep.node.selectParts level force))) := by
  apply h.move h.knows (.refl _) ?_ rfl rfl (by rw [hcall]; rfl) rfl
  intro p hp
  obtain ⟨hlisted, -, hnode⟩ := mem_selectParts hp
  rw [← h.knows.parts p hlisted, hnode, h.knows.nodeID]

theorem Keeps.prepared (h : Keeps owner mine s) (hbefore : (s.calls i).unpublished = none)
    {id : Bytes} (hid : owner id = mine) {old : List Bytes} (hold : ∀ a ∈ old, owner a = mine)
    {op : LogOp} (hop : op = .put → old = []) {result : Prepared}
    (hresult : PreparedOf s.rep.node id old result) :
    Failed (s.prepared i op result) ∨ Keeps owner mine (s.prepared i op result) := by
  have hknows : ∀ n, Prepares s.rep.node id n → Knows owner mine { s.rep with node := n } := by
    intro n hprep
    apply h.knows.update hprep.nodeID ?_ (fun _ => hprep.metas.isSome) ?_ h.knows.pending
    · apply hprep.metas.all h.knows.metas
      intro m hm hnode
      exact ⟨hm, by rw [hnode, h.knows.nodeID, hid]⟩
    · rw [hprep.parts]
      exact h.knows.parts
  have hgrows : ∀ n, Prepares s.rep.node id n → Grows s.rep { s.rep with node := n } :=
    fun n hprep => ⟨List.prefix_rfl, fun _ => hprep.metas.isSome⟩
  have hlisted : ∀ n, Prepares s.rep.node id n →
      State.listed { s.rep with node := n } = s.rep.listed := by
    intro n hprep
    simp only [State.listed, hprep.parts]
  cases hresult with
  | @done n err hprep =>
      cases err with
      | some err => exact Or.inl ⟨i, by simp [Race.prepared, Race.move]⟩
      | none =>
          exact Or.inr (h.move (hknows n hprep) (hgrows n hprep) rfl rfl (hlisted n hprep)
            hbefore rfl)
  | @ready n part hprep hpart hnode hmeta =>
      refine Or.inr (h.move (hknows n hprep) (hgrows n hprep) ?_ rfl (hlisted n hprep) hbefore rfl)
      refine ⟨hop, hnode.trans h.knows.nodeID, by rw [hpart, hid], hold, ?_⟩
      simp only [hpart, hmeta, Option.isSome_some]

theorem Keeps.append (h : Keeps owner mine s) {op : LogOp} {part : PartMeta}
    {oldIDs : List Bytes} (hcall : s.calls i = .written op part oldIDs)
    (hnew : (⟨part.id, oldIDs⟩ : Change Bytes).NewIn (s.rep.log.map LogEntry.change)) :
    Keeps owner mine (s.move i (logged s.rep op part oldIDs) (.committed part oldIDs)) := by
  have hsound := h.calls i
  rw [hcall] at hsound
  obtain ⟨hop, hnode, hid, hold, hdisk⟩ := hsound
  have hentry : Attributed owner ⟨op, part, oldIDs, s.rep.node.nodeID⟩ := by
    simp only [Attributed, h.knows.nodeID]
    exact ⟨hnode, hid, hold⟩
  have hknows : Knows owner mine (logged s.rep op part oldIDs) :=
    h.knows.append ⟨hop, hentry⟩ hnew fun _ => hdisk
  have hself : (⟨part.id, oldIDs⟩ : Change Bytes) ∈ (((s.move i (logged s.rep op part oldIDs)
      (.committed part oldIDs)).calls i).unpublished) := by
    rw [unpublished_move_self]
    rfl
  -- call `i` had nothing to publish before
  have hother : ∀ j, ∀ c ∈ (s.calls j).unpublished, c ∈ (((s.move i (logged s.rep op part oldIDs)
      (.committed part oldIDs)).calls j).unpublished) := by
    intro j c hc
    by_cases hj : j = i
    · rw [hj, hcall] at hc
      exact absurd hc (by simp [Call.unpublished])
    · rw [unpublished_move_of_ne hj]
      exact hc
  refine ⟨hknows, h.sound_move ⟨List.prefix_append _ _, fun _ h => h⟩ ?_, ?_, ?_⟩
  · refine ⟨hnode.trans hid.symm, ?_⟩
    exact List.mem_map.mpr ⟨⟨op, part, oldIDs, s.rep.node.nodeID⟩,
      List.mem_append_right _ List.mem_cons_self, rfl⟩
  · intro hbooted a ha hown
    rcases mem_commitPart.mp ha with ⟨ha, -⟩ | rfl
    · rcases h.present hbooted a ha hown with hlisted | ⟨j, c, hc, rfl⟩
      · exact Or.inl hlisted
      · exact Or.inr ⟨j, c, hother j c hc, rfl⟩
    · exact Or.inr ⟨i, _, hself, rfl⟩
  · intro a ha hown
    rcases h.removed a ha hown with hactive | ⟨j, c, hc, hdrop⟩
    · by_cases hdrop : a ∈ oldIDs
      · exact Or.inr ⟨i, _, hself, hdrop⟩
      · left
        apply mem_commitPart.mpr
        by_cases heq : a = part.id
        · exact Or.inr heq
        · exact Or.inl ⟨hactive, hdrop, heq⟩
    · exact Or.inr ⟨j, c, hother j c hc, hdrop⟩

theorem Keeps.publish (h : Keeps owner mine s) {part : PartMeta} {oldIDs : List Bytes}
    (hcall : s.calls i = .committed part oldIDs)
    (hordered : part.id ∈ s.rep.active ∨
      ∃ j, ∃ c ∈ (s.calls j).unpublished, part.id ∈ c.drop) :
    Keeps owner mine
      (s.move i { s.rep with node := s.rep.node.publish part oldIDs } (.returned true)) := by
  have hsound := h.calls i
  rw [hcall] at hsound
  obtain ⟨hnode, hlog⟩ := hsound
  have hparts : ∀ p ∈ (s.rep.node.publish part oldIDs).parts, p.nodeID = owner p.id := by
    intro p hp
    rcases mem_parts_publish hp with hp | rfl
    · exact h.knows.parts p hp
    · exact hnode
  have hnodeID : (s.rep.node.publish part oldIDs).nodeID = s.rep.node.nodeID := rfl
  have hknows := h.knows.update hnodeID h.knows.metas (fun _ h => h) hparts h.knows.pending
    s.rep.pointer
  have hchange : ∀ c ∈ (s.calls i).unpublished, c = ⟨part.id, oldIDs⟩ := by
    intro c hc
    rw [hcall] at hc
    exact (Option.some.inj hc).symm
  -- what another call has to publish is still to be published
  have hother : ∀ j, ∀ c ∈ (s.calls j).unpublished, c = ⟨part.id, oldIDs⟩ ∨
      c ∈ (((s.move i { s.rep with node := s.rep.node.publish part oldIDs }
        (.returned true)).calls j).unpublished) := by
    intro j c hc
    by_cases hj : j = i
    · exact Or.inl (hchange c (hj ▸ hc))
    · rw [unpublished_move_of_ne hj]
      exact Or.inr hc
  refine ⟨hknows, h.sound_move ⟨List.prefix_rfl, fun _ h => h⟩ rfl, ?_, ?_⟩
  · intro hbooted a ha hown
    simp only [Race.move, State.listed, mem_publish]
    rcases h.present hbooted a ha hown with hlisted | ⟨j, c, hc, rfl⟩
    · refine Or.inl (Or.inr ⟨hlisted, fun hdrop => ?_⟩)
      exact h.knows.fresh.not_mem_replay hlog hdrop (h.knows.mem_active.mp ha)
    · rcases hother j c hc with rfl | hc
      · exact Or.inl (Or.inl rfl)
      · exact Or.inr ⟨j, c, hc, rfl⟩
  · intro a ha hown
    have hstays : (∃ j, ∃ c ∈ (s.calls j).unpublished, a ∈ c.drop) → a ∉ oldIDs →
        ∃ j, ∃ c ∈ (((s.move i { s.rep with node := s.rep.node.publish part oldIDs }
          (.returned true)).calls j).unpublished), a ∈ c.drop := by
      rintro ⟨j, c, hc, hdrop⟩ hnot
      rcases hother j c hc with rfl | hc
      · exact absurd hdrop hnot
      · exact ⟨j, c, hc, hdrop⟩
    rcases mem_publish.mp ha with rfl | ⟨ha, hnot⟩
    · exact hordered.imp_right fun hrest =>
        hstays hrest (h.knows.fresh.add_not_mem_drop hlog)
    · exact (h.removed a ha hown).imp_right fun hrest => hstays hrest hnot

theorem Keeps.snapshot (h : Keeps owner mine s) {starting : Bool}
    (hcall : s.calls i = .boot starting) {parts : List PartMeta} (hsnap : IsSnapshot s.rep parts)
    (hnames : ∀ p ∈ parts, p.nodeID = owner p.id) :
    Keeps owner mine (s.move i s.rep (.snapshot starting s.rep.log.length parts)) := by
  apply h.move h.knows (.refl _) ?_ rfl rfl (by rw [hcall]; rfl) rfl
  refine ⟨le_rfl, ?_, hnames, ?_⟩
  · rw [List.take_length, ← h.knows.active]
    exact hsnap
  · intro p hp hown
    exact h.knows.disk p.id (hsnap.mem_iff.mp (List.mem_map_of_mem hp)) hown

/-- What is loaded is listed, and only that; the node's own parts of the snapshot are. -/
theorem Knows.boots (h : Knows owner mine r) {starting : Bool} {index : Nat}
    {parts : List PartMeta} (hsound : Sound owner mine r (.snapshot starting index parts))
    {load : Loading × Bool} {result : State}
    (hload : ∃ new, Gathered (fun a m => m.id = a ∧ m.nodeID = owner a) ⟨r.node, r.pending, []⟩
      parts new load) (hboots : Boots r load (result, true)) (pointer : Nat) :
    Knows owner mine { result with pointer := pointer } ∧ Grows r { result with pointer := pointer } ∧
      result.active = r.active ∧ result.log = r.log ∧
      (∀ a ∈ result.listed, a ∈ parts.map PartMeta.id) ∧
      ∀ a ∈ parts.map PartMeta.id, owner a = mine → a ∈ result.listed := by
  obtain ⟨new, hg⟩ := hload
  cases hboots with
  | @stored ld pending hpending =>
      have hlist : ld.loaded = new := hg.loaded
      have hdescribed : ∀ p ∈ ld.loaded, p.nodeID = owner p.id := by
        intro p hp
        exact (hg.described p (hlist ▸ hp)).2
      have hdeferred : ∀ d ∈ pending, Foreign owner mine d := by
        intro d hd
        rcases hg.deferred d (hpending d hd) with hold | ⟨hnil, hsnap, hnone, -⟩
        · exact h.pending d hold
        · refine ⟨hsound.2.2.1 _ hsnap, fun hown => ?_, ?_⟩
          · have hmeta := hsound.2.2.2 _ hsnap hown
            rw [hnone] at hmeta
            exact absurd hmeta (by simp)
          · rw [hnil]
            exact nofun
      have hnodeID : ({ ld.node with parts := ld.loaded } : Node).nodeID = r.node.nodeID :=
        hg.nodeID
      refine ⟨h.update hnodeID hg.metas hg.kept hdescribed hdeferred pointer,
        ⟨List.prefix_rfl, hg.kept⟩, rfl, rfl, ?_, ?_⟩
      · intro a ha
        simp only [State.listed, hlist] at ha
        exact hg.order.subset ha
      · intro a ha hown
        obtain ⟨p, hp, rfl⟩ := List.mem_map.mp ha
        simp only [State.listed, hlist]
        exact hg.present rfl p hp (hsound.2.2.2 p hp hown)

theorem Keeps.store (h : Keeps owner mine s) {starting : Bool} {index : Nat}
    {parts : List PartMeta} (hcall : s.calls i = .snapshot starting index parts)
    (hordered : ∀ e ∈ s.rep.log.drop index, e.nodeID = s.rep.node.nodeID →
      ∃ j, ∃ c ∈ (s.calls j).unpublished, c.add = e.part.id ∧ c.drop = e.oldParts)
    (hknows : Knows owner mine r) (hgrows : Grows s.rep r) (hactive : r.active = s.rep.active)
    (hlisted : ∀ a ∈ r.listed, a ∈ parts.map PartMeta.id)
    (hloaded : ∀ a ∈ parts.map PartMeta.id, owner a = mine → a ∈ r.listed) (booted : Bool) :
    Keeps owner mine { s.move i r (.returned true) with booted := booted } := by
  have hsound := h.calls i
  rw [hcall] at hsound
  have hsnap : ∀ a, a ∈ parts.map PartMeta.id ↔
      a ∈ replay ((s.rep.log.take index).map LogEntry.change) := by
    intro a
    rw [hsound.2.1.mem_iff]
    exact mem_foldLog fun e he => h.knows.puts e (List.mem_of_mem_take he)
  have hall : s.rep.log.map LogEntry.change = (s.rep.log.take index).map LogEntry.change ++
      (s.rep.log.drop index).map LogEntry.change := by
    rw [← List.map_append, List.take_append_drop]
  -- an own entry since the snapshot is still to be published
  have hlate : ∀ e ∈ s.rep.log.drop index, e.nodeID = mine →
      ∃ j, ∃ c ∈ ((s.move i r (.returned true)).calls j).unpublished,
        c.add = e.part.id ∧ c.drop = e.oldParts := by
    intro e he hmine
    obtain ⟨j, c, hc, hchange⟩ := hordered e he (hmine.trans h.knows.nodeID.symm)
    have hj : j ≠ i := by
      rintro rfl
      rw [hcall] at hc
      exact absurd hc (by simp [Call.unpublished])
    refine ⟨j, c, ?_, hchange⟩
    rw [unpublished_move_of_ne hj]
    exact hc
  have hentry : ∀ e ∈ s.rep.log.drop index, Attributed owner e :=
    fun e he => (h.knows.entries e (List.mem_of_mem_drop he)).2
  refine ⟨hknows, h.sound_move hgrows rfl, ?_, ?_⟩
  · intro _ a ha hown
    simp only [Race.move, hactive] at ha
    rw [h.knows.mem_active, hall] at ha
    rcases mem_or_added_of_mem_replay_append ha with hold | ⟨c, hc, rfl⟩
    · exact Or.inl (hloaded a ((hsnap a).mpr hold) hown)
    · obtain ⟨e, he, rfl⟩ := List.mem_map.mp hc
      obtain ⟨j, c, hc, hadd, -⟩ := hlate e he ((hentry e he).2.1.symm.trans hown)
      exact Or.inr ⟨j, c, hc, hadd⟩
  · intro a ha hown
    simp only [Race.move, hactive]
    by_cases hmem : a ∈ s.rep.active
    · exact Or.inl hmem
    · rw [h.knows.mem_active, hall] at hmem
      obtain ⟨c, hc, hdrop⟩ :=
        dropped_of_not_mem_replay_append ((hsnap a).mp (hlisted a ha)) hmem
      obtain ⟨e, he, rfl⟩ := List.mem_map.mp hc
      have hmine : e.nodeID = mine := ((hentry e he).2.2 a hdrop).symm.trans hown
      obtain ⟨j, c, hc, -, heq⟩ := hlate e he hmine
      exact Or.inr ⟨j, c, hc, by rw [heq]; exact hdrop⟩

theorem Keeps.boots (h : Keeps owner mine s) {starting : Bool} {index : Nat}
    {parts : List PartMeta} (hcall : s.calls i = .snapshot starting index parts)
    (hordered : Ordered s (.store i io saved reread)) {result : State × Bool}
    (hboots : Boots s.rep (loadParts content U io parts ⟨s.rep.node, s.rep.pending, []⟩) result)
    (pointer : Nat) {ok : Bool} (hok : ok = true → result.2 = true) (booted : Bool) :
    Failed { s.move i { result.1 with pointer := pointer } (.returned ok) with booted := booted } ∨
      Keeps owner mine
        { s.move i { result.1 with pointer := pointer } (.returned ok) with booted := booted } := by
  have hsound := h.calls i
  simp only [Ordered, hcall] at hordered hsound
  cases ok with
  | false => exact Or.inl ⟨i, by simp [Race.move]⟩
  | true =>
      obtain ⟨rep, done⟩ := result
      obtain rfl : done = true := hok rfl
      have hnodup : (parts.map PartMeta.id).Nodup := hsound.2.1.nodup_iff.mpr (nodup_foldLog _)
      have hload : ∃ new, Gathered (fun a m => m.id = a ∧ m.nodeID = owner a)
          ⟨s.rep.node, s.rep.pending, []⟩ parts new
          (loadParts content U io parts ⟨s.rep.node, s.rep.pending, []⟩) := by
        apply gathered_loadParts io (fun _ _ hm => hm.1) hnodup ?_ h.knows.metas
        exact fun p hp m hm hnode => ⟨hm, hnode.trans (hsound.2.2.1 p hp)⟩
      obtain ⟨hknows, hgrows, hactive, -, hlisted, hloaded⟩ :=
        h.knows.boots hsound hload hboots pointer
      exact Or.inr (h.store hcall hordered hknows hgrows hactive hlisted hloaded booted)

theorem keeps_step {l : Section ι} (h : Keeps owner mine s)
    (hok : Named owner s l ∧ Ordered s l) (hstep : step content U s l = some t) :
    Failed t ∨ Keeps owner mine t := by
  obtain ⟨hnamed, hordered⟩ := hok
  cases l with
  | select i =>
      cases hcall : s.calls i <;> simp only [step, hcall, reduceCtorEq, Option.some.injEq] at hstep
      subst hstep
      exact Or.inr (h.select hcall)
  | write i id io =>
      have hid : owner id = mine := hnamed.trans h.knows.nodeID
      cases hcall : s.calls i <;> simp only [step, hcall, reduceCtorEq, Option.some.injEq] at hstep
      all_goals
        subst hstep
        have hbefore : (s.calls i).unpublished = none := by rw [hcall]; rfl
      · exact h.prepared hbefore hid (fun _ ha => absurd ha List.not_mem_nil) (fun _ => rfl)
          (preparedOf_flush io _)
      · rename_i level parts
        have hselected := h.calls i
        rw [hcall] at hselected
        have hold : ∀ a ∈ parts.map PartMeta.id, owner a = mine :=
          List.forall_mem_map.mpr hselected
        have hop : LogOp.merge = .put → parts.map PartMeta.id = [] := nofun
        exact h.prepared hbefore hid hold hop (preparedOf_merge io level parts)
  | append i io =>
      cases hcall : s.calls i <;> simp only [step, hcall, reduceCtorEq] at hstep
      simp only [Named, hcall] at hnamed
      cases hio : io.append <;> simp only [hio, Option.some.injEq] at hstep <;> subst hstep
      · exact Or.inr (h.append hcall hnamed)
      · exact Or.inl ⟨i, by simp [Race.move]⟩
      · exact Or.inl ⟨i, by simp [Race.move]⟩
  | publish i =>
      cases hcall : s.calls i <;> simp only [step, hcall, reduceCtorEq, Option.some.injEq] at hstep
      subst hstep
      simp only [Ordered, hcall] at hordered
      exact Or.inr (h.publish hcall hordered)
  | snapshot i parts =>
      cases hcall : s.calls i <;> simp only [step, hcall, reduceCtorEq] at hstep
      split_ifs at hstep with hsnap
      obtain rfl := Option.some.inj hstep
      exact Or.inr (h.snapshot hcall hsnap hnamed)
  | store i io saved reread =>
      cases hcall : s.calls i <;> simp only [step, hcall, reduceCtorEq] at hstep
      rename_i starting index parts
      cases starting with
      | true =>
          obtain rfl := Option.some.inj hstep
          exact h.boots hcall hordered (boots_startup s.rep io parts) _
            (fun hok => (Bool.and_eq_true_iff.mp hok).1) _
      | false =>
          simp only [Option.some.injEq] at hstep
          subst hstep
          unfold Race.storeBootstrap
          split_ifs
          · exact Or.inl ⟨i, by simp [Race.move]⟩
          · exact h.boots hcall hordered (boots_bootstrapFromParts s.rep io parts) _ id _
  | foreign e =>
      simp only [step, Replication.step] at hstep
      by_cases he : e.WellFormed content
      · rw [if_pos he] at hstep
        obtain rfl := Option.some.inj hstep
        exact Or.inr (h.foreign he hnamed)
      · simp [he] at hstep
  | apply io =>
      simp only [step, Replication.step] at hstep
      cases hentry : s.rep.log[s.rep.pointer]? with
      | none => simp [hentry] at hstep
      | some e =>
          simp only [hentry, Option.map_some, Option.some.injEq] at hstep
          subst hstep
          have hmem := List.mem_of_getElem? hentry
          by_cases hown : e.nodeID = mine
          · rw [applyLogEntry, if_pos (hown.trans h.knows.nodeID.symm)]
            have hknows := h.knows.update rfl h.knows.metas (fun _ h => h) h.knows.parts
              h.knows.pending (s.rep.pointer + 1)
            exact Or.inr (h.replicated hknows ⟨List.prefix_rfl, fun _ h => h⟩
              (fun _ _ => Iff.rfl) fun _ _ => Iff.rfl)
          · have hother : e.nodeID ≠ s.rep.node.nodeID := h.knows.nodeID ▸ hown
            exact Or.inr (h.applied hmem hown
              (applied_applyLogEntry U io hother (h.knows.puts e hmem)) _)
  | retry id asked io =>
      simp only [step, Replication.step] at hstep
      cases hfind : s.rep.pending.find? fun p => p.part.id == id with
      | none => simp [hfind] at hstep
      | some d =>
          simp only [hfind, Option.map_some, Option.some.injEq] at hstep
          subst hstep
          exact Or.inr (h.retried (List.mem_of_find?_eq_some hfind)
            (retried_retryPendingPart U s.rep asked io d))

/-- A call that has returned takes no more sections. -/
theorem returned_step {l : Section ι} {ok : Bool} (hcall : s.calls i = .returned ok)
    (hstep : step content U s l = some t) : t.calls i = .returned ok := by
  have hmove : ∀ {j : ι} {c : Call}, s.calls j ≠ .returned ok →
      Function.update s.calls j c i = .returned ok := by
    intro j c hj
    have hne : i ≠ j := fun heq => hj (heq ▸ hcall)
    rw [Function.update_of_ne hne, hcall]
  cases l with
  | select j =>
      cases hj : s.calls j <;> simp only [step, hj, reduceCtorEq, Option.some.injEq] at hstep
      subst hstep
      exact hmove (by simp [hj])
  | write j id io =>
      cases hj : s.calls j <;> simp only [step, hj, reduceCtorEq, Option.some.injEq] at hstep
      all_goals
        subst hstep
        unfold Race.prepared
        split <;> exact hmove (by simp [hj])
  | append j io =>
      cases hj : s.calls j <;> simp only [step, hj, reduceCtorEq] at hstep
      cases hio : io.append <;> simp only [hio, Option.some.injEq] at hstep <;> subst hstep
      all_goals exact hmove (by simp [hj])
  | publish j =>
      cases hj : s.calls j <;> simp only [step, hj, reduceCtorEq, Option.some.injEq] at hstep
      subst hstep
      exact hmove (by simp [hj])
  | snapshot j parts =>
      cases hj : s.calls j <;> simp only [step, hj, reduceCtorEq] at hstep
      split_ifs at hstep
      obtain rfl := Option.some.inj hstep
      exact hmove (by simp [hj])
  | store j io saved reread =>
      cases hj : s.calls j <;> simp only [step, hj, reduceCtorEq] at hstep
      rename_i starting index parts
      cases starting with
      | true =>
          simp only [Option.some.injEq] at hstep
          subst hstep
          unfold Race.storeStartup
          exact hmove (by simp [hj])
      | false =>
          simp only [Option.some.injEq] at hstep
          subst hstep
          unfold Race.storeBootstrap
          split_ifs <;> exact hmove (by simp [hj])
  | foreign e =>
      obtain ⟨rep, -, rfl⟩ := Option.map_eq_some_iff.mp hstep
      exact hcall
  | apply io =>
      obtain ⟨rep, -, rfl⟩ := Option.map_eq_some_iff.mp hstep
      exact hcall
  | retry id asked io =>
      obtain ⟨rep, -, rfl⟩ := Option.map_eq_some_iff.mp hstep
      exact hcall

end Keeps

/-- Once a process has its list and all calls have returned without an error, the node lists
every part it has written that is active and none that it has replaced. -/
theorem own_parts_listed {ι : Type} [DecidableEq ι] {content : Bytes → PartFile} {U : Unicode}
    {owner : Bytes → Bytes} {s t : Race ι} {ls : List (Section ι)} (hbegins : Begins owner s)
    (hok : Along (step content U) (fun s l => Named owner s l ∧ Ordered s l) s ls)
    (hrun : exec (step content U) s ls = some t) (hbooted : t.booted = true)
    (hreturned : ∀ i, (t.calls i).result = some true) :
    (∀ e ∈ t.rep.log, e.nodeID = s.rep.node.nodeID → e.part.id ∈ t.rep.active →
        e.part.id ∈ t.rep.listed) ∧
      ∀ e ∈ t.rep.log, e.nodeID = s.rep.node.nodeID → ∀ a ∈ e.oldParts, a ∉ t.rep.listed := by
  have hinv : Failed t ∨ Keeps owner s.rep.node.nodeID t := by
    refine invariant_along (I := fun u => Failed u ∨ Keeps owner s.rep.node.nodeID u)
      (fun _ _ _ h hl hstep => ?_) (Or.inr hbegins.keeps) hok hrun
    rcases h with ⟨i, hi⟩ | h
    · exact Or.inl ⟨i, returned_step hi hstep⟩
    · exact keeps_step h hl hstep
  have hunpublished : ∀ i, (t.calls i).unpublished = none := by
    intro i
    have hresult := hreturned i
    cases hcall : t.calls i <;> rw [hcall] at hresult <;> first | rfl | simp [Call.result] at hresult
  rcases hinv with ⟨i, hi⟩ | h
  · have hresult := hreturned i
    rw [hi] at hresult
    exact absurd hresult (by simp [Call.result])
  constructor
  · intro e he hmine hactive
    have hown := (h.knows.entries e he).2.2.1.trans hmine
    rcases h.present hbooted e.part.id hactive hown with hlisted | ⟨i, c, hc, -⟩
    · exact hlisted
    · rw [hunpublished i] at hc
      exact absurd hc (by simp)
  · intro e he hmine a ha hlisted
    have hown := ((h.knows.entries e he).2.2.2 a ha).trans hmine
    rcases h.removed a hlisted hown with hactive | ⟨i, c, hc, -⟩
    · exact h.knows.fresh.not_mem_replay (List.mem_map_of_mem he) ha
        (h.knows.mem_active.mp hactive)
    · rw [hunpublished i] at hc
      exact absurd hc (by simp)

/-! ## A flush during a bootstrap -/

instance (e : LogEntry) (owner : Bytes → Bytes) : Decidable (Attributed owner e) :=
  inferInstanceAs (Decidable (_ ∧ _ ∧ _))

instance {ι : Type} (owner : Bytes → Bytes) (s : Race ι) : ∀ l, Decidable (Named owner s l)
  | .write _ id _ => inferInstanceAs (Decidable (owner id = _))
  | .append i _ =>
      match h : s.calls i with
      | .written _ part oldIDs => decidable_of_iff
          ((⟨part.id, oldIDs⟩ : Change Bytes).NewIn (s.rep.log.map LogEntry.change))
          (by simp [Named, h])
      | .flush _ | .compact _ _ | .boot _ | .selected _ _ | .committed _ _ | .snapshot _ _ _
      | .returned _ => .isTrue (by simp [Named, h])
  | .snapshot _ parts => inferInstanceAs (Decidable (∀ p ∈ parts, _))
  | .foreign _ => inferInstanceAs (Decidable (_ ∧ _ ∧ _))
  | .select _ | .publish _ | .store _ _ _ _ | .apply _ | .retry _ _ _ =>
      inferInstanceAs (Decidable True)

instance {ι : Type} [Fintype ι] (s : Race ι) : ∀ l, Decidable (Ordered s l)
  | .store i _ _ _ =>
      match h : s.calls i with
      | .snapshot _ index _ => decidable_of_iff
          (∀ e ∈ s.rep.log.drop index, e.nodeID = s.rep.node.nodeID →
            ∃ j, ∃ c ∈ (s.calls j).unpublished, c.add = e.part.id ∧ c.drop = e.oldParts)
          (by simp [Ordered, h])
      | .flush _ | .compact _ _ | .boot _ | .selected _ _ | .committed _ _ | .written _ _ _
      | .returned _ => .isTrue (by simp [Ordered, h])
  | .publish i =>
      match h : s.calls i with
      | .committed part _ => decidable_of_iff (part.id ∈ s.rep.active ∨
          ∃ j, ∃ c ∈ (s.calls j).unpublished, part.id ∈ c.drop) (by simp [Ordered, h])
      | .flush _ | .compact _ _ | .boot _ | .selected _ _ | .snapshot _ _ _ | .written _ _ _
      | .returned _ => .isTrue (by simp [Ordered, h])
  | .select _ | .write _ _ _ | .append _ _ | .snapshot _ _ | .foreign _ | .apply _
  | .retry _ _ _ => inferInstanceAs (Decidable True)

/-- Calls on a node that has nothing yet. -/
def raceStart {ι : Type} (calls : ι → Call) : Race ι := ⟨State.empty (ascii "n2"), calls, true⟩

def raceOwner (id : Bytes) : Bytes := if id = ascii "p1" then ascii "n1" else ascii "n2"

def raceEnd {ι : Type} [DecidableEq ι] (calls : ι → Call) (ls : List (Section ι)) : Race ι :=
  (exec (step (fun _ => soloFile) Unicode.asciiOnly) (raceStart calls) ls).getD (raceStart calls)

theorem begins_raceStart {ι : Type} {calls : ι → Call} (h : ∀ i, (calls i).Idle) :
    Begins raceOwner (raceStart calls) :=
  ⟨h, rfl, rfl, nofun, .nil, rfl, nofun, nofun, fun _ => nofun⟩

def ownPart (id : Bytes) : PartMeta := flushMeta Unicode.asciiOnly (ascii "n2") id soloFile

def raceCalls : Fin 4 → Call :=
  ![.flush [soloRow], .boot false, .flush [soloRow], .compact 0 true]

/-- The second flush commits after the bootstrap's snapshot and is published after its store. -/
def storeFirst : List (Section (Fin 4)) :=
  [.write 0 (ascii "f1") .good, .append 0 .good, .publish 0, .apply .good,
    .snapshot 1 [ownPart (ascii "f1")], .write 2 (ascii "f2") .good, .append 2 .good,
    .store 1 .good true true, .publish 2, .foreign chainPut, .apply .good, .apply .good,
    .select 3, .write 3 (ascii "m1") .good, .append 3 .good, .publish 3, .apply .good]

theorem own_parts_listed_storeFirst :
    exec (step (fun _ => soloFile) Unicode.asciiOnly) (raceStart raceCalls) storeFirst =
        some (raceEnd raceCalls storeFirst) ∧
      (raceEnd raceCalls storeFirst).rep.active = [ascii "p1", ascii "m1"] ∧
      (∀ e ∈ (raceEnd raceCalls storeFirst).rep.log, e.nodeID = ascii "n2" →
        e.part.id ∈ (raceEnd raceCalls storeFirst).rep.active →
        e.part.id ∈ (raceEnd raceCalls storeFirst).rep.listed) ∧
      ∀ e ∈ (raceEnd raceCalls storeFirst).rep.log, e.nodeID = ascii "n2" →
        ∀ a ∈ e.oldParts, a ∉ (raceEnd raceCalls storeFirst).rep.listed := by
  have hrun : exec (step (fun _ => soloFile) Unicode.asciiOnly) (raceStart raceCalls) storeFirst =
      some (raceEnd raceCalls storeFirst) := exec_eq_getD (by decide +kernel)
  have hbegins : Begins raceOwner (raceStart raceCalls) := begins_raceStart (by decide)
  exact ⟨hrun, by decide +kernel,
    own_parts_listed hbegins (by decide +kernel) hrun (by decide +kernel) (by decide +kernel)⟩

def lostCalls : Fin 3 → Call := ![.flush [soloRow], .boot false, .flush [soloRow]]

/-- The second flush is published before the bootstrap's store, which overwrites the list. -/
def publishFirst : List (Section (Fin 3)) :=
  [.write 0 (ascii "f1") .good, .append 0 .good, .publish 0, .apply .good,
    .snapshot 1 [ownPart (ascii "f1")], .write 2 (ascii "f2") .good, .append 2 .good, .publish 2,
    .store 1 .good true true, .apply .good]

theorem flushed_part_lost_to_bootstrap :
    exec (step (fun _ => soloFile) Unicode.asciiOnly) (raceStart lostCalls) publishFirst =
        some (raceEnd lostCalls publishFirst) ∧
      Along (step (fun _ => soloFile) Unicode.asciiOnly) (Named raceOwner) (raceStart lostCalls)
        publishFirst ∧
      (∀ i, ((raceEnd lostCalls publishFirst).calls i).result = some true) ∧
      (raceEnd lostCalls publishFirst).rep.pointer =
        (raceEnd lostCalls publishFirst).rep.log.length ∧
      (raceEnd lostCalls publishFirst).rep.active = [ascii "f1", ascii "f2"] ∧
      (raceEnd lostCalls publishFirst).rep.listed = [ascii "f1"] := by
  have hrun : exec (step (fun _ => soloFile) Unicode.asciiOnly) (raceStart lostCalls) publishFirst =
      some (raceEnd lostCalls publishFirst) := exec_eq_getD (by decide +kernel)
  exact ⟨hrun, by decide +kernel, by decide +kernel, by decide +kernel⟩

end Shrimpd.Lsm.BootRace
