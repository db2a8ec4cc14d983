import Shrimpd.Registry.Truncate
import Shrimpd.Lsm.CompactExact

/-!
# The part set and its snapshots

Each append puts the key of its part and deletes those of the parts it replaces
in the transaction that writes its log entry.  So at every revision the part keys
are what the log entries committed by then leave, and a snapshot that reads the
parts at the revision at which it has read the last index is consistent with it.
-/

namespace Shrimpd.Registry

open Shrimpd.Lib Shrimpd.Lib.Etcd Shrimpd.Lib.Exec Shrimpd.Types Shrimpd.Lsm
open Shrimpd.Lsm.Replication

/-! ## Committed entries -/

section Entries

variable {ι : Type}

def entries (commits : List (Commit ι)) : List LogEntry := commits.map fun c => c.record.entry

/-- The entries that are committed at a revision. -/
def committedBy (commits : List (Commit ι)) (revision : Nat) : List LogEntry :=
  entries (commits.filter fun c => c.revision ≤ revision)

/-- The entries with an index up to this one. -/
def entriesUpTo (commits : List (Commit ι)) (index : Int) : List LogEntry :=
  entries (commits.filter fun c => c.record.index ≤ index)

def entriesAfter (commits : List (Commit ι)) (index : Int) : List LogEntry :=
  entries (commits.filter fun c => index < c.record.index)

/-- A merge replaces no more parts than one transaction deletes. -/
def Fits (e : LogEntry) : Prop := e.op = .merge → e.oldParts.length ≤ maxMergeTxnDeletes

instance (e : LogEntry) : Decidable (Fits e) := inferInstanceAs (Decidable (_ → _))

def Call.Fits : Call → Prop
  | .appendLog e _ => Registry.Fits e
  | _ => True

instance : ∀ c : Call, Decidable c.Fits
  | .appendLog e _ => inferInstanceAs (Decidable (Registry.Fits e))
  | .logEmpty _ _ | .nextIndex _ _ _ _ | .deleteOldParts _ _ _ | .deleteBatch _ _ _ _
  | .appended _ | .getSnapshot | .snapshotIndex _ _ | .gotSnapshot _ _ | .logCleanup _
  | .activeNodes _ _ | .deleteBelow _ _ | .cleaned | .failed => inferInstanceAs (Decidable True)

variable {commits : List (Commit ι)}

theorem entries_concat (commits : List (Commit ι)) (c : Commit ι) :
    entries (commits ++ [c]) = entries commits ++ [c.record.entry] := by
  simp [entries]

theorem committedBy_eq {r : Nat} (h : ∀ c ∈ commits, c.revision ≤ r) :
    committedBy commits r = entries commits := by
  rw [committedBy, List.filter_eq_self.mpr (by simpa using h)]

/-- A later append does not change what was committed before. -/
theorem committedBy_concat {r : Nat} {c : Commit ι} (h : r < c.revision) :
    committedBy (commits ++ [c]) r = committedBy commits r := by
  have hnot : ¬c.revision ≤ r := not_le.mpr h
  simp [committedBy, List.filter_append, hnot]

/-- The entries up to index `k` are the first `k`. -/
theorem filter_index_le (h : ∀ (j : Nat) c, commits[j]? = some c → c.record.index = (j : Int) + 1)
    (k : Nat) :
    (commits.filter fun c => c.record.index ≤ (k : Int)) = commits.take k ∧
      (commits.filter fun c => (k : Int) < c.record.index) = commits.drop k := by
  have htake : ∀ c ∈ commits.take k, c.record.index ≤ k := by
    intro c hc
    obtain ⟨j, hj⟩ := List.mem_iff_getElem?.mp hc
    rw [List.getElem?_take] at hj
    split_ifs at hj with hlt
    have := h j c hj
    omega
  have hdrop : ∀ c ∈ commits.drop k, (k : Int) < c.record.index := by
    intro c hc
    obtain ⟨j, hj⟩ := List.mem_iff_getElem?.mp hc
    rw [List.getElem?_drop] at hj
    have := h (k + j) c hj
    omega
  constructor
  · conv_lhs => rw [← List.take_append_drop k commits]
    rw [List.filter_append, List.filter_eq_self.mpr (by simpa using htake),
      List.filter_eq_nil_iff.mpr (by simpa using hdrop), List.append_nil]
  · conv_lhs => rw [← List.take_append_drop k commits]
    rw [List.filter_append, List.filter_eq_nil_iff.mpr (by simpa using htake),
      List.filter_eq_self.mpr (by simpa using hdrop), List.nil_append]

end Entries

/-! ## Part keys -/

/-- The part keys of these contents are those of `ids`, each with its part. -/
structure PartsOf (c : Data) (ids : List Bytes) : Prop where
  named : ∀ kv ∈ c.kvs, partsPrefix.isPrefixOf kv.key = true →
    ∃ m : PartMeta, kv.key = partKey m.id ∧ kv.value = .part m
  mem : ∀ a, (∃ kv ∈ c.kvs, kv.key = partKey a) ↔ a ∈ ids

section Parts

variable {etcd : Store Bytes Value} {c : Data} {ids : List Bytes} {ops : List (Op Bytes Value)}

theorem mem_activeParts {kv : KV Bytes Value} {m : PartMeta} {a : Bytes} (hkv : kv ∈ c.kvs)
    (hkey : kv.key = partKey a) (hpart : kv.value = .part m) : m ∈ activeParts c := by
  refine List.mem_filterMap.mpr ⟨kv, Contents.mem_range.mpr ⟨hkv, ?_⟩, by rw [hpart]; rfl⟩
  rw [hkey]
  exact isPrefixOf_partKey a

theorem PartsOf.mem_activeParts (h : PartsOf c ids) {a : Bytes} :
    a ∈ (activeParts c).map PartMeta.id ↔ a ∈ ids := by
  rw [← h.mem a]
  constructor
  · intro ha
    obtain ⟨m, hm, rfl⟩ := List.mem_map.mp ha
    obtain ⟨kv, hkv, hvalue⟩ := List.mem_filterMap.mp hm
    obtain ⟨hkv, hkey⟩ := Contents.mem_range.mp hkv
    obtain ⟨x, hx, hpart⟩ := h.named kv hkv hkey
    rw [hpart] at hvalue
    obtain rfl := Option.some.inj hvalue
    exact ⟨kv, hkv, hx⟩
  · rintro ⟨kv, hkv, hkey⟩
    have hdir : partsPrefix.isPrefixOf kv.key = true := hkey ▸ isPrefixOf_partKey a
    obtain ⟨x, hx, hpart⟩ := h.named kv hkv hdir
    obtain rfl : a = x.id := partKey_inj.mp (hkey.symm.trans hx)
    exact List.mem_map_of_mem (Registry.mem_activeParts hkv hkey hpart)

theorem PartsOf.frame (h : PartsOf etcd.now ids) (hvalid : valid ops = true)
    (hops : ∀ a, ∀ op ∈ ops, op.touches (partKey a) = false) :
    PartsOf (etcd.commit ops).now ids := by
  have hkind : ∀ key, partsPrefix.isPrefixOf key = true → ∃ a, key = partKey a := by
    intro key hkey
    obtain ⟨a, rfl⟩ := List.isPrefixOf_iff_prefix.mp hkey
    exact ⟨a, rfl⟩
  have hsame : ∀ (kv : KV Bytes Value) a, kv.key = partKey a →
      (kv ∈ (etcd.commit ops).now.kvs ↔ kv ∈ etcd.now.kvs) :=
    fun kv a hkey => mem_commit_of_untouched hvalid (hkey ▸ hops a)
  refine ⟨fun kv hkv hdir => ?_, fun a => ?_⟩
  · obtain ⟨a, ha⟩ := hkind kv.key hdir
    exact h.named kv ((hsame kv a ha).mp hkv) hdir
  · rw [← h.mem a]
    exact exists_congr fun kv => and_congr_left (hsame kv a)

/-- The transaction of an append does what the entry means. -/
theorem foldEntry_etcdEntry {e : LogEntry} (hfits : Fits e) (active : List Bytes) :
    foldEntry active (etcdEntry e) = commitPart active e.part.id (firstBatch e) := by
  unfold foldEntry firstBatch etcdEntry etcdPart
  cases hop : e.op with
  | put => rfl
  | merge => simp only [List.take_of_length_le (hfits hop)]

theorem PartsOf.append {es : List LogEntry} (h : PartsOf etcd.now (foldLog es)) {index : Int}
    {e : LogEntry} (hvalid : valid (appendOps index e) = true) (hfits : Fits e) :
    PartsOf (etcd.commit (appendOps index e)).now (foldLog (es ++ [etcdEntry e])) := by
  have hfold : foldLog (es ++ [etcdEntry e]) =
      commitPart (foldLog es) e.part.id (firstBatch e) := by
    rw [foldLog, List.foldl_concat, foldEntry_etcdEntry hfits]
    rfl
  refine ⟨fun kv hkv hdir => ?_, fun a => ?_⟩
  · rcases (mem_appendOps hvalid).mp hkv with rfl | rfl | rfl | ⟨hkv, -⟩
    · exact absurd hdir (by simp)
    · exact absurd hdir (by simp)
    · exact ⟨etcdPart e.part, rfl, rfl⟩
    · exact h.named kv hkv hdir
  · rw [hfold, mem_commitPart, ← h.mem a]
    constructor
    · rintro ⟨kv, hkv, hkey⟩
      rcases (mem_appendOps hvalid).mp hkv with rfl | rfl | rfl | ⟨hkv, -, -, hpart, hold⟩
      · exact absurd hkey.symm (ne_of_isPrefixOf (isPrefixOf_partKey a) partsPrefix_baseKey)
      · exact absurd hkey.symm (ne_of_isPrefixOf (isPrefixOf_partKey a) (partsPrefix_logKey _))
      · exact Or.inr (partKey_inj.mp hkey).symm
      · refine Or.inl ⟨⟨kv, hkv, hkey⟩, fun ha => hold a ha hkey, ?_⟩
        rintro rfl
        exact hpart hkey
    · rintro (⟨⟨kv, hkv, hkey⟩, hold, hne⟩ | rfl)
      · refine ⟨kv, (mem_appendOps hvalid).mpr (Or.inr (Or.inr (Or.inr ⟨hkv, ?_, ?_, ?_, ?_⟩))),
          hkey⟩
        · exact hkey ▸ ne_of_isPrefixOf (isPrefixOf_partKey a) partsPrefix_baseKey
        · exact hkey ▸ ne_of_isPrefixOf (isPrefixOf_partKey a) (partsPrefix_logKey _)
        · exact hkey ▸ fun heq => hne (partKey_inj.mp heq)
        · exact fun x hx => hkey ▸ fun heq => hold (partKey_inj.mp heq ▸ hx)
      · exact ⟨_, (mem_appendOps hvalid).mpr (Or.inr (Or.inr (Or.inl rfl))), rfl⟩

end Parts

/-! ## Runs -/

/-- What holds of a call: its merge fits, and a snapshot has what was committed up to its
index. -/
def Pinned {ι : Type} (revision : Nat) (commits : List (Commit ι)) : Call → Prop
  | .appendLog e _ | .logEmpty e _ | .nextIndex e _ _ _ => Fits e
  | .deleteOldParts _ _ _ | .deleteBatch _ _ _ _ => False
  | .snapshotIndex index seen => seen ≤ revision ∧ ∃ k : Nat, k ≤ commits.length ∧ index = k ∧
      committedBy commits seen = entries (commits.take k)
  | .gotSnapshot index parts => ∃ k : Nat, k ≤ commits.length ∧ index = k ∧
      ∀ a, a ∈ parts.map PartMeta.id ↔ a ∈ foldLog (entries (commits.take k))
  | _ => True

structure Materialised {ι : Type} (s : State ι) : Prop where
  versions : ∀ r c, s.etcd.version r = some c → PartsOf c (foldLog (committedBy s.commits r))
  calls : ∀ i, Pinned s.etcd.revision s.commits (s.calls i)

section Runs

variable {ι : Type} {s t : State ι} {i : ι} {c : Call}

theorem Pinned.mono {r r' : Nat} {commits : List (Commit ι)} (hr : r ≤ r')
    (h : Pinned r commits c) : Pinned r' commits c := by
  cases c with
  | snapshotIndex index seen => exact ⟨h.1.trans hr, h.2⟩
  | _ => exact h

theorem Pinned.append {r : Nat} {commits : List (Commit ι)} {new : Commit ι}
    (hnew : new.revision = r + 1) (h : Pinned r commits c) :
    Pinned (r + 1) (commits ++ [new]) c := by
  cases c with
  | snapshotIndex index seen =>
      obtain ⟨hseen, k, hk, hindex, hcommitted⟩ := h
      refine ⟨hseen.trans (Nat.le_succ r), k, hk.trans (by simp), hindex, ?_⟩
      rw [committedBy_concat (by rw [hnew]; exact Nat.lt_succ_of_le hseen), hcommitted,
        List.take_append_of_le_length hk]
  | gotSnapshot index parts =>
      obtain ⟨k, hk, hindex, hparts⟩ := h
      refine ⟨k, hk.trans (by simp), hindex, ?_⟩
      rw [List.take_append_of_le_length hk]
      exact hparts
  | _ => exact h

theorem materialised_start {calls : ι → Call} (hidle : ∀ i, (calls i).Idle)
    (hfits : ∀ i, (calls i).Fits) :
    Materialised (State.start calls) := by
  refine ⟨fun r c hc => ?_, fun i => ?_⟩
  · have hr := Store.revision_of_version hc
    obtain rfl : r = 1 := by
      have hone : (State.start calls).etcd.revision = 1 := rfl
      omega
    obtain rfl := Option.some.inj hc
    exact ⟨nofun, fun a => iff_of_false (fun ⟨kv, hkv, _⟩ => nomatch hkv) nofun⟩
  · have hi := hidle i
    have hfit := hfits i
    show Pinned _ _ (calls i)
    revert hi hfit
    cases calls i with
    | appendLog e tries => exact fun _ hfit => hfit
    | getSnapshot => exact fun _ _ => trivial
    | logCleanup nodeID => exact fun _ _ => trivial
    | _ => exact fun hi _ => hi.elim

/-- A transaction that leaves the parts alone. -/
theorem Materialised.write (h : Materialised s) (hconsistent : Consistent s)
    {ops : List (Op Bytes Value)} (hvalid : valid ops = true)
    (hops : ∀ a, ∀ op ∈ ops, op.touches (partKey a) = false) : Materialised (s.write ops) := by
  refine ⟨fun r c hc => ?_, fun j => (h.calls j).mono (s.etcd.revision_le_commit ops)⟩
  rcases Store.version_commit_cases hc with hold | ⟨-, rfl, rfl⟩
  · exact h.versions r c hold
  · have hall := hconsistent.serial.revision
    have hnow := h.versions _ _ s.etcd.version_revision
    rw [committedBy_eq hall] at hnow
    show PartsOf _ (foldLog (committedBy s.commits _))
    rw [committedBy_eq fun c hc => (hall c hc).trans (Nat.le_succ _)]
    exact hnow.frame hvalid hops

theorem Materialised.append (h : Materialised s) (hconsistent : Consistent s) {index : Int}
    {e : LogEntry} (hvalid : valid (appendOps index e) = true) (hfits : Fits e) :
    Materialised (s.append i index e) := by
  have hall := hconsistent.serial.revision
  refine ⟨fun r c hc => ?_, fun j => ?_⟩
  · simp only [State.append]
    rcases Store.version_commit_cases hc with hold | ⟨-, rfl, rfl⟩
    · have hr := (Store.revision_of_version hold).2
      rw [committedBy_concat (Nat.lt_succ_of_le hr)]
      exact h.versions r c hold
    · have hnow := h.versions _ _ s.etcd.version_revision
      rw [committedBy_eq hall] at hnow
      rw [committedBy_eq, entries_concat]
      · exact hnow.append hvalid hfits
      · refine List.forall_mem_append.mpr ⟨?_, List.forall_mem_singleton.mpr le_rfl⟩
        exact fun c hc => (hall c hc).trans (Nat.le_succ _)
  · show Pinned (s.etcd.commit (appendOps index e)).revision _ (s.calls j)
    rw [revision_appendOps]
    exact (h.calls j).append rfl

/-- A snapshot begins with the last index at the current revision. -/
theorem pinned_snapshotIndex (hconsistent : Consistent s) (hkept : Kept s)
    (hbound : s.commits.length < maxIndex) :
    Pinned s.etcd.revision s.commits (.snapshotIndex (latestIndex s.etcd.now) s.etcd.revision) := by
  refine ⟨le_rfl, s.commits.length, le_rfl, latestIndex_eq hconsistent hkept hbound, ?_⟩
  rw [List.take_length, committedBy_eq hconsistent.serial.revision]

/-- The parts are read at the revision of the index. -/
theorem Materialised.pinned_gotSnapshot (h : Materialised s) {index : Int} {revision : Nat}
    {c : Data} (hpinned : Pinned s.etcd.revision s.commits (.snapshotIndex index revision))
    (hversion : s.etcd.version revision = some c) :
    Pinned s.etcd.revision s.commits (.gotSnapshot index (activeParts c)) := by
  obtain ⟨-, k, hk, hindex, hcommitted⟩ := hpinned
  refine ⟨k, hk, hindex, fun a => ?_⟩
  rw [← hcommitted]
  exact (h.versions _ _ hversion).mem_activeParts

variable [DecidableEq ι]

theorem Materialised.move (h : Materialised s) (hc : Pinned s.etcd.revision s.commits c) :
    Materialised (s.move i c) := by
  refine ⟨h.versions, fun j => ?_⟩
  by_cases hj : j = i
  · subst hj
    simpa only [State.move, Function.update_self] using hc
  · simpa only [State.move, Function.update_of_ne hj] using h.calls j

/-- What holds of a call stays so while others take steps. -/
theorem pinned_of_step {l : Label ι} (hstep : Steps s l t)
    (h : Pinned s.etcd.revision s.commits c) : Pinned t.etcd.revision t.commits c := by
  cases hstep with
  | @append _ _ e _ index =>
      show Pinned (s.etcd.commit (appendOps index e)).revision _ c
      rw [revision_appendOps]
      exact h.append rfl
  | deleteBatch | truncate | setQueuePointer | registerNode | expireNode =>
      exact h.mono (s.etcd.revision_le_commit _)
  | _ => exact h

theorem remaining_eq_nil {e : LogEntry} (hfits : Fits e) : remaining e = [] := by
  unfold remaining
  cases hop : e.op with
  | put => rfl
  | merge => exact List.drop_eq_nil_of_le (hfits hop)

theorem materialised_step {l : Label ι} (h : Materialised s) (hconsistent : Consistent s)
    (hkept : Kept s) (hbound : s.commits.length < maxIndex) (hstep : Steps s l t) :
    Materialised t := by
  have hcalls := fun i c (hcall : s.calls i = c) => hcall ▸ h.calls i
  cases hstep with
  | readLast hcall | readEmpty hcall | readBase hcall | retry hcall =>
      have hfits : Fits _ := hcalls _ _ hcall
      exact h.move hfits
  | append hcall hvalid hcompare hc =>
      have hfits := hcalls _ _ hcall
      apply (h.append hconsistent hvalid hfits).move
      rcases hc with rfl | rfl
      · rw [afterAppend, if_pos (remaining_eq_nil hfits)]
        trivial
      · trivial
  | oldParts hcall => exact (hcalls _ _ hcall).elim
  | keepBatch hcall => exact (hcalls _ _ hcall).elim
  | deleteBatch hcall => exact (hcalls _ _ hcall).elim
  | snapshotIndex => exact h.move (pinned_snapshotIndex hconsistent hkept hbound)
  | gotSnapshot hcall hversion => exact h.move (h.pinned_gotSnapshot (hcalls _ _ hcall) hversion)
  | @truncate _ _ _ minPtr _ hcall hc =>
      have hwritten : Materialised (s.write [deleteLogs minPtr]) := by
        apply h.write hconsistent (valid_of_deletes (by simp [deleteLogs, Op.putKey]))
        intro a op hop
        rw [List.mem_singleton.mp hop, deleteLogs, touches_delete, decide_eq_false_iff_not]
        exact fun hdeleted => hdeleted.2.not_gt (logKey_lt_partKey _ a)
      apply hwritten.move
      rcases hc with rfl | rfl <;> trivial
  | setQueuePointer =>
      apply h.write hconsistent (valid_put _ _)
      intro a op hop
      rw [List.mem_singleton.mp hop, touches_put]
      exact ne_of_isPrefixOf (isPrefixOf_partKey a) (partsPrefix_pointerKey _)
  | registerNode =>
      apply h.write hconsistent (valid_put _ _)
      intro a op hop
      rw [List.mem_singleton.mp hop, touches_put]
      exact ne_of_isPrefixOf (isPrefixOf_partKey a) (partsPrefix_nodeKey _)
  | expireNode =>
      apply h.write hconsistent (valid_expire _)
      intro a op hop
      rw [List.mem_singleton.mp hop, touches_delete]
      simpa using ne_of_isPrefixOf (isPrefixOf_partKey a) (partsPrefix_nodeKey _)
  | _ => exact h.move trivial

end Runs

/-! ## Replaying -/

theorem mem_foldl_foldEntry_congr {es : List LogEntry} {active active' : List Bytes}
    (h : ∀ a, a ∈ active ↔ a ∈ active') (a : Bytes) :
    a ∈ es.foldl foldEntry active ↔ a ∈ es.foldl foldEntry active' := by
  induction es generalizing active active' with
  | nil => exact h a
  | cons e es ih =>
      refine ih fun b => ?_
      unfold foldEntry
      cases e.op <;> simp only [mem_commitPart, h b]

theorem entries_append {ι : Type} (cs cs' : List (Commit ι)) :
    entries (cs ++ cs') = entries cs ++ entries cs' := List.map_append

/-- In every run of calls whose merges fit, as those of a compaction do: at every revision the
part keys are what the entries committed by then leave; and a snapshot has what the entries up to
its index leave, so that the entries after its index lead from it to what the whole log leaves. -/
theorem parts_are_the_folded_log {ι : Type} [DecidableEq ι] {calls : ι → Call}
    {ls : List (Label ι)} {t : State ι} (hidle : ∀ i, (calls i).Idle)
    (hfits : ∀ i, (calls i).Fits)
    (hok : Along step Advances (State.start calls) ls)
    (hrun : exec step (State.start calls) ls = some t) (hbound : t.commits.length < 10 ^ 16) :
    (∀ r c, t.etcd.version r = some c → ∀ a,
      (∃ kv ∈ c.kvs, kv.key = partKey a) ↔ a ∈ foldLog (committedBy t.commits r)) ∧
    (∀ i index parts, t.calls i = .gotSnapshot index parts → ∀ a,
      (a ∈ parts.map PartMeta.id ↔ a ∈ foldLog (entriesUpTo t.commits index)) ∧
      (a ∈ (entriesAfter t.commits index).foldl foldEntry (parts.map PartMeta.id) ↔
        a ∈ foldLog (entries t.commits))) := by
  obtain ⟨hconsistent, -⟩ := spared_run hidle hok hrun hbound
  have h : Materialised t := by
    refine (invariant_along (I := fun u => u.commits.length < maxIndex →
      (Consistent u ∧ Spared u) ∧ Materialised u) ?_
      (fun _ => ⟨⟨consistent_start hidle, spared_start hidle⟩, materialised_start hidle hfits⟩)
      hok hrun hbound).2
    intro u l v hu hadvances hstep hv
    have hsteps := steps_of_step hstep
    have hlength := (commits_grow hsteps).length_le.trans_lt hv
    obtain ⟨⟨hconsistent, hspared⟩, hmaterialised⟩ := hu hlength
    exact ⟨⟨consistent_step hconsistent hv hsteps,
      spared_step hspared hconsistent hlength hadvances hsteps⟩,
      materialised_step hmaterialised hconsistent hspared.toKept hlength hsteps⟩
  refine ⟨fun r c hc => (h.versions r c hc).mem, ?_⟩
  intro i index parts hcall a
  obtain ⟨k, hk, rfl, hparts⟩ : Pinned t.etcd.revision t.commits (.gotSnapshot index parts) :=
    hcall ▸ h.calls i
  obtain ⟨hupTo, hafter⟩ := filter_index_le hconsistent.serial.index k
  rw [entriesUpTo, entriesAfter, hupTo, hafter]
  refine ⟨hparts a, ?_⟩
  rw [mem_foldl_foldEntry_congr hparts, foldLog, ← List.foldl_append, ← entries_append,
    List.take_append_drop]
  rfl

/-- The merge of one part while a snapshot is being read. -/
def straddledCalls : Fin 3 → Call :=
  ![.appendLog (demoPut (ascii "n1") (ascii "p1")) 100,
    .appendLog ⟨.merge, demoPart (ascii "n1") (ascii "p2"), [ascii "p1"], ascii "n1"⟩ 100,
    .getSnapshot]

/-- The merge commits between the two reads of the snapshot. -/
def straddled : List (Label (Fin 3)) :=
  [.advance 0 .ok, .advance 0 .ok, .advance 0 .ok, .advance 2 .ok, .advance 1 .ok,
    .advance 1 .ok, .advance 2 .ok]

theorem parts_are_the_folded_log_straddled :
    (demoEnd straddledCalls straddled).calls 2 =
        .gotSnapshot 1 [demoPart (ascii "n1") (ascii "p1")] ∧
      (activeParts (demoEnd straddledCalls straddled).etcd.now).map PartMeta.id = [ascii "p2"] ∧
      ∀ a, a ∈ (entriesAfter (demoEnd straddledCalls straddled).commits 1).foldl foldEntry
        [ascii "p1"] ↔ a ∈ foldLog (entries (demoEnd straddledCalls straddled).commits) := by
  have hrun : exec step (State.start straddledCalls) straddled =
      some (demoEnd straddledCalls straddled) := exec_eq_getD (by decide +kernel)
  have hcall : (demoEnd straddledCalls straddled).calls 2 =
      .gotSnapshot 1 [demoPart (ascii "n1") (ascii "p1")] := by decide +kernel
  have h := (parts_are_the_folded_log (by decide) (by decide) (by decide +kernel) hrun
    (by decide +kernel)).2 2 _ _ hcall
  exact ⟨hcall, by decide +kernel, fun a => (h a).2⟩

/-! ## An index of seventeen digits -/

theorem exists_of_mem_foldLog {es : List LogEntry} {a : Bytes} (h : a ∈ foldLog es) :
    ∃ e ∈ es, e.part.id = a := by
  induction es using List.reverseRecOn with
  | nil => exact absurd h List.not_mem_nil
  | append_singleton es e ih =>
      rw [foldLog, List.foldl_concat, foldEntry] at h
      have hcases : a ∈ foldLog es ∨ a = e.part.id := by
        cases hop : e.op <;> rw [hop, mem_commitPart] at h <;> exact h.imp_left And.left
      rcases hcases with hmem | rfl
      · obtain ⟨x, hx, hid⟩ := ih hmem
        exact ⟨x, List.mem_append_left _ hx, hid⟩
      · exact ⟨e, by simp, rfl⟩

/-- The entry of index `10 ^ 16` has a part of its own. -/
def wideEntry (n : Nat) : LogEntry :=
  demoPut (ascii "n1") (if n + 1 = maxIndex then ascii "p2" else ascii "p1")

/-- After `10 ^ 16` appends, one after the other, a snapshot has a part that no entry up to its
index adds. -/
theorem wide_index_outside_snapshot :
    (∀ i, (appendsBeside .getSnapshot wideEntry i).Idle) ∧
      (∀ i, (appendsBeside .getSnapshot wideEntry i).Fits) ∧
      ∃ ls t index parts,
        exec step (State.start (appendsBeside .getSnapshot wideEntry)) ls = some t ∧
        Along step (fun _ l => ∃ i, l = .advance i .ok)
          (State.start (appendsBeside .getSnapshot wideEntry)) ls ∧
        t.calls 0 = .gotSnapshot index parts ∧ ascii "p2" ∈ parts.map PartMeta.id ∧
        ascii "p2" ∉ foldLog (entriesUpTo t.commits index) := by
  have hvalid : ∀ k index, valid (appendOps index (wideEntry k)) = true :=
    fun k index => valid_appendOps_put rfl index
  refine ⟨idle_appendsBeside trivial, ?_, ?_⟩
  · intro i
    cases i with
    | zero => trivial
    | succ n => exact nofun
  obtain ⟨s, hreach, h⟩ : ∃ s, Reaches step (fun _ l => ∃ i, l = .advance i .ok)
      (State.start (appendsBeside .getSnapshot wideEntry)) s ∧
      Appended .getSnapshot wideEntry (maxIndex - 1) s :=
    exists_appended (fun _ i => ⟨i, rfl⟩) trivial hvalid (by decide)
  have hlength := h.length_commits
  have hindex : (s.commits.length : Int) + 1 = maxIndex := by rw [hlength]; decide
  have hreach := hreach.trans (append_alone (fun _ => ⟨_, rfl⟩) h.consistent
    (by rw [hlength]; decide) h.call (by decide) (hvalid _))
  rw [hindex] at hreach
  have hcall : (s.appended (maxIndex - 1 + 1) maxIndex (wideEntry (maxIndex - 1))).calls 0 =
      .getSnapshot := (calls_appended_of_ne (by decide) _ _).trans (h.calls 0 (Or.inl rfl))
  obtain ⟨ls, halong, hrun⟩ := hreach.trans (snapshot_alone (fun _ => ⟨0, rfl⟩) hcall)
  refine ⟨ls, _, _, _, hrun, halong, calls_move _ _ _, ?_, ?_⟩
  · have hput : (⟨partKey (wideEntry (maxIndex - 1)).part.id,
        .part (etcdPart (wideEntry (maxIndex - 1)).part), s.etcd.revision + 1⟩ : KV Bytes Value) ∈
        (s.etcd.commit (appendOps maxIndex (wideEntry (maxIndex - 1)))).now.kvs :=
      (mem_appendOps (hvalid _ _)).mpr (Or.inr (Or.inr (Or.inl rfl)))
    exact List.mem_map.mpr ⟨_, mem_activeParts hput rfl rfl, by decide⟩
  · intro hmem
    obtain ⟨e, he, hid⟩ := exists_of_mem_foldLog hmem
    obtain ⟨c, hc, rfl⟩ := List.mem_map.mp he
    obtain ⟨hc, hle⟩ := List.mem_filter.mp hc
    have hle : c.record.index ≤ s.commits.length :=
      (of_decide_eq_true hle).trans_eq (latestIndex_wide h.consistent.serial hlength
        (hlength ▸ h.logged (by decide)) (hvalid _ _))
    rcases List.mem_append.mp hc with hold | hnew
    · have hentry : c.record.entry ∈ s.commits.map fun c => c.record.entry :=
        List.mem_map_of_mem hold
      rw [h.entries] at hentry
      obtain ⟨k, hk, hentry⟩ := List.mem_map.mp hentry
      have hne : k + 1 ≠ maxIndex := by
        have hk := List.mem_range.mp hk
        omega
      rw [← hentry] at hid
      simp only [etcdEntry, etcdPart, wideEntry, demoPut, demoPart, if_neg hne] at hid
      exact absurd hid (by decide)
    · have hwide : c.record.index = maxIndex := by rw [List.mem_singleton.mp hnew]
      omega

end Shrimpd.Registry
