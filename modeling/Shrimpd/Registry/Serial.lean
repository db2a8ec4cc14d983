import Shrimpd.Registry.Client
import Shrimpd.Lib.Exec
import Mathlib.Data.Fin.VecNotation

/-!
# The global log is serial

Any number of calls from any number of nodes run at the same time.  The base key
holds the last index, and its revision is that of the last append.  The log keys
are a run of indices that ends there.  An append whose comparison succeeds has
seen all appends before it, so the `k`-th committed append gets index `k`,
whatever is truncated in the meantime.
-/

namespace Shrimpd.Registry

open Shrimpd.Lib Shrimpd.Lib.Etcd Shrimpd.Lib.Exec Shrimpd.Types Shrimpd.Lsm.Replication

/-! ## What a step can be -/

inductive Steps {ι : Type} [DecidableEq ι] (s : State ι) : Label ι → State ι → Prop where
  | fail {i answer} (hcall : ∀ index, s.calls i ≠ .appended index) :
      Steps s (.advance i answer) (s.move i .failed)
  | readLast {i answer e tries kv n} (hcall : s.calls i = .appendLog e tries)
      (hlast : lastLog s.etcd.now = some kv) (hindex : keyIndex kv = some n) :
      Steps s (.advance i answer) (s.move i (.nextIndex e tries (n + 1) s.etcd.revision))
  | readEmpty {i answer e tries} (hcall : s.calls i = .appendLog e tries) :
      Steps s (.advance i answer) (s.move i (.logEmpty e tries))
  | readBase {i answer e tries n} (hcall : s.calls i = .logEmpty e tries)
      (hnext : baseNext s.etcd.now = some n) :
      Steps s (.advance i answer) (s.move i (.nextIndex e tries n s.etcd.revision))
  | retry {i answer e tries index revision}
      (hcall : s.calls i = .nextIndex e tries index revision) :
      Steps s (.advance i answer) (s.move i (.appendLog e (tries - 1)))
  | append {i answer e tries index revision c}
      (hcall : s.calls i = .nextIndex e tries index revision)
      (hvalid : valid (appendOps index e) = true)
      (hcompare : s.etcd.now.modRev baseKey ≤ revision)
      (hc : c = afterAppend index e ∨ c = .failed) :
      Steps s (.advance i answer) ((s.append i index e).move i c)
  | oldParts {i answer index oldIDs tries c}
      (hcall : s.calls i = .deleteOldParts index oldIDs tries)
      (hc : c = .appended index ∨ ∃ batch, c = .deleteBatch index oldIDs batch tries) :
      Steps s (.advance i answer) (s.move i c)
  | keepBatch {i answer index oldIDs batch tries}
      (hcall : s.calls i = .deleteBatch index oldIDs batch tries) :
      Steps s (.advance i answer) (s.move i (.appended index))
  | deleteBatch {i answer index oldIDs batch tries c}
      (hcall : s.calls i = .deleteBatch index oldIDs batch tries)
      (hc : c = .appended index ∨ c = .deleteOldParts index oldIDs (tries - 1)) :
      Steps s (.advance i answer) ((s.write (batch.map deletePart)).move i c)
  | snapshotIndex {i answer} (hcall : s.calls i = .getSnapshot) :
      Steps s (.advance i answer)
        (s.move i (.snapshotIndex (latestIndex s.etcd.now) s.etcd.revision))
  | gotSnapshot {i answer index revision c} (hcall : s.calls i = .snapshotIndex index revision)
      (hversion : s.etcd.version revision = some c) :
      Steps s (.advance i answer) (s.move i (.gotSnapshot index (activeParts c)))
  | activeNodes {i answer nodeID} (hcall : s.calls i = .logCleanup nodeID) :
      Steps s (.advance i answer) (s.move i (.activeNodes nodeID (getActiveNodes s.etcd.now)))
  | cleaned {i answer nodeID active} (hcall : s.calls i = .activeNodes nodeID active) :
      Steps s (.advance i answer) (s.move i .cleaned)
  | deleteBelow {i answer nodeID active ptrs} (hcall : s.calls i = .activeNodes nodeID active)
      (hptrs : getNodeQueuePointers s.etcd.now = some ptrs)
      (hmin : 0 < (minPointer ptrs active).1) :
      Steps s (.advance i answer) (s.move i (.deleteBelow active (minPointer ptrs active).1))
  | truncate {i answer active minPtr c} (hcall : s.calls i = .deleteBelow active minPtr)
      (hc : c = .cleaned ∨ c = .failed) :
      Steps s (.advance i answer) ((s.write [deleteLogs minPtr]).move i c)
  | setQueuePointer {nodeID index} : Steps s (.setQueuePointer nodeID index)
      (s.write [.put (pointerKey nodeID) (.text (printInt index))])
  | registerNode {nodeID} : Steps s (.registerNode nodeID)
      (s.write [.put (nodeKey nodeID) (.node nodeID)])
  | expireNode {nodeID} : Steps s (.expireNode nodeID)
      (s.write [.delete (· == nodeKey nodeID)])

section Inversion

variable {ι : Type} [DecidableEq ι] {s t : State ι}

/-- A read fails or goes on. -/
theorem steps_reads {i : ι} {answer : Answer} {f : Data → Call}
    (hcall : ∀ index, s.calls i ≠ .appended index)
    (hf : Steps s (.advance i answer) (s.move i (f s.etcd.now))) :
    Steps s (.advance i answer) (s.reads i answer f) := by
  cases answer with
  | ok => exact hf
  | failed => exact .fail hcall
  | failedAfter => exact .fail hcall

theorem steps_tryAppend {i : ι} {answer : Answer} {e : LogEntry} {tries : Nat} {index : Int}
    {revision : Nat} (hcall : s.calls i = .nextIndex e tries index revision) :
    Steps s (.advance i answer) (s.tryAppend i answer e tries index revision) := by
  have hfail : Steps s (.advance i answer) (s.move i .failed) := .fail (by simp [hcall])
  unfold State.tryAppend
  by_cases hvalid : valid (appendOps index e) = true
  · rw [if_neg (by simp [hvalid])]
    split_ifs with hcompare
    · have hle := Nat.lt_succ_iff.mp hcompare
      cases answer with
      | ok => exact .append hcall hvalid hle (Or.inl rfl)
      | failed => exact hfail
      | failedAfter => exact .append hcall hvalid hle (Or.inr rfl)
    · cases answer with
      | ok => exact .retry hcall
      | failed => exact hfail
      | failedAfter => exact hfail
  · rw [if_pos (by simpa using hvalid)]
    exact hfail

theorem steps_of_advance {i : ι} {answer : Answer} (h : advance s i answer = some t) :
    Steps s (.advance i answer) t := by
  have hfail : (∀ index, s.calls i ≠ .appended index) →
      Steps s (.advance i answer) (s.move i .failed) := fun hcall => .fail hcall
  cases hcall : s.calls i with
  | appendLog e tries =>
      have hne : ∀ index, s.calls i ≠ .appended index := by simp [hcall]
      simp only [advance, hcall] at h
      split_ifs at h
      · exact Option.some.inj h ▸ hfail hne
      · obtain rfl := Option.some.inj h
        apply steps_reads hne
        cases hlast : lastLog s.etcd.now with
        | none => exact .readEmpty hcall
        | some kv =>
            cases hindex : keyIndex kv with
            | none => simpa only [hindex] using hfail hne
            | some n => simpa only [hindex] using Steps.readLast hcall hlast hindex
  | logEmpty e tries =>
      have hne : ∀ index, s.calls i ≠ .appended index := by simp [hcall]
      simp only [advance, hcall, Option.some.injEq] at h
      subst h
      apply steps_reads hne
      cases hnext : baseNext s.etcd.now with
      | none => exact hfail hne
      | some n => exact .readBase hcall hnext
  | nextIndex e tries index revision =>
      simp only [advance, hcall, Option.some.injEq] at h
      subst h
      exact steps_tryAppend hcall
  | deleteOldParts index oldIDs tries =>
      simp only [advance, hcall] at h
      split_ifs at h
      · exact Option.some.inj h ▸ .oldParts hcall (Or.inl rfl)
      · exact Option.some.inj h ▸ .oldParts hcall (Or.inr ⟨_, rfl⟩)
  | deleteBatch index oldIDs batch tries =>
      simp only [advance, hcall] at h
      cases answer <;> simp only [Option.some.injEq] at h <;> subst h
      · exact .deleteBatch hcall (Or.inr rfl)
      · exact .keepBatch hcall
      · exact .deleteBatch hcall (Or.inl rfl)
  | appended index => simp [advance, hcall] at h
  | getSnapshot =>
      simp only [advance, hcall, Option.some.injEq] at h
      subst h
      exact steps_reads (by simp [hcall]) (.snapshotIndex hcall)
  | snapshotIndex index revision =>
      have hne : ∀ index, s.calls i ≠ .appended index := by simp [hcall]
      simp only [advance, hcall, Option.some.injEq] at h
      subst h
      apply steps_reads hne
      cases hversion : s.etcd.version revision with
      | none => exact hfail hne
      | some c => exact .gotSnapshot hcall hversion
  | gotSnapshot index parts => simp [advance, hcall] at h
  | logCleanup nodeID =>
      simp only [advance, hcall, Option.some.injEq] at h
      subst h
      exact steps_reads (by simp [hcall]) (.activeNodes hcall)
  | activeNodes nodeID active =>
      have hne : ∀ index, s.calls i ≠ .appended index := by simp [hcall]
      simp only [advance, hcall, Option.some.injEq] at h
      subst h
      apply steps_reads hne
      cases hptrs : getNodeQueuePointers s.etcd.now with
      | none => exact hfail hne
      | some ptrs =>
          simp only
          split_ifs with hstop
          · exact .cleaned hcall
          · exact .deleteBelow hcall hptrs (not_le.mp (not_or.mp hstop).2)
  | deleteBelow active minPtr =>
      simp only [advance, hcall] at h
      cases answer <;> simp only [Option.some.injEq] at h <;> subst h
      · exact .truncate hcall (Or.inl rfl)
      · exact hfail (by simp [hcall])
      · exact .truncate hcall (Or.inr rfl)
  | cleaned => simp [advance, hcall] at h
  | failed => simp [advance, hcall] at h

theorem steps_of_step {l : Label ι} (h : step s l = some t) : Steps s l t := by
  cases l with
  | advance i answer => exact steps_of_advance h
  | setQueuePointer nodeID index => exact Option.some.inj h ▸ .setQueuePointer
  | registerNode nodeID => exact Option.some.inj h ▸ .registerNode
  | expireNode nodeID => exact Option.some.inj h ▸ .expireNode

end Inversion

/-! ## What a transaction leaves -/

section Transactions

variable {etcd : Store Bytes Value} {kv : KV Bytes Value}

theorem mem_appendOps {index : Int} {e : LogEntry} (hvalid : valid (appendOps index e) = true) :
    kv ∈ (etcd.commit (appendOps index e)).now.kvs ↔
      kv = ⟨baseKey, .text (format16 index), etcd.revision + 1⟩ ∨
      kv = ⟨logKey index, .record ⟨index, etcdEntry e⟩, etcd.revision + 1⟩ ∨
      kv = ⟨partKey e.part.id, .part (etcdPart e.part), etcd.revision + 1⟩ ∨
      kv ∈ etcd.now.kvs ∧ kv.key ≠ baseKey ∧ kv.key ≠ logKey index ∧
        kv.key ≠ partKey e.part.id ∧ ∀ a ∈ firstBatch e, kv.key ≠ partKey a := by
  rw [Store.mem_commit hvalid]
  have hputs : ∀ key value, Op.put key value ∈ appendOps index e ↔
      key = baseKey ∧ value = .text (format16 index) ∨
      key = logKey index ∧ value = .record ⟨index, etcdEntry e⟩ ∨
      key = partKey e.part.id ∧ value = .part (etcdPart e.part) := by
    intro key value
    simp [appendOps, deletePart]
  have htouched : (∀ op ∈ appendOps index e, op.touches kv.key = false) ↔
      kv.key ≠ baseKey ∧ kv.key ≠ logKey index ∧ kv.key ≠ partKey e.part.id ∧
        ∀ a ∈ firstBatch e, kv.key ≠ partKey a := by
    simp [appendOps, deletePart, touches_put]
  simp only [hputs, htouched]
  constructor
  · rintro (⟨key, value, ⟨rfl, rfl⟩ | ⟨rfl, rfl⟩ | ⟨rfl, rfl⟩, rfl⟩ | h)
    · exact Or.inl rfl
    · exact Or.inr (Or.inl rfl)
    · exact Or.inr (Or.inr (Or.inl rfl))
    · exact Or.inr (Or.inr (Or.inr h))
  · rintro (rfl | rfl | rfl | h)
    · exact Or.inl ⟨_, _, Or.inl ⟨rfl, rfl⟩, rfl⟩
    · exact Or.inl ⟨_, _, Or.inr (Or.inl ⟨rfl, rfl⟩), rfl⟩
    · exact Or.inl ⟨_, _, Or.inr (Or.inr ⟨rfl, rfl⟩), rfl⟩
    · exact Or.inr h

/-- An append always makes a new revision. -/
theorem revision_appendOps (etcd : Store Bytes Value) (index : Int) (e : LogEntry) :
    (etcd.commit (appendOps index e)).revision = etcd.revision + 1 :=
  Store.revision_commit (by simp [appendOps, Contents.changes])

/-- Keys of a kind that no operation touches are as before. -/
theorem mem_commit_of_untouched {ops : List (Op Bytes Value)} (hvalid : valid ops = true)
    (h : ∀ op ∈ ops, op.touches kv.key = false) :
    kv ∈ (etcd.commit ops).now.kvs ↔ kv ∈ etcd.now.kvs := by
  rw [Store.mem_commit hvalid]
  constructor
  · rintro (⟨key, value, hop, rfl⟩ | ⟨hkv, -⟩)
    · exact absurd rfl (touches_put.mp (h _ hop))
    · exact hkv
  · exact fun hkv => Or.inr ⟨hkv, h⟩

theorem valid_deletePart (batch : List Bytes) : valid (batch.map deletePart) = true := by
  apply valid_of_deletes
  intro op hop
  obtain ⟨a, -, rfl⟩ := List.mem_map.mp hop
  rfl

theorem mem_deleteLogs {minPtr : Int} :
    kv ∈ (etcd.commit [deleteLogs minPtr]).now.kvs ↔
      kv ∈ etcd.now.kvs ∧ ¬(logKey 0 ≤ kv.key ∧ kv.key < logKey minPtr) := by
  rw [Store.mem_commit (valid_of_deletes (by simp [deleteLogs, Op.putKey]))]
  simp [deleteLogs]

end Transactions

/-! ## The log and its base key -/

/-- The log key of this index exists. -/
def Logged (etcd : Store Bytes Value) (n : Nat) : Prop := ∃ kv ∈ etcd.now.kvs, kv.key = logKey n

/-- The keys of the log and the base key, whose writes only appends make. -/
def LogKind (key : Bytes) : Prop := key = baseKey ∨ logDir.isPrefixOf key = true

theorem not_logKind_of_partKey {key id : Bytes} (hkind : LogKind key) : key ≠ partKey id := by
  rcases hkind with rfl | hdir
  · exact (ne_of_isPrefixOf (isPrefixOf_partKey id) partsPrefix_baseKey).symm
  · exact ne_of_isPrefixOf hdir (logDir_partKey id)

theorem not_logKind_of_node {key other : Bytes} (hkind : LogKind key)
    (hnode : nodePrefix.isPrefixOf other = true) : key ≠ other := by
  rcases hkind with rfl | hdir
  · exact (ne_of_isPrefixOf hnode nodePrefix_baseKey).symm
  · rintro rfl
    obtain ⟨rest, rfl⟩ := List.isPrefixOf_iff_prefix.mp hnode
    exact absurd hdir (by rw [show nodePrefix ++ rest = nodeKey rest from rfl]; simp)

section Untouched

variable {etcd : Store Bytes Value} {ops : List (Op Bytes Value)}

theorem untouched_deletePart (batch : List Bytes) {key : Bytes} (hkind : LogKind key) :
    ∀ op ∈ batch.map deletePart, op.touches key = false := by
  intro op hop
  obtain ⟨a, -, rfl⟩ := List.mem_map.mp hop
  simpa [deletePart] using not_logKind_of_partKey hkind

theorem untouched_put {node : Bytes} (hnode : nodePrefix.isPrefixOf node = true) (value : Value)
    {key : Bytes} (hkind : LogKind key) : ∀ op ∈ [Op.put node value], op.touches key = false := by
  intro op hop
  rw [List.mem_singleton.mp hop]
  exact touches_put.mpr (not_logKind_of_node hkind hnode)

theorem untouched_expire (nodeID : Bytes) {key : Bytes} (hkind : LogKind key) :
    ∀ op ∈ [(Op.delete (· == nodeKey nodeID) : Op Bytes Value)], op.touches key = false := by
  intro op hop
  rw [List.mem_singleton.mp hop]
  simpa using not_logKind_of_node hkind (isPrefixOf_nodeKey nodeID)

theorem valid_expire (nodeID : Bytes) :
    valid [(Op.delete (· == nodeKey nodeID) : Op Bytes Value)] = true :=
  valid_of_deletes (by simp [Op.putKey])

theorem logged_commit (hvalid : valid ops = true)
    (hops : ∀ key, LogKind key → ∀ op ∈ ops, op.touches key = false) {n : Nat} :
    Logged (etcd.commit ops) n ↔ Logged etcd n := by
  apply exists_congr
  intro kv
  apply and_congr_left
  intro hkey
  apply mem_commit_of_untouched hvalid
  exact hops kv.key (Or.inr (by rw [hkey]; exact isPrefixOf_logKey n))

/-- An append removes no log key. -/
theorem logged_append {index : Int} {e : LogEntry} (hvalid : valid (appendOps index e) = true)
    {n : Nat} (h : Logged etcd n) : Logged (etcd.commit (appendOps index e)) n := by
  obtain ⟨kv, hkv, hkey⟩ := h
  by_cases hsame : kv.key = logKey index
  · exact ⟨_, (mem_appendOps hvalid).mpr (Or.inr (Or.inl rfl)), hsame.symm.trans hkey⟩
  · refine ⟨kv, (mem_appendOps hvalid).mpr (Or.inr (Or.inr (Or.inr ⟨hkv, ?_, hsame, ?_, ?_⟩))),
      hkey⟩
    · exact hkey ▸ ne_of_isPrefixOf (isPrefixOf_logKey n) logDir_baseKey
    · exact hkey ▸ ne_of_isPrefixOf (isPrefixOf_logKey n) (logDir_partKey _)
    · exact fun a _ => hkey ▸ ne_of_isPrefixOf (isPrefixOf_logKey n) (logDir_partKey a)

end Untouched

structure Serial {ι : Type} (etcd : Store Bytes Value) (commits : List (Commit ι)) : Prop where
  index : ∀ (k : Nat) c, commits[k]? = some c → c.record.index = (k : Int) + 1
  revision : ∀ c ∈ commits, c.revision ≤ etcd.revision
  base : ∀ kv, kv.key = baseKey → (kv ∈ etcd.now.kvs ↔ ∃ c, commits.getLast? = some c ∧
    kv = ⟨baseKey, .text (format16 commits.length), c.revision⟩)
  log : ∀ kv ∈ etcd.now.kvs, logDir.isPrefixOf kv.key = true →
    ∃ (k : Nat) (c : Commit ι), commits[k]? = some c ∧
      kv = ⟨logKey (k + 1 : Nat), .record c.record, c.revision⟩
  run : ∀ m n, Logged etcd m → m ≤ n → n ≤ commits.length → Logged etcd n

section Serial

variable {ι : Type} {etcd : Store Bytes Value} {commits : List (Commit ι)}

theorem serial_empty : Serial (Store.empty : Store Bytes Value) ([] : List (Commit ι)) where
  index := by simp
  revision := nofun
  base := by
    intro kv _
    simp [Store.empty, Contents.empty]
  log := by simp [Store.empty, Contents.empty]
  run := by
    rintro m n ⟨kv, hkv, -⟩
    simp [Store.empty, Contents.empty] at hkv

theorem Serial.le_of_logged (h : Serial etcd commits) {n : Nat} (hlogged : Logged etcd n) :
    1 ≤ n ∧ n ≤ commits.length := by
  obtain ⟨kv, hkv, hkey⟩ := hlogged
  obtain ⟨k, c, hc, rfl⟩ := h.log kv hkv (by rw [hkey]; exact isPrefixOf_logKey n)
  have hk := (List.getElem?_eq_some_iff.mp hc).1
  have heq := logKey_inj.mp hkey
  omega

/-- The last log key is that of the last append. -/
theorem Serial.keyIndex_lastLog (h : Serial etcd commits) (hbound : commits.length < maxIndex)
    {kv : KV Bytes Value} (hlast : lastLog etcd.now = some kv) :
    keyIndex kv = some (commits.length : Int) := by
  obtain ⟨hkv, hdir, hmax⟩ := Contents.last_eq_some.mp hlast
  obtain ⟨k, c, hc, rfl⟩ := h.log kv hkv hdir
  have hk := (List.getElem?_eq_some_iff.mp hc).1
  obtain ⟨x, hx, hkey⟩ := h.run (k + 1) commits.length ⟨_, hkv, rfl⟩ hk le_rfl
  have hle := hmax x hx (by rw [hkey]; exact isPrefixOf_logKey _)
  rw [hkey, logKey_le_logKey hbound (by omega)] at hle
  have heq : k + 1 = commits.length := by omega
  rw [keyIndex, pathBase_logKey, heq, parseInt64_format16 hbound]

theorem Serial.baseNext_eq (h : Serial etcd commits) (hbound : commits.length < maxIndex) :
    baseNext etcd.now = some ((commits.length : Int) + 1) := by
  unfold baseNext
  cases hfind : etcd.now.find baseKey with
  | none =>
      have hnone := Contents.find_eq_none.mp hfind
      cases hlast : commits.getLast? with
      | none =>
          rw [List.getLast?_eq_none_iff.mp hlast]
          rfl
      | some c => exact absurd rfl (hnone _ ((h.base _ rfl).mpr ⟨c, hlast, rfl⟩))
  | some kv =>
      obtain ⟨hkv, hkey⟩ := Contents.find_eq_some.mp hfind
      obtain ⟨c, -, rfl⟩ := (h.base kv hkey).mp hkv
      have hne : format16 commits.length ≠ [] := by
        rw [format16_natCast]
        exact paddedDecimal_ne_nil (by omega) _
      have hparse := parseInt64_format16 hbound
      simp only
      split
      · rename_i heq
        exact absurd (Value.text.inj heq) hne
      · simp only [Value.number?, hparse, Option.map_some]

/-- The revision of the base key is that of the last append. -/
theorem Serial.modRev_base (h : Serial etcd commits) {c : Commit ι}
    (hlast : commits.getLast? = some c) : etcd.now.modRev baseKey = c.revision :=
  Contents.modRev_of_mem ((h.base _ rfl).mpr ⟨c, hlast, rfl⟩)

/-- A transaction that leaves the log and its base key alone. -/
theorem Serial.frame (h : Serial etcd commits) {ops : List (Op Bytes Value)}
    (hvalid : valid ops = true) (hops : ∀ key, LogKind key → ∀ op ∈ ops, op.touches key = false) :
    Serial (etcd.commit ops) commits := by
  have hsame : ∀ kv : KV Bytes Value, LogKind kv.key →
      (kv ∈ (etcd.commit ops).now.kvs ↔ kv ∈ etcd.now.kvs) :=
    fun kv hkind => mem_commit_of_untouched hvalid (hops kv.key hkind)
  refine ⟨h.index, fun c hc => (h.revision c hc).trans (etcd.revision_le_commit ops), ?_, ?_, ?_⟩
  · intro kv hkey
    rw [hsame kv (Or.inl hkey)]
    exact h.base kv hkey
  · intro kv hkv hdir
    exact h.log kv ((hsame kv (Or.inr hdir)).mp hkv) hdir
  · intro m n hm hmn hn
    rw [logged_commit hvalid hops] at hm ⊢
    exact h.run m n hm hmn hn

/-- Keys below some index are deleted: what is left still ends at the last one. -/
theorem Serial.truncate (h : Serial etcd commits) (hbound : commits.length < maxIndex)
    (minPtr : Int) : Serial (etcd.commit [deleteLogs minPtr]) commits := by
  have hbaseKey : ¬(logKey 0 ≤ baseKey ∧ baseKey < logKey minPtr) :=
    fun hdeleted => hdeleted.2.not_gt (logKey_lt_baseKey minPtr)
  refine ⟨h.index, fun c hc => (h.revision c hc).trans (etcd.revision_le_commit _), ?_, ?_, ?_⟩
  · intro kv hkey
    rw [mem_deleteLogs, hkey, and_iff_left hbaseKey]
    exact h.base kv hkey
  · intro kv hkv hdir
    exact h.log kv (mem_deleteLogs.mp hkv).1 hdir
  · rintro m n ⟨kv, hkv, hkey⟩ hmn hn
    obtain ⟨hold, hkept⟩ := mem_deleteLogs.mp hkv
    obtain ⟨x, hx, hxkey⟩ := h.run m n ⟨kv, hold, hkey⟩ hmn hn
    refine ⟨x, mem_deleteLogs.mpr ⟨hx, fun hdeleted => hkept ?_⟩, hxkey⟩
    rw [hxkey] at hdeleted
    rw [hkey]
    have hle : logKey m ≤ logKey n := (logKey_le_logKey (by omega) (by omega)).mpr hmn
    have hzero : logKey (0 : Nat) ≤ logKey m :=
      (logKey_le_logKey (by omega) (by omega)).mpr (Nat.zero_le m)
    exact ⟨hzero, hle.trans_lt hdeleted.2⟩

theorem Serial.append (h : Serial etcd commits)
    {index : Int} (hindex : index = commits.length + 1) {e : LogEntry}
    (hvalid : valid (appendOps index e) = true) (i : ι) :
    Serial (etcd.commit (appendOps index e))
      (commits ++ [⟨i, ⟨index, etcdEntry e⟩, etcd.revision + 1⟩]) := by
  obtain rfl : index = (commits.length + 1 : Nat) := by omega
  have hrevision := revision_appendOps etcd (commits.length + 1 : Nat) e
  have hself : Logged (etcd.commit (appendOps (commits.length + 1 : Nat) e)) (commits.length + 1) :=
    ⟨_, (mem_appendOps hvalid).mpr (Or.inr (Or.inl rfl)), rfl⟩
  have hold : ∀ {k : Nat} {c : Commit ι}, commits[k]? = some c →
      (commits ++ [⟨i, ⟨(commits.length + 1 : Nat), etcdEntry e⟩, etcd.revision + 1⟩])[k]? =
        some c := by
    intro k c hc
    rw [List.getElem?_append_left (List.getElem?_eq_some_iff.mp hc).1, hc]
  have hlast : (commits ++
      [(⟨i, ⟨(commits.length + 1 : Nat), etcdEntry e⟩, etcd.revision + 1⟩ : Commit ι)])[
        commits.length]? =
      some ⟨i, ⟨(commits.length + 1 : Nat), etcdEntry e⟩, etcd.revision + 1⟩ := by
    simp
  refine ⟨?_, ?_, ?_, ?_, ?_⟩
  · intro k c hc
    rcases lt_or_ge k commits.length with hk | hk
    · rw [List.getElem?_append_left hk] at hc
      exact h.index k c hc
    · rw [List.getElem?_append_right hk, List.getElem?_singleton] at hc
      split_ifs at hc with hzero
      obtain rfl := Option.some.inj hc
      have heq : k = commits.length := by omega
      simp [heq]
  · rw [hrevision]
    refine List.forall_mem_append.mpr ⟨?_, List.forall_mem_singleton.mpr le_rfl⟩
    exact fun c hc => (h.revision c hc).trans (Nat.le_succ _)
  · intro kv hkey
    rw [mem_appendOps hvalid, List.getLast?_concat, List.length_append, List.length_singleton]
    constructor
    · rintro (rfl | rfl | rfl | ⟨-, hne, -⟩)
      · exact ⟨_, rfl, rfl⟩
      · exact absurd hkey (ne_of_isPrefixOf (isPrefixOf_logKey _) logDir_baseKey)
      · exact absurd hkey (ne_of_isPrefixOf (isPrefixOf_partKey _) partsPrefix_baseKey)
      · exact absurd hkey hne
    · rintro ⟨c, hc, rfl⟩
      obtain rfl := Option.some.inj hc
      exact Or.inl rfl
  · intro kv hkv hdir
    rcases (mem_appendOps hvalid).mp hkv with rfl | rfl | rfl | ⟨hkv, -⟩
    · exact absurd hdir (by simp)
    · exact ⟨commits.length, _, hlast, rfl⟩
    · exact absurd hdir (by simp)
    · obtain ⟨k, c, hc, rfl⟩ := h.log kv hkv hdir
      exact ⟨k, c, hold hc, rfl⟩
  · intro m n hm hmn hn
    rw [List.length_append, List.length_singleton] at hn
    rcases Nat.lt_or_ge commits.length n with hlt | hle
    · obtain rfl : n = commits.length + 1 := by omega
      exact hself
    · obtain ⟨kv, hkv, hkey⟩ := hm
      refine logged_append hvalid (h.run m n ⟨kv, ?_, hkey⟩ hmn hle)
      rcases (mem_appendOps hvalid).mp hkv with rfl | rfl | rfl | ⟨hkv, -⟩
      · exact absurd hkey.symm (ne_of_isPrefixOf (isPrefixOf_logKey m) logDir_baseKey)
      · have heq := logKey_inj.mp hkey
        omega
      · exact absurd hkey.symm (ne_of_isPrefixOf (isPrefixOf_logKey m) (logDir_partKey _))
      · exact hkv

end Serial

/-! ## Runs -/

/-- What holds of a call: an index that is not the next one was read before the last append,
and a call that has appended knows its index. -/
def Sound {ι : Type} (revision : Nat) (commits : List (Commit ι)) (i : ι) : Call → Prop
  | .nextIndex _ _ index seen => seen ≤ revision ∧
      (index = commits.length + 1 ∨ ∃ c, commits.getLast? = some c ∧ seen < c.revision)
  | .deleteOldParts index _ _ | .deleteBatch index _ _ _ | .appended index =>
      ∃ (k : Nat) (c : Commit ι), commits[k]? = some c ∧ c.caller = i ∧ index = (k : Int) + 1
  | _ => True

structure Consistent {ι : Type} (s : State ι) : Prop where
  serial : Serial s.etcd s.commits
  calls : ∀ i, Sound s.etcd.revision s.commits i (s.calls i)

section Runs

variable {ι : Type} {s t : State ι} {i : ι} {c : Call}

theorem Sound.mono {r r' : Nat} {commits : List (Commit ι)} (hr : r ≤ r')
    (h : Sound r commits i c) : Sound r' commits i c := by
  cases c with
  | nextIndex e tries index seen => exact ⟨h.1.trans hr, h.2⟩
  | _ => exact h

/-- After another append an index that was read before is no longer the next one. -/
theorem Sound.append {r : Nat} {commits : List (Commit ι)} {new : Commit ι}
    (hnew : new.revision = r + 1) (h : Sound r commits i c) :
    Sound (r + 1) (commits ++ [new]) i c := by
  have hold : ∀ {index : Int}, (∃ (k : Nat) (x : Commit ι), commits[k]? = some x ∧
      x.caller = i ∧ index = (k : Int) + 1) → ∃ (k : Nat) (x : Commit ι),
        (commits ++ [new])[k]? = some x ∧ x.caller = i ∧ index = (k : Int) + 1 := by
    rintro index ⟨k, x, hx, hrest⟩
    refine ⟨k, x, ?_, hrest⟩
    rw [List.getElem?_append_left (List.getElem?_eq_some_iff.mp hx).1, hx]
  cases c with
  | nextIndex e tries index seen =>
      refine ⟨h.1.trans (Nat.le_succ r), Or.inr ⟨new, List.getLast?_concat, ?_⟩⟩
      rw [hnew]
      exact Nat.lt_succ_of_le h.1
  | deleteOldParts index oldIDs tries => exact hold h
  | deleteBatch index oldIDs batch tries => exact hold h
  | appended index => exact hold h
  | _ => trivial

theorem Consistent.rewrite (h : Consistent s) {ops : List (Op Bytes Value)}
    (hserial : Serial (s.etcd.commit ops) s.commits) : Consistent (s.write ops) :=
  ⟨hserial, fun j => (h.calls j).mono (s.etcd.revision_le_commit ops)⟩

theorem Consistent.write (h : Consistent s) {ops : List (Op Bytes Value)}
    (hvalid : valid ops = true) (hops : ∀ key, LogKind key → ∀ op ∈ ops, op.touches key = false) :
    Consistent (s.write ops) :=
  h.rewrite (h.serial.frame hvalid hops)

theorem consistent_start {calls : ι → Call} (hidle : ∀ i, (calls i).Idle) :
    Consistent (State.start calls) := by
  refine ⟨serial_empty, fun i => ?_⟩
  have hi := hidle i
  show Sound _ _ i (calls i)
  cases hcall : calls i <;> rw [hcall] at hi <;> trivial

theorem Consistent.append (h : Consistent s)
    {e : LogEntry} {tries : Nat} {index : Int} {seen : Nat}
    (hcall : s.calls i = .nextIndex e tries index seen)
    (hvalid : valid (appendOps index e) = true) (hcompare : s.etcd.now.modRev baseKey ≤ seen) :
    Consistent (s.append i index e) ∧ index = s.commits.length + 1 := by
  have hsound := h.calls i
  rw [hcall] at hsound
  have hindex : index = s.commits.length + 1 := by
    rcases hsound.2 with hindex | ⟨c, hlast, hlt⟩
    · exact hindex
    · rw [h.serial.modRev_base hlast] at hcompare
      omega
  refine ⟨⟨h.serial.append hindex hvalid i, fun j => ?_⟩, hindex⟩
  show Sound (s.etcd.commit (appendOps index e)).revision _ j (s.calls j)
  rw [revision_appendOps]
  exact (h.calls j).append rfl

variable [DecidableEq ι]

theorem Consistent.move (h : Consistent s) (hc : Sound s.etcd.revision s.commits i c) :
    Consistent (s.move i c) := by
  refine ⟨h.serial, fun j => ?_⟩
  by_cases hj : j = i
  · subst hj
    simpa only [State.move, Function.update_self] using hc
  · simpa only [State.move, Function.update_of_ne hj] using h.calls j

theorem commits_grow {l : Label ι} (hstep : Steps s l t) : s.commits <+: t.commits := by
  cases hstep with
  | append => exact List.prefix_append _ _
  | _ => exact List.prefix_rfl

theorem consistent_step {l : Label ι} (h : Consistent s) (hbound : t.commits.length < maxIndex)
    (hstep : Steps s l t) : Consistent t := by
  have hlength := (commits_grow hstep).length_le
  cases hstep with
  | fail => exact h.move trivial
  | readLast hcall hlast hindex =>
      rw [h.serial.keyIndex_lastLog (by omega) hlast] at hindex
      obtain rfl := Option.some.inj hindex
      exact h.move ⟨le_rfl, Or.inl rfl⟩
  | readEmpty => exact h.move trivial
  | readBase hcall hnext =>
      rw [h.serial.baseNext_eq (by omega)] at hnext
      obtain rfl := Option.some.inj hnext
      exact h.move ⟨le_rfl, Or.inl rfl⟩
  | retry => exact h.move trivial
  | @append i _ e _ index _ c hcall hvalid hcompare hc =>
      obtain ⟨happended, hindex⟩ := h.append hcall hvalid hcompare
      apply happended.move
      have hdone : ∃ (k : Nat) (x : Commit ι), (s.append i index e).commits[k]? = some x ∧
          x.caller = i ∧ index = (k : Int) + 1 :=
        ⟨s.commits.length, ⟨i, ⟨index, etcdEntry e⟩, s.etcd.revision + 1⟩,
          by simp [State.append], rfl, hindex⟩
      rcases hc with rfl | rfl
      · unfold afterAppend
        split_ifs
        · exact hdone
        · exact hdone
      · trivial
  | @oldParts i _ index _ _ c hcall hc =>
      have hsound := h.calls i
      rw [hcall] at hsound
      apply h.move
      rcases hc with rfl | ⟨batch, rfl⟩
      · exact hsound
      · exact hsound
  | @keepBatch i _ index _ _ _ hcall =>
      have hsound := h.calls i
      rw [hcall] at hsound
      exact h.move hsound
  | @deleteBatch i _ index oldIDs batch tries c hcall hc =>
      have hwritten : Consistent (s.write (batch.map deletePart)) :=
        h.write (valid_deletePart batch) fun _ => untouched_deletePart batch
      have hsound := h.calls i
      rw [hcall] at hsound
      apply hwritten.move
      rcases hc with rfl | rfl
      · exact hsound
      · exact hsound
  | snapshotIndex => exact h.move trivial
  | gotSnapshot => exact h.move trivial
  | activeNodes => exact h.move trivial
  | cleaned => exact h.move trivial
  | deleteBelow => exact h.move trivial
  | @truncate i _ active minPtr c hcall hc =>
      have hwritten := h.rewrite (h.serial.truncate (by omega) minPtr)
      apply hwritten.move
      rcases hc with rfl | rfl <;> trivial
  | setQueuePointer =>
      exact h.write (valid_put _ _) fun _ => untouched_put (isPrefixOf_pointerKey _) _
  | registerNode => exact h.write (valid_put _ _) fun _ => untouched_put (isPrefixOf_nodeKey _) _
  | expireNode => exact h.write (valid_expire _) fun _ => untouched_expire _

theorem consistent_run {calls : ι → Call} {ls : List (Label ι)} (hidle : ∀ i, (calls i).Idle)
    (hrun : exec step (State.start calls) ls = some t) (hbound : t.commits.length < maxIndex) :
    Consistent t := by
  refine invariant (I := fun u => u.commits.length < maxIndex → Consistent u) ?_
    (fun _ => consistent_start hidle) hrun hbound
  intro u l v hu hstep hv
  have hsteps := steps_of_step hstep
  exact consistent_step (hu ((commits_grow hsteps).length_le.trans_lt hv)) hv hsteps

end Runs

/-- In every run from an empty registry with indices below `10 ^ 16`: the `k`-th committed
append has index `k`; calls that succeed return indices of their own; each log key holds the
entry that was committed with its index, as it was committed; and the base key holds the last
index. -/
theorem log_is_serial {ι : Type} [DecidableEq ι] {calls : ι → Call} {ls : List (Label ι)}
    {t : State ι} (hidle : ∀ i, (calls i).Idle) (hrun : exec step (State.start calls) ls = some t)
    (hbound : t.commits.length < 10 ^ 16) :
    (∀ (k : Nat) c, t.commits[k]? = some c → c.record.index = (k : Int) + 1) ∧
    (∀ i index, t.calls i = .appended index → ∃ c ∈ t.commits,
      c.record.index = index ∧ c.caller = i) ∧
    (∀ i j index, t.calls i = .appended index → t.calls j = .appended index → i = j) ∧
    (∀ kv ∈ t.etcd.now.kvs, logDir.isPrefixOf kv.key = true → ∃ c ∈ t.commits,
      kv.key = logKey c.record.index ∧ kv.value = .record c.record ∧ kv.modRev = c.revision) ∧
    (t.etcd.now.find baseKey).map KV.value =
      if t.commits = [] then none else some (.text (format16 t.commits.length)) := by
  obtain ⟨hserial, hcalls⟩ := consistent_run hidle hrun hbound
  have hreturned : ∀ i index, t.calls i = .appended index → ∃ (k : Nat) (c : Commit ι),
      t.commits[k]? = some c ∧ c.caller = i ∧ index = (k : Int) + 1 := by
    intro i index hcall
    have hsound := hcalls i
    rw [hcall] at hsound
    exact hsound
  refine ⟨hserial.index, ?_, ?_, ?_, ?_⟩
  · intro i index hcall
    obtain ⟨k, c, hc, hcaller, rfl⟩ := hreturned i index hcall
    exact ⟨c, List.mem_of_getElem? hc, hserial.index k c hc, hcaller⟩
  · intro i j index hi hj
    obtain ⟨k, c, hc, rfl, hk⟩ := hreturned i index hi
    obtain ⟨k', c', hc', rfl, hk'⟩ := hreturned j index hj
    obtain rfl : k = k' := by omega
    rw [hc, Option.some.injEq] at hc'
    rw [hc']
  · intro kv hkv hdir
    obtain ⟨k, c, hc, rfl⟩ := hserial.log kv hkv hdir
    refine ⟨c, List.mem_of_getElem? hc, ?_, rfl, rfl⟩
    rw [hserial.index k c hc]
    rfl
  · split_ifs with hnil
    · have hnone : t.etcd.now.find baseKey = none := by
        apply Contents.find_eq_none.mpr
        intro kv hkv hkey
        obtain ⟨c, hlast, -⟩ := (hserial.base kv hkey).mp hkv
        simp [hnil] at hlast
      rw [hnone]
      rfl
    · have hlast := List.getLast?_eq_some_getLast hnil
      have hbase := (hserial.base _ rfl).mpr ⟨_, hlast, rfl⟩
      rw [Contents.find_eq_some.mpr ⟨hbase, rfl⟩]
      rfl

/-! ## Two appends and a cleanup -/

def demoPart (node id : Bytes) : PartMeta := ⟨id, node, 0, 7, 7, 1, [], false, 1⟩

def demoPut (node id : Bytes) : LogEntry := ⟨.put, demoPart node id, [], node⟩

def demoCalls : Fin 3 → Call :=
  ![.appendLog (demoPut (ascii "n1") (ascii "p1")) 100,
    .appendLog (demoPut (ascii "n2") (ascii "p2")) 100, .logCleanup (ascii "n1")]

def demoEnd {ι : Type} [DecidableEq ι] (calls : ι → Call) (ls : List (Label ι)) : State ι :=
  (exec step (State.start calls) ls).getD (State.start calls)

/-- Both appends find the log empty; the second one has to try again.  Then the first entry
is truncated. -/
def contended : List (Label (Fin 3)) :=
  [.advance 0 .ok, .advance 1 .ok, .advance 0 .ok, .advance 1 .ok, .advance 0 .ok,
    .advance 1 .ok, .advance 1 .ok, .advance 1 .ok, .registerNode (ascii "n1"),
    .setQueuePointer (ascii "n1") 2, .advance 2 .ok, .advance 2 .ok, .advance 2 .ok]

theorem log_is_serial_contended :
    exec step (State.start demoCalls) contended = some (demoEnd demoCalls contended) ∧
      (demoEnd demoCalls contended).commits.map (fun c => (c.caller, c.record.index)) =
        [(0, 1), (1, 2)] ∧
      ((demoEnd demoCalls contended).etcd.now.range logDir.isPrefixOf).map KV.key = [logKey 2] ∧
      (∀ (k : Nat) c, (demoEnd demoCalls contended).commits[k]? = some c →
        c.record.index = (k : Int) + 1) := by
  have hrun : exec step (State.start demoCalls) contended = some (demoEnd demoCalls contended) :=
    exec_eq_getD (by decide +kernel)
  exact ⟨hrun, by decide +kernel, by decide +kernel,
    (log_is_serial (by decide) hrun (by decide +kernel)).1⟩

end Shrimpd.Registry
