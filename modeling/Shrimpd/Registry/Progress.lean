import Shrimpd.Registry.Serial

/-!
# Undisturbed appends

An append that nobody disturbs commits with the next index at its first attempt,
so every number of entries can be committed.  Log keys have sixteen digits: the
key of index `10 ^ 16` comes before that of the index below it, and a reader of
the last key does not see it.
-/

namespace Shrimpd.Registry

open Shrimpd.Lib Shrimpd.Lib.Etcd Shrimpd.Lib.Exec Shrimpd.Types Shrimpd.Lsm.Replication

theorem valid_appendOps_put {e : LogEntry} (hop : e.op = .put) (index : Int) :
    valid (appendOps index e) = true := by
  have hbase : baseKey ≠ logKey index :=
    (ne_of_isPrefixOf (isPrefixOf_logKey index) logDir_baseKey).symm
  have hpart : ∀ key, key = baseKey ∨ key = logKey index → key ≠ partKey e.part.id := by
    rintro key (rfl | rfl)
    · exact (ne_of_isPrefixOf (isPrefixOf_partKey _) partsPrefix_baseKey).symm
    · exact (ne_of_isPrefixOf (isPrefixOf_partKey _) (partsPrefix_logKey _)).symm
  have hbatch : firstBatch e = [] := by rw [firstBatch, hop]
  rw [valid_iff]
  simp [appendOps, hbatch, Op.putKey, Op.deletes, hbase, hpart baseKey, hpart (logKey index)]

section Alone

variable {ι : Type} {s : State ι} {i : ι} {e : LogEntry} {tries : Nat}

theorem Serial.modRev_base_le {etcd : Store Bytes Value} {commits : List (Commit ι)}
    (h : Serial etcd commits) : etcd.now.modRev baseKey ≤ etcd.revision := by
  cases hlast : commits.getLast? with
  | none =>
      rw [Contents.modRev_eq_zero]
      · exact Nat.zero_le _
      · intro kv hkv hkey
        obtain ⟨c, hc, -⟩ := (h.base kv hkey).mp hkv
        rw [hlast] at hc
        exact absurd hc (by simp)
  | some c =>
      rw [h.modRev_base hlast]
      exact h.revision c (List.mem_of_getLast? hlast)

variable [DecidableEq ι]

/-- The append `i` has committed with this index. -/
def State.appended (s : State ι) (i : ι) (index : Int) (e : LogEntry) : State ι :=
  (s.append i index e).move i (afterAppend index e)

theorem move_move (s : State ι) (i : ι) (c c' : Call) : (s.move i c).move i c' = s.move i c' := by
  simp only [State.move, Function.update_idem]

theorem calls_move (s : State ι) (i : ι) (c : Call) : (s.move i c).calls i = c := by
  simp only [State.move, Function.update_self]

theorem calls_move_of_ne {j : ι} (hj : j ≠ i) (c : Call) : (s.move i c).calls j = s.calls j := by
  simp only [State.move, Function.update_of_ne hj]

theorem calls_appended_of_ne {j : ι} (hj : j ≠ i) (index : Int) (e : LogEntry) :
    (s.appended i index e).calls j = s.calls j := by
  rw [State.appended, calls_move_of_ne hj]
  rfl

theorem step_nextIndex (i : ι) (tries : Nat) {index : Int}
    (hvalid : valid (appendOps index e) = true)
    (hmod : s.etcd.now.modRev baseKey ≤ s.etcd.revision) :
    step (s.move i (.nextIndex e tries index s.etcd.revision)) (.advance i .ok) =
      some (s.appended i index e) := by
  have hcompare : ∀ c, (s.move i c).etcd.now.modRev baseKey < s.etcd.revision + 1 :=
    fun c => Nat.lt_succ_of_le hmod
  simp only [step, advance, calls_move, State.tryAppend]
  rw [if_neg (by simp [hvalid]), if_pos (hcompare _)]
  exact congrArg some (move_move (s.append i index e) i _ _)

/-- An append that nobody disturbs commits. -/
theorem append_alone {ok : State ι → Label ι → Prop} (hok : ∀ s, ok s (.advance i .ok))
    (h : Consistent s) (hbound : s.commits.length < maxIndex)
    (hcall : s.calls i = .appendLog e tries) (htries : tries ≠ 0)
    (hvalid : ∀ index, valid (appendOps index e) = true) :
    Reaches step ok s (s.appended i (s.commits.length + 1) e) := by
  have hcommit := step_nextIndex i tries (hvalid (s.commits.length + 1)) h.serial.modRev_base_le
  cases hlast : lastLog s.etcd.now with
  | some kv =>
      have hread : step s (.advance i .ok) =
          some (s.move i (.nextIndex e tries (s.commits.length + 1) s.etcd.revision)) := by
        simp only [step, advance, hcall, if_neg htries, State.reads, hlast,
          h.serial.keyIndex_lastLog hbound hlast]
      exact .head (hok _) hread (.head (hok _) hcommit (.refl _))
  | none =>
      have hempty : step s (.advance i .ok) = some (s.move i (.logEmpty e tries)) := by
        simp only [step, advance, hcall, if_neg htries, State.reads, hlast]
      have hread : step (s.move i (.logEmpty e tries)) (.advance i .ok) =
          some (s.move i (.nextIndex e tries (s.commits.length + 1) s.etcd.revision)) := by
        have hnext : baseNext (s.move i (.logEmpty e tries)).etcd.now =
            some ((s.commits.length : Int) + 1) := h.serial.baseNext_eq hbound
        simp only [step, advance, calls_move, State.reads, hnext]
        exact congrArg some (move_move s i _ _)
      exact .head (hok _) hempty (.head (hok _) hread (.head (hok _) hcommit (.refl _)))

/-- A snapshot that nobody disturbs. -/
theorem snapshot_alone {ok : State ι → Label ι → Prop} (hok : ∀ s, ok s (.advance i .ok))
    (hcall : s.calls i = .getSnapshot) :
    Reaches step ok s
      (s.move i (.gotSnapshot (latestIndex s.etcd.now) (activeParts s.etcd.now))) := by
  have hindex : step s (.advance i .ok) =
      some (s.move i (.snapshotIndex (latestIndex s.etcd.now) s.etcd.revision)) := by
    simp only [step, advance, hcall, State.reads]
  have hparts : step (s.move i (.snapshotIndex (latestIndex s.etcd.now) s.etcd.revision))
      (.advance i .ok) =
      some (s.move i (.gotSnapshot (latestIndex s.etcd.now) (activeParts s.etcd.now))) := by
    have hversion : ∀ c, (s.move i c).etcd.version s.etcd.revision = some s.etcd.now :=
      fun _ => s.etcd.version_revision
    simp only [step, advance, calls_move, State.reads, hversion]
    exact congrArg some (move_move s i _ _)
  exact .head (hok _) hindex (.head (hok _) hparts (.refl _))

end Alone

/-! ## Any number of appends -/

/-- One call beside an append of each of the entries. -/
def appendsBeside (c : Call) (es : Nat → LogEntry) : Nat → Call
  | 0 => c
  | n + 1 => .appendLog (es n) 100

/-- The first `n` entries have been committed and nothing else has happened. -/
structure Appended (c : Call) (es : Nat → LogEntry) (n : Nat) (s : State Nat) : Prop where
  consistent : Consistent s
  entries : s.commits.map (fun c => c.record.entry) = (List.range n).map fun k => etcdEntry (es k)
  calls : ∀ j, j = 0 ∨ n < j → s.calls j = appendsBeside c es j
  logged : 0 < n → Logged s.etcd n
  nodes : ∀ kv ∈ s.etcd.now.kvs, nodePrefix.isPrefixOf kv.key = false

section Appends

variable {c : Call} {es : Nat → LogEntry} {n : Nat} {s : State Nat}

theorem Appended.length_commits (h : Appended c es n s) : s.commits.length = n := by
  have hlength := congrArg List.length h.entries
  simpa using hlength

theorem Appended.call (h : Appended c es n s) : s.calls (n + 1) = .appendLog (es n) 100 :=
  h.calls (n + 1) (Or.inr (Nat.lt_succ_self n))

theorem idle_appendsBeside (hc : c.Idle) : ∀ i, (appendsBeside c es i).Idle
  | 0 => hc
  | _ + 1 => trivial

theorem nodes_append {etcd : Store Bytes Value} {index : Int} {e : LogEntry}
    (hvalid : valid (appendOps index e) = true)
    (h : ∀ kv ∈ etcd.now.kvs, nodePrefix.isPrefixOf kv.key = false) :
    ∀ kv ∈ (etcd.commit (appendOps index e)).now.kvs, nodePrefix.isPrefixOf kv.key = false := by
  intro kv hkv
  rcases (mem_appendOps hvalid).mp hkv with rfl | rfl | rfl | ⟨hkv, -⟩
  · exact nodePrefix_baseKey
  · exact nodePrefix_logKey index
  · exact nodePrefix_partKey _
  · exact h kv hkv

/-- Any number of entries that fits the keys can be committed. -/
theorem exists_appended {ok : State Nat → Label Nat → Prop}
    (hok : ∀ s i, ok s (.advance i .ok)) (hc : c.Idle)
    (hvalid : ∀ k index, valid (appendOps index (es k)) = true) (hn : n < maxIndex) :
    ∃ s, Reaches step ok (State.start (appendsBeside c es)) s ∧ Appended c es n s := by
  induction n with
  | zero =>
      refine ⟨_, .refl _, consistent_start (idle_appendsBeside hc), rfl, fun _ _ => rfl, nofun, ?_⟩
      exact fun kv hkv => nomatch hkv
  | succ n ih =>
      obtain ⟨s, hreach, h⟩ := ih (by omega)
      have hlength := h.length_commits
      have hnext := hreach.trans (append_alone (fun s => hok s (n + 1)) h.consistent (by omega)
        h.call (by decide) (hvalid n))
      refine ⟨_, hnext, ?_, ?_, ?_, ?_, ?_⟩
      · obtain ⟨ls, -, hrun⟩ := hnext
        refine consistent_run (idle_appendsBeside hc) hrun ?_
        simp only [State.appended, State.move, State.append, List.length_append,
          List.length_singleton]
        omega
      · simp only [State.appended, State.move, State.append, List.map_append, h.entries,
          List.range_succ, List.map_cons, List.map_nil]
      · intro j hj
        have hne : j ≠ n + 1 := by omega
        exact (calls_appended_of_ne hne _ _).trans (h.calls j (by omega))
      · intro _
        rw [hlength]
        exact ⟨_, (mem_appendOps (hvalid n _)).mpr (Or.inr (Or.inl rfl)), rfl⟩
      · exact nodes_append (hvalid n _) h.nodes

/-- The entry of index `10 ^ 16` is not the one with the last key. -/
theorem latestIndex_wide {ι : Type} {etcd : Store Bytes Value} {commits : List (Commit ι)}
    (h : Serial etcd commits) (hlength : commits.length = maxIndex - 1)
    (hlogged : Logged etcd commits.length) {e : LogEntry}
    (hvalid : valid (appendOps maxIndex e) = true) :
    latestIndex (etcd.commit (appendOps maxIndex e)).now = commits.length := by
  have hbound : commits.length < maxIndex := by rw [hlength]; decide
  obtain ⟨kv, hkv, hkey⟩ := logged_append hvalid hlogged
  have hlast : lastLog (etcd.commit (appendOps maxIndex e)).now = some kv := by
    refine Contents.last_eq_some.mpr ⟨hkv, hkey ▸ isPrefixOf_logKey _, fun x hx hdir => ?_⟩
    rw [hkey]
    rcases (mem_appendOps hvalid).mp hx with rfl | rfl | rfl | ⟨hx, -⟩
    · exact absurd hdir (by simp)
    · rw [hlength]
      exact logKey_maxIndex_lt.le
    · exact absurd hdir (by simp)
    · obtain ⟨k, c, hc, rfl⟩ := h.log x hx hdir
      have hk := (List.getElem?_eq_some_iff.mp hc).1
      exact (logKey_le_logKey (by omega) hbound).mpr hk
  rw [latestIndex, hlast, Option.bind_some, keyIndex, hkey, pathBase_logKey,
    parseInt64_format16 hbound]
  rfl

end Appends

end Shrimpd.Registry
