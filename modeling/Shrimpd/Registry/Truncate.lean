import Shrimpd.Registry.Progress

/-!
# Log truncation

Log cleanup reads the active nodes and then their pointers, and deletes the log
entries below the lowest pointer.  Nodes come and go and pointers advance in
between, but no pointer falls, so what is deleted is below the pointer of every
node that was read.  No pointer is above the last index, so the last entry stays.
-/

namespace Shrimpd.Registry

open Shrimpd.Lib Shrimpd.Lib.Etcd Shrimpd.Lib.Exec Shrimpd.Types Shrimpd.Lsm.Replication

/-! ## Pointers -/

/-- The stored pointer of a node; zero if it has none. -/
def pointer (c : Data) (nodeID : Bytes) : Int :=
  ((c.find (pointerKey nodeID)).bind fun kv => kv.value.number?).getD 0

/-- A node's pointer does not fall and is not above the last index; node IDs have no slash. -/
def Advances {ι : Type} (s : State ι) : Label ι → Prop
  | .advance _ _ => True
  | .setQueuePointer nodeID index =>
      47 ∉ nodeID ∧ pointer s.etcd.now nodeID ≤ index ∧ index ≤ s.commits.length
  | .registerNode nodeID => 47 ∉ nodeID
  | .expireNode nodeID => 47 ∉ nodeID

instance {ι : Type} (s : State ι) : ∀ l, Decidable (Advances s l)
  | .advance _ _ => inferInstanceAs (Decidable True)
  | .setQueuePointer _ _ => inferInstanceAs (Decidable (_ ∧ _ ∧ _))
  | .registerNode nodeID => inferInstanceAs (Decidable (47 ∉ nodeID))
  | .expireNode nodeID => inferInstanceAs (Decidable (47 ∉ nodeID))

theorem find_append {etcd : Store Bytes Value} {index : Int} {e : LogEntry}
    (hvalid : valid (appendOps index e) = true) (id : Bytes) :
    (etcd.commit (appendOps index e)).now.find (pointerKey id) =
      etcd.now.find (pointerKey id) := by
  apply Contents.find_congr
  intro kv hkey
  rw [mem_appendOps hvalid]
  have hnode : nodePrefix.isPrefixOf kv.key = true := hkey ▸ isPrefixOf_pointerKey id
  have hbase := ne_of_isPrefixOf hnode nodePrefix_baseKey
  have hlog := ne_of_isPrefixOf hnode (nodePrefix_logKey index)
  have hpart := fun a => ne_of_isPrefixOf hnode (nodePrefix_partKey a)
  constructor
  · rintro (rfl | rfl | rfl | ⟨hkv, -⟩)
    · exact absurd rfl hbase
    · exact absurd rfl hlog
    · exact absurd rfl (hpart _)
    · exact hkv
  · exact fun hkv => Or.inr (Or.inr (Or.inr ⟨hkv, hbase, hlog, hpart _, fun a _ => hpart a⟩))

theorem pointer_of_find {c : Data} {nodeID key : Bytes} {index : Int} {revision : Nat}
    (h : c.find (pointerKey nodeID) = some ⟨key, .text (printInt index), revision⟩)
    (hint : IsInt64 index) : pointer c nodeID = index := by
  have hnumber : (Value.text (printInt index)).number? = some index := parseInt64_printInt hint
  rw [pointer, h, Option.bind_some, hnumber]
  rfl

theorem pointer_of_mem {c : Data} {kv : KV Bytes Value} {nodeID : Bytes} (hkv : kv ∈ c.kvs)
    (hkey : kv.key = pointerKey nodeID) : pointer c nodeID = kv.value.number?.getD 0 := by
  rw [pointer, Contents.find_eq_some.mpr ⟨hkv, hkey⟩]
  rfl

theorem mem_of_foldlM_pointers {kvs : List (KV Bytes Value)}
    (hkvs : ∀ kv ∈ kvs, nodePrefix.isPrefixOf kv.key = true ∧ pointerSuffix.isSuffixOf kv.key = true)
    {ptrs ptrs' : Bytes → Option Int}
    (h : kvs.foldlM (fun ptrs kv => (pointerNode kv.key).map fun id =>
      match kv.value.number? with
      | none => ptrs
      | some p => Function.update ptrs id (some p)) ptrs = some ptrs')
    {nodeID : Bytes} {p : Int} (hp : ptrs' nodeID = some p) :
    ptrs nodeID = some p ∨
      ∃ kv ∈ kvs, kv.key = pointerKey nodeID ∧ kv.value.number? = some p := by
  induction kvs generalizing ptrs with
  | nil =>
      obtain rfl := Option.some.inj h
      exact Or.inl hp
  | cons kv kvs ih =>
      obtain ⟨hkv, hrest⟩ := List.forall_mem_cons.mp hkvs
      rw [List.foldlM_cons, Option.bind_eq_bind, Option.bind_eq_some_iff] at h
      obtain ⟨next, hnext, h⟩ := h
      obtain ⟨id, hid, rfl⟩ := Option.map_eq_some_iff.mp hnext
      have hkey := (pointerNode_eq_some hkv.1 hkv.2).mp hid
      rcases ih hrest h with hstart | ⟨x, hx, hfound⟩
      · cases hnumber : kv.value.number? with
        | none =>
            simp only [hnumber] at hstart
            exact Or.inl hstart
        | some q =>
            simp only [hnumber] at hstart
            by_cases heq : nodeID = id
            · subst heq
              rw [Function.update_self] at hstart
              exact Or.inr ⟨kv, List.mem_cons_self, hkey, hnumber.trans hstart⟩
            · rw [Function.update_of_ne heq] at hstart
              exact Or.inl hstart
      · exact Or.inr ⟨x, List.mem_cons_of_mem kv hx, hfound⟩

/-- A pointer that was read is the stored one. -/
theorem pointer_of_read {c : Data} {ptrs : Bytes → Option Int}
    (h : getNodeQueuePointers c = some ptrs) {nodeID : Bytes} {p : Int}
    (hp : ptrs nodeID = some p) : pointer c nodeID = p := by
  have hkvs : ∀ kv ∈ (c.range nodePrefix.isPrefixOf).filter fun kv =>
      pointerSuffix.isSuffixOf kv.key, kv ∈ c.kvs ∧ nodePrefix.isPrefixOf kv.key = true ∧
        pointerSuffix.isSuffixOf kv.key = true := by
    intro kv hkv
    obtain ⟨hrange, hsuffix⟩ := List.mem_filter.mp hkv
    obtain ⟨hmem, hnode⟩ := Contents.mem_range.mp hrange
    exact ⟨hmem, hnode, hsuffix⟩
  rcases mem_of_foldlM_pointers (fun kv hkv => (hkvs kv hkv).2) h hp with
    hnone | ⟨kv, hkv, hkey, hnumber⟩
  · exact absurd hnone (by simp)
  · rw [pointer_of_mem (hkvs kv hkv).1 hkey, hnumber]
    rfl

theorem minPointer_le {ptrs : Bytes → Option Int} (hptrs : ∀ id, 0 ≤ (ptrs id).getD 0)
    (active : List Bytes) :
    (∀ id ∈ active, (minPointer ptrs active).1 ≤ (ptrs id).getD 0) ∧
      (active ≠ [] → 0 ≤ (minPointer ptrs active).1) := by
  induction active using List.reverseRecOn with
  | nil => exact ⟨nofun, fun h => absurd rfl h⟩
  | append_singleton active id ih =>
      have hid := hptrs id
      have hstep : minPointer ptrs (active ++ [id]) =
          if (minPointer ptrs active).1 < 0 ∨ (ptrs id).getD 0 < (minPointer ptrs active).1 ∨
            (ptrs id).getD 0 = (minPointer ptrs active).1 ∧ id < (minPointer ptrs active).2
          then ((ptrs id).getD 0, id) else minPointer ptrs active := by
        rw [minPointer, List.foldl_concat]
        rfl
      rw [hstep]
      split_ifs with hless
      · refine ⟨?_, fun _ => hid⟩
        refine List.forall_mem_append.mpr ⟨fun x hx => ?_, List.forall_mem_singleton.mpr le_rfl⟩
        have hmin := ih.1 x hx
        have hpos := ih.2 (List.ne_nil_of_mem hx)
        have hx := hptrs x
        simp only
        omega
      · rw [not_or, not_or] at hless
        refine ⟨?_, fun _ => not_lt.mp hless.1⟩
        refine List.forall_mem_append.mpr ⟨ih.1, List.forall_mem_singleton.mpr ?_⟩
        exact not_lt.mp hless.2.1

/-- A cleanup's bound is not above the pointer of an active node. -/
theorem minPointer_read {c : Data} (hc : ∀ id, 0 ≤ pointer c id) {ptrs : Bytes → Option Int}
    (hptrs : getNodeQueuePointers c = some ptrs) {active : List Bytes} {id : Bytes}
    (hid : id ∈ active) : (minPointer ptrs active).1 ≤ pointer c id := by
  have hread : ∀ id, (ptrs id).getD 0 ≤ pointer c id ∧ 0 ≤ (ptrs id).getD 0 := by
    intro id
    have hid := hc id
    cases hp : ptrs id with
    | none => exact ⟨hid, le_rfl⟩
    | some p =>
        rw [pointer_of_read hptrs hp] at hid ⊢
        exact ⟨le_rfl, hid⟩
  exact ((minPointer_le (fun id => (hread id).2) active).1 id hid).trans (hread id).1

/-! ## What a step does -/

/-- Nodes register and expire under IDs without a slash. -/
def Plain {ι : Type} : Label ι → Prop
  | .registerNode nodeID => 47 ∉ nodeID
  | .expireNode nodeID => 47 ∉ nodeID
  | _ => True

section Steps

variable {ι : Type} [DecidableEq ι] {s t : State ι} {l : Label ι}

theorem find_frame {etcd : Store Bytes Value} {ops : List (Op Bytes Value)} {key : Bytes}
    (hvalid : valid ops = true) (hops : ∀ op ∈ ops, op.touches key = false) :
    (etcd.commit ops).now.find key = etcd.now.find key :=
  Contents.find_congr fun _ hkey => mem_commit_of_untouched hvalid (hkey ▸ hops)

/-- Only the node itself changes its stored pointer. -/
theorem stored_of_step (hplain : Plain l) (hstep : Steps s l t) (id : Bytes) :
    t.etcd.now.find (pointerKey id) = s.etcd.now.find (pointerKey id) ∨
      ∃ index, l = .setQueuePointer id index ∧
        t.etcd.now.find (pointerKey id) =
          some ⟨pointerKey id, .text (printInt index), s.etcd.revision + 1⟩ := by
  cases hstep with
  | append hcall hvalid => exact Or.inl (find_append hvalid id)
  | @deleteBatch _ _ _ _ batch =>
      refine Or.inl (find_frame (valid_deletePart batch) fun op hop => ?_)
      obtain ⟨a, -, rfl⟩ := List.mem_map.mp hop
      simpa [deletePart] using ne_of_isPrefixOf (isPrefixOf_pointerKey id) (nodePrefix_partKey a)
  | @truncate _ _ _ minPtr =>
      refine Or.inl (Contents.find_congr fun kv hkey => ?_)
      show kv ∈ (s.etcd.commit [deleteLogs minPtr]).now.kvs ↔ _
      rw [mem_deleteLogs, and_iff_left_iff_imp]
      rintro - ⟨-, hlt⟩
      rw [hkey, pointerKey_eq] at hlt
      exact hlt.not_gt (logKey_lt_nodeKey minPtr _)
  | @setQueuePointer nodeID index =>
      by_cases hid : id = nodeID
      · subst hid
        refine Or.inr ⟨index, rfl, Contents.find_eq_some.mpr ⟨?_, rfl⟩⟩
        exact Store.mem_commit_put.mpr (Or.inl rfl)
      · refine Or.inl (find_frame (valid_put _ _) fun op hop => ?_)
        rw [List.mem_singleton.mp hop, touches_put]
        exact fun heq => hid (pointerKey_inj.mp heq)
  | registerNode =>
      refine Or.inl (find_frame (valid_put _ _) fun op hop => ?_)
      rw [List.mem_singleton.mp hop, touches_put]
      exact (nodeKey_ne_pointerKey hplain).symm
  | expireNode =>
      refine Or.inl (find_frame (valid_expire _) fun op hop => ?_)
      rw [List.mem_singleton.mp hop, touches_delete]
      simpa using (nodeKey_ne_pointerKey hplain).symm
  | _ => exact Or.inl rfl

theorem pointer_of_step (hplain : Plain l) (hstep : Steps s l t) (id : Bytes) :
    pointer t.etcd.now id = pointer s.etcd.now id ∨
      ∃ index, l = .setQueuePointer id index ∧
        (IsInt64 index → pointer t.etcd.now id = index) := by
  rcases stored_of_step hplain hstep id with hsame | ⟨index, hl, hfind⟩
  · exact Or.inl (by rw [pointer, pointer, hsame])
  · exact Or.inr ⟨index, hl, pointer_of_find hfind⟩

theorem call_of_move {i j : ι} {c c' : Call} (h : (s.move j c).calls i = c') :
    c = c' ∨ s.calls i = c' := by
  by_cases hi : i = j
  · subst hi
    exact Or.inl ((calls_move s i c).symm.trans h)
  · exact Or.inr ((calls_move_of_ne hi c).symm.trans h)

/-- Only the read of the pointers makes a call go on to delete. -/
theorem deleteBelow_of_step (hstep : Steps s l t) {i : ι} {active : List Bytes} {minPtr : Int}
    (hcall : t.calls i = .deleteBelow active minPtr) :
    s.calls i = .deleteBelow active minPtr ∨
      t.etcd = s.etcd ∧ t.commits = s.commits ∧ 0 < minPtr ∧
        ∃ ptrs, getNodeQueuePointers s.etcd.now = some ptrs ∧
          minPtr = (minPointer ptrs active).1 := by
  cases hstep with
  | append _ _ _ hc =>
      rcases call_of_move hcall with heq | hold
      · unfold afterAppend at hc
        split_ifs at hc <;> rcases hc with rfl | rfl <;> cases heq
      · exact Or.inl hold
  | oldParts _ hc =>
      rcases call_of_move hcall with heq | hold
      · rcases hc with rfl | ⟨batch, rfl⟩ <;> cases heq
      · exact Or.inl hold
  | deleteBatch _ hc =>
      rcases call_of_move hcall with heq | hold
      · rcases hc with rfl | rfl <;> cases heq
      · exact Or.inl hold
  | deleteBelow _ hptrs hmin =>
      rcases call_of_move hcall with heq | hold
      · obtain ⟨rfl, rfl⟩ := Call.deleteBelow.inj heq
        exact Or.inr ⟨rfl, rfl, hmin, _, hptrs, rfl⟩
      · exact Or.inl hold
  | truncate _ hc =>
      rcases call_of_move hcall with heq | hold
      · rcases hc with rfl | rfl <;> cases heq
      · exact Or.inl hold
  | setQueuePointer => exact Or.inl hcall
  | registerNode => exact Or.inl hcall
  | expireNode => exact Or.inl hcall
  | _ =>
      rcases call_of_move hcall with heq | hold
      · cases heq
      · exact Or.inl hold

/-- Only a cleanup deletes log keys, and only below the bound it has computed. -/
theorem truncated_of_step (hstep : Steps s l t) {n : Nat}
    (hlogged : Logged s.etcd n) (hgone : ¬Logged t.etcd n) :
    ∃ i answer active minPtr, l = .advance i answer ∧
      s.calls i = .deleteBelow active minPtr ∧ logKey n < logKey minPtr := by
  cases hstep with
  | append hcall hvalid hcompare hc => exact absurd (logged_append hvalid hlogged) hgone
  | @deleteBatch i _ _ _ batch _ c hcall hc =>
      have hsame := @logged_commit s.etcd _ (valid_deletePart batch)
        (fun _ => untouched_deletePart batch) n
      exact absurd (hsame.mpr hlogged) hgone
  | @truncate i answer active minPtr _ hcall _ =>
      refine ⟨i, answer, active, minPtr, rfl, hcall, ?_⟩
      obtain ⟨kv, hkv, hkey⟩ := hlogged
      by_contra hnot
      exact hgone ⟨kv, mem_deleteLogs.mpr ⟨hkv, fun hdeleted => hnot (hkey ▸ hdeleted.2)⟩, hkey⟩
  | setQueuePointer =>
      exact absurd ((logged_commit (valid_put _ _)
        fun _ => untouched_put (isPrefixOf_pointerKey _) _).mpr hlogged) hgone
  | registerNode =>
      exact absurd ((logged_commit (valid_put _ _)
        fun _ => untouched_put (isPrefixOf_nodeKey _) _).mpr hlogged) hgone
  | expireNode =>
      exact absurd ((logged_commit (valid_expire _)
        fun _ => untouched_expire _).mpr hlogged) hgone
  | _ => exact absurd hlogged hgone

/-- A log key appears only by the append that commits its index. -/
theorem logged_of_step (hconsistent : Consistent s) (hstep : Steps s l t) {n : Nat}
    (hlogged : Logged t.etcd n) : Logged s.etcd n ∨ s.commits.length < n := by
  cases hstep with
  | append hcall hvalid hcompare =>
      obtain ⟨-, hindex⟩ := hconsistent.append hcall hvalid hcompare
      obtain ⟨kv, hkv, hkey⟩ := hlogged
      have hdir : logDir.isPrefixOf kv.key = true := by rw [hkey]; exact isPrefixOf_logKey n
      rcases (mem_appendOps hvalid).mp hkv with rfl | rfl | rfl | ⟨hold, -⟩
      · exact absurd hdir (by simp)
      · rw [hindex] at hkey
        have heq : s.commits.length + 1 = n := logKey_inj.mp (by exact_mod_cast hkey)
        exact Or.inr (by omega)
      · exact absurd hdir (by simp)
      · exact Or.inl ⟨kv, hold, hkey⟩
  | @deleteBatch i _ _ _ batch _ c hcall hc =>
      exact Or.inl ((logged_commit (valid_deletePart batch)
        fun _ => untouched_deletePart batch).mp hlogged)
  | truncate =>
      obtain ⟨kv, hkv, hkey⟩ := hlogged
      exact Or.inl ⟨kv, (mem_deleteLogs.mp hkv).1, hkey⟩
  | setQueuePointer =>
      exact Or.inl ((logged_commit (valid_put _ _)
        fun _ => untouched_put (isPrefixOf_pointerKey _) _).mp hlogged)
  | registerNode =>
      exact Or.inl ((logged_commit (valid_put _ _)
        fun _ => untouched_put (isPrefixOf_nodeKey _) _).mp hlogged)
  | expireNode =>
      exact Or.inl ((logged_commit (valid_expire _) fun _ => untouched_expire _).mp hlogged)
  | _ => exact Or.inl hlogged

theorem commits_of_step (hconsistent : Consistent s) (hstep : Steps s l t) :
    t.commits = s.commits ∨ Logged t.etcd t.commits.length := by
  cases hstep with
  | append hcall hvalid hcompare =>
      obtain ⟨-, hindex⟩ := hconsistent.append hcall hvalid hcompare
      refine Or.inr ⟨_, (mem_appendOps hvalid).mpr (Or.inr (Or.inl rfl)), ?_⟩
      simp [State.move, State.append, hindex]
  | _ => exact Or.inl rfl

end Steps

/-! ## What cleanup leaves -/

/-- No pointer is stored above the last index; node IDs have no slash. -/
def Bounded {ι : Type} (s : State ι) : Label ι → Prop
  | .setQueuePointer _ index => 0 ≤ index ∧ index ≤ s.commits.length
  | l => Plain l

/-- The last entry is kept: no pointer is above it, and so no cleanup deletes it. -/
structure Kept {ι : Type} (s : State ι) : Prop where
  live : s.commits ≠ [] → Logged s.etcd s.commits.length
  pointers : ∀ id, 0 ≤ pointer s.etcd.now id ∧ pointer s.etcd.now id ≤ s.commits.length
  calls : ∀ i active minPtr, s.calls i = .deleteBelow active minPtr →
    0 < minPtr ∧ minPtr ≤ s.commits.length

/-- Where no pointer falls, a cleanup deletes below the pointers of the nodes it has read. -/
structure Spared {ι : Type} (s : State ι) : Prop extends Kept s where
  floor : ∀ i active minPtr, s.calls i = .deleteBelow active minPtr →
    ∀ id ∈ active, minPtr ≤ pointer s.etcd.now id

section Kept

variable {ι : Type} {s t : State ι} {l : Label ι}

theorem Bounded.plain (h : Bounded s l) : Plain l := by
  cases l with
  | setQueuePointer nodeID index => trivial
  | _ => exact h

theorem Advances.plain (h : Advances s l) : Plain l := by
  cases l with
  | registerNode nodeID => exact h
  | expireNode nodeID => exact h
  | _ => trivial

theorem Advances.bounded (h : Advances s l) (hkept : Kept s) : Bounded s l := by
  cases l with
  | setQueuePointer nodeID index => exact ⟨(hkept.pointers nodeID).1.trans h.2.1, h.2.2⟩
  | _ => exact h.plain

theorem Bounded.isInt64 {id : Bytes} {index : Int} (h : Bounded s (.setQueuePointer id index))
    (hbound : s.commits.length < maxIndex) : IsInt64 index := by
  obtain ⟨hlow, hhigh⟩ := h
  have hmax : (maxIndex : Int) < 2 ^ 63 := by decide
  exact ⟨by omega, by omega⟩

theorem spared_start {calls : ι → Call} (hidle : ∀ i, (calls i).Idle) :
    Spared (State.start calls) := by
  have hcalls : ∀ i active minPtr, calls i ≠ .deleteBelow active minPtr := by
    intro i active minPtr hcall
    have hi := hidle i
    rw [hcall] at hi
    exact hi
  exact ⟨⟨fun h => absurd rfl h, fun id => ⟨le_rfl, le_rfl⟩,
    fun i active minPtr hcall => absurd hcall (hcalls i active minPtr)⟩,
    fun i active minPtr hcall => absurd hcall (hcalls i active minPtr)⟩

/-- The last index of the log is the number of appends. -/
theorem latestIndex_eq (hconsistent : Consistent s) (hkept : Kept s)
    (hbound : s.commits.length < maxIndex) : latestIndex s.etcd.now = s.commits.length := by
  unfold latestIndex
  cases hlast : lastLog s.etcd.now with
  | some kv =>
      rw [Option.bind_some, hconsistent.serial.keyIndex_lastLog hbound hlast]
      rfl
  | none =>
      have hnone := Contents.last_eq_none.mp hlast
      have hnil : s.commits = [] := by
        by_contra hne
        obtain ⟨kv, hkv, hkey⟩ := hkept.live hne
        have hdir := hnone kv hkv
        rw [hkey, isPrefixOf_logKey] at hdir
        exact absurd hdir (by simp)
      rw [hnil]
      rfl

variable [DecidableEq ι]

theorem kept_step (h : Kept s) (hconsistent : Consistent s)
    (hbound : s.commits.length < maxIndex) (hok : Bounded s l) (hstep : Steps s l t) : Kept t := by
  have hgrow := (commits_grow hstep).length_le
  refine ⟨fun hne => ?_, fun id => ?_, fun i active minPtr hcall => ?_⟩
  · rcases commits_of_step hconsistent hstep with hsame | hnew
    · rw [hsame] at hne ⊢
      by_contra hgone
      obtain ⟨i, answer, active, minPtr, -, hcall, hlt⟩ :=
        truncated_of_step hstep (h.live hne) hgone
      obtain ⟨hpos, hle⟩ := h.calls i active minPtr hcall
      obtain ⟨p, rfl⟩ := Int.eq_ofNat_of_zero_le hpos.le
      have hp : p ≤ s.commits.length := by omega
      exact hlt.not_ge ((logKey_le_logKey (by omega) hbound).mpr hp)
    · exact hnew
  · rcases pointer_of_step hok.plain hstep id with hsame | ⟨index, rfl, hindex⟩
    · have hid := h.pointers id
      rw [hsame]
      omega
    · rw [hindex (hok.isInt64 hbound)]
      exact ⟨hok.1, hok.2.trans (by omega)⟩
  · rcases deleteBelow_of_step hstep hcall with hold | ⟨-, hcommits, hpos, ptrs, hptrs, rfl⟩
    · have hold := h.calls i active minPtr hold
      omega
    · refine ⟨hpos, ?_⟩
      rw [hcommits]
      -- with no active node there is no pointer to delete below
      cases active with
      | nil => exact absurd hpos (by simp [minPointer])
      | cons id rest =>
          exact (minPointer_read (fun id => (h.pointers id).1) hptrs List.mem_cons_self).trans
            (h.pointers id).2

theorem spared_step (h : Spared s) (hconsistent : Consistent s)
    (hbound : s.commits.length < maxIndex) (hok : Advances s l) (hstep : Steps s l t) :
    Spared t := by
  have hrises : ∀ id, pointer s.etcd.now id ≤ pointer t.etcd.now id := by
    intro id
    rcases pointer_of_step hok.plain hstep id with hsame | ⟨index, rfl, hindex⟩
    · exact hsame.ge
    · rw [hindex ((hok.bounded h.toKept).isInt64 hbound)]
      exact hok.2.1
  refine ⟨kept_step h.toKept hconsistent hbound (hok.bounded h.toKept) hstep, ?_⟩
  intro i active minPtr hcall id hid
  rcases deleteBelow_of_step hstep hcall with hold | ⟨hetcd, -, -, ptrs, hptrs, rfl⟩
  · exact (h.floor i active minPtr hold id hid).trans (hrises id)
  · rw [hetcd]
    exact minPointer_read (fun id => (h.pointers id).1) hptrs hid

end Kept

section Runs

variable {ι : Type} [DecidableEq ι] {calls : ι → Call} {ls : List (Label ι)} {s t : State ι}

theorem spared_run (hidle : ∀ i, (calls i).Idle)
    (hok : Along step Advances (State.start calls) ls)
    (hrun : exec step (State.start calls) ls = some s) (hbound : s.commits.length < maxIndex) :
    Consistent s ∧ Spared s := by
  refine invariant_along (I := fun u => u.commits.length < maxIndex → Consistent u ∧ Spared u) ?_
    (fun _ => ⟨consistent_start hidle, spared_start hidle⟩) hok hrun hbound
  intro u l v hu hadvances hstep hv
  have hsteps := steps_of_step hstep
  have hlength := (commits_grow hsteps).length_le.trans_lt hv
  obtain ⟨hconsistent, hspared⟩ := hu hlength
  exact ⟨consistent_step hconsistent hv hsteps,
    spared_step hspared hconsistent hlength hadvances hsteps⟩

end Runs

/-- In every run in which pointers advance as they should and indices stay below `10 ^ 16`: a
step removes a log entry only if it is a cleanup's delete, and the entry's index is below the
stored pointer of every node in the active list that the cleanup has read; the log keys are a
run of indices that ends at the last committed one; and the last entry is always there. -/
theorem truncation_spares_active_nodes {ι : Type} [DecidableEq ι] {calls : ι → Call}
    {ls : List (Label ι)} {s : State ι} (hidle : ∀ i, (calls i).Idle)
    (hok : Along step Advances (State.start calls) ls)
    (hrun : exec step (State.start calls) ls = some s) (hbound : s.commits.length < 10 ^ 16) :
    (∀ l t (n : Nat), step s l = some t → Logged s.etcd n → ¬Logged t.etcd n →
      ∃ i answer active minPtr, l = .advance i answer ∧
        s.calls i = .deleteBelow active minPtr ∧
        ∀ id ∈ active, (n : Int) < pointer s.etcd.now id) ∧
    (∃ first, ∀ n, Logged s.etcd n ↔ first ≤ n ∧ n ≤ s.commits.length) ∧
    (∀ kv ∈ s.etcd.now.kvs, logDir.isPrefixOf kv.key = true → ∃ n : Nat, kv.key = logKey n) ∧
    (s.commits ≠ [] → Logged s.etcd s.commits.length) := by
  obtain ⟨hconsistent, hspared⟩ := spared_run hidle hok hrun hbound
  have hserial := hconsistent.serial
  refine ⟨?_, ?_, ?_, hspared.live⟩
  · intro l t n hstep hlogged hgone
    obtain ⟨i, answer, active, minPtr, rfl, hcall, hlt⟩ :=
      truncated_of_step (steps_of_step hstep) hlogged hgone
    refine ⟨i, answer, active, minPtr, rfl, hcall, fun id hid => ?_⟩
    obtain ⟨hpos, hle⟩ := hspared.calls i active minPtr hcall
    obtain ⟨p, rfl⟩ := Int.eq_ofNat_of_zero_le hpos.le
    have hmax : s.commits.length < maxIndex := hbound
    have hn := hserial.le_of_logged hlogged
    have hnp : n < p := by
      by_contra hnot
      exact hlt.not_ge ((logKey_le_logKey (by omega) (by omega)).mpr (not_lt.mp hnot))
    exact (Int.ofNat_lt.mpr hnp).trans_le (hspared.floor i active p hcall id hid)
  · by_cases hsome : ∃ n, Logged s.etcd n
    · classical
      refine ⟨Nat.find hsome, fun n => ⟨fun hn => ?_, fun hn => ?_⟩⟩
      · exact ⟨Nat.find_min' hsome hn, (hserial.le_of_logged hn).2⟩
      · exact hserial.run _ n (Nat.find_spec hsome) hn.1 hn.2
    · refine ⟨s.commits.length + 1, fun n => ⟨fun hn => absurd ⟨n, hn⟩ hsome, fun hn => ?_⟩⟩
      omega
  · intro kv hkv hdir
    obtain ⟨k, c, -, rfl⟩ := hserial.log kv hkv hdir
    exact ⟨k + 1, rfl⟩

/-- The cleanup of the run of two appends, before it deletes. -/
def beforeDelete : List (Label (Fin 3)) := contended.take 12

theorem truncation_spares_active_nodes_contended :
    exec step (State.start demoCalls) beforeDelete = some (demoEnd demoCalls beforeDelete) ∧
      pointer (demoEnd demoCalls beforeDelete).etcd.now (ascii "n1") = 2 ∧
      (∃ first, ∀ n, Logged (demoEnd demoCalls beforeDelete).etcd n ↔
        first ≤ n ∧ n ≤ (demoEnd demoCalls beforeDelete).commits.length) := by
  have hrun : exec step (State.start demoCalls) beforeDelete =
      some (demoEnd demoCalls beforeDelete) := exec_eq_getD (by decide +kernel)
  exact ⟨hrun, by decide +kernel,
    (truncation_spares_active_nodes (by decide) (by decide +kernel) hrun (by decide +kernel)).2.1⟩

/-! ## An index of seventeen digits -/

/-- A registry with one node and its pointer. -/
def State.withNode {ι : Type} (s : State ι) (id : Bytes) (p : Int) : State ι :=
  (s.write [.put (nodeKey id) (.node id)]).write [.put (pointerKey id) (.text (printInt p))]

theorem range_withNode {ι : Type} {s : State ι}
    (hnodes : ∀ kv ∈ s.etcd.now.kvs, nodePrefix.isPrefixOf kv.key = false) {id : Bytes}
    (hid : 47 ∉ id) (p : Int) :
    (s.withNode id p).etcd.now.range nodePrefix.isPrefixOf =
      [⟨nodeKey id, .node id, s.etcd.revision + 1⟩,
        ⟨pointerKey id, .text (printInt p), (s.etcd.commit [.put (nodeKey id) (.node id)]).revision
          + 1⟩] := by
  have hkeys : nodeKey id ++ [] < nodeKey id ++ pointerSuffix :=
    (append_lt_append_left _).mpr (by decide)
  rw [List.append_nil] at hkeys
  refine Contents.range_eq (List.pairwise_pair.mpr hkeys) fun kv => ?_
  rw [Contents.mem_range, State.withNode, State.write, State.write, Store.mem_commit_put,
    Store.mem_commit_put, List.mem_pair]
  constructor
  · rintro ⟨rfl | ⟨rfl | ⟨hkv, -⟩, -⟩, hdir⟩
    · exact Or.inr rfl
    · exact Or.inl rfl
    · exact absurd (hnodes kv hkv) (by simp [hdir])
  · rintro (rfl | rfl)
    · exact ⟨Or.inr ⟨Or.inl rfl, nodeKey_ne_pointerKey hid⟩, isPrefixOf_nodeKey id⟩
    · exact ⟨Or.inl rfl, isPrefixOf_pointerKey id⟩

/-- A cleanup of a node beside its appends. -/
def wideCalls : Nat → Call :=
  appendsBeside (.logCleanup (ascii "n1")) fun _ => demoPut (ascii "n1") (ascii "p1")

theorem getActiveNodes_withNode {ι : Type} {s : State ι}
    (hnodes : ∀ kv ∈ s.etcd.now.kvs, nodePrefix.isPrefixOf kv.key = false) (p : Int) :
    getActiveNodes (s.withNode (ascii "n1") p).etcd.now = [ascii "n1"] := by
  rw [getActiveNodes, range_withNode hnodes (by decide)]
  rfl

theorem getNodeQueuePointers_withNode {ι : Type} {s : State ι}
    (hnodes : ∀ kv ∈ s.etcd.now.kvs, nodePrefix.isPrefixOf kv.key = false) {p : Int}
    (hp : IsInt64 p) : getNodeQueuePointers (s.withNode (ascii "n1") p).etcd.now =
      some (Function.update (fun _ => none) (ascii "n1") (some p)) := by
  have hnumber : (Value.text (printInt p)).number? = some p := parseInt64_printInt hp
  have hnode : pointerNode (pointerKey (ascii "n1")) = some (ascii "n1") := by decide
  have hkeys : ∀ v r v' r', ([⟨nodeKey (ascii "n1"), v, r⟩, ⟨pointerKey (ascii "n1"), v', r'⟩] :
      List (KV Bytes Value)).filter (fun kv => pointerSuffix.isSuffixOf kv.key) =
      [⟨pointerKey (ascii "n1"), v', r'⟩] := fun _ _ _ _ => rfl
  rw [getNodeQueuePointers, range_withNode hnodes (by decide), hkeys]
  simp only [List.foldlM_cons, List.foldlM_nil, hnode, hnumber, Option.map_some]
  rfl

/-- The reads of a cleanup, after the node has registered and stored its pointer. -/
theorem cleanup_alone {ι : Type} [DecidableEq ι] {ok : State ι → Label ι → Prop} {s : State ι}
    {i : ι} {p : Nat} (hok : ∀ s, ok s (.advance i .ok))
    (hregister : ok s (.registerNode (ascii "n1")))
    (hset : ok (s.write [.put (nodeKey (ascii "n1")) (.node (ascii "n1"))])
      (.setQueuePointer (ascii "n1") p))
    (hnodes : ∀ kv ∈ s.etcd.now.kvs, nodePrefix.isPrefixOf kv.key = false)
    (hcall : s.calls i = .logCleanup (ascii "n1")) (hpos : 0 < p) (hint : IsInt64 p) :
    Reaches step ok s ((s.withNode (ascii "n1") p).move i (.deleteBelow [ascii "n1"] p)) := by
  have hstored : step (s.write [.put (nodeKey (ascii "n1")) (.node (ascii "n1"))])
      (.setQueuePointer (ascii "n1") p) = some (s.withNode (ascii "n1") p) := rfl
  have hactive : step (s.withNode (ascii "n1") p) (.advance i .ok) =
      some ((s.withNode (ascii "n1") p).move i (.activeNodes (ascii "n1") [ascii "n1"])) := by
    have hsame : (s.withNode (ascii "n1") p).calls i = .logCleanup (ascii "n1") := hcall
    simp only [step, advance, hsame, State.reads, getActiveNodes_withNode hnodes]
  have hptrs : step ((s.withNode (ascii "n1") p).move i (.activeNodes (ascii "n1") [ascii "n1"]))
      (.advance i .ok) =
      some ((s.withNode (ascii "n1") p).move i (.deleteBelow [ascii "n1"] p)) := by
    have hread : ∀ c, getNodeQueuePointers ((s.withNode (ascii "n1") p).move i c).etcd.now =
        some (Function.update (fun _ => none) (ascii "n1") (some (p : Int))) :=
      fun _ => getNodeQueuePointers_withNode hnodes hint
    have hmin : minPointer (Function.update (fun _ => none) (ascii "n1") (some (p : Int)))
        [ascii "n1"] = ((p : Int), ascii "n1") := by simp [minPointer]
    simp only [step, advance, calls_move, State.reads, hread, hmin]
    rw [if_neg (by simp [hpos.ne']), move_move]
  exact .head hregister rfl (.head hset hstored
    (.head (hok _) hactive (.head (hok _) hptrs (.refl _))))

/-- `10 ^ 16 - 1` entries are committed, the cleanup of the only node is about to delete those
below its pointer, the last index, and another entry is about to be appended. -/
structure AtDelete (s : State Nat) : Prop where
  consistent : Consistent s
  length : s.commits.length = maxIndex - 1
  delete : s.calls 0 = .deleteBelow [ascii "n1"] (maxIndex - 1 : Nat)
  append : s.calls maxIndex = .appendLog (demoPut (ascii "n1") (ascii "p1")) 100
  stored : ∃ revision, s.etcd.now.find (pointerKey (ascii "n1")) =
    some ⟨pointerKey (ascii "n1"), .text (printInt (maxIndex - 1 : Nat)), revision⟩
  logged : Logged s.etcd s.commits.length

theorem idle_wideCalls : ∀ i, (wideCalls i).Idle := idle_appendsBeside trivial

theorem valid_wideOps (index : Int) :
    valid (appendOps index (demoPut (ascii "n1") (ascii "p1"))) = true :=
  valid_appendOps_put rfl index

theorem exists_atDelete {ok : State Nat → Label Nat → Prop}
    (hok : ∀ s i, ok s (.advance i .ok)) (hregister : ∀ s, ok s (.registerNode (ascii "n1")))
    (hset : ∀ s, s.commits.length = maxIndex - 1 → pointer s.etcd.now (ascii "n1") = 0 →
      ok s (.setQueuePointer (ascii "n1") (maxIndex - 1 : Nat))) :
    ∃ s, Reaches step ok (State.start wideCalls) s ∧ AtDelete s := by
  obtain ⟨s, hreach, h⟩ : ∃ s, Reaches step ok (State.start wideCalls) s ∧
      Appended (.logCleanup (ascii "n1")) (fun _ => demoPut (ascii "n1") (ascii "p1"))
        (maxIndex - 1) s :=
    exists_appended hok trivial (fun _ => valid_wideOps) (by decide)
  have hpointer : pointer (s.write [.put (nodeKey (ascii "n1")) (.node (ascii "n1"))]).etcd.now
      (ascii "n1") = 0 := by
    rw [pointer, Contents.find_eq_none.mpr]
    · rfl
    · intro kv hkv hkey
      rcases Store.mem_commit_put.mp hkv with rfl | ⟨hold, -⟩
      · exact nodeKey_ne_pointerKey (by decide) hkey
      · have hnode := h.nodes kv hold
        rw [hkey, isPrefixOf_pointerKey] at hnode
        exact absurd hnode (by decide)
  have hreach := hreach.trans (cleanup_alone (fun s => hok s 0) (hregister s)
    (hset _ h.length_commits hpointer) h.nodes (h.calls 0 (Or.inl rfl)) (by decide)
    (isInt64_natCast (by decide)))
  have hlength : ((s.withNode (ascii "n1") (maxIndex - 1 : Nat)).move 0
      (.deleteBelow [ascii "n1"] (maxIndex - 1 : Nat))).commits.length = maxIndex - 1 :=
    h.length_commits
  refine ⟨_, hreach, ?_, hlength, calls_move _ _ _, ?_, ?_, ?_⟩
  · obtain ⟨ls, -, hrun⟩ := hreach
    exact consistent_run idle_wideCalls hrun (hlength.trans_lt (by decide))
  · rw [calls_move_of_ne (by decide)]
    exact h.call
  · exact ⟨_, Contents.find_eq_some.mpr ⟨Store.mem_commit_put.mpr (Or.inl rfl), rfl⟩⟩
  · rw [hlength]
    have hnode := (logged_commit (valid_put _ _)
      fun _ => untouched_put (isPrefixOf_nodeKey (ascii "n1")) (.node (ascii "n1"))).mpr
      (h.logged (by decide))
    exact (logged_commit (valid_put _ _)
      fun _ => untouched_put (isPrefixOf_pointerKey (ascii "n1")) _).mpr hnode

/-- After `10 ^ 16 - 1` appends a cleanup computes the pointer of the only node, and then another
entry is appended: the delete removes it although its index is above the pointer. -/
theorem wide_index_truncated :
    (∀ i, (wideCalls i).Idle) ∧ ∃ ls s t,
      exec step (State.start wideCalls) ls = some s ∧
      Along step Advances (State.start wideCalls) ls ∧
      s.calls 0 = .deleteBelow [ascii "n1"] (pointer s.etcd.now (ascii "n1")) ∧
      step s (.advance 0 .ok) = some t ∧ Logged s.etcd maxIndex ∧ ¬Logged t.etcd maxIndex ∧
      pointer s.etcd.now (ascii "n1") < maxIndex := by
  have hslash : (47 : UInt8) ∉ ascii "n1" := by decide
  obtain ⟨u, hreach, h⟩ : ∃ u, Reaches step Advances (State.start wideCalls) u ∧ AtDelete u :=
    exists_atDelete (fun _ _ => trivial) (fun _ => hslash) fun s hlength hpointer =>
      ⟨hslash, hpointer.trans_le (Int.natCast_nonneg _), (congrArg Nat.cast hlength).ge⟩
  have hreach := hreach.trans (append_alone (fun _ => trivial) h.consistent
    (by rw [h.length]; decide) h.append (by decide) valid_wideOps)
  have hindex : (u.commits.length : Int) + 1 = maxIndex := by rw [h.length]; decide
  rw [hindex] at hreach
  obtain ⟨ls, hok, hrun⟩ := hreach
  have hdelete : (u.appended maxIndex maxIndex (demoPut (ascii "n1") (ascii "p1"))).calls 0 =
      .deleteBelow [ascii "n1"] (maxIndex - 1 : Nat) :=
    (calls_appended_of_ne (by decide) _ _).trans h.delete
  have hpointer : pointer (u.etcd.commit
      (appendOps maxIndex (demoPut (ascii "n1") (ascii "p1")))).now (ascii "n1") =
      (maxIndex - 1 : Nat) := by
    obtain ⟨revision, hstored⟩ := h.stored
    exact pointer_of_find ((find_append (valid_wideOps _) _).trans hstored)
      (isInt64_natCast (by decide))
  have hstep : step (u.appended maxIndex maxIndex (demoPut (ascii "n1") (ascii "p1")))
      (.advance 0 .ok) =
      some (((u.appended maxIndex maxIndex (demoPut (ascii "n1") (ascii "p1"))).write
        [deleteLogs (maxIndex - 1 : Nat)]).move 0 .cleaned) := by
    simp only [step, advance, hdelete]
  refine ⟨idle_wideCalls, ls, _, _, hrun, hok, hdelete.trans (congrArg _ hpointer.symm), hstep,
    ?_, ?_, ?_⟩
  · exact ⟨_, (mem_appendOps (valid_wideOps _)).mpr (Or.inr (Or.inl rfl)), rfl⟩
  · rintro ⟨kv, hkv, hkey⟩
    apply (mem_deleteLogs.mp hkv).2
    rw [hkey]
    exact ⟨by decide +kernel, logKey_maxIndex_lt⟩
  · exact hpointer.trans_lt (by decide)

end Shrimpd.Registry
