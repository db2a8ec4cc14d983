import Mathlib.Data.List.Lex
import Mathlib.Data.List.Nodup
import Mathlib.Data.List.Induction
import Mathlib.Order.Basic
import Mathlib.Order.Lattice

/-!
# A revisioned key-value store

The contents of the store are kept in key order, and each key has the revision
of its last write.  Every transaction that changes something makes a new
revision; older revisions can still be read.  A transaction that names a key
twice in a write is refused.
-/

namespace Shrimpd.Lib.Etcd

/-- A key with its value and the revision of its last write. -/
structure KV (κ ν : Type) where
  key : κ
  value : ν
  modRev : Nat

/-- The keys of one revision, in order. -/
structure Contents (κ ν : Type) [LinearOrder κ] where
  kvs : List (KV κ ν)
  sorted : kvs.Pairwise fun x y => x.key < y.key

inductive Op (κ ν : Type) where
  | put (key : κ) (value : ν)
  | delete (keys : κ → Bool)

variable {κ ν : Type} [LinearOrder κ]

namespace Contents

def empty : Contents κ ν := ⟨[], List.Pairwise.nil⟩

def put (c : Contents κ ν) (key : κ) (value : ν) (rev : Nat) : Contents κ ν where
  kvs := (c.kvs.filter fun kv => kv.key < key) ++
    ⟨key, value, rev⟩ :: c.kvs.filter fun kv => key < kv.key
  sorted := by
    refine List.pairwise_append.mpr ⟨c.sorted.filter _, ?_, ?_⟩
    · refine List.pairwise_cons.mpr ⟨?_, c.sorted.filter _⟩
      intro kv hkv
      exact of_decide_eq_true (List.mem_filter.mp hkv).2
    · intro x hx y hy
      have hlt : x.key < key := of_decide_eq_true (List.mem_filter.mp hx).2
      rcases List.mem_cons.mp hy with rfl | hy
      · exact hlt
      · exact hlt.trans (of_decide_eq_true (List.mem_filter.mp hy).2)

def delete (c : Contents κ ν) (keys : κ → Bool) : Contents κ ν :=
  ⟨c.kvs.filter fun kv => !keys kv.key, c.sorted.filter _⟩

def find (c : Contents κ ν) (key : κ) : Option (KV κ ν) := c.kvs.find? fun kv => kv.key = key

def range (c : Contents κ ν) (keys : κ → Bool) : List (KV κ ν) := c.kvs.filter fun kv => keys kv.key

def last (c : Contents κ ν) (keys : κ → Bool) : Option (KV κ ν) := (c.range keys).getLast?

/-- Zero for a key that does not exist. -/
def modRev (c : Contents κ ν) (key : κ) : Nat := ((c.find key).map KV.modRev).getD 0

def apply (c : Contents κ ν) (rev : Nat) : Op κ ν → Contents κ ν
  | .put key value => c.put key value rev
  | .delete keys => c.delete keys

def changes (c : Contents κ ν) : Op κ ν → Bool
  | .put _ _ => true
  | .delete keys => c.kvs.any fun kv => keys kv.key

end Contents

/-- The older revisions, the first one first, and the current one. -/
structure Store (κ ν : Type) [LinearOrder κ] where
  past : List (Contents κ ν)
  now : Contents κ ν

def Op.putKey : Op κ ν → Option κ
  | .put key _ => some key
  | .delete _ => none

def Op.deletes (key : κ) : Op κ ν → Bool
  | .put _ _ => false
  | .delete keys => keys key

def Op.touches (key : κ) (op : Op κ ν) : Bool := op.putKey = some key || op.deletes key

/-- No key is put twice, or put and deleted. -/
def valid (ops : List (Op κ ν)) : Bool :=
  (ops.filterMap Op.putKey).Nodup ∧
    ∀ key ∈ ops.filterMap Op.putKey, ∀ op ∈ ops, op.deletes key = false

namespace Store

def empty : Store κ ν := ⟨[], .empty⟩

def revision (s : Store κ ν) : Nat := s.past.length + 1

/-- The contents at a revision, if it exists. -/
def version (s : Store κ ν) (rev : Nat) : Option (Contents κ ν) :=
  if rev = 0 then none else (s.past ++ [s.now])[rev - 1]?

/-- All operations of a transaction have one revision. -/
def commit (s : Store κ ν) (ops : List (Op κ ν)) : Store κ ν :=
  if ops.any s.now.changes then
    ⟨s.past ++ [s.now], ops.foldl (fun c op => c.apply (s.revision + 1) op) s.now⟩
  else s

end Store

/-! ## Reading and writing -/

namespace Contents

variable {c : Contents κ ν} {key : κ} {kv kv' : KV κ ν} {keys : κ → Bool}

theorem eq_of_key (hkv : kv ∈ c.kvs) (hkv' : kv' ∈ c.kvs) (heq : kv.key = kv'.key) : kv = kv' := by
  have hnodup : (c.kvs.map KV.key).Nodup :=
    List.pairwise_map.mpr (c.sorted.imp fun h => h.ne)
  exact List.inj_on_of_nodup_map hnodup hkv hkv' heq

@[simp] theorem mem_put {value : ν} {rev : Nat} :
    kv ∈ (c.put key value rev).kvs ↔ kv = ⟨key, value, rev⟩ ∨ kv ∈ c.kvs ∧ kv.key ≠ key := by
  simp only [put, List.mem_append, List.mem_filter, List.mem_cons, decide_eq_true_eq]
  rw [ne_iff_lt_or_gt]
  tauto

@[simp] theorem mem_delete : kv ∈ (c.delete keys).kvs ↔ kv ∈ c.kvs ∧ keys kv.key = false := by
  simp [delete]

theorem mem_range : kv ∈ c.range keys ↔ kv ∈ c.kvs ∧ keys kv.key = true := by
  simp [range]

/-- A range is determined by its members. -/
theorem range_eq {l : List (KV κ ν)} (hsorted : l.Pairwise fun x y => x.key < y.key)
    (hmem : ∀ kv, kv ∈ c.range keys ↔ kv ∈ l) : c.range keys = l := by
  have hirrefl : ∀ x y : KV κ ν, x.key < y.key → y.key < x.key → x = y :=
    fun x y hxy hyx => absurd hxy hyx.not_gt
  have hrange : (c.range keys).Pairwise fun x y => x.key < y.key := c.sorted.filter _
  have hperm : (c.range keys).Perm l :=
    (List.perm_ext_iff_of_nodup (hrange.imp fun h heq => h.ne (congrArg KV.key heq))
      (hsorted.imp fun h heq => h.ne (congrArg KV.key heq))).mpr hmem
  exact hperm.eq_of_pairwise (fun x y _ _ => hirrefl x y) hrange hsorted

theorem range_congr {c' : Contents κ ν}
    (h : ∀ kv : KV κ ν, keys kv.key = true → (kv ∈ c'.kvs ↔ kv ∈ c.kvs)) :
    c'.range keys = c.range keys := by
  refine range_eq (c.sorted.filter _) fun kv => ?_
  rw [mem_range, mem_range]
  exact and_congr_left (h kv)

/-- A page that has a key has every key of the range before it. -/
theorem mem_take_range {limit : Nat} (h : kv ∈ (c.range keys).take limit)
    (h' : kv' ∈ c.range keys) (hlt : kv'.key < kv.key) : kv' ∈ (c.range keys).take limit := by
  have hsorted : (c.range keys).Pairwise fun x y => x.key < y.key := c.sorted.filter _
  rw [← List.take_append_drop limit (c.range keys)] at hsorted h'
  rcases List.mem_append.mp h' with hpage | hrest
  · exact hpage
  · exact absurd hlt ((List.pairwise_append.mp hsorted).2.2 kv h kv' hrest).asymm

theorem find_eq_some : c.find key = some kv ↔ kv ∈ c.kvs ∧ kv.key = key := by
  constructor
  · intro h
    exact ⟨List.mem_of_find?_eq_some h, by simpa using List.find?_some h⟩
  · rintro ⟨hmem, rfl⟩
    cases hfind : c.find kv.key with
    | none => simpa using List.find?_eq_none.mp hfind kv hmem
    | some x =>
        have hx := List.mem_of_find?_eq_some hfind
        have hkey : x.key = kv.key := by simpa using List.find?_some hfind
        rw [eq_of_key hx hmem hkey]

theorem find_eq_none : c.find key = none ↔ ∀ kv ∈ c.kvs, kv.key ≠ key := by
  simp [find]

theorem find_congr {c' : Contents κ ν}
    (h : ∀ kv : KV κ ν, kv.key = key → (kv ∈ c'.kvs ↔ kv ∈ c.kvs)) : c'.find key = c.find key := by
  apply Option.ext
  intro kv
  rw [find_eq_some, find_eq_some]
  exact and_congr_left (h kv)

theorem last_eq_none : c.last keys = none ↔ ∀ kv ∈ c.kvs, keys kv.key = false := by
  simp [last, range]

theorem last_eq_some : c.last keys = some kv ↔
    kv ∈ c.kvs ∧ keys kv.key = true ∧ ∀ x ∈ c.kvs, keys x.key = true → x.key ≤ kv.key := by
  constructor
  · intro h
    obtain ⟨init, hinit⟩ := List.getLast?_eq_some_iff.mp h
    have hmem : kv ∈ c.range keys := by simp [hinit]
    refine ⟨(mem_range.mp hmem).1, (mem_range.mp hmem).2, fun x hx hkey => ?_⟩
    have hrange : x ∈ c.range keys := mem_range.mpr ⟨hx, hkey⟩
    have hsorted : (c.range keys).Pairwise fun x y => x.key < y.key := c.sorted.filter _
    rw [hinit] at hrange hsorted
    rcases List.mem_append.mp hrange with hx | hx
    · exact ((List.pairwise_append.mp hsorted).2.2 x hx kv (by simp)).le
    · rw [List.mem_singleton.mp hx]
  · rintro ⟨hmem, hkey, hmax⟩
    cases hlast : c.last keys with
    | none =>
        have hno := last_eq_none.mp hlast kv hmem
        rw [hkey] at hno
        exact absurd hno (by simp)
    | some x =>
        obtain ⟨init, hinit⟩ := List.getLast?_eq_some_iff.mp hlast
        have hx : x ∈ c.range keys := by simp [hinit]
        obtain ⟨hxmem, hxkey⟩ := mem_range.mp hx
        have hsorted : (c.range keys).Pairwise fun x y => x.key < y.key := c.sorted.filter _
        have hrange : kv ∈ c.range keys := mem_range.mpr ⟨hmem, hkey⟩
        rw [hinit] at hrange hsorted
        rcases List.mem_append.mp hrange with hin | hin
        · have hlt := (List.pairwise_append.mp hsorted).2.2 kv hin x (by simp)
          exact absurd (hmax x hxmem hxkey) (not_le.mpr hlt)
        · rw [List.mem_singleton.mp hin]

theorem modRev_of_mem (h : kv ∈ c.kvs) : c.modRev kv.key = kv.modRev := by
  rw [modRev, find_eq_some.mpr ⟨h, rfl⟩]
  rfl

theorem modRev_eq_zero (h : ∀ kv ∈ c.kvs, kv.key ≠ key) : c.modRev key = 0 := by
  rw [modRev, find_eq_none.mpr h]
  rfl

end Contents

theorem touches_put {k key : κ} {value : ν} :
    (Op.put k value).touches key = false ↔ key ≠ k := by
  simp [Op.touches, Op.putKey, Op.deletes, eq_comm]

@[simp] theorem touches_delete (keys : κ → Bool) (key : κ) :
    (Op.delete keys : Op κ ν).touches key = keys key := by
  simp [Op.touches, Op.putKey, Op.deletes]

theorem valid_iff {ops : List (Op κ ν)} : valid ops = true ↔ (ops.filterMap Op.putKey).Nodup ∧
    ∀ key ∈ ops.filterMap Op.putKey, ∀ op ∈ ops, op.deletes key = false := by
  rw [valid, decide_eq_true_eq]

theorem valid_of_concat {ops : List (Op κ ν)} {op : Op κ ν} (h : valid (ops ++ [op]) = true) :
    valid ops = true := by
  rw [valid_iff, List.filterMap_append] at h
  refine valid_iff.mpr ⟨(List.nodup_append.mp h.1).1, fun key hkey op' hop => ?_⟩
  exact h.2 key (List.mem_append_left _ hkey) op' (List.mem_append_left _ hop)

theorem valid_of_deletes {ops : List (Op κ ν)} (h : ∀ op ∈ ops, op.putKey = none) :
    valid ops = true := by
  have hnil : ops.filterMap Op.putKey = [] := List.filterMap_eq_nil_iff.mpr h
  rw [valid_iff, hnil]
  exact ⟨List.nodup_nil, nofun⟩

theorem valid_put (key : κ) (value : ν) : valid [Op.put key value] = true := by
  simp [valid_iff, Op.putKey, Op.deletes]

/-- The result of a transaction: what it puts, and what it does not touch. -/
theorem mem_foldl_apply {ops : List (Op κ ν)} (hvalid : valid ops = true) (c : Contents κ ν)
    (rev : Nat) {kv : KV κ ν} :
    kv ∈ (ops.foldl (fun c op => c.apply rev op) c).kvs ↔
      (∃ key value, Op.put key value ∈ ops ∧ kv = ⟨key, value, rev⟩) ∨
        kv ∈ c.kvs ∧ ∀ op ∈ ops, op.touches kv.key = false := by
  induction ops using List.reverseRecOn with
  | nil => simp
  | append_singleton ops op ih =>
      have ih := ih (valid_of_concat hvalid)
      rw [valid_iff] at hvalid
      rw [List.foldl_concat]
      cases op with
      | put k v =>
          -- no other operation of the transaction puts this key
          have hnew : ∀ key value, Op.put key value ∈ ops → key ≠ k := by
            rintro key value hop rfl
            have hnodup := hvalid.1
            rw [List.filterMap_append, List.nodup_append] at hnodup
            exact hnodup.2.2 key (List.mem_filterMap.mpr ⟨_, hop, rfl⟩) key (by simp [Op.putKey]) rfl
          rw [Contents.apply, Contents.mem_put, ih, List.forall_mem_append,
            List.forall_mem_singleton, touches_put]
          constructor
          · rintro (rfl | ⟨⟨key, value, hop, rfl⟩ | ⟨hkv, hops⟩, hne⟩)
            · exact Or.inl ⟨k, v, by simp, rfl⟩
            · exact Or.inl ⟨key, value, List.mem_append_left _ hop, rfl⟩
            · exact Or.inr ⟨hkv, hops, hne⟩
          · rintro (⟨key, value, hop, rfl⟩ | ⟨hkv, hops, hne⟩)
            · rcases List.mem_append.mp hop with hop | hop
              · exact Or.inr ⟨Or.inl ⟨key, value, hop, rfl⟩, hnew key value hop⟩
              · obtain ⟨rfl, rfl⟩ : key = k ∧ value = v := by simpa using hop
                exact Or.inl rfl
            · exact Or.inr ⟨Or.inr ⟨hkv, hops⟩, hne⟩
      | delete keys =>
          have hkept : ∀ key value, Op.put key value ∈ ops → keys key = false := by
            intro key value hop
            exact hvalid.2 key (List.mem_filterMap.mpr ⟨_, List.mem_append_left _ hop, rfl⟩)
              (.delete keys) (by simp)
          rw [Contents.apply, Contents.mem_delete, ih, List.forall_mem_append,
            List.forall_mem_singleton, touches_delete]
          constructor
          · rintro ⟨⟨key, value, hop, rfl⟩ | ⟨hkv, hops⟩, hkeys⟩
            · exact Or.inl ⟨key, value, List.mem_append_left _ hop, rfl⟩
            · exact Or.inr ⟨hkv, hops, hkeys⟩
          · rintro (⟨key, value, hop, rfl⟩ | ⟨hkv, hops, hkeys⟩)
            · have hop : Op.put key value ∈ ops := by simpa using hop
              exact ⟨Or.inl ⟨key, value, hop, rfl⟩, hkept key value hop⟩
            · exact ⟨Or.inr ⟨hkv, hops⟩, hkeys⟩

namespace Store

variable {s : Store κ ν} {ops : List (Op κ ν)} {rev : Nat}

theorem version_revision (s : Store κ ν) : s.version s.revision = some s.now := by
  simp [version, revision]

theorem revision_of_version {c : Contents κ ν} (h : s.version rev = some c) :
    1 ≤ rev ∧ rev ≤ s.revision := by
  unfold version at h
  split_ifs at h with hzero
  have hlt := (List.getElem?_eq_some_iff.mp h).1
  rw [List.length_append, List.length_singleton] at hlt
  rw [revision]
  omega

theorem commit_eq (h : ops.any s.now.changes = true) : s.commit ops =
    ⟨s.past ++ [s.now], ops.foldl (fun c op => c.apply (s.revision + 1) op) s.now⟩ := by
  rw [commit, if_pos h]

theorem commit_of_not (h : ops.any s.now.changes = false) : s.commit ops = s := by
  rw [commit, if_neg (by simp [h])]

theorem revision_commit (h : ops.any s.now.changes = true) :
    (s.commit ops).revision = s.revision + 1 := by
  simp [commit_eq h, revision]

theorem revision_le_commit (s : Store κ ν) (ops : List (Op κ ν)) :
    s.revision ≤ (s.commit ops).revision := by
  cases h : ops.any s.now.changes with
  | false => rw [commit_of_not h]
  | true => rw [revision_commit h]; exact Nat.le_succ _

theorem mem_commit (hvalid : valid ops = true) {kv : KV κ ν} :
    kv ∈ (s.commit ops).now.kvs ↔
      (∃ key value, Op.put key value ∈ ops ∧ kv = ⟨key, value, s.revision + 1⟩) ∨
        kv ∈ s.now.kvs ∧ ∀ op ∈ ops, op.touches kv.key = false := by
  cases hchanges : ops.any s.now.changes with
  | true =>
      rw [commit_eq hchanges]
      exact mem_foldl_apply hvalid s.now (s.revision + 1)
  | false =>
      rw [commit_of_not hchanges]
      have hidle : ∀ op ∈ ops, s.now.changes op = false := by simpa using hchanges
      have hnone : ¬∃ key value, Op.put key value ∈ ops ∧ kv = ⟨key, value, s.revision + 1⟩ := by
        rintro ⟨key, value, hop, -⟩
        exact absurd (hidle _ hop) (by simp [Contents.changes])
      rw [or_iff_right hnone]
      refine ⟨fun hkv => ⟨hkv, fun op hop => ?_⟩, fun h => h.1⟩
      have hop := hidle op hop
      cases op with
      | put key value => exact absurd hop (by simp [Contents.changes])
      | delete keys =>
          simp only [Contents.changes, List.any_eq_false, Bool.not_eq_true] at hop
          simpa using hop kv hkv

/-- A revision that exists does not change. -/
theorem mem_commit_put {key : κ} {value : ν} {kv : KV κ ν} :
    kv ∈ (s.commit [.put key value]).now.kvs ↔
      kv = ⟨key, value, s.revision + 1⟩ ∨ kv ∈ s.now.kvs ∧ kv.key ≠ key := by
  rw [mem_commit (valid_put key value)]
  simp [touches_put]

theorem version_commit (h : rev ≤ s.revision) : (s.commit ops).version rev = s.version rev := by
  cases hchanges : ops.any s.now.changes with
  | false => rw [commit_of_not hchanges]
  | true =>
      rw [commit_eq hchanges]
      unfold version
      split_ifs with hzero
      · rfl
      · rw [revision] at h
        rw [List.getElem?_append_left (by simp; omega)]

theorem version_commit_cases {c : Contents κ ν} (h : (s.commit ops).version rev = some c) :
    s.version rev = some c ∨
      ops.any s.now.changes = true ∧ rev = s.revision + 1 ∧ c = (s.commit ops).now := by
  rcases Nat.lt_or_ge s.revision rev with hlt | hle
  · have hle := (revision_of_version h).2
    cases hchanges : ops.any s.now.changes with
    | false =>
        rw [commit_of_not hchanges] at hle
        omega
    | true =>
        rw [revision_commit hchanges] at hle
        obtain rfl : rev = s.revision + 1 := by omega
        rw [← revision_commit hchanges, version_revision, Option.some.injEq] at h
        exact Or.inr ⟨rfl, rfl, h.symm⟩
  · rw [version_commit hle] at h
    exact Or.inl h

end Store

end Shrimpd.Lib.Etcd
