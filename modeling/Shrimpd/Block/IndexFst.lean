import Shrimpd.Lib.Separated
import Shrimpd.Types.Entry
import Mathlib.Data.Prod.Lex

/-!
# Keys of an index part

An index part is a sorted set of keys.  The key of an entry is its token, a zero
byte and the number of its data ID in a table, two bytes with the high one first.
A lookup reads the keys that start with the token and a zero byte, and takes the
number from behind the first zero byte of each key.  Tokens may have zero bytes
of their own, and then neither the order of the keys nor the lookup is that of
the entries.
-/

namespace Shrimpd.Block

open Shrimpd.Lib Shrimpd.Types

/-! ## Building -/

def compositeKey (token : Bytes) (ordinal : Nat) : Bytes := token ++ 0 :: bigEndian16 ordinal

inductive BuildErr where
  | tooManyIDs (n : Nat)
  | outOfOrder (key : Bytes)
  deriving DecidableEq, Repr

/-- The table: all data IDs, each once, in order. -/
def dataIDTable (entries : List IndexEntry) : List Bytes :=
  (entries.map IndexEntry.dataID).dedup.insertionSort (· ≤ ·)

/-- `uint16(i)` for the position in the table. -/
def ordinal (ids : List Bytes) (id : Bytes) : Nat := ids.idxOf id % 65536

def entryKey (ids : List Bytes) (e : IndexEntry) : Bytes :=
  compositeKey e.token (ordinal ids e.dataID)

/-- A key equal to the one before is skipped; the builder refuses a smaller one. -/
def insertKeys (prevKey : Bytes) (inserted : List Bytes) :
    List Bytes → Except BuildErr (List Bytes)
  | [] => .ok inserted
  | key :: keys =>
      if key = prevKey then insertKeys prevKey inserted keys
      else if key < prevKey then .error (.outOfOrder key)
      else insertKeys key (inserted ++ [key]) keys

/-- The keys and the table of data IDs. -/
def buildIndexFST (entries : List IndexEntry) : Except BuildErr (List Bytes × List Bytes) :=
  let dataIDs := dataIDTable entries
  if dataIDs.length > 65536 then .error (.tooManyIDs dataIDs.length)
  else
    match insertKeys [] [] (entries.map (entryKey dataIDs)) with
    | .error err => .error err
    | .ok keys => .ok (keys, dataIDs)

/-! ## Scanning -/

/-- The number behind the first zero byte, when just two bytes follow. -/
def keyOrdinal (k : Bytes) : Option Nat :=
  let sepIdx := k.idxOf 0
  if sepIdx < k.length ∧ k.length - sepIdx - 1 = 2 then some (readBigEndian16 (k.drop (sepIdx + 1)))
  else none

/-- The data IDs of the keys from `tok` and zero up to `tok` and one. -/
def scanToken (keys dataIDs : List Bytes) (tok : Bytes) : List Bytes :=
  (keys.filter fun k => tok ++ [0] ≤ k ∧ k < tok ++ [1]).filterMap fun k =>
    (keyOrdinal k).bind fun ord => dataIDs[ord]?

/-- By token, then by data ID. -/
def EntryLE (a b : IndexEntry) : Prop := toLex (a.token, a.dataID) ≤ toLex (b.token, b.dataID)

theorem entryLE_iff {a b : IndexEntry} :
    EntryLE a b ↔ a.token < b.token ∨ a.token = b.token ∧ a.dataID ≤ b.dataID :=
  Prod.Lex.toLex_le_toLex

instance : DecidableRel EntryLE := fun _ _ => decidable_of_iff _ entryLE_iff.symm

/-! ## One key -/

section Key

variable {t : Bytes} {o : Nat}

theorem length_compositeKey (t : Bytes) (o : Nat) : (compositeKey t o).length = t.length + 3 := by
  rw [compositeKey, List.length_append]
  rfl

theorem compositeKey_lt_of_ordinal {o' : Nat} (ho' : o' < 65536) (h : o < o') :
    compositeKey t o < compositeKey t o' := by
  rw [compositeKey, compositeKey, append_lt_append_left, List.cons_lt_cons_iff]
  exact Or.inr ⟨rfl, bigEndian16_lt ho' h⟩

/-- Only tokens without a zero byte have their number found again. -/
theorem keyOrdinal_compositeKey (ho : o < 65536) :
    keyOrdinal (compositeKey t o) = if 0 ∈ t then none else some o := by
  have hlen := length_compositeKey t o
  by_cases ht : 0 ∈ t
  · have hidx : (compositeKey t o).idxOf 0 < t.length := by
      rw [compositeKey, List.idxOf_append_of_mem ht]
      exact List.idxOf_lt_length_of_mem ht
    rw [if_pos ht, keyOrdinal]
    exact if_neg (by omega)
  · have hidx : (compositeKey t o).idxOf 0 = t.length := idxOf_separator ht _
    have hdrop : (compositeKey t o).drop (t.length + 1) = bigEndian16 o := by
      rw [compositeKey, ← List.drop_drop, List.drop_left]
      rfl
    rw [if_neg ht, keyOrdinal, hidx, if_pos (by omega), hdrop, readBigEndian16_bigEndian16 ho]

/-- The keys that have a number: a token without a zero byte, the separator and two bytes. -/
theorem keyOrdinal_eq_some_iff {k : Bytes} :
    keyOrdinal k = some o ↔ ∃ t, 0 ∉ t ∧ o < 65536 ∧ k = compositeKey t o := by
  constructor
  · intro h
    rw [keyOrdinal] at h
    split_ifs at h with hsep
    obtain ⟨hidx, hlen⟩ := hsep
    have htail : (k.drop (k.idxOf 0 + 1)).length = 2 := by
      rw [List.length_drop]
      omega
    obtain ⟨hlt, hbytes⟩ := bigEndian16_readBigEndian16 htail
    obtain rfl := Option.some.inj h
    have hzero : 0 ∈ k := List.idxOf_lt_length_iff.mp hidx
    obtain ⟨t, rest, hk, ht⟩ := List.eq_append_cons_of_mem hzero
    have hpos : k.idxOf 0 = t.length := by rw [hk, idxOf_separator ht]
    have hrest : k.drop (k.idxOf 0 + 1) = rest := by
      rw [hpos, hk, ← List.drop_drop, List.drop_left]
      rfl
    refine ⟨t, ht, hlt, ?_⟩
    rw [compositeKey, hbytes, hrest]
    exact hk
  · rintro ⟨t, ht, ho, rfl⟩
    rw [keyOrdinal_compositeKey ho, if_neg ht]

/-- Without zero bytes the keys are ordered by token, then by number. -/
theorem compositeKey_lt_iff {t' : Bytes} {o' : Nat} (ht : 0 ∉ t) (ht' : 0 ∉ t') (ho : o < 65536)
    (ho' : o' < 65536) :
    compositeKey t o < compositeKey t' o' ↔ t < t' ∨ t = t' ∧ o < o' := by
  have hkey : ∀ {s s' : Bytes} {n n' : Nat}, 0 ∉ s' → n' < 65536 → s < s' ∨ s = s' ∧ n < n' →
      compositeKey s n < compositeKey s' n' := by
    rintro s s' n n' hs' hn' (hlt | ⟨rfl, hlt⟩)
    · exact separated_lt hs' hlt _ _
    · exact compositeKey_lt_of_ordinal hn' hlt
  refine ⟨fun hlt => ?_, hkey ht' ho'⟩
  rcases lt_trichotomy t t' with htok | rfl | htok
  · exact Or.inl htok
  · refine Or.inr ⟨rfl, ?_⟩
    rcases lt_trichotomy o o' with hord | rfl | hord
    · exact hord
    · exact absurd hlt (lt_irrefl _)
    · exact absurd hlt (lt_asymm (hkey ht ho (Or.inr ⟨rfl, hord⟩)))
  · exact absurd hlt (lt_asymm (hkey ht ho (Or.inl htok)))

/-- The keys in the range of a token: its own, and those where the token goes on with a zero
byte and the number does too. -/
theorem key_in_range_iff (ht : 0 ∉ t) (ho : o < 65536) (tok : Bytes) :
    (tok ++ [0] ≤ compositeKey t o ∧ compositeKey t o < tok ++ [1]) ↔
      tok = t ∨ (tok = t ++ [0] ∧ o < 256) ∨ ∃ hi : UInt8, tok = t ++ [0, hi] ∧ o = 256 * hi.toNat := by
  obtain ⟨hhigh, hlow⟩ := toNat_bigEndian16 ho
  rw [between_iff, compositeKey, prefix_separated_iff ht]
  refine or_congr_right ?_
  constructor
  · rintro ⟨r, rfl, rest, hrest⟩
    match r, hrest with
    | [], hrest =>
        obtain ⟨hzero, -⟩ := List.cons.inj hrest
        rw [← hzero] at hhigh
        exact Or.inl ⟨rfl, by change 0 = o / 256 at hhigh; omega⟩
    | [hi], hrest =>
        obtain ⟨hhi, hlast⟩ := List.cons.inj hrest
        obtain ⟨hzero, -⟩ := List.cons.inj hlast
        rw [← hzero] at hlow
        refine Or.inr ⟨hi, rfl, ?_⟩
        rw [hhi, hhigh]
        change 0 = o % 256 at hlow
        omega
    | _ :: _ :: r, hrest =>
        have hlen := congrArg List.length hrest
        simp [bigEndian16] at hlen
  · rintro (⟨rfl, hlt⟩ | ⟨hi, rfl, heq⟩)
    · refine ⟨[], rfl, [UInt8.ofNat o], ?_⟩
      have hzero : UInt8.ofNat (o / 256) = 0 := by
        rw [Nat.div_eq_of_lt hlt]
        rfl
      rw [bigEndian16, hzero]
      rfl
    · have hhi : UInt8.ofNat (o / 256) = hi := by
        rw [← UInt8.toNat_inj, hhigh]
        omega
      have hzero : UInt8.ofNat o = 0 := by
        rw [← UInt8.toNat_inj, hlow]
        change o % 256 = 0
        omega
      refine ⟨[hi], rfl, [], ?_⟩
      rw [bigEndian16, hhi, hzero]
      rfl

end Key

/-! ## The table of data IDs -/

section Table

variable {entries : List IndexEntry} {ids : List Bytes}

theorem mem_dataIDTable {id : Bytes} :
    id ∈ dataIDTable entries ↔ ∃ e ∈ entries, e.dataID = id := by
  rw [dataIDTable, List.mem_insertionSort, List.mem_dedup, List.mem_map]

theorem sorted_insertionSort_dedup (l : List Bytes) :
    (l.dedup.insertionSort (· ≤ ·)).Pairwise (· < ·) := by
  have hsorted := List.pairwise_insertionSort (· ≤ ·) l.dedup
  have hnodup : (l.dedup.insertionSort (· ≤ ·)).Nodup :=
    (List.perm_insertionSort _ _).nodup_iff.mpr (List.nodup_dedup l)
  exact (hsorted.and hnodup).imp fun h => lt_of_le_of_ne h.1 h.2

theorem sorted_dataIDTable (entries : List IndexEntry) :
    (dataIDTable entries).Pairwise (· < ·) :=
  sorted_insertionSort_dedup _

theorem ordinal_lt (ids : List Bytes) (id : Bytes) : ordinal ids id < 65536 :=
  Nat.mod_lt _ (by decide)

theorem ordinal_eq (hlen : ids.length ≤ 65536) {id : Bytes} (hid : id ∈ ids) :
    ordinal ids id = ids.idxOf id :=
  Nat.mod_eq_of_lt (by have := List.idxOf_lt_length_of_mem hid; omega)

theorem getElem?_ordinal (hlen : ids.length ≤ 65536) {id : Bytes} (hid : id ∈ ids) :
    ids[ordinal ids id]? = some id := by
  rw [ordinal_eq hlen hid]
  exact List.getElem?_idxOf hid

/-- The numbers are ordered as the data IDs. -/
theorem ordinal_lt_ordinal (hsorted : ids.Pairwise (· < ·)) (hlen : ids.length ≤ 65536)
    {a b : Bytes} (ha : a ∈ ids) (hb : b ∈ ids) (h : a < b) : ordinal ids a < ordinal ids b := by
  rw [ordinal_eq hlen ha, ordinal_eq hlen hb]
  have hia := List.idxOf_lt_length_of_mem ha
  have hib := List.idxOf_lt_length_of_mem hb
  by_contra hge
  rcases (not_lt.mp hge).eq_or_lt with heq | hlt
  · have hab : b = a := (List.idxOf_inj hb).mp heq
    exact absurd (hab ▸ h) (lt_irrefl _)
  · have hba := List.pairwise_iff_getElem.mp hsorted _ _ hib hia hlt
    rw [List.getElem_idxOf hib, List.getElem_idxOf hia] at hba
    exact lt_asymm h hba

end Table

/-! ## The order of the keys -/

/-- Where a token is continued by a zero byte, the number of the first entry is smaller than
what follows in the second key. -/
def KeysOrdered (ids : List Bytes) (e e' : IndexEntry) : Prop :=
  ∀ rest, e'.token = e.token ++ 0 :: rest →
    bigEndian16 (ordinal ids e.dataID) < rest ++ 0 :: bigEndian16 (ordinal ids e'.dataID)

section Order

variable {ids : List Bytes} {e e' : IndexEntry}

theorem entryKey_le_iff (hsorted : ids.Pairwise (· < ·)) (hlen : ids.length ≤ 65536)
    (he : e.dataID ∈ ids) (he' : e'.dataID ∈ ids) (hle : EntryLE e e') :
    entryKey ids e ≤ entryKey ids e' ↔ KeysOrdered ids e e' := by
  rcases entryLE_iff.mp hle with hlt | ⟨heq, hid⟩
  · rcases separated_lt_or hlt with ⟨rest, hrest⟩ | hall
    · have hkey : entryKey ids e ≤ entryKey ids e' ↔
          bigEndian16 (ordinal ids e.dataID) ≤
            rest ++ 0 :: bigEndian16 (ordinal ids e'.dataID) := by
        rw [entryKey, entryKey, compositeKey, compositeKey, hrest, List.append_assoc,
          List.cons_append, ← not_lt, append_lt_append_left, List.cons_lt_cons_iff, ← not_lt]
        simp
      have hne : bigEndian16 (ordinal ids e.dataID) ≠
          rest ++ 0 :: bigEndian16 (ordinal ids e'.dataID) := by
        intro h
        have hlen := congrArg List.length h
        simp [bigEndian16] at hlen
      rw [hkey]
      constructor
      · intro hle rest' hrest'
        have hsame : rest = rest' := by
          rw [hrest] at hrest'
          exact (List.cons.inj (List.append_cancel_left hrest')).2
        exact hsame ▸ lt_of_le_of_ne hle hne
      · intro h
        exact (h rest hrest).le
    · refine ⟨fun _ rest hrest => ?_, fun _ => (hall _ _).le⟩
      have hself := hall rest []
      rw [List.append_nil, hrest] at hself
      exact absurd hself (lt_irrefl _)
  · refine ⟨fun _ rest hrest => ?_, fun _ => ?_⟩
    · have hlen := congrArg List.length hrest
      rw [heq, List.length_append, List.length_cons] at hlen
      omega
    · rw [entryKey, entryKey, heq]
      rcases hid.eq_or_lt with hsame | hless
      · rw [hsame]
      · exact (compositeKey_lt_of_ordinal (ordinal_lt _ _)
          (ordinal_lt_ordinal hsorted hlen he he' hless)).le

theorem pairwise_keysOrdered {entries : List IndexEntry} (h : ∀ e ∈ entries, 0 ∉ e.token)
    (ids : List Bytes) : entries.Pairwise (KeysOrdered ids) := by
  refine List.pairwise_of_forall_mem_list fun a _ b hb rest hrest => ?_
  refine absurd ?_ (h b hb)
  rw [hrest]
  exact List.mem_append_right _ List.mem_cons_self

end Order

/-! ## The builder -/

section Builder

variable {prevKey : Bytes} {inserted keys out : List Bytes}

theorem insertKeys_ok (h : (prevKey :: keys).Pairwise (· ≤ ·)) :
    ∃ out, insertKeys prevKey inserted keys = .ok out := by
  induction keys generalizing prevKey inserted with
  | nil => exact ⟨inserted, rfl⟩
  | cons key keys ih =>
      obtain ⟨hfirst, hrest⟩ := List.pairwise_cons.mp h
      rw [insertKeys]
      split_ifs with heq hlt
      · exact ih (heq ▸ hrest)
      · exact absurd hlt (not_lt.mpr (hfirst key List.mem_cons_self))
      · exact ih hrest

/-- What the builder accepts was in order, and it holds each key once. -/
theorem insertKeys_spec (h : insertKeys prevKey inserted keys = .ok out) :
    (prevKey :: keys).Pairwise (· ≤ ·) ∧ ∃ new, out = inserted ++ new ∧
      (prevKey :: new).Pairwise (· < ·) ∧ ∀ k, k ∈ new ↔ k ∈ keys ∧ k ≠ prevKey := by
  induction keys generalizing prevKey inserted with
  | nil =>
      obtain rfl := Except.ok.inj h
      exact ⟨List.pairwise_singleton _ _, [], by simp, List.pairwise_singleton _ _, by simp⟩
  | cons key keys ih =>
      rw [insertKeys] at h
      split_ifs at h with heq hlt
      · obtain ⟨hsorted, new, hout, hnew, hmem⟩ := ih h
        subst heq
        refine ⟨?_, new, hout, hnew, fun k => ?_⟩
        · refine List.pairwise_cons.mpr ⟨fun k hk => ?_, hsorted⟩
          rcases List.mem_cons.mp hk with rfl | hk
          · exact le_rfl
          · exact (List.pairwise_cons.mp hsorted).1 k hk
        · rw [hmem, List.mem_cons]
          constructor
          · exact fun ⟨hk, hne⟩ => ⟨Or.inr hk, hne⟩
          · exact fun ⟨hk, hne⟩ => ⟨hk.resolve_left hne, hne⟩
      · obtain ⟨hsorted, new, rfl, hnew, hmem⟩ := ih h
        have hprev : prevKey < key := lt_of_le_of_ne (not_lt.mp hlt) (Ne.symm heq)
        have hle : ∀ k ∈ key :: keys, key ≤ k := fun k hk =>
          (List.mem_cons.mp hk).elim ge_of_eq ((List.pairwise_cons.mp hsorted).1 k)
        refine ⟨List.pairwise_cons.mpr ⟨fun k hk => hprev.le.trans (hle k hk), hsorted⟩,
          key :: new, by simp, ?_, fun k => ?_⟩
        · refine List.pairwise_cons.mpr ⟨fun k hk => ?_, hnew⟩
          rcases List.mem_cons.mp hk with rfl | hk
          · exact hprev
          · exact hprev.trans ((List.pairwise_cons.mp hnew).1 k hk)
        · rw [List.mem_cons, hmem, List.mem_cons]
          constructor
          · intro hk
            have hmem : k = key ∨ k ∈ keys := hk.imp_right And.left
            exact ⟨hmem, (hprev.trans_le (hle k (List.mem_cons.mpr hmem))).ne'⟩
          · rintro ⟨rfl | hk, -⟩
            · exact Or.inl rfl
            · by_cases hsame : k = key
              · exact Or.inl hsame
              · exact Or.inr ⟨hk, hsame⟩

end Builder

section Build

variable {entries : List IndexEntry} {keys ids : List Bytes}

/-- The keys of a file are those of the entries, in order, with the numbers of a table. -/
structure Built (entries : List IndexEntry) (keys ids : List Bytes) : Prop where
  table : ids.Pairwise (· < ·)
  length : ids.length ≤ 65536
  dataID_mem : ∀ e ∈ entries, e.dataID ∈ ids
  sorted : keys.Pairwise (· < ·)
  mem : ∀ k, k ∈ keys ↔ ∃ e ∈ entries, entryKey ids e = k

theorem built_of_buildIndexFST (h : buildIndexFST entries = .ok (keys, ids)) :
    ids = dataIDTable entries ∧ Built entries keys ids ∧
      (entries.map (entryKey ids)).Pairwise (· ≤ ·) := by
  rw [buildIndexFST] at h
  split_ifs at h with hmany
  cases hinsert : insertKeys [] [] (entries.map (entryKey (dataIDTable entries))) with
  | error err =>
      rw [hinsert] at h
      cases h
  | ok out =>
      rw [hinsert] at h
      obtain ⟨rfl, rfl⟩ := Prod.mk.inj (Except.ok.inj h)
      obtain ⟨hsorted, new, rfl, hnew, hmem⟩ := insertKeys_spec hinsert
      refine ⟨rfl, ⟨sorted_dataIDTable entries, not_lt.mp hmany,
        fun e he => mem_dataIDTable.mpr ⟨e, he, rfl⟩, (List.pairwise_cons.mp hnew).2,
        fun k => ?_⟩, (List.pairwise_cons.mp hsorted).2⟩
      rw [hmem, List.mem_map]
      refine ⟨And.left, fun hk => ⟨hk, ?_⟩⟩
      obtain ⟨e, -, rfl⟩ := hk
      exact List.ne_nil_of_length_pos (by rw [entryKey, length_compositeKey]; omega)

theorem buildIndexFST_ok (hids : (dataIDTable entries).length ≤ 65536)
    (hkeys : (entries.map (entryKey (dataIDTable entries))).Pairwise (· ≤ ·)) :
    ∃ keys, buildIndexFST entries = .ok (keys, dataIDTable entries) := by
  have hnil : ∀ k ∈ entries.map (entryKey (dataIDTable entries)), ([] : Bytes) ≤ k :=
    fun k _ => not_lt.mp (List.not_lt_nil k)
  obtain ⟨keys, hok⟩ : ∃ keys, insertKeys [] [] (entries.map (entryKey (dataIDTable entries))) =
      .ok keys := insertKeys_ok (List.pairwise_cons.mpr ⟨hnil, hkeys⟩)
  refine ⟨keys, ?_⟩
  rw [buildIndexFST, if_neg (not_lt.mpr hids), hok]

/-- The lookup is confused by entries whose token is shorter than its own. -/
def Clash (ids : List Bytes) (tok : Bytes) (e : IndexEntry) : Prop :=
  0 ∉ e.token ∧ ((tok = e.token ++ [0] ∧ ordinal ids e.dataID < 256) ∨
    ∃ hi : UInt8, tok = e.token ++ [0, hi] ∧ ordinal ids e.dataID = 256 * hi.toNat)

theorem Built.mem_scanToken (h : Built entries keys ids) (tok id : Bytes) :
    id ∈ scanToken keys ids tok ↔
      ∃ e ∈ entries, e.dataID = id ∧ ((0 ∉ tok ∧ e.token = tok) ∨ Clash ids tok e) := by
  rw [scanToken, List.mem_filterMap]
  constructor
  · rintro ⟨k, hk, hid⟩
    obtain ⟨hk, hrange⟩ := List.mem_filter.mp hk
    rw [decide_eq_true_eq] at hrange
    obtain ⟨e, he, rfl⟩ := (h.mem k).mp hk
    rw [entryKey, keyOrdinal_compositeKey (ordinal_lt _ _)] at hid
    by_cases hzero : 0 ∈ e.token
    · rw [if_pos hzero] at hid
      cases hid
    · rw [if_neg hzero, Option.bind_some, getElem?_ordinal h.length (h.dataID_mem e he)] at hid
      refine ⟨e, he, Option.some.inj hid, ?_⟩
      rcases (key_in_range_iff hzero (ordinal_lt _ _) tok).mp hrange with heq | hclash
      · exact Or.inl ⟨heq ▸ hzero, heq.symm⟩
      · exact Or.inr ⟨hzero, hclash⟩
  · rintro ⟨e, he, rfl, hcase⟩
    have hzero : 0 ∉ e.token := by
      rcases hcase with ⟨hnot, rfl⟩ | hclash
      · exact hnot
      · exact hclash.1
    refine ⟨entryKey ids e, List.mem_filter.mpr ⟨(h.mem _).mpr ⟨e, he, rfl⟩, ?_⟩, ?_⟩
    · rw [decide_eq_true_eq, entryKey, key_in_range_iff hzero (ordinal_lt _ _)]
      exact hcase.imp (fun hsame => hsame.2.symm) And.right
    · rw [entryKey, keyOrdinal_compositeKey (ordinal_lt _ _), if_neg hzero, Option.bind_some,
        getElem?_ordinal h.length (h.dataID_mem e he)]

theorem not_clash (h : 0 ∉ tok) (ids : List Bytes) (e : IndexEntry) : ¬Clash ids tok e := by
  rintro ⟨-, ⟨rfl, -⟩ | ⟨hi, rfl, -⟩⟩
  · exact h (by simp)
  · exact h (by simp)

/-- A token without a zero byte is found with just its data IDs. -/
theorem Built.mem_scanToken_of_notMem (h : Built entries keys ids) {tok : Bytes} (htok : 0 ∉ tok)
    (id : Bytes) : id ∈ scanToken keys ids tok ↔ ⟨tok, id⟩ ∈ entries := by
  rw [h.mem_scanToken]
  constructor
  · rintro ⟨e, he, rfl, ⟨-, rfl⟩ | hclash⟩
    · exact he
    · exact absurd hclash (not_clash htok ids e)
  · intro he
    exact ⟨_, he, rfl, Or.inl ⟨htok, rfl⟩⟩

end Build

/-- Sorted entries are built into a part in which the lookup of a token gives the data IDs it is
paired with, just when zero bytes in the tokens spoil neither the order nor the lookup. -/
theorem index_keys_faithful_iff {entries : List IndexEntry} (hsorted : entries.Pairwise EntryLE)
    (hids : (dataIDTable entries).length ≤ 65536) (tok : Bytes) :
    (∃ keys ids, buildIndexFST entries = .ok (keys, ids) ∧ keys.Pairwise (· < ·) ∧
        ∀ id, id ∈ scanToken keys ids tok ↔ ⟨tok, id⟩ ∈ entries) ↔
      entries.Pairwise (KeysOrdered (dataIDTable entries)) ∧
        (0 ∈ tok → ∀ id, ⟨tok, id⟩ ∈ entries ↔
          ∃ e ∈ entries, e.dataID = id ∧ Clash (dataIDTable entries) tok e) := by
  have hmem : ∀ e ∈ entries, e.dataID ∈ dataIDTable entries :=
    fun e he => mem_dataIDTable.mpr ⟨e, he, rfl⟩
  have horder : (entries.map (entryKey (dataIDTable entries))).Pairwise (· ≤ ·) ↔
      entries.Pairwise (KeysOrdered (dataIDTable entries)) := by
    rw [List.pairwise_map]
    constructor
    · intro h
      exact List.Pairwise.imp_of_mem (fun ha hb ⟨hle, hkey⟩ =>
        (entryKey_le_iff (sorted_dataIDTable _) hids (hmem _ ha) (hmem _ hb) hle).mp hkey)
        (hsorted.and h)
    · intro h
      exact List.Pairwise.imp_of_mem (fun ha hb ⟨hle, hkey⟩ =>
        (entryKey_le_iff (sorted_dataIDTable _) hids (hmem _ ha) (hmem _ hb) hle).mpr hkey)
        (hsorted.and h)
  constructor
  · rintro ⟨keys, ids, hbuild, -, hscan⟩
    obtain ⟨rfl, hbuilt, hkeys⟩ := built_of_buildIndexFST hbuild
    refine ⟨horder.mp hkeys, fun hzero id => ?_⟩
    rw [← hscan, hbuilt.mem_scanToken]
    simp only [hzero, not_true_eq_false, false_and, false_or]
  · rintro ⟨hkeys, hclash⟩
    obtain ⟨keys, hbuild⟩ := buildIndexFST_ok hids (horder.mpr hkeys)
    obtain ⟨-, hbuilt, -⟩ := built_of_buildIndexFST hbuild
    refine ⟨keys, _, hbuild, hbuilt.sorted, fun id => ?_⟩
    by_cases hzero : 0 ∈ tok
    · rw [hclash hzero, hbuilt.mem_scanToken]
      simp only [hzero, not_true_eq_false, false_and, false_or]
    · exact hbuilt.mem_scanToken_of_notMem hzero id

/-- Two tokens, one the start of the other. -/
theorem index_keys_faithful_plain :
    ∃ keys ids, buildIndexFST [⟨ascii "a", ascii "p1"⟩, ⟨ascii "a", ascii "p2"⟩,
        ⟨ascii "ab", ascii "p1"⟩] = .ok (keys, ids) ∧ keys.Pairwise (· < ·) ∧
      ∀ id, id ∈ scanToken keys ids (ascii "a") ↔
        ⟨ascii "a", id⟩ ∈ [(⟨ascii "a", ascii "p1"⟩ : IndexEntry), ⟨ascii "a", ascii "p2"⟩,
          ⟨ascii "ab", ascii "p1"⟩] := by
  have hids : (dataIDTable [(⟨ascii "a", ascii "p1"⟩ : IndexEntry), ⟨ascii "a", ascii "p2"⟩,
      ⟨ascii "ab", ascii "p1"⟩]).length ≤ 65536 := by decide
  refine (index_keys_faithful_iff (by decide) hids (ascii "a")).mpr
    ⟨pairwise_keysOrdered (by decide) _, fun hzero => ?_⟩
  exact absurd hzero (by decide)

/-- A token that goes on with a zero byte is refused by the builder, although the entries are
sorted; and such a token is found with the data ID of the token it continues. -/
theorem zero_byte_out_of_order :
    [(⟨[97], ascii "p1"⟩ : IndexEntry), ⟨[97], ascii "p2"⟩, ⟨[97, 0], ascii "p1"⟩].Pairwise EntryLE ∧
      buildIndexFST [⟨[97], ascii "p1"⟩, ⟨[97], ascii "p2"⟩, ⟨[97, 0], ascii "p1"⟩] =
        .error (.outOfOrder [97, 0, 0, 0, 0]) ∧
      buildIndexFST [⟨[97], ascii "p1"⟩] = .ok ([[97, 0, 0, 0]], [ascii "p1"]) ∧
      scanToken [[97, 0, 0, 0]] [ascii "p1"] [97, 0] = [ascii "p1"] := by
  refine ⟨by decide, by decide +kernel, by decide +kernel, by decide +kernel⟩

end Shrimpd.Block
