import Shrimpd.Lib.Buffer

/-!
# The key schema of the registry

Log entries, parts, nodes and queue pointers each have keys of their own kind,
and the base key of the log lies outside all of them.  The index in a log key has
sixteen digits, so that the order of the keys is that of the indices as long as
these have no more.
-/

namespace Shrimpd.Registry

open Shrimpd.Lib

/-! ## Keys -/

def logPrefix : Bytes := ascii "/lsm/log"

def partsPrefix : Bytes := ascii "/lsm/parts/"

def nodePrefix : Bytes := ascii "/lsm/nodes/"

def baseKey : Bytes := ascii "__" ++ logPrefix

def logDir : Bytes := logPrefix ++ ascii "/"

/-- `fmt.Sprintf("%016d", t)`. -/
def format16 (t : Int) : Bytes :=
  if t < 0 then 45 :: paddedDecimal 15 t.natAbs else paddedDecimal 16 t.natAbs

def logKey (t : Int) : Bytes := logDir ++ format16 t

def partKey (id : Bytes) : Bytes := partsPrefix ++ id

def nodeKey (id : Bytes) : Bytes := nodePrefix ++ id

def pointerSuffix : Bytes := ascii "/pointer"

def pointerKey (id : Bytes) : Bytes := nodePrefix ++ id ++ pointerSuffix

/-- The indices for which the order of the keys is that of the numbers. -/
def maxIndex : Nat := 10 ^ 16

/-! ## Reading keys and numbers -/

/-- `strconv.ParseInt(s, 10, 64)`. -/
def parseInt64 (s : Bytes) : Option Int :=
  (match s with
    | 43 :: ds => (parseUint ds).map Int.ofNat
    | s => parseInt s).filter fun t => IsInt64 t

/-- `path.Base(p)`. -/
def pathBase (p : Bytes) : Bytes :=
  let stem := (p.reverse.dropWhile (· == 47)).takeWhile (· != 47)
  if p = [] then ascii "." else if stem = [] then ascii "/" else stem.reverse

/-- `key[len(nodePrefix) : len(key)-len("/pointer")]`, which may be out of range. -/
def pointerNode (key : Bytes) : Option Bytes :=
  if nodePrefix.length + pointerSuffix.length ≤ key.length then
    some ((key.drop nodePrefix.length).take
      (key.length - pointerSuffix.length - nodePrefix.length))
  else none

/-! ## Kinds of keys -/

@[simp] theorem isPrefixOf_logKey (t : Int) : logDir.isPrefixOf (logKey t) = true :=
  List.isPrefixOf_iff_prefix.mpr (List.prefix_append _ _)

@[simp] theorem logDir_baseKey : logDir.isPrefixOf baseKey = false := rfl

@[simp] theorem logDir_partKey (id : Bytes) : logDir.isPrefixOf (partKey id) = false := rfl

@[simp] theorem logDir_nodeKey (id : Bytes) : logDir.isPrefixOf (nodeKey id) = false := rfl

@[simp] theorem isPrefixOf_partKey (id : Bytes) : partsPrefix.isPrefixOf (partKey id) = true :=
  List.isPrefixOf_iff_prefix.mpr (List.prefix_append _ _)

@[simp] theorem partsPrefix_baseKey : partsPrefix.isPrefixOf baseKey = false := rfl

@[simp] theorem partsPrefix_logKey (t : Int) : partsPrefix.isPrefixOf (logKey t) = false := rfl

@[simp] theorem partsPrefix_nodeKey (id : Bytes) : partsPrefix.isPrefixOf (nodeKey id) = false :=
  rfl

@[simp] theorem partsPrefix_pointerKey (id : Bytes) :
    partsPrefix.isPrefixOf (pointerKey id) = false := rfl

@[simp] theorem isPrefixOf_nodeKey (id : Bytes) : nodePrefix.isPrefixOf (nodeKey id) = true :=
  List.isPrefixOf_iff_prefix.mpr (List.prefix_append _ _)

@[simp] theorem isPrefixOf_pointerKey (id : Bytes) :
    nodePrefix.isPrefixOf (pointerKey id) = true := by
  rw [pointerKey, List.append_assoc]
  exact List.isPrefixOf_iff_prefix.mpr (List.prefix_append _ _)

@[simp] theorem nodePrefix_baseKey : nodePrefix.isPrefixOf baseKey = false := rfl

@[simp] theorem nodePrefix_logKey (t : Int) : nodePrefix.isPrefixOf (logKey t) = false := rfl

@[simp] theorem nodePrefix_partKey (id : Bytes) : nodePrefix.isPrefixOf (partKey id) = false := rfl

/-- A key is not of another kind. -/
theorem ne_of_isPrefixOf {kind a b : Bytes} (ha : kind.isPrefixOf a = true)
    (hb : kind.isPrefixOf b = false) : a ≠ b := by
  rintro rfl
  rw [ha] at hb
  exact absurd hb (by simp)

theorem partKey_inj {a b : Bytes} : partKey a = partKey b ↔ a = b := by
  rw [partKey, partKey, List.append_cancel_left_eq]

theorem pointerKey_inj {a b : Bytes} : pointerKey a = pointerKey b ↔ a = b := by
  rw [pointerKey, pointerKey, List.append_cancel_right_eq, List.append_cancel_left_eq]

/-- A node ID without a slash is not taken for a pointer. -/
theorem nodeKey_ne_pointerKey {a b : Bytes} (ha : 47 ∉ a) : nodeKey a ≠ pointerKey b := by
  rw [nodeKey, pointerKey, List.append_assoc, Ne, List.append_cancel_left_eq]
  rintro rfl
  exact ha (List.mem_append_right _ (by decide))

/-- A key of a node or a pointer that ends like a pointer's is one, if it is long enough. -/
theorem pointerNode_eq_some {key id : Bytes} (hnode : nodePrefix.isPrefixOf key = true)
    (hpointer : pointerSuffix.isSuffixOf key = true) :
    pointerNode key = some id ↔ key = pointerKey id := by
  obtain ⟨rest, rfl⟩ := List.isPrefixOf_iff_prefix.mp hnode
  obtain ⟨front, hfront⟩ := List.isSuffixOf_iff_suffix.mp hpointer
  unfold pointerNode pointerKey
  rw [List.append_assoc, List.append_cancel_left_eq, List.length_append, List.drop_left]
  constructor
  · intro h
    split_ifs at h with hlength
    obtain rfl := Option.some.inj h
    -- the last bytes are those of the suffix
    rw [← List.take_append_drop (rest.length - pointerSuffix.length) rest,
      ← List.append_assoc] at hfront
    have hdrop := (List.append_inj' hfront (by rw [List.length_drop]; omega)).2
    have hcut : nodePrefix.length + rest.length - pointerSuffix.length - nodePrefix.length =
        rest.length - pointerSuffix.length := by omega
    rw [hcut]
    calc rest = rest.take (rest.length - pointerSuffix.length) ++
          rest.drop (rest.length - pointerSuffix.length) := (List.take_append_drop _ _).symm
      _ = rest.take (rest.length - pointerSuffix.length) ++ pointerSuffix := by rw [← hdrop]
  · rintro rfl
    have hcut : nodePrefix.length + (id ++ pointerSuffix).length - pointerSuffix.length -
        nodePrefix.length = id.length := by
      rw [List.length_append]
      omega
    rw [if_pos (by rw [List.length_append]; omega), hcut, List.take_left]

/-! ## Log keys -/

theorem format16_natCast (n : Nat) : format16 n = paddedDecimal 16 n := by
  rw [format16, if_neg (by omega), Int.natAbs_natCast]

/-- Sixteen digits are not enough for this index. -/
theorem logKey_maxIndex_lt : logKey maxIndex < logKey (maxIndex - 1 : Nat) := by decide +kernel

/-- Log keys come before all others. -/
theorem logKey_lt_baseKey (t : Int) : logKey t < baseKey := by
  show ascii "/" ++ (ascii "lsm/log/" ++ format16 t) < ascii "_" ++ ascii "_/lsm/log"
  have hlt : ascii "/" < ascii "_" := by decide
  exact append_lt_append_of_lt (by decide) hlt _ _

theorem logKey_lt_partKey (t : Int) (id : Bytes) : logKey t < partKey id := by
  show ascii "/lsm/l" ++ (ascii "og/" ++ format16 t) < ascii "/lsm/p" ++ (ascii "arts/" ++ id)
  have hlt : ascii "/lsm/l" < ascii "/lsm/p" := by decide
  exact append_lt_append_of_lt (by decide) hlt _ _

theorem logKey_lt_nodeKey (t : Int) (id : Bytes) : logKey t < nodeKey id := by
  show ascii "/lsm/l" ++ (ascii "og/" ++ format16 t) < ascii "/lsm/n" ++ (ascii "odes/" ++ id)
  have hlt : ascii "/lsm/l" < ascii "/lsm/n" := by decide
  exact append_lt_append_of_lt (by decide) hlt _ _

theorem pointerKey_eq (id : Bytes) : pointerKey id = nodeKey (id ++ pointerSuffix) := by
  rw [pointerKey, nodeKey, List.append_assoc]

theorem logKey_lt_logKey {m n : Nat} (h : m < n) (hn : n < maxIndex) : logKey m < logKey n := by
  rw [logKey, logKey, append_lt_append_left, format16_natCast, format16_natCast]
  exact paddedDecimal_lt_paddedDecimal h hn

theorem logKey_le_logKey {m n : Nat} (hm : m < maxIndex) (hn : n < maxIndex) :
    logKey m ≤ logKey n ↔ m ≤ n := by
  constructor
  · intro h
    by_contra hlt
    exact absurd (logKey_lt_logKey (not_le.mp hlt) hm) (not_lt.mpr h)
  · intro h
    rcases h.eq_or_lt with rfl | hlt
    · exact le_rfl
    · exact (logKey_lt_logKey hlt hn).le

theorem logKey_inj {m n : Nat} : logKey m = logKey n ↔ m = n := by
  constructor
  · intro h
    rw [logKey, logKey, List.append_cancel_left_eq, format16_natCast, format16_natCast] at h
    have hparse := parseUint_paddedDecimal 16 m (by omega)
    rw [h, parseUint_paddedDecimal 16 n (by omega)] at hparse
    exact (Option.some.inj hparse).symm
  · exact fun h => h ▸ rfl

theorem parseInt64_printInt {t : Int} (ht : IsInt64 t) : parseInt64 (printInt t) = some t := by
  have hparse := parseInt_printInt t
  unfold parseInt64
  split
  · rename_i ds heq
    -- a printed number does not begin with a plus sign
    have hb := isNumberByte_of_mem_printInt (t := t) (b := 43) (by rw [heq]; simp)
    exact absurd hb (by decide)
  · rw [hparse]
    simpa using ht

theorem parseInt64_format16 {n : Nat} (hn : n < maxIndex) :
    parseInt64 (format16 n) = some (n : Int) := by
  have hparse := parseUint_paddedDecimal 16 n (by omega)
  have hdigit : ∀ b ∈ paddedDecimal 16 n, isDigit b = true :=
    fun b hb => isDigit_of_mem_paddedDecimal hb
  have hint : IsInt64 n := isInt64_natCast (hn.trans (by decide))
  rw [format16_natCast]
  cases hdec : paddedDecimal 16 n with
  | nil => exact absurd hdec (paddedDecimal_ne_nil (by omega) _)
  | cons b bs =>
      rw [hdec] at hparse hdigit
      have hb := hdigit b List.mem_cons_self
      have hplus : b ≠ 43 := by
        rintro rfl
        exact absurd hb (by decide)
      have hminus : b ≠ 45 := by
        rintro rfl
        exact absurd hb (by decide)
      unfold parseInt64
      split
      · rename_i ds heq
        exact absurd (List.cons.inj heq).1 hplus
      · rw [parseInt, if_neg hminus, hparse]
        simpa using hint

theorem pathBase_logKey (n : Nat) : pathBase (logKey n) = format16 n := by
  have hdigit : ∀ b ∈ (format16 n).reverse, b ≠ 47 := by
    intro b hb
    rw [format16_natCast] at hb
    have hb := isDigit_of_mem_paddedDecimal (List.mem_reverse.mp hb)
    rintro rfl
    exact absurd hb (by decide)
  have hne : (format16 n).reverse ≠ [] := by
    rw [format16_natCast, Ne, List.reverse_eq_nil_iff]
    exact paddedDecimal_ne_nil (by omega) n
  have hdir : logDir.reverse = 47 :: logPrefix.reverse := rfl
  have hstem : ((logKey n).reverse.dropWhile (· == 47)).takeWhile (· != 47) =
      (format16 n).reverse := by
    rw [logKey, List.reverse_append, hdir]
    cases hrev : (format16 n).reverse with
    | nil => exact absurd hrev hne
    | cons b bs =>
        rw [hrev] at hdigit
        have hb : (b == 47) = false := by simpa using hdigit b List.mem_cons_self
        rw [List.cons_append, List.dropWhile_cons_of_neg (by simp [hb]), ← List.cons_append,
          List.takeWhile_append_of_pos (by simpa using hdigit)]
        simp
  have hkey : logKey n ≠ [] := by simp [logKey, logDir, logPrefix, ascii]
  simp only [pathBase, hstem, if_neg hkey, if_neg hne, List.reverse_reverse]

end Shrimpd.Registry
