import Shrimpd.Lib.Sorted
import Shrimpd.Lib.Utf8
import Shrimpd.Types.Entry
import Mathlib.Data.List.Lex

/-!
# Tokens and token sets

A part carries the set of tokens of its rows: the maximal runs of letters and
numbers, lower case.  The set is capped, and a part whose rows have more tokens
says so.  A term is looked up token by token in the sorted set.
-/

namespace Shrimpd.Block

open Shrimpd.Lib Shrimpd.Types

/-! ## Text -/

/-- The Unicode tables above ASCII: letters and numbers, and lower case. -/
structure Unicode where
  isWord : Nat → Bool
  lower : Nat → Nat

/-- Tables with no letter outside ASCII. -/
def Unicode.asciiOnly : Unicode := ⟨fun _ => false, id⟩

section Text

variable (U : Unicode)

/-- `unicode.IsLetter(r) || unicode.IsNumber(r)`. -/
def isWordRune (r : Nat) : Bool :=
  if r < 0x80 then 48 ≤ r && r ≤ 57 || 65 ≤ r && r ≤ 90 || 97 ≤ r && r ≤ 122 else U.isWord r

/-- `unicode.ToLower`. -/
def lowerRune (r : Nat) : Nat :=
  if r < 0x80 then if 65 ≤ r ∧ r ≤ 90 then r + 32 else r else U.lower r

/-- `strings.ToLower`. -/
def toLower (s : Bytes) : Bytes := (runes s).flatMap fun r => encodeRune (lowerRune U r.1)

/-- `cur` is the run of word runes read so far. -/
def fieldsFrom (cur : Bytes) : List (Nat × Bytes) → List Bytes
  | [] => if cur = [] then [] else [cur]
  | r :: rs =>
      if isWordRune U r.1 then fieldsFrom (cur ++ r.2) rs
      else if cur = [] then fieldsFrom [] rs
      else cur :: fieldsFrom [] rs

def tokenize (s : Bytes) : List Bytes := (fieldsFrom U [] (runes s)).map (toLower U)

variable {U}

theorem foldByte_lt {b : UInt8} (hb : b < 0x80) : foldByte b < 0x80 := by
  unfold foldByte
  rw [UInt8.lt_iff_toNat_lt] at hb ⊢
  split_ifs with hupper
  · rw [UInt8.le_iff_toNat_le, UInt8.le_iff_toNat_le] at hupper
    rw [UInt8.toNat_add]
    simp only [UInt8.reduceToNat] at hupper hb ⊢
    omega
  · exact hb

theorem lowerRune_ascii {b : UInt8} (hb : b < 0x80) :
    lowerRune U b.toNat = (foldByte b).toNat := by
  have hlt : b.toNat < 0x80 := UInt8.lt_iff_toNat_lt.mp hb
  rw [lowerRune, if_pos hlt, foldByte]
  simp only [UInt8.le_iff_toNat_le, UInt8.reduceToNat]
  split_ifs with hupper
  · rw [UInt8.toNat_add]
    simp only [UInt8.reduceToNat]
    omega
  · rfl

/-- On ASCII text, lower case is the byte map the row filter uses. -/
theorem toLower_ascii {s : Bytes} (hs : ∀ b ∈ s, b < 0x80) : toLower U s = s.map foldByte := by
  rw [toLower, runes_ascii hs, List.flatMap_map, List.map_eq_flatMap]
  apply List.flatMap_congr
  intro b hb
  rw [lowerRune_ascii (hs b hb), encodeRune_ascii (foldByte_lt (hs b hb))]

theorem fieldsFrom_append {r : Nat × Bytes} (hr : isWordRune U r.1 = false) (cur : Bytes)
    (rs rest : List (Nat × Bytes)) :
    fieldsFrom U cur (rs ++ r :: rest) = fieldsFrom U cur rs ++ fieldsFrom U [] rest := by
  induction rs generalizing cur with
  | nil =>
      simp only [List.nil_append, fieldsFrom, hr, Bool.false_eq_true, if_false]
      split_ifs <;> rfl
  | cons a rs ih =>
      rw [List.cons_append, fieldsFrom, fieldsFrom]
      split_ifs <;> simp [ih]

/-- Text on both sides of an ASCII separator has its tokens independently. -/
theorem tokenize_append {c : UInt8} (hc : c < 0x80) (hsep : isWordRune U c.toNat = false)
    (s t : Bytes) : tokenize U (s ++ c :: t) = tokenize U s ++ tokenize U t := by
  have hruns : runes (c :: t) = (c.toNat, [c]) :: runes t := by
    rw [runes_cons, decodeRune_ascii hc]
    rfl
  simp only [tokenize, runes_append_ascii hc, hruns, fieldsFrom_append (r := (c.toNat, [c])) hsep,
    List.map_append]

end Text

/-! ## Token sets -/

/-- The cap on a part's token list. -/
def maxTokenSetSize : Nat := 10000

/-- The loop of the token set: known tokens are skipped, a new one over the cap ends it. -/
def collectTokens (out : List Bytes) : List Bytes → List Bytes × Bool
  | [] => (out, false)
  | tok :: toks =>
      if tok ∈ out then collectTokens out toks
      else if out.length = maxTokenSetSize then (out, true)
      else collectTokens (out ++ [tok]) toks

/-- The loop of a compaction: over the cap it goes on and only remembers the overflow. -/
def compactTokens (out : List Bytes) (truncated : Bool) : List Bytes → List Bytes × Bool
  | [] => (out, truncated)
  | tok :: toks =>
      if tok ∈ out then compactTokens out truncated toks
      else if out.length = maxTokenSetSize then compactTokens out true toks
      else compactTokens (out ++ [tok]) truncated toks

def sortTokens (toks : List Bytes) : List Bytes := toks.insertionSort (· ≤ ·)

section Sets

variable (U : Unicode)

/-- All tokens of a list of rows, in row order. -/
def rowTokens (entries : List Entry) : List Bytes := entries.flatMap fun e => tokenize U e.data

def buildTokenSet (entries : List Entry) : List Bytes × Bool :=
  let r := collectTokens [] (rowTokens U entries)
  (sortTokens r.1, r.2)

/-- The token set a compaction accumulates over the rows it writes. -/
def mergedTokenSet (entries : List Entry) : List Bytes × Bool :=
  let r := compactTokens [] false (rowTokens U entries)
  (sortTokens r.1, r.2)

/-- Every token of `term` stands in the sorted list; an empty list cannot prune. -/
def hasToken (tokens : List Bytes) (term : Bytes) : Bool :=
  if term = [] || tokens.length == 0 then true
  else (tokenize U term).all fun tok => (binarySearch tokens tok).2

end Sets

section SetLemmas

variable {U : Unicode}

theorem mem_sortTokens {toks : List Bytes} {t : Bytes} : t ∈ sortTokens toks ↔ t ∈ toks :=
  (List.perm_insertionSort _ toks).mem_iff

theorem sorted_sortTokens (toks : List Bytes) : (sortTokens toks).Pairwise (· ≤ ·) :=
  List.pairwise_insertionSort _ toks

theorem mem_of_mem_collectTokens {toks out : List Bytes} {t : Bytes}
    (h : t ∈ (collectTokens out toks).1) : t ∈ out ∨ t ∈ toks := by
  induction toks generalizing out with
  | nil => exact Or.inl h
  | cons tok toks ih =>
      rw [collectTokens] at h
      split_ifs at h with hmem hcap
      · exact (ih h).imp_right fun ht => by simp [ht]
      · exact Or.inl h
      · rcases ih h with ht | ht
        · rw [List.mem_append, List.mem_singleton] at ht
          exact ht.imp_right fun ht => by simp [ht]
        · exact Or.inr (by simp [ht])

/-- Without overflow nothing is left out. -/
theorem mem_collectTokens {toks out : List Bytes} (hfit : (collectTokens out toks).2 = false)
    {t : Bytes} (ht : t ∈ out ∨ t ∈ toks) : t ∈ (collectTokens out toks).1 := by
  induction toks generalizing out with
  | nil => simpa [collectTokens] using ht
  | cons tok toks ih =>
      rw [collectTokens] at hfit ⊢
      split_ifs at hfit ⊢ with hmem hcap
      · apply ih hfit
        rcases ht with ht | ht
        · exact Or.inl ht
        · rcases List.mem_cons.mp ht with rfl | ht
          · exact Or.inl hmem
          · exact Or.inr ht
      · apply ih hfit
        rcases ht with ht | ht
        · exact Or.inl (by simp [ht])
        · rcases List.mem_cons.mp ht with rfl | ht
          · exact Or.inl (by simp)
          · exact Or.inr ht

theorem compactTokens_full {toks out : List Bytes} (hcap : out.length = maxTokenSetSize) :
    compactTokens out true toks = (out, true) := by
  induction toks with
  | nil => rfl
  | cons tok toks ih =>
      rw [compactTokens]
      split_ifs <;> exact ih

/-- Going on over the cap changes nothing. -/
theorem compactTokens_eq {toks out : List Bytes} :
    compactTokens out false toks = collectTokens out toks := by
  induction toks generalizing out with
  | nil => rfl
  | cons tok toks ih =>
      rw [compactTokens, collectTokens]
      split_ifs with hmem hcap
      · exact ih
      · exact compactTokens_full hcap
      · exact ih

theorem mergedTokenSet_eq (entries : List Entry) :
    mergedTokenSet U entries = buildTokenSet U entries := by
  rw [mergedTokenSet, buildTokenSet, compactTokens_eq]

theorem mem_buildTokenSet {entries : List Entry} (hfit : (buildTokenSet U entries).2 = false)
    {t : Bytes} : t ∈ (buildTokenSet U entries).1 ↔ t ∈ rowTokens U entries := by
  have hcollect : (collectTokens [] (rowTokens U entries)).2 = false := hfit
  simp only [buildTokenSet, mem_sortTokens]
  constructor
  · intro ht
    exact (mem_of_mem_collectTokens ht).resolve_left List.not_mem_nil
  · exact fun ht => mem_collectTokens hcollect (Or.inr ht)

theorem sorted_buildTokenSet (entries : List Entry) :
    (buildTokenSet U entries).1.Pairwise (· ≤ ·) :=
  sorted_sortTokens _

theorem hasToken_iff {tokens : List Bytes} {term : Bytes} (hsorted : tokens.Pairwise (· ≤ ·)) :
    hasToken U tokens term = true ↔
      term = [] ∨ tokens = [] ∨ ∀ tok ∈ tokenize U term, tok ∈ tokens := by
  unfold hasToken
  by_cases hterm : term = []
  · simp [hterm]
  · by_cases htokens : tokens = []
    · simp [htokens]
    · simp [hterm, htokens, binarySearch_found hsorted]

/-- A part's exact token set satisfies a term when its rows hold all the term's tokens. -/
theorem hasToken_buildTokenSet {entries : List Entry} {term : Bytes}
    (hfit : (buildTokenSet U entries).2 = false) :
    hasToken U (buildTokenSet U entries).1 term = true ↔
      term = [] ∨ rowTokens U entries = [] ∨
        ∀ tok ∈ tokenize U term, tok ∈ rowTokens U entries := by
  have hnil : (buildTokenSet U entries).1 = [] ↔ rowTokens U entries = [] := by
    simp only [List.eq_nil_iff_forall_not_mem, mem_buildTokenSet hfit]
  rw [hasToken_iff (sorted_buildTokenSet entries), hnil]
  simp only [mem_buildTokenSet hfit]

end SetLemmas

end Shrimpd.Block
