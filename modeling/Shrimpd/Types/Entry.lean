import Shrimpd.Lib.Bytes

/-!
# Entries and part descriptions

The unit of data and its filter, and what is recorded about a part.  Strings are
byte sequences, timestamps are only ever compared, so they are integers here.
-/

namespace Shrimpd.Types

open Shrimpd.Lib

structure Entry where
  timestamp : Int
  data : Bytes
  deriving DecidableEq, Repr

/-- A token together with the part it occurs in. -/
structure IndexEntry where
  token : Bytes
  dataID : Bytes
  deriving DecidableEq, Repr

/-- A row of a part in its sparse index. -/
structure SparseEntry where
  timestamp : Int
  idx : Nat
  deriving DecidableEq, Repr

/-- What the node and etcd know of an immutable part. -/
structure PartMeta where
  id : Bytes
  nodeID : Bytes
  level : Int
  minTimestamp : Int
  maxTimestamp : Int
  count : Nat
  tokens : List Bytes
  tokensTruncated : Bool
  blockCount : Nat
  deriving DecidableEq, Repr

def PartMeta.overlaps (m : PartMeta) (start stop : Int) : Bool :=
  m.maxTimestamp ≥ start && m.minTimestamp ≤ stop

/-- Descriptor of one block of a part file. -/
structure BlockHeader where
  count : Nat
  minTimestamp : Int
  maxTimestamp : Int
  deriving DecidableEq, Repr

/-- ASCII upper case to lower case, byte by byte. -/
def foldByte (c : UInt8) : UInt8 := if 65 ≤ c ∧ c ≤ 90 then c + 32 else c

/-- The window of `term`'s length at offset `i` equals `term` up to ASCII case. -/
def matchesAt (s term : Bytes) (i : Nat) : Bool :=
  ((s.drop i).take term.length).map foldByte == term

/-- `term` occurs in `s` up to ASCII case; `term` is already lower case. -/
def foldContains (s term : Bytes) : Bool :=
  if term.length = 0 then true
  else if s.length < term.length then false
  else (List.range (s.length - term.length + 1)).any (matchesAt s term)

/-- Ties stay in the order in which they were. -/
def sortByTimestamp (es : List Entry) : List Entry :=
  es.insertionSort fun a b => a.timestamp ≤ b.timestamp

theorem sortByTimestamp_perm (es : List Entry) : (sortByTimestamp es).Perm es :=
  List.perm_insertionSort _ es

theorem mem_sortByTimestamp {e : Entry} {es : List Entry} : e ∈ sortByTimestamp es ↔ e ∈ es :=
  (sortByTimestamp_perm es).mem_iff

/-- The documented filter: in the time range, and `term` is a substring. -/
def Entry.matches (e : Entry) (start stop : Int) (term : Bytes) : Bool :=
  if !(e.timestamp ≥ start && e.timestamp ≤ stop) then false
  else if term = [] then true
  else foldContains e.data term

theorem Entry.range_of_matches {e : Entry} {start stop : Int} {term : Bytes}
    (h : e.matches start stop term = true) : start ≤ e.timestamp ∧ e.timestamp ≤ stop := by
  unfold Entry.matches at h
  split_ifs at h with hrange
  all_goals simpa using hrange

/-- The search is a substring test on the folded text. -/
theorem foldContains_iff {s term : Bytes} :
    foldContains s term = true ↔ term <:+: s.map foldByte := by
  unfold foldContains
  split_ifs with hnil hlen
  · rw [List.length_eq_zero_iff] at hnil
    simp [hnil]
  · simp only [false_iff]
    intro hinfix
    have := hinfix.length_le
    rw [List.length_map] at this
    omega
  · rw [List.any_eq_true]
    constructor
    · rintro ⟨i, -, hi⟩
      rw [matchesAt, beq_iff_eq] at hi
      refine ⟨(s.map foldByte).take i, (s.map foldByte).drop (i + term.length), ?_⟩
      rw [← hi, List.map_take, List.map_drop, List.append_assoc]
      have hsplit : ((s.map foldByte).drop i).take term.length ++
          (s.map foldByte).drop (i + term.length) = (s.map foldByte).drop i := by
        rw [← List.drop_drop]
        exact List.take_append_drop _ _
      have hlen' : (((s.map foldByte).drop i).take term.length).length = term.length := by
        rw [← List.map_drop, ← List.map_take, hi]
      rw [hlen', hsplit, List.take_append_drop]
    · rintro ⟨pre, post, heq⟩
      have hcount : pre.length + term.length + post.length = s.length := by
        have := congrArg List.length heq
        simpa [Nat.add_assoc] using this
      refine ⟨pre.length, List.mem_range.mpr (by omega), ?_⟩
      rw [matchesAt, beq_iff_eq, List.map_take, List.map_drop, ← heq, List.append_assoc,
        List.drop_left, List.take_left]

end Shrimpd.Types
