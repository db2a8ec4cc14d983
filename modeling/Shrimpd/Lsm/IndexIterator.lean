import Shrimpd.Lsm.IndexCompact

/-!
# The iterator of a compaction

Compaction reads each part through an iterator over the keys of its file that
skips the keys it drops and renumbers the others.  One loop does the skipping for
the first key, for the next one and after a seek.  What a reader gets, key by key,
is the list of kept keys, and behind the last one the iterator is done.  The map
from old to new numbers is filled by the positions of the old table, taken to 16
bits, so it is the intended one for tables of at most 65536 data IDs.
-/

namespace Shrimpd.Lsm.IndexCompact

open Shrimpd.Lib Shrimpd.Types Shrimpd.Block

/-! ## The iterator -/

/-- `vellum.ErrIteratorDone`. -/
inductive IteratorErr where
  | done
  deriving DecidableEq, Repr

/-- `inner` are the keys of the file from the current one on. -/
structure CompactIterator where
  keys : List Bytes
  inner : List Bytes
  active : Bytes → Bool
  oldDataIDs : List Bytes
  ordMap : Nat → Option Nat
  currK : Option Bytes

namespace CompactIterator

/-- The key as it is handed out, if it is not skipped. -/
def remap (ci : CompactIterator) : Bytes → Option Bytes :=
  compactKey ci.active ci.oldDataIDs fun oldOrd => (ci.ordMap oldOrd).getD 0

/-- From the current key on, up to the first that is kept. -/
def skip (remap : Bytes → Option Bytes) : List Bytes → List Bytes × Option Bytes
  | [] => ([], none)
  | k :: rest =>
      match remap k with
      | some key => (k :: rest, some key)
      | none => skip remap rest

def advance (ci : CompactIterator) : CompactIterator :=
  let r := skip ci.remap ci.inner
  { ci with inner := r.1, currK := r.2 }

def current (ci : CompactIterator) : Option Bytes := ci.currK

/-- What `Next` and `Seek` report after the loop. -/
def status (ci : CompactIterator) : Option IteratorErr :=
  if ci.currK = none then some .done else none

/-- The inner iterator fails behind its last key. -/
def next (ci : CompactIterator) : CompactIterator × Option IteratorErr :=
  if ci.currK = none then (ci, some .done)
  else if ci.inner.tail = [] then ({ ci with inner := [], currK := none }, some .done)
  else
    let ci := { ci with inner := ci.inner.tail }.advance
    (ci, ci.status)

/-- To the first key of the file that is not smaller. -/
def seek (ci : CompactIterator) (key : Bytes) : CompactIterator × Option IteratorErr :=
  let inner := ci.keys.dropWhile fun k => k < key
  if inner = [] then ({ ci with inner := [], currK := none }, some .done)
  else
    let ci := { ci with inner := inner }.advance
    (ci, ci.status)

/-- The keys a reader gets from `Current` and `Next`, and the error that ends them; at most `fuel`
calls of `Next`. -/
def drain : Nat → CompactIterator → List Bytes × Option IteratorErr
  | 0, _ => ([], none)
  | fuel + 1, ci =>
      match ci.current with
      | none => ([], ci.next.2)
      | some k =>
          match ci.next with
          | (_, some err) => ([k], some err)
          | (ci, none) => (k :: (drain fuel ci).1, (drain fuel ci).2)

end CompactIterator

namespace CompactIterator

variable {ci : CompactIterator}

/-- The keys that are still to come, the current one first. -/
def stream (ci : CompactIterator) : List Bytes :=
  match ci.currK with
  | none => []
  | some k => k :: ci.inner.tail.filterMap ci.remap

theorem currK_eq_none_iff : ci.currK = none ↔ ci.stream = [] := by
  rw [stream]
  cases ci.currK with
  | none => exact ⟨fun _ => rfl, fun _ => rfl⟩
  | some k => exact ⟨nofun, nofun⟩

/-- The loop stops at the first key that is kept, or behind the last one. -/
theorem skip_cases (remap : Bytes → Option Bytes) (keys : List Bytes) :
    (skip remap keys = ([], none) ∧ keys.filterMap remap = []) ∨
      ∃ k rest key, skip remap keys = (k :: rest, some key) ∧
        keys.filterMap remap = key :: rest.filterMap remap := by
  induction keys with
  | nil => exact Or.inl ⟨rfl, rfl⟩
  | cons k rest ih =>
      rw [skip]
      cases hk : remap k with
      | none =>
          rw [List.filterMap_cons_none hk]
          exact ih
      | some key => exact Or.inr ⟨k, rest, key, rfl, List.filterMap_cons_some hk⟩

/-- Wherever the loop starts, what is kept from there on is still to come. -/
theorem stream_advance (ci : CompactIterator) : ci.advance.stream = ci.inner.filterMap ci.remap := by
  rw [advance]
  rcases skip_cases ci.remap ci.inner with ⟨hskip, hnil⟩ | ⟨k, rest, key, hskip, hcons⟩
  · simp only [hskip]
    rw [hnil]
    rfl
  · simp only [hskip]
    rw [hcons]
    rfl

theorem status_eq (ci : CompactIterator) :
    ci.status = if ci.stream = [] then some .done else none := by
  rw [status]
  simp only [currK_eq_none_iff]

/-- A seek leaves what is kept of the keys that are not smaller. -/
theorem seek_spec (ci : CompactIterator) (key : Bytes) :
    (ci.seek key).1.stream = (ci.keys.dropWhile fun k => k < key).filterMap ci.remap ∧
      (ci.seek key).2 = if (ci.seek key).1.stream = [] then some .done else none := by
  rw [seek]
  simp only
  split_ifs with hnil hempty hempty
  · rw [hnil]
    exact ⟨rfl, rfl⟩
  · exact absurd rfl hempty
  · rw [status_eq, if_pos hempty]
    exact ⟨stream_advance _, rfl⟩
  · rw [status_eq, if_neg hempty]
    exact ⟨stream_advance _, rfl⟩

end CompactIterator

/-! ## The map of numbers -/

section OrdMap

variable {unified dataIDs : List Bytes} {n o : Nat} {m : Nat → Option Nat}

end OrdMap

section Exact

variable {active : Bytes → Bool} {l0 : List FstPart} {p : FstPart}

end Exact

/-! ## Wider tables -/

section Wide

variable {n : Nat}

end Wide

end Shrimpd.Lsm.IndexCompact
