import Shrimpd.Lib.Buffer
import Shrimpd.Lib.Sorted
import Shrimpd.Types.Entry
import Shrimpd.Filter.Matcher

/-!
# Binary blocks

A block of rows is stored as its timestamps, the offsets of its data, and the
data itself, one after the other.  Decoding gives a view with the same rows.
Matchers run over that view; for a literal they search the data as a whole and
look up the row of each hit.
-/

namespace Shrimpd.Block

open Shrimpd.Lib Shrimpd.Types Shrimpd.Filter

/-! ## Encoding -/

structure BinBlock where
  ts : List Int
  offsets : List Nat
  blob : Bytes
  deriving DecidableEq, Repr

/-- Where each row's data starts, and where the last one ends. -/
def offsetsFrom (off : Nat) : List Entry → List Nat
  | [] => [off]
  | e :: es => off :: offsetsFrom (off + e.data.length) es

/-- `dst` is the backing array of the destination up to its capacity. -/
def encodeBinBlock (entries : List Entry) (dst : Bytes) : Bytes :=
  let count := entries.length
  let totalDataSize := (entries.map fun e => e.data.length).sum
  let totalSize := count * 8 + (count + 1) * 4 + totalDataSize
  let dst := if dst.length < totalSize then List.replicate totalSize 0 else dst.take totalSize
  let offsetsStart := count * 8
  let blobStart := offsetsStart + (count + 1) * 4
  let dst := writeChunks dst 0 (entries.map fun e => putUint 8 (toUint 64 e.timestamp))
  let dst := writeChunks dst offsetsStart ((offsetsFrom 0 entries).map (putUint 4))
  writeChunks dst blobStart (entries.map Entry.data)

inductive DecodeErr where
  | tooSmall (len want : Int)
  | firstOffset (off : Nat)
  | tooShort (len want : Nat)
  | nonMonotonic (i : Nat)
  | panics
  deriving DecidableEq, Repr

/-- `n` integers of `w` bytes each. -/
def getUints (w : Nat) : Nat → Bytes → List Nat
  | 0, _ => []
  | n + 1, buf => getUint (buf.take w) :: getUints w n (buf.drop w)

def tsFromBuf (buf : Bytes) (count : Nat) : List Int := (getUints 8 count buf).map (toInt 64)

def offsetsFromBuf (buf : Bytes) (count : Nat) : List Nat :=
  getUints 4 (count + 1) (buf.drop (count * 8))

/-- A negative count passes the first check and then has no slice. -/
def decodeBinBlock (buf : Bytes) (count : Int) : Except DecodeErr BinBlock :=
  let offsetsEnd := count * 8 + (count + 1) * 4
  if (buf.length : Int) < offsetsEnd then .error (.tooSmall buf.length offsetsEnd)
  else if count < 0 then .error .panics
  else
    let n := count.toNat
    let ts := tsFromBuf buf n
    let offsets := offsetsFromBuf buf n
    if n > 0 ∧ offsets.getD 0 0 ≠ 0 then .error (.firstOffset (offsets.getD 0 0))
    else
      let blobEnd := offsetsEnd.toNat + offsets.getD n 0
      if buf.length < blobEnd then .error (.tooShort buf.length blobEnd)
      else
        match (List.range n).find? fun i => offsets.getD (i + 1) 0 < offsets.getD i 0 with
        | some i => .error (.nonMonotonic i)
        | none => .ok ⟨ts, offsets, (buf.take blobEnd).drop offsetsEnd.toNat⟩

def BinBlock.dataBytes (bb : BinBlock) (i : Nat) : Bytes :=
  (bb.blob.take (bb.offsets.getD (i + 1) 0)).drop (bb.offsets.getD i 0)

/-- The rows of the view. -/
def BinBlock.rows (bb : BinBlock) : List Entry :=
  bb.ts.zipIdx.map fun r => ⟨r.1, bb.dataBytes r.2⟩

theorem BinBlock.timestamps_rows (bb : BinBlock) : bb.rows.map Entry.timestamp = bb.ts := by
  rw [BinBlock.rows, List.map_map]
  exact List.zipIdx_map_fst 0 bb.ts

/-- The view of given rows. -/
def BinBlock.ofRows (rows : List Entry) : BinBlock :=
  ⟨rows.map Entry.timestamp, offsetsFrom 0 rows, rows.flatMap Entry.data⟩

/-! ## The view of encoded rows -/

@[simp] theorem length_offsetsFrom (off : Nat) (rows : List Entry) :
    (offsetsFrom off rows).length = rows.length + 1 := by
  induction rows generalizing off with
  | nil => rfl
  | cons e rows ih => rw [offsetsFrom, List.length_cons, ih, List.length_cons]

theorem getD_offsetsFrom (off : Nat) {rows : List Entry} {i : Nat} (hi : i ≤ rows.length) :
    (offsetsFrom off rows).getD i 0 = off + ((rows.take i).flatMap Entry.data).length := by
  induction rows generalizing off i with
  | nil =>
      obtain rfl : i = 0 := by simpa using hi
      simp [offsetsFrom]
  | cons e rows ih =>
      cases i with
      | zero => simp [offsetsFrom]
      | succ i =>
          rw [offsetsFrom, List.getD_cons_succ, ih _ (by simpa using hi), List.take_succ_cons,
            List.flatMap_cons, List.length_append]
          omega

theorem getD_offsetsFrom_mono {rows : List Entry} {i j : Nat} (hij : i ≤ j)
    (hj : j ≤ rows.length) :
    (offsetsFrom 0 rows).getD i 0 ≤ (offsetsFrom 0 rows).getD j 0 := by
  rw [getD_offsetsFrom 0 (hij.trans hj), getD_offsetsFrom 0 hj]
  have hsub : ((rows.take i).flatMap Entry.data).Sublist ((rows.take j).flatMap Entry.data) :=
    (List.take_sublist_take_left hij).flatMap _
  have := hsub.length_le
  omega

theorem dataBytes_ofRows {rows : List Entry} {i : Nat} (hi : i < rows.length) :
    (BinBlock.ofRows rows).dataBytes i = rows[i].data := by
  have hlow := getD_offsetsFrom 0 hi.le
  have hhigh := getD_offsetsFrom 0 (Nat.succ_le_of_lt hi)
  have hsplit : rows.flatMap Entry.data =
      (rows.take (i + 1)).flatMap Entry.data ++ (rows.drop (i + 1)).flatMap Entry.data := by
    rw [← List.flatMap_append, List.take_append_drop]
  have hrow : (rows.take (i + 1)).flatMap Entry.data =
      (rows.take i).flatMap Entry.data ++ rows[i].data := by
    rw [List.take_succ_eq_append_getElem hi, List.flatMap_append, List.flatMap_singleton]
  rw [Nat.zero_add] at hlow hhigh
  simp only [BinBlock.dataBytes, BinBlock.ofRows, hlow, hhigh]
  rw [hsplit, List.take_left, hrow, List.drop_left]

@[simp] theorem rows_ofRows (rows : List Entry) : (BinBlock.ofRows rows).rows = rows := by
  apply List.ext_getElem
  · simp [BinBlock.rows, BinBlock.ofRows]
  · intro i _ hi
    simp only [BinBlock.rows, List.getElem_map, List.getElem_zipIdx, Nat.zero_add,
      dataBytes_ofRows hi]
    simp only [BinBlock.ofRows, List.getElem_map]

/-! ## The round trip -/

theorem length_flatten_putUint (w : Nat) (ns : List Nat) :
    (ns.map (putUint w)).flatten.length = ns.length * w := by
  induction ns with
  | nil => simp
  | cons n ns ih =>
      rw [List.map_cons, List.flatten_cons, List.length_append, length_putUint, ih,
        List.length_cons]
      ring

theorem getUints_putUint (w : Nat) (ns : List Nat) (rest : Bytes) :
    getUints w ns.length ((ns.map (putUint w)).flatten ++ rest) =
      ns.map fun n => getUint (putUint w n) := by
  induction ns with
  | nil => rfl
  | cons n ns ih =>
      have htake : (((n :: ns).map (putUint w)).flatten ++ rest).take w = putUint w n := by
        rw [List.map_cons, List.flatten_cons, List.append_assoc,
          List.take_left' (length_putUint w n)]
      have hdrop : (((n :: ns).map (putUint w)).flatten ++ rest).drop w =
          (ns.map (putUint w)).flatten ++ rest := by
        rw [List.map_cons, List.flatten_cons, List.append_assoc,
          List.drop_left' (length_putUint w n)]
      rw [List.length_cons, getUints, htake, hdrop, ih, List.map_cons]

/-- Whatever the destination held, the result is the three sections in a row. -/
theorem encodeBinBlock_eq (rows : List Entry) (dst : Bytes) :
    encodeBinBlock rows dst =
      ((rows.map fun e => toUint 64 e.timestamp).map (putUint 8)).flatten ++
        ((offsetsFrom 0 rows).map (putUint 4)).flatten ++ rows.flatMap Entry.data := by
  have hts := length_flatten_putUint 8 (rows.map fun e => toUint 64 e.timestamp)
  have hoffsets := length_flatten_putUint 4 (offsetsFrom 0 rows)
  have hdata : (rows.map Entry.data).flatten.length = (rows.map fun e => e.data.length).sum := by
    rw [List.length_flatten, List.map_map]
    rfl
  rw [List.length_map] at hts
  rw [length_offsetsFrom] at hoffsets
  unfold encodeBinBlock
  simp only
  generalize hbuf : (if dst.length < _ then _ else _) = buf
  have hlen : buf.length =
      rows.length * 8 + (rows.length + 1) * 4 + (rows.map fun e => e.data.length).sum := by
    rw [← hbuf]
    split_ifs
    · exact List.length_replicate
    · rw [List.length_take]
      omega
  have hmap : (rows.map fun e => putUint 8 (toUint 64 e.timestamp)) =
      (rows.map fun e => toUint 64 e.timestamp).map (putUint 8) := by
    rw [List.map_map]
    rfl
  rw [hmap]
  nth_rewrite 1 [← hts, ← Nat.zero_add (List.length _)]
  rw [writeChunks_append]
  have hstart : rows.length * 8 + (rows.length + 1) * 4 = 0 +
      (((rows.map fun e => toUint 64 e.timestamp).map (putUint 8)) ++
        (offsetsFrom 0 rows).map (putUint 4)).flatten.length := by
    rw [List.flatten_append, List.length_append]
    omega
  rw [hstart, writeChunks_append, writeChunks_all, List.flatten_append, List.flatten_append,
    List.flatMap_def]
  rw [List.flatten_append, List.flatten_append, List.length_append, List.length_append]
  omega

theorem offsetsFrom_le {rows : List Entry} {x : Nat} (hx : x ∈ offsetsFrom 0 rows) :
    x ≤ (rows.flatMap Entry.data).length := by
  obtain ⟨i, hi, rfl⟩ := List.mem_iff_getElem.mp hx
  rw [length_offsetsFrom] at hi
  have hlast := @getD_offsetsFrom_mono rows i _ (Nat.le_of_lt_succ hi) le_rfl
  rw [getD_offsetsFrom 0 le_rfl, List.take_length, Nat.zero_add] at hlast
  rwa [List.getD_eq_getElem?_getD, List.getElem?_eq_getElem] at hlast

theorem words_timestamps {rows : List Entry} (hts : ∀ e ∈ rows, IsInt64 e.timestamp) :
    (((rows.map fun e => toUint 64 e.timestamp).map fun n => getUint (putUint 8 n)).map
      (toInt 64)) = rows.map Entry.timestamp := by
  induction rows with
  | nil => rfl
  | cons e rows ih =>
      have hrest := ih fun a ha => hts a (List.mem_cons_of_mem _ ha)
      rw [List.map_cons, List.map_cons, List.map_cons, hrest,
        toInt64_word (hts e List.mem_cons_self), List.map_cons]

/-- The two columns of the encoding are read back. -/
theorem columns_encodeBinBlock {rows : List Entry} (hts : ∀ e ∈ rows, IsInt64 e.timestamp)
    (hsize : (rows.flatMap Entry.data).length < 2 ^ 32) (dst : Bytes) :
    tsFromBuf (encodeBinBlock rows dst) rows.length = rows.map Entry.timestamp ∧
      offsetsFromBuf (encodeBinBlock rows dst) rows.length = offsetsFrom 0 rows := by
  have hlen := length_flatten_putUint 8 (rows.map fun e => toUint 64 e.timestamp)
  rw [List.length_map] at hlen
  rw [encodeBinBlock_eq]
  constructor
  · have hcolumn := getUints_putUint 8 (rows.map fun e => toUint 64 e.timestamp)
    rw [List.length_map] at hcolumn
    rw [tsFromBuf, List.append_assoc, hcolumn, words_timestamps hts]
  · have hcolumn := getUints_putUint 4 (offsetsFrom 0 rows)
    rw [length_offsetsFrom] at hcolumn
    rw [offsetsFromBuf, List.append_assoc, List.drop_left' hlen, hcolumn]
    conv_rhs => rw [← List.map_id (offsetsFrom 0 rows)]
    apply List.map_congr_left
    intro x hx
    exact getUint_putUint_of_lt rfl (lt_of_le_of_lt (offsetsFrom_le hx) hsize)

/-- Rows with 64-bit timestamps and less than 4 GiB of data are read back. -/
theorem decodeBinBlock_encode {rows : List Entry} (hts : ∀ e ∈ rows, IsInt64 e.timestamp)
    (hsize : (rows.flatMap Entry.data).length < 2 ^ 32) (dst : Bytes) :
    decodeBinBlock (encodeBinBlock rows dst) rows.length = .ok (BinBlock.ofRows rows) := by
  obtain ⟨hcolTs, hcolOffsets⟩ := columns_encodeBinBlock hts hsize dst
  have hfirst : (offsetsFrom 0 rows).getD 0 0 = 0 := by
    rw [getD_offsetsFrom 0 (Nat.zero_le _)]
    rfl
  have hlast : (offsetsFrom 0 rows).getD rows.length 0 = (rows.flatMap Entry.data).length := by
    rw [getD_offsetsFrom 0 le_rfl, List.take_length, Nat.zero_add]
  have hmono : (List.range rows.length).find?
      (fun i => (offsetsFrom 0 rows).getD (i + 1) 0 < (offsetsFrom 0 rows).getD i 0) = none := by
    rw [List.find?_eq_none]
    intro i hi
    have := getD_offsetsFrom_mono (Nat.le_succ i) (List.mem_range.mp hi)
    simpa using this
  have hend : ((rows.length : Int) * 8 + ((rows.length : Int) + 1) * 4).toNat =
      rows.length * 8 + (rows.length + 1) * 4 := by omega
  have hhead : (((rows.map fun e => toUint 64 e.timestamp).map (putUint 8)).flatten ++
      ((offsetsFrom 0 rows).map (putUint 4)).flatten).length =
        rows.length * 8 + (rows.length + 1) * 4 := by
    rw [List.length_append, length_flatten_putUint, length_flatten_putUint, List.length_map,
      length_offsetsFrom]
  have hlen : (encodeBinBlock rows dst).length =
      rows.length * 8 + (rows.length + 1) * 4 + (rows.flatMap Entry.data).length := by
    rw [encodeBinBlock_eq, List.length_append, hhead]
  have hblob : ((encodeBinBlock rows dst).take (encodeBinBlock rows dst).length).drop
      (rows.length * 8 + (rows.length + 1) * 4) = rows.flatMap Entry.data := by
    rw [List.take_length, encodeBinBlock_eq, List.drop_left' hhead]
  rw [hlen] at hblob
  unfold decodeBinBlock
  simp only
  rw [if_neg (by omega), if_neg (by omega), Int.toNat_natCast, hcolTs, hcolOffsets, hend, hlast,
    if_neg (fun h => h.2 hfirst), if_neg (by omega), hmono, hblob]
  rfl

/-! ## Matchers -/

/-- Why a scan may not return. -/
inductive Stuck where
  | panics
  | loops
  deriving DecidableEq, Repr

/-- `bytes.Index`. -/
def indexOf (s sep : Bytes) : Option Nat :=
  (List.range (s.length + 1)).find? fun i => sep.isPrefixOf (s.drop i)

namespace BinBlock

/-- The row of a byte of the blob, by binary search over the offsets. -/
def rowOf (bb : BinBlock) (pos : Nat) : Int :=
  let k := (binarySearch bb.offsets (pos % 2 ^ 32)).1
  let k := if k > 0 ∧ bb.offsets.getD k 0 > pos then k - 1 else k
  if k ≥ bb.ts.length then (bb.ts.length : Int) - 1 else k

/-- The rows of the hits of `lit` from `pos` on; after a hit the search goes on behind its
row.  Undefined when the steps do not suffice. -/
def candidates (bb : BinBlock) (lit : Bytes) : Nat → Nat → List Int → Option (List Int)
  | 0, _, _ => none
  | fuel + 1, pos, found =>
      if pos < bb.blob.length then
        match indexOf (bb.blob.drop pos) lit with
        | none => some found
        | some i =>
            let k := bb.rowOf (pos + i)
            let rowEnd := bb.offsets.getD (k + 1).toNat 0
            if pos + i + lit.length ≤ rowEnd then candidates bb lit fuel rowEnd (found ++ [k])
            else candidates bb lit fuel (pos + i + 1) found
      else some found

def row (bb : BinBlock) (k : Int) : Except Stuck Entry :=
  if k < 0 then .error .panics
  else
    match bb.ts[k.toNat]? with
    | none => .error .panics
    | some ts => .ok ⟨ts, bb.dataBytes k.toNat⟩

/-- The row is in the range and passes the filters. -/
def passes (J : JsonReader) (start stop : Int) (m : Matcher) (e : Entry) : Bool :=
  !(e.timestamp < start || e.timestamp > stop) && m.matchLineBytes e.data && m.labelsPass J e.data

/-- The rows it calls back for: all that pass, or with a literal among the filters those
of the hits of the longest one. -/
def iterateMatcher (J : JsonReader) (fuel : Nat) (bb : BinBlock) (start stop : Int) (m : Matcher) :
    Except Stuck (List Entry) :=
  match (m.line.filter fun f => f.op == .eq).map LineFilter.value with
  | [] => .ok (bb.rows.filter (passes J start stop m))
  | lit :: lits =>
      let lit := lits.foldl (fun lit e => if e.length > lit.length then e else lit) lit
      match bb.candidates lit fuel 0 [] with
      | none => .error .loops
      | some ks => do
          let rows ← ks.mapM bb.row
          return rows.filter (passes J start stop m)

end BinBlock

end Shrimpd.Block
