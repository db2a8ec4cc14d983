import Shrimpd.Block.Token

/-!
# Part files

A part file is a sequence of non-empty blocks of rows with a header each.  The
writer cuts a stream of rows into blocks, the merge reads several part files in
timestamp order, and a compaction gathers the new part's metadata block by block
while it writes.  Blocks are kept decoded: the compressed encoding is not
represented.
-/

namespace Shrimpd.Block

open Shrimpd.Lib Shrimpd.Types

/-! ## Blocks -/

structure RowBlock where
  rows : List Entry
  ne : rows ≠ []
  deriving DecidableEq, Repr

def firstTimestamp (rows : List Entry) : Int := (rows.head?.map Entry.timestamp).getD 0

def lastTimestamp (rows : List Entry) : Int := (rows.getLast?.map Entry.timestamp).getD 0

theorem exists_firstTimestamp {rows : List Entry} (h : rows ≠ []) :
    ∃ e ∈ rows, firstTimestamp rows = e.timestamp := by
  refine ⟨rows.head h, List.head_mem h, ?_⟩
  rw [firstTimestamp, List.head?_eq_some_head h]
  rfl

theorem exists_lastTimestamp {rows : List Entry} (h : rows ≠ []) :
    ∃ e ∈ rows, lastTimestamp rows = e.timestamp := by
  refine ⟨rows.getLast h, List.getLast_mem h, ?_⟩
  rw [lastTimestamp, List.getLast?_eq_some_getLast h]
  rfl

def RowBlock.header (b : RowBlock) : BlockHeader :=
  ⟨b.rows.length, firstTimestamp b.rows, lastTimestamp b.rows⟩

structure PartFile where
  blocks : List RowBlock
  deriving DecidableEq, Repr

def PartFile.rows (f : PartFile) : List Entry := f.blocks.flatMap RowBlock.rows

/-! ## Writing -/

/-- Rows per block when the caller names no size. -/
def v2BlockRows : Nat := 512

def flushBlock (buf : List Entry) : List RowBlock :=
  if h : buf = [] then [] else [⟨buf, h⟩]

/-- The writer's loop; `buf` holds the rows of the block being filled. -/
def writeBlocks (blockSize : Nat) (buf : List Entry) : List Entry → List RowBlock
  | [] => flushBlock buf
  | e :: es =>
      if (buf ++ [e]).length = blockSize then
        flushBlock (buf ++ [e]) ++ writeBlocks blockSize [] es
      else writeBlocks blockSize (buf ++ [e]) es

def writePartV2Seq (rows : List Entry) (blockSize : Int) : PartFile :=
  ⟨writeBlocks (if blockSize ≤ 0 then v2BlockRows else blockSize.toNat) [] rows⟩

def writePartV2 (rows : List Entry) : PartFile := writePartV2Seq rows v2BlockRows

theorem rows_flushBlock (buf : List Entry) : (flushBlock buf).flatMap RowBlock.rows = buf := by
  unfold flushBlock
  split_ifs with h
  · simp [h]
  · simp

theorem rows_writeBlocks (blockSize : Nat) (buf rows : List Entry) :
    (writeBlocks blockSize buf rows).flatMap RowBlock.rows = buf ++ rows := by
  induction rows generalizing buf with
  | nil => rw [writeBlocks, rows_flushBlock, List.append_nil]
  | cons e es ih =>
      rw [writeBlocks]
      split_ifs
      · rw [List.flatMap_append, rows_flushBlock, ih, List.nil_append, List.append_assoc,
          List.singleton_append]
      · rw [ih, List.append_assoc, List.singleton_append]

/-- All blocks but the last are full. -/
theorem writeBlocks_sizes {blockSize : Nat} {buf : List Entry} (hbuf : buf.length < blockSize)
    (rows : List Entry) :
    (∀ b ∈ (writeBlocks blockSize buf rows).dropLast, b.rows.length = blockSize) ∧
      ∀ b ∈ writeBlocks blockSize buf rows, b.rows.length ≤ blockSize := by
  induction rows generalizing buf with
  | nil =>
      rw [writeBlocks, flushBlock]
      split_ifs
      · simp
      · simpa using hbuf.le
  | cons e es ih =>
      rw [writeBlocks]
      split_ifs with hfull
      · have hne : buf ++ [e] ≠ [] := by simp
        have hpos : ([] : List Entry).length < blockSize := Nat.zero_lt_of_lt hbuf
        obtain ⟨hinit, hall⟩ := ih hpos
        rw [flushBlock, dif_neg hne, List.singleton_append]
        constructor
        · cases htail : writeBlocks blockSize [] es with
          | nil => simp
          | cons b bs =>
              rw [htail] at hinit
              rw [List.dropLast_cons_cons]
              exact List.forall_mem_cons.mpr ⟨hfull, hinit⟩
        · exact List.forall_mem_cons.mpr ⟨hfull.le, hall⟩
      · apply ih
        have hlen : (buf ++ [e]).length = buf.length + 1 := List.length_append
        omega

@[simp] theorem rows_writePartV2Seq (rows : List Entry) (blockSize : Int) :
    (writePartV2Seq rows blockSize).rows = rows :=
  rows_writeBlocks _ [] rows

@[simp] theorem rows_writePartV2 (rows : List Entry) : (writePartV2 rows).rows = rows :=
  rows_writePartV2Seq rows _

/-! ## Merging -/

/-- Rows of several parts in timestamp order, equal timestamps in part order.  The
heap holds one cursor for each part, so the least cursor is the least head. -/
def mergeParts (files : List PartFile) : List Entry :=
  mergeAll Entry.timestamp (files.map PartFile.rows)

def SortedRows (rows : List Entry) : Prop := rows.Pairwise fun a b => a.timestamp ≤ b.timestamp

theorem sorted_sortByTimestamp (es : List Entry) : SortedRows (sortByTimestamp es) := by
  have hsorted := List.pairwise_insertionSort
    (fun a b : Entry => a.timestamp ≤ b.timestamp) es
  exact hsorted

theorem mergeParts_perm (files : List PartFile) :
    (mergeParts files).Perm (files.flatMap PartFile.rows) := by
  rw [List.flatMap_def]
  exact mergeAll_perm _

theorem mergeParts_sorted {files : List PartFile} (h : ∀ f ∈ files, SortedRows f.rows) :
    SortedRows (mergeParts files) := by
  apply mergeAll_sorted
  intro l hl
  obtain ⟨f, hf, rfl⟩ := List.mem_map.mp hl
  exact h f hf

theorem SortedRows.first_le {rows : List Entry} (h : SortedRows rows) {e : Entry}
    (he : e ∈ rows) : firstTimestamp rows ≤ e.timestamp := by
  rw [firstTimestamp, List.head?_eq_some_head (List.ne_nil_of_mem he)]
  exact h.rel_head_of_rel_head_head he le_rfl

theorem SortedRows.le_last {rows : List Entry} (h : SortedRows rows) {e : Entry}
    (he : e ∈ rows) : e.timestamp ≤ lastTimestamp rows := by
  rw [lastTimestamp, List.getLast?_eq_some_getLast (List.ne_nil_of_mem he)]
  exact h.rel_getLast_of_rel_getLast_getLast he le_rfl

theorem SortedRows.block {f : PartFile} (h : SortedRows f.rows) {b : RowBlock}
    (hb : b ∈ f.blocks) : SortedRows b.rows := by
  apply List.Pairwise.sublist ?_ h
  rw [PartFile.rows, List.flatMap_def]
  exact List.sublist_flatten_of_mem (List.mem_map_of_mem hb)

/-! ## Metadata -/

section Metadata

variable (U : Unicode)

/-- The metadata a flush records. -/
def flushMeta (nodeID id : Bytes) (file : PartFile) : PartMeta where
  id := id
  nodeID := nodeID
  level := 0
  minTimestamp := firstTimestamp file.rows
  maxTimestamp := lastTimestamp file.rows
  count := file.rows.length
  tokens := (buildTokenSet U file.rows).1
  tokensTruncated := (buildTokenSet U file.rows).2
  blockCount := file.blocks.length

/-- The token set read back from a part file, block by block. -/
def buildTokenSetFromPart (file : PartFile) : List Bytes × Bool :=
  let r := collectTokens [] (file.blocks.flatMap fun b => rowTokens U b.rows)
  (sortTokens r.1, r.2)

/-- What a compaction has seen of the rows it writes. -/
structure MergeStats where
  count : Nat := 0
  minTS : Int := 0
  maxTS : Int := 0
  seenAnyRow : Bool := false
  tokenSet : List Bytes := []
  truncated : Bool := false

/-- The writer's callback, called for each block before it is encoded. -/
def MergeStats.observe (st : MergeStats) (b : RowBlock) : MergeStats :=
  let toks := compactTokens st.tokenSet st.truncated (rowTokens U b.rows)
  { count := st.count + b.rows.length
    minTS := if st.seenAnyRow then st.minTS else firstTimestamp b.rows
    maxTS := lastTimestamp b.rows
    seenAnyRow := true
    tokenSet := toks.1
    truncated := toks.2 }

def mergeStats (file : PartFile) : MergeStats := file.blocks.foldl (MergeStats.observe U) {}

/-- The metadata a compaction of `level` records. -/
def mergedMeta (nodeID : Bytes) (level : Int) (id : Bytes) (file : PartFile) : PartMeta where
  id := id
  nodeID := nodeID
  level := level + 1
  minTimestamp := (mergeStats U file).minTS
  maxTimestamp := (mergeStats U file).maxTS
  count := (mergeStats U file).count
  tokens := sortTokens (mergeStats U file).tokenSet
  tokensTruncated := (mergeStats U file).truncated
  blockCount := file.blocks.length

/-- The metadata is that of the file's rows. -/
structure Describes (m : PartMeta) (file : PartFile) : Prop where
  min : m.minTimestamp = firstTimestamp file.rows
  max : m.maxTimestamp = lastTimestamp file.rows
  count : m.count = file.rows.length
  tokens : (m.tokens, m.tokensTruncated) = buildTokenSet U file.rows
  blocks : m.blockCount = file.blocks.length

variable {U}

theorem buildTokenSetFromPart_eq (file : PartFile) :
    buildTokenSetFromPart U file = buildTokenSet U file.rows := by
  rw [buildTokenSetFromPart, buildTokenSet, PartFile.rows]
  simp only [rowTokens, List.flatMap_assoc]

theorem describes_flushMeta (nodeID id : Bytes) (file : PartFile) :
    Describes U (flushMeta U nodeID id file) file :=
  ⟨rfl, rfl, rfl, rfl, rfl⟩

theorem compactTokens_append (out : List Bytes) (truncated : Bool) (xs ys : List Bytes) :
    compactTokens out truncated (xs ++ ys) =
      compactTokens (compactTokens out truncated xs).1 (compactTokens out truncated xs).2 ys := by
  induction xs generalizing out truncated with
  | nil => rfl
  | cons x xs ih =>
      rw [List.cons_append, compactTokens, compactTokens]
      split_ifs <;> exact ih _ _

theorem firstTimestamp_append {xs : List Entry} (h : xs ≠ []) (ys : List Entry) :
    firstTimestamp (xs ++ ys) = firstTimestamp xs := by
  rw [firstTimestamp, firstTimestamp, List.head?_append_of_ne_nil _ h]

theorem lastTimestamp_append (xs : List Entry) {ys : List Entry} (h : ys ≠ []) :
    lastTimestamp (xs ++ ys) = lastTimestamp ys := by
  rw [lastTimestamp, lastTimestamp, List.getLast?_append_of_ne_nil _ h]

/-- After some blocks the statistics are those of all their rows. -/
structure StatsOf (st : MergeStats) (rows : List Entry) : Prop where
  count : st.count = rows.length
  seen : st.seenAnyRow = true ↔ rows ≠ []
  min : st.minTS = firstTimestamp rows
  max : st.maxTS = lastTimestamp rows
  tokens : (st.tokenSet, st.truncated) = compactTokens [] false (rowTokens U rows)

theorem statsOf_nil : StatsOf (U := U) {} [] :=
  ⟨rfl, by simp, rfl, rfl, rfl⟩

theorem StatsOf.observe {st : MergeStats} {rows : List Entry} (h : StatsOf (U := U) st rows)
    (b : RowBlock) : StatsOf (U := U) (st.observe U b) (rows ++ b.rows) := by
  refine ⟨?_, ?_, ?_, ?_, ?_⟩
  · rw [List.length_append, ← h.count]
    rfl
  · simp [MergeStats.observe, b.ne]
  · by_cases hrows : rows = []
    · have hseen : st.seenAnyRow = false := by
        rw [Bool.eq_false_iff]
        intro hseen
        exact h.seen.mp hseen hrows
      simp [MergeStats.observe, hseen, hrows]
    · rw [firstTimestamp_append hrows, ← h.min]
      simp [MergeStats.observe, h.seen.mpr hrows]
  · rw [lastTimestamp_append rows b.ne]
    rfl
  · rw [rowTokens, List.flatMap_append, compactTokens_append]
    change _ = compactTokens (compactTokens [] false (rowTokens U rows)).1
      (compactTokens [] false (rowTokens U rows)).2 (rowTokens U b.rows)
    rw [← h.tokens]
    rfl

theorem statsOf_foldl {st : MergeStats} {rows : List Entry} (h : StatsOf (U := U) st rows)
    (bs : List RowBlock) :
    StatsOf (U := U) (bs.foldl (MergeStats.observe U) st) (rows ++ bs.flatMap RowBlock.rows) := by
  induction bs generalizing st rows with
  | nil => simpa using h
  | cons b bs ih =>
      have hnext := ih (h.observe b)
      rwa [List.append_assoc] at hnext

/-- Block by block a compaction gathers what a flush computes from all rows at once. -/
theorem describes_mergedMeta (nodeID : Bytes) (level : Int) (id : Bytes) (file : PartFile) :
    Describes U (mergedMeta U nodeID level id file) file := by
  have h : StatsOf (U := U) (mergeStats U file) file.rows := statsOf_foldl statsOf_nil file.blocks
  refine ⟨h.min, h.max, h.count, ?_, rfl⟩
  have htokens := h.tokens
  rw [Prod.ext_iff] at htokens
  rw [← mergedTokenSet_eq, mergedTokenSet, ← htokens.1, ← htokens.2]
  rfl

end Metadata

end Shrimpd.Block
