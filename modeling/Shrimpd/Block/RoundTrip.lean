import Shrimpd.Block.Format

/-!
# Part files are read as they were written

The bytes the writer leaves are the fixed header, the records of all blocks and
their compressed rows, in this order.  From that layout the directory and every
block are read back, so a part file at byte level has the blocks of the part
file at row level.
-/

namespace Shrimpd.Block.Format

open Shrimpd.Lib Shrimpd.Types Shrimpd.Filter

/-! ## The layout -/

section Layout

variable (env : Env)

/-- The compressed bytes of a block. -/
def chunk (rows : List Entry) : Bytes := env.zstd.encode (encodeBinBlock rows [])

def headerAt (off : Nat) (b : RowBlock) : Header where
  offset := off
  compressedSz := (chunk env b.rows).length
  count := toInt 32 (toUint 32 b.rows.length)
  minTimestamp := firstTimestamp b.rows
  maxTimestamp := lastTimestamp b.rows
  bloom := env.bloom b.rows

/-- Headers of blocks that follow one another from `off` on. -/
def headersFrom (off : Nat) : List RowBlock → List Header
  | [] => []
  | b :: bs => headerAt env off b :: headersFrom (off + (chunk env b.rows).length) bs

def payload (bs : List RowBlock) : Bytes := bs.flatMap fun b => chunk env b.rows

def fixedHeader (blockCount : Nat) : Bytes :=
  magicShrimp ++ [v2Version] ++ [0, 0, 0] ++ putUint 8 (toUint 64 blockCount)

/-- Where the payload starts. -/
def baseOffset (bs : List RowBlock) : Nat := v2HeaderSize + dirSize (headersFrom env 0 bs)

/-- The part file of the blocks. -/
def file (bs : List RowBlock) : Bytes :=
  fixedHeader (headersFrom env 0 bs).length ++
    (headersFrom env 0 bs).flatMap (dirRow (baseOffset env bs)) ++ payload env bs

variable {env}

theorem flushBlock_rows {st : Writer} (hst : st.offset = st.payload.length) (b : RowBlock) :
    st.flushBlock env b.rows =
      ⟨st.payload ++ chunk env b.rows, st.headers ++ [headerAt env st.payload.length b],
        (st.payload ++ chunk env b.rows).length⟩ := by
  have hlen : b.rows.length ≠ 0 := fun h => b.ne (List.length_eq_zero_iff.mp h)
  have hsize : (((st.payload ++ chunk env b.rows).length : Nat) : Int) - st.payload.length =
      (chunk env b.rows).length := by
    rw [List.length_append]
    omega
  unfold Writer.flushBlock
  rw [if_neg hlen, hst]
  simp only [headerAt, ← hsize]
  rfl

/-- The loop over the rows writes the blocks the row-level writer cuts. -/
theorem writeRows_eq (n : Nat) (st : Writer) (buf rows : List Entry) :
    writeRows env n st buf rows =
      (writeBlocks n buf rows).foldl (fun st b => st.flushBlock env b.rows) st := by
  induction rows generalizing st buf with
  | nil =>
      rw [writeRows, writeBlocks, Block.flushBlock]
      by_cases hbuf : buf = []
      · simp [hbuf]
      · rw [if_pos (List.length_pos_of_ne_nil hbuf), dif_neg hbuf]
        rfl
  | cons e rows ih =>
      rw [writeRows, writeBlocks]
      split_ifs with hfull
      · have hne : buf ++ [e] ≠ [] := by simp
        rw [ih, Block.flushBlock, dif_neg hne]
        rfl
      · exact ih st (buf ++ [e])

theorem foldl_flushBlock (bs : List RowBlock) (p : Bytes) (hs : List Header) :
    bs.foldl (fun (st : Writer) b => st.flushBlock env b.rows) ⟨p, hs, p.length⟩ =
      ⟨p ++ payload env bs, hs ++ headersFrom env p.length bs, (p ++ payload env bs).length⟩ := by
  induction bs generalizing p hs with
  | nil => simp [payload, headersFrom]
  | cons b bs ih =>
      have hpayload : p ++ chunk env b.rows ++ payload env bs = p ++ payload env (b :: bs) := by
        rw [List.append_assoc]
        rfl
      rw [List.foldl_cons, flushBlock_rows rfl, ih, hpayload, headersFrom, List.length_append,
        List.append_assoc, List.singleton_append]

theorem length_dirRow (base : Int) (h : Header) : (dirRow base h).length = 40 + h.bloom.length := by
  simp only [dirRow, List.length_append, length_putUint]

theorem length_dir (base : Int) (hs : List Header) :
    (hs.flatMap (dirRow base)).length = dirSize hs := by
  rw [List.length_flatMap]
  simp only [length_dirRow]
  rfl

theorem length_fixedHeader (n : Nat) : (fixedHeader n).length = v2HeaderSize := by
  simp only [fixedHeader, List.length_append, length_putUint]
  rfl

/-- Writing the directory over its placeholder. -/
theorem finish_eq (st : Writer) :
    st.finish = fixedHeader st.headers.length ++
      st.headers.flatMap (dirRow (v2HeaderSize + dirSize st.headers : Nat)) ++ st.payload := by
  have hhead : writeAt (writeAt (writeAt (List.replicate v2HeaderSize 0) 0 magicShrimp) 4
      [v2Version]) 8 (putUint 8 (toUint 64 st.headers.length)) =
        fixedHeader st.headers.length := by
    have hfront : (writeAt (writeAt (List.replicate v2HeaderSize 0) 0 magicShrimp) 4
        [v2Version]).take 8 = magicShrimp ++ [v2Version] ++ [0, 0, 0] := by decide
    have hback : (writeAt (writeAt (List.replicate v2HeaderSize 0) 0 magicShrimp) 4
        [v2Version]).drop (8 + 8) = [] := by decide
    rw [writeAt, length_putUint, hfront, hback, List.append_nil]
    rfl
  have hlen := length_fixedHeader st.headers.length
  have hdir := length_dir (v2HeaderSize + dirSize st.headers : Nat) st.headers
  unfold Writer.finish
  simp only [hhead, ← Nat.cast_add]
  rw [writeAt, hdir, List.append_assoc (fixedHeader _), List.take_left' hlen, ← hlen,
    ← List.drop_drop, List.drop_left, List.drop_left' List.length_replicate]

/-- The headers and the payload are those of the blocks that the row-level writer cuts. -/
theorem writeRows_blocks (rows : List Entry) (blockSize : Int) :
    writeRows env (rowsPerBlock blockSize) ⟨[], [], 0⟩ [] rows =
      ⟨payload env (Block.writePartV2Seq rows blockSize).blocks,
        headersFrom env 0 (Block.writePartV2Seq rows blockSize).blocks,
        (payload env (Block.writePartV2Seq rows blockSize).blocks).length⟩ := by
  rw [writeRows_eq]
  exact foldl_flushBlock _ [] []

/-- The writer leaves the file of these blocks. -/
theorem writePartV2Seq_eq (rows : List Entry) (blockSize : Int) :
    writePartV2Seq env rows blockSize =
      file env (Block.writePartV2Seq rows blockSize).blocks := by
  rw [writePartV2Seq, writeRows_blocks, finish_eq]
  rfl

end Layout

/-! ## Reading the directory back -/

/-- The header as the directory records it. -/
def Header.rebase (base : Int) (h : Header) : Header := { h with offset := base + h.offset }

/-- The values fit in the fields of a directory record. -/
structure Header.Storable (h : Header) : Prop where
  offset : IsInt64 h.offset
  compressedSz : IsInt64 h.compressedSz
  count : ∃ n : Nat, 2 * n < 2 ^ 32 ∧ h.count = n
  minTimestamp : IsInt64 h.minTimestamp
  maxTimestamp : IsInt64 h.maxTimestamp
  bloom : h.bloom.length < 2 ^ 32

theorem slice_append (pre mid post : Bytes) {i j : Nat} (hi : pre.length = i)
    (hj : i + mid.length = j) : slice (pre ++ (mid ++ post)) i j = mid := by
  have hlen : (pre ++ mid).length = j := by
    rw [List.length_append]
    omega
  rw [slice, ← List.append_assoc, List.take_left' hlen, List.drop_left' hi]

/-- The fields of the fixed part of a record. -/
theorem slice_record {a b c d e f : Bytes} (ha : a.length = 8) (hb : b.length = 8)
    (hc : c.length = 4) (hd : d.length = 8) (he : e.length = 8) (hf : f.length = 4) :
    slice (a ++ b ++ c ++ d ++ e ++ f) 0 8 = a ∧ slice (a ++ b ++ c ++ d ++ e ++ f) 8 16 = b ∧
      slice (a ++ b ++ c ++ d ++ e ++ f) 16 20 = c ∧
      slice (a ++ b ++ c ++ d ++ e ++ f) 20 28 = d ∧
      slice (a ++ b ++ c ++ d ++ e ++ f) 28 36 = e ∧
      slice (a ++ b ++ c ++ d ++ e ++ f) 36 40 = f := by
  have hab : (a ++ b).length = 16 := by simp [ha, hb]
  have habc : (a ++ b ++ c).length = 20 := by simp [ha, hb, hc]
  have habcd : (a ++ b ++ c ++ d).length = 28 := by simp [ha, hb, hc, hd]
  have habcde : (a ++ b ++ c ++ d ++ e).length = 36 := by simp [ha, hb, hc, hd, he]
  have h0 := slice_append [] a (b ++ (c ++ (d ++ (e ++ f)))) rfl (by rw [ha])
  have h8 := slice_append a b (c ++ (d ++ (e ++ f))) ha (by rw [hb])
  have h16 := slice_append (a ++ b) c (d ++ (e ++ f)) hab (by rw [hc])
  have h20 := slice_append (a ++ b ++ c) d (e ++ f) habc (by rw [hd])
  have h28 := slice_append (a ++ b ++ c ++ d) e f habcd (by rw [he])
  have h36 := slice_append (a ++ b ++ c ++ d ++ e) f [] habcde (by rw [hf])
  simp only [List.append_assoc, List.nil_append, List.append_nil] at h0 h8 h16 h20 h28 h36 ⊢
  exact ⟨h0, h8, h16, h20, h28, h36⟩

theorem readDir_dirRow {base : Int} {h : Header} (hh : (h.rebase base).Storable) (n : Nat)
    (rest : Bytes) :
    readDir (n + 1) (dirRow base h ++ rest) =
      match readDir n rest with
      | .error err => .error err
      | .ok hs => .ok (h.rebase base :: hs) := by
  obtain ⟨k, hk, hcount⟩ := hh.count
  have hoffset := toInt64_word hh.offset
  have hsz := toInt64_word hh.compressedSz
  have hmin := toInt64_word hh.minTimestamp
  have hmax := toInt64_word hh.maxTimestamp
  have hword : toInt 32 (getUint (putUint 4 (toUint 32 h.count))) = h.count := by
    change h.count = k at hcount
    rw [hcount]
    exact toInt_word_natCast rfl hk
  have hbloom : getUint (putUint 4 (toUint 32 h.bloom.length)) = h.bloom.length := by
    have hlt : h.bloom.length < 2 ^ 32 := hh.bloom
    rw [toUint_natCast hlt, getUint_putUint_of_lt rfl hlt]
  obtain ⟨h0, h8, h16, h20, h28, h36⟩ := slice_record
    (length_putUint 8 (toUint 64 (base + h.offset))) (length_putUint 8 (toUint 64 h.compressedSz))
    (length_putUint 4 (toUint 32 h.count)) (length_putUint 8 (toUint 64 h.minTimestamp))
    (length_putUint 8 (toUint 64 h.maxTimestamp)) (length_putUint 4 (toUint 32 h.bloom.length))
  have hfixed : (putUint 8 (toUint 64 (base + h.offset)) ++ putUint 8 (toUint 64 h.compressedSz) ++
      putUint 4 (toUint 32 h.count) ++ putUint 8 (toUint 64 h.minTimestamp) ++
      putUint 8 (toUint 64 h.maxTimestamp) ++
      putUint 4 (toUint 32 h.bloom.length)).length = 40 := by
    simp only [List.length_append, length_putUint]
  rw [dirRow, List.append_assoc _ h.bloom rest]
  generalize putUint 8 (toUint 64 (base + h.offset)) ++ putUint 8 (toUint 64 h.compressedSz) ++
    putUint 4 (toUint 32 h.count) ++ putUint 8 (toUint 64 h.minTimestamp) ++
    putUint 8 (toUint 64 h.maxTimestamp) ++ putUint 4 (toUint 32 h.bloom.length) = fixed at *
  have hlen : ¬ (fixed ++ (h.bloom ++ rest)).length < 40 := by
    rw [List.length_append]
    omega
  rw [readDir]
  simp only [if_neg hlen, List.take_left' hfixed, List.drop_left' hfixed, h0, h8, h16, h20, h28,
    h36, hbloom, List.take_left, List.drop_left]
  rw [if_neg (by simp)]
  cases readDir n rest with
  | error err => rfl
  | ok hs =>
      simp only [Except.ok.injEq, List.cons.injEq, and_true, Header.rebase, Header.mk.injEq]
      exact ⟨hoffset, hsz, hword, hmin, hmax⟩

theorem readDir_dir {base : Int} {hs : List Header} (h : ∀ x ∈ hs, (x.rebase base).Storable)
    (rest : Bytes) :
    readDir hs.length (hs.flatMap (dirRow base) ++ rest) = .ok (hs.map (Header.rebase base)) := by
  induction hs with
  | nil => rfl
  | cons x hs ih =>
      have htail := ih fun y hy => h y (List.mem_cons_of_mem x hy)
      rw [List.flatMap_cons, List.append_assoc, List.length_cons,
        readDir_dirRow (h x List.mem_cons_self), htail, List.map_cons]

/-- Opening a file with the fixed header, the directory and any payload. -/
theorem openPartV2_layout {base : Int} {hs : List Header}
    (h : ∀ x ∈ hs, (x.rebase base).Storable) (hcount : hs.length < 2 ^ 63) (rest : Bytes) :
    openPartV2 (some (fixedHeader hs.length ++ hs.flatMap (dirRow base) ++ rest)) =
      .ok (some ⟨hs.map (Header.rebase base), v2Version,
        fixedHeader hs.length ++ hs.flatMap (dirRow base) ++ rest⟩) := by
  have hdir := readDir_dir h rest
  rw [List.append_assoc]
  generalize hs.flatMap (dirRow base) ++ rest = tail at hdir ⊢
  have hlen : (fixedHeader hs.length ++ tail).length = v2HeaderSize + tail.length := by
    rw [List.length_append, length_fixedHeader]
  have hmagic : (fixedHeader hs.length ++ tail).take 4 = magicShrimp := by
    simp only [fixedHeader, List.append_assoc]
    exact List.take_left' (by decide)
  have hversion : (fixedHeader hs.length ++ tail).getD 4 0 = v2Version := by
    have hbytes : magicShrimp = [83, 72, 77, 80] := by decide
    simp only [fixedHeader, List.append_assoc, hbytes]
    rfl
  have hword : slice (fixedHeader hs.length ++ tail) 8 16 = putUint 8 (toUint 64 hs.length) := by
    have hslice := slice_append (magicShrimp ++ [v2Version] ++ [0, 0, 0])
      (putUint 8 (toUint 64 hs.length)) tail (i := 8) (j := 16) (by decide)
      (by rw [length_putUint])
    simpa only [fixedHeader, List.append_assoc] using hslice
  have hblocks := toInt64_word (isInt64_natCast hcount)
  have hrest : (fixedHeader hs.length ++ tail).drop v2HeaderSize = tail :=
    List.drop_left' (length_fixedHeader _)
  have hsize : v2HeaderSize = 16 := rfl
  unfold openPartV2
  simp only [hmagic, hversion, hword, hblocks, hrest, Int.toNat_natCast, hdir]
  rw [if_neg (by omega), if_neg (by simp), if_neg (by omega), if_neg (by simp),
    if_neg (by omega)]

/-! ## Reading the blocks back -/

section Blocks

variable (env : Env)

theorem length_headersFrom (off : Nat) (bs : List RowBlock) :
    (headersFrom env off bs).length = bs.length := by
  induction bs generalizing off with
  | nil => rfl
  | cons b bs ih => rw [headersFrom, List.length_cons, ih, List.length_cons]

theorem getElem?_headersFrom (off : Nat) (bs : List RowBlock) (i : Nat) :
    (headersFrom env off bs)[i]? =
      bs[i]?.map fun b => headerAt env (off + (payload env (bs.take i)).length) b := by
  induction bs generalizing off i with
  | nil => rfl
  | cons b bs ih =>
      cases i with
      | zero => rfl
      | succ i =>
          have hoff : off + (payload env ((b :: bs).take (i + 1))).length =
              off + (chunk env b.rows).length + (payload env (bs.take i)).length := by
            rw [List.take_succ_cons, payload, List.flatMap_cons, List.length_append, Nat.add_assoc]
            rfl
          rw [headersFrom, List.getElem?_cons_succ, ih, List.getElem?_cons_succ, hoff]

/-- The bytes of a block lie behind those of the blocks before it. -/
theorem chunk_payload (front : Bytes) {bs : List RowBlock} {b : RowBlock} {i : Nat}
    (hb : bs[i]? = some b) :
    ((front ++ payload env bs).drop (front.length + (payload env (bs.take i)).length)).take
      (chunk env b.rows).length = chunk env b.rows := by
  obtain ⟨hi, rfl⟩ := List.getElem?_eq_some_iff.mp hb
  have hsplit : payload env bs = payload env (bs.take i) ++
      (chunk env bs[i].rows ++ payload env (bs.drop (i + 1))) := by
    conv_lhs => rw [← List.take_append_drop i bs, List.drop_eq_getElem_cons hi]
    rw [payload, List.flatMap_append, List.flatMap_cons]
    rfl
  rw [hsplit, ← List.append_assoc, ← List.length_append, List.drop_left, List.take_left]

theorem add_chunk_le {bs : List RowBlock} {b : RowBlock} {i : Nat} (hb : bs[i]? = some b) :
    (payload env (bs.take i)).length + (chunk env b.rows).length ≤ (payload env bs).length := by
  obtain ⟨hi, rfl⟩ := List.getElem?_eq_some_iff.mp hb
  have hsub : (payload env (bs.take (i + 1))).Sublist (payload env bs) :=
    (List.take_sublist (i + 1) bs).flatMap _
  have hlen := hsub.length_le
  rw [payload, List.take_succ_eq_append_getElem hi, List.flatMap_append, List.flatMap_singleton,
    List.length_append] at hlen
  exact hlen

end Blocks

/-! ## The round trip -/

/-- Values and sizes within what the writer's types hold. -/
structure Fits (env : Env) (bs : List RowBlock) : Prop where
  timestamp : ∀ b ∈ bs, ∀ e ∈ b.rows, IsInt64 e.timestamp
  count : ∀ b ∈ bs, b.rows.length < 2 ^ 31
  data : ∀ b ∈ bs, (b.rows.flatMap Entry.data).length < 2 ^ 32
  bloom : ∀ b ∈ bs, (env.bloom b.rows).length < 2 ^ 32
  size : (file env bs).length < 2 ^ 63

/-- The header describes the block. -/
structure HeaderOf (env : Env) (h : Header) (bb : BinBlock) : Prop where
  count : h.count = bb.rows.length
  min : h.minTimestamp = firstTimestamp bb.rows
  max : h.maxTimestamp = lastTimestamp bb.rows
  bloom : h.bloom = env.bloom bb.rows

/-- The byte ranges of the blocks follow one another from `start` to `stop`. -/
def Consecutive (start stop : Int) : List Header → Prop
  | [] => start = stop
  | h :: hs => h.offset = start ∧ 0 ≤ h.compressedSz ∧
      Consecutive (start + h.compressedSz) stop hs

/-- What opening and reading a part file written from `rows` yields. -/
structure ReadBack (env : Env) (rows : List Entry) (blockSize : Int) (file : Bytes)
    (pf : PartFileV2) (bbs : List BinBlock) : Prop where
  opens : openPartV2 (some file) = .ok (some pf)
  reads : (List.range pf.headers.length).map (fun i : Nat => readBinBlock env.zstd pf i) =
    bbs.map .ok
  full : ∀ bb ∈ bbs.dropLast, bb.rows.length = rowsPerBlock blockSize
  bounded : ∀ bb ∈ bbs, bb.rows.length ≤ rowsPerBlock blockSize
  nonempty : ∀ bb ∈ bbs, bb.rows ≠ []
  rows : bbs.flatMap BinBlock.rows = rows
  headers : List.Forall₂ (HeaderOf env) pf.headers bbs
  ranges : Consecutive (v2HeaderSize + dirSize pf.headers) file.length pf.headers

section ReadBack

variable {env : Env} {bs : List RowBlock}

theorem length_file (bs : List RowBlock) :
    (file env bs).length = baseOffset env bs + (payload env bs).length := by
  rw [file, List.length_append, List.length_append, length_fixedHeader, length_dir, baseOffset]

theorem length_le_dirSize (hs : List Header) : hs.length ≤ dirSize hs := by
  induction hs with
  | nil => exact le_rfl
  | cons h hs ih =>
      have hcons : dirSize (h :: hs) = 40 + h.bloom.length + dirSize hs := rfl
      rw [hcons, List.length_cons]
      omega

theorem dirSize_rebase (base : Int) (hs : List Header) :
    dirSize (hs.map (Header.rebase base)) = dirSize hs := by
  rw [dirSize, dirSize, List.map_map]
  rfl

theorem Fits.count_header (h : Fits env bs) {b : RowBlock} (hb : b ∈ bs) (off : Nat) :
    (headerAt env off b).count = b.rows.length := by
  have hcount := h.count b hb
  rw [headerAt, toUint_natCast (by omega), toInt_natCast (by omega)]

theorem Fits.storable (h : Fits env bs) {x : Header} (hx : x ∈ headersFrom env 0 bs) :
    (x.rebase (baseOffset env bs)).Storable := by
  obtain ⟨i, hi⟩ := List.mem_iff_getElem?.mp hx
  rw [getElem?_headersFrom, Nat.zero_add] at hi
  obtain ⟨b, hb, rfl⟩ := Option.map_eq_some_iff.mp hi
  have hmem := List.mem_of_getElem? hb
  have hsize := h.size
  rw [length_file] at hsize
  have hchunk := add_chunk_le env hb
  have hcount := h.count b hmem
  obtain ⟨first, hfirst, hmin⟩ := exists_firstTimestamp b.ne
  obtain ⟨last, hlast, hmax⟩ := exists_lastTimestamp b.ne
  constructor
  · simp only [Header.rebase, headerAt, ← Nat.cast_add]
    exact isInt64_natCast (by omega)
  · simp only [Header.rebase, headerAt]
    exact isInt64_natCast (by omega)
  · exact ⟨b.rows.length, by omega, by simp only [Header.rebase, h.count_header hmem]⟩
  · simp only [Header.rebase, headerAt, hmin]
    exact h.timestamp b hmem first hfirst
  · simp only [Header.rebase, headerAt, hmax]
    exact h.timestamp b hmem last hlast
  · exact h.bloom b hmem

/-- The opened part. -/
def opened (env : Env) (bs : List RowBlock) : PartFileV2 where
  headers := (headersFrom env 0 bs).map (Header.rebase (baseOffset env bs))
  version := v2Version
  fd := file env bs

theorem Fits.openPartV2_eq (h : Fits env bs) :
    openPartV2 (some (file env bs)) = .ok (some (opened env bs)) := by
  have hsize := h.size
  have hlen := length_le_dirSize (headersFrom env 0 bs)
  rw [length_file, baseOffset] at hsize
  exact openPartV2_layout (fun x hx => h.storable hx) (by omega) (payload env bs)

theorem length_opened (env : Env) (bs : List RowBlock) : (opened env bs).headers.length = bs.length := by
  rw [opened, List.length_map, length_headersFrom]

/-- The bytes of a block are found where its record says. -/
theorem readAt_chunk (env : Env) {b : RowBlock} {i : Nat} (hb : bs[i]? = some b) :
    readAt (file env bs) (chunk env b.rows).length
      (baseOffset env bs + (payload env (bs.take i)).length : Nat) = .ok (chunk env b.rows) := by
  have hchunk := add_chunk_le env hb
  have hbytes := chunk_payload env (fixedHeader (headersFrom env 0 bs).length ++
    (headersFrom env 0 bs).flatMap (dirRow (baseOffset env bs))) hb
  rw [List.length_append, length_fixedHeader, length_dir] at hbytes
  unfold readAt
  rw [if_neg (by omega), if_neg (by omega)]
  split_ifs with hzero hshort
  · rw [List.length_eq_zero_iff.mp (by omega : (chunk env b.rows).length = 0)]
  · rw [length_file] at hshort
    omega
  · rw [Int.toNat_natCast, Int.toNat_natCast]
    exact congrArg _ hbytes

theorem Fits.readBinBlock_eq (h : Fits env bs)
    (hz : ∀ x, env.zstd.decode (env.zstd.encode x) = some x) {b : RowBlock} {i : Nat}
    (hb : bs[i]? = some b) :
    readBinBlock env.zstd (opened env bs) i = .ok (BinBlock.ofRows b.rows) := by
  have hmem := List.mem_of_getElem? hb
  have hi : i < bs.length := (List.getElem?_eq_some_iff.mp hb).1
  have hlen := length_opened env bs
  have hheader : (opened env bs).headers[i]? = some
      ((headerAt env (payload env (bs.take i)).length b).rebase (baseOffset env bs)) := by
    rw [opened, List.getElem?_map, getElem?_headersFrom, hb, Nat.zero_add]
    rfl
  have hread := readAt_chunk env hb
  have hdecode := decodeBinBlock_encode (h.timestamp b hmem) (h.data b hmem) []
  have hcount := h.count_header hmem (payload env (bs.take i)).length
  rw [Nat.cast_add] at hread
  rw [readBinBlock, if_neg (by omega), Int.toNat_natCast, hheader]
  simp only [Header.rebase, hcount]
  simp only [headerAt, opened, hread]
  simp only [chunk, hz, hdecode]

theorem consecutive_headersFrom (env : Env) (base off : Nat) (bs : List RowBlock) :
    Consecutive (base + off : Nat) (base + off + (payload env bs).length : Nat)
      ((headersFrom env off bs).map (Header.rebase base)) := by
  induction bs generalizing off with
  | nil => rfl
  | cons b bs ih =>
      have htail := ih (off + (chunk env b.rows).length)
      have hlen : (payload env (b :: bs)).length =
          (chunk env b.rows).length + (payload env bs).length := by
        rw [payload, List.flatMap_cons, List.length_append]
        rfl
      refine ⟨(Nat.cast_add base off).symm, Int.natCast_nonneg _, ?_⟩
      rw [hlen]
      simpa only [Header.rebase, headerAt, Nat.cast_add, add_assoc] using htail

theorem Fits.headers (h : Fits env bs) (base off : Nat) :
    List.Forall₂ (HeaderOf env) ((headersFrom env off bs).map (Header.rebase base))
      (bs.map fun b => BinBlock.ofRows b.rows) := by
  have hcount := fun b hb => h.count_header (b := b) hb
  clear h
  induction bs generalizing off with
  | nil => exact List.Forall₂.nil
  | cons b bs ih =>
      apply List.Forall₂.cons
      · constructor <;> simp only [rows_ofRows, Header.rebase]
        · exact hcount b List.mem_cons_self off
        · rfl
        · rfl
        · rfl
      · exact ih _ fun c hc => hcount c (List.mem_cons_of_mem b hc)

theorem rowsPerBlock_pos (blockSize : Int) : 0 < rowsPerBlock blockSize := by
  unfold rowsPerBlock
  split_ifs
  · decide
  · omega

/-- For all rows and block sizes the part file is read as it was written. -/
theorem writePartV2Seq_roundTrip (env : Env)
    (hz : ∀ x, env.zstd.decode (env.zstd.encode x) = some x) (rows : List Entry) (blockSize : Int)
    (hfits : Fits env (Block.writePartV2Seq rows blockSize).blocks) :
    ∃ pf bbs, ReadBack env rows blockSize (writePartV2Seq env rows blockSize) pf bbs := by
  have hrows := rows_writePartV2Seq rows blockSize
  have hpos : ([] : List Entry).length < rowsPerBlock blockSize := rowsPerBlock_pos blockSize
  obtain ⟨hinit, hall⟩ : (∀ b ∈ (Block.writePartV2Seq rows blockSize).blocks.dropLast,
      b.rows.length = rowsPerBlock blockSize) ∧
      ∀ b ∈ (Block.writePartV2Seq rows blockSize).blocks,
        b.rows.length ≤ rowsPerBlock blockSize := writeBlocks_sizes hpos rows
  rw [writePartV2Seq_eq]
  rw [PartFile.rows] at hrows
  generalize (Block.writePartV2Seq rows blockSize).blocks = bs at hfits hrows hinit hall ⊢
  refine ⟨opened env bs, bs.map fun b => BinBlock.ofRows b.rows, ?_⟩
  constructor
  · exact hfits.openPartV2_eq
  · apply List.ext_getElem
    · simp only [List.length_map, List.length_range, length_opened]
    · intro i _ hi
      rw [List.length_map, List.length_map] at hi
      simp only [List.getElem_map, List.getElem_range]
      exact hfits.readBinBlock_eq hz (List.getElem?_eq_getElem hi)
  · simpa only [← List.map_dropLast, List.forall_mem_map, rows_ofRows] using hinit
  · simpa only [List.forall_mem_map, rows_ofRows] using hall
  · simp only [List.forall_mem_map, rows_ofRows]
    exact fun b _ => b.ne
  · simpa only [List.flatMap_map, rows_ofRows] using hrows
  · exact hfits.headers _ 0
  · have hranges := consecutive_headersFrom env (baseOffset env bs) 0 bs
    rw [length_file]
    rw [opened, dirSize_rebase, ← Nat.cast_add]
    exact hranges

def threeRows : List Entry := [⟨-5, ascii "a=b"⟩, ⟨5, ascii "up"⟩, ⟨7, []⟩]

theorem fits_threeRows : Fits plainEnv (Block.writePartV2Seq threeRows 2).blocks := by
  have hblocks : (Block.writePartV2Seq threeRows 2).blocks =
      [⟨[⟨-5, ascii "a=b"⟩, ⟨5, ascii "up"⟩], by simp⟩, ⟨[⟨7, []⟩], by simp⟩] := rfl
  rw [hblocks]
  constructor
  · decide
  · decide
  · decide
  · simp only [Env.bloom, length_blockBloom]
    decide
  · simp only [length_file, baseOffset, headersFrom, headerAt, dirSize, List.map_cons,
      List.map_nil, Env.bloom, length_blockBloom]
    decide

theorem writePartV2Seq_roundTrip_threeRows :
    ∃ pf bbs, ReadBack plainEnv threeRows 2 (writePartV2Seq plainEnv threeRows 2) pf bbs :=
  writePartV2Seq_roundTrip plainEnv (fun _ => rfl) threeRows 2 fits_threeRows

end ReadBack

end Shrimpd.Block.Format
