import Shrimpd.Block.Format
import Shrimpd.Block.LiteralScan

/-!
# Part files of unknown origin

A part may come from another node, and then any bytes may stand in it.  Here the
reading functions make the checks of the runtime as well: a slice can be made
only for a length that is not negative and fits into the address space, and every
index and every slice bound has to be in range.  What a check refuses is a panic.
The functions otherwise agree with those on well-formed sizes, and a file is read
without a panic just when the lengths it names can be allocated.
-/

namespace Shrimpd.Block.Runtime

open Shrimpd.Lib Shrimpd.Types Shrimpd.Block.Format

/-! ## The checks of the runtime -/

/-- The size of the address space. -/
def maxAlloc : Int := 2 ^ 48

/-- The bytes that a `BlockHeader` takes in memory. -/
def blockHeaderSize : Int := 64

/-- `make` accepts this number of elements of `size` bytes. -/
def Makes (size n : Int) : Prop := 0 ≤ n ∧ n * size ≤ maxAlloc

instance (size n : Int) : Decidable (Makes size n) := inferInstanceAs (Decidable (_ ∧ _))

/-- `buf[i:j]`. -/
def sliceOf (buf : Bytes) (i j : Nat) : Option Bytes :=
  if i ≤ j ∧ j ≤ buf.length then some (slice buf i j) else none

/-! ## Blocks -/

def tsFromBuf (buf : Bytes) (count : Int) : Option (List Int) :=
  if Makes 8 count ∧ ∀ i < count.toNat, i * 8 + 8 ≤ buf.length then
    some (Block.tsFromBuf buf count.toNat)
  else none

def offsetsFromBuf (buf : Bytes) (count : Int) : Option (List Nat) :=
  if Makes 4 (count + 1) ∧ ∀ i < (count + 1).toNat, count * 8 + i * 4 + 4 ≤ buf.length then
    some (Block.offsetsFromBuf buf count.toNat)
  else none

def checkMonotonic (offsets : List Nat) : List Nat → Except DecodeErr Unit
  | [] => .ok ()
  | i :: is =>
      match offsets[i + 1]?, offsets[i]? with
      | some next, some off =>
          if next < off then .error (.nonMonotonic i) else checkMonotonic offsets is
      | _, _ => .error .panics

/-- The checks on the offsets, and the view. -/
def viewOf (buf : Bytes) (count offsetsEnd : Int) (ts : List Int) (offsets : List Nat) :
    Except DecodeErr BinBlock :=
  match offsets[0]?, offsets[count.toNat]? with
  | some first, some blobLen =>
      if count > 0 ∧ first ≠ 0 then .error (.firstOffset first)
      else
        let blobEnd := offsetsEnd.toNat + blobLen
        if buf.length < blobEnd then .error (.tooShort buf.length blobEnd)
        else
          match checkMonotonic offsets (List.range count.toNat) with
          | .error err => .error err
          | .ok () =>
              match sliceOf buf offsetsEnd.toNat blobEnd with
              | none => .error .panics
              | some blob => .ok ⟨ts, offsets, blob⟩
  | _, _ => .error .panics

def decodeBinBlock (buf : Bytes) (count : Int) : Except DecodeErr BinBlock :=
  let offsetsEnd := count * 8 + (count + 1) * 4
  if (buf.length : Int) < offsetsEnd then .error (.tooSmall buf.length offsetsEnd)
  else
    match tsFromBuf buf count, offsetsFromBuf buf count with
    | some ts, some offsets => viewOf buf count offsetsEnd ts offsets
    | _, _ => .error .panics

def dataBytes (bb : BinBlock) (i : Nat) : Option Bytes :=
  match bb.offsets[i]?, bb.offsets[i + 1]? with
  | some off, some next => sliceOf bb.blob off next
  | _, _ => none

/-! ## Files -/

/-- The directory, each bloom filter allocated before it is read. -/
def readDir : Nat → Bytes → Except OpenErr (List Header)
  | 0, _ => .ok []
  | n + 1, bs =>
      if bs.length < 40 then .error .dirFixed
      else
        let fixed := bs.take 40
        let rest := bs.drop 40
        let bloomLen := getUint (slice fixed 36 40)
        if ¬Makes 1 bloomLen then .error .panics
        else if rest.length < bloomLen then .error .dirBloom
        else
          match readDir n (rest.drop bloomLen) with
          | .error err => .error err
          | .ok hs => .ok ({
              offset := toInt 64 (getUint (slice fixed 0 8))
              compressedSz := toInt 64 (getUint (slice fixed 8 16))
              count := toInt 32 (getUint (slice fixed 16 20))
              minTimestamp := toInt 64 (getUint (slice fixed 20 28))
              maxTimestamp := toInt 64 (getUint (slice fixed 28 36))
              bloom := rest.take bloomLen } :: hs)

/-- `int(binary.LittleEndian.Uint64(hdrBuf[8:16]))`. -/
def blockCount (file : Bytes) : Int := toInt 64 (getUint (slice file 8 16))

def openPartV2 : Option Bytes → Except OpenErr (Option PartFileV2)
  | none => .ok none
  | some file =>
      if file.length < 4 then .error .peek
      else if file.take 4 ≠ magicShrimp then .error (.badMagic (file.take 4))
      else if file.length < v2HeaderSize then .error .header
      else if file.getD 4 0 ≠ v2Version then .error (.version (file.getD 4 0))
      else if ¬Makes blockHeaderSize (blockCount file) then .error .panics
      else
        match readDir (blockCount file).toNat (file.drop v2HeaderSize) with
        | .error err => .error err
        | .ok hs => .ok (some ⟨hs, file.getD 4 0, file⟩)

section Read

variable (z : Zstd) (pf : PartFileV2)

def readBinBlock (idx : Int) : Except ReadErr BinBlock :=
  if idx < 0 ∨ idx ≥ pf.headers.length then .error (.outOfRange idx)
  else
    match pf.headers[idx.toNat]? with
    | none => .error .panics
    | some hdr =>
        if ¬Makes 1 hdr.compressedSz then .error .panics
        else
          match readAt pf.fd hdr.compressedSz hdr.offset with
          | .error err => .error err
          | .ok compressed =>
              match z.decode compressed with
              | none => .error .decompress
              | some decoded =>
                  match decodeBinBlock decoded hdr.count with
                  | .error err => .error (.decode err)
                  | .ok bb => .ok bb

def verifyBlocks : List Nat → Except ReadErr Unit
  | [] => .ok ()
  | i :: is =>
      match readBinBlock z pf i with
      | .error err => .error err
      | .ok _ => verifyBlocks is

def verifyPartV2 : Except ReadErr Unit := verifyBlocks z pf (List.range pf.headers.length)

end Read

/-- The error stands for a check of the runtime. -/
def fatal : ReadErr → Bool
  | .panics => true
  | .decode .panics => true
  | _ => false

def panicked {α : Type} : Except ReadErr α → Bool
  | .error err => fatal err
  | .ok _ => false

/-! ## Agreement with the functions without the checks -/

theorem makes_of_lt {size n : Int} (h0 : 0 ≤ n) (hn : n < 2 ^ 32) (hs0 : 0 ≤ size)
    (hs : size ≤ 8) : Makes size n := by
  refine ⟨h0, ?_⟩
  calc n * size ≤ 2 ^ 32 * 8 := mul_le_mul hn.le hs hs0 (by norm_num)
    _ ≤ maxAlloc := by norm_num [maxAlloc]

theorem checkMonotonic_eq {offsets is : List Nat} (h : ∀ i ∈ is, i + 1 < offsets.length) :
    checkMonotonic offsets is =
      match is.find? fun i => offsets.getD (i + 1) 0 < offsets.getD i 0 with
      | some i => .error (.nonMonotonic i)
      | none => .ok () := by
  induction is with
  | nil => rfl
  | cons i is ih =>
      have hi : i + 1 < offsets.length := h i List.mem_cons_self
      have hrest := ih fun j hj => h j (List.mem_cons_of_mem _ hj)
      rw [checkMonotonic, List.getElem?_eq_getElem hi,
        List.getElem?_eq_getElem (Nat.lt_of_succ_lt hi), List.find?_cons,
        List.getD_eq_getElem _ _ hi, List.getD_eq_getElem _ _ (Nat.lt_of_succ_lt hi)]
      by_cases hdrop : offsets[i + 1] < offsets[i]
      · simp only [hdrop, if_true, decide_true]
      · simp only [hdrop, if_false, decide_false]
        exact hrest

theorem tsFromBuf_eq {buf : Bytes} {count : Int} (h0 : 0 ≤ count) (hcount : count < 2 ^ 31)
    (hlen : count * 8 + (count + 1) * 4 ≤ buf.length) :
    tsFromBuf buf count = some (Block.tsFromBuf buf count.toNat) := by
  apply if_pos
  refine ⟨makes_of_lt h0 (by omega) (by norm_num) le_rfl, fun i hi => ?_⟩
  omega

theorem offsetsFromBuf_eq {buf : Bytes} {count : Int} (h0 : 0 ≤ count) (hcount : count < 2 ^ 31)
    (hlen : count * 8 + (count + 1) * 4 ≤ buf.length) :
    offsetsFromBuf buf count = some (Block.offsetsFromBuf buf count.toNat) := by
  apply if_pos
  refine ⟨makes_of_lt (by omega) (by omega) (by norm_num) (by norm_num), fun i hi => ?_⟩
  omega

theorem tsFromBuf_of_neg {buf : Bytes} {count : Int} (h : count < 0) :
    tsFromBuf buf count = none :=
  if_neg fun hmakes => absurd hmakes.1.1 (not_le.mpr h)

/-- The count of a header is an `int32`. -/
theorem decodeBinBlock_eq {count : Int} (hcount : count < 2 ^ 31) (buf : Bytes) :
    decodeBinBlock buf count = Block.decodeBinBlock buf count := by
  rw [decodeBinBlock, Block.decodeBinBlock]
  simp only
  by_cases hsmall : (buf.length : Int) < count * 8 + (count + 1) * 4
  · rw [if_pos hsmall, if_pos hsmall]
  · rw [if_neg hsmall, if_neg hsmall]
    rw [not_lt] at hsmall
    by_cases hneg : count < 0
    · rw [if_pos hneg, tsFromBuf_of_neg hneg]
    · rw [if_neg hneg]
      rw [not_lt] at hneg
      rw [tsFromBuf_eq hneg hcount hsmall, offsetsFromBuf_eq hneg hcount hsmall]
      simp only
      generalize hn : count.toNat = n
      have hlength : (Block.offsetsFromBuf buf n).length = n + 1 := length_getUints 4 (n + 1) _
      generalize Block.offsetsFromBuf buf n = offsets at hlength
      have hpos : count > 0 ↔ n > 0 := by omega
      rw [viewOf, hn, List.getElem?_eq_getElem (by omega), List.getElem?_eq_getElem (by omega),
        checkMonotonic_eq (by intro i hi; have := List.mem_range.mp hi; omega),
        List.getD_eq_getElem _ _ (by omega), List.getD_eq_getElem _ _ (by omega)]
      simp only [hpos]
      split_ifs with hfirst hshort
      · rfl
      · rfl
      · cases (List.range n).find? fun i => offsets.getD (i + 1) 0 < offsets.getD i 0 with
        | some i => rfl
        | none =>
            have hslice : sliceOf buf (count * 8 + (count + 1) * 4).toNat
                ((count * 8 + (count + 1) * 4).toNat + offsets[n]) =
                  some (slice buf _ _) := if_pos ⟨Nat.le_add_right _ _, not_lt.mp hshort⟩
            simp only [hslice]
            rfl

/-- The length of a bloom filter is a `uint32`. -/
theorem readDir_eq (n : Nat) (bs : Bytes) : readDir n bs = Format.readDir n bs := by
  induction n generalizing bs with
  | zero => rfl
  | succ n ih =>
      have hword : (slice (bs.take 40) 36 40).length ≤ 4 := by
        rw [slice, List.length_drop, List.length_take]
        omega
      have hbloom : getUint (slice (bs.take 40) 36 40) < 2 ^ 32 :=
        calc getUint (slice (bs.take 40) 36 40)
            < 256 ^ (slice (bs.take 40) 36 40).length := getUint_lt _
          _ ≤ 256 ^ 4 := Nat.pow_le_pow_right (by norm_num) hword
          _ = 2 ^ 32 := by norm_num
      have hmakes : Makes 1 (getUint (slice (bs.take 40) 36 40)) :=
        makes_of_lt (by omega) (by omega) (by norm_num) (by norm_num)
      rw [readDir, Format.readDir]
      cases hrest : Format.readDir n ((bs.drop 40).drop (getUint (slice (bs.take 40) 36 40))) with
      | error err => simp only [hmakes, not_true_eq_false, if_false, ih, hrest]
      | ok hs => simp only [hmakes, not_true_eq_false, if_false, ih, hrest]

/-- Magic, header and version are those of a part. -/
def Started (file : Bytes) : Prop :=
  file.take 4 = magicShrimp ∧ v2HeaderSize ≤ file.length ∧ file.getD 4 0 = v2Version

instance (file : Bytes) : Decidable (Started file) := inferInstanceAs (Decidable (_ ∧ _ ∧ _))

/-- Nothing but an unfit block count makes the difference. -/
theorem openPartV2_eq (file : Bytes) :
    openPartV2 (some file) =
      if Started file ∧ ¬Makes blockHeaderSize (blockCount file) then .error .panics
      else Format.openPartV2 (some file) := by
  rw [openPartV2, Format.openPartV2, readDir_eq]
  by_cases hshort : file.length < 4
  · have hheader : ¬v2HeaderSize ≤ file.length := not_le.mpr (hshort.trans (by decide))
    simp [Started, hshort, hheader]
  by_cases hmagic : file.take 4 = magicShrimp
  swap
  · simp [Started, hshort, hmagic]
  by_cases hheader : file.length < v2HeaderSize
  · simp [Started, hshort, hmagic, hheader, not_le.mpr hheader]
  by_cases hversion : file.getD 4 0 = v2Version
  swap
  · simp only [Started, hshort, hmagic, hheader, hversion, ne_eq, not_false_eq_true, if_true,
      if_false, not_true_eq_false, and_false, false_and]
  have hstarted : Started file := ⟨hmagic, not_lt.mp hheader, hversion⟩
  simp only [hshort, hmagic, hheader, hversion, hstarted, ne_eq, not_true_eq_false, if_false,
    true_and]
  by_cases hmakes : Makes blockHeaderSize (blockCount file)
  · have hcount : ¬toInt 64 (getUint (slice file 8 16)) < 0 := not_lt.mpr hmakes.1
    rw [if_neg (not_not.mpr hmakes), if_neg (not_not.mpr hmakes)]
    cases hdir : Format.readDir (blockCount file).toNat (file.drop v2HeaderSize) with
    | error err =>
        rw [blockCount] at hdir
        simp only [hcount, if_false, hdir]
    | ok hs =>
        rw [blockCount] at hdir
        simp only [hcount, if_false, hdir]
  · rw [if_pos hmakes, if_pos hmakes]

theorem readDir_ne_panics (n : Nat) (bs : Bytes) : Format.readDir n bs ≠ .error .panics := by
  induction n generalizing bs with
  | zero => nofun
  | succ n ih =>
      intro h
      rw [Format.readDir] at h
      simp only at h
      split at h
      · cases h
      · split at h
        · cases h
        · split at h
          · rename_i err hread
            rw [Except.error.inj h] at hread
            exact ih _ hread
          · cases h

theorem openPartV2_panics_iff (file : Bytes) :
    openPartV2 (some file) = .error .panics ↔
      Started file ∧ ¬Makes blockHeaderSize (blockCount file) := by
  rw [openPartV2_eq]
  constructor
  · intro h
    by_contra hfit
    rw [if_neg hfit, Format.openPartV2] at h
    simp only at h
    split_ifs at h with hshort hmagic hheader hversion hneg
    · cases h
    · cases h
    · cases h
    · cases h
    · exact hfit ⟨⟨not_not.mp hmagic, not_lt.mp hheader, not_not.mp hversion⟩,
        fun hmakes => hmakes.1.not_gt hneg⟩
    · split at h
      · rename_i err hread
        rw [Except.error.inj h] at hread
        exact readDir_ne_panics _ _ hread
      · cases h
  · exact fun h => if_pos h

/-! ## Which headers can be read -/

theorem toInt32_lt (n : Nat) : toInt 32 n < 2 ^ 31 := by
  have hpos : 0 < 2 ^ 32 := by norm_num
  have hlt := @Int.bmod_lt n (2 ^ 32) hpos
  rw [toInt]
  omega

theorem count_lt_of_readDir {n : Nat} {bs : Bytes} {hs : List Header}
    (h : Format.readDir n bs = .ok hs) : ∀ hdr ∈ hs, hdr.count < 2 ^ 31 := by
  induction n generalizing bs hs with
  | zero =>
      obtain rfl := Except.ok.inj h
      nofun
  | succ n ih =>
      rw [Format.readDir] at h
      simp only at h
      split at h
      · cases h
      · split at h
        · cases h
        · split at h
          · cases h
          · rename_i rest hread
            obtain rfl := Except.ok.inj h
            intro hdr hmem
            rcases List.mem_cons.mp hmem with rfl | hrest
            · simp only [toInt32_lt]
            · exact ih hread hdr hrest

/-- The sizes that a header names can be allocated, or its count is never looked at. -/
def Fits (z : Zstd) (fd : Bytes) (hdr : Header) : Prop :=
  Makes 1 hdr.compressedSz ∧
    (0 ≤ hdr.count ∨
      ∀ compressed, readAt fd hdr.compressedSz hdr.offset = .ok compressed →
        z.decode compressed = none)

theorem readAt_error {fd : Bytes} {sz offset : Int} {err : ReadErr} (hsz : 0 ≤ sz)
    (h : readAt fd sz offset = .error err) : err = .read := by
  rw [readAt, if_neg (not_lt.mpr hsz)] at h
  split_ifs at h
  · exact (Except.error.inj h).symm
  · exact (Except.error.inj h).symm

theorem decodeBinBlock_panics_iff (buf : Bytes) (count : Int) :
    Block.decodeBinBlock buf count = .error .panics ↔ count < 0 := by
  rw [Block.decodeBinBlock]
  simp only
  constructor
  · intro h
    by_contra hneg
    rw [if_neg hneg] at h
    split_ifs at h
    · cases h
    · cases h
    · cases h
    · split at h <;> cases h
  · intro hneg
    rw [if_neg (by omega), if_pos hneg]

section Blocks

variable {z : Zstd} {pf : PartFileV2}

theorem readBinBlock_at {hdr : Header} {i : Nat} (hget : pf.headers[i]? = some hdr) :
    readBinBlock z pf i =
      if ¬Makes 1 hdr.compressedSz then .error .panics
      else
        match readAt pf.fd hdr.compressedSz hdr.offset with
        | .error err => .error err
        | .ok compressed =>
            match z.decode compressed with
            | none => .error .decompress
            | some decoded =>
                match decodeBinBlock decoded hdr.count with
                | .error err => .error (.decode err)
                | .ok bb => .ok bb := by
  have hi : i < pf.headers.length := (List.getElem?_eq_some_iff.mp hget).1
  rw [readBinBlock, if_neg (by omega)]
  simp only [Int.toNat_natCast, hget]

theorem panicked_readBinBlock_iff {hdr : Header} {i : Nat} (hget : pf.headers[i]? = some hdr)
    (hcount : hdr.count < 2 ^ 31) :
    panicked (readBinBlock z pf i) = true ↔ ¬Fits z pf.fd hdr := by
  rw [readBinBlock_at hget]
  by_cases hmakes : Makes 1 hdr.compressedSz
  swap
  · rw [if_pos hmakes]
    exact ⟨fun _ hfits => hmakes hfits.1, fun _ => rfl⟩
  rw [if_neg (not_not.mpr hmakes)]
  cases hread : readAt pf.fd hdr.compressedSz hdr.offset with
  | error err =>
      have hfits : Fits z pf.fd hdr := by
        refine ⟨hmakes, Or.inr fun compressed hok => ?_⟩
        rw [hread] at hok
        cases hok
      have hquiet : panicked (.error err : Except ReadErr BinBlock) = false := by
        have hne := readAt_error hmakes.1 hread
        rw [hne]
        rfl
      simp only [hquiet, hfits, not_true_eq_false, Bool.false_eq_true]
  | ok compressed =>
      cases hdecode : z.decode compressed with
      | none =>
          have hfits : Fits z pf.fd hdr := by
            refine ⟨hmakes, Or.inr fun compressed' hok => ?_⟩
            rw [hread, Except.ok.injEq] at hok
            rw [← hok, hdecode]
          simp only [hdecode, panicked, fatal, hfits, not_true_eq_false, Bool.false_eq_true]
      | some decoded =>
          have hfits : Fits z pf.fd hdr ↔ 0 ≤ hdr.count := by
            refine ⟨fun h => h.2.resolve_right fun hnone => ?_, fun h => ⟨hmakes, Or.inl h⟩⟩
            rw [hnone compressed hread] at hdecode
            cases hdecode
          rw [hfits, not_le, ← decodeBinBlock_panics_iff decoded, ← decodeBinBlock_eq hcount]
          simp only [hdecode]
          cases decodeBinBlock decoded hdr.count with
          | error err => cases err <;> simp [panicked, fatal]
          | ok bb => simp [panicked]

theorem panicked_verifyBlocks {is : List Nat} (h : panicked (verifyBlocks z pf is) = true) :
    ∃ i ∈ is, panicked (readBinBlock z pf i) = true := by
  induction is with
  | nil => cases h
  | cons i is ih =>
      rw [verifyBlocks] at h
      cases hread : readBinBlock z pf i with
      | error err =>
          simp only [hread] at h
          refine ⟨i, List.mem_cons_self, ?_⟩
          rw [hread]
          exact h
      | ok bb =>
          rw [hread] at h
          obtain ⟨j, hj, hpanicked⟩ := ih h
          exact ⟨j, List.mem_cons_of_mem _ hj, hpanicked⟩

/-- A panic of `ReadBinBlock` comes from a header. -/
theorem header_of_panicked {idx : Int} (h : panicked (readBinBlock z pf idx) = true) :
    ∃ i : Nat, idx = i ∧ ∃ hdr, pf.headers[i]? = some hdr := by
  by_cases hrange : idx < 0 ∨ idx ≥ pf.headers.length
  · rw [readBinBlock, if_pos hrange] at h
    cases h
  · have hlt : idx.toNat < pf.headers.length := by omega
    exact ⟨idx.toNat, by omega, _, List.getElem?_eq_getElem hlt⟩

theorem decoded_of_readBinBlock {idx : Int} {bb : BinBlock}
    (hcount : ∀ hdr ∈ pf.headers, hdr.count < 2 ^ 31) (h : readBinBlock z pf idx = .ok bb) :
    bb.Decoded := by
  rw [readBinBlock] at h
  split at h
  · cases h
  · split at h
    · cases h
    · rename_i hdr hget
      split at h
      · cases h
      · split at h
        · cases h
        · split at h
          · cases h
          · rw [decodeBinBlock_eq (hcount hdr (List.mem_of_getElem? hget))] at h
            split at h
            · cases h
            · rename_i bb' hdecode
              obtain rfl := Except.ok.inj h
              exact (decoded_of_decodeBinBlock hdecode).1

end Blocks

/-- Every row of a decoded block can be sliced out of it. -/
theorem dataBytes_eq {bb : BinBlock} (h : bb.Decoded) {i : Nat} (hi : i < bb.ts.length) :
    dataBytes bb i = some (bb.dataBytes i) := by
  have hvalid := h.valid (Nat.zero_lt_of_lt hi)
  have hlength := h.length
  have hnext : i + 1 < bb.offsets.length := by omega
  have hlast : bb.offsets.getD (i + 1) 0 ≤ bb.blob.length := by
    rw [h.last]
    exact hvalid.offsets_le hi le_rfl
  have hmono := h.mono i hi
  rw [List.getD_eq_getElem _ _ hnext] at hlast hmono
  rw [List.getD_eq_getElem _ _ (Nat.lt_of_succ_lt hnext)] at hmono
  rw [dataBytes, List.getElem?_eq_getElem hnext, List.getElem?_eq_getElem (Nat.lt_of_succ_lt hnext),
    BinBlock.dataBytes, List.getD_eq_getElem _ _ hnext,
    List.getD_eq_getElem _ _ (Nat.lt_of_succ_lt hnext)]
  exact if_pos ⟨hmono, hlast⟩

/-! ## Any bytes -/

/-- Opening the file, verifying it, reading any of its blocks and slicing any row out of a block
that was read end without a panic. -/
structure Safe (z : Zstd) (file : Bytes) : Prop where
  opens : openPartV2 (some file) ≠ .error .panics
  verifies : ∀ pf, openPartV2 (some file) = .ok (some pf) → panicked (verifyPartV2 z pf) = false
  reads : ∀ pf, openPartV2 (some file) = .ok (some pf) →
    ∀ idx, panicked (readBinBlock z pf idx) = false
  slices : ∀ pf, openPartV2 (some file) = .ok (some pf) →
    ∀ idx bb, readBinBlock z pf idx = .ok bb →
      ∀ i < bb.ts.length, dataBytes bb i = some (bb.dataBytes i)

theorem openPartV2_ok {file : Bytes} {pf : PartFileV2} (h : openPartV2 (some file) = .ok (some pf)) :
    Started file ∧ pf.fd = file ∧
      Format.readDir (blockCount file).toNat (file.drop v2HeaderSize) = .ok pf.headers := by
  rw [openPartV2] at h
  split_ifs at h with hshort hmagic hheader hversion hmakes
  · split at h
    · cases h
    · rename_i hs hread
      obtain rfl := Option.some.inj (Except.ok.inj h)
      rw [readDir_eq] at hread
      exact ⟨⟨not_not.mp hmagic, not_lt.mp hheader, not_not.mp hversion⟩, rfl, hread⟩

/-- The block count, and the sizes and row counts in the directory, can be allocated. -/
structure SizesFit (z : Zstd) (file : Bytes) : Prop where
  blocks : Started file → Makes blockHeaderSize (blockCount file)
  headers : Started file →
    ∀ hs, Format.readDir (blockCount file).toNat (file.drop v2HeaderSize) = .ok hs →
      ∀ hdr ∈ hs, Fits z file hdr

theorem openPartV2_of_readDir {file : Bytes} {hs : List Header} (hstarted : Started file)
    (hmakes : Makes blockHeaderSize (blockCount file))
    (hdir : Format.readDir (blockCount file).toNat (file.drop v2HeaderSize) = .ok hs) :
    openPartV2 (some file) = .ok (some ⟨hs, file.getD 4 0, file⟩) := by
  obtain ⟨hmagic, hheader, hversion⟩ := hstarted
  have hlong : ¬file.length < 4 := not_lt.mpr (le_trans (by decide) hheader)
  rw [openPartV2, if_neg hlong, if_neg (not_not.mpr hmagic), if_neg (not_lt.mpr hheader),
    if_neg (not_not.mpr hversion), if_neg (not_not.mpr hmakes), readDir_eq]
  simp only [hdir]

/-- The blocks of the directory of a safe file can be read. -/
theorem Safe.fits {z : Zstd} {file : Bytes} (h : Safe z file) (hstarted : Started file)
    (hmakes : Makes blockHeaderSize (blockCount file)) {hs : List Header}
    (hdir : Format.readDir (blockCount file).toNat (file.drop v2HeaderSize) = .ok hs)
    {hdr : Header} (hmem : hdr ∈ hs) : Fits z file hdr := by
  have hopen := openPartV2_of_readDir hstarted hmakes hdir
  obtain ⟨i, hget⟩ := List.mem_iff_getElem?.mp hmem
  have hquiet := h.reads _ hopen i
  have hpanicked := @panicked_readBinBlock_iff z ⟨hs, file.getD 4 0, file⟩ hdr i hget
    (count_lt_of_readDir hdir hdr hmem)
  by_contra hfits
  rw [hpanicked.mpr hfits] at hquiet
  cases hquiet

/-- A part file of any bytes is read without a panic just when the sizes that it names can be
allocated. -/
theorem parse_safe_iff (z : Zstd) (file : Bytes) : Safe z file ↔ SizesFit z file := by
  constructor
  · intro h
    have hblocks : Started file → Makes blockHeaderSize (blockCount file) := by
      intro hstarted
      by_contra hmakes
      exact h.opens ((openPartV2_panics_iff file).mpr ⟨hstarted, hmakes⟩)
    exact ⟨hblocks, fun hstarted hs hdir hdr hmem => h.fits hstarted (hblocks hstarted) hdir hmem⟩
  · intro h
    have hreads : ∀ pf, openPartV2 (some file) = .ok (some pf) →
        ∀ idx, panicked (readBinBlock z pf idx) = false := by
      intro pf hopen idx
      obtain ⟨hstarted, hfd, hdir⟩ := openPartV2_ok hopen
      by_contra hpanicked
      rw [Bool.not_eq_false] at hpanicked
      obtain ⟨i, rfl, hdr, hget⟩ := header_of_panicked hpanicked
      have hmem := List.mem_of_getElem? hget
      rw [panicked_readBinBlock_iff hget (count_lt_of_readDir hdir hdr hmem), hfd] at hpanicked
      exact hpanicked (h.headers hstarted _ hdir hdr hmem)
    refine ⟨fun hpanics => ?_, fun pf hopen => ?_, hreads, fun pf hopen idx bb hread i hi => ?_⟩
    · obtain ⟨hstarted, hmakes⟩ := (openPartV2_panics_iff file).mp hpanics
      exact hmakes (h.blocks hstarted)
    · by_contra hpanicked
      rw [Bool.not_eq_false] at hpanicked
      obtain ⟨i, -, hpanicked⟩ := panicked_verifyBlocks hpanicked
      rw [hreads pf hopen i] at hpanicked
      cases hpanicked
    · obtain ⟨-, -, hdir⟩ := openPartV2_ok hopen
      exact dataBytes_eq (decoded_of_readBinBlock (count_lt_of_readDir hdir) hread) hi

/-- A file with this block count and these bytes after the header. -/
def startedFile (blocks : Nat) (rest : Bytes) : Bytes :=
  magicShrimp ++ [v2Version, 0, 0, 0] ++ putUint 8 blocks ++ rest

/-- A directory of one record at offset 0. -/
def oneRecord (sz count : Nat) : Bytes :=
  List.replicate 8 0 ++ putUint 8 sz ++ putUint 4 count ++ List.replicate 20 0

/-- A file whose only record cannot be read. -/
theorem not_safe_oneRecord {rest : Bytes} {hdr : Header} (z : Zstd)
    (hstarted : Started (startedFile 1 rest)) (hcount : blockCount (startedFile 1 rest) = 1)
    (hdir : Format.readDir 1 ((startedFile 1 rest).drop v2HeaderSize) = .ok [hdr])
    (hfits : ¬Fits z (startedFile 1 rest) hdr) : ¬Safe z (startedFile 1 rest) := by
  intro h
  have hmakes : Makes blockHeaderSize (blockCount (startedFile 1 rest)) := by
    rw [hcount]
    decide
  exact hfits (h.fits hstarted hmakes (by rw [hcount]; exact hdir) List.mem_cons_self)

/-- The block count -1 and a block count beyond the address space, the compressed size -1, and the
row count -1 of a block that can be read. -/
theorem unfit_sizes_panic :
    ¬Safe plainEnv.zstd (startedFile (2 ^ 64 - 1) []) ∧
      ¬Safe plainEnv.zstd (startedFile (2 ^ 43) []) ∧
        ¬Safe plainEnv.zstd (startedFile 1 (oneRecord (2 ^ 64 - 1) 0)) ∧
          ¬Safe plainEnv.zstd (startedFile 1 (oneRecord 16 (2 ^ 32 - 1))) := by
  refine ⟨fun h => ?_, fun h => ?_, ?_, ?_⟩
  · exact h.opens ((openPartV2_panics_iff _).mpr (by decide +kernel))
  · exact h.opens ((openPartV2_panics_iff _).mpr (by decide +kernel))
  · have hdir : Format.readDir 1 ((startedFile 1 (oneRecord (2 ^ 64 - 1) 0)).drop v2HeaderSize) =
        .ok [⟨0, -1, 0, 0, 0, []⟩] := by decide +kernel
    apply not_safe_oneRecord _ (by decide +kernel) (by decide +kernel) hdir
    exact fun hfits => absurd hfits.1 (by decide)
  · have hdir : Format.readDir 1 ((startedFile 1 (oneRecord 16 (2 ^ 32 - 1))).drop v2HeaderSize) =
        .ok [⟨0, 16, -1, 0, 0, []⟩] := by decide +kernel
    apply not_safe_oneRecord _ (by decide +kernel) (by decide +kernel) hdir
    rintro ⟨-, hcount | hnone⟩
    · exact absurd hcount (by decide)
    · exact absurd (hnone (startedFile 1 []) (by decide +kernel)) nofun

end Shrimpd.Block.Runtime
