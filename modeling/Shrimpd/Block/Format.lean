import Shrimpd.Block.Bloom
import Shrimpd.Block.Part

/-!
# Part files, byte by byte

The writer compresses block after block into a payload file and remembers a
header for each.  The part file is a fixed header, a directory with one record
of variable size for each block, and the payload.  Opening a part reads the
directory back, and each block is read at the place its record names.  The
compressor is a parameter.
-/

namespace Shrimpd.Block.Format

open Shrimpd.Lib Shrimpd.Types Shrimpd.Filter

/-! ## Writing -/

structure Zstd where
  encode : Bytes → Bytes
  decode : Bytes → Option Bytes

/-- What the writer takes from libraries. -/
structure Env where
  zstd : Zstd
  hasher : Hasher
  unicode : Unicode
  json : JsonReader

/-- No compression at all, and one hash for everything. -/
def plainEnv : Env := ⟨⟨id, some⟩, ⟨fun _ => (1, 2)⟩, .asciiOnly, .flat⟩

def Env.bloom (env : Env) (rows : List Entry) : Bytes :=
  blockBloom env.hasher env.unicode env.json rows

structure Header where
  offset : Int
  compressedSz : Int
  count : Int
  minTimestamp : Int
  maxTimestamp : Int
  bloom : Bytes
  deriving DecidableEq, Repr

/-- Offsets are relative to the payload until the directory is written. -/
structure Writer where
  payload : Bytes
  headers : List Header
  offset : Int

def magicShrimp : Bytes := ascii "SHMP"

def v2Version : UInt8 := 3

def v2HeaderSize : Nat := 16

section Write

variable (env : Env)

def Writer.flushBlock (st : Writer) (block : List Entry) : Writer :=
  if block.length = 0 then st
  else
    let binBuf := encodeBinBlock block []
    let payload := st.payload ++ env.zstd.encode binBuf
    let stop : Int := payload.length
    { payload := payload
      headers := st.headers ++ [{
        offset := st.offset
        compressedSz := stop - st.offset
        count := toInt 32 (toUint 32 block.length)
        minTimestamp := firstTimestamp block
        maxTimestamp := lastTimestamp block
        bloom := env.bloom block }]
      offset := stop }

/-- The loop over the rows; `buf` holds those of the block being filled. -/
def writeRows (blockSize : Nat) (st : Writer) (buf : List Entry) : List Entry → Writer
  | [] => if buf.length > 0 then st.flushBlock env buf else st
  | e :: es =>
      if (buf ++ [e]).length = blockSize then
        writeRows blockSize (st.flushBlock env (buf ++ [e])) [] es
      else writeRows blockSize st (buf ++ [e]) es

/-- The record of a block in the directory, its offset moved behind the directory. -/
def dirRow (base : Int) (h : Header) : Bytes :=
  putUint 8 (toUint 64 (base + h.offset)) ++ putUint 8 (toUint 64 h.compressedSz) ++
    putUint 4 (toUint 32 h.count) ++ putUint 8 (toUint 64 h.minTimestamp) ++
    putUint 8 (toUint 64 h.maxTimestamp) ++ putUint 4 (toUint 32 h.bloom.length) ++ h.bloom

def dirSize (hs : List Header) : Nat := (hs.map fun h => 40 + h.bloom.length).sum

/-- The directory is left out at first and written over its placeholder at the end. -/
def Writer.finish (st : Writer) : Bytes :=
  let headerBuf := List.replicate v2HeaderSize 0
  let headerBuf := writeAt headerBuf 0 magicShrimp
  let headerBuf := writeAt headerBuf 4 [v2Version]
  let headerBuf := writeAt headerBuf 8 (putUint 8 (toUint 64 st.headers.length))
  let file := headerBuf ++ List.replicate (dirSize st.headers) 0 ++ st.payload
  let baseOffset : Int := v2HeaderSize + dirSize st.headers
  writeAt file v2HeaderSize (st.headers.flatMap (dirRow baseOffset))

def rowsPerBlock (blockSize : Int) : Nat := if blockSize ≤ 0 then v2BlockRows else blockSize.toNat

/-- The part file of the rows. -/
def writePartV2Seq (rows : List Entry) (blockSize : Int) : Bytes :=
  (writeRows env (rowsPerBlock blockSize) ⟨[], [], 0⟩ [] rows).finish

end Write

/-! ## Reading -/

structure PartFileV2 where
  headers : List Header
  version : UInt8
  fd : Bytes

inductive OpenErr where
  | peek
  | badMagic (got : Bytes)
  | header
  | version (got : UInt8)
  | panics
  | dirFixed
  | dirBloom
  deriving DecidableEq, Repr

/-- The bytes from `i` up to `j`. -/
def slice (bs : Bytes) (i j : Nat) : Bytes := (bs.take j).drop i

/-- The directory, record by record. -/
def readDir : Nat → Bytes → Except OpenErr (List Header)
  | 0, _ => .ok []
  | n + 1, bs =>
      if bs.length < 40 then .error .dirFixed
      else
        let fixed := bs.take 40
        let rest := bs.drop 40
        let bloomLen := getUint (slice fixed 36 40)
        if rest.length < bloomLen then .error .dirBloom
        else
          match readDir n (rest.drop bloomLen) with
          | .error err => .error err
          | .ok hs => .ok ({
              offset := toInt 64 (getUint (slice fixed 0 8))
              compressedSz := toInt 64 (getUint (slice fixed 8 16))
              count := toInt 32 (getUint (slice fixed 16 20))
              minTimestamp := toInt 64 (getUint (slice fixed 20 28))
              maxTimestamp := toInt 64 (getUint (slice fixed 28 36))
              bloom := rest.take bloomLen } :: hs)

/-- A missing file is no error; a negative block count has no slice. -/
def openPartV2 : Option Bytes → Except OpenErr (Option PartFileV2)
  | none => .ok none
  | some file =>
      if file.length < 4 then .error .peek
      else if file.take 4 ≠ magicShrimp then .error (.badMagic (file.take 4))
      else if file.length < v2HeaderSize then .error .header
      else if file.getD 4 0 ≠ v2Version then .error (.version (file.getD 4 0))
      else
        let blockCount := toInt 64 (getUint (slice file 8 16))
        if blockCount < 0 then .error .panics
        else
          match readDir blockCount.toNat (file.drop v2HeaderSize) with
          | .error err => .error err
          | .ok hs => .ok (some ⟨hs, file.getD 4 0, file⟩)

inductive ReadErr where
  | outOfRange (idx : Int)
  | panics
  | read
  | decompress
  | decode (err : DecodeErr)
  deriving DecidableEq, Repr

/-- `ReadAt` of as many bytes as the header says. -/
def readAt (fd : Bytes) (sz offset : Int) : Except ReadErr Bytes :=
  if sz < 0 then .error .panics
  else if offset < 0 then .error .read
  else if sz = 0 then .ok []
  else if (fd.length : Int) < offset + sz then .error .read
  else .ok ((fd.drop offset.toNat).take sz.toNat)

def readBinBlock (z : Zstd) (pf : PartFileV2) (idx : Int) : Except ReadErr BinBlock :=
  if idx < 0 ∨ idx ≥ pf.headers.length then .error (.outOfRange idx)
  else
    match pf.headers[idx.toNat]? with
    | none => .error (.outOfRange idx)
    | some hdr =>
        match readAt pf.fd hdr.compressedSz hdr.offset with
        | .error err => .error err
        | .ok compressed =>
            match z.decode compressed with
            | none => .error .decompress
            | some decoded =>
                match decodeBinBlock decoded hdr.count with
                | .error err => .error (.decode err)
                | .ok bb => .ok bb

end Shrimpd.Block.Format
