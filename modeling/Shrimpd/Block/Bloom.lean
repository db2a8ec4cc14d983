import Shrimpd.Block.BinBlock
import Shrimpd.Block.Token

/-!
# Bloom filters of blocks

Each block header carries a filter over the tokens and the labels of the rows.
A token sets four bits that its hash selects; the hash is a parameter.
-/

namespace Shrimpd.Block

open Shrimpd.Lib Shrimpd.Types Shrimpd.Filter

/-- `xxh3.Hash128`: the low and the high word. -/
structure Hasher where
  hash128 : Bytes → Nat × Nat

def bloomK : Nat := 4

/-- The sum wraps around at 64 bits. -/
def indexBit (h1 h2 i bits : Nat) : Nat := (h1 + i * h2) % 2 ^ 64 % bits

def setBit (b : Bytes) (h1 h2 i : Nat) : Bytes :=
  if b.length = 0 then b
  else
    let index := indexBit h1 h2 i (b.length * 8)
    b.modify (index / 8) fun x => x ||| UInt8.ofNat (2 ^ (index % 8))

def getBit (b : Bytes) (h1 h2 i : Nat) : Bool :=
  if b.length = 0 then false
  else
    let index := indexBit h1 h2 i (b.length * 8)
    b.getD (index / 8) 0 &&& UInt8.ofNat (2 ^ (index % 8)) ≠ 0

def bloomSetHash (b : Bytes) (h : Nat × Nat) : Bytes :=
  (List.range bloomK).foldl (fun b i => setBit b h.1 h.2 i) b

def bloomMightContainHash (b : Bytes) (h : Nat × Nat) : Bool :=
  if b.length = 0 then false else (List.range bloomK).all fun i => getBit b h.1 h.2 i

section Filters

variable (H : Hasher)

def bloomAddBytes (b token : Bytes) : Bytes := bloomSetHash b (H.hash128 token)

def bloomMightContainBytes (b token : Bytes) : Bool := bloomMightContainHash b (H.hash128 token)

/-- The key and the value are copied into a buffer of 256 bytes as far as they fit; a key
that fills it leaves no room for the separator. -/
def labelBuf (key value : Bytes) : Except Stuck Bytes :=
  let buf := ascii "lbl:" ++ key.take 252
  if buf.length = 256 then .error .panics
  else
    let buf := buf ++ ascii "="
    .ok (buf ++ value.take (256 - buf.length))

def bloomMightContainLabel (b key value : Bytes) : Except Stuck Bool := do
  let token ← labelBuf key value
  return bloomMightContainBytes H b token

/-- Tokens and labels of the rows, each once. -/
def bloomTokens (U : Unicode) (J : JsonReader) (rows : List Entry) : List Bytes :=
  (rows.flatMap fun e =>
    ((extractLabels J e.data).entries.map fun kv => ascii "lbl:" ++ kv.1 ++ ascii "=" ++ kv.2) ++
      tokenize U e.data).dedup

/-- Ten bits for each token, and never less than 1 KiB. -/
def blockBloom (U : Unicode) (J : JsonReader) (rows : List Entry) : Bytes :=
  let distinct := bloomTokens U J rows
  let bloomBytes := max ((distinct.length * 10 + 7) / 8) 1024
  distinct.foldl (bloomAddBytes H) (List.replicate bloomBytes 0)

variable {H}

@[simp] theorem length_setBit (b : Bytes) (h1 h2 i : Nat) :
    (setBit b h1 h2 i).length = b.length := by
  unfold setBit
  split_ifs
  · rfl
  · exact List.length_modify _ _ _

@[simp] theorem length_bloomSetHash (b : Bytes) (h : Nat × Nat) :
    (bloomSetHash b h).length = b.length :=
  length_foldl (fun b i => length_setBit b _ _ i) _ b

@[simp] theorem length_bloomAddBytes (b token : Bytes) :
    (bloomAddBytes H b token).length = b.length :=
  length_bloomSetHash b _

theorem length_blockBloom (U : Unicode) (J : JsonReader) (rows : List Entry) :
    (blockBloom H U J rows).length =
      max (((bloomTokens U J rows).length * 10 + 7) / 8) 1024 := by
  rw [blockBloom, length_foldl length_bloomAddBytes, List.length_replicate]

end Filters

end Shrimpd.Block
