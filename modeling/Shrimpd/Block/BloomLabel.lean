import Shrimpd.Block.RoundTrip
import Shrimpd.Lib.Bits

/-!
# Labels in the Bloom filters

The bits of a block's filter are those of its tokens and labels, so a text that
was added is found.  The writer adds a label as a whole.  A query builds it anew
in a buffer of 256 bytes: a longer label is cut there and looked up as another
text, and a key that fills the buffer has no place for the separator.
-/

namespace Shrimpd.Block

open Shrimpd.Lib Shrimpd.Types Shrimpd.Filter

/-! ## The bits of a filter -/

section Bits

variable {H : Hasher} {b : Bytes} {n : Nat}

theorem indexBit_div_lt (hb : b.length ≠ 0) (h1 h2 i : Nat) :
    indexBit h1 h2 i (b.length * 8) / 8 < b.length := by
  have hlt : indexBit h1 h2 i (b.length * 8) < b.length * 8 := Nat.mod_lt _ (by omega)
  omega

theorem bitAt_setBit (hb : b.length ≠ 0) (h1 h2 i : Nat) :
    bitAt (setBit b h1 h2 i) n =
      (bitAt b n || decide (indexBit h1 h2 i (b.length * 8) = n)) := by
  rw [setBit, if_neg hb]
  exact bitAt_modify_or b (indexBit_div_lt hb h1 h2 i) n

theorem getBit_eq_bitAt (hb : b.length ≠ 0) (h1 h2 i : Nat) :
    getBit b h1 h2 i = bitAt b (indexBit h1 h2 i (b.length * 8)) := by
  rw [getBit, if_neg hb, bitAt, Bool.eq_iff_iff, decide_eq_true_eq]
  exact and_two_pow_ne_zero_iff _ (Nat.mod_lt _ (by decide))

/-- The bits that the hash of a text selects in a filter of this many bytes. -/
def bloomBits (H : Hasher) (len : Nat) (token : Bytes) : List Nat :=
  (List.range bloomK).map fun i =>
    indexBit (H.hash128 token).1 (H.hash128 token).2 i (len * 8)

theorem bitAt_foldl_setBit (hb : b.length ≠ 0) (h1 h2 : Nat) (is : List Nat) :
    bitAt (is.foldl (fun b i => setBit b h1 h2 i) b) n = true ↔
      bitAt b n = true ∨ n ∈ is.map fun i => indexBit h1 h2 i (b.length * 8) := by
  induction is generalizing b with
  | nil => simp
  | cons i is ih =>
      have hlen := length_setBit b h1 h2 i
      rw [List.foldl_cons, ih (by omega), hlen, bitAt_setBit hb, List.map_cons, List.mem_cons,
        Bool.or_eq_true, decide_eq_true_eq, or_assoc, @eq_comm _ n]

/-- The bits that a hash selects in a filter of this many bytes. -/
def hashBits (len : Nat) (h : Nat × Nat) : List Nat :=
  (List.range bloomK).map fun i => indexBit h.1 h.2 i (len * 8)

/-- After any number of hashes, the bits of the filter are those of the hashes. -/
theorem bitAt_foldl_bloomSetHash (hb : b.length ≠ 0) (hs : List (Nat × Nat)) :
    bitAt (hs.foldl bloomSetHash b) n = true ↔
      bitAt b n = true ∨ ∃ h ∈ hs, n ∈ hashBits b.length h := by
  induction hs generalizing b with
  | nil => simp
  | cons h hs ih =>
      have hlen : (bloomSetHash b h).length = b.length := length_bloomSetHash b h
      have hfirst : bitAt (bloomSetHash b h) n = true ↔
          bitAt b n = true ∨ n ∈ hashBits b.length h := bitAt_foldl_setBit hb _ _ _
      rw [List.foldl_cons, ih (by omega), hlen, hfirst, or_assoc]
      simp only [List.mem_cons, exists_eq_or_imp]

theorem bloomMightContainHash_iff (hb : b.length ≠ 0) (h : Nat × Nat) :
    bloomMightContainHash b h = true ↔ ∀ n ∈ hashBits b.length h, bitAt b n = true := by
  rw [bloomMightContainHash, if_neg hb, List.all_eq_true, hashBits, List.forall_mem_map]
  simp only [getBit_eq_bitAt hb]

theorem foldl_bloomAddBytes (tokens : List Bytes) (b : Bytes) :
    tokens.foldl (bloomAddBytes H) b = (tokens.map H.hash128).foldl bloomSetHash b := by
  rw [List.foldl_map]
  rfl

/-- After any number of texts, the bits of the filter are those of the texts. -/
theorem bitAt_foldl_bloomAddBytes (hb : b.length ≠ 0) (tokens : List Bytes) :
    bitAt (tokens.foldl (bloomAddBytes H) b) n = true ↔
      bitAt b n = true ∨ ∃ t ∈ tokens, n ∈ bloomBits H b.length t := by
  rw [foldl_bloomAddBytes, bitAt_foldl_bloomSetHash hb]
  refine or_congr_right ⟨?_, ?_⟩
  · rintro ⟨h, hh, hn⟩
    obtain ⟨t, ht, rfl⟩ := List.mem_map.mp hh
    exact ⟨t, ht, hn⟩
  · rintro ⟨t, ht, hn⟩
    exact ⟨_, List.mem_map_of_mem ht, hn⟩

theorem bloomMightContainBytes_iff (hb : b.length ≠ 0) (token : Bytes) :
    bloomMightContainBytes H b token = true ↔
      ∀ n ∈ bloomBits H b.length token, bitAt b n = true :=
  bloomMightContainHash_iff hb _

/-- A hash stays in the filter, whatever is added after it. -/
theorem mightContain_foldl_bloomSetHash (hb : b.length ≠ 0) {hs : List (Nat × Nat)}
    {h : Nat × Nat} (hh : h ∈ hs) : bloomMightContainHash (hs.foldl bloomSetHash b) h = true := by
  have hlen : (hs.foldl bloomSetHash b).length = b.length := length_foldl length_bloomSetHash hs b
  rw [bloomMightContainHash_iff (by omega), hlen]
  intro n hn
  exact (bitAt_foldl_bloomSetHash hb hs).mpr (Or.inr ⟨h, hh, hn⟩)

end Bits

/-! ## The filter of a block -/

section Filter

variable {H : Hasher} {U : Unicode} {J : JsonReader} {rows : List Entry} {token : Bytes}

theorem length_blockBloom_ge : 1024 ≤ (blockBloom H U J rows).length := by
  rw [length_blockBloom]
  exact le_max_right _ _

theorem mightContain_blockBloom_iff :
    bloomMightContainBytes H (blockBloom H U J rows) token = true ↔
      ∀ n ∈ bloomBits H (blockBloom H U J rows).length token,
        ∃ t ∈ bloomTokens U J rows, n ∈ bloomBits H (blockBloom H U J rows).length t := by
  have hlen : 1024 ≤ (blockBloom H U J rows).length := length_blockBloom_ge
  rw [bloomMightContainBytes_iff (by omega)]
  refine forall₂_congr fun n _ => ?_
  rw [length_blockBloom, blockBloom]
  have hbits := bitAt_foldl_bloomAddBytes (H := H) (n := n)
    (b := List.replicate (max (((bloomTokens U J rows).length * 10 + 7) / 8) 1024) 0)
    (by rw [List.length_replicate]; omega) (bloomTokens U J rows)
  rw [hbits, List.length_replicate, bitAt_replicate_zero]
  simp only [Bool.false_eq_true, false_or]

/-- Whatever the hash is, a text that was added is found. -/
theorem mightContain_of_mem (h : token ∈ bloomTokens U J rows) :
    bloomMightContainBytes H (blockBloom H U J rows) token = true :=
  mightContain_blockBloom_iff.mpr fun _ hn => ⟨token, h, hn⟩

/-- The filter does not depend on the order in which the map of tokens is walked. -/
theorem blockBloom_eq_of_perm {tokens : List Bytes} (h : tokens.Perm (bloomTokens U J rows)) :
    tokens.foldl (bloomAddBytes H)
        (List.replicate (max ((tokens.length * 10 + 7) / 8) 1024) 0) =
      blockBloom H U J rows := by
  have hb : (List.replicate (max (((bloomTokens U J rows).length * 10 + 7) / 8) 1024)
      (0 : UInt8)).length ≠ 0 := by
    rw [List.length_replicate]
    omega
  rw [blockBloom, h.length_eq]
  apply ext_bitAt
  · rw [length_foldl length_bloomAddBytes, length_foldl length_bloomAddBytes]
  · intro n
    rw [Bool.eq_iff_iff, bitAt_foldl_bloomAddBytes hb, bitAt_foldl_bloomAddBytes hb]
    simp only [h.mem_iff]

/-- A hash that tells one text from all others. -/
def singleHasher (token : Bytes) : Hasher := ⟨fun t => if t = token then (1, 0) else (0, 0)⟩

theorem mem_bloomBits_singleHasher {len : Nat} (hlen : 1024 ≤ len) {t : Bytes} :
    1 ∈ bloomBits (singleHasher token) len t ↔ t = token := by
  have hbit : ∀ i, indexBit 1 0 i (len * 8) = 1 := by
    intro i
    have hlt : 1 < len * 8 := by omega
    rw [indexBit, Nat.mul_zero, Nat.add_zero, Nat.mod_eq_of_lt (show 1 < 2 ^ 64 by norm_num),
      Nat.mod_eq_of_lt hlt]
  have hother : ∀ i, indexBit 0 0 i (len * 8) = 0 := by
    intro i
    rw [indexBit, Nat.mul_zero, Nat.add_zero, Nat.zero_mod, Nat.zero_mod]
  by_cases heq : t = token
  · simp [bloomBits, singleHasher, heq, hbit, bloomK]
  · simp [bloomBits, singleHasher, heq, hother]

/-- For every hash only the texts that were added are found. -/
theorem forall_mightContain_iff :
    (∀ H : Hasher, bloomMightContainBytes H (blockBloom H U J rows) token = true) ↔
      token ∈ bloomTokens U J rows := by
  constructor
  · intro h
    have hlen : 1024 ≤ (blockBloom (singleHasher token) U J rows).length := length_blockBloom_ge
    obtain ⟨t, ht, hbit⟩ := mightContain_blockBloom_iff.mp (h (singleHasher token)) 1
      ((mem_bloomBits_singleHasher hlen).mpr rfl)
    exact (mem_bloomBits_singleHasher hlen).mp hbit ▸ ht
  · exact fun h _ => mightContain_of_mem h

end Filter

/-! ## Labels -/

/-- The text under which a label is added. -/
def labelText (key value : Bytes) : Bytes := ascii "lbl:" ++ key ++ ascii "=" ++ value

section Label

variable {key value : Bytes}

theorem length_labelText : (labelText key value).length = key.length + value.length + 5 := by
  have hlbl : (ascii "lbl:").length = 4 := rfl
  have hsep : (ascii "=").length = 1 := rfl
  simp only [labelText, List.length_append, hlbl, hsep]
  omega

theorem labelBuf_eq (hkey : key.length ≤ 251) :
    labelBuf key value = .ok ((labelText key value).take 256) := by
  have hlbl : (ascii "lbl:").length = 4 := rfl
  have hsep : (ascii "=").length = 1 := rfl
  have hlen : (ascii "lbl:" ++ key).length = key.length + 4 := by
    rw [List.length_append, hlbl]
    omega
  have hfront : (ascii "lbl:" ++ key ++ ascii "=").length = key.length + 5 := by
    rw [List.length_append, hlen, hsep]
  rw [labelBuf, List.take_of_length_le (show key.length ≤ 252 by omega)]
  simp only [hlen, hfront]
  have hwhole : (ascii "lbl:" ++ key ++ ascii "=").take 256 = ascii "lbl:" ++ key ++ ascii "=" :=
    List.take_of_length_le (by omega)
  rw [if_neg (by omega), labelText, List.take_append, hfront, hwhole]

theorem labelBuf_panics (hkey : 252 ≤ key.length) : labelBuf key value = .error .panics := by
  have hlbl : (ascii "lbl:").length = 4 := rfl
  have hlen : (ascii "lbl:" ++ key.take 252).length = 256 := by
    rw [List.length_append, hlbl, List.length_take]
    omega
  rw [labelBuf]
  exact if_pos hlen

theorem bloomMightContainLabel_eq (H : Hasher) (b : Bytes) (hkey : key.length ≤ 251) :
    bloomMightContainLabel H b key value =
      .ok (bloomMightContainBytes H b ((labelText key value).take 256)) := by
  rw [bloomMightContainLabel, labelBuf_eq hkey]
  rfl

theorem bloomMightContainLabel_panics_iff (H : Hasher) (b : Bytes) :
    bloomMightContainLabel H b key value = .error .panics ↔ 252 ≤ key.length := by
  rcases Nat.lt_or_ge 251 key.length with hlong | hkey
  · refine ⟨fun _ => hlong, fun _ => ?_⟩
    rw [bloomMightContainLabel, labelBuf_panics hlong]
    rfl
  · rw [bloomMightContainLabel_eq H b hkey]
    refine ⟨nofun, fun h => ?_⟩
    omega

theorem token_mem_bloomTokens {U : Unicode} {J : JsonReader} {rows : List Entry} {e : Entry}
    {token : Bytes} (he : e ∈ rows) (htoken : token ∈ tokenize U e.data) :
    token ∈ bloomTokens U J rows := by
  rw [bloomTokens, List.mem_dedup, List.mem_flatMap]
  exact ⟨e, he, List.mem_append_right _ htoken⟩

theorem labelText_mem_bloomTokens {U : Unicode} {J : JsonReader} {rows : List Entry} {e : Entry}
    (he : e ∈ rows) (hlabel : (extractLabels J e.data).lookup key = some value) :
    labelText key value ∈ bloomTokens U J rows := by
  rw [bloomTokens, List.mem_dedup, List.mem_flatMap]
  refine ⟨e, he, List.mem_append_left _ (List.mem_map.mpr ⟨⟨key, value⟩, ?_, rfl⟩)⟩
  exact AList.mem_lookup_iff.mp hlabel

/-- Under every hash the label is found, or else the text it is cut to has been added. -/
theorem forall_mightContainLabel_iff {U : Unicode} {J : JsonReader} {rows : List Entry}
    (htext : labelText key value ∈ bloomTokens U J rows) :
    (∀ H, bloomMightContainLabel H (blockBloom H U J rows) key value = .ok true) ↔
      key.length ≤ 251 ∧ (key.length + value.length ≤ 251 ∨
        (labelText key value).take 256 ∈ bloomTokens U J rows) := by
  constructor
  · intro h
    have hkey : key.length ≤ 251 := by
      by_contra hlong
      have hpanics : bloomMightContainLabel (singleHasher [])
          (blockBloom (singleHasher []) U J rows) key value = .error .panics :=
        (bloomMightContainLabel_panics_iff _ _).mpr (not_le.mp hlong)
      rw [h] at hpanics
      cases hpanics
    refine ⟨hkey, Or.inr (forall_mightContain_iff.mp fun H => ?_)⟩
    have hfound := h H
    rw [bloomMightContainLabel_eq _ _ hkey] at hfound
    exact Except.ok.inj hfound
  · rintro ⟨hkey, hfits | hcut⟩ H
    · have hwhole : (labelText key value).take 256 = labelText key value :=
        List.take_of_length_le (by rw [length_labelText]; omega)
      rw [bloomMightContainLabel_eq _ _ hkey, hwhole, mightContain_of_mem htext]
    · rw [bloomMightContainLabel_eq _ _ hkey, mightContain_of_mem hcut]

end Label

namespace Format

/-- The headers of the blocks when all rows are written. -/
def writtenHeaders (env : Env) (rows : List Entry) (blockSize : Int) : List Header :=
  (writeRows env (rowsPerBlock blockSize) ⟨[], [], 0⟩ [] rows).headers

theorem bloom_writtenHeaders (env : Env) (rows : List Entry) (blockSize : Int) {i : Nat}
    {b : RowBlock} (hb : (Block.writePartV2Seq rows blockSize).blocks[i]? = some b) :
    (writtenHeaders env rows blockSize)[i]?.map Header.bloom = some (env.bloom b.rows) := by
  rw [writtenHeaders, writeRows_blocks, getElem?_headersFrom, hb]
  rfl

/-- One field. -/
def shortLabelRow : Entry := ⟨1, ascii "\x7b\"a\":\"b\"\x7d"⟩

/-- A hash that was added is found after any further ones; so the tokens and the full labels of
every row are found in the filter of its block. -/
theorem bloom_no_false_negatives :
    (∀ (b : Bytes) (before after : List (Nat × Nat)) (h : Nat × Nat), 0 < b.length →
        bloomMightContainHash ((before ++ h :: after).foldl bloomSetHash b) h = true) ∧
      ∀ (env : Env) (rows : List Entry) (blockSize : Int) (i : Nat) (b : RowBlock) (hdr : Header)
        (e : Entry), (Block.writePartV2Seq rows blockSize).blocks[i]? = some b →
        (writtenHeaders env rows blockSize)[i]? = some hdr → e ∈ b.rows →
          (∀ token ∈ tokenize env.unicode e.data,
            bloomMightContainBytes env.hasher hdr.bloom token = true) ∧
          ∀ key value, (extractLabels env.json e.data).lookup key = some value →
            bloomMightContainBytes env.hasher hdr.bloom
              (ascii "lbl:" ++ key ++ ascii "=" ++ value) = true := by
  constructor
  · intro b before after h hb
    exact mightContain_foldl_bloomSetHash hb.ne' (List.mem_append_right _ List.mem_cons_self)
  · intro env rows blockSize i b hdr e hb hhdr he
    have hbloom := bloom_writtenHeaders env rows blockSize hb
    rw [hhdr, Option.map_some, Option.some.injEq] at hbloom
    rw [hbloom]
    constructor
    · intro token htoken
      exact mightContain_of_mem (token_mem_bloomTokens he htoken)
    · intro key value hlabel
      exact mightContain_of_mem (labelText_mem_bloomTokens he hlabel)

/-- A filter of one byte, and the block of a row with one label. -/
theorem bloom_no_false_negatives_oneRow :
    bloomMightContainHash ([(7, 3), (2 ^ 64 - 1, 2 ^ 64 - 1), (0, 1)].foldl bloomSetHash [0])
        (2 ^ 64 - 1, 2 ^ 64 - 1) = true ∧
      ∃ hdr, (writtenHeaders plainEnv [shortLabelRow] 0)[0]? = some hdr ∧
        bloomMightContainBytes plainEnv.hasher hdr.bloom
          (ascii "lbl:" ++ ascii "a" ++ ascii "=" ++ ascii "b") = true := by
  have hlabel : (extractLabels plainEnv.json shortLabelRow.data).lookup (ascii "a") =
      some (ascii "b") := by decide +kernel
  have hblock : (Block.writePartV2Seq [shortLabelRow] 0).blocks[0]? =
      some ⟨[shortLabelRow], List.cons_ne_nil _ _⟩ := rfl
  refine ⟨bloom_no_false_negatives.1 [0] [(7, 3)] [(0, 1)] _ (by decide), ?_⟩
  obtain ⟨hdr, hhdr, -⟩ := Option.map_eq_some_iff.mp (bloom_writtenHeaders plainEnv _ 0 hblock)
  exact ⟨hdr, hhdr, (bloom_no_false_negatives.2 plainEnv _ 0 0 _ hdr _ hblock hhdr
    List.mem_cons_self).2 _ _ hlabel⟩

/-- A row's labels are found in the filter of its block, under every hash, just when the query
builds the text that was added; and the lookup stays in its buffer just for short keys. -/
theorem label_lookup_sound_iff (env : Env) :
    (∀ (rows : List Entry) (blockSize : Int) (i : Nat) (b : RowBlock) (e : Entry)
        (key value : Bytes),
        (Block.writePartV2Seq rows blockSize).blocks[i]? = some b → e ∈ b.rows →
        (extractLabels env.json e.data).lookup key = some value →
          ((∀ H, ∃ h, (writtenHeaders { env with hasher := H } rows blockSize)[i]? = some h ∧
              bloomMightContainLabel H h.bloom key value = .ok true) ↔
            key.length ≤ 251 ∧ (key.length + value.length ≤ 251 ∨
              (labelText key value).take 256 ∈ bloomTokens env.unicode env.json b.rows))) ∧
      ∀ key value : Bytes, (∀ H bloom, bloomMightContainLabel H bloom key value ≠ .error .panics) ↔
        key.length ≤ 251 := by
  constructor
  · intro rows blockSize i b e key value hb he hlabel
    rw [← forall_mightContainLabel_iff (labelText_mem_bloomTokens he hlabel)]
    refine forall_congr' fun H => ?_
    have hbloom := bloom_writtenHeaders { env with hasher := H } rows blockSize hb
    obtain ⟨h, hh, hfilter⟩ := Option.map_eq_some_iff.mp hbloom
    rw [hh]
    constructor
    · rintro ⟨_, heq, hfound⟩
      obtain rfl := Option.some.inj heq
      rw [hfilter] at hfound
      exact hfound
    · intro hfound
      refine ⟨h, rfl, ?_⟩
      rw [hfilter]
      exact hfound
  · intro key value
    simp only [Ne, bloomMightContainLabel_panics_iff]
    constructor
    · intro h
      exact not_lt.mp (h (singleHasher []) [])
    · intro hkey _ _
      omega


theorem label_lookup_sound_short :
    ∀ H, ∃ h, (writtenHeaders { plainEnv with hasher := H } [shortLabelRow] 0)[0]? = some h ∧
      bloomMightContainLabel H h.bloom (ascii "a") (ascii "b") = .ok true := by
  have hlabel : (extractLabels plainEnv.json shortLabelRow.data).lookup (ascii "a") =
      some (ascii "b") := by decide +kernel
  have hblock : (Block.writePartV2Seq [shortLabelRow] 0).blocks[0]? =
      some ⟨[shortLabelRow], List.cons_ne_nil _ _⟩ := rfl
  have hfits : (ascii "a").length + (ascii "b").length ≤ 251 := by decide
  exact ((label_lookup_sound_iff plainEnv).1 [shortLabelRow] 0 0 _ _ _ _ hblock
    List.mem_cons_self hlabel).mpr ⟨by decide, Or.inl hfits⟩

/-- A body of 252 letters. -/
def longBody : Bytes := List.replicate 252 97

def longBodyRow : Entry := ⟨1, ascii "\x7b\"body\":\"" ++ longBody ++ ascii "\"\x7d"⟩

/-- A text is hashed to its length. -/
def lengthHasher : Hasher := ⟨fun t => (t.length, 0)⟩

/-- The label of a long body is not found in the filter of its block, and a key of 252 bytes
takes the lookup out of its buffer. -/
theorem long_label_not_found :
    (extractLabels plainEnv.json longBodyRow.data).lookup (ascii "body") = some longBody ∧
      (writtenHeaders { plainEnv with hasher := lengthHasher } [longBodyRow] 0).map
          (fun h => bloomMightContainLabel lengthHasher h.bloom (ascii "body") longBody) =
        [.ok false] ∧
      ∀ H bloom, bloomMightContainLabel H bloom (List.replicate 252 97) [] = .error .panics := by
  refine ⟨by decide +kernel, by decide +kernel, fun H bloom => ?_⟩
  exact (bloomMightContainLabel_panics_iff H bloom).mpr List.length_replicate.ge

end Format

end Shrimpd.Block
