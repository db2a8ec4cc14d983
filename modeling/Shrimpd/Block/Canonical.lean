import Shrimpd.Block.Runtime

/-!
# The encoding of blocks is canonical

What is encoded is decoded again, and the checks of the decoder leave no second
encoding of the same rows: bytes that are accepted begin with the encoding of
the rows that are read from them.  The checks on the offsets are what this needs,
so that the rows follow one another in the data from its start to its end.
-/

namespace Shrimpd.Block

open Shrimpd.Lib Shrimpd.Types

/-! ## Columns -/

/-- Writing the integers that were read gives the bytes they were read from. -/
theorem flatten_putUint_getUints {w n : Nat} {buf : Bytes} (hlen : n * w ≤ buf.length) :
    ((getUints w n buf).map (putUint w)).flatten = buf.take (n * w) := by
  induction n generalizing buf with
  | zero => simp [getUints]
  | succ n ih =>
      rw [Nat.succ_mul] at hlen
      have hfirst : (buf.take w).length = w := by
        rw [List.length_take]
        omega
      have hword := putUint_getUint (buf.take w)
      rw [hfirst] at hword
      have hrest : n * w ≤ (buf.drop w).length := by
        rw [List.length_drop]
        omega
      rw [getUints, List.map_cons, List.flatten_cons, hword, ih hrest, Nat.succ_mul, Nat.add_comm,
        List.take_add]

theorem getUints_lt {w n x : Nat} {buf : Bytes} (hx : x ∈ getUints w n buf) : x < 256 ^ w := by
  obtain ⟨i, hi, rfl⟩ := List.mem_iff_getElem.mp hx
  have hlt := getD_getUints_lt w n buf i
  rwa [List.getD_eq_getElem _ _ hi] at hlt

theorem words_tsFromBuf (buf : Bytes) (n : Nat) :
    (tsFromBuf buf n).map (toUint 64) = getUints 8 n buf := by
  rw [tsFromBuf, List.map_map]
  conv_rhs => rw [← List.map_id (getUints 8 n buf)]
  apply List.map_congr_left
  intro x hx
  have hpow : 256 ^ 8 = 2 ^ 64 := by norm_num
  have hlt := getUints_lt hx
  rw [hpow] at hlt
  rw [Function.comp_apply, id_eq, toUint_toInt hlt]

/-! ## What is accepted -/

section Accepted

variable {buf : Bytes} {count : Int} {bb : BinBlock}

/-- The parts of an accepted buffer. -/
theorem sections_of_decodeBinBlock (h : decodeBinBlock buf count = .ok bb) :
    bb.ts = tsFromBuf buf count.toNat ∧ bb.offsets = offsetsFromBuf buf count.toNat ∧
      12 * count.toNat + 4 + bb.blob.length ≤ buf.length ∧
        bb.blob = (buf.drop (12 * count.toNat + 4)).take bb.blob.length := by
  have hlast := (decoded_of_decodeBinBlock h).1.last
  rw [(decoded_of_decodeBinBlock h).2] at hlast
  unfold decodeBinBlock at h
  simp only at h
  split_ifs at h with hsmall hneg hfirst hshort
  split at h
  · cases h
  · obtain rfl := Except.ok.inj h
    have hend : (count * 8 + (count + 1) * 4).toNat = 12 * count.toNat + 4 := by omega
    simp only at hlast
    rw [hend] at hshort
    refine ⟨rfl, rfl, ?_, ?_⟩
    · simp only [hlast]
      omega
    · simp only [hlast]
      rw [hend, List.drop_take, Nat.add_sub_cancel_left]

/-- The rows of an accepted buffer are encoded as the buffer begins. -/
theorem encodeBinBlock_rows (hcount : 1 ≤ count) (h : decodeBinBlock buf count = .ok bb)
    (dst : Bytes) :
    encodeBinBlock bb.rows dst = buf.take (12 * count.toNat + 4 + bb.blob.length) := by
  obtain ⟨hdecoded, hlength⟩ := decoded_of_decodeBinBlock h
  obtain ⟨hts, hoffsets, hfits, hblob⟩ := sections_of_decodeBinBlock h
  have hrows := (hdecoded.valid (by omega)).ofRows_rows
  generalize hn : count.toNat = n at hts hoffsets hfits hblob ⊢
  have hcolumn : (bb.rows.map fun e => toUint 64 e.timestamp) = getUints 8 n buf := by
    have htimes := congrArg BinBlock.ts hrows
    rw [← words_tsFromBuf, ← hts, ← htimes, BinBlock.ofRows, List.map_map]
    rfl
  have hends : offsetsFrom 0 bb.rows = getUints 4 (n + 1) (buf.drop (n * 8)) := by
    rw [← offsetsFromBuf, ← hoffsets]
    exact congrArg BinBlock.offsets hrows
  have hdata : bb.rows.flatMap Entry.data = bb.blob := congrArg BinBlock.blob hrows
  have hfirst : n * 8 ≤ buf.length := by omega
  have hsecond : (n + 1) * 4 ≤ (buf.drop (n * 8)).length := by
    rw [List.length_drop]
    omega
  have hstart : 12 * n + 4 = n * 8 + (n + 1) * 4 := by omega
  rw [encodeBinBlock_eq, hcolumn, hends, hdata, flatten_putUint_getUints hfirst,
    flatten_putUint_getUints hsecond, ← List.take_add, ← hstart]
  nth_rewrite 1 [hblob]
  exact List.take_add.symm

end Accepted

/-- Encoded rows are decoded again, whatever the destination held; and bytes that are accepted for
at least one row have each row inside their data, the data in full, and are the encoding of their
rows up to the end of the data. -/
theorem binBlock_encoding_canonical :
    (∀ (entries : List Entry) (dst : Bytes), (∀ e ∈ entries, IsInt64 e.timestamp) →
        (entries.flatMap Entry.data).length < 2 ^ 32 →
          ∃ bb, decodeBinBlock (encodeBinBlock entries dst) entries.length = .ok bb ∧
            bb.ts = entries.map Entry.timestamp ∧
            ∀ i e, entries[i]? = some e → Runtime.dataBytes bb i = some e.data) ∧
      ∀ (buf : Bytes) (count : Int) (bb : BinBlock), 1 ≤ count →
        decodeBinBlock buf count = .ok bb →
          (bb.ts.length : Int) = count ∧
          (∀ i < bb.ts.length, Runtime.dataBytes bb i = some (bb.dataBytes i)) ∧
          bb.rows.flatMap Entry.data = bb.blob ∧
          12 * count.toNat + 4 + bb.blob.length ≤ buf.length ∧
          ∀ dst, encodeBinBlock bb.rows dst =
            buf.take (12 * count.toNat + 4 + bb.blob.length) := by
  constructor
  · intro entries dst hts hsize
    have hdecode := decodeBinBlock_encode hts hsize dst
    refine ⟨BinBlock.ofRows entries, hdecode, rfl, ?_⟩
    intro i e he
    obtain ⟨hi, rfl⟩ := List.getElem?_eq_some_iff.mp he
    have hlen : i < (BinBlock.ofRows entries).ts.length := by
      rwa [BinBlock.ofRows, List.length_map]
    rw [Runtime.dataBytes_eq (decoded_of_decodeBinBlock hdecode).1 hlen, dataBytes_ofRows hi]
  · intro buf count bb hcount h
    obtain ⟨hdecoded, hlength⟩ := decoded_of_decodeBinBlock h
    have hrows := (hdecoded.valid (by omega)).ofRows_rows
    refine ⟨by omega, fun i hi => Runtime.dataBytes_eq hdecoded hi, congrArg BinBlock.blob hrows,
      (sections_of_decodeBinBlock h).2.2.1, encodeBinBlock_rows hcount h⟩

/-- A negative timestamp and a row without data, encoded into a buffer that was used before. -/
theorem binBlock_encoding_canonical_two :
    (∃ bb, decodeBinBlock (encodeBinBlock [⟨-1, ascii "ab"⟩, ⟨2, []⟩] (List.replicate 40 7)) 2 =
        .ok bb ∧ bb.ts = [-1, 2] ∧
          ∀ i e, [(⟨-1, ascii "ab"⟩ : Entry), ⟨2, []⟩][i]? = some e →
            Runtime.dataBytes bb i = some e.data) ∧
      encodeBinBlock [⟨-1, ascii "ab"⟩, ⟨2, []⟩] [] =
        (encodeBinBlock [⟨-1, ascii "ab"⟩, ⟨2, []⟩] [] ++ ascii "rest").take 30 := by
  have hbb : decodeBinBlock (encodeBinBlock [⟨-1, ascii "ab"⟩, ⟨2, []⟩] [] ++ ascii "rest") 2 =
      .ok ⟨[-1, 2], [0, 2, 2], ascii "ab"⟩ := by decide +kernel
  exact ⟨binBlock_encoding_canonical.1 [⟨-1, ascii "ab"⟩, ⟨2, []⟩] (List.replicate 40 7)
      (by decide) (by decide),
    (binBlock_encoding_canonical.2 _ 2 _ (by decide) hbb).2.2.2.2 []⟩

end Shrimpd.Block
