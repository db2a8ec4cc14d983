import Shrimpd.Block.RoundTrip

/-!
# The sparse index of a part

A sparse index samples the timestamps of a part's rows at a fixed stride.  Two
searches in the samples bound the rows of a time range: one sample back from the
first that is not before the range, and the first sample after it.  The lower
bound is right for every range.  The upper one is searched as the timestamp after
the range, which wraps around at the largest timestamp; and where no sample
follows the range, the bound is a fixed number that a row's index may exceed.
-/

namespace Shrimpd.Block

open Shrimpd.Lib Shrimpd.Types Shrimpd.Block.Format

/-! ## Building and searching -/

/-- The samples from row `i` on, at most `fuel` of them. -/
def sampleFrom (entries : List Entry) (every : Nat) : Nat → Nat → List SparseEntry
  | 0, _ => []
  | fuel + 1, i =>
      match entries[i]? with
      | none => []
      | some e => ⟨e.timestamp, i⟩ :: sampleFrom entries every fuel (i + every)

/-- With a positive stride there are no more samples than entries. -/
def buildSparse (entries : List Entry) (every : Nat) : List SparseEntry :=
  sampleFrom entries every entries.length 0

/-- The rows from number `index` on, those whose number the stride divides. -/
def sampleRows (every : Nat) : Nat → List Int → List SparseEntry
  | _, [] => []
  | index, ts :: rest =>
      if index % every = 0 then ⟨ts, index⟩ :: sampleRows every (index + 1) rest
      else sampleRows every (index + 1) rest

/-- The rows of a block that cannot be read are not counted. -/
def buildSparseFromPart (z : Zstd) (pf : PartFileV2) (every : Int) : List SparseEntry :=
  let every := if every ≤ 0 then 32 else every
  sampleRows every.toNat 0 ((List.range pf.headers.length).flatMap fun bi : Nat =>
    match readBinBlock z pf bi with
    | .error _ => []
    | .ok bb => bb.ts)

def hiNotFound : Nat := 2 ^ 31 - 1

/-- `to + 1` wraps around at 64 bits. -/
def sparseRange (sparse : List SparseEntry) (start stop : Int) : Nat × Nat :=
  if sparse.length = 0 then (0, hiNotFound)
  else
    let times := sparse.map SparseEntry.timestamp
    let loIdx := (binarySearch times start).1
    let loIdx := if loIdx > 0 then loIdx - 1 else loIdx
    let lo := (sparse[loIdx]?.map SparseEntry.idx).getD 0
    let hiIdx := (binarySearch times ((stop + 1).bmod (2 ^ 64))).1
    let hi :=
      if hiIdx < sparse.length then (sparse[hiIdx]?.map SparseEntry.idx).getD 0 else hiNotFound
    (lo, hi)

/-- The positions that are read lie in the index. -/
theorem sparseRange_positions {sparse : List SparseEntry} (hne : sparse.length ≠ 0) (start : Int) :
    let pos := (binarySearch (sparse.map SparseEntry.timestamp) start).1
    (if pos > 0 then pos - 1 else pos) < sparse.length := by
  have hle := binarySearch_le_length (sparse.map SparseEntry.timestamp) start
  rw [List.length_map] at hle
  simp only
  split_ifs
  · omega
  · omega

/-! ## The samples -/

section Samples

variable {entries : List Entry} {every : Nat}

theorem getElem?_sampleFrom {fuel i j : Nat} (hj : j < fuel) :
    (sampleFrom entries every fuel i)[j]? =
      entries[i + j * every]?.map fun e => ⟨e.timestamp, i + j * every⟩ := by
  induction fuel generalizing i j with
  | zero => exact absurd hj (Nat.not_lt_zero j)
  | succ fuel ih =>
      rw [sampleFrom]
      cases hi : entries[i]? with
      | none =>
          have hend := List.getElem?_eq_none_iff.mp hi
          have hnone : entries[i + j * every]? = none := List.getElem?_eq_none (by omega)
          rw [hnone]
          rfl
      | some e =>
          cases j with
          | zero => simp [hi]
          | succ j =>
              have hnext : i + (j + 1) * every = i + every + j * every := by ring
              rw [List.getElem?_cons_succ, ih (by omega), hnext]

theorem length_sampleFrom_le (fuel i : Nat) : (sampleFrom entries every fuel i).length ≤ fuel := by
  induction fuel generalizing i with
  | zero => exact le_rfl
  | succ fuel ih =>
      rw [sampleFrom]
      cases entries[i]? with
      | none => exact Nat.zero_le _
      | some e => exact Nat.succ_le_succ (ih _)

/-- Sample `j` is row `j * every`. -/
theorem getElem?_buildSparse (entries : List Entry) (hevery : 1 ≤ every) (j : Nat) :
    (buildSparse entries every)[j]? =
      entries[j * every]?.map fun e => ⟨e.timestamp, j * every⟩ := by
  rcases Nat.lt_or_ge j entries.length with hj | hj
  · rw [buildSparse, getElem?_sampleFrom hj, Nat.zero_add]
  · have hlen : (buildSparse entries every).length ≤ j := (length_sampleFrom_le _ _).trans hj
    have hrow : entries.length ≤ j * every := hj.trans (Nat.le_mul_of_pos_right j hevery)
    rw [List.getElem?_eq_none hlen, List.getElem?_eq_none hrow]
    rfl

theorem length_buildSparse_pos (h : entries ≠ []) : 0 < (buildSparse entries every).length := by
  obtain ⟨e, es, rfl⟩ := List.exists_cons_of_ne_nil h
  exact Nat.succ_pos _

variable (hsorted : entries.Pairwise fun a b => a.timestamp ≤ b.timestamp)
include hsorted

/-- A row that is later in time is later in the list. -/
theorem lt_of_timestamp_lt {i j : Nat} {a b : Entry} (ha : entries[i]? = some a)
    (hb : entries[j]? = some b) (hlt : a.timestamp < b.timestamp) : i < j := by
  obtain ⟨hi, rfl⟩ := List.getElem?_eq_some_iff.mp ha
  obtain ⟨hj, rfl⟩ := List.getElem?_eq_some_iff.mp hb
  by_contra hge
  rcases (not_lt.mp hge).eq_or_lt with rfl | hji
  · exact lt_irrefl _ hlt
  · exact absurd (List.pairwise_iff_getElem.mp hsorted j i hj hi hji) (not_le.mpr hlt)

theorem sorted_times (hevery : 1 ≤ every) :
    ((buildSparse entries every).map SparseEntry.timestamp).Pairwise (· ≤ ·) := by
  rw [List.pairwise_map, List.pairwise_iff_getElem]
  intro j k hj hk hjk
  have hsj := getElem?_buildSparse entries hevery j
  have hsk := getElem?_buildSparse entries hevery k
  rw [List.getElem?_eq_getElem hj, eq_comm, Option.map_eq_some_iff] at hsj
  rw [List.getElem?_eq_getElem hk, eq_comm, Option.map_eq_some_iff] at hsk
  obtain ⟨a, ha, hsj⟩ := hsj
  obtain ⟨b, hb, hsk⟩ := hsk
  rw [← hsj, ← hsk]
  by_contra hgt
  have hback := lt_of_timestamp_lt hsorted hb ha (not_le.mp hgt)
  exact absurd hback (not_lt.mpr (Nat.mul_le_mul_right every hjk.le))

end Samples

/-! ## The bounds -/

section Bounds

variable {entries : List Entry} {every : Nat} {start stop : Int} {i : Nat} {e : Entry}

/-- The timestamps of the samples. -/
theorem getElem?_times (entries : List Entry) (hevery : 1 ≤ every) (j : Nat) :
    ((buildSparse entries every).map SparseEntry.timestamp)[j]? =
      entries[j * every]?.map Entry.timestamp := by
  rw [List.getElem?_map, getElem?_buildSparse entries hevery, Option.map_map]
  rfl

variable (hsorted : entries.Pairwise fun a b => a.timestamp ≤ b.timestamp) (hevery : 1 ≤ every)
include hsorted hevery

/-- The lower bound lets every row of the range in. -/
theorem sparseRange_fst_le (he : entries[i]? = some e) (hstart : start ≤ e.timestamp) :
    (sparseRange (buildSparse entries every) start stop).1 ≤ i := by
  obtain ⟨hbefore, -⟩ := binarySearch_spec (sorted_times hsorted hevery) start
  have hne : entries ≠ [] := fun hnil => by rw [hnil] at he; cases he
  rw [sparseRange, if_neg (length_buildSparse_pos hne).ne']
  simp only
  generalize (binarySearch ((buildSparse entries every).map SparseEntry.timestamp) start).1 = pos
    at hbefore ⊢
  by_cases hpos : pos > 0
  · rw [if_pos hpos, getElem?_buildSparse _ hevery]
    cases hrow : entries[(pos - 1) * every]? with
    | none => exact Nat.zero_le i
    | some a =>
        have hsample := getElem?_times entries hevery (pos - 1)
        rw [hrow] at hsample
        have hlt := hbefore (pos - 1) a.timestamp (by omega) hsample
        exact (lt_of_timestamp_lt hsorted hrow he (hlt.trans_le hstart)).le
  · obtain rfl : pos = 0 := by omega
    rw [if_neg hpos, getElem?_buildSparse _ hevery, Nat.zero_mul]
    cases entries[0]? with
    | none => exact Nat.zero_le i
    | some a => exact Nat.zero_le i

/-- Below the largest timestamp, a row of the range is under the upper bound if a sample follows
the range, and else if its index is under the fixed number. -/
theorem lt_sparseRange_snd_iff (hstop : IsInt64 stop) (hmax : stop < 2 ^ 63 - 1)
    (he : entries[i]? = some e) (hle : e.timestamp ≤ stop) :
    i < (sparseRange (buildSparse entries every) start stop).2 ↔
      i < hiNotFound ∨ ∃ j a, entries[j * every]? = some a ∧ stop < a.timestamp := by
  have hwrap : (stop + 1).bmod (2 ^ 64) = stop + 1 := by
    obtain ⟨hlow, -⟩ := hstop
    apply Int.bmod_eq_of_le
    · norm_num
      omega
    · norm_num
      omega
  obtain ⟨hbefore, hafter⟩ := binarySearch_spec (sorted_times hsorted hevery) (stop + 1)
  have hne : entries ≠ [] := fun hnil => by rw [hnil] at he; cases he
  rw [sparseRange, if_neg (length_buildSparse_pos hne).ne']
  simp only [hwrap]
  generalize (binarySearch ((buildSparse entries every).map SparseEntry.timestamp) (stop + 1)).1 =
    pos at hbefore hafter ⊢
  by_cases hpos : pos < (buildSparse entries every).length
  · rw [if_pos hpos]
    have hsample := getElem?_buildSparse entries hevery pos
    rw [List.getElem?_eq_getElem hpos, eq_comm, Option.map_eq_some_iff] at hsample
    obtain ⟨a, ha, -⟩ := hsample
    have htime := getElem?_times entries hevery pos
    rw [ha] at htime
    have hlater := hafter pos a.timestamp le_rfl htime
    have hlt := lt_of_timestamp_lt hsorted he ha (by omega)
    rw [getElem?_buildSparse _ hevery, ha]
    exact ⟨fun _ => Or.inr ⟨pos, a, ha, by omega⟩, fun _ => hlt⟩
  · rw [if_neg hpos]
    refine ⟨Or.inl, ?_⟩
    rintro (hlt | ⟨j, a, ha, hlater⟩)
    · exact hlt
    · -- every sample is in front of the position
      have hsample := getElem?_buildSparse entries hevery j
      rw [ha] at hsample
      have hj : j < (buildSparse entries every).length := (List.getElem?_eq_some_iff.mp hsample).1
      have htime := getElem?_times entries hevery j
      rw [ha] at htime
      have hearlier := hbefore j a.timestamp (by omega) htime
      omega

/-- At the largest timestamp the upper bound is the first row. -/
theorem sparseRange_snd_of_max (hts : ∀ e ∈ entries, IsInt64 e.timestamp) (hne : entries ≠ []) :
    (sparseRange (buildSparse entries every) start (2 ^ 63 - 1)).2 = 0 := by
  have hwrap : ((2 ^ 63 - 1 : Int) + 1).bmod (2 ^ 64) = -2 ^ 63 := by decide
  obtain ⟨hbefore, -⟩ := binarySearch_spec (sorted_times hsorted hevery) (-2 ^ 63)
  rw [sparseRange, if_neg (length_buildSparse_pos hne).ne']
  simp only [hwrap]
  generalize (binarySearch ((buildSparse entries every).map SparseEntry.timestamp) (-2 ^ 63)).1 =
    pos at hbefore ⊢
  obtain ⟨first, rest, rfl⟩ := List.exists_cons_of_ne_nil hne
  have hzero : pos = 0 := by
    by_contra hpos
    have htime := getElem?_times (first :: rest) hevery 0
    rw [Nat.zero_mul] at htime
    have hlt := hbefore 0 first.timestamp (Nat.pos_of_ne_zero hpos) htime
    exact absurd hlt (not_lt.mpr (hts first List.mem_cons_self).1)
  rw [hzero, if_pos (length_buildSparse_pos hne), getElem?_buildSparse _ hevery, Nat.zero_mul]
  rfl

end Bounds

/-- No row of a time range is excluded just when the range ends below the largest timestamp and a
sample follows it or its rows have indices below the fixed bound, or when no row is in it. -/
theorem sparse_range_covers_iff {entries : List Entry}
    (hsorted : entries.Pairwise fun a b => a.timestamp ≤ b.timestamp)
    (hts : ∀ e ∈ entries, IsInt64 e.timestamp) {every : Nat} (hevery : 1 ≤ every)
    {start stop : Int} (hstop : IsInt64 stop) :
    (∀ i e, entries[i]? = some e → start ≤ e.timestamp → e.timestamp ≤ stop →
        (sparseRange (buildSparse entries every) start stop).1 ≤ i ∧
          i < (sparseRange (buildSparse entries every) start stop).2) ↔
      ∀ i e, entries[i]? = some e → start ≤ e.timestamp → e.timestamp ≤ stop →
        stop < 2 ^ 63 - 1 ∧ (i < 2 ^ 31 - 1 ∨
          ∃ j a, entries[j * every]? = some a ∧ stop < a.timestamp) := by
  refine forall_congr' fun i => forall_congr' fun e => forall_congr' fun he =>
    forall_congr' fun hstart => forall_congr' fun hle => ?_
  rw [and_iff_right (sparseRange_fst_le hsorted hevery he hstart)]
  by_cases hmax : stop < 2 ^ 63 - 1
  · rw [lt_sparseRange_snd_iff hsorted hevery hstop hmax he hle, and_iff_right hmax]
    rfl
  · obtain rfl : stop = 2 ^ 63 - 1 := by
      obtain ⟨-, hhigh⟩ := hstop
      omega
    have hne : entries ≠ [] := fun hnil => by rw [hnil] at he; cases he
    rw [sparseRange_snd_of_max hsorted hevery hts hne]
    exact ⟨fun hlt => absurd hlt (Nat.not_lt_zero i), fun h => absurd h.1 hmax⟩

/-- Rows of one timestamp on both sides of a sample. -/
def tiedRows : List Entry := [⟨1, []⟩, ⟨5, []⟩, ⟨5, []⟩, ⟨5, []⟩, ⟨9, []⟩]

theorem sparse_range_covers_ties :
    sparseRange (buildSparse tiedRows 2) 5 5 = (0, 4) ∧
      ∀ i e, tiedRows[i]? = some e → 5 ≤ e.timestamp → e.timestamp ≤ 5 →
        (sparseRange (buildSparse tiedRows 2) 5 5).1 ≤ i ∧
          i < (sparseRange (buildSparse tiedRows 2) 5 5).2 := by
  refine ⟨by decide, (sparse_range_covers_iff (by decide) (by decide) (by decide)
    (by decide)).mpr ?_⟩
  intro i e he _ _
  have hi : i < 5 := (List.getElem?_eq_some_iff.mp he).1
  exact ⟨by decide, Or.inl (by omega)⟩

/-- A range up to the largest timestamp excludes every row. -/
theorem largest_timestamp_excludes :
    sparseRange (buildSparse [⟨5, ascii "a"⟩, ⟨6, ascii "b"⟩] 1) 0 (2 ^ 63 - 1) = (0, 0) := by
  decide +kernel

/-! ## The index of a part -/

section Part

variable {every : Nat}

/-- Rows that the stride does not divide are passed over. -/
theorem sampleRows_skip {k index : Nat} (ts : List Int)
    (hskip : ∀ m < k, (index + m) % every ≠ 0) :
    sampleRows every index ts = sampleRows every (index + k) (ts.drop k) := by
  induction k generalizing index ts with
  | zero => rfl
  | succ k ih =>
      cases ts with
      | nil => rfl
      | cons t ts =>
          have hrest : ∀ m < k, (index + 1 + m) % every ≠ 0 := by
            intro m hm
            rw [Nat.add_assoc, Nat.add_comm 1 m]
            exact hskip (m + 1) (by omega)
          have hfirst : index % every ≠ 0 := hskip 0 (Nat.succ_pos k)
          rw [sampleRows, if_neg hfirst, ih ts hrest, List.drop_succ_cons,
            Nat.add_assoc, Nat.add_comm 1 k]

theorem sampleRows_eq_sampleFrom (hevery : 1 ≤ every) {entries : List Entry} {fuel i : Nat}
    (hi : i % every = 0) (hfuel : entries.length ≤ i + fuel) :
    sampleRows every i ((entries.drop i).map Entry.timestamp) =
      sampleFrom entries every fuel i := by
  induction fuel generalizing i with
  | zero =>
      have hend : entries.length ≤ i := hfuel
      rw [List.drop_eq_nil_of_le hend]
      rfl
  | succ fuel ih =>
      rw [sampleFrom]
      cases hrow : entries[i]? with
      | none =>
          rw [List.drop_eq_nil_of_le (List.getElem?_eq_none_iff.mp hrow)]
          rfl
      | some e =>
          obtain ⟨hlt, rfl⟩ := List.getElem?_eq_some_iff.mp hrow
          have hskip : ∀ m < every - 1, (i + 1 + m) % every ≠ 0 := by
            intro m hm
            have hmod : (i + 1 + m) % every = m + 1 := by
              rw [Nat.add_assoc, Nat.add_mod, hi, Nat.zero_add, Nat.mod_mod,
                Nat.mod_eq_of_lt (by omega), Nat.add_comm]
            omega
          have hnext : i + 1 + (every - 1) = i + every := by omega
          have hmod : (i + every) % every = 0 := by rw [Nat.add_mod_right, hi]
          rw [List.drop_eq_getElem_cons hlt, List.map_cons, sampleRows, if_pos hi,
            sampleRows_skip _ hskip, ← List.map_drop, List.drop_drop, hnext,
            ih hmod (by omega)]

variable {env : Env} {rows : List Entry}

/-- The index of a part whose blocks can all be read samples their rows. -/
theorem buildSparseFromPart_eq {pf : PartFileV2} {bbs : List BinBlock}
    (hreads : (List.range pf.headers.length).map (fun i : Nat => readBinBlock env.zstd pf i) =
      bbs.map .ok) (hrows : bbs.flatMap BinBlock.rows = rows) (hevery : 1 ≤ every) :
    buildSparseFromPart env.zstd pf every = buildSparse rows every := by
  have htimes : ((List.range pf.headers.length).flatMap fun bi : Nat =>
      match readBinBlock env.zstd pf bi with
      | .error _ => []
      | .ok bb => bb.ts) = rows.map Entry.timestamp := by
    have hread := congrArg (List.flatMap fun r : Except ReadErr BinBlock =>
      match r with
      | .error _ => []
      | .ok bb => bb.ts) hreads
    rw [List.flatMap_map, List.flatMap_map] at hread
    rw [hread, ← hrows, List.map_flatMap]
    simp only [BinBlock.timestamps_rows]
  have hpositive : ¬(every : Int) ≤ 0 := by omega
  rw [buildSparseFromPart]
  simp only [if_neg hpositive, Int.toNat_natCast, htimes]
  exact sampleRows_eq_sampleFrom hevery (Nat.zero_mod every) (Nat.zero_add _).ge

/-- The index that a start rebuilds from a part file is the one of the rows the file was written
from. -/
theorem rebuilt_sparse_exact (hz : ∀ x, env.zstd.decode (env.zstd.encode x) = some x)
    (blockSize : Int) (hfits : Fits env (Block.writePartV2Seq rows blockSize).blocks)
    (hevery : 1 ≤ every) :
    ∃ pf, openPartV2 (some (Format.writePartV2Seq env rows blockSize)) = .ok (some pf) ∧
      buildSparseFromPart env.zstd pf every = buildSparse rows every := by
  have hrows := rows_writePartV2Seq rows blockSize
  rw [writePartV2Seq_eq]
  rw [PartFile.rows] at hrows
  generalize (Block.writePartV2Seq rows blockSize).blocks = bs at hfits hrows ⊢
  refine ⟨_, hfits.openPartV2_eq, buildSparseFromPart_eq
    (?_ : _ = (bs.map fun b => BinBlock.ofRows b.rows).map Except.ok) ?_ hevery⟩
  · apply List.ext_getElem
    · simp only [List.length_map, List.length_range, length_opened]
    · intro i _ hi
      rw [List.length_map, List.length_map] at hi
      simp only [List.getElem_map, List.getElem_range]
      exact hfits.readBinBlock_eq hz (List.getElem?_eq_getElem hi)
  · simpa only [List.flatMap_map, rows_ofRows] using hrows

theorem rebuilt_sparse_exact_threeRows :
    ∃ pf, openPartV2 (some (Format.writePartV2Seq plainEnv threeRows 2)) = .ok (some pf) ∧
      buildSparseFromPart plainEnv.zstd pf 2 = [⟨-5, 0⟩, ⟨7, 2⟩] :=
  rebuilt_sparse_exact (fun _ => rfl) 2 fits_threeRows (by decide)

end Part

end Shrimpd.Block
