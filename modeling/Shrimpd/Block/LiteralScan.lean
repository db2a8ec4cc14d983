import Shrimpd.Block.BinBlock
import Mathlib.Data.List.GetD
import Mathlib.Data.List.Infix
import Mathlib.Data.List.Sort

/-!
# Scanning a block for a literal

With a literal among the filters, the block's data is searched as a whole: each
hit is mapped to its row by binary search over the offsets, and the search goes
on behind that row.  Rows without data repeat an offset, and the search then
ends at the first row with this offset.  So a hit at the start of a row is
ascribed to an empty row before it and missed there.
-/

namespace Shrimpd.Block

open Shrimpd.Lib Shrimpd.Types Shrimpd.Filter

/-! ## Positions -/

/-- Where the data of row `j` starts. -/
def startOf (rows : List Entry) (j : Nat) : Nat := ((rows.take j).flatMap Entry.data).length

/-- The row that the search over the offsets gives for a position: the first that starts there,
or else the one that has it inside. -/
structure RowAt (rows : List Entry) (pos k : Nat) : Prop where
  lt : k < rows.length
  le : startOf rows k ≤ pos
  inside : pos < startOf rows (k + 1) ∨ startOf rows k = pos
  before : ∀ i < k, startOf rows i < pos

section Positions

variable {rows : List Entry} {i j k pos : Nat}

theorem startOf_succ {e : Entry} (h : rows[j]? = some e) :
    startOf rows (j + 1) = startOf rows j + e.data.length := by
  obtain ⟨hj, rfl⟩ := List.getElem?_eq_some_iff.mp h
  rw [startOf, List.take_succ_eq_append_getElem hj, List.flatMap_append, List.length_append,
    List.flatMap_singleton]
  rfl

theorem startOf_mono (h : i ≤ j) : startOf rows i ≤ startOf rows j :=
  ((List.take_sublist_take_left h).flatMap _).length_le

theorem startOf_length : startOf rows rows.length = (rows.flatMap Entry.data).length := by
  rw [startOf, List.take_length]

theorem startOf_le (rows : List Entry) (j : Nat) :
    startOf rows j ≤ (rows.flatMap Entry.data).length :=
  ((List.take_sublist j rows).flatMap _).length_le

theorem getD_offsets (h : j ≤ rows.length) :
    (BinBlock.ofRows rows).offsets.getD j 0 = startOf rows j := by
  rw [BinBlock.ofRows, getD_offsetsFrom 0 h, Nat.zero_add, startOf]

theorem RowAt.unique (h : RowAt rows pos j) (h' : RowAt rows pos k) : j = k := by
  have hle : ∀ {a b}, RowAt rows pos a → RowAt rows pos b → b ≤ a := by
    intro a b ha hb
    by_contra hlt
    have hbefore := hb.before a (by omega)
    have hmono : startOf rows (a + 1) ≤ startOf rows b := startOf_mono (by omega)
    have hb := hb.le
    rcases ha.inside with h | h
    · omega
    · omega
  exact le_antisymm (hle h' h) (hle h h')

theorem offsets_getElem? (h : j ≤ rows.length) :
    (BinBlock.ofRows rows).offsets[j]? = some (startOf rows j) := by
  have hlt : j < (BinBlock.ofRows rows).offsets.length := by
    rw [BinBlock.ofRows, length_offsetsFrom]
    omega
  have hget := getD_offsets h
  rw [List.getD_eq_getElem?_getD, List.getElem?_eq_getElem hlt, Option.getD_some] at hget
  rw [List.getElem?_eq_getElem hlt, hget]

theorem sorted_offsets (rows : List Entry) :
    (BinBlock.ofRows rows).offsets.Pairwise (· ≤ ·) := by
  refine List.pairwise_iff_getElem.mpr fun i j hi hj hij => ?_
  have hlen : (BinBlock.ofRows rows).offsets.length = rows.length + 1 := length_offsetsFrom 0 rows
  have hleft : (BinBlock.ofRows rows).offsets[i]? = some (startOf rows i) :=
    offsets_getElem? (by omega)
  have hright : (BinBlock.ofRows rows).offsets[j]? = some (startOf rows j) :=
    offsets_getElem? (by omega)
  rw [List.getElem?_eq_getElem hi, Option.some.injEq] at hleft
  rw [List.getElem?_eq_getElem hj, Option.some.injEq] at hright
  rw [hleft, hright]
  exact startOf_mono hij.le

theorem rowOf_eq (hsize : (rows.flatMap Entry.data).length < 2 ^ 32)
    (hpos : pos < (rows.flatMap Entry.data).length) :
    ∃ k : Nat, (BinBlock.ofRows rows).rowOf pos = k ∧ RowAt rows pos k := by
  have hlast : startOf rows rows.length = (rows.flatMap Entry.data).length := startOf_length
  have hzero : startOf rows 0 = 0 := rfl
  have hlen : (BinBlock.ofRows rows).ts.length = rows.length := List.length_map _
  obtain ⟨hlow, hhigh⟩ := binarySearch_spec (sorted_offsets rows) pos
  generalize hk : (binarySearch (BinBlock.ofRows rows).offsets pos).1 = k at hlow hhigh
  have hlow : ∀ i < k, i ≤ rows.length → startOf rows i < pos :=
    fun i hi hle => hlow i _ hi (offsets_getElem? hle)
  have hhigh : ∀ i, k ≤ i → i ≤ rows.length → pos ≤ startOf rows i :=
    fun i hi hle => hhigh i _ hi (offsets_getElem? hle)
  have hle : k ≤ rows.length := by
    by_contra hgt
    have := hlow rows.length (by omega) le_rfl
    omega
  have hat := hhigh k le_rfl hle
  have hrow : ∀ j, (if k > 0 ∧ startOf rows k > pos then k - 1 else k) = j → j < rows.length →
      (BinBlock.ofRows rows).rowOf pos = j := by
    intro j hj hlt
    rw [BinBlock.rowOf, Nat.mod_eq_of_lt (hpos.trans hsize), hk, getD_offsets hle, hlen, hj]
    exact if_neg (not_le.mpr hlt)
  rcases hat.eq_or_lt with heq | hlt
  · -- a row starts here
    have hne : k ≠ rows.length := by
      rintro rfl
      omega
    exact ⟨k, hrow k (if_neg (by omega)) (by omega), by omega, heq.ge, Or.inr heq.symm,
      fun i hi => hlow i hi (by omega)⟩
  · have hpositive : k > 0 := by
      by_contra hnot
      rw [show k = 0 by omega, hzero] at hlt
      omega
    refine ⟨k - 1, hrow _ (if_pos ⟨hpositive, hlt⟩) (by omega), by omega,
      (hlow (k - 1) (by omega) (by omega)).le, Or.inl ?_, fun i hi => hlow i (by omega) (by omega)⟩
    rw [Nat.sub_add_cancel hpositive]
    exact hlt

end Positions

/-! ## Hits -/

/-- The literal stands in row `j` at a position from `pos` on that is ascribed to this row. -/
def HitFrom (rows : List Entry) (lit : Bytes) (pos j : Nat) : Prop :=
  ∃ p, pos ≤ p ∧ RowAt rows p j ∧ p + lit.length ≤ startOf rows (j + 1) ∧
    lit <+: (rows.flatMap Entry.data).drop p

section Hits

variable {rows : List Entry} {lit : Bytes} {pos : Nat}

theorem indexOf_eq_none {s sep : Bytes} (h : indexOf s sep = none) {i : Nat}
    (hi : i ≤ s.length) : ¬sep <+: s.drop i := by
  have hnot := List.find?_eq_none.mp h i (List.mem_range.mpr (by omega))
  rwa [List.isPrefixOf_iff_prefix] at hnot

theorem indexOf_eq_some {s sep : Bytes} {i : Nat} (h : indexOf s sep = some i) :
    sep <+: s.drop i ∧ i ≤ s.length ∧ ∀ j < i, ¬sep <+: s.drop j := by
  obtain ⟨hat, hmem, hbefore⟩ := List.find?_range_eq_some.mp h
  refine ⟨List.isPrefixOf_iff_prefix.mp hat, Nat.lt_succ_iff.mp (List.mem_range.mp hmem), ?_⟩
  intro j hj hpre
  have hnot := hbefore j hj
  rw [List.isPrefixOf_iff_prefix.mpr hpre] at hnot
  exact absurd hnot (by decide)

theorem HitFrom.lt (hlit : lit ≠ []) {j : Nat} (h : HitFrom rows lit pos j) :
    pos < startOf rows (j + 1) ∧ pos < (rows.flatMap Entry.data).length := by
  obtain ⟨p, hp, -, hend, -⟩ := h
  have hpositive := List.length_pos_iff.mpr hlit
  have hle := startOf_le rows (j + 1)
  omega

/-- From one hit on, the rows with a hit are its own row and those with one behind it. -/
theorem hitFrom_iff_of_hit (hlit : lit ≠ []) {p k : Nat} (hp : pos ≤ p) (hrow : RowAt rows p k)
    (hend : p + lit.length ≤ startOf rows (k + 1))
    (hpre : lit <+: (rows.flatMap Entry.data).drop p)
    (hfirst : ∀ q, pos ≤ q → q < p → ¬lit <+: (rows.flatMap Entry.data).drop q) (j : Nat) :
    HitFrom rows lit pos j ↔ j = k ∨ HitFrom rows lit (startOf rows (k + 1)) j := by
  have hpositive := List.length_pos_iff.mpr hlit
  constructor
  · rintro ⟨q, hq, hrow', hend', hpre'⟩
    have hle : p ≤ q := not_lt.mp fun hlt => hfirst q hq hlt hpre'
    rcases Nat.lt_trichotomy j k with hlt | heq | hgt
    · have hmono : startOf rows (j + 1) ≤ startOf rows k := startOf_mono hlt
      have := hrow.le
      omega
    · exact Or.inl heq
    · have hmono : startOf rows (k + 1) ≤ startOf rows j := startOf_mono hgt
      exact Or.inr ⟨q, hmono.trans hrow'.le, hrow', hend', hpre'⟩
  · rintro (rfl | ⟨q, hq, h⟩)
    · exact ⟨p, hp, hrow, hend, hpre⟩
    · exact ⟨q, by omega, h⟩

/-- A hit that does not fit in its row is no row's. -/
theorem hitFrom_iff_of_miss {p k : Nat} (hp : pos ≤ p) (hrow : RowAt rows p k)
    (hend : ¬p + lit.length ≤ startOf rows (k + 1))
    (hfirst : ∀ q, pos ≤ q → q < p → ¬lit <+: (rows.flatMap Entry.data).drop q) (j : Nat) :
    HitFrom rows lit pos j ↔ HitFrom rows lit (p + 1) j := by
  constructor
  · rintro ⟨q, hq, hrow', hend', hpre'⟩
    have hle : p ≤ q := not_lt.mp fun hlt => hfirst q hq hlt hpre'
    have hne : p ≠ q := by
      rintro rfl
      obtain rfl := hrow.unique hrow'
      exact hend hend'
    exact ⟨q, by omega, hrow', hend', hpre'⟩
  · rintro ⟨q, hq, h⟩
    exact ⟨q, by omega, h⟩

theorem mem_nil_iff_hitFrom (hlit : lit ≠ []) (hno : ∀ q, pos ≤ q →
    q < (rows.flatMap Entry.data).length → ¬lit <+: (rows.flatMap Entry.data).drop q) (j : Nat) :
    j ∈ ([] : List Nat) ↔ HitFrom rows lit pos j := by
  refine ⟨nofun, ?_⟩
  rintro ⟨q, hq, hrow, hend, hpre⟩
  have hhit : HitFrom rows lit q j := ⟨q, le_rfl, hrow, hend, hpre⟩
  exact absurd hpre (hno q hq (hhit.lt hlit).2)

/-- The scan for a literal that is not empty gives the rows with a hit, in order. -/
theorem candidates_eq (hsize : (rows.flatMap Entry.data).length < 2 ^ 32) (hlit : lit ≠ [])
    {fuel : Nat} (hpos : pos ≤ (rows.flatMap Entry.data).length)
    (hfuel : (rows.flatMap Entry.data).length < pos + fuel) (found : List Int) :
    ∃ ks : List Nat, (BinBlock.ofRows rows).candidates lit fuel pos found =
        some (found ++ ks.map Int.ofNat) ∧
      ks.Pairwise (· < ·) ∧ ∀ j, j ∈ ks ↔ HitFrom rows lit pos j := by
  induction fuel generalizing pos found with
  | zero => omega
  | succ fuel ih =>
      rw [BinBlock.candidates]
      by_cases hlt : pos < (BinBlock.ofRows rows).blob.length
      · rw [if_pos hlt]
        cases hindex : indexOf ((BinBlock.ofRows rows).blob.drop pos) lit with
        | none =>
            refine ⟨[], by simp, List.Pairwise.nil, mem_nil_iff_hitFrom hlit
              fun q hq hblob hpre => ?_⟩
            refine indexOf_eq_none hindex (i := q - pos) ?_ ?_
            · rw [List.length_drop]
              exact Nat.sub_le_sub_right hblob.le pos
            · rw [List.drop_drop, Nat.add_sub_cancel' hq]
              exact hpre
        | some i =>
            obtain ⟨hpre, -, hbefore⟩ := indexOf_eq_some hindex
            have hpre : lit <+: (rows.flatMap Entry.data).drop (pos + i) := by
              rw [List.drop_drop] at hpre
              exact hpre
            have hfirst : ∀ q, pos ≤ q → q < pos + i → ¬lit <+: (rows.flatMap Entry.data).drop q := by
              intro q hq hlt hpre
              refine hbefore (q - pos) (by omega) ?_
              rw [List.drop_drop, Nat.add_sub_cancel' hq]
              exact hpre
            have hat : pos + i < (rows.flatMap Entry.data).length := by
              by_contra hge
              rw [List.drop_eq_nil_of_le (not_lt.mp hge)] at hpre
              exact hlit (List.prefix_nil.mp hpre)
            obtain ⟨k, hk, hrow⟩ := rowOf_eq hsize hat
            have hstop : (BinBlock.ofRows rows).offsets.getD ((k : Int) + 1).toNat 0 =
                startOf rows (k + 1) := getD_offsets hrow.lt
            simp only [hk, hstop]
            by_cases hend : pos + i + lit.length ≤ startOf rows (k + 1)
            · have hpositive := List.length_pos_iff.mpr hlit
              obtain ⟨ks, hks, hsorted, hmem⟩ := ih (startOf_le rows (k + 1)) (by omega)
                (found ++ [(k : Int)])
              rw [if_pos hend]
              refine ⟨k :: ks, by rw [hks]; simp, List.pairwise_cons.mpr ⟨fun j hj => ?_, hsorted⟩,
                fun j => ?_⟩
              · have hbehind := ((hmem j).mp hj).lt hlit
                by_contra hle
                have hmono : startOf rows (j + 1) ≤ startOf rows (k + 1) := startOf_mono (by omega)
                omega
              · rw [List.mem_cons, hmem,
                  hitFrom_iff_of_hit hlit (Nat.le_add_right pos i) hrow hend hpre hfirst]
            · rw [if_neg hend]
              have hnext : pos + i + 1 ≤ (rows.flatMap Entry.data).length := hat
              obtain ⟨ks, hks, hsorted, hmem⟩ := ih hnext (by omega) found
              refine ⟨ks, hks, hsorted, fun j => ?_⟩
              rw [hmem, hitFrom_iff_of_miss (Nat.le_add_right pos i) hrow hend hfirst]
      · rw [if_neg hlt]
        refine ⟨[], by simp, List.Pairwise.nil, mem_nil_iff_hitFrom hlit
          fun q hq hblob _ => ?_⟩
        exact hlt (lt_of_le_of_lt hq hblob)

theorem drop_blob {j : Nat} {e : Entry} (he : rows[j]? = some e) {o : Nat}
    (ho : o ≤ e.data.length) : (rows.flatMap Entry.data).drop (startOf rows j + o) =
      e.data.drop o ++ (rows.drop (j + 1)).flatMap Entry.data := by
  obtain ⟨hj, rfl⟩ := List.getElem?_eq_some_iff.mp he
  have hsplit : rows.flatMap Entry.data = (rows.take j).flatMap Entry.data ++
      (rows[j].data ++ (rows.drop (j + 1)).flatMap Entry.data) := by
    rw [← List.flatMap_cons, ← List.drop_eq_getElem_cons hj, ← List.flatMap_append,
      List.take_append_drop]
  rw [hsplit, startOf, ← List.drop_drop, List.drop_left, List.drop_append_of_le_length ho]

/-- A row has a hit where the literal stands in its data, unless that is at the start and a row
before it starts there too. -/
theorem hitFrom_zero_iff (hlit : lit ≠ []) {j : Nat} {e : Entry} (he : rows[j]? = some e) :
    HitFrom rows lit 0 j ↔
      ∃ o, lit <+: e.data.drop o ∧ ∀ i < j, startOf rows i < startOf rows j + o := by
  have hpositive := List.length_pos_iff.mpr hlit
  have hnext := startOf_succ he
  constructor
  · rintro ⟨p, -, hrow, hend, hpre⟩
    obtain ⟨o, rfl⟩ := Nat.exists_eq_add_of_le hrow.le
    rw [drop_blob he (by omega)] at hpre
    refine ⟨o, List.prefix_of_prefix_length_le hpre (List.prefix_append _ _) ?_, hrow.before⟩
    rw [List.length_drop]
    omega
  · rintro ⟨o, hpre, hbefore⟩
    have hlen := hpre.length_le
    rw [List.length_drop] at hlen
    refine ⟨startOf rows j + o, Nat.zero_le _, ⟨(List.getElem?_eq_some_iff.mp he).1,
      Nat.le_add_right _ _, Or.inl (by omega), hbefore⟩, by omega, ?_⟩
    rw [drop_blob he (by omega)]
    exact hpre.trans (List.prefix_append _ _)

theorem infix_iff_exists_drop {s t : Bytes} : t <:+: s ↔ ∃ o, t <+: s.drop o := by
  rw [List.infix_iff_prefix_suffix]
  constructor
  · rintro ⟨u, hpre, hsuf⟩
    rw [List.suffix_iff_eq_drop.mp hsuf] at hpre
    exact ⟨_, hpre⟩
  · rintro ⟨o, hpre⟩
    exact ⟨_, hpre, List.drop_suffix o s⟩

/-- Behind a row with data, and at the start of the block, every hit counts. -/
theorem hitFrom_iff_contains (hlit : lit ≠ []) {j : Nat} {e : Entry} (he : rows[j]? = some e)
    (hprev : ∀ i a, i + 1 = j → rows[i]? = some a → a.data ≠ []) :
    HitFrom rows lit 0 j ↔ contains e.data lit = true := by
  have hbefore : ∀ i < j, startOf rows i < startOf rows j := by
    intro i hi
    have hlt := (List.getElem?_eq_some_iff.mp he).1
    have ha := List.getElem?_eq_getElem (show j - 1 < rows.length by omega)
    have hne := List.length_pos_iff.mpr (hprev (j - 1) _ (by omega) ha)
    have hstart := startOf_succ ha
    rw [Nat.sub_add_cancel (by omega)] at hstart
    have hmono : startOf rows i ≤ startOf rows (j - 1) := startOf_mono (by omega)
    omega
  rw [hitFrom_zero_iff hlit he, contains, decide_eq_true_eq, infix_iff_exists_drop]
  exact exists_congr fun o => and_iff_left fun i hi => (hbefore i hi).trans_le (Nat.le_add_right _ _)

/-- Behind a row without data a hit at the start does not count. -/
theorem hitFrom_iff_contains_tail (hlit : lit ≠ []) {i : Nat} {a e : Entry}
    (ha : rows[i]? = some a) (hempty : a.data = []) (he : rows[i + 1]? = some e) :
    HitFrom rows lit 0 (i + 1) ↔ contains e.data.tail lit = true := by
  have hsame : startOf rows (i + 1) = startOf rows i := by rw [startOf_succ ha, hempty]; rfl
  rw [hitFrom_zero_iff hlit he, contains, decide_eq_true_eq, infix_iff_exists_drop]
  constructor
  · rintro ⟨o, hpre, hbefore⟩
    have hlt := hbefore i (Nat.lt_succ_self i)
    refine ⟨o - 1, ?_⟩
    rw [List.drop_tail, Nat.sub_add_cancel (by omega)]
    exact hpre
  · rintro ⟨o, hpre⟩
    rw [List.drop_tail] at hpre
    refine ⟨o + 1, hpre, fun k hk => ?_⟩
    have hmono : startOf rows k ≤ startOf rows (i + 1) := startOf_mono hk.le
    omega

end Hits

/-! ## The empty literal -/

section Empty

variable {rows : List Entry}

/-- The rows before the first one without data. -/
def leading (rows : List Entry) : Nat := rows.findIdx fun e => e.data = []

theorem leading_le (rows : List Entry) : leading rows ≤ rows.length := List.findIdx_le_length

theorem data_leading (h : leading rows < rows.length) : rows[leading rows].data = [] :=
  of_decide_eq_true (List.findIdx_getElem (w := h))

theorem data_ne_nil_of_lt_leading {i : Nat} {e : Entry} (hi : i < leading rows)
    (he : rows[i]? = some e) : e.data ≠ [] := by
  obtain ⟨_, rfl⟩ := List.getElem?_eq_some_iff.mp he
  simpa using List.not_of_lt_findIdx hi

theorem startOf_lt_of_leading {i j : Nat} (hij : i < j) (hj : j ≤ leading rows) :
    startOf rows i < startOf rows j := by
  have hlen := leading_le rows
  have hget := List.getElem?_eq_getElem (show i < rows.length by omega)
  have hpositive := List.length_pos_iff.mpr (data_ne_nil_of_lt_leading (hij.trans_le hj) hget)
  have hstart := startOf_succ hget
  have hmono : startOf rows (i + 1) ≤ startOf rows j := startOf_mono hij
  omega

theorem le_startOf {k : Nat} (hk : k ≤ leading rows) : k ≤ startOf rows k := by
  induction k with
  | zero => exact Nat.zero_le _
  | succ k ih =>
      have hprev := ih (by omega)
      have hlt : startOf rows k < startOf rows (k + 1) := startOf_lt_of_leading (Nat.lt_succ_self k) hk
      omega

/-- From the start of a row with only rows with data before it, the scan takes this row. -/
theorem candidates_empty_step (hsize : (rows.flatMap Entry.data).length < 2 ^ 32) {k : Nat}
    (hk : k ≤ leading rows) (hlt : startOf rows k < (rows.flatMap Entry.data).length) (fuel : Nat)
    (found : List Int) :
    (BinBlock.ofRows rows).candidates [] (fuel + 1) (startOf rows k) found =
      (BinBlock.ofRows rows).candidates [] fuel (startOf rows (k + 1)) (found ++ [(k : Int)]) := by
  have hindex : indexOf ((BinBlock.ofRows rows).blob.drop (startOf rows k)) [] = some 0 :=
    List.find?_range_eq_some.mpr ⟨rfl, List.mem_range.mpr (Nat.succ_pos _), nofun⟩
  have hat : RowAt rows (startOf rows k) k := by
    refine ⟨?_, le_rfl, Or.inr rfl, fun i hi => startOf_lt_of_leading hi hk⟩
    by_contra hge
    have hmono : startOf rows rows.length ≤ startOf rows k := startOf_mono (not_lt.mp hge)
    rw [startOf_length] at hmono
    omega
  obtain ⟨j, hj, hrow⟩ := rowOf_eq hsize hlt
  obtain rfl := hat.unique hrow
  have hstop : (BinBlock.ofRows rows).offsets.getD ((k : Int) + 1).toNat 0 =
      startOf rows (k + 1) := getD_offsets hat.lt
  have hinside : startOf rows k < (BinBlock.ofRows rows).blob.length := hlt
  rw [BinBlock.candidates, if_pos hinside, hindex]
  simp only [Nat.add_zero, hj, hstop, List.length_nil]
  exact if_pos (startOf_mono (Nat.le_succ k))

/-- With data behind a row without any the scan stays at that row. -/
theorem candidates_empty_loops (hsize : (rows.flatMap Entry.data).length < 2 ^ 32)
    (hlt : startOf rows (leading rows) < (rows.flatMap Entry.data).length) {k : Nat}
    (hk : k ≤ leading rows) (fuel : Nat) (found : List Int) :
    (BinBlock.ofRows rows).candidates [] fuel (startOf rows k) found = none := by
  induction fuel generalizing k found with
  | zero => rfl
  | succ fuel ih =>
      have hmono : startOf rows k ≤ startOf rows (leading rows) := startOf_mono hk
      rw [candidates_empty_step hsize hk (hmono.trans_lt hlt)]
      rcases hk.eq_or_lt with rfl | hless
      · have hstay : startOf rows (leading rows + 1) = startOf rows (leading rows) := by
          have hlen : leading rows < rows.length := by
            by_contra hge
            rw [Nat.le_antisymm (leading_le rows) (not_lt.mp hge), startOf_length] at hlt
            exact lt_irrefl _ hlt
          rw [startOf_succ (List.getElem?_eq_getElem hlen), data_leading hlen]
          rfl
        rw [hstay]
        exact ih le_rfl _
      · exact ih hless _

/-- Otherwise it takes the rows before the first one without data. -/
theorem candidates_empty_eq (hsize : (rows.flatMap Entry.data).length < 2 ^ 32)
    (hend : startOf rows (leading rows) = (rows.flatMap Entry.data).length) {k fuel : Nat}
    (hk : k ≤ leading rows) (hfuel : leading rows < k + fuel) (found : List Int) :
    (BinBlock.ofRows rows).candidates [] fuel (startOf rows k) found =
      some (found ++ (List.range' k (leading rows - k)).map Int.ofNat) := by
  induction fuel generalizing k found with
  | zero => omega
  | succ fuel ih =>
      rcases hk.eq_or_lt with rfl | hless
      · have hstop : ¬startOf rows (leading rows) < (BinBlock.ofRows rows).blob.length := hend.ge.not_gt
        rw [BinBlock.candidates, if_neg hstop]
        simp
      · have hlt := startOf_lt_of_leading hless le_rfl
        rw [candidates_empty_step hsize hk (hend ▸ hlt), ih hless (by omega),
          show leading rows - k = (leading rows - (k + 1)) + 1 by omega, List.range'_succ]
        simp

/-- The scan for the empty literal returns when no row without data has data behind it. -/
theorem startOf_leading_eq_iff : startOf rows (leading rows) = (rows.flatMap Entry.data).length ↔
    ∀ e ∈ rows.drop (leading rows), e.data = [] := by
  have hsplit : (rows.flatMap Entry.data).length =
      startOf rows (leading rows) + ((rows.drop (leading rows)).flatMap Entry.data).length := by
    rw [startOf, ← List.length_append, ← List.flatMap_append, List.take_append_drop]
  rw [hsplit, left_eq_add, List.length_eq_zero_iff, List.flatMap_eq_nil_iff]

end Empty

/-! ## The rows of a decoded block -/

theorem length_getUints (w n : Nat) (buf : Bytes) : (getUints w n buf).length = n := by
  induction n generalizing buf with
  | zero => rfl
  | succ n ih => rw [getUints, List.length_cons, ih]

theorem getD_getUints_lt (w n : Nat) (buf : Bytes) (i : Nat) :
    (getUints w n buf).getD i 0 < 256 ^ w := by
  induction n generalizing buf i with
  | zero => exact Nat.pow_pos (by decide)
  | succ n ih =>
      cases i with
      | zero =>
          have hle : (buf.take w).length ≤ w := by
            rw [List.length_take]
            exact min_le_left _ _
          exact (getUint_lt _).trans_le (Nat.pow_le_pow_right (by decide) hle)
      | succ i => exact ih _ i

/-- What decoding checks. -/
structure BinBlock.Valid (bb : BinBlock) : Prop where
  length : bb.offsets.length = bb.ts.length + 1
  zero : bb.offsets.getD 0 0 = 0
  mono : ∀ i < bb.ts.length, bb.offsets.getD i 0 ≤ bb.offsets.getD (i + 1) 0
  last : bb.blob.length = bb.offsets.getD bb.ts.length 0
  size : bb.blob.length < 2 ^ 32

theorem BinBlock.valid_ofRows {rows : List Entry}
    (hsize : (rows.flatMap Entry.data).length < 2 ^ 32) : (ofRows rows).Valid := by
  have hlen : (ofRows rows).ts.length = rows.length := List.length_map _
  refine ⟨?_, getD_offsets (Nat.zero_le _), fun i hi => ?_, ?_, hsize⟩
  · rw [hlen]
    exact length_offsetsFrom 0 rows
  · rw [hlen] at hi
    rw [getD_offsets hi.le, getD_offsets hi]
    exact startOf_mono (Nat.le_succ i)
  · rw [hlen, getD_offsets le_rfl, startOf_length]
    rfl

/-- What decoding checks of any bytes: without rows the first offset may be anything. -/
structure BinBlock.Decoded (bb : BinBlock) : Prop where
  length : bb.offsets.length = bb.ts.length + 1
  zero : 0 < bb.ts.length → bb.offsets.getD 0 0 = 0
  mono : ∀ i < bb.ts.length, bb.offsets.getD i 0 ≤ bb.offsets.getD (i + 1) 0
  last : bb.blob.length = bb.offsets.getD bb.ts.length 0
  size : bb.blob.length < 2 ^ 32

theorem BinBlock.Decoded.valid {bb : BinBlock} (h : bb.Decoded) (hrows : 0 < bb.ts.length) :
    bb.Valid :=
  ⟨h.length, h.zero hrows, h.mono, h.last, h.size⟩

theorem decoded_of_decodeBinBlock {buf : Bytes} {count : Int} {bb : BinBlock}
    (h : decodeBinBlock buf count = .ok bb) : bb.Decoded ∧ bb.ts.length = count.toNat := by
  unfold decodeBinBlock at h
  simp only at h
  have hts : (tsFromBuf buf count.toNat).length = count.toNat := by
    rw [tsFromBuf, List.length_map, length_getUints]
  generalize hn : count.toNat = n at h hts ⊢
  split_ifs at h with hsmall hneg hfirst hshort
  split at h
  · cases h
  · rename_i hmono
    obtain rfl := Except.ok.inj h
    have hlast : ((buf.take ((count * 8 + (count + 1) * 4).toNat +
        (offsetsFromBuf buf n).getD n 0)).drop (count * 8 + (count + 1) * 4).toNat).length =
          (offsetsFromBuf buf n).getD n 0 := by
      rw [List.length_drop, List.length_take]
      omega
    refine ⟨⟨?_, fun hpositive => ?_, fun i hi => ?_, ?_, ?_⟩, hts⟩
    · rw [hts]
      exact length_getUints 4 (n + 1) _
    · rw [hts] at hpositive
      by_contra hne
      exact hfirst ⟨hpositive, hne⟩
    · rw [hts] at hi
      have hstep := List.find?_eq_none.mp hmono i (List.mem_range.mpr hi)
      simpa using hstep
    · rw [hts]
      exact hlast
    · rw [hlast]
      exact getD_getUints_lt 4 (n + 1) _ n

/-- The encoding of no rows has the first offset zero. -/
theorem valid_of_decodeBinBlock {entries : List Entry} {dst : Bytes} {bb : BinBlock}
    (h : decodeBinBlock (encodeBinBlock entries dst) entries.length = .ok bb) : bb.Valid := by
  cases entries with
  | nil =>
      rw [decodeBinBlock_encode (fun _ he => absurd he List.not_mem_nil) (by decide)] at h
      obtain rfl := Except.ok.inj h
      exact BinBlock.valid_ofRows (by decide)
  | cons e entries =>
      obtain ⟨hdecoded, hlength⟩ := decoded_of_decodeBinBlock h
      apply hdecoded.valid
      rw [hlength, Int.toNat_natCast]
      exact Nat.succ_pos _

namespace BinBlock.Valid

variable {bb : BinBlock}

theorem offsets_le (h : bb.Valid) {i j : Nat} (hij : i ≤ j) (hj : j ≤ bb.ts.length) :
    bb.offsets.getD i 0 ≤ bb.offsets.getD j 0 := by
  induction j, hij using Nat.le_induction with
  | base => exact le_rfl
  | succ j _ ih => exact (ih (by omega)).trans (h.mono j hj)

theorem getElem?_rows {i : Nat} {ts : Int} (hts : bb.ts[i]? = some ts) :
    bb.rows[i]? = some ⟨ts, bb.dataBytes i⟩ := by
  rw [BinBlock.rows, List.getElem?_map, List.getElem?_zipIdx, hts, Nat.zero_add]
  rfl

theorem take_rows (h : bb.Valid) {i : Nat} (hi : i ≤ bb.ts.length) :
    (bb.rows.take i).flatMap Entry.data = bb.blob.take (bb.offsets.getD i 0) := by
  induction i with
  | zero => rw [h.zero]; rfl
  | succ i ih =>
      have hrow := getElem?_rows (List.getElem?_eq_getElem hi)
      have hsplit : bb.blob.take (bb.offsets.getD i 0) =
          (bb.blob.take (bb.offsets.getD (i + 1) 0)).take (bb.offsets.getD i 0) := by
        rw [List.take_take, min_eq_left (h.mono i hi)]
      rw [List.take_add_one, hrow, List.flatMap_append, ih (by omega), hsplit]
      change _ ++ ([(_ : Entry)].flatMap Entry.data) = _
      rw [List.flatMap_singleton, BinBlock.dataBytes, List.take_append_drop]

theorem ofRows_rows (h : bb.Valid) : ofRows bb.rows = bb := by
  have hlen : bb.rows.length = bb.ts.length := by
    rw [BinBlock.rows, List.length_map, List.length_zipIdx]
  have hts := bb.timestamps_rows
  have hblob : bb.rows.flatMap Entry.data = bb.blob := by
    have hall := h.take_rows le_rfl
    rwa [← h.last, List.take_length, ← hlen, List.take_length] at hall
  have hoffsets : offsetsFrom 0 bb.rows = bb.offsets := by
    apply List.ext_getElem
    · rw [length_offsetsFrom, hlen, h.length]
    · intro i hi hi'
      have hle : i ≤ bb.ts.length := by
        rw [length_offsetsFrom, hlen] at hi
        omega
      have hget := getD_offsetsFrom 0 (hle.trans_eq hlen.symm)
      have hmin := h.offsets_le hle le_rfl
      rw [h.take_rows hle, List.length_take, h.last, min_eq_left hmin, Nat.zero_add,
        List.getD_eq_getElem _ _ hi, List.getD_eq_getElem _ _ hi'] at hget
      exact hget
  rw [ofRows, hts, hblob, hoffsets]

end BinBlock.Valid

/-! ## Agreement -/

/-- The longest of the literals a line has to contain. -/
def longestLiteral (m : Matcher) : Bytes :=
  ((m.line.filter fun f => f.op == .eq).map LineFilter.value).foldl
    (fun lit e => if e.length > lit.length then e else lit) []

/-- When the scan gives what the loop over the rows gives.  A row that passes needs the literal
behind its start when the row before it has no data.  For the empty literal no data may follow
a row without data, and no such row may pass. -/
def ScanAgrees (rows : List Entry) (lit : Bytes) (passes : Entry → Bool) : Prop :=
  if lit = [] then ∀ e ∈ rows.drop (leading rows), e.data = [] ∧ passes e = false
  else ∀ i a e, rows[i]? = some a → rows[i + 1]? = some e → a.data = [] → passes e = true →
    contains e.data.tail lit = true

section Agree

variable {rows : List Entry} {ks : List Nat} {p : Entry → Bool}

theorem row_ofRows {k : Nat} (hk : k < rows.length) :
    (BinBlock.ofRows rows).row (Int.ofNat k) = .ok rows[k] := by
  have hts : (BinBlock.ofRows rows).ts[k]? = some rows[k].timestamp := by
    rw [BinBlock.ofRows, List.getElem?_map, List.getElem?_eq_getElem hk]
    rfl
  have hneg : ¬Int.ofNat k < 0 := Int.not_lt.mpr (Int.natCast_nonneg k)
  rw [BinBlock.row, if_neg hneg, show (Int.ofNat k).toNat = k from rfl, hts, dataBytes_ofRows hk]

/-- The row of an index in the block. -/
def rowAt (rows : List Entry) (k : Nat) : Entry := rows[k]?.getD ⟨0, []⟩

theorem map_rowAt_range (rows : List Entry) : (List.range rows.length).map (rowAt rows) = rows := by
  apply List.ext_getElem
  · rw [List.length_map, List.length_range]
  · intro k _ hk
    rw [List.getElem_map, List.getElem_range, rowAt, List.getElem?_eq_getElem hk, Option.getD_some]

theorem mapM_row_ofRows (hks : ∀ k ∈ ks, k < rows.length) :
    (ks.map Int.ofNat).mapM (BinBlock.ofRows rows).row = .ok (ks.map (rowAt rows)) := by
  induction ks with
  | nil => rfl
  | cons k ks ih =>
      have hk := hks k List.mem_cons_self
      rw [List.map_cons, List.mapM_cons, row_ofRows hk,
        ih fun j hj => hks j (List.mem_cons_of_mem _ hj), List.map_cons, rowAt,
        List.getElem?_eq_getElem hk]
      rfl

theorem eq_filter_range (hsorted : ks.Pairwise (· < ·)) {n : Nat} (hks : ∀ k ∈ ks, k < n) :
    ks = (List.range n).filter (· ∈ ks) := by
  refine hsorted.eq_of_mem_iff (List.pairwise_lt_range.filter _) fun k => ?_
  rw [List.mem_filter, List.mem_range, decide_eq_true_eq]
  exact ⟨fun h => ⟨hks k h, h⟩, And.right⟩

/-- Rows taken in order give all that pass exactly when each that passes is taken. -/
theorem filter_map_rowAt_eq_iff (hsorted : ks.Pairwise (· < ·)) (hks : ∀ k ∈ ks, k < rows.length) :
    (ks.map (rowAt rows)).filter p = rows.filter p ↔
      ∀ k e, rows[k]? = some e → p e = true → k ∈ ks := by
  have htaken := eq_filter_range hsorted hks
  have hleft : (ks.map (rowAt rows)).filter p =
      (((List.range rows.length).filter (p ∘ rowAt rows)).filter (· ∈ ks)).map (rowAt rows) := by
    rw [List.filter_map, List.filter_comm, ← htaken]
  have hright : rows.filter p =
      ((List.range rows.length).filter (p ∘ rowAt rows)).map (rowAt rows) := by
    rw [← List.filter_map, map_rowAt_range]
  have hmem : (∀ k e, rows[k]? = some e → p e = true → k ∈ ks) ↔
      ∀ k ∈ (List.range rows.length).filter (p ∘ rowAt rows), decide (k ∈ ks) = true := by
    refine forall_congr' fun k => ?_
    rw [List.mem_filter, List.mem_range, decide_eq_true_eq]
    constructor
    · rintro h ⟨hk, hp⟩
      have he := List.getElem?_eq_getElem hk
      rw [Function.comp_apply, rowAt, he] at hp
      exact h _ he hp
    · intro h e he hp
      refine h ⟨(List.getElem?_eq_some_iff.mp he).1, ?_⟩
      rwa [Function.comp_apply, rowAt, he]
  rw [hleft, hright, hmem]
  constructor
  · intro heq
    have hlen := congrArg List.length heq
    rwa [List.length_map, List.length_map, List.length_filter_eq_length_iff] at hlen
  · intro hall
    rw [List.filter_eq_self.mpr hall]

variable {J : JsonReader} {start stop : Int} {m : Matcher} {fuel : Nat}

theorem foldl_longest (lits : List Bytes) (lit : Bytes) :
    lits.foldl (fun lit e => if e.length > lit.length then e else lit) lit ∈ lit :: lits := by
  induction lits generalizing lit with
  | nil => exact List.mem_singleton_self lit
  | cons e lits ih =>
      rw [List.foldl_cons]
      split_ifs
      · exact List.mem_cons_of_mem _ (ih e)
      · exact List.mem_cons.mpr ((List.mem_cons.mp (ih lit)).imp_right (List.mem_cons_of_mem _))

/-- A row that passes contains the literal of the scan. -/
theorem contains_longestLiteral {e : Entry} (h : BinBlock.passes J start stop m e = true) :
    contains e.data (longestLiteral m) = true := by
  rcases List.mem_cons.mp (foldl_longest _ []) with hnil | hmem
  · rw [longestLiteral, hnil, contains, decide_eq_true_eq]
    exact List.nil_infix
  · obtain ⟨f, hf, hvalue⟩ := List.mem_map.mp hmem
    obtain ⟨hline, hop⟩ := List.mem_filter.mp hf
    rw [BinBlock.passes, Bool.and_eq_true, Bool.and_eq_true] at h
    have haccepts := List.all_eq_true.mp h.1.2 f hline
    rw [LineFilter.acceptsBytes, beq_iff_eq.mp hop] at haccepts
    rw [longestLiteral, ← hvalue]
    exact haccepts

theorem iterateMatcher_eq (hm : ∃ f ∈ m.line, f.op = .eq) (bb : BinBlock) :
    bb.iterateMatcher J fuel start stop m =
      match bb.candidates (longestLiteral m) fuel 0 [] with
      | none => .error .loops
      | some ks => do
          let rows ← ks.mapM bb.row
          return rows.filter (BinBlock.passes J start stop m) := by
  obtain ⟨f, hf, hop⟩ := hm
  have hmem : f.value ∈ (m.line.filter fun f => f.op == .eq).map LineFilter.value :=
    List.mem_map_of_mem (List.mem_filter.mpr ⟨hf, beq_iff_eq.mpr hop⟩)
  rw [BinBlock.iterateMatcher, longestLiteral]
  cases hlits : (m.line.filter fun f => f.op == .eq).map LineFilter.value with
  | nil =>
      rw [hlits] at hmem
      exact absurd hmem List.not_mem_nil
  | cons lit lits =>
      have hfirst : (if lit.length > ([] : Bytes).length then lit else []) = lit := by
        cases lit with
        | nil => rfl
        | cons b lit => exact if_pos (Nat.succ_pos _)
      rewrite [List.foldl_cons, hfirst]
      rfl

theorem iterateMatcher_of_candidates (hm : ∃ f ∈ m.line, f.op = .eq)
    (hcandidates : (BinBlock.ofRows rows).candidates (longestLiteral m) fuel 0 [] =
      some (ks.map Int.ofNat)) (hks : ∀ k ∈ ks, k < rows.length) :
    (BinBlock.ofRows rows).iterateMatcher J fuel start stop m =
      .ok ((ks.map (rowAt rows)).filter (BinBlock.passes J start stop m)) := by
  rw [iterateMatcher_eq hm, hcandidates]
  simp only [mapM_row_ofRows hks]
  rfl

/-- With enough steps the scan stays in the block and takes, in order, the rows that it hits, for
the empty literal those in front of the first row without data; only the scan for the empty literal
may go on forever. -/
theorem candidates_rows (hsize : (rows.flatMap Entry.data).length < 2 ^ 32) (lit : Bytes) :
    (lit = [] ∧ (¬∀ e ∈ rows.drop (leading rows), e.data = []) ∧
        ∀ fuel, (BinBlock.ofRows rows).candidates lit fuel 0 [] = none) ∨
      (lit = [] → ∀ e ∈ rows.drop (leading rows), e.data = []) ∧
        ∀ fuel > (rows.flatMap Entry.data).length, ∃ ks : List Nat,
          (BinBlock.ofRows rows).candidates lit fuel 0 [] = some (ks.map Int.ofNat) ∧
            ks.Pairwise (· < ·) ∧ (∀ k ∈ ks, k < rows.length) ∧
              ∀ k, k ∈ ks ↔ if lit = [] then k < leading rows else HitFrom rows lit 0 k := by
  by_cases hlit : lit = []
  · subst hlit
    rw [← startOf_leading_eq_iff]
    by_cases hend : startOf rows (leading rows) = (rows.flatMap Entry.data).length
    · have hle : leading rows ≤ startOf rows (leading rows) := le_startOf le_rfl
      have hmem : ∀ k, k ∈ List.range' 0 (leading rows) ↔ k < leading rows := by
        intro k
        rw [List.mem_range'_1]
        omega
      refine Or.inr ⟨fun _ => hend, fun fuel hfuel => ⟨List.range' 0 (leading rows),
        candidates_empty_eq hsize hend (Nat.zero_le _) (by omega) [], List.pairwise_lt_range',
        fun k hk => ((hmem k).mp hk).trans_le (leading_le rows), fun k => ?_⟩⟩
      rw [if_pos rfl]
      exact hmem k
    · have hless := lt_of_le_of_ne (startOf_le rows (leading rows)) hend
      exact Or.inl ⟨rfl, hend, fun fuel =>
        candidates_empty_loops hsize hless (Nat.zero_le _) fuel []⟩
  · refine Or.inr ⟨fun h => absurd h hlit, fun fuel hfuel => ?_⟩
    obtain ⟨ks, hks, hsorted, hmem⟩ := candidates_eq hsize hlit (Nat.zero_le _)
      (hfuel.trans_eq (Nat.zero_add fuel).symm) []
    refine ⟨ks, hks, hsorted, fun k hk => ?_, fun k => ?_⟩
    · obtain ⟨_, _, hrow, _⟩ := (hmem k).mp hk
      exact hrow.lt
    · rw [if_neg hlit]
      exact hmem k

theorem sublist_map_rowAt (hsorted : ks.Pairwise (· < ·)) (hks : ∀ k ∈ ks, k < rows.length) :
    (ks.map (rowAt rows)).Sublist rows := by
  have hsub : (ks.map (rowAt rows)).Sublist ((List.range rows.length).map (rowAt rows)) := by
    rw [eq_filter_range hsorted hks]
    exact List.filter_sublist.map _
  rwa [map_rowAt_range] at hsub

/-- Whatever the scan does, it calls back for rows that pass, in order and at most once each. -/
theorem iterateMatcher_sublist (hsize : (rows.flatMap Entry.data).length < 2 ^ 32)
    (hfuel : (rows.flatMap Entry.data).length < fuel) {hits : List Entry}
    (h : (BinBlock.ofRows rows).iterateMatcher J fuel start stop m = .ok hits) :
    hits.Sublist (rows.filter (BinBlock.passes J start stop m)) := by
  by_cases hm : ∃ f ∈ m.line, f.op = .eq
  · rcases candidates_rows hsize (longestLiteral m) with ⟨-, -, hnone⟩ | ⟨-, hreturns⟩
    · rw [iterateMatcher_eq hm, hnone] at h
      cases h
    · obtain ⟨ks, hks, hsorted, hlt, -⟩ := hreturns fuel hfuel
      rw [iterateMatcher_of_candidates hm hks hlt] at h
      obtain rfl := Except.ok.inj h
      exact (sublist_map_rowAt hsorted hlt).filter _
  · have hnil : (m.line.filter fun f => f.op == .eq).map LineFilter.value = [] := by
      rw [List.map_eq_nil_iff, List.filter_eq_nil_iff]
      exact fun f hf hop => hm ⟨f, hf, beq_iff_eq.mp hop⟩
    rw [BinBlock.iterateMatcher, hnil, rows_ofRows] at h
    obtain rfl := Except.ok.inj h
    exact List.Sublist.refl _

theorem scanAgrees_of_empty_iff (hempty : ∀ e ∈ rows.drop (leading rows), e.data = []) :
    (∀ k e, rows[k]? = some e → p e = true → k < leading rows) ↔ ScanAgrees rows [] p := by
  rw [ScanAgrees, if_pos rfl]
  constructor
  · intro h e he
    refine ⟨hempty e he, Bool.eq_false_iff.mpr fun hp => ?_⟩
    obtain ⟨i, hi⟩ := List.mem_iff_getElem?.mp he
    rw [List.getElem?_drop] at hi
    have hlt := h _ e hi hp
    omega
  · intro h k e he hp
    by_contra hge
    have hmem : e ∈ rows.drop (leading rows) := by
      refine List.mem_iff_getElem?.mpr ⟨k - leading rows, ?_⟩
      rw [List.getElem?_drop, Nat.add_sub_cancel' (by omega)]
      exact he
    rw [(h e hmem).2] at hp
    exact Bool.false_ne_true hp

theorem scanAgrees_of_hits_iff {lit : Bytes} (hlit : lit ≠ [])
    (hcontains : ∀ e, p e = true → contains e.data lit = true) :
    (∀ k e, rows[k]? = some e → p e = true → HitFrom rows lit 0 k) ↔ ScanAgrees rows lit p := by
  rw [ScanAgrees, if_neg hlit]
  constructor
  · intro h i a e ha he hempty hp
    exact (hitFrom_iff_contains_tail hlit ha hempty he).mp (h _ e he hp)
  · intro h k e he hp
    by_cases hprev : ∀ i a, i + 1 = k → rows[i]? = some a → a.data ≠ []
    · exact (hitFrom_iff_contains hlit he hprev).mpr (hcontains e hp)
    · push Not at hprev
      obtain ⟨i, a, rfl, ha, hempty⟩ := hprev
      exact (hitFrom_iff_contains_tail hlit ha hempty he).mpr (h i a e ha he hempty hp)

theorem iterateMatcher_ofRows_iff (hsize : (rows.flatMap Entry.data).length < 2 ^ 32)
    (hm : ∃ f ∈ m.line, f.op = .eq) (hfuel : (rows.flatMap Entry.data).length < fuel) :
    (BinBlock.ofRows rows).iterateMatcher J fuel start stop m =
        .ok (rows.filter (BinBlock.passes J start stop m)) ↔
      ScanAgrees rows (longestLiteral m) (BinBlock.passes J start stop m) := by
  rcases candidates_rows hsize (longestLiteral m) with ⟨hlit, hdata, hnone⟩ | ⟨hdata, hreturns⟩
  · rw [iterateMatcher_eq hm, hnone]
    refine ⟨nofun, fun h => ?_⟩
    rw [ScanAgrees, if_pos hlit] at h
    exact absurd (fun e he => (h e he).1) hdata
  · obtain ⟨ks, hks, hsorted, hlt, hmem⟩ := hreturns fuel hfuel
    rw [iterateMatcher_of_candidates hm hks hlt, Except.ok.injEq,
      filter_map_rowAt_eq_iff hsorted hlt]
    simp only [hmem]
    by_cases hlit : longestLiteral m = []
    · simp only [if_pos hlit]
      rw [hlit]
      exact scanAgrees_of_empty_iff (hdata hlit)
    · simp only [if_neg hlit]
      exact scanAgrees_of_hits_iff hlit fun e => contains_longestLiteral

end Agree

/-- Over a block decoded from encoded rows the scan for a literal returns, and calls back for the
rows of the loop over all rows in their order, exactly when the rows without data are harmless. -/
theorem iterateMatcher_agrees_iff (J : JsonReader) {entries : List Entry} {dst : Bytes}
    {bb : BinBlock} (hdecode : decodeBinBlock (encodeBinBlock entries dst) entries.length = .ok bb)
    (start stop : Int) {m : Matcher} (hm : ∃ f ∈ m.line, f.op = .eq) {fuel : Nat}
    (hfuel : bb.blob.length < fuel) :
    bb.iterateMatcher J fuel start stop m =
        .ok (bb.rows.filter (BinBlock.passes J start stop m)) ↔
      ScanAgrees bb.rows (longestLiteral m) (BinBlock.passes J start stop m) := by
  have hvalid := valid_of_decodeBinBlock hdecode
  have hrows := hvalid.ofRows_rows
  have hblob : bb.rows.flatMap Entry.data = bb.blob := congrArg BinBlock.blob hrows
  have hiff : (BinBlock.ofRows bb.rows).iterateMatcher J fuel start stop m = _ ↔ _ :=
    iterateMatcher_ofRows_iff (hblob ▸ hvalid.size) hm (hblob ▸ hfuel)
  rwa [hrows] at hiff

/-- A matcher with one literal. -/
def literalMatcher (lit : Bytes) : Matcher := ⟨[⟨.eq, lit, none⟩], []⟩

/-- "a", nothing, "zabc". -/
def harmlessRows : List Entry := [⟨1, [97]⟩, ⟨2, []⟩, ⟨3, [122, 97, 98, 99]⟩]

theorem iterateMatcher_agrees_harmless :
    decodeBinBlock (encodeBinBlock harmlessRows []) harmlessRows.length =
        .ok (BinBlock.ofRows harmlessRows) ∧
      (BinBlock.ofRows harmlessRows).iterateMatcher .flat 6 0 9 (literalMatcher [97, 98, 99]) =
        .ok [⟨3, [122, 97, 98, 99]⟩] := by
  have hdecode : decodeBinBlock (encodeBinBlock harmlessRows []) harmlessRows.length =
      .ok (BinBlock.ofRows harmlessRows) := by decide +kernel
  have hagrees : ScanAgrees (BinBlock.ofRows harmlessRows).rows
      (longestLiteral (literalMatcher [97, 98, 99]))
      (BinBlock.passes .flat 0 9 (literalMatcher [97, 98, 99])) := by
    rw [rows_ofRows, ScanAgrees, if_neg (by decide)]
    intro i a e ha he hempty _
    rcases i with _ | _ | i
    · obtain rfl := Option.some.inj ha
      exact absurd hempty (by decide)
    · obtain rfl := Option.some.inj he
      decide
    · cases he
  refine ⟨hdecode, ?_⟩
  rw [(iterateMatcher_agrees_iff .flat hdecode 0 9 (by decide) (by decide)).mpr hagrees]
  decide +kernel

/-- Nothing, "abc". -/
def emptyFirst : List Entry := [⟨1, []⟩, ⟨2, [97, 98, 99]⟩]

/-- The literal at the start of a row behind an empty one is not found, and the scan for the
empty literal never leaves the empty row. -/
theorem literal_scan_misses :
    decodeBinBlock (encodeBinBlock emptyFirst []) emptyFirst.length =
        .ok (BinBlock.ofRows emptyFirst) ∧
      (BinBlock.ofRows emptyFirst).iterateMatcher .flat 4 0 9 (literalMatcher [97, 98, 99]) =
        .ok [] ∧
      (BinBlock.ofRows emptyFirst).rows.filter
        (BinBlock.passes .flat 0 9 (literalMatcher [97, 98, 99])) = [⟨2, [97, 98, 99]⟩] ∧
      ∀ fuel, (BinBlock.ofRows emptyFirst).iterateMatcher .flat fuel 0 9 (literalMatcher []) =
        .error .loops := by
  refine ⟨by decide +kernel, by decide +kernel, by decide +kernel, fun fuel => ?_⟩
  have hloops : (BinBlock.ofRows emptyFirst).candidates (longestLiteral (literalMatcher [])) fuel
      (startOf emptyFirst 0) [] = none :=
    candidates_empty_loops (by decide) (by decide) (by decide) fuel []
  rw [iterateMatcher_eq ⟨_, List.mem_cons_self, rfl⟩, show (0 : Nat) = startOf emptyFirst 0 from rfl,
    hloops]

end Shrimpd.Block
