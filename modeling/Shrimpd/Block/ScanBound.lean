import Shrimpd.Block.LiteralScan
import Shrimpd.Filter.Compile

/-!
# The scan loop ends

A block read from a file may be any that decoding accepts.  Over such a block the
scan for a literal moves on with every hit, except where the empty literal is
found in a row without data; and it takes a row at most once.  A block without
rows may still have data, and then a hit is ascribed to a row that does not exist.
-/

namespace Shrimpd.Block

open Shrimpd.Lib Shrimpd.Types Shrimpd.Filter

/-- Without rows, no hit in the data; otherwise no data behind a row without data, should the
literal be empty. -/
def ScanStops (bb : BinBlock) (lit : Bytes) : Prop :=
  if bb.ts = [] then bb.blob = [] ∨ contains bb.blob lit = false
  else lit = [] → ∀ e ∈ bb.rows.drop (leading bb.rows), e.data = []

/-- The loop ends, with at most as many candidates as rows. -/
def Bounded (bb : BinBlock) (lit : Bytes) : Prop :=
  ∃ fuel ks, bb.candidates lit fuel 0 [] = some ks ∧ ks.length ≤ bb.ts.length

section Rowless

variable {bb : BinBlock} {lit : Bytes}

theorem rowOf_rowless (hts : bb.ts = []) (pos : Nat) : bb.rowOf pos = -1 := by
  rw [BinBlock.rowOf, hts]
  exact if_pos (Nat.zero_le _)

/-- A hit in data without rows is the only candidate. -/
theorem candidates_rowless (hdecoded : bb.Decoded) (hts : bb.ts = [])
    (hlt : 0 < bb.blob.length) {i : Nat} (hindex : indexOf bb.blob lit = some i) (fuel : Nat) :
    bb.candidates lit (fuel + 2) 0 [] = some [-1] := by
  have hlast : bb.offsets.getD 0 0 = bb.blob.length := by
    have := hdecoded.last
    rw [hts] at this
    exact this.symm
  obtain ⟨hpre, hle, -⟩ := indexOf_eq_some hindex
  have hfits := hpre.length_le
  rw [List.length_drop] at hfits
  rw [BinBlock.candidates, if_pos hlt, List.drop_zero, hindex]
  simp only [rowOf_rowless hts]
  rw [show ((-1 : Int) + 1).toNat = 0 from rfl, hlast, if_pos (by omega), BinBlock.candidates,
    if_neg (lt_irrefl _)]
  rfl

theorem bounded_rowless_iff (hdecoded : bb.Decoded) (hts : bb.ts = []) :
    Bounded bb lit ↔ bb.blob = [] ∨ contains bb.blob lit = false := by
  constructor
  · rintro ⟨fuel, ks, hks, hlen⟩
    by_contra hnot
    push Not at hnot
    obtain ⟨hblob, hcontains⟩ := hnot
    rw [ne_eq, Bool.not_eq_false, contains, decide_eq_true_eq, infix_iff_exists_drop] at hcontains
    have hlt := List.length_pos_iff.mpr hblob
    cases hindex : indexOf bb.blob lit with
    | none =>
        obtain ⟨o, ho⟩ := hcontains
        rcases le_or_gt o bb.blob.length with hle | hgt
        · exact indexOf_eq_none hindex hle ho
        · -- behind the data only the empty literal is found, and that at the end too
          rw [List.drop_eq_nil_of_le hgt.le] at ho
          refine indexOf_eq_none hindex le_rfl ?_
          rwa [List.drop_length]
    | some i =>
        rcases fuel with _ | _ | fuel
        · cases hks
        · rw [BinBlock.candidates, if_pos hlt, List.drop_zero, hindex] at hks
          simp only [BinBlock.candidates] at hks
          split_ifs at hks
        · rw [candidates_rowless hdecoded hts hlt hindex] at hks
          obtain rfl := Option.some.inj hks
          rw [hts] at hlen
          exact absurd hlen (by decide)
  · rintro (hblob | hcontains)
    · exact ⟨1, [], by rw [BinBlock.candidates, hblob]; rfl, Nat.zero_le _⟩
    · refine ⟨1, [], ?_, Nat.zero_le _⟩
      rw [contains, decide_eq_false_iff_not, infix_iff_exists_drop] at hcontains
      have hnone : indexOf (bb.blob.drop 0) lit = none := by
        rw [List.drop_zero]
        cases hindex : indexOf bb.blob lit with
        | none => rfl
        | some i => exact absurd ⟨i, (indexOf_eq_some hindex).1⟩ hcontains
      rw [BinBlock.candidates, hnone]
      exact ite_self _

end Rowless

theorem bounded_ofRows_iff {rows : List Entry}
    (hsize : (rows.flatMap Entry.data).length < 2 ^ 32) (lit : Bytes) :
    Bounded (BinBlock.ofRows rows) lit ↔
      (lit = [] → ∀ e ∈ rows.drop (leading rows), e.data = []) := by
  rcases candidates_rows hsize lit with ⟨hlit, hdata, hnone⟩ | ⟨hstops, hreturns⟩
  · constructor
    · rintro ⟨fuel, ks, hks, -⟩
      rw [hnone fuel] at hks
      cases hks
    · intro h
      exact absurd (h hlit) hdata
  · refine ⟨fun _ => hstops, fun _ => ?_⟩
    obtain ⟨ks, hks, hsorted, hlt, -⟩ := hreturns _ (Nat.lt_succ_self _)
    refine ⟨_, _, hks, ?_⟩
    have hlen := (sublist_map_rowAt hsorted hlt).length_le
    rw [List.length_map] at hlen
    rw [List.length_map, BinBlock.ofRows, List.length_map]
    exact hlen

theorem bounded_iff {bb : BinBlock} (hdecoded : bb.Decoded) (lit : Bytes) :
    Bounded bb lit ↔ ScanStops bb lit := by
  rw [ScanStops]
  split_ifs with hts
  · exact bounded_rowless_iff hdecoded hts
  · have hvalid := hdecoded.valid (List.length_pos_iff.mpr hts)
    have hrows := hvalid.ofRows_rows
    have hblob : bb.rows.flatMap Entry.data = bb.blob := congrArg BinBlock.blob hrows
    have hiff := bounded_ofRows_iff (hblob ▸ hvalid.size) lit
    rwa [hrows] at hiff

section Loop

variable {J : JsonReader} {fuel : Nat} {start stop : Int} {m : Matcher} {bb : BinBlock}

theorem mapM_row_ne_loops (ks : List Int) : ks.mapM bb.row ≠ .error .loops := by
  induction ks with
  | nil =>
      intro h
      cases h
  | cons k ks ih =>
      rw [List.mapM_cons]
      have hrow : bb.row k ≠ .error .loops := by
        rw [BinBlock.row]
        split_ifs
        · intro h
          cases h
        · split
          all_goals
            intro h
            cases h
      cases hk : bb.row k with
      | error err =>
          intro h
          rw [hk, Except.error.inj h] at hrow
          exact hrow rfl
      | ok e =>
          cases hks : ks.mapM bb.row with
          | error err =>
              intro h
              rw [hks, Except.error.inj h] at ih
              exact ih rfl
          | ok rows =>
              intro h
              cases h

/-- Only the scan can keep the call from returning. -/
theorem iterateMatcher_loops_iff (hm : ∃ f ∈ m.line, f.op = .eq) :
    bb.iterateMatcher J fuel start stop m = .error .loops ↔
      bb.candidates (longestLiteral m) fuel 0 [] = none := by
  rw [iterateMatcher_eq hm]
  cases hks : bb.candidates (longestLiteral m) fuel 0 [] with
  | none => exact ⟨fun _ => rfl, fun _ => rfl⟩
  | some ks =>
      refine ⟨fun h => ?_, nofun⟩
      have hrows : ks.mapM bb.row ≠ .error .loops := mapM_row_ne_loops ks
      cases hmap : ks.mapM bb.row with
      | error err =>
          simp only [hmap] at h
          rw [hmap, Except.error.inj h] at hrows
          exact absurd rfl hrows
      | ok rows =>
          simp only [hmap] at h
          cases h

end Loop

/-- Over every block that decoding accepts, the call returns from its scan, with no more
candidates than the block has rows, just when the rows or the literal let it. -/
theorem literal_scan_bounded_iff {buf : Bytes} {count : Int} {bb : BinBlock}
    (hdecode : decodeBinBlock buf count = .ok bb) {m : Matcher} (hm : ∃ f ∈ m.line, f.op = .eq) :
    (∃ fuel, (∀ J start stop, bb.iterateMatcher J fuel start stop m ≠ .error .loops) ∧
        ∀ ks, bb.candidates (longestLiteral m) fuel 0 [] = some ks → ks.length ≤ bb.ts.length) ↔
      ScanStops bb (longestLiteral m) := by
  rw [← bounded_iff (decoded_of_decodeBinBlock hdecode).1, Bounded]
  refine exists_congr fun fuel => ?_
  constructor
  · rintro ⟨hreturns, hlen⟩
    have hsome := hreturns .flat 0 0
    rw [Ne, iterateMatcher_loops_iff hm] at hsome
    obtain ⟨ks, hks⟩ := Option.ne_none_iff_exists'.mp hsome
    exact ⟨ks, hks, hlen ks hks⟩
  · rintro ⟨ks, hks, hlen⟩
    refine ⟨fun J start stop hloops => ?_, fun ks' hks' => ?_⟩
    · rw [iterateMatcher_loops_iff hm, hks] at hloops
      cases hloops
    · rw [hks] at hks'
      obtain rfl := Option.some.inj hks'
      exact hlen

/-- Rows with data before rows without: the empty literal takes the former. -/
theorem literal_scan_bounded_trailing :
    ∃ fuel, (∀ J start stop,
        (BinBlock.ofRows [⟨1, [97]⟩, ⟨2, []⟩]).iterateMatcher J fuel start stop (literalMatcher []) ≠
          .error .loops) ∧
      ∀ ks, (BinBlock.ofRows [⟨1, [97]⟩, ⟨2, []⟩]).candidates
        (longestLiteral (literalMatcher [])) fuel 0 [] = some ks → ks.length ≤ 2 := by
  have hdecode : decodeBinBlock (encodeBinBlock [⟨1, [97]⟩, ⟨2, []⟩] []) 2 =
      .ok (BinBlock.ofRows [⟨1, [97]⟩, ⟨2, []⟩]) := by decide +kernel
  refine (literal_scan_bounded_iff hdecode ⟨_, List.mem_cons_self, rfl⟩).mpr ?_
  rw [ScanStops, if_neg (by decide), rows_ofRows]
  decide

/-- For two rows that a client may send, the second with data, the scan for the empty literal
goes on forever; in a block of no rows but one byte of data it takes a row. -/
theorem empty_literal_loops :
    compileMatcher xStarLib [⟨.eq, [], none⟩] [] = .ok (literalMatcher []) ∧
      decodeBinBlock (encodeBinBlock emptyFirst []) emptyFirst.length =
        .ok (BinBlock.ofRows emptyFirst) ∧
      (∀ fuel, (BinBlock.ofRows emptyFirst).iterateMatcher .flat fuel 0 9 (literalMatcher []) =
        .error .loops) ∧
      decodeBinBlock [1, 0, 0, 0, 97] 0 = .ok ⟨[], [1], [97]⟩ ∧
      (⟨[], [1], [97]⟩ : BinBlock).candidates [97] 2 0 [] = some [-1] := by
  refine ⟨rfl, by decide +kernel, fun fuel => ?_, by decide +kernel, by decide +kernel⟩
  have hloops : (BinBlock.ofRows emptyFirst).candidates (longestLiteral (literalMatcher [])) fuel
      (startOf emptyFirst 0) [] = none :=
    candidates_empty_loops (by decide) (by decide) (by decide) fuel []
  exact (iterateMatcher_loops_iff ⟨_, List.mem_cons_self, rfl⟩).mpr hloops

end Shrimpd.Block
