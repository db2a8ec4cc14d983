import Shrimpd.Lib.Bytes
import Mathlib.Data.List.Pairwise

/-!
# The log directory

Segment files as the log sees them through the file system.  A file's bytes
are split at the last successful fsync: `durable` survives a crash, `tail` may
be cut anywhere.  Files are kept in ascending order of their sequence number,
which is the order `listSegments` returns; the names the files carry on disk
are printed and parsed as the source does.

The element type is a parameter: the log moves opaque units around, and its
users instantiate them with bytes or with whole records.
-/

namespace Shrimpd.Wal

open Shrimpd.Lib

variable {α : Type}

/-! ## Segment files -/

structure Segment (α : Type) where
  seq : Nat
  durable : List α
  tail : List α
  deriving DecidableEq, Repr

namespace Segment

def data (f : Segment α) : List α := f.durable ++ f.tail

def empty (seq : Nat) : Segment α := ⟨seq, [], []⟩

def write (buf : List α) (f : Segment α) : Segment α :=
  { f with tail := f.tail ++ buf }

def sync (f : Segment α) : Segment α :=
  { f with durable := f.durable ++ f.tail, tail := [] }

/-- What a crash leaves: the synced prefix and some prefix of the rest. -/
def crash (keep : Nat) (f : Segment α) : Segment α :=
  { f with durable := f.durable ++ f.tail.take keep, tail := [] }

@[simp] theorem seq_empty (seq : Nat) : (empty seq : Segment α).seq = seq := rfl
@[simp] theorem data_empty (seq : Nat) : (empty seq : Segment α).data = [] := rfl
@[simp] theorem seq_write (buf : List α) (f : Segment α) :
    (f.write buf).seq = f.seq := rfl
@[simp] theorem seq_sync (f : Segment α) : f.sync.seq = f.seq := rfl
@[simp] theorem seq_crash (keep : Nat) (f : Segment α) :
    (f.crash keep).seq = f.seq := rfl
@[simp] theorem durable_write (buf : List α) (f : Segment α) :
    (f.write buf).durable = f.durable := rfl
@[simp] theorem data_write (buf : List α) (f : Segment α) :
    (f.write buf).data = f.data ++ buf := by
  simp [data, write]
@[simp] theorem durable_sync (f : Segment α) : f.sync.durable = f.data := rfl
@[simp] theorem data_sync (f : Segment α) : f.sync.data = f.data := by
  simp [data, sync]
@[simp] theorem durable_crash (keep : Nat) (f : Segment α) :
    (f.crash keep).durable = f.durable ++ f.tail.take keep := rfl
@[simp] theorem data_crash (keep : Nat) (f : Segment α) :
    (f.crash keep).data = f.durable ++ f.tail.take keep := by
  simp [data, crash]

theorem mem_data_of_mem_durable {f : Segment α} {x : α} (hx : x ∈ f.durable) :
    x ∈ f.data := List.mem_append_left _ hx

end Segment

/-! ## Directories -/

/-- The segment files of one log and the pre-segment single-file log, if one
is still there. -/
structure Dir (α : Type) where
  legacy : Option (List α)
  segs : List (Segment α)
  ordered : (segs.map Segment.seq).Pairwise (· < ·)

namespace Dir

def seqs (d : Dir α) : List Nat := d.segs.map Segment.seq

/-- A directory without segments. -/
def fresh (legacy : Option (List α)) : Dir α := ⟨legacy, [], List.Pairwise.nil⟩

private theorem seq_updated (seq : Nat) {f : Segment α → Segment α}
    (hf : ∀ g, (f g).seq = g.seq) :
    Segment.seq ∘ (fun g => if g.seq = seq then f g else g) = Segment.seq := by
  funext g
  by_cases hg : g.seq = seq <;> simp [hg, hf]

/-- Change the contents of segment `seq`. -/
def update (d : Dir α) (seq : Nat) (f : Segment α → Segment α)
    (hf : ∀ g, (f g).seq = g.seq) : Dir α where
  legacy := d.legacy
  segs := d.segs.map fun g => if g.seq = seq then f g else g
  ordered := by
    rw [List.map_map, seq_updated seq hf]
    exact d.ordered

/-- Insert in ascending order; an existing segment of that number stays. -/
def insertSeg (g : Segment α) : List (Segment α) → List (Segment α)
  | [] => [g]
  | h :: hs =>
      if g.seq < h.seq then g :: h :: hs
      else if g.seq = h.seq then h :: hs
      else h :: insertSeg g hs

theorem mem_insertSeg {g x : Segment α} {hs : List (Segment α)}
    (hx : x ∈ insertSeg g hs) : x = g ∨ x ∈ hs := by
  induction hs with
  | nil => exact Or.inl (by simpa [insertSeg] using hx)
  | cons h hs ih =>
      rw [insertSeg] at hx
      split_ifs at hx
      · simpa using hx
      · exact Or.inr hx
      · rcases List.mem_cons.mp hx with hx | hx
        · exact Or.inr (by simp [hx])
        · rcases ih hx with hx | hx
          · exact Or.inl hx
          · exact Or.inr (by simp [hx])

theorem mem_insertSeg_of_mem {g x : Segment α} {hs : List (Segment α)}
    (hx : x ∈ hs) : x ∈ insertSeg g hs := by
  induction hs with
  | nil => simp at hx
  | cons h hs ih =>
      rw [insertSeg]
      split_ifs
      · simp [List.mem_cons.mp hx]
      · exact hx
      · rcases List.mem_cons.mp hx with hx | hx
        · simp [hx]
        · simp [ih hx]

theorem ordered_insertSeg {g : Segment α} {hs : List (Segment α)}
    (hord : (hs.map Segment.seq).Pairwise (· < ·)) :
    ((insertSeg g hs).map Segment.seq).Pairwise (· < ·) := by
  induction hs with
  | nil => simp [insertSeg]
  | cons h hs ih =>
      rw [List.map_cons, List.pairwise_cons] at hord
      rw [insertSeg]
      split_ifs with hlt heq
      · rw [List.map_cons, List.pairwise_cons]
        refine ⟨?_, List.pairwise_cons.mpr hord⟩
        intro seq hseq
        rcases List.mem_cons.mp hseq with rfl | hseq
        · exact hlt
        · exact hlt.trans (hord.1 seq hseq)
      · exact List.pairwise_cons.mpr hord
      · rw [List.map_cons, List.pairwise_cons]
        refine ⟨?_, ih hord.2⟩
        intro seq hseq
        obtain ⟨x, hx, rfl⟩ := List.mem_map.mp hseq
        rcases mem_insertSeg hx with rfl | hx
        · omega
        · exact hord.1 _ (List.mem_map_of_mem hx)

/-- Open a segment with `O_CREATE|O_APPEND`: existing contents stay. -/
def create (d : Dir α) (seq : Nat) : Dir α where
  legacy := d.legacy
  segs := insertSeg (.empty seq) d.segs
  ordered := ordered_insertSeg d.ordered

/-- Delete the segments that `gone` selects. -/
def remove (d : Dir α) (gone : Nat → Bool) : Dir α where
  legacy := d.legacy
  segs := d.segs.filter fun g => !gone g.seq
  ordered := d.ordered.sublist (List.filter_sublist.map _)

/-- Every file cut back by a crash. -/
def crash (d : Dir α) (keep : Nat → Nat) : Dir α where
  legacy := d.legacy
  segs := d.segs.map fun g => g.crash (keep g.seq)
  ordered := by
    rw [List.map_map]
    exact d.ordered

/-- A pre-existing single-file log becomes segment 0, unless that exists. -/
def migrate (d : Dir α) : Dir α :=
  match d.legacy with
  | none => d
  | some old =>
      if 0 ∈ d.seqs then d
      else
        { legacy := none
          segs := insertSeg ⟨0, old, []⟩ d.segs
          ordered := ordered_insertSeg d.ordered }

theorem ext {d e : Dir α} (hlegacy : d.legacy = e.legacy) (hsegs : d.segs = e.segs) :
    d = e := by
  cases d
  cases e
  simp_all

theorem seq_inj {d : Dir α} {f g : Segment α} (hf : f ∈ d.segs) (hg : g ∈ d.segs)
    (hseq : f.seq = g.seq) : f = g := by
  have hnodup : (d.segs.map Segment.seq).Nodup := d.ordered.imp (fun h => h.ne)
  exact List.inj_on_of_nodup_map hnodup hf hg hseq

theorem mem_seqs {d : Dir α} {seq : Nat} :
    seq ∈ d.seqs ↔ ∃ f ∈ d.segs, f.seq = seq := by
  simp [seqs]

theorem mem_update {d : Dir α} {seq : Nat} {f : Segment α → Segment α}
    {hf : ∀ g, (f g).seq = g.seq} {x : Segment α} :
    x ∈ (d.update seq f hf).segs ↔
      ∃ g ∈ d.segs, x = if g.seq = seq then f g else g := by
  simp only [update, List.mem_map, eq_comm]

theorem mem_remove {d : Dir α} {gone : Nat → Bool} {x : Segment α} :
    x ∈ (d.remove gone).segs ↔ x ∈ d.segs ∧ gone x.seq = false := by
  simp [remove]

theorem mem_crash {d : Dir α} {keep : Nat → Nat} {x : Segment α} :
    x ∈ (d.crash keep).segs ↔ ∃ g ∈ d.segs, x = g.crash (keep g.seq) := by
  simp only [crash, List.mem_map, eq_comm]

@[simp] theorem seqs_update (d : Dir α) (seq : Nat) (f : Segment α → Segment α)
    (hf : ∀ g, (f g).seq = g.seq) : (d.update seq f hf).seqs = d.seqs := by
  simp only [seqs, update, List.map_map]
  rw [seq_updated seq hf]

@[simp] theorem seqs_crash (d : Dir α) (keep : Nat → Nat) :
    (d.crash keep).seqs = d.seqs := by
  simp only [seqs, crash, List.map_map]
  rfl

theorem mem_seqs_create {d : Dir α} {seq q : Nat} :
    q ∈ (d.create seq).seqs ↔ q = seq ∨ q ∈ d.seqs := by
  simp only [seqs, create, List.mem_map]
  constructor
  · rintro ⟨f, hf, rfl⟩
    rcases mem_insertSeg hf with rfl | hf
    · exact Or.inl rfl
    · exact Or.inr ⟨f, hf, rfl⟩
  · rintro (rfl | ⟨f, hf, rfl⟩)
    · induction d.segs with
      | nil => exact ⟨.empty q, by simp [insertSeg], rfl⟩
      | cons h hs ih =>
          rw [insertSeg]
          split_ifs with hlt heq
          · exact ⟨.empty q, by simp, rfl⟩
          · exact ⟨h, by simp, heq.symm⟩
          · obtain ⟨f, hf, hseq⟩ := ih
            exact ⟨f, by simp [hf], hseq⟩
    · exact ⟨f, mem_insertSeg_of_mem hf, rfl⟩

theorem insertSeg_of_mem {g : Segment α} {hs : List (Segment α)}
    (hord : (hs.map Segment.seq).Pairwise (· < ·))
    (hmem : g.seq ∈ hs.map Segment.seq) : insertSeg g hs = hs := by
  induction hs with
  | nil => simp at hmem
  | cons h hs ih =>
      rw [List.map_cons, List.pairwise_cons] at hord
      rw [List.map_cons, List.mem_cons] at hmem
      rw [insertSeg]
      rcases hmem with heq | hmem
      · rw [if_neg (by omega), if_pos heq]
      · have hlt := hord.1 _ hmem
        rw [if_neg (by omega), if_neg (by omega), ih hord.2 hmem]

theorem create_of_mem {d : Dir α} {seq : Nat} (hmem : seq ∈ d.seqs) :
    d.create seq = d :=
  ext rfl (insertSeg_of_mem d.ordered hmem)

theorem insertSeg_of_lt {g : Segment α} {hs : List (Segment α)}
    (hlt : ∀ h ∈ hs, h.seq < g.seq) : insertSeg g hs = hs ++ [g] := by
  induction hs with
  | nil => rfl
  | cons h hs ih =>
      have hh := hlt h (by simp)
      rw [insertSeg, if_neg (by omega), if_neg (by omega),
        ih (fun x hx => hlt x (by simp [hx])), List.cons_append]

theorem segs_create_of_lt {d : Dir α} {seq : Nat} (hlt : ∀ q ∈ d.seqs, q < seq) :
    (d.create seq).segs = d.segs ++ [.empty seq] :=
  insertSeg_of_lt fun _ hh => hlt _ (List.mem_map_of_mem hh)

end Dir

/-! ## Names on disk -/

/-- The base name of a segment: `fmt.Sprintf("%s-%06d.jsonl", prefix, seq)`. -/
def segPath (pfx : Bytes) (seq : Nat) : Bytes :=
  pfx ++ ascii "-" ++ paddedDecimal 6 seq ++ ascii ".jsonl"

/-- The name of the single-file log the prefix is derived from. -/
def legacyPath (pfx : Bytes) : Bytes := pfx ++ ascii ".jsonl"

/-- The sequence number in a directory entry's name, if it is a segment's. -/
def parseSegName (pfx name : Bytes) : Option Nat :=
  if (pfx ++ ascii "-").isPrefixOf name && (ascii ".jsonl").isSuffixOf name then
    let mid := name.drop (pfx ++ ascii "-").length
    parseUint (mid.take (mid.length - (ascii ".jsonl").length))
  else none

/-- What `os.ReadDir` lists for the log's own files. -/
def Dir.names (pfx : Bytes) (d : Dir α) : List Bytes :=
  (d.legacy.map fun _ => legacyPath pfx).toList ++ d.seqs.map (segPath pfx)

/-- Sequence numbers of all segments on disk, ascending. -/
def listSegments (pfx : Bytes) (names : List Bytes) : List Nat :=
  (names.filterMap (parseSegName pfx)).insertionSort (· ≤ ·)

theorem parseSegName_segPath (pfx : Bytes) (seq : Nat) :
    parseSegName pfx (segPath pfx seq) = some seq := by
  have hpre : (pfx ++ ascii "-").isPrefixOf (segPath pfx seq) = true := by
    rw [List.isPrefixOf_iff_prefix, segPath, List.append_assoc]
    exact List.prefix_append _ _
  have hsuf : (ascii ".jsonl").isSuffixOf (segPath pfx seq) = true := by
    rw [List.isSuffixOf_iff_suffix, segPath]
    exact List.suffix_append _ _
  have hdrop : (segPath pfx seq).drop (pfx ++ ascii "-").length =
      paddedDecimal 6 seq ++ ascii ".jsonl" := by
    rw [segPath, List.append_assoc, List.drop_left]
  unfold parseSegName
  rw [hpre, hsuf, hdrop]
  simp only [Bool.and_self, if_true, List.length_append, Nat.add_sub_cancel,
    List.take_left]
  exact parseUint_paddedDecimal 6 seq (by omega)

/-- The legacy file is too short to carry a segment's prefix and suffix. -/
theorem parseSegName_legacyPath (pfx : Bytes) :
    parseSegName pfx (legacyPath pfx) = none := by
  unfold parseSegName
  rw [if_neg]
  intro hboth
  rw [Bool.and_eq_true, List.isPrefixOf_iff_prefix] at hboth
  have hpre := hboth.1
  rw [legacyPath, List.prefix_append_right_inj] at hpre
  exact absurd hpre (by decide)

theorem listSegments_names (pfx : Bytes) (d : Dir α) :
    listSegments pfx (d.names pfx) = d.seqs := by
  have hlegacy : (d.legacy.map fun _ => legacyPath pfx).toList.filterMap
      (parseSegName pfx) = [] := by
    cases d.legacy with
    | none => rfl
    | some old => simp [parseSegName_legacyPath]
  have hsegs : (d.seqs.map (segPath pfx)).filterMap (parseSegName pfx) = d.seqs := by
    rw [List.filterMap_map]
    have hcomp : parseSegName pfx ∘ segPath pfx = some := by
      funext seq
      exact parseSegName_segPath pfx seq
    rw [hcomp, List.filterMap_some]
  have hsorted : d.seqs.Pairwise (· ≤ ·) := d.ordered.imp fun h => h.le
  rw [listSegments, Dir.names, List.filterMap_append, hlegacy, hsegs, List.nil_append]
  exact List.Pairwise.insertionSort_eq hsorted

end Shrimpd.Wal
