import Shrimpd.Lib.Lines
import Shrimpd.Wal.SegLog

/-!
# Recovery

`forEachLine` and `Recover`: drain the pending batch, scan every segment oldest
first, decode what decodes.  The second half compares a log of whole records
with the log of the bytes they are written as: operations that never tear a
batch act the same on both, so what is proved about records holds of the files.
-/

namespace Shrimpd.Wal

open Shrimpd.Lib

/-- `4 << 20`, the buffer handed to the scanner. -/
def scannerLimit : Nat := 4194304

theorem scannerLimit_pos : 0 < scannerLimit := by decide

/-! ## Reading the segments -/

/-- The contents of segment `seq`, if there is one. -/
def Dir.contents {α : Type} (d : Dir α) (seq : Nat) : Option (List α) :=
  (d.segs.find? fun f => f.seq == seq).map Segment.data

/-- The nonempty lines of the listed segments, in order.  A segment that is
gone is passed over; a failed open or an oversized line ends the scan. -/
def readSegments (opens : Nat → Bool) (d : Dir UInt8) : List Nat → Except IOErr (List Bytes)
  | [] => .ok []
  | seq :: seqs =>
      match d.contents seq with
      | none => readSegments opens d seqs
      | some data =>
          if opens seq then
            match scanLines scannerLimit [] data with
            | none => .error .tooLong
            | some ls =>
                (readSegments opens d seqs).map ((ls.filter fun l => !l.isEmpty) ++ ·)
          else .error .openFile

namespace SegLog

def forEachLine (io : BatchIO) (opens : Nat → Bool) (s : SegLog UInt8) :
    SegLog UInt8 × Except IOErr (List Bytes) :=
  match s.flushPending io with
  | (s, some err) => (s, .error err)
  | (s, none) => (s, readSegments opens s.dir (listSegments s.pfx (s.dir.names s.pfx)))

/-- `Recover`: lines that do not decode are skipped. -/
def recover {ρ : Type} (c : LineCodec ρ) (io : BatchIO) (opens : Nat → Bool)
    (s : SegLog UInt8) : SegLog UInt8 × Except IOErr (List ρ) :=
  match s.forEachLine io opens with
  | (s, lines) => (s, lines.map fun ls => ls.filterMap c.decode)

end SegLog

theorem Dir.contents_of_mem {α : Type} {d : Dir α} {f : Segment α} (hf : f ∈ d.segs) :
    d.contents f.seq = some f.data := by
  unfold contents
  cases hfind : d.segs.find? fun g => g.seq == f.seq with
  | none =>
      have hnone := List.find?_eq_none.mp hfind f hf
      simp at hnone
  | some g =>
      have hg : g ∈ d.segs := List.mem_of_find?_eq_some hfind
      have hseq : g.seq = f.seq := by
        have := List.find?_some hfind
        simpa using this
      rw [Dir.seq_inj hg hf hseq, Option.map_some]

section Reading

variable {ρ : Type} {c : LineCodec ρ} {read : Segment UInt8 → List ρ}

/-- Segments that each read back give the concatenation. -/
theorem readSegments_map {d : Dir UInt8} {fs : List (Segment UInt8)}
    (hmem : ∀ f ∈ fs, f ∈ d.segs)
    (hread : ∀ f ∈ fs, c.read scannerLimit f.data = some (read f)) :
    (readSegments (fun _ => true) d (fs.map Segment.seq)).map
        (fun ls => ls.filterMap c.decode) = .ok (fs.flatMap read) := by
  induction fs with
  | nil => rfl
  | cons f fs ih =>
      have hrest := ih (fun g hg => hmem g (by simp [hg])) (fun g hg => hread g (by simp [hg]))
      have hf := hread f (by simp)
      rw [List.map_cons, readSegments, Dir.contents_of_mem (hmem f (by simp))]
      rw [LineCodec.read] at hf
      cases hscan : scanLines scannerLimit [] f.data with
      | none => simp [hscan] at hf
      | some ls =>
          rw [hscan, Option.map_some, Option.some.injEq] at hf
          cases htail : readSegments (fun _ => true) d (fs.map Segment.seq) with
          | error err => simp [htail, Except.map] at hrest
          | ok tail =>
              simp only [htail, Except.map, Except.ok.injEq] at hrest
              simp only [hscan, if_true, Except.map, List.filterMap_append, hf, hrest,
                List.flatMap_cons]

/-- Recovery of an idle log is the concatenation of its segments. -/
theorem SegLog.recover_of_read {s : SegLog UInt8} (hcur : s.cur = none)
    (hread : ∀ f ∈ s.dir.segs, c.read scannerLimit f.data = some (read f)) :
    s.recover c .good (fun _ => true) = (s, .ok (s.dir.segs.flatMap read)) := by
  have hmap := readSegments_map (d := s.dir) (fun _ hf => hf) hread
  unfold recover forEachLine flushPending
  rw [hcur]
  simp only [listSegments_names]
  exact Prod.ext rfl hmap

end Reading

/-! ## Records and their bytes -/

section Expand

variable {α β : Type} (f : α → List β)

def Segment.expand (g : Segment α) : Segment β :=
  ⟨g.seq, g.durable.flatMap f, g.tail.flatMap f⟩

@[simp] theorem Segment.seq_expand (g : Segment α) : (g.expand f).seq = g.seq := rfl

@[simp] theorem Segment.data_expand (g : Segment α) : (g.expand f).data = g.data.flatMap f := by
  simp [Segment.expand, Segment.data]

def Dir.expand (d : Dir α) : Dir β where
  legacy := d.legacy.map fun old => old.flatMap f
  segs := d.segs.map (Segment.expand f)
  ordered := by
    rw [List.map_map]
    exact d.ordered

def SegLog.expand (s : SegLog α) : SegLog β where
  pfx := s.pfx
  dir := s.dir.expand f
  active := s.active
  activeSeq := s.activeSeq
  pending := s.pending.flatMap f
  cur := s.cur
  commits := s.commits

/-- A segment write appends the whole batch or nothing. -/
def BatchIO.Whole (io : BatchIO) : Prop := io.torn = none ∨ io.torn = some 0

theorem BatchIO.whole_good : BatchIO.good.Whole := Or.inl rfl

namespace Dir

@[simp] theorem seqs_expand (d : Dir α) : (d.expand f).seqs = d.seqs := by
  simp only [seqs, expand, List.map_map]
  rfl

@[simp] theorem names_expand (d : Dir α) (pfx : Bytes) :
    (d.expand f).names pfx = d.names pfx := by
  simp only [names, seqs_expand]
  cases h : d.legacy <;> simp [expand, h]

theorem expand_update (d : Dir α) (seq : Nat) {g : Segment α → Segment α}
    {g' : Segment β → Segment β} (hg : ∀ x, (g x).seq = x.seq) (hg' : ∀ x, (g' x).seq = x.seq)
    (hcomm : ∀ x, (g x).expand f = g' (x.expand f)) :
    (d.update seq g hg).expand f = (d.expand f).update seq g' hg' := by
  refine Dir.ext (by rfl) ?_
  simp only [update, expand, List.map_map]
  congr 1
  funext x
  by_cases hx : x.seq = seq <;> simp [hx, hcomm]

theorem map_insertSeg (g : Segment α) (gs : List (Segment α)) :
    (insertSeg g gs).map (Segment.expand f) = insertSeg (g.expand f) (gs.map (Segment.expand f)) := by
  induction gs with
  | nil => rfl
  | cons h hs ih =>
      rw [List.map_cons, insertSeg, insertSeg, Segment.seq_expand, Segment.seq_expand]
      by_cases hlt : g.seq < h.seq
      · rw [if_pos hlt, if_pos hlt]
        rfl
      · rw [if_neg hlt, if_neg hlt]
        by_cases heq : g.seq = h.seq
        · rw [if_pos heq, if_pos heq]
          rfl
        · rw [if_neg heq, if_neg heq, List.map_cons, ih]

theorem expand_create (d : Dir α) (seq : Nat) :
    (d.create seq).expand f = (d.expand f).create seq :=
  Dir.ext rfl (map_insertSeg f _ _)

theorem expand_remove (d : Dir α) (gone : Nat → Bool) :
    (d.remove gone).expand f = (d.expand f).remove gone := by
  refine Dir.ext (by rfl) ?_
  simp only [remove, expand, List.filter_map]
  rfl

theorem expand_migrate (d : Dir α) : d.migrate.expand f = (d.expand f).migrate := by
  unfold migrate
  cases hlegacy : d.legacy with
  | none => simp [expand, hlegacy]
  | some old =>
      have hlegacy' : (d.expand f).legacy = some (old.flatMap f) := by simp [expand, hlegacy]
      simp only [hlegacy', seqs_expand]
      split_ifs
      · rfl
      · exact Dir.ext rfl (map_insertSeg f ⟨0, old, []⟩ d.segs)

end Dir

namespace SegLog

theorem expand_updateActive (s : SegLog α) {g : Segment α → Segment α}
    {g' : Segment β → Segment β} (hg : ∀ x, (g x).seq = x.seq) (hg' : ∀ x, (g' x).seq = x.seq)
    (hcomm : ∀ x, (g x).expand f = g' (x.expand f)) :
    (s.updateActive g hg).expand f = (s.expand f).updateActive g' hg' := by
  simp only [updateActive, expand]
  rw [Dir.expand_update f s.dir s.activeSeq hg hg' hcomm]

theorem expand_write {torn : Option Nat} (htorn : torn = none ∨ torn = some 0) (buf : List α)
    (s : SegLog α) :
    (s.expand f).write torn (buf.flatMap f) = ((s.write torn buf).1.expand f, (s.write torn buf).2) := by
  have hcomm : ∀ (b : List α) (x : Segment α),
      (x.write b).expand f = (x.expand f).write (b.flatMap f) := by
    intro b x
    simp [Segment.write, Segment.expand]
  unfold write
  by_cases hactive : s.active
  · rw [if_pos hactive, if_pos (show (s.expand f).active from hactive)]
    rcases htorn with rfl | rfl
    · dsimp only
      rw [expand_updateActive f s _ (Segment.seq_write _) (hcomm buf)]
    · dsimp only
      simp only [List.take_zero]
      rw [expand_updateActive f s _ (Segment.seq_write _) (hcomm [])]
      rfl
  · rw [if_neg hactive, if_neg (show ¬(s.expand f).active from hactive)]

theorem expand_fsync (synced : Bool) (s : SegLog α) :
    (s.expand f).fsync synced = ((s.fsync synced).1.expand f, (s.fsync synced).2) := by
  have hcomm : ∀ x : Segment α, x.sync.expand f = (x.expand f).sync := by
    intro x
    simp [Segment.sync, Segment.expand]
  unfold fsync
  by_cases hactive : s.active
  · rw [if_pos hactive, if_pos (show (s.expand f).active from hactive)]
    cases synced
    · rfl
    · simp only [if_true]
      rw [expand_updateActive f s _ Segment.seq_sync hcomm]
  · rw [if_neg hactive, if_neg (show ¬(s.expand f).active from hactive)]

theorem expand_writeSync {io : BatchIO} (hio : io.Whole) (buf : List α) (s : SegLog α) :
    (s.expand f).writeSync io (buf.flatMap f) =
      ((s.writeSync io buf).1.expand f, (s.writeSync io buf).2) := by
  unfold writeSync
  rw [expand_write f hio]
  rcases s.write io.torn buf with ⟨t, _ | err⟩
  · exact expand_fsync f io.synced t
  · rfl

theorem expand_flushPending {io : BatchIO} (hio : io.Whole) (s : SegLog α) :
    (s.expand f).flushPending io =
      ((s.flushPending io).1.expand f, (s.flushPending io).2) := by
  unfold flushPending
  cases hcur : s.cur with
  | none => simp [expand, hcur]
  | some batch =>
      have hcur' : (s.expand f).cur = some batch := hcur
      have htake : (s.expand f).takePending = s.takePending.expand f := rfl
      simp only [hcur', htake]
      rw [show (s.expand f).pending = s.pending.flatMap f from rfl, expand_writeSync f hio]
      rfl

theorem expand_enqueue (buf : List α) (s : SegLog α) :
    (s.expand f).enqueue (buf.flatMap f) = ((s.enqueue buf).1.expand f, (s.enqueue buf).2) := by
  unfold enqueue
  cases hcur : s.cur with
  | none => simp [expand, hcur]
  | some c => simp [expand, hcur]

theorem expand_commitWait {io : BatchIO} (hio : io.Whole) (c : Nat) (s : SegLog α) :
    (s.expand f).commitWait io c = ((s.commitWait io c).1.expand f, (s.commitWait io c).2) := by
  have hdone : (s.expand f).isDone c = s.isDone c := rfl
  unfold commitWait
  rw [hdone, expand_flushPending f hio]
  by_cases h : s.isDone c
  · rw [if_pos h, if_pos h]
    rfl
  · rw [if_neg h, if_neg h]
    rcases s.flushPending io with ⟨t, _ | err⟩ <;> rfl

theorem expand_append {io : BatchIO} (hio : io.Whole) (buf : List α) (s : SegLog α) :
    (s.expand f).append io (buf.flatMap f) = ((s.append io buf).1.expand f, (s.append io buf).2) := by
  unfold append
  rw [expand_enqueue]
  exact expand_commitWait f hio _ _

theorem expand_rotate (io : SealIO) (s : SegLog α) :
    (s.expand f).rotate io = ((s.rotate io).1.expand f, (s.rotate io).2) := by
  have hactive : (s.expand f).active = s.active := rfl
  have hcreate : ∀ seq, (s.expand f).dir.create seq = (s.dir.create seq).expand f :=
    fun seq => (Dir.expand_create f s.dir seq).symm
  unfold rotate
  simp only [hactive, hcreate]
  split_ifs <;> rfl

theorem expand_sealSegment {io : SealIO} (hio : io.batch.Whole) (s : SegLog α) :
    (s.expand f).sealSegment io = ((s.sealSegment io).1.expand f, (s.sealSegment io).2) := by
  unfold sealSegment
  rw [expand_flushPending f hio]
  rcases s.flushPending io.batch with ⟨t, _ | err⟩
  · exact expand_rotate f io t
  · rfl

theorem expand_discard (removes : Nat → Bool) (dirSynced : Bool) (upto : Nat) (s : SegLog α) :
    (s.expand f).discard removes dirSynced upto =
      ((s.discard removes dirSynced upto).1.expand f, (s.discard removes dirSynced upto).2) := by
  have hlist : (s.expand f).discardable upto = s.discardable upto := by
    simp [discardable, expand]
  unfold discard
  simp only [hlist]
  have hremove : ∀ gone : Nat → Bool,
      { s.expand f with dir := (s.expand f).dir.remove gone } =
        ({ s with dir := s.dir.remove gone } : SegLog α).expand f := by
    intro gone
    simp only [expand]
    rw [Dir.expand_remove]
  rw [hremove]
  split_ifs <;> rfl

theorem expand_close {io : BatchIO} (hio : io.Whole) (closed : Bool) (s : SegLog α) :
    (s.expand f).close io closed = ((s.close io closed).1.expand f, (s.close io closed).2) := by
  unfold close
  rw [expand_flushPending f hio]
  rfl

end SegLog

theorem expand_openSegLog (pfx : Bytes) (d : Dir α) :
    openSegLog pfx (d.expand f) = (openSegLog pfx d).expand f := by
  unfold openSegLog SegLog.expand
  simp only [← Dir.expand_migrate, Dir.names_expand, ← Dir.expand_create, List.flatMap_nil]

end Expand

/-- Recovering the bytes of an idle log of records returns the records. -/
theorem SegLog.recover_expand {ρ : Type} {c : LineCodec ρ} (hc : c.Lawful) {s : SegLog ρ}
    (hcur : s.cur = none) (hshort : ∀ f ∈ s.dir.segs, c.Short scannerLimit f.data) :
    (s.expand c.line).recover c .good (fun _ => true) =
      (s.expand c.line, .ok (s.dir.segs.flatMap Segment.data)) := by
  have hread : ∀ g ∈ (s.expand c.line).dir.segs,
      c.read scannerLimit g.data =
        some (((c.read scannerLimit g.data)).getD []) := by
    intro g hg
    obtain ⟨f, hf, rfl⟩ := List.mem_map.mp hg
    rw [Segment.data_expand]
    have hlines := LineCodec.read_lines hc (hshort f hf)
    rw [LineCodec.lines] at hlines
    rw [hlines, Option.getD_some]
  have hcur' : (s.expand c.line).cur = none := hcur
  rw [SegLog.recover_of_read hcur' hread]
  have hsegs : (s.expand c.line).dir.segs = s.dir.segs.map (Segment.expand c.line) := rfl
  rw [hsegs, List.flatMap_map]
  congr 2
  apply List.flatMap_congr
  intro f hf
  have hlines := LineCodec.read_lines hc (hshort f hf)
  rw [LineCodec.lines] at hlines
  rw [Segment.data_expand, hlines, Option.getD_some]

end Shrimpd.Wal
