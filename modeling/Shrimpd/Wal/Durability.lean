import Shrimpd.Lib.Exec
import Shrimpd.Wal.JsonLine
import Shrimpd.Wal.Recover

/-!
# Durability across torn writes

Runs of `Append`, `Seal` and `Discard` in which any system call may fail, with
crashes followed by `OpenWAL` on the same directory.  A failed write leaves a
prefix of its batch in the file and a crash keeps a prefix of what was not
synced, so the active segment may end in a fragment.  Nothing truncates it:
the next batch is appended to the fragment and its first record is read as part
of one corrupt line.  As long as no batch is written behind a fragment, every
acknowledged entry is recovered.
-/

namespace Shrimpd.Wal

open Shrimpd.Lib Shrimpd.Lib.Exec Shrimpd.Types

/-! ## Appending to an idle log -/

/-- Whatever the outcome, `Append` on an idle log leaves it idle, and its
effect on the files is that of the write and the sync. -/
theorem SegLog.append_idle {α : Type} {s : SegLog α} (hcur : s.cur = none)
    (hpending : s.pending = []) (io : BatchIO) (buf : List α) :
    ∃ commits, s.append io buf =
      ({ s with dir := (s.writeSync io buf).1.dir, commits := commits },
        (s.writeSync io buf).2) := by
  obtain ⟨torn, synced⟩ := io
  have hdone : (({ s with
      cur := some s.commits.length
      commits := s.commits ++ [⟨false, none⟩]
      pending := s.pending ++ buf } : SegLog α).isDone s.commits.length) = false := by
    simp [SegLog.isDone]
  unfold SegLog.append SegLog.enqueue
  simp only [hcur]
  unfold SegLog.commitWait
  rw [hdone]
  by_cases hactive : s.active
  · cases torn with
    | some k =>
        simp [SegLog.flushPending, SegLog.takePending, SegLog.writeSync, SegLog.write,
          SegLog.updateActive, SegLog.resolve, hactive, hpending, hcur]
    | none =>
        cases synced <;>
          simp [SegLog.flushPending, SegLog.takePending, SegLog.writeSync, SegLog.write,
            SegLog.fsync, SegLog.updateActive, SegLog.resolve, SegLog.errOf, hactive,
            hpending, hcur]
  · simp [SegLog.flushPending, SegLog.takePending, SegLog.writeSync, SegLog.write,
      SegLog.resolve, hactive, hpending]

theorem flatMap_sublist {ι β : Type} {f g : ι → List β} {l : List ι}
    (h : ∀ x ∈ l, (f x).Sublist (g x)) : (l.flatMap f).Sublist (l.flatMap g) := by
  induction l with
  | nil => exact List.Sublist.refl _
  | cons x l ih =>
      rw [List.flatMap_cons, List.flatMap_cons]
      exact (h x (by simp)).append (ih fun y hy => h y (by simp [hy]))

namespace Durability

/-! ## Runs -/

structure State where
  log : SegLog UInt8
  /-- Entries whose `Append` returned nil, with the segment they went to. -/
  acked : List (Nat × Entry)

inductive Label where
  | append (es : List Entry) (io : BatchIO)
  | sealSegment (io : SealIO)
  | discard (removes : Nat → Bool) (dirSynced : Bool) (upto : Nat)
  /-- The unsynced bytes of segment `q` are cut to `keep q`, then `OpenWAL`. -/
  | crash (keep : Nat → Nat)

def start (pfx : Bytes) : State := ⟨openSegLog pfx (Dir.fresh none), []⟩

def step (c : LineCodec Entry) (s : State) : Label → Option State
  | .append es io =>
      match s.log.append io (c.lines es) with
      | (log, none) => some ⟨log, s.acked ++ es.map fun e => (s.log.activeSeq, e)⟩
      | (log, some _) => some { s with log := log }
  | .sealSegment io => some { s with log := (s.log.sealSegment io).1 }
  | .discard removes dirSynced upto =>
      some { s with log := (s.log.discard removes dirSynced upto).1 }
  | .crash keep => some { s with log := openSegLog s.log.pfx (s.log.dir.crash keep) }

/-- Acknowledged entries of segment `q`, in append order. -/
def ackedIn (s : State) (q : Nat) : List Entry :=
  (s.acked.filter fun p => p.1 == q).map Prod.snd

/-- Every acknowledged entry of a segment that was not discarded is recovered,
as often as it was acknowledged and in order. -/
def Durable (c : LineCodec Entry) (s : State) : Prop :=
  ∃ es, (s.log.recover c .good fun _ => true).2 = .ok es ∧
    (s.log.dir.seqs.flatMap (ackedIn s)).Sublist es

/-- Records fit the scanner's buffer and are written behind a whole line. -/
def Ok (c : LineCodec Entry) (s : State) : Label → Prop
  | .append es _ => c.Short scannerLimit es ∧
      (es = [] ∨ LineCodec.Clean ((s.log.dir.contents s.log.activeSeq).getD []))
  | _ => True

/-! ## One segment -/

variable {c : LineCodec Entry}

/-- The file is whole records and a fragment, and the records of `rs` are among
those that are on disk for good. -/
def SegOk (c : LineCodec Entry) (rs : List Entry) (f : Segment UInt8) : Prop :=
  (∃ all, c.Shaped scannerLimit all f.data ∧ c.Short scannerLimit all) ∧
    ∃ ds, c.lines ds <+: f.durable ∧ rs.Sublist ds

theorem segOk_empty (q : Nat) : SegOk c [] (Segment.empty q) :=
  ⟨⟨[], LineCodec.shaped_lines scannerLimit_pos [], by simp [LineCodec.Short]⟩,
    [], by simp, by simp⟩

namespace SegOk

variable {rs : List Entry} {f : Segment UInt8}

theorem sync (h : SegOk c rs f) : SegOk c rs f.sync := by
  obtain ⟨⟨all, hshaped, hshort⟩, ds, hds, hsub⟩ := h
  refine ⟨⟨all, by simpa using hshaped, hshort⟩, ds, ?_, hsub⟩
  rw [Segment.durable_sync, Segment.data]
  exact hds.trans (List.prefix_append _ _)

theorem crash (hc : c.Lawful) (h : SegOk c rs f) (keep : Nat) : SegOk c rs (f.crash keep) := by
  obtain ⟨⟨all, hshaped, hshort⟩, ds, hds, hsub⟩ := h
  have hcut : (f.crash keep).data = f.data.take (f.durable.length + keep) := by
    rw [Segment.data_crash, Segment.data, List.take_length_add_append]
  obtain ⟨m, hm⟩ := hshaped.take hc hshort (f.durable.length + keep)
  refine ⟨⟨all.take m, by rw [hcut]; exact hm, ?_⟩, ds, ?_, hsub⟩
  · exact hshort.of_subset fun r hr => List.mem_of_mem_take hr
  · rw [Segment.durable_crash]
    exact hds.trans (List.prefix_append _ _)

/-- Part of a batch behind whole lines. -/
theorem write (hc : c.Lawful) (h : SegOk c rs f) {es : List Entry}
    (hes : c.Short scannerLimit es) (hclean : es = [] ∨ LineCodec.Clean f.data) {buf : Bytes}
    (hbuf : buf = c.lines es ∨ ∃ k, buf = (c.lines es).take k) : SegOk c rs (f.write buf) := by
  obtain ⟨⟨all, hshaped, hshort⟩, ds, hds, hsub⟩ := h
  obtain ⟨k, rfl⟩ : ∃ k, buf = (c.lines es).take k := by
    rcases hbuf with rfl | hk
    · exact ⟨_, (List.take_length).symm⟩
    · exact hk
  refine ⟨?_, ds, by simpa using hds, hsub⟩
  rcases hclean with rfl | hclean
  · exact ⟨all, by simpa using hshaped, hshort⟩
  · have hdata := hshaped.eq_of_clean hclean
    obtain ⟨m, hm⟩ := (LineCodec.shaped_lines scannerLimit_pos es).take hc hes k
    refine ⟨all ++ es.take m, ?_, hshort.append ?_⟩
    · rw [Segment.data_write, hdata]
      exact hm.append
    · exact hes.of_subset fun r hr => List.mem_of_mem_take hr

/-- A batch written and synced behind whole lines is there for good. -/
theorem ack (hc : c.Lawful) (h : SegOk c rs f) {es : List Entry}
    (hes : c.Short scannerLimit es) (hclean : es = [] ∨ LineCodec.Clean f.data) :
    SegOk c (rs ++ es) (f.write (c.lines es)).sync := by
  have hfile := (h.write hc hes hclean (Or.inl rfl)).sync.1
  obtain ⟨⟨all, hshaped, hshort⟩, ds, hds, hsub⟩ := h
  have hdata : c.lines ds <+: f.data := hds.trans (List.prefix_append _ _)
  rcases hclean with rfl | hclean
  · refine ⟨hfile, ds, ?_, by simpa using hsub⟩
    simpa using hdata
  · refine ⟨hfile, all ++ es, ?_, ?_⟩
    · rw [Segment.durable_sync, Segment.data_write, hshaped.eq_of_clean hclean,
        LineCodec.lines_append]
    · have hall : ds <+: all := hshaped.records_of_lines hc hdata
      exact (hsub.trans hall.sublist).append (List.Sublist.refl es)

/-- Reading the file returns the records. -/
theorem read (hc : c.Lawful) (h : SegOk c rs f) :
    ∃ es, c.read scannerLimit f.data = some es ∧ rs.Sublist es := by
  obtain ⟨⟨all, hshaped, hshort⟩, ds, hds, hsub⟩ := h
  obtain ⟨extra, hread⟩ := hshaped.read hc hshort
  have hall : ds <+: all :=
    hshaped.records_of_lines hc (hds.trans (List.prefix_append _ _))
  exact ⟨all ++ extra, hread,
    (hsub.trans hall.sublist).trans (List.sublist_append_left all extra)⟩

end SegOk

/-! ## The invariant -/

structure Inv (c : LineCodec Entry) (s : State) : Prop where
  cur : s.log.cur = none
  pending : s.log.pending = []
  legacy : s.log.dir.legacy = none
  mem : s.log.activeSeq ∈ s.log.dir.seqs
  acked_le : ∀ p ∈ s.acked, p.1 ≤ s.log.activeSeq
  segs : ∀ f ∈ s.log.dir.segs, SegOk c (ackedIn s f.seq) f

theorem ackedIn_of_lt {s : State} {q : Nat} (h : ∀ p ∈ s.acked, p.1 < q) :
    ackedIn s q = [] := by
  have hnil : (s.acked.filter fun p => p.1 == q) = [] := by
    rw [List.filter_eq_nil_iff]
    intro p hp
    have := h p hp
    simp only [beq_iff_eq]
    omega
  rw [ackedIn, hnil, List.map_nil]

theorem ackedIn_append (s : State) (log : SegLog UInt8) (seq : Nat) (es : List Entry)
    (q : Nat) :
    ackedIn ⟨log, s.acked ++ es.map fun e => (seq, e)⟩ q =
      ackedIn s q ++ if q = seq then es else [] := by
  rw [ackedIn, List.filter_append, List.map_append]
  congr 1
  by_cases hq : q = seq
  · subst hq
    simp [List.filter_map, Function.comp_def]
  · have hne : ¬seq = q := fun heq => hq heq.symm
    simp [List.filter_map, Function.comp_def, hq, hne]

/-- The contents of the active segment, through its file. -/
theorem contents_active {s : State} {f : Segment UInt8} (hf : f ∈ s.log.dir.segs)
    (hseq : f.seq = s.log.activeSeq) :
    (s.log.dir.contents s.log.activeSeq).getD [] = f.data := by
  rw [← hseq, Dir.contents_of_mem hf, Option.getD_some]

/-- Changing the active segment keeps the invariant if the file does. -/
theorem Inv.update {s : State} (h : Inv c s) {g : Segment UInt8 → Segment UInt8}
    (hg : ∀ x, (g x).seq = x.seq) {log : SegLog UInt8} {acked : List (Nat × Entry)}
    (hdir : log.dir = s.log.dir.update s.log.activeSeq g hg) (hcur : log.cur = none)
    (hpending : log.pending = []) (hactive : log.activeSeq = s.log.activeSeq)
    (hacked : ∀ p ∈ acked, p.1 ≤ s.log.activeSeq)
    (hother : ∀ q, q ≠ s.log.activeSeq → ackedIn ⟨log, acked⟩ q = ackedIn s q)
    (hseg : ∀ f ∈ s.log.dir.segs, f.seq = s.log.activeSeq →
      SegOk c (ackedIn ⟨log, acked⟩ s.log.activeSeq) (g f)) : Inv c ⟨log, acked⟩ where
  cur := hcur
  pending := hpending
  legacy := by
    rw [hdir]
    exact h.legacy
  mem := by
    rw [hdir, hactive, Dir.seqs_update]
    exact h.mem
  acked_le := by
    intro p hp
    rw [hactive]
    exact hacked p hp
  segs := by
    intro f hf
    rw [hdir] at hf
    obtain ⟨x, hx, rfl⟩ := Dir.mem_update.mp hf
    by_cases hseq : x.seq = s.log.activeSeq
    · rw [if_pos hseq, hg, hseq]
      exact hseg x hx hseq
    · rw [if_neg hseq, hother x.seq hseq]
      exact h.segs x hx

theorem inv_start (pfx : Bytes) : Inv c (start pfx) := by
  have hopen : openSegLog pfx (Dir.fresh (none : Option Bytes)) =
      ⟨pfx, (Dir.fresh none).create 1, true, 1, [], none, []⟩ := by
    unfold openSegLog
    simp only [listSegments_names]
    rfl
  refine ⟨rfl, rfl, ?_, ?_, by simp [start], ?_⟩
  · simp only [start, hopen]
    rfl
  · simp only [start, hopen]
    exact Dir.mem_seqs_create.mpr (Or.inl rfl)
  · intro f hf
    simp only [start, hopen] at hf
    rcases Dir.mem_insertSeg hf with rfl | hf
    · exact segOk_empty 1
    · simp [Dir.fresh] at hf

theorem inv_append (hc : c.Lawful) {s t : State} (h : Inv c s) {es : List Entry}
    {io : BatchIO} (hok : Ok c s (.append es io)) (hstep : step c s (.append es io) = some t) :
    Inv c t := by
  obtain ⟨hes, hclean⟩ := hok
  obtain ⟨commits, happend⟩ := SegLog.append_idle h.cur h.pending io (c.lines es)
  have hcleanSeg : ∀ f ∈ s.log.dir.segs, f.seq = s.log.activeSeq →
      es = [] ∨ LineCodec.Clean f.data := by
    intro f hf hseq
    rwa [contents_active hf hseq] at hclean
  have hown : ∀ f ∈ s.log.dir.segs, f.seq = s.log.activeSeq →
      SegOk c (ackedIn s s.log.activeSeq) f := by
    intro f hf hseq
    rw [← hseq]
    exact h.segs f hf
  simp only [step, happend] at hstep
  by_cases hactive : s.log.active
  · rcases htorn : io.torn with _ | k
    · by_cases hsynced : io.synced
      · have hws : s.log.writeSync io (c.lines es) =
            ((s.log.updateActive (Segment.write (c.lines es)) (Segment.seq_write _)).updateActive
              Segment.sync Segment.seq_sync, none) := by
          simp [SegLog.writeSync, SegLog.write, SegLog.fsync, hactive, htorn, hsynced,
            SegLog.updateActive]
        rw [hws] at hstep
        obtain rfl := Option.some.inj hstep
        have hdir : ((s.log.dir.update s.log.activeSeq (Segment.write (c.lines es))
            (Segment.seq_write _)).update s.log.activeSeq Segment.sync Segment.seq_sync) =
            s.log.dir.update s.log.activeSeq (fun f => (f.write (c.lines es)).sync)
              (fun _ => rfl) := by
          refine Dir.ext rfl ?_
          simp only [Dir.update, List.map_map]
          congr 1
          funext f
          by_cases hf : f.seq = s.log.activeSeq <;> simp [hf]
        refine h.update (g := fun f => (f.write (c.lines es)).sync) (fun _ => rfl) hdir h.cur
          h.pending rfl ?_ ?_ ?_
        · intro p hp
          rcases List.mem_append.mp hp with hp | hp
          · exact h.acked_le p hp
          · obtain ⟨e, -, rfl⟩ := List.mem_map.mp hp
            exact le_refl _
        · intro q hq
          rw [ackedIn_append, if_neg hq, List.append_nil]
        · intro f hf hseq
          rw [ackedIn_append, if_pos rfl]
          exact (hown f hf hseq).ack hc hes (hcleanSeg f hf hseq)
      · have hws : s.log.writeSync io (c.lines es) =
            (s.log.updateActive (Segment.write (c.lines es)) (Segment.seq_write _),
              some .fsync) := by
          simp [SegLog.writeSync, SegLog.write, SegLog.fsync, hactive, htorn, hsynced,
            SegLog.updateActive]
        rw [hws] at hstep
        obtain rfl := Option.some.inj hstep
        refine h.update (Segment.seq_write _) rfl h.cur h.pending rfl h.acked_le
          (fun _ _ => rfl) ?_
        intro f hf hseq
        exact (hown f hf hseq).write hc hes (hcleanSeg f hf hseq) (Or.inl rfl)
    · have hws : s.log.writeSync io (c.lines es) =
          (s.log.updateActive (Segment.write ((c.lines es).take k)) (Segment.seq_write _),
            some .write) := by
        simp [SegLog.writeSync, SegLog.write, hactive, htorn, SegLog.updateActive]
      rw [hws] at hstep
      obtain rfl := Option.some.inj hstep
      refine h.update (Segment.seq_write _) rfl h.cur h.pending rfl h.acked_le
        (fun _ _ => rfl) ?_
      intro f hf hseq
      exact (hown f hf hseq).write hc hes (hcleanSeg f hf hseq) (Or.inr ⟨k, rfl⟩)
  · have hws : s.log.writeSync io (c.lines es) = (s.log, some .closed) := by
      simp [SegLog.writeSync, SegLog.write, hactive]
    rw [hws] at hstep
    obtain rfl := Option.some.inj hstep
    exact ⟨h.cur, h.pending, h.legacy, h.mem, h.acked_le, h.segs⟩

/-- A segment that is opened anew holds nothing acknowledged. -/
theorem Inv.create {s : State} (h : Inv c s) {log : SegLog UInt8} {seq : Nat}
    (hdir : log.dir = s.log.dir.create seq) (hcur : log.cur = none) (hpending : log.pending = [])
    (hmem : log.activeSeq ∈ log.dir.seqs) (hle : s.log.activeSeq ≤ log.activeSeq)
    (hseq : seq ∈ s.log.dir.seqs ∨ s.log.activeSeq < seq) :
    Inv c { s with log := log } where
  cur := hcur
  pending := hpending
  legacy := by
    rw [hdir]
    exact h.legacy
  mem := hmem
  acked_le := fun p hp => (h.acked_le p hp).trans hle
  segs := by
    intro f hf
    change SegOk c (ackedIn s f.seq) f
    rw [hdir] at hf
    rcases hseq with hold | hnew
    · rw [Dir.create_of_mem hold] at hf
      exact h.segs f hf
    · rcases Dir.mem_insertSeg hf with rfl | hf
      · rw [Segment.seq_empty,
          ackedIn_of_lt fun p hp => (h.acked_le p hp).trans_lt hnew]
        exact segOk_empty seq
      · exact h.segs f hf

theorem inv_seal {s : State} (h : Inv c s) (io : SealIO) :
    Inv c { s with log := (s.log.sealSegment io).1 } := by
  have hflush : s.log.flushPending io.batch = (s.log, none) := by
    simp [SegLog.flushPending, h.cur]
  have hseal : s.log.sealSegment io = s.log.rotate io := by
    rw [SegLog.sealSegment, hflush]
  rw [hseal]
  unfold SegLog.rotate
  split_ifs
  · exact h.create rfl h.cur h.pending (Dir.mem_seqs_create.mpr (Or.inl rfl))
      (Nat.le_succ _) (Or.inr (Nat.lt_succ_self _))
  · exact h.create rfl h.cur h.pending (Dir.mem_seqs_create.mpr (Or.inr h.mem)) (le_refl _)
      (Or.inr (Nat.lt_succ_self _))
  · exact h.create rfl h.cur h.pending (Dir.mem_seqs_create.mpr (Or.inr h.mem)) (le_refl _)
      (Or.inl h.mem)
  · exact ⟨h.cur, h.pending, h.legacy, h.mem, h.acked_le, h.segs⟩
  · exact ⟨h.cur, h.pending, h.legacy, h.mem, h.acked_le, h.segs⟩
  · exact h

theorem inv_discard {s : State} (h : Inv c s) (removes : Nat → Bool) (dirSynced : Bool)
    (upto : Nat) :
    Inv c { s with log := (s.log.discard removes dirSynced upto).1 } := by
  refine ⟨?_, ?_, ?_, ?_, ?_, ?_⟩
  · rw [SegLog.discard_frame]
    exact h.cur
  · rw [SegLog.discard_frame]
    exact h.pending
  · rw [SegLog.discard_frame]
    exact h.legacy
  · obtain ⟨f, hf, hseq⟩ := Dir.mem_seqs.mp h.mem
    rw [SegLog.discard_activeSeq]
    exact Dir.mem_seqs.mpr ⟨f, SegLog.mem_discard_of_active hf hseq, hseq⟩
  · rw [SegLog.discard_activeSeq]
    exact h.acked_le
  · intro f hf
    exact h.segs f (SegLog.of_mem_discard hf)

theorem inv_crash (hc : c.Lawful) {s : State} (h : Inv c s) (keep : Nat → Nat) :
    Inv c { s with log := openSegLog s.log.pfx (s.log.dir.crash keep) } := by
  have hmigrate : (s.log.dir.crash keep).migrate = s.log.dir.crash keep := by
    simp [Dir.migrate, Dir.crash, h.legacy]
  have hne : s.log.dir.seqs ≠ [] := List.ne_nil_of_mem h.mem
  have hlast : (s.log.dir.crash keep).seqs.getLast?.getD 1 = s.log.dir.seqs.getLast hne := by
    rw [Dir.seqs_crash, List.getLast?_eq_some_getLast hne, Option.getD_some]
  have hmem : s.log.dir.seqs.getLast hne ∈ (s.log.dir.crash keep).seqs := by
    rw [Dir.seqs_crash]
    exact List.getLast_mem hne
  have hopen : openSegLog s.log.pfx (s.log.dir.crash keep) =
      ⟨s.log.pfx, s.log.dir.crash keep, true, s.log.dir.seqs.getLast hne, [], none, []⟩ := by
    unfold openSegLog
    simp only [hmigrate, listSegments_names, hlast, Dir.create_of_mem hmem]
  have hhigh : s.log.activeSeq ≤ s.log.dir.seqs.getLast hne := by
    have hle : s.log.dir.seqs.Pairwise (· ≤ ·) :=
      (show s.log.dir.seqs.Pairwise (· < ·) from s.log.dir.ordered).imp fun hlt => hlt.le
    exact hle.rel_getLast h.mem
  rw [hopen]
  refine ⟨rfl, rfl, h.legacy, hmem, fun p hp => (h.acked_le p hp).trans hhigh, ?_⟩
  intro f hf
  obtain ⟨g, hg, rfl⟩ := Dir.mem_crash.mp hf
  exact (h.segs g hg).crash hc (keep g.seq)

theorem inv_step (hc : c.Lawful) (s : State) (l : Label) (t : State) (h : Inv c s)
    (hok : Ok c s l) (hstep : step c s l = some t) : Inv c t := by
  cases l with
  | append es io => exact inv_append hc h hok hstep
  | sealSegment io =>
      obtain rfl := Option.some.inj hstep
      exact inv_seal h io
  | discard removes dirSynced upto =>
      obtain rfl := Option.some.inj hstep
      exact inv_discard h removes dirSynced upto
  | crash keep =>
      obtain rfl := Option.some.inj hstep
      exact inv_crash hc h keep

theorem durable_of_inv (hc : c.Lawful) {s : State} (h : Inv c s) : Durable c s := by
  have hread : ∀ f ∈ s.log.dir.segs,
      c.read scannerLimit f.data = some ((c.read scannerLimit f.data).getD []) := by
    intro f hf
    obtain ⟨es, hes, -⟩ := (h.segs f hf).read hc
    rw [hes, Option.getD_some]
  refine ⟨_, by rw [SegLog.recover_of_read h.cur hread], ?_⟩
  have hseqs : s.log.dir.seqs.flatMap (ackedIn s) =
      s.log.dir.segs.flatMap fun f => ackedIn s f.seq := by
    rw [Dir.seqs, List.flatMap_map]
  rw [hseqs]
  apply flatMap_sublist
  intro f hf
  obtain ⟨es, hes, hsub⟩ := (h.segs f hf).read hc
  rw [hes, Option.getD_some]
  exact hsub

/-! ## Runs without a batch behind a fragment -/

/-- In every run in which records fit the scanner's buffer and no batch is
written behind a fragment, every state reached is durable. -/
theorem durable_of_clean_appends (jx : Jx) (hjx : jx.Lawful) (pfx : Bytes) (ls : List Label)
    (s : State) (hok : Along (step jx.entryCodec) (Ok jx.entryCodec) (start pfx) ls)
    (hrun : exec (step jx.entryCodec) (start pfx) ls = some s) : Durable jx.entryCodec s := by
  have hc := Jx.lawful_entryCodec hjx
  exact durable_of_inv hc (invariant_along (inv_step hc) (inv_start pfx) hok hrun)

/-- A synced batch, a torn one, a `Seal` away from its fragment, a synced batch
in the fresh segment, and a crash. -/
def sealedAwayRun : List Label :=
  [.append [⟨1, [97]⟩] .good, .append [⟨2, [98]⟩] ⟨some 3, false⟩, .sealSegment .good,
    .append [⟨3, [99]⟩] .good, .crash fun _ => 0]

theorem durable_of_clean_appends_sealedAway :
    ∃ s, exec (step JsonLine.json.entryCodec) (start (ascii "wal")) sealedAwayRun = some s ∧
      s.acked = [(1, ⟨1, [97]⟩), (2, ⟨3, [99]⟩)] ∧ Durable JsonLine.json.entryCodec s := by
  refine ⟨_, rfl, rfl, durable_of_clean_appends JsonLine.json JsonLine.lawful_json
    (ascii "wal") sealedAwayRun _ ?_ rfl⟩
  have happend : ∀ {s : State} {es : List Entry} {io : BatchIO},
      JsonLine.json.entryCodec.Short scannerLimit es →
      LineCodec.Clean ((s.log.dir.contents s.log.activeSeq).getD []) →
      Ok JsonLine.json.entryCodec s (.append es io) := fun hes hclean => ⟨hes, Or.inr hclean⟩
  refine ⟨happend (by decide) (by decide), ?_⟩
  rintro t ht
  obtain rfl := Option.some.inj ht
  refine ⟨happend (by decide) (by decide), ?_⟩
  rintro t ht
  obtain rfl := Option.some.inj ht
  refine ⟨trivial, ?_⟩
  rintro t ht
  obtain rfl := Option.some.inj ht
  refine ⟨happend (by decide) (by decide), ?_⟩
  rintro t ht
  obtain rfl := Option.some.inj ht
  exact ⟨trivial, fun _ _ => trivial⟩

/-- A failed append leaves the byte of an opening brace; the next append is
acknowledged, synced, and lost on recovery. -/
theorem torn_append_loses_acknowledged :
    ∃ s, exec (step JsonLine.json.entryCodec) (start (ascii "wal"))
        [.append [⟨1, [97]⟩] ⟨some 1, true⟩, .append [⟨2, [98]⟩] .good, .crash fun _ => 0] =
          some s ∧
      s.acked = [(1, ⟨2, [98]⟩)] ∧ s.log.dir.seqs = [1] ∧
      (s.log.recover JsonLine.json.entryCodec .good fun _ => true).2 = .ok [] ∧
      ¬Durable JsonLine.json.entryCodec s := by
  refine ⟨_, rfl, rfl, rfl, rfl, ?_⟩
  rintro ⟨es, hes, hsub⟩
  obtain rfl : [] = es := Except.ok.inj hes
  exact absurd hsub.length_le (by decide)

end Durability

end Shrimpd.Wal
