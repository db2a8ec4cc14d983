import Shrimpd.Wal.AbstractLog
import Shrimpd.Wal.JsonLine
import Shrimpd.Wal.Recover
import Mathlib.Data.List.TakeWhile

/-!
# The segmented log refines the abstract log

Fault-free calls of the log, including a close followed by a reopen.  The
simulation is proved for a log of whole records: every segment below the active
one holds the records sealed under its number.  `SegLog.expand` then carries it
to the bytes on disk.
-/

namespace Shrimpd.Wal

open Shrimpd.Lib Shrimpd.Lib.Exec Shrimpd.Types

variable {α ρ : Type}

/-! ## Calls without faults -/

def outOf : Option IOErr → Out
  | none => .ok
  | some _ => .failed

/-- One call; `write` turns the records of an append into what is enqueued. -/
def perform (write : List ρ → List α) (s : SegLog α) : Op ρ → SegLog α × Out
  | .append rs => ((s.append .good (write rs)).1, outOf (s.append .good (write rs)).2)
  | .sealSegment =>
      ((s.sealSegment .good).1, match (s.sealSegment .good).2 with
        | .ok seq => .sealed seq
        | .error _ => .failed)
  | .discard upto =>
      ((s.discard (fun _ => true) true upto).1, outOf (s.discard (fun _ => true) true upto).2)
  | .reopen =>
      (openSegLog s.pfx (s.close .good true).1.dir, outOf (s.close .good true).2)

/-- The final log and the history of a sequence of calls. -/
def performAll (write : List ρ → List α) : SegLog α → List (Op ρ) → SegLog α × List (Event ρ)
  | s, [] => (s, [])
  | s, op :: ops =>
      let next := perform write s op
      let rest := performAll write next.1 ops
      (rest.1, (op, next.2) :: rest.2)

/-- The calls act on records as they act on the bytes of the records. -/
theorem perform_expand (f : ρ → List α) (s : SegLog ρ) (op : Op ρ) :
    perform (fun rs => rs.flatMap f) (s.expand f) op =
      ((perform id s op).1.expand f, (perform id s op).2) := by
  cases op with
  | append rs =>
      simp only [perform, id_eq, SegLog.expand_append f BatchIO.whole_good]
  | sealSegment =>
      simp only [perform, @SegLog.expand_sealSegment _ _ f SealIO.good BatchIO.whole_good]
  | discard upto => simp only [perform, SegLog.expand_discard]
  | reopen =>
      simp only [perform, SegLog.expand_close f BatchIO.whole_good]
      rw [← expand_openSegLog]
      rfl

theorem performAll_expand (f : ρ → List α) (s : SegLog ρ) (ops : List (Op ρ)) :
    performAll (fun rs => rs.flatMap f) (s.expand f) ops =
      ((performAll id s ops).1.expand f, (performAll id s ops).2) := by
  induction ops generalizing s with
  | nil => rfl
  | cons op ops ih =>
      rw [performAll, perform_expand, ih]
      rfl

/-! ## The simulation -/

/-- The number a record's segment stands for: none while it is active. -/
def segTag (activeSeq : Nat) (f : Segment ρ) : Option Nat :=
  if f.seq = activeSeq then none else some f.seq

def tagged (activeSeq : Nat) (f : Segment ρ) : List (Option Nat × ρ) :=
  f.data.map fun r => (segTag activeSeq f, r)

structure Rep (s : SegLog ρ) (a : AbsLog ρ) : Prop where
  active : s.active = true
  cur : s.cur = none
  pending : s.pending = []
  legacy : s.dir.legacy = none
  mem : s.activeSeq ∈ s.dir.seqs
  highest : ∀ q ∈ s.dir.seqs, q ≤ s.activeSeq
  records : a.records = s.dir.segs.flatMap (tagged s.activeSeq)
  seals : ∀ k, a.lastSeal = some k → k < s.activeSeq

/-- The active segment is the last one listed. -/
theorem getLast_of_highest {d : Dir ρ} {q : Nat} (hmem : q ∈ d.seqs)
    (hhigh : ∀ p ∈ d.seqs, p ≤ q) : d.seqs.getLast? = some q := by
  have hord : d.seqs.Pairwise (· < ·) := d.ordered
  have hne : d.seqs ≠ [] := List.ne_nil_of_mem hmem
  rw [List.getLast?_eq_some_getLast hne]
  congr 1
  apply le_antisymm (hhigh _ (List.getLast_mem hne))
  have hle : d.seqs.Pairwise (· ≤ ·) := hord.imp fun h => h.le
  exact hle.rel_getLast hmem

namespace Rep

variable {s : SegLog ρ} {a : AbsLog ρ}

/-- Appending to an idle log writes and syncs the batch and nothing else. -/
theorem append_eq (h : Rep s a) (rs : List ρ) :
    s.append .good rs =
      ({ s with
          dir := (s.dir.update s.activeSeq (Segment.write rs) (Segment.seq_write rs)).update
            s.activeSeq Segment.sync Segment.seq_sync
          commits := s.commits ++ [⟨true, none⟩] }, none) := by
  have hdone : (({ s with
      cur := some s.commits.length
      commits := s.commits ++ [⟨false, none⟩]
      pending := s.pending ++ rs } : SegLog ρ).isDone s.commits.length) = false := by
    simp [SegLog.isDone]
  unfold SegLog.append SegLog.enqueue
  simp only [h.cur]
  unfold SegLog.commitWait
  rw [hdone]
  simp [SegLog.flushPending, SegLog.takePending, SegLog.writeSync, SegLog.write,
    SegLog.fsync, SegLog.updateActive, SegLog.resolve, SegLog.errOf, BatchIO.good, h.active,
    h.pending]

theorem flushPending_eq (h : Rep s a) (io : BatchIO) : s.flushPending io = (s, none) := by
  simp [SegLog.flushPending, h.cur]

theorem append (h : Rep s a) (rs : List ρ) :
    ∃ b, AbsLog.step a (.append rs, (perform id s (.append rs)).2) = some b ∧
      Rep (perform id s (.append rs)).1 b := by
  simp only [perform, id_eq, h.append_eq, outOf]
  refine ⟨_, rfl, ⟨h.active, h.cur, h.pending, h.legacy, ?_, ?_, ?_, h.seals⟩⟩
  · simpa using h.mem
  · simpa using h.highest
  · have hsegs : ∀ fs : List (Segment ρ), (fs.map Segment.seq).Pairwise (· < ·) →
        (∀ f ∈ fs, f.seq ≤ s.activeSeq) → s.activeSeq ∈ fs.map Segment.seq →
        ((fs.map fun g => if g.seq = s.activeSeq then g.write rs else g).map
          fun g => if g.seq = s.activeSeq then g.sync else g).flatMap (tagged s.activeSeq) =
        fs.flatMap (tagged s.activeSeq) ++ rs.map fun r => (none, r) := by
      intro fs
      induction fs with
      | nil => intro _ _ hmem; simp at hmem
      | cons f fs ih =>
          intro hord hle hmem
          rw [List.map_cons, List.pairwise_cons] at hord
          by_cases hf : f.seq = s.activeSeq
          · -- The active segment is the highest, so it is the last.
            have hnil : fs = [] := by
              apply List.eq_nil_iff_forall_not_mem.mpr
              intro g hg
              have hlt := hord.1 g.seq (List.mem_map_of_mem hg)
              have := hle g (by simp [hg])
              omega
            subst hnil
            simp [hf, tagged, segTag]
          · have hmem' : s.activeSeq ∈ fs.map Segment.seq := by
              rw [List.map_cons, List.mem_cons] at hmem
              exact hmem.resolve_left fun heq => hf heq.symm
            have hrest := ih hord.2 (fun g hg => hle g (by simp [hg])) hmem'
            simp only [List.map_cons, hf, if_false, List.flatMap_cons, hrest,
              List.append_assoc]
    have := hsegs s.dir.segs s.dir.ordered
      (fun f hf => h.highest _ (List.mem_map_of_mem hf)) h.mem
    rw [h.records]
    exact this.symm

theorem sealSegment (h : Rep s a) :
    ∃ b, AbsLog.step a (.sealSegment, (perform id s .sealSegment).2) = some b ∧
      Rep (perform id s .sealSegment).1 b := by
  have heq : s.sealSegment .good =
      ({ s with dir := s.dir.create (s.activeSeq + 1), activeSeq := s.activeSeq + 1 },
        .ok s.activeSeq) := by
    unfold SegLog.sealSegment
    rw [h.flushPending_eq]
    simp [SegLog.rotate, SealIO.good, h.active]
  have hlt : ∀ q ∈ s.dir.seqs, q < s.activeSeq + 1 :=
    fun q hq => Nat.lt_succ_of_le (h.highest q hq)
  have hguard : a.lastSeal.all (· < s.activeSeq) = true := by
    cases hlast : a.lastSeal with
    | none => rfl
    | some k => simpa using h.seals k hlast
  simp only [perform, heq, AbsLog.step, hguard, if_true]
  refine ⟨_, rfl, ⟨h.active, h.cur, h.pending, h.legacy, ?_, ?_, ?_, ?_⟩⟩
  · exact Dir.mem_seqs_create.mpr (Or.inl rfl)
  · intro q hq
    rcases Dir.mem_seqs_create.mp hq with rfl | hq
    · exact le_refl _
    · exact (hlt q hq).le
  · change a.records.map (AbsLog.sealTag s.activeSeq) = _
    rw [Dir.segs_create_of_lt hlt, List.flatMap_append, h.records, List.map_flatMap]
    have hnew : [Segment.empty (s.activeSeq + 1)].flatMap
        (tagged (ρ := ρ) (s.activeSeq + 1)) = [] := rfl
    rw [hnew, List.append_nil]
    apply List.flatMap_congr
    intro f hf
    have hseq : f.seq ≠ s.activeSeq + 1 := (hlt _ (List.mem_map_of_mem hf)).ne
    simp only [tagged, List.map_map, segTag, if_neg hseq]
    apply List.map_congr_left
    intro r _
    by_cases hact : f.seq = s.activeSeq <;> simp [AbsLog.sealTag, hact]
  · intro k hk
    obtain rfl := Option.some.inj hk
    exact Nat.lt_succ_self _

theorem discard (h : Rep s a) (upto : Nat) :
    ∃ b, AbsLog.step a (.discard upto, (perform id s (.discard upto)).2) = some b ∧
      Rep (perform id s (.discard upto)).1 b := by
  have hall : (s.discardable upto).takeWhile (fun _ => true) = s.discardable upto :=
    List.takeWhile_eq_self_iff.mpr fun _ _ => rfl
  have hout : (s.discard (fun _ => true) true upto).2 = none := by
    unfold SegLog.discard
    simp only [hall, lt_irrefl, if_false, Bool.or_true, if_true]
  have hgone : ∀ f : Segment ρ, f ∈ s.dir.segs →
      (s.discardable upto).contains f.seq = (f.seq ≤ upto && f.seq != s.activeSeq) := by
    intro f hf
    have hmem : f.seq ∈ s.dir.seqs := List.mem_map_of_mem hf
    rw [Bool.eq_iff_iff, List.contains_iff_mem, SegLog.discardable, listSegments_names,
      List.mem_filter]
    exact ⟨And.right, fun hf' => ⟨hmem, hf'⟩⟩
  simp only [perform, hout, outOf, SegLog.discard_frame, hall, AbsLog.step]
  refine ⟨_, rfl, ⟨h.active, h.cur, h.pending, h.legacy, ?_, ?_, ?_, h.seals⟩⟩
  · obtain ⟨f, hf, hseq⟩ := Dir.mem_seqs.mp h.mem
    refine Dir.mem_seqs.mpr ⟨f, Dir.mem_remove.mpr ⟨hf, ?_⟩, hseq⟩
    rw [hgone f hf, hseq]
    simp
  · intro q hq
    obtain ⟨f, hf, rfl⟩ := Dir.mem_seqs.mp hq
    exact h.highest _ (List.mem_map_of_mem (Dir.mem_remove.mp hf).1)
  · change a.records.filter (AbsLog.keeps upto) = _
    have hfilter : ∀ fs : List (Segment ρ), (∀ f ∈ fs, f ∈ s.dir.segs) →
        (fs.flatMap (tagged s.activeSeq)).filter (AbsLog.keeps upto) =
          (fs.filter fun g => !(s.discardable upto).contains g.seq).flatMap
            (tagged s.activeSeq) := by
      intro fs
      induction fs with
      | nil => intro _; rfl
      | cons f fs ih =>
          intro hmem
          have hrest := ih fun g hg => hmem g (by simp [hg])
          have hf := hgone f (hmem f (by simp))
          rw [List.flatMap_cons, List.filter_append, hrest]
          by_cases hgo : f.seq ≤ upto ∧ f.seq ≠ s.activeSeq
          · have hcontains : (s.discardable upto).contains f.seq = true := by
              rw [hf]
              simpa using hgo
            rw [List.filter_cons_of_neg (by rw [hcontains]; decide)]
            have hnil : (tagged s.activeSeq f).filter (AbsLog.keeps upto) = [] := by
              rw [List.filter_eq_nil_iff]
              intro p hp
              obtain ⟨r, -, rfl⟩ := List.mem_map.mp hp
              simp [AbsLog.keeps, segTag, hgo.2, hgo.1]
            rw [hnil, List.nil_append]
          · have hcontains : (s.discardable upto).contains f.seq = false := by
              rw [hf, ← Bool.not_eq_true]
              simpa using hgo
            rw [List.filter_cons_of_pos (by rw [hcontains]; decide), List.flatMap_cons]
            congr 1
            apply List.filter_eq_self.mpr
            intro p hp
            obtain ⟨r, -, rfl⟩ := List.mem_map.mp hp
            by_cases hact : f.seq = s.activeSeq
            · simp [AbsLog.keeps, segTag, hact]
            · have hup : upto < f.seq := by
                by_contra hle
                exact hgo ⟨by omega, hact⟩
              simp [AbsLog.keeps, segTag, hact, hup]
    rw [h.records, hfilter s.dir.segs fun _ hf => hf]
    rfl

theorem reopen (h : Rep s a) :
    ∃ b, AbsLog.step a (.reopen, (perform id s .reopen).2) = some b ∧
      Rep (perform id s .reopen).1 b := by
  have hclose : s.close .good true = ({ s with active := false }, none) := by
    unfold SegLog.close
    rw [h.flushPending_eq]
    simp [h.active]
  have hmigrate : s.dir.migrate = s.dir := by
    simp [Dir.migrate, h.legacy]
  have hlast := getLast_of_highest h.mem h.highest
  have hopen : openSegLog s.pfx s.dir =
      { s with active := true, pending := [], cur := none, commits := [] } := by
    unfold openSegLog
    simp only [hmigrate, listSegments_names, hlast, Option.getD_some, Dir.create_of_mem h.mem]
  simp only [perform, hclose, outOf, AbsLog.step, hopen]
  exact ⟨a, rfl, ⟨rfl, rfl, rfl, h.legacy, h.mem, h.highest, h.records, h.seals⟩⟩

/-- Every call is a step of the abstract log. -/
theorem perform_step (h : Rep s a) (op : Op ρ) :
    ∃ b, AbsLog.step a (op, (perform id s op).2) = some b ∧ Rep (perform id s op).1 b := by
  cases op with
  | append rs => exact h.append rs
  | sealSegment => exact h.sealSegment
  | discard upto => exact h.discard upto
  | reopen => exact h.reopen

theorem performAll_run (h : Rep s a) (ops : List (Op ρ)) :
    ∃ b, exec AbsLog.step a (performAll id s ops).2 = some b ∧ Rep (performAll id s ops).1 b := by
  induction ops generalizing s a with
  | nil => exact ⟨a, rfl, h⟩
  | cons op ops ih =>
      obtain ⟨b, hstep, hb⟩ := h.perform_step op
      obtain ⟨c, hrun, hc⟩ := ih hb
      exact ⟨c, exec_cons.mpr ⟨b, hstep, hrun⟩, hc⟩

end Rep

/-- The first open, with or without a single-file log to migrate. -/
theorem rep_openSegLog (pfx : Bytes) (legacy : Option (List ρ)) :
    Rep (openSegLog pfx (Dir.fresh legacy)) (AbsLog.init (legacy.getD [])) := by
  cases legacy with
  | none =>
      have hopen : openSegLog pfx (Dir.fresh (none : Option (List ρ))) =
          ⟨pfx, (Dir.fresh none).create 1, true, 1, [], none, []⟩ := by
        unfold openSegLog
        simp only [listSegments_names]
        rfl
      rw [hopen]
      refine ⟨rfl, rfl, rfl, rfl, ?_, ?_, rfl, ?_⟩
      · exact Dir.mem_seqs_create.mpr (Or.inl rfl)
      · intro q hq
        rcases Dir.mem_seqs_create.mp hq with rfl | hq
        · exact le_refl _
        · simp [Dir.fresh, Dir.seqs] at hq
      · intro k hk
        simp [AbsLog.init] at hk
  | some old =>
      have hopen : openSegLog pfx (Dir.fresh (some old)) =
          ⟨pfx, (Dir.fresh (some old)).migrate, true, 0, [], none, []⟩ := by
        unfold openSegLog
        simp only [listSegments_names]
        have hmem : 0 ∈ (Dir.fresh (some old)).migrate.seqs := by
          simp [Dir.fresh, Dir.migrate, Dir.seqs, Dir.insertSeg]
        have hlast : (Dir.fresh (some old)).migrate.seqs.getLast?.getD 1 = 0 := rfl
        rw [hlast, Dir.create_of_mem hmem]
      rw [hopen]
      refine ⟨rfl, rfl, rfl, rfl, ?_, ?_, ?_, ?_⟩
      · simp [Dir.fresh, Dir.migrate, Dir.seqs, Dir.insertSeg]
      · simp [Dir.fresh, Dir.migrate, Dir.seqs, Dir.insertSeg]
      · simp [AbsLog.init, Dir.fresh, Dir.migrate, Dir.seqs, Dir.insertSeg, tagged, segTag,
          Segment.data]
      · intro k hk
        simp [AbsLog.init] at hk

/-! ## On disk -/

/-- The records of a run of calls stay within what was written. -/
theorem appendedSurvivors_subset {tr : List (Event ρ)} {r : ρ}
    (hr : r ∈ appendedSurvivors tr) : r ∈ (tr.map Prod.fst).flatMap Op.records := by
  induction tr with
  | nil => simp [appendedSurvivors] at hr
  | cons e tr ih =>
      rw [appendedSurvivors, List.mem_append] at hr
      rw [List.map_cons, List.flatMap_cons, List.mem_append]
      rcases hr with hr | hr
      · left
        split_ifs at hr
        · simp at hr
        · exact hr
      · exact Or.inr (ih hr)

theorem performAll_ops (write : List ρ → List α) (s : SegLog α) (ops : List (Op ρ)) :
    (performAll write s ops).2.map Prod.fst = ops := by
  induction ops generalizing s with
  | nil => rfl
  | cons op ops ih => simp [performAll, ih]

/-- A record in some segment is one of the abstract log's. -/
theorem Rep.mem_contents {s : SegLog ρ} {a : AbsLog ρ} (h : Rep s a) {f : Segment ρ}
    (hf : f ∈ s.dir.segs) {r : ρ} (hr : r ∈ f.data) : r ∈ a.contents := by
  rw [AbsLog.contents, h.records, List.map_flatMap, List.mem_flatMap]
  refine ⟨f, hf, ?_⟩
  simpa [tagged] using hr

theorem Rep.contents_eq {s : SegLog ρ} {a : AbsLog ρ} (h : Rep s a) :
    s.dir.segs.flatMap Segment.data = a.contents := by
  rw [AbsLog.contents, h.records, List.map_flatMap]
  apply List.flatMap_congr
  intro f _
  simp [tagged]

/-- The write-ahead log on its files refines the abstract log: no call fails,
`Recover` returns what the abstract log holds, that is every record not covered
by a `Discard` of a `Seal` after it, and `Seal` numbers increase across
reopens. -/
theorem wal_refines_abstract_log (jx : Jx) (hjx : jx.Lawful) (pfx : Bytes)
    (legacy : Option (List Entry)) (ops : List (Op Entry))
    (hshort : jx.entryCodec.Short scannerLimit (legacy.getD [] ++ ops.flatMap Op.records)) :
    let log := openSegLog pfx (Dir.fresh (legacy.map jx.entryCodec.lines))
    let run := performAll jx.entryCodec.lines log ops
    ∃ a, exec AbsLog.step (AbsLog.init (legacy.getD [])) run.2 = some a ∧
      (run.1.recover jx.entryCodec .good fun _ => true).2 = .ok a.contents ∧
      a.contents = survivors (legacy.getD []) run.2 ∧
      (sealNumbers run.2).Pairwise (· < ·) ∧
      ∀ upto, ∀ f ∈ run.1.dir.segs, f.seq = run.1.activeSeq →
        f ∈ (run.1.discard (fun _ => true) true upto).1.dir.segs := by
  have hc := Jx.lawful_entryCodec hjx
  -- The bytes on disk are the image of a log of whole records.
  have hopen : openSegLog pfx (Dir.fresh (legacy.map jx.entryCodec.lines)) =
      (openSegLog pfx (Dir.fresh legacy)).expand jx.entryCodec.line := by
    rw [← expand_openSegLog]
    rfl
  have hrun := performAll_expand jx.entryCodec.line (openSegLog pfx (Dir.fresh legacy)) ops
  obtain ⟨a, hexec, hrep⟩ := (rep_openSegLog pfx legacy).performAll_run ops
  have hcontents := AbsLog.contents_eq_survivors hexec
  have hsegs : ∀ f ∈ (performAll id (openSegLog pfx (Dir.fresh legacy)) ops).1.dir.segs,
      jx.entryCodec.Short scannerLimit f.data := by
    intro f hf
    apply hshort.of_subset
    intro r hr
    have hmem := hrep.mem_contents hf hr
    rw [hcontents, survivors, List.mem_append] at hmem
    rw [List.mem_append]
    rcases hmem with hmem | hmem
    · left
      split_ifs at hmem
      · simp at hmem
      · exact hmem
    · right
      have hsub := appendedSurvivors_subset hmem
      rwa [performAll_ops] at hsub
  have hrecover := SegLog.recover_expand hc hrep.cur hsegs
  rw [hrep.contents_eq] at hrecover
  intro log run
  have hrun' : run = ((performAll id (openSegLog pfx (Dir.fresh legacy)) ops).1.expand
      jx.entryCodec.line, (performAll id (openSegLog pfx (Dir.fresh legacy)) ops).2) := by
    change performAll jx.entryCodec.lines log ops = _
    rw [show log = _ from hopen]
    exact hrun
  rw [hrun']
  refine ⟨a, hexec, by rw [hrecover], hcontents, AbsLog.sealNumbers_increasing hexec, ?_⟩
  intro upto f hf hactive
  exact SegLog.mem_discard_of_active hf hactive

/-- A migrated record and two appends around a `Seal`; `Discard` of its number
and a reopen leave the record appended after it. -/
def migratedRun : List (Op Entry) :=
  [.append [⟨2, [98]⟩], .sealSegment, .append [⟨3, [99]⟩], .discard 7, .reopen, .sealSegment]

theorem wal_refines_abstract_log_migrated :
    let c := JsonLine.json.entryCodec
    let log := openSegLog (ascii "wal") (Dir.fresh (some (c.lines [⟨1, [97]⟩])))
    let run := performAll c.lines log migratedRun
    (run.1.recover c .good fun _ => true).2 = .ok [⟨3, [99]⟩] ∧ sealNumbers run.2 = [0, 1] := by
  intro c log run
  obtain ⟨a, -, hrecover, hcontents, -, -⟩ := wal_refines_abstract_log JsonLine.json
    JsonLine.lawful_json (ascii "wal") (some [⟨1, [97]⟩]) migratedRun (by decide)
  have hevents : run.2 = [(.append [⟨2, [98]⟩], .ok), (.sealSegment, .sealed 0),
      (.append [⟨3, [99]⟩], .ok), (.discard 7, .ok), (.reopen, .ok),
      (.sealSegment, .sealed 1)] := by decide
  refine ⟨?_, by rw [hevents]; rfl⟩
  change (run.1.recover c .good fun _ => true).2 = .ok a.contents at hrecover
  rw [hrecover, hcontents]
  change Except.ok (survivors [⟨1, [97]⟩] run.2) = _
  rw [hevents]
  rfl

end Shrimpd.Wal
