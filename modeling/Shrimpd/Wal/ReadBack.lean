import Shrimpd.Lib.LineJoin
import Shrimpd.Wal.Refinement

/-!
# What the log accepts and what it can read

`Append` writes a record of any length, and `Recover` reads the segments through
a scanner with a bounded buffer.  A line that does not fit into the buffer ends
the whole recovery, and with it the start of the node.
-/

namespace Shrimpd.Wal

open Shrimpd.Lib Shrimpd.Lib.Exec Shrimpd.Types

/-! ## The lines of all segments -/

/-- The lines of the segments, if all of them fit. -/
def segLines : List (Segment UInt8) → Option (List Bytes)
  | [] => some []
  | f :: fs =>
      (textLines scannerLimit f.data).bind fun ls => (segLines fs).map (ls ++ ·)

theorem segLines_append (fs gs : List (Segment UInt8)) :
    segLines (fs ++ gs) = (segLines fs).bind fun ls => (segLines gs).map (ls ++ ·) := by
  induction fs with
  | nil => cases hgs : segLines gs <;> simp [segLines, hgs]
  | cons f fs ih =>
      rw [List.cons_append, segLines, segLines, ih]
      cases textLines scannerLimit f.data with
      | none => rfl
      | some ls =>
          cases segLines fs with
          | none => rfl
          | some ms =>
              cases segLines gs with
              | none => rfl
              | some ns => simp

/-- What the scan returns for these lines. -/
def scanResult : Option (List Bytes) → Except IOErr (List Bytes)
  | some ls => .ok ls
  | none => .error .tooLong

theorem readSegments_eq {d : Dir UInt8} {fs : List (Segment UInt8)}
    (hmem : ∀ f ∈ fs, f ∈ d.segs) :
    readSegments (fun _ => true) d (fs.map Segment.seq) = scanResult (segLines fs) := by
  induction fs with
  | nil => rfl
  | cons f fs ih =>
      have hrest := ih fun g hg => hmem g (List.mem_cons_of_mem _ hg)
      rw [List.map_cons, readSegments, Dir.contents_of_mem (hmem f List.mem_cons_self), segLines,
        textLines]
      simp only [if_true]
      cases scanLines scannerLimit [] f.data with
      | none => rfl
      | some ls =>
          simp only [hrest, Option.map_some, Option.bind_some]
          cases segLines fs <;> rfl

theorem SegLog.forEachLine_idle {s : SegLog UInt8} (hcur : s.cur = none) :
    s.forEachLine .good (fun _ => true) = (s, scanResult (segLines s.dir.segs)) := by
  have hread := @readSegments_eq s.dir s.dir.segs fun _ hf => hf
  rw [forEachLine, flushPending, hcur]
  simp only [listSegments_names]
  exact Prod.ext rfl hread

/-! ## Records on whole lines -/

section Records

variable {ρ : Type} {c : LineCodec ρ}

theorem segLines_expand (hc : c.Lawful) (fs : List (Segment ρ)) :
    segLines (fs.map (Segment.expand c.line)) =
      if c.Short scannerLimit (fs.flatMap Segment.data) then
        some ((fs.flatMap Segment.data).map c.encode)
      else none := by
  induction fs with
  | nil => exact (if_pos fun r hr => absurd hr List.not_mem_nil).symm
  | cons f fs ih =>
      have hshort : c.Short scannerLimit (f.data ++ fs.flatMap Segment.data) ↔
          c.Short scannerLimit f.data ∧ c.Short scannerLimit (fs.flatMap Segment.data) :=
        List.forall_mem_append
      rw [List.map_cons, segLines, ih, Segment.data_expand, List.flatMap_cons,
        show f.data.flatMap c.line = c.lines f.data from rfl, LineCodec.textLines_lines hc]
      by_cases hhead : c.Short scannerLimit f.data
      · by_cases htail : c.Short scannerLimit (fs.flatMap Segment.data)
        · rw [if_pos hhead, if_pos htail, if_pos (hshort.mpr ⟨hhead, htail⟩), List.map_append]
          rfl
        · rw [if_pos hhead, if_neg htail, if_neg fun h => htail (hshort.mp h).2]
          rfl
      · rw [if_neg hhead, if_neg fun h => hhead (hshort.mp h).1]
        rfl

theorem filterMap_decode_map_encode (hc : c.Lawful) (rs : List ρ) :
    (rs.map c.encode).filterMap c.decode = rs := by
  have hid : c.decode ∘ c.encode = some := funext hc.decode_encode
  rw [List.filterMap_map, hid, List.filterMap_some]

/-- Recovery of an idle log of records returns all of them or nothing. -/
theorem SegLog.recover_expand_eq (hc : c.Lawful) {s : SegLog ρ} (hcur : s.cur = none) :
    ((s.expand c.line).recover c .good fun _ => true).2 =
      if c.Short scannerLimit (s.dir.segs.flatMap Segment.data) then
        .ok (s.dir.segs.flatMap Segment.data)
      else .error .tooLong := by
  have hcur' : (s.expand c.line).cur = none := hcur
  rw [recover, forEachLine_idle hcur']
  change (scanResult (segLines (s.dir.segs.map (Segment.expand c.line)))).map _ = _
  rw [segLines_expand hc]
  split_ifs
  · exact congrArg Except.ok (filterMap_decode_map_encode hc _)
  · rfl

end Records

/-! ## Accepted and read back -/

/-- What `NewLSM` takes from the log: the entries of the memtable, or no start. -/
def newLSM (jx : Jx) (wal : SegLog UInt8) : Except IOErr (List Entry) :=
  match (wal.recover jx.entryCodec .good fun _ => true).2 with
  | .error err => .error err
  | .ok entries => .ok (if entries.length > 0 then entries else [])

theorem newLSM_eq (jx : Jx) (wal : SegLog UInt8) :
    newLSM jx wal = (wal.recover jx.entryCodec .good fun _ => true).2 := by
  rw [newLSM]
  cases (wal.recover jx.entryCodec .good fun _ => true).2 with
  | error err => rfl
  | ok entries => cases entries <;> rfl

section History

variable {ρ : Type}

theorem covered_of_no_discard {tr : List (Event ρ)} (h : ∀ e ∈ tr, ∀ upto, e.1 ≠ .discard upto)
    (k : Nat) : covered k tr = false := by
  rw [covered, List.any_eq_false]
  intro e he
  split
  · rename_i upto hop
    exact absurd hop (h e he upto)
  · exact Bool.false_ne_true

theorem discarded_of_no_discard {tr : List (Event ρ)}
    (h : ∀ e ∈ tr, ∀ upto, e.1 ≠ .discard upto) : discarded tr = false := by
  induction tr with
  | nil => rfl
  | cons e tr ih =>
      have htail : ∀ e ∈ tr, ∀ upto, e.1 ≠ Op.discard upto :=
        fun x hx => h x (List.mem_cons_of_mem _ hx)
      obtain ⟨op, out⟩ := e
      cases out with
      | ok => exact ih htail
      | failed => exact ih htail
      | sealed k => rw [discarded, covered_of_no_discard htail, ih htail, Bool.or_false]

/-- Nothing is lost where nothing is discarded. -/
theorem survivors_of_no_discard {tr : List (Event ρ)}
    (h : ∀ e ∈ tr, ∀ upto, e.1 ≠ .discard upto) :
    survivors [] tr = (tr.map Prod.fst).flatMap Op.records := by
  rw [survivors, ite_self, List.nil_append]
  induction tr with
  | nil => rfl
  | cons e tr ih =>
      have htail : ∀ e ∈ tr, ∀ upto, e.1 ≠ Op.discard upto :=
        fun x hx => h x (List.mem_cons_of_mem _ hx)
      rw [appendedSurvivors, discarded_of_no_discard htail, ih htail, List.map_cons,
        List.flatMap_cons]
      rfl

theorem no_failure_of_run {a b : AbsLog ρ} {tr : List (Event ρ)}
    (hrun : exec AbsLog.step a tr = some b) : ∀ e ∈ tr, e.2 ≠ .failed := by
  induction tr generalizing a with
  | nil => exact fun e he => absurd he List.not_mem_nil
  | cons e tr ih =>
      obtain ⟨m, hstep, hrest⟩ := exec_cons.mp hrun
      intro x hx
      rcases List.mem_cons.mp hx with rfl | hx
      · intro hfailed
        obtain ⟨op, out⟩ := x
        obtain rfl : out = .failed := hfailed
        cases op <;> cases hstep
      · exact ih hrest x hx

end History

/-- The log after fault-free calls on a fresh directory. -/
def logAfter (jx : Jx) (pfx : Bytes) (ops : List (Op Entry)) : SegLog UInt8 × List (Event Entry) :=
  performAll jx.entryCodec.lines (openSegLog pfx (Dir.fresh none)) ops

/-- Every call succeeds, and what was appended is all recovered or not at all. -/
theorem recover_logAfter {jx : Jx} (hjx : jx.Lawful) (pfx : Bytes) {ops : List (Op Entry)}
    (hops : ∀ op ∈ ops, ∀ upto, op ≠ .discard upto) :
    (∀ e ∈ (logAfter jx pfx ops).2, e.2 ≠ .failed) ∧
      ((logAfter jx pfx ops).1.recover jx.entryCodec .good fun _ => true).2 =
        if jx.entryCodec.Short scannerLimit (ops.flatMap Op.records) then
          .ok (ops.flatMap Op.records)
        else .error .tooLong := by
  have hc := Jx.lawful_entryCodec hjx
  have hopen : openSegLog pfx (Dir.fresh none) =
      (openSegLog pfx (Dir.fresh none)).expand jx.entryCodec.line := by
    rw [← expand_openSegLog]
    rfl
  have hrun := performAll_expand jx.entryCodec.line (openSegLog pfx (Dir.fresh none)) ops
  rw [← hopen] at hrun
  obtain ⟨a, hexec, hrep⟩ := (rep_openSegLog pfx none).performAll_run ops
  have hevents := performAll_ops id (openSegLog pfx (Dir.fresh none)) ops
  have hkept : ∀ e ∈ (performAll id (openSegLog pfx (Dir.fresh none)) ops).2,
      ∀ upto, e.1 ≠ Op.discard upto := by
    intro e he
    apply hops
    rw [← hevents]
    exact List.mem_map_of_mem he
  have hcontents := hrep.contents_eq
  rw [AbsLog.contents_eq_survivors hexec, Option.getD_none, survivors_of_no_discard hkept, hevents]
    at hcontents
  change (∀ e ∈ (performAll _ _ ops).2, _) ∧ ((performAll _ _ ops).1.recover _ _ _).2 = _
  rw [show performAll jx.entryCodec.lines _ ops = _ from hrun]
  refine ⟨no_failure_of_run hexec, ?_⟩
  rw [SegLog.recover_expand_eq hc hrep.cur, hcontents]

/-- After any calls without faults that discard nothing, each of which is accepted, `Recover` and
the next start return all the entries that were appended, in order, just when each of them is
encoded in fewer bytes than the buffer of the scanner. -/
theorem read_back_iff (jx : Jx) (hjx : jx.Lawful) (pfx : Bytes) (ops : List (Op Entry))
    (hops : ∀ op ∈ ops, ∀ upto, op ≠ .discard upto) :
    (∀ e ∈ (logAfter jx pfx ops).2, e.2 ≠ .failed) ∧
      ((((logAfter jx pfx ops).1.recover jx.entryCodec .good fun _ => true).2 =
            .ok (ops.flatMap Op.records) ∧
          newLSM jx (logAfter jx pfx ops).1 = .ok (ops.flatMap Op.records)) ↔
        ∀ e ∈ ops.flatMap Op.records, (jx.encodeEntry e).length < scannerLimit) := by
  obtain ⟨haccepted, hrecover⟩ := recover_logAfter hjx pfx hops
  refine ⟨haccepted, ?_⟩
  rw [newLSM_eq, and_self, hrecover]
  by_cases hshort : jx.entryCodec.Short scannerLimit (ops.flatMap Op.records)
  · rw [if_pos hshort]
    exact ⟨fun _ => hshort, fun _ => rfl⟩
  · rw [if_neg hshort]
    exact ⟨nofun, fun h => absurd h hshort⟩

/-- Two entries around a `Seal` and a restart. -/
theorem read_back_two :
    newLSM JsonLine.json (logAfter JsonLine.json (ascii "wal")
      [.append [⟨1, [97]⟩], .sealSegment, .append [⟨2, []⟩], .reopen]).1 =
        .ok [⟨1, [97]⟩, ⟨2, []⟩] := by
  have hops : ∀ op ∈ [Op.append [⟨1, [97]⟩], .sealSegment, .append [(⟨2, []⟩ : Entry)], .reopen],
      ∀ upto, op ≠ .discard upto := by
    intro op hop upto
    rintro rfl
    simp at hop
  exact ((read_back_iff JsonLine.json JsonLine.lawful_json (ascii "wal") _ hops).2.mpr
    (by decide)).2

theorem length_le_printStr (d : Bytes) : d.length ≤ (JsonLine.printStr d).length := by
  have hescaped : d.length ≤ (d.flatMap JsonLine.escapeByte).length := by
    induction d with
    | nil => exact le_rfl
    | cons b d ih =>
        have hone : 0 < (JsonLine.escapeByte b).length := by
          unfold JsonLine.escapeByte
          split_ifs <;> exact Nat.succ_pos _
        rw [List.flatMap_cons, List.length_append, List.length_cons]
        omega
  rw [JsonLine.printStr, List.length_cons, List.length_append]
  omega

theorem length_data_le_encodeEntry (e : Entry) :
    e.data.length ≤ (JsonLine.json.encodeEntry e).length := by
  have hstr : e.data.length ≤ (JsonLine.json.str e.data).length := length_le_printStr e.data
  rw [Jx.encodeEntry, objectLine]
  simp only [List.length_append]
  omega

/-- Four megabytes of data. -/
def longEntry : Entry := ⟨1, List.replicate 4194304 97⟩

theorem length_longEntry : longEntry.data.length = 4194304 := List.length_replicate

/-- One long entry is accepted, and the node does not start again. -/
theorem long_entry_stops_start :
    let run := logAfter JsonLine.json (ascii "wal")
      [.append [longEntry], .reopen]
    (∀ e ∈ run.2, e.2 ≠ .failed) ∧
      (run.1.recover JsonLine.json.entryCodec .good fun _ => true).2 = .error .tooLong ∧
        newLSM JsonLine.json run.1 = .error .tooLong := by
  have hops : ∀ op ∈ [Op.append [longEntry], .reopen], ∀ upto, op ≠ .discard upto := by
    intro op hop upto
    rintro rfl
    simp at hop
  have hlong : ¬JsonLine.json.entryCodec.Short scannerLimit
      ([Op.append [longEntry], .reopen].flatMap Op.records) := by
    intro hshort
    have hlt := hshort longEntry List.mem_cons_self
    have hle := length_data_le_encodeEntry longEntry
    rw [length_longEntry] at hle
    exact absurd (hle.trans_lt hlt) (by decide)
  obtain ⟨haccepted, hrecover⟩ := recover_logAfter JsonLine.lawful_json (ascii "wal") hops
  rw [if_neg hlong] at hrecover
  intro run
  refine ⟨haccepted, hrecover, ?_⟩
  rw [newLSM_eq]
  exact hrecover

end Shrimpd.Wal
