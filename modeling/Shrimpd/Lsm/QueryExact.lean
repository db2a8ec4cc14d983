import Shrimpd.Lsm.Store

/-!
# Term queries against the documented filter

A term query is meant to return the written entries that the row filter accepts,
wherever they are stored.  Time pruning never loses an entry.  Token pruning
works on whole tokens while the row filter looks for substrings, so a query is
exact just when the token sets of the parts with matching rows answer for the
term.
-/

namespace Shrimpd.Lsm

open Shrimpd.Lib Shrimpd.Lib.Exec Shrimpd.Types Shrimpd.Block

/-- Every part with a matching row has all tokens of the term among its rows' tokens, or
cannot be pruned: its token set overflowed or is empty, or the term is. -/
def TokensCover (U : Unicode) (start stop : Int) (term : Bytes) (n : Node) : Prop :=
  ∀ p ∈ n.parts, (∃ e ∈ n.rows p.id, e.matches start stop term = true) →
    p.tokensTruncated = true ∨ term = [] ∨ rowTokens U (n.rows p.id) = [] ∨
      ∀ tok ∈ tokenize U term, tok ∈ rowTokens U (n.rows p.id)

section Pruning

variable {U : Unicode} {start stop : Int} {term : Bytes} {n : Node} {p : PartMeta} {f : PartFile}

theorem PartOk.termPruned_iff (h : PartOk U n p f) :
    termPruned U term p = false ↔
      p.tokensTruncated = true ∨ term = [] ∨ rowTokens U (n.rows p.id) = [] ∨
        ∀ tok ∈ tokenize U term, tok ∈ rowTokens U (n.rows p.id) := by
  have hset := Prod.ext_iff.mp h.describes.tokens
  simp only at hset
  cases htrunc : p.tokensTruncated with
  | true => simp [termPruned, htrunc]
  | false =>
      have hfit : (buildTokenSet U f.rows).2 = false := by rw [← hset.2, htrunc]
      have hhas := @hasToken_buildTokenSet U f.rows term hfit
      rw [← hset.1, ← h.rows] at hhas
      simp only [Bool.false_eq_true, false_or, ← hhas]
      by_cases hterm : term = []
      · simp [termPruned, hterm, hasToken]
      · simp [termPruned, hterm, htrunc]

/-- A part with a matching row overlaps the range. -/
theorem PartOk.overlaps (h : PartOk U n p f) {e : Entry} (he : e ∈ n.rows p.id)
    (hmatches : e.matches start stop term = true) : p.overlaps start stop = true := by
  rw [h.rows] at he
  have hrange := Entry.range_of_matches hmatches
  have hfirst := h.sorted.first_le he
  have hlast := h.sorted.le_last he
  rw [← h.describes.min] at hfirst
  rw [← h.describes.max] at hlast
  simp only [PartMeta.overlaps, Bool.and_eq_true, decide_eq_true_eq]
  omega

/-- Leaving members out keeps all the images just when those members have none. -/
theorem flatMap_filter_perm_iff {α β : Type} (l : List α) (q : α → Bool) (g : α → List β) :
    ((l.filter q).flatMap g).Perm (l.flatMap g) ↔ ∀ a ∈ l, q a = false → g a = [] := by
  have hsplit := (List.filter_append_perm q l).flatMap_right g
  rw [List.flatMap_append] at hsplit
  have hnil : (l.filter fun a => !q a).flatMap g = [] ↔ ∀ a ∈ l, q a = false → g a = [] := by
    simp [List.flatMap_eq_nil_iff]
  rw [← hnil]
  constructor
  · intro h
    have hlen := (h.trans hsplit.symm).length_eq
    rw [List.length_append] at hlen
    exact List.length_eq_zero_iff.mp (by omega)
  · intro h
    rw [h, List.append_nil] at hsplit
    exact hsplit

theorem partHits_perm_iff (h : PartsOk U n) :
    (partHits U start stop term n).Perm
        ((n.parts.flatMap fun p => n.rows p.id).filter fun e => e.matches start stop term) ↔
      TokensCover U start stop term n := by
  rw [partHits, timeParts, List.filter_filter, List.filter_flatMap, flatMap_filter_perm_iff]
  unfold TokensCover
  refine forall₂_congr fun p hp => ?_
  obtain ⟨f, hf⟩ := h.part p hp
  rw [← hf.termPruned_iff, List.filter_eq_nil_iff]
  constructor
  · intro hlost hrow
    obtain ⟨e, he, hmatches⟩ := hrow
    by_contra hpruned
    apply hlost ?_ e he hmatches
    simpa using fun hkept => absurd hkept hpruned
  · intro hcover hskip e he hmatches
    rw [hcover ⟨e, he, hmatches⟩, hf.overlaps he hmatches] at hskip
    exact absurd hskip (by decide)

end Pruning

/-- What the parts and the memtable contribute is exact just when the tokens cover. -/
theorem Store.Ok.hits_perm_iff {U : Unicode} {s : Store} (h : s.Ok U) {start stop : Int}
    {term : Bytes} :
    (partHits U start stop term s.world.node ++
        s.mem.filter fun e => e.matches start stop term).Perm
        (s.written.filter fun e => e.matches start stop term) ↔
      TokensCover U start stop term s.world.node := by
  have hwritten := (h.entries.filter fun e => e.matches start stop term).symm
  have hentries : partEntries s.world = s.world.node.parts.flatMap fun p =>
      s.world.node.rows p.id := List.flatMap_map _ _ _
  rw [List.filter_append, hentries] at hwritten
  rw [← partHits_perm_iff h.parts, hwritten.congr_right, List.perm_append_comm.congr_left,
    List.perm_append_left_iff]

/-- For an ASCII term the row filter is the documented one. -/
theorem matches_toLower_iff {U : Unicode} {term : Bytes} (hterm : ∀ b ∈ term, b < 0x80) (e : Entry)
    (start stop : Int) :
    e.matches start stop (toLower U term) = true ↔
      start ≤ e.timestamp ∧ e.timestamp ≤ stop ∧
        term.map foldByte <:+: e.data.map foldByte := by
  rw [toLower_ascii hterm]
  unfold Entry.matches
  by_cases hrange : start ≤ e.timestamp ∧ e.timestamp ≤ stop
  · by_cases hnil : term = []
    · simp [hrange.1, hrange.2, hnil]
    · simp [hrange.1, hrange.2, hnil, foldContains_iff]
  · have hout : (!(e.timestamp ≥ start && e.timestamp ≤ stop)) = true := by
      simp only [Bool.not_eq_true', Bool.and_eq_false_iff, decide_eq_false_iff_not]
      omega
    rw [if_pos hout]
    exact ⟨nofun, fun hall => absurd ⟨hall.1, hall.2.1⟩ hrange⟩

/-- After any history, and unless it meets a fault, a term query of either form returns
exactly the matching entries just when the tokens cover; for an ASCII term those are the
entries in the range that contain it up to case. -/
theorem term_query_exact_iff {U : Unicode} {nodeID : Bytes} {ops : List Store.Op} {s : Store}
    (hrun : exec (Store.step U) (Store.empty nodeID) ops = some s) {io : QueryIO}
    (hio : io.Works) (start stop : Int) (term : Bytes) :
    ((s.query U io start stop term).2 = none ∧
      ((s.query U io start stop term).1.out.Perm
          (s.written.filter fun e => e.matches start stop (toLower U term)) ↔
        TokensCover U start stop (toLower U term) s.world.node)) ∧
    ((s.queryStream U io start stop term).2 = none ∧
      ((s.queryStream U io start stop term).1.out.Perm
          (s.written.filter fun e => e.matches start stop (toLower U term)) ↔
        TokensCover U start stop (toLower U term) s.world.node)) ∧
    ((∀ b ∈ term, b < 0x80) → ∀ e : Entry, e.matches start stop (toLower U term) = true ↔
      start ≤ e.timestamp ∧ e.timestamp ≤ stop ∧
        term.map foldByte <:+: e.data.map foldByte) := by
  have hok := ok_exec hrun
  obtain ⟨-, hquery⟩ := queryWithStats_spec (U := U) io start stop term s.mem hok.cache
  obtain ⟨-, hstream⟩ := queryStreamWithStats_spec (U := U) io start stop term s.mem hok.cache
  refine ⟨⟨(hquery hio hok.parts).1, ?_⟩, ⟨(hstream hio hok.parts).1, ?_⟩, ?_⟩
  · rw [← hok.hits_perm_iff]
    exact (hquery hio hok.parts).2.congr_left _
  · rw [← hok.hits_perm_iff]
    exact (hstream hio hok.parts).2.congr_left _
  · exact fun hterm e => matches_toLower_iff hterm e start stop

/-- One row in a part, one in the memtable. -/
def diskOps : List Store.Op :=
  [.write [⟨1, ascii "disk full"⟩], .flush (ascii "p1"), .write [⟨2, ascii "Disk FULL again"⟩]]

def diskStore : Store :=
  (exec (Store.step Unicode.asciiOnly) (Store.empty (ascii "n1")) diskOps).getD (Store.empty [])

theorem term_query_exact_iff_wholeToken :
    (diskStore.query Unicode.asciiOnly QueryIO.good 0 9 (ascii "DISK")).1.out.Perm
        (diskStore.written.filter fun e =>
          e.matches 0 9 (toLower Unicode.asciiOnly (ascii "DISK"))) ∧
      (diskStore.queryStream Unicode.asciiOnly QueryIO.good 0 9 (ascii "DISK")).1.out.Perm
        (diskStore.written.filter fun e =>
          e.matches 0 9 (toLower Unicode.asciiOnly (ascii "DISK"))) := by
  have hrun : exec (Store.step Unicode.asciiOnly) (Store.empty (ascii "n1")) diskOps =
      some diskStore := rfl
  have hio : QueryIO.good.Works := ⟨fun _ => rfl, fun _ _ => rfl, fun _ => rfl⟩
  have hcover : TokensCover Unicode.asciiOnly 0 9 (toLower Unicode.asciiOnly (ascii "DISK"))
      diskStore.world.node := by
    unfold TokensCover
    decide
  have hexact := term_query_exact_iff hrun hio 0 9 (ascii "DISK")
  exact ⟨hexact.1.2.mpr hcover, hexact.2.1.2.mpr hcover⟩

/-- A term inside a token: the part is pruned, and its matching row is not returned. -/
theorem substring_query_loses_entry :
    exec (Store.step Unicode.asciiOnly) (Store.empty (ascii "n1")) diskOps = some diskStore ∧
      diskStore.written.filter (fun e =>
        e.matches 0 9 (toLower Unicode.asciiOnly (ascii "isk"))) =
          [⟨1, ascii "disk full"⟩, ⟨2, ascii "Disk FULL again"⟩] ∧
      (diskStore.query Unicode.asciiOnly QueryIO.good 0 9 (ascii "isk")).2 = none ∧
      (diskStore.query Unicode.asciiOnly QueryIO.good 0 9 (ascii "isk")).1.out =
        [⟨2, ascii "Disk FULL again"⟩] ∧
      (diskStore.queryStream Unicode.asciiOnly QueryIO.good 0 9 (ascii "isk")).2 = none ∧
      (diskStore.queryStream Unicode.asciiOnly QueryIO.good 0 9 (ascii "isk")).1.out =
        [⟨2, ascii "Disk FULL again"⟩] := by
  refine ⟨rfl, ?_, ?_, ?_, ?_, ?_⟩ <;> decide

end Shrimpd.Lsm
