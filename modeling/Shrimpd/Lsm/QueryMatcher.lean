import Shrimpd.Block.Format
import Shrimpd.Lsm.IndexEngine
import Shrimpd.Lsm.LabelPrune
import Shrimpd.Lsm.CompactCommit
import Shrimpd.Lsm.QueryExact

/-!
# Matcher queries

A matcher query prunes parts by their tokens and by the label index, blocks by
time and by their Bloom filters, and hands the rows that pass all filters to a
consumer.  With no filter at all it delivers what a query without a term
returns, after any storage history all written entries in the range.
-/

namespace Shrimpd.Lsm

open Shrimpd.Lib Shrimpd.Lib.Exec Shrimpd.Types Shrimpd.Block Shrimpd.Filter

/-! ## The query -/

section Query

variable {σ ε : Type} (env : Format.Env)

/-- The block's filter lacks the label of some equality filter. -/
def bloomPruned (bloom : Bytes) : List LabelFilter → Except Stuck Bool
  | [] => .ok false
  | f :: fs =>
      if f.op == .eq then
        match bloomMightContainLabel env.hasher bloom f.label f.value with
        | .error err => .error err
        | .ok false => .ok true
        | .ok true => bloomPruned bloom fs
      else bloomPruned bloom fs

/-- `out` is the consumer's state, or why the query does not return. -/
def matchBlock (io : QueryIO) (fuel : Nat) (start stop : Int) (m : Matcher)
    (fn : σ → Entry → σ × Option ε) (id : Bytes) (i : Nat) (b : RowBlock)
    (st : Scan (Except Stuck σ)) : Scan (Except Stuck σ) :=
  match st.out with
  | .error _ => st
  | .ok out =>
      match if !m.empty && m.labels.length > 0 then bloomPruned env (env.bloom b.rows) m.labels
        else .ok false with
      | .error err => { st with out := .error err }
      | .ok true => st.tally fun q => { q with blocksPrunedByBloom := q.blocksPrunedByBloom + 1 }
      | .ok false =>
          let st := st.tally fun q => { q with blocksScanned := q.blocksScanned + 1 }
          match st.cache id i with
          | some bb =>
              match (BinBlock.ofRows bb.rows).iterateMatcher env.json fuel start stop m with
              | .error err => { st with out := .error err }
              | .ok hits =>
                  let r := deliver (fun out e =>
                    if m.labelsPass env.json e.data then fn out e else (out, none)) out hits
                  let matched := (hits.take r.calls).countP fun e => m.labelsPass env.json e.data
                  { st with
                    stats :=
                      { st.stats with
                        entriesScanned := st.stats.entriesScanned + r.calls
                        entriesMatched := st.stats.entriesMatched + matched }
                    out := .ok r.out }
          | none =>
              let st := st.tally fun q =>
                { q with entriesScanned := q.entriesScanned + b.header.count }
              if io.reads id i then
                match (BinBlock.ofRows b.rows).iterateMatcher env.json fuel start stop m with
                | .error err => { st with out := .error err }
                | .ok hits =>
                    let r := deliver fn out hits
                    { st with
                      stats := { st.stats with entriesMatched := st.stats.entriesMatched + r.calls }
                      out := .ok r.out }
              else st

/-- The memtable holds strings, so its lines are matched as such. -/
def streamToMatcherWithStats (mem : List Entry) (start stop : Int) (m : Matcher)
    (fn : σ → Entry → σ × Option ε) (st : Scan (Except Stuck σ)) :
    Scan (Except Stuck σ) × Option (QueryErr ε) :=
  match st.out with
  | .error _ => (st, none)
  | .ok out =>
      let matched := mem.filter fun e =>
        !(e.timestamp < start || e.timestamp > stop) && m.matchLine e.data &&
          m.labelsPass env.json e.data
      let r := deliver fn out (sortByTimestamp matched)
      ({ st with
          stats := { st.stats with entriesScanned := st.stats.entriesScanned + mem.length }
          out := .ok r.out },
        r.err.map .consumer)

def queryMatcherWithStats (io : QueryIO) (fuel : Nat) (en : Engine) (start stop : Int)
    (m : Matcher) (fn : σ → Entry → σ × Option ε) (out : σ) (n : Node) (cache : RowCache)
    (mem : List Entry) : Scan (Except Stuck σ) × Option (QueryErr ε) :=
  let complete := (en.lookupTokens (labelTokens m) (timeParts start stop n)).isSome
  let st := (startScan start stop n cache (.ok out)).tally fun q => { q with usedIndex := complete }
  match scanParts start stop io.opens io.cancelled
      (fun p => labelPruned env.unicode m p || indexPruned en m (timeParts start stop n) p)
      (matchBlock env io fuel start stop m fn) (timeParts start stop n) st with
  | (st, some err) => (st, some err)
  | (st, none) => streamToMatcherWithStats env mem start stop m fn st

/-- The consumer records the entries. -/
def Store.queryMatcher (s : Store) (io : QueryIO) (fuel : Nat) (en : Engine) (start stop : Int)
    (m : Matcher) : Scan (Except Stuck (List Entry)) × Option (QueryErr Empty) :=
  queryMatcherWithStats env io fuel en start stop m record [] s.world.node s.cache s.mem

end Query

/-! ## The empty matcher -/

def noFilter : Matcher := ⟨[], []⟩

section Empty

variable {env : Format.Env} {io : QueryIO} {fuel : Nat} {start stop : Int} {n : Node}

theorem matches_nil (e : Entry) (start stop : Int) :
    e.matches start stop [] = !(e.timestamp < start || e.timestamp > stop) := by
  unfold Entry.matches
  grind

theorem filter_matches_nil (es : List Entry) (start stop : Int) :
    (es.filter fun e => e.matches start stop []) =
      es.filter fun e => start ≤ e.timestamp ∧ e.timestamp ≤ stop := by
  apply List.filter_congr
  intro e _
  rw [matches_nil]
  grind

theorem iterateMatcher_noFilter (J : JsonReader) (b : RowBlock) :
    (BinBlock.ofRows b.rows).iterateMatcher J fuel start stop noFilter =
      .ok (b.rows.filter fun e => e.matches start stop []) := by
  have hrows : (BinBlock.ofRows b.rows).iterateMatcher J fuel start stop noFilter =
      .ok ((BinBlock.ofRows b.rows).rows.filter (BinBlock.passes J start stop noFilter)) := rfl
  rw [hrows, rows_ofRows]
  congr 1
  apply List.filter_congr
  intro e _
  rw [matches_nil, BinBlock.passes]
  simp [noFilter, Matcher.matchLineBytes, Matcher.labelsPass]

/-- Neither the tokens nor the index prune a part. -/
theorem not_pruned_noFilter (U : Unicode) (en : Engine) (ms : List PartMeta) (p : PartMeta) :
    (labelPruned U noFilter p || indexPruned en noFilter ms p) = false := by
  simp [labelPruned, indexPruned, noFilter, labelTokens, Engine.lookupTokens]

/-- The scan has delivered the rows in the range that it has seen. -/
structure Scan.Streamed (n : Node) (io : QueryIO) (start stop : Int) (done : List Entry)
    (st : Scan (Except Stuck (List Entry))) : Prop extends Scan.Ok n st where
  out : (∀ id i, io.reads id i = true) → SortedParts n →
    st.out = .ok (done.filter fun e => e.matches start stop [])

theorem ok_matchBlock {σ ε : Type} {m : Matcher} {fn : σ → Entry → σ × Option ε} {id : Bytes}
    {i : Nat} {b : RowBlock} {st : Scan (Except Stuck σ)} (h : st.Ok n) :
    (matchBlock env io fuel start stop m fn id i b st).Ok n := by
  simp only [matchBlock, Scan.tally]
  repeat' split
  all_goals exact ⟨h.same, h.cache⟩

theorem scanInv_ok_matchBlock {σ ε : Type} (m : Matcher) (fn : σ → Entry → σ × Option ε) :
    ScanInv start stop (matchBlock env io fuel start stop m fn) n (fun _ st => st.Ok n) where
  node h := h.same
  opened h hsame := ⟨hsame, h.cache⟩
  tally _ h := ⟨h.same, h.cache⟩
  skip _ _ _ _ h := h
  block _ _ _ h := ok_matchBlock h

/-- No matcher query changes what the node lists or reads. -/
theorem ok_queryMatcherWithStats {σ ε : Type} {en : Engine} {m : Matcher}
    {fn : σ → Entry → σ × Option ε} {out : σ} {cache : RowCache} (mem : List Entry)
    (hcache : CacheOk n cache) :
    (queryMatcherWithStats env io fuel en start stop m fn out n cache mem).1.Ok n := by
  unfold queryMatcherWithStats
  simp only
  rcases hscan : scanParts (ε := ε) start stop io.opens io.cancelled _
    (matchBlock env io fuel start stop m fn) (timeParts start stop n) _ with ⟨st, err⟩
  obtain ⟨-, seen, hok, -⟩ := @ScanInv.over_parts _ ε _ _ _ n _ (scanInv_ok_matchBlock m fn)
    io.opens io.cancelled _ _ (fun p hp => mem_timeParts hp) [] _ ⟨Node.Same.refl n, hcache⟩ st err
    hscan
  cases err with
  | some err => exact hok
  | none =>
      simp only [streamToMatcherWithStats]
      split
      · exact hok
      · exact ⟨hok.same, hok.cache⟩

theorem out_matchBlock {st : Scan (Except Stuck (List Entry))} {out : List Entry} {id : Bytes}
    {f : PartFile} {i : Nat} {b : RowBlock} (hf : n.content id = some f)
    (hb : f.blocks[i]? = some b) (h : st.Ok n) (hreads : ∀ id i, io.reads id i = true)
    (hout : st.out = .ok out) :
    (matchBlock env io fuel start stop noFilter record id i b st).out =
      .ok (out ++ b.rows.filter fun e => e.matches start stop []) := by
  have hempty : (!noFilter.empty && noFilter.labels.length > 0) = false := rfl
  unfold matchBlock
  simp only [hout, hempty, Scan.tally, iterateMatcher_noFilter]
  cases hhit : st.cache id i with
  | some bb =>
      obtain rfl := h.cache.eq hf hb hhit
      have hguard : ∀ e ∈ bb.rows.filter fun e => e.matches start stop [],
          noFilter.labelsPass env.json e.data = true := fun _ _ => rfl
      simp [deliver_guard hguard, deliver_record]
  | none => simp [hreads, deliver_record]

theorem scanInv_matchBlock :
    ScanInv start stop (matchBlock env io fuel start stop noFilter record) n
      (Scan.Streamed n io start stop) where
  node h := h.same
  opened h hsame := ⟨⟨hsame, h.cache⟩, h.out⟩
  tally f h := ⟨⟨h.same, h.cache⟩, h.out⟩
  skip hm hf hb houtside h := by
    refine ⟨⟨h.same, h.cache⟩, fun hreads hsorted => ?_⟩
    rw [List.filter_append, outside_rows (hsorted _ hm _ hf) hb houtside, List.append_nil]
    exact h.out hreads hsorted
  block hm hf hb h := by
    refine ⟨ok_matchBlock h.toOk, fun hreads hsorted => ?_⟩
    rw [List.filter_append]
    exact out_matchBlock hf hb h.toOk hreads (h.out hreads hsorted)

theorem queryMatcherWithStats_noFilter (env : Format.Env) (fuel : Nat) (en : Engine)
    (start stop : Int) {U : Unicode} {cache : RowCache} (hio : io.Works) (mem : List Entry)
    (hparts : PartsOk U n) (hcache : CacheOk n cache) :
    ∃ st out, queryMatcherWithStats env io fuel en start stop noFilter record [] n cache mem =
        (st, none) ∧ st.out = .ok out ∧
      out.Perm (partHits U start stop [] n ++ mem.filter fun e => e.matches start stop []) := by
  unfold queryMatcherWithStats
  simp only
  rcases hscan : scanParts (ε := Empty) start stop io.opens io.cancelled _
    (matchBlock env io fuel start stop noFilter record) (timeParts start stop n) _ with ⟨st, err⟩
  have hinit : Scan.Streamed n io start stop [] ((startScan start stop n cache
      (Except.ok (ε := Stuck) ([] : List Entry))).tally fun q => { q with usedIndex :=
        (en.lookupTokens (labelTokens noFilter) (timeParts start stop n)).isSome }) :=
    ⟨⟨Node.Same.refl n, hcache⟩, fun _ _ => rfl⟩
  obtain ⟨herr, seen, hseen, hrows⟩ := scanInv_matchBlock.over_parts io.opens io.cancelled _
    (fun m => mem_timeParts) hinit hscan
  obtain rfl := herr (hparts.unhindered hio.opens hio.runs)
  have hall : (timeParts start stop n).filter (fun p => !(labelPruned env.unicode noFilter p ||
      indexPruned en noFilter (timeParts start stop n) p)) = timeParts start stop n := by
    simp only [not_pruned_noFilter, Bool.not_false, List.filter_true]
  have hhits : partHits U start stop [] n = ((timeParts start stop n).flatMap fun p =>
      n.rows p.id).filter fun e => e.matches start stop [] := by
    simp [partHits, termPruned, List.filter_flatMap]
  have hout := hseen.out hio.reads (sortedParts hparts)
  rw [hrows rfl, hall, List.nil_append, ← hhits] at hout
  have hmem : (mem.filter fun e => !(decide (e.timestamp < start) || decide (e.timestamp > stop)) &&
      noFilter.matchLine e.data && noFilter.labelsPass env.json e.data) =
        mem.filter fun e => e.matches start stop [] := by
    apply List.filter_congr
    intro e _
    rw [matches_nil]
    simp [noFilter, Matcher.matchLine, Matcher.labelsPass]
  simp only [streamToMatcherWithStats, hout, hmem, deliver_record]
  exact ⟨_, _, rfl, rfl, (sortByTimestamp_perm _).append_left _⟩

end Empty

/-! ## Range queries -/

theorem sorted_queryWithStats (U : Unicode) (io : QueryIO) (start stop : Int) (term : Bytes)
    (n : Node) (cache : RowCache) (mem : List Entry) :
    SortedRows (queryWithStats U io start stop term n cache mem).1.out := by
  unfold queryWithStats
  simp only
  split
  · exact List.Pairwise.nil
  · exact sorted_sortByTimestamp _

/-- After any history, and unless it meets a fault, a query without a term returns exactly
the written entries in the range, in timestamp order, and a query with the empty matcher
delivers the same entries. -/
theorem range_query_exact {env : Format.Env} {nodeID : Bytes} {ops : List Store.Op} {s : Store}
    (hrun : exec (Store.step env.unicode) (Store.empty nodeID) ops = some s) {io : QueryIO}
    (hio : io.Works) (fuel : Nat) (en : Engine) (start stop : Int) :
    ((s.query env.unicode io start stop []).2 = none ∧
      SortedRows (s.query env.unicode io start stop []).1.out ∧
      (s.query env.unicode io start stop []).1.out.Perm
        (s.written.filter fun e => start ≤ e.timestamp ∧ e.timestamp ≤ stop)) ∧
    (s.queryMatcher env io fuel en start stop noFilter).2 = none ∧
      ∃ out, (s.queryMatcher env io fuel en start stop noFilter).1.out = .ok out ∧
        out.Perm (s.written.filter fun e => start ≤ e.timestamp ∧ e.timestamp ≤ stop) := by
  have hok := ok_exec hrun
  have hcover : TokensCover env.unicode start stop [] s.world.node :=
    fun _ _ _ => Or.inr (Or.inl rfl)
  have hhits := hok.hits_perm_iff.mpr hcover
  rw [filter_matches_nil s.written] at hhits
  obtain ⟨-, hquery⟩ := queryWithStats_spec (U := env.unicode) io start stop [] s.mem hok.cache
  obtain ⟨st, out, hmatcher, hout, hperm⟩ :=
    queryMatcherWithStats_noFilter env fuel en start stop hio s.mem hok.parts hok.cache
  refine ⟨⟨(hquery hio hok.parts).1, ?_, (hquery hio hok.parts).2.trans hhits⟩, ?_⟩
  · exact sorted_queryWithStats _ _ _ _ _ _ _ _
  · rw [Store.queryMatcher, hmatcher]
    exact ⟨rfl, out, hout, hperm.trans hhits⟩

/-- Equal and extreme timestamps, merged in a part, in a part of their own, and in memory. -/
def rangeOps : List Store.Op :=
  [.write [⟨3, ascii "c"⟩, ⟨-9223372036854775808, ascii "a"⟩], .flush (ascii "p1"),
    .write [⟨3, ascii "d"⟩], .flush (ascii "p2"), .compact (soloCall .committed),
    .write [⟨9223372036854775807, ascii "e"⟩], .flush (ascii "p3"), .write [⟨3, ascii "b"⟩]]

def rangeStore : Store :=
  (exec (Store.step Format.plainEnv.unicode) (Store.empty (ascii "n1")) rangeOps).getD
    (Store.empty [])

theorem range_query_exact_rangeStore :
    rangeStore.world.node.parts.length = 2 ∧
      (rangeStore.query Format.plainEnv.unicode QueryIO.good (-5) 5 []).1.out.Perm
        [⟨3, ascii "c"⟩, ⟨3, ascii "d"⟩, ⟨3, ascii "b"⟩] ∧
      (rangeStore.queryMatcher Format.plainEnv QueryIO.good 0 Engine.empty (-5) 5 noFilter).2 =
        none := by
  have hrun : exec (Store.step Format.plainEnv.unicode) (Store.empty (ascii "n1")) rangeOps =
      some rangeStore := exec_eq_getD (by decide +kernel)
  have hio : QueryIO.good.Works := ⟨fun _ => rfl, fun _ _ => rfl, fun _ => rfl⟩
  have hexact := range_query_exact hrun hio 0 Engine.empty (-5) 5
  have hwritten : rangeStore.written.filter (fun e => -5 ≤ e.timestamp ∧ e.timestamp ≤ 5) =
      [⟨3, ascii "c"⟩, ⟨3, ascii "d"⟩, ⟨3, ascii "b"⟩] := by decide +kernel
  rw [hwritten] at hexact
  exact ⟨by decide +kernel, hexact.1.2.2, hexact.2.1⟩

end Shrimpd.Lsm
