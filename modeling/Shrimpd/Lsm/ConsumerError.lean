import Shrimpd.Lib.Feed
import Shrimpd.Lsm.Streamed

/-!
# Errors of the consumer

A streaming query hands its matches to a callback, those of the blocks first and
then those of the memtable.  An error of the callback ends the block that is
scanned, and only for the memtable does the query return it; after an error in a
block the callback is called again for the next match.
-/

namespace Shrimpd.Lsm

open Shrimpd.Lib Shrimpd.Types Shrimpd.Block Shrimpd.Filter

/-! ## The blocks a scan reaches -/

/-- A block by its part and its number there. -/
abbrev Visit := Bytes × Nat × RowBlock

/-- The blocks of a part from number `i` on that are not outside the range. -/
def insideBlocks (start stop : Int) (id : Bytes) : Nat → List RowBlock → List Visit
  | _, [] => []
  | i, b :: bs =>
      if blockOutside b start stop then insideBlocks start stop id (i + 1) bs
      else (id, i, b) :: insideBlocks start stop id (i + 1) bs

/-- The blocks up to the first error of the scan, and whether there is one. -/
def visits (start stop : Int) (opens cancelled : Bytes → Bool) (prune : PartMeta → Bool) :
    Node → List PartMeta → List Visit × Bool
  | _, [] => ([], false)
  | n, m :: ms =>
      if cancelled m.id then ([], true)
      else if prune m then visits start stop opens cancelled prune n ms
      else
        match n.getPart opens m.id with
        | (_, .failed) => ([], true)
        | (_, .missing) => ([], true)
        | (n, .found f) =>
            let rest := visits start stop opens cancelled prune n ms
            (insideBlocks start stop m.id 0 f.blocks ++ rest.1, rest.2)

/-- A block function that acts on what `view` shows of a scan, for a cache that it leaves alone. -/
structure Follows {σ τ : Type} (blk : Bytes → Nat → RowBlock → Scan σ → Scan σ) (cache : RowCache)
    (view : Scan σ → τ) (act : τ → Visit → τ) : Prop where
  sameNode : ∀ id i b st, (blk id i b st).node = st.node
  sameCache : ∀ id i b st, (blk id i b st).cache = st.cache
  opened : ∀ st n, view { st with node := n } = view st
  tally : ∀ st f, (∀ q : QueryStats, (f q).entriesMatched = q.entriesMatched) →
    view (st.tally f) = view st
  block : ∀ id i b st, st.cache = cache → view (blk id i b st) = act (view st) (id, i, b)

namespace Follows

variable {σ τ ε : Type} {blk : Bytes → Nat → RowBlock → Scan σ → Scan σ} {cache : RowCache}
  {view : Scan σ → τ} {act : τ → Visit → τ} {start stop : Int} {opens cancelled : Bytes → Bool}
  {prune : PartMeta → Bool}

theorem over_blocks (h : Follows blk cache view act) (id : Bytes) (i : Nat) (bs : List RowBlock)
    {st : Scan σ} (hcache : st.cache = cache) :
    (scanBlocks start stop (blk id) i bs st).node = st.node ∧
      (scanBlocks start stop (blk id) i bs st).cache = cache ∧
      view (scanBlocks start stop (blk id) i bs st) =
        (insideBlocks start stop id i bs).foldl act (view st) := by
  induction bs generalizing i st with
  | nil => exact ⟨rfl, hcache, rfl⟩
  | cons b bs ih =>
      rw [scanBlocks, insideBlocks]
      split_ifs with houtside
      · rw [← h.tally st (fun q => { q with blocksPrunedByTS := q.blocksPrunedByTS + 1 })
          fun _ => rfl]
        exact ih (i + 1) hcache
      · obtain ⟨hnode, hkept, hview⟩ := ih (i + 1) ((h.sameCache id i b st).trans hcache)
        refine ⟨hnode.trans (h.sameNode id i b st), hkept, ?_⟩
        rw [hview, h.block id i b st hcache, List.foldl_cons]

theorem over_parts (h : Follows blk cache view act) {ms : List PartMeta} {st st' : Scan σ}
    {err : Option (QueryErr ε)} (hcache : st.cache = cache)
    (hscan : scanParts start stop opens cancelled prune blk ms st = (st', err)) :
    view st' = (visits start stop opens cancelled prune st.node ms).1.foldl act (view st) ∧
      err.isSome = (visits start stop opens cancelled prune st.node ms).2 := by
  induction ms generalizing st with
  | nil =>
      obtain ⟨rfl, rfl⟩ := Prod.mk.inj hscan
      exact ⟨rfl, rfl⟩
  | cons m ms ih =>
      rw [scanParts] at hscan
      rw [visits]
      split_ifs at hscan ⊢ with hcancel hprune
      · obtain ⟨rfl, rfl⟩ := Prod.mk.inj hscan
        exact ⟨rfl, rfl⟩
      · rw [← h.tally st (fun q => { q with
          partsPrunedByIndex := q.partsPrunedByIndex + 1
          blocksPrunedByIndex := q.blocksPrunedByIndex + m.blockCount }) fun _ => rfl]
        exact ih hcache hscan
      · rw [← h.tally st (fun q => { q with partsScanned := q.partsScanned + 1 }) fun _ => rfl]
        generalize hst₁ : (st.tally fun q => { q with partsScanned := q.partsScanned + 1 }) = st₁
          at hscan ⊢
        have hnode₁ : st₁.node = st.node := hst₁ ▸ rfl
        have hcache₁ : st₁.cache = cache := hst₁ ▸ hcache
        simp only [hnode₁] at hscan
        rcases hget : st.node.getPart opens m.id with ⟨n, f | _ | _⟩
        all_goals simp only [hget] at hscan ⊢
        · have hopened : Scan.cache { st₁ with node := n } = cache := hcache₁
          obtain ⟨hnode, hkept, hblocks⟩ := @over_blocks _ _ _ _ _ _ start stop h m.id 0 f.blocks _
            hopened
          obtain ⟨hview, herr⟩ := ih hkept hscan
          rw [hview, herr, hblocks, hnode, h.opened, List.foldl_append]
          exact ⟨rfl, rfl⟩
        all_goals
          obtain ⟨rfl, rfl⟩ := Prod.mk.inj hscan
          exact ⟨h.opened st₁ n, rfl⟩

end Follows

/-! ## Calls -/

section Calls

variable {ε : Type}

/-- A callback, as the answers it gives to its calls in order: its state is the number of calls. -/
def answering (answers : Nat → Option ε) (calls : Nat) (_ : Entry) : Nat × Option ε :=
  (calls + 1, answers calls)

/-- The calls that fail. -/
def failures (answers : Nat → Option ε) (i : Nat) : Bool := (answers i).isSome

theorem deliver_answering (answers : Nat → Option ε) (n : Nat) (es : List Entry) :
    (deliver (answering answers) n es).out = n + used (failures answers) n es.length ∧
      (deliver (answering answers) n es).calls = used (failures answers) n es.length ∧
      (deliver (answering answers) n es).err.isSome = failing (failures answers) n es.length := by
  induction es generalizing n with
  | nil => exact ⟨rfl, rfl, rfl⟩
  | cons e es ih =>
      obtain ⟨hout, hcalls, herr⟩ := ih (n + 1)
      rw [List.length_cons, used, failing, failures, deliver, answering]
      cases answers n with
      | some err => exact ⟨rfl, rfl, rfl⟩
      | none =>
          refine ⟨?_, ?_, herr⟩
          · simp only [hout, Option.isSome_none]
            rw [if_neg Bool.false_ne_true]
            omega
          · simp only [hcalls, Option.isSome_none]
            rfl

/-- The memtable's matches are handed out in order, and an error is returned. -/
theorem deliver_sorted (answers : Nat → Option ε) (n : Nat) (es : List Entry) :
    ((deliver (answering answers) n (sortByTimestamp es)).out,
        ((deliver (answering answers) n (sortByTimestamp es)).err.map QueryErr.consumer).isSome) =
      (n + used (failures answers) n es.length, failing (failures answers) n es.length) := by
  obtain ⟨hout, -, herr⟩ := deliver_answering answers n (sortByTimestamp es)
  rw [(sortByTimestamp_perm es).length_eq] at hout herr
  rw [hout, Option.isSome_map, herr]

/-- Each call for rows that all pass counts as a match. -/
theorem countP_take_used {p : Entry → Bool} {es : List Entry} (hes : ∀ e ∈ es, p e = true)
    (bad : Nat → Bool) (n : Nat) :
    (es.take (used bad n es.length)).countP p = used bad n es.length := by
  rw [List.countP_eq_length.mpr fun e he => hes e (List.mem_of_mem_take he), List.length_take,
    min_eq_left (used_le n es.length)]

/-- A query so far: the number of calls, or why it hangs, and how many matches it counted. -/
abbrev Progress := Except Stuck Nat × Nat

/-- Scan one block. -/
def advance (bad : Nat → Bool) (found : Visit → Except Stuck (List Entry)) (p : Progress)
    (v : Visit) : Progress :=
  match p.1 with
  | .error _ => p
  | .ok n =>
      match found v with
      | .error err => (.error err, p.2)
      | .ok es => (.ok (n + used bad n es.length), p.2 + used bad n es.length)

/-- How many matches the blocks have, up to the block in which the query hangs, if any. -/
def sizes (found : Visit → Except Stuck (List Entry)) : List Visit → List Nat × Bool
  | [] => ([], false)
  | v :: vs =>
      match found v with
      | .error _ => ([], true)
      | .ok es => (es.length :: (sizes found vs).1, (sizes found vs).2)

theorem foldl_advance_error (bad : Nat → Bool) (found : Visit → Except Stuck (List Entry))
    (vs : List Visit) (err : Stuck) (c : Nat) :
    vs.foldl (advance bad found) (.error err, c) = (.error err, c) := by
  induction vs with
  | nil => rfl
  | cons v vs ih => exact ih

theorem foldl_advance (bad : Nat → Bool) (found : Visit → Except Stuck (List Entry))
    (vs : List Visit) (n : Nat) :
    (vs.foldl (advance bad found) (.ok n, n)).2 = feed bad n (sizes found vs).1 ∧
      ((sizes found vs).2 = false → (vs.foldl (advance bad found) (.ok n, n)).1 =
        .ok (feed bad n (sizes found vs).1)) ∧
      ((sizes found vs).2 = true →
        ∃ err, (vs.foldl (advance bad found) (.ok n, n)).1 = .error err) := by
  induction vs generalizing n with
  | nil => exact ⟨rfl, fun _ => rfl, nofun⟩
  | cons v vs ih =>
      rw [List.foldl_cons, advance, sizes]
      cases found v with
      | error err =>
          simp only [foldl_advance_error]
          exact ⟨rfl, nofun, fun _ => ⟨err, rfl⟩⟩
      | ok es => exact ih _

end Calls

/-! ## The queries -/

namespace Query

variable {ε : Type}

section Spec

variable (env : Format.Env) (io : QueryIO) (fuel : Nat) (en : Engine) (start stop : Int)
  (n : Node) (cache : RowCache) (mem : List Entry)

/-- The block that the rows are taken from: the cached one, or the one read. -/
def source (v : Visit) : Option RowBlock :=
  match cache v.1 v.2.1 with
  | some bb => some bb
  | none => if io.reads v.1 v.2.1 then some v.2.2 else none

/-- The matches of a block, or why the query hangs there. -/
def found : Query → Visit → Except Stuck (List Entry)
  | .term t, v =>
      .ok ((source io cache v).elim [] fun b => iterate b start stop (toLower env.unicode t))
  | .matcher m, v =>
      match if !m.empty && m.labels.length > 0 then
          bloomPruned env (env.bloom v.2.2.rows) m.labels
        else .ok false with
      | .error err => .error err
      | .ok true => .ok []
      | .ok false => (source io cache v).elim (.ok []) fun b =>
          (BinBlock.ofRows b.rows).iterateMatcher env.json fuel start stop m

def visited (q : Query) : List Visit × Bool :=
  visits start stop io.opens io.cancelled (q.skips env start stop en n) n (timeParts start stop n)

/-- The numbers of matches of the blocks, in the order of the scan. -/
def blockMatches (q : Query) : List Nat :=
  (sizes (q.found env io fuel start stop cache) (q.visited env io en start stop n).1).1

/-- The query hangs in a block, the scan ends with an error of its own, or it comes to the
memtable. -/
def ending (q : Query) : Ending :=
  if (sizes (q.found env io fuel start stop cache) (q.visited env io en start stop n).1).2 then
    .hung
  else if (q.visited env io en start stop n).2 then .ended
  else .last (mem.filter (q.memAccepts env start stop)).length

/-- The number of calls, and whether the query returns an error.  A query that hangs returns none;
its calls are those it counted as matches. -/
def run (answers : Nat → Option ε) : Query → Nat × Bool
  | .term t =>
      let r := queryStreamWithStats env.unicode io start stop t (answering answers) 0 n cache mem
      (r.1.out, r.2.isSome)
  | .matcher m =>
      let r := queryMatcherWithStats env io fuel en start stop m (answering answers) 0 n cache mem
      match r.1.out with
      | .ok calls => (calls, r.2.isSome)
      | .error _ => (r.1.stats.entriesMatched, false)

end Spec

section Runs

variable {env : Format.Env} {io : QueryIO} {fuel : Nat} {en : Engine} {start stop : Int}
  {n : Node} {cache : RowCache} {mem : List Entry} {answers : Nat → Option ε}

theorem matches_of_mem_iterate {b : RowBlock} {term : Bytes} {e : Entry}
    (he : e ∈ iterate b start stop term) : e.matches start stop term = true := by
  rw [iterate_eq] at he
  exact (List.mem_filter.mp he).2

theorem labelsPass_of_iterateMatcher {J : JsonReader} {bb : BinBlock} {m : Matcher}
    {hits : List Entry} (h : bb.iterateMatcher J fuel start stop m = .ok hits) {e : Entry}
    (he : e ∈ hits) : m.labelsPass J e.data = true := by
  have hpasses := passes_of_iterateMatcher h he
  rw [BinBlock.passes, Bool.and_eq_true] at hpasses
  exact hpasses.2

theorem follows_consumeBlock (t : Bytes) :
    Follows (consumeBlock io start stop (toLower env.unicode t) (answering answers)) cache
      (fun st => (.ok st.out, st.stats.entriesMatched))
      (advance (failures answers) ((term t).found env io fuel start stop cache)) where
  sameNode id i b st := by
    simp only [consumeBlock, Scan.tally]
    repeat' split
    all_goals rfl
  sameCache id i b st := by
    simp only [consumeBlock, Scan.tally]
    repeat' split
    all_goals rfl
  opened _ _ := rfl
  tally st f hf := Prod.ext rfl (hf st.stats)
  block id i b st hcache := by
    simp only [consumeBlock, Scan.tally, advance, found, source, hcache]
    cases cache id i with
    | some bb =>
        have hguard : ∀ e ∈ iterate bb start stop (toLower env.unicode t),
            e.matches start stop (toLower env.unicode t) = true :=
          fun _ => matches_of_mem_iterate
        obtain ⟨hout, hcalls, -⟩ := deliver_answering answers st.out
          (iterate bb start stop (toLower env.unicode t))
        simp only [deliver_guard hguard, hout, hcalls, countP_take_used hguard, Option.elim_some]
    | none =>
        simp only
        split_ifs
        · obtain ⟨hout, hcalls, -⟩ := deliver_answering answers st.out
            (iterate b start stop (toLower env.unicode t))
          simp only [hout, hcalls, Option.elim_some]
        · rfl

theorem follows_matchBlock (m : Matcher) :
    Follows (matchBlock env io fuel start stop m (answering answers)) cache
      (fun st => (st.out, st.stats.entriesMatched))
      (advance (failures answers) ((matcher m).found env io fuel start stop cache)) where
  sameNode id i b st := by
    simp only [matchBlock, Scan.tally]
    repeat' split
    all_goals rfl
  sameCache id i b st := by
    simp only [matchBlock, Scan.tally]
    repeat' split
    all_goals rfl
  opened _ _ := rfl
  tally st f hf := Prod.ext rfl (hf st.stats)
  block id i b st hcache := by
    simp only [matchBlock, Scan.tally, advance, found, source, hcache]
    cases hout : st.out with
    | error err => simp only [hout]
    | ok calls =>
        simp only
        generalize (if !m.empty && m.labels.length > 0 then
          bloomPruned env (env.bloom b.rows) m.labels else .ok false) = pruned
        rcases pruned with err | _ | _
        · rfl
        · cases cache id i with
          | some bb =>
              simp only [Option.elim_some]
              cases hhits : (BinBlock.ofRows bb.rows).iterateMatcher env.json fuel start stop m with
              | error err => rfl
              | ok hits =>
                  have hguard : ∀ e ∈ hits, m.labelsPass env.json e.data = true :=
                    fun _ => labelsPass_of_iterateMatcher hhits
                  obtain ⟨hout, hcalls, -⟩ := deliver_answering answers calls hits
                  simp only [deliver_guard hguard, hout, hcalls, countP_take_used hguard]
          | none =>
              simp only
              split_ifs
              · simp only [Option.elim_some]
                cases (BinBlock.ofRows b.rows).iterateMatcher env.json fuel start stop m with
                | error err => rfl
                | ok hits =>
                    obtain ⟨hout, hcalls, -⟩ := deliver_answering answers calls hits
                    simp only [hout, hcalls]
              · rfl
        · rfl

/-- Where a query is when the scan of the parts is over. -/
theorem progress_of_scan {σ : Type} {q : Query} {blk : Bytes → Nat → RowBlock → Scan σ → Scan σ}
    {view : Scan σ → Progress} {bad : Nat → Bool}
    (h : Follows blk cache view (advance bad (q.found env io fuel start stop cache)))
    {st st' : Scan σ} {err : Option (QueryErr ε)} (hnode : st.node = n) (hcache : st.cache = cache)
    (hstart : view st = (.ok 0, 0))
    (hscan : scanParts start stop io.opens io.cancelled (q.skips env start stop en n) blk
      (timeParts start stop n) st = (st', err)) (mem : List Entry) :
    (view st').2 = feed bad 0 (q.blockMatches env io fuel en start stop n cache) ∧
      ((∃ stuck, (view st').1 = .error stuck) ∧
          q.ending env io fuel en start stop n cache mem = .hung ∨
        (view st').1 = .ok (feed bad 0 (q.blockMatches env io fuel en start stop n cache)) ∧
          q.ending env io fuel en start stop n cache mem = if err.isSome then .ended
            else .last (mem.filter (q.memAccepts env start stop)).length) := by
  obtain ⟨hview, herr⟩ := h.over_parts hcache hscan
  rw [hstart, hnode] at hview
  rw [hnode] at herr
  obtain ⟨hmatched, hok, hstuck⟩ := foldl_advance bad (q.found env io fuel start stop cache)
    (q.visited env io en start stop n).1 0
  have hview : view st' = List.foldl _ _ (q.visited env io en start stop n).1 := hview
  rw [← hview] at hmatched hok hstuck
  refine ⟨hmatched, ?_⟩
  rw [ending, herr]
  cases hhung : (sizes (q.found env io fuel start stop cache)
      (q.visited env io en start stop n).1).2 with
  | true => exact Or.inl ⟨hstuck hhung, rfl⟩
  | false => exact Or.inr ⟨hok hhung, rfl⟩

theorem run_term_eq_outcome (t : Bytes) :
    (term t).run env io fuel en start stop n cache mem answers =
      outcome (failures answers) ((term t).blockMatches env io fuel en start stop n cache)
        ((term t).ending env io fuel en start stop n cache mem) := by
  rw [run, queryStreamWithStats]
  have hfollows := @follows_consumeBlock ε env io fuel start stop cache answers t
  rcases hscan : scanParts (ε := ε) start stop io.opens io.cancelled
    (termPruned env.unicode (toLower env.unicode t)) (consumeBlock io start stop
      (toLower env.unicode t) (answering answers)) (timeParts start stop n)
    (startScan start stop n cache 0) with ⟨st, err⟩
  obtain ⟨-, ⟨⟨stuck, hstuck⟩, -⟩ | ⟨hout, hending⟩⟩ :=
    @progress_of_scan ε env io fuel en start stop n cache _ (term t) _ _ _ hfollows _ _ _
      rfl rfl rfl hscan mem
  · cases hstuck
  · have hout := Except.ok.inj hout
    rw [hending]
    cases err with
    | some err => exact Prod.ext hout rfl
    | none =>
        simp only [streamToWithStats, hout, deliver_sorted]
        rfl

theorem run_matcher_eq_outcome (m : Matcher) :
    (matcher m).run env io fuel en start stop n cache mem answers =
      outcome (failures answers) ((matcher m).blockMatches env io fuel en start stop n cache)
        ((matcher m).ending env io fuel en start stop n cache mem) := by
  rw [run, queryMatcherWithStats]
  have hfollows := @follows_matchBlock ε env io fuel start stop cache answers m
  generalize hst₀ : (startScan start stop n cache (Except.ok 0)).tally _ = st₀
  rcases hscan : scanParts (ε := ε) start stop io.opens io.cancelled
    (fun p => labelPruned env.unicode m p || indexPruned en m (timeParts start stop n) p)
    (matchBlock env io fuel start stop m (answering answers)) (timeParts start stop n) st₀
    with ⟨st, err⟩
  obtain ⟨hmatched, ⟨⟨stuck, hstuck⟩, hending⟩ | ⟨hout, hending⟩⟩ :=
    @progress_of_scan ε env io fuel en start stop n cache _ (matcher m) _ _ _ hfollows _ _ _
      (hst₀ ▸ rfl) (hst₀ ▸ rfl) (hst₀ ▸ rfl) hscan mem
  · have hstuck : st.out = .error stuck := hstuck
    have hmatched : st.stats.entriesMatched = _ := hmatched
    rw [hending]
    cases err with
    | some err =>
        simp only [hstuck, hmatched]
        rfl
    | none =>
        simp only [streamToMatcherWithStats, hstuck, hmatched]
        rfl
  · have hout : st.out = _ := hout
    rw [hending]
    cases err with
    | some err =>
        simp only [hout]
        rfl
    | none =>
        simp only [streamToMatcherWithStats, hout, deliver_sorted]
        rfl

theorem run_eq_outcome (q : Query) :
    q.run env io fuel en start stop n cache mem answers =
      outcome (failures answers) (q.blockMatches env io fuel en start stop n cache)
        (q.ending env io fuel en start stop n cache mem) := by
  cases q with
  | term t => exact run_term_eq_outcome t
  | matcher m => exact run_matcher_eq_outcome m

end Runs

/-- A call that fails is the last call and makes the query return an error, for every query and
state, just when no call for a match of a block fails, or when the scan ends with an error of its
own and no call fails but for the last block with a match. -/
theorem consumer_error_stops_iff (env : Format.Env) (io : QueryIO) (fuel : Nat) (en : Engine)
    (start stop : Int) (n : Node) (cache : RowCache) (mem : List Entry) (answers : Nat → Option ε)
    (q : Query) :
    (∀ i < (q.run env io fuel en start stop n cache mem answers).1, answers i ≠ none →
      i + 1 = (q.run env io fuel en start stop n cache mem answers).1 ∧
        (q.run env io fuel en start stop n cache mem answers).2 = true) ↔
      (∀ i < (q.blockMatches env io fuel en start stop n cache).sum, answers i = none) ∨
        q.ending env io fuel en start stop n cache mem = .ended ∧
          ∃ before k after,
            q.blockMatches env io fuel en start stop n cache = before ++ k :: after ∧
              (∀ m ∈ after, m = 0) ∧ ∀ i < before.sum, answers i = none := by
  have hstopped := stopped_outcome_iff (failures answers)
    (q.blockMatches env io fuel en start stop n cache)
    (q.ending env io fuel en start stop n cache mem)
  simp only [Stopped, ← run_eq_outcome, failures, Option.isSome_iff_ne_none,
    Option.isSome_eq_false_iff, Option.isNone_iff_eq_none] at hstopped
  exact hstopped

/-- The first call fails. -/
def failsFirst (i : Nat) : Option Unit := if i = 0 then some () else none

def fullBlock : RowBlock := ⟨[⟨1, ascii "disk full"⟩], List.cons_ne_nil _ _⟩

/-- One match is in a block, cached or not, and one in the memtable. -/
def diskRun (cached : Bool) (q : Query) : Nat × Bool :=
  q.run Format.plainEnv QueryIO.good 0 Engine.empty 0 9 diskStore.world.node
    (if cached then diskStore.cache.set (ascii "p1") 0 fullBlock else diskStore.cache)
    diskStore.mem failsFirst

/-- The first call fails, a second is made, and no error is returned: for both queries, and whether
the block is cached or read. -/
theorem consumer_error_ignored :
    diskRun false (term (ascii "disk")) = (2, false) ∧
      diskRun true (term (ascii "disk")) = (2, false) ∧
      diskRun false (matcher noFilter) = (2, false) ∧
      diskRun true (matcher noFilter) = (2, false) ∧
      ¬∀ i < (diskRun false (term (ascii "disk"))).1, failsFirst i ≠ none →
        i + 1 = (diskRun false (term (ascii "disk"))).1 ∧
          (diskRun false (term (ascii "disk"))).2 = true := by
  have hterm : diskRun false (term (ascii "disk")) = (2, false) := by decide +kernel
  refine ⟨hterm, by decide +kernel, by decide +kernel, by decide +kernel, ?_⟩
  rw [hterm]
  decide

end Query

end Shrimpd.Lsm
