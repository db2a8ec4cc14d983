import Shrimpd.Lsm.Listed

/-!
# Term queries

A query walks the listed parts that overlap its time range, skips parts that its
pruning rules out, and filters the rows of the blocks that are left; then it
filters the memtable.  One form collects and sorts the entries, the other hands
each to a consumer.  The answers of the disk and of the request's context are
inputs of the query.
-/

namespace Shrimpd.Lsm

open Shrimpd.Lib Shrimpd.Types Shrimpd.Block

/-! ## Scanning parts -/

structure QueryStats where
  partsTotal : Nat := 0
  partsPrunedByTS : Nat := 0
  partsPrunedByIndex : Nat := 0
  partsScanned : Nat := 0
  blocksTotal : Nat := 0
  blocksPrunedByTS : Nat := 0
  blocksPrunedByIndex : Nat := 0
  blocksPrunedByBloom : Nat := 0
  blocksScanned : Nat := 0
  entriesScanned : Nat := 0
  entriesMatched : Nat := 0
  usedIndex : Bool := false
  deriving DecidableEq, Repr

/-- `ε` is the type of the errors of the consumer. -/
inductive QueryErr (ε : Type) where
  | openPart (id : Bytes)
  | notFound (id : Bytes)
  | cancelled
  | consumer (err : ε)
  deriving DecidableEq, Repr

/-- Decoded blocks by part and block number. -/
abbrev RowCache := Bytes → Nat → Option RowBlock

def RowCache.set (cache : RowCache) (id : Bytes) (i : Nat) (b : RowBlock) : RowCache :=
  fun a j => if a = id ∧ j = i then some b else cache a j

/-- Which parts open, which blocks can be read, and whether the context is done when a
part's turn comes. -/
structure QueryIO where
  opens : Bytes → Bool
  reads : Bytes → Nat → Bool
  cancelled : Bytes → Bool

def QueryIO.good : QueryIO := ⟨fun _ => true, fun _ _ => true, fun _ => false⟩

/-- What a query carries along; `out` is what has become of the entries found. -/
structure Scan (σ : Type) where
  node : Node
  cache : RowCache
  stats : QueryStats
  out : σ

section Scanning

variable {σ ε : Type}

def Scan.tally (st : Scan σ) (f : QueryStats → QueryStats) : Scan σ :=
  { st with stats := f st.stats }

/-- The parts are chosen by time before any of them is opened. -/
def startScan (start stop : Int) (n : Node) (cache : RowCache) (out : σ) : Scan σ where
  node := n
  cache := cache
  stats :=
    { partsTotal := n.parts.length
      partsPrunedByTS := n.parts.countP fun m => !m.overlaps start stop
      blocksTotal := ((n.parts.filter fun m => m.overlaps start stop).map PartMeta.blockCount).sum }
  out := out

def timeParts (start stop : Int) (n : Node) : List PartMeta :=
  n.parts.filter fun m => m.overlaps start stop

/-- The header says that no row of the block is in the range. -/
def blockOutside (b : RowBlock) (start stop : Int) : Bool :=
  b.header.maxTimestamp < start || b.header.minTimestamp > stop

section Loops

variable (start stop : Int)

def scanBlocks (blk : Nat → RowBlock → Scan σ → Scan σ) : Nat → List RowBlock → Scan σ → Scan σ
  | _, [], st => st
  | i, b :: bs, st =>
      let st :=
        if blockOutside b start stop then
          st.tally fun q => { q with blocksPrunedByTS := q.blocksPrunedByTS + 1 }
        else blk i b st
      scanBlocks blk (i + 1) bs st

/-- The loop over the parts, up to the first error. -/
def scanParts (opens cancelled : Bytes → Bool) (prune : PartMeta → Bool)
    (blk : Bytes → Nat → RowBlock → Scan σ → Scan σ) :
    List PartMeta → Scan σ → Scan σ × Option (QueryErr ε)
  | [], st => (st, none)
  | m :: ms, st =>
      if cancelled m.id then (st, some .cancelled)
      else if prune m then
        scanParts opens cancelled prune blk ms (st.tally fun q =>
          { q with
            partsPrunedByIndex := q.partsPrunedByIndex + 1
            blocksPrunedByIndex := q.blocksPrunedByIndex + m.blockCount })
      else
        let st := st.tally fun q => { q with partsScanned := q.partsScanned + 1 }
        match st.node.getPart opens m.id with
        | (n, .failed) => ({ st with node := n }, some (.openPart m.id))
        | (n, .missing) => ({ st with node := n }, some (.notFound m.id))
        | (n, .found f) =>
            scanParts opens cancelled prune blk ms
              (scanBlocks start stop (blk m.id) 0 f.blocks { st with node := n })

end Loops

/-! ## The two queries -/

/-- `BinBlock.Iterate`: the rows it calls back for. -/
def iterate (b : RowBlock) (start stop : Int) (term : Bytes) : List Entry :=
  b.rows.filter fun e =>
    !(e.timestamp < start || e.timestamp > stop) && !(term ≠ [] && !foldContains e.data term)

/-- The term is looked up in the part's token set; an incomplete set cannot prune. -/
def termPruned (U : Unicode) (term : Bytes) (m : PartMeta) : Bool :=
  term ≠ [] && !m.tokensTruncated && !hasToken U m.tokens term

def Scan.collect (st : Scan (List Entry)) (es : List Entry) : Scan (List Entry) :=
  { st with
    stats :=
      { st.stats with
        entriesScanned := st.stats.entriesScanned + es.length
        entriesMatched := st.stats.entriesMatched + es.length }
    out := st.out ++ es }

/-- A block that cannot be read is skipped. -/
def collectBlock (io : QueryIO) (start stop : Int) (term id : Bytes) (i : Nat) (b : RowBlock)
    (st : Scan (List Entry)) : Scan (List Entry) :=
  let st := st.tally fun q => { q with blocksScanned := q.blocksScanned + 1 }
  match st.cache id i with
  | some bb => st.collect (iterate bb start stop term)
  | none =>
      if io.reads id i then
        ({ st with cache := st.cache.set id i b }).collect (iterate b start stop term)
      else st

def filterToWithStats (mem : List Entry) (start stop : Int) (term : Bytes)
    (st : Scan (List Entry)) : Scan (List Entry) :=
  let hits := mem.filter fun e => e.matches start stop term
  { st with
    stats :=
      { st.stats with
        entriesScanned := st.stats.entriesScanned + mem.length
        entriesMatched := st.stats.entriesMatched + hits.length }
    out := st.out ++ hits }

/-- After an error no entries are returned. -/
def queryWithStats (U : Unicode) (io : QueryIO) (start stop : Int) (term : Bytes) (n : Node)
    (cache : RowCache) (mem : List Entry) : Scan (List Entry) × Option (QueryErr Empty) :=
  let normalizedTerm := toLower U term
  match scanParts start stop io.opens (fun _ => false) (termPruned U normalizedTerm)
      (collectBlock io start stop normalizedTerm) (timeParts start stop n)
      (startScan start stop n cache []) with
  | (st, some err) => ({ st with out := [] }, some err)
  | (st, none) =>
      let st := filterToWithStats mem start stop normalizedTerm st
      ({ st with out := sortByTimestamp st.out }, none)

/-- How far a consumer was fed: its state, the number of calls, and its error. -/
structure Delivered (σ ε : Type) where
  out : σ
  calls : Nat
  err : Option ε

/-- Call `fn` on one entry after the other, up to its first error. -/
def deliver (fn : σ → Entry → σ × Option ε) : σ → List Entry → Delivered σ ε
  | out, [] => ⟨out, 0, none⟩
  | out, e :: es =>
      match fn out e with
      | (out, some err) => ⟨out, 1, some err⟩
      | (out, none) =>
          let rest := deliver fn out es
          { rest with calls := rest.calls + 1 }

/-- On both paths an error of the consumer ends the block only. -/
def consumeBlock (io : QueryIO) (start stop : Int) (term : Bytes)
    (fn : σ → Entry → σ × Option ε) (id : Bytes) (i : Nat) (b : RowBlock) (st : Scan σ) : Scan σ :=
  let st := st.tally fun q => { q with blocksScanned := q.blocksScanned + 1 }
  match st.cache id i with
  | some bb =>
      let hits := iterate bb start stop term
      let r := deliver
        (fun out e => if e.matches start stop term then fn out e else (out, none)) st.out hits
      let matched := (hits.take r.calls).countP fun e => e.matches start stop term
      { st with
        stats :=
          { st.stats with
            entriesScanned := st.stats.entriesScanned + r.calls
            entriesMatched := st.stats.entriesMatched + matched }
        out := r.out }
  | none =>
      let st := st.tally fun q => { q with entriesScanned := q.entriesScanned + b.header.count }
      if io.reads id i then
        let r := deliver fn st.out (iterate b start stop term)
        { st with
          stats := { st.stats with entriesMatched := st.stats.entriesMatched + r.calls }
          out := r.out }
      else st

/-- The memtable's matches do not count as matched. -/
def streamToWithStats (mem : List Entry) (start stop : Int) (term : Bytes)
    (fn : σ → Entry → σ × Option ε) (st : Scan σ) : Scan σ × Option (QueryErr ε) :=
  let hits := mem.filter fun e => e.matches start stop term
  let r := deliver fn st.out (sortByTimestamp hits)
  ({ st with
      stats := { st.stats with entriesScanned := st.stats.entriesScanned + mem.length }
      out := r.out },
    r.err.map .consumer)

def queryStreamWithStats (U : Unicode) (io : QueryIO) (start stop : Int) (term : Bytes)
    (fn : σ → Entry → σ × Option ε) (out : σ) (n : Node) (cache : RowCache) (mem : List Entry) :
    Scan σ × Option (QueryErr ε) :=
  let normalizedTerm := toLower U term
  match scanParts start stop io.opens io.cancelled (termPruned U normalizedTerm)
      (consumeBlock io start stop normalizedTerm fn) (timeParts start stop n)
      (startScan start stop n cache out) with
  | (st, some err) => (st, some err)
  | (st, none) => streamToWithStats mem start stop normalizedTerm fn st

/-- The consumer that records what it is handed. -/
def record (out : List Entry) (e : Entry) : List Entry × Option Empty := (out ++ [e], none)

end Scanning

/-! ## The invariant rule of a scan -/

/-- Cached blocks are those of the part files. -/
def CacheOk (n : Node) (cache : RowCache) : Prop :=
  ∀ id i b, cache id i = some b → ∃ f, n.content id = some f ∧ f.blocks[i]? = some b

/-- A query changes nothing the node lists or reads. -/
structure Scan.Ok {σ : Type} (n : Node) (st : Scan σ) : Prop where
  same : n.Same st.node
  cache : CacheOk n st.cache

/-- An invariant of a scan, indexed by the rows of the parts scanned so far. -/
structure ScanInv {σ : Type} (start stop : Int) (blk : Bytes → Nat → RowBlock → Scan σ → Scan σ)
    (n : Node) (I : List Entry → Scan σ → Prop) : Prop where
  node : ∀ {done st}, I done st → n.Same st.node
  opened : ∀ {done st n'}, I done st → n.Same n' → I done { st with node := n' }
  tally : ∀ {done st} f, I done st → I done (st.tally f)
  skip : ∀ {done st m f} {i : Nat} {b}, m ∈ n.parts → n.content m.id = some f →
    f.blocks[i]? = some b → blockOutside b start stop = true → I done st → I (done ++ b.rows) st
  block : ∀ {done st m f} {i : Nat} {b}, m ∈ n.parts → n.content m.id = some f →
    f.blocks[i]? = some b → I done st → I (done ++ b.rows) (blk m.id i b st)

section Rule

variable {σ ε : Type} {start stop : Int} {blk : Bytes → Nat → RowBlock → Scan σ → Scan σ}
  {n : Node} {I : List Entry → Scan σ → Prop}

theorem ScanInv.over_blocks (h : ScanInv start stop blk n I) {m : PartMeta} {f : PartFile}
    (hm : m ∈ n.parts) (hf : n.content m.id = some f) {bs : List RowBlock} {i : Nat}
    (hbs : ∀ j b, bs[j]? = some b → f.blocks[i + j]? = some b) {done : List Entry} {st : Scan σ}
    (hinit : I done st) :
    I (done ++ bs.flatMap RowBlock.rows) (scanBlocks start stop (blk m.id) i bs st) := by
  induction bs generalizing i done st with
  | nil => simpa [scanBlocks] using hinit
  | cons b bs ih =>
      have hb : f.blocks[i]? = some b := hbs 0 b rfl
      have htail : ∀ j c, bs[j]? = some c → f.blocks[i + 1 + j]? = some c := by
        intro j c hc
        rw [Nat.add_assoc, Nat.add_comm 1 j]
        exact hbs (j + 1) c hc
      rw [scanBlocks, List.flatMap_cons, ← List.append_assoc]
      apply ih htail
      split_ifs with houtside
      · exact h.tally _ (h.skip hm hf hb houtside hinit)
      · exact h.block hm hf hb hinit

/-- Nothing stops the loop over these parts. -/
structure Unhindered (n : Node) (opens cancelled : Bytes → Bool) (ms : List PartMeta) : Prop where
  opens : ∀ id, opens id = true
  runs : ∀ id, cancelled id = false
  content : ∀ m ∈ ms, (n.content m.id).isSome = true

theorem getPart_of_content {n : Node} {opens : Bytes → Bool} {id : Bytes}
    (hopens : opens id = true) (hcontent : (n.content id).isSome = true) :
    ∃ f, (n.getPart opens id).2 = .found f := by
  unfold Node.getPart
  unfold Node.content at hcontent
  cases hfd : n.fds id with
  | some f => exact ⟨f, rfl⟩
  | none =>
      cases hfile : n.files id with
      | some f => exact ⟨f, by simp [hopens]⟩
      | none => simp [hfd, hfile] at hcontent

/-- The rule: without an error the scan has seen all rows of the parts it did not prune. -/
theorem ScanInv.over_parts (h : ScanInv start stop blk n I) (opens cancelled : Bytes → Bool)
    (prune : PartMeta → Bool) {ms : List PartMeta} (hms : ∀ m ∈ ms, m ∈ n.parts)
    {done : List Entry} {st : Scan σ} (hinit : I done st) {st' : Scan σ} {err : Option (QueryErr ε)}
    (hscan : scanParts start stop opens cancelled prune blk ms st = (st', err)) :
    (Unhindered n opens cancelled ms → err = none) ∧
      ∃ seen, I seen st' ∧ (err = none → seen =
        done ++ (ms.filter fun m => !prune m).flatMap fun m => n.rows m.id) := by
  induction ms generalizing done st with
  | nil =>
      obtain ⟨rfl, rfl⟩ := Prod.mk.inj hscan
      exact ⟨fun _ => rfl, done, hinit, fun _ => by simp⟩
  | cons m ms ih =>
      have hm := hms m List.mem_cons_self
      have htail : ∀ p ∈ ms, p ∈ n.parts := fun p hp => hms p (List.mem_cons_of_mem _ hp)
      have hrest (hfree : Unhindered n opens cancelled (m :: ms)) :
          Unhindered n opens cancelled ms :=
        ⟨hfree.opens, hfree.runs, fun p hp => hfree.content p (List.mem_cons_of_mem _ hp)⟩
      rw [scanParts] at hscan
      split_ifs at hscan with hcancel hprune
      · obtain ⟨rfl, rfl⟩ := Prod.mk.inj hscan
        refine ⟨fun hfree => ?_, done, hinit, by simp⟩
        rw [hfree.runs] at hcancel
        exact absurd hcancel (by decide)
      · obtain ⟨herr, seen, hseen, hrows⟩ := ih htail (h.tally _ hinit) hscan
        refine ⟨fun hfree => herr (hrest hfree), seen, hseen, fun hnone => ?_⟩
        rw [hrows hnone, List.filter_cons_of_neg (by simp [hprune])]
      · -- the part is opened in the node as it is now, which reads what `n` reads
        generalize hst : (st.tally fun q => { q with partsScanned := q.partsScanned + 1 }) = st₁
          at hscan
        have hinit₁ : I done st₁ := hst ▸ h.tally _ hinit
        have hnode := h.node hinit₁
        have hsame := hnode.trans (same_getPart st₁.node opens m.id)
        have hopened := @getPart_of_content st₁.node opens m.id
        have hfound := @content_of_found st₁.node opens m.id
        rcases hget : st₁.node.getPart opens m.id with ⟨n₁, f | _ | _⟩
        all_goals simp only [hget] at hscan hsame hopened hfound
        · have hf : n.content m.id = some f := by
            rw [← hnode.content]
            exact hfound rfl
          have hall : ∀ j b, f.blocks[j]? = some b → f.blocks[0 + j]? = some b := by
            intro j b hb
            rwa [Nat.zero_add]
          have hblocks := h.over_blocks hm hf hall (h.opened hinit₁ hsame)
          obtain ⟨herr, seen, hseen, hrows⟩ := ih htail hblocks hscan
          refine ⟨fun hfree => herr (hrest hfree), seen, hseen, fun hnone => ?_⟩
          have hpart : n.rows m.id = f.blocks.flatMap RowBlock.rows := by
            rw [Node.rows, hf]
            rfl
          rw [hrows hnone, List.filter_cons_of_pos (by simp [hprune]), List.flatMap_cons, hpart,
            List.append_assoc]
        all_goals
          obtain ⟨rfl, rfl⟩ := Prod.mk.inj hscan
          refine ⟨fun hfree => ?_, done, h.opened hinit₁ hsame, by simp⟩
          have hcontent := hfree.content m List.mem_cons_self
          rw [← hnode.content] at hcontent
          obtain ⟨f, hfalse⟩ := hopened (hfree.opens m.id) hcontent
          exact absurd hfalse (by simp)

end Rule

/-! ## What the queries find -/

theorem iterate_eq (b : RowBlock) (start stop : Int) (term : Bytes) :
    iterate b start stop term = b.rows.filter fun e => e.matches start stop term := by
  apply List.filter_congr
  intro e _
  unfold Entry.matches
  by_cases hterm : term = [] <;> grind

/-- Testing again what the block has already filtered changes nothing. -/
theorem deliver_guard {σ ε : Type} {fn : σ → Entry → σ × Option ε} {p : Entry → Bool}
    {es : List Entry} (hes : ∀ e ∈ es, p e = true) (out : σ) :
    deliver (fun out e => if p e then fn out e else (out, none)) out es = deliver fn out es := by
  induction es generalizing out with
  | nil => rfl
  | cons e es ih =>
      have hrest := ih fun a ha => hes a (List.mem_cons_of_mem _ ha)
      simp only [deliver, hes e List.mem_cons_self, if_true, hrest]

theorem deliver_record (out es : List Entry) :
    deliver record out es = ⟨out ++ es, es.length, none⟩ := by
  induction es generalizing out with
  | nil => simp [deliver]
  | cons e es ih => simp [deliver, record, ih]

/-- Nothing in a block outside the range is in the range. -/
theorem outside_rows {f : PartFile} (hsorted : SortedRows f.rows) {i : Nat} {b : RowBlock}
    (hb : f.blocks[i]? = some b) {start stop : Int} (houtside : blockOutside b start stop = true)
    (term : Bytes) : (b.rows.filter fun e => e.matches start stop term) = [] := by
  have hrows := hsorted.block (List.mem_of_getElem? hb)
  rw [List.filter_eq_nil_iff]
  intro e he hmatches
  have hrange := Entry.range_of_matches hmatches
  have hfirst := hrows.first_le he
  have hlast := hrows.le_last he
  simp only [blockOutside, Bool.or_eq_true, decide_eq_true_eq] at houtside
  simp only [RowBlock.header] at houtside
  omega

section Found

variable {σ ε : Type} {io : QueryIO} {start stop : Int} {term : Bytes} {n : Node}

theorem CacheOk.set {cache : RowCache} (h : CacheOk n cache) {id : Bytes} {f : PartFile} {i : Nat}
    {b : RowBlock} (hf : n.content id = some f) (hb : f.blocks[i]? = some b) :
    CacheOk n (cache.set id i b) := by
  intro a j c hc
  unfold RowCache.set at hc
  split_ifs at hc with heq
  · obtain ⟨rfl, rfl⟩ := heq
    obtain rfl := Option.some.inj hc
    exact ⟨f, hf, hb⟩
  · exact h a j c hc

/-- The block the cache holds is the one in the file. -/
theorem CacheOk.eq {cache : RowCache} (h : CacheOk n cache) {id : Bytes} {f : PartFile} {i : Nat}
    {b bb : RowBlock} (hf : n.content id = some f) (hb : f.blocks[i]? = some b)
    (hhit : cache id i = some bb) : bb = b := by
  obtain ⟨g, hg, hbb⟩ := h id i bb hhit
  rw [hf, Option.some.injEq] at hg
  rw [← hg, hb, Option.some.injEq] at hbb
  exact hbb.symm

/-- The listed parts' rows are in timestamp order. -/
def SortedParts (n : Node) : Prop := ∀ m ∈ n.parts, ∀ f, n.content m.id = some f → SortedRows f.rows

/-- So far a scan that meets no read error has found the matching rows it has seen. -/
structure Scan.Found (n : Node) (io : QueryIO) (start stop : Int) (term : Bytes)
    (done : List Entry) (st : Scan (List Entry)) : Prop extends Scan.Ok n st where
  out : (∀ id i, io.reads id i = true) → SortedParts n →
    st.out = done.filter fun e => e.matches start stop term

/-- Common part of the two instances: only the block function differs. -/
theorem scanInv_of_block {blk : Bytes → Nat → RowBlock → Scan (List Entry) → Scan (List Entry)}
    (hok : ∀ {st : Scan (List Entry)} {id f} {i : Nat} {b}, n.content id = some f →
      f.blocks[i]? = some b → st.Ok n → (blk id i b st).Ok n)
    (hout : ∀ {st : Scan (List Entry)} {id f} {i : Nat} {b}, n.content id = some f →
      f.blocks[i]? = some b → st.Ok n → (∀ id i, io.reads id i = true) →
        (blk id i b st).out = st.out ++ b.rows.filter fun e => e.matches start stop term) :
    ScanInv start stop blk n (Scan.Found n io start stop term) where
  node h := h.same
  opened h hsame := ⟨⟨hsame, h.cache⟩, h.out⟩
  tally f h := ⟨⟨h.same, h.cache⟩, h.out⟩
  skip hm hf hb houtside h := by
    refine ⟨⟨h.same, h.cache⟩, fun hreads hsorted => ?_⟩
    rw [List.filter_append, outside_rows (hsorted _ hm _ hf) hb houtside, List.append_nil]
    exact h.out hreads hsorted
  block hm hf hb h := by
    refine ⟨hok hf hb h.toOk, fun hreads hsorted => ?_⟩
    rw [hout hf hb h.toOk hreads, List.filter_append, h.out hreads hsorted]

theorem ok_collectBlock {st : Scan (List Entry)} {id : Bytes} {f : PartFile} {i : Nat}
    {b : RowBlock} (hf : n.content id = some f) (hb : f.blocks[i]? = some b) (h : st.Ok n) :
    (collectBlock io start stop term id i b st).Ok n := by
  simp only [collectBlock, Scan.tally]
  cases st.cache id i with
  | some bb => exact ⟨h.same, h.cache⟩
  | none =>
      simp only
      split_ifs
      · exact ⟨h.same, h.cache.set hf hb⟩
      · exact ⟨h.same, h.cache⟩

theorem out_collectBlock {st : Scan (List Entry)} {id : Bytes} {f : PartFile} {i : Nat}
    {b : RowBlock} (hf : n.content id = some f) (hb : f.blocks[i]? = some b) (h : st.Ok n)
    (hreads : ∀ id i, io.reads id i = true) :
    (collectBlock io start stop term id i b st).out =
      st.out ++ b.rows.filter fun e => e.matches start stop term := by
  rw [← iterate_eq]
  simp only [collectBlock, Scan.tally, Scan.collect]
  cases hhit : st.cache id i with
  | some bb => rw [h.cache.eq hf hb hhit]
  | none => simp only [hreads, if_true]

theorem ok_consumeBlock (fn : σ → Entry → σ × Option ε) {st : Scan σ} {id : Bytes} {i : Nat}
    {b : RowBlock} (h : st.Ok n) : (consumeBlock io start stop term fn id i b st).Ok n := by
  simp only [consumeBlock, Scan.tally]
  cases st.cache id i with
  | some bb => exact ⟨h.same, h.cache⟩
  | none =>
      simp only
      split_ifs <;> exact ⟨h.same, h.cache⟩

theorem out_consumeBlock {st : Scan (List Entry)} {id : Bytes} {f : PartFile} {i : Nat}
    {b : RowBlock} (hf : n.content id = some f) (hb : f.blocks[i]? = some b) (h : st.Ok n)
    (hreads : ∀ id i, io.reads id i = true) :
    (consumeBlock io start stop term record id i b st).out =
      st.out ++ b.rows.filter fun e => e.matches start stop term := by
  simp only [consumeBlock, Scan.tally]
  cases hhit : st.cache id i with
  | some bb =>
      obtain rfl := h.cache.eq hf hb hhit
      have hguard : ∀ e ∈ bb.rows.filter fun e => e.matches start stop term,
          e.matches start stop term = true := fun e he => (List.mem_filter.mp he).2
      simp only [iterate_eq, deliver_guard hguard, deliver_record]
  | none => simp only [hreads, if_true, deliver_record, iterate_eq]

theorem scanInv_collectBlock : ScanInv start stop (collectBlock io start stop term) n
    (Scan.Found n io start stop term) :=
  scanInv_of_block ok_collectBlock out_collectBlock

theorem scanInv_consumeBlock : ScanInv start stop (consumeBlock io start stop term record) n
    (Scan.Found n io start stop term) :=
  scanInv_of_block (fun _ _ => ok_consumeBlock record) out_consumeBlock

theorem mem_timeParts {m : PartMeta} (hm : m ∈ timeParts start stop n) : m ∈ n.parts :=
  (List.mem_filter.mp hm).1

/-- Entries the parts contribute to a term query. -/
def partHits (U : Unicode) (start stop : Int) (term : Bytes) (n : Node) : List Entry :=
  ((timeParts start stop n).filter fun m => !termPruned U term m).flatMap fun m =>
    (n.rows m.id).filter fun e => e.matches start stop term

/-- No answer of the disk or of the context is a failure. -/
structure QueryIO.Works (io : QueryIO) : Prop where
  opens : ∀ id, io.opens id = true
  reads : ∀ id i, io.reads id i = true
  runs : ∀ id, io.cancelled id = false

variable {U : Unicode} {cache : RowCache}

theorem sortedParts (h : PartsOk U n) : SortedParts n := by
  intro m hm f hf
  obtain ⟨g, hg⟩ := h.part m hm
  rw [hg.content, Option.some.injEq] at hf
  exact hf ▸ hg.sorted

theorem PartsOk.unhindered (h : PartsOk U n) {opens cancelled : Bytes → Bool}
    (hopens : ∀ id, opens id = true) (hruns : ∀ id, cancelled id = false) :
    Unhindered n opens cancelled (timeParts start stop n) := by
  refine ⟨hopens, hruns, fun m hm => ?_⟩
  obtain ⟨f, hf⟩ := h.part m (mem_timeParts hm)
  rw [hf.content]
  rfl

/-- Both scans of a term query end with the matching rows of the parts not pruned. -/
theorem ScanInv.hits {blk : Bytes → Nat → RowBlock → Scan (List Entry) → Scan (List Entry)}
    (h : ScanInv start stop blk n (Scan.Found n io start stop term)) (hcache : CacheOk n cache)
    {cancelled : Bytes → Bool} {st : Scan (List Entry)} {err : Option (QueryErr ε)}
    (hscan : scanParts start stop io.opens cancelled (termPruned U term) blk
      (timeParts start stop n) (startScan start stop n cache []) = (st, err)) :
    st.Ok n ∧ (io.Works → (∀ id, cancelled id = false) → PartsOk U n →
      err = none ∧ st.out = partHits U start stop term n) := by
  have hinit : Scan.Found n io start stop term [] (startScan start stop n cache []) :=
    ⟨⟨Node.Same.refl n, hcache⟩, fun _ _ => rfl⟩
  obtain ⟨herr, seen, hseen, hrows⟩ := h.over_parts io.opens cancelled (termPruned U term)
    (fun m => mem_timeParts) hinit hscan
  refine ⟨hseen.toOk, fun hworks hruns hparts => ?_⟩
  have hnone := herr (hparts.unhindered hworks.opens hruns)
  refine ⟨hnone, ?_⟩
  rw [hseen.out hworks.reads (sortedParts hparts), hrows hnone, List.nil_append,
    List.filter_flatMap]
  rfl

theorem queryWithStats_spec (io : QueryIO) (start stop : Int) (term : Bytes) (mem : List Entry)
    (hcache : CacheOk n cache) :
    (queryWithStats U io start stop term n cache mem).1.Ok n ∧
      (io.Works → PartsOk U n →
        (queryWithStats U io start stop term n cache mem).2 = none ∧
        (queryWithStats U io start stop term n cache mem).1.out.Perm
          (partHits U start stop (toLower U term) n ++
            mem.filter fun e => e.matches start stop (toLower U term))) := by
  unfold queryWithStats
  simp only
  rcases hscan : scanParts (ε := Empty) start stop io.opens (fun _ => false) (termPruned U _)
    (collectBlock io start stop _) (timeParts start stop n) (startScan start stop n cache [])
    with ⟨st, err⟩
  obtain ⟨hok, hhits⟩ := scanInv_collectBlock.hits hcache hscan
  cases err with
  | some err =>
      refine ⟨⟨hok.same, hok.cache⟩, fun hworks hparts => ?_⟩
      exact absurd (hhits hworks (fun _ => rfl) hparts).1 (by simp)
  | none =>
      refine ⟨⟨hok.same, hok.cache⟩, fun hworks hparts => ⟨rfl, ?_⟩⟩
      rw [← (hhits hworks (fun _ => rfl) hparts).2]
      exact sortByTimestamp_perm _

theorem queryStreamWithStats_spec (io : QueryIO) (start stop : Int) (term : Bytes)
    (mem : List Entry) (hcache : CacheOk n cache) :
    (queryStreamWithStats U io start stop term record [] n cache mem).1.Ok n ∧
      (io.Works → PartsOk U n →
        (queryStreamWithStats U io start stop term record [] n cache mem).2 = none ∧
        (queryStreamWithStats U io start stop term record [] n cache mem).1.out.Perm
          (partHits U start stop (toLower U term) n ++
            mem.filter fun e => e.matches start stop (toLower U term))) := by
  unfold queryStreamWithStats
  simp only
  rcases hscan : scanParts (ε := Empty) start stop io.opens io.cancelled (termPruned U _)
    (consumeBlock io start stop _ record) (timeParts start stop n)
    (startScan start stop n cache []) with ⟨st, err⟩
  obtain ⟨hok, hhits⟩ := scanInv_consumeBlock.hits hcache hscan
  cases err with
  | some err =>
      refine ⟨hok, fun hworks hparts => ?_⟩
      exact absurd (hhits hworks hworks.runs hparts).1 (by simp)
  | none =>
      simp only [streamToWithStats, deliver_record]
      refine ⟨⟨hok.same, hok.cache⟩, fun hworks hparts => ⟨rfl, ?_⟩⟩
      rw [(hhits hworks hworks.runs hparts).2]
      exact (sortByTimestamp_perm _).append_left _

end Found

end Shrimpd.Lsm
