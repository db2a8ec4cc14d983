import Shrimpd.Block.LiteralScan
import Shrimpd.Lib.Greatest
import Shrimpd.Lsm.QueryMatcher

/-!
# The order of a streamed answer

A streaming query hands out the hits of one part after the other, in the order
in which the node lists them, and then those of the memtable.  Only within a
part and within the memtable are they sorted.
-/

namespace Shrimpd.Lsm

open Shrimpd.Lib Shrimpd.Types Shrimpd.Block Shrimpd.Filter

/-- The blocks the node reads of a part. -/
def Node.blocks (n : Node) (id : Bytes) : List RowBlock :=
  ((n.content id).map PartFile.blocks).getD []

theorem Node.rows_eq_blocks (n : Node) (id : Bytes) :
    n.rows id = (n.blocks id).flatMap RowBlock.rows := by
  unfold Node.rows Node.blocks
  cases n.content id <;> rfl

/-! ## What a scan hands out -/

/-- A block function that changes the output only by the block, whether it is cached or read. -/
structure Acts {σ : Type} (n : Node) (blk : Bytes → Nat → RowBlock → Scan σ → Scan σ)
    (act : σ → RowBlock → σ) : Prop where
  ok : ∀ {st id} {i : Nat} {b}, st.Ok n → (blk id i b st).Ok n
  out : ∀ {st id f} {i : Nat} {b}, n.content id = some f → f.blocks[i]? = some b → st.Ok n →
    (blk id i b st).out = act st.out b

section Scans

variable {σ ε : Type} {n : Node} {blk : Bytes → Nat → RowBlock → Scan σ → Scan σ}
  {act : σ → RowBlock → σ} {start stop : Int} {opens cancelled : Bytes → Bool}
  {prune : PartMeta → Bool}

theorem Acts.over_blocks (h : Acts n blk act) {id : Bytes} {f : PartFile}
    (hf : n.content id = some f) {bs : List RowBlock} {i : Nat}
    (hbs : ∀ j b, bs[j]? = some b → f.blocks[i + j]? = some b) {st : Scan σ} (hst : st.Ok n) :
    (scanBlocks start stop (blk id) i bs st).Ok n ∧
      (scanBlocks start stop (blk id) i bs st).out =
        (bs.filter fun b => !blockOutside b start stop).foldl act st.out := by
  induction bs generalizing i st with
  | nil => exact ⟨hst, rfl⟩
  | cons b bs ih =>
      have hb : f.blocks[i]? = some b := hbs 0 b rfl
      have htail : ∀ j c, bs[j]? = some c → f.blocks[i + 1 + j]? = some c := by
        intro j c hc
        rw [Nat.add_assoc, Nat.add_comm 1 j]
        exact hbs (j + 1) c hc
      rw [scanBlocks]
      cases houtside : blockOutside b start stop with
      | true =>
          rw [if_pos rfl, List.filter_cons_of_neg (by simp [houtside])]
          exact ih htail ⟨hst.same, hst.cache⟩
      | false =>
          rw [if_neg (by decide), List.filter_cons_of_pos (by simp [houtside]), List.foldl_cons,
            ← h.out hf hb hst]
          exact ih htail (h.ok hst)

theorem Acts.over_parts (h : Acts n blk act) {ms : List PartMeta}
    (hfree : Unhindered n opens cancelled ms) {st : Scan σ} (hst : st.Ok n) :
    ∃ st', scanParts (ε := ε) start stop opens cancelled prune blk ms st = (st', none) ∧
      st'.Ok n ∧ st'.out = (((ms.filter fun m => !prune m).flatMap fun m => n.blocks m.id).filter
        fun b => !blockOutside b start stop).foldl act st.out := by
  induction ms generalizing st with
  | nil => exact ⟨st, rfl, hst, rfl⟩
  | cons m ms ih =>
      have hrest : Unhindered n opens cancelled ms :=
        ⟨hfree.opens, hfree.runs, fun p hp => hfree.content p (List.mem_cons_of_mem _ hp)⟩
      rw [scanParts, hfree.runs, if_neg (by decide)]
      cases hprune : prune m with
      | true =>
          rw [if_pos rfl, List.filter_cons_of_neg (by simp [hprune])]
          exact ih hrest ⟨hst.same, hst.cache⟩
      | false =>
          rw [if_neg (by decide), List.filter_cons_of_pos (by simp [hprune]), List.flatMap_cons,
            List.filter_append, List.foldl_append]
          generalize hst₁ : (st.tally fun q => { q with partsScanned := q.partsScanned + 1 }) = st₁
          have hok₁ : st₁.Ok n := hst₁ ▸ ⟨hst.same, hst.cache⟩
          have hout₁ : st₁.out = st.out := hst₁ ▸ rfl
          have hcontent := hfree.content m List.mem_cons_self
          rw [← hok₁.same.content] at hcontent
          obtain ⟨f, hfound⟩ := getPart_of_content (hfree.opens m.id) hcontent
          have hsame := hok₁.same.trans (same_getPart st₁.node opens m.id)
          have hf : n.content m.id = some f := by
            rw [← hok₁.same.content]
            exact content_of_found hfound
          rcases hget : st₁.node.getPart opens m.id with ⟨n₁, found⟩
          rw [hget] at hfound hsame
          obtain rfl : found = .found f := hfound
          have hall : ∀ j b, f.blocks[j]? = some b → f.blocks[0 + j]? = some b := by
            intro j b hb
            rwa [Nat.zero_add]
          have hopened : Scan.Ok n { st₁ with node := n₁ } := ⟨hsame, hok₁.cache⟩
          obtain ⟨hok, hout⟩ : (scanBlocks start stop (blk m.id) 0 f.blocks _).Ok n ∧ _ :=
            h.over_blocks hf hall hopened
          obtain ⟨st', hscan, hok', hout'⟩ := ih hrest hok
          refine ⟨st', ?_, hok', ?_⟩
          · simp only [hget]
            exact hscan
          · rw [hout', hout, show n.blocks m.id = f.blocks by rw [Node.blocks, hf]; rfl, ← hout₁]

end Scans

/-! ## The two kinds of queries -/

inductive Query where
  | term (t : Bytes)
  | matcher (m : Matcher)

/-- What a matcher query takes from a block that it scans. -/
def matchedBlock (env : Format.Env) (fuel : Nat) (start stop : Int) (m : Matcher) (b : RowBlock) :
    Except Stuck (List Entry) :=
  match if !m.empty && m.labels.length > 0 then bloomPruned env (env.bloom b.rows) m.labels
    else .ok false with
  | .error err => .error err
  | .ok true => .ok []
  | .ok false => (BinBlock.ofRows b.rows).iterateMatcher env.json fuel start stop m

namespace Query

section Filters

variable (env : Format.Env) (start stop : Int)

/-- The filter on the rows of parts. -/
def accepts : Query → Entry → Bool
  | .term t, e => e.matches start stop (toLower env.unicode t)
  | .matcher m, e => BinBlock.passes env.json start stop m e

/-- The filter on the memtable. -/
def memAccepts : Query → Entry → Bool
  | .term t, e => e.matches start stop (toLower env.unicode t)
  | .matcher m, e =>
      !(e.timestamp < start || e.timestamp > stop) && m.matchLine e.data &&
        m.labelsPass env.json e.data

/-- The part is skipped although it overlaps the range. -/
def skips (en : Engine) (n : Node) : Query → PartMeta → Bool
  | .term t, p => termPruned env.unicode (toLower env.unicode t) p
  | .matcher m, p =>
      labelPruned env.unicode m p || indexPruned en m (timeParts start stop n) p

def hits (fuel : Nat) : Query → RowBlock → Except Stuck (List Entry)
  | .term t, b => .ok (b.rows.filter fun e => e.matches start stop (toLower env.unicode t))
  | .matcher m, b => matchedBlock env fuel start stop m b

/-- The blocks that a query without a fault scans. -/
def scanned (en : Engine) (n : Node) (q : Query) : List RowBlock :=
  (((timeParts start stop n).filter fun p => !q.skips env start stop en n p).flatMap fun p =>
    n.blocks p.id).filter fun b => !blockOutside b start stop

/-- What a query without a fault hands out, or why it does not return. -/
def answer (fuel : Nat) (en : Engine) (s : Store) (q : Query) : Except Stuck (List Entry) := do
  let found ← (q.scanned env start stop en s.world.node).mapM (q.hits env start stop fuel)
  return found.flatten ++ sortByTimestamp (s.mem.filter (q.memAccepts env start stop))

/-- All entries that the filters accept. -/
def matching (s : Store) (q : Query) : List Entry :=
  (s.world.node.parts.flatMap fun p => (s.world.node.rows p.id).filter (q.accepts env start stop)) ++
    s.mem.filter (q.memAccepts env start stop)

end Filters

end Query

/-- Every listed part is readable and described by its metadata. -/
def Node.Readable (U : Unicode) (n : Node) : Prop := ∀ p ∈ n.parts, ∃ f, PartOk U n p f

section Answers

variable {env : Format.Env} {io : QueryIO} {fuel : Nat} {en : Engine} {start stop : Int}

theorem Node.Readable.unhindered {n : Node} (h : n.Readable env.unicode) (hio : io.Works) :
    Unhindered n io.opens io.cancelled (timeParts start stop n) := by
  refine ⟨hio.opens, hio.runs, fun m hm => ?_⟩
  obtain ⟨f, hf⟩ := h m (mem_timeParts hm)
  rw [hf.content]
  rfl

theorem foldl_append_flatMap (f : RowBlock → List Entry) (bs : List RowBlock) (out : List Entry) :
    bs.foldl (fun out b => out ++ f b) out = out ++ bs.flatMap f := by
  induction bs generalizing out with
  | nil => simp
  | cons b bs ih => rw [List.foldl_cons, ih, List.flatMap_cons, List.append_assoc]

theorem mapM_ok {α β ε : Type} {g : α → Except ε β} {f : α → β} {l : List α}
    (h : ∀ a ∈ l, g a = .ok (f a)) : l.mapM g = .ok (l.map f) := by
  induction l with
  | nil => rfl
  | cons a l ih =>
      rw [List.mapM_cons, h a List.mem_cons_self, ih fun b hb => h b (List.mem_cons_of_mem _ hb)]
      rfl

theorem queryStream_answer {s : Store} (hparts : s.world.node.Readable env.unicode)
    (hcache : CacheOk s.world.node s.cache) (hio : io.Works) (t : Bytes) :
    Except.ok (s.queryStream env.unicode io start stop t).1.out =
      (Query.term t).answer env start stop fuel en s := by
  have hacts : Acts s.world.node (consumeBlock io start stop (toLower env.unicode t) record)
      (fun out b => out ++ b.rows.filter fun e => e.matches start stop (toLower env.unicode t)) :=
    ⟨ok_consumeBlock record, fun hf hb hst => out_consumeBlock hf hb hst hio.reads⟩
  have hinit : (startScan start stop s.world.node s.cache ([] : List Entry)).Ok s.world.node :=
    ⟨Node.Same.refl _, hcache⟩
  obtain ⟨st, hscan, -, hout⟩ : ∃ st, scanParts (ε := Empty) start stop io.opens io.cancelled
      (termPruned env.unicode (toLower env.unicode t)) _ (timeParts start stop s.world.node) _ =
        (st, none) ∧ _ := hacts.over_parts (hparts.unhindered hio) hinit
  rw [foldl_append_flatMap] at hout
  have hhits := @mapM_ok _ _ _ ((Query.term t).hits env start stop fuel) _
    ((Query.term t).scanned env start stop en s.world.node) fun _ _ => rfl
  rw [Query.answer, hhits, Store.queryStream, queryStreamWithStats]
  simp only [hscan, streamToWithStats, deliver_record, hout]
  rfl

/-- Add the hits of a block, unless the query is already stuck. -/
def appendHits (hits : RowBlock → Except Stuck (List Entry)) (out : Except Stuck (List Entry))
    (b : RowBlock) : Except Stuck (List Entry) := do
  let es ← out
  let found ← hits b
  return es ++ found

theorem foldl_appendHits (hits : RowBlock → Except Stuck (List Entry)) (bs : List RowBlock)
    (out : Except Stuck (List Entry)) : bs.foldl (appendHits hits) out = (do
      let es ← out
      let found ← bs.mapM hits
      return es ++ found.flatten) := by
  induction bs generalizing out with
  | nil => cases out <;> simp [List.mapM_nil]
  | cons b bs ih =>
      rw [List.foldl_cons, ih, List.mapM_cons]
      cases out with
      | error err => rfl
      | ok es =>
          cases hhits : hits b with
          | error err => simp only [appendHits, hhits]; rfl
          | ok found =>
              cases hrest : bs.mapM hits with
              | error err => simp only [appendHits, hhits]; rfl
              | ok rest => simp only [appendHits, hhits]; simp [bind, Except.bind, pure, Except.pure]

theorem passes_of_iterateMatcher {J : JsonReader} {bb : BinBlock} {m : Matcher} {hits : List Entry}
    (h : bb.iterateMatcher J fuel start stop m = .ok hits) {e : Entry} (he : e ∈ hits) :
    BinBlock.passes J start stop m e = true := by
  unfold BinBlock.iterateMatcher at h
  split at h
  · obtain rfl := Except.ok.inj h
    exact (List.mem_filter.mp he).2
  · simp only at h
    split at h
    · cases h
    · rename_i ks _
      cases hrows : ks.mapM bb.row with
      | error err =>
          rw [hrows] at h
          cases h
      | ok rows =>
          rw [hrows] at h
          obtain rfl := Except.ok.inj h
          exact (List.mem_filter.mp he).2

theorem out_matchBlock_eq {n : Node} {m : Matcher} {st : Scan (Except Stuck (List Entry))}
    {id : Bytes} {f : PartFile} {i : Nat} {b : RowBlock} (hf : n.content id = some f)
    (hb : f.blocks[i]? = some b) (h : st.Ok n) (hreads : ∀ id i, io.reads id i = true) :
    (matchBlock env io fuel start stop m record id i b st).out =
      appendHits (matchedBlock env fuel start stop m) st.out b := by
  unfold matchBlock appendHits matchedBlock
  cases hout : st.out with
  | error err => exact hout
  | ok out =>
      simp only
      generalize (if !m.empty && m.labels.length > 0 then bloomPruned env (env.bloom b.rows) m.labels
        else .ok false) = pruned
      rcases pruned with err | _ | _
      · rfl
      · simp only [Scan.tally]
        cases hhits : (BinBlock.ofRows b.rows).iterateMatcher env.json fuel start stop m with
        | error err =>
            cases hhit : st.cache id i with
            | some bb =>
                obtain rfl := h.cache.eq hf hb hhit
                simp only [hhits]
                rfl
            | none =>
                simp only [hreads]
                rfl
        | ok hits =>
            cases hhit : st.cache id i with
            | some bb =>
                obtain rfl := h.cache.eq hf hb hhit
                have hguard : ∀ e ∈ hits, m.labelsPass env.json e.data = true := by
                  intro e he
                  have hpasses := passes_of_iterateMatcher hhits he
                  rw [BinBlock.passes, Bool.and_eq_true] at hpasses
                  exact hpasses.2
                simp only [hhits, deliver_guard hguard, deliver_record]
                rfl
            | none =>
                simp only [hreads, deliver_record]
                rfl
      · simp only [Scan.tally, hout]
        exact congrArg Except.ok (List.append_nil out).symm

theorem queryMatcher_answer {s : Store} (hparts : s.world.node.Readable env.unicode)
    (hcache : CacheOk s.world.node s.cache) (hio : io.Works) (m : Matcher) :
    (s.queryMatcher env io fuel en start stop m).1.out =
      (Query.matcher m).answer env start stop fuel en s := by
  have hacts : Acts s.world.node (matchBlock env io fuel start stop m record)
      (appendHits (matchedBlock env fuel start stop m)) :=
    ⟨ok_matchBlock, fun hf hb hst => out_matchBlock_eq hf hb hst hio.reads⟩
  rw [Store.queryMatcher, queryMatcherWithStats]
  generalize hst₀ : (startScan start stop s.world.node s.cache (Except.ok [])).tally _ = st₀
  have hinit : st₀.Ok s.world.node := hst₀ ▸ ⟨Node.Same.refl _, hcache⟩
  have hstart : st₀.out = .ok [] := hst₀ ▸ rfl
  obtain ⟨st, hscan, -, hout⟩ : ∃ st, scanParts (ε := Empty) start stop io.opens io.cancelled
      (fun p => labelPruned env.unicode m p ||
        indexPruned en m (timeParts start stop s.world.node) p) _
      (timeParts start stop s.world.node) st₀ = (st, none) ∧ _ :=
    hacts.over_parts (hparts.unhindered hio) hinit
  rw [foldl_appendHits, hstart] at hout
  have hout : st.out = (do
      let found ← ((Query.matcher m).scanned env start stop en s.world.node).mapM
        ((Query.matcher m).hits env start stop fuel)
      return found.flatten) := hout
  rw [hscan, Query.answer]
  cases hfound : ((Query.matcher m).scanned env start stop en s.world.node).mapM
      ((Query.matcher m).hits env start stop fuel) with
  | error err =>
      rw [hfound] at hout
      have herror : st.out = .error err := hout
      simp only [streamToMatcherWithStats, herror]
      rfl
  | ok found =>
      rw [hfound] at hout
      have hok : st.out = .ok found.flatten := hout
      simp only [streamToMatcherWithStats, hok, deliver_record]
      rfl

end Answers

/-! ## When the answer is complete and sorted -/

namespace Query

/-- No part with a row that the query accepts is skipped, and each block scanned gives all its
rows that the query accepts. -/
structure Sees (env : Format.Env) (start stop : Int) (fuel : Nat) (en : Engine) (n : Node)
    (q : Query) : Prop where
  part : ∀ p ∈ n.parts, ∀ e ∈ n.rows p.id, q.accepts env start stop e = true →
    q.skips env start stop en n p = false
  block : ∀ p ∈ n.parts, p.overlaps start stop = true → q.skips env start stop en n p = false →
    ∀ b ∈ n.blocks p.id, blockOutside b start stop = false →
      q.hits env start stop fuel b = .ok (b.rows.filter (q.accepts env start stop))

/-- Rows that the query accepts are not later than those in parts listed behind theirs, nor than
those in the memtable. -/
structure InOrder (env : Format.Env) (start stop : Int) (s : Store) (q : Query) : Prop where
  parts : s.world.node.parts.Pairwise fun p p' =>
    ∀ a ∈ s.world.node.rows p.id, ∀ b ∈ s.world.node.rows p'.id,
      q.accepts env start stop a = true → q.accepts env start stop b = true →
        a.timestamp ≤ b.timestamp
  mem : ∀ p ∈ s.world.node.parts, ∀ a ∈ s.world.node.rows p.id, ∀ b ∈ s.mem,
    q.accepts env start stop a = true → q.memAccepts env start stop b = true →
      a.timestamp ≤ b.timestamp

section Complete

variable {env : Format.Env} {fuel : Nat} {en : Engine} {start stop : Int} {s : Store} {n : Node}
  {q : Query} {p : PartMeta} {b : RowBlock} {e : Entry}

theorem matches_of_accepts (h : q.accepts env start stop e = true) :
    ∃ t, e.matches start stop t = true := by
  cases q with
  | term t => exact ⟨_, h⟩
  | matcher m =>
      refine ⟨[], ?_⟩
      simp only [accepts, BinBlock.passes, Bool.and_eq_true] at h
      rw [matches_nil]
      exact h.1.1

theorem filter_accepts_outside (hparts : n.Readable env.unicode) (hp : p ∈ n.parts)
    (hb : b ∈ n.blocks p.id) (houtside : blockOutside b start stop = true) :
    b.rows.filter (q.accepts env start stop) = [] := by
  obtain ⟨f, hf⟩ := hparts p hp
  rw [Node.blocks, hf.content] at hb
  obtain ⟨i, hi⟩ := List.mem_iff_getElem?.mp hb
  rw [List.filter_eq_nil_iff]
  intro e he haccepts
  obtain ⟨t, ht⟩ := matches_of_accepts haccepts
  have hnone := outside_rows hf.sorted hi houtside t
  exact List.filter_eq_nil_iff.mp hnone e he ht

theorem overlaps_of_accepts (hparts : n.Readable env.unicode) (hp : p ∈ n.parts)
    (he : e ∈ n.rows p.id) (h : q.accepts env start stop e = true) :
    p.overlaps start stop = true := by
  obtain ⟨f, hf⟩ := hparts p hp
  obtain ⟨t, ht⟩ := matches_of_accepts h
  exact hf.overlaps he ht

theorem flatMap_filter_eq {α β : Type} (l : List α) (keep : α → Bool) (g : α → List β) :
    (l.filter keep).flatMap g = l.flatMap fun a => if keep a then g a else [] := by
  induction l with
  | nil => rfl
  | cons a l ih =>
      rw [List.filter_cons, List.flatMap_cons]
      split_ifs
      · rw [List.flatMap_cons, ih]
      · rw [ih, List.nil_append]

/-- The blocks scanned, part by part. -/
theorem flatMap_scanned (g : RowBlock → List Entry) :
    (q.scanned env start stop en n).flatMap g = n.parts.flatMap fun p =>
      if p.overlaps start stop && !q.skips env start stop en n p then
        (n.blocks p.id).flatMap fun b => if blockOutside b start stop then [] else g b
      else [] := by
  rw [scanned, timeParts, List.filter_filter, List.filter_flatMap, List.flatMap_assoc,
    flatMap_filter_eq]
  refine List.flatMap_congr fun p _ => ?_
  rw [Bool.and_comm]
  refine ite_congr rfl (fun _ => ?_) fun _ => rfl
  rw [flatMap_filter_eq]
  refine List.flatMap_congr fun b _ => ?_
  cases blockOutside b start stop <;> rfl

theorem mem_scanned : b ∈ q.scanned env start stop en n ↔ blockOutside b start stop = false ∧
    ∃ p ∈ n.parts, p.overlaps start stop = true ∧ q.skips env start stop en n p = false ∧
      b ∈ n.blocks p.id := by
  simp only [scanned, timeParts, List.mem_filter, List.mem_flatMap, Bool.not_eq_true']
  constructor
  · rintro ⟨⟨p, ⟨⟨hp, hoverlaps⟩, hskips⟩, hb⟩, hinside⟩
    exact ⟨hinside, p, hp, hoverlaps, hskips, hb⟩
  · rintro ⟨hinside, p, hp, hoverlaps, hskips, hb⟩
    exact ⟨⟨p, ⟨⟨hp, hoverlaps⟩, hskips⟩, hb⟩, hinside⟩

/-- All entries that the query accepts, part by part and then those of the memtable. -/
def listed (env : Format.Env) (start stop : Int) (s : Store) (q : Query) : List Entry :=
  (s.world.node.parts.flatMap fun p => (s.world.node.rows p.id).filter (q.accepts env start stop)) ++
    sortByTimestamp (s.mem.filter (q.memAccepts env start stop))

theorem listed_perm : (q.listed env start stop s).Perm (q.matching env start stop s) :=
  (sortByTimestamp_perm _).append_left _

theorem filter_rows (n : Node) (id : Bytes) (f : Entry → Bool) :
    (n.rows id).filter f = (n.blocks id).flatMap fun b => b.rows.filter f := by
  rw [Node.rows_eq_blocks, List.filter_flatMap]

theorem answer_of_sees (hparts : s.world.node.Readable env.unicode)
    (h : q.Sees env start stop fuel en s.world.node) :
    q.answer env start stop fuel en s = .ok (q.listed env start stop s) := by
  have hhits : ∀ b ∈ q.scanned env start stop en s.world.node,
      q.hits env start stop fuel b = .ok (b.rows.filter (q.accepts env start stop)) := by
    intro b hb
    obtain ⟨hinside, p, hp, hoverlaps, hskips, hblock⟩ := mem_scanned.mp hb
    exact h.block p hp hoverlaps hskips b hblock hinside
  rw [answer, mapM_ok hhits, listed]
  refine congrArg (fun es => Except.ok (es ++ _)) ?_
  rw [← List.flatMap_def, flatMap_scanned]
  refine List.flatMap_congr fun p hp => ?_
  split_ifs with hkept
  · rw [filter_rows]
    refine List.flatMap_congr fun b hb => ?_
    split_ifs with houtside
    · exact (filter_accepts_outside hparts hp hb houtside).symm
    · rfl
  · rw [eq_comm, List.filter_eq_nil_iff]
    intro e he haccepts
    rw [overlaps_of_accepts hparts hp he haccepts, h.part p hp e he haccepts] at hkept
    exact hkept rfl

/-- The hits of a block, none if the query gets stuck there. -/
def got (env : Format.Env) (start stop : Int) (fuel : Nat) (q : Query) (b : RowBlock) : List Entry :=
  match q.hits env start stop fuel b with
  | .ok found => found
  | .error _ => []

theorem hits_of_mapM {bs : List RowBlock} {found : List (List Entry)}
    (h : bs.mapM (q.hits env start stop fuel) = .ok found) :
    (∀ b ∈ bs, q.hits env start stop fuel b = .ok (q.got env start stop fuel b)) ∧
      found.flatten = bs.flatMap (q.got env start stop fuel) := by
  have hall : ∀ b ∈ bs, q.hits env start stop fuel b = .ok (q.got env start stop fuel b) := by
    induction bs generalizing found with
    | nil => exact fun b hb => absurd hb List.not_mem_nil
    | cons b bs ih =>
        rw [List.mapM_cons] at h
        cases hb : q.hits env start stop fuel b with
        | error err =>
            rw [hb] at h
            cases h
        | ok first =>
            cases hbs : bs.mapM (q.hits env start stop fuel) with
            | error err =>
                rw [hb, hbs] at h
                cases h
            | ok rest =>
                refine List.forall_mem_cons.mpr ⟨?_, ih hbs⟩
                rw [got, hb]
  refine ⟨hall, ?_⟩
  rw [mapM_ok hall] at h
  rw [← Except.ok.inj h, ← List.flatMap_def]

/-- A block of the format, and steps enough to scan it. -/
def Fits (fuel : Nat) (b : RowBlock) : Prop :=
  (b.rows.flatMap Entry.data).length < 2 ^ 32 ∧ (b.rows.flatMap Entry.data).length < fuel

theorem got_sublist (h : Fits fuel b) :
    (q.got env start stop fuel b).Sublist (b.rows.filter (q.accepts env start stop)) := by
  cases q with
  | term t => exact List.Sublist.refl _
  | matcher m =>
      unfold got
      cases hhits : (Query.matcher m).hits env start stop fuel b with
      | error err => exact List.nil_sublist _
      | ok found =>
          simp only [hits, matchedBlock] at hhits
          split at hhits
          · cases hhits
          · obtain rfl := Except.ok.inj hhits
            exact List.nil_sublist _
          · exact iterateMatcher_sublist h.1 h.2 hhits

theorem sees_of_perm
    (hfits : ∀ p ∈ s.world.node.parts, ∀ b ∈ s.world.node.blocks p.id, Fits fuel b)
    {data : List Entry} (hanswer : q.answer env start stop fuel en s = .ok data)
    (hperm : data.Perm (q.matching env start stop s)) :
    q.Sees env start stop fuel en s.world.node := by
  rw [answer] at hanswer
  cases hfound : (q.scanned env start stop en s.world.node).mapM (q.hits env start stop fuel) with
  | error err =>
      rw [hfound] at hanswer
      cases hanswer
  | ok found =>
      rw [hfound] at hanswer
      obtain ⟨hhits, hflat⟩ := hits_of_mapM hfound
      obtain rfl := Except.ok.inj hanswer
      have hblock : ∀ p ∈ s.world.node.parts, ∀ b ∈ s.world.node.blocks p.id,
          (if blockOutside b start stop then [] else q.got env start stop fuel b).Sublist
            (b.rows.filter (q.accepts env start stop)) := by
        intro p hp b hb
        split_ifs
        · exact List.nil_sublist _
        · exact got_sublist (hfits p hp b hb)
      -- the parts give all that is accepted in them, and therefore each part and block does
      have hrows := hperm.trans listed_perm.symm
      rw [listed, List.perm_append_right_iff, hflat, flatMap_scanned, flatMap_perm_iff] at hrows
      · refine ⟨fun p hp e he haccepts => ?_, fun p hp hoverlaps hskips b hb hinside => ?_⟩
        · by_contra hskips
          have hnone := hrows p hp
          rw [Bool.eq_true_of_not_eq_false hskips, Bool.not_true, Bool.and_false,
            if_neg (by decide)] at hnone
          exact List.filter_eq_nil_iff.mp hnone.symm e he haccepts
        · have hpart := hrows p hp
          rw [hoverlaps, hskips, if_pos (by decide), filter_rows] at hpart
          have hsame := (flatMap_perm_iff (hblock p hp)).mp (List.Perm.of_eq hpart) b hb
          rw [hinside, if_neg (by decide)] at hsame
          rw [hhits b (mem_scanned.mpr ⟨hinside, p, hp, hoverlaps, hskips, hb⟩), hsame]
      · intro p hp
        split_ifs
        · rw [filter_rows]
          exact List.Sublist.flatMap_right _ (hblock p hp)
        · exact List.nil_sublist _

theorem sorted_listed_iff (hparts : s.world.node.Readable env.unicode) :
    SortedRows (q.listed env start stop s) ↔ q.InOrder env start stop s := by
  have hpart : ∀ p ∈ s.world.node.parts,
      SortedRows ((s.world.node.rows p.id).filter (q.accepts env start stop)) := by
    intro p hp
    obtain ⟨f, hf⟩ := hparts p hp
    rw [hf.rows]
    exact hf.sorted.filter _
  rw [SortedRows, listed, List.pairwise_append, List.pairwise_flatMap]
  constructor
  · rintro ⟨⟨-, hpairs⟩, -, hmem⟩
    refine ⟨hpairs.imp fun h a ha b hb hA hB => ?_, fun p hp a ha b hb hA hB => ?_⟩
    · exact h a (List.mem_filter.mpr ⟨ha, hA⟩) b (List.mem_filter.mpr ⟨hb, hB⟩)
    · refine hmem a (List.mem_flatMap.mpr ⟨p, hp, List.mem_filter.mpr ⟨ha, hA⟩⟩) b ?_
      exact mem_sortByTimestamp.mpr (List.mem_filter.mpr ⟨hb, hB⟩)
  · intro h
    refine ⟨⟨hpart, h.parts.imp fun h a ha b hb => ?_⟩, sorted_sortByTimestamp _, ?_⟩
    · obtain ⟨ha, hA⟩ := List.mem_filter.mp ha
      obtain ⟨hb, hB⟩ := List.mem_filter.mp hb
      exact h a ha b hb hA hB
    · intro a ha b hb
      obtain ⟨p, hp, ha⟩ := List.mem_flatMap.mp ha
      obtain ⟨ha, hA⟩ := List.mem_filter.mp ha
      obtain ⟨hb, hB⟩ := List.mem_filter.mp (mem_sortByTimestamp.mp hb)
      exact h.mem p hp a ha b hb hA hB

/-- For every limit the last entries of the answer are the latest of all that the query accepts,
just when no such entry is lost and the parts are listed in the order of theirs. -/
theorem last_are_latest_iff (hparts : s.world.node.Readable env.unicode)
    (hfits : ∀ p ∈ s.world.node.parts, ∀ b ∈ s.world.node.blocks p.id, Fits fuel b) :
    (∃ data, q.answer env start stop fuel en s = .ok data ∧ ∀ k > 0,
      Greatest (fun a b => a.timestamp ≤ b.timestamp) k (data.drop (data.length - k))
        (q.matching env start stop s)) ↔
      q.Sees env start stop fuel en s.world.node ∧ q.InOrder env start stop s := by
  constructor
  · rintro ⟨data, hanswer, hlast⟩
    obtain ⟨hperm, hsorted⟩ := greatest_iff.mp hlast
    have hsees := sees_of_perm hfits hanswer hperm
    rw [answer_of_sees hparts hsees, Except.ok.injEq] at hanswer
    exact ⟨hsees, (sorted_listed_iff hparts).mp (hanswer ▸ hsorted)⟩
  · rintro ⟨hsees, horder⟩
    exact ⟨_, answer_of_sees hparts hsees,
      greatest_iff.mpr ⟨listed_perm, (sorted_listed_iff hparts).mpr horder⟩⟩

end Complete

end Query

end Shrimpd.Lsm
