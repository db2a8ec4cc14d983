import Shrimpd.Lsm.QueryMatcher
import Shrimpd.Registry.Keys

/-!
# The HTTP server

Entries arrive as JSON or as OTLP records and are handed to the store in
batches; a query streams its answer from the store.  A query without bounds
takes zero and `2 ^ 62` for them, so of the entries that the two ingest
endpoints have accepted it returns those with a timestamp between the two.
-/

namespace Shrimpd.Api

open Shrimpd.Lib Shrimpd.Lib.Exec Shrimpd.Types Shrimpd.Block Shrimpd.Filter Shrimpd.Lsm
open Shrimpd.Registry

inductive Status where
  | ok
  | noContent
  | badRequest
  | internalError
  deriving DecidableEq, Repr

/-! ## Ingest -/

def ingestStreamBatch : Nat := 1000

/-- The entries that wait for the next write, the batches handed to the store, and whether a write
failed. -/
structure Ingest where
  batch : List Entry
  written : List (List Entry)
  failed : Bool

namespace Ingest

/-- `writes` says which of the writes to the store succeed; the memtable has the entries of one
that fails as well. -/
def flush (writes : Nat → Bool) (st : Ingest) : Ingest :=
  if st.failed || st.batch.length == 0 then st
  else if writes st.written.length then
    { st with batch := [], written := st.written ++ [st.batch] }
  else { st with written := st.written ++ [st.batch], failed := true }

def emit (writes : Nat → Bool) (st : Ingest) (e : Entry) : Ingest :=
  if st.failed then st
  else
    let st := { st with batch := st.batch ++ [e] }
    if st.batch.length ≥ ingestStreamBatch then st.flush writes else st

/-- A failed write ends the decoding. -/
def decode (writes : Nat → Bool) : Ingest → List Entry → Ingest
  | st, [] => st
  | st, e :: es =>
      let st := st.emit writes e
      if st.failed then st else decode writes st es

def total (st : Ingest) : Nat := (st.written.map List.length).sum

end Ingest

/-- `entries` are those the decoder gets to; `complete` says that no error follows them.  Gives the
batches for the store as well. -/
def handleIngest (writes : Nat → Bool) (entries : List Entry) (complete : Bool) :
    Status × List (List Entry) :=
  let st := Ingest.decode writes ⟨[], [], false⟩ entries
  if st.failed || !complete then (.badRequest, st.written)
  else
    let st := st.flush writes
    if st.failed then (.internalError, st.written)
    else if st.total == 0 then (.badRequest, st.written)
    else (.noContent, st.written)

/-- The text is the record's JSON, if it can be encoded. -/
structure LogRecord where
  timestamp : UInt64
  observedTimestamp : UInt64
  text : Option Bytes

/-- Zero stands for a missing timestamp. -/
def LogRecord.time (now : Int) (r : LogRecord) : UInt64 :=
  let ts := r.timestamp
  let ts := if ts = 0 then r.observedTimestamp else ts
  if ts = 0 then UInt64.ofNat (toUint 64 now) else ts

def LogRecord.entry (now : Int) (r : LogRecord) : Option Entry :=
  r.text.map fun text => ⟨toInt 64 (r.time now).toNat, text⟩

/-- The records by resource and scope. -/
abbrev Logs := List (List (List LogRecord))

def otlpEntries (now : Int) (logs : Logs) : List Entry :=
  logs.flatten.flatten.filterMap (LogRecord.entry now)

/-- `logs` is missing when the body cannot be unmarshalled. -/
def handleIngestOTLP (writes : Bool) (now : Int) (logs : Option Logs) :
    Status × List (List Entry) :=
  match logs with
  | none => (.badRequest, [])
  | some logs =>
      let entries := otlpEntries now logs
      if entries.length = 0 then (.ok, [])
      else if writes then (.ok, [entries])
      else (.internalError, [entries])

/-! ## Queries -/

def parseIntParam (s : Bytes) (default : Int) : Int :=
  if s = [] then default else (parseInt64 s).getD default

/-- The parameters of the URL; one that is missing is empty. -/
structure QueryParams where
  start : Bytes := []
  stop : Bytes := []
  term : Bytes := []
  q : Bytes := []

/-- The entries of the data array, or why the query does not return. -/
inductive QueryResponse where
  | badRequest
  | data (entries : Except Stuck (List Entry)) (stats : QueryStats)

/-- The data array of an answer. -/
def QueryResponse.entries : QueryResponse → Option (List Entry)
  | .data (.ok entries) _ => some entries
  | _ => none

section Server

variable (env : Format.Env) (decodeMatcherQuery : Bytes → Option Matcher)

/-- An error of the query is logged, and the entries found so far are sent.  Gives the store with
the files opened as well. -/
def handleQuery (io : QueryIO) (fuel : Nat) (en : Engine) (s : Store) (r : QueryParams) :
    QueryResponse × Store :=
  let start := parseIntParam r.start 0
  let stop := parseIntParam r.stop (2 ^ 62)
  if r.q ≠ [] then
    match decodeMatcherQuery r.q with
    | none => (.badRequest, s)
    | some m =>
        let st := (s.queryMatcher env io fuel en start stop m).1
        (.data st.out st.stats, s.reads st)
  else
    let st := (s.queryStream env.unicode io start stop r.term).1
    (.data (.ok st.out) st.stats, s.reads st)

/-- Requests, and what the store does by itself. -/
inductive Request where
  | ingest (writes : Nat → Bool) (entries : List Entry) (complete : Bool)
  | ingestOTLP (writes : Bool) (now : Int) (logs : Option Logs)
  | query (io : QueryIO) (fuel : Nat) (en : Engine) (params : QueryParams)
  | flush (id : Bytes)
  | compact (call : CompactCall)
  | evict (keeps : Bytes → Nat → Bool)

def write (s : Store) (batches : List (List Entry)) : Option Store :=
  exec (Store.step env.unicode) s (batches.map .write)

def step (s : Store) : Request → Option Store
  | .ingest writes entries complete => write env s (handleIngest writes entries complete).2
  | .ingestOTLP writes now logs => write env s (handleIngestOTLP writes now logs).2
  | .query io fuel en params =>
      some (handleQuery env decodeMatcherQuery io fuel en s params).2
  | .flush id => s.step env.unicode (.flush id)
  | .compact call => s.step env.unicode (.compact call)
  | .evict keeps => s.step env.unicode (.evict keeps)

end Server

/-- The entries whose request has been answered with success. -/
def Request.accepted : Request → List Entry
  | .ingest writes entries complete =>
      if (handleIngest writes entries complete).1 = .noContent then entries else []
  | .ingestOTLP writes now (some logs) =>
      if (handleIngestOTLP writes now (some logs)).1 = .ok then otlpEntries now logs else []
  | _ => []

/-! ## Accepted entries are written -/

section Accepted

variable {writes : Nat → Bool} {st : Ingest}

/-- A flush whose write does not fail leaves no entry behind. -/
theorem Ingest.flush_spec (h : (st.flush writes).failed = false) :
    (st.flush writes).batch = [] ∧
      (st.flush writes).written.flatten = st.written.flatten ++ st.batch := by
  unfold Ingest.flush at h ⊢
  split_ifs at h ⊢ with hskip
  · rw [h, Bool.false_or, beq_iff_eq, List.length_eq_zero_iff] at hskip
    exact ⟨hskip, by rw [hskip, List.append_nil]⟩
  · exact ⟨rfl, by simp⟩

theorem Ingest.emit_spec (h : st.failed = false) {e : Entry}
    (hend : (st.emit writes e).failed = false) :
    (st.emit writes e).written.flatten ++ (st.emit writes e).batch =
      st.written.flatten ++ st.batch ++ [e] := by
  rw [Ingest.emit, h, if_neg (by decide)] at hend ⊢
  simp only at hend ⊢
  split_ifs at hend ⊢
  · obtain ⟨hbatch, hwritten⟩ := Ingest.flush_spec hend
    rw [hbatch, hwritten, List.append_nil, List.append_assoc]
  · rw [List.append_assoc]

theorem Ingest.decode_spec {entries : List Entry} (h : st.failed = false)
    (hend : (st.decode writes entries).failed = false) :
    (st.decode writes entries).written.flatten ++ (st.decode writes entries).batch =
      st.written.flatten ++ st.batch ++ entries := by
  induction entries generalizing st with
  | nil => simp [Ingest.decode]
  | cons e es ih =>
      rw [Ingest.decode] at hend ⊢
      cases hfailed : (st.emit writes e).failed with
      | true => simp [hfailed] at hend
      | false =>
          rw [hfailed, if_neg (by decide)] at hend
          rw [if_neg (by decide), ih hfailed hend, Ingest.emit_spec h hfailed, List.append_assoc]
          rfl

theorem flatten_of_noContent {entries : List Entry} {complete : Bool}
    (h : (handleIngest writes entries complete).1 = .noContent) :
    (handleIngest writes entries complete).2.flatten = entries := by
  unfold handleIngest at h ⊢
  simp only at h ⊢
  generalize hdecode : Ingest.decode writes ⟨[], [], false⟩ entries = st at h ⊢
  split_ifs at h ⊢ with hstop hfailed hempty
  · have hgoes : st.failed = false := by
      cases hst : st.failed with
      | false => rfl
      | true => simp [hst] at hstop
    have hall := Ingest.decode_spec rfl (hdecode ▸ hgoes)
    rw [hdecode, List.flatten_nil, List.nil_append, List.nil_append] at hall
    rw [(Ingest.flush_spec (Bool.eq_false_iff.mpr hfailed)).2, hall]

theorem written_write {env : Format.Env} {s t : Store} {batches : List (List Entry)}
    (h : write env s batches = some t) : t.written = s.written ++ batches.flatten := by
  induction batches generalizing s with
  | nil =>
      obtain rfl : s = t := Option.some.inj h
      rw [List.flatten_nil, List.append_nil]
  | cons batch batches ih =>
      obtain ⟨u, hu, hrest⟩ := exec_cons.mp h
      obtain rfl := Option.some.inj hu
      rw [ih hrest, List.flatten_cons, List.append_assoc]

end Accepted

/-! ## Runs of the server -/

section Runs

variable {env : Format.Env} {decodeMatcherQuery : Bytes → Option Matcher} {s t : Store}
  {r : Request}

theorem ok_write {batches : List (List Entry)} (h : s.Ok env.unicode)
    (hwrite : write env s batches = some t) : t.Ok env.unicode :=
  invariant (fun _ _ _ hok hstep => ok_step hok hstep) h hwrite

theorem ok_handleQuery (io : QueryIO) (fuel : Nat) (en : Engine) (params : QueryParams)
    (h : s.Ok env.unicode) :
    (handleQuery env decodeMatcherQuery io fuel en s params).2.Ok env.unicode ∧
      (handleQuery env decodeMatcherQuery io fuel en s params).2.written = s.written := by
  unfold handleQuery
  simp only
  split_ifs
  · split
    · exact ⟨h, rfl⟩
    · exact ⟨ok_reads h (ok_queryMatcherWithStats s.mem h.cache), rfl⟩
  · exact ⟨ok_reads h (queryStreamWithStats_spec io _ _ _ s.mem h.cache).1, rfl⟩

theorem ok_request (h : s.Ok env.unicode) (hstep : step env decodeMatcherQuery s r = some t) :
    t.Ok env.unicode := by
  cases r with
  | ingest writes entries complete => exact ok_write h hstep
  | ingestOTLP writes now logs => exact ok_write h hstep
  | query io fuel en params =>
      obtain rfl := Option.some.inj hstep
      exact (ok_handleQuery io fuel en params h).1
  | flush id => exact ok_step h (show s.step env.unicode (.flush id) = some t from hstep)
  | compact call => exact ok_step h (show s.step env.unicode (.compact call) = some t from hstep)
  | evict keeps => exact ok_step h (show s.step env.unicode (.evict keeps) = some t from hstep)

/-- A request loses nothing written before, and what it accepts is written. -/
theorem written_request (h : s.Ok env.unicode)
    (hstep : step env decodeMatcherQuery s r = some t) :
    s.written ⊆ t.written ∧ r.accepted ⊆ t.written := by
  cases r with
  | ingest writes entries complete =>
      rw [written_write hstep]
      refine ⟨List.subset_append_left _ _, ?_⟩
      simp only [Request.accepted]
      split_ifs with haccepted
      · rw [flatten_of_noContent haccepted]
        exact List.subset_append_right _ _
      · exact List.nil_subset _
  | ingestOTLP writes now logs =>
      rw [written_write hstep]
      refine ⟨List.subset_append_left _ _, ?_⟩
      cases logs with
      | none => exact List.nil_subset _
      | some logs =>
          simp only [Request.accepted]
          split_ifs with haccepted
          · refine List.Subset.trans ?_ (List.subset_append_right _ _)
            unfold handleIngestOTLP at haccepted ⊢
            simp only at haccepted ⊢
            split_ifs at haccepted ⊢ with hempty hwrites
            · rw [List.length_eq_zero_iff.mp hempty]
              exact List.nil_subset _
            · simp
          · exact List.nil_subset _
  | query io fuel en params =>
      obtain rfl := Option.some.inj hstep
      rw [(ok_handleQuery io fuel en params h).2]
      exact ⟨List.Subset.refl _, List.nil_subset _⟩
  | flush id =>
      have hstore : s.step env.unicode (.flush id) = some t := hstep
      simp only [Store.step] at hstore
      split_ifs at hstore
      obtain rfl := Option.some.inj hstore
      refine ⟨?_, List.nil_subset _⟩
      unfold Store.flush
      split_ifs
      · exact List.Subset.refl _
      · exact List.Subset.refl _
  | compact call =>
      have hstore : s.step env.unicode (.compact call) = some t := hstep
      simp only [Store.step] at hstore
      split_ifs at hstore
      obtain rfl := Option.some.inj hstore
      exact ⟨List.Subset.refl _, List.nil_subset _⟩
  | evict keeps =>
      obtain rfl := Option.some.inj hstep
      exact ⟨List.Subset.refl _, List.nil_subset _⟩

theorem written_run {reqs : List Request} (h : s.Ok env.unicode)
    (hrun : exec (step env decodeMatcherQuery) s reqs = some t) :
    t.Ok env.unicode ∧ s.written ⊆ t.written ∧ ∀ r ∈ reqs, r.accepted ⊆ t.written := by
  induction reqs generalizing s with
  | nil =>
      obtain rfl : s = t := Option.some.inj hrun
      exact ⟨h, List.Subset.refl _, fun _ hr => absurd hr List.not_mem_nil⟩
  | cons r reqs ih =>
      obtain ⟨u, hu, hrest⟩ := exec_cons.mp hrun
      obtain ⟨hkept, haccepted⟩ := written_request h hu
      obtain ⟨hok, hlater, hall⟩ := ih (ok_request h hu) hrest
      refine ⟨hok, List.Subset.trans hkept hlater, fun r' hr' => ?_⟩
      rcases List.mem_cons.mp hr' with rfl | hr'
      · exact List.Subset.trans haccepted hlater
      · exact hall r' hr'

theorem mem_iff_of_perm {data written : List Entry}
    (hperm : data.Perm (written.filter fun e => 0 ≤ e.timestamp ∧ e.timestamp ≤ 2 ^ 62)) {e : Entry}
    (he : e ∈ written) : e ∈ data ↔ 0 ≤ e.timestamp ∧ e.timestamp ≤ 2 ^ 62 := by
  rw [hperm.mem_iff, List.mem_filter, decide_eq_true_eq]
  exact and_iff_right he

/-- The unsigned time of a record is read back below `2 ^ 62` only if it is there. -/
theorem toInt64_between (ts : UInt64) :
    (0 ≤ toInt 64 ts.toNat ∧ toInt 64 ts.toNat ≤ 2 ^ 62) ↔ ts.toNat ≤ 2 ^ 62 := by
  have hlt := ts.toNat_lt
  unfold toInt
  rw [Int.bmod_def]
  split_ifs
  · omega
  · omega

end Runs

/-- The query without parameters returns, of all entries that were accepted by then, those with a
timestamp from zero to `2 ^ 62`; of OTLP records those whose unsigned time is at most `2 ^ 62`. -/
theorem open_query_returns_iff {env : Format.Env} {decodeMatcherQuery : Bytes → Option Matcher}
    {nodeID : Bytes} {reqs : List Request} {s : Store}
    (hrun : exec (step env decodeMatcherQuery) (Store.empty nodeID) reqs = some s)
    {io : QueryIO} (hio : io.Works) (fuel : Nat) (en : Engine) :
    ∃ data, (handleQuery env decodeMatcherQuery io fuel en s {}).1.entries = some data ∧
      data.Perm (s.written.filter fun e => 0 ≤ e.timestamp ∧ e.timestamp ≤ 2 ^ 62) ∧
      (∀ r ∈ reqs, ∀ e ∈ r.accepted,
        (e ∈ data ↔ 0 ≤ e.timestamp ∧ e.timestamp ≤ 2 ^ 62)) ∧
      ∀ writes now logs, .ingestOTLP writes now (some logs) ∈ reqs →
        (handleIngestOTLP writes now (some logs)).1 = .ok →
        ∀ r ∈ logs.flatten.flatten, ∀ e, r.entry now = some e →
          (e ∈ data ↔ (r.time now).toNat ≤ 2 ^ 62) := by
  obtain ⟨hok, -, hwritten⟩ := written_run (ok_empty nodeID) hrun
  have hstream := (queryStreamWithStats_spec (U := env.unicode) io 0 (2 ^ 62) [] s.mem hok.cache).2
    hio hok.parts
  have hcover : TokensCover env.unicode 0 (2 ^ 62) [] s.world.node :=
    fun _ _ _ => Or.inr (Or.inl rfl)
  have hperm := hstream.2.trans (hok.hits_perm_iff.mpr hcover)
  rw [show toLower env.unicode [] = [] from rfl, filter_matches_nil s.written] at hperm
  have hmem : ∀ r ∈ reqs, ∀ e ∈ r.accepted, _ := fun r hr e he =>
    mem_iff_of_perm hperm (hwritten r hr he)
  refine ⟨_, rfl, hperm, hmem, fun writes now logs hreq hstatus r hr e he => ?_⟩
  have haccepted : e ∈ (Request.ingestOTLP writes now (some logs)).accepted := by
    simp only [Request.accepted, if_pos hstatus]
    exact List.mem_filterMap.mpr ⟨r, hr, he⟩
  obtain ⟨text, -, rfl⟩ := Option.map_eq_some_iff.mp he
  refine (hmem _ hreq _ haccepted).trans ?_
  dsimp only
  rw [toInt64_between]

/-- A JSON entry in a part, and OTLP records with a time, with an observed time and with none. -/
def presentDay : List Request :=
  [.ingest (fun _ => true) [⟨1700000000000000000, ascii "a"⟩] true, .flush (ascii "p1"),
    .ingestOTLP true 1700000000000000003 (some [[[⟨1700000000000000001, 0, some (ascii "b")⟩,
      ⟨0, 1700000000000000002, some (ascii "c")⟩, ⟨0, 0, some (ascii "d")⟩]]])]

def endOf (reqs : List Request) : Store :=
  (exec (step Format.plainEnv fun _ => none) (Store.empty (ascii "n1")) reqs).getD (Store.empty [])

theorem open_query_returns_presentDay : ∃ data,
    (handleQuery Format.plainEnv (fun _ => none) QueryIO.good 0 Engine.empty (endOf presentDay)
      {}).1.entries = some data ∧
      ⟨1700000000000000000, ascii "a"⟩ ∈ data ∧ ⟨1700000000000000001, ascii "b"⟩ ∈ data ∧
      ⟨1700000000000000002, ascii "c"⟩ ∈ data ∧ ⟨1700000000000000003, ascii "d"⟩ ∈ data := by
  have hrun : exec (step Format.plainEnv fun _ => none) (Store.empty (ascii "n1")) presentDay =
      some (endOf presentDay) := exec_eq_getD (by decide +kernel)
  have hio : QueryIO.good.Works := ⟨fun _ => rfl, fun _ _ => rfl, fun _ => rfl⟩
  obtain ⟨data, hquery, -, haccepted, hrecords⟩ :=
    open_query_returns_iff hrun hio 0 Engine.empty
  have hrecord := hrecords true _ _ (List.mem_of_getElem? (i := 2) rfl) rfl
  refine ⟨data, hquery, ?_, ?_, ?_, ?_⟩
  · exact (haccepted _ List.mem_cons_self _ (by decide +kernel)).mpr (by decide)
  · exact (hrecord _ (List.mem_of_getElem? (i := 0) rfl) _ (by decide +kernel)).mpr
      (by decide +kernel)
  · exact (hrecord _ (List.mem_of_getElem? (i := 1) rfl) _ (by decide +kernel)).mpr
      (by decide +kernel)
  · exact (hrecord _ (List.mem_of_getElem? (i := 2) rfl) _ (by decide +kernel)).mpr
      (by decide +kernel)

/-- A time before 1970, one behind `2 ^ 62`, and an unsigned time that reads as negative. -/
def outOfBounds : List Request :=
  [.ingest (fun _ => true) [⟨-1, ascii "a"⟩, ⟨2 ^ 62 + 1, ascii "b"⟩] true,
    .ingestOTLP true 0 (some [[[⟨9223372036854775808, 0, some (ascii "c")⟩]]])]

/-- All three are accepted, and a query without bounds returns none of them. -/
theorem open_query_loses_entries :
    outOfBounds.flatMap Request.accepted =
        [⟨-1, ascii "a"⟩, ⟨2 ^ 62 + 1, ascii "b"⟩, ⟨-2 ^ 63, ascii "c"⟩] ∧
      exec (step Format.plainEnv fun _ => none) (Store.empty (ascii "n1")) outOfBounds =
        some (endOf outOfBounds) ∧
      (handleQuery Format.plainEnv (fun _ => none) QueryIO.good 0 Engine.empty
        (endOf outOfBounds) {}).1.entries = some [] :=
  ⟨by decide +kernel, exec_eq_getD (by decide +kernel), by decide +kernel⟩

end Shrimpd.Api
