import Shrimpd.Api.Server
import Shrimpd.Lsm.Streamed

/-!
# The command-line client

The client sends its flags as the parameters of a query and shows the last
entries of the answer, as many as the limit says.  They are the latest ones
just when the answer has all matching entries in timestamp order.
-/

namespace Shrimpd.Api

open Shrimpd.Lib Shrimpd.Lib.Exec Shrimpd.Types Shrimpd.Block Shrimpd.Filter Shrimpd.Lsm
open Shrimpd.Registry

/-- The flags after parsing; times not given are zero and `2 ^ 62`. -/
structure Flags where
  limit : Int
  start : Int := 0
  stop : Int := 2 ^ 62
  term : Bytes := []
  q : Bytes := []

/-- The parameters of the request; bounds that are the server's own are left out. -/
def Flags.params (f : Flags) : QueryParams where
  start := if f.start ≠ 0 then printInt f.start else []
  stop := if f.stop ≠ 2 ^ 62 then printInt f.stop else []
  term := f.term
  q := f.q

/-- The entries of an answer that are shown. -/
def Flags.keep (f : Flags) (entries : List Entry) : List Entry :=
  if f.limit > 0 ∧ (entries.length : Int) > f.limit then
    entries.drop (entries.length - f.limit.toNat)
  else entries

/-- The query the server runs; none if it cannot read the matcher. -/
def Flags.query (decodeMatcherQuery : Bytes → Option Matcher) (f : Flags) : Option Query :=
  if f.q ≠ [] then (decodeMatcherQuery f.q).map .matcher else some (.term f.term)

section Client

variable {env : Format.Env} {decodeMatcherQuery : Bytes → Option Matcher} {io : QueryIO}
  {fuel : Nat} {en : Engine} {s : Store} {f : Flags} {query : Query}

theorem parseIntParam_printInt {x default : Int} (hx : IsInt64 x) :
    parseIntParam (if x ≠ default then printInt x else []) default = x := by
  unfold parseIntParam
  split_ifs with hne hnil
  · exact absurd hnil (printInt_ne_nil x)
  · rw [parseInt64_printInt hx, Option.getD_some]
  · exact (not_not.mp hne).symm
  · contradiction

/-- What a server has to have for its answers. -/
structure Serves (env : Format.Env) (fuel : Nat) (s : Store) : Prop where
  parts : s.world.node.Readable env.unicode
  cache : CacheOk s.world.node s.cache
  fits : ∀ p ∈ s.world.node.parts, ∀ b ∈ s.world.node.blocks p.id, Query.Fits fuel b

/-- The bounds of the flags reach the store. -/
theorem entries_handleQuery (hs : Serves env fuel s) (hio : io.Works) (hstart : IsInt64 f.start)
    (hstop : IsInt64 f.stop) (hquery : f.query decodeMatcherQuery = some query)
    (data : List Entry) :
    (handleQuery env decodeMatcherQuery io fuel en s f.params).1.entries = some data ↔
      query.answer env f.start f.stop fuel en s = .ok data := by
  have hfrom : parseIntParam f.params.start 0 = f.start := parseIntParam_printInt hstart
  have hto : parseIntParam f.params.stop (2 ^ 62) = f.stop := parseIntParam_printInt hstop
  unfold handleQuery
  simp only [hfrom, hto]
  unfold Flags.query at hquery
  split_ifs at hquery with hq
  · obtain ⟨m, hm, rfl⟩ := Option.map_eq_some_iff.mp hquery
    have hm : decodeMatcherQuery f.params.q = some m := hm
    have hq : f.params.q ≠ [] := hq
    rw [if_pos hq, hm, ← queryMatcher_answer hs.parts hs.cache hio]
    simp only [QueryResponse.entries]
    cases (s.queryMatcher env io fuel en f.start f.stop m).1.out <;> simp
  · obtain rfl := Option.some.inj hquery
    have hq : ¬f.params.q ≠ [] := hq
    rw [if_neg hq, ← queryStream_answer hs.parts hs.cache hio, Except.ok.injEq]
    exact Option.some_inj

theorem keep_eq_drop {limit : Int} (hlimit : limit > 0) (data : List Entry) :
    ({ f with limit := limit } : Flags).keep data = data.drop (data.length - limit.toNat) := by
  unfold Flags.keep
  split_ifs with hlong
  · rfl
  · simp only at hlong
    rw [Nat.sub_eq_zero_of_le (by omega), List.drop_zero]

end Client

/-- Whatever the server holds, the client shows for every limit the latest of all entries that its
query accepts, just when the query loses none of them and no part or memtable behind another has
an earlier one. -/
theorem shrimply_shows_latest_iff {env : Format.Env}
    {decodeMatcherQuery : Bytes → Option Matcher} {io : QueryIO} {fuel : Nat} {en : Engine}
    {s : Store} {f : Flags} {query : Query} (hs : Serves env fuel s) (hio : io.Works)
    (hstart : IsInt64 f.start) (hstop : IsInt64 f.stop)
    (hquery : f.query decodeMatcherQuery = some query) :
    (∃ data, (handleQuery env decodeMatcherQuery io fuel en s f.params).1.entries = some data ∧
      ∀ limit > 0, Greatest (fun a b => a.timestamp ≤ b.timestamp) limit.toNat
        (({ f with limit := limit } : Flags).keep data) (query.matching env f.start f.stop s)) ↔
      query.Sees env f.start f.stop fuel en s.world.node ∧
        query.InOrder env f.start f.stop s := by
  rw [← Query.last_are_latest_iff hs.parts hs.fits]
  refine exists_congr fun data => and_congr (entries_handleQuery hs hio hstart hstop hquery data) ?_
  constructor
  · intro h k hk
    have hlast := h k (Int.natCast_pos.mpr hk)
    rwa [keep_eq_drop (Int.natCast_pos.mpr hk), Int.toNat_natCast] at hlast
  · intro h limit hlimit
    rw [keep_eq_drop hlimit]
    exact h _ (by omega)

def storeOf (ops : List Store.Op) : Store :=
  (exec (Store.step Format.plainEnv.unicode) (Store.empty (ascii "n1")) ops).getD (Store.empty [])

/-- Two parts and the memtable, each with later rows than the one before. -/
def inTurn : List Store.Op :=
  [.write [⟨1, ascii "a"⟩, ⟨2, ascii "b"⟩], .flush (ascii "p1"), .write [⟨3, ascii "c"⟩],
    .flush (ascii "p2"), .write [⟨4, ascii "d"⟩]]

theorem shrimply_shows_latest_inTurn : ∃ data,
    (handleQuery Format.plainEnv (fun _ => none) QueryIO.good 9 Engine.empty (storeOf inTurn)
      (Flags.params ⟨2, 0, 2 ^ 62, [], []⟩)).1.entries = some data ∧
      Greatest (fun a b => a.timestamp ≤ b.timestamp) 2 (Flags.keep ⟨2, 0, 2 ^ 62, [], []⟩ data)
        ((Query.term []).matching Format.plainEnv 0 (2 ^ 62) (storeOf inTurn)) := by
  have hrun : exec (Store.step Format.plainEnv.unicode) (Store.empty (ascii "n1")) inTurn =
      some (storeOf inTurn) := exec_eq_getD (by decide +kernel)
  have hok := ok_exec hrun
  have hio : QueryIO.good.Works := ⟨fun _ => rfl, fun _ _ => rfl, fun _ => rfl⟩
  have hfits : ∀ p ∈ (storeOf inTurn).world.node.parts,
      ∀ b ∈ (storeOf inTurn).world.node.blocks p.id, Query.Fits 9 b := by
    unfold Query.Fits
    decide +kernel
  have hsees : (Query.term []).Sees Format.plainEnv 0 (2 ^ 62) 9 Engine.empty
      (storeOf inTurn).world.node := ⟨fun _ _ _ _ _ => rfl, fun _ _ _ _ _ _ _ => rfl⟩
  have horder : (Query.term []).InOrder Format.plainEnv 0 (2 ^ 62) (storeOf inTurn) :=
    ⟨by decide +kernel, by decide +kernel⟩
  obtain ⟨data, hdata, hlatest⟩ := (@shrimply_shows_latest_iff _ (fun _ => none) _ _ _ _
    ⟨2, 0, 2 ^ 62, [], []⟩ _ ⟨hok.parts.part, hok.cache, hfits⟩ hio (by decide) (by decide)
    rfl).mpr ⟨hsees, horder⟩
  exact ⟨data, hdata, hlatest 2 (by decide)⟩

/-- The part flushed second has the older row. -/
def outOfTurn : List Store.Op :=
  [.write [⟨3, ascii "new"⟩], .flush (ascii "p1"), .write [⟨1, ascii "old"⟩], .flush (ascii "p2")]

/-- With limit one the client shows the older of two rows. -/
theorem shrimply_shows_older_entry :
    exec (Store.step Format.plainEnv.unicode) (Store.empty (ascii "n1")) outOfTurn =
        some (storeOf outOfTurn) ∧
      (handleQuery Format.plainEnv (fun _ => none) QueryIO.good 9 Engine.empty (storeOf outOfTurn)
        (Flags.params ⟨1, 0, 2 ^ 62, [], []⟩)).1.entries =
          some [⟨3, ascii "new"⟩, ⟨1, ascii "old"⟩] ∧
      Flags.keep ⟨1, 0, 2 ^ 62, [], []⟩ [⟨3, ascii "new"⟩, ⟨1, ascii "old"⟩] =
        [⟨1, ascii "old"⟩] ∧
      ¬Greatest (fun a b => a.timestamp ≤ b.timestamp) 1 [⟨1, ascii "old"⟩]
        ((Query.term []).matching Format.plainEnv 0 (2 ^ 62) (storeOf outOfTurn)) := by
  refine ⟨exec_eq_getD (by decide +kernel), by decide +kernel, by decide +kernel, fun h => ?_⟩
  have hmatching : (Query.term []).matching Format.plainEnv 0 (2 ^ 62) (storeOf outOfTurn) =
      [⟨3, ascii "new"⟩, ⟨1, ascii "old"⟩] := by decide +kernel
  obtain ⟨rest, hperm, hle⟩ := h.others
  rw [hmatching] at hperm
  have hnew : (⟨3, ascii "new"⟩ : Entry) ∈ rest := by
    have hmem := hperm.mem_iff.mpr (List.mem_cons_self (a := (⟨3, ascii "new"⟩ : Entry)))
    rcases List.mem_append.mp hmem with hkept | hrest
    · exact absurd hkept (by decide)
    · exact hrest
  exact absurd (hle _ hnew _ List.mem_cons_self) (by decide)

end Shrimpd.Api
