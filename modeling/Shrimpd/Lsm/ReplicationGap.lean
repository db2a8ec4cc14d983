import Shrimpd.Lsm.ReplicationLoop

/-!
# Gaps in the log

The loop takes the absence of the entry after its pointer for a gap.  In a page
that is right: a page has every entry that the log still has between the pointer
and its last one.  At the start of a tick it is not, since the entry may not have
been appended yet.
-/

namespace Shrimpd.Lsm.Loop

open Shrimpd.Lib Shrimpd.Lib.Etcd Shrimpd.Lib.Exec Shrimpd.Types Shrimpd.Block
open Shrimpd.Lsm.Replication hiding State Label step
open Shrimpd.Lsm.Boot hiding step
open Shrimpd.Registry (Answer Data LogRecord Call getLogs logEntryExists logKey maxIndex Logged)

/-- An entry after the pointer has been committed and is no longer in the log. -/
def Lost {ι : Type} (s : State ι) : Prop :=
  ∃ n : Nat, s.pointer < n ∧ n ≤ s.registry.commits.length ∧
    logEntryExists s.registry.etcd.now n = false

def Phase.isBootstrap : Phase → Bool
  | .bootstrap _ => true
  | _ => false

/-- The loop calls `bootstrapFromParts`. -/
def Bootstraps {ι : Type} (s t : State ι) : Prop :=
  s.phase.isBootstrap = false ∧ t.phase.isBootstrap = true

instance {ι : Type} (s t : State ι) : Decidable (Bootstraps s t) :=
  inferInstanceAs (Decidable (_ ∧ _))

/-- As `Others`, and what is in the log can be decoded. -/
def Decoded {ι : Type} (nodeID : Bytes) (s : State ι) : Label ι → Prop
  | .getLogs _ decodes => ∀ kv ∈ s.registry.etcd.now.kvs, decodes kv.key = true
  | l => Others nodeID s l

instance {ι : Type} (nodeID : Bytes) (s : State ι) : ∀ l, Decidable (Decoded nodeID s l)
  | .getLogs _ decodes =>
      inferInstanceAs (Decidable (∀ kv ∈ s.registry.etcd.now.kvs, decodes kv.key = true))
  | .others l => inferInstanceAs (Decidable (Others nodeID s (.others l)))
  | .tick | .retry _ _ _ | .call _ | .entry _ | .load _ _ => inferInstanceAs (Decidable True)

/-! ## Pages -/

/-- The page is in order and leaves out nothing that is in the log. -/
structure Closed {ι : Type} (r : Registry.State ι) (pointer : Int) (page : List LogRecord) :
    Prop where
  sorted : page.Pairwise fun x y => x.index < y.index
  closed : ∀ x ∈ page, ∀ n : Nat, pointer < n → n < x.index → Logged r.etcd n →
    ∃ y ∈ page, y.index = n

def PageOk {ι : Type} (r : Registry.State ι) (pointer : Int) : Phase → Prop
  | .page rest _ | .saving rest _ => Closed r pointer rest
  | _ => True

theorem exists_iff_logged {etcd : Etcd.Store Bytes Registry.Value} {n : Nat} :
    logEntryExists etcd.now n = true ↔ Logged etcd n := by
  unfold logEntryExists Logged
  constructor
  · intro h
    obtain ⟨kv, hkv⟩ := Option.isSome_iff_exists.mp h
    exact ⟨kv, Contents.find_eq_some.mp hkv⟩
  · rintro ⟨kv, hkv, hkey⟩
    rw [Contents.find_eq_some.mpr ⟨hkv, hkey⟩]
    rfl

section Pages

variable {ι : Type} {r r' : Registry.State ι} {pointer : Int} {x : LogRecord}
  {rest : List LogRecord}

/-- Every key of the range holds the entry of its index. -/
theorem index_of_mem_range (h : Registry.Serial r.etcd r.commits) {fromIndex : Int}
    {kv : KV Bytes Registry.Value} (hkv : kv ∈ r.etcd.now.range fun key =>
      logKey fromIndex ≤ key ∧ key < logKey 9999999999999999) :
    ∃ (n : Nat) (x : LogRecord), n ≤ r.commits.length ∧ kv.key = logKey n ∧
      kv.value = .record x ∧ x.index = n := by
  obtain ⟨hmem, hkey⟩ := Contents.mem_range.mp hkv
  have hkey := of_decide_eq_true hkey
  obtain ⟨k, c, hc, rfl⟩ := h.log kv hmem (isPrefixOf_of_between hkey.1 hkey.2)
  have hk := (List.getElem?_eq_some_iff.mp hc).1
  exact ⟨k + 1, c.record, hk, rfl, rfl, by rw [h.index k c hc]; push_cast; rfl⟩

theorem closed_getLogs (h : Registry.Serial r.etcd r.commits)
    (hbound : r.commits.length < maxIndex) (hpointer : 0 ≤ pointer) {limit : Int}
    {decodes : Bytes → Bool} (hdecodes : ∀ kv ∈ r.etcd.now.kvs, decodes kv.key = true) :
    Closed r pointer (getLogs r.etcd.now (pointer + 1) limit decodes) := by
  have hrecord : ∀ kv ∈ (r.etcd.now.range fun key => logKey (pointer + 1) ≤ key ∧
      key < logKey 9999999999999999).take (if limit ≤ 0 then 1 else limit).toNat, ∀ x,
      (if decodes kv.key then kv.value.record? else none) = some x →
      ∃ n : Nat, n ≤ r.commits.length ∧ kv.key = logKey n ∧ x.index = n := by
    intro kv hkv x hx
    obtain ⟨n, y, hn, hkey, hvalue, hy⟩ := index_of_mem_range h (List.mem_of_mem_take hkv)
    rw [hvalue] at hx
    split_ifs at hx
    obtain rfl := Option.some.inj hx
    exact ⟨n, hn, hkey, hy⟩
  refine ⟨?_, ?_⟩
  · refine List.pairwise_filterMap.mpr ?_
    have hsorted := (r.etcd.now.sorted.filter fun kv => decide (logKey (pointer + 1) ≤ kv.key ∧
      kv.key < logKey 9999999999999999)).take (i := (if limit ≤ 0 then 1 else limit).toNat)
    refine hsorted.imp_of_mem fun {a b} ha hb hlt x hx y hy => ?_
    obtain ⟨m, hm, hkey, hx⟩ := hrecord a ha x hx
    obtain ⟨n, hn, hkey', hy⟩ := hrecord b hb y hy
    rw [hkey, hkey'] at hlt
    rw [hx, hy]
    by_contra hle
    have hle : n ≤ m := by omega
    exact hlt.not_ge ((Registry.logKey_le_logKey (by omega) (by omega)).mpr hle)
  · intro x hx n hafter hbefore hlogged
    obtain ⟨kv, hkv, hx⟩ := List.mem_filterMap.mp hx
    obtain ⟨m, hm, hkey, hindex⟩ := hrecord kv hkv x hx
    obtain ⟨kv', hkv', hkey'⟩ := hlogged
    have hlt : kv'.key < kv.key := by
      rw [hkey, hkey']
      exact Registry.logKey_lt_logKey (by omega) (by omega)
    have hrange := of_decide_eq_true (Contents.mem_range.mp (List.mem_of_mem_take hkv)).2
    have hfrom : logKey (pointer + 1) ≤ kv'.key := by
      obtain ⟨p, rfl⟩ := Int.eq_ofNat_of_zero_le hpointer
      rw [hkey']
      exact (Registry.logKey_le_logKey (m := p + 1) (by omega) (by omega)).mpr (by omega)
    have hpage := Contents.mem_take_range hkv
      (Contents.mem_range.mpr ⟨hkv', decide_eq_true ⟨hfrom, hlt.trans hrange.2⟩⟩) hlt
    obtain ⟨k, y, -, hk, hvalue, hy⟩ := index_of_mem_range h (List.mem_of_mem_take hpage)
    obtain rfl : k = n := Registry.logKey_inj.mp (hk.symm.trans hkey')
    refine ⟨y, List.mem_filterMap.mpr ⟨kv', hpage, ?_⟩, hy⟩
    rw [hdecodes kv' hkv', hvalue]
    rfl

theorem Closed.tail (h : Closed r pointer (x :: rest)) {p : Int} (hx : x.index ≤ p)
    (hp : pointer ≤ p) : Closed r p rest := by
  refine ⟨(List.pairwise_cons.mp h.sorted).2, fun y hy n hafter hbefore hlogged => ?_⟩
  obtain ⟨z, hz, hindex⟩ := h.closed y (List.mem_cons_of_mem _ hy) n (by omega) hbefore hlogged
  rcases List.mem_cons.mp hz with rfl | hz
  · omega
  · exact ⟨z, hz, hindex⟩

/-- What the page passes over is not in the log. -/
theorem Closed.lost (h : Closed r pointer (x :: rest)) {n : Nat} (hafter : pointer < n)
    (hbefore : n < x.index) : ¬Logged r.etcd n := by
  intro hlogged
  obtain ⟨y, hy, hindex⟩ := h.closed x List.mem_cons_self n hafter hbefore hlogged
  rcases List.mem_cons.mp hy with rfl | hy
  · omega
  · have hlt := (List.pairwise_cons.mp h.sorted).1 y hy
    omega

theorem Closed.mono (h : Closed r pointer rest) (hrest : ∀ x ∈ rest, ∃ c ∈ r.commits, c.record = x)
    (hserial : Registry.Serial r.etcd r.commits)
    (hlogged : ∀ n, Logged r'.etcd n → Logged r.etcd n ∨ r.commits.length < n) :
    Closed r' pointer rest := by
  refine ⟨h.sorted, fun x hx n hafter hbefore hn => ?_⟩
  have hle := (index_of_committed hserial (hrest x hx)).2
  exact h.closed x hx n hafter hbefore ((hlogged n hn).resolve_right (by omega))

end Pages

/-! ## What a step does to pages and gaps -/

/-- No page is at hand and no bootstrap begins. -/
def Phase.Plain : Phase → Prop
  | .page _ _ | .saving _ _ | .bootstrap _ => False
  | _ => True

theorem Gap.plain_next (gap : Gap) : gap.next.Plain := by cases gap <;> trivial

inductive Enters {ι : Type} [DecidableEq ι] (nodeID : Bytes) (s : State ι) :
    Label ι → State ι → Prop where
  | others {l r} (h : Registry.step s.registry l = some r) :
      Enters nodeID s (.others l) { s with registry := r }
  | plain {l t} (h : t.phase.Plain) : Enters nodeID s l t
  | fetched {answer decodes full} : Enters nodeID s (.getLogs answer decodes)
      (s.go (.page (getLogs s.registry.etcd.now (s.pointer + 1) logReplicationPageLimit decodes)
        full))
  | unsaved {l rest full} (hphase : s.phase = .saving rest full) :
      Enters nodeID s l (s.go (.page rest full))
  | saved {l rest full} (hphase : s.phase = .saving rest full) :
      Enters nodeID s l ((s.save nodeID s.pointer).go (.page rest full))
  | skipped {l x rest full} (hphase : s.phase = .page (x :: rest) full)
      (hle : x.index ≤ s.pointer) : Enters nodeID s l (s.go (.page rest full))
  | applied {l x rest full} {u : State ι} (hphase : s.phase = .page (x :: rest) full)
      (hlt : s.pointer < x.index) (hregistry : u.registry = s.registry) :
      Enters nodeID s l (u.reach x.index (.saving rest full))
  | gapTick {l} (hgone : logEntryExists s.registry.etcd.now (s.pointer + 1) = false) :
      Enters nodeID s l (s.go (.bootstrap .tick))
  | gapPage {l x rest full} (hphase : s.phase = .page (x :: rest) full)
      (hindex : s.pointer + 1 < x.index) : Enters nodeID s l (s.go (.bootstrap .page))

section Inversion

variable {ι : Type} [DecidableEq ι] {nodeID : Bytes} {s t : State ι} {content : Bytes → PartFile}
  {U : Unicode}

theorem enters_call {answer : Answer} (h : s.call nodeID answer = some t) :
    Enters nodeID s (.call answer) t := by
  unfold State.call at h
  cases hphase : s.phase with
  | start =>
      simp only [hphase] at h
      split at h <;> obtain rfl := Option.some.inj h <;> exact .plain trivial
  | checking =>
      simp only [hphase] at h
      split_ifs at h with hgap <;> obtain rfl := Option.some.inj h
      · exact .gapTick hgap.2.2
      · exact .plain trivial
  | saving rest full =>
      simp only [hphase] at h
      split at h <;> obtain rfl := Option.some.inj h
      · exact .unsaved hphase
      · exact .saved hphase
  | bootstrap gap | snapshotIndex gap _ _ =>
      simp only [hphase] at h
      split at h <;> obtain rfl := Option.some.inj h
      · exact .plain trivial
      · exact .plain gap.plain_next
  | storing gap index parts =>
      simp only [hphase] at h
      split_ifs at h
      · obtain rfl := Option.some.inj h
        exact .plain trivial
      · split at h <;> obtain rfl := Option.some.inj h
        · exact .plain trivial
        · exact .plain gap.plain_next
        · exact .plain gap.plain_next
  | rereading gap index =>
      simp only [hphase] at h
      split at h <;> obtain rfl := Option.some.inj h <;> exact .plain gap.plain_next
  | _ => simp [hphase] at h

theorem enters_of_step {l : Label ι} (h : step nodeID content U s l = some t) :
    Enters nodeID s l t := by
  cases l with
  | others l =>
      obtain ⟨r, hr, rfl⟩ := Option.map_eq_some_iff.mp h
      exact .others hr
  | call answer => exact enters_call h
  | getLogs answer decodes =>
      simp only [step] at h
      split at h
      · split at h <;> obtain rfl := Option.some.inj h
        · exact .plain trivial
        · exact .fetched
      · obtain rfl := Option.some.inj h
        exact .plain trivial
      · cases h
  | entry io =>
      simp only [step, State.entry] at h
      split at h
      next full hphase =>
        obtain rfl := Option.some.inj h
        refine .plain ?_
        cases full <;> trivial
      next x rest full hphase =>
        split_ifs at h with hskip hgap <;> obtain rfl := Option.some.inj h
        · exact .skipped hphase hskip
        · exact .gapPage hphase hgap
        · exact .applied hphase (not_le.mp hskip) rfl
      next => cases h
  | tick =>
      simp only [step] at h
      split at h
      · obtain rfl := Option.some.inj h
        exact .plain trivial
      · cases h
  | retry id asked io =>
      simp only [step] at h
      split at h
      next p hphase _ =>
        obtain rfl := Option.some.inj h
        exact .plain (show s.phase.Plain by rw [hphase]; trivial)
      next => cases h
  | load io order =>
      simp only [step, State.load] at h
      split at h
      next gap index parts hphase =>
        split_ifs at h
        split at h <;> obtain rfl := Option.some.inj h
        · exact .plain trivial
        · exact .plain gap.plain_next
      next => cases h

end Inversion

/-! ## Runs -/

section Runs

variable {ι : Type} {nodeID : Bytes} {s t : State ι} {content : Bytes → PartFile} {U : Unicode}

theorem PageOk.of_plain {r : Registry.State ι} {phase : Phase} (h : phase.Plain) (pointer : Int) :
    PageOk r pointer phase := by
  cases phase with
  | page rest full | saving rest full => exact h.elim
  | _ => trivial

theorem PageOk.mono (h : PageOk s.registry s.pointer s.phase) (hinv : Inv nodeID s)
    {r : Registry.State ι}
    (hlogged : ∀ n, Logged r.etcd n → Logged s.registry.etcd n ∨ s.registry.commits.length < n) :
    PageOk r s.pointer s.phase := by
  have hphase := hinv.phase
  cases heq : s.phase with
  | page rest full | saving rest full =>
      rw [heq] at hphase h
      exact Closed.mono h hphase hinv.consistent.serial hlogged
  | _ => trivial

theorem Decoded.others {l : Label ι} (h : Decoded nodeID s l) : Others nodeID s l := by
  cases l with
  | getLogs answer decodes => trivial
  | _ => exact h

variable [DecidableEq ι]

theorem pageOk_step {l : Label ι} (h : PageOk s.registry s.pointer s.phase) (hinv : Inv nodeID s)
    (hok : Decoded nodeID s l) (hbound : s.registry.commits.length < maxIndex)
    (hstep : Enters nodeID s l t) : PageOk t.registry t.pointer t.phase := by
  cases hstep with
  | others hr =>
      exact h.mono hinv fun n hn =>
        Registry.logged_of_step hinv.consistent (Registry.steps_of_step hr) hn
  | plain hplain => exact .of_plain hplain _
  | fetched => exact closed_getLogs hinv.consistent.serial hbound hinv.pointer.1 hok
  | unsaved hphase =>
      rw [hphase] at h
      exact h
  | saved hphase =>
      have hsaved : PageOk (s.save nodeID s.pointer).registry s.pointer s.phase :=
        h.mono hinv fun n hn => Or.inl ((Registry.logged_commit (valid_put _ _)
          fun _ => Registry.untouched_put (Registry.isPrefixOf_pointerKey nodeID) _).mp hn)
      rw [hphase] at hsaved
      exact hsaved
  | skipped hphase hle =>
      rw [hphase] at h
      exact Closed.tail h hle le_rfl
  | @applied l x rest full u hphase hlt hregistry =>
      rw [hphase] at h
      show Closed u.registry x.index rest
      rw [hregistry]
      exact Closed.tail h le_rfl hlt.le
  | gapTick | gapPage => trivial

theorem pageOk_run {calls : ι → Call} {node : Node} {ls : List (Label ι)}
    (hidle : ∀ i, (calls i).Idle)
    (hok : Along (step nodeID content U) (Decoded nodeID) (State.start calls node) ls)
    (hrun : exec (step nodeID content U) (State.start calls node) ls = some t)
    (hbound : t.registry.commits.length < maxIndex) :
    Inv nodeID t ∧ PageOk t.registry t.pointer t.phase := by
  refine invariant_along (I := fun u => u.registry.commits.length < maxIndex →
    Inv nodeID u ∧ PageOk u.registry u.pointer u.phase) ?_
    (fun _ => ⟨inv_start hidle node, trivial⟩) hok hrun hbound
  intro u l v hu hdecoded hstep hv
  have hsteps := steps_of_step hstep
  have hlength := (commits_grow hsteps).trans_lt hv
  obtain ⟨hinv, hpage⟩ := hu hlength
  exact ⟨inv_step hinv hdecoded.others hv hsteps,
    pageOk_step hpage hinv hdecoded hlength (enters_of_step hstep)⟩

/-- Below the last index, the loop bootstraps only where the entry after its pointer is gone. -/
theorem gone_of_bootstraps {l : Label ι} (hinv : Inv nodeID s)
    (hpage : PageOk s.registry s.pointer s.phase) (hstep : Enters nodeID s l t)
    (h : Bootstraps s t) : logEntryExists s.registry.etcd.now (s.pointer + 1) = false := by
  obtain ⟨hbefore, hafter⟩ := h
  cases hstep with
  | others hr => exact absurd (hbefore.symm.trans hafter) (by decide)
  | @plain l t hplain =>
      cases hphase : t.phase with
      | bootstrap gap =>
          rw [hphase] at hplain
          exact hplain.elim
      | _ =>
          rw [hphase] at hafter
          cases hafter
  | gapTick hgone => exact hgone
  | @gapPage l x rest full heq hindex =>
      rw [heq] at hpage
      obtain ⟨p, hp⟩ := Int.eq_ofNat_of_zero_le hinv.pointer.1
      have hgone : ¬Logged s.registry.etcd (p + 1) :=
        Closed.lost hpage (by omega) (by push_cast; omega)
      rw [hp]
      exact Bool.eq_false_iff.mpr fun hexists => hgone (exists_iff_logged.mp hexists)
  | fetched | unsaved | saved | skipped | applied => cases hafter

end Runs

/-- In every run of the loop whose pages can be decoded, with indices below `10 ^ 16`: where the
loop bootstraps, an entry that it still needs is lost exactly if its pointer is below the last
committed index. -/
theorem bootstraps_on_lost_entries {ι : Type} [DecidableEq ι] {nodeID : Bytes}
    {content : Bytes → PartFile} {U : Unicode} {calls : ι → Call} {node : Node}
    {ls : List (Label ι)} {t : State ι} (hidle : ∀ i, (calls i).Idle)
    (hok : Along (step nodeID content U) (Decoded nodeID) (State.start calls node) ls)
    (hrun : exec (step nodeID content U) (State.start calls node) ls = some t)
    (hbound : t.registry.commits.length < 10 ^ 16) :
    t.pointer ≤ t.registry.commits.length ∧
    ∀ l u, step nodeID content U t l = some u → Bootstraps t u →
      (Lost t ↔ t.pointer < t.registry.commits.length) := by
  obtain ⟨hinv, hpage⟩ := pageOk_run hidle hok hrun hbound
  refine ⟨hinv.pointer.2, fun l u hstep hboots => ⟨?_, fun hlt => ?_⟩⟩
  · rintro ⟨n, hafter, hle, -⟩
    omega
  · have hgone := gone_of_bootstraps hinv hpage (enters_of_step hstep) hboots
    obtain ⟨p, hp⟩ := Int.eq_ofNat_of_zero_le hinv.pointer.1
    rw [hp] at hgone hlt
    exact ⟨p + 1, by omega, by omega, hgone⟩

/-- The second tick of `truncatedAhead` before its check. -/
def beforeCheck : List (Label (Fin 4)) := truncatedAhead.take 20

theorem bootstraps_on_lost_entries_truncatedAhead :
    (demoEnd beforeCheck).pointer < (demoEnd beforeCheck).registry.commits.length ∧
      ∃ u, demoStep (demoEnd beforeCheck) (.call .ok) = some u ∧
        Bootstraps (demoEnd beforeCheck) u ∧ Lost (demoEnd beforeCheck) := by
  have hall : Along demoStep (Decoded (ascii "n2")) (State.start demoCalls demoNode) beforeCheck ∧
      (exec demoStep (State.start demoCalls demoNode) beforeCheck).isSome = true ∧
      (demoEnd beforeCheck).registry.commits.length < 10 ^ 16 ∧
      (demoEnd beforeCheck).pointer < (demoEnd beforeCheck).registry.commits.length ∧
      (demoStep (demoEnd beforeCheck) (.call .ok)).any
        (fun u => Bootstraps (demoEnd beforeCheck) u) = true := by
    decide +kernel
  obtain ⟨hok, hrun, hbound, hbehind, hboots⟩ := hall
  have h := (bootstraps_on_lost_entries (by decide) hok (exec_eq_getD hrun) hbound).2
  obtain ⟨u, hu, hboots⟩ := (Option.any_eq_true _ _).mp hboots
  have hboots := of_decide_eq_true hboots
  exact ⟨hbehind, u, hu, hboots, (h _ u hu hboots).mpr hbehind⟩

/-- The first entry is applied, and nothing else has been appended when the next tick comes. -/
def caughtUp : List (Label (Fin 4)) := truncatedAhead.take 10 ++ [.tick]

/-- The loop bootstraps although its pointer is the last committed index. -/
theorem caught_up_bootstraps : (∀ i, (demoCalls i).Idle) ∧
    Along demoStep (Decoded (ascii "n2")) (State.start demoCalls demoNode) caughtUp ∧
    exec demoStep (State.start demoCalls demoNode) caughtUp = some (demoEnd caughtUp) ∧
    (demoEnd caughtUp).pointer = (demoEnd caughtUp).registry.commits.length ∧
    ¬Lost (demoEnd caughtUp) ∧
    ∃ u, demoStep (demoEnd caughtUp) (.call .ok) = some u ∧ Bootstraps (demoEnd caughtUp) u := by
  have hlast : (demoEnd caughtUp).pointer = (demoEnd caughtUp).registry.commits.length := by
    decide +kernel
  have hboots : (demoStep (demoEnd caughtUp) (.call .ok)).any
      (fun u => Bootstraps (demoEnd caughtUp) u) = true := by
    decide +kernel
  obtain ⟨u, hu, hboots⟩ := (Option.any_eq_true _ _).mp hboots
  refine ⟨by decide, by decide +kernel, exec_eq_getD (by decide +kernel), hlast, ?_, u, hu,
    of_decide_eq_true hboots⟩
  rintro ⟨n, hafter, hle, -⟩
  omega

end Shrimpd.Lsm.Loop
