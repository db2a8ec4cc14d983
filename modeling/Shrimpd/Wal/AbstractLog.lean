import Shrimpd.Lib.Exec

/-!
# What a segmented log is for

A log of records that can be sealed and discarded.  A record carries the number
of the first `Seal` after it, once there is one; `Discard n` drops the records
sealed under a number up to `n`.  `survivors` says the same of a whole history
without a state: a record is gone exactly if some `Seal` after it returned a
number that a later `Discard` covers.
-/

namespace Shrimpd.Wal

open Shrimpd.Lib.Exec

variable {ρ : Type}

inductive Op (ρ : Type) where
  | append (rs : List ρ)
  | sealSegment
  | discard (upto : Nat)
  | reopen
  deriving DecidableEq, Repr

def Op.records : Op ρ → List ρ
  | .append rs => rs
  | _ => []

/-- What a call returned. -/
inductive Out where
  | ok
  | sealed (seq : Nat)
  | failed
  deriving DecidableEq, Repr

abbrev Event (ρ : Type) := Op ρ × Out

structure AbsLog (ρ : Type) where
  records : List (Option Nat × ρ)
  lastSeal : Option Nat
  deriving DecidableEq, Repr

namespace AbsLog

def init (rs : List ρ) : AbsLog ρ := ⟨rs.map fun r => (none, r), none⟩

def contents (a : AbsLog ρ) : List ρ := a.records.map Prod.snd

/-- Sealing numbers a record once. -/
def sealTag (k : Nat) (p : Option Nat × ρ) : Option Nat × ρ := (some (p.1.getD k), p.2)

def keeps (upto : Nat) (p : Option Nat × ρ) : Bool :=
  match p.1 with
  | none => true
  | some k => upto < k

/-- No call fails, and `Seal` returns a number above all earlier ones. -/
def step (a : AbsLog ρ) : Event ρ → Option (AbsLog ρ)
  | (.append rs, .ok) => some { a with records := a.records ++ rs.map fun r => (none, r) }
  | (.sealSegment, .sealed k) =>
      if a.lastSeal.all (· < k) then some ⟨a.records.map (sealTag k), some k⟩ else none
  | (.discard upto, .ok) => some { a with records := a.records.filter (keeps upto) }
  | (.reopen, .ok) => some a
  | _ => none

end AbsLog

/-! ## Histories -/

/-- The numbers `Seal` returned, in order. -/
def sealNumbers (tr : List (Event ρ)) : List Nat :=
  tr.filterMap fun e => match e.2 with
    | .sealed k => some k
    | _ => none

/-- A later `Discard` covers segment `k`. -/
def covered (k : Nat) (tr : List (Event ρ)) : Bool :=
  tr.any fun e => match e.1 with
    | .discard upto => k ≤ upto
    | _ => false

/-- A record that was in the log before `tr` was appended before a `Seal` of
`tr` whose number a later `Discard` covers. -/
def discarded : List (Event ρ) → Bool
  | [] => false
  | (_, .sealed k) :: tr => covered k tr || discarded tr
  | (_, _) :: tr => discarded tr

/-- The records of `tr` that no `Discard` removed, in append order. -/
def appendedSurvivors : List (Event ρ) → List ρ
  | [] => []
  | (op, _) :: tr => (if discarded tr then [] else op.records) ++ appendedSurvivors tr

def survivors (start : List ρ) (tr : List (Event ρ)) : List ρ :=
  (if discarded tr then [] else start) ++ appendedSurvivors tr

namespace AbsLog

/-- Whether a record with the given tag is still there after `tr`. -/
def outlives (tag : Option Nat) (tr : List (Event ρ)) : Bool :=
  match tag with
  | none => !discarded tr
  | some k => !covered k tr

/-- A number returned later than `k` is above it. -/
theorem lt_of_mem_sealNumbers {a b : AbsLog ρ} {tr : List (Event ρ)} {k : Nat}
    (hrun : exec step a tr = some b) (hlast : a.lastSeal = some k) :
    ∀ j ∈ sealNumbers tr, k < j := by
  induction tr generalizing a k with
  | nil => simp [sealNumbers]
  | cons e tr ih =>
      obtain ⟨c, hstep, hrest⟩ := exec_cons.mp hrun
      obtain ⟨op, out⟩ := e
      cases op <;> cases out <;> simp only [step] at hstep <;> try contradiction
      case append.ok rs =>
        obtain rfl := Option.some.inj hstep
        exact ih hrest hlast
      case discard.ok upto =>
        obtain rfl := Option.some.inj hstep
        exact ih hrest hlast
      case reopen.ok =>
        obtain rfl := Option.some.inj hstep
        exact ih hrest hlast
      case sealSegment.sealed i =>
        split_ifs at hstep with hlt
        obtain rfl := Option.some.inj hstep
        have hki : k < i := by simpa [hlast] using hlt
        intro j hj
        rcases List.mem_cons.mp hj with rfl | hj
        · exact hki
        · exact Nat.lt_trans hki (ih hrest rfl j hj)

/-- Numbers strictly increase over a whole run. -/
theorem sealNumbers_increasing {a b : AbsLog ρ} {tr : List (Event ρ)}
    (hrun : exec step a tr = some b) : (sealNumbers tr).Pairwise (· < ·) := by
  induction tr generalizing a with
  | nil => exact List.Pairwise.nil
  | cons e tr ih =>
      obtain ⟨c, hstep, hrest⟩ := exec_cons.mp hrun
      obtain ⟨op, out⟩ := e
      cases op <;> cases out <;> simp only [step] at hstep <;> try contradiction
      case append.ok rs => exact ih hrest
      case discard.ok upto => exact ih hrest
      case reopen.ok => exact ih hrest
      case sealSegment.sealed k =>
        split_ifs at hstep with hlt
        obtain rfl := Option.some.inj hstep
        exact List.pairwise_cons.mpr ⟨lt_of_mem_sealNumbers hrest rfl, ih hrest⟩

/-- What a larger number's `Discard` covers, a smaller number's does too. -/
theorem covered_of_discarded {k : Nat} {tr : List (Event ρ)}
    (hlt : ∀ j ∈ sealNumbers tr, k < j) (hdis : discarded tr = true) :
    covered k tr = true := by
  induction tr with
  | nil => simp [discarded] at hdis
  | cons e tr ih =>
      have htail : ∀ j ∈ sealNumbers tr, k < j := by
        intro j hj
        apply hlt
        obtain ⟨x, hx, hxj⟩ := List.mem_filterMap.mp hj
        exact List.mem_filterMap.mpr ⟨x, by simp [hx], hxj⟩
      obtain ⟨op, out⟩ := e
      have hstep : covered k tr = true → covered k ((op, out) :: tr) = true := by
        intro hcov
        rw [covered, List.any_cons, Bool.or_eq_true]
        exact Or.inr hcov
      apply hstep
      cases out with
      | ok => exact ih htail hdis
      | failed => exact ih htail hdis
      | sealed j =>
          rw [discarded, Bool.or_eq_true] at hdis
          rcases hdis with hcov | hdis
          · have hkj : k < j := hlt j (by simp [sealNumbers])
            obtain ⟨x, hx, hxj⟩ := List.any_eq_true.mp hcov
            refine List.any_eq_true.mpr ⟨x, hx, ?_⟩
            obtain ⟨xop, xout⟩ := x
            cases xop with
            | discard upto =>
                simp only [decide_eq_true_eq] at hxj ⊢
                omega
            | append rs => simp at hxj
            | sealSegment => simp at hxj
            | reopen => simp at hxj
          · exact ih htail hdis

/-- The state holds what the history says. -/
theorem contents_of_run {a b : AbsLog ρ} {tr : List (Event ρ)}
    (hrun : exec step a tr = some b) :
    b.contents = (a.records.filter fun p => outlives p.1 tr).map Prod.snd ++
      appendedSurvivors tr := by
  induction tr generalizing a with
  | nil =>
      obtain rfl : a = b := by simpa using hrun
      have hall : (a.records.filter fun p => outlives p.1 ([] : List (Event ρ))) = a.records := by
        apply List.filter_eq_self.mpr
        rintro ⟨tag, r⟩ -
        cases tag <;> rfl
      rw [hall, appendedSurvivors, List.append_nil, contents]
  | cons e tr ih =>
      obtain ⟨c, hstep, hrest⟩ := exec_cons.mp hrun
      have hc := ih hrest
      obtain ⟨op, out⟩ := e
      cases op <;> cases out <;> simp only [step] at hstep <;> try contradiction
      case append.ok rs =>
        obtain rfl := Option.some.inj hstep
        have hnew : ((rs.map fun r => ((none : Option Nat), r)).filter
            fun p => outlives p.1 tr).map Prod.snd = if discarded tr then [] else rs := by
          cases hdis : discarded tr <;> simp [outlives, hdis, List.filter_map, Function.comp_def]
        rw [hc, List.filter_append, List.map_append, hnew, appendedSurvivors, List.append_assoc]
        rfl
      case reopen.ok =>
        obtain rfl := Option.some.inj hstep
        rw [hc, appendedSurvivors]
        simp only [Op.records, ite_self, List.nil_append]
        rfl
      case discard.ok upto =>
        obtain rfl := Option.some.inj hstep
        rw [hc, appendedSurvivors]
        simp only [Op.records, ite_self, List.nil_append, List.filter_filter]
        congr 2
        apply List.filter_congr
        rintro ⟨tag, r⟩ -
        cases tag with
        | none => simp [outlives, keeps, discarded]
        | some k =>
            by_cases hk : k ≤ upto
            · simp [outlives, keeps, covered, hk, Nat.not_lt.mpr hk]
            · simp [outlives, keeps, covered, hk, Nat.lt_of_not_le hk]
      case sealSegment.sealed k =>
        split_ifs at hstep
        obtain rfl := Option.some.inj hstep
        have hlater := lt_of_mem_sealNumbers hrest rfl
        have hdis : (covered k tr || discarded tr) = covered k tr := by
          cases hd : discarded tr with
          | false => rw [Bool.or_false]
          | true => rw [covered_of_discarded hlater hd, Bool.or_true]
        rw [hc, appendedSurvivors]
        simp only [Op.records, ite_self, List.nil_append, List.filter_map, List.map_map]
        congr 1
        apply congrArg (List.map Prod.snd)
        apply List.filter_congr
        rintro ⟨tag, r⟩ -
        cases tag with
        | none => simp [outlives, sealTag, discarded, hdis]
        | some j => simp [outlives, sealTag, covered]

theorem contents_eq_survivors {rs : List ρ} {b : AbsLog ρ} {tr : List (Event ρ)}
    (hrun : exec step (init rs) tr = some b) : b.contents = survivors rs tr := by
  rw [contents_of_run hrun, survivors]
  congr 1
  cases hdis : discarded tr <;>
    simp [init, outlives, hdis, List.filter_map, Function.comp_def]

end AbsLog

end Shrimpd.Wal
