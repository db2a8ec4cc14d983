import Mathlib.Data.List.Basic

/-!
# Loops with a state

A loop repeats its body until the body returns a result.  `run` gives the states
the body was entered with and the result, if so many rounds suffice.  A loop
whose rounds lower a potential ends; one whose rounds keep a condition under
which the body goes on does not.
-/

namespace Shrimpd.Lib.Loop

variable {σ ρ : Type*}

def run (body : σ → σ ⊕ ρ) : Nat → σ → Option (List σ × ρ)
  | 0, _ => none
  | fuel + 1, s =>
      match body s with
      | .inr r => some ([s], r)
      | .inl t => (run body fuel t).map fun out => (s :: out.1, out.2)

variable {body : σ → σ ⊕ ρ} {inv : σ → Prop}

/-- More rounds than the potential suffice; the invariant holds at each of them, and the
result is one that the invariant allows. -/
theorem exists_run {post : ρ → Prop} {potential : σ → Nat}
    (hkeep : ∀ s t, inv s → body s = .inl t → inv t ∧ potential t < potential s)
    (hpost : ∀ s r, inv s → body s = .inr r → post r) {fuel : Nat} {s : σ} (hs : inv s)
    (hfuel : potential s < fuel) :
    ∃ visited r, run body fuel s = some (visited, r) ∧ (∀ t ∈ visited, inv t) ∧ post r := by
  induction fuel generalizing s with
  | zero => exact absurd hfuel (Nat.not_lt_zero _)
  | succ fuel ih =>
      rw [run]
      cases hbody : body s with
      | inr r =>
          refine ⟨[s], r, rfl, ?_, hpost s r hs hbody⟩
          intro t ht
          rw [List.mem_singleton.mp ht]
          exact hs
      | inl t =>
          obtain ⟨ht, hless⟩ := hkeep s t hs hbody
          obtain ⟨visited, r, hrun, hall, hr⟩ := ih ht (by omega)
          refine ⟨s :: visited, r, ?_, List.forall_mem_cons.mpr ⟨hs, hall⟩, hr⟩
          simp only [hrun, Option.map_some]

/-- No number of rounds suffices where each leads to a next one. -/
theorem run_eq_none (hstep : ∀ s, inv s → ∃ t, body s = .inl t ∧ inv t) (fuel : Nat) {s : σ}
    (hs : inv s) : run body fuel s = none := by
  induction fuel generalizing s with
  | zero => rfl
  | succ fuel ih =>
      obtain ⟨t, hbody, ht⟩ := hstep s hs
      rw [run, hbody]
      simp only [ih ht, Option.map_none]

end Shrimpd.Lib.Loop
