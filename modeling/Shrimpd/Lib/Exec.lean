import Mathlib.Data.List.Basic
import Mathlib.Algebra.Order.Ring.Nat

/-!
# Runs of a partial step function

A system is a step function on states and labels that is undefined where the
label is not enabled.  `exec` runs a list of labels, and `Along` restricts a
run to steps that a side condition allows.  Both invariant rules below are the
only inductions over runs that the developments built on this file need.
-/

namespace Shrimpd.Lib.Exec

-- Runs of a few parties number them by `Fin 3` or `Fin 4`.
instance neZero_three : NeZero 3 := ⟨by decide⟩

instance neZero_four : NeZero 4 := ⟨by decide⟩

variable {σ ℓ : Type*}

/-- Run the labels in order; undefined as soon as one of them is not enabled. -/
def exec (step : σ → ℓ → Option σ) : σ → List ℓ → Option σ
  | s, [] => some s
  | s, l :: ls => (step s l).bind fun t => exec step t ls

/-- Every label of the run is taken in a state in which `ok` allows it. -/
def Along (step : σ → ℓ → Option σ) (ok : σ → ℓ → Prop) : σ → List ℓ → Prop
  | _, [] => True
  | s, l :: ls => ok s l ∧ ∀ t, step s l = some t → Along step ok t ls

variable {step : σ → ℓ → Option σ}

/-- A side condition that can be decided at each step can be decided along a run. -/
instance decidableAlong {ok : σ → ℓ → Prop} [∀ s l, Decidable (ok s l)] :
    ∀ (s : σ) (ls : List ℓ), Decidable (Along step ok s ls)
  | _, [] => .isTrue trivial
  | s, l :: ls =>
      match h : step s l with
      | none => decidable_of_iff (ok s l) (by simp [Along, h])
      | some t =>
          have : Decidable (Along step ok t ls) := decidableAlong t ls
          decidable_of_iff (ok s l ∧ Along step ok t ls) (by simp [Along, h])

@[simp] theorem exec_nil (s : σ) : exec step s [] = some s := rfl

theorem exec_cons {s u : σ} {l : ℓ} {ls : List ℓ} :
    exec step s (l :: ls) = some u ↔
      ∃ t, step s l = some t ∧ exec step t ls = some u :=
  Option.bind_eq_some_iff

/-- The end of a run that is known to exist. -/
theorem exec_eq_getD {s d : σ} {ls : List ℓ} (h : (exec step s ls).isSome = true) :
    exec step s ls = some ((exec step s ls).getD d) := by
  obtain ⟨t, ht⟩ := Option.isSome_iff_exists.mp h
  rw [ht]
  rfl

/-- A side condition on labels alone holds along any run that uses such labels. -/
theorem along_of_forall {ok : ℓ → Prop} {ls : List ℓ} (h : ∀ l ∈ ls, ok l) (s : σ) :
    Along step (fun _ l => ok l) s ls := by
  induction ls generalizing s with
  | nil => trivial
  | cons l ls ih =>
      exact ⟨h l (by simp), fun t _ => ih (fun l' hl' => h l' (by simp [hl'])) t⟩

theorem along_cons {ok : σ → ℓ → Prop} {s t : σ} {l : ℓ} {ls : List ℓ} (hok : ok s l)
    (hstep : step s l = some t) (hrest : Along step ok t ls) : Along step ok s (l :: ls) := by
  refine ⟨hok, fun u hu => ?_⟩
  rw [hstep, Option.some.injEq] at hu
  exact hu ▸ hrest

theorem Along.and {ok ok' : σ → ℓ → Prop} {s : σ} {ls : List ℓ} (h : Along step ok s ls)
    (h' : Along step ok' s ls) : Along step (fun s l => ok s l ∧ ok' s l) s ls := by
  induction ls generalizing s with
  | nil => trivial
  | cons l ls ih => exact ⟨⟨h.1, h'.1⟩, fun t ht => ih (h.2 t ht) (h'.2 t ht)⟩

/-- The invariant rule for runs whose steps all meet the side condition `ok`. -/
theorem invariant_along {ok : σ → ℓ → Prop} {I : σ → Prop}
    (hstep : ∀ s l t, I s → ok s l → step s l = some t → I t)
    {s t : σ} {ls : List ℓ} (hinit : I s) (hok : Along step ok s ls)
    (hrun : exec step s ls = some t) : I t := by
  induction ls generalizing s with
  | nil =>
      obtain rfl : s = t := by simpa using hrun
      exact hinit
  | cons l ls ih =>
      obtain ⟨v, hv, hrest⟩ := exec_cons.mp hrun
      exact ih (hstep s l v hinit hok.1 hv) (hok.2 v hv) hrest

/-- The invariant rule for unrestricted runs. -/
theorem invariant {I : σ → Prop}
    (hstep : ∀ s l t, I s → step s l = some t → I t)
    {s t : σ} {ls : List ℓ} (hinit : I s) (hrun : exec step s ls = some t) :
    I t := by
  have hfree : Along step (fun _ _ => True) s ls := along_of_forall (fun _ _ => trivial) s
  exact invariant_along (fun s l t hI _ => hstep s l t hI) hinit hfree hrun

/-- The rule of forward simulation: if another system follows every step, it follows every run. -/
theorem simulate {τ m : Type*} {step' : τ → m → Option τ} {ok : σ → ℓ → Prop} {R : σ → τ → Prop}
    {f : ℓ → m} (hstep : ∀ s l s' t, R s t → ok s l → step s l = some s' →
      ∃ t', step' t (f l) = some t' ∧ R s' t')
    {s s' : σ} {t : τ} {ls : List ℓ} (h : R s t) (hok : Along step ok s ls)
    (hrun : exec step s ls = some s') : ∃ t', exec step' t (ls.map f) = some t' ∧ R s' t' := by
  induction ls generalizing s t with
  | nil =>
      obtain rfl : s = s' := by simpa using hrun
      exact ⟨t, rfl, h⟩
  | cons l ls ih =>
      obtain ⟨u, hu, hrest⟩ := exec_cons.mp hrun
      obtain ⟨t', ht', h'⟩ := hstep s l u t h hok.1 hu
      obtain ⟨t'', hexec, h''⟩ := ih h' (hok.2 u hu) hrest
      exact ⟨t'', exec_cons.mpr ⟨t', ht', hexec⟩, h''⟩

/-- `t` can be reached from `s` by steps that `ok` allows. -/
def Reaches (step : σ → ℓ → Option σ) (ok : σ → ℓ → Prop) (s t : σ) : Prop :=
  ∃ ls, Along step ok s ls ∧ exec step s ls = some t

namespace Reaches

variable {ok : σ → ℓ → Prop} {s t u : σ}

theorem refl (s : σ) : Reaches step ok s s := ⟨[], trivial, rfl⟩

theorem head {l : ℓ} (hok : ok s l) (hstep : step s l = some t) (h : Reaches step ok t u) :
    Reaches step ok s u := by
  obtain ⟨ls, halong, hrun⟩ := h
  exact ⟨l :: ls, along_cons hok hstep halong, exec_cons.mpr ⟨t, hstep, hrun⟩⟩

theorem trans (h : Reaches step ok s t) (h' : Reaches step ok t u) : Reaches step ok s u := by
  obtain ⟨ls, halong, hrun⟩ := h
  induction ls generalizing s with
  | nil =>
      obtain rfl : s = t := by simpa using hrun
      exact h'
  | cons l ls ih =>
      obtain ⟨v, hv, hrest⟩ := exec_cons.mp hrun
      exact (ih (halong.2 v hv) hrest).head halong.1 hv

/-- Steps of one system that are steps of another. -/
theorem map {τ m : Type*} {step' : τ → m → Option τ} {ok' : τ → m → Prop} (f : σ → τ) (g : ℓ → m)
    (hmap : ∀ s l t, ok s l → step s l = some t →
      ok' (f s) (g l) ∧ step' (f s) (g l) = some (f t))
    (h : Reaches step ok s t) : Reaches step' ok' (f s) (f t) := by
  obtain ⟨ls, halong, hrun⟩ := h
  induction ls generalizing s with
  | nil =>
      obtain rfl : s = t := by simpa using hrun
      exact refl _
  | cons l ls ih =>
      obtain ⟨v, hv, hrest⟩ := exec_cons.mp hrun
      obtain ⟨hok, hstep⟩ := hmap s l v halong.1 hv
      exact (ih (halong.2 v hv) hrest).head hok hstep

end Reaches

end Shrimpd.Lib.Exec
