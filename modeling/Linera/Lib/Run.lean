import Mathlib

/-!
# Runs of a transition system

A system takes its inputs one after another; an input may be impossible in a
state. `run` is the whole run, `invariant` the induction that carries a property
from the start to the end of it, and `Along` says of a condition that every step
of a run meets it, in the state before that step.
-/

namespace Run

variable {σ ι : Type*} (step : σ → ι → Option σ)

/-- The state after all the inputs, or `none` if one of them was impossible. -/
def run (s : σ) (inputs : List ι) : Option σ := inputs.foldlM step s

/-- Each input of the run meets `C` in the state in which it is taken. -/
def Along (C : σ → ι → Prop) : σ → List ι → Prop
  | _, [] => True
  | s, i :: inputs => C s i ∧ ∀ s', step s i = some s' → Along C s' inputs

/-- A condition that can be decided for each input can be decided along a run. -/
instance decidableAlong {C : σ → ι → Prop} [∀ s i, Decidable (C s i)] :
    ∀ (s : σ) (inputs : List ι), Decidable (Along step C s inputs)
  | _, [] => .isTrue trivial
  | s, i :: inputs =>
    match h : step s i with
    | none => decidable_of_iff (C s i) (by simp [Along, h])
    | some s' =>
      have : Decidable (Along step C s' inputs) := decidableAlong s' inputs
      decidable_of_iff (C s i ∧ Along step C s' inputs) (by simp [Along, h])

variable {step}

@[simp] theorem run_nil (s : σ) : run step s [] = some s := rfl

variable {inputs : List ι} {P : σ → Prop}

theorem run_cons {s t : σ} {i : ι} :
    run step s (i :: inputs) = some t ↔ ∃ s', step s i = some s' ∧ run step s' inputs = some t := by
  simp only [run, List.foldlM_cons]
  exact Option.bind_eq_some_iff

/-- A property that each step keeps, where it meets the condition, is kept by a run whose steps
all meet it. -/
theorem invariant_along {C : σ → ι → Prop}
    (hstep : ∀ s i s', P s → C s i → step s i = some s' → P s') {s t : σ} (hs : P s)
    (hC : Along step C s inputs) (hrun : run step s inputs = some t) : P t := by
  induction inputs generalizing s with
  | nil => cases hrun; exact hs
  | cons i inputs ih =>
    obtain ⟨s', hi, hrest⟩ := run_cons.mp hrun
    exact ih (hstep s i s' hs hC.1 hi) (hC.2 s' hi) hrest

/-- If each step is matched by a step of another system, then so is a run. -/
theorem simulates {τ : Type*} {spec : τ → ι → τ} {R : σ → τ → Prop}
    (hstep : ∀ s a i s', R s a → step s i = some s' → R s' (spec a i)) {s t : σ} {a : τ}
    (hs : R s a) (hrun : run step s inputs = some t) : R t (inputs.foldl spec a) := by
  induction inputs generalizing s a with
  | nil => cases hrun; exact hs
  | cons i inputs ih =>
    obtain ⟨s', hi, hrest⟩ := run_cons.mp hrun
    exact ih (hstep s a i s' hs hi) hrest

/-- Where an invariant holds, one condition on the steps may give another. -/
theorem Along.imp {C D : σ → ι → Prop} (hstep : ∀ s i s', P s → C s i → step s i = some s' → P s')
    (himp : ∀ s i, P s → C s i → D s i) {s : σ} (hs : P s) (h : Along step C s inputs) :
    Along step D s inputs := by
  induction inputs generalizing s with
  | nil => trivial
  | cons i inputs ih =>
    exact ⟨himp s i hs h.1, fun s' hi => ih (hstep s i s' hs h.1 hi) (h.2 s' hi)⟩

/-- Two conditions that are both met along a run are met together. -/
theorem Along.and {C D : σ → ι → Prop} {s : σ} (hC : Along step C s inputs)
    (hD : Along step D s inputs) : Along step (fun s i => C s i ∧ D s i) s inputs := by
  induction inputs generalizing s with
  | nil => trivial
  | cons i inputs ih => exact ⟨⟨hC.1, hD.1⟩, fun s' hi => ih (hC.2 s' hi) (hD.2 s' hi)⟩

/-- A property that each step keeps is kept by a run. -/
theorem invariant (hstep : ∀ s i s', P s → step s i = some s' → P s') {s t : σ} (hs : P s)
    (hrun : run step s inputs = some t) : P t := by
  induction inputs generalizing s with
  | nil => cases hrun; exact hs
  | cons i inputs ih =>
    obtain ⟨s', hi, hrest⟩ := run_cons.mp hrun
    exact ih (hstep s i s' hs hi) hrest

/-- A preorder that each step of a run respects relates any two states of the run. -/
theorem along_iff_forall_between {R : σ → σ → Prop} (hrefl : ∀ s, R s s)
    (htrans : ∀ {s t u}, R s t → R t u → R s u) {s : σ} :
    Along step (fun s i => ∀ s', step s i = some s' → R s s') s inputs ↔
      ∀ before between after, inputs = before ++ (between ++ after) →
        ∀ s₁ s₂, run step s before = some s₁ → run step s₁ between = some s₂ → R s₁ s₂ := by
  induction inputs generalizing s with
  | nil =>
    refine iff_of_true trivial ?_
    intro before between after heq s₁ s₂ _ hbetween
    have hnil : between = [] := by simp_all
    subst hnil
    cases hbetween
    exact hrefl s₁
  | cons i inputs ih =>
    constructor
    · rintro ⟨hfirst, hrest⟩ before between after heq s₁ s₂ hbefore hbetween
      cases before with
      | cons j before =>
        obtain ⟨rfl, rfl⟩ := List.cons.inj heq
        obtain ⟨s', hi, hbefore⟩ := run_cons.mp hbefore
        exact (ih.mp (hrest s' hi)) before between after rfl s₁ s₂ hbefore hbetween
      | nil =>
        cases hbefore
        cases between with
        | nil =>
          cases hbetween
          exact hrefl s
        | cons j between =>
          obtain ⟨rfl, rfl⟩ := List.cons.inj heq
          obtain ⟨s', hi, hbetween⟩ := run_cons.mp hbetween
          exact htrans (hfirst s' hi)
            ((ih.mp (hrest s' hi)) [] between after rfl s' s₂ rfl hbetween)
    · intro h
      refine ⟨fun s' hi => h [] [i] inputs rfl s s' rfl (run_cons.mpr ⟨s', hi, rfl⟩),
        fun s' hi => ih.mpr fun before between after heq s₁ s₂ hbefore hbetween => ?_⟩
      exact h (i :: before) between after (by rw [heq]; rfl) s₁ s₂
        (run_cons.mpr ⟨s', hi, hbefore⟩) hbetween

end Run
