/-
# What must come

`Until step I Q s`: whatever steps are taken from `s` on, a state of `Q` is reached, each state
before it is in `I`, and none of these is without a step.  It is total correctness for a system
whose steps are not determined: a run can neither get stuck nor go on for ever before `Q`.

The rules are those of a program logic: consequence (`mono`), sequence (`bind`), one step
(`of_step`).  `sim` carries a judgement over to a system whose steps are steps of this one.
-/
import Mathlib.Logic.Basic

namespace Eventual

variable {σ τ : Type}

inductive Until (step : σ → σ → Prop) (I Q : σ → Prop) : σ → Prop
  | here {s : σ} : Q s → Until step I Q s
  | next {s : σ} : I s → (∃ s', step s s') → (∀ s', step s s' → Until step I Q s') →
      Until step I Q s

variable {step : σ → σ → Prop} {I I' Q Q' : σ → Prop} {s s' : σ}

/-! ## 1. Rules -/

/-- The rule of consequence. -/
theorem Until.mono (h : Until step I Q s) (hI : ∀ s, I s → I' s) (hQ : ∀ s, Q s → Q' s) :
    Until step I' Q' s := by
  induction h with
  | here hq => exact .here (hQ _ hq)
  | next hi hgo _ ih => exact .next (hI _ hi) hgo ih

/-- The rule of sequence. -/
theorem Until.bind (h : Until step I Q s) (hQ : ∀ s, Q s → Until step I Q' s) :
    Until step I Q' s := by
  induction h with
  | here hq => exact hQ _ hq
  | next hi hgo _ ih => exact .next hi hgo ih

/-- A state with one next state. -/
theorem Until.of_step (hi : I s) (hstep : step s s') (hdet : ∀ s'', step s s'' → s'' = s')
    (h : Until step I Q s') : Until step I Q s :=
  .next hi ⟨s', hstep⟩ fun s'' hs => hdet s'' hs ▸ h

/-! ## 2. Simulation -/

theorem Until.holds (h : Until step I Q s) : I s ∨ Q s := by
  cases h with
  | here hq => exact .inr hq
  | next hi _ _ => exact .inl hi

/-- A system whose steps from a related state are there, and are those of this system. -/
theorem Until.sim {step' : τ → τ → Prop} {R : σ → τ → Prop}
    (hsim : ∀ s t, R s t → I s → (∃ s', step s s') → (∀ s', step s s' → I s' ∨ Q s') →
      (∃ t', step' t t') ∧ ∀ t', step' t t' → ∃ s', step s s' ∧ R s' t')
    {t : τ} (h : Until step I Q s) (hR : R s t) :
    Until step' (fun t => ∃ s, R s t ∧ I s) (fun t => ∃ s, R s t ∧ Q s) t := by
  induction h generalizing t with
  | here hq => exact .here ⟨_, hR, hq⟩
  | next hi hgo hall ih =>
    obtain ⟨hgo', hback⟩ := hsim _ _ hR hi hgo fun s' hs => (hall s' hs).holds
    refine .next ⟨_, hR, hi⟩ hgo' fun t' ht => ?_
    obtain ⟨s', hs, hR'⟩ := hback t' ht
    exact ih s' hs hR'

end Eventual
