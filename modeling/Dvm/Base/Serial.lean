/-
# Objects that are used one call at a time

A sequential object is what its calls do to its state and what they answer.  A history is legal
when each answer is the one of the object, after the calls before it.  A run of a system has a
legal history when each step is a call of the object or does not touch it (`Run.serial`): then the
calls take effect in the order of the history, however the steps of the callers are mixed.
-/
import Dvm.Base.Runs
import Mathlib.Data.List.Induction

namespace Serial

open Runs

structure Object (S C A : Type) where
  next : C → S → S
  answer : C → S → A

namespace Object

variable {S C A : Type} (obj : Object S C A)

/-- The state after the calls of a history. -/
def after (s : S) (h : List (C × A)) : S := h.foldl (fun s c => obj.next c.1 s) s

/-- Each call of the history is answered as the object answers it. -/
def Legal (s : S) : List (C × A) → Prop
  | [] => True
  | c :: h => c.2 = obj.answer c.1 s ∧ Legal (obj.next c.1 s) h

variable {obj} {s : S} {h : List (C × A)} {c : C × A}

theorem after_append (h₁ h₂ : List (C × A)) :
    obj.after s (h₁ ++ h₂) = obj.after (obj.after s h₁) h₂ := List.foldl_append

theorem after_snoc : obj.after s (h ++ [c]) = obj.next c.1 (obj.after s h) := after_append h [c]

theorem legal_append {h₁ h₂ : List (C × A)} :
    obj.Legal s (h₁ ++ h₂) ↔ obj.Legal s h₁ ∧ obj.Legal (obj.after s h₁) h₂ := by
  induction h₁ generalizing s with
  | nil => exact (iff_of_eq (true_and _)).symm
  | cons c h₁ ih =>
    show _ ∧ obj.Legal _ (h₁ ++ h₂) ↔ (_ ∧ obj.Legal _ h₁) ∧ _
    rw [ih, and_assoc]
    rfl

theorem legal_snoc :
    obj.Legal s (h ++ [c]) ↔ obj.Legal s h ∧ c.2 = obj.answer c.1 (obj.after s h) := by
  rw [legal_append]
  exact and_congr_right fun _ => iff_of_eq (and_true _)

/-- The answer of a call, by the calls before it. -/
theorem Legal.answer {before after : List (C × A)} (hl : obj.Legal s (before ++ c :: after)) :
    c.2 = obj.answer c.1 (obj.after s before) := (legal_append.mp hl).2.1

/-- What holds at first and is kept by every call that is answered as the object answers it. -/
theorem Legal.invariant {I : List (C × A) → S → Prop} (h0 : I [] s)
    (hcall : ∀ h c, I h (obj.after s h) → c.2 = obj.answer c.1 (obj.after s h) →
      I (h ++ [c]) (obj.next c.1 (obj.after s h))) (hl : obj.Legal s h) : I h (obj.after s h) := by
  induction h using List.reverseRecOn with
  | nil => exact h0
  | append_singleton h c ih =>
    obtain ⟨hl, hans⟩ := legal_snoc.mp hl
    rw [after_snoc]
    exact hcall h c (ih hl) hans

end Object

section Runs

variable {σ ε S C A : Type} {step : σ → ε → σ → Prop} {obj : Object S C A} {view : σ → S}
  {call : ε → Option (C × A)}

/-- A step is a call of the object, or leaves it as it is. -/
structure CallsObject (obj : Object S C A) (view : σ → S) (call : ε → Option (C × A)) (s : σ)
    (e : ε) (s' : σ) : Prop where
  called : ∀ c, call e = some c →
    c.2 = obj.answer c.1 (view s) ∧ view s' = obj.next c.1 (view s)
  kept : call e = none → view s' = view s

section Calls

variable {s s' : σ} {e : ε}

theorem CallsObject.of_some {c : C × A} (hc : call e = some c)
    (hanswer : c.2 = obj.answer c.1 (view s)) (hnext : view s' = obj.next c.1 (view s)) :
    CallsObject obj view call s e s' := by
  refine ⟨fun d hd => ?_, fun hno => ?_⟩
  · obtain rfl := Option.some.inj (hc.symm.trans hd)
    exact ⟨hanswer, hnext⟩
  · rw [hc] at hno
    cases hno

theorem CallsObject.of_none (hc : call e = none) (hkept : view s' = view s) :
    CallsObject obj view call s e s' := by
  refine ⟨fun d hd => ?_, fun _ => hkept⟩
  rw [hc] at hd
  cases hd

end Calls

/-- The history of a run whose steps are calls or leave the object as it is. -/
theorem Run.serial (hstep : ∀ s e s', step s e s' → CallsObject obj view call s e s') {s₀ s : σ}
    {es : List ε} (hrun : Run step s₀ es s) :
    obj.Legal (view s₀) (es.filterMap call) ∧
      view s = obj.after (view s₀) (es.filterMap call) := by
  refine Run.invariant (I := fun es s => obj.Legal (view s₀) (es.filterMap call) ∧
    view s = obj.after (view s₀) (es.filterMap call)) ⟨trivial, rfl⟩ ?_ hrun
  rintro es s e s' - ⟨hlegal, hview⟩ hs
  have hcalls := hstep s e s' hs
  cases hc : call e with
  | none =>
    have happ : (es ++ [e]).filterMap call = es.filterMap call := by
      simp [List.filterMap_append, hc]
    rw [happ, hcalls.kept hc]
    exact ⟨hlegal, hview⟩
  | some c =>
    obtain ⟨hans, hnext⟩ := hcalls.called c hc
    rw [hview] at hans hnext
    have happ : (es ++ [e]).filterMap call = es.filterMap call ++ [c] := by
      simp [List.filterMap_append, hc]
    rw [happ, Object.after_snoc, hnext]
    exact ⟨Object.legal_snoc.mpr ⟨hlegal, hans⟩, rfl⟩

end Runs

end Serial
