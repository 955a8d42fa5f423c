/-
# Labelled runs of a transition system

`Run step s₀ es s`: the system can go from `s₀` to `s` by steps labelled `es`, oldest first.
The one induction every safety argument needs is done here once: a property of the history and
the state that holds at the start and is kept by each step holds after every run
(`Run.invariant`).
-/
import Mathlib.Data.List.Basic

namespace Runs

variable {σ ε : Type}

/-- Finite runs of a labelled transition relation. -/
inductive Run (step : σ → ε → σ → Prop) (s₀ : σ) : List ε → σ → Prop
  | start : Run step s₀ [] s₀
  | next {es : List ε} {s s' : σ} {e : ε} :
      Run step s₀ es s → step s e s' → Run step s₀ (es ++ [e]) s'

variable {step : σ → ε → σ → Prop} {s₀ : σ}

theorem Run.single {s : σ} {e : ε} (h : step s₀ e s) : Run step s₀ [e] s := .next .start h

theorem Run.eq_of_nil {es : List ε} {s : σ} (h : Run step s₀ es s) (hes : es = []) : s = s₀ := by
  cases h with
  | start => rfl
  | next _ _ => simp at hes

theorem Run.of_single {s : σ} {e : ε} (h : Run step s₀ [e] s) : step s₀ e s := by
  generalize hes : [e] = es at h
  cases h with
  | start => cases hes
  | next hr hs =>
    rcases List.singleton_eq_append_iff.mp hes with ⟨hnil, he⟩ | ⟨-, he⟩
    · cases he
      exact hr.eq_of_nil hnil ▸ hs
    · cases he

/-- A run that goes on where another ended. -/
theorem Run.trans {es fs : List ε} {s s' : σ} (h : Run step s₀ es s) (h' : Run step s fs s') :
    Run step s₀ (es ++ fs) s' := by
  induction h' with
  | start => rwa [List.append_nil]
  | next _ hs ih => rw [← List.append_assoc]; exact .next ih hs

/-- A run passes through a state after each part of its labels. -/
theorem Run.split {es fs : List ε} {s : σ} (h : Run step s₀ (es ++ fs) s) :
    ∃ s₁, Run step s₀ es s₁ ∧ Run step s₁ fs s := by
  generalize hall : es ++ fs = gs at h
  induction h generalizing fs with
  | start =>
    obtain ⟨rfl, rfl⟩ := List.append_eq_nil_iff.mp hall
    exact ⟨s₀, .start, .start⟩
  | @next gs s s' e hr hs ih =>
    rcases List.eq_nil_or_concat fs with rfl | ⟨fs', f, rfl⟩
    · rw [List.append_nil] at hall
      exact ⟨s', hall ▸ hr.next hs, .start⟩
    · rw [List.concat_eq_append, ← List.append_assoc] at hall
      obtain ⟨hinit, hlast⟩ := List.append_inj' hall rfl
      obtain rfl := List.singleton_inj.mp hlast
      obtain ⟨s₁, hbefore, hafter⟩ := ih hinit
      exact ⟨s₁, hbefore, List.concat_eq_append ▸ hafter.next hs⟩

/-- The first step of a run. -/
theorem Run.head {es : List ε} {e : ε} {s : σ} (h : Run step s₀ (e :: es) s) :
    ∃ s₁, step s₀ e s₁ ∧ Run step s₁ es s := by
  obtain ⟨s₁, hfirst, hrest⟩ := @Run.split _ _ _ _ [e] es s h
  exact ⟨s₁, hfirst.of_single, hrest⟩

/-- The beginning of a run is a run. -/
theorem Run.take {es : List ε} {s : σ} (h : Run step s₀ es s) (n : Nat) :
    ∃ s', Run step s₀ (es.take n) s' := by
  rw [← List.take_append_drop n es] at h
  obtain ⟨s', hbefore, -⟩ := h.split
  exact ⟨s', hbefore⟩

section Lockstep

variable {τ : Type} {step' : τ → ε → τ → Prop} {R : σ → τ → Prop}

/-- Runs of the same length, where related states make the same steps to related states. -/
theorem Run.lockstep
    (hstep : ∀ s t e f s' t', R s t → step s e s' → step' t f t' → e = f ∧ R s' t') {t₀ : τ}
    (h₀ : R s₀ t₀) {es fs : List ε} {s : σ} {t : τ} (h : Run step s₀ es s)
    (h' : Run step' t₀ fs t) (hlen : es.length = fs.length) : es = fs ∧ R s t := by
  induction h generalizing fs t with
  | start =>
    cases h' with
    | start => exact ⟨rfl, h₀⟩
    | next _ _ => simp at hlen
  | next _ hs ih =>
    cases h' with
    | start => simp at hlen
    | next hr hs' =>
      obtain ⟨rfl, hrel⟩ := ih hr (by simpa using hlen)
      obtain ⟨rfl, hrel'⟩ := hstep _ _ _ _ _ _ hrel hs hs'
      exact ⟨rfl, hrel'⟩

/-- The same for runs up to the first step that is labelled `e`. -/
theorem Run.lockstep_first
    (hstep : ∀ s t e f s' t', R s t → step s e s' → step' t f t' → e = f ∧ R s' t') {t₀ : τ}
    (h₀ : R s₀ t₀) {es fs : List ε} {e : ε} {s : σ} {t : τ} (h : Run step s₀ (es ++ [e]) s)
    (h' : Run step' t₀ (fs ++ [e]) t) (hes : e ∉ es) (hfs : e ∉ fs) : es = fs ∧ R s t := by
  have hlen : es.length = fs.length := by
    refine Nat.le_antisymm (Nat.le_of_not_lt fun hlt => ?_) (Nat.le_of_not_lt fun hlt => ?_)
    · obtain ⟨s₁, hs₁⟩ := h.take (fs.length + 1)
      rw [List.take_append_of_le_length hlt] at hs₁
      obtain ⟨heq, -⟩ := Run.lockstep hstep h₀ hs₁ h' (by simp; omega)
      exact hes (List.mem_of_mem_take (heq ▸ List.mem_append_right fs (List.mem_singleton_self e)))
    · obtain ⟨t₁, ht₁⟩ := h'.take (es.length + 1)
      rw [List.take_append_of_le_length hlt] at ht₁
      obtain ⟨heq, -⟩ := Run.lockstep hstep h₀ h ht₁ (by simp; omega)
      exact hfs (List.mem_of_mem_take (heq ▸ List.mem_append_right es (List.mem_singleton_self e)))
  obtain ⟨heq, hrel⟩ := Run.lockstep hstep h₀ h h' (by simpa using hlen)
  exact ⟨List.append_cancel_right heq, hrel⟩

end Lockstep

/-- Where a state has one next step, the length of a run determines it. -/
theorem Run.deterministic (hdet : ∀ s e s' f s'', step s e s' → step s f s'' → e = f ∧ s' = s'')
    {es fs : List ε} {s s' : σ} (h : Run step s₀ es s) (h' : Run step s₀ fs s')
    (hlen : es.length = fs.length) : es = fs ∧ s = s' := by
  refine Run.lockstep (R := (· = ·)) ?_ rfl h h' hlen
  rintro s _ e f s' t' rfl hs ht
  exact hdet _ _ _ _ _ hs ht

/-- A step function whose step has a guard. -/
theorem of_guard {p : Prop} [Decidable p] {s s' : σ} (h : (if p then some s else none) = some s') :
    p ∧ s = s' := by
  rwa [Option.ite_none_right_eq_some, Option.some.injEq] at h

/-- The invariant rule: what holds at the start and is kept by every step holds after every
run. -/
theorem Run.invariant {I : List ε → σ → Prop} (h0 : I [] s₀)
    (hstep : ∀ es s e s', Run step s₀ es s → I es s → step s e s' → I (es ++ [e]) s') :
    ∀ {es : List ε} {s : σ}, Run step s₀ es s → I es s := by
  intro es s h
  induction h with
  | start => exact h0
  | next hrun hs ih => exact hstep _ _ _ _ hrun ih hs

/-- What holds of every step, seen from the events before it, holds of every event of a run. -/
theorem Run.event {P : List ε → ε → Prop}
    (hstep : ∀ es s e s', Run step s₀ es s → step s e s' → P es e) {es : List ε} {s : σ}
    (h : Run step s₀ es s) : ∀ before e after, es = before ++ e :: after → P before e := by
  induction h with
  | start =>
    intro before e after heq
    simp at heq
  | @next es s s' e' hrun hs ih =>
    intro before e after heq
    rcases List.eq_nil_or_concat after with rfl | ⟨after', e'', rfl⟩
    · obtain ⟨rfl, hlast⟩ := List.append_inj' heq rfl
      rw [List.cons.injEq] at hlast
      exact hlast.1 ▸ hstep _ _ _ _ hrun hs
    · rw [List.concat_eq_append, ← List.cons_append, ← List.append_assoc] at heq
      exact ih before e after' (List.append_inj' heq rfl).1

/-! ## What happened last -/

/-- `e` happened, and nothing that ends it happened since. -/
def Since (e : ε) (ends : ε → Prop) (es : List ε) : Prop :=
  ∃ before after, es = before ++ e :: after ∧ ∀ x ∈ after, ¬ ends x

theorem not_since_nil (e : ε) (ends : ε → Prop) : ¬ Since e ends [] := by
  rintro ⟨before, after, heq, -⟩
  simp at heq

/-- One event more begins it, ends it or leaves it. -/
theorem since_snoc {e x : ε} {ends : ε → Prop} {es : List ε} :
    Since e ends (es ++ [x]) ↔ x = e ∨ (Since e ends es ∧ ¬ ends x) := by
  constructor
  · rintro ⟨before, after, heq, hafter⟩
    rcases List.eq_nil_or_concat after with rfl | ⟨after', y, rfl⟩
    · obtain ⟨-, hlast⟩ := List.append_inj' heq rfl
      rw [List.cons.injEq] at hlast
      exact .inl hlast.1
    · rw [List.concat_eq_append] at hafter
      rw [List.concat_eq_append, ← List.cons_append, ← List.append_assoc] at heq
      obtain ⟨hes, hlast⟩ := List.append_inj' heq rfl
      rw [List.cons.injEq] at hlast
      obtain ⟨hbefore, hy⟩ := List.forall_mem_append.mp hafter
      exact .inr ⟨⟨before, after', hes, hbefore⟩, hlast.1 ▸ hy y (List.mem_singleton_self y)⟩
  · rintro (rfl | ⟨⟨before, after, rfl, hafter⟩, hx⟩)
    · exact ⟨es, [], rfl, fun y hy => nomatch hy⟩
    · refine ⟨before, after ++ [x], by simp, List.forall_mem_append.mpr ⟨hafter, ?_⟩⟩
      rwa [List.forall_mem_singleton]

/-- An event that has nothing to do with it. -/
theorem since_snoc_of_ne {e x : ε} {ends : ε → Prop} {es : List ε} (hx : x ≠ e)
    (hends : ¬ ends x) : Since e ends (es ++ [x]) ↔ Since e ends es := by
  simp [since_snoc, hx, hends]

end Runs
