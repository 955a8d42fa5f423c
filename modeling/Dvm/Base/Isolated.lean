/-
# Programs that leave each other's memory alone

A machine steps on a memory of cells, and which cells a step reads and writes is known.  Machines
that share a memory are isolated when each of them, run alone, reads and writes only cells of its
own, apart from cells that all may read and none writes.  That is a condition on the runs of each
machine alone; from it every run of all of them together, in any order of their steps, is for each
machine its run alone (`Regions.run`).  So the order does not matter (`Regions.same_counts`,
`Regions.same_end`).
-/
import Dvm.Base.Runs
import Mathlib.Data.Set.Disjoint
import Mathlib.Logic.Function.Basic

namespace Isolated

open Runs

/-! ## 1. One machine -/

structure Machine (L A V : Type) where
  step : L → (A → V) → Option (L × (A → V))
  reads : L → (A → V) → Set A
  writes : L → (A → V) → Set A
  /-- Whether a step is possible depends on what it reads. -/
  stuck : ∀ {l m m₁}, (∀ x ∈ reads l m, m₁ x = m x) → step l m = none → step l m₁ = none
  /-- So does what it does, and it changes only what it writes. -/
  goes : ∀ {l m m₁ l' m'}, (∀ x ∈ reads l m, m₁ x = m x) → step l m = some (l', m') →
    ∃ m₁', step l m₁ = some (l', m₁') ∧ (∀ x ∈ writes l m, m₁' x = m' x) ∧
      ∀ x, x ∉ writes l m → m₁' x = m₁ x

section Machine

variable {L A V : Type}

/-- The run alone, after `n` steps. -/
def Machine.solo (M : Machine L A V) (l : L) (m : A → V) : Nat → Option (L × (A → V))
  | 0 => some (l, m)
  | n + 1 => (Machine.solo M l m n).bind fun s => M.step s.1 s.2

/-- Alone, the machine reads only what is its own or `ro`, and writes only what is its own. -/
structure Machine.Confined (M : Machine L A V) (own ro : Set A) (l : L) (m : A → V) : Prop where
  reads : ∀ n l' m', M.solo l m n = some (l', m') → ∀ x ∈ M.reads l' m', x ∈ own ∨ x ∈ ro
  writes : ∀ n l' m', M.solo l m n = some (l', m') → ∀ x ∈ M.writes l' m', x ∈ own

variable {M : Machine L A V} {l l' : L} {m m' : A → V} {own ro : Set A}

theorem Machine.frame (h : M.step l m = some (l', m')) {x : A} (hx : x ∉ M.writes l m) :
    m' x = m x := by
  obtain ⟨m₁, hstep, -, hkept⟩ := M.goes (fun _ _ => rfl) h
  obtain ⟨-, rfl⟩ := Prod.mk.inj (Option.some.inj (h.symm.trans hstep))
  exact hkept x hx

theorem Machine.solo_succ {n : Nat} (h : M.solo l m n = some (l', m')) :
    M.solo l m (n + 1) = M.step l' m' := by
  rw [solo, h]
  rfl

theorem Machine.solo_step {n : Nat} (h : M.step l m = some (l', m')) :
    M.solo l m (n + 1) = M.solo l' m' n := by
  induction n with
  | zero => exact (solo_succ rfl).trans h
  | succ n ih => rw [solo, ih, solo]

/-- A machine that cannot go on. -/
theorem Machine.Confined.of_stuck (hstep : M.step l m = none)
    (hreads : ∀ x ∈ M.reads l m, x ∈ own ∨ x ∈ ro) (hwrites : ∀ x ∈ M.writes l m, x ∈ own) :
    M.Confined own ro l m := by
  have hnone : ∀ n, M.solo l m (n + 1) = none := by
    intro n
    induction n with
    | zero => exact (solo_succ rfl).trans hstep
    | succ n ih =>
      rw [solo, ih]
      rfl
  have hstay : ∀ n l' m', M.solo l m n = some (l', m') → l' = l ∧ m' = m := by
    intro n l' m' hn
    cases n with
    | zero =>
      obtain ⟨rfl, rfl⟩ := Prod.mk.inj (Option.some.inj hn)
      exact ⟨rfl, rfl⟩
    | succ n =>
      rw [hnone] at hn
      cases hn
  refine ⟨fun n l' m' hn => ?_, fun n l' m' hn => ?_⟩
  · obtain ⟨rfl, rfl⟩ := hstay n l' m' hn
    exact hreads
  · obtain ⟨rfl, rfl⟩ := hstay n l' m' hn
    exact hwrites

/-- A machine that keeps to its cells in one step, and after it. -/
theorem Machine.Confined.of_step (hstep : M.step l m = some (l', m'))
    (hreads : ∀ x ∈ M.reads l m, x ∈ own ∨ x ∈ ro) (hwrites : ∀ x ∈ M.writes l m, x ∈ own)
    (h : M.Confined own ro l' m') : M.Confined own ro l m := by
  refine ⟨fun n l₁ m₁ hn => ?_, fun n l₁ m₁ hn => ?_⟩
  all_goals
    cases n with
    | zero =>
      obtain ⟨rfl, rfl⟩ := Prod.mk.inj (Option.some.inj hn)
      assumption
    | succ n =>
      rw [solo_step hstep] at hn
      first
        | exact h.reads n _ _ hn
        | exact h.writes n _ _ hn

/-- Alone, the machine changes only what is its own. -/
theorem Machine.Confined.kept (h : M.Confined own ro l m) {n : Nat}
    (hn : M.solo l m n = some (l', m')) {x : A} (hx : x ∉ own) : m' x = m x := by
  induction n generalizing l' m' with
  | zero =>
    obtain ⟨-, rfl⟩ := Prod.mk.inj (Option.some.inj hn)
    rfl
  | succ n ih =>
    cases hprev : M.solo l m n with
    | none =>
      rw [solo, hprev] at hn
      cases hn
    | some s =>
      obtain ⟨l₁, m₁⟩ := s
      rw [solo_succ hprev] at hn
      rw [frame hn (mt (h.writes n _ _ hprev x) hx), ih hprev]

end Machine

/-! ## 2. Machines with one memory -/

structure System (ι L A V : Type) where
  thread : ι → Option L
  mem : A → V

section System

variable {ι L A V : Type} [DecidableEq ι] {M : Machine L A V}

inductive Step (M : Machine L A V) : System ι L A V → ι → System ι L A V → Prop
  | step {s : System ι L A V} {i : ι} {l l' : L} {m' : A → V} : s.thread i = some l →
      M.step l s.mem = some (l', m') →
      Step M s i ⟨Function.update s.thread i (some l'), m'⟩

/-- Each machine has cells of its own, which it keeps to when it runs alone. -/
structure Regions (M : Machine L A V) (own : ι → Set A) (ro : Set A) (s₀ : System ι L A V) :
    Prop where
  apart : ∀ i j, i ≠ j → ∀ x, x ∈ own i → x ∉ own j
  shared : ∀ i, ∀ x ∈ own i, x ∉ ro
  confined : ∀ i l, s₀.thread i = some l → M.Confined (own i) ro l s₀.mem

/-- After the steps `es`, each machine is where it is alone after as many steps of its own. -/
structure Apart (M : Machine L A V) (own : ι → Set A) (s₀ : System ι L A V) (es : List ι)
    (s : System ι L A V) : Prop where
  absent : ∀ i, s₀.thread i = none → s.thread i = none
  alone : ∀ i l, s₀.thread i = some l → ∃ l' m', M.solo l s₀.mem (es.count i) = some (l', m') ∧
    s.thread i = some l' ∧ ∀ x ∈ own i, s.mem x = m' x
  rest : ∀ x, (∀ i, s₀.thread i ≠ none → x ∉ own i) → s.mem x = s₀.mem x

variable {own : ι → Set A} {ro : Set A} {s₀ s s' : System ι L A V} {es fs : List ι} {i : ι}
  {l l' : L} {m' : A → V}

/-- What a machine reads next is as it is alone. -/
theorem Apart.agrees (h : Apart M own s₀ es s) (hr : Regions M own ro s₀)
    (h₀ : s₀.thread i = some l) (hsolo : M.solo l s₀.mem (es.count i) = some (l', m'))
    (hown : ∀ x ∈ own i, s.mem x = m' x) : ∀ x ∈ M.reads l' m', s.mem x = m' x := by
  have hc := hr.confined i l h₀
  intro x hx
  rcases hc.reads _ _ _ hsolo x hx with hmine | hshared
  · exact hown x hmine
  · have hno : ∀ j, x ∉ own j := fun j hj => hr.shared j x hj hshared
    rw [h.rest x fun j _ => hno j, hc.kept hsolo (hno i)]

/-- A step of one machine. -/
theorem Apart.step (h : Apart M own s₀ es s) (hr : Regions M own ro s₀) (hs : Step M s i s') :
    Apart M own s₀ (es ++ [i]) s' := by
  obtain ⟨hi, hstep⟩ := hs
  rename_i l₁ l₂ m₂
  cases h₀ : s₀.thread i with
  | none =>
    rw [h.absent i h₀] at hi
    cases hi
  | some l =>
    obtain ⟨l', m', hsolo, hthread, hown⟩ := h.alone i l h₀
    obtain rfl := Option.some.inj (hi.symm.trans hthread)
    have hagree := h.agrees hr h₀ hsolo hown
    have hc := hr.confined i l h₀
    cases hnext : M.step l₁ m' with
    | none =>
      rw [M.stuck hagree hnext] at hstep
      cases hstep
    | some r =>
      obtain ⟨l₃, m₃⟩ := r
      obtain ⟨m₄, hstep', hwrites, hkept⟩ := M.goes hagree hnext
      obtain ⟨rfl, rfl⟩ := Prod.mk.inj (Option.some.inj (hstep.symm.trans hstep'))
      have hmine : ∀ x, x ∉ own i → m₂ x = s.mem x :=
        fun x hx => hkept x (mt (hc.writes _ _ _ hsolo x) hx)
      refine ⟨fun j hj => ?_, fun j lj hj => ?_, fun x hx => ?_⟩
      · have hne : j ≠ i := by
          rintro rfl
          rw [h₀] at hj
          cases hj
        exact (Function.update_of_ne hne _ _).trans (h.absent j hj)
      · rcases eq_or_ne j i with rfl | hne
        · obtain rfl := Option.some.inj (h₀.symm.trans hj)
          refine ⟨l₂, m₃, ?_, Function.update_self _ _ _, fun x hx => ?_⟩
          · rw [List.count_append, List.count_singleton_self, Machine.solo_succ hsolo]
            exact hnext
          · by_cases hw : x ∈ M.writes l₁ m'
            · exact hwrites x hw
            · rw [Machine.frame hnext hw, ← hown x hx]
              exact hkept x hw
        · obtain ⟨l₄, m₄, hsolo₄, hthread₄, hown₄⟩ := h.alone j lj hj
          refine ⟨l₄, m₄, ?_, (Function.update_of_ne hne _ _).trans hthread₄, fun x hx => ?_⟩
          · rw [List.count_append, List.count_singleton, if_neg (by simpa using hne.symm)]
            exact hsolo₄
          · exact (hmine x (hr.apart j i hne x hx)).trans (hown₄ x hx)
      · have hno : x ∉ own i := hx i (by rw [h₀]; exact Option.some_ne_none l)
        exact (hmine x hno).trans (h.rest x hx)

/-- In every run each machine does what it does alone. -/
theorem Regions.run (hr : Regions M own ro s₀) (h : Run (Step M) s₀ es s) :
    Apart M own s₀ es s := by
  refine Run.invariant (I := fun es s => Apart M own s₀ es s) ?_ ?_ h
  · exact ⟨fun _ hi => hi, fun i l hi => ⟨l, s₀.mem, rfl, hi, fun _ _ => rfl⟩, fun _ _ => rfl⟩
  · intro es s i s' _ hI hs
    exact hI.step hr hs

/-- Runs with as many steps of each machine end in the same state. -/
theorem Regions.same_counts (hr : Regions M own ro s₀) (h : Run (Step M) s₀ es s)
    (h' : Run (Step M) s₀ fs s') (hcount : ∀ i, es.count i = fs.count i) : s = s' := by
  have ha := hr.run h
  have ha' := hr.run h'
  have hthread : s.thread = s'.thread := by
    funext i
    cases h₀ : s₀.thread i with
    | none => rw [ha.absent i h₀, ha'.absent i h₀]
    | some l =>
      obtain ⟨l₁, m₁, hsolo₁, ht₁, -⟩ := ha.alone i l h₀
      obtain ⟨l₂, m₂, hsolo₂, ht₂, -⟩ := ha'.alone i l h₀
      rw [hcount, hsolo₂] at hsolo₁
      obtain ⟨rfl, -⟩ := Prod.mk.inj (Option.some.inj hsolo₁)
      rw [ht₁, ht₂]
  have hmem : s.mem = s'.mem := by
    funext x
    by_cases hx : ∀ i, s₀.thread i ≠ none → x ∉ own i
    · rw [ha.rest x hx, ha'.rest x hx]
    · simp only [not_forall, not_not] at hx
      obtain ⟨i, hi, hx⟩ := hx
      obtain ⟨l, h₀⟩ := Option.ne_none_iff_exists'.mp hi
      obtain ⟨l₁, m₁, hsolo₁, -, hown₁⟩ := ha.alone i l h₀
      obtain ⟨l₂, m₂, hsolo₂, -, hown₂⟩ := ha'.alone i l h₀
      rw [hcount, hsolo₂] at hsolo₁
      obtain ⟨-, rfl⟩ := Prod.mk.inj (Option.some.inj hsolo₁)
      rw [hown₁ x hx, hown₂ x hx]
  cases s
  cases s'
  exact congrArg₂ System.mk hthread hmem

/-- No machine can make a step. -/
def Done (M : Machine L A V) (s : System ι L A V) : Prop :=
  ∀ i l, s.thread i = some l → M.step l s.mem = none

/-- A machine that cannot go on has made as many steps as in any other run, at least. -/
theorem Regions.count_le (hr : Regions M own ro s₀) (h : Run (Step M) s₀ es s)
    (hdone : Done M s) (h' : Run (Step M) s₀ fs s') (i : ι) (hi : s₀.thread i ≠ none) :
    fs.count i ≤ es.count i := by
  obtain ⟨l, h₀⟩ := Option.ne_none_iff_exists'.mp hi
  have ha := hr.run h
  obtain ⟨l₁, m₁, hsolo₁, ht₁, hown₁⟩ := ha.alone i l h₀
  obtain ⟨l₂, m₂, hsolo₂, -, -⟩ := (hr.run h').alone i l h₀
  have hstuck : M.step l₁ m₁ = none := by
    cases hstep : M.step l₁ m₁ with
    | none => rfl
    | some r =>
      obtain ⟨m₃, hgoes, -⟩ := M.goes (ha.agrees hr h₀ hsolo₁ hown₁) hstep
      rw [hdone i l₁ ht₁] at hgoes
      cases hgoes
  have hnone : ∀ n, es.count i < n → M.solo l s₀.mem n = none := by
    intro n hn
    induction n, hn using Nat.le_induction with
    | base => rw [Machine.solo_succ hsolo₁, hstuck]
    | succ n _ ih =>
      rw [Machine.solo, ih]
      rfl
  by_contra hlt
  rw [hnone _ (Nat.not_le.mp hlt)] at hsolo₂
  cases hsolo₂

theorem Run.count_eq_zero (h : Run (Step M) s₀ es s) (hi : s₀.thread i = none) :
    es.count i = 0 ∧ s.thread i = none := by
  refine Run.invariant (I := fun es s => es.count i = 0 ∧ s.thread i = none) ⟨rfl, hi⟩ ?_ h
  rintro es s j s' - ⟨hcount, hnone⟩ ⟨hj, -⟩
  have hne : i ≠ j := by
    rintro rfl
    rw [hnone] at hj
    cases hj
  refine ⟨?_, (Function.update_of_ne hne _ _).trans hnone⟩
  rw [List.count_append, hcount, List.count_singleton, if_neg (by simpa using hne.symm)]

/-- All runs that cannot go on end in the same state. -/
theorem Regions.same_end (hr : Regions M own ro s₀) (h : Run (Step M) s₀ es s)
    (hdone : Done M s) (h' : Run (Step M) s₀ fs s') (hdone' : Done M s') : s = s' := by
  refine hr.same_counts h h' fun i => ?_
  by_cases hi : s₀.thread i = none
  · rw [(Run.count_eq_zero h hi).1, (Run.count_eq_zero h' hi).1]
  · exact Nat.le_antisymm (hr.count_le h' hdone' h i hi) (hr.count_le h hdone h' i hi)

end System

end Isolated
