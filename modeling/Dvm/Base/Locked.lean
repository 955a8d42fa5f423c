/-
# Threads with a critical section

Any number of threads run the same straight program, which locks, works on something shared, and
unlocks; outside the section it does not touch what is shared.  The threads' steps are mixed in any
way, and threads start at any time.  What is shared is then what the sections done so far have made
of it one after the other, and the steps of the section that a thread is in (`Run.serial`).  When
all threads are done, each has done its section once (`Run.shared_of_done`); as long as they are
not, one of them can go on (`exists_step`).
-/
import Dvm.Base.Runs
import Mathlib.Algebra.BigOperators.Group.Finset.Piecewise
import Mathlib.Logic.Function.Iterate

namespace Locked

open Runs

/-- A straight program of which only the steps between `lock` and `unlock` act on what is shared. -/
structure Program (S : Type) where
  length : Nat
  lock : Nat
  unlock : Nat
  act : Nat → S → S
  lock_lt : lock < unlock
  unlock_lt : unlock < length
  outside : ∀ k s, ¬ (lock < k ∧ k < unlock) → act k s = s

/-- The threads that have started, the step that each comes to next, who holds the lock. -/
structure State (S : Type) where
  ids : Finset Nat
  pc : Nat → Nat
  holder : Option Nat
  shared : S

def State.init {S : Type} (s₀ : S) : State S := ⟨∅, fun _ => 0, none, s₀⟩

inductive Event where
  | start (i : Nat)
  | step (i : Nat)

/-- Thread `i` starts. -/
def State.begin {S : Type} (s : State S) (i : Nat) : State S where
  ids := insert i s.ids
  pc := Function.update s.pc i 0
  holder := s.holder
  shared := s.shared

section Steps

variable {S : Type} (p : Program S)

/-- The state after the next step of thread `i`. -/
def State.next (s : State S) (i : Nat) : State S where
  ids := s.ids
  pc := Function.update s.pc i (s.pc i + 1)
  holder := if s.pc i = p.lock then some i else if s.pc i = p.unlock then none else s.holder
  shared := p.act (s.pc i) s.shared

inductive Step : State S → Event → State S → Prop
  | start {s : State S} {i : Nat} : i ∉ s.ids → Step s (.start i) (s.begin i)
  | step {s : State S} {i : Nat} : i ∈ s.ids → s.pc i < p.length →
      (s.pc i = p.lock → s.holder = none) → Step s (.step i) (s.next p i)

/-- What the steps before step `k` do. -/
def Program.upto (k : Nat) (s : S) : S := (List.range k).foldl (fun s j => p.act j s) s

/-- What a whole section does. -/
def Program.run : S → S := p.upto p.length

/-- The thread is in its section. -/
def State.Inside (s : State S) (i : Nat) : Prop :=
  i ∈ s.ids ∧ p.lock < s.pc i ∧ s.pc i ≤ p.unlock

/-- The threads that are done with their section. -/
def State.past (s : State S) : Finset Nat := s.ids.filter fun i => p.unlock < s.pc i

/-- The lock is held from inside, and what is shared is what one section after the other made of
it. -/
structure Serial (s₀ : S) (s : State S) : Prop where
  holds : ∀ i, s.holder = some i ↔ s.Inside p i
  free : s.holder = none → s.shared = p.run^[(s.past p).card] s₀
  held : ∀ i, s.holder = some i → s.shared = p.upto (s.pc i) (p.run^[(s.past p).card] s₀)

end Steps

/-! ## 1. Sections -/

section Program

variable {S : Type} {p : Program S}

theorem Program.upto_succ (k : Nat) (s : S) : p.upto (k + 1) s = p.act k (p.upto k s) := by
  rw [upto, List.range_succ, List.foldl_append]
  rfl

theorem Program.upto_lock {k : Nat} (h : k ≤ p.lock + 1) (s : S) : p.upto k s = s := by
  induction k with
  | zero => rfl
  | succ k ih => rw [upto_succ, ih (by omega), p.outside k s (by omega)]

theorem Program.upto_unlock {k : Nat} (h : p.unlock ≤ k) (s : S) :
    p.upto k s = p.upto p.unlock s := by
  induction k, h using Nat.le_induction with
  | base => rfl
  | succ k hk ih => rw [upto_succ, p.outside k _ (by omega), ih]

theorem Program.upto_section (s : S) : p.upto p.unlock s = p.run s :=
  (upto_unlock (Nat.le_of_lt p.unlock_lt) s).symm

end Program

/-! ## 2. One step -/

section Invariant

variable {S : Type} {p : Program S} {s₀ : S} {s s' : State S} {i j : Nat}

theorem State.begin_pc_self (s : State S) (i : Nat) : (s.begin i).pc i = 0 :=
  Function.update_self _ _ _

theorem State.begin_pc_ne (h : j ≠ i) : (s.begin i).pc j = s.pc j := Function.update_of_ne h _ _

theorem State.mem_begin : j ∈ (s.begin i).ids ↔ j = i ∨ j ∈ s.ids := Finset.mem_insert

theorem State.next_pc_self : (s.next p i).pc i = s.pc i + 1 := Function.update_self _ _ _

theorem State.next_pc_ne (h : j ≠ i) : (s.next p i).pc j = s.pc j := Function.update_of_ne h _ _

/-- Another thread is inside as before. -/
theorem State.inside_next_ne (h : j ≠ i) : (s.next p i).Inside p j ↔ s.Inside p j := by
  rw [Inside, Inside, next_pc_ne h]
  rfl

theorem State.inside_next_self (hi : i ∈ s.ids) :
    (s.next p i).Inside p i ↔ p.lock ≤ s.pc i ∧ s.pc i < p.unlock := by
  rw [Inside, next_pc_self]
  constructor
  · rintro ⟨-, hlock, hunlock⟩
    omega
  · rintro ⟨hlock, hunlock⟩
    exact ⟨hi, by omega, by omega⟩

/-- A step before the end of the section, or behind it, adds no thread that is past it. -/
theorem State.past_next (h : s.pc i ≠ p.unlock) : (s.next p i).past p = s.past p := by
  refine Finset.filter_congr fun j _ => ?_
  rcases eq_or_ne j i with rfl | hj
  · rw [next_pc_self]
    omega
  · rw [next_pc_ne hj]

/-- The end of a section. -/
theorem State.past_next_unlock (hi : i ∈ s.ids) (h : s.pc i = p.unlock) :
    ((s.next p i).past p).card = (s.past p).card + 1 := by
  have hins : (s.next p i).past p = insert i (s.past p) := by
    ext j
    rw [Finset.mem_insert, past, past, Finset.mem_filter, Finset.mem_filter]
    rcases eq_or_ne j i with rfl | hj
    · rw [next_pc_self]
      exact iff_of_true ⟨hi, by omega⟩ (.inl rfl)
    · rw [next_pc_ne hj, or_iff_right hj]
      rfl
  rw [hins, Finset.card_insert_of_notMem]
  rw [past, Finset.mem_filter]
  omega

/-- A thread that starts is outside. -/
theorem Serial.begin (h : Serial p s₀ s) (hi : i ∉ s.ids) : Serial p s₀ (s.begin i) := by
  have hne : ∀ j ∈ s.ids, j ≠ i := by
    rintro j hj rfl
    exact hi hj
  have hpast : (s.begin i).past p = s.past p := by
    ext j
    rw [State.past, State.past, Finset.mem_filter, Finset.mem_filter, State.mem_begin]
    rcases eq_or_ne j i with rfl | hj
    · rw [State.begin_pc_self]
      exact iff_of_false (fun h => absurd h.2 (Nat.not_lt_zero _)) (fun h => hi h.1)
    · rw [State.begin_pc_ne hj, or_iff_right hj]
  refine ⟨fun j => ?_, fun hnone => ?_, fun j hj => ?_⟩
  · refine (h.holds j).trans ?_
    rw [State.Inside, State.Inside, State.mem_begin]
    rcases eq_or_ne j i with rfl | hj
    · rw [State.begin_pc_self]
      exact iff_of_false (fun h => hi h.1) (fun h => absurd h.2.1 (Nat.not_lt_zero _))
    · rw [State.begin_pc_ne hj, or_iff_right hj]
  · rw [hpast]
    exact h.free hnone
  · have hmem : j ∈ s.ids := ((h.holds j).mp hj).1
    rw [hpast, State.begin_pc_ne (hne j hmem)]
    exact h.held j hj

/-- The thread takes the lock, which nobody held. -/
theorem Serial.next_lock (h : Serial p s₀ s) (hi : i ∈ s.ids) (hlock : s.pc i = p.lock)
    (hnone : s.holder = none) : Serial p s₀ (s.next p i) := by
  have hlt := p.lock_lt
  have hholder : (s.next p i).holder = some i := if_pos hlock
  have hpast : (s.next p i).past p = s.past p := State.past_next (by omega)
  refine ⟨fun j => ?_, fun hno => ?_, fun j hj => ?_⟩
  · rw [hholder, Option.some_inj]
    rcases eq_or_ne j i with rfl | hj
    · rw [State.inside_next_self hi]
      exact iff_of_true rfl (by omega)
    · rw [State.inside_next_ne hj, ← h.holds j, hnone]
      exact iff_of_false hj.symm (by simp)
  · rw [hholder] at hno
    cases hno
  · rw [hholder] at hj
    obtain rfl := Option.some.inj hj
    rw [State.next_pc_self, hpast, hlock, Program.upto_lock (Nat.le_refl _), ← h.free hnone]
    exact p.outside _ _ (by omega)

/-- The thread ends its section, so it held the lock. -/
theorem Serial.next_unlock (h : Serial p s₀ s) (hi : i ∈ s.ids) (hunlock : s.pc i = p.unlock) :
    Serial p s₀ (s.next p i) := by
  have hlt := p.lock_lt
  have hheld : s.holder = some i := (h.holds i).mpr ⟨hi, by omega, by omega⟩
  have hholder : (s.next p i).holder = none := by
    show (if _ then _ else _) = _
    rw [if_neg (by omega), if_pos hunlock]
  refine ⟨fun j => ?_, fun _ => ?_, fun j hj => ?_⟩
  · rw [hholder]
    refine iff_of_false (by simp) fun hin => ?_
    rcases eq_or_ne j i with rfl | hj
    · rw [State.inside_next_self hi] at hin
      omega
    · rw [State.inside_next_ne hj, ← h.holds j, hheld] at hin
      exact hj (Option.some.inj hin).symm
  · show p.act (s.pc i) s.shared = _
    rw [State.past_next_unlock hi hunlock, Function.iterate_succ_apply',
      p.outside _ _ (by omega), h.held i hheld, hunlock, Program.upto_section]
  · rw [hholder] at hj
    cases hj

/-- A step that neither locks nor unlocks leaves all threads inside or outside. -/
theorem State.inside_next (hlock : s.pc i ≠ p.lock) (hunlock : s.pc i ≠ p.unlock) (j : Nat) :
    (s.next p i).Inside p j ↔ s.Inside p j := by
  rcases eq_or_ne j i with rfl | hj
  · rw [State.Inside, State.Inside, State.next_pc_self]
    refine and_congr_right fun _ => ?_
    omega
  · exact State.inside_next_ne hj

/-- Any other step: only the thread that holds the lock acts on what is shared. -/
theorem Serial.next_other (h : Serial p s₀ s) (hi : i ∈ s.ids) (hlock : s.pc i ≠ p.lock)
    (hunlock : s.pc i ≠ p.unlock) : Serial p s₀ (s.next p i) := by
  have hholder : (s.next p i).holder = s.holder := by
    show (if _ then _ else _) = _
    rw [if_neg hlock, if_neg hunlock]
  have hpast : (s.next p i).past p = s.past p := State.past_next hunlock
  have hkept : s.holder ≠ some i → (s.next p i).shared = s.shared := by
    intro hno
    refine p.outside _ _ fun hin => hno ((h.holds i).mpr ⟨hi, hin.1, Nat.le_of_lt hin.2⟩)
  refine ⟨fun j => ?_, fun hno => ?_, fun j hj => ?_⟩
  · rw [hholder, State.inside_next hlock hunlock]
    exact h.holds j
  · rw [hholder] at hno
    rw [hpast, hkept (by rw [hno]; simp)]
    exact h.free hno
  · rw [hholder] at hj
    rcases eq_or_ne j i with rfl | hne
    · rw [State.next_pc_self, hpast, Program.upto_succ, ← h.held j hj]
      rfl
    · rw [State.next_pc_ne hne, hpast, hkept (by rw [hj]; simpa using hne)]
      exact h.held j hj

/-- A step of a thread keeps the sections one after the other. -/
theorem Serial.next (h : Serial p s₀ s) (hi : i ∈ s.ids)
    (hfree : s.pc i = p.lock → s.holder = none) : Serial p s₀ (s.next p i) := by
  by_cases hlock : s.pc i = p.lock
  · exact h.next_lock hi hlock (hfree hlock)
  by_cases hunlock : s.pc i = p.unlock
  · exact h.next_unlock hi hunlock
  · exact h.next_other hi hlock hunlock

end Invariant

/-! ## 3. Runs -/

section Runs

variable {S : Type} {p : Program S} {s₀ : S} {s : State S} {es : List Event} {i j : Nat}

theorem Run.serial (h : Run (Step p) (.init s₀) es s) : Serial p s₀ s := by
  refine Run.invariant (I := fun _ s => Serial p s₀ s) ?_ ?_ h
  · refine ⟨fun i => ?_, fun _ => rfl, fun i hi => nomatch hi⟩
    exact iff_of_false (by simp [State.init]) fun hin => absurd hin.1 (Finset.notMem_empty i)
  · intro es s e s' _ hI hs
    cases hs with
    | start hi => exact hI.begin hi
    | step hi _ hfree => exact hI.next hi hfree

/-- At most one thread is inside. -/
theorem Serial.exclusive (h : Serial p s₀ s) (hi : s.Inside p i) (hj : s.Inside p j) : i = j := by
  have hboth := (h.holds i).mpr hi
  rw [(h.holds j).mpr hj] at hboth
  exact (Option.some.inj hboth).symm

/-- Nobody is inside when all threads are past their section. -/
theorem Serial.shared_of_done (h : Serial p s₀ s) (hdone : ∀ i ∈ s.ids, p.unlock < s.pc i) :
    s.shared = p.run^[s.ids.card] s₀ := by
  have hnone : s.holder = none := by
    rw [Option.eq_none_iff_forall_ne_some]
    intro i hi
    have hin := (h.holds i).mp hi
    exact absurd (hdone i hin.1) (Nat.not_lt.mpr hin.2.2)
  have hpast : s.past p = s.ids := Finset.filter_true_of_mem hdone
  rw [h.free hnone, hpast]

/-- A thread that is not done, or the holder of the lock it waits for, can go on. -/
theorem Serial.exists_step (h : Serial p s₀ s) (hi : i ∈ s.ids) (hlt : s.pc i < p.length) :
    ∃ j, j ∈ s.ids ∧ s.pc j < p.length ∧ (s.pc j = p.lock → s.holder = none) := by
  cases hholder : s.holder with
  | none => exact ⟨i, hi, hlt, fun _ => rfl⟩
  | some j =>
    obtain ⟨hj, hlock, hunlock⟩ := (h.holds j).mp hholder
    have hend := p.unlock_lt
    exact ⟨j, hj, by omega, fun heq => by omega⟩

def Event.isStart : Event → Bool
  | .start _ => true
  | .step _ => false

def Event.isStep : Event → Bool
  | .start _ => false
  | .step _ => true

/-- The threads have started once each, and have made the steps that they are past. -/
theorem Run.counts (h : Run (Step p) (.init s₀) es s) :
    es.countP Event.isStart = s.ids.card ∧ es.countP Event.isStep = ∑ i ∈ s.ids, s.pc i ∧
      ∀ i ∈ s.ids, s.pc i ≤ p.length := by
  refine Run.invariant (I := fun es s => es.countP Event.isStart = s.ids.card ∧
    es.countP Event.isStep = ∑ i ∈ s.ids, s.pc i ∧ ∀ i ∈ s.ids, s.pc i ≤ p.length) ?_ ?_ h
  · exact ⟨rfl, rfl, fun i hi => absurd hi (Finset.notMem_empty i)⟩
  · rintro es s e s' - ⟨hstart, hsteps, hle⟩ hs
    rw [List.countP_append, List.countP_append, hstart, hsteps]
    cases hs with
    | @start i hi =>
      refine ⟨(Finset.card_insert_of_notMem hi).symm, ?_, fun j hj => ?_⟩
      · show _ = ∑ j ∈ insert i s.ids, (s.begin i).pc j
        rw [Finset.sum_insert hi, State.begin_pc_self, Nat.zero_add]
        refine Finset.sum_congr rfl fun j hj => (State.begin_pc_ne ?_).symm
        rintro rfl
        exact hi hj
      · rcases State.mem_begin.mp hj with rfl | hmem
        · rw [State.begin_pc_self]
          exact Nat.zero_le _
        · rw [State.begin_pc_ne (by rintro rfl; exact hi hmem)]
          exact hle j hmem
    | @step i hi hlt _ =>
      refine ⟨rfl, ?_, fun j hj => ?_⟩
      · show _ + 1 = ∑ j ∈ s.ids, Function.update s.pc i (s.pc i + 1) j
        rw [Finset.sum_update_of_mem hi, ← Finset.add_sum_erase s.ids s.pc hi,
          Finset.sdiff_singleton_eq_erase]
        omega
      · rcases eq_or_ne j i with rfl | hne
        · rw [State.next_pc_self]
          exact hlt
        · rw [State.next_pc_ne hne]
          exact hle j hj

end Runs

end Locked
