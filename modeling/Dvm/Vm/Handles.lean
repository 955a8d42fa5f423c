/-
# Thread handles

The guest threads of a process, as far as the thread system calls go: `VMThread`s are created by
`vm_run` and by SPAWN, a thread joins or detaches others by their handles, and JOIN frees the
`VMThread` it was given.  A step is what one thread does between two points where another can get
in between: JOIN takes two, since it may wait in `pthread_join`.

JOIN does not look at what `pthread_join` returns.  So it is safe only where `pthread_join` waits
or has nothing to wait for, and where no other JOIN of the same handle is under way (`JoinOk`);
then no interleaving frees a `VMThread` that still runs, or one twice (`handles_safe`).
-/
import Dvm.Base.Runs
import Dvm.Vm.Thread

namespace Dvm

open Runs

/-! ## 1. Threads and their records -/

/-- A `VMThread *`.  A record that is allocated where a freed one was counts as a new one. -/
abbrev Handle := Nat

/-- How far the host thread of a guest thread is: in `vm_run_thread`, behind it, ended. -/
inductive Phase where
  | looping | halted | exited
  deriving DecidableEq, Repr

/-- A JOIN that is under way, and whether its `pthread_join` waits for the end of the thread. -/
structure JoinCall where
  target : Handle
  waits : Bool
  deriving DecidableEq, Repr

/-- A `VMThread` and its host thread. -/
structure ThreadRec where
  /-- Made by `vm_thread_create`.  The others are `vm_run`'s, on its stack and with
  `host_thread` 0. -/
  spawned : Bool
  state : VMThreadState
  /-- `vm_stack` is not NULL. -/
  stack : Bool
  phase : Phase
  /-- `pthread_detach` was called for it. -/
  detached : Bool
  call : Option JoinCall
  /-- How often `free` was called for it. -/
  frees : Nat
  deriving DecidableEq, Repr

structure Threads where
  thread : Handle → ThreadRec
  /-- How many were made. -/
  count : Nat
  /-- `vm_threads`, the first first. -/
  registry : List Handle
  /-- What SPAWN and SELF returned. -/
  known : List Handle

def Threads.init : Threads where
  thread := fun _ => ⟨false, .finished, false, .exited, false, none, 0⟩
  count := 0
  registry := []
  known := []

def Threads.set (s : Threads) (h : Handle) (r : ThreadRec) : Threads :=
  { s with thread := fun k => if k = h then r else s.thread k }

@[simp] theorem Threads.set_self (s : Threads) (h : Handle) (r : ThreadRec) :
    (s.set h r).thread h = r := if_pos rfl

theorem Threads.set_ne (s : Threads) {h k : Handle} (r : ThreadRec) (hk : k ≠ h) :
    (s.set h r).thread k = s.thread k := if_neg hk

theorem Threads.set_same (s : Threads) (h : Handle) : s.set h (s.thread h) = s := by
  have hthread : (s.set h (s.thread h)).thread = s.thread := by
    funext k
    by_cases hk : k = h
    · subst hk
      exact s.set_self k _
    · exact s.set_ne _ hk
  exact congrArg (fun t => { s with thread := t }) hthread

/-! ## 2. The functions of the thread API -/

def Threads.registryAdd (s : Threads) (h : Handle) : Threads :=
  { s with registry := h :: s.registry }

def Threads.registryRemove (s : Threads) (h : Handle) : Threads :=
  { s with registry := s.registry.erase h }

/-- A new record with its loop running. -/
def Threads.add (s : Threads) (spawned : Bool) : Threads :=
  { s.set s.count ⟨spawned, .running, true, .looping, false, none, 0⟩ with count := s.count + 1 }

/-- `vm_thread_create`; the handle is `s.count`. -/
def Threads.vmThreadCreate (s : Threads) : Threads := (s.add true).registryAdd s.count

/-- `vm_run` does not register its thread. -/
def Threads.vmRun (s : Threads) : Threads := s.add false

/-- Whether `pthread_join` of `h` waits when `c` calls it.  It returns an error without waiting
for the calling thread and for a detached one, and there is no thread 0. -/
def Threads.joinWaits (s : Threads) (c h : Handle) : Bool :=
  h ≠ c ∧ (s.thread h).spawned ∧ ¬ (s.thread h).detached

def Threads.vmThreadDetach (s : Threads) (h : Handle) : Threads :=
  (s.set h { s.thread h with detached := true }).registryRemove h

def Threads.vmThreadDestroy (s : Threads) (h : Handle) : Threads :=
  (s.registryRemove h).set h
    { s.thread h with stack := false, frees := (s.thread h).frees + 1 }

/-- `op_halt`. -/
def Threads.halt (s : Threads) (c : Handle) : Threads :=
  s.set c { s.thread c with state := .finished, stack := false, phase := .halted }

/-- What `thread_entry` does behind the loop. -/
def Threads.exit (s : Threads) (c : Handle) : Threads :=
  s.set c { s.thread c with state := .finished, phase := .exited }

/-! ## 3. Steps -/

inductive ThreadEv where
  | vmRun
  | spawn (c : Handle)
  | self (c : Handle)
  /-- JOIN up to `pthread_join`. -/
  | join (c h : Handle)
  /-- JOIN from the return of `pthread_join` on. -/
  | joined (c : Handle)
  | detach (c h : Handle)
  | halt (c : Handle)
  | exit (c : Handle)
  deriving DecidableEq, Repr

/-- `c` is at an instruction of its bytecode. -/
def Threads.CanCall (s : Threads) (c : Handle) : Prop :=
  c < s.count ∧ (s.thread c).phase = .looping ∧ (s.thread c).call = none

/-- The guest has the handle, and its record was not freed. -/
def Threads.CanName (s : Threads) (h : Handle) : Prop := h ∈ s.known ∧ (s.thread h).frees = 0

instance (s : Threads) (c : Handle) : Decidable (s.CanCall c) :=
  inferInstanceAs (Decidable (_ ∧ _ ∧ _))

instance (s : Threads) (h : Handle) : Decidable (s.CanName h) :=
  inferInstanceAs (Decidable (_ ∧ _))

/-- One step; `none` where it cannot be taken. -/
def Threads.step (s : Threads) : ThreadEv → Option Threads
  | .vmRun => some s.vmRun
  | .spawn c =>
    if s.CanCall c then some { s.vmThreadCreate with known := s.count :: s.known } else none
  | .self c => if s.CanCall c then some { s with known := c :: s.known } else none
  | .join c h =>
    if s.CanCall c ∧ s.CanName h then
      some (s.set c { s.thread c with call := some ⟨h, s.joinWaits c h⟩ })
    else none
  | .joined c =>
    match (s.thread c).call with
    | none => none
    | some j =>
      if j.waits ∧ (s.thread j.target).phase ≠ .exited then none
      else
        let s := s.vmThreadDestroy j.target
        some (s.set c { s.thread c with call := none })
  | .detach c h => if s.CanCall c ∧ s.CanName h then some (s.vmThreadDetach h) else none
  | .halt c => if s.CanCall c then some (s.halt c) else none
  | .exit c => if (s.thread c).phase = .halted then some (s.exit c) else none

/-- Steps, labelled by the state before and the event. -/
def ThreadStep (s : Threads) (l : Threads × ThreadEv) (s' : Threads) : Prop :=
  l.1 = s ∧ s.step l.2 = some s'

/-- Runs of any number of threads in any order. -/
def ThreadRun : List (Threads × ThreadEv) → Threads → Prop := Run ThreadStep Threads.init

/-- The record that an event frees. -/
def Threads.freed (s : Threads) : ThreadEv → Option Handle
  | .joined c => (s.thread c).call.map JoinCall.target
  | _ => none

/-- Whenever a run frees a record, its loop has ended and it was not freed before. -/
def HandlesSafe (es : List (Threads × ThreadEv)) : Prop :=
  ∀ l ∈ es, ∀ h, l.1.freed l.2 = some h →
    (l.1.thread h).phase ≠ .looping ∧ (l.1.thread h).frees = 0

/-- The loop of `h` has ended or `pthread_join` waits for it, and no JOIN of `h` is under way. -/
def JoinOk (s : Threads) (c h : Handle) : Prop :=
  ((s.thread h).phase ≠ .looping ∨ s.joinWaits c h) ∧
    ∀ d j, (s.thread d).call = some j → j.target ≠ h

/-- Every JOIN of a run is called where it may be. -/
def JoinsOk (es : List (Threads × ThreadEv)) : Prop :=
  ∀ l ∈ es, ∀ c h, l.2 = .join c h → JoinOk l.1 c h

/-! ## 4. What a step preserves -/

/-- The JOINs under way: each is the only one of its handle, whose record is not freed and whose
loop has ended or is waited for. -/
structure JoinInv (s : Threads) : Prop where
  known : ∀ h ∈ s.known, h < s.count
  created : ∀ c j, (s.thread c).call = some j → j.target < s.count
  live : ∀ c j, (s.thread c).call = some j → (s.thread j.target).frees = 0
  settled : ∀ c j, (s.thread c).call = some j → (s.thread j.target).phase ≠ .looping ∨ j.waits
  single : ∀ c d j k, (s.thread c).call = some j → (s.thread d).call = some k →
    j.target = k.target → c = d

theorem joinInv_init : JoinInv Threads.init := by
  refine ⟨?_, ?_, ?_, ?_, ?_⟩
  · intro h hh
    cases hh
  · intro c j hj
    cases hj
  · intro c j hj
    cases hj
  · intro c j hj
    cases hj
  · intro c d j k hj
    cases hj

/-- A step that begins no JOIN, neither frees a record that another one waits for nor starts its
loop again. -/
theorem JoinInv.frame {s s' : Threads} (hcount : s.count ≤ s'.count)
    (hknown : ∀ h ∈ s'.known, h < s'.count)
    (hcall : ∀ c j, (s'.thread c).call = some j → (s.thread c).call = some j ∧
      (s'.thread j.target).frees = (s.thread j.target).frees ∧
      ((s'.thread j.target).phase = .looping → (s.thread j.target).phase = .looping))
    (h : JoinInv s) : JoinInv s' := by
  refine ⟨hknown, ?_, ?_, ?_, ?_⟩
  · intro c j hj
    exact Nat.lt_of_lt_of_le (h.created c j (hcall c j hj).1) hcount
  · intro c j hj
    rw [(hcall c j hj).2.1]
    exact h.live c j (hcall c j hj).1
  · intro c j hj
    exact (h.settled c j (hcall c j hj).1).imp (fun hne hloop => hne ((hcall c j hj).2.2 hloop)) id
  · intro c d j k hj hk
    exact h.single c d j k (hcall c j hj).1 (hcall d k hk).1

/-- A record changed in other fields, or further on in its thread's life. -/
theorem JoinInv.set {s : Threads} {h : Handle} {r : ThreadRec}
    (hcall : r.call = (s.thread h).call) (hfrees : r.frees = (s.thread h).frees)
    (hphase : r.phase = .looping → (s.thread h).phase = .looping) (hinv : JoinInv s) :
    JoinInv (s.set h r) := by
  have hsame : ∀ k, ((s.set h r).thread k).call = (s.thread k).call ∧
      ((s.set h r).thread k).frees = (s.thread k).frees ∧
      (((s.set h r).thread k).phase = .looping → (s.thread k).phase = .looping) := by
    intro k
    by_cases hk : k = h
    · subst hk
      rw [Threads.set_self]
      exact ⟨hcall, hfrees, hphase⟩
    · rw [Threads.set_ne s r hk]
      exact ⟨rfl, rfl, id⟩
  exact JoinInv.frame (s := s) (Nat.le_refl _) hinv.known (fun c j hj =>
    ⟨(hsame c).1.symm.trans hj, (hsame j.target).2⟩) hinv

/-- A new record, whatever is known afterwards of those there are. -/
theorem JoinInv.add {s : Threads} (spawned : Bool) (hinv : JoinInv s) :
    JoinInv (s.add spawned) := by
  refine hinv.frame (Nat.le_succ _) (fun h hh => Nat.lt_succ_of_lt (hinv.known h hh)) ?_
  intro c j hj
  have hold : (s.thread c).call = some j := by
    by_cases hc : c = s.count
    · subst hc
      rw [Threads.add, Threads.set_self] at hj
      cases hj
    · rwa [Threads.add, Threads.set_ne s _ hc] at hj
  have hne : j.target ≠ s.count := Nat.ne_of_lt (hinv.created c j hold)
  rw [Threads.add, Threads.set_ne s _ hne]
  exact ⟨hold, rfl, id⟩

/-- A JOIN that may be called. -/
theorem JoinInv.join {s : Threads} {c h : Handle} (hh : s.CanName h) (hok : JoinOk s c h)
    (hinv : JoinInv s) :
    JoinInv (s.set c { s.thread c with call := some ⟨h, s.joinWaits c h⟩ }) := by
  generalize hs' : s.set c { s.thread c with call := some ⟨h, s.joinWaits c h⟩ } = s'
  have hrest : ∀ k, (s'.thread k).frees = (s.thread k).frees ∧
      (s'.thread k).phase = (s.thread k).phase := by
    intro k
    by_cases hk : k = c
    · subst hk
      rw [← hs', Threads.set_self]
      exact ⟨rfl, rfl⟩
    · rw [← hs', Threads.set_ne s _ hk]
      exact ⟨rfl, rfl⟩
  have hcall : ∀ d j, (s'.thread d).call = some j →
      d = c ∧ j = ⟨h, s.joinWaits c h⟩ ∨ d ≠ c ∧ (s.thread d).call = some j := by
    intro d j hj
    by_cases hd : d = c
    · subst hd
      rw [← hs', Threads.set_self, Option.some.injEq] at hj
      exact .inl ⟨rfl, hj.symm⟩
    · rw [← hs', Threads.set_ne s _ hd] at hj
      exact .inr ⟨hd, hj⟩
  have hknown := hinv.known
  subst hs'
  refine ⟨hknown, fun d j hj => ?_, fun d j hj => ?_, fun d j hj => ?_, ?_⟩
  · rcases hcall d j hj with ⟨-, rfl⟩ | ⟨-, hold⟩
    · exact hknown h hh.1
    · exact hinv.created d j hold
  · rw [(hrest _).1]
    rcases hcall d j hj with ⟨-, rfl⟩ | ⟨-, hold⟩
    · exact hh.2
    · exact hinv.live d j hold
  · rw [(hrest _).2]
    rcases hcall d j hj with ⟨-, rfl⟩ | ⟨-, hold⟩
    · exact hok.1
    · exact hinv.settled d j hold
  · intro d e j k hj hk htarget
    -- the new JOIN is the only one of `h`
    rcases hcall d j hj with ⟨rfl, rfl⟩ | ⟨hd, hold⟩ <;>
      rcases hcall e k hk with ⟨rfl, rfl⟩ | ⟨he, hold'⟩
    · rfl
    · exact absurd htarget.symm (hok.2 e k hold')
    · exact absurd htarget (hok.2 d j hold)
    · exact hinv.single d e j k hold hold' htarget

theorem Threads.destroy_ne (s : Threads) {h k : Handle} (hk : k ≠ h) :
    (s.vmThreadDestroy h).thread k = s.thread k := (s.registryRemove h).set_ne _ hk

/-- Freeing a record changes neither JOINs nor how far threads are. -/
theorem Threads.destroy_rest (s : Threads) (h k : Handle) :
    ((s.vmThreadDestroy h).thread k).call = (s.thread k).call ∧
      ((s.vmThreadDestroy h).thread k).phase = (s.thread k).phase := by
  by_cases hk : k = h
  · subst hk
    rw [Threads.vmThreadDestroy, Threads.set_self]
    exact ⟨rfl, rfl⟩
  · rw [s.destroy_ne hk]
    exact ⟨rfl, rfl⟩

/-- The end of a JOIN. -/
theorem JoinInv.joined {s : Threads} {c : Handle} {j : JoinCall} (hj : (s.thread c).call = some j)
    (hinv : JoinInv s) :
    JoinInv ((s.vmThreadDestroy j.target).set c
      { (s.vmThreadDestroy j.target).thread c with call := none }) := by
  refine JoinInv.frame (s := s) (Nat.le_refl _) hinv.known (fun d k hk => ?_) hinv
  have hd : d ≠ c := by
    rintro rfl
    rw [Threads.set_self] at hk
    cases hk
  have hold : (s.thread d).call = some k := by
    rwa [Threads.set_ne _ _ hd, (s.destroy_rest j.target d).1] at hk
  -- another JOIN is of another handle
  have hne : k.target ≠ j.target := fun heq => hd (hinv.single d c k j hold hj heq)
  refine ⟨hold, ?_⟩
  by_cases hkc : k.target = c
  · rw [hkc] at hne ⊢
    rw [Threads.set_self, s.destroy_ne hne]
    exact ⟨rfl, id⟩
  · rw [Threads.set_ne _ _ hkc, s.destroy_ne hne]
    exact ⟨rfl, id⟩

theorem JoinInv.step {s s' : Threads} {e : ThreadEv} (hok : ∀ c h, e = .join c h → JoinOk s c h)
    (hinv : JoinInv s) (hs : s.step e = some s') : JoinInv s' := by
  cases e with
  | vmRun =>
    cases hs
    exact hinv.add false
  | spawn c =>
    obtain ⟨-, rfl⟩ := of_guard hs
    have hadd := hinv.add true
    refine ⟨fun h hh => ?_, hadd.created, hadd.live, hadd.settled, hadd.single⟩
    rcases List.mem_cons.mp hh with rfl | hh
    · exact Nat.lt_succ_self _
    · exact hadd.known h hh
  | self c =>
    obtain ⟨hc, rfl⟩ := of_guard hs
    refine ⟨fun h hh => ?_, hinv.created, hinv.live, hinv.settled, hinv.single⟩
    rcases List.mem_cons.mp hh with rfl | hh
    · exact hc.1
    · exact hinv.known h hh
  | join c h =>
    obtain ⟨⟨-, hh⟩, rfl⟩ := of_guard hs
    exact hinv.join hh (hok c h rfl)
  | joined c =>
    simp only [Threads.step] at hs
    split at hs
    · cases hs
    · next j hj =>
      split at hs
      · cases hs
      · cases hs
        exact hinv.joined hj
  | detach c h =>
    obtain ⟨-, rfl⟩ := of_guard hs
    have hset := hinv.set (h := h) (r := { s.thread h with detached := true }) rfl rfl id
    exact ⟨hset.known, hset.created, hset.live, hset.settled, hset.single⟩
  | halt c =>
    obtain ⟨-, rfl⟩ := of_guard hs
    exact hinv.set rfl rfl fun hloop => by cases hloop
  | exit c =>
    obtain ⟨-, rfl⟩ := of_guard hs
    exact hinv.set rfl rfl fun hloop => by cases hloop

/-- What a step frees then has ended and was not freed before. -/
theorem JoinInv.freed {s s' : Threads} {e : ThreadEv} (hinv : JoinInv s)
    (hs : s.step e = some s') {h : Handle} (hfree : s.freed e = some h) :
    (s.thread h).phase ≠ .looping ∧ (s.thread h).frees = 0 := by
  cases e with
  | joined c =>
    obtain ⟨j, hj, rfl⟩ := Option.map_eq_some_iff.mp hfree
    refine ⟨?_, hinv.live c j hj⟩
    rcases hinv.settled c j hj with hover | hwaits
    · exact hover
    · simp only [Threads.step, hj] at hs
      split at hs
      · cases hs
      · next hback =>
        have hexited : (s.thread j.target).phase = .exited := by
          refine Classical.byContradiction fun hne => hback ⟨hwaits, hne⟩
        rw [hexited]
        exact Phase.noConfusion
  | _ => cases hfree

/-! ## 5. Runs -/

theorem run_joinInv {es : List (Threads × ThreadEv)} {s : Threads} (hrun : ThreadRun es s)
    (hok : JoinsOk es) : JoinInv s ∧ HandlesSafe es := by
  refine Run.invariant (I := fun es s => JoinsOk es → JoinInv s ∧ HandlesSafe es) ?_ ?_ hrun hok
  · exact fun _ => ⟨joinInv_init, fun l hl => nomatch hl⟩
  · rintro es s ⟨s₀, e⟩ s' - ih ⟨hs₀, hstep⟩ hok
    obtain rfl : s₀ = s := hs₀
    obtain ⟨hbefore, hlast⟩ := List.forall_mem_append.mp hok
    obtain ⟨hinv, hsafe⟩ := ih hbefore
    rw [List.forall_mem_singleton] at hlast
    refine ⟨hinv.step hlast hstep, List.forall_mem_append.mpr ⟨hsafe, ?_⟩⟩
    rw [List.forall_mem_singleton]
    exact fun h hfree => hinv.freed hstep hfree

/-- Where every JOIN is called when it may be, no interleaving frees a record whose loop still
runs, or one twice. -/
theorem handles_safe {es : List (Threads × ThreadEv)} {s : Threads} (hrun : ThreadRun es s)
    (hok : JoinsOk es) : HandlesSafe es :=
  (run_joinInv hrun hok).2

/-- A JOIN of a running thread that `pthread_join` does not wait for can free it at once. -/
theorem join_frees_running {s s₁ : Threads} {c h : Handle} (hloop : (s.thread h).phase = .looping)
    (hwaits : ¬ s.joinWaits c h) (hjoin : s.step (.join c h) = some s₁) :
    (s₁.step (.joined c)).isSome ∧ s₁.freed (.joined c) = some h ∧
      (s₁.thread h).phase = .looping := by
  obtain ⟨-, rfl⟩ := of_guard hjoin
  refine ⟨?_, ?_, ?_⟩
  · simp only [Threads.step, Threads.set_self]
    rw [if_neg fun hw => hwaits hw.1]
    rfl
  · simp only [Threads.freed, Threads.set_self, Option.map_some]
  · rw [← hloop]
    by_cases hc : h = c
    · subst hc
      rw [Threads.set_self]
    · rw [Threads.set_ne _ _ hc]

/-- The end of a JOIN frees its target, and nothing else but that JOIN changes. -/
theorem step_joined {s : Threads} {d : Handle} {j : JoinCall} (hd : (s.thread d).call = some j)
    (hend : (s.thread j.target).phase = .exited) :
    ∃ s', s.step (.joined d) = some s' ∧ s.freed (.joined d) = some j.target ∧
      (∀ k, (s'.thread k).phase = (s.thread k).phase) ∧
      (∀ k, k ≠ d → (s'.thread k).call = (s.thread k).call) ∧
      (s'.thread j.target).frees = (s.thread j.target).frees + 1 := by
  refine ⟨(s.vmThreadDestroy j.target).set d
    { (s.vmThreadDestroy j.target).thread d with call := none }, ?_, ?_, ?_, ?_, ?_⟩
  · simp only [Threads.step, hd]
    rw [if_neg fun hw => hw.2 hend]
  · rw [Threads.freed, hd, Option.map_some]
  · intro k
    by_cases hk : k = d
    · subst hk
      rw [Threads.set_self]
      exact (s.destroy_rest j.target k).2
    · rw [Threads.set_ne _ _ hk]
      exact (s.destroy_rest j.target k).2
  · intro k hk
    rw [Threads.set_ne _ _ hk]
    exact (s.destroy_rest j.target k).1
  · have hself : ((s.vmThreadDestroy j.target).thread j.target).frees
        = (s.thread j.target).frees + 1 := by
      rw [Threads.vmThreadDestroy, Threads.set_self]
    by_cases hk : j.target = d
    · rw [hk] at hself ⊢
      rw [Threads.set_self]
      exact hself
    · rw [Threads.set_ne _ _ hk]
      exact hself

/-- Two JOINs of a thread that has ended free it twice. -/
theorem joins_free_twice {s : Threads} {c d : Handle} {j k : JoinCall} (hne : c ≠ d)
    (hc : (s.thread c).call = some j) (hd : (s.thread d).call = some k)
    (hsame : j.target = k.target) (hend : (s.thread k.target).phase = .exited) :
    ∃ s₁ s₂, s.step (.joined d) = some s₁ ∧ s.freed (.joined d) = some k.target ∧
      s₁.step (.joined c) = some s₂ ∧ s₁.freed (.joined c) = some k.target ∧
      (s₁.thread k.target).frees ≠ 0 := by
  obtain ⟨s₁, hstep₁, hfreed₁, hphase, hcall, hfrees⟩ := step_joined hd hend
  obtain ⟨s₂, hstep₂, hfreed₂, -⟩ := step_joined ((hcall c hne).trans hc)
    ((hphase j.target).trans (hsame ▸ hend))
  refine ⟨s₁, s₂, hstep₁, hfreed₁, hstep₂, hfreed₂.trans (congrArg some hsame), ?_⟩
  rw [hfrees]
  exact Nat.succ_ne_zero _

theorem ThreadRun.then {es : List (Threads × ThreadEv)} {s s' : Threads} {e : ThreadEv}
    (hrun : ThreadRun es s) (hs : s.step e = some s') : ThreadRun (es ++ [(s, e)]) s' :=
  Run.next hrun ⟨rfl, hs⟩

/-- A thread that is spawned, ends and is joined. -/
theorem handles_safe_spawned : ∃ es s, ThreadRun es s ∧ (∃ s₀, (s₀, .joined 0) ∈ es) ∧
    HandlesSafe es := by
  have h₀ : ThreadRun [] Threads.init := Run.start
  have h₁ := h₀.then (e := .vmRun) rfl
  have h₂ := h₁.then (e := .spawn 0) rfl
  have h₃ := h₂.then (e := .join 0 1) rfl
  have h₄ := h₃.then (e := .halt 1) rfl
  have h₅ := h₄.then (e := .exit 1) rfl
  have h₆ := h₅.then (e := .joined 0) rfl
  refine ⟨_, _, h₆, ⟨_, List.mem_append_right _ (List.mem_singleton_self _)⟩,
    handles_safe h₆ ?_⟩
  intro l hl c h he
  simp only [List.nil_append, List.cons_append, List.mem_cons, List.not_mem_nil, or_false] at hl
  rcases hl with rfl | rfl | rfl | rfl | rfl | rfl
  case inr.inr.inl =>
    cases he
    refine ⟨.inr rfl, fun d j hj => ?_⟩
    simp only [Threads.vmThreadCreate, Threads.registryAdd, Threads.vmRun, Threads.add,
      Threads.set, Threads.init] at hj
    by_cases h1 : d = 0 + 1 <;> by_cases h0 : d = 0 <;> simp [h1, h0] at hj
  all_goals cases he

/-- A spawned thread that joins itself. -/
theorem self_join_frees_running : ¬ ∀ (es : List (Threads × ThreadEv)) (s : Threads),
    ThreadRun es s → HandlesSafe es := by
  intro hall
  have h₀ : ThreadRun [] Threads.init := Run.start
  have h₁ := h₀.then (e := .vmRun) rfl
  have h₂ := h₁.then (e := .spawn 0) rfl
  have h₃ := h₂.then (e := .self 1) rfl
  have h₄ := h₃.then (e := .join 1 1) rfl
  have h₅ := h₄.then (e := .joined 1) rfl
  exact (hall _ _ h₅ _ (List.mem_append_right _ (List.mem_singleton_self _)) 1 rfl).1 rfl

end Dvm
