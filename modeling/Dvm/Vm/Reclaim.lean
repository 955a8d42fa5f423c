/-
# What becomes of a thread's resources

The functions of the thread API on the records of `Dvm.Vm.Handles`, called by any host thread,
whether it runs guest code or not, in any order.  A thread that was created has a record, a
mapped stack and a place in the registry.  `op_halt` unmaps the stack, `vm_thread_destroy` frees
the record and takes it off the registry, and unmaps the stack where HALT was not reached;
`vm_thread_detach` takes the record off the registry, and no one frees it: `thread_entry` ends
without looking whether the thread was detached.

`LifeInv` says of every thread what has become of its resources in terms of the calls made for
it, and `reclaimed_iff` what that means at the end: everything is given back exactly if no
thread was detached.  The system calls of `Threads.step` are such calls (`life_of_step`).
-/
import Dvm.Vm.Handles

namespace Dvm

open Runs

/-! ## 1. Steps -/

inductive LifeEv where
  /-- `vm_thread_create`. -/
  | create
  /-- `vm_run`. -/
  | run
  /-- `vm_thread_join` returns. -/
  | join (h : Handle)
  | destroy (h : Handle)
  | detach (h : Handle)
  /-- The thread executes HALT. -/
  | halt (h : Handle)
  /-- The thread leaves `thread_entry`. -/
  | exit (h : Handle)
  deriving DecidableEq, Repr

/-- One step; `none` where it cannot be taken. -/
def Threads.life (s : Threads) : LifeEv → Option Threads
  | .create => some s.vmThreadCreate
  | .run => some s.vmRun
  | .join h => if h < s.count ∧ (s.thread h).phase = .exited then some s else none
  | .destroy h => if h < s.count then some (s.vmThreadDestroy h) else none
  | .detach h => if h < s.count then some (s.vmThreadDetach h) else none
  | .halt h => if (s.thread h).phase = .looping then some (s.halt h) else none
  | .exit h => if (s.thread h).phase = .halted then some (s.exit h) else none

/-- Steps, labelled by the state before and the event. -/
def LifeStep (s : Threads) (l : Threads × LifeEv) (s' : Threads) : Prop :=
  l.1 = s ∧ s.life l.2 = some s'

/-- Runs of any number of threads in any order. -/
def LifeRun : List (Threads × LifeEv) → Threads → Prop := Run LifeStep Threads.init

/-! ## 2. What is done for a thread -/

/-- The calls that a thread's creator makes for it. -/
inductive ClientOp where
  | join | destroy | detach
  deriving DecidableEq, Repr

/-- The call that an event makes for `h`. -/
def LifeEv.client (h : Handle) : LifeEv → Option ClientOp
  | .join k => if k = h then some .join else none
  | .destroy k => if k = h then some .destroy else none
  | .detach k => if k = h then some .detach else none
  | _ => none

/-- The calls made for `h`, in order. -/
def clientOps (es : List (Threads × LifeEv)) (h : Handle) : List ClientOp :=
  es.filterMap fun l => l.2.client h

/-- How often an event unmaps the stack of `h`. -/
def Threads.unmaps (s : Threads) (h : Handle) : LifeEv → Nat
  | .halt k => if k = h then 1 else 0
  | .destroy k => if k = h ∧ (s.thread k).stack then 1 else 0
  | _ => 0

def stackUnmaps (es : List (Threads × LifeEv)) (h : Handle) : Nat :=
  (es.map fun l => l.1.unmaps h l.2).sum

/-- A thread is joined and then destroyed, or it is detached, and nothing else. -/
def Cared (ops : List ClientOp) : Prop := ops = [.join, .destroy] ∨ ops = [.detach]

/-- Every thread made by `vm_thread_create` has ended and was cared for. -/
structure Settled (es : List (Threads × LifeEv)) (s : Threads) : Prop where
  ended : ∀ h < s.count, (s.thread h).spawned → (s.thread h).phase = .exited
  cared : ∀ h < s.count, (s.thread h).spawned → Cared (clientOps es h)

/-- Every such thread's record was freed once and its stack unmapped once, and the registry is
empty. -/
structure Reclaimed (es : List (Threads × LifeEv)) (s : Threads) : Prop where
  freed : ∀ h < s.count, (s.thread h).spawned → (s.thread h).frees = 1
  unmapped : ∀ h < s.count, (s.thread h).spawned → stackUnmaps es h = 1
  registry : s.registry = []

theorem clientOps_snoc (es : List (Threads × LifeEv)) (s : Threads) (e : LifeEv) (h : Handle) :
    clientOps (es ++ [(s, e)]) h = clientOps es h ++ (e.client h).toList := by
  rw [clientOps, List.filterMap_append]
  cases hc : e.client h <;> simp [clientOps, hc]

theorem stackUnmaps_snoc (es : List (Threads × LifeEv)) (s : Threads) (e : LifeEv) (h : Handle) :
    stackUnmaps (es ++ [(s, e)]) h = stackUnmaps es h + s.unmaps h e := by
  simp [stackUnmaps]

/-! ## 3. One thread -/

/-- The resources of a thread for which the calls `ops` were made, whose stack was unmapped
`unmaps` times, and which is on the registry if `listed`. -/
structure Kept (ops : List ClientOp) (unmaps : Nat) (listed : Prop) (r : ThreadRec) : Prop where
  frees : r.frees = ops.count .destroy
  unmaps : unmaps = if r.phase = .looping then 0 else 1
  stack : r.stack = true ↔ r.phase = .looping
  listed : listed ↔ .destroy ∉ ops ∧ .detach ∉ ops
  joined : .join ∈ ops → r.phase = .exited

/-- The calls made so far are the first of those that care for a thread. -/
def Orderly (ops : List ClientOp) : Prop := ops <+: [.join, .destroy] ∨ ops <+: [.detach]

theorem Cared.orderly {ops : List ClientOp} (h : Cared ops) : Orderly ops := by
  rcases h with rfl | rfl
  · exact .inl (List.prefix_refl _)
  · exact .inr (List.prefix_refl _)

theorem Orderly.init {ops : List ClientOp} {more : List ClientOp} (h : Orderly (ops ++ more)) :
    Orderly ops :=
  h.imp (List.prefix_append ops more).trans (List.prefix_append ops more).trans

/-- What comes in front of a call in an orderly list. -/
theorem orderly_snoc {ops : List ClientOp} {op : ClientOp} (h : Orderly (ops ++ [op])) :
    (op = .join ∧ ops = []) ∨ (op = .destroy ∧ ops = [.join]) ∨ (op = .detach ∧ ops = []) := by
  rcases h with ⟨rest, h⟩ | ⟨rest, h⟩
  · match ops, h with
    | [], h =>
      cases h
      exact .inl ⟨rfl, rfl⟩
    | [a], h =>
      cases h
      exact .inr (.inl ⟨rfl, rfl⟩)
    | a :: b :: ops, h => simp at h
  · match ops, h with
    | [], h =>
      cases h
      exact .inr (.inr ⟨rfl, rfl⟩)
    | a :: ops, h => simp at h

section Kept

variable {ops : List ClientOp} {n : Nat} {listed listed' : Prop} {r : ThreadRec}

theorem Kept.join (h : Kept ops n listed r) (hend : r.phase = .exited) :
    Kept (ops ++ [.join]) n listed r := by
  refine ⟨?_, h.unmaps, h.stack, ?_, fun _ => hend⟩
  · rw [h.frees]
    simp
  · rw [h.listed]
    simp

/-- A thread that was joined has ended, so that its stack is gone. -/
theorem Kept.destroy (h : Kept ops n listed r) (hops : Orderly (ops ++ [.destroy]))
    (hlisted : ¬ listed') :
    r.stack = false ∧
      Kept (ops ++ [.destroy]) n listed' { r with stack := false, frees := r.frees + 1 } := by
  obtain rfl : ops = [.join] := by
    rcases orderly_snoc hops with ⟨hop, -⟩ | ⟨-, rfl⟩ | ⟨hop, -⟩
    · cases hop
    · rfl
    · cases hop
  have hend := h.joined (.head _)
  have hstack : r.stack = false := by
    rw [← Bool.not_eq_true, h.stack, hend]
    exact Phase.noConfusion
  refine ⟨hstack, ?_, h.unmaps, ?_, ?_, fun _ => hend⟩
  · simp [h.frees]
  · rw [← h.stack, hstack]
  · refine iff_of_false hlisted fun hno => hno.1 ?_
    exact List.mem_append_right _ (.head _)

theorem Kept.detach (h : Kept ops n listed r) (hops : Orderly (ops ++ [.detach]))
    (hlisted : ¬ listed') : Kept (ops ++ [.detach]) n listed' { r with detached := true } := by
  obtain rfl : ops = [] := by
    rcases orderly_snoc hops with ⟨hop, -⟩ | ⟨hop, -⟩ | ⟨-, rfl⟩
    · cases hop
    · cases hop
    · rfl
  refine ⟨h.frees, h.unmaps, h.stack, ?_, fun hj => by cases hj with | tail _ hj => cases hj⟩
  exact iff_of_false hlisted fun hno => hno.2 (.head _)

theorem Kept.halt (h : Kept ops n listed r) (hloop : r.phase = .looping) :
    Kept ops (n + 1) listed { r with state := .finished, stack := false, phase := .halted } := by
  refine ⟨h.frees, ?_, ?_, h.listed, fun hj => ?_⟩
  · simp [h.unmaps, hloop]
  · exact iff_of_false Bool.false_ne_true Phase.noConfusion
  · cases hloop.symm.trans (h.joined hj)

theorem Kept.exit (h : Kept ops n listed r) (hhalt : r.phase = .halted) :
    Kept ops n listed { r with state := .finished, phase := .exited } := by
  have hne : r.phase ≠ .looping := by
    rw [hhalt]
    exact Phase.noConfusion
  refine ⟨h.frees, ?_, ?_, h.listed, fun _ => rfl⟩
  · simp [h.unmaps, hne]
  · exact iff_of_false (fun hs => hne (h.stack.mp hs)) Phase.noConfusion

/-- At the end. -/
theorem Kept.settled (h : Kept ops n listed r) (hend : r.phase = .exited)
    (hops : Cared ops) : n = 1 ∧ ¬ listed ∧ (r.frees = 1 ↔ ops ≠ [.detach]) := by
  refine ⟨?_, ?_, ?_⟩
  · simp [h.unmaps, hend]
  · rw [h.listed]
    rcases hops with rfl | rfl <;> decide
  · rw [h.frees]
    rcases hops with rfl | rfl <;> decide

end Kept

/-! ## 4. All threads -/

structure LifeInv (es : List (Threads × LifeEv)) (s : Threads) : Prop where
  nodup : s.registry.Nodup
  listed : ∀ h ∈ s.registry, h < s.count ∧ (s.thread h).spawned
  unborn : ∀ h, s.count ≤ h →
    clientOps es h = [] ∧ stackUnmaps es h = 0 ∧ (s.thread h).phase = .exited
  kept : ∀ h < s.count, (s.thread h).spawned →
    Kept (clientOps es h) (stackUnmaps es h) (h ∈ s.registry) (s.thread h)

theorem lifeInv_init : LifeInv [] Threads.init where
  nodup := List.nodup_nil
  listed := nofun
  unborn := fun _ _ => ⟨rfl, rfl, rfl⟩
  kept := fun h hlt => absurd hlt (Nat.not_lt_zero h)

/-- An event of one thread that has been made. -/
theorem LifeInv.update {es : List (Threads × LifeEv)} {s : Threads} {e : LifeEv} {k : Handle}
    {r : ThreadRec} {registry : List Handle} (hinv : LifeInv es s) (hk : k < s.count)
    (hregistry : registry = s.registry ∨ registry = s.registry.erase k)
    (hspawned : r.spawned = (s.thread k).spawned)
    (hother : ∀ h, h ≠ k → e.client h = none ∧ s.unmaps h e = 0)
    (hself : r.spawned → Kept (clientOps es k) (stackUnmaps es k) (k ∈ s.registry) (s.thread k) →
      Kept (clientOps es k ++ (e.client k).toList) (stackUnmaps es k + s.unmaps k e)
        (k ∈ registry) r) :
    LifeInv (es ++ [(s, e)]) { s.set k r with registry := registry } := by
  have hmem : ∀ h, h ∈ registry → h ∈ s.registry := by
    intro h hh
    rcases hregistry with rfl | rfl
    · exact hh
    · exact List.mem_of_mem_erase hh
  have hmem' : ∀ h, h ≠ k → (h ∈ registry ↔ h ∈ s.registry) := by
    intro h hne
    rcases hregistry with rfl | rfl
    · exact Iff.rfl
    · exact List.mem_erase_of_ne hne
  refine ⟨?_, fun h hh => ?_, fun h hh => ?_, fun h hh hsp => ?_⟩
  · rcases hregistry with rfl | rfl
    · exact hinv.nodup
    · exact hinv.nodup.erase k
  · obtain ⟨hlt, hsp⟩ := hinv.listed h (hmem h hh)
    refine ⟨hlt, ?_⟩
    show ((s.set k r).thread h).spawned
    by_cases hhk : h = k
    · subst hhk
      rwa [Threads.set_self, hspawned]
    · rwa [Threads.set_ne s r hhk]
  · have hne : h ≠ k := fun heq => absurd (heq ▸ hk) (Nat.not_lt.mpr hh)
    obtain ⟨hcalls, hunmaps, hphase⟩ := hinv.unborn h hh
    rw [clientOps_snoc, stackUnmaps_snoc, (hother h hne).1, (hother h hne).2, hcalls, hunmaps]
    exact ⟨rfl, rfl, (congrArg ThreadRec.phase (Threads.set_ne s r hne)).trans hphase⟩
  · rw [clientOps_snoc, stackUnmaps_snoc]
    change Kept _ _ (h ∈ registry) ((s.set k r).thread h)
    change ((s.set k r).thread h).spawned = true at hsp
    by_cases hhk : h = k
    · subst hhk
      rw [Threads.set_self] at hsp ⊢
      exact hself hsp (hinv.kept h hh (hspawned ▸ hsp))
    · rw [Threads.set_ne s r hhk] at hsp ⊢
      rw [(hother h hhk).1, (hother h hhk).2, hmem' h hhk]
      simpa using hinv.kept h hh hsp

/-- A new record, for a thread on the registry or for one of `vm_run`. -/
theorem LifeInv.add {es : List (Threads × LifeEv)} {s : Threads} {e : LifeEv} (spawned : Bool)
    (hinv : LifeInv es s) (hcalls : ∀ h, e.client h = none ∧ s.unmaps h e = 0)
    {registry : List Handle}
    (hregistry : registry = if spawned then s.count :: s.registry else s.registry) :
    LifeInv (es ++ [(s, e)]) { s.add spawned with registry := registry } := by
  have hnew : s.count ∉ s.registry := fun hh => Nat.lt_irrefl _ (hinv.listed _ hh).1
  have hold : ∀ h, h ≠ s.count → (s.add spawned).thread h = s.thread h :=
    fun h hne => Threads.set_ne s _ hne
  have hself : (s.add spawned).thread s.count
      = ⟨spawned, .running, true, .looping, false, none, 0⟩ := Threads.set_self s _ _
  have hmem : ∀ h, h ∈ registry ↔ (h = s.count ∧ spawned) ∨ h ∈ s.registry := by
    intro h
    cases spawned <;> simp [hregistry]
  refine ⟨?_, fun h hh => ?_, fun h hh => ?_, fun h hh hsp => ?_⟩
  · cases spawned with
    | false => exact hregistry ▸ hinv.nodup
    | true => exact hregistry ▸ List.nodup_cons.mpr ⟨hnew, hinv.nodup⟩
  · show h < s.count + 1 ∧ ((s.add spawned).thread h).spawned
    rcases (hmem h).mp hh with ⟨rfl, hsp⟩ | hh
    · rw [hself]
      exact ⟨Nat.lt_succ_self _, hsp⟩
    · obtain ⟨hlt, hsp⟩ := hinv.listed h hh
      rw [hold h (Nat.ne_of_lt hlt)]
      exact ⟨Nat.lt_succ_of_lt hlt, hsp⟩
  · obtain ⟨hnone, hunmaps, hphase⟩ := hinv.unborn h (Nat.le_of_succ_le hh)
    rw [clientOps_snoc, stackUnmaps_snoc, (hcalls h).1, (hcalls h).2, hnone, hunmaps]
    refine ⟨rfl, rfl, (congrArg ThreadRec.phase (hold h ?_)).trans hphase⟩
    exact fun heq => absurd hh (heq ▸ Nat.not_succ_le_self _)
  · rw [clientOps_snoc, stackUnmaps_snoc, (hcalls h).1, (hcalls h).2]
    change Kept _ _ (h ∈ registry) ((s.add spawned).thread h)
    change ((s.add spawned).thread h).spawned = true at hsp
    by_cases hne : h = s.count
    · subst hne
      obtain ⟨hnone, hunmaps, -⟩ := hinv.unborn s.count (Nat.le_refl _)
      rw [hself] at hsp ⊢
      rw [hnone, hunmaps]
      refine ⟨rfl, rfl, by simp, ?_, nofun⟩
      rw [hmem]
      simpa using Or.inl hsp
    · have hlt : h < s.count := Nat.lt_of_le_of_ne (Nat.le_of_lt_succ hh) hne
      rw [hold h hne] at hsp ⊢
      have hlisted : h ∈ registry ↔ h ∈ s.registry := by
        rw [hmem]
        simp [hne]
      rw [hlisted]
      simpa using hinv.kept h hlt hsp

/-- Only threads there are have not ended. -/
theorem LifeInv.born {es : List (Threads × LifeEv)} {s : Threads} {h : Handle}
    (hinv : LifeInv es s) (hlive : (s.thread h).phase ≠ .exited) : h < s.count :=
  Nat.lt_of_not_le fun hle => hlive (hinv.unborn h hle).2.2

theorem LifeInv.step {es : List (Threads × LifeEv)} {s s' : Threads} {e : LifeEv}
    (hord : ∀ h < s.count, (s.thread h).spawned → Orderly (clientOps (es ++ [(s, e)]) h))
    (hinv : LifeInv es s) (hs : s.life e = some s') : LifeInv (es ++ [(s, e)]) s' := by
  cases e with
  | create =>
    cases hs
    exact hinv.add true (fun _ => ⟨rfl, rfl⟩) rfl
  | run =>
    cases hs
    exact hinv.add false (fun _ => ⟨rfl, rfl⟩) rfl
  | join k =>
    obtain ⟨⟨hk, hend⟩, rfl⟩ := of_guard hs
    have hclient : (LifeEv.join k).client k = some .join := if_pos rfl
    have hsame := hinv.update (e := .join k) (r := s.thread k) hk (.inl rfl) rfl
      (fun h hne => ⟨if_neg hne.symm, rfl⟩) (fun _ hkept => hclient ▸ hkept.join hend)
    rwa [s.set_same k] at hsame
  | destroy k =>
    obtain ⟨hk, rfl⟩ := of_guard hs
    have hclient : (LifeEv.destroy k).client k = some .destroy := if_pos rfl
    refine hinv.update hk (.inr rfl) rfl
      (fun h hne => ⟨if_neg hne.symm, if_neg fun heq => hne heq.1.symm⟩) fun hsp hkept => ?_
    have hops := hord k hk hsp
    rw [clientOps_snoc, hclient] at hops
    obtain ⟨hstack, hkept'⟩ := hkept.destroy hops (hinv.nodup.not_mem_erase (a := k))
    have hunmaps : s.unmaps k (.destroy k) = 0 := by
      simp [Threads.unmaps, hstack]
    rw [hclient, hunmaps]
    exact hkept'
  | detach k =>
    obtain ⟨hk, rfl⟩ := of_guard hs
    have hclient : (LifeEv.detach k).client k = some .detach := if_pos rfl
    refine hinv.update (r := { s.thread k with detached := true }) hk (.inr rfl) rfl
      (fun h hne => ⟨if_neg hne.symm, rfl⟩) fun hsp hkept => ?_
    have hops := hord k hk hsp
    rw [clientOps_snoc, hclient] at hops
    rw [hclient]
    exact hkept.detach hops (hinv.nodup.not_mem_erase (a := k))
  | halt k =>
    obtain ⟨hloop, rfl⟩ := of_guard hs
    have hk := hinv.born (h := k) (by rw [hloop]; exact Phase.noConfusion)
    have hunmaps : s.unmaps k (.halt k) = 1 := if_pos rfl
    refine hinv.update hk (.inl rfl) rfl (fun h hne => ⟨rfl, if_neg hne.symm⟩) fun _ hkept => ?_
    rw [hunmaps]
    simpa [LifeEv.client] using hkept.halt hloop
  | exit k =>
    obtain ⟨hhalt, rfl⟩ := of_guard hs
    have hk := hinv.born (h := k) (by rw [hhalt]; exact Phase.noConfusion)
    refine hinv.update hk (.inl rfl) rfl (fun h hne => ⟨rfl, rfl⟩) fun _ hkept => ?_
    simpa [LifeEv.client, Threads.unmaps] using hkept.exit hhalt

/-! ## 5. Runs -/

/-- Threads are only added, and keep what they are. -/
theorem Threads.life_grows {s s' : Threads} {e : LifeEv} (hs : s.life e = some s') {h : Handle}
    (hlt : h < s.count) : h < s'.count ∧ (s'.thread h).spawned = (s.thread h).spawned := by
  have hset : ∀ k r, r.spawned = (s.thread k).spawned →
      ((s.set k r).thread h).spawned = (s.thread h).spawned := by
    intro k r hr
    by_cases hk : h = k
    · subst hk
      simp [hr]
    · simp [Threads.set_ne s r hk]
  have hadd : ∀ b, h < (s.add b).count ∧ ((s.add b).thread h).spawned = (s.thread h).spawned := by
    intro b
    refine ⟨Nat.lt_succ_of_lt hlt, ?_⟩
    exact congrArg ThreadRec.spawned (Threads.set_ne s _ (Nat.ne_of_lt hlt))
  cases e with
  | create =>
    cases hs
    exact hadd true
  | run =>
    cases hs
    exact hadd false
  | join k =>
    obtain ⟨-, rfl⟩ := of_guard hs
    exact ⟨hlt, rfl⟩
  | destroy k =>
    obtain ⟨-, rfl⟩ := of_guard hs
    exact ⟨hlt, hset k _ rfl⟩
  | detach k =>
    obtain ⟨-, rfl⟩ := of_guard hs
    exact ⟨hlt, hset k { s.thread k with detached := true } rfl⟩
  | halt k =>
    obtain ⟨-, rfl⟩ := of_guard hs
    exact ⟨hlt, hset k _ rfl⟩
  | exit k =>
    obtain ⟨-, rfl⟩ := of_guard hs
    exact ⟨hlt, hset k _ rfl⟩

theorem run_lifeInv {es : List (Threads × LifeEv)} {s : Threads} (hrun : LifeRun es s)
    (hord : ∀ h < s.count, (s.thread h).spawned → Orderly (clientOps es h)) : LifeInv es s := by
  refine Run.invariant (I := fun es s =>
    (∀ h < s.count, (s.thread h).spawned → Orderly (clientOps es h)) → LifeInv es s) ?_ ?_ hrun hord
  · exact fun _ => lifeInv_init
  · rintro es s ⟨s₀, e⟩ s' - ih ⟨hs₀, hstep⟩ hord
    obtain rfl : s₀ = s := hs₀
    have hall : ∀ h < s₀.count, (s₀.thread h).spawned →
        Orderly (clientOps (es ++ [(s₀, e)]) h) := by
      intro h hh hsp
      obtain ⟨hlt, hsame⟩ := Threads.life_grows hstep hh
      exact hord h hlt (hsame.trans hsp)
    refine (ih fun h hh hsp => ?_).step hall hstep
    have hops := hall h hh hsp
    rw [clientOps_snoc] at hops
    exact hops.init

/-- What has become of a thread at the end. -/
theorem settled_thread {es : List (Threads × LifeEv)} {s : Threads} (hrun : LifeRun es s)
    (hset : Settled es s) {h : Handle} (hh : h < s.count) (hsp : (s.thread h).spawned) :
    stackUnmaps es h = 1 ∧ h ∉ s.registry ∧
      ((s.thread h).frees = 1 ↔ clientOps es h ≠ [.detach]) := by
  have hinv := run_lifeInv hrun fun k hk hspk => (hset.cared k hk hspk).orderly
  exact (hinv.kept h hh hsp).settled (hset.ended h hh hsp) (hset.cared h hh hsp)

/-- Nothing is left over exactly if no thread was detached. -/
theorem reclaimed_iff {es : List (Threads × LifeEv)} {s : Threads} (hrun : LifeRun es s)
    (hset : Settled es s) :
    Reclaimed es s ↔ ∀ h < s.count, (s.thread h).spawned → clientOps es h ≠ [.detach] := by
  constructor
  · intro hrec h hh hsp
    exact (settled_thread hrun hset hh hsp).2.2.mp (hrec.freed h hh hsp)
  · intro hnone
    refine ⟨fun h hh hsp => ?_, fun h hh hsp => (settled_thread hrun hset hh hsp).1, ?_⟩
    · exact (settled_thread hrun hset hh hsp).2.2.mpr (hnone h hh hsp)
    · have hinv := run_lifeInv hrun fun k hk hspk => (hset.cared k hk hspk).orderly
      refine List.eq_nil_iff_forall_not_mem.mpr fun h hmem => ?_
      obtain ⟨hh, hsp⟩ := hinv.listed h hmem
      exact (settled_thread hrun hset hh hsp).2.1 hmem

theorem LifeRun.then {es : List (Threads × LifeEv)} {s s' : Threads} {e : LifeEv}
    (hrun : LifeRun es s) (hs : s.life e = some s') : LifeRun (es ++ [(s, e)]) s' :=
  Run.next hrun ⟨rfl, hs⟩

/-- Two threads that are joined and destroyed, the one made last first. -/
theorem reclaimed_joined : ∃ es s, LifeRun es s ∧ s.count = 2 ∧ (s.thread 0).spawned ∧
    (s.thread 1).spawned ∧ Reclaimed es s := by
  have h₀ : LifeRun [] Threads.init := Run.start
  have h₁ := h₀.then (e := .create) rfl
  have h₂ := h₁.then (e := .create) rfl
  have h₃ := h₂.then (e := .halt 0) rfl
  have h₄ := h₃.then (e := .halt 1) rfl
  have h₅ := h₄.then (e := .exit 1) rfl
  have h₆ := h₅.then (e := .join 1) rfl
  have h₇ := h₆.then (e := .destroy 1) rfl
  have h₈ := h₇.then (e := .exit 0) rfl
  have h₉ := h₈.then (e := .join 0) rfl
  have h := h₉.then (e := .destroy 0) rfl
  refine ⟨_, _, h, rfl, rfl, rfl,
    (reclaimed_iff h ⟨fun k hk _ => ?_, fun k hk _ => ?_⟩).mpr fun k hk _ => ?_⟩
  · match k, hk with
    | 0, _ => rfl
    | 1, _ => rfl
  · match k, hk with
    | 0, _ => exact .inl rfl
    | 1, _ => exact .inl rfl
  · match k, hk with
    | 0, _ => exact List.cons_ne_nil _ _ ∘ List.tail_eq_of_cons_eq
    | 1, _ => exact List.cons_ne_nil _ _ ∘ List.tail_eq_of_cons_eq

/-- The record of a thread that is detached is not freed. -/
theorem detached_not_reclaimed : ¬ ∀ (es : List (Threads × LifeEv)) (s : Threads),
    LifeRun es s → Settled es s → Reclaimed es s := by
  intro hall
  have h₀ : LifeRun [] Threads.init := Run.start
  have h₁ := h₀.then (e := .create) rfl
  have h₂ := h₁.then (e := .detach 0) rfl
  have h₃ := h₂.then (e := .halt 0) rfl
  have h := h₃.then (e := .exit 0) rfl
  have hrec := hall _ _ h ⟨fun k hk _ => ?_, fun k hk _ => ?_⟩
  · exact absurd (hrec.freed 0 Nat.one_pos rfl) Nat.zero_ne_one
  · match k, hk with
    | 0, _ => rfl
  · match k, hk with
    | 0, _ => exact .inr rfl

/-! ## 6. The system calls -/

/-- The records without what only JOIN and the guests know. -/
def Threads.resources (s : Threads) : Threads :=
  { s with thread := fun h => { s.thread h with call := none }, known := [] }

/-- What a step of a guest thread does with the resources.  JOIN frees its target when
`pthread_join` has returned, which it also does at once for threads it does not wait for. -/
def Threads.lifeEvs (s : Threads) : ThreadEv → List LifeEv
  | .vmRun => [.run]
  | .spawn _ => [.create]
  | .self _ => []
  | .join _ _ => []
  | .joined c =>
    match (s.thread c).call with
    | none => []
    | some j => if j.waits then [.join j.target, .destroy j.target] else [.destroy j.target]
  | .detach _ h => [.detach h]
  | .halt c => [.halt c]
  | .exit c => [.exit c]

theorem Threads.resources_set (s : Threads) (h : Handle) (r : ThreadRec) :
    (s.set h r).resources = s.resources.set h { r with call := none } := by
  have hthread : (s.set h r).resources.thread
      = (s.resources.set h { r with call := none }).thread := by
    funext k
    by_cases hk : k = h
    · subst hk
      rw [Threads.set_self]
      exact congrArg (fun r => { r with call := none }) (s.set_self k r)
    · rw [Threads.set_ne _ _ hk]
      exact congrArg (fun r => { r with call := none }) (s.set_ne r hk)
  exact congrArg (fun t => { s.resources with thread := t }) hthread

/-- A JOIN that begins or ends. -/
theorem Threads.resources_call (s : Threads) (h : Handle) (call : Option JoinCall) :
    (s.set h { s.thread h with call := call }).resources = s.resources :=
  (s.resources_set h _).trans (s.resources.set_same h)

theorem Threads.resources_add (s : Threads) (spawned : Bool) :
    (s.add spawned).resources = s.resources.add spawned :=
  congrArg (fun t => { t with count := s.count + 1 }) (s.resources_set s.count _)

theorem Threads.resources_destroy (s : Threads) (h : Handle) :
    (s.vmThreadDestroy h).resources = s.resources.vmThreadDestroy h :=
  (s.registryRemove h).resources_set h _

theorem Threads.resources_detach (s : Threads) (h : Handle) :
    (s.vmThreadDetach h).resources = s.resources.vmThreadDetach h :=
  congrArg (fun t => t.registryRemove h)
    (s.resources_set h { s.thread h with detached := true })

theorem Threads.resources_halt (s : Threads) (c : Handle) :
    (s.halt c).resources = s.resources.halt c :=
  s.resources_set c { s.thread c with state := .finished, stack := false, phase := .halted }

theorem Threads.resources_exit (s : Threads) (c : Handle) :
    (s.exit c).resources = s.resources.exit c :=
  s.resources_set c { s.thread c with state := .finished, phase := .exited }

theorem life_single {s s' : Threads} {e : LifeEv} (hs : s.life e = some s') :
    ∃ ls, Run LifeStep s ls s' ∧ ls.map Prod.snd = [e] :=
  ⟨[(s, e)], Run.single ⟨rfl, hs⟩, rfl⟩

theorem life_none (s : Threads) : ∃ ls, Run LifeStep s ls s ∧ ls.map Prod.snd = [] :=
  ⟨[], Run.start, rfl⟩

/-- A system call changes the resources as the functions it calls do. -/
theorem life_of_step {s s' : Threads} {e : ThreadEv} (hinv : JoinInv s)
    (hs : s.step e = some s') :
    ∃ ls, Run LifeStep s.resources ls s'.resources ∧ ls.map Prod.snd = s.lifeEvs e := by
  cases e with
  | vmRun =>
    cases hs
    exact life_single (congrArg some (s.resources_add false).symm)
  | spawn c =>
    obtain ⟨-, rfl⟩ := of_guard hs
    refine life_single (congrArg some ?_)
    exact (congrArg (fun t => t.registryAdd s.count) (s.resources_add true)).symm
  | self c =>
    obtain ⟨-, rfl⟩ := of_guard hs
    exact life_none s.resources
  | join c h =>
    obtain ⟨-, rfl⟩ := of_guard hs
    rw [s.resources_call c]
    exact life_none s.resources
  | joined c =>
    simp only [Threads.step] at hs
    split at hs
    · cases hs
    · next j hj =>
      split at hs
      · cases hs
      · next hback =>
        cases hs
        have hlt : j.target < s.resources.count := hinv.created c j hj
        have hdestroy : s.resources.life (.destroy j.target)
            = some (s.resources.vmThreadDestroy j.target) := if_pos hlt
        rw [Threads.resources_call, s.resources_destroy]
        simp only [Threads.lifeEvs, hj]
        by_cases hwaits : j.waits
        · have hend : (s.resources.thread j.target).phase = .exited :=
            Classical.byContradiction fun hne => hback ⟨hwaits, hne⟩
          have hjoin : s.resources.life (.join j.target) = some s.resources :=
            if_pos ⟨hlt, hend⟩
          rw [if_pos hwaits]
          exact ⟨_, (Run.single (e := (s.resources, .join j.target)) ⟨rfl, hjoin⟩).next
            (e := (s.resources, .destroy j.target)) ⟨rfl, hdestroy⟩, rfl⟩
        · rw [if_neg hwaits]
          exact life_single hdestroy
  | detach c h =>
    obtain ⟨⟨-, hname⟩, rfl⟩ := of_guard hs
    have hlt : h < s.resources.count := hinv.known h hname.1
    exact life_single ((if_pos hlt).trans (congrArg some (s.resources_detach h).symm))
  | halt c =>
    obtain ⟨⟨-, hloop, -⟩, rfl⟩ := of_guard hs
    have hloop' : (s.resources.thread c).phase = .looping := hloop
    exact life_single ((if_pos hloop').trans (congrArg some (s.resources_halt c).symm))
  | exit c =>
    obtain ⟨hhalt, rfl⟩ := of_guard hs
    have hhalt' : (s.resources.thread c).phase = .halted := hhalt
    exact life_single ((if_pos hhalt').trans (congrArg some (s.resources_exit c).symm))

/-- So the runs of guest threads are runs of the thread API. -/
theorem life_of_run {es : List (Threads × ThreadEv)} {s : Threads} (hrun : ThreadRun es s)
    (hok : JoinsOk es) : ∃ ls, LifeRun ls s.resources ∧
      ls.map Prod.snd = es.flatMap fun l => l.1.lifeEvs l.2 := by
  refine Run.invariant (I := fun es s => JoinsOk es → ∃ ls, LifeRun ls s.resources ∧
    ls.map Prod.snd = es.flatMap fun l => l.1.lifeEvs l.2) ?_ ?_ hrun hok
  · exact fun _ => ⟨[], Run.start, rfl⟩
  · rintro es s ⟨s₀, e⟩ s' hrun' ih ⟨hs₀, hstep⟩ hok
    obtain rfl : s₀ = s := hs₀
    obtain ⟨hbefore, -⟩ := List.forall_mem_append.mp hok
    obtain ⟨ls, hls, hevs⟩ := ih hbefore
    obtain ⟨ks, hks, hevs'⟩ := life_of_step (run_joinInv hrun' hbefore).1 hstep
    refine ⟨ls ++ ks, hls.trans hks, ?_⟩
    rw [List.map_append, List.flatMap_append, hevs, hevs', List.flatMap_singleton]

end Dvm
