/-
# Guest threads over one memory

The guest threads of a process: each has its registers and its shadow stack, and they share
memory and the mutexes behind the handles of the mutex calls.  A step is one instruction of one
thread, and any thread may make the next one.  In a system call the thread runs `dispatch`, and the
host answers its calls (`HostDoes`).

The host's atomic operations are one step on eight aligned bytes, and its mutexes are default
mutexes of `pthread`, which wait until they are free and which only their holder unlocks.  Where
the use of these functions is not defined, and for all other functions, nothing is said of the
answer or of what becomes of memory.
-/
import Dvm.Vm.Footprint
import Dvm.Vm.Syscall

namespace Dvm

open ByteMem Runs

/-! ## 1. What the host does -/

/-- What the functions of the host work on.  `mutex h` is `none` where there is no initialised
mutex, and otherwise the thread that has locked it. -/
structure HostState where
  mem : Mem
  mutex : Word → Option (Option Nat)

/-- The same bytes but for a block. -/
def SameOutside (a : Word) (n : Nat) (m m' : Mem) : Prop := ∀ x, ¬ InBlock a n x → m' x = m x

def mutexSize : Nat := 40

/-- The mutex at `h` gets another state, and its own bytes change in some way. -/
structure MutexTurns (h : Word) (v : Option (Option Nat)) (s s' : HostState) : Prop where
  mem : SameOutside h mutexSize s.mem s'.mem
  mutex : s'.mutex = fun k => if k = h then v else s.mutex k

def Aligned (p : Word) : Prop := p &&& 7 = 0

instance Aligned.decidable (p : Word) : Decidable (Aligned p) :=
  inferInstanceAs (Decidable (_ = _))

/-- What a function of the host may answer to thread `i`, and what it may leave. -/
def HostDoes (i : Nat) (s : HostState) : (c : HostCall) → c.Answer → HostState → Prop
  | .atomicFetchAdd p delta, (old : Word), s' => Aligned p →
      old = load 8 s.mem p ∧
        s' = { s with mem := store 8 s.mem p (load 8 s.mem p + delta) }
  | .atomicCompareExchange p expected desired, (old : Word), s' => Aligned p →
      old = load 8 s.mem p ∧
        s' = { s with mem := if old = expected then store 8 s.mem p desired else s.mem }
  | .pthreadMutexInit h, _, s' => s.mutex h = none → MutexTurns h (some none) s s'
  | .pthreadMutexLock h, (rc : BitVec 32), s' => ∀ holder, s.mutex h = some holder →
      holder = none ∧ rc = 0 ∧ MutexTurns h (some (some i)) s s'
  | .pthreadMutexUnlock h, (rc : BitVec 32), s' => s.mutex h = some (some i) →
      rc = 0 ∧ MutexTurns h (some none) s s'
  | .pthreadMutexDestroy h, _, s' => s.mutex h = some none → MutexTurns h none s s'
  | _, _, _ => True

section Does

variable {C : Type} {A : C → Type} {ρ σ : Type} {host : σ → (c : C) → A c → σ → Prop}

/-- A program that makes calls, on a state that the calls work on. -/
inductive Prog.Does (host : σ → (c : C) → A c → σ → Prop) : Prog A ρ → σ → ρ → σ → Prop
  | ret {r : ρ} {s : σ} : Does host (.ret r) s r s
  | call {c : C} {a : A c} {k : A c → Prog A ρ} {s s₁ s' : σ} {r : ρ} :
      host s c a s₁ → Does host (k a) s₁ r s' → Does host (.call c k) s r s'

theorem Prog.does_ret_iff {r r' : ρ} {s s' : σ} :
    (Prog.ret r : Prog A ρ).Does host s r' s' ↔ r' = r ∧ s' = s := by
  constructor
  · intro h
    cases h
    exact ⟨rfl, rfl⟩
  · rintro ⟨rfl, rfl⟩
    exact .ret

theorem Prog.does_call_iff {c : C} {k : A c → Prog A ρ} {s s' : σ} {r : ρ} :
    (Prog.call c k).Does host s r s' ↔ ∃ a s₁, host s c a s₁ ∧ (k a).Does host s₁ r s' := by
  constructor
  · intro h
    cases h with
    | call hc hk => exact ⟨_, _, hc, hk⟩
  · rintro ⟨a, s₁, hc, hk⟩
    exact .call hc hk

/-- A program that makes one call and returns something of its answer. -/
theorem Prog.does_once_iff {c : C} {f : A c → ρ} {s s' : σ} {r : ρ} :
    (Prog.call c fun a => .ret (f a)).Does host s r s' ↔ ∃ a, host s c a s' ∧ r = f a := by
  refine Prog.does_call_iff.trans (exists_congr fun a => ?_)
  constructor
  · rintro ⟨s₁, hc, hret⟩
    obtain ⟨rfl, rfl⟩ := Prog.does_ret_iff.mp hret
    exact ⟨hc, rfl⟩
  · rintro ⟨hc, rfl⟩
    exact ⟨s', hc, .ret⟩

end Does

/-! ## 2. Steps -/

structure Guests extends HostState where
  thread : Nat → Option VMThread

def Guests.setThread (g : Guests) (i : Nat) (t : VMThread) (s : HostState) : Guests where
  toHostState := s
  thread := fun j => if j = i then some t else g.thread j

@[simp] theorem Guests.setThread_self (g : Guests) (i : Nat) (t : VMThread) (s : HostState) :
    (g.setThread i t s).thread i = some t := if_pos rfl

theorem Guests.setThread_ne (g : Guests) {i j : Nat} (t : VMThread) (s : HostState) (h : j ≠ i) :
    (g.setThread i t s).thread j = g.thread j := if_neg h

@[simp] theorem Guests.setThread_mem (g : Guests) (i : Nat) (t : VMThread) (s : HostState) :
    (g.setThread i t s).mem = s.mem := rfl

inductive GuestEv where
  /-- Thread `i` executes an instruction. -/
  | exec (i : Nat) (op : Op) (o : Operands) (before after : VMThread)
  | start (i : Nat) (t : VMThread)
  /-- The host writes to memory of itself. -/
  | host

inductive Guests.Step : Guests → GuestEv → Guests → Prop
  | exec {g : Guests} {i : Nat} {t t' : VMThread} {m' : Mem} {op : Op} {o : Operands} :
      g.thread i = some t → t.state = .running → fetchInstr g.mem t.ip = some (op, o) →
      op ≠ .syscall → (step none t g.mem).Leaves t' m' →
      Step g (.exec i op o t t') (g.setThread i t' ⟨m', g.mutex⟩)
  | syscall {g : Guests} {i : Nat} {t : VMThread} {s' : HostState} {o : Operands}
      {caller result : Word} {rc : Int} :
      g.thread i = some t → t.state = .running → fetchInstr g.mem t.ip = some (.syscall, o) →
      (opSyscall caller t).Does (HostDoes i) g.toHostState (rc, result) s' →
      Step g (.exec i .syscall o t ((t.fetched .syscall).setReg regAx result))
        (g.setThread i ((t.fetched .syscall).setReg regAx result) s')
  | start {g : Guests} {i : Nat} {t : VMThread} :
      g.thread i = none → Step g (.start i t) (g.setThread i t g.toHostState)
  | host {g : Guests} (m' : Mem) : Step g .host { g with mem := m' }

/-- What `op_syscall` does with an answer is what the interpreter does with it. -/
theorem step_syscall {t : VMThread} {m m' : Mem} {o : Operands} {result : Word}
    (h : fetchInstr m t.ip = some (.syscall, o)) :
    step (some (result, m')) t m = .next ((t.fetched .syscall).setReg regAx result) m' := by
  rw [step_of_fetch h]
  rfl

/-! ## 3. System calls on memory -/

/-- The number of the system call that a thread makes. -/
def VMThread.sysNr (t : VMThread) : Option DvmSyscall := sysCase (enumValue (t.gpr regAx))

/-- The access that a system call makes. -/
def VMThread.atomicAccess (t : VMThread) : Option WordAccess :=
  match t.sysNr with
  | some .atomicFetchadd => some ⟨t.gpr regBx, .fetchAdd (t.gpr regCx), regAx⟩
  | some .atomicCmpxchg => some ⟨t.gpr regBx, .cmpxchg (t.gpr regCx) (t.gpr regDx), regAx⟩
  | _ => none

section Programs

variable {i : Nat} {t : VMThread} {caller : Word} {s s' : HostState}

theorem opSyscall_fetchAdd (hnr : t.sysNr = some .atomicFetchadd) :
    opSyscall caller t = .call (.atomicFetchAdd (t.gpr regBx) (t.gpr regCx))
      fun (old : Word) => .ret (0, old) := by
  unfold VMThread.sysNr at hnr
  rw [opSyscall, dvmSyscallFrom, dispatch, hnr]
  rfl

theorem opSyscall_cmpxchg (hnr : t.sysNr = some .atomicCmpxchg) :
    opSyscall caller t = .call (.atomicCompareExchange (t.gpr regBx) (t.gpr regCx) (t.gpr regDx))
      fun (old : Word) => .ret (0, old) := by
  unfold VMThread.sysNr at hnr
  rw [opSyscall, dvmSyscallFrom, dispatch, hnr]
  rfl

theorem opSyscall_mutexLock (hnr : t.sysNr = some .mutexLock) (hbx : t.gpr regBx ≠ 0) :
    opSyscall caller t = .call (.pthreadMutexLock (t.gpr regBx)) fun (rc : BitVec 32) =>
      .ret (0, rc.signExtend 64) := by
  unfold VMThread.sysNr at hnr
  rw [opSyscall, dvmSyscallFrom, dispatch, hnr]
  exact if_neg hbx

theorem opSyscall_mutexUnlock (hnr : t.sysNr = some .mutexUnlock) (hbx : t.gpr regBx ≠ 0) :
    opSyscall caller t = .call (.pthreadMutexUnlock (t.gpr regBx)) fun (rc : BitVec 32) =>
      .ret (0, rc.signExtend 64) := by
  unfold VMThread.sysNr at hnr
  rw [opSyscall, dvmSyscallFrom, dispatch, hnr]
  exact if_neg hbx

theorem returned_iff {P : Word → Prop} {rc : Int} {result : Word} :
    (∃ v, P v ∧ ((rc, result) : Int × Word) = (0, v)) ↔ rc = 0 ∧ P result := by
  constructor
  · rintro ⟨v, h, heq⟩
    obtain ⟨rfl, rfl⟩ := Prod.mk.inj heq
    exact ⟨rfl, h⟩
  · rintro ⟨rfl, h⟩
    exact ⟨result, h, rfl⟩

/-- An atomic access returns the word that it finds, and leaves what it makes of it. -/
theorem opSyscall_atomic_iff {a : WordAccess} (ha : t.atomicAccess = some a)
    (hp : Aligned a.addr) {rc : Int} {result : Word} :
    (opSyscall caller t).Does (HostDoes i) s (rc, result) s' ↔ rc = 0 ∧
      result = load 8 s.mem a.addr ∧
        s' = { s with mem := store 8 s.mem a.addr (a.op.next (load 8 s.mem a.addr)) } := by
  unfold VMThread.atomicAccess at ha
  split at ha
  · next hnr =>
    obtain rfl := Option.some.inj ha
    rw [opSyscall_fetchAdd hnr]
    refine Iff.trans Prog.does_once_iff (Iff.trans returned_iff (and_congr_right fun _ => ?_))
    exact imp_iff_right hp
  · next hnr =>
    obtain rfl := Option.some.inj ha
    rw [opSyscall_cmpxchg hnr]
    refine Iff.trans Prog.does_once_iff (Iff.trans returned_iff (and_congr_right fun _ => ?_))
    refine Iff.trans (imp_iff_right hp) (and_congr_right fun hold => ?_)
    rw [hold, WordOp.next_cmpxchg]
    split
    · rfl
    · rw [store_load]
  · cases ha

end Programs

section Syscalls

variable {g g' : Guests} {i : Nat} {o : Operands} {t t' : VMThread}

/-- The system call of a step. -/
theorem Guests.Step.syscall_inv (h : g.Step (.exec i .syscall o t t') g') :
    g.thread i = some t ∧ t.state = .running ∧ fetchInstr g.mem t.ip = some (.syscall, o) ∧
      ∃ caller rc result s', (opSyscall caller t).Does (HostDoes i) g.toHostState (rc, result) s' ∧
        t' = (t.fetched .syscall).setReg regAx result ∧ g' = g.setThread i t' s' := by
  cases h with
  | exec ht hrun hf hop _ => exact absurd rfl hop
  | syscall ht hrun hf hdoes => exact ⟨ht, hrun, hf, _, _, _, _, hdoes, rfl, rfl⟩

/-- `ATOMIC_FETCHADD` and `ATOMIC_CMPXCHG` of an aligned word. -/
theorem Guests.Step.atomic {a : WordAccess} (h : g.Step (.exec i .syscall o t t') g')
    (ha : t.atomicAccess = some a) (hp : Aligned a.addr) :
    t' = (t.fetched .syscall).setReg regAx (load 8 g.mem a.addr) ∧ g' = g.setThread i t'
      ⟨store 8 g.mem a.addr (a.op.next (load 8 g.mem a.addr)), g.mutex⟩ := by
  obtain ⟨-, -, -, caller, rc, result, s', hdoes, ht', hg'⟩ := h.syscall_inv
  obtain ⟨-, rfl, rfl⟩ := (opSyscall_atomic_iff ha hp).mp hdoes
  exact ⟨ht', hg'⟩

/-- They go on in every state. -/
theorem Guests.atomic_step {a : WordAccess} (ht : g.thread i = some t)
    (hrun : t.state = .running) (hf : fetchInstr g.mem t.ip = some (.syscall, o))
    (ha : t.atomicAccess = some a) (hp : Aligned a.addr) :
    ∃ t' g', t' = (t.fetched .syscall).setReg regAx (load 8 g.mem a.addr) ∧
      g' = g.setThread i t'
        ⟨store 8 g.mem a.addr (a.op.next (load 8 g.mem a.addr)), g.mutex⟩ ∧
      g.Step (.exec i .syscall o t t') g' := by
  have hdoes : (opSyscall 0 t).Does (HostDoes i) g.toHostState (0, load 8 g.mem a.addr)
      ⟨store 8 g.mem a.addr (a.op.next (load 8 g.mem a.addr)), g.mutex⟩ :=
    (opSyscall_atomic_iff ha hp).mpr ⟨rfl, rfl, rfl⟩
  exact ⟨_, _, rfl, rfl, .syscall ht hrun hf hdoes⟩

/-- `MUTEX_LOCK` of a mutex goes on only if that is free, and returns 0. -/
theorem Guests.Step.mutexLock (h : g.Step (.exec i .syscall o t t') g')
    (hnr : t.sysNr = some .mutexLock) (hbx : t.gpr regBx ≠ 0) {holder : Option Nat}
    (hm : g.mutex (t.gpr regBx) = some holder) :
    holder = none ∧ t' = (t.fetched .syscall).setReg regAx 0 ∧ ∃ s',
      MutexTurns (t.gpr regBx) (some (some i)) g.toHostState s' ∧ g' = g.setThread i t' s' := by
  obtain ⟨-, -, -, caller, rc, result, s', hdoes, ht', hg'⟩ := h.syscall_inv
  rw [opSyscall_mutexLock hnr hbx] at hdoes
  obtain ⟨code, hhost, hret⟩ := Prog.does_once_iff.mp hdoes
  obtain ⟨hfree, rfl, hturns⟩ := hhost holder hm
  obtain rfl := (Prod.mk.inj hret).2
  exact ⟨hfree, ht', _, hturns, hg'⟩

/-- `MUTEX_UNLOCK` by the holder frees the mutex, and returns 0. -/
theorem Guests.Step.mutexUnlock (h : g.Step (.exec i .syscall o t t') g')
    (hnr : t.sysNr = some .mutexUnlock) (hbx : t.gpr regBx ≠ 0)
    (hm : g.mutex (t.gpr regBx) = some (some i)) :
    t' = (t.fetched .syscall).setReg regAx 0 ∧ ∃ s',
      MutexTurns (t.gpr regBx) (some none) g.toHostState s' ∧ g' = g.setThread i t' s' := by
  obtain ⟨-, -, -, caller, rc, result, s', hdoes, ht', hg'⟩ := h.syscall_inv
  rw [opSyscall_mutexUnlock hnr hbx] at hdoes
  obtain ⟨code, hhost, hret⟩ := Prog.does_once_iff.mp hdoes
  obtain ⟨rfl, hturns⟩ := hhost hm
  obtain rfl := (Prod.mk.inj hret).2
  exact ⟨ht', _, hturns, hg'⟩

/-- A mutex can get any state that its functions give it. -/
theorem MutexTurns.exists (p : Word) (v : Option (Option Nat)) (s : HostState) :
    ∃ s', MutexTurns p v s s' :=
  ⟨⟨s.mem, fun k => if k = p then v else s.mutex k⟩, fun _ _ => rfl, rfl⟩

/-- `MUTEX_LOCK` of a free mutex goes on. -/
theorem Guests.mutexLock_step (ht : g.thread i = some t) (hrun : t.state = .running)
    (hf : fetchInstr g.mem t.ip = some (.syscall, o)) (hnr : t.sysNr = some .mutexLock)
    (hbx : t.gpr regBx ≠ 0) (hm : g.mutex (t.gpr regBx) = some none) :
    ∃ t' g', g.Step (.exec i .syscall o t t') g' := by
  obtain ⟨s', hturns⟩ := MutexTurns.exists (t.gpr regBx) (some (some i)) g.toHostState
  have hdoes : (opSyscall 0 t).Does (HostDoes i) g.toHostState (0, 0) s' := by
    rw [opSyscall_mutexLock hnr hbx]
    refine Prog.does_once_iff.mpr ⟨(0 : BitVec 32), fun holder hholder => ?_, rfl⟩
    exact ⟨(Option.some.inj (hm.symm.trans hholder)).symm, rfl, hturns⟩
  exact ⟨_, _, .syscall ht hrun hf hdoes⟩

/-- `MUTEX_UNLOCK` by the holder goes on. -/
theorem Guests.mutexUnlock_step (ht : g.thread i = some t) (hrun : t.state = .running)
    (hf : fetchInstr g.mem t.ip = some (.syscall, o)) (hnr : t.sysNr = some .mutexUnlock)
    (hbx : t.gpr regBx ≠ 0) :
    ∃ t' g', g.Step (.exec i .syscall o t t') g' := by
  obtain ⟨s', hturns⟩ := MutexTurns.exists (t.gpr regBx) (some none) g.toHostState
  have hdoes : (opSyscall 0 t).Does (HostDoes i) g.toHostState (0, 0) s' := by
    rw [opSyscall_mutexUnlock hnr hbx]
    exact Prog.does_once_iff.mpr ⟨(0 : BitVec 32), fun _ => ⟨rfl, hturns⟩, rfl⟩
  exact ⟨_, _, .syscall ht hrun hf hdoes⟩

/-- What the thread of an event is, and where. -/
theorem Guests.Step.exec_inv {op : Op} (h : g.Step (.exec i op o t t') g') :
    g.thread i = some t ∧ t.state = .running ∧ fetchInstr g.mem t.ip = some (op, o) := by
  cases h with
  | exec ht hrun hf _ _ => exact ⟨ht, hrun, hf⟩
  | syscall ht hrun hf _ => exact ⟨ht, hrun, hf⟩

/-- An instruction that is no system call. -/
theorem Guests.Step.plain_inv {op : Op} (h : g.Step (.exec i op o t t') g') (hop : op ≠ .syscall) :
    ∃ m', (Dvm.exec none op o (t.fetched op) g.mem).Leaves t' m' ∧
      g' = g.setThread i t' ⟨m', g.mutex⟩ := by
  cases h with
  | exec _ _ hf _ hex =>
    rw [step_of_fetch hf] at hex
    exact ⟨_, hex, rfl⟩
  | syscall => exact absurd rfl hop

end Syscalls

end Dvm
