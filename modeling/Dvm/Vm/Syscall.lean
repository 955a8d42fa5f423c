/-
# System calls

`dispatch` of `syscall.c`, as a program that calls the functions of the C library, of
`pthread` and of `vm.c` and goes on with what they answer; on Linux, where `int` has 32 bits.
What such a function does is left to an environment, so a statement about every environment is
one about everything the guest can meet.

The number of the system call comes from a 64-bit register, but the `switch` is on a
`DvmSyscall`, an enumeration without negative values, for which the compiler takes an
`unsigned int`.  The conversion keeps the low 32 bits, so a number is unknown only if those are
(`unknownInert_iff`).
-/
import Dvm.Vm.Exec

namespace Dvm

open ByteMem

/-! ## 1. Programs that make calls -/

section Calls

variable {C : Type} {A : C → Type} {ρ : Type}

/-- A program that makes calls `c`, each answered by an `A c`, and returns a `ρ`. -/
inductive Prog (A : C → Type) (ρ : Type) where
  | ret (r : ρ)
  | call (c : C) (k : A c → Prog A ρ)

/-- What answers the calls, knowing those made before; `none` where a call does not return. -/
abbrev Env (A : C → Type) : Type := List C → (c : C) → Option (A c)

/-- Every call that can return does. -/
def Env.Returns (env : Env A) : Prop := ∀ past c, A c → (env past c).isSome

/-- The calls made after those of `past`, and what is returned if they all return. -/
def Prog.run (env : Env A) (past : List C) : Prog A ρ → List C × Option ρ
  | .ret r => (past, some r)
  | .call c k =>
    match env past c with
    | none => (past ++ [c], none)
    | some a => (k a).run env (past ++ [c])

@[simp] theorem Prog.run_ret (env : Env A) (past : List C) (r : ρ) :
    (Prog.ret r : Prog A ρ).run env past = (past, some r) := rfl

theorem Prog.run_call_some {env : Env A} {past : List C} {c : C} {a : A c}
    (h : env past c = some a) (k : A c → Prog A ρ) :
    (Prog.call c k).run env past = (k a).run env (past ++ [c]) := by
  rw [Prog.run, h]

theorem Prog.run_call_none {env : Env A} {past : List C} {c : C} (h : env past c = none)
    (k : A c → Prog A ρ) : (Prog.call c k).run env past = (past ++ [c], none) := by
  rw [Prog.run, h]

/-- A run only adds to the calls made before. -/
theorem Prog.past_subset (env : Env A) (past : List C) (p : Prog A ρ) :
    past ⊆ (p.run env past).1 := by
  induction p generalizing past with
  | ret r => exact List.Subset.refl _
  | call c k ih =>
    cases h : env past c with
    | none =>
      rw [run_call_none h]
      exact List.subset_append_left _ _
    | some a =>
      rw [run_call_some h]
      exact List.Subset.trans (List.subset_append_left _ _) (ih a _)

/-- The first call is made. -/
theorem Prog.mem_run_call (env : Env A) (past : List C) (c : C) (k : A c → Prog A ρ) :
    c ∈ ((Prog.call c k).run env past).1 := by
  have hlast : c ∈ past ++ [c] := List.mem_append_right _ (.head _)
  cases h : env past c with
  | none =>
    rw [run_call_none h]
    exact hlast
  | some a =>
    rw [run_call_some h]
    exact (k a).past_subset env _ hlast

end Calls

/-! ## 2. Numbers -/

inductive DvmSyscall where
  | exit | read | write | «open» | close
  | mmap | munmap
  | getpid | time | clock | isatty
  | threadSpawn | threadJoin | threadDetach | threadSelf | threadId
  | mutexCreate | mutexLock | mutexUnlock | mutexDestroy
  | atomicFetchadd | atomicCmpxchg
  deriving DecidableEq, Repr

/-- The system calls by their numbers. -/
def DvmSyscall.all : List DvmSyscall :=
  [.exit, .read, .write, .«open», .close, .mmap, .munmap, .getpid, .time, .clock, .isatty,
    .threadSpawn, .threadJoin, .threadDetach, .threadSelf, .threadId,
    .mutexCreate, .mutexLock, .mutexUnlock, .mutexDestroy, .atomicFetchadd, .atomicCmpxchg]

def dvmSysCount : Nat := 22

/-- `(DvmSyscall)nr`. -/
def enumValue (nr : Word) : BitVec 32 := nr.setWidth 32

/-- The `case` of the `switch`; `none` is `default`. -/
def sysCase (v : BitVec 32) : Option DvmSyscall := DvmSyscall.all[v.toNat]?

theorem sysCase_eq_none_iff {v : BitVec 32} : sysCase v = none ↔ dvmSysCount ≤ v.toNat :=
  List.getElem?_eq_none_iff

/-! ## 3. The functions that `dispatch` calls -/

/-- The calls with their arguments, a pointer being its address.  The fields `exit_code` and
`id` of a `VMThread` and `_current_thread` are read, which counts as a call here. -/
inductive HostCall where
  | exit (status : BitVec 32)
  | read (fd : BitVec 32) (buf len : Word)
  | write (fd : BitVec 32) (buf len : Word)
  | «open» (path : Word) (flags mode : BitVec 32)
  | close (fd : BitVec 32)
  | dvmMmap (len : Word) (prot : BitVec 32)
  | dvmMunmap (ptr len : Word)
  | getpid
  | time
  | clockGettime
  | isatty (fd : BitVec 32)
  | vmThreadCreate (bytecode stackSize : Word)
  | vmThreadJoin (t : Word)
  | vmThreadDetach (t : Word)
  | vmThreadDestroy (t : Word)
  | exitCode (t : Word)
  | threadId (t : Word)
  | currentThread
  | malloc (size : Word)
  | free (p : Word)
  | pthreadMutexInit (m : Word)
  | pthreadMutexLock (m : Word)
  | pthreadMutexUnlock (m : Word)
  | pthreadMutexDestroy (m : Word)
  | atomicFetchAdd (p delta : Word)
  | atomicCompareExchange (p expected desired : Word)
  /-- `fprintf(stderr, "dvm: unknown syscall %llu\n", nr)`. -/
  | unknownSyscall (nr : Word)
  deriving DecidableEq, Repr

/-- What is answered: nothing by `exit`, the fields of a `timespec` by `clock_gettime`, the old
value by `atomic_compare_exchange`. -/
def HostCall.Answer : HostCall → Type
  | .exit _ => Empty
  | .dvmMunmap _ _ | .vmThreadJoin _ | .vmThreadDetach _ | .vmThreadDestroy _ | .free _
  | .pthreadMutexInit _ | .pthreadMutexDestroy _ | .unknownSyscall _ => Unit
  | .«open» _ _ _ | .close _ | .getpid | .isatty _ | .exitCode _ | .threadId _
  | .pthreadMutexLock _ | .pthreadMutexUnlock _ => BitVec 32
  | .clockGettime => Word × Word
  | _ => Word

/-- The calls of the known system calls: all but the message. -/
def HostCall.IsEffect : HostCall → Prop
  | .unknownSyscall _ => False
  | _ => True

/-- What `dispatch` returns, with what it leaves in `*ret`. -/
abbrev SysProg : Type := Prog HostCall.Answer (Int × Word)

def sizeofPthreadMutex : Word := 40

/-- `*ret = v; return 0`. -/
def done (v : Word) : SysProg := .ret (0, v)

/-- `return -1` with `*ret` as it was set in the beginning, or again. -/
def failed : SysProg := .ret (-1, BitVec.allOnes 64)

/-- `caller ? caller : _current_thread`. -/
def withSelf (caller : Word) (k : Word → SysProg) : SysProg :=
  if caller ≠ 0 then k caller else .call .currentThread k

/-! ## 4. The dispatch -/

def dispatch (caller nr a1 a2 a3 _a4 _a5 : Word) : SysProg :=
  match sysCase (enumValue nr) with
  | some .exit => .call (.exit (a1.setWidth 32)) Empty.elim
  | some .read => .call (.read (a1.setWidth 32) a2 a3) done
  | some .write => .call (.write (a1.setWidth 32) a2 a3) done
  | some .«open» =>
    .call (.«open» a1 (a2.setWidth 32) (a3.setWidth 32)) fun fd => done (fd.signExtend 64)
  | some .close => .call (.close (a1.setWidth 32)) fun rc => done (rc.signExtend 64)
  | some .mmap => .call (.dvmMmap a1 (a2.setWidth 32)) done
  | some .munmap => .call (.dvmMunmap a1 a2) fun _ => done 0
  | some .getpid => .call .getpid fun pid => done (pid.signExtend 64)
  | some .time => .call .time done
  | some .clock => .call .clockGettime fun ts => done (ts.1 * 1000000000 + ts.2)
  | some .isatty => .call (.isatty (a1.setWidth 32)) fun rc => done (rc.signExtend 64)
  | some .threadSpawn =>
    .call (.vmThreadCreate a1 (if a2 ≠ 0 then a2 else 64 * 1024)) done
  | some .threadJoin =>
    if a1 = 0 then failed
    else .call (.vmThreadJoin a1) fun _ =>
      .call (.exitCode a1) fun code =>
        .call (.vmThreadDestroy a1) fun _ => done (code.signExtend 64)
  | some .threadDetach =>
    if a1 = 0 then failed else .call (.vmThreadDetach a1) fun _ => done 0
  | some .threadSelf => withSelf caller done
  | some .threadId =>
    withSelf caller fun self : Word =>
      if self ≠ 0 then .call (.threadId self) fun id => done (id.signExtend 64) else done 0
  | some .mutexCreate =>
    .call (.malloc sizeofPthreadMutex) fun (m : Word) =>
      if m = 0 then done 0 else .call (.pthreadMutexInit m) fun _ => done m
  | some .mutexLock =>
    if a1 = 0 then failed else .call (.pthreadMutexLock a1) fun rc => done (rc.signExtend 64)
  | some .mutexUnlock =>
    if a1 = 0 then failed else .call (.pthreadMutexUnlock a1) fun rc => done (rc.signExtend 64)
  | some .mutexDestroy =>
    if a1 = 0 then done 0
    else .call (.pthreadMutexDestroy a1) fun _ => .call (.free a1) fun _ => done 0
  | some .atomicFetchadd => .call (.atomicFetchAdd a1 a2) done
  | some .atomicCmpxchg => .call (.atomicCompareExchange a1 a2 a3) done
  | none => .call (.unknownSyscall nr) fun _ => failed

def dvmSyscall (nr a1 a2 a3 a4 a5 : Word) : SysProg := dispatch 0 nr a1 a2 a3 a4 a5

def dvmSyscallFrom (caller nr a1 a2 a3 a4 a5 : Word) : SysProg :=
  dispatch caller nr a1 a2 a3 a4 a5

/-! ## 5. Unknown numbers -/

/-- The dispatch of `nr` returns -1 with all ones in `*ret`, whatever answers; it makes no call
of a known system call; and it is the dispatch of no known number. -/
structure UnknownInert (caller nr a1 a2 a3 a4 a5 : Word) : Prop where
  returns : ∀ env : Env HostCall.Answer, env.Returns →
    ((dispatch caller nr a1 a2 a3 a4 a5).run env []).2 = some (-1, BitVec.allOnes 64)
  inert : ∀ env : Env HostCall.Answer,
    ∀ c ∈ ((dispatch caller nr a1 a2 a3 a4 a5).run env []).1, ¬ c.IsEffect
  unlike : ∀ k : Word, k.toNat < dvmSysCount →
    dispatch caller nr a1 a2 a3 a4 a5 ≠ dispatch caller k a1 a2 a3 a4 a5

section

variable {caller nr a1 a2 a3 a4 a5 : Word}

theorem dispatch_default (h : sysCase (enumValue nr) = none) :
    dispatch caller nr a1 a2 a3 a4 a5 = .call (.unknownSyscall nr) fun _ => failed := by
  rw [dispatch, h]

/-- A known number does not begin with the message. -/
theorem dispatch_case {s : DvmSyscall} (h : sysCase (enumValue nr) = some s) {n : Word}
    {k : HostCall.Answer (.unknownSyscall n) → SysProg} :
    dispatch caller nr a1 a2 a3 a4 a5 ≠ .call (.unknownSyscall n) k := by
  intro heq
  rw [dispatch, h] at heq
  cases s
  case threadJoin | threadDetach | mutexLock | mutexUnlock | mutexDestroy =>
    simp only at heq
    split at heq <;> cases heq
  case threadSelf | threadId =>
    simp only [withSelf] at heq
    split at heq <;> cases heq
  all_goals cases heq

/-- Numbers with the same low half are told apart by the message only. -/
theorem dispatch_congr {nr' : Word} {s : DvmSyscall} (h : sysCase (enumValue nr) = some s)
    (heq : enumValue nr' = enumValue nr) :
    dispatch caller nr' a1 a2 a3 a4 a5 = dispatch caller nr a1 a2 a3 a4 a5 := by
  rw [dispatch, dispatch, heq, h]
  cases s <;> rfl

end

theorem toNat_enumValue (nr : Word) : (enumValue nr).toNat = nr.toNat % 2 ^ 32 :=
  BitVec.toNat_setWidth _ _

/-- A known number is its own value in the enumeration. -/
theorem toNat_enumValue_known {k : Word} (h : k.toNat < dvmSysCount) :
    (enumValue k).toNat = k.toNat := by
  rw [toNat_enumValue]
  refine Nat.mod_eq_of_lt (Nat.lt_trans h ?_)
  decide

/-- The call of an unknown number and its answer. -/
theorem run_default (env : Env HostCall.Answer) {caller nr a1 a2 a3 a4 a5 : Word}
    (h : sysCase (enumValue nr) = none) :
    ((dispatch caller nr a1 a2 a3 a4 a5).run env []).1 = [.unknownSyscall nr] ∧
      (env.Returns →
        ((dispatch caller nr a1 a2 a3 a4 a5).run env []).2 = some (-1, BitVec.allOnes 64)) := by
  rw [dispatch_default h]
  cases ha : env [] (.unknownSyscall nr) with
  | none =>
    rw [Prog.run_call_none ha]
    refine ⟨rfl, fun henv => ?_⟩
    have hsome := henv [] (.unknownSyscall nr) ()
    rw [ha] at hsome
    cases hsome
  | some a =>
    rw [Prog.run_call_some ha]
    exact ⟨rfl, fun _ => rfl⟩

/-- A number is inert exactly if its low 32 bits are no known number. -/
theorem unknownInert_iff (caller nr a1 a2 a3 a4 a5 : Word) :
    UnknownInert caller nr a1 a2 a3 a4 a5 ↔ dvmSysCount ≤ nr.toNat % 2 ^ 32 := by
  rw [← toNat_enumValue]
  constructor
  · intro h
    by_contra hlt
    rw [Nat.not_le] at hlt
    -- the known number with the same low half
    let k : Word := (enumValue nr).setWidth 64
    have hk : k.toNat = (enumValue nr).toNat := by
      rw [BitVec.toNat_setWidth]
      exact Nat.mod_eq_of_lt (Nat.lt_of_lt_of_le (enumValue nr).isLt (by decide))
    have hcase : enumValue k = enumValue nr := by
      apply BitVec.eq_of_toNat_eq
      rw [toNat_enumValue_known (hk ▸ hlt), hk]
    obtain ⟨s, hs⟩ : ∃ s, sysCase (enumValue k) = some s := by
      refine Option.ne_none_iff_exists'.mp fun hnone => ?_
      rw [hcase] at hnone
      exact absurd (sysCase_eq_none_iff.mp hnone) (Nat.not_le.mpr hlt)
    exact h.unlike k (hk ▸ hlt) (dispatch_congr hs hcase.symm)
  · intro h
    have hnone : sysCase (enumValue nr) = none := sysCase_eq_none_iff.mpr h
    refine ⟨fun env henv => (run_default env hnone).2 henv, fun env c hc => ?_, ?_⟩
    · rw [(run_default env hnone).1, List.mem_singleton] at hc
      subst hc
      exact id
    · intro k hk heq
      obtain ⟨s, hs⟩ : ∃ s, sysCase (enumValue k) = some s := by
        refine Option.ne_none_iff_exists'.mp fun hno => ?_
        have := sysCase_eq_none_iff.mp hno
        rw [toNat_enumValue_known hk] at this
        omega
      rw [dispatch_default hnone] at heq
      exact dispatch_case hs heq.symm

/-- `exit` with status 7, and a `write` of 5 bytes to the standard output, by numbers that are
not system calls. -/
theorem large_number_exits :
    dvmSysCount ≤ (0x100000000 : Word).toNat ∧
      (∀ env, (dvmSyscall 0x100000000 7 0 0 0 0).run env [] = ([.exit 7], none)) ∧
      (∀ env, .write 1 0x1000 5 ∈ ((dvmSyscall 0x100000002 1 0x1000 5 0 0).run env []).1) ∧
      ¬ UnknownInert 0 0x100000000 7 0 0 0 0 ∧ ¬ UnknownInert 0 0x100000002 1 0x1000 5 0 0 := by
  have hexit : ∀ env, (dvmSyscall 0x100000000 7 0 0 0 0).run env [] = ([.exit 7], none) := by
    intro env
    show (Prog.call (.exit 7) Empty.elim : SysProg).run env [] = _
    cases ha : env [] (.exit 7) with
    | none => exact Prog.run_call_none ha _
    | some a => exact Empty.elim a
  have hwrite : ∀ env,
      .write 1 0x1000 5 ∈ ((dvmSyscall 0x100000002 1 0x1000 5 0 0).run env []).1 := by
    intro env
    exact Prog.mem_run_call env [] (.write 1 0x1000 5) done
  refine ⟨by decide, hexit, hwrite, fun h => ?_, fun h => ?_⟩
  · exact h.inert (fun _ _ => none) (.exit 7) (Prog.mem_run_call _ [] _ _) trivial
  · exact h.inert (fun _ _ => none) _ (hwrite _) trivial

/-! ## 6. The instruction -/

/-- The system call of `op_syscall`, `caller` being the thread's record. -/
def opSyscall (caller : Word) (t : VMThread) : SysProg :=
  dvmSyscallFrom caller (t.gpr regAx) (t.gpr regBx) (t.gpr regCx) (t.gpr regDx) (t.gpr regDi)
    (t.gpr regSi)

/-- An unknown number leaves all ones in `ax`, and memory as it was. -/
theorem exec_syscall_unknown {t : VMThread} {env : Env HostCall.Answer} (henv : env.Returns)
    (h : dvmSysCount ≤ (t.gpr regAx).toNat % 2 ^ 32) (caller : Word) (o : Operands) (m : Mem) :
    exec (((opSyscall caller t).run env []).2.map fun r => (r.2, m)) .syscall o t m
      = .next (t.setReg regAx (BitVec.allOnes 64)) m := by
  have hnone : sysCase (enumValue (t.gpr regAx)) = none := by
    rw [← toNat_enumValue] at h
    exact sysCase_eq_none_iff.mpr h
  rw [opSyscall, dvmSyscallFrom, (run_default env hnone).2 henv]
  rfl

end Dvm
