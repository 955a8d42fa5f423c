/-
# Guest threads with memory of their own

An instruction depends on memory only by what it reads, and changes only what it writes
(`exec_local`).  So guest threads that do not write what another one reads or
writes do not see each other.  It is enough that each thread keeps to memory of its own, and to
memory that no thread writes such as the code, when it runs alone: then it does in every mixture of
the threads' instructions what it does alone, and all complete mixtures end in the same state
(`guests_isolated`).  All this is up to the threads' next system calls.
-/
import Dvm.Base.Isolated
import Dvm.Vm.Footprint
import Dvm.Vm.Guests

namespace Dvm

open Bytes ByteMem Runs

/-! ## 1. The interpreter as a machine -/

/-- One instruction of a thread, unless it is a system call or does not end. -/
def plainStep (t : VMThread) (m : Mem) : Option (VMThread × Mem) :=
  if t.state = .running then
    match step none t m with
    | .next t' m' => some (t', m')
    | .halted t' m' => some (t', m')
    | _ => none
  else none

/-- The instruction of a running thread. -/
def VMThread.current (t : VMThread) (m : Mem) : Option (Op × Operands) :=
  if t.state = .running then fetchInstr m t.ip else none

/-- The bytes of the instruction and what it loads. -/
def plainReads (t : VMThread) (m : Mem) : Set Word :=
  {x | (t.state = .running ∧ x = t.ip) ∨ ∃ i, t.current m = some i ∧
    (InBlock t.ip i.1.size x ∨ InBlock (loadedBlock i.1 i.2 t).1 (loadedBlock i.1 i.2 t).2 x)}

/-- What it stores. -/
def plainWrites (t : VMThread) (m : Mem) : Set Word :=
  {x | ∃ i, t.current m = some i ∧
    InBlock (storedBytes i.1 i.2 t).1 (storedBytes i.1 i.2 t).2.length x}

section Plain

variable {t t' : VMThread} {m m₁ m' : Mem}

theorem loadedBlock_lt (op : Op) (o : Operands) (t : VMThread) :
    (loadedBlock op o t).2 < 2 ^ 64 := by
  have hle : (loadedBlock op o t).2 ≤ 8 := by
    cases op <;> exact Nat.le_of_ble_eq_true rfl
  omega

/-- The instruction depends on its own bytes. -/
theorem current_congr (h : ∀ x ∈ plainReads t m, m₁ x = m x) : t.current m₁ = t.current m := by
  by_cases hrun : t.state = .running
  · have hip : m₁ t.ip = m t.ip := h t.ip (.inl ⟨hrun, rfl⟩)
    rw [VMThread.current, VMThread.current, if_pos hrun, if_pos hrun, fetchInstr, fetchInstr, hip]
    cases hop : Op.ofCode (m t.ip) with
    | none => rfl
    | some op =>
      have hcur : t.current m
          = some (op, op.shape.fetch (readBytes m (t.ip + 1) op.shape.size)) := by
        rw [VMThread.current, if_pos hrun, fetchInstr, hop]
        rfl
      have hsize : op.size < 2 ^ 64 := by
        cases op <;> decide
      have hbytes : readBytes m₁ (t.ip + 1) op.shape.size
          = readBytes m (t.ip + 1) op.shape.size := by
        refine readBytes_congr (Nat.lt_of_le_of_lt (Nat.le_add_left _ 1) hsize) fun x hx => ?_
        exact h x (.inr ⟨_, hcur, .inl (inBlock_of_sub (p := 1) (Nat.le_refl _) hsize hx)⟩)
      rw [Option.map_some, Option.map_some, hbytes]
  · rw [VMThread.current, VMThread.current, if_neg hrun, if_neg hrun]

theorem of_mem_plainReads {i : Op × Operands} (hi : t.current m = some i) {x : Word}
    (hx : x ∈ plainReads t m) : InBlock t.ip i.1.size x ∨
      InBlock (loadedBlock i.1 i.2 t).1 (loadedBlock i.1 i.2 t).2 x := by
  rcases hx with ⟨-, rfl⟩ | ⟨j, hj, hx⟩
  · refine .inl ?_
    rw [InBlock, BitVec.sub_self, Op.size]
    exact Nat.lt_of_lt_of_le Nat.zero_lt_one (Nat.le_add_right _ _)
  · obtain rfl := Option.some.inj (hi.symm.trans hj)
    exact hx

theorem of_mem_plainWrites {i : Op × Operands} (hi : t.current m = some i) {x : Word}
    (hx : x ∈ plainWrites t m) :
    InBlock (storedBytes i.1 i.2 t).1 (storedBytes i.1 i.2 t).2.length x := by
  obtain ⟨j, hj, hx⟩ := hx
  obtain rfl := Option.some.inj (hi.symm.trans hj)
  exact hx

theorem plainStep_of_current {i : Op × Operands} (h : t.current m = some i) :
    plainStep t m = match exec none i.1 i.2 (t.fetched i.1) m with
      | .next t' m' => some (t', m')
      | .halted t' m' => some (t', m')
      | _ => none := by
  obtain ⟨op, o⟩ := i
  unfold VMThread.current at h
  split at h
  · next hrun => rw [plainStep, if_pos hrun, step_of_fetch h]
  · cases h

theorem plainStep_next {i : Op × Operands} (h : t.current m = some i)
    (hleaves : (exec none i.1 i.2 (t.fetched i.1) m).Leaves t' m') :
    plainStep t m = some (t', m') := by
  rw [plainStep_of_current h]
  rcases hleaves with hout | hout <;> rw [hout]

theorem plainStep_of_none (h : t.current m = none) : plainStep t m = none := by
  unfold VMThread.current at h
  split at h
  · next hrun =>
    rw [plainStep, if_pos hrun, step, h]
  · next hrun => rw [plainStep, if_neg hrun]

/-- What an instruction does in another memory with the same bytes where it reads. -/
theorem exec_current {i : Op × Operands} (hi : t.current m = some i)
    (h : ∀ x ∈ plainReads t m, m₁ x = m x) :
    exec none i.1 i.2 (t.fetched i.1) m₁
      = (exec none i.1 i.2 (t.fetched i.1) m).withMem (written i.1 i.2 t m₁) := by
  have hload : readBytes m₁ (loadedBlock i.1 i.2 t).1 (loadedBlock i.1 i.2 t).2
      = readBytes m (loadedBlock i.1 i.2 t).1 (loadedBlock i.1 i.2 t).2 :=
    readBytes_congr (loadedBlock_lt _ _ _) fun x hx => h x (.inr ⟨i, hi, .inr hx⟩)
  rw [← loadedBlock_fetched] at hload
  rw [exec_local hload, written, storedBytes_fetched]
  rfl

theorem plainStep_stuck (h : ∀ x ∈ plainReads t m, m₁ x = m x) (hnone : plainStep t m = none) :
    plainStep t m₁ = none := by
  cases hi : t.current m with
  | none => exact plainStep_of_none ((current_congr h).trans hi)
  | some i =>
    rw [plainStep_of_current ((current_congr h).trans hi), exec_current hi h]
    rw [plainStep_of_current hi] at hnone
    cases hout : exec none i.1 i.2 (t.fetched i.1) m <;> rw [hout] at hnone <;> cases hnone <;> rfl

/-- What a step stores in another memory with the same bytes where it reads. -/
theorem plainStep_goes (h : ∀ x ∈ plainReads t m, m₁ x = m x)
    (hstep : plainStep t m = some (t', m')) :
    ∃ m₁', plainStep t m₁ = some (t', m₁') ∧ (∀ x ∈ plainWrites t m, m₁' x = m' x) ∧
      ∀ x, x ∉ plainWrites t m → m₁' x = m₁ x := by
  cases hi : t.current m with
  | none =>
    rw [plainStep_of_none hi] at hstep
    cases hstep
  | some i =>
    have hself := exec_current hi fun x _ => rfl
    have hm' : m' = written i.1 i.2 t m := by
      rw [plainStep_of_current hi, hself] at hstep
      cases hout : exec none i.1 i.2 (t.fetched i.1) m <;> rw [hout] at hstep <;> cases hstep <;>
        rfl
    refine ⟨written i.1 i.2 t m₁, ?_, fun x hx => ?_, fun x hx => ?_⟩
    · rw [plainStep_of_current ((current_congr h).trans hi), exec_current hi h]
      rw [plainStep_of_current hi] at hstep
      cases hout : exec none i.1 i.2 (t.fetched i.1) m <;> rw [hout] at hstep <;> cases hstep <;>
        rfl
    · obtain ⟨j, hj, hin⟩ := hx
      obtain rfl := Option.some.inj (hi.symm.trans hj)
      rw [hm', written, written, writeBytes, writeBytes, List.getElem?_eq_getElem hin]
      rfl
    · refine writeBytes_of_not_inBlock _ fun hin => hx ⟨i, hi, hin⟩

end Plain

/-- The threads of the interpreter, as machines on memory. -/
def interpreter : Isolated.Machine VMThread Word Byte where
  step := plainStep
  reads := plainReads
  writes := plainWrites
  stuck := plainStep_stuck
  goes := plainStep_goes

theorem interpreter_step (t : VMThread) (m : Mem) : interpreter.step t m = plainStep t m := rfl

/-- A thread that does not run reads and writes nothing. -/
theorem confined_of_not_running {own ro : Set Word} {t : VMThread} (h : t.state ≠ .running)
    (m : Mem) : interpreter.Confined own ro t m := by
  have hnone : t.current m = none := if_neg h
  refine .of_stuck ((interpreter_step t m).trans (plainStep_of_none hnone)) ?_ ?_
  · rintro x (⟨hrun, -⟩ | ⟨i, hi, -⟩)
    · exact absurd hrun h
    · rw [hnone] at hi
      cases hi
  · rintro x ⟨i, hi, -⟩
    rw [hnone] at hi
    cases hi

/-! ## 2. Guest threads -/

def Guests.system (g : Guests) : Isolated.System Nat VMThread Word Byte := ⟨g.thread, g.mem⟩

/-- The thread of an instruction that is no system call. -/
def GuestEv.plain : GuestEv → Option Nat
  | .exec i op _ _ _ => if op = .syscall then none else some i
  | _ => none

/-- A step of a thread that is no system call. -/
def PlainGuestStep (g : Guests) (e : GuestEv) (g' : Guests) : Prop := g.Step e g' ∧ e.plain.isSome

section Guests

variable {g₀ g g' : Guests} {e : GuestEv} {es : List GuestEv} {own : Nat → Set Word} {ro : Set Word}

theorem Outcome.Leaves.plainStep {t t' : VMThread} {m m' : Mem} (hrun : t.state = .running)
    (h : (step none t m).Leaves t' m') : plainStep t m = some (t', m') := by
  rw [Dvm.plainStep, if_pos hrun]
  rcases h with h | h <;> rw [h]

theorem PlainGuestStep.isolated (h : PlainGuestStep g e g') :
    ∃ i, e.plain = some i ∧ Isolated.Step interpreter g.system i g'.system ∧
      g'.mutex = g.mutex := by
  obtain ⟨hstep, hplain⟩ := h
  cases hstep with
  | @exec i t t' m' op o ht hrun hf hop hleaves =>
    refine ⟨i, if_neg hop, ?_, rfl⟩
    have hnext : (g.setThread i t' ⟨m', g.mutex⟩).system
        = ⟨Function.update g.system.thread i (some t'), m'⟩ := by
      refine congrArg₂ Isolated.System.mk (funext fun j => ?_) rfl
      exact (Function.update_apply _ _ _ _).symm
    rw [hnext]
    exact .step ht (hleaves.plainStep hrun)
  | syscall _ _ _ _ => cases hplain
  | start _ => cases hplain
  | host m' => cases hplain

theorem Run.isolated (h : Run PlainGuestStep g₀ es g) :
    Run (Isolated.Step interpreter) g₀.system (es.filterMap GuestEv.plain) g.system ∧
      g.mutex = g₀.mutex := by
  refine Run.invariant (I := fun es g => Run (Isolated.Step interpreter) g₀.system
    (es.filterMap GuestEv.plain) g.system ∧ g.mutex = g₀.mutex) ⟨.start, rfl⟩ ?_ h
  rintro es g e g' - ⟨hrun, hmutex⟩ hs
  obtain ⟨i, hplain, hstep, hkept⟩ := hs.isolated
  have happ : (es ++ [e]).filterMap GuestEv.plain = es.filterMap GuestEv.plain ++ [i] := by
    simp [List.filterMap_append, hplain]
  rw [happ, hkept]
  exact ⟨hrun.next hstep, hmutex⟩

/-- Guest threads that keep to memory of their own when they run alone do in every mixture of
their instructions what they do alone, and all mixtures with as many instructions of each thread,
and all that cannot go on, end in the same state.  A thread that stands at a system call is one that
cannot go on. -/
theorem guests_isolated (hr : Isolated.Regions interpreter own ro g₀.system)
    (h : Run PlainGuestStep g₀ es g) :
    Isolated.Apart interpreter own g₀.system (es.filterMap GuestEv.plain) g.system ∧
      ∀ fs g', Run PlainGuestStep g₀ fs g' →
        ((∀ i, (es.filterMap GuestEv.plain).count i = (fs.filterMap GuestEv.plain).count i) ∨
          (Isolated.Done interpreter g.system ∧ Isolated.Done interpreter g'.system)) →
        g = g' := by
  obtain ⟨hrun, hmutex⟩ := Run.isolated h
  refine ⟨hr.run hrun, fun fs g' h' hsame => ?_⟩
  obtain ⟨hrun', hmutex'⟩ := Run.isolated h'
  have hsystem : g.system = g'.system := by
    rcases hsame with hcount | ⟨hdone, hdone'⟩
    · exact hr.same_counts hrun hrun' hcount
    · exact hr.same_end hrun hdone hrun' hdone'
  obtain ⟨hthread, hmem⟩ := (Isolated.System.mk.injEq _ _ _ _).mp hsystem
  obtain ⟨⟨mem, mutex⟩, thread⟩ := g
  obtain ⟨⟨mem', mutex'⟩, thread'⟩ := g'
  obtain rfl : mem = mem' := hmem
  obtain rfl : thread = thread' := hthread
  obtain rfl : mutex = mutex' := hmutex.trans hmutex'.symm
  rfl

end Guests

/-- `PUSH ax` and `HALT` at 0x1000. -/
def pushCode : Mem := fun x =>
  if x = 0x1000 then Op.push.code else if x = 0x1002 then Op.halt.code else 0

/-- Two threads that run it, with stacks at 0x8000 and 0x9000. -/
def pushers : Guests where
  mem := pushCode
  mutex _ := none
  thread i := if i = 0 then some (vmRun 0x8000 0x1000 0x100)
    else if i = 1 then some (vmRun 0x9000 0x1000 0x100) else none

/-- The threads' stacks. -/
def pusherStack (i : Nat) : Set Word :=
  {x | (i = 0 ∧ InBlock 0x8000 0x100 x) ∨ (i = 1 ∧ InBlock 0x9000 0x100 x)}

def pusherText : Set Word := {x | InBlock 0x1000 3 x}

theorem plainStep_halt {t : VMThread} {m : Mem} (h : t.current m = some (.halt, {})) :
    plainStep t m
      = some ({ t.fetched .halt with state := .finished, vmStack := none }, m) := by
  refine plainStep_next h (.inr ?_)
  rfl

/-- The thread and memory after `PUSH`. -/
def pushed (stack : Word) : VMThread × Mem :=
  let t := (vmRun stack 0x1000 0x100).fetched .push
  ({ t with sp := t.sp - 8 }, store 8 pushCode (t.sp - 8) (t.gpr 0))

theorem pusher_confined {stack : Word} {own : Set Word} (hstack : stack = 0x8000 ∨ stack = 0x9000)
    (hown : ∀ x, InBlock stack 0x100 x → x ∈ own) :
    interpreter.Confined own pusherText (vmRun stack 0x1000 0x100) pushCode := by
  have hcur : (vmRun stack 0x1000 0x100).current pushCode = some (.push, {}) := by
    rcases hstack with rfl | rfl <;> decide +kernel
  have hpush : interpreter.step (vmRun stack 0x1000 0x100) pushCode
      = some ((pushed stack).1, (pushed stack).2) := plainStep_next hcur (.inl rfl)
  refine .of_step hpush ?_ ?_ ?_
  · intro x hx
    rcases of_mem_plainReads hcur hx with hx | hx
    · exact .inr (Nat.lt_of_lt_of_le hx (by decide))
    · exact absurd hx (Nat.not_lt_zero _)
  · intro x hx
    have hin : InBlock (stack + 0x100 - 8) 8 x := of_mem_plainWrites hcur hx
    refine hown x ?_
    unfold InBlock at hin ⊢
    bv_omega
  · have hcur' : (pushed stack).1.current (pushed stack).2 = some (.halt, {}) := by
      rcases hstack with rfl | rfl <;> decide +kernel
    have hip : (pushed stack).1.ip = 0x1002 := by
      rcases hstack with rfl | rfl <;> decide +kernel
    have hhalt := (interpreter_step _ _).trans (plainStep_halt hcur')
    refine .of_step hhalt ?_ ?_ (confined_of_not_running VMThreadState.noConfusion _)
    · intro x hx
      rcases of_mem_plainReads hcur' hx with hx | hx
      · refine .inr ?_
        rw [hip] at hx
        exact inBlock_of_sub (p := 2) (by decide) (by decide) hx
      · exact absurd hx (Nat.not_lt_zero _)
    · intro x hx
      exact absurd (of_mem_plainWrites hcur' hx) (Nat.not_lt_zero _)

/-- A thread pushes `ax`. -/
theorem Guests.push_step {g : Guests} {i : Nat} {t : VMThread} (ht : g.thread i = some t)
    (hrun : t.state = .running) (hf : fetchInstr g.mem t.ip = some (.push, {})) :
    ∃ t' g', g.Step (.exec i .push {} t t') g' ∧ (∀ j, j ≠ i → g'.thread j = g.thread j) ∧
      g'.mem = store 8 g.mem (t.sp - 8) (t.gpr 0) :=
  ⟨_, _, .exec ht hrun hf (by decide) (.inl (step_of_fetch hf)),
    fun _ hj => Guests.setThread_ne _ _ _ hj, rfl⟩

theorem pushers_isolated : ∃ es g, Run PlainGuestStep pushers es g ∧
    es.filterMap GuestEv.plain = [0, 1] ∧
    Isolated.Apart interpreter pusherStack pushers.system (es.filterMap GuestEv.plain) g.system ∧
      ∀ fs g', Run PlainGuestStep pushers fs g' →
        ((∀ i, (es.filterMap GuestEv.plain).count i = (fs.filterMap GuestEv.plain).count i) ∨
          (Isolated.Done interpreter g.system ∧ Isolated.Done interpreter g'.system)) →
        g = g' := by
  have hregions : Isolated.Regions interpreter pusherStack pusherText pushers.system := by
    refine ⟨?_, ?_, ?_⟩
    · rintro i j hij x (⟨rfl, hx⟩ | ⟨rfl, hx⟩) (⟨rfl, hx'⟩ | ⟨rfl, hx'⟩)
      · exact hij rfl
      · unfold InBlock at hx hx'
        bv_omega
      · unfold InBlock at hx hx'
        bv_omega
      · exact hij rfl
    · rintro i x (⟨rfl, hx⟩ | ⟨rfl, hx⟩) hx'
      · have hin : InBlock 0x1000 3 x := hx'
        unfold InBlock at hx hin
        bv_omega
      · have hin : InBlock 0x1000 3 x := hx'
        unfold InBlock at hx hin
        bv_omega
    · intro i t ht
      match i with
      | 0 =>
        obtain rfl := Option.some.inj ht
        exact pusher_confined (.inl rfl) fun x hx => .inl ⟨rfl, hx⟩
      | 1 =>
        obtain rfl := Option.some.inj ht
        exact pusher_confined (.inr rfl) fun x hx => .inr ⟨rfl, hx⟩
      | n + 2 => cases ht
  have hfetch : fetchInstr pushCode 0x1000 = some (.push, {}) := by decide +kernel
  have ht : pushers.thread 0 = some (vmRun 0x8000 0x1000 0x100) := rfl
  obtain ⟨t, g, hfirst, hothers, hmem⟩ := Guests.push_step ht rfl hfetch
  have ht' : g.thread 1 = some (vmRun 0x9000 0x1000 0x100) := hothers 1 (by decide)
  have hfetch' : fetchInstr g.mem 0x1000 = some (.push, {}) := by
    rw [hmem]
    decide +kernel
  obtain ⟨t', g', hsecond, -, -⟩ := Guests.push_step ht' rfl hfetch'
  have hrun : Run PlainGuestStep pushers _ _ := .next (.single ⟨hfirst, rfl⟩) ⟨hsecond, rfl⟩
  exact ⟨_, _, hrun, rfl, guests_isolated hregions hrun⟩

end Dvm
