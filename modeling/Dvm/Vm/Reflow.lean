/-
# Where a thread stands

`ip`, the shadow stack and the bytecode pointer are what an instruction uses to find the next
one.  The instructions that are no jump, call, return or throw neither read nor write them: they
do the same wherever the thread stands (`exec_straight_withFlow`).
-/
import Dvm.Vm.Run

namespace Dvm

open ByteMem

/-! ## 1. The part of a thread that only the flow of control uses -/

structure FlowPart where
  ip : Word
  shadow : ShadowStack
  bytecode : Word

def VMThread.withFlow (t : VMThread) (f : FlowPart) : VMThread :=
  { t with ip := f.ip, shadow := f.shadow, bytecode := f.bytecode }

@[simp] theorem VMThread.withFlow_ip (t : VMThread) (f : FlowPart) :
    (t.withFlow f).ip = f.ip := rfl
@[simp] theorem VMThread.withFlow_shadow (t : VMThread) (f : FlowPart) :
    (t.withFlow f).shadow = f.shadow := rfl
@[simp] theorem VMThread.withFlow_bytecode (t : VMThread) (f : FlowPart) :
    (t.withFlow f).bytecode = f.bytecode := rfl
@[simp] theorem VMThread.withFlow_gpr (t : VMThread) (f : FlowPart) :
    (t.withFlow f).gpr = t.gpr := rfl
@[simp] theorem VMThread.withFlow_fl (t : VMThread) (f : FlowPart) :
    (t.withFlow f).fl = t.fl := rfl
@[simp] theorem VMThread.withFlow_withFlow (t : VMThread) (f g : FlowPart) :
    (t.withFlow f).withFlow g = t.withFlow g := rfl

/-- The part of a thread that `withFlow` replaces. -/
def VMThread.flow (t : VMThread) : FlowPart := ⟨t.ip, t.shadow, t.bytecode⟩

@[simp] theorem VMThread.withFlow_flow (t : VMThread) : t.withFlow t.flow = t := rfl

/-- The outcome with another thread in it. -/
def Outcome.map (f : VMThread → VMThread) : Outcome → Outcome
  | .next t m => .next (f t) m
  | .halted t m => .halted (f t) m
  | .aborted why t => .aborted why (f t)
  | .exited => .exited
  | .undefined => .undefined

/-! ## 2. Straight instructions -/

/-- A straight instruction does the same wherever the thread stands. -/
theorem exec_straight_withFlow {sys : SysAnswer} {op : Op} {o : Operands} {m : Mem}
    (hop : op.flow = .straight) (t : VMThread) (f : FlowPart) :
    exec sys op o (t.withFlow f) m = (exec sys op o t m).map (·.withFlow f) := by
  cases op
  case div =>
    simp only [exec, VMThread.withFlow_gpr, apply_ite (Outcome.map (·.withFlow f))]
    rfl
  case idiv =>
    simp only [exec, VMThread.withFlow_gpr, apply_ite (Outcome.map (·.withFlow f))]
    rfl
  case mod =>
    simp only [exec, VMThread.withFlow_gpr, apply_ite (Outcome.map (·.withFlow f))]
    rfl
  case ftoi =>
    have hfloat : (t.withFlow f).float o.s = t.float o.s := rfl
    simp only [exec, hfloat, apply_ite (Outcome.map (·.withFlow f))]
    rfl
  case syscall =>
    cases sys with
    | none => rfl
    | some x => rfl
  -- the opcodes of the flow of control are excluded; the other handlers have one case
  all_goals first
    | cases hop; done
    | rfl

end Dvm
