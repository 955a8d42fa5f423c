/-
# A listing and the machine that runs it

What an assembly listing means, without bytes: a list of instructions whose operands are labels,
and a machine that goes through it.  The program counter is the number of an instruction, a frame
is the numbers of the instructions to return to and to throw to.  The machine computes with the
registers and the memory as the handlers of the interpreter do (`exec`), and has no instruction
pointer, no shadow stack and no bytecode pointer.

`mov r, label` and `callr` need an address for an instruction; which one it has is the parameter
`place` of the machine.
-/
import Dvm.Vm.Reflow

namespace Dvm

open ByteMem

/-! ## 1. Instructions with labels -/

/-- An instruction whose code operands are labels of type `ν`. -/
inductive SymInstr (ν : Type) where
  | plain (op : Op) (o : Operands) (straight : op.flow = .straight)
  | jump (op : Op) (dest : ν) (jumps : op.flow = .jump)
  | call (ok err : ν)
  | callr (d : Reg) (err : ν)
  | ret
  | throw
  /-- `mov d, label`. -/
  | addr (d : Reg) (label : ν)
  deriving DecidableEq

def SymInstr.op {ν : Type} : SymInstr ν → Op
  | .plain op _ _ => op
  | .jump op _ _ => op
  | .call _ _ => .call
  | .callr _ _ => .callr
  | .ret => .ret
  | .throw => .throw
  | .addr _ _ => .movRI

/-! ## 2. States -/

/-- The most frames the shadow stack has room for. -/
def frameDepth : Nat := shadowDepth / 2

/-- The machine at an instruction.  Of `regs` the registers and flags are used, not what
`FlowPart` holds. -/
structure ListState where
  pc : Nat
  /-- Return and error targets, the innermost call first. -/
  frames : List (Nat × Nat)
  regs : VMThread
  fits : frames.length ≤ frameDepth

inductive ListOutcome where
  | next (s : ListState) (m : Mem)
  | halted (s : ListState) (m : Mem)
  | aborted (why : Abort) (s : ListState)
  | exited
  | undefined
  /-- Control leaves the listing. -/
  | stray

def ListState.goto (s : ListState) (pc : Nat) : ListState := { s with pc := pc }

def ListState.withRegs (s : ListState) (t : VMThread) : ListState := { s with regs := t }

/-- Call the instruction `dest`; the one at `s.pc` is returned to. -/
def ListState.enter (s : ListState) (dest err : Nat) (m : Mem) : ListOutcome :=
  if h : s.frames.length < frameDepth then
    .next { s with pc := dest, frames := (s.pc, err) :: s.frames, fits := h } m
  else .aborted .shadowOverflow s

/-- Leave the innermost call. -/
def ListState.unwind (s : ListState) (pick : Nat × Nat → Nat) (m : Mem) : ListOutcome :=
  match s with
  | ⟨_, [], _, _⟩ => .aborted .shadowUnderflow s
  | ⟨_, f :: frames, regs, fits⟩ => .next ⟨pick f, frames, regs, Nat.le_of_succ_le fits⟩ m

/-! ## 3. Steps -/

/-- What an instruction that is none of the flow of control leaves. -/
def ListState.after (s : ListState) : Outcome → ListOutcome
  | .next t m => .next (s.withRegs t) m
  | .halted t m => .halted (s.withRegs t) m
  | .aborted why t => .aborted why (s.withRegs t)
  | .exited => .exited
  | .undefined => .undefined

/-- The instruction at an address, or the end of the listing. -/
def instrAt (place : Nat → Word) (n : Nat) (a : Word) : Option Nat :=
  (List.range (n + 1)).find? fun k => place k = a

/-- Instruction `i`, with `pc` behind it, in a listing of `n` instructions. -/
def listExec (n : Nat) (place : Nat → Word) (sys : SysAnswer) (i : SymInstr Nat) (s : ListState)
    (m : Mem) : ListOutcome :=
  match i with
  | .plain op o _ => s.after (exec sys op o s.regs m)
  | .jump op dest _ => .next (if op.taken s.regs.fl then s.goto dest else s) m
  | .call ok err => s.enter ok err m
  | .callr d err =>
    match instrAt place n (s.regs.gpr d) with
    | none => .stray
    | some k => s.enter k err m
  | .ret => s.unwind Prod.fst m
  | .throw => s.unwind Prod.snd m
  | .addr d k => .next (s.withRegs (s.regs.setReg d (place k))) m

def listStep (prog : List (SymInstr Nat)) (place : Nat → Word) (sys : SysAnswer) (s : ListState)
    (m : Mem) : ListOutcome :=
  match prog[s.pc]? with
  | none => .stray
  | some i => listExec prog.length place sys i (s.goto (s.pc + 1)) m

/-- The instruction found at an address has that address. -/
theorem place_of_instrAt {place : Nat → Word} {n k : Nat} {a : Word}
    (h : instrAt place n a = some k) : place k = a := by
  have hk := List.find?_some h
  exact of_decide_eq_true hk

end Dvm
