/-
# Memory operands of the interpreter

Some opcodes have a memory operand: a base register, and a displacement where the handler
fetches one.  Whatever the handler does it does at the base plus the displacement (`exec_access`);
which of the two registers of the instruction is the base depends on whether it stores.
-/
import Dvm.Vm.Exec

namespace Dvm

open ByteMem

/-- The opcode of the same access without a displacement. -/
def Op.plain : Op → Op
  | .movRMOff => .movRM
  | .movMROff => .movMR
  | .movzxRM8Off => .movzxRM8
  | .movzxRM16Off => .movzxRM16
  | .movzxRM32Off => .movzxRM32
  | .movsxRM8Off => .movsxRM8
  | .movsxRM16Off => .movsxRM16
  | .movsxRM32Off => .movsxRM32
  | .movMR8Off => .movMR8
  | .movMR16Off => .movMR16
  | .movMR32Off => .movMR32
  | op => op

/-- The opcodes with a memory operand, each access once. -/
def accessOps : List Op :=
  [.movRM, .movzxRM8, .movzxRM16, .movzxRM32, .movsxRM8, .movsxRM16, .movsxRM32, .fmovRM, .lea,
   .movMR, .movMR8, .movMR16, .movMR32, .fmovMR]

/-- The access stores to memory. -/
def Op.Stores (op : Op) : Prop := op.plain ∈ [movMR, movMR8, movMR16, movMR32, fmovMR]

instance Op.Stores.decidable (op : Op) : Decidable op.Stores :=
  inferInstanceAs (Decidable (_ ∈ _))

/-- The base register of a memory access. -/
def memBase (i : Op × Operands) : Reg := if i.1.Stores then i.2.d else i.2.s

/-- The register that is loaded or stored. -/
def memOther (i : Op × Operands) : Reg := if i.1.Stores then i.2.s else i.2.d

/-- The displacement, 0 where the handler fetches none. -/
def memDisp (i : Op × Operands) : Int := if i.1.shape = .regsOff32 then i.2.off.toInt else 0

/-- A memory access of the register `r` at the address `a`. -/
def accessAt (op : Op) (r : Reg) (a : Word) (t : VMThread) (m : Mem) : Outcome :=
  match op with
  | .movRM => .next (t.setReg r (load 8 m a)) m
  | .movzxRM8 => .next (t.setReg r (load 1 m a)) m
  | .movzxRM16 => .next (t.setReg r (load 2 m a)) m
  | .movzxRM32 => .next (t.setReg r (load 4 m a)) m
  | .movsxRM8 => .next (t.setReg r (loadSx 1 m a)) m
  | .movsxRM16 => .next (t.setReg r (loadSx 2 m a)) m
  | .movsxRM32 => .next (t.setReg r (loadSx 4 m a)) m
  | .fmovRM => .next (t.setFp r (load 8 m a)) m
  | .lea => .next (t.setReg r a) m
  | .movMR => .next t (store 8 m a (t.gpr r))
  | .movMR8 => .next t (store 1 m a (t.gpr r))
  | .movMR16 => .next t (store 2 m a (t.gpr r))
  | .movMR32 => .next t (store 4 m a (t.gpr r))
  | .fmovMR => .next t (store 8 m a (t.fp r))
  | _ => .undefined

/-- The handler of a memory access accesses the base plus the displacement. -/
theorem exec_access {op : Op} (hop : op.plain ∈ accessOps) (sys : SysAnswer) (o : Operands)
    (t : VMThread) (m : Mem) :
    exec sys op o t m = accessAt op.plain (memOther (op, o))
      (t.gpr (memBase (op, o)) + BitVec.ofInt 64 (memDisp (op, o))) t m := by
  have hsext : BitVec.ofInt 64 o.off.toInt = sext o.off := rfl
  cases op
  all_goals first
    | exact absurd hop (by decide)
    | simp [exec, accessAt, Op.plain, memBase, memOther, memDisp, Op.Stores, Op.shape, hsext]

end Dvm
