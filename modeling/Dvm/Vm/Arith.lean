/-
# The arithmetic of the integer instructions in C

The handlers of the integer instructions compute with `uint64_t`, some of them with casts to
`int64_t`.  `Op.value` is the expression that such a handler stores, as it stands in the source.
Where it has a value, the interpreter of `Dvm.Vm.Exec` computes that value (`exec_value`), and it
has one but for four isolated cases (`arithDefined_iff`): `IMUL` and `NEG` overflow a signed
type, `IDIV` does for the least quotient, which its check of the divisor lets through, and `MOD`
does not check its divisor at all.
-/
import Dvm.Base.CExpr
import Dvm.Vm.Exec

namespace Dvm

open ByteMem CExpr

/-! ## 1. The handlers -/

/-- The registers that the expressions read, `G(d)` and `G(s)`. -/
inductive AluVar where
  | d | s
  deriving DecidableEq

/-- An expression of type `uint64_t`. -/
abbrev AluExpr := Expr AluVar 64 .unsigned

/-- `G(d)`. -/
def aluD : AluExpr := .var .d

/-- `G(s)`. -/
def aluS : AluExpr := .var .s

/-- `(int64_t)e`. -/
def AluExpr.signed (e : AluExpr) : Expr AluVar 64 .signed := .cast .signed e

/-- `G(s)&63`. -/
def aluCount : AluExpr := .bit .and aluS (.const 63)

/-- What the handler of an integer instruction stores in its destination. -/
def Op.value : Op → Option AluExpr
  | .add => some (.arith .add aluD aluS)
  | .sub => some (.arith .sub aluD aluS)
  | .mul => some (.arith .mul aluD aluS)
  | .imul => some (.cast .unsigned (.arith .mul aluD.signed aluS.signed))
  | .div => some (.arith .div aluD aluS)
  | .idiv => some (.cast .unsigned (.arith .div aluD.signed aluS.signed))
  | .mod => some (.arith .rem aluD aluS)
  | .neg => some (.cast .unsigned (.neg aluD.signed))
  | .and => some (.bit .and aluD aluS)
  | .or => some (.bit .or aluD aluS)
  | .xor => some (.bit .xor aluD aluS)
  | .not => some (.compl aluD)
  | .shl => some (.shl aluD aluCount)
  | .shr => some (.shr aluD aluCount)
  | .sar => some (.cast .unsigned (.shr aluD.signed aluCount))
  | _ => none

/-- Whether the handler aborts if `G(s)` is 0. -/
def Op.checksZero : Op → Bool
  | .div | .idiv => true
  | _ => false

/-- The registers of an instruction. -/
def VMThread.operands (t : VMThread) (o : Operands) : AluVar → Word
  | .d => t.gpr o.d
  | .s => t.gpr o.s

/-- The handler takes its own abort, or the behaviour of its expression is defined. -/
def ArithDefined (op : Op) (o : Operands) (t : VMThread) : Prop :=
  ∀ e, op.value = some e →
    (op.checksZero = true ∧ t.gpr o.s = 0) ∨ (e.eval (t.operands o)).isSome = true

/-- The operands for which an instruction has no defined result. -/
def Op.Exceptional (op : Op) (a b : Word) : Prop :=
  match op with
  | .imul => ¬ Represents 64 (a.toInt * b.toInt)
  | .idiv => a = BitVec.intMin 64 ∧ b = -1
  | .mod => b = 0
  | .neg => a = BitVec.intMin 64
  | _ => False

/-! ## 2. What the expressions mean -/

/-- The value of the expression; `none` where it has none. -/
def Op.alu (op : Op) (a b : Word) : Option Word :=
  match op with
  | .add => some (a + b)
  | .sub => some (a - b)
  | .mul => some (a * b)
  | .imul => if Represents 64 (a.toInt * b.toInt) then some (a * b) else none
  | .div => if b = 0 then none else some (a / b)
  | .idiv => if b = 0 ∨ (a = BitVec.intMin 64 ∧ b = -1) then none else some (a.sdiv b)
  | .mod => if b = 0 then none else some (a % b)
  | .neg => if a = BitVec.intMin 64 then none else some (-a)
  | .and => some (a &&& b)
  | .or => some (a ||| b)
  | .xor => some (a ^^^ b)
  | .not => some (~~~a)
  | .shl => some (a <<< (b &&& 63))
  | .shr => some (a >>> (b &&& 63))
  | .sar => some (a.sshiftRight (b &&& 63).toNat)
  | _ => none

/-- A masked shift count. -/
theorem count_lt (b : Word) : (b &&& 63).toNat < 64 := by
  rw [BitVec.toNat_and]
  exact Nat.lt_of_le_of_lt Nat.and_le_right (by decide)

theorem eval_value {op : Op} {e : AluExpr} (h : op.value = some e) (ρ : AluVar → Word) :
    e.eval ρ = op.alu (ρ .d) (ρ .s) := by
  cases op <;> cases h
  case add => exact add_unsigned _ _
  case sub => exact sub_unsigned _ _
  case mul => exact mul_unsigned _ _
  case imul => exact mul_signed _ _
  case div => exact div_unsigned _ _
  case idiv => exact div_signed _ _ (by decide)
  case mod => exact rem_unsigned _ _
  case neg => exact neg_signed _ (by decide)
  case and => rfl
  case or => rfl
  case xor => rfl
  case not => rfl
  case shl => exact shl_unsigned _ (count_lt _)
  case shr => exact shr_unsigned _ (count_lt _)
  case sar => exact shr_signed _ (count_lt _)

/-! ## 3. The interpreter -/

/-- Where the expression has a value, the interpreter stores it. -/
theorem exec_value {op : Op} {e : AluExpr} (h : op.value = some e) {o : Operands} {t : VMThread}
    {v : Word} (hv : e.eval (t.operands o) = some v) (sys : SysAnswer) (m : Mem) :
    exec sys op o t m = .next (t.setReg o.d v) m := by
  rw [eval_value h, VMThread.operands, VMThread.operands] at hv
  cases op <;> cases h
  case idiv =>
    have hne : ¬ (t.gpr o.s = 0 ∨ (t.gpr o.d = BitVec.intMin 64 ∧ t.gpr o.s = -1)) := by
      intro hcase
      rw [Op.alu, if_pos hcase] at hv
      cases hv
    rw [Op.alu, if_neg hne] at hv
    cases hv
    rw [not_or] at hne
    simp only [exec, if_neg hne.1, if_neg hne.2]
  all_goals
    simp only [Op.alu, Option.ite_none_left_eq_some, Option.ite_none_right_eq_some,
      Option.some.injEq] at hv
  case imul | div | mod | neg =>
    obtain ⟨hcond, rfl⟩ := hv
    simp only [exec, hcond, if_false]
  all_goals
    subst hv
    rfl

/-- The check of the divisor. -/
theorem exec_checksZero {op : Op} (h : op.checksZero = true) {o : Operands} {t : VMThread}
    (hs : t.gpr o.s = 0) (sys : SysAnswer) (m : Mem) :
    exec sys op o t m = .aborted .divZero t := by
  cases op <;> cases h
  case div => exact if_pos hs
  case idiv => exact if_pos hs

/-- What is left when the divisor is checked where the handler checks it. -/
theorem alu_isSome_iff {op : Op} {e : AluExpr} (h : op.value = some e) (a b : Word) :
    (op.checksZero = true ∧ b = 0) ∨ (op.alu a b).isSome = true ↔ ¬ op.Exceptional a b := by
  cases op <;> cases h
  case imul =>
    by_cases hrep : Represents 64 (a.toInt * b.toInt) <;>
      simp [Op.alu, Op.checksZero, Op.Exceptional, hrep]
  case div =>
    refine ⟨fun _ => id, fun _ => ?_⟩
    by_cases hb : b = 0
    · exact .inl ⟨rfl, hb⟩
    · exact .inr (by rw [Op.alu, if_neg hb]; rfl)
  case idiv =>
    by_cases hb : b = 0
    · simp [Op.checksZero, Op.Exceptional, hb]
    by_cases hover : a = BitVec.intMin 64 ∧ b = -1
    · simp [Op.alu, Op.checksZero, Op.Exceptional, hover]
    · have hnot : ¬ (b = 0 ∨ (a = BitVec.intMin 64 ∧ b = -1)) := not_or.mpr ⟨hb, hover⟩
      exact ⟨fun _ => hover, fun _ => .inr (by rw [Op.alu, if_neg hnot]; rfl)⟩
  case mod =>
    by_cases hb : b = 0 <;> simp [Op.alu, Op.checksZero, Op.Exceptional, hb]
  case neg =>
    by_cases ha : a = BitVec.intMin 64 <;> simp [Op.alu, Op.checksZero, Op.Exceptional, ha]
  all_goals simp [Op.alu, Op.Exceptional]

/-- An integer instruction has defined behaviour exactly if its operands are not exceptional. -/
theorem arithDefined_iff (op : Op) (o : Operands) (t : VMThread) :
    ArithDefined op o t ↔ ¬ op.Exceptional (t.gpr o.d) (t.gpr o.s) := by
  cases he : op.value with
  | none =>
    have hnot : ¬ op.Exceptional (t.gpr o.d) (t.gpr o.s) := by
      cases op <;> first | cases he; done | exact id
    exact ⟨fun _ => hnot, fun _ e h => by rw [he] at h; cases h⟩
  | some e =>
    rw [← alu_isSome_iff he]
    have heval := eval_value he (t.operands o)
    constructor
    · intro h
      exact (h e he).imp_right fun hsome => heval ▸ hsome
    · intro h e' he'
      rw [he] at he'
      cases he'
      exact h.imp_right fun hsome => heval.symm ▸ hsome

/-- A thread with the least value, -1 and 0 in its first registers. -/
def edgeThread : VMThread :=
  ((freshThread 0 0 0).setReg regAx (BitVec.intMin 64)).setReg regBx (-1)

/-- `imul ax, bx`, `idiv ax, bx`, `mod ax, cx` and `neg ax` there. -/
theorem edge_undefined :
    ¬ ArithDefined .imul { d := regAx, s := regBx } edgeThread ∧
    ¬ ArithDefined .idiv { d := regAx, s := regBx } edgeThread ∧
    ¬ ArithDefined .mod { d := regAx, s := regCx } edgeThread ∧
    ¬ ArithDefined .neg { d := regAx, s := regAx } edgeThread := by
  refine ⟨fun h => ?_, fun h => ?_, fun h => ?_, fun h => ?_⟩
  all_goals
    have hcase := h _ rfl
    revert hcase
    decide

end Dvm
