/-
# Integer expressions of C

Expressions over an unsigned type of `w` bits and the signed type of the same width, as wide as
`int` or wider, so that nothing is promoted.  `Expr.eval` is `none` where C leaves the behaviour
undefined: a divisor of 0, a signed result that its type does not represent, a shift by the
width or more.  A result of the unsigned type wraps, a cast to the signed type keeps the bits,
and a negative value is shifted right with its sign.

An unsigned operator is defined but for a divisor of 0, and computes what the operation on
`BitVec`s of its name does; for the signed ones the exceptions are stated one by one.
-/
import Mathlib.Algebra.Ring.Int.Defs

namespace CExpr

variable {w : Nat}

/-! ## 1. Types and results -/

/-- The integer types. -/
inductive Ty where
  | unsigned | signed
  deriving DecidableEq

/-- The value that some bits stand for. -/
def Ty.val : Ty → BitVec w → Int
  | .unsigned, x => x.toNat
  | .signed, x => x.toInt

/-- The signed type represents the value. -/
def Represents (w : Nat) (n : Int) : Prop := -2 ^ (w - 1) ≤ n ∧ n < 2 ^ (w - 1)

instance (n : Int) : Decidable (Represents w n) := inferInstanceAs (Decidable (_ ∧ _))

/-- The result of an operation whose exact result is `n`. -/
def Ty.result (w : Nat) : Ty → Int → Option (BitVec w)
  | .unsigned, n => some (BitVec.ofInt w n)
  | .signed, n => if Represents w n then some (BitVec.ofInt w n) else none

theorem result_signed {n : Int} (h : Represents w n) :
    Ty.signed.result w n = some (BitVec.ofInt w n) := if_pos h

theorem result_signed_eq_none {n : Int} (h : ¬ Represents w n) : Ty.signed.result w n = none :=
  if_neg h

theorem represents_toInt (hw : 0 < w) (x : BitVec w) : Represents w x.toInt := by
  have hpow : (2 : Int) ^ w = 2 * 2 ^ (w - 1) := by
    rw [← Int.pow_succ', Nat.sub_add_cancel hw]
  have hlo := BitVec.two_mul_toInt_lt (x := x)
  have hhi := BitVec.le_two_mul_toInt (x := x)
  constructor
  · omega
  · omega

/-! ## 2. Operators -/

inductive ArithOp where
  | add | sub | mul | div | rem
  deriving DecidableEq

/-- The remainder has a defined value only if the quotient has one. -/
def ArithOp.eval (op : ArithOp) (ty : Ty) (x y : BitVec w) : Option (BitVec w) :=
  let a := ty.val x
  let b := ty.val y
  match op with
  | .add => ty.result w (a + b)
  | .sub => ty.result w (a - b)
  | .mul => ty.result w (a * b)
  | .div => if b = 0 then none else ty.result w (a.tdiv b)
  | .rem => if b = 0 then none else (ty.result w (a.tdiv b)).bind fun _ => ty.result w (a.tmod b)

inductive BitOp where
  | and | or | xor
  deriving DecidableEq

def BitOp.eval : BitOp → BitVec w → BitVec w → BitVec w
  | .and, x, y => x &&& y
  | .or, x, y => x ||| y
  | .xor, x, y => x ^^^ y

/-- A shift to the left of `a` by `n`. -/
def shlEval (ty : Ty) (x : BitVec w) (n : Int) : Option (BitVec w) :=
  if 0 ≤ n ∧ n < w then
    if ty = .signed ∧ ty.val x < 0 then none else ty.result w (ty.val x * 2 ^ n.toNat)
  else none

/-- A shift to the right. -/
def shrEval (ty : Ty) (x : BitVec w) (n : Int) : Option (BitVec w) :=
  if 0 ≤ n ∧ n < w then ty.result w (ty.val x / 2 ^ n.toNat) else none

/-! ## 3. Expressions -/

/-- An expression of a type, over unsigned variables. -/
inductive Expr (V : Type) (w : Nat) : Ty → Type where
  | var (x : V) : Expr V w .unsigned
  | const (c : BitVec w) : Expr V w .unsigned
  | cast {ty : Ty} (ty' : Ty) (e : Expr V w ty) : Expr V w ty'
  | neg {ty : Ty} (e : Expr V w ty) : Expr V w ty
  | compl {ty : Ty} (e : Expr V w ty) : Expr V w ty
  | arith {ty : Ty} (op : ArithOp) (e f : Expr V w ty) : Expr V w ty
  | bit {ty : Ty} (op : BitOp) (e f : Expr V w ty) : Expr V w ty
  | shl {ty ty' : Ty} (e : Expr V w ty) (n : Expr V w ty') : Expr V w ty
  | shr {ty ty' : Ty} (e : Expr V w ty) (n : Expr V w ty') : Expr V w ty

/-- The bits an expression evaluates to; `none` where its behaviour is undefined. -/
def Expr.eval {V : Type} (ρ : V → BitVec w) : {ty : Ty} → Expr V w ty → Option (BitVec w)
  | _, .var x => some (ρ x)
  | _, .const c => some c
  | _, .cast _ e => e.eval ρ
  | ty, .neg e => (e.eval ρ).bind fun x => ty.result w (-ty.val x)
  | _, .compl e => (e.eval ρ).map fun x => ~~~x
  | ty, .arith op e f => (e.eval ρ).bind fun x => (f.eval ρ).bind fun y => op.eval ty x y
  | _, .bit op e f => (e.eval ρ).bind fun x => (f.eval ρ).map fun y => op.eval x y
  | ty, @Expr.shl _ _ _ ty' e n =>
    (e.eval ρ).bind fun x => (n.eval ρ).bind fun y => shlEval ty x (ty'.val y)
  | ty, @Expr.shr _ _ _ ty' e n =>
    (e.eval ρ).bind fun x => (n.eval ρ).bind fun y => shrEval ty x (ty'.val y)

/-! ## 4. What the operators compute -/

section Unsigned

variable (x y : BitVec w)

theorem add_unsigned : ArithOp.add.eval .unsigned x y = some (x + y) := by
  simp [ArithOp.eval, Ty.result, Ty.val, BitVec.ofInt_add]

theorem sub_unsigned : ArithOp.sub.eval .unsigned x y = some (x - y) := by
  simp [ArithOp.eval, Ty.result, Ty.val, Int.sub_eq_add_neg, BitVec.ofInt_add, BitVec.ofInt_neg,
    BitVec.sub_eq_add_neg]

theorem mul_unsigned : ArithOp.mul.eval .unsigned x y = some (x * y) := by
  simp [ArithOp.eval, Ty.result, Ty.val, BitVec.ofInt_mul]

theorem val_unsigned_eq_zero_iff {y : BitVec w} : Ty.unsigned.val y = 0 ↔ y = 0 := by
  simp [Ty.val, BitVec.toNat_eq]

theorem div_unsigned :
    ArithOp.div.eval .unsigned x y = if y = 0 then none else some (x / y) := by
  have hdiv : BitVec.ofInt w ((x.toNat : Int).tdiv y.toNat) = x / y := by
    rw [Int.tdiv_eq_ediv_of_nonneg (Int.natCast_nonneg _), ← Int.natCast_ediv,
      BitVec.ofInt_natCast, ← BitVec.toNat_udiv, BitVec.ofNat_toNat, BitVec.setWidth_eq]
  simp only [ArithOp.eval, val_unsigned_eq_zero_iff]
  split
  · rfl
  · exact congrArg some hdiv

theorem rem_unsigned :
    ArithOp.rem.eval .unsigned x y = if y = 0 then none else some (x % y) := by
  have hrem : BitVec.ofInt w ((x.toNat : Int).tmod y.toNat) = x % y := by
    rw [Int.tmod_eq_emod_of_nonneg (Int.natCast_nonneg _), ← Int.natCast_emod,
      BitVec.ofInt_natCast, ← BitVec.toNat_umod, BitVec.ofNat_toNat, BitVec.setWidth_eq]
  simp only [ArithOp.eval, val_unsigned_eq_zero_iff]
  split
  · rfl
  · exact congrArg some hrem

end Unsigned

section Shifts

variable (x y : BitVec w)

theorem shl_unsigned {n : Nat} (hn : n < w) : shlEval .unsigned x n = some (x <<< n) := by
  have hlt : (0 : Int) ≤ n ∧ (n : Int) < w := by omega
  have hshl : BitVec.ofInt w (x.toNat * 2 ^ n) = x <<< n := by
    have hcast : (x.toNat : Int) * 2 ^ n = ((x.toNat * 2 ^ n : Nat) : Int) := by push_cast; rfl
    rw [hcast, BitVec.ofInt_natCast]
    apply BitVec.eq_of_toNat_eq
    rw [BitVec.toNat_ofNat, BitVec.toNat_shiftLeft, Nat.shiftLeft_eq]
  rw [shlEval, if_pos hlt, if_neg (by simp)]
  exact congrArg some hshl

theorem shr_unsigned {n : Nat} (hn : n < w) : shrEval .unsigned x n = some (x >>> n) := by
  have hlt : (0 : Int) ≤ n ∧ (n : Int) < w := by omega
  have hshr : BitVec.ofInt w ((x.toNat : Int) / 2 ^ n) = x >>> n := by
    have hcast : (x.toNat : Int) / 2 ^ n = ((x.toNat / 2 ^ n : Nat) : Int) := by push_cast; rfl
    rw [hcast, BitVec.ofInt_natCast, ← Nat.shiftRight_eq_div_pow, ← BitVec.toNat_ushiftRight,
      BitVec.ofNat_toNat, BitVec.setWidth_eq]
  rw [shrEval, if_pos hlt]
  exact congrArg some hshr

theorem shr_signed {n : Nat} (hn : n < w) : shrEval .signed x n = some (x.sshiftRight n) := by
  have hlt : (0 : Int) ≤ n ∧ (n : Int) < w := by omega
  have hval : Ty.signed.val x / 2 ^ n = (x.sshiftRight n).toInt := by
    rw [BitVec.toInt_sshiftRight, Int.shiftRight_eq_div_pow]
    rfl
  have hrep := represents_toInt (Nat.zero_lt_of_lt hn) (x.sshiftRight n)
  rw [shrEval, if_pos hlt, Int.toNat_natCast, hval, result_signed hrep, BitVec.ofInt_toInt]

end Shifts

section Signed

variable (x y : BitVec w)

theorem mul_signed : ArithOp.mul.eval .signed x y
    = if Represents w (x.toInt * y.toInt) then some (x * y) else none := by
  have hmul : BitVec.ofInt w (x.toInt * y.toInt) = x * y := by
    rw [BitVec.ofInt_mul, BitVec.ofInt_toInt, BitVec.ofInt_toInt]
  rw [← hmul]
  rfl

/-- The least value is the one whose negation is not represented. -/
theorem represents_neg_iff (hw : 0 < w) : Represents w (-x.toInt) ↔ x ≠ BitVec.intMin w := by
  have hx := represents_toInt hw x
  have hmin : (BitVec.intMin w).toInt = -2 ^ (w - 1) := BitVec.toInt_intMin_of_pos hw
  constructor
  · rintro ⟨-, hlt⟩ rfl
    omega
  · intro hne
    have hne' : x.toInt ≠ -2 ^ (w - 1) := fun h => hne (BitVec.eq_of_toInt_eq (h.trans hmin.symm))
    obtain ⟨hlo, hhi⟩ := hx
    exact ⟨by omega, by omega⟩

theorem neg_signed (hw : 0 < w) : Ty.signed.result w (-Ty.signed.val x)
    = if x = BitVec.intMin w then none else some (-x) := by
  have hneg : BitVec.ofInt w (-x.toInt) = -x := by rw [BitVec.ofInt_neg, BitVec.ofInt_toInt]
  show (if Represents w (-x.toInt) then some (BitVec.ofInt w (-x.toInt)) else none) = _
  simp only [represents_neg_iff x hw, hneg, ite_not]

/-- The only quotient that overflows is that of the least value by -1. -/
theorem represents_tdiv_iff (hw : 0 < w) :
    Represents w (x.toInt.tdiv y.toInt) ↔ ¬ (x = BitVec.intMin w ∧ y = -1#w) := by
  constructor
  · rintro ⟨-, hlt⟩ ⟨rfl, rfl⟩
    have hone : (-1#w).toInt = -1 := by
      rw [BitVec.neg_one_eq_allOnes, BitVec.toInt_allOnes, if_pos hw]
    rw [BitVec.toInt_intMin_of_pos hw, hone, Int.tdiv_neg, Int.tdiv_one, Int.neg_neg] at hlt
    exact Int.lt_irrefl _ hlt
  · intro h
    rw [← BitVec.toInt_sdiv_of_ne_or_ne x y (not_and_or.mp h)]
    exact represents_toInt hw _

theorem div_signed (hw : 0 < w) : ArithOp.div.eval .signed x y
    = if y = 0 ∨ (x = BitVec.intMin w ∧ y = -1#w) then none else some (x.sdiv y) := by
  have hzero : Ty.signed.val y = 0 ↔ y = 0 := by
    rw [Ty.val, ← BitVec.toInt_zero, BitVec.toInt_inj]
    rfl
  by_cases hy : y = 0
  · rw [if_pos (.inl hy), ArithOp.eval]
    exact if_pos (hzero.mpr hy)
  · have hdiv : ArithOp.div.eval .signed x y = Ty.signed.result w (x.toInt.tdiv y.toInt) :=
      if_neg (mt hzero.mp hy)
    rw [hdiv]
    by_cases hover : x = BitVec.intMin w ∧ y = -1#w
    · rw [if_pos (.inr hover)]
      exact result_signed_eq_none fun hrep => (represents_tdiv_iff x y hw).mp hrep hover
    · rw [if_neg (not_or.mpr ⟨hy, hover⟩),
        result_signed ((represents_tdiv_iff x y hw).mpr hover),
        ← BitVec.toInt_sdiv_of_ne_or_ne x y (not_and_or.mp hover), BitVec.ofInt_toInt]

end Signed

end CExpr
