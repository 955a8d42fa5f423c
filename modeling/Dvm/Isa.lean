/-
# The instruction set

The opcodes of `vm.h` in their order, and how the interpreter fetches each of them: an opcode
byte, then the operand bytes that its handler in `vm_run_thread` reads.  The handlers read
their operands in seven ways, the `Shape`s.  `decode` reads an instruction in a byte string,
`Decodes` all instructions up to its end.
-/
import Dvm.Base.Bytes

namespace Dvm

open Bytes

/-! ## 1. Opcodes -/

/-- `Op`, in source order; `OP_COUNT` is `opCount`. -/
inductive Op where
  | movRR | movRI | movRM | movMR
  | add | sub | mul | imul | div | idiv | mod | neg
  | and | or | xor | not | shl | shr | sar
  | cmp | test
  | jmp | je | jne | jl | jle | jg | jge
  | push | pop | enter | leave
  | call | ret | throw
  | fadd | fsub | fmul | fdiv | fcmp
  | fmovRR | fmovRI | fmovRM | fmovMR | itof | ftoi
  | syscall | halt
  | movzxRM8 | movzxRM16 | movzxRM32
  | movsxRM8 | movsxRM16 | movsxRM32
  | movMR8 | movMR16 | movMR32
  | movRMOff | movMROff
  | movzxRM8Off | movzxRM16Off | movzxRM32Off
  | movsxRM8Off | movsxRM16Off | movsxRM32Off
  | movMR8Off | movMR16Off | movMR32Off
  | callr | alloca | lea
  | trunc8 | trunc16 | trunc32
  deriving DecidableEq, Repr

/-- Every opcode, at the position of its code. -/
def Op.all : List Op :=
  [.movRR, .movRI, .movRM, .movMR,
   .add, .sub, .mul, .imul, .div, .idiv, .mod, .neg,
   .and, .or, .xor, .not, .shl, .shr, .sar,
   .cmp, .test,
   .jmp, .je, .jne, .jl, .jle, .jg, .jge,
   .push, .pop, .enter, .leave,
   .call, .ret, .throw,
   .fadd, .fsub, .fmul, .fdiv, .fcmp,
   .fmovRR, .fmovRI, .fmovRM, .fmovMR, .itof, .ftoi,
   .syscall, .halt,
   .movzxRM8, .movzxRM16, .movzxRM32,
   .movsxRM8, .movsxRM16, .movsxRM32,
   .movMR8, .movMR16, .movMR32,
   .movRMOff, .movMROff,
   .movzxRM8Off, .movzxRM16Off, .movzxRM32Off,
   .movsxRM8Off, .movsxRM16Off, .movsxRM32Off,
   .movMR8Off, .movMR16Off, .movMR32Off,
   .callr, .alloca, .lea,
   .trunc8, .trunc16, .trunc32]

def opCount : Nat := Op.all.length

/-- The byte the assembler emits for an opcode. -/
def Op.code (op : Op) : Byte := BitVec.ofNat 8 (Op.all.idxOf op)

/-- `optable[b]`; the table has `OP_COUNT` entries. -/
def Op.ofCode (b : Byte) : Option Op := Op.all[b.toNat]?

theorem Op.ofCode_code (op : Op) : Op.ofCode op.code = some op := by
  cases op <;> rfl

/-- A byte has a handler exactly if it is below `OP_COUNT`. -/
theorem Op.ofCode_eq_some_iff {b : Byte} : (∃ op, Op.ofCode b = some op) ↔ b.toNat < opCount := by
  constructor
  · rintro ⟨op, h⟩
    exact (List.getElem?_eq_some_iff.mp h).1
  · intro h
    exact ⟨_, List.getElem?_eq_getElem h⟩

theorem Op.code_lt (op : Op) : op.code.toNat < opCount :=
  Op.ofCode_eq_some_iff.mp ⟨op, Op.ofCode_code op⟩

/-! ## 2. Operands -/

/-- What a handler fetches behind the opcode byte. -/
inductive Shape where
  /-- Nothing. -/
  | bare
  /-- `[ds]`: two register numbers in one byte. -/
  | regs
  /-- `[ds][imm:8]`. -/
  | regsImm64
  /-- `[sz:2]`. -/
  | imm16
  /-- `[off:4]`. -/
  | off32
  /-- `[ok:4][err:4]`. -/
  | okErr
  /-- `[ds][off:4]`. -/
  | regsOff32
  deriving DecidableEq, Repr

/-- The number of operand bytes. -/
def Shape.size : Shape → Nat
  | bare => 0
  | regs => 1
  | regsImm64 => 9
  | imm16 => 2
  | off32 => 4
  | okErr => 8
  | regsOff32 => 5

/-- The operands each handler of `vm_run_thread` fetches. -/
def Op.shape : Op → Shape
  | movRI | fmovRI => .regsImm64
  | jmp | je | jne | jl | jle | jg | jge => .off32
  | enter => .imm16
  | leave | ret | throw | syscall | halt | alloca => .bare
  | call => .okErr
  | movRMOff | movMROff | movzxRM8Off | movzxRM16Off | movzxRM32Off
  | movsxRM8Off | movsxRM16Off | movsxRM32Off | movMR8Off | movMR16Off | movMR32Off
  | callr | lea => .regsOff32
  | movRR | movRM | movMR | add | sub | mul | imul | div | idiv | mod | neg
  | and | or | xor | not | shl | shr | sar | cmp | test | push | pop
  | fadd | fsub | fmul | fdiv | fcmp | fmovRR | fmovRM | fmovMR | itof | ftoi
  | movzxRM8 | movzxRM16 | movzxRM32 | movsxRM8 | movsxRM16 | movsxRM32
  | movMR8 | movMR16 | movMR32 | trunc8 | trunc16 | trunc32 => .regs

/-- The number of bytes of an instruction. -/
def Op.size (op : Op) : Nat := 1 + op.shape.size

/-- A register number, 0 to 7. -/
abbrev Reg := Fin 8

instance Reg.neZero : NeZero 8 := ⟨by decide⟩

/-- Fetched operands; what a shape does not fetch is 0.  `off` is the offset of a jump, the
displacement of an indexed access, the `ok` of a `CALL` and the `err` of a `CALLR`. -/
structure Operands where
  d : Reg := 0
  s : Reg := 0
  imm : BitVec 64 := 0
  off : BitVec 32 := 0
  err : BitVec 32 := 0
  deriving DecidableEq, Repr

/-- `FETCHREGS`: `(b >> 4) & 7` and `b & 7`. -/
def fetchRegs (b : Byte) : Reg × Reg :=
  (⟨b.toNat / 16 % 8, Nat.mod_lt _ (by decide)⟩, ⟨b.toNat % 8, Nat.mod_lt _ (by decide)⟩)

/-- A `w`-bit little-endian field. -/
def fetchLe (w : Nat) (bs : List Byte) : BitVec w := BitVec.ofNat w (ofLe bs)

/-- The operands in a handler's operand bytes. -/
def Shape.fetch (sh : Shape) (bs : List Byte) : Operands :=
  let r := fetchRegs (bs.headD 0)
  match sh with
  | bare => {}
  | regs => { d := r.1, s := r.2 }
  | regsImm64 => { d := r.1, s := r.2, imm := fetchLe 64 (field bs 1 8) }
  | imm16 => { imm := fetchLe 64 (field bs 0 2) }
  | off32 => { off := fetchLe 32 (field bs 0 4) }
  | okErr => { off := fetchLe 32 (field bs 0 4), err := fetchLe 32 (field bs 4 4) }
  | regsOff32 => { d := r.1, s := r.2, off := fetchLe 32 (field bs 1 4) }

/-! ## 3. Decoding -/

/-- The instruction at position `p` of a byte string, if all of it is there. -/
def decode (bs : List Byte) (p : Nat) : Option (Op × Operands) :=
  match (bs[p]?).bind Op.ofCode with
  | none => none
  | some op =>
    if p + op.size ≤ bs.length then some (op, op.shape.fetch (field bs (p + 1) op.shape.size))
    else none

/-- Decoding from `p` on gives these instructions and ends where the bytes end. -/
inductive Decodes (bs : List Byte) : Nat → List (Op × Operands) → Prop
  | done : Decodes bs bs.length []
  | instr {p : Nat} {op : Op} {o : Operands} {is : List (Op × Operands)} :
      decode bs p = some (op, o) → Decodes bs (p + op.size) is → Decodes bs p ((op, o) :: is)

/-- Where instruction `k` begins, the first of them at 0. -/
def instrStart (is : List (Op × Operands)) (k : Nat) : Nat :=
  ((is.take k).map fun i => i.1.size).sum

theorem decode_eq_some {bs : List Byte} {p : Nat} {op : Op} (hop : bs[p]? = some op.code)
    (hfit : p + op.size ≤ bs.length) :
    decode bs p = some (op, op.shape.fetch (field bs (p + 1) op.shape.size)) := by
  rw [decode, hop, Option.bind_some, Op.ofCode_code]
  exact if_pos hfit

theorem instrStart_cons (i : Op × Operands) (is : List (Op × Operands)) (k : Nat) :
    instrStart (i :: is) (k + 1) = i.1.size + instrStart is k := by
  simp [instrStart]

/-- The instruction behind instruction `k`. -/
theorem instrStart_succ {is : List (Op × Operands)} {k : Nat} {i : Op × Operands}
    (h : is[k]? = some i) : instrStart is (k + 1) = instrStart is k + i.1.size := by
  induction is generalizing k with
  | nil => cases h
  | cons j is ih =>
    cases k with
    | zero =>
      cases h
      simp [instrStart]
    | succ k => rw [instrStart_cons, instrStart_cons, ih h, Nat.add_assoc]

/-- Instruction `k` is decoded where it begins. -/
theorem Decodes.decode {bs : List Byte} {p : Nat} {is : List (Op × Operands)}
    (h : Decodes bs p is) {k : Nat} {i : Op × Operands} (hk : is[k]? = some i) :
    Dvm.decode bs (p + instrStart is k) = some i := by
  induction h generalizing k with
  | done => cases hk
  | @instr p op o is hd _ ih =>
    cases k with
    | zero =>
      cases hk
      exact hd
    | succ k =>
      rw [instrStart_cons, ← Nat.add_assoc]
      exact ih hk

theorem Decodes.length {bs : List Byte} {p : Nat} {is : List (Op × Operands)}
    (h : Decodes bs p is) : p + instrStart is is.length = bs.length := by
  induction h with
  | done => rfl
  | instr _ _ ih => rw [List.length_cons, instrStart_cons, ← Nat.add_assoc, ih]

theorem decode_fits {bs : List Byte} {p : Nat} {op : Op} {o : Operands}
    (h : decode bs p = some (op, o)) :
    bs[p]?.bind Op.ofCode = some op ∧ p + op.size ≤ bs.length ∧
      o = op.shape.fetch (field bs (p + 1) op.shape.size) := by
  unfold decode at h
  cases hop : bs[p]?.bind Op.ofCode with
  | none => simp [hop] at h
  | some op' =>
    simp only [hop] at h
    split at h
    · next hfit =>
      cases h
      exact ⟨rfl, hfit, rfl⟩
    · cases h

/-- The positions in an instruction of the code offsets that its handler fetches. -/
def Op.codeFields (op : Op) : List Nat :=
  match op.shape with
  | .off32 => [1]
  | .okErr => [1, 5]
  | .regsOff32 => if op = .callr then [2] else []
  | _ => []

/-- The position of the immediate of `MOV_RI`. -/
def movImmField : Nat := 2

end Dvm
