/-
# One instruction

`fetchInstr` is the dispatch of `vm_run_thread` with the operand fetches of the handler it
selects, `exec` the rest of the handlers, one case each.

The host is x86-64: signed arithmetic wraps, and where the C code divides by zero or overflows
a quotient without a check of its own the instruction is `undefined`, as is an opcode byte
without a handler.  A `double` is computed with as Lean's `Float`.  A system call is answered
from outside, with any result and any memory, or does not return (`exit`).
-/
import Dvm.Vm.Thread

namespace Dvm

open Bytes ByteMem

/-! ## 1. Memory operands -/

/-- The `n` bytes at `a`, zero-extended. -/
def load (n : Nat) (m : Mem) (a : Word) : Word := BitVec.ofNat 64 (ofLe (readBytes m a n))

/-- The `n` bytes at `a`, sign-extended. -/
def loadSx (n : Nat) (m : Mem) (a : Word) : Word :=
  (BitVec.ofNat (8 * n) (ofLe (readBytes m a n))).signExtend 64

/-- The low `n` bytes of `v`, stored at `a`. -/
def store (n : Nat) (m : Mem) (a v : Word) : Mem := writeBytes m a (le n v.toNat)

/-- `(uint64_t)(int64_t)o`. -/
def sext (o : BitVec 32) : Word := o.signExtend 64

/-- `bytecode + (uint32_t)o`. -/
def VMThread.target (t : VMThread) (o : BitVec 32) : Word := t.bytecode + o.setWidth 64

/-! ## 2. Flags and jump conditions -/

def flZf : Word := 1
def flSf : Word := 2
def flCf : Word := 4
def flOf : Word := 8

/-- `op_cmp`. -/
def cmpFlags (a b : Word) : Word :=
  (if a = b then flZf else 0) ||| (if a.slt b then flSf else 0) |||
    (if a < b then flCf else 0) |||
    (if ((a ^^^ b) &&& (a ^^^ (a - b))) >>> 63 ≠ 0 then flOf else 0)

/-- `op_test`. -/
def testFlags (a b : Word) : Word := if a &&& b ≠ 0 then 0 else flZf

/-- `op_fcmp`. -/
def fcmpFlags (a b : Float) : Word :=
  (if a == b then flZf else 0) ||| (if a < b then flSf else 0)

/-- Whether a jump is taken; of the opcodes only the jumps are asked. -/
def Op.taken (op : Op) (fl : Word) : Bool :=
  match op with
  | jmp => true
  | je => fl &&& flZf ≠ 0
  | jne => fl &&& flZf = 0
  | jl => fl &&& flSf ≠ 0
  | jle => fl &&& (flSf ||| flZf) ≠ 0
  | jg => fl &&& (flSf ||| flZf) = 0
  | jge => fl &&& flSf = 0
  | _ => false

/-! ## 3. What an instruction can do -/

/-- The messages before `abort()`. -/
inductive Abort where
  | shadowOverflow | shadowUnderflow | divZero
  deriving DecidableEq, Repr

/-- How the handler of an instruction ends. -/
inductive Outcome where
  /-- `NEXT`. -/
  | next (t : VMThread) (m : Mem)
  /-- `HALT`: the interpreter loop returns. -/
  | halted (t : VMThread) (m : Mem)
  /-- `abort()`, with the thread as it is then. -/
  | aborted (why : Abort) (t : VMThread)
  /-- `exit()` in a system call. -/
  | exited
  /-- No defined behaviour. -/
  | undefined

/-- What a system call returns in `*ret`, and the memory after it; `none` if it exits. -/
abbrev SysAnswer := Option (Word × Mem)

/-- The double of a float register. -/
def VMThread.float (t : VMThread) (n : Reg) : Float := Float.ofBits ⟨t.fp n⟩

/-- `rf->fp[n] = x`. -/
def VMThread.setFloat (t : VMThread) (n : Reg) (x : Float) : VMThread :=
  t.setFp n x.toBits.toBitVec

/-- Push the error address and the return address, deeper one first, then go to `dest`. -/
def callTo (t : VMThread) (m : Mem) (dest err : Word) : Outcome :=
  match spush t.shadow err with
  | none => .aborted .shadowOverflow t
  | some s₁ =>
    match spush s₁ t.ip with
    | none => .aborted .shadowOverflow { t with shadow := s₁ }
    | some s₂ => .next { t with shadow := s₂, ip := dest } m

/-- Pop the return address and the error address, then go to the one that `pick` selects. -/
def popFrame (t : VMThread) (m : Mem) (pick : Word → Word → Word) : Outcome :=
  match spop t.shadow with
  | none => .aborted .shadowUnderflow t
  | some (ok, s₁) =>
    match spop s₁ with
    | none => .aborted .shadowUnderflow { t with shadow := s₁ }
    | some (err, s₂) => .next { t with shadow := s₂, ip := pick ok err } m

/-- The handler of an instruction, its operands fetched and `ip` behind them. -/
def exec (sys : SysAnswer) (op : Op) (o : Operands) (t : VMThread) (m : Mem) : Outcome :=
  let gd := t.gpr o.d
  let gs := t.gpr o.s
  let set (v : Word) : Outcome := .next (t.setReg o.d v) m
  let put (n : Nat) (a : Word) : Outcome := .next t (store n m a gs)
  let jump : Outcome := .next (if op.taken t.fl then { t with ip := t.target o.off } else t) m
  match op with
  | .movRR => set gs
  | .movRI => set o.imm
  | .movRM => set (load 8 m gs)
  | .movMR => put 8 gd
  | .add => set (gd + gs)
  | .sub => set (gd - gs)
  | .mul => set (gd * gs)
  | .imul => set (gd * gs)
  | .div => if gs = 0 then .aborted .divZero t else set (gd / gs)
  | .idiv =>
    if gs = 0 then .aborted .divZero t
    else if gd = BitVec.intMin 64 ∧ gs = -1 then .undefined
    else set (gd.sdiv gs)
  | .mod => if gs = 0 then .undefined else set (gd % gs)
  | .neg => set (-gd)
  | .and => set (gd &&& gs)
  | .or => set (gd ||| gs)
  | .xor => set (gd ^^^ gs)
  | .not => set (~~~gd)
  | .shl => set (gd <<< (gs &&& 63))
  | .shr => set (gd >>> (gs &&& 63))
  | .sar => set (gd.sshiftRight (gs &&& 63).toNat)
  | .cmp => .next { t with fl := cmpFlags gd gs } m
  | .test => .next { t with fl := testFlags gd gs } m
  | .jmp | .je | .jne | .jl | .jle | .jg | .jge => jump
  | .push => .next { t with sp := t.sp - 8 } (store 8 m (t.sp - 8) gd)
  | .pop => .next { t.setReg o.d (load 8 m t.sp) with sp := t.sp + 8 } m
  | .enter =>
    .next { t with bp := t.sp - 8, sp := t.sp - 8 - o.imm } (store 8 m (t.sp - 8) t.bp)
  | .leave => .next { t with bp := load 8 m t.bp, sp := t.bp + 8 } m
  | .call => callTo t m (t.target o.off) (t.target o.err)
  | .ret => popFrame t m fun ok _ => ok
  | .throw => popFrame t m fun _ err => err
  | .fadd => .next (t.setFloat o.d (t.float o.d + t.float o.s)) m
  | .fsub => .next (t.setFloat o.d (t.float o.d - t.float o.s)) m
  | .fmul => .next (t.setFloat o.d (t.float o.d * t.float o.s)) m
  | .fdiv => .next (t.setFloat o.d (t.float o.d / t.float o.s)) m
  | .fcmp => .next { t with fl := fcmpFlags (t.float o.d) (t.float o.s) } m
  | .fmovRR => .next (t.setFp o.d (t.fp o.s)) m
  | .fmovRI => .next (t.setFp o.d o.imm) m
  | .fmovRM => .next (t.setFp o.d (load 8 m gs)) m
  | .fmovMR => .next t (store 8 m gd (t.fp o.s))
  | .itof => .next (t.setFloat o.d (Float.ofInt gs.toInt)) m
  | .ftoi =>
    let x := t.float o.s
    if Float.ofInt (-2 ^ 63) ≤ x ∧ x < Float.ofInt (2 ^ 63) then set x.toInt64.toBitVec
    else .undefined
  | .syscall =>
    match sys with
    | none => .exited
    | some (result, m') => .next (t.setReg regAx result) m'
  | .halt => .halted { t with state := .finished, vmStack := none } m
  | .movzxRM8 => set (load 1 m gs)
  | .movzxRM16 => set (load 2 m gs)
  | .movzxRM32 => set (load 4 m gs)
  | .movsxRM8 => set (loadSx 1 m gs)
  | .movsxRM16 => set (loadSx 2 m gs)
  | .movsxRM32 => set (loadSx 4 m gs)
  | .movMR8 => put 1 gd
  | .movMR16 => put 2 gd
  | .movMR32 => put 4 gd
  | .movRMOff => set (load 8 m (gs + sext o.off))
  | .movMROff => put 8 (gd + sext o.off)
  | .movzxRM8Off => set (load 1 m (gs + sext o.off))
  | .movzxRM16Off => set (load 2 m (gs + sext o.off))
  | .movzxRM32Off => set (load 4 m (gs + sext o.off))
  | .movsxRM8Off => set (loadSx 1 m (gs + sext o.off))
  | .movsxRM16Off => set (loadSx 2 m (gs + sext o.off))
  | .movsxRM32Off => set (loadSx 4 m (gs + sext o.off))
  | .movMR8Off => put 1 (gd + sext o.off)
  | .movMR16Off => put 2 (gd + sext o.off)
  | .movMR32Off => put 4 (gd + sext o.off)
  | .callr => callTo t m gd (t.target o.off)
  | .alloca =>
    let sp := t.sp - ((t.gpr regAx + 7) &&& ~~~7)
    .next { t.setReg regAx sp with sp := sp } m
  | .lea => set (gs + sext o.off)
  | .trunc8 => set (gd &&& 0xFF)
  | .trunc16 => set (gd &&& 0xFFFF)
  | .trunc32 => set (gd &&& 0xFFFFFFFF)

/-! ## 4. Fetch -/

/-- The opcode and the operands at `ip`; `none` where the byte has no handler. -/
def fetchInstr (m : Mem) (ip : Word) : Option (Op × Operands) :=
  (Op.ofCode (m ip)).map fun op => (op, op.shape.fetch (readBytes m (ip + 1) op.shape.size))

/-- One pass of the interpreter loop: fetch, move `ip` behind the operands, execute. -/
def step (sys : SysAnswer) (t : VMThread) (m : Mem) : Outcome :=
  match fetchInstr m t.ip with
  | none => .undefined
  | some (op, o) => exec sys op o { t with ip := t.ip + BitVec.ofNat 64 op.size } m

end Dvm
