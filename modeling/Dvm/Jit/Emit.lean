/-
# The JIT's emitters

`jit.c` writes native code through a handful of emitters, each of which asks `jit_buf_alloc` for
the place of a few bytes and stores them there.  An emitter is modelled by the byte strings it
stores, call by call (`JitCode`); `jitEmit` carries them out on the buffer.  The buffer remembers
whether its pages are writable and whether a byte was stored while they were not; the model goes
on behind such a fault as if the page had been writable.

What the emitters for integer opcodes store are encodings of `X86` instructions
(`jitStraight_code`), which is how the emitted bytes get a meaning.
-/
import Dvm.Base.X86Run
import Dvm.Isa

namespace Dvm

open Bytes ByteMem X86

/-! ## 1. The buffer -/

/-- The addresses that the system and the C compiler choose. -/
structure JitEnv where
  /-- What `dvm_mmap` returns for a code buffer, by its length: the buffer's length doubles each
  time, so that a context asks for a length at most once. -/
  mmap : Nat → Word
  trampArena : Word
  stubArena : Word
  ctx : Word
  compileAndPatch : Word

/-- An address space: the first code buffer is at one address, larger ones at another. -/
def hostEnv : JitEnv where
  mmap n := if n = 1048576 then 0x10000000 else 0x20000000
  trampArena := 0x30000000
  stubArena := 0x40000000
  ctx := 0x50000000
  compileAndPatch := 0x60000000

/-- `JitBuf`: `bytes` are the first `len` bytes at `buf`. -/
structure JitBuf where
  buf : Word
  bytes : List Byte
  cap : Nat
  /-- The pages are read-write, not read-execute. -/
  writable : Bool
  /-- A byte was stored while they were not. -/
  faulted : Bool

def JitBuf.len (j : JitBuf) : Nat := j.bytes.length

def jitBufNew (env : JitEnv) (cap : Nat) : JitBuf where
  buf := env.mmap cap
  bytes := []
  cap := cap
  writable := true
  faulted := false

def jitBufMakeExec (j : JitBuf) : JitBuf := { j with writable := false }

/-- `jit_buf_alloc` without the bytes it makes room for: a buffer that is too small is copied
to a new one. -/
def jitBufAlloc (env : JitEnv) (j : JitBuf) (need : Nat) : JitBuf :=
  if j.len + need > j.cap then
    { j with buf := env.mmap (j.cap * 2), cap := j.cap * 2, writable := true }
  else j

/-- The bytes an emitter stores, one string for each call of `jit_buf_alloc`. -/
abbrev JitCode := List (List Byte)

/-- Store `bs` where `jit_buf_alloc` says. -/
def jitStore (env : JitEnv) (j : JitBuf) (bs : List Byte) : JitBuf :=
  let j := jitBufAlloc env j bs.length
  { j with bytes := j.bytes ++ bs, faulted := j.faulted || !j.writable }

def jitEmit (env : JitEnv) (j : JitBuf) (cs : JitCode) : JitBuf := cs.foldl (jitStore env) j

@[simp] theorem jitEmit_nil (env : JitEnv) (j : JitBuf) : jitEmit env j [] = j := rfl
@[simp] theorem jitEmit_cons (env : JitEnv) (j : JitBuf) (bs : List Byte) (cs : JitCode) :
    jitEmit env j (bs :: cs) = jitEmit env (jitStore env j bs) cs := rfl
theorem jitEmit_append (env : JitEnv) (j : JitBuf) (cs ds : JitCode) :
    jitEmit env j (cs ++ ds) = jitEmit env (jitEmit env j cs) ds := List.foldl_append

/-- Growth or not, what is emitted stands behind what was there. -/
theorem emit_bytes (env : JitEnv) (j : JitBuf) (cs : JitCode) :
    (jitEmit env j cs).bytes = j.bytes ++ cs.flatten := by
  induction cs generalizing j with
  | nil => simp
  | cons bs cs ih =>
    have hstore : (jitStore env j bs).bytes = j.bytes ++ bs := by
      unfold jitStore jitBufAlloc
      split <;> rfl
    rw [jitEmit_cons, ih, hstore, List.flatten_cons, List.append_assoc]

/-! ## 2. Emitters -/

def jitU8 (v : Byte) : JitCode := [[v]]

def jitU16 (v : BitVec 16) : JitCode := [le 2 v.toNat]

def jitU32 (v : BitVec 32) : JitCode := [le 4 v.toNat]

def jitI32 (v : Int32) : JitCode := [le 4 v.toBitVec.toNat]

def jitU64 (v : Word) : JitCode := [le 8 v.toNat]

def rex (w r b : Nat) : Byte := BitVec.ofNat 8 (0x40 ||| w <<< 3 ||| r <<< 2 ||| b)

/-- `vm2x86`: ax, bx, cx, dx, di, si, ex, fx. -/
def vm2x86 (r : Reg) : R64 := [0, 3, 1, 2, 7, 6, 8, 9].get r

def jitRr (op : Byte) (d s : R64) : JitCode :=
  jitU8 (rex 1 ((d.val >>> 3) &&& 1) ((s.val >>> 3) &&& 1)) ++ jitU8 op ++
    jitU8 (BitVec.ofNat 8 (0xC0 ||| (d.val &&& 7) <<< 3 ||| (s.val &&& 7)))

def jitMovRi (d : Reg) (imm : Word) : JitCode :=
  let r := vm2x86 d
  jitU8 (rex 1 0 ((r.val >>> 3) &&& 1)) ++ jitU8 (BitVec.ofNat 8 (0xB8 ||| (r.val &&& 7))) ++
    jitU64 imm

def jitAluRr (op : Byte) (d s : Reg) : JitCode := jitRr op (vm2x86 d) (vm2x86 s)

def jitEpilogue : JitCode := jitU8 0x5D ++ jitU8 0xC3

def jitEmitCall (ok err : Word) : JitCode :=
  jitU8 0x49 ++ jitU8 0x83 ++ jitU8 0xEE ++ jitU8 0x10 ++
    jitU8 0x48 ++ jitU8 0xB8 ++ jitU64 err ++
    jitU8 0x49 ++ jitU8 0x89 ++ jitU8 0x06 ++
    jitU8 0x48 ++ jitU8 0xB8 ++ jitU64 ok ++
    jitU8 0x49 ++ jitU8 0x89 ++ jitU8 0x46 ++ jitU8 0x08 ++
    jitU8 0xFF ++ jitU8 0xE0

def jitEmitRet : JitCode :=
  jitU8 0x49 ++ jitU8 0x8B ++ jitU8 0x46 ++ jitU8 0x08 ++
    jitU8 0x49 ++ jitU8 0x83 ++ jitU8 0xC6 ++ jitU8 0x10 ++
    jitU8 0xFF ++ jitU8 0xE0

def jitEmitThrow : JitCode :=
  jitU8 0x49 ++ jitU8 0x8B ++ jitU8 0x06 ++
    jitU8 0x49 ++ jitU8 0x83 ++ jitU8 0xC6 ++ jitU8 0x10 ++
    jitU8 0xFF ++ jitU8 0xE0

/-! ## 3. The straight cases of the block compiler -/

/-- `OP_MUL` and `OP_IMUL`. -/
def jitMul (d s : Reg) : JitCode :=
  let rd := vm2x86 d
  let rs := vm2x86 s
  jitU8 (rex 1 ((rd.val >>> 3) &&& 1) ((rs.val >>> 3) &&& 1)) ++ jitU8 0x0F ++ jitU8 0xAF ++
    jitU8 (BitVec.ofNat 8 (0xC0 ||| (rd.val &&& 7) <<< 3 ||| (rs.val &&& 7)))

/-- An instruction with one register operand; `ext` is the ModRM byte of register 0. -/
def jitR (op : Byte) (ext : Nat) (d : Reg) : JitCode :=
  let rd := vm2x86 d
  jitU8 (rex 1 0 ((rd.val >>> 3) &&& 1)) ++ jitU8 op ++
    jitU8 (BitVec.ofNat 8 (ext ||| (rd.val &&& 7)))

/-- The three shifts. -/
def jitShift (ext : Nat) (d s : Reg) : JitCode :=
  jitRr 0x89 rcx (vm2x86 s) ++ jitR 0xD3 ext d

/-- `OP_FADD` and `OP_FMUL`; the register numbers were masked, so that the prefix is never
there. -/
def jitSse (op : Byte) (d s : Reg) : JitCode :=
  jitU8 0xF2 ++
    (if 8 ≤ d.val ∨ 8 ≤ s.val then jitU8 (rex 0 ((d.val >>> 3) &&& 1) ((s.val >>> 3) &&& 1))
     else []) ++
    jitU8 0x0F ++ jitU8 op ++
    jitU8 (BitVec.ofNat 8 (0xC0 ||| (d.val &&& 7) <<< 3 ||| (s.val &&& 7)))

/-- What `jit_compile_block` emits for an opcode that does not end the block; `none` for the
others. -/
def jitStraight (op : Op) (o : Operands) : Option JitCode :=
  match op with
  | .movRR => some (jitRr 0x8B (vm2x86 o.d) (vm2x86 o.s))
  | .movRI => some (jitMovRi o.d o.imm)
  | .add => some (jitAluRr 0x03 o.d o.s)
  | .sub => some (jitAluRr 0x2B o.d o.s)
  | .and => some (jitAluRr 0x23 o.d o.s)
  | .or => some (jitAluRr 0x0B o.d o.s)
  | .xor => some (jitAluRr 0x33 o.d o.s)
  | .mul | .imul => some (jitMul o.d o.s)
  | .neg => some (jitR 0xF7 0xD8 o.d)
  | .shl => some (jitShift 0xE0 o.d o.s)
  | .shr => some (jitShift 0xE8 o.d o.s)
  | .sar => some (jitShift 0xF8 o.d o.s)
  | .fadd => some (jitSse 0x58 o.d o.s)
  | .fmul => some (jitSse 0x59 o.d o.s)
  | _ => none

/-! ## 4. The emitted bytes as instructions -/

/-- The instructions that are emitted for an integer opcode. -/
def straightInstrs (op : Op) (o : Operands) : List Instr :=
  let d := vm2x86 o.d
  let s := vm2x86 o.s
  match op with
  | .movRR => [.load d s]
  | .movRI => [.movImm64 d o.imm]
  | .add => [.alu .add d s]
  | .sub => [.alu .sub d s]
  | .and => [.alu .and d s]
  | .or => [.alu .or d s]
  | .xor => [.alu .xor d s]
  | .mul | .imul => [.imul d s]
  | .neg => [.neg d]
  | .shl => [.store s rcx, .shift .shl d]
  | .shr => [.store s rcx, .shift .shr d]
  | .sar => [.store s rcx, .shift .sar d]
  | _ => []

/-- The integer opcodes of the block compiler that do not end a block. -/
def Op.isInt (op : Op) : Bool :=
  op ∈ [movRR, movRI, add, sub, and, or, xor, mul, imul, neg, shl, shr, sar]

theorem rex_rr : ∀ d s : R64, rex 1 ((d.val >>> 3) &&& 1) ((s.val >>> 3) &&& 1)
    = (⟨true, d.ext, s.ext⟩ : Rex).byte := by
  decide

theorem rex_r : ∀ d : R64, rex 1 0 ((d.val >>> 3) &&& 1) = (⟨true, false, d.ext⟩ : Rex).byte := by
  decide

theorem modRm_rr : ∀ d s : R64, BitVec.ofNat 8 (0xC0 ||| (d.val &&& 7) <<< 3 ||| (s.val &&& 7))
    = (⟨3, d.low, s.low⟩ : ModRm).byte := by
  decide

theorem flatten_jitRr (op : Byte) (d s : R64) : (jitRr op d s).flatten = encodeRR [op] d s := by
  rw [jitRr, rex_rr, modRm_rr]
  rfl

theorem flatten_jitMul (d s : Reg) :
    (jitMul d s).flatten = encodeRR [0x0F, 0xAF] (vm2x86 d) (vm2x86 s) := by
  simp only [jitMul, rex_rr, modRm_rr]
  rfl

theorem flatten_jitR {op : Byte} {ext : Nat} {digit : Fin 8}
    (h : ∀ d : R64, BitVec.ofNat 8 (ext ||| (d.val &&& 7)) = (⟨3, digit, d.low⟩ : ModRm).byte)
    (d : Reg) : (jitR op ext d).flatten = encodeR op digit (vm2x86 d) := by
  simp only [jitR, rex_r, h]
  rfl

theorem flatten_jitMovRi (d : Reg) (imm : Word) :
    (jitMovRi d imm).flatten = (Instr.movImm64 (vm2x86 d) imm).encode := by
  have hop : ∀ d : R64, BitVec.ofNat 8 (0xB8 ||| (d.val &&& 7)) = opReg 0xB8 d := by decide
  simp only [jitMovRi, rex_r, hop, jitU8, jitU64, List.singleton_append]
  rfl

theorem flatten_jitShift {ext : Nat} {op : Shift}
    (h : ∀ d : R64, BitVec.ofNat 8 (ext ||| (d.val &&& 7)) = (⟨3, op.digit, d.low⟩ : ModRm).byte)
    (d s : Reg) : (jitShift ext d s).flatten
      = code [.store (vm2x86 s) rcx, .shift op (vm2x86 d)] := by
  rw [jitShift, List.flatten_append, flatten_jitRr, flatten_jitR h]
  simp [Instr.encode]

/-- The bytes stored for an integer opcode are the encodings of its instructions. -/
theorem jitStraight_code {op : Op} (hop : op.isInt) (o : Operands) :
    ∃ cs, jitStraight op o = some cs ∧ cs.flatten = code (straightInstrs op o) := by
  cases op
  case movRR => exact ⟨_, rfl, by simp [flatten_jitRr, straightInstrs, Instr.encode]⟩
  case movRI => exact ⟨_, rfl, by simp [flatten_jitMovRi, straightInstrs]⟩
  case add | sub | and | or | xor =>
    exact ⟨_, rfl, by simp [jitAluRr, flatten_jitRr, straightInstrs, Instr.encode, Alu.code]⟩
  case mul | imul => exact ⟨_, rfl, by simp [flatten_jitMul, straightInstrs, Instr.encode]⟩
  case neg =>
    refine ⟨_, rfl, ?_⟩
    rw [@flatten_jitR _ _ 3 (by decide)]
    simp [straightInstrs, Instr.encode]
  case shl => exact ⟨_, rfl, @flatten_jitShift _ .shl (by decide) _ _⟩
  case shr => exact ⟨_, rfl, @flatten_jitShift _ .shr (by decide) _ _⟩
  case sar => exact ⟨_, rfl, @flatten_jitShift _ .sar (by decide) _ _⟩
  all_goals exact absurd hop (by decide)

/-- Only registers change in them. -/
theorem straightInstrs_isReg (op : Op) (o : Operands) : ∀ i ∈ straightInstrs op o, i.IsReg := by
  intro i hi
  cases op <;> simp only [straightInstrs, List.mem_cons, List.not_mem_nil, or_false] at hi
  all_goals first
    | exact hi.elim
    | subst hi; trivial
    | rcases hi with rfl | rfl <;> trivial

end Dvm
