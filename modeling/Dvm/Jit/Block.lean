/-
# The JIT's block table and block compiler

Every bytecode offset that is compiled or called has an entry in the block table, a 16-byte
trampoline and a compile stub.  `jit_block_get` makes them, `jit_compile_block` emits the native
code of a block and points the trampoline at it.

The compile loop emits for one opcode after the other until one of them ends the block.  What it
emits on the way depends on the bytecode alone, so the loop is a scan of the bytecode
(`scanBlock`) and what the end of the block does (`compileLoop_eq`).
-/
import Dvm.Jit.Emit

namespace Dvm

open Bytes ByteMem X86

/-! ## 1. Contexts -/

def dvmMaxBlocks : Nat := 4096
def dvmTrampSize : Nat := 16

/-- The slot of a stub. -/
def stubSlot : Nat := 64

def trampCap : Nat := dvmMaxBlocks * dvmTrampSize
def stubCap : Nat := dvmMaxBlocks * stubSlot

structure Block where
  bcOffset : BitVec 32
  trampoline : Word
  /-- `none` for NULL. -/
  native : Option Word

/-- `JitCtx`.  The arenas are byte strings; what is stored behind the end of one makes it
longer. -/
structure JitCtx where
  /-- Memory from the bytecode's address on. -/
  bc : Nat → Byte
  bcLen : Nat
  tramps : List Byte
  stubs : List Byte
  code : JitBuf
  blocks : List Block

def jitCtxNew (env : JitEnv) (bc : Nat → Byte) (bcLen : Nat) : JitCtx where
  bc := bc
  bcLen := bcLen
  tramps := List.replicate trampCap 0
  stubs := List.replicate stubCap 0
  code := jitBufNew env (1 <<< 20)
  blocks := []

/-- Why a function of the JIT calls `abort()`. -/
inductive JitAbort where
  | tableFull | unhandled
  deriving DecidableEq, Repr

/-- What a function of the JIT returns, and the context when it returns or aborts. -/
abbrev JitResult (α : Type) := EStateM.Result JitAbort JitCtx α

/-! ## 2. Trampolines and stubs -/

def trampInit (target : Word) : List Byte :=
  [0xFF, 0x25, 0x00, 0x00, 0x00, 0x00] ++ le 8 target.toNat ++ [0x66, 0x90]

/-- The bytes that `emit_compile_stub` writes. -/
def emitCompileStub (env : JitEnv) (bcOffset : BitVec 32) : List Byte :=
  -- mov QWORD PTR [rsp-8], imm32
  [0x48, 0xC7, 0x44, 0x24, 0xF8] ++ le 4 bcOffset.toNat ++
  -- push rax, rcx, rdx, rdi, rsi, r8, r9, r10, r11
  [0x50, 0x51, 0x52, 0x57, 0x56, 0x41, 0x50, 0x41, 0x51, 0x41, 0x52, 0x41, 0x53] ++
  -- sub rsp, 8
  [0x48, 0x83, 0xEC, 0x08] ++
  -- mov rdi, ctx
  [0x48, 0xBF] ++ le 8 env.ctx.toNat ++
  -- mov esi, bc_offset
  [0xBE] ++ le 4 bcOffset.toNat ++
  -- mov rax, fn; call rax
  [0x48, 0xB8] ++ le 8 env.compileAndPatch.toNat ++ [0xFF, 0xD0] ++
  -- add rsp, 8
  [0x48, 0x83, 0xC4, 0x08] ++
  -- pop r11, r10, r9, r8, rsi, rdi, rdx, rcx, rax
  [0x41, 0x5B, 0x41, 0x5A, 0x41, 0x59, 0x41, 0x58, 0x5E, 0x5F, 0x5A, 0x59, 0x58] ++
  -- ret
  [0xC3]

/-- Entry `i` of the block table. -/
def JitCtx.block (ctx : JitCtx) (i : Nat) : Block := ctx.blocks.getD i ⟨0, 0, none⟩

/-- The entry of a bytecode offset. -/
def JitCtx.find (ctx : JitCtx) (bcOffset : BitVec 32) : Option Nat :=
  ctx.blocks.findIdx? fun b => b.bcOffset = bcOffset

/-- `jit_block_get`; it returns the position of the block in the table. -/
def jitBlockGet (env : JitEnv) (ctx : JitCtx) (bcOffset : BitVec 32) : JitResult Nat :=
  match ctx.find bcOffset with
  | some i => .ok i ctx
  | none =>
    if dvmMaxBlocks ≤ ctx.blocks.length then .error .tableFull ctx
    else
      let i := ctx.blocks.length
      let trampoline := env.trampArena + BitVec.ofNat 64 (i * dvmTrampSize)
      let pos := (i + 1) * stubSlot - stubSlot
      .ok i { ctx with
        blocks := ctx.blocks ++ [⟨bcOffset, trampoline, none⟩]
        stubs := patch ctx.stubs pos (emitCompileStub env bcOffset)
        tramps := patch ctx.tramps (i * dvmTrampSize)
          (trampInit (env.stubArena + BitVec.ofNat 64 pos)) }

def jitTrampFor (env : JitEnv) (ctx : JitCtx) (bcOffset : BitVec 32) : JitResult Word :=
  match jitBlockGet env ctx bcOffset with
  | .error e ctx => .error e ctx
  | .ok i ctx => .ok (ctx.block i).trampoline ctx

/-- `jit_tramp_patch` of the trampoline of block `i`. -/
def jitTrampPatch (ctx : JitCtx) (i : Nat) (target : Word) : JitCtx :=
  { ctx with tramps := patch ctx.tramps (i * dvmTrampSize + 6) (le 8 target.toNat) }

/-! ## 3. The block compiler -/

def JitCtx.emit (env : JitEnv) (ctx : JitCtx) (cs : JitCode) : JitCtx :=
  { ctx with code := jitEmit env ctx.code cs }

/-- The `n` bytes of bytecode at `p`. -/
def JitCtx.bcBytes (ctx : JitCtx) (p n : Nat) : List Byte := (List.range' p n).map ctx.bc

/-- The loop of `jit_compile_block` from `ip` on; `fuel` is what is left of the bytecode. -/
def compileLoop (env : JitEnv) : Nat → JitCtx → Nat → JitResult Unit
  | 0, ctx, _ => .ok () ctx
  | fuel + 1, ctx, ip =>
    if ip < ctx.bcLen then
      match Op.ofCode (ctx.bc ip) with
      | none => .error .unhandled ctx
      | some op =>
        let o := op.shape.fetch (ctx.bcBytes (ip + 1) op.shape.size)
        match op with
        | .call =>
          match jitTrampFor env ctx o.off with
          | .error e ctx => .error e ctx
          | .ok ok ctx =>
            match jitTrampFor env ctx o.err with
            | .error e ctx => .error e ctx
            | .ok err ctx => .ok () (ctx.emit env (jitEmitCall ok err))
        | .ret => .ok () (ctx.emit env jitEmitRet)
        | .throw => .ok () (ctx.emit env jitEmitThrow)
        | .halt => .ok () (ctx.emit env jitEpilogue)
        | op =>
          match jitStraight op o with
          | none => .error .unhandled ctx
          | some cs => compileLoop env fuel (ctx.emit env cs) (ip + op.size)
    else .ok () ctx

/-- `jit_compile_block`. -/
def jitCompileBlock (env : JitEnv) (ctx : JitCtx) (bcOffset : BitVec 32) : JitResult Word :=
  match jitBlockGet env ctx bcOffset with
  | .error e ctx => .error e ctx
  | .ok i ctx =>
    match (ctx.block i).native with
    | some native => .ok native ctx
    | none =>
      let blockStart := ctx.code.buf + BitVec.ofNat 64 ctx.code.len
      match compileLoop env (ctx.bcLen - bcOffset.toNat) ctx bcOffset.toNat with
      | .error e ctx => .error e ctx
      | .ok _ ctx =>
        let ctx := { ctx with
          code := jitBufMakeExec ctx.code
          blocks := ctx.blocks.modify i fun b => { b with native := some blockStart } }
        .ok blockStart (jitTrampPatch ctx i blockStart)

/-- `jit_entry`. -/
def jitEntry (env : JitEnv) (ctx : JitCtx) : JitResult Word :=
  match jitCompileBlock env ctx 0 with
  | .error e ctx => .error e ctx
  | .ok _ ctx => jitTrampFor env ctx 0

end Dvm
