/-
# What the functions of the JIT do to a context

The specifications that the results on the JIT are derived from, without unfolding its functions
again: `jit_block_get` finds a block, adds one or aborts (`jitBlockGet_cases`); the compile loop
is a scan of the bytecode and the end of the block (`compileLoop_eq`); `jit_compile_block` returns
a block that is there or emits one (`jitCompileBlock_cases`).  The runs of the following modules
are sequences of calls on one context (`JitStep`), up to the call that aborts.
-/
import Dvm.Base.Runs
import Dvm.Jit.Block

namespace Dvm

open Bytes ByteMem X86 Runs

/-! ## 1. The block table -/

/-- The context with a block more. -/
def JitCtx.addBlock (env : JitEnv) (ctx : JitCtx) (bcOffset : BitVec 32) : JitCtx :=
  let i := ctx.blocks.length
  { ctx with
    blocks := ctx.blocks ++
      [⟨bcOffset, env.trampArena + BitVec.ofNat 64 (i * dvmTrampSize), none⟩]
    stubs := patch ctx.stubs (i * stubSlot) (emitCompileStub env bcOffset)
    tramps := patch ctx.tramps (i * dvmTrampSize)
      (trampInit (env.stubArena + BitVec.ofNat 64 (i * stubSlot))) }

/-- The bytecode offsets that have a block. -/
def JitCtx.known (ctx : JitCtx) : List (BitVec 32) := ctx.blocks.map Block.bcOffset

theorem find_eq_none {ctx : JitCtx} {off : BitVec 32} : ctx.find off = none ↔ off ∉ ctx.known := by
  rw [JitCtx.find, List.findIdx?_eq_none_iff]
  simp only [JitCtx.known, List.mem_map, not_exists, not_and, decide_eq_false_iff_not]

theorem find_eq_some {ctx : JitCtx} {off : BitVec 32} {i : Nat} (h : ctx.find off = some i) :
    i < ctx.blocks.length ∧ (ctx.block i).bcOffset = off := by
  rw [JitCtx.find, List.findIdx?_eq_some_iff_getElem] at h
  obtain ⟨hi, hoff, -⟩ := h
  refine ⟨hi, ?_⟩
  rw [JitCtx.block, List.getD_eq_getElem?_getD, List.getElem?_eq_getElem hi, Option.getD_some]
  exact of_decide_eq_true hoff

theorem known_block {ctx : JitCtx} {i : Nat} (hi : i < ctx.blocks.length) :
    ctx.known[i]? = some (ctx.block i).bcOffset := by
  rw [JitCtx.known, List.getElem?_map, List.getElem?_eq_getElem hi, JitCtx.block,
    List.getD_eq_getElem?_getD, List.getElem?_eq_getElem hi]
  rfl

theorem block_addBlock_of_lt {env : JitEnv} {ctx : JitCtx} {off : BitVec 32} {i : Nat}
    (h : i < ctx.blocks.length) : (ctx.addBlock env off).block i = ctx.block i := by
  simp only [JitCtx.block, JitCtx.addBlock, List.getD_eq_getElem?_getD,
    List.getElem?_append_left h]

theorem block_addBlock_self (env : JitEnv) (ctx : JitCtx) (off : BitVec 32) :
    (ctx.addBlock env off).block ctx.blocks.length =
      ⟨off, env.trampArena + BitVec.ofNat 64 (ctx.blocks.length * dvmTrampSize), none⟩ := by
  simp [JitCtx.block, JitCtx.addBlock]

theorem length_addBlock (env : JitEnv) (ctx : JitCtx) (off : BitVec 32) :
    (ctx.addBlock env off).blocks.length = ctx.blocks.length + 1 := by
  simp [JitCtx.addBlock]

theorem known_addBlock (env : JitEnv) (ctx : JitCtx) (off : BitVec 32) :
    (ctx.addBlock env off).known = ctx.known ++ [off] := by
  simp [JitCtx.known, JitCtx.addBlock]

/-- A block is found, or there is room for a new one, or the table is full. -/
theorem jitBlockGet_cases (env : JitEnv) (ctx : JitCtx) (off : BitVec 32) :
    (∃ i, ctx.find off = some i ∧ jitBlockGet env ctx off = .ok i ctx) ∨
    (ctx.find off = none ∧ ctx.blocks.length < dvmMaxBlocks ∧
      jitBlockGet env ctx off = .ok ctx.blocks.length (ctx.addBlock env off)) ∨
    (ctx.find off = none ∧ dvmMaxBlocks ≤ ctx.blocks.length ∧
      jitBlockGet env ctx off = .error .tableFull ctx) := by
  unfold jitBlockGet
  cases hfind : ctx.find off with
  | some i => exact .inl ⟨i, rfl, rfl⟩
  | none =>
    by_cases hfull : dvmMaxBlocks ≤ ctx.blocks.length
    · exact .inr (.inr ⟨rfl, hfull, if_pos hfull⟩)
    · have hpos : (ctx.blocks.length + 1) * stubSlot - stubSlot = ctx.blocks.length * stubSlot := by
        rw [Nat.add_mul, Nat.one_mul, Nat.add_sub_cancel]
      refine .inr (.inl ⟨rfl, Nat.lt_of_not_le hfull, ?_⟩)
      simp only [if_neg hfull, hpos]
      rfl

/-! ## 2. The compile loop -/

/-- How a block ends. -/
inductive BlockEnd where
  /-- The bytecode is over. -/
  | stop
  | unhandled
  | call (ok err : BitVec 32)
  /-- `RET`, `THROW` or `HALT`, with what is emitted for it. -/
  | last (cs : JitCode)

/-- The operands of the opcode at `p`. -/
def bcOperands (bc : Nat → Byte) (op : Op) (p : Nat) : Operands :=
  op.shape.fetch ((List.range' (p + 1) op.shape.size).map bc)

/-- The end of a block at an opcode that does not go on. -/
def blockEnd (op : Op) (o : Operands) : BlockEnd :=
  match op with
  | .call => .call o.off o.err
  | .ret => .last jitEmitRet
  | .throw => .last jitEmitThrow
  | .halt => .last jitEpilogue
  | _ => .unhandled

/-- What is emitted from `ip` on before the block ends, and how it ends. -/
def scanBlock (bc : Nat → Byte) (bcLen : Nat) : Nat → Nat → JitCode × BlockEnd
  | 0, _ => ([], .stop)
  | fuel + 1, ip =>
    if ip < bcLen then
      match Op.ofCode (bc ip) with
      | none => ([], .unhandled)
      | some op =>
        match jitStraight op (bcOperands bc op ip) with
        | some cs =>
          let rest := scanBlock bc bcLen fuel (ip + op.size)
          (cs ++ rest.1, rest.2)
        | none => ([], blockEnd op (bcOperands bc op ip))
    else ([], .stop)

/-- What the end of a block does. -/
def endBlock (env : JitEnv) (ctx : JitCtx) : BlockEnd → JitResult Unit
  | .stop => .ok () ctx
  | .unhandled => .error .unhandled ctx
  | .last cs => .ok () (ctx.emit env cs)
  | .call ok err =>
    match jitTrampFor env ctx ok with
    | .error e ctx => .error e ctx
    | .ok ok ctx =>
      match jitTrampFor env ctx err with
      | .error e ctx => .error e ctx
      | .ok err ctx => .ok () (ctx.emit env (jitEmitCall ok err))

@[simp] theorem emit_nil (env : JitEnv) (ctx : JitCtx) : ctx.emit env [] = ctx := rfl

@[simp] theorem emit_code (env : JitEnv) (ctx : JitCtx) (cs : JitCode) :
    (ctx.emit env cs).code = jitEmit env ctx.code cs := rfl

theorem emit_emit (env : JitEnv) (ctx : JitCtx) (cs ds : JitCode) :
    (ctx.emit env cs).emit env ds = ctx.emit env (cs ++ ds) := by
  rw [JitCtx.emit, JitCtx.emit, JitCtx.emit, jitEmit_append]

/-- One pass of the loop, by what the opcode is. -/
theorem compileLoop_succ (env : JitEnv) (fuel : Nat) (ctx : JitCtx) {ip : Nat} {op : Op}
    (hip : ip < ctx.bcLen) (hop : Op.ofCode (ctx.bc ip) = some op) :
    compileLoop env (fuel + 1) ctx ip =
      match jitStraight op (bcOperands ctx.bc op ip) with
      | some cs => compileLoop env fuel (ctx.emit env cs) (ip + op.size)
      | none => endBlock env ctx (blockEnd op (bcOperands ctx.bc op ip)) := by
  have hops : op.shape.fetch (ctx.bcBytes (ip + 1) op.shape.size) = bcOperands ctx.bc op ip := rfl
  rw [compileLoop, if_pos hip, hop]
  simp only [hops]
  cases op <;> rfl

/-- The loop is the scan, then the end of the block. -/
theorem compileLoop_eq (env : JitEnv) (fuel : Nat) (ctx : JitCtx) (ip : Nat) :
    compileLoop env fuel ctx ip =
      endBlock env (ctx.emit env (scanBlock ctx.bc ctx.bcLen fuel ip).1)
        (scanBlock ctx.bc ctx.bcLen fuel ip).2 := by
  induction fuel generalizing ctx ip with
  | zero => rfl
  | succ fuel ih =>
    by_cases hip : ip < ctx.bcLen
    · cases hop : Op.ofCode (ctx.bc ip) with
      | none => simp [compileLoop, scanBlock, hip, hop, endBlock]
      | some op =>
        rw [compileLoop_succ env fuel ctx hip hop, scanBlock, if_pos hip]
        simp only [hop]
        cases jitStraight op (bcOperands ctx.bc op ip) with
        | none => rfl
        | some cs =>
          simp only
          rw [ih, emit_emit]
          rfl
    · simp [compileLoop, scanBlock, hip, endBlock]

/-! ## 3. The block compiler -/

/-- What `jit_compile_block` does behind its loop. -/
def JitCtx.finish (ctx : JitCtx) (i : Nat) (blockStart : Word) : JitCtx :=
  jitTrampPatch { ctx with
    code := jitBufMakeExec ctx.code
    blocks := ctx.blocks.modify i fun b => { b with native := some blockStart } } i blockStart

/-- The bytecode of a block, scanned. -/
def JitCtx.scan (ctx : JitCtx) (off : BitVec 32) : JitCode × BlockEnd :=
  scanBlock ctx.bc ctx.bcLen (ctx.bcLen - off.toNat) off.toNat

/-- The compilation of block `i`, which begins at `off`. -/
def compileNew (env : JitEnv) (ctx : JitCtx) (i : Nat) (off : BitVec 32) : JitResult Word :=
  let blockStart := ctx.code.buf + BitVec.ofNat 64 ctx.code.len
  match endBlock env (ctx.emit env (ctx.scan off).1) (ctx.scan off).2 with
  | .error e ctx => .error e ctx
  | .ok _ ctx => .ok blockStart (ctx.finish i blockStart)

/-- There is no block for a full table, there is native code already, or it is made now. -/
theorem jitCompileBlock_cases (env : JitEnv) (ctx : JitCtx) (off : BitVec 32) :
    (∃ e ctx', jitBlockGet env ctx off = .error e ctx' ∧
      jitCompileBlock env ctx off = .error e ctx') ∨
    ∃ i ctx', jitBlockGet env ctx off = .ok i ctx' ∧
      ((∃ native, (ctx'.block i).native = some native ∧
        jitCompileBlock env ctx off = .ok native ctx') ∨
      ((ctx'.block i).native = none ∧
        jitCompileBlock env ctx off = compileNew env ctx' i off)) := by
  unfold jitCompileBlock
  cases hget : jitBlockGet env ctx off with
  | error e ctx' => exact .inl ⟨e, ctx', rfl, rfl⟩
  | ok i ctx' =>
    refine .inr ⟨i, ctx', rfl, ?_⟩
    cases hnative : (ctx'.block i).native with
    | some native => exact .inl ⟨native, rfl, by simp only [hnative]⟩
    | none =>
      refine .inr ⟨rfl, ?_⟩
      simp only [hnative, compileLoop_eq]
      rfl

theorem block_finish (ctx : JitCtx) (i k : Nat) (start : Word) (hk : k < ctx.blocks.length) :
    (ctx.finish i start).block k =
      if i = k then { ctx.block k with native := some start } else ctx.block k := by
  simp only [JitCtx.block, JitCtx.finish, jitTrampPatch, List.getD_eq_getElem?_getD,
    List.getElem?_modify, List.getElem?_eq_getElem hk]
  by_cases h : i = k <;> simp [h]

/-- Finishing a block does not rename one. -/
theorem known_finish (ctx : JitCtx) (i : Nat) (start : Word) :
    (ctx.finish i start).known = ctx.known := by
  apply List.ext_getElem?
  intro k
  simp only [JitCtx.known, JitCtx.finish, jitTrampPatch, List.getElem?_map, List.getElem?_modify]
  cases ctx.blocks[k]? with
  | none => rfl
  | some b =>
    simp only [Option.map_eq_map, Option.map_some]
    split <;> rfl

theorem find_eq_known (ctx : JitCtx) (off : BitVec 32) :
    ctx.find off = ctx.known.findIdx? fun o => o = off := by
  rw [JitCtx.known, List.findIdx?_map]
  rfl

theorem find_finish (ctx : JitCtx) (i : Nat) (start : Word) (off : BitVec 32) :
    (ctx.finish i start).find off = ctx.find off := by
  rw [find_eq_known, known_finish, find_eq_known]

/-- The trampoline of a bytecode offset. -/
def JitCtx.trampOf (ctx : JitCtx) (off : BitVec 32) : Word :=
  match ctx.find off with
  | some i => (ctx.block i).trampoline
  | none => 0

theorem trampOf_emit (env : JitEnv) (ctx : JitCtx) (cs : JitCode) (off : BitVec 32) :
    (ctx.emit env cs).trampOf off = ctx.trampOf off := rfl

theorem trampOf_finish (ctx : JitCtx) (i : Nat) (start : Word) (off : BitVec 32) :
    (ctx.finish i start).trampOf off = ctx.trampOf off := by
  rw [JitCtx.trampOf, JitCtx.trampOf, find_finish]
  cases hfind : ctx.find off with
  | none => rfl
  | some k =>
    show ((ctx.finish i start).block k).trampoline = (ctx.block k).trampoline
    rw [block_finish ctx i k start (find_eq_some hfind).1]
    split <;> rfl

/-- What is emitted for the end of a block. -/
def endCode (ctx : JitCtx) : BlockEnd → JitCode
  | .stop | .unhandled => []
  | .last cs => cs
  | .call ok err => jitEmitCall (ctx.trampOf ok) (ctx.trampOf err)

/-- The table and the trampolines have the sizes they are allotted. -/
structure TableInv (ctx : JitCtx) : Prop where
  few : ctx.blocks.length ≤ dvmMaxBlocks
  size : ctx.tramps.length = trampCap

/-- A trampoline's target is inside the arena. -/
theorem TableInv.target_fits {ctx : JitCtx} (h : TableInv ctx) {i : Nat}
    (hi : i < ctx.blocks.length) (target : Word) :
    i * dvmTrampSize + 6 + (le 8 target.toNat).length ≤ ctx.tramps.length := by
  have := h.few
  rw [length_le, h.size]
  simp only [trampCap, dvmMaxBlocks, dvmTrampSize] at *
  omega

theorem finish_tableInv {ctx : JitCtx} {i : Nat} (start : Word) (hi : i < ctx.blocks.length)
    (h : TableInv ctx) : TableInv (ctx.finish i start) := by
  refine ⟨?_, (length_patch (h.target_fits hi start)).trans h.size⟩
  simp only [JitCtx.finish, jitTrampPatch, List.length_modify]
  exact h.few

/-- A context with blocks added. -/
structure CtxExtends (ctx ctx' : JitCtx) : Prop where
  bc : ctx'.bc = ctx.bc
  bcLen : ctx'.bcLen = ctx.bcLen
  blocks : ctx.blocks <+: ctx'.blocks
  tramps : ∀ i < ctx.blocks.length,
    field ctx'.tramps (i * dvmTrampSize) dvmTrampSize
      = field ctx.tramps (i * dvmTrampSize) dvmTrampSize
  inv : TableInv ctx'

theorem CtxExtends.trans {ctx₁ ctx₂ ctx₃ : JitCtx} (h : CtxExtends ctx₁ ctx₂)
    (h' : CtxExtends ctx₂ ctx₃) : CtxExtends ctx₁ ctx₃ where
  bc := h'.bc.trans h.bc
  bcLen := h'.bcLen.trans h.bcLen
  blocks := h.blocks.trans h'.blocks
  tramps i hi := (h'.tramps i (Nat.lt_of_lt_of_le hi h.blocks.length_le)).trans (h.tramps i hi)
  inv := h'.inv

theorem CtxExtends.emit {ctx ctx' : JitCtx} (h : CtxExtends ctx ctx') (env : JitEnv)
    (cs : JitCode) : CtxExtends ctx (ctx'.emit env cs) :=
  ⟨h.bc, h.bcLen, h.blocks, h.tramps, h.inv.few, h.inv.size⟩

theorem CtxExtends.refl {ctx : JitCtx} (h : TableInv ctx) : CtxExtends ctx ctx :=
  ⟨rfl, rfl, List.prefix_rfl, fun _ _ => rfl, h⟩

theorem CtxExtends.block {ctx ctx' : JitCtx} (h : CtxExtends ctx ctx') {i : Nat}
    (hi : i < ctx.blocks.length) : ctx'.block i = ctx.block i := by
  obtain ⟨bs, hbs⟩ := h.blocks
  simp only [JitCtx.block, ← hbs, List.getD_eq_getElem?_getD, List.getElem?_append_left hi]

theorem CtxExtends.find {ctx ctx' : JitCtx} (h : CtxExtends ctx ctx') {off : BitVec 32} {i : Nat}
    (hfind : ctx.find off = some i) : ctx'.find off = some i := by
  obtain ⟨bs, hbs⟩ := h.blocks
  rw [JitCtx.find] at hfind ⊢
  rw [← hbs, List.findIdx?_append, hfind]
  rfl

theorem CtxExtends.trampOf {ctx ctx' : JitCtx} (h : CtxExtends ctx ctx') {off : BitVec 32} {i : Nat}
    (hfind : ctx.find off = some i) : ctx'.trampOf off = ctx.trampOf off := by
  simp only [JitCtx.trampOf, h.find hfind, hfind, h.block (find_eq_some hfind).1]

theorem find_addBlock (env : JitEnv) {ctx : JitCtx} {off : BitVec 32} (h : ctx.find off = none) :
    (ctx.addBlock env off).find off = some ctx.blocks.length := by
  rw [JitCtx.find] at h ⊢
  simp only [JitCtx.addBlock, List.findIdx?_append, h]
  simp

theorem length_trampInit (target : Word) : (trampInit target).length = dvmTrampSize := by
  simp [trampInit, dvmTrampSize]

theorem extends_addBlock {env : JitEnv} {ctx : JitCtx} {off : BitVec 32}
    (hroom : ctx.blocks.length < dvmMaxBlocks) (h : TableInv ctx) :
    CtxExtends ctx (ctx.addBlock env off) := by
  have hfit : ∀ target : Word,
      ctx.blocks.length * dvmTrampSize + (trampInit target).length ≤ ctx.tramps.length := by
    intro target
    rw [length_trampInit, h.size, trampCap, ← Nat.succ_mul]
    exact Nat.mul_le_mul_right _ hroom
  refine ⟨rfl, rfl, List.prefix_append _ _, fun i hi => ?_, ?_, ?_⟩
  · refine field_patch_disjoint (hfit _) (.inl ?_)
    rw [← Nat.succ_mul]
    exact Nat.mul_le_mul_right _ hi
  · rw [length_addBlock]
    exact hroom
  · exact (length_patch (hfit _)).trans h.size

theorem lt_addBlock {env : JitEnv} {ctx : JitCtx} {off : BitVec 32} {i : Nat}
    (hi : i < (ctx.addBlock env off).blocks.length) :
    i < ctx.blocks.length ∨ i = ctx.blocks.length := by
  rw [length_addBlock] at hi
  omega

/-- The trampolines follow one another in the arena. -/
theorem trampoline_addBlock {env : JitEnv} {ctx : JitCtx} {off : BitVec 32}
    (h : ∀ i < ctx.blocks.length,
      (ctx.block i).trampoline = env.trampArena + BitVec.ofNat 64 (i * dvmTrampSize)) :
    ∀ i < (ctx.addBlock env off).blocks.length,
      ((ctx.addBlock env off).block i).trampoline
        = env.trampArena + BitVec.ofNat 64 (i * dvmTrampSize) := by
  intro i hi
  rcases lt_addBlock hi with hlt | rfl
  · rw [block_addBlock_of_lt hlt]
    exact h i hlt
  · rw [block_addBlock_self]

/-- The trampoline of a new block leads to its stub. -/
theorem tramps_addBlock_self {env : JitEnv} {ctx : JitCtx} {off : BitVec 32}
    (hroom : ctx.blocks.length < dvmMaxBlocks) (h : TableInv ctx) :
    field (ctx.addBlock env off).tramps (ctx.blocks.length * dvmTrampSize) dvmTrampSize
      = trampInit (env.stubArena + BitVec.ofNat 64 (ctx.blocks.length * stubSlot)) := by
  have hpos : ctx.blocks.length * dvmTrampSize ≤ ctx.tramps.length := by
    rw [h.size]
    exact Nat.mul_le_mul_right _ (Nat.le_of_lt hroom)
  have hself := field_patch_self (v := trampInit (env.stubArena
    + BitVec.ofNat 64 (ctx.blocks.length * stubSlot))) hpos
  rw [length_trampInit] at hself
  exact hself

/-- A block that is got is in the table. -/
theorem jitBlockGet_ok {env : JitEnv} {ctx ctx' : JitCtx} {off : BitVec 32} {i : Nat}
    (hinv : TableInv ctx) (h : jitBlockGet env ctx off = .ok i ctx') :
    CtxExtends ctx ctx' ∧ ctx'.find off = some i ∧ ctx'.code = ctx.code ∧
      (ctx.find off = some i ∧ ctx' = ctx ∨ ctx.find off = none ∧ ctx' = ctx.addBlock env off) := by
  rcases jitBlockGet_cases env ctx off with ⟨k, hfind, heq⟩ | ⟨hfind, hroom, heq⟩ | ⟨-, -, heq⟩
  · rw [heq] at h
    cases h
    exact ⟨.refl hinv, hfind, rfl, .inl ⟨hfind, rfl⟩⟩
  · rw [heq] at h
    cases h
    exact ⟨extends_addBlock hroom hinv, find_addBlock env hfind, rfl, .inr ⟨hfind, rfl⟩⟩
  · rw [heq] at h
    cases h

theorem jitTrampFor_ok {env : JitEnv} {ctx ctx' : JitCtx} {off : BitVec 32} {t : Word}
    (hinv : TableInv ctx) (h : jitTrampFor env ctx off = .ok t ctx') :
    CtxExtends ctx ctx' ∧ ctx'.code = ctx.code ∧ t = ctx'.trampOf off ∧
      ∃ i, ctx'.find off = some i := by
  unfold jitTrampFor at h
  cases hget : jitBlockGet env ctx off with
  | error e ctx₁ =>
    rw [hget] at h
    cases h
  | ok i ctx₁ =>
    rw [hget] at h
    cases h
    obtain ⟨hext, hfind, hcode, -⟩ := jitBlockGet_ok hinv hget
    refine ⟨hext, hcode, ?_, i, hfind⟩
    rw [JitCtx.trampOf, hfind]

/-- The end of a block that is completed adds blocks and emits its code. -/
theorem endBlock_ok {env : JitEnv} {ctx ctx' : JitCtx} {e : BlockEnd} {x : Unit}
    (hinv : TableInv ctx) (h : endBlock env ctx e = .ok x ctx') :
    CtxExtends ctx ctx' ∧ ctx'.code = jitEmit env ctx.code (endCode ctx' e) := by
  cases e with
  | stop =>
    cases h
    exact ⟨.refl hinv, rfl⟩
  | unhandled => cases h
  | last cs =>
    cases h
    exact ⟨(CtxExtends.refl hinv).emit env cs, rfl⟩
  | call ok err =>
    simp only [endBlock] at h
    cases hok : jitTrampFor env ctx ok with
    | error e ctx₁ => simp [hok] at h
    | ok t₁ ctx₁ =>
      obtain ⟨hext₁, hcode₁, ht₁, i, hfind⟩ := jitTrampFor_ok hinv hok
      simp only [hok] at h
      cases herr : jitTrampFor env ctx₁ err with
      | error e ctx₂ => simp [herr] at h
      | ok t₂ ctx₂ =>
        obtain ⟨hext₂, hcode₂, ht₂, -⟩ := jitTrampFor_ok hext₁.inv herr
        simp only [herr, EStateM.Result.ok.injEq] at h
        obtain ⟨-, rfl⟩ := h
        refine ⟨(hext₁.trans hext₂).emit env _, ?_⟩
        rw [endCode, trampOf_emit, trampOf_emit, emit_code, hcode₂, hcode₁, ht₁, ht₂,
          ← hext₂.trampOf hfind]

/-- What a completed compilation of a block without native code does: it makes the block and
those it calls, emits its code and finishes it. -/
theorem compileNew_ok {env : JitEnv} {ctx ctx' : JitCtx} {i : Nat} {off : BitVec 32} {p : Word}
    (hinv : TableInv ctx) (h : compileNew env ctx i off = .ok p ctx') :
    ∃ ctx₁, CtxExtends ctx ctx₁ ∧
      ctx₁.code = jitEmit env ctx.code ((ctx.scan off).1 ++ endCode ctx₁ (ctx.scan off).2) ∧
      p = ctx.code.buf + BitVec.ofNat 64 ctx.code.len ∧ ctx' = ctx₁.finish i p := by
  unfold compileNew at h
  cases hend : endBlock env (ctx.emit env (ctx.scan off).1) (ctx.scan off).2 with
  | error e ctx₁ => simp [hend] at h
  | ok _ ctx₁ =>
    have hemit := (CtxExtends.refl hinv).emit env (ctx.scan off).1
    obtain ⟨hext, hcode⟩ := endBlock_ok hemit.inv hend
    simp only [hend] at h
    cases h
    refine ⟨ctx₁, hemit.trans hext, ?_, rfl, rfl⟩
    rw [jitEmit_append]
    exact hcode

/-- `off` has native code. -/
def Compiled (ctx : JitCtx) (off : BitVec 32) : Prop :=
  ∃ i native, ctx.find off = some i ∧ (ctx.block i).native = some native

instance (ctx : JitCtx) (off : BitVec 32) : Decidable (Compiled ctx off) :=
  decidable_of_iff ((ctx.find off).bind fun i => (ctx.block i).native).isSome (by
    cases hfind : ctx.find off <;> simp [Compiled, hfind, Option.isSome_iff_exists])

/-- A block that is got stands for its offset, with the native code that this has. -/
theorem jitBlockGet_finds {env : JitEnv} {ctx ctx' : JitCtx} {off : BitVec 32} {i : Nat}
    (h : jitBlockGet env ctx off = .ok i ctx') :
    ctx'.find off = some i ∧
      (Compiled ctx off ↔ ∃ native, (ctx'.block i).native = some native) := by
  rcases jitBlockGet_cases env ctx off with ⟨k, hfind, heq⟩ | ⟨hfind, -, heq⟩ | ⟨-, -, heq⟩
  · rw [heq] at h
    cases h
    exact ⟨hfind, by simp [Compiled, hfind]⟩
  · rw [heq] at h
    cases h
    refine ⟨find_addBlock env hfind, ?_⟩
    rw [block_addBlock_self]
    simp [Compiled, hfind]
  · rw [heq] at h
    cases h

/-- A completed compilation finds native code, or makes the block and its code. -/
theorem jitCompileBlock_ok {env : JitEnv} {ctx ctx' : JitCtx} {off : BitVec 32} {p : Word}
    (hinv : TableInv ctx) (h : jitCompileBlock env ctx off = .ok p ctx') :
    (Compiled ctx off ∧ ctx' = ctx) ∨
    (¬ Compiled ctx off ∧ ∃ i ctx₁, CtxExtends ctx ctx₁ ∧ ctx₁.find off = some i ∧
      (ctx₁.block i).native = none ∧
      ctx₁.code = jitEmit env ctx.code ((ctx.scan off).1 ++ endCode ctx₁ (ctx.scan off).2) ∧
      p = ctx.code.buf + BitVec.ofNat 64 ctx.code.len ∧ ctx' = ctx₁.finish i p) := by
  rcases jitCompileBlock_cases env ctx off with ⟨e, ctx₀, -, heq⟩ | ⟨i, ctx₀, hget, hrest⟩
  · rw [heq] at h
    cases h
  · obtain ⟨hext, hfind, hcode, hfrom⟩ := jitBlockGet_ok hinv hget
    have hcomp := (jitBlockGet_finds hget).2
    rcases hrest with ⟨native, hnative, heq⟩ | ⟨hnative, heq⟩
    · rw [heq] at h
      cases h
      refine .inl ⟨hcomp.mpr ⟨_, hnative⟩, ?_⟩
      rcases hfrom with ⟨-, rfl⟩ | ⟨hnew, rfl⟩
      · rfl
      · rw [find_addBlock env hnew, Option.some.injEq] at hfind
        rw [← hfind, block_addBlock_self] at hnative
        cases hnative
    · rw [heq] at h
      obtain ⟨ctx₁, hext₁, hemit, hp, hctx'⟩ := compileNew_ok hext.inv h
      have hscan : ctx₀.scan off = ctx.scan off := by
        rw [JitCtx.scan, hext.bc, hext.bcLen, JitCtx.scan]
      have hi := (find_eq_some hfind).1
      refine .inr ⟨?_, i, ctx₁, hext.trans hext₁, hext₁.find hfind, ?_, ?_, ?_, hctx'⟩
      · rw [hcomp]
        rintro ⟨native, hsome⟩
        rw [hnative] at hsome
        cases hsome
      · rw [hext₁.block hi, hnative]
      · rw [hemit, hcode, hscan]
      · rw [hp, hcode]

/-- The context after the compilation of the block at 0 of a new one, to the code `cs`. -/
def firstCompiled (env : JitEnv) (bc : Nat → Byte) (bcLen : Nat) (cs : JitCode) : JitCtx :=
  (((jitCtxNew env bc bcLen).addBlock env 0).emit env cs).finish 0 (env.mmap (1 <<< 20))

/-- The block at 0 of a new context is compiled to its end. -/
theorem compile_first_eq (env : JitEnv) (bc : Nat → Byte) (bcLen : Nat) {cs : JitCode}
    (h : (scanBlock bc bcLen bcLen 0).2 = .last cs) :
    jitCompileBlock env (jitCtxNew env bc bcLen) 0 = .ok (env.mmap (1 <<< 20))
      (firstCompiled env bc bcLen ((scanBlock bc bcLen bcLen 0).1 ++ cs)) := by
  rcases jitCompileBlock_cases env (jitCtxNew env bc bcLen) 0 with
    ⟨e, ctx₀, hget, -⟩ | ⟨i, ctx₀, hget, hrest⟩
  · cases hget
  · have hctx : i = 0 ∧ ctx₀ = (jitCtxNew env bc bcLen).addBlock env 0 := by
      cases hget
      exact ⟨rfl, rfl⟩
    obtain ⟨rfl, rfl⟩ := hctx
    rcases hrest with ⟨native, hnative, -⟩ | ⟨-, heq⟩
    · cases hnative
    · have hscan : ((jitCtxNew env bc bcLen).addBlock env 0).scan 0
          = scanBlock bc bcLen bcLen 0 := rfl
      have hstart : env.mmap (1 <<< 20) + BitVec.ofNat 64 0 = env.mmap (1 <<< 20) :=
        BitVec.add_zero _
      rw [heq, compileNew, hscan, h, firstCompiled, ← emit_emit, ← hstart]
      rfl

theorem compile_first (env : JitEnv) (bc : Nat → Byte) (bcLen : Nat) {cs : JitCode}
    (h : (scanBlock bc bcLen bcLen 0).2 = .last cs) :
    ∃ ctx', jitCompileBlock env (jitCtxNew env bc bcLen) 0 = .ok (env.mmap (1 <<< 20)) ctx' ∧
      ctx'.code.bytes = ((scanBlock bc bcLen bcLen 0).1 ++ cs).flatten :=
  ⟨_, compile_first_eq env bc bcLen h, emit_bytes env (jitBufNew env (1 <<< 20)) _⟩

/-! ## 4. Sequences of calls -/

inductive JitCall where
  | blockGet (off : BitVec 32)
  | trampFor (off : BitVec 32)
  | compileBlock (off : BitVec 32)
  | entry
  deriving DecidableEq, Repr

/-- A context in use, and why the process was aborted if it was. -/
structure JitState where
  ctx : JitCtx
  aborted : Option JitAbort

def JitState.ofResult {α : Type} : JitResult α → JitState
  | .ok _ ctx => ⟨ctx, none⟩
  | .error e ctx => ⟨ctx, some e⟩

def JitCall.run (env : JitEnv) (ctx : JitCtx) : JitCall → JitState
  | blockGet off => .ofResult (jitBlockGet env ctx off)
  | trampFor off => .ofResult (jitTrampFor env ctx off)
  | compileBlock off => .ofResult (jitCompileBlock env ctx off)
  | entry => .ofResult (jitEntry env ctx)

/-- A call, labelled by itself and the context it is made on. -/
inductive JitStep (env : JitEnv) : JitState → JitCtx × JitCall → JitState → Prop
  | call (ctx : JitCtx) (c : JitCall) : JitStep env ⟨ctx, none⟩ (ctx, c) (c.run env ctx)

section

variable {env : JitEnv} {P : JitCtx → Prop}

theorem jitBlockGet_keeps
    (hadd : ∀ ctx off, P ctx → ctx.find off = none → ctx.blocks.length < dvmMaxBlocks →
      P (ctx.addBlock env off)) {ctx : JitCtx} (h : P ctx) (off : BitVec 32) :
    P (JitState.ofResult (jitBlockGet env ctx off)).ctx := by
  rcases jitBlockGet_cases env ctx off with ⟨i, -, heq⟩ | ⟨hnone, hlt, heq⟩ | ⟨-, -, heq⟩
  · rw [heq]
    exact h
  · rw [heq]
    exact hadd ctx off h hnone hlt
  · rw [heq]
    exact h

theorem jitTrampFor_keeps
    (hadd : ∀ ctx off, P ctx → ctx.find off = none → ctx.blocks.length < dvmMaxBlocks →
      P (ctx.addBlock env off)) {ctx : JitCtx} (h : P ctx) (off : BitVec 32) :
    P (JitState.ofResult (jitTrampFor env ctx off)).ctx := by
  have hkeep := jitBlockGet_keeps hadd h off
  unfold jitTrampFor
  cases hres : jitBlockGet env ctx off with
  | error e ctx' => rwa [hres] at hkeep
  | ok i ctx' => rwa [hres] at hkeep

theorem endBlock_keeps
    (hadd : ∀ ctx off, P ctx → ctx.find off = none → ctx.blocks.length < dvmMaxBlocks →
      P (ctx.addBlock env off))
    (hemit : ∀ ctx cs, P ctx → P (ctx.emit env cs)) {ctx : JitCtx} (h : P ctx) (e : BlockEnd) :
    P (JitState.ofResult (endBlock env ctx e)).ctx := by
  cases e with
  | stop => exact h
  | unhandled => exact h
  | last cs => exact hemit ctx cs h
  | call ok err =>
    have hok := jitTrampFor_keeps hadd h ok
    simp only [endBlock]
    cases hres : jitTrampFor env ctx ok with
    | error e ctx₁ => rwa [hres] at hok
    | ok t₁ ctx₁ =>
      rw [hres] at hok
      have hok : P ctx₁ := hok
      have herr := jitTrampFor_keeps hadd hok err
      simp only
      cases hres' : jitTrampFor env ctx₁ err with
      | error e ctx₂ => rwa [hres'] at herr
      | ok t₂ ctx₂ =>
        rw [hres'] at herr
        exact hemit _ _ herr

/-- What adding a block and emitting code keep is kept by a compilation up to the point where it
finishes its block, if it does. -/
theorem jitCompileBlock_effect
    (hadd : ∀ ctx off, P ctx → ctx.find off = none → ctx.blocks.length < dvmMaxBlocks →
      P (ctx.addBlock env off))
    (hemit : ∀ ctx cs, P ctx → P (ctx.emit env cs)) {ctx : JitCtx} (h : P ctx) (off : BitVec 32) :
    (P (JitState.ofResult (jitCompileBlock env ctx off)).ctx ∧
      ∀ p ctx', jitCompileBlock env ctx off = .ok p ctx' → Compiled ctx off) ∨
    ∃ ctx₁ i p, P ctx₁ ∧ ctx₁.find off = some i ∧ ¬ Compiled ctx off ∧
      jitCompileBlock env ctx off = .ok p (ctx₁.finish i p) := by
  have hkeep := jitBlockGet_keeps hadd h off
  rcases jitCompileBlock_cases env ctx off with ⟨e, ctx', hres, heq⟩ | ⟨i, ctx', hres, hrest⟩
  · rw [hres] at hkeep
    rw [heq]
    exact .inl ⟨hkeep, nofun⟩
  · obtain ⟨hfind, hcomp⟩ := jitBlockGet_finds hres
    rw [hres] at hkeep
    rcases hrest with ⟨native, hnative, heq⟩ | ⟨hnone, heq⟩
    · rw [heq]
      exact .inl ⟨hkeep, fun _ _ _ => hcomp.mpr ⟨native, hnative⟩⟩
    · have hkeep' := endBlock_keeps hadd hemit (hemit ctx' (ctx'.scan off).1 hkeep)
        (ctx'.scan off).2
      -- the block stays where it is in the table
      have hfind' := @endBlock_keeps env (fun ctx => ctx.find off = some i) (by
        intro ctx off' hfind _ _
        rw [JitCtx.find] at hfind ⊢
        rw [JitCtx.addBlock, List.findIdx?_append, hfind]
        rfl) (fun ctx cs hfind => hfind) (ctx'.emit env (ctx'.scan off).1) hfind
        (ctx'.scan off).2
      rw [heq, compileNew]
      cases hend : endBlock env (ctx'.emit env (ctx'.scan off).1) (ctx'.scan off).2 with
      | error e ctx₁ =>
        rw [hend] at hkeep'
        exact .inl ⟨hkeep', nofun⟩
      | ok _ ctx₁ =>
        rw [hend] at hkeep' hfind'
        refine .inr ⟨ctx₁, i, _, hkeep', hfind', ?_, rfl⟩
        rw [hcomp, hnone]
        rintro ⟨native, ⟨⟩⟩

theorem jitCompileBlock_keeps
    (hadd : ∀ ctx off, P ctx → ctx.find off = none → ctx.blocks.length < dvmMaxBlocks →
      P (ctx.addBlock env off))
    (hemit : ∀ ctx cs, P ctx → P (ctx.emit env cs))
    (hfinish : ∀ ctx i blockStart, P ctx → i < ctx.blocks.length → P (ctx.finish i blockStart))
    {ctx : JitCtx} (h : P ctx) (off : BitVec 32) :
    P (JitState.ofResult (jitCompileBlock env ctx off)).ctx := by
  rcases jitCompileBlock_effect hadd hemit h off with
    ⟨hkeep, -⟩ | ⟨ctx₁, i, p, hkeep, hfind, -, heq⟩
  · exact hkeep
  · rw [heq]
    exact hfinish _ _ _ hkeep (find_eq_some hfind).1

/-- What adding a block, emitting code and finishing a block keep is kept by every call. -/
theorem JitCall.run_keeps
    (hadd : ∀ ctx off, P ctx → ctx.find off = none → ctx.blocks.length < dvmMaxBlocks →
      P (ctx.addBlock env off))
    (hemit : ∀ ctx cs, P ctx → P (ctx.emit env cs))
    (hfinish : ∀ ctx i blockStart, P ctx → i < ctx.blocks.length → P (ctx.finish i blockStart))
    {ctx : JitCtx} (h : P ctx) (c : JitCall) : P (c.run env ctx).ctx := by
  cases c with
  | blockGet off => exact jitBlockGet_keeps hadd h off
  | trampFor off => exact jitTrampFor_keeps hadd h off
  | compileBlock off => exact jitCompileBlock_keeps hadd hemit hfinish h off
  | entry =>
    have hkeep := jitCompileBlock_keeps hadd hemit hfinish h 0
    simp only [JitCall.run, jitEntry]
    cases hres : jitCompileBlock env ctx 0 with
    | error e ctx' => rwa [hres] at hkeep
    | ok _ ctx' =>
      rw [hres] at hkeep
      exact jitTrampFor_keeps hadd hkeep 0

end

/-- The runs of a context that `jit_ctx_new` made. -/
def JitRun (env : JitEnv) (bc : Nat → Byte) (bcLen : Nat) :
    List (JitCtx × JitCall) → JitState → Prop :=
  Run (JitStep env) ⟨jitCtxNew env bc bcLen, none⟩

/-- The rule for properties of a context that adding a block, emitting code and finishing a
block keep. -/
theorem JitRun.keeps {env : JitEnv} {bc : Nat → Byte} {bcLen : Nat} {P : JitCtx → Prop}
    (hnew : P (jitCtxNew env bc bcLen))
    (hadd : ∀ ctx off, P ctx → ctx.find off = none → ctx.blocks.length < dvmMaxBlocks →
      P (ctx.addBlock env off))
    (hemit : ∀ ctx cs, P ctx → P (ctx.emit env cs))
    (hfinish : ∀ ctx i blockStart, P ctx → i < ctx.blocks.length → P (ctx.finish i blockStart))
    {es : List (JitCtx × JitCall)} {s : JitState} (hrun : JitRun env bc bcLen es s) : P s.ctx := by
  refine Run.invariant (I := fun _ s => P s.ctx) hnew ?_ hrun
  rintro es s e s' - h ⟨ctx, c⟩
  exact JitCall.run_keeps hadd hemit hfinish h c

theorem run_tableInv {env : JitEnv} {bc : Nat → Byte} {bcLen : Nat}
    {es : List (JitCtx × JitCall)} {s : JitState} (hrun : JitRun env bc bcLen es s) :
    TableInv s.ctx := by
  refine JitRun.keeps (P := TableInv) ?_ ?_ ?_ ?_ hrun
  · exact ⟨Nat.zero_le _, List.length_replicate⟩
  · intro ctx off h _ hroom
    exact (extends_addBlock hroom h).inv
  · intro ctx cs h
    exact ⟨h.few, h.size⟩
  · intro ctx i start h hi
    exact finish_tableInv start hi h

end Dvm
