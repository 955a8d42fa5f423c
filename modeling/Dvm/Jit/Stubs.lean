/-
# Compile stubs

A stub has 71 bytes and its slot in the arena has 64.  So a stub is whole until the next block is
made, whose stub begins in the middle of the pops of this one: at any time exactly the most
recent stub is what `emit_compile_stub` wrote (`stub_intact_iff`), and all of them are only while
there is at most one.
-/
import Dvm.Jit.Compile

namespace Dvm

open Bytes ByteMem Runs

/-- The stub that was written for block `i`. -/
def JitCtx.stub (env : JitEnv) (ctx : JitCtx) (i : Nat) : List Byte :=
  emitCompileStub env (ctx.block i).bcOffset

/-- The slot of block `i` still begins with the stub that was written there. -/
def StubIntact (env : JitEnv) (ctx : JitCtx) (i : Nat) : Prop :=
  field ctx.stubs (i * stubSlot) (ctx.stub env i).length = ctx.stub env i

/-- Every block's stub is intact and inside the arena. -/
def StubsIntact (env : JitEnv) (ctx : JitCtx) : Prop :=
  ∀ i < ctx.blocks.length,
    StubIntact env ctx i ∧ i * stubSlot + (ctx.stub env i).length ≤ stubCap

/-! ## 1. The bytes of a stub -/

theorem length_emitCompileStub (env : JitEnv) (off : BitVec 32) :
    (emitCompileStub env off).length = 71 := by
  simp [emitCompileStub]

theorem stub_first (env : JitEnv) (off : BitVec 32) : (emitCompileStub env off)[0]? = some 0x48 :=
  rfl

/-- Where the next slot begins, a stub restores `r8`. -/
theorem stub_next (env : JitEnv) (off : BitVec 32) :
    (emitCompileStub env off)[stubSlot]? = some 0x58 := by
  simp [emitCompileStub, stubSlot]

/-! ## 2. The arena over a run -/

/-- The most recent stub is there, and behind every other one the next begins. -/
structure StubArena (env : JitEnv) (ctx : JitCtx) : Prop where
  few : ctx.blocks.length ≤ dvmMaxBlocks
  size : stubCap ≤ ctx.stubs.length
  last : ∀ i, i + 1 = ctx.blocks.length → StubIntact env ctx i
  next : ∀ i, i + 1 < ctx.blocks.length → ctx.stubs[(i + 1) * stubSlot]? = some 0x48

theorem stubArena_addBlock {env : JitEnv} {ctx : JitCtx} {off : BitVec 32}
    (hroom : ctx.blocks.length < dvmMaxBlocks) (h : StubArena env ctx) :
    StubArena env (ctx.addBlock env off) := by
  have hpos : ctx.blocks.length * stubSlot ≤ ctx.stubs.length := by
    have := h.size
    simp only [stubCap, stubSlot] at this ⊢
    omega
  refine ⟨?_, ?_, ?_, ?_⟩
  · rw [length_addBlock]
    exact hroom
  · exact Nat.le_trans h.size (length_le_patch hpos)
  · intro i hi
    obtain rfl : i = ctx.blocks.length := by rw [length_addBlock] at hi; omega
    have hstub : (ctx.addBlock env off).stub env ctx.blocks.length = emitCompileStub env off := by
      rw [JitCtx.stub, block_addBlock_self]
    rw [StubIntact, hstub]
    exact field_patch_self hpos
  · intro i hi
    rw [length_addBlock] at hi
    rcases Nat.lt_or_ge (i + 1) ctx.blocks.length with hlt | hge
    · have hbefore : (i + 1) * stubSlot < ctx.blocks.length * stubSlot := by
        simp only [stubSlot]
        omega
      exact (getElem?_patch_before hpos hbefore).trans (h.next i hlt)
    · -- the new stub begins in the slot behind that of block `i`
      have hlen : ctx.blocks.length = i + 1 := by omega
      have hself := field_patch_self (v := emitCompileStub env off) hpos
      have hget := congrArg (·[0]?) hself
      rw [getElem?_field (by rw [length_emitCompileStub]; decide), stub_first, Nat.add_zero,
        hlen] at hget
      simp only [JitCtx.addBlock, hlen]
      exact hget

theorem run_stubArena {env : JitEnv} {bc : Nat → Byte} {bcLen : Nat}
    {es : List (JitCtx × JitCall)} {s : JitState} (hrun : JitRun env bc bcLen es s) :
    StubArena env s.ctx := by
  refine JitRun.keeps (P := StubArena env) ?_ ?_ ?_ ?_ hrun
  · refine ⟨Nat.zero_le _, Nat.le_of_eq List.length_replicate.symm, ?_, ?_⟩
    · intro i hi
      cases hi
    · intro i hi
      cases hi
  · intro ctx off h _ hroom
    exact stubArena_addBlock hroom h
  · intro ctx cs h
    exact ⟨h.few, h.size, h.last, h.next⟩
  · intro ctx i start h _
    have hlen : (ctx.finish i start).blocks.length = ctx.blocks.length := List.length_modify ..
    refine ⟨hlen ▸ h.few, h.size, ?_, ?_⟩
    · intro k hk
      rw [hlen] at hk
      have hname : ((ctx.finish i start).block k).bcOffset = (ctx.block k).bcOffset := by
        rw [block_finish ctx i k start (by omega)]
        split <;> rfl
      rw [StubIntact, JitCtx.stub, hname]
      exact h.last k hk
    · intro k hk
      rw [hlen] at hk
      exact h.next k hk

/-! ## 3. Which stubs are intact -/

/-- Of the blocks of a context exactly the most recent one has its stub. -/
theorem stub_intact_iff {env : JitEnv} {bc : Nat → Byte} {bcLen : Nat}
    {es : List (JitCtx × JitCall)} {s : JitState} (hrun : JitRun env bc bcLen es s) {i : Nat}
    (hi : i < s.ctx.blocks.length) : StubIntact env s.ctx i ↔ i + 1 = s.ctx.blocks.length := by
  have harena := run_stubArena hrun
  constructor
  · intro hintact
    refine Classical.byContradiction fun hne => ?_
    have hnext := harena.next i (by omega)
    have hget := congrArg (·[stubSlot]?) hintact
    rw [JitCtx.stub, getElem?_field (by rw [length_emitCompileStub]; decide), stub_next,
      ← Nat.succ_mul, hnext] at hget
    exact absurd hget (by decide)
  · exact harena.last i

/-- The stubs of a context are all intact as long as there is at most one. -/
theorem stubs_intact_iff (env : JitEnv) (bc : Nat → Byte) (bcLen : Nat)
    {es : List (JitCtx × JitCall)} {s : JitState} (hrun : JitRun env bc bcLen es s) :
    StubsIntact env s.ctx ↔ s.ctx.blocks.length ≤ 1 := by
  constructor
  · intro hall
    refine Classical.byContradiction fun hmany => ?_
    have hfirst := (stub_intact_iff hrun (i := 0) (by omega)).mp (hall 0 (by omega)).1
    omega
  · intro hfew i hi
    obtain rfl : i = 0 := by omega
    refine ⟨(stub_intact_iff hrun hi).mpr (by omega), ?_⟩
    rw [JitCtx.stub, length_emitCompileStub]
    decide

/-- A run that makes two blocks. -/
theorem run_two (env : JitEnv) : ∃ es ctx, JitRun env (fun _ => 0) 0 es ⟨ctx, none⟩ ∧
    (∀ e ∈ es, ∃ off, e.2 = .blockGet off) ∧ ctx.blocks.length = 2 := by
  have hadd : ∀ (ctx : JitCtx) off, ctx.find off = none → ctx.blocks.length < dvmMaxBlocks →
      (JitCall.blockGet off).run env ctx = ⟨ctx.addBlock env off, none⟩ := by
    intro ctx off hfind hlt
    rcases jitBlockGet_cases env ctx off with ⟨i, hfind', -⟩ | ⟨-, -, heq⟩ | ⟨-, hfull, -⟩
    · rw [hfind] at hfind'
      cases hfind'
    · rw [JitCall.run, heq]
      rfl
    · omega
  have hnone : (jitCtxNew env (fun _ => 0) 0).blocks.length = 0 := rfl
  have hone : ((jitCtxNew env (fun _ => 0) 0).addBlock env 0).blocks.length = 1 := rfl
  have hfirst := Run.single (@JitStep.call env (jitCtxNew env (fun _ => 0) 0) (.blockGet 0))
  rw [hadd _ _ rfl (by rw [hnone]; decide)] at hfirst
  have hsecond := hfirst.next
    (JitStep.call ((jitCtxNew env (fun _ => 0) 0).addBlock env 0) (.blockGet 1))
  rw [hadd _ _ rfl (by rw [hone]; decide)] at hsecond
  refine ⟨_, _, hsecond, ?_, rfl⟩
  intro e he
  rcases List.mem_cons.mp he with rfl | he
  · exact ⟨0, rfl⟩
  · obtain rfl := List.mem_singleton.mp he
    exact ⟨1, rfl⟩

theorem stubs_intact_iff_two : ∃ es s, JitRun hostEnv (fun _ => 0) 0 es s ∧
    s.ctx.blocks.length = 2 ∧ (StubsIntact hostEnv s.ctx ↔ s.ctx.blocks.length ≤ 1) := by
  obtain ⟨es, ctx, hrun, -, hlen⟩ := run_two hostEnv
  exact ⟨_, _, hrun, hlen, stubs_intact_iff hostEnv _ _ hrun⟩

/-- With a second block the stub of the first is damaged. -/
theorem stub_damaged : ¬ ∀ (env : JitEnv) (bc : Nat → Byte) (bcLen : Nat)
    (es : List (JitCtx × JitCall)) (s : JitState), JitRun env bc bcLen es s →
    (∀ e ∈ es, ∃ off, e.2 = .blockGet off ∨ e.2 = .trampFor off) →
    s.ctx.blocks.length ≤ dvmMaxBlocks → StubsIntact env s.ctx := by
  intro hall
  obtain ⟨es, ctx, hrun, hgets, hlen⟩ := run_two hostEnv
  have hlen' : (JitState.mk ctx none).ctx.blocks.length = 2 := hlen
  have hintact := hall _ _ _ _ _ hrun (fun e he => (hgets e he).imp fun _ h => .inl h)
    (by rw [hlen']; decide)
  have hfirst := (stub_intact_iff hrun (i := 0) (by omega)).mp (hintact 0 (by omega)).1
  omega

end Dvm
