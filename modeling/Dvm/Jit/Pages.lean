/-
# Stores to the native code buffer

`jit_buf_make_exec` takes the write permission away from the whole buffer after each compilation,
and nothing gives it back but a new mapping when the buffer grows.  So the first byte that a later
compilation emits faults, unless the buffer happens to be full just then.

`StoreAllowed` says which calls store nothing, or to writable pages only, by the context they are
made on; a run is free of faults exactly if all its calls are such (`stores_writable_iff`).
-/
import Dvm.Jit.Compile

namespace Dvm

open Bytes ByteMem X86 Runs

/-! ## 1. Faults of an emission -/

/-- An emitter that stores anything asks for one byte first. -/
def OneByteFirst (cs : JitCode) : Prop := ∀ bs ds, cs = bs :: ds → bs.length = 1

theorem OneByteFirst.append {cs ds : JitCode} (h : OneByteFirst cs) (h' : OneByteFirst ds) :
    OneByteFirst (cs ++ ds) := by
  cases cs with
  | nil => exact h'
  | cons b cs =>
    rintro _ _ ⟨⟩
    exact h b cs rfl

theorem writable_emit {env : JitEnv} {j : JitBuf} (cs : JitCode) (h : j.writable = true) :
    (jitEmit env j cs).writable = true ∧ (jitEmit env j cs).faulted = j.faulted := by
  induction cs generalizing j with
  | nil => exact ⟨h, rfl⟩
  | cons bs cs ih =>
    have hstore : (jitStore env j bs).writable = true ∧
        (jitStore env j bs).faulted = j.faulted := by
      unfold jitStore jitBufAlloc
      split
      · exact ⟨rfl, Bool.or_false _⟩
      · exact ⟨h, by simp [h]⟩
    obtain ⟨hw, hf⟩ := ih hstore.1
    exact ⟨hw, hf.trans hstore.2⟩

theorem faulted_emit {env : JitEnv} {j : JitBuf} (cs : JitCode) (h : j.faulted = true) :
    (jitEmit env j cs).faulted = true := by
  induction cs generalizing j with
  | nil => exact h
  | cons bs cs ih =>
    refine ih ?_
    unfold jitStore jitBufAlloc
    split <;> simp [h]

/-- The first byte decides: it is stored to writable pages, or finds the buffer full. -/
theorem faulted_emit_iff {env : JitEnv} {j : JitBuf} {cs : JitCode} (hcs : OneByteFirst cs) :
    (jitEmit env j cs).faulted = false ↔
      j.faulted = false ∧ (cs = [] ∨ j.writable = true ∨ j.cap ≤ j.len) := by
  cases hfault : j.faulted with
  | true => simp [faulted_emit cs hfault]
  | false =>
    cases cs with
    | nil => simp [hfault]
    | cons bs cs =>
      have hone : bs.length = 1 := hcs bs cs rfl
      rw [jitEmit_cons]
      by_cases hgrow : j.cap ≤ j.len
      · have hnew : (jitStore env j bs).writable = true ∧ (jitStore env j bs).faulted = false := by
          rw [jitStore, jitBufAlloc, if_pos (by omega)]
          exact ⟨rfl, by simp [hfault]⟩
        simp [hgrow, (writable_emit cs hnew.1).2, hnew.2]
      · have hsame : jitStore env j bs =
            { j with bytes := j.bytes ++ bs, faulted := j.faulted || !j.writable } := by
          rw [jitStore, jitBufAlloc, if_neg (by omega)]
        cases hw : j.writable with
        | true =>
          have hnew : (jitStore env j bs).writable = true := by rw [hsame]; exact hw
          have hquiet : (jitStore env j bs).faulted = false := by simp [hsame, hw, hfault]
          simp [(writable_emit cs hnew).2, hquiet]
        | false =>
          have hnew : (jitStore env j bs).faulted = true := by simp [hsame, hw]
          simp [faulted_emit cs hnew, hgrow]

/-! ## 2. What a call emits -/

/-- The block table has room for blocks of all these offsets. -/
def hasRoom (known : List (BitVec 32)) : List (BitVec 32) → Bool
  | [] => true
  | off :: offs =>
    if off ∈ known then hasRoom known offs
    else known.length < dvmMaxBlocks && hasRoom (known ++ [off]) offs

/-- The opcodes that the block compiler handles. -/
def Op.jitted (op : Op) : Bool :=
  op ∈ [movRR, movRI, add, sub, and, or, xor, mul, imul, neg, shl, shr, sar, fadd, fmul, call, ret,
    throw, halt]

/-- The offsets that get a block for an instruction. -/
def blockTargets (op : Op) (o : Operands) : List (BitVec 32) :=
  if op = .call then [o.off, o.err] else []

/-- Compiling `off` emits a byte: there is an opcode that the compiler handles, and room in the
block table. -/
def Emits (ctx : JitCtx) (off : BitVec 32) : Prop :=
  off.toNat < ctx.bcLen ∧ ∃ op, Op.ofCode (ctx.bc off.toNat) = some op ∧ op.jitted = true ∧
    hasRoom ctx.known (off :: blockTargets op (bcOperands ctx.bc op off.toNat)) = true

/-- Getting a block takes a place in the table if it needs one, and leaves the code alone. -/
theorem jitBlockGet_room (env : JitEnv) (ctx : JitCtx) (off : BitVec 32) :
    (∃ i ctx', jitBlockGet env ctx off = .ok i ctx' ∧ ctx'.code = ctx.code ∧ ctx'.bc = ctx.bc ∧
      ctx'.bcLen = ctx.bcLen ∧ (Compiled ctx off ↔ ∃ native, (ctx'.block i).native = some native) ∧
      ∀ offs, hasRoom ctx.known (off :: offs) = hasRoom ctx'.known offs) ∨
    (jitBlockGet env ctx off = .error .tableFull ctx ∧ ¬ Compiled ctx off ∧
      ∀ offs, hasRoom ctx.known (off :: offs) = false) := by
  rcases jitBlockGet_cases env ctx off with ⟨i, hfind, heq⟩ | ⟨hfind, hroom, heq⟩ |
    ⟨hfind, hfull, heq⟩
  · refine .inl ⟨i, ctx, heq, rfl, rfl, rfl, (jitBlockGet_finds heq).2, fun offs => ?_⟩
    have hmem : off ∈ ctx.known := by
      refine Decidable.byContradiction fun hnot => ?_
      rw [find_eq_none.mpr hnot] at hfind
      cases hfind
    rw [hasRoom, if_pos hmem]
  · refine .inl ⟨_, ctx.addBlock env off, heq, rfl, rfl, rfl, (jitBlockGet_finds heq).2,
      fun offs => ?_⟩
    have hlen : ctx.known.length < dvmMaxBlocks := by rwa [JitCtx.known, List.length_map]
    rw [hasRoom, if_neg (find_eq_none.mp hfind), known_addBlock, decide_eq_true hlen,
      Bool.true_and]
  · refine .inr ⟨heq, by simp [Compiled, hfind], fun offs => ?_⟩
    have hlen : ¬ ctx.known.length < dvmMaxBlocks := by
      rw [JitCtx.known, List.length_map]
      omega
    rw [hasRoom, if_neg (find_eq_none.mp hfind), decide_eq_false hlen, Bool.false_and]

theorem jitTrampFor_room (env : JitEnv) (ctx : JitCtx) (off : BitVec 32) :
    (∃ t ctx', jitTrampFor env ctx off = .ok t ctx' ∧ ctx'.code = ctx.code ∧
      ∀ offs, hasRoom ctx.known (off :: offs) = hasRoom ctx'.known offs) ∨
    (jitTrampFor env ctx off = .error .tableFull ctx ∧
      ∀ offs, hasRoom ctx.known (off :: offs) = false) := by
  unfold jitTrampFor
  rcases jitBlockGet_room env ctx off with ⟨i, ctx', heq, hcode, -, -, -, hroom⟩ |
    ⟨heq, -, hroom⟩
  · rw [heq]
    exact .inl ⟨_, ctx', rfl, hcode, hroom⟩
  · rw [heq]
    exact .inr ⟨rfl, hroom⟩

/-- Something is emitted, one byte first. -/
def Begins (cs : JitCode) : Prop := ∃ b ds, cs = [b] :: ds

theorem Begins.oneByteFirst {cs : JitCode} (h : Begins cs) : OneByteFirst cs := by
  obtain ⟨b, ds, rfl⟩ := h
  rintro _ _ ⟨⟩
  rfl

theorem Begins.ne_nil {cs : JitCode} (h : Begins cs) : cs ≠ [] := by
  obtain ⟨b, ds, rfl⟩ := h
  rintro ⟨⟩

/-- What an opcode is to the compile loop. -/
theorem opcode_cases (op : Op) (o : Operands) :
    (op.jitted = true ∧ op ≠ .call ∧ ∃ cs, jitStraight op o = some cs ∧ Begins cs) ∨
    (jitStraight op o = none ∧
      (op = .call ∨
      (op.jitted = true ∧ op ≠ .call ∧ ∃ cs, blockEnd op o = .last cs ∧ Begins cs) ∨
      (op.jitted = false ∧ blockEnd op o = .unhandled))) := by
  cases op
  all_goals first
    | exact .inl ⟨rfl, nofun, _, rfl, _, _, rfl⟩
    | exact .inr ⟨rfl, .inl rfl⟩
    | exact .inr ⟨rfl, .inr (.inl ⟨rfl, nofun, _, rfl, _, _, rfl⟩)⟩
    | exact .inr ⟨rfl, .inr (.inr ⟨rfl, rfl⟩)⟩

/-- What a scan begins with is emitted one byte first, and so is what it ends with. -/
theorem scan_oneByte (bc : Nat → Byte) (bcLen fuel ip : Nat) :
    OneByteFirst (scanBlock bc bcLen fuel ip).1 ∧
      ∀ cs, (scanBlock bc bcLen fuel ip).2 = .last cs → Begins cs := by
  have hnil : OneByteFirst [] := by rintro _ _ ⟨⟩
  induction fuel generalizing ip with
  | zero => exact ⟨hnil, by rintro _ ⟨⟩⟩
  | succ fuel ih =>
    rw [scanBlock]
    by_cases hip : ip < bcLen
    · rw [if_pos hip]
      cases Op.ofCode (bc ip) with
      | none => exact ⟨hnil, by rintro _ ⟨⟩⟩
      | some op =>
        simp only
        rcases opcode_cases op (bcOperands bc op ip) with ⟨-, -, cs, hcs, hbegins⟩ | ⟨hnone, hend⟩
        · rw [hcs]
          exact ⟨hbegins.oneByteFirst.append (ih _).1, (ih _).2⟩
        · rw [hnone]
          refine ⟨hnil, fun cs hlast => ?_⟩
          rcases hend with rfl | ⟨-, -, cs', hcs', hbegins⟩ | ⟨-, hun⟩
          · cases hlast
          · rw [hcs'] at hlast
            cases hlast
            exact hbegins
          · rw [hun] at hlast
            cases hlast
    · rw [if_neg hip]
      exact ⟨hnil, by rintro _ ⟨⟩⟩

/-- The end of a block emits something. -/
def EndEmits (ctx : JitCtx) : BlockEnd → Prop
  | .stop | .unhandled => False
  | .last _ => True
  | .call ok err => hasRoom ctx.known [ok, err] = true

theorem endBlock_code (env : JitEnv) (ctx : JitCtx) {e : BlockEnd}
    (he : ∀ cs, e = .last cs → Begins cs) :
    ∃ ds, OneByteFirst ds ∧ (ds = [] ↔ ¬ EndEmits ctx e) ∧
      (JitState.ofResult (endBlock env ctx e)).ctx.code = jitEmit env ctx.code ds := by
  have hnil : OneByteFirst [] := by rintro _ _ ⟨⟩
  cases e with
  | stop => exact ⟨[], hnil, by simp [EndEmits], rfl⟩
  | unhandled => exact ⟨[], hnil, by simp [EndEmits], rfl⟩
  | last cs =>
    have hcs := he cs rfl
    exact ⟨cs, hcs.oneByteFirst, by simp [EndEmits, hcs.ne_nil], rfl⟩
  | call ok err =>
    simp only [endBlock, EndEmits]
    rcases jitTrampFor_room env ctx ok with ⟨t, ctx₁, heq, hcode, hroom⟩ | ⟨heq, hroom⟩
    · rw [heq, hroom]
      simp only
      rcases jitTrampFor_room env ctx₁ err with ⟨t', ctx₂, heq', hcode', hroom'⟩ |
        ⟨heq', hroom'⟩
      · rw [heq', hroom']
        have hcall : Begins (jitEmitCall t t') := ⟨_, _, rfl⟩
        refine ⟨jitEmitCall t t', hcall.oneByteFirst, by simp [hasRoom, hcall.ne_nil], ?_⟩
        simp only [JitState.ofResult, emit_code, hcode', hcode]
      · rw [heq', hroom']
        exact ⟨[], hnil, by simp, hcode⟩
    · rw [heq, hroom]
      exact ⟨[], hnil, by simp, rfl⟩

/-- A compilation emits something exactly if it finds an opcode for it. -/
theorem compileNew_code (env : JitEnv) (ctx : JitCtx) (i : Nat) (off : BitVec 32) :
    ∃ ds, OneByteFirst ds ∧
      (ds = [] ↔ ¬ (off.toNat < ctx.bcLen ∧ ∃ op, Op.ofCode (ctx.bc off.toNat) = some op ∧
        op.jitted = true ∧
        hasRoom ctx.known (blockTargets op (bcOperands ctx.bc op off.toNat)) = true)) ∧
      (JitState.ofResult (compileNew env ctx i off)).ctx.code.faulted
        = (jitEmit env ctx.code ds).faulted := by
  obtain ⟨hone, hlast⟩ :=
    scan_oneByte ctx.bc ctx.bcLen (ctx.bcLen - off.toNat) off.toNat
  obtain ⟨ds, hds, hempty, hcode⟩ := endBlock_code env (ctx.emit env (ctx.scan off).1) hlast
  refine ⟨(ctx.scan off).1 ++ ds, hone.append hds, ?_, ?_⟩
  · rw [List.append_eq_nil_iff, hempty]
    by_cases hoff : off.toNat < ctx.bcLen
    · obtain ⟨fuel, hfuel⟩ : ∃ fuel, ctx.bcLen - off.toNat = fuel + 1 :=
        ⟨ctx.bcLen - off.toNat - 1, by omega⟩
      rw [JitCtx.scan, hfuel, scanBlock, if_pos hoff]
      cases hop : Op.ofCode (ctx.bc off.toNat) with
      | none => simp [EndEmits]
      | some op =>
        simp only
        rcases opcode_cases op (bcOperands ctx.bc op off.toNat) with
          ⟨hjit, hne, cs, hcs, hbegins⟩ | ⟨hnone, hend⟩
        · simp [hcs, hbegins.ne_nil, hoff, hjit, blockTargets, hne, hasRoom]
        · rw [hnone]
          rcases hend with rfl | ⟨hjit, hne, cs, hcs, -⟩ | ⟨hjit, hun⟩
          · simp only [blockEnd, blockTargets, EndEmits, true_and, hoff]
            simp [Op.jitted]
          · simp [hcs, EndEmits, hoff, hjit, blockTargets, hne, hasRoom]
          · simp [hun, EndEmits, hjit]
    · have hfuel : ctx.bcLen - off.toNat = 0 := by omega
      simp [JitCtx.scan, hfuel, scanBlock, EndEmits, hoff]
  · have hcode' : (JitState.ofResult (endBlock env (ctx.emit env (ctx.scan off).1)
        (ctx.scan off).2)).ctx.code = jitEmit env ctx.code ((ctx.scan off).1 ++ ds) := by
      rw [jitEmit_append]
      exact hcode
    rw [← hcode', compileNew]
    cases endBlock env (ctx.emit env (ctx.scan off).1) (ctx.scan off).2 with
    | error e ctx' => rfl
    | ok _ ctx' => rfl

/-! ## 3. One call -/

/-- Compiling `off` emits nothing, or into writable pages, or finds the buffer full. -/
def CompileAllowed (ctx : JitCtx) (off : BitVec 32) : Prop :=
  ctx.code.writable = true ∨ ctx.code.cap ≤ ctx.code.len ∨ Compiled ctx off ∨ ¬ Emits ctx off

/-- The same for any call. -/
def StoreAllowed (ctx : JitCtx) : JitCall → Prop
  | .compileBlock off => CompileAllowed ctx off
  | .entry => CompileAllowed ctx 0
  | .blockGet _ | .trampFor _ => True

theorem compile_faulted_iff (env : JitEnv) (ctx : JitCtx) (off : BitVec 32) :
    (JitState.ofResult (jitCompileBlock env ctx off)).ctx.code.faulted = false ↔
      ctx.code.faulted = false ∧ CompileAllowed ctx off := by
  unfold CompileAllowed
  rcases jitBlockGet_room env ctx off with ⟨i, ctx', hget, hcode, hbc, hlen, hcomp, hroom⟩ |
    ⟨hget, hcomp, hroom⟩
  · rcases jitCompileBlock_cases env ctx off with ⟨e, ctx'', hget', -⟩ | ⟨i', ctx'', hget', hrest⟩
    · rw [hget] at hget'
      cases hget'
    · rw [hget] at hget'
      cases hget'
      rcases hrest with ⟨native, hnative, heq⟩ | ⟨hnative, heq⟩
      · rw [heq]
        simp [JitState.ofResult, hcode, hcomp.mpr ⟨native, hnative⟩]
      · obtain ⟨ds, hone, hempty, hfault⟩ := compileNew_code env ctx' i off
        have hnot : ¬ Compiled ctx off := by
          intro h
          obtain ⟨native, hsome⟩ := hcomp.mp h
          rw [hnative] at hsome
          cases hsome
        have hemits : ds = [] ↔ ¬ Emits ctx off := by
          rw [hempty, hbc, hlen, Emits]
          simp only [hroom]
        rw [heq, hfault, faulted_emit_iff hone, hcode, hemits]
        simp only [hnot, false_or]
        rw [or_comm (a := ¬ Emits ctx off), or_assoc]
  · rcases jitCompileBlock_cases env ctx off with ⟨e, ctx'', hget', heq⟩ | ⟨i', ctx'', hget', -⟩
    · rw [hget] at hget'
      cases hget'
      have hnot : ¬ Emits ctx off := by
        rintro ⟨-, op, -, -, hfits⟩
        rw [hroom] at hfits
        cases hfits
      rw [heq]
      simp [JitState.ofResult, hnot]
    · rw [hget] at hget'
      cases hget'

theorem call_faulted_iff (env : JitEnv) (ctx : JitCtx) (c : JitCall) :
    (c.run env ctx).ctx.code.faulted = false ↔
      ctx.code.faulted = false ∧ StoreAllowed ctx c := by
  have hget : ∀ (ctx : JitCtx) off,
      (JitState.ofResult (jitTrampFor env ctx off)).ctx.code = ctx.code := by
    intro ctx off
    rcases jitTrampFor_room env ctx off with ⟨t, ctx', heq, hcode, -⟩ | ⟨heq, -⟩
    · rw [heq]
      exact hcode
    · rw [heq]
      rfl
  cases c with
  | blockGet off =>
    rcases jitBlockGet_room env ctx off with ⟨i, ctx', heq, hcode, -⟩ | ⟨heq, -⟩
    · simp [JitCall.run, StoreAllowed, heq, JitState.ofResult, hcode]
    · simp [JitCall.run, StoreAllowed, heq, JitState.ofResult]
  | trampFor off => simp [JitCall.run, StoreAllowed, hget]
  | compileBlock off => exact compile_faulted_iff env ctx off
  | entry =>
    rw [StoreAllowed, ← compile_faulted_iff env]
    simp only [JitCall.run, jitEntry]
    cases jitCompileBlock env ctx 0 with
    | error e ctx' => rfl
    | ok _ ctx' =>
      simp only [hget]
      rfl

/-! ## 4. Runs -/

/-- A run stores to writable pages only, exactly if each of its calls does by `StoreAllowed`. -/
theorem stores_writable_iff (env : JitEnv) (bc : Nat → Byte) (bcLen : Nat)
    {es : List (JitCtx × JitCall)} {s : JitState} (hrun : JitRun env bc bcLen es s) :
    s.ctx.code.faulted = false ↔ ∀ e ∈ es, StoreAllowed e.1 e.2 := by
  refine Run.invariant
    (I := fun es s => s.ctx.code.faulted = false ↔ ∀ e ∈ es, StoreAllowed e.1 e.2) ?_ ?_ hrun
  · simp [jitCtxNew, jitBufNew]
  · rintro es s e s' - hI ⟨ctx, c⟩
    rw [call_faulted_iff, hI, List.forall_mem_append, List.forall_mem_singleton]

/-- A block at each offset. -/
def haltBytes : Nat → Byte := fun _ => Op.halt.code

/-- The second compilation of a context stores to a page that is not writable. -/
theorem run_second_compile (env : JitEnv) : ∃ es s, JitRun env haltBytes 2 es s ∧
    s.ctx.code.faulted = true := by
  have hfirst : JitRun env haltBytes 2 _ ⟨_, none⟩ :=
    Run.single (.call (jitCtxNew env haltBytes 2) (.compileBlock 0))
  have hsecond : JitRun env haltBytes 2 _ ⟨_, none⟩ := hfirst.next (.call _ (.compileBlock 1))
  exact ⟨_, _, hsecond, rfl⟩

theorem stores_writable_iff_halts : ∃ es s, JitRun hostEnv haltBytes 2 es s ∧
    s.ctx.code.faulted = true ∧
    (s.ctx.code.faulted = false ↔ ∀ e ∈ es, StoreAllowed e.1 e.2) := by
  obtain ⟨es, s, hrun, hfault⟩ := run_second_compile hostEnv
  exact ⟨es, s, hrun, hfault, stores_writable_iff hostEnv _ _ hrun⟩

theorem second_compile_faults : ¬ ∀ (env : JitEnv) (bc : Nat → Byte) (bcLen : Nat)
    (es : List (JitCtx × JitCall)) (s : JitState), JitRun env bc bcLen es s →
    s.ctx.code.faulted = false := by
  intro hall
  obtain ⟨es, s, hrun, hfault⟩ := run_second_compile hostEnv
  rw [hall _ _ _ _ _ hrun] at hfault
  cases hfault

end Dvm
