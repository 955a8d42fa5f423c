/-
# Blocks that contain themselves

The loop of `jit_compile_block` checks its bound at the opcode only: the operands of an instruction
that the bytecode's end cuts off are read from behind it.  And where the bytecode runs out the loop
just ends, with nothing emitted, so that execution goes on into whatever follows in the buffer.

`selfContained_iff`: a block is read inside the bytecode and its code ends in a jump or a return,
exactly if all its instructions are in the bytecode and the last of them ends it (`WholeBlock`).
-/
import Dvm.Jit.Native

namespace Dvm

open Bytes ByteMem X86 Runs

/-! ## 1. The bytecode that a block is read from -/

/-- The offsets that the compile loop reads from `p` on. -/
def blockReads (bc : Nat → Byte) (bcLen : Nat) : Nat → Nat → List Nat
  | 0, _ => []
  | fuel + 1, p =>
    if p < bcLen then
      match Op.ofCode (bc p) with
      | none => [p]
      | some op =>
        if op.jitted then
          List.range' p op.size ++ if op.goesOn then blockReads bc bcLen fuel (p + op.size) else []
        else [p]
    else []

/-- A call for `off` compiles its block: there is no native code, but a place in the table. -/
def CompilesNew (ctx : JitCtx) (off : BitVec 32) : Prop :=
  ¬ Compiled ctx off ∧ ((ctx.find off).isSome = true ∨ ctx.blocks.length < dvmMaxBlocks)

instance (ctx : JitCtx) (off : BitVec 32) : Decidable (CompilesNew ctx off) :=
  inferInstanceAs (Decidable (_ ∧ _))

/-- The offsets that `jit_compile_block` reads. -/
def JitCtx.jitReads (ctx : JitCtx) (off : BitVec 32) : List Nat :=
  if CompilesNew ctx off then
    blockReads ctx.bc ctx.bcLen (ctx.bcLen - off.toNat) off.toNat
  else []

/-- An instruction's operands are in the bytes behind its opcode. -/
theorem bcOperands_congr {bc bc' : Nat → Byte} {op : Op} {p : Nat}
    (h : ∀ q ∈ List.range' p op.size, bc' q = bc q) : bcOperands bc' op p = bcOperands bc op p := by
  refine congrArg _ (List.map_congr_left fun q hq => h q ?_)
  rw [List.mem_range'_1] at hq ⊢
  rw [Op.size]
  omega

/-- What is compiled depends on nothing but these bytes. -/
theorem scanBlock_congr {bc bc' : Nat → Byte} {bcLen fuel p : Nat}
    (h : ∀ q ∈ blockReads bc bcLen fuel p, bc' q = bc q) :
    scanBlock bc' bcLen fuel p = scanBlock bc bcLen fuel p := by
  induction fuel generalizing p with
  | zero => rfl
  | succ fuel ih =>
    rw [blockReads] at h
    rw [scanBlock, scanBlock]
    by_cases hp : p < bcLen
    · rw [if_pos hp] at h
      rw [if_pos hp, if_pos hp]
      cases hop : Op.ofCode (bc p) with
      | none =>
        simp only [hop, List.mem_singleton, forall_eq] at h
        rw [h, hop]
      | some op =>
        simp only [hop] at h
        have hfirst : p ∈ List.range' p op.size := by
          have hsize := op.size_pos
          rw [List.mem_range'_1]
          omega
        rcases opcode_kinds op with ⟨hgo, -, hjit⟩ | ⟨-, -, hjit, hnone⟩ | ⟨-, -, hjit, hnone⟩
        · rw [if_pos hjit, if_pos hgo, List.forall_mem_append] at h
          rw [h.1 p hfirst, hop]
          simp only
          rw [bcOperands_congr h.1, ih h.2]
        · rw [if_pos hjit, List.forall_mem_append] at h
          rw [h.1 p hfirst, hop]
          simp only
          rw [bcOperands_congr h.1]
          simp only [hnone]
        · rw [if_neg (by simp [hjit])] at h
          rw [h p (List.mem_singleton_self p), hop]
          simp only [hnone]
    · rw [if_neg hp, if_neg hp]

theorem scan_reads {ctx : JitCtx} {off : BitVec 32} {bc' : Nat → Byte} (hnew : CompilesNew ctx off)
    (h : ∀ q ∈ ctx.jitReads off, bc' q = ctx.bc q) :
    { ctx with bc := bc' }.scan off = ctx.scan off := by
  rw [JitCtx.jitReads, if_pos hnew] at h
  exact scanBlock_congr h

/-! ## 2. Whole blocks -/

/-- From `p` on, up to the end of the block or of the bytecode, there are opcodes that the block
compiler handles. -/
inductive OnlyHandled (bc : Nat → Byte) (bcLen : Nat) : Nat → Prop
  | past {p : Nat} : bcLen ≤ p → OnlyHandled bc bcLen p
  | last {p : Nat} {op : Op} : p < bcLen → Op.ofCode (bc p) = some op → op.isEnd = true →
      OnlyHandled bc bcLen p
  | next {p : Nat} {op : Op} : p < bcLen → Op.ofCode (bc p) = some op → op.goesOn = true →
      OnlyHandled bc bcLen (p + op.size) → OnlyHandled bc bcLen p

/-- From `p` on there are instructions, inside the bytecode with all their operands, up to one that
ends the block. -/
inductive WholeBlock (bc : Nat → Byte) (bcLen : Nat) : Nat → Prop
  | last {p : Nat} {op : Op} : Op.ofCode (bc p) = some op → op.isEnd = true →
      p + op.size ≤ bcLen → WholeBlock bc bcLen p
  | next {p : Nat} {op : Op} : Op.ofCode (bc p) = some op → op.goesOn = true →
      WholeBlock bc bcLen (p + op.size) → WholeBlock bc bcLen p

section

variable {bc : Nat → Byte} {bcLen p : Nat} {op : Op}

theorem WholeBlock.lt (h : WholeBlock bc bcLen p) : p < bcLen := by
  induction h with
  | @last p op _ _ hfit =>
    have hsize := op.size_pos
    omega
  | next _ _ _ ih => omega

theorem isEnd_kind (h : op.isEnd = true) :
    op.goesOn = false ∧ op.jitted = true ∧ ∀ o, jitStraight op o = none := by
  rcases opcode_kinds op with ⟨-, hend, -⟩ | ⟨hgo, -, hjit, hnone⟩ | ⟨-, hend, -⟩
  · rw [hend] at h
    cases h
  · exact ⟨hgo, hjit, hnone⟩
  · rw [hend] at h
    cases h

theorem jitted_of_goesOn (h : op.goesOn = true) : op.jitted = true := by
  rcases opcode_kinds op with ⟨-, -, hjit⟩ | ⟨-, -, hjit, -⟩ | ⟨hgo, -⟩
  · exact hjit
  · exact hjit
  · rw [hgo] at h
    cases h

theorem wholeBlock_last (hop : Op.ofCode (bc p) = some op) (hend : op.isEnd = true) :
    WholeBlock bc bcLen p ↔ p + op.size ≤ bcLen := by
  refine ⟨fun h => ?_, .last hop hend⟩
  cases h with
  | last hop' _ hfit =>
    cases hop.symm.trans hop'
    exact hfit
  | next hop' hgo _ =>
    cases hop.symm.trans hop'
    rw [(isEnd_kind hend).1] at hgo
    cases hgo

theorem wholeBlock_next (hop : Op.ofCode (bc p) = some op) (hgo : op.goesOn = true) :
    WholeBlock bc bcLen p ↔ WholeBlock bc bcLen (p + op.size) := by
  refine ⟨fun h => ?_, .next hop hgo⟩
  cases h with
  | last hop' hend _ =>
    cases hop.symm.trans hop'
    rw [(isEnd_kind hend).1] at hgo
    cases hgo
  | next hop' _ h =>
    cases hop.symm.trans hop'
    exact h

/-- A scan of handled opcodes runs out of bytecode, or ends the block; then the bytecode that it
read tells whether the block is whole. -/
theorem scan_handled (h : OnlyHandled bc bcLen p) {fuel : Nat} (hfuel : bcLen ≤ p + fuel) :
    ((scanBlock bc bcLen fuel p).2 = .stop ∧ ¬ WholeBlock bc bcLen p) ∨
    ((∃ i : Op × Operands, i.1.isEnd = true ∧ (scanBlock bc bcLen fuel p).2 = blockEnd i.1 i.2) ∧
      (WholeBlock bc bcLen p ↔ ∀ q ∈ blockReads bc bcLen fuel p, q < bcLen)) := by
  have hreads : ∀ (p : Nat) (op : Op),
      (∀ q ∈ List.range' p op.size, q < bcLen) ↔ p + op.size ≤ bcLen := by
    intro p op
    have hsize := op.size_pos
    simp only [List.mem_range'_1]
    constructor
    · intro h
      have hlast := h (p + op.size - 1) (by omega)
      omega
    · intro h q hq
      omega
  induction h generalizing fuel with
  | @past p hp =>
    refine .inl ⟨?_, fun h => Nat.not_lt.mpr hp h.lt⟩
    cases fuel with
    | zero => rfl
    | succ fuel => rw [scanBlock, if_neg (Nat.not_lt.mpr hp)]
  | @last p op hp hop hend =>
    obtain ⟨fuel, rfl⟩ : ∃ n, fuel = n + 1 := ⟨fuel - 1, by omega⟩
    obtain ⟨hgo, hjit, hnone⟩ := isEnd_kind hend
    refine .inr ⟨⟨(op, bcOperands bc op p), hend, ?_⟩, ?_⟩
    · rw [scanBlock, if_pos hp, hop]
      simp only [hnone]
    · rw [wholeBlock_last hop hend, ← hreads, blockReads, if_pos hp, hop]
      simp [hjit, hgo]
  | @next p op hp hop hgo _ ih =>
    obtain ⟨fuel, rfl⟩ : ∃ n, fuel = n + 1 := ⟨fuel - 1, by omega⟩
    have hsize := op.size_pos
    obtain ⟨cs, hcs, -⟩ := jitStraight_bytes hgo (bcOperands bc op p)
    have hscan : (scanBlock bc bcLen (fuel + 1) p).2
        = (scanBlock bc bcLen fuel (p + op.size)).2 := by
      rw [scanBlock, if_pos hp, hop]
      simp only [hcs]
    rw [hscan, wholeBlock_next hop hgo]
    rcases @ih fuel (by omega) with hstop | ⟨hend, hwhole⟩
    · exact .inl hstop
    refine .inr ⟨hend, ?_⟩
    rw [blockReads, if_pos hp, hop]
    simp only [jitted_of_goesOn hgo, hgo, if_true, List.forall_mem_append, ← hwhole, hreads]
    exact ⟨fun h => ⟨Nat.le_of_lt h.lt, h⟩, And.right⟩

end

/-! ## 3. The code of a block -/

/-- The next instruction is not executed after this one. -/
def IsTransfer : Instr → Prop
  | .jmpReg _ | .jmpRip _ | .ret => True
  | _ => False

/-- Native code that a jump or a return ends. -/
def EndsInTransfer (bs : List Byte) : Prop :=
  ∃ (is : List NativeInstr) (i : Instr), bs = nativeBytes (is ++ [.general i]) ∧
    (∀ j ∈ is, j.Encodable) ∧ i.Encodable ∧ IsTransfer i

theorem not_endsInTransfer {is : List NativeInstr} (his : ∀ i ∈ is, i.IsBody) :
    ¬ EndsInTransfer (nativeBytes is) := by
  rintro ⟨js, i, heq, hjs, hi, htransfer⟩
  have hlast : ∀ j ∈ [NativeInstr.general i], j.Encodable := List.forall_mem_singleton.mpr hi
  have hsame := nativeBytes_inj (fun j hj => (his j hj).encodable)
    (List.forall_mem_append.mpr ⟨hjs, hlast⟩) heq
  have hbody : (NativeInstr.general i).IsBody := his _ (by simp [hsame])
  cases i <;> first | exact htransfer | exact hbody.1

theorem endInstrs_transfer (tramp : BitVec 32 → Word) (i : Op × Operands) :
    ∃ is j, endInstrs tramp i = is ++ [j] ∧ (∀ k ∈ is, k.Encodable) ∧ j.Encodable ∧
      IsTransfer j := by
  have hplain : (MemOp.plain r14).Encodable := by decide
  have hdisp : (MemOp.disp r14 8#8).Encodable := by decide
  obtain ⟨op, o⟩ := i
  cases op
  case call =>
    refine ⟨[_, _, _, _, _], _, rfl, ?_, trivial, trivial⟩
    simp [Instr.Encodable, hplain, hdisp]
  case ret =>
    refine ⟨[_, _], _, rfl, ?_, trivial, trivial⟩
    simp [Instr.Encodable, hdisp]
  case throw =>
    refine ⟨[_, _], _, rfl, ?_, trivial, trivial⟩
    simp [Instr.Encodable, hplain]
  all_goals exact ⟨[_], _, rfl, List.forall_mem_singleton.mpr trivial, trivial, trivial⟩

/-- What a call emits for the block that it compiles. -/
theorem compile_emits {env : JitEnv} {ctx ctx' : JitCtx} {off : BitVec 32} {a : Word}
    (hinv : TableInv ctx) (hnew : CompilesNew ctx off)
    (h : jitCompileBlock env ctx off = .ok a ctx') :
    ∃ ctx₁, ctx'.code.bytes.drop ctx.code.len
      = ((ctx.scan off).1 ++ endCode ctx₁ (ctx.scan off).2).flatten := by
  rcases jitCompileBlock_ok hinv h with ⟨hcomp, -⟩ | ⟨-, i, ctx₁, -, -, -, hcode, -, rfl⟩
  · exact absurd hcomp hnew.1
  · refine ⟨ctx₁, ?_⟩
    show List.drop _ ctx₁.code.bytes = _
    rw [hcode, emit_bytes]
    exact List.drop_left

/-- Where the bytecode runs out, the block is compiled all the same. -/
theorem compile_stop (env : JitEnv) {ctx : JitCtx} {off : BitVec 32} (hnew : CompilesNew ctx off)
    (h : (ctx.scan off).2 = .stop) : ∃ a ctx', jitCompileBlock env ctx off = .ok a ctx' := by
  have hget : ∃ i ctx₁, jitBlockGet env ctx off = .ok i ctx₁ ∧ ctx₁.scan off = ctx.scan off := by
    rcases jitBlockGet_cases env ctx off with ⟨i, -, heq⟩ | ⟨-, -, heq⟩ | ⟨hfind, hfull, -⟩
    · exact ⟨i, ctx, heq, rfl⟩
    · exact ⟨_, _, heq, rfl⟩
    · rcases hnew.2 with hsome | hroom
      · rw [hfind] at hsome
        cases hsome
      · exact absurd hroom (Nat.not_lt.mpr hfull)
  obtain ⟨i, ctx₁, hget, hscan⟩ := hget
  rcases jitCompileBlock_cases env ctx off with ⟨e, ctx', hget', -⟩ | ⟨i', ctx', hget', hrest⟩
  · rw [hget] at hget'
    cases hget'
  · rw [hget] at hget'
    cases hget'
    rcases hrest with ⟨native, -, heq⟩ | ⟨-, heq⟩
    · exact ⟨native, ctx₁, heq⟩
    · rw [heq, compileNew, hscan, h]
      exact ⟨_, _, rfl⟩

/-- The call for `off` reads inside the bytecode, and the code that it emits for the block ends in
a jump or a return. -/
structure SelfContained (env : JitEnv) (ctx : JitCtx) (off : BitVec 32) : Prop where
  reads : ∀ p ∈ ctx.jitReads off, p < ctx.bcLen
  ends : ∀ a ctx', jitCompileBlock env ctx off = .ok a ctx' →
    EndsInTransfer (ctx'.code.bytes.drop ctx.code.len)

/-- In every context that a run leads to, a block of handled opcodes is compiled to a
self-contained one exactly if it is whole. -/
theorem selfContained_iff (env : JitEnv) (bc : Nat → Byte) (bcLen : Nat)
    {es : List (JitCtx × JitCall)} {s : JitState} (hrun : JitRun env bc bcLen es s)
    {off : BitVec 32} (hhandled : OnlyHandled bc bcLen off.toNat) (hnew : CompilesNew s.ctx off) :
    SelfContained env s.ctx off ↔ WholeBlock bc bcLen off.toNat := by
  obtain ⟨hbc, hlen⟩ : s.ctx.bc = bc ∧ s.ctx.bcLen = bcLen :=
    JitRun.keeps (P := fun ctx => ctx.bc = bc ∧ ctx.bcLen = bcLen) ⟨rfl, rfl⟩
      (fun _ _ h _ _ => h) (fun _ _ h => h) (fun _ _ _ h _ => h) hrun
  have hinv := run_tableInv hrun
  have hscan : s.ctx.scan off = scanBlock bc bcLen (bcLen - off.toNat) off.toNat := by
    rw [JitCtx.scan, hbc, hlen]
  have hreads : s.ctx.jitReads off = blockReads bc bcLen (bcLen - off.toNat) off.toNat := by
    rw [JitCtx.jitReads, if_pos hnew, hbc, hlen]
  obtain ⟨is, hbytes, hbody⟩ := scan_body bc bcLen (bcLen - off.toNat) off.toNat
  have hfuel : bcLen ≤ off.toNat + (bcLen - off.toNat) := by omega
  rcases scan_handled hhandled hfuel with ⟨hstop, hnot⟩ | ⟨⟨i, hend, hlast⟩, hwhole⟩
  · refine iff_of_false (fun h => ?_) hnot
    obtain ⟨a, ctx', hcall⟩ := compile_stop env hnew (hscan ▸ hstop)
    obtain ⟨ctx₁, hemits⟩ := compile_emits hinv hnew hcall
    have hends := h.ends a ctx' hcall
    rw [hemits, hscan, hstop, endCode, List.append_nil, hbytes] at hends
    exact not_endsInTransfer hbody hends
  · rw [hwhole]
    constructor
    · intro h
      have hinside := h.reads
      rwa [hreads, hlen] at hinside
    · intro h
      refine ⟨by rwa [hreads, hlen], fun a ctx' hcall => ?_⟩
      obtain ⟨ctx₁, hemits⟩ := compile_emits hinv hnew hcall
      obtain ⟨js, j, hinstrs, hjs, hj, htransfer⟩ := endInstrs_transfer ctx₁.trampOf i
      refine ⟨is ++ js.map .general, j, ?_, ?_, hj, htransfer⟩
      · have hcode : nativeBytes ((js ++ [j]).map .general) = code (endInstrs ctx₁.trampOf i) := by
          rw [nativeBytes_general, hinstrs]
        rw [List.append_assoc, nativeBytes_append, ← List.map_singleton, ← List.map_append, hcode,
          hemits, hscan, hlast, List.flatten_append, endCode_code hend, hbytes]
      · refine List.forall_mem_append.mpr ⟨fun k hk => (hbody k hk).encodable, ?_⟩
        exact List.forall_mem_map.mpr hjs

theorem new_compiles (env : JitEnv) (bc : Nat → Byte) (bcLen : Nat) (off : BitVec 32) :
    CompilesNew (jitCtxNew env bc bcLen) off := by
  refine ⟨?_, .inr (show 0 < dvmMaxBlocks by decide)⟩
  rintro ⟨i, native, hfind, -⟩
  cases hfind

/-- `HALT`, and behind it `mov bx, 7`, `RET`. -/
def haltThenRet : Nat → Byte := fun p =>
  [Op.halt.code, Op.movRI.code, 0x10, 7, 0, 0, 0, 0, 0, 0, 0, Op.ret.code].getD p 0

/-- The second block, in the context that the call for the first leaves. -/
theorem selfContained_iff_second : ∃ es s, JitRun hostEnv haltThenRet 12 es s ∧
    es.map Prod.snd = [.compileBlock 0] ∧ 0 < s.ctx.code.len ∧
    s.ctx.jitReads 1 = List.range' 1 11 ∧ SelfContained hostEnv s.ctx 1 := by
  have hrun : JitRun hostEnv haltThenRet 12 _ _ :=
    Run.single (.call (jitCtxNew hostEnv haltThenRet 12) (.compileBlock 0))
  have hhandled : OnlyHandled haltThenRet 12 (1 : BitVec 32).toNat :=
    .next (by decide) rfl rfl (.last (by decide) rfl rfl)
  have hwhole : WholeBlock haltThenRet 12 (1 : BitVec 32).toNat :=
    .next rfl rfl (.last rfl rfl (by decide))
  exact ⟨_, _, hrun, rfl, by decide, by decide,
    (selfContained_iff hostEnv haltThenRet 12 hrun hhandled (by decide)).mpr hwhole⟩

/-- `MOV_RR` whose operands are cut off: the byte behind the bytecode is read. -/
theorem cut_off_reads_behind : ¬ ∀ (env : JitEnv) (bc : Nat → Byte) (bcLen : Nat)
    (es : List (JitCtx × JitCall)) (s : JitState) (off : BitVec 32), JitRun env bc bcLen es s →
    off.toNat < bcLen → OnlyHandled bc bcLen off.toNat → CompilesNew s.ctx off →
    SelfContained env s.ctx off := by
  intro hall
  have hself := hall hostEnv (fun _ => Op.movRR.code) 1 [] _ 0 .start Nat.one_pos
    (.next Nat.one_pos rfl rfl (.past (by decide))) (new_compiles _ _ _ _)
  have hread : 1 ∈ (jitCtxNew hostEnv (fun _ => Op.movRR.code) 1).jitReads 0 := by
    rw [JitCtx.jitReads, if_pos (new_compiles _ _ _ _)]
    decide
  exact absurd (hself.reads 1 hread) (by decide)

end Dvm
