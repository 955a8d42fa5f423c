/-
# Control-flow integrity of assembled programs

An accepted source without `callr`, that does not run off its end, assembles to closed code
(`closedCode`): every jump and call operand is the offset of a code label, which stands at an
instruction, or the 0 of an extern.  So the interpreter, started at its beginning, only ever
dispatches the assembled instructions (`run_atInstr`).
-/
import Dvm.Asm.Framing
import Dvm.Vm.Confined

namespace Dvm

open Bytes ByteMem Table Layout Loops Runs

/-! ## 1. Operands -/

theorem fetchLe_offsetBytes (off : Int) : fetchLe 32 (offsetBytes off) = BitVec.ofInt 32 off := by
  have hlt := (BitVec.ofInt 32 off).isLt
  rw [fetchLe, offsetBytes, ofLe_le_of_lt (by simpa using hlt), BitVec.ofNat_toNat,
    BitVec.setWidth_eq]

theorem fetch_off32 (bs : List Byte) (p : Nat) :
    (Shape.fetch .off32 (field bs p Shape.off32.size)).off = fetchLe 32 (field bs p 4) := by
  show fetchLe 32 (field (field bs p 4) 0 4) = _
  rw [field_field (by decide), Nat.add_zero]

theorem fetch_okErr (bs : List Byte) (p : Nat) :
    (Shape.fetch .okErr (field bs p Shape.okErr.size)).off = fetchLe 32 (field bs p 4) ∧
      (Shape.fetch .okErr (field bs p Shape.okErr.size)).err = fetchLe 32 (field bs (p + 4) 4) := by
  constructor
  · show fetchLe 32 (field (field bs p 8) 0 4) = _
    rw [field_field (by decide), Nat.add_zero]
  · show fetchLe 32 (field (field bs p 8) 4 4) = _
    rw [field_field (by decide)]

theorem Op.shape_of_jump {op : Op} (h : op.flow = .jump) : op.shape = .off32 := by
  cases op
  all_goals first
    | rfl
    | cases h

/-! ## 2. Which sources -/

/-- The mnemonics of the instructions behind which control does not go on. -/
def endMnemonics : List CStr := [lit "halt", lit "jmp", lit "ret", lit "throw"]

/-- What the source has to observe. -/
structure Contained (env : AsmEnv) (src : List Byte) (ctx : AsmCtx) : Prop where
  noCallr : ∀ c ∈ codeLines env src, c.1 ≠ lit "callr"
  last : ∃ c, (codeLines env src).getLast? = some c ∧ c.1 ∈ endMnemonics
  /-- No code label at the end of the text. -/
  noEndLabel : ∀ l ∈ ctx.labels, l.sec = dvmSecCode → l.offset ≠ ctx.text.bytes.length

/-- Only `callr` lines become `CALLR`. -/
theorem mnemonic_of_callr : ∀ x ∈ codeForms, Op.callr ∈ x.2.ops → x.1 = lit "callr" := by decide

theorem ends_of_mnemonic : ∀ mnem ∈ endMnemonics, ∀ op ∈ mnemonicOps mnem, op.ends := by decide

theorem eq_callr_of_mem {mnem : CStr} (h : Op.callr ∈ mnemonicOps mnem) : mnem = lit "callr" := by
  unfold mnemonicOps at h
  cases hl : codeForms.lookup mnem with
  | none => rw [hl] at h; cases h
  | some form =>
    rw [hl] at h
    exact mnemonic_of_callr _ (mem_of_lookup hl) h

/-! ## 3. Assembled code is closed -/

section Closed

variable {cs : List (CStr × List Emit)} {is : List (Op × Operands)} {ctx : AsmCtx}

/-- The operand at a code reference is the start of an instruction. -/
theorem Accepted.isStart (h : Accepted (cs.map Prod.snd) ctx) (hall : List.Forall₂ Becomes cs is)
    (hne : 0 < is.length) (hdec : Decodes ctx.text.bytes 0 is)
    (hend : ∀ l ∈ ctx.labels, l.sec = dvmSecCode → l.offset ≠ ctx.text.bytes.length) {p : Nat}
    {name : CStr} (hat : At Emit.size (cs.map Prod.snd).flatten p (.codeRef name)) :
    IsStart is (fetchLe 32 (field ctx.text.bytes p 4)) := by
  obtain ⟨l, hl, -, ⟨⟨hoff, hsec, -⟩, hfield⟩ | ⟨-, hfield⟩⟩ := h.items p _ hat
  · obtain ⟨q, ⟨k, hk, rfl⟩, heq⟩ := (h.labels.placed l hl).2 hoff hsec
    rw [groupStart_eq_instrStart hall] at heq
    rw [List.length_map, hall.length_eq] at hk
    have hne : k ≠ is.length := by
      rintro rfl
      have hlen := hdec.length
      rw [Nat.zero_add] at hlen
      exact hend l hl hsec (by rw [heq, hlen])
    refine ⟨k, by omega, ?_⟩
    rw [hfield, fetchLe_offsetBytes, heq]
    rfl
  · exact ⟨0, hne, by rw [hfield, fetchLe_offsetBytes]; rfl⟩

/-- What an instruction of the text fetches. -/
theorem Decodes.operands {bs : List Byte} (h : Decodes bs 0 is) {k : Nat} {i : Op × Operands}
    (hk : is[k]? = some i) :
    i.2 = i.1.shape.fetch (field bs (instrStart is k + 1) i.1.shape.size) := by
  have hd := h.decode hk
  rw [Nat.zero_add] at hd
  exact (decode_fits hd).2.2

end Closed

theorem closedCode {env : AsmEnv} {src : List Byte} {ctx : AsmCtx}
    (h : asmCompile env src = .ok ctx) (hsrc : Contained env src ctx) :
    ∃ is, Framed (codeLines env src) ctx is ∧ ClosedCode ctx.text.bytes is := by
  obtain ⟨hacc, hcs⟩ := asmCompile_accepted h
  obtain ⟨is, hframed, hall⟩ := hacc.framed hcs
  have hdec := hframed.decodes
  obtain ⟨clast, hclast, hends⟩ := hsrc.last
  rw [List.getLast?_eq_getElem?] at hclast
  have hne : 0 < is.length := by
    rw [← hall.length_eq]
    have hlt := (List.getElem?_eq_some_iff.mp hclast).1
    omega
  have hstart : ∀ {p : Nat} {name : CStr},
      At Emit.size ((codeLines env src).map Prod.snd).flatten p (.codeRef name) →
        IsStart is (fetchLe 32 (field ctx.text.bytes p 4)) :=
    fun hat => hacc.isStart hall hne hdec hsrc.noEndLabel hat
  refine ⟨is, hframed, hdec, ?_, hne, ?_, ?_, ?_, ?_⟩
  · have hfits := ctx.text.fits
    unfold dvmBufMax at hfits
    omega
  · intro i hi hcallr
    obtain ⟨k, hk⟩ := List.getElem?_of_mem hi
    obtain ⟨c, hc, hop, -⟩ := line_of_instr hall hk
    rw [hcallr] at hop
    exact hsrc.noCallr c (List.mem_of_getElem? hc) (eq_callr_of_mem hop)
  · intro k i hk hlast
    obtain ⟨c, hc, hop, -⟩ := line_of_instr hall hk
    have hidx : (codeLines env src).length - 1 = k := by
      rw [hall.length_eq]
      omega
    rw [hidx, hc, Option.some.injEq] at hclast
    subst hclast
    exact ends_of_mnemonic c.1 hends i.1 hop
  · intro i hi hflow
    obtain ⟨k, hk⟩ := List.getElem?_of_mem hi
    obtain ⟨c, hc, -, henc⟩ := line_of_instr hall hk
    have hshape := Op.shape_of_jump hflow
    obtain ⟨name, hat⟩ := henc.jump_ref hshape
    rw [hdec.operands hk, hshape, fetch_off32]
    exact hstart (at_of_line hall hc hat)
  · rintro ⟨op, o⟩ hi rfl
    obtain ⟨k, hk⟩ := List.getElem?_of_mem hi
    obtain ⟨c, hc, -, henc⟩ := line_of_instr hall hk
    obtain ⟨ok, err, hok, herr⟩ := henc.call_refs
    have hops := hdec.operands hk
    obtain ⟨hoff, herr'⟩ := fetch_okErr ctx.text.bytes (instrStart is k + 1)
    rw [show o = _ from hops]
    exact ⟨hoff ▸ hstart (at_of_line hall hc hok), herr' ▸ hstart (at_of_line hall hc herr)⟩

/-! ## 4. Runs of assembled programs -/

/-- Every state that a run of an assembled program reaches is at one of its instructions. -/
theorem run_atInstr {env : AsmEnv} {src : List Byte} {ctx : AsmCtx}
    (h : asmCompile env src = .ok ctx) (hsrc : Contained env src ctx) :
    ∃ is, Framed (codeLines env src) ctx is ∧
      ∀ (vmStack a stackSize : Word) (m₀ : Mem), TextAt a ctx.text.bytes m₀ →
        ∀ es s, Run (KeepsText a ctx.text.bytes) (vmRun vmStack a stackSize, m₀) es s →
          AtInstr a ctx.text.bytes is s := by
  obtain ⟨is, hframed, hclosed⟩ := closedCode h hsrc
  refine ⟨is, hframed, ?_⟩
  intro vmStack a stackSize m₀ htext es s hrun
  exact run_confined hclosed htext hrun

/-- A loop that pushes. -/
def pushLoop : List Byte := lit "again: push ax\njmp again\n"

def pushLoopText : List Byte := [Op.push.code, 0, Op.jmp.code, 0, 0, 0, 0]

/-- The thread and memory behind `PUSH`. -/
def pushLoopPushed : VMState :=
  let t := (vmRun 0x8000 0x1000 0x100).fetched .push
  ({ t with sp := t.sp - 8 },
    store 8 (writeBytes (fun _ => 0) 0x1000 pushLoopText) (t.sp - 8) (t.gpr 0))

/-- A thread that pushes, and jumps back. -/
theorem pushLoop_run : ∃ es s, Run (KeepsText 0x1000 pushLoopText)
      (vmRun 0x8000 0x1000 0x100, writeBytes (fun _ => 0) 0x1000 pushLoopText) es s ∧
    es.length = 2 ∧ s.1.ip = 0x1000 ∧ s.1.sp = 0x80F8 := by
  have hpush : fetchInstr (writeBytes (fun _ => 0) 0x1000 pushLoopText)
      (vmRun 0x8000 0x1000 0x100).ip = some (.push, {}) := by decide +kernel
  have hjmp : fetchInstr pushLoopPushed.2 pushLoopPushed.1.ip = some (.jmp, {}) := by
    decide +kernel
  have htext : TextAt 0x1000 pushLoopText pushLoopPushed.2 := by
    unfold TextAt
    decide +kernel
  have hfirst : Step (_, _) _ pushLoopPushed := .exec none hpush (step_of_fetch hpush)
  have hsecond := Step.exec none hjmp (step_of_fetch hjmp)
  exact ⟨_, _, .next (.single ⟨hfirst, htext⟩) ⟨hsecond, htext⟩, rfl, rfl, rfl⟩

theorem pushLoop_atInstr :
    ∃ ctx is, asmCompile zeroEnv pushLoop = .ok ctx ∧ Framed (codeLines zeroEnv pushLoop) ctx is ∧
      ∃ es s, Run (KeepsText 0x1000 ctx.text.bytes)
          (vmRun 0x8000 0x1000 0x100, writeBytes (fun _ => 0) 0x1000 ctx.text.bytes) es s ∧
        es.length = 2 ∧ s.1.ip = 0x1000 ∧ s.1.sp = 0x80F8 ∧
        AtInstr 0x1000 ctx.text.bytes is s := by
  obtain ⟨ctx, h, hend, hbytes⟩ : ∃ ctx, asmCompile zeroEnv pushLoop = .ok ctx ∧
      (∀ l ∈ ctx.labels, l.sec = dvmSecCode → l.offset ≠ ctx.text.bytes.length) ∧
      ctx.text.bytes = pushLoopText := by
    refine exists_ok_of_decide ?_
    decide
  have hsrc : Contained zeroEnv pushLoop ctx := by
    refine ⟨by decide, ⟨_, rfl, by decide⟩, hend⟩
  obtain ⟨is, hframed, hruns⟩ := run_atInstr h hsrc
  have htext : TextAt 0x1000 ctx.text.bytes
      (writeBytes (fun _ => 0) 0x1000 ctx.text.bytes) := by
    refine readBytes_writeBytes_self _ _ ?_
    rw [hbytes]
    decide
  obtain ⟨es, s, hrun, hlen, hip, hsp⟩ := pushLoop_run
  rw [← hbytes] at hrun
  exact ⟨ctx, is, h, hframed, es, s, hrun, hlen, hip, hsp,
    hruns 0x8000 0x1000 0x100 _ htext es s hrun⟩

end Dvm
