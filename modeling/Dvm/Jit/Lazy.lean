/-
# Lazy compilation

A trampoline whose block is not compiled jumps to the block's stub, which saves registers, calls
`compile_and_patch` and restores them.  Trampolines are reached by jumps, but the stub ends in
`ret`: it takes the word on top of the caller's stack for the address to go on at.  So whatever
the state the trampoline is jumped to in, the stub is left with `rsp` eight bytes higher and goes
wherever that word says (`cold_path`), where the compiled trampoline goes straight to the native
code and changes nothing (`hot_path`).

The C function behind the stub is known by what it is assumed to do (`CompileReturns`).
-/
import Dvm.Jit.Stubs

namespace Dvm

open Bytes ByteMem X86 Runs

/-! ## 1. The stub as code -/

def rdx : R64 := 2
def rbx : R64 := 3
def rbp : R64 := 5
def rsi : R64 := 6
def rdi : R64 := 7

/-- The registers that a stub saves. -/
def stubSaved : List R64 := [rax, rcx, rdx, rdi, rsi, 8, 9, 10, 11]

/-- The registers that a C function preserves, but `rsp`. -/
def calleeSaved : List R64 := [rbx, rbp, 12, 13, 14, 15]

/-- Making room for the alignment and passing the arguments. -/
def stubArgs (env : JitEnv) (off : BitVec 32) : List Instr :=
  [.subImm rsp 8, .movImm64 rdi env.ctx, .movImm32 rsi off, .movImm64 rax env.compileAndPatch]

/-- A stub up to the call. -/
def stubEnter (env : JitEnv) (off : BitVec 32) : List Instr :=
  .storeImm (.rspDisp 0xF8) off :: (stubSaved.map .push ++ (stubArgs env off ++ [.callReg rax]))

/-- The rest of a stub. -/
def stubLeave : List Instr := .addImm rsp 8 :: (stubSaved.reverse.map .pop ++ [.ret])

theorem emitCompileStub_code (env : JitEnv) (off : BitVec 32) :
    emitCompileStub env off = code (stubEnter env off ++ stubLeave) := by
  have hstore : (Instr.storeImm (.rspDisp 0xF8) off).encode
      = [0x48, 0xC7, 0x44, 0x24, 0xF8] ++ le 4 off.toNat := rfl
  have hpush : code (stubSaved.map .push)
      = [0x50, 0x51, 0x52, 0x57, 0x56, 0x41, 0x50, 0x41, 0x51, 0x41, 0x52, 0x41, 0x53] := by decide
  have hsub : (Instr.subImm rsp 8).encode = [0x48, 0x83, 0xEC, 0x08] := by decide
  have hctx : (Instr.movImm64 rdi env.ctx).encode = [0x48, 0xBF] ++ le 8 env.ctx.toNat := rfl
  have hoff : (Instr.movImm32 rsi off).encode = [0xBE] ++ le 4 off.toNat := rfl
  have hfn : (Instr.movImm64 rax env.compileAndPatch).encode
      = [0x48, 0xB8] ++ le 8 env.compileAndPatch.toNat := rfl
  have hcall : (Instr.callReg rax).encode = [0xFF, 0xD0] := by decide
  have hadd : (Instr.addImm rsp 8).encode = [0x48, 0x83, 0xC4, 0x08] := by decide
  have hpop : code (stubSaved.reverse.map .pop)
      = [0x41, 0x5B, 0x41, 0x5A, 0x41, 0x59, 0x41, 0x58, 0x5E, 0x5F, 0x5A, 0x59, 0x58] := by decide
  have hret : Instr.ret.encode = [0xC3] := rfl
  delta emitCompileStub
  simp only [stubEnter, stubArgs, stubLeave, code_append, code_cons, code_nil, hstore, hpush, hsub,
    hctx, hoff, hfn, hcall, hadd, hpop, hret, List.append_assoc, List.append_nil]

/-- A trampoline jumps to its target and changes nothing else. -/
theorem step_tramp {c : Cpu} {target : Word}
    (h : readBytes c.mem c.rip dvmTrampSize = trampInit target) :
    X86.Step c (c.rip, .jmpRip 0) { c with rip := target } := by
  have hsize : dvmTrampSize = 6 + (8 + 2) := rfl
  have henc : (Instr.jmpRip 0).encode = [0xFF, 0x25, 0x00, 0x00, 0x00, 0x00] := by decide
  have hinit : trampInit target
      = (Instr.jmpRip 0).encode ++ (le 8 target.toNat ++ [0x66, 0x90]) := by
    rw [henc, ← List.append_assoc]
    delta trampInit
    rfl
  rw [hsize, readBytes_add, readBytes_add, hinit] at h
  obtain ⟨hjmp, hrest⟩ := List.append_inj h (by rw [length_readBytes, henc]; rfl)
  have htarget := (List.append_inj hrest (by rw [length_readBytes, length_le])).1
  have hstep := step_of_code (c := c) (i := .jmpRip 0) trivial (by
    rwa [henc] at hjmp ⊢)
  have hword : readWord c.mem (c.rip + BitVec.ofNat 64 6) = target := by
    rw [readWord, htarget, ofLe_le_of_lt (show target.toNat < 256 ^ 8 from target.isLt),
      BitVec.ofNat_toNat, BitVec.setWidth_eq]
  have hexec : (Instr.jmpRip 0).exec { c with rip := c.rip + BitVec.ofNat 64 6 }
      = { c with rip := readWord c.mem (c.rip + BitVec.ofNat 64 6 + 0#64) } := rfl
  rw [henc] at hstep
  have hlen : [0xFF, 0x25, 0x00, 0x00, 0x00, (0x00 : Byte)].length = 6 := rfl
  rw [hlen, hexec, BitVec.add_zero, hword] at hstep
  exact hstep

/-! ## 2. The cold path -/

/-- A processor at the trampoline of a block that is not compiled.  `n` bytes of its stack count as
contents, among them the word on top. -/
structure ColdEntry (env : JitEnv) (off : BitVec 32) (tramp stub : Word) (n : Nat) (c : Cpu) :
    Prop where
  rip : c.rip = tramp
  atTramp : readBytes c.mem tramp dvmTrampSize = trampInit stub
  atStub : readBytes c.mem stub (code (stubEnter env off ++ stubLeave)).length
    = emitCompileStub env off
  /-- The stub is not in the part of the stack that it uses. -/
  apart : Apart stub (code (stubEnter env off ++ stubLeave)).length (c.gpr rsp - 88) 88
  top : 8 ≤ n
  fits : 88 + n < 2 ^ 64

/-- What `compile_and_patch`, entered in state `c`, is assumed to have done when it is back: it has
returned by the System V convention, keeping the callee-saved registers and the caller's stack,
and has patched the trampoline. -/
structure CompileReturns (env : JitEnv) (off : BitVec 32) (tramp stub native : Word) (n : Nat)
    (c c' : Cpu) : Prop where
  rip : c'.rip = readWord c.mem (c.gpr rsp)
  sp : c'.gpr rsp = c.gpr rsp + 8
  saved : ∀ r ∈ calleeSaved, c'.gpr r = c.gpr r
  stack : ∀ x, InBlock (c.gpr rsp + 8) (80 + n) x → c'.mem x = c.mem x
  stub : ∀ x, InBlock stub (code (stubEnter env off ++ stubLeave)).length x → c'.mem x = c.mem x
  patched : readBytes c'.mem tramp dvmTrampSize = trampInit native

/-- From the trampoline to the entry of `compile_and_patch`. -/
def ColdCall (env : JitEnv) (off : BitVec 32) (c c' : Cpu) : Prop :=
  ∃ es, es.map Prod.snd = .jmpRip 0 :: stubEnter env off ∧ Run X86.Step c es c'

/-- From the return of `compile_and_patch` to the end of the stub. -/
def ColdReturn (c c' : Cpu) : Prop :=
  ∃ es, es.map Prod.snd = stubLeave ∧ Run X86.Step c es c'

/-- Jumps through trampolines. -/
def Jumps (c c' : Cpu) : Prop :=
  ∃ es, (∀ e ∈ es, ∃ d, e.2 = .jmpRip d) ∧ Run X86.Step c es c'

/-- The VM's registers (general, float, `sp`, `bp`, `fl`, shadow), `rsp` and the contents of the
stack are the same. -/
structure SameMachine (n : Nat) (c c' : Cpu) : Prop where
  general : ∀ r : Reg, c'.gpr (vm2x86 r) = c.gpr (vm2x86 r)
  float : ∀ k : Fin 16, k.val < 8 → c'.xmm k = c.xmm k
  special : ∀ r ∈ [(11 : R64), 12, 13, 14], c'.gpr r = c.gpr r
  sp : c'.gpr rsp = c.gpr rsp
  stack : ∀ x, InBlock (c.gpr rsp) n x → c'.mem x = c.mem x

/-- Jumping to the trampoline before the block is compiled reaches its native code in the state it
was jumped to in: through the stub and the C function, and from the end of the stub through
trampolines only. -/
def Transparent (env : JitEnv) (off : BitVec 32) (tramp stub native : Word) (n : Nat) (c : Cpu) :
    Prop :=
  ∃ c₁ c₂ c₃ c', ColdCall env off c c₁ ∧ CompileReturns env off tramp stub native n c₁ c₂ ∧
    ColdReturn c₂ c₃ ∧ Jumps c₃ c' ∧ c'.rip = native ∧ SameMachine n c c'

/-- Once the block is compiled, jumping to the trampoline does that. -/
theorem hot_path {c : Cpu} {native : Word} (n : Nat)
    (h : readBytes c.mem c.rip dvmTrampSize = trampInit native) :
    ∃ c', Jumps c c' ∧ c'.rip = native ∧ SameMachine n c c' := by
  refine ⟨{ c with rip := native }, ⟨_, ?_, Run.single (step_tramp h)⟩, rfl, ?_⟩
  · rw [List.forall_mem_singleton]
    exact ⟨0, rfl⟩
  · exact ⟨fun _ => rfl, fun _ _ => rfl, fun _ _ => rfl, rfl, fun _ _ => rfl⟩

/-! ## 3. Through the stub -/

theorem length_stubArgs (env : JitEnv) (off : BitVec 32) :
    (code (stubArgs env off)).length = 29 := by
  have hsub : (Instr.subImm rsp 8).encode.length = 4 := by decide
  simp only [stubArgs, code_cons, code_nil, List.length_append, hsub]
  rfl

theorem length_stubEnter (env : JitEnv) (off : BitVec 32) :
    (code (stubEnter env off)).length = 53 := by
  have hstore : (Instr.storeImm (.rspDisp 0xF8) off).encode.length = 9 := rfl
  have hpush : (code (stubSaved.map .push)).length = 13 := by decide
  have hcall : (Instr.callReg rax).encode.length = 2 := by decide
  simp only [stubEnter, code_cons, code_append, code_nil, List.length_append, hstore, hpush,
    length_stubArgs, hcall]
  rfl

theorem length_stub (env : JitEnv) (off : BitVec 32) :
    (code (stubEnter env off ++ stubLeave)).length = 71 := by
  rw [← emitCompileStub_code, length_emitCompileStub]

/-- A processor that has come from `c` to the entry of `compile_and_patch`. -/
structure AtCall (env : JitEnv) (stub : Word) (c c₁ : Cpu) : Prop where
  rip : c₁.rip = env.compileAndPatch
  sp : c₁.gpr rsp = c.gpr rsp - 88
  back : readWord c₁.mem (c.gpr rsp - 88) = stub + 53
  pushed : words c₁.mem (c.gpr rsp - 72) 9 = (stubSaved.map c.gpr).reverse
  mem : ∀ x, ¬ InBlock (c.gpr rsp - 88) 88 x → c₁.mem x = c.mem x
  saved : ∀ r ∈ calleeSaved, c₁.gpr r = c.gpr r

/-- Saving the registers. -/
theorem run_save {off : BitVec 32} {is : List Instr} {c : Cpu} {n : Nat}
    (hn : (code (.storeImm (.rspDisp 0xF8) off :: (stubSaved.map .push ++ is))).length = n)
    (hlt : n < 2 ^ 64) (hapart : Apart c.rip n (c.gpr rsp - 72) 72)
    (hcode : CodeAt c.mem c.rip (.storeImm (.rspDisp 0xF8) off :: (stubSaved.map .push ++ is))) :
    ∃ es c', es.map Prod.snd = .storeImm (.rspDisp 0xF8) off :: stubSaved.map Instr.push ∧
      Run X86.Step c es c' ∧ CodeAt c'.mem c'.rip is ∧ c'.rip = c.rip + 22 ∧
      c'.gpr = setR c.gpr rsp (c.gpr rsp - 72) ∧
      words c'.mem (c.gpr rsp - 72) 9 = (stubSaved.map c.gpr).reverse ∧
      ∀ x, ¬ InBlock (c.gpr rsp - 72) 72 x → c'.mem x = c.mem x := by
  subst hn
  generalize hi : Instr.storeImm (.rspDisp 0xF8) off = i at *
  have hfalls : i.Falls := by rw [← hi]; trivial
  have henc : i.Encodable := by rw [← hi]; trivial
  have hlen : i.encode.length = 9 := by rw [← hi]; rfl
  have hdisp : (0xF8 : BitVec 8).signExtend 64 = -8 := by decide
  have hexec : ∀ c : Cpu, i.exec c
      = { c with mem := writeWord c.mem (c.gpr rsp - 8) (off.signExtend 64) } := by
    intro c
    rw [← hi, BitVec.sub_eq_add_neg, ← hdisp]
    rfl
  -- the word below the stack is the one that the first push overwrites
  have htop : ∀ x, InBlock (c.gpr rsp - 8) 8 x → InBlock (c.gpr rsp - 72) 72 x := by
    intro x hx
    rw [show c.gpr rsp - 8 = c.gpr rsp - 72 + BitVec.ofNat 64 64 by bv_omega] at hx
    exact inBlock_of_sub (n := 72) (by omega) (by omega) hx
  have hstep := step_code henc hcode
  have hnext := codeAt_step hfalls hlt (fun x hx => by
    rw [hexec]
    exact writeWord_apply fun hx' => hapart x hx (htop x hx')) hcode
  rw [hexec] at hstep hnext
  rw [code_cons, List.length_append] at hlt hapart
  obtain ⟨es, c', hes, hrun, hat, hrip, hgpr, -, hwords, hmem⟩ :=
    @run_push stubSaved (by decide) _ _ hnext (by omega) (by decide) (fun x hx =>
      hapart x (inBlock_of_sub (Nat.le_refl _) hlt hx))
  have hrsp : c'.gpr rsp = c.gpr rsp - 72 := by
    rw [hgpr]
    exact setR_self _ _ _
  refine ⟨(c.rip, i) :: es, c', by rw [List.map_cons, hes], (Run.single hstep).trans hrun, hat, ?_,
    hgpr, ?_, fun x hx => ?_⟩
  · have hpush : (code (stubSaved.map .push)).length = 13 := by decide
    rw [hrip, hpush]
    show c.rip + BitVec.ofNat 64 i.encode.length + _ = _
    rw [hlen, BitVec.add_assoc]
    rfl
  · rw [← hrsp]
    exact hwords
  · rw [hmem x hx]
    exact writeWord_apply fun hx' => hx (htop x hx')

/-- Calling `compile_and_patch`. -/
theorem run_call {env : JitEnv} {off : BitVec 32} {is : List Instr} {c : Cpu}
    (hcode : CodeAt c.mem c.rip (stubArgs env off ++ (.callReg rax :: is))) :
    ∃ es c', es.map Prod.snd = stubArgs env off ++ [.callReg rax] ∧ Run X86.Step c es c' ∧
      c'.rip = env.compileAndPatch ∧ c'.gpr rsp = c.gpr rsp - 16 ∧
      (∀ r ∈ calleeSaved, c'.gpr r = c.gpr r) ∧
      c'.mem = writeWord c.mem (c.gpr rsp - 16) (c.rip + 31) := by
  obtain ⟨hargs, hcall⟩ := codeAt_append.mp hcode
  obtain ⟨es, hes, hrun⟩ := @run_regs (stubArgs env off) (by
    intro i hi
    simp only [stubArgs, List.mem_cons, List.not_mem_nil, or_false] at hi
    rcases hi with rfl | rfl | rfl | rfl <;> trivial) _ hargs
  generalize hg : regsAfter (stubArgs env off) c.gpr = g at hrun
  rw [length_stubArgs] at hcall hrun
  have hstep := step_code (i := .callReg rax)
    (c := ⟨g, c.xmm, c.rip + BitVec.ofNat 64 29, c.mem⟩) trivial hcall
  have hsp : g rsp = c.gpr rsp - 8 := by rw [← hg]; rfl
  have hrax : g rax = env.compileAndPatch := by rw [← hg]; rfl
  have hsp' : c.gpr rsp - 8 - 8 = c.gpr rsp - 16 := by bv_omega
  have hrip : c.rip + BitVec.ofNat 64 29 + BitVec.ofNat 64 2 = c.rip + 31 := by bv_omega
  refine ⟨es ++ [_], _, by rw [List.map_append, hes]; rfl, hrun.trans (Run.single hstep), hrax, ?_,
    ?_, ?_⟩
  · show setR g rsp (g rsp - 8) rsp = _
    rw [setR_self, hsp, hsp']
  · intro r hr
    show setR g rsp (g rsp - 8) r = _
    rw [← hg]
    simp only [calleeSaved, List.mem_cons, List.not_mem_nil, or_false] at hr
    rcases hr with rfl | rfl | rfl | rfl | rfl | rfl <;> rfl
  · show writeWord c.mem (g rsp - 8) (c.rip + BitVec.ofNat 64 29 + BitVec.ofNat 64 2) = _
    rw [hsp, hsp', hrip]

theorem cold_call {env : JitEnv} {off : BitVec 32} {tramp stub : Word} {n : Nat} {c : Cpu}
    (h : ColdEntry env off tramp stub n c) :
    ∃ c₁, ColdCall env off c c₁ ∧ AtCall env stub c c₁ := by
  have hapart := h.apart
  rw [length_stub] at hapart
  have hbase : c.gpr rsp - 72 = c.gpr rsp - 88 + BitVec.ofNat 64 16 := by bv_omega
  have hsave : ∀ x, InBlock (c.gpr rsp - 72) 72 x → InBlock (c.gpr rsp - 88) 88 x := by
    intro x hx
    rw [hbase] at hx
    exact inBlock_of_sub (n := 88) (by omega) (by omega) hx
  have hjmp := @step_tramp c stub (by rw [h.rip]; exact h.atTramp)
  have hlen := length_stub env off
  have hcode := h.atStub
  rw [emitCompileStub_code] at hcode
  simp only [stubEnter, List.cons_append, List.append_assoc, List.nil_append] at hlen hcode
  obtain ⟨es₁, c₁, hes₁, hrun₁, hat₁, hrip₁, hgpr₁, hwords₁, hmem₁⟩ :=
    run_save (c := { c with rip := stub }) hlen (by decide)
      (fun x hx hx' => hapart x hx (hsave x hx')) hcode
  obtain ⟨es₂, c₂, hes₂, hrun₂, hrip₂, hsp₂, hsaved₂, hmem₂⟩ := run_call hat₁
  have hsp₁ : c₁.gpr rsp = c.gpr rsp - 72 := by rw [hgpr₁, setR_self]
  have hsp : c₁.gpr rsp - 16 = c.gpr rsp - 88 := by rw [hsp₁]; bv_omega
  rw [hsp] at hsp₂ hmem₂
  refine ⟨c₂, ⟨(c.rip, .jmpRip 0) :: (es₁ ++ es₂), ?_, (Run.single hjmp).trans (hrun₁.trans hrun₂)⟩,
    hrip₂, hsp₂, ?_, ?_, ?_, ?_⟩
  · rw [List.map_cons, List.map_append, hes₁, hes₂]
    rfl
  · rw [hmem₂, readWord_writeWord, hrip₁]
    show stub + 22 + 31 = stub + 53
    bv_omega
  · rw [← hwords₁, hmem₂]
    refine words_congr (by decide) fun x hx => writeWord_apply ?_
    rw [hbase] at hx
    have hsep := not_inBlock_of_sep (q := 0) (l := 8) (by omega) (by omega) (.inr (by omega)) hx
    rwa [BitVec.add_zero] at hsep
  · intro x hx
    rw [hmem₂, writeWord_apply fun hx' => hx (Nat.lt_of_lt_of_le hx' (by decide))]
    exact hmem₁ x fun hx' => hx (hsave x hx')
  · intro r hr
    have hne : r ≠ rsp := by
      rintro rfl
      exact absurd hr (by decide)
    rw [hsaved₂ r hr, hgpr₁, setR_ne _ _ hne]

/-- A processor at the end of the stub, that was entered with the registers of `c`. -/
structure AtEnd (c c₃ : Cpu) : Prop where
  /-- `ret` goes to what was on top of the stack. -/
  rip : c₃.rip = readWord c.mem (c.gpr rsp)
  sp : c₃.gpr rsp = c.gpr rsp + 8
  restored : ∀ r ∈ stubSaved ++ calleeSaved, c₃.gpr r = c.gpr r

/-- Leaving the stub, with the saved registers on the stack. -/
theorem run_leave {c : Cpu} {f : R64 → Word} (hcode : CodeAt c.mem c.rip stubLeave)
    (hwords : words c.mem (c.gpr rsp + 8) 9 = stubSaved.reverse.map f) :
    ∃ c', ColdReturn c c' ∧ c'.rip = readWord c.mem (c.gpr rsp + 80) ∧
      c'.gpr rsp = c.gpr rsp + 88 ∧
      (∀ r ∈ stubSaved, c'.gpr r = f r) ∧
      ∀ r, r ≠ rsp → r ∉ stubSaved → c'.gpr r = c.gpr r := by
  have hstep := step_code (i := .addImm rsp 8) trivial hcode
  obtain ⟨c₁, hc₁⟩ : ∃ c₁, c₁ = (Instr.addImm rsp 8).exec (c.past (.addImm rsp 8)) := ⟨_, rfl⟩
  have hgpr₁ : c₁.gpr = setR c.gpr rsp (c.gpr rsp + 8) := by
    rw [hc₁]
    rfl
  have hmem₁ : c₁.mem = c.mem := by
    rw [hc₁]
    rfl
  have hpops : CodeAt c₁.mem c₁.rip (stubSaved.reverse.map .pop ++ [.ret]) := by
    rw [hc₁]
    exact (codeAt_cons.mp hcode).2
  rw [← hc₁] at hstep
  obtain ⟨es, c', hes, hrun, hat, hmem, -, hsp, hpopped, hother⟩ :=
    @run_pop stubSaved.reverse (by decide) _ _ f hpops (by
      rw [hgpr₁, setR_self, hmem₁]
      exact hwords)
  rw [hgpr₁, setR_self] at hsp
  have hsp' : c'.gpr rsp = c.gpr rsp + 80 := by
    have hlen : stubSaved.reverse.length = 9 := rfl
    rw [hsp, hlen]
    bv_omega
  have hret := step_code (i := .ret) trivial hat
  refine ⟨_, ⟨(c.rip, .addImm rsp 8) :: (es ++ [_]), ?_,
    (Run.single hstep).trans (hrun.trans (Run.single hret))⟩, ?_, ?_, fun r hr => ?_,
    fun r hr hrs => ?_⟩
  · rw [List.map_cons, List.map_append, hes]
    rfl
  · show readWord c'.mem (c'.gpr rsp) = _
    rw [hmem, hmem₁, hsp']
  · show setR c'.gpr rsp (c'.gpr rsp + 8) rsp = _
    rw [setR_self, hsp']
    bv_omega
  · have hne : ∀ r ∈ stubSaved, r ≠ rsp := by decide
    show setR c'.gpr rsp (c'.gpr rsp + 8) r = _
    rw [setR_ne _ _ (hne r hr), hpopped r (List.mem_reverse.mpr hr)]
  · show setR c'.gpr rsp (c'.gpr rsp + 8) r = _
    rw [setR_ne _ _ hr, hother r hr (mt List.mem_reverse.mp hrs), hgpr₁, setR_ne _ _ hr]

theorem cold_return {env : JitEnv} {off : BitVec 32} {tramp stub native : Word} {n : Nat}
    {c c₁ c₂ : Cpu} (h : ColdEntry env off tramp stub n c) (hcall : AtCall env stub c c₁)
    (hret : CompileReturns env off tramp stub native n c₁ c₂) :
    ∃ c₃, ColdReturn c₂ c₃ ∧ AtEnd c c₃ := by
  have hfits := h.fits
  have hapart := h.apart
  have hrip := hret.rip
  have hsp := hret.sp
  have hstack := hret.stack
  rw [hcall.sp] at hrip hsp hstack
  rw [hcall.back] at hrip
  have hsp' : c₂.gpr rsp = c.gpr rsp - 80 := by rw [hsp]; bv_omega
  have hbase : c.gpr rsp - 88 + 8 = c.gpr rsp - 80 := by bv_omega
  rw [hbase] at hstack
  -- the rest of the stub
  have hcode : CodeAt c₂.mem c₂.rip stubLeave := by
    have hstub := h.atStub
    rw [emitCompileStub_code] at hstub
    have hstub₂ : CodeAt c₂.mem stub (stubEnter env off ++ stubLeave) :=
      CodeAt.congr (by rw [length_stub]; decide) (fun x hx => by
        rw [hret.stub x hx]
        exact hcall.mem x (hapart x hx)) hstub
    have hleave := (codeAt_append.mp hstub₂).2
    rw [length_stubEnter] at hleave
    rwa [hrip]
  obtain ⟨c₃, hrun, hrip₃, hsp₃, hpopped, hother⟩ := run_leave (f := c.gpr) hcode (by
    have hlow : c.gpr rsp - 80 + 8 = c.gpr rsp - 72 := by bv_omega
    rw [List.map_reverse, ← hcall.pushed, hsp', hlow]
    refine words_congr (by decide) fun x hx => hstack x ?_
    rw [← hlow] at hx
    exact inBlock_of_sub (p := 8) (by omega) (by omega) hx)
  rw [hsp'] at hrip₃ hsp₃
  have hne : ∀ r ∈ stubSaved ++ calleeSaved, r ≠ rsp := by decide
  refine ⟨c₃, hrun, ?_, ?_, ?_⟩
  · have htop : c.gpr rsp - 80 + 80 = c.gpr rsp := by bv_omega
    rw [hrip₃, htop, readWord, readWord]
    congr 2
    refine readBytes_congr (by decide) fun x hx => ?_
    rw [hstack x, hcall.mem x]
    · have htop' : c.gpr rsp = c.gpr rsp - 88 + BitVec.ofNat 64 88 := by bv_omega
      rw [htop'] at hx
      have hsep := not_inBlock_of_sep (q := 0) (l := 88) (by omega) (by omega) (.inr (by omega)) hx
      rwa [BitVec.add_zero] at hsep
    · rw [← htop] at hx
      exact inBlock_of_sub (p := 80) (by have := h.top; omega) (by omega) hx
  · rw [hsp₃]
    bv_omega
  · intro r hr
    by_cases hs : r ∈ stubSaved
    · exact hpopped r hs
    · have hr' := (List.mem_append.mp hr).resolve_left hs
      rw [hother r (hne r hr) hs, hret.saved r hr', hcall.saved r hr']

/-! ## 4. Transparency -/

theorem Jumps.gpr_eq {c c' : Cpu} (h : Jumps c c') : c'.gpr = c.gpr := by
  obtain ⟨es, hjmps, hrun⟩ := h
  induction hrun with
  | start => rfl
  | @next es s s' e _ hs ih =>
    obtain ⟨hes, he⟩ := List.forall_mem_append.mp hjmps
    obtain ⟨d, hd⟩ := he e (List.mem_singleton_self e)
    obtain ⟨next, -, -, rfl⟩ := hs
    have hexec : ∀ s : Cpu, (Instr.jmpRip d).exec s
        = { s with rip := readWord s.mem (s.rip + d.signExtend 64) } := fun _ => rfl
    rw [hd, hexec]
    exact ih hes

/-- What the cold path does, whatever `compile_and_patch` does by its contract. -/
theorem cold_path {env : JitEnv} {off : BitVec 32} {tramp stub native : Word} {n : Nat} {c : Cpu}
    (h : ColdEntry env off tramp stub n c) {c₁ c₂ c₃ : Cpu} (hcall : ColdCall env off c c₁)
    (hret : CompileReturns env off tramp stub native n c₁ c₂) (hleave : ColdReturn c₂ c₃) :
    c₁.rip = env.compileAndPatch ∧ AtEnd c c₃ := by
  obtain ⟨c₁', ⟨es, hes, hrun⟩, hat⟩ := cold_call h
  obtain ⟨es', hes', hrun'⟩ := hcall
  obtain ⟨-, rfl⟩ := run_deterministic hrun hrun' (by
    rw [← List.length_map (f := Prod.snd), hes, ← hes', List.length_map])
  obtain ⟨c₃', ⟨fs, hfs, hrunf⟩, hend⟩ := cold_return h hat hret
  obtain ⟨fs', hfs', hrunf'⟩ := hleave
  obtain ⟨-, rfl⟩ := run_deterministic hrunf hrunf' (by
    rw [← List.length_map (f := Prod.snd), hfs, ← hfs', List.length_map])
  exact ⟨hat.rip, hend⟩

/-- The stack pointer that the stub leaves behind is not the one it found. -/
theorem not_transparent {env : JitEnv} {off : BitVec 32} {tramp stub native : Word} {n : Nat}
    {c : Cpu} (h : ColdEntry env off tramp stub n c) :
    ¬ Transparent env off tramp stub native n c := by
  rintro ⟨c₁, c₂, c₃, c', hcall, hret, hleave, hjumps, -, hsame⟩
  have hsp := hsame.sp
  rw [hjumps.gpr_eq, (cold_path h hcall hret hleave).2.sp] at hsp
  have hne : c.gpr rsp + 8 ≠ c.gpr rsp := by bv_omega
  exact hne hsp

/-- No state makes lazy compilation transparent.  A call of `compile_and_patch` is reached from
every one, and when it returns, the stub restores the registers it saved, pops the top of the
stack and jumps there. -/
theorem cold_never_transparent {env : JitEnv} {off : BitVec 32} {tramp stub : Word} (native : Word)
    {n : Nat} {c : Cpu} (h : ColdEntry env off tramp stub n c) :
    (∃ c₁, ColdCall env off c c₁ ∧ c₁.rip = env.compileAndPatch ∧
      ∀ c₂, CompileReturns env off tramp stub native n c₁ c₂ →
        ∃ c₃, ColdReturn c₂ c₃ ∧ AtEnd c c₃) ∧
    ¬ Transparent env off tramp stub native n c := by
  obtain ⟨c₁, hcall, hat⟩ := cold_call h
  exact ⟨⟨c₁, hcall, hat.rip, fun c₂ hret => cold_return h hat hret⟩, not_transparent h⟩

/-! ## 5. Blocks of a context -/

/-- What the trampolines of the blocks of a context hold until they are compiled. -/
structure ColdBlocks (env : JitEnv) (ctx : JitCtx) : Prop where
  inv : TableInv ctx
  trampoline : ∀ i < ctx.blocks.length,
    (ctx.block i).trampoline = env.trampArena + BitVec.ofNat 64 (i * dvmTrampSize)
  target : ∀ i < ctx.blocks.length, (ctx.block i).native = none →
    field ctx.tramps (i * dvmTrampSize) dvmTrampSize
      = trampInit (env.stubArena + BitVec.ofNat 64 (i * stubSlot))

theorem coldBlocks_addBlock {env : JitEnv} {ctx : JitCtx} {off : BitVec 32}
    (hroom : ctx.blocks.length < dvmMaxBlocks) (h : ColdBlocks env ctx) :
    ColdBlocks env (ctx.addBlock env off) := by
  have hext := @extends_addBlock env ctx off hroom h.inv
  refine ⟨hext.inv, trampoline_addBlock h.trampoline, fun i hi hnone => ?_⟩
  rcases lt_addBlock hi with hlt | rfl
  · rw [block_addBlock_of_lt hlt] at hnone
    rw [hext.tramps i hlt]
    exact h.target i hlt hnone
  · exact tramps_addBlock_self hroom h.inv

theorem coldBlocks_finish {env : JitEnv} {ctx : JitCtx} {i : Nat} (start : Word)
    (hi : i < ctx.blocks.length) (h : ColdBlocks env ctx) :
    ColdBlocks env (ctx.finish i start) := by
  have hlen : (ctx.finish i start).blocks.length = ctx.blocks.length := List.length_modify ..
  refine ⟨finish_tableInv start hi h.inv, fun k hk => ?_, fun k hk hnone => ?_⟩
  · rw [hlen] at hk
    have hsame : ((ctx.finish i start).block k).trampoline = (ctx.block k).trampoline := by
      rw [block_finish ctx i k start hk]
      split <;> rfl
    rw [hsame]
    exact h.trampoline k hk
  · rw [hlen] at hk
    rw [block_finish ctx i k start hk] at hnone
    -- the block that is finished has native code
    split at hnone
    · cases hnone
    · next hne =>
      rw [← h.target k hk hnone]
      refine field_patch_disjoint (h.inv.target_fits hi start) ?_
      rw [length_le]
      simp only [dvmTrampSize]
      omega

theorem run_coldBlocks {env : JitEnv} {bc : Nat → Byte} {bcLen : Nat}
    {es : List (JitCtx × JitCall)} {s : JitState} (hrun : JitRun env bc bcLen es s) :
    ColdBlocks env s.ctx := by
  refine JitRun.keeps (P := ColdBlocks env) ?_ ?_ ?_ ?_ hrun
  · exact ⟨⟨Nat.zero_le _, List.length_replicate⟩, fun i hi => (Nat.not_lt_zero i hi).elim,
      fun i hi => (Nat.not_lt_zero i hi).elim⟩
  · intro ctx off h _ hroom
    exact coldBlocks_addBlock hroom h
  · intro ctx cs h
    exact ⟨⟨h.inv.few, h.inv.size⟩, h.trampoline, h.target⟩
  · intro ctx i start h hi
    exact coldBlocks_finish start hi h

/-- A block of a reached context that is not compiled and whose stub is there is entered cold. -/
theorem coldEntry_of_run {env : JitEnv} {bc : Nat → Byte} {bcLen : Nat}
    {es : List (JitCtx × JitCall)} {s : JitState} (hrun : JitRun env bc bcLen es s) {i : Nat}
    (hi : i < s.ctx.blocks.length) (hnone : (s.ctx.block i).native = none)
    (hstub : StubIntact env s.ctx i) {c : Cpu} {n : Nat}
    (hrip : c.rip = (s.ctx.block i).trampoline)
    (htramps : readBytes c.mem env.trampArena s.ctx.tramps.length = s.ctx.tramps)
    (hstubs : readBytes c.mem env.stubArena s.ctx.stubs.length = s.ctx.stubs)
    (hapart : Apart (env.stubArena + BitVec.ofNat 64 (i * stubSlot)) 71 (c.gpr rsp - 88) 88)
    (htop : 8 ≤ n) (hfits : 88 + n < 2 ^ 64) :
    ColdEntry env (s.ctx.block i).bcOffset (s.ctx.block i).trampoline
      (env.stubArena + BitVec.ofNat 64 (i * stubSlot)) n c := by
  have hcold := run_coldBlocks hrun
  have hfew := hcold.inv.few
  have hsize := hcold.inv.size
  refine ⟨hrip, ?_, ?_, by rwa [length_stub], htop, hfits⟩
  · rw [hcold.trampoline i hi, readBytes_sub (n := s.ctx.tramps.length), htramps]
    · exact hcold.target i hi hnone
    · rw [hsize, trampCap, ← Nat.succ_mul]
      exact Nat.mul_le_mul_right _ (Nat.le_trans hi hfew)
  · have hfit : i * stubSlot + 71 ≤ s.ctx.stubs.length := by
      have hlen := congrArg List.length hstub
      simp only [field, JitCtx.stub, List.length_take, List.length_drop,
        length_emitCompileStub] at hlen
      omega
    rw [length_stub, readBytes_sub _ _ hfit, hstubs]
    have hself := hstub
    rw [StubIntact, JitCtx.stub, length_emitCompileStub] at hself
    exact hself

/-! ## 6. A machine -/

/-- A processor at a trampoline at 0x1000, with its stub at 0x2000 and the stack from 0x10000 on. -/
def coldCpu : Cpu where
  gpr := fun _ => 0x10000
  xmm := fun _ => 0
  rip := 0x1000
  mem := writeBytes (writeBytes (fun _ => 0) 0x1000 (trampInit 0x2000)) 0x2000
    (emitCompileStub hostEnv 0)

theorem coldCpu_entry : ColdEntry hostEnv 0 0x1000 0x2000 8 coldCpu := by
  have hlen : (trampInit 0x2000).length = dvmTrampSize := by decide
  have hstub := length_emitCompileStub hostEnv 0
  refine ⟨rfl, ?_, ?_, ?_, by omega, by omega⟩
  · have hread := @readBytes_writeBytes_self (fun _ => 0) 0x1000 (trampInit 0x2000)
      (by rw [hlen]; decide)
    rw [hlen] at hread
    rw [coldCpu, readBytes_writeBytes_apart (by decide), hread]
    intro x hx hx'
    rw [hstub] at hx'
    simp only [InBlock, dvmTrampSize] at hx hx'
    bv_omega
  · have hread := @readBytes_writeBytes_self (writeBytes (fun _ => 0) 0x1000 (trampInit 0x2000))
      0x2000 (emitCompileStub hostEnv 0) (by rw [hstub]; decide)
    rw [hstub] at hread
    rw [length_stub]
    exact hread
  · intro x hx hx'
    rw [length_stub] at hx
    simp only [InBlock, coldCpu] at hx hx'
    bv_omega

theorem cold_never_transparent_host :
    (∃ c₁, ColdCall hostEnv 0 coldCpu c₁ ∧ c₁.rip = hostEnv.compileAndPatch ∧
      ∀ c₂, CompileReturns hostEnv 0 0x1000 0x2000 0x3000 8 c₁ c₂ →
        ∃ c₃, ColdReturn c₂ c₃ ∧ AtEnd coldCpu c₃) ∧
    ¬ Transparent hostEnv 0 0x1000 0x2000 0x3000 8 coldCpu :=
  cold_never_transparent 0x3000 coldCpu_entry

/-- Lazy compilation is not transparent. -/
theorem cold_not_transparent : ¬ ∀ (env : JitEnv) (off : BitVec 32) (tramp stub native : Word)
    (n : Nat) (c : Cpu), ColdEntry env off tramp stub n c →
    Transparent env off tramp stub native n c :=
  fun hall => not_transparent coldCpu_entry (hall _ _ _ _ 0x3000 _ _ coldCpu_entry)

end Dvm
