/-
# Calls in native code

`CALL`, `RET` and `THROW` end a block; natively they push a frame of two trampolines below `r14`,
or pop one, and jump to a trampoline.  The interpreter's frame is the address behind the call and
the handler's.  `jit_emit_call` stores the callee's trampoline where the return address belongs,
and all three use `rax`, which is `ax`.

So the engines go on alike as long as this makes no difference (`TransferOk`): `ax` holds the
trampoline that is jumped to, and a call returns to its own callee.  In every run whose transfers
are like that they enter the same blocks with the same registers (`calls_agree`).
-/
import Dvm.Jit.Lazy
import Dvm.Jit.Straight
import Dvm.Vm.Shadow

namespace Dvm

open Bytes ByteMem X86 Runs

/-! ## 1. Blocks -/

/-- The integer opcodes that do the same natively. -/
def Op.isPlain (op : Op) : Bool := op.isInt && op ∉ [shl, shr, sar]

/-- The opcodes that end a block. -/
def Op.isEnd (op : Op) : Bool := op ∈ [call, ret, throw, halt]

/-- The block at `p`: the instructions `is`, and `i` that ends it. -/
def BlockAt (bc : Nat → Byte) (bcLen : Nat) : Nat → List (Op × Operands) → Op × Operands → Prop
  | p, [], i => p < bcLen ∧ Op.ofCode (bc p) = some i.1 ∧ i.1.isEnd = true ∧
      i.2 = bcOperands bc i.1 p
  | p, j :: is, i => p < bcLen ∧ Op.ofCode (bc p) = some j.1 ∧ j.1.isPlain = true ∧
      j.2 = bcOperands bc j.1 p ∧ BlockAt bc bcLen (p + j.1.size) is i

theorem isInt_of_isPlain {op : Op} (h : op.isPlain = true) : op.isInt = true :=
  (Bool.and_eq_true_iff.mp h).1

section Block

variable {bc : Nat → Byte} {bcLen p : Nat} {is : List (Op × Operands)} {i : Op × Operands}

theorem BlockAt.plain (h : BlockAt bc bcLen p is i) : ∀ j ∈ is, j.1.isPlain = true := by
  induction is generalizing p with
  | nil => exact fun j hj => nomatch hj
  | cons k is ih => exact List.forall_mem_cons.mpr ⟨h.2.2.1, ih h.2.2.2.2⟩

theorem BlockAt.instrs (h : BlockAt bc bcLen p is i) : InstrsAt bc p is := by
  induction is generalizing p with
  | nil =>
    intro k j hk
    cases hk
  | cons k is ih => exact .cons h.2.1 (isInt_of_isPlain h.2.2.1) h.2.2.2.1 (ih h.2.2.2.2)

theorem BlockAt.last (h : BlockAt bc bcLen p is i) :
    Op.ofCode (bc (p + instrStart is is.length)) = some i.1 ∧ i.1.isEnd = true ∧
      i.2 = bcOperands bc i.1 (p + instrStart is is.length) := by
  induction is generalizing p with
  | nil => exact h.2
  | cons j is ih =>
    rw [List.length_cons, instrStart_cons, ← Nat.add_assoc]
    exact ih h.2.2.2.2

/-- The registers after the plain instructions are the interpreter's. -/
theorem jitAfter_plain (h : ∀ j ∈ is, j.1.isPlain = true) (g : Reg → Word) :
    jitAfter is g = vmAfter is g := by
  have hstep : ∀ g, ∀ j ∈ is, jitRegs g j = vmRegs g j := by
    intro g j hj
    refine (jitRegs_eq_iff g j).mpr fun hshift => ?_
    have hno := (Bool.and_eq_true_iff.mp (h j hj)).2
    exact absurd hshift (of_decide_eq_true hno)
  exact List.foldl_ext _ _ _ fun g j hj => hstep g j hj

end Block

/-! ## 2. The end of a block as code -/

def r14 : R64 := 14

/-- The instructions that are emitted for the end of a block, `tramp` being the trampolines. -/
def endInstrs (tramp : BitVec 32 → Word) (i : Op × Operands) : List Instr :=
  match i.1 with
  | .call => [.subImm r14 16, .movImm64 rax (tramp i.2.err), .storeMem (.plain r14) rax,
      .movImm64 rax (tramp i.2.off), .storeMem (.disp r14 8) rax, .jmpReg rax]
  | .ret => [.loadMem rax (.disp r14 8), .addImm r14 16, .jmpReg rax]
  | .throw => [.loadMem rax (.plain r14), .addImm r14 16, .jmpReg rax]
  | _ => [.pop rbp, .ret]

theorem flatten_jitEmitCall (ok err : Word) : (jitEmitCall ok err).flatten
    = code [.subImm r14 16, .movImm64 rax err, .storeMem (.plain r14) rax, .movImm64 rax ok,
      .storeMem (.disp r14 8) rax, .jmpReg rax] := by
  have hsub : (Instr.subImm r14 16).encode = [0x49, 0x83, 0xEE, 0x10] := by decide
  have hmov : ∀ v : Word, (Instr.movImm64 rax v).encode = [0x48, 0xB8] ++ le 8 v.toNat :=
    fun _ => rfl
  have herr : (Instr.storeMem (.plain r14) rax).encode = [0x49, 0x89, 0x06] := by decide
  have hok : (Instr.storeMem (.disp r14 8) rax).encode = [0x49, 0x89, 0x46, 0x08] := by decide
  have hjmp : (Instr.jmpReg rax).encode = [0xFF, 0xE0] := by decide
  delta jitEmitCall
  simp only [code_cons, code_nil, hsub, hmov, herr, hok, hjmp, jitU8, jitU64, List.flatten_cons,
    List.flatten_nil, List.append_nil, List.cons_append, List.nil_append]

/-- What is emitted for the end of a block. -/
theorem endCode_code {ctx : JitCtx} {i : Op × Operands} (h : i.1.isEnd = true) :
    (endCode ctx (blockEnd i.1 i.2)).flatten = code (endInstrs ctx.trampOf i) := by
  have hret : jitEmitRet.flatten
      = code [.loadMem rax (.disp r14 8), .addImm r14 16, .jmpReg rax] := by decide
  have hthrow : jitEmitThrow.flatten
      = code [.loadMem rax (.plain r14), .addImm r14 16, .jmpReg rax] := by decide
  have hhalt : jitEpilogue.flatten = code [.pop rbp, .ret] := by decide
  obtain ⟨op, o⟩ := i
  replace h : op.isEnd = true := h
  cases op
  case call => exact flatten_jitEmitCall _ _
  case ret => exact hret
  case throw => exact hthrow
  case halt => exact hhalt
  all_goals exact absurd h (by decide)

/-- What is emitted for a block. -/
theorem scan_block {bc : Nat → Byte} {bcLen p : Nat} {is : List (Op × Operands)}
    {i : Op × Operands} (h : BlockAt bc bcLen p is i) {fuel : Nat} (hfuel : bcLen ≤ p + fuel) :
    (scanBlock bc bcLen fuel p).1.flatten = code (nativeCode is) ∧
      (scanBlock bc bcLen fuel p).2 = blockEnd i.1 i.2 := by
  induction is generalizing p fuel with
  | nil =>
    obtain ⟨hp, hop, hend, ho⟩ := h
    obtain ⟨fuel, rfl⟩ : ∃ n, fuel = n + 1 := ⟨fuel - 1, by omega⟩
    have hnone : jitStraight i.1 i.2 = none := by
      obtain ⟨op, o⟩ := i
      replace hend : op.isEnd = true := hend
      cases op
      case call | ret | throw | halt => rfl
      all_goals exact absurd hend (by decide)
    rw [scanBlock, if_pos hp, hop]
    simp only [← ho, hnone]
    exact ⟨rfl, trivial⟩
  | cons j is ih =>
    obtain ⟨hp, hop, hplain, ho, hrest⟩ := h
    obtain ⟨fuel, rfl⟩ : ∃ n, fuel = n + 1 := ⟨fuel - 1, by omega⟩
    have hsize := j.1.size_pos
    obtain ⟨hfst, hsnd⟩ := @ih _ hrest fuel (by omega)
    obtain ⟨hcode, hstop⟩ := scanBlock_step hp hop (isInt_of_isPlain hplain) ho fuel
    exact ⟨by rw [hcode, hfst, nativeCode_cons, code_append], hstop.trans hsnd⟩

/-! ## 3. Entering blocks -/

/-- A call that waits for its return. -/
structure CallFrame where
  callee : BitVec 32
  handler : BitVec 32
  /-- The address behind the call. -/
  ret : Word

/-- A thread and its waiting calls, the most recent first. -/
structure VmState where
  thread : VMThread
  frames : List CallFrame

/-- The waiting calls after an instruction. -/
def framesAfter (s : VmState) (i : Op × Operands) : List CallFrame :=
  match i.1 with
  | .call => ⟨i.2.off, i.2.err, s.thread.ip + BitVec.ofNat 64 Op.call.size⟩ :: s.frames
  | .ret | .throw => s.frames.tail
  | _ => s.frames

/-- A `CALL`, `RET` or `THROW`, with the state before it and the thread after it. -/
structure Transfer where
  before : VmState
  instr : Op × Operands
  after : VMThread

/-- The offset that is entered. -/
def Transfer.entered (base : Word) (l : Transfer) : BitVec 32 := (l.after.ip - base).setWidth 32

/-- The interpreter goes on to the end of the block and enters the next one. -/
inductive VmEnter (m : Mem) (base : Word) (bcLen : Nat) : VmState → Transfer → VmState → Prop
  | enter {s : VmState} {is : List (Op × Operands)} {i : Op × Operands} {t₁ t₂ : VMThread} :
      BlockAt (bcAt m base) bcLen (s.thread.ip - base).toNat is i →
      Executes m s.thread is.length t₁ → Dvm.step none t₁ m = .next t₂ m →
      VmEnter m base bcLen s ⟨⟨t₁, s.frames⟩, i, t₂⟩ ⟨t₂, framesAfter ⟨t₁, s.frames⟩ i⟩

/-- A trampoline's instruction. -/
def IsTramp : Instr → Prop
  | .jmpRip _ => True
  | _ => False

/-- The native code goes on to a trampoline, at `a`, and through it. -/
def JitEnter (c : Cpu) (a : Word) (c' : Cpu) : Prop :=
  ∃ es d, (∀ e ∈ es, ¬ IsTramp e.2) ∧ Run X86.Step c (es ++ [(a, .jmpRip d)]) c'

/-- The interpreter goes on to the end of the block and halts. -/
def VmHalts (m : Mem) (base : Word) (bcLen : Nat) (t t' : VMThread) : Prop :=
  ∃ is i t₁, BlockAt (bcAt m base) bcLen (t.ip - base).toNat is i ∧
    Executes m t is.length t₁ ∧ Dvm.step none t₁ m = .halted t' m

/-- The native code goes on to the epilogue. -/
def JitHalts (c c' : Cpu) : Prop :=
  ∃ es, (∀ e ∈ es, ¬ IsTramp e.2) ∧ Run X86.Step c es c' ∧ CodeAt c'.mem c'.rip [.pop rbp, .ret]

/-- The native code enters the blocks that the interpreter entered, and has the interpreter's
registers then, and when the interpreter halts. -/
def EntersAlike (tramp : BitVec 32 → Word) (m : Mem) (base : Word) (bcLen : Nat) (c : Cpu)
    (es : List Transfer) (s : VmState) : Prop :=
  ∃ c', Run JitEnter c (es.map fun l => tramp (l.entered base)) c' ∧
    SameRegs s.thread.gpr c'.gpr ∧ ∀ t', VmHalts m base bcLen s.thread t' →
      ∃ c'', JitHalts c' c'' ∧ SameRegs t'.gpr c''.gpr

/-- A transfer for which it makes no difference that `rax` is used, and that a call stores its
callee's trampoline to return to. -/
def TransferOk (tramp : BitVec 32 → Word) (base : Word) (l : Transfer) : Prop :=
  match l.instr.1 with
  | .call => l.before.thread.gpr regAx = tramp l.instr.2.off
  | .ret => ∀ f ∈ l.before.frames.head?,
      l.before.thread.gpr regAx = tramp f.callee ∧ f.ret = base + f.callee.setWidth 64
  | .throw => ∀ f ∈ l.before.frames.head?, l.before.thread.gpr regAx = tramp f.handler
  | _ => True

/-- A trampoline is not passed unnoticed. -/
theorem JitEnter.length_le {c c₁ c₂ : Cpu} {a : Word} {d : BitVec 32} {es fs : List (Word × Instr)}
    (hes : Run X86.Step c (es ++ [(a, .jmpRip d)]) c₁) (hfs : ∀ e ∈ fs, ¬ IsTramp e.2)
    (hrun : Run X86.Step c fs c₂) : fs.length ≤ es.length := by
  refine Nat.le_of_not_lt fun hlt => ?_
  obtain ⟨c₃, htake⟩ := hrun.take (es.length + 1)
  have hlen : (es ++ [(a, Instr.jmpRip d)]).length = (fs.take (es.length + 1)).length := by
    rw [List.length_append, List.length_singleton, List.length_take]
    omega
  have heq := (run_deterministic hes htake hlen).1
  have hmem : (a, Instr.jmpRip d) ∈ fs.take (es.length + 1) := by
    rw [← heq]
    exact List.mem_append_right _ (List.mem_singleton_self _)
  exact hfs _ (List.mem_of_mem_take hmem) trivial

/-- The next trampoline and the state behind it are determined. -/
theorem JitEnter.deterministic {c c₁ c₂ : Cpu} {a b : Word} (h₁ : JitEnter c a c₁)
    (h₂ : JitEnter c b c₂) : a = b ∧ c₁ = c₂ := by
  obtain ⟨es, d, hes, hrun₁⟩ := h₁
  obtain ⟨fs, d', hfs, hrun₂⟩ := h₂
  obtain ⟨c₁', hrun₁'⟩ := hrun₁.take es.length
  obtain ⟨c₂', hrun₂'⟩ := hrun₂.take fs.length
  rw [List.take_left] at hrun₁' hrun₂'
  have hle := JitEnter.length_le hrun₁ hfs hrun₂'
  have hge := JitEnter.length_le hrun₂ hes hrun₁'
  obtain ⟨heq, rfl⟩ := run_deterministic hrun₁ hrun₂ (by
    rw [List.length_append, List.length_append, List.length_singleton, List.length_singleton]
    omega)
  have hlast := (List.append_inj' heq rfl).2
  rw [List.cons.injEq, Prod.mk.injEq] at hlast
  exact ⟨hlast.1.1, rfl⟩

/-! ## 4. Native frames -/

/-- The native frames of waiting calls, the most recent at `a`. -/
def ShadowAt (tramp : BitVec 32 → Word) (m : Mem) (a : Word) : List CallFrame → Prop
  | [] => True
  | f :: fs => readWord m a = tramp f.handler ∧ readWord m (a + 8) = tramp f.callee ∧
      ShadowAt tramp m (a + 16) fs

theorem ShadowAt.congr {tramp : BitVec 32 → Word} {m m' : Mem} {a : Word} {fs : List CallFrame}
    (hn : 16 * fs.length < 2 ^ 64) (hm : ∀ x, InBlock a (16 * fs.length) x → m' x = m x)
    (h : ShadowAt tramp m a fs) : ShadowAt tramp m' a fs := by
  induction fs generalizing a with
  | nil => trivial
  | cons f fs ih =>
    rw [List.length_cons] at hn hm
    obtain ⟨herr, hok, hrest⟩ := h
    have hsub : ∀ p k, p + k ≤ 16 * (fs.length + 1) →
        ∀ x, InBlock (a + BitVec.ofNat 64 p) k x → m' x = m x :=
      fun p k hpk x hx => hm x (inBlock_of_sub hpk hn hx)
    refine ⟨?_, ?_, ih (by omega) (hsub 16 _ (by omega)) hrest⟩
    · rw [← herr, readWord, readWord, @readBytes_congr _ m _ _ (by decide)]
      intro x hx
      refine hsub 0 8 (by omega) x ?_
      rwa [BitVec.add_zero]
    · rw [← hok, readWord, readWord, @readBytes_congr _ m _ _ (by decide)]
      exact hsub 8 8 (by omega)

/-- A frame that is pushed. -/
theorem ShadowAt.push {tramp : BitVec 32 → Word} {m : Mem} {a : Word} {fs : List CallFrame}
    (hn : 16 * fs.length + 16 < 2 ^ 64) (f : CallFrame) (h : ShadowAt tramp m a fs) :
    ShadowAt tramp (writeWord (writeWord m (a - 16) (tramp f.handler)) (a - 8) (tramp f.callee))
      (a - 16) (f :: fs) := by
  have hlow : a - 16 + 8 = a - 8 := by bv_omega
  have hbase : a = a - 16 + BitVec.ofNat 64 16 := by bv_omega
  have hmid : a - 8 = a - 16 + BitVec.ofNat 64 8 := by bv_omega
  have hzero : a - 16 = a - 16 + BitVec.ofNat 64 0 := (BitVec.add_zero _).symm
  refine ⟨?_, ?_, ?_⟩
  · rw [readWord_writeWord_apart, readWord_writeWord]
    intro x hx
    rw [hmid]
    rw [hzero] at hx
    exact not_inBlock_of_sep (by omega) (by omega) (.inl (by omega)) hx
  · rw [hlow, readWord_writeWord]
  · have hup : a - 16 + 16 = a := by bv_omega
    rw [hup]
    refine h.congr (by omega) fun x hx => ?_
    rw [hbase] at hx
    rw [writeWord_apply, writeWord_apply]
    · rw [hzero]
      exact not_inBlock_of_sep (by omega) (by omega) (.inr (by omega)) hx
    · rw [hmid]
      exact not_inBlock_of_sep (by omega) (by omega) (.inr (by omega)) hx

/-! ## 5. Native code of a block -/

theorem vm2x86_ne_r14 : ∀ r : Reg, r14 ≠ vm2x86 r := by decide

/-- The native code of integer opcodes leaves the frames alone. -/
theorem regsAfter_r14 {is : List (Op × Operands)} (hint : ∀ i ∈ is, i.1.isInt = true)
    (G : R64 → Word) : regsAfter (nativeCode is) G r14 = G r14 := by
  induction is generalizing G with
  | nil => rfl
  | cons i is ih =>
    obtain ⟨hi, his⟩ := List.forall_mem_cons.mp hint
    rw [nativeCode_cons, regsAfter_append, ih his]
    obtain ⟨op, o⟩ := i
    replace hi : op.isInt = true := hi
    have hd := vm2x86_ne_r14 o.d
    have hs := vm2x86_ne_r14 o.s
    cases op
    case shl | shr | sar => exact (setR_ne _ _ hd).trans (setR_ne _ _ hs)
    all_goals first
      | exact absurd hi (by decide)
      | exact setR_ne _ _ hd

/-- Code without trampolines. -/
theorem not_tramp_of_map {es : List (Word × Instr)} {is : List Instr} (hes : es.map Prod.snd = is)
    (h : ∀ i ∈ is, ¬ IsTramp i) : ∀ e ∈ es, ¬ IsTramp e.2 := by
  intro e he
  exact h e.2 (hes ▸ List.mem_map_of_mem he)

theorem not_tramp_of_isReg {is : List Instr} (h : ∀ i ∈ is, i.IsReg) : ∀ i ∈ is, ¬ IsTramp i := by
  intro i hi htramp
  have hreg := h i hi
  cases i <;> first | exact htramp | exact hreg

/-- Storing a trampoline in a frame. -/
theorem run_storeTramp {v : Word} {a : MemOp} {is : List Instr} {c : Cpu} (ha : a.Encodable)
    (hbase : ∀ w, a.addr (setR c.gpr rax w) = a.addr c.gpr)
    (hlt : (code (.storeMem a rax :: is)).length < 2 ^ 64)
    (hkeep : ∀ x, InBlock (c.rip + BitVec.ofNat 64 10) (code (.storeMem a rax :: is)).length x →
      ¬ InBlock (a.addr c.gpr) 8 x)
    (hcode : CodeAt c.mem c.rip (.movImm64 rax v :: .storeMem a rax :: is)) :
    ∃ es c', (∀ e ∈ es, ¬ IsTramp e.2) ∧ Run X86.Step c es c' ∧ CodeAt c'.mem c'.rip is ∧
      c'.mem = writeWord c.mem (a.addr c.gpr) v ∧ c'.gpr = setR c.gpr rax v ∧
      c'.rip = c.rip + BitVec.ofNat 64 10
        + BitVec.ofNat 64 (Instr.storeMem a rax).encode.length := by
  have hlen : (code [.movImm64 rax v]).length = 10 := rfl
  obtain ⟨es, c₁, hes, hrun, hcode₁, hmem₁, hgpr₁, hrip₁⟩ :=
    @run_regs_append [.movImm64 rax v] _ (fun i hi => by
      obtain rfl := List.mem_singleton.mp hi
      trivial) _ hcode
  have hgpr : c₁.gpr = setR c.gpr rax v := hgpr₁
  have hrax : c₁.gpr rax = v := by rw [hgpr, setR_self]
  have haddr : a.addr c₁.gpr = a.addr c.gpr := by rw [hgpr, hbase]
  rw [hlen] at hrip₁
  obtain ⟨c', hstep, hcode', hmem', hgpr', hrip'⟩ := step_store ha hlt (by
    rw [haddr, hrip₁]
    exact hkeep) hcode₁
  rw [haddr, hrax, hmem₁] at hmem'
  refine ⟨es ++ [_], c', ?_, hrun.trans (Run.single hstep), hcode', hmem', hgpr'.trans hgpr, ?_⟩
  · rw [List.forall_mem_append, List.forall_mem_singleton]
    refine ⟨not_tramp_of_map hes ?_, id⟩
    rw [List.forall_mem_singleton]
    exact id
  · rw [hrip', hrip₁]

/-- Through the end of a block that calls. -/
theorem run_endCall {ok err : Word} {c : Cpu}
    (hcode : CodeAt c.mem c.rip [.subImm r14 16, .movImm64 rax err, .storeMem (.plain r14) rax,
      .movImm64 rax ok, .storeMem (.disp r14 8) rax, .jmpReg rax])
    (hapart : Apart c.rip 33 (c.gpr r14 - 16) 16) :
    ∃ es c', (∀ e ∈ es, ¬ IsTramp e.2) ∧ Run X86.Step c es c' ∧ c'.rip = ok ∧
      c'.gpr r14 = c.gpr r14 - 16 ∧ c'.gpr rax = ok ∧
      (∀ r, r ≠ r14 → r ≠ rax → c'.gpr r = c.gpr r) ∧
      c'.mem = writeWord (writeWord c.mem (c.gpr r14 - 16) err) (c.gpr r14 - 8) ok := by
  have hmid : c.gpr r14 - 16 + 8 = c.gpr r14 - 8 := by bv_omega
  -- neither store meets the code
  have hkeep : ∀ p n k, p + n ≤ 33 → k + 8 ≤ 16 → ∀ x, InBlock (c.rip + BitVec.ofNat 64 p) n x →
      ¬ InBlock (c.gpr r14 - 16 + BitVec.ofNat 64 k) 8 x :=
    fun p n k hpn hk x hx hx' => hapart x (inBlock_of_sub hpn (by omega) hx)
      (inBlock_of_sub hk (by omega) hx')
  have hlen₁ : (code [.subImm r14 16]).length = 4 := rfl
  obtain ⟨es₁, c₁, hes₁, hrun₁, hcode₁, hmem₁, hgpr₁, hrip₁⟩ :=
    @run_regs_append [.subImm r14 16] _ (fun i hi => by
      obtain rfl := List.mem_singleton.mp hi
      trivial) _ hcode
  replace hgpr₁ : c₁.gpr = setR c.gpr r14 (c.gpr r14 - 16) := hgpr₁
  rw [hlen₁] at hrip₁
  have hsp₁ : c₁.gpr r14 = c.gpr r14 - 16 := by rw [hgpr₁, setR_self]
  -- the handler's trampoline
  have haddr₁ : (MemOp.plain r14).addr c₁.gpr = c.gpr r14 - 16 := hsp₁
  have hlen₂ : (code [.storeMem (.plain r14) rax, .movImm64 rax ok, .storeMem (.disp r14 8) rax,
      .jmpReg rax]).length = 19 := rfl
  obtain ⟨es₂, c₂, hes₂, hrun₂, hcode₂, hmem₂, hgpr₂, hrip₂⟩ := run_storeTramp
    (a := .plain r14) (by decide) (fun w => setR_ne _ _ (by decide)) (by rw [hlen₂]; decide) (by
      intro x hx
      rw [hlen₂, hrip₁, BitVec.add_assoc] at hx
      have hfar := hkeep 14 19 0 (by omega) (by omega) x hx
      rwa [BitVec.add_zero, ← haddr₁] at hfar) hcode₁
  have hsp₂ : c₂.gpr r14 = c.gpr r14 - 16 := by rw [hgpr₂, setR_ne _ _ (by decide), hsp₁]
  -- the callee's
  have haddr₂ : (MemOp.disp r14 8).addr c₂.gpr = c.gpr r14 - 16 + 8 := congrArg (· + 8) hsp₂
  have hlen₃ : (code [.storeMem (.disp r14 8) rax, .jmpReg rax]).length = 6 := rfl
  obtain ⟨es₃, c₃, hes₃, hrun₃, hcode₃, hmem₃, hgpr₃, -⟩ := run_storeTramp
    (a := .disp r14 8) (by decide) (fun w => congrArg (· + 8) (setR_ne _ _ (by decide)))
    (by rw [hlen₃]; decide) (by
      intro x hx
      have hrip : c₂.rip + BitVec.ofNat 64 10 = c.rip + BitVec.ofNat 64 27 := by
        have hstore : (Instr.storeMem (.plain r14) rax).encode.length = 3 := rfl
        rw [hrip₂, hrip₁, hstore]
        bv_omega
      rw [hlen₃, hrip] at hx
      have hfar := hkeep 27 6 8 (by omega) (by omega) x hx
      rwa [show BitVec.ofNat 64 8 = (8 : Word) from rfl, ← haddr₂] at hfar) hcode₂
  have hjmp := step_code (i := .jmpReg rax) trivial hcode₃
  have hrax₃ : c₃.gpr rax = ok := by rw [hgpr₃, setR_self]
  refine ⟨es₁ ++ (es₂ ++ (es₃ ++ [_])), _, ?_,
    hrun₁.trans (hrun₂.trans (hrun₃.trans (Run.single hjmp))), hrax₃, ?_, hrax₃, ?_, ?_⟩
  · simp only [List.forall_mem_append, List.forall_mem_singleton]
    refine ⟨not_tramp_of_map hes₁ ?_, hes₂, hes₃, id⟩
    rw [List.forall_mem_singleton]
    exact id
  · show c₃.gpr r14 = _
    rw [hgpr₃, setR_ne _ _ (by decide), hsp₂]
  · intro r hr hra
    show c₃.gpr r = _
    rw [hgpr₃, setR_ne _ _ hra, hgpr₂, setR_ne _ _ hra, hgpr₁, setR_ne _ _ hr]
  · show c₃.mem = _
    rw [hmem₃, hmem₂, haddr₂, haddr₁, hmem₁, hmid]

/-- Through the end of a block that pops a frame. -/
theorem run_endPop {a : MemOp} {c : Cpu} (ha : a.Encodable)
    (hcode : CodeAt c.mem c.rip [.loadMem rax a, .addImm r14 16, .jmpReg rax]) :
    ∃ es c', (∀ e ∈ es, ¬ IsTramp e.2) ∧ Run X86.Step c es c' ∧
      c'.rip = readWord c.mem (a.addr c.gpr) ∧ c'.gpr r14 = c.gpr r14 + 16 ∧
      c'.gpr rax = readWord c.mem (a.addr c.gpr) ∧
      (∀ r, r ≠ r14 → r ≠ rax → c'.gpr r = c.gpr r) ∧ c'.mem = c.mem := by
  have hload := step_code (i := .loadMem rax a) ha hcode
  have hcode₁ := (codeAt_cons.mp hcode).2
  have hadd := step_code (c := (Instr.loadMem rax a).exec (c.past (.loadMem rax a)))
    (i := .addImm r14 16) trivial hcode₁
  have hcode₂ := (codeAt_cons.mp hcode₁).2
  have hjmp := step_code (i := .jmpReg rax)
    (c := (Instr.addImm r14 16).exec (((Instr.loadMem rax a).exec (c.past (.loadMem rax a))).past
      (.addImm r14 16))) trivial hcode₂
  refine ⟨[_, _, _], _, ?_, (Run.single hload).trans ((Run.single hadd).trans (Run.single hjmp)),
    rfl, rfl, rfl, ?_, rfl⟩
  · intro e he
    simp only [List.mem_cons, List.not_mem_nil, or_false] at he
    rcases he with rfl | rfl | rfl <;> exact id
  · intro r hr hra
    exact (setR_ne _ _ hr).trans (setR_ne _ _ hra)

/-! ## 6. Both engines at a block -/

/-- The bytes that are emitted for the block at `off`. -/
def blockBytes (ctx : JitCtx) (off : BitVec 32) : List Byte :=
  ((ctx.scan off).1 ++ endCode ctx (ctx.scan off).2).flatten

/-- `jit_compile_block` puts these bytes behind the code that is there already. -/
theorem blockBytes_compiled {env : JitEnv} {ctx ctx' : JitCtx} {off : BitVec 32} {p : Word}
    (hinv : TableInv ctx) (h : jitCompileBlock env ctx off = .ok p ctx') :
    (Compiled ctx off ∧ ctx' = ctx) ∨
      ctx'.code.bytes = ctx.code.bytes ++ blockBytes ctx' off := by
  rcases jitCompileBlock_ok hinv h with hold | ⟨-, i, ctx₁, hext, -, -, hcode, rfl, rfl⟩
  · exact .inl hold
  · refine .inr ?_
    have hscan : (ctx₁.finish i (ctx.code.buf + BitVec.ofNat 64 ctx.code.len)).scan off
        = ctx.scan off := by
      show scanBlock ctx₁.bc ctx₁.bcLen (ctx₁.bcLen - off.toNat) off.toNat = _
      rw [hext.bc, hext.bcLen]
      rfl
    have hend : ∀ e, endCode (ctx₁.finish i (ctx.code.buf + BitVec.ofNat 64 ctx.code.len)) e
        = endCode ctx₁ e := by
      intro e
      cases e with
      | call ok err => rw [endCode, endCode, trampOf_finish, trampOf_finish]
      | _ => rfl
    rw [blockBytes, hscan, hend, ← emit_bytes env, ← hcode]
    rfl

/-- The size of the area for native frames: as many as the interpreter's shadow stack holds. -/
def frameArea : Nat := 8 * shadowDepth

/-- Every block that is in the table or called from there is compiled, its trampoline leads to its
code, and both are outside the area below `top`. -/
structure Native (ctx : JitCtx) (native : BitVec 32 → Word) (top : Word) (m : Mem) : Prop where
  code : ∀ off ∈ ctx.known, readBytes m (native off) (blockBytes ctx off).length
    = blockBytes ctx off
  codeApart : ∀ off ∈ ctx.known,
    Apart (native off) (blockBytes ctx off).length (top - BitVec.ofNat 64 frameArea) frameArea
  short : ∀ off ∈ ctx.known, (blockBytes ctx off).length < 2 ^ 64
  tramp : ∀ off ∈ ctx.known, readBytes m (ctx.trampOf off) dvmTrampSize = trampInit (native off)
  trampApart : ∀ off ∈ ctx.known,
    Apart (ctx.trampOf off) dvmTrampSize (top - BitVec.ofNat 64 frameArea) frameArea
  called : ∀ off ∈ ctx.known, ∀ is i, BlockAt ctx.bc ctx.bcLen off.toNat is i → i.1 = .call →
    i.2.off ∈ ctx.known ∧ i.2.err ∈ ctx.known

/-- The engines agree: on the registers and on the waiting calls. -/
structure Alike (ctx : JitCtx) (base top : Word) (m₀ : Mem) (s : VmState) (c : Cpu) : Prop where
  bytecode : s.thread.bytecode = base
  regs : SameRegs s.thread.gpr c.gpr
  shadow : s.thread.shadow.entries
    = shadowOf (s.frames.map fun f => ⟨base + f.handler.setWidth 64, f.ret⟩)
  known : ∀ f ∈ s.frames, f.callee ∈ ctx.known ∧ f.handler ∈ ctx.known
  sp : c.gpr r14 = top - BitVec.ofNat 64 (16 * s.frames.length)
  frames : ShadowAt ctx.trampOf c.mem (c.gpr r14) s.frames
  mem : ∀ x, ¬ InBlock (top - BitVec.ofNat 64 frameArea) frameArea x → c.mem x = m₀ x

/-- The engines agree at the entry of the block at `off`. -/
structure AtEntry (ctx : JitCtx) (native : BitVec 32 → Word) (base top : Word) (m₀ : Mem)
    (off : BitVec 32) (s : VmState) (c : Cpu) : Prop where
  alike : Alike ctx base top m₀ s c
  inTable : off ∈ ctx.known
  ip : s.thread.ip = base + off.setWidth 64
  rip : c.rip = native off

/-- The area holds the frames of all calls that the interpreter's shadow stack holds. -/
theorem Alike.depth {ctx : JitCtx} {base top : Word} {m₀ : Mem} {s : VmState} {c : Cpu}
    (h : Alike ctx base top m₀ s c) : 16 * s.frames.length ≤ frameArea := by
  have hfits := s.thread.shadow.fits
  rw [h.shadow, length_shadowOf, List.length_map] at hfits
  rw [frameArea]
  omega

section Simulation

variable {ctx : JitCtx} {native : BitVec 32 → Word} {m : Mem} {base top : Word} {m₀ : Mem}
  {s : VmState} {c : Cpu} {off : BitVec 32} {is : List (Op × Operands)} {i : Op × Operands}

theorem blockBytes_code (hblock : BlockAt ctx.bc ctx.bcLen off.toNat is i) :
    blockBytes ctx off = code (nativeCode is ++ endInstrs ctx.trampOf i) := by
  obtain ⟨hfst, hsnd⟩ := @scan_block _ _ _ _ _ hblock (ctx.bcLen - off.toNat) (by omega)
  rw [blockBytes, List.flatten_append, JitCtx.scan, hfst, hsnd,
    endCode_code (BlockAt.last hblock).2.1, code_append]

/-- The code of a block is still there. -/
theorem AtEntry.codeAt (hn : Native ctx native top m₀) (h : AtEntry ctx native base top m₀ off s c)
    (hblock : BlockAt ctx.bc ctx.bcLen off.toNat is i) :
    CodeAt c.mem c.rip (nativeCode is ++ endInstrs ctx.trampOf i) := by
  have hcode := hn.code off h.inTable
  have hapart := hn.codeApart off h.inTable
  have hshort := hn.short off h.inTable
  rw [blockBytes_code hblock] at hcode hapart hshort
  rw [h.rip]
  exact CodeAt.congr hshort (fun x hx => h.alike.mem x (hapart x hx)) hcode

/-- From the entry of a block to its last instruction. -/
theorem AtEntry.toEnd (hn : Native ctx native top m₀) (hbc : ctx.bc = bcAt m base)
    (h : AtEntry ctx native base top m₀ off s c)
    (hblock : BlockAt (bcAt m base) ctx.bcLen (s.thread.ip - base).toNat is i) {t₁ : VMThread}
    (hex : Executes m s.thread is.length t₁) :
    BlockAt ctx.bc ctx.bcLen off.toNat is i ∧ fetchInstr m t₁.ip = some i ∧
      ∃ es c₁, (∀ e ∈ es, ¬ IsTramp e.2) ∧ Run X86.Step c es c₁ ∧
        Alike ctx base top m₀ ⟨t₁, s.frames⟩ c₁ ∧
        CodeAt c₁.mem c₁.rip (endInstrs ctx.trampOf i) ∧
        Apart c₁.rip (code (endInstrs ctx.trampOf i)).length (top - BitVec.ofNat 64 frameArea)
          frameArea := by
  have hoff : (s.thread.ip - base).toNat = off.toNat := by
    rw [h.ip, BitVec.add_comm, BitVec.add_sub_cancel, BitVec.toNat_setWidth]
    exact Nat.mod_eq_of_lt (Nat.lt_trans off.isLt (by decide))
  have hip : s.thread.ip = base + BitVec.ofNat 64 off.toNat := by
    rw [h.ip, BitVec.ofNat_toNat]
  rw [hoff] at hblock
  -- the interpreter
  have hvm := executes_straight hblock.instrs hip (Nat.le_refl _)
  rw [List.take_length] at hvm
  obtain rfl := hvm.deterministic hex
  -- the native code
  have hcode := h.codeAt hn (hbc ▸ hblock)
  have hint : ∀ j ∈ is, j.1.isInt = true := fun j hj => isInt_of_isPlain (hblock.plain j hj)
  have hreg : ∀ j ∈ nativeCode is, j.IsReg := by
    intro j hj
    obtain ⟨x, -, hx⟩ := List.mem_flatMap.mp hj
    exact straightInstrs_isReg x.1 x.2 j hx
  obtain ⟨es, c₁, hes, hrun, hend, hmem, hgpr, hrip⟩ := run_regs_append hreg hcode
  have hsp : c₁.gpr r14 = c.gpr r14 := by rw [hgpr, regsAfter_r14 hint]
  have halike := h.alike
  refine ⟨hbc ▸ hblock, ?_, es, c₁, not_tramp_of_map hes (not_tramp_of_isReg hreg), hrun, ?_, hend,
    ?_⟩
  · obtain ⟨hop, -, ho⟩ := hblock.last
    rw [fetchInstr_bcAt, hop, Option.map_some, ← ho]
  · refine ⟨halike.bytecode, ?_, halike.shadow, halike.known, hsp.trans halike.sp, ?_, ?_⟩
    · rw [hgpr]
      have hsame := regs_nativeCode hint halike.regs
      rwa [jitAfter_plain hblock.plain] at hsame
    · rw [hmem, hsp]
      exact halike.frames
    · rw [hmem]
      exact halike.mem
  · intro x hx
    refine hn.codeApart off h.inTable x ?_
    have hshort := hn.short off h.inTable
    rw [blockBytes_code (hbc ▸ hblock), code_append, List.length_append] at hshort ⊢
    rw [hrip, h.rip] at hx
    exact inBlock_of_sub (Nat.le_refl _) hshort hx

/-- Through a trampoline. -/
theorem Alike.enter (hn : Native ctx native top m₀) (h : Alike ctx base top m₀ s c)
    (hoff : off ∈ ctx.known) (hip : s.thread.ip = base + off.setWidth 64)
    (hrip : c.rip = ctx.trampOf off) :
    ∃ c', X86.Step c (ctx.trampOf off, .jmpRip 0) c' ∧
      AtEntry ctx native base top m₀ off s c' := by
  have hbytes : readBytes c.mem c.rip dvmTrampSize = trampInit (native off) := by
    rw [hrip, ← hn.tramp off hoff]
    exact readBytes_congr (by decide) fun x hx => h.mem x (hn.trampApart off hoff x hx)
  have hstep := step_tramp hbytes
  rw [hrip] at hstep
  exact ⟨_, hstep, ⟨h.bytecode, h.regs, h.shadow, h.known, h.sp, h.frames, h.mem⟩, hoff, hip, rfl⟩

/-- Bytes of the area. -/
theorem inArea {k n : Nat} {x : Word} (hk : k ≤ frameArea) (hn : n ≤ k)
    (hx : InBlock (top - BitVec.ofNat 64 k) n x) :
    InBlock (top - BitVec.ofNat 64 frameArea) frameArea x := by
  have hbase : top - BitVec.ofNat 64 k
      = top - BitVec.ofNat 64 frameArea + BitVec.ofNat 64 (frameArea - k) := by
    have hsplit : BitVec.ofNat 64 frameArea
        = BitVec.ofNat 64 (frameArea - k) + BitVec.ofNat 64 k := by
      rw [← BitVec.ofNat_add, Nat.sub_add_cancel hk]
    rw [hsplit]
    bv_omega
  rw [hbase] at hx
  exact inBlock_of_sub (by omega) (by decide) hx

/-! ## 7. Transfers -/

theorem callTo_gpr {t t' : VMThread} {m m' : Mem} {dest err : Word}
    (h : callTo t m dest err = .next t' m') : t'.gpr = t.gpr := by
  unfold callTo at h
  split at h
  · cases h
  · split at h
    · cases h
    · cases h
      rfl

theorem popFrame_gpr {t t' : VMThread} {m m' : Mem} {pick : Word → Word → Word}
    (h : popFrame t m pick = .next t' m') : t'.gpr = t.gpr := by
  unfold popFrame at h
  split at h
  · cases h
  · split at h
    · cases h
    · cases h
      rfl

/-- Calling keeps the engines alike if `ax` holds the trampoline. -/
theorem Alike.call {o : Operands} {t₂ : VMThread} (h : Alike ctx base top m₀ s c)
    (hfetch : fetchInstr m s.thread.ip = some (.call, o))
    (hstep : Dvm.step none s.thread m = .next t₂ m)
    (hcode : CodeAt c.mem c.rip (endInstrs ctx.trampOf (.call, o)))
    (hapart : Apart c.rip (code (endInstrs ctx.trampOf (.call, o))).length
      (top - BitVec.ofNat 64 frameArea) frameArea)
    (hknown : o.off ∈ ctx.known ∧ o.err ∈ ctx.known)
    (hax : s.thread.gpr regAx = ctx.trampOf o.off) :
    ∃ es c', (∀ e ∈ es, ¬ IsTramp e.2) ∧ Run X86.Step c es c' ∧
      c'.rip = ctx.trampOf o.off ∧ t₂.ip = base + o.off.setWidth 64 ∧
      Alike ctx base top m₀ ⟨t₂, framesAfter s (.call, o)⟩ c' := by
  rw [step_of_fetch hfetch] at hstep
  have hcall : callTo (s.thread.fetched .call) m ((s.thread.fetched .call).target o.off)
      ((s.thread.fetched .call).target o.err) = .next t₂ m := hstep
  obtain ⟨hent, hip, hbc⟩ := callTo_next hcall
  have hgpr : t₂.gpr = s.thread.gpr := (callTo_gpr hcall).trans rfl
  have htarget : ∀ off, (s.thread.fetched .call).target off = base + off.setWidth 64 := by
    intro off
    rw [← h.bytecode]
    rfl
  rw [htarget, VMThread.fetched_shadow, VMThread.fetched_ip, h.shadow] at hent
  rw [htarget] at hip
  have hdepth : 16 * s.frames.length + 16 ≤ frameArea := by
    have hfits := t₂.shadow.fits
    rw [hent, List.length_cons, List.length_cons, length_shadowOf, List.length_map] at hfits
    rw [frameArea]
    omega
  have hsp : c.gpr r14 - 16 = top - BitVec.ofNat 64 (16 * s.frames.length + 16) := by
    rw [h.sp, BitVec.ofNat_add]
    bv_omega
  have hin : ∀ x, InBlock (c.gpr r14 - 16) 16 x →
      InBlock (top - BitVec.ofNat 64 frameArea) frameArea x := by
    intro x hx
    rw [hsp] at hx
    exact inArea hdepth (by omega) hx
  have hlen : (code (endInstrs ctx.trampOf (.call, o))).length = 33 := rfl
  rw [hlen] at hapart
  obtain ⟨es, c', hes, hrun, hrip, hsp', hrax, hregs, hmem⟩ :=
    run_endCall hcode fun x hx hx' => hapart x hx (hin x hx')
  refine ⟨es, c', hes, hrun, hrip, hip, ?_⟩
  constructor
  · exact hbc.trans h.bytecode
  · -- `rax` holds what `ax` does
    intro r
    show c'.gpr (vm2x86 r) = t₂.gpr r
    rw [hgpr]
    by_cases hr : vm2x86 r = rax
    · obtain rfl : r = regAx := vm2x86_injective _ _ hr
      rw [hax]
      exact hrax
    · rw [hregs _ (vm2x86_ne_r14 r).symm hr, h.regs r]
  · exact hent
  · exact List.forall_mem_cons.mpr ⟨hknown, h.known⟩
  · rw [hsp', hsp]
    rfl
  · rw [hmem, hsp']
    exact h.frames.push (by rw [frameArea, shadowDepth] at hdepth; omega)
      ⟨o.off, o.err, s.thread.ip + BitVec.ofNat 64 Op.call.size⟩
  · intro x hx
    have hhigh : c.gpr r14 - 8 = c.gpr r14 - 16 + BitVec.ofNat 64 8 := by bv_omega
    rw [hmem, writeWord_apply, writeWord_apply, h.mem x hx]
    · exact fun hx' => hx (hin x (Nat.lt_of_lt_of_le hx' (by decide)))
    · rw [hhigh]
      exact fun hx' => hx (hin x (inBlock_of_sub (by omega) (by decide) hx'))

/-- What the interpreter pops is the most recent waiting call. -/
theorem Alike.popped {op : Op} {t₂ : VMThread} {pick : Word → Word → Word}
    (h : Alike ctx base top m₀ s c)
    (hpop : popFrame (s.thread.fetched op) m pick = .next t₂ m) :
    ∃ f fs, s.frames = f :: fs ∧ t₂.ip = pick f.ret (base + f.handler.setWidth 64) ∧
      t₂.bytecode = base ∧ t₂.gpr = s.thread.gpr ∧
      t₂.shadow.entries = shadowOf (fs.map fun f => ⟨base + f.handler.setWidth 64, f.ret⟩) := by
  obtain ⟨ok, err, hent, hip, hbc⟩ := popFrame_next hpop
  rw [VMThread.fetched_shadow, h.shadow] at hent
  obtain ⟨f', fs', hmap, hok, herr, hrest⟩ := shadowOf_eq_cons hent
  obtain ⟨f, fs, hframes, rfl, rfl⟩ := List.map_eq_cons_iff.mp hmap
  refine ⟨f, fs, hframes, ?_, hbc.trans h.bytecode, (popFrame_gpr hpop).trans rfl, hrest.symm⟩
  rw [hip, ← hok, ← herr]

/-- Popping a frame keeps the engines alike if `ax` holds the trampoline that is popped. -/
theorem Alike.pop {op : Op} {a : MemOp} {t₂ : VMThread} {pick : Word → Word → Word}
    {target : CallFrame → Word} (h : Alike ctx base top m₀ s c)
    (hpop : popFrame (s.thread.fetched op) m pick = .next t₂ m) (ha : a.Encodable)
    (hcode : CodeAt c.mem c.rip [.loadMem rax a, .addImm r14 16, .jmpReg rax])
    (hword : ∀ f fs, ShadowAt ctx.trampOf c.mem (c.gpr r14) (f :: fs) →
      readWord c.mem (a.addr c.gpr) = target f)
    (hax : ∀ f ∈ s.frames.head?, s.thread.gpr regAx = target f) :
    ∃ f ∈ s.frames.head?, t₂.ip = pick f.ret (base + f.handler.setWidth 64) ∧
      ∃ es c', (∀ e ∈ es, ¬ IsTramp e.2) ∧ Run X86.Step c es c' ∧ c'.rip = target f ∧
        Alike ctx base top m₀ ⟨t₂, s.frames.tail⟩ c' := by
  obtain ⟨f, fs, hframes, hip, hbc, hgpr, hent⟩ := h.popped hpop
  have hhead : f ∈ s.frames.head? := by rw [hframes]; rfl
  have hold := h.frames
  rw [hframes] at hold
  obtain ⟨es, c', hes, hrun, hrip, hsp, hrax, hregs, hmem⟩ := run_endPop ha hcode
  rw [hword f fs hold] at hrip hrax
  refine ⟨f, hhead, hip, es, c', hes, hrun, hrip, ?_⟩
  rw [hframes, List.tail_cons]
  refine ⟨hbc, ?_, hent, ?_, ?_, ?_, ?_⟩
  · -- `rax` holds what `ax` does
    intro r
    show c'.gpr (vm2x86 r) = t₂.gpr r
    rw [hgpr]
    by_cases hr : vm2x86 r = rax
    · obtain rfl : r = regAx := vm2x86_injective _ _ hr
      rw [hax f hhead]
      exact hrax
    · rw [hregs _ (vm2x86_ne_r14 r).symm hr, h.regs r]
  · exact fun g hg => h.known g (hframes ▸ List.mem_cons_of_mem f hg)
  · have hlen : 16 * s.frames.length = 16 * fs.length + 16 := by
      rw [hframes, List.length_cons]
      omega
    rw [hsp, h.sp, hlen, BitVec.ofNat_add]
    bv_omega
  · rw [hmem, hsp]
    exact hold.2.2
  · rw [hmem]
    exact h.mem

/-- One block: what the interpreter enters, the native code enters. -/
theorem AtEntry.step {s' : VmState} {l : Transfer} (hn : Native ctx native top m₀)
    (hbc : ctx.bc = bcAt m base) (h : AtEntry ctx native base top m₀ off s c)
    (hs : VmEnter m base ctx.bcLen s l s') (hok : TransferOk ctx.trampOf base l) :
    ∃ off' c', JitEnter c (ctx.trampOf (l.entered base)) c' ∧
      AtEntry ctx native base top m₀ off' s' c' := by
  obtain @⟨is, ⟨op, o⟩, t₁, t₂, hblock, hex, hstep⟩ := hs
  obtain ⟨hblock', hfetch, es, c₁, hes, hrun, halike, hcode, hapart⟩ := h.toEnd hn hbc hblock hex
  -- it remains to go through the end of the block and the trampoline
  have hgoal : ∀ off' ∈ ctx.known, t₂.ip = base + off'.setWidth 64 →
      (∃ fs c₂, (∀ e ∈ fs, ¬ IsTramp e.2) ∧ Run X86.Step c₁ fs c₂ ∧ c₂.rip = ctx.trampOf off' ∧
        Alike ctx base top m₀ ⟨t₂, framesAfter ⟨t₁, s.frames⟩ (op, o)⟩ c₂) →
      ∃ off' c', JitEnter c (ctx.trampOf ((t₂.ip - base).setWidth 32)) c' ∧
        AtEntry ctx native base top m₀ off' ⟨t₂, framesAfter ⟨t₁, s.frames⟩ (op, o)⟩ c' := by
    rintro off' hoff' hip ⟨fs, c₂, hfs, hrun₂, hrip₂, halike₂⟩
    obtain ⟨c', htramp, hentry⟩ := halike₂.enter hn hoff' hip hrip₂
    have hentered : (t₂.ip - base).setWidth 32 = off' := by
      rw [hip, BitVec.add_comm, BitVec.add_sub_cancel, BitVec.setWidth_setWidth_of_le _ (by omega),
        BitVec.setWidth_eq]
    refine ⟨off', c', ⟨es ++ fs, 0, List.forall_mem_append.mpr ⟨hes, hfs⟩, ?_⟩, hentry⟩
    rw [hentered]
    exact (hrun.trans hrun₂).trans (Run.single htramp)
  have hend : op.isEnd = true := (BlockAt.last hblock').2.1
  cases op
  case call =>
    have hknown := hn.called off h.inTable is _ hblock' rfl
    obtain ⟨fs, c₂, hfs, hrun₂, hrip₂, hip, halike₂⟩ :=
      halike.call hfetch hstep hcode hapart hknown hok
    exact hgoal o.off hknown.1 hip ⟨fs, c₂, hfs, hrun₂, hrip₂, halike₂⟩
  case ret =>
    rw [step_of_fetch hfetch] at hstep
    obtain ⟨f, hf, hip, hrun₂⟩ := @Alike.pop _ _ _ _ _ _ _ .ret (.disp r14 8) _
      (fun ok _ => ok) (fun f => ctx.trampOf f.callee) halike hstep (by decide) hcode
      (fun _ _ hold => hold.2.1) fun f hf => (hok f hf).1
    have hknown := h.alike.known f (List.mem_of_mem_head? hf)
    exact hgoal f.callee hknown.1 (hip.trans (hok f hf).2) hrun₂
  case throw =>
    rw [step_of_fetch hfetch] at hstep
    obtain ⟨f, hf, hip, hrun₂⟩ := @Alike.pop _ _ _ _ _ _ _ .throw (.plain r14) _
      (fun _ err => err) (fun f => ctx.trampOf f.handler) halike hstep (by decide) hcode
      (fun _ _ hold => hold.1) hok
    have hknown := h.alike.known f (List.mem_of_mem_head? hf)
    exact hgoal f.handler hknown.2 hip hrun₂
  case halt =>
    rw [step_of_fetch hfetch] at hstep
    cases hstep
  all_goals exact absurd hend (by decide)

/-- Where the interpreter halts, so does the native code. -/
theorem AtEntry.halt {t' : VMThread} (hn : Native ctx native top m₀) (hbc : ctx.bc = bcAt m base)
    (h : AtEntry ctx native base top m₀ off s c) (hs : VmHalts m base ctx.bcLen s.thread t') :
    ∃ c', JitHalts c c' ∧ SameRegs t'.gpr c'.gpr := by
  obtain ⟨is, ⟨op, o⟩, t₁, hblock, hex, hstep⟩ := hs
  obtain ⟨hblock', hfetch, es, c₁, hes, hrun, halike, hcode, -⟩ := h.toEnd hn hbc hblock hex
  have hend : op.isEnd = true := (BlockAt.last hblock').2.1
  rw [step_of_fetch hfetch] at hstep
  have hcall : ∀ dest err, callTo (t₁.fetched op) m dest err ≠ .halted t' m := by
    intro dest err heq
    unfold callTo at heq
    split at heq
    · cases heq
    · split at heq <;> cases heq
  have hpop : ∀ pick, popFrame (t₁.fetched op) m pick ≠ .halted t' m := by
    intro pick heq
    unfold popFrame at heq
    split at heq
    · cases heq
    · split at heq <;> cases heq
  cases op
  case call => exact absurd hstep (hcall _ _)
  case ret | throw => exact absurd hstep (hpop _)
  case halt =>
    cases hstep
    exact ⟨c₁, ⟨es, hes, hrun, hcode⟩, halike.regs⟩
  all_goals exact absurd hend (by decide)

end Simulation

/-! ## 8. Whole runs -/

/-- Both engines at the block at `off`, before any call. -/
structure Starts (ctx : JitCtx) (native : BitVec 32 → Word) (base : Word) (off : BitVec 32)
    (t : VMThread) (c : Cpu) : Prop where
  inTable : off ∈ ctx.known
  ip : t.ip = base + off.setWidth 64
  rip : c.rip = native off
  bytecode : t.bytecode = base
  shadow : t.shadow.entries = []
  regs : SameRegs t.gpr c.gpr

theorem Starts.atEntry {ctx : JitCtx} {native : BitVec 32 → Word} {base : Word} {off : BitVec 32}
    {t : VMThread} {c : Cpu} (h : Starts ctx native base off t c) :
    AtEntry ctx native base (c.gpr r14) c.mem off ⟨t, []⟩ c :=
  ⟨⟨h.bytecode, h.regs, h.shadow, nofun, (BitVec.sub_zero _).symm, trivial, fun _ _ => rfl⟩,
    h.inTable, h.ip, h.rip⟩

/-- In every run whose transfers are like that the native code enters the same blocks. -/
theorem calls_agree {ctx : JitCtx} {native : BitVec 32 → Word} {m : Mem} {base : Word}
    {off : BitVec 32} {t : VMThread} {c : Cpu} (hbc : ctx.bc = bcAt m base)
    (hn : Native ctx native (c.gpr r14) c.mem) (hstart : Starts ctx native base off t c)
    {es : List Transfer} {s : VmState} (hrun : Run (VmEnter m base ctx.bcLen) ⟨t, []⟩ es s)
    (hok : ∀ l ∈ es, TransferOk ctx.trampOf base l) :
    EntersAlike ctx.trampOf m base ctx.bcLen c es s := by
  have hall : ∃ off' c', Run JitEnter c (es.map fun l => ctx.trampOf (l.entered base)) c' ∧
      AtEntry ctx native base (c.gpr r14) c.mem off' s c' := by
    induction hrun with
    | start => exact ⟨off, c, .start, hstart.atEntry⟩
    | next _ hs ih =>
      obtain ⟨hes, hlast⟩ := List.forall_mem_append.mp hok
      obtain ⟨_, c', hjit, hentry⟩ := ih hes
      obtain ⟨off'', c'', henter, hentry'⟩ := hentry.step hn hbc hs
        (hlast _ (List.mem_singleton_self _))
      rw [List.map_append]
      exact ⟨off'', c'', hjit.next henter, hentry'⟩
  obtain ⟨_, c', hjit, hentry⟩ := hall
  exact ⟨c', hjit, hentry.alike.regs, fun _ hhalt => hentry.halt hn hbc hhalt⟩

/-! ## 9. Code and trampolines in memory -/

/-- The offsets that the end of a block calls. -/
def BlockEnd.callees : BlockEnd → List (BitVec 32)
  | .call ok err => [ok, err]
  | _ => []

/-- The block at `off` lies in the code `codes`, which lies at `a`, and its trampoline in `tramps`,
which lie at `b`. -/
structure Placed (ctx : JitCtx) (codes tramps : List Byte) (a b : Word)
    (start slot : BitVec 32 → Nat) (off : BitVec 32) : Prop where
  code : field codes (start off) (blockBytes ctx off).length = blockBytes ctx off
  fits : start off + (blockBytes ctx off).length ≤ codes.length
  tramp : field tramps (slot off) dvmTrampSize = trampInit (a + BitVec.ofNat 64 (start off))
  room : slot off + dvmTrampSize ≤ tramps.length
  addr : ctx.trampOf off = b + BitVec.ofNat 64 (slot off)
  callees : (ctx.scan off).2.callees ⊆ ctx.known

/-- Blocks that lie in one piece of memory and trampolines that lie in another. -/
theorem Native.of_placed {ctx : JitCtx} {codes tramps : List Byte} {a b top : Word}
    {start slot : BitVec 32 → Nat} {m : Mem} (hcodes : readBytes m a codes.length = codes)
    (htramps : readBytes m b tramps.length = tramps) (hshort : codes.length < 2 ^ 64)
    (hshort' : tramps.length < 2 ^ 64)
    (hapart : Apart a codes.length (top - BitVec.ofNat 64 frameArea) frameArea)
    (hapart' : Apart b tramps.length (top - BitVec.ofNat 64 frameArea) frameArea)
    (h : ∀ off ∈ ctx.known, Placed ctx codes tramps a b start slot off) :
    Native ctx (fun off => a + BitVec.ofNat 64 (start off)) top m := by
  constructor
  · intro off hoff
    rw [readBytes_sub m a (h off hoff).fits, hcodes, (h off hoff).code]
  · intro off hoff x hx
    exact hapart x (inBlock_of_sub (h off hoff).fits hshort hx)
  · intro off hoff
    have hfits := (h off hoff).fits
    omega
  · intro off hoff
    rw [(h off hoff).addr, readBytes_sub m b (h off hoff).room, htramps, (h off hoff).tramp]
  · intro off hoff x hx
    rw [(h off hoff).addr] at hx
    exact hapart' x (inBlock_of_sub (h off hoff).room hshort' hx)
  · intro off hoff is i hblock hcall
    have hend := (@scan_block _ _ _ _ _ hblock (ctx.bcLen - off.toNat) (by omega)).2
    have hcallees : (ctx.scan off).2.callees = [i.2.off, i.2.err] := by
      rw [JitCtx.scan, hend, hcall]
      rfl
    have hknown := (h off hoff).callees
    rw [hcallees] at hknown
    exact ⟨hknown List.mem_cons_self, hknown (List.mem_cons_of_mem _ List.mem_cons_self)⟩

/-- The processor at `rip`, with `v` in the registers, the code and the trampolines in memory and
the native frames below 0x20000. -/
def cpuAt (codes tramps : List Byte) (rip v : Word) : Cpu where
  gpr := fun r => if r = r14 then 0x20000 else v
  xmm := fun _ => 0
  rip := rip
  mem := writeBytes (writeBytes (fun _ => 0) 0x30000000 tramps) 0x10000000 codes

theorem native_cpuAt {ctx : JitCtx} {codes tramps : List Byte} {start slot : BitVec 32 → Nat}
    (hcodes : codes.length ≤ 0x1000) (htramps : tramps.length ≤ 0x1000)
    (h : ∀ off ∈ ctx.known, Placed ctx codes tramps 0x10000000 0x30000000 start slot off)
    (rip v : Word) : Native ctx (fun off => 0x10000000 + BitVec.ofNat 64 (start off))
      ((cpuAt codes tramps rip v).gpr r14) (cpuAt codes tramps rip v).mem := by
  have hsp : (cpuAt codes tramps rip v).gpr r14 = 0x20000 := rfl
  rw [hsp]
  refine .of_placed (b := 0x30000000) ?_ ?_ (by omega) (by omega) ?_ ?_ h
  · exact readBytes_writeBytes_self _ _ (by omega)
  · rw [cpuAt, readBytes_writeBytes_apart (by omega),
      readBytes_writeBytes_self _ _ (by omega)]
    intro x hx hx'
    simp only [InBlock] at hx hx'
    bv_omega
  · intro x hx hx'
    simp only [InBlock, frameArea, shadowDepth] at hx hx'
    bv_omega
  · intro x hx hx'
    simp only [InBlock, frameArea, shadowDepth] at hx hx'
    bv_omega

/-! ## 10. A callee that throws, and a handler that calls -/

/-- `call 9, 20`; at 9 `mov ax, 0x30000020` and `throw`; at 20 `mov ax, 0x30000030` and
`call 39, 39`; at 39 `ret`. -/
def relayCode : List Byte :=
  Op.call.code :: (le 4 9 ++ le 4 20) ++ Op.movRI.code :: 0 :: le 8 0x30000020 ++
    Op.throw.code :: Op.movRI.code :: 0 :: le 8 0x30000030 ++
      Op.call.code :: (le 4 39 ++ le 4 39) ++ [Op.ret.code]

def relay : Mem := writeBytes (fun _ => 0) 0 relayCode

/-- With the four blocks in the table, their trampolines begin at 0x30000000. -/
def relayCtx : JitCtx :=
  [0, 9, 20, 39].foldl (fun ctx off => ctx.addBlock hostEnv off)
    (jitCtxNew hostEnv (bcAt relay 0) 40)

def relayStart (off : BitVec 32) : Nat :=
  if off = 0 then 0 else if off = 9 then 33 else if off = 20 then 52 else 95

def relaySlot (off : BitVec 32) : Nat :=
  if off = 0 then 0 else if off = 9 then 16 else if off = 20 then 32 else 48

def relayNative : List Byte := [0, 9, 20, 39].flatMap (blockBytes relayCtx)

def relayTramps : List Byte :=
  [0, 9, 20, 39].flatMap fun off => trampInit (0x10000000 + BitVec.ofNat 64 (relayStart off))

theorem relay_placed : ∀ off ∈ relayCtx.known, Placed relayCtx relayNative relayTramps 0x10000000
    0x30000000 relayStart relaySlot off := by
  intro off hoff
  have hmem : off ∈ [0, 9, 20, 39] := hoff
  simp only [List.mem_cons, List.not_mem_nil, or_false] at hmem
  rcases hmem with rfl | rfl | rfl | rfl <;>
    exact ⟨by decide +kernel, by decide +kernel, by decide +kernel, by decide +kernel,
      by decide +kernel, by decide +kernel⟩

/-- The thread with `ax` at a place, `entries` being on its shadow stack. -/
def relayThread (ip : Word) (gpr : Reg → Word) (entries : List Word)
    (h : entries.length ≤ shadowDepth) : VMThread :=
  { vmThreadCreate 0 0 0 with gpr := gpr, ip := ip, shadow := ⟨entries, h⟩ }

/-- The registers in the block that the call comes to, and those in its error handler. -/
def relayCallee : Reg → Word := fun r => if r = regAx then 0x30000020 else 0x30000010

def relayHandler : Reg → Word := fun r => if r = regAx then 0x30000030 else relayCallee r

theorem relay_step {ip : Word} {g : Reg → Word} {es : List Word} {h : es.length ≤ shadowDepth}
    {op : Op} {o : Operands} {t : VMThread} (hf : fetchInstr relay ip = some (op, o))
    (hex : exec none op o ((relayThread ip g es h).fetched op) relay = .next t relay) :
    Dvm.step none (relayThread ip g es h) relay = .next t relay :=
  (step_of_fetch (t := relayThread ip g es h) hf).trans hex

/-- Control gets from one block of the relay to the next, with the trampoline in `ax`. -/
def RelayEnter (op : Op) (s s' : VmState) : Prop :=
  ∃ l, VmEnter relay 0 relayCtx.bcLen s l s' ∧ l.instr.1 = op ∧
    TransferOk relayCtx.trampOf 0 l

theorem relay_call : RelayEnter .call ⟨relayThread 0 (fun _ => 0x30000010) [] (Nat.zero_le _), []⟩
    ⟨relayThread 9 (fun _ => 0x30000010) [9, 20] (by decide), [⟨9, 20, 9⟩]⟩ := by
  have hblock : BlockAt (bcAt relay 0) relayCtx.bcLen ((0 : Word) - 0).toNat []
      (.call, { off := 9, err := 20 }) :=
    ⟨by decide +kernel, by decide +kernel, rfl, by decide +kernel⟩
  have hfetch : fetchInstr relay 0 = some (.call, { off := 9, err := 20 }) := by decide +kernel
  have hstep : Dvm.step none (relayThread 0 (fun _ => 0x30000010) [] (Nat.zero_le _)) relay
      = .next (relayThread 9 (fun _ => 0x30000010) [9, 20] (by decide)) relay :=
    relay_step hfetch rfl
  have henter := @VmEnter.enter _ _ _ ⟨relayThread 0 _ [] _, []⟩ [] _ _ _ hblock .none hstep
  have htramp : relayCtx.trampOf 9 = 0x30000010 := by decide +kernel
  exact ⟨_, henter, rfl, htramp.symm⟩

theorem relay_throw : RelayEnter .throw
    ⟨relayThread 9 (fun _ => 0x30000010) [9, 20] (by decide), [⟨9, 20, 9⟩]⟩
    ⟨relayThread 20 relayCallee [] (Nat.zero_le _), []⟩ := by
  have hblock : BlockAt (bcAt relay 0) relayCtx.bcLen ((9 : Word) - 0).toNat
      [(.movRI, { d := regAx, imm := 0x30000020 })] (.throw, {}) :=
    ⟨by decide +kernel, by decide +kernel, rfl, by decide +kernel, by decide +kernel,
      by decide +kernel, rfl, by decide +kernel⟩
  have hmov : fetchInstr relay 9 = some (.movRI, { d := regAx, imm := 0x30000020 }) := by
    decide +kernel
  have hthrow : fetchInstr relay 19 = some (.throw, {}) := by decide +kernel
  have hload : Dvm.step none (relayThread 9 (fun _ => 0x30000010) [9, 20] (by decide)) relay
      = .next (relayThread 19 relayCallee [9, 20] (by decide)) relay := relay_step hmov rfl
  have hstep : Dvm.step none (relayThread 19 relayCallee [9, 20] (by decide)) relay
      = .next (relayThread 20 relayCallee [] (Nat.zero_le _)) relay := relay_step hthrow rfl
  have henter := @VmEnter.enter _ _ _ ⟨relayThread 9 _ [9, 20] _, [⟨9, 20, 9⟩]⟩ [_] _ _ _ hblock
    (.next .none hload) hstep
  have htramp : relayCtx.trampOf 20 = 0x30000020 := by decide +kernel
  refine ⟨_, henter, rfl, ?_⟩
  rintro f ⟨⟩
  exact htramp.symm

theorem relay_again : RelayEnter .call ⟨relayThread 20 relayCallee [] (Nat.zero_le _), []⟩
    ⟨relayThread 39 relayHandler [39, 39] (by decide), [⟨39, 39, 39⟩]⟩ := by
  have hblock : BlockAt (bcAt relay 0) relayCtx.bcLen ((20 : Word) - 0).toNat
      [(.movRI, { d := regAx, imm := 0x30000030 })] (.call, { off := 39, err := 39 }) :=
    ⟨by decide +kernel, by decide +kernel, rfl, by decide +kernel, by decide +kernel,
      by decide +kernel, rfl, by decide +kernel⟩
  have hmov : fetchInstr relay 20 = some (.movRI, { d := regAx, imm := 0x30000030 }) := by
    decide +kernel
  have hcall : fetchInstr relay 30 = some (.call, { off := 39, err := 39 }) := by decide +kernel
  have hload : Dvm.step none (relayThread 20 relayCallee [] (Nat.zero_le _)) relay
      = .next (relayThread 30 relayHandler [] (Nat.zero_le _)) relay := relay_step hmov rfl
  have hstep : Dvm.step none (relayThread 30 relayHandler [] (Nat.zero_le _)) relay
      = .next (relayThread 39 relayHandler [39, 39] (by decide)) relay := relay_step hcall rfl
  have henter := @VmEnter.enter _ _ _ ⟨relayThread 20 _ [] _, []⟩ [_] _ _ _ hblock
    (.next .none hload) hstep
  have htramp : relayCtx.trampOf 39 = 0x30000030 := by decide +kernel
  exact ⟨_, henter, rfl, htramp.symm⟩

theorem relay_ret : RelayEnter .ret
    ⟨relayThread 39 relayHandler [39, 39] (by decide), [⟨39, 39, 39⟩]⟩
    ⟨relayThread 39 relayHandler [] (Nat.zero_le _), []⟩ := by
  have hblock : BlockAt (bcAt relay 0) relayCtx.bcLen ((39 : Word) - 0).toNat [] (.ret, {}) :=
    ⟨by decide +kernel, by decide +kernel, rfl, by decide +kernel⟩
  have hfetch : fetchInstr relay 39 = some (.ret, {}) := by decide +kernel
  have hstep : Dvm.step none (relayThread 39 relayHandler [39, 39] (by decide)) relay
      = .next (relayThread 39 relayHandler [] (Nat.zero_le _)) relay := relay_step hfetch rfl
  have henter := @VmEnter.enter _ _ _ ⟨relayThread 39 _ [39, 39] _, [⟨39, 39, 39⟩]⟩ [] _ _ _ hblock
    .none hstep
  have htramp : relayCtx.trampOf 39 = 0x30000030 := by decide +kernel
  refine ⟨_, henter, rfl, ?_⟩
  rintro f ⟨⟩
  exact ⟨htramp.symm, rfl⟩

theorem relay_run : ∃ es s, Run (VmEnter relay 0 relayCtx.bcLen)
      ⟨relayThread 0 (fun _ => 0x30000010) [] (Nat.zero_le _), []⟩ es s ∧
    es.map (fun l => l.instr.1) = [.call, .throw, .call, .ret] ∧
    (∀ l ∈ es, TransferOk relayCtx.trampOf 0 l) ∧ s.thread.ip = 39 := by
  obtain ⟨l₁, h₁, hop₁, hok₁⟩ := relay_call
  obtain ⟨l₂, h₂, hop₂, hok₂⟩ := relay_throw
  obtain ⟨l₃, h₃, hop₃, hok₃⟩ := relay_again
  obtain ⟨l₄, h₄, hop₄, hok₄⟩ := relay_ret
  refine ⟨[l₁, l₂, l₃, l₄], _, .next (.next (.next (.single h₁) h₂) h₃) h₄, ?_, ?_, rfl⟩
  · rw [List.map_cons, List.map_cons, List.map_cons, List.map_singleton, hop₁, hop₂, hop₃, hop₄]
  · simp only [List.forall_mem_cons]
    exact ⟨hok₁, hok₂, hok₃, hok₄, List.forall_mem_nil _⟩

theorem relay_starts : Starts relayCtx (fun off => 0x10000000 + BitVec.ofNat 64 (relayStart off)) 0
    0 (relayThread 0 (fun _ => 0x30000010) [] (Nat.zero_le _))
    (cpuAt relayNative relayTramps 0x10000000 0x30000010) :=
  ⟨List.mem_cons_self, rfl, rfl, rfl, rfl, fun r => if_neg (vm2x86_ne_r14 r).symm⟩

/-- With the next trampoline in `ax` all four transfers agree. -/
theorem calls_agree_relay : ∃ es s, es.map (fun l => l.instr.1) = [.call, .throw, .call, .ret] ∧
    EntersAlike relayCtx.trampOf relay 0 40
      (cpuAt relayNative relayTramps 0x10000000 0x30000010) es s := by
  obtain ⟨es, s, hrun, hops, hok, -⟩ := relay_run
  have hn := native_cpuAt (by decide +kernel) (by decide +kernel) relay_placed 0x10000000 0x30000010
  exact ⟨es, s, hops, calls_agree rfl hn relay_starts hrun hok⟩

/-! ## 11. A function that calls itself -/

/-- `call 0, 0` at address 0. -/
def selfCall : Mem := writeBytes (fun _ => 0) 0 [Op.call.code]

def selfCallCtx : JitCtx := (jitCtxNew hostEnv (bcAt selfCall 0) 9).addBlock hostEnv 0

/-- The thread at the call, its registers holding `v`. -/
def selfCallThread (v : Word) : VMThread := { vmThreadCreate 0 0 0 with gpr := fun _ => v }

/-- The processor at the native code. -/
def selfCallCpu (v : Word) : Cpu :=
  cpuAt (blockBytes selfCallCtx 0) (trampInit 0x10000000) 0x10000000 v

theorem selfCall_block : BlockAt selfCallCtx.bc selfCallCtx.bcLen 0 [] (.call, {}) :=
  ⟨by decide, by decide, rfl, rfl⟩

theorem selfCall_placed : ∀ off ∈ selfCallCtx.known, Placed selfCallCtx
    (blockBytes selfCallCtx 0) (trampInit 0x10000000) 0x10000000 0x30000000 (fun _ => 0)
    (fun _ => 0) off := by
  intro off hoff
  obtain rfl := List.mem_singleton.mp hoff
  exact ⟨by decide +kernel, by decide +kernel, by decide, by decide, rfl, by decide +kernel⟩

theorem selfCall_native (v : Word) :
    Native selfCallCtx (fun _ => 0x10000000) ((selfCallCpu v).gpr r14) (selfCallCpu v).mem :=
  native_cpuAt (by decide) (by decide) selfCall_placed 0x10000000 v

theorem selfCall_starts (v : Word) :
    Starts selfCallCtx (fun _ => 0x10000000) 0 0 (selfCallThread v) (selfCallCpu v) :=
  ⟨List.mem_singleton_self _, rfl, rfl, rfl, rfl, fun r => if_neg (vm2x86_ne_r14 r).symm⟩

/-- The interpreter calls. -/
theorem selfCall_run (v : Word) : ∃ t₂ fs, Run (VmEnter selfCall 0 selfCallCtx.bcLen)
    ⟨selfCallThread v, []⟩ [⟨⟨selfCallThread v, []⟩, (.call, {}), t₂⟩] ⟨t₂, fs⟩ ∧
    t₂.ip = 0 ∧ t₂.gpr = fun _ => v := by
  have hip : (selfCallThread v).ip - 0 = 0 := BitVec.sub_zero _
  have hblock : BlockAt (bcAt selfCall 0) selfCallCtx.bcLen
      ((selfCallThread v).ip - 0).toNat [] (.call, {}) := by
    rw [hip]
    exact selfCall_block
  have hfetch : fetchInstr selfCall (selfCallThread v).ip = some (.call, {}) := by
    have hbc := fetchInstr_bcAt selfCall 0 0
    rw [BitVec.add_zero] at hbc
    exact hbc.trans rfl
  obtain ⟨t₂, hcall⟩ : ∃ t₂, callTo ((selfCallThread v).fetched .call) selfCall 0 0
      = .next t₂ selfCall := ⟨_, rfl⟩
  have hstep : Dvm.step none (selfCallThread v) selfCall = .next t₂ selfCall :=
    (step_of_fetch hfetch).trans hcall
  exact ⟨t₂, _, Run.single (.enter (s := ⟨selfCallThread v, []⟩) hblock .none hstep),
    (callTo_next hcall).2.1, callTo_gpr hcall⟩

/-- Whatever `ax` holds, the native code enters the block again with the trampoline there. -/
theorem selfCall_enters (v : Word) : ∃ c', JitEnter (selfCallCpu v) 0x30000000 c' ∧
    c'.gpr rax = 0x30000000 := by
  have hentry := (selfCall_starts v).atEntry
  have hn := selfCall_native v
  have hin : ∀ x, InBlock ((selfCallCpu v).gpr r14 - 16) 16 x →
      InBlock ((selfCallCpu v).gpr r14 - BitVec.ofNat 64 frameArea) frameArea x :=
    fun x hx => inArea (k := 16) (by decide) (by omega) hx
  have hlen : (blockBytes selfCallCtx 0).length = 33 := by
    rw [blockBytes_code selfCall_block]
    rfl
  have hapart := hn.codeApart 0 hentry.inTable
  rw [hlen] at hapart
  obtain ⟨es, c₁, hes, hrun, hrip, -, hrax, -, hmem⟩ :=
    run_endCall (hentry.codeAt hn selfCall_block) fun x hx hx' => hapart x hx (hin x hx')
  have htramp := hn.tramp 0 hentry.inTable
  have hbytes : readBytes c₁.mem c₁.rip dvmTrampSize = trampInit 0x10000000 := by
    rw [hrip, ← htramp]
    refine readBytes_congr (by decide) fun x hx => ?_
    have hfar := hn.trampApart 0 hentry.inTable x hx
    have hhigh : (selfCallCpu v).gpr r14 - 8
        = (selfCallCpu v).gpr r14 - 16 + BitVec.ofNat 64 8 := by bv_omega
    rw [hmem, writeWord_apply, writeWord_apply]
    · exact fun hx' => hfar (hin x (Nat.lt_of_lt_of_le hx' (by decide)))
    · rw [hhigh]
      exact fun hx' => hfar (hin x (inBlock_of_sub (by omega) (by decide) hx'))
  have hjmp := step_tramp hbytes
  rw [hrip] at hjmp
  exact ⟨_, ⟨es, 0, hes, hrun.trans (Run.single hjmp)⟩, hrax⟩

/-- With 0 in `ax` the call does not agree: `ax` is lost. -/
theorem call_loses_ax : ¬ ∀ (ctx : JitCtx) (native : BitVec 32 → Word) (m : Mem) (base : Word)
    (off : BitVec 32) (t : VMThread) (c : Cpu) (es : List Transfer) (s : VmState),
    ctx.bc = bcAt m base → Native ctx native (c.gpr r14) c.mem →
    Starts ctx native base off t c → Run (VmEnter m base ctx.bcLen) ⟨t, []⟩ es s →
    EntersAlike ctx.trampOf m base ctx.bcLen c es s := by
  intro hall
  obtain ⟨t₂, fs, hrun, hip, hgpr⟩ := selfCall_run 0
  obtain ⟨c', hjit, hregs, -⟩ :=
    hall _ _ _ _ _ _ _ _ _ rfl (selfCall_native 0) (selfCall_starts 0) hrun
  obtain ⟨c'', henter, hrax⟩ := selfCall_enters 0
  obtain rfl := (hjit.of_single.deterministic henter).2
  have hax : c'.gpr rax = 0 := by
    have hsame := hregs regAx
    rwa [hgpr] at hsame
  rw [hax] at hrax
  exact absurd hrax (by decide)

end Dvm
