/-
# The entry as a C function

`HALT` emits an epilogue, `pop rbp; ret`, but no block has a prologue: nothing calls
`jit_prologue`.  So the pointer that `jit_entry` returns, called as the C function that its type
says it is, pops the return address into `rbp` and returns to the word above it, with `rsp` eight
bytes too high (`entry_never_honours`), whatever the program was.

A program of more native code than the code buffer holds moves while it is compiled; then the
trampoline leads to memory that was given back, and the call does not return at all.
-/
import Dvm.Jit.Native
import Dvm.Jit.Tramps

namespace Dvm

open Bytes ByteMem X86 Runs

/-! ## 1. Programs that halt -/

/-- From `p` on there are opcodes after which the block goes on, and then a `HALT`. -/
inductive HaltProgram (bc : Nat → Byte) (bcLen : Nat) : Nat → Prop
  | halt {p : Nat} : p < bcLen → Op.ofCode (bc p) = some .halt → HaltProgram bc bcLen p
  | next {p : Nat} {op : Op} : p < bcLen → Op.ofCode (bc p) = some op → op.goesOn = true →
      HaltProgram bc bcLen (p + op.size) → HaltProgram bc bcLen p

theorem scan_haltProgram {bc : Nat → Byte} {bcLen p : Nat} (h : HaltProgram bc bcLen p)
    {fuel : Nat} (hfuel : bcLen ≤ p + fuel) :
    (scanBlock bc bcLen fuel p).2 = .last jitEpilogue := by
  induction h generalizing fuel with
  | @halt p hp hop =>
    obtain ⟨fuel, rfl⟩ : ∃ n, fuel = n + 1 := ⟨fuel - 1, by omega⟩
    rw [scanBlock, if_pos hp, hop]
    rfl
  | @next p op hp hop hgo _ ih =>
    obtain ⟨fuel, rfl⟩ : ∃ n, fuel = n + 1 := ⟨fuel - 1, by omega⟩
    have hsize := op.size_pos
    obtain ⟨cs, hcs, -⟩ := jitStraight_bytes hgo (bcOperands bc op p)
    rw [scanBlock, if_pos hp, hop]
    simp only [hcs]
    exact ih (by omega)

/-! ## 2. What `jit_entry` leaves in memory -/

/-- Where the code buffer of a new context is. -/
def firstBuf (env : JitEnv) : Word := env.mmap (1 <<< 20)

/-- The context after the entry of a program was compiled, `is` being its native code. -/
structure Entered (env : JitEnv) (ctx : JitCtx) (is : List NativeInstr) : Prop where
  body : ∀ i ∈ is, i.IsBody
  code : ctx.code.bytes = nativeBytes (is ++ [.general (.pop rbp), .general .ret])
  tramp : field ctx.tramps 0 dvmTrampSize = trampInit (firstBuf env)
  size : ctx.tramps.length = trampCap

/-- The entry is the trampoline of the first block. -/
theorem entry_first {env : JitEnv} {bc : Nat → Byte} {bcLen : Nat} {cs : JitCode}
    (hcomp : jitCompileBlock env (jitCtxNew env bc bcLen) 0
      = .ok (firstBuf env) (firstCompiled env bc bcLen cs)) :
    jitEntry env (jitCtxNew env bc bcLen) = .ok env.trampArena (firstCompiled env bc bcLen cs) ∧
      field (firstCompiled env bc bcLen cs).tramps 0 dvmTrampSize = trampInit (firstBuf env) ∧
      (firstCompiled env bc bcLen cs).tramps.length = trampCap := by
  have hrun : TrampRun env bc bcLen [(jitCtxNew env bc bcLen, .call (.compileBlock 0))]
      ⟨firstCompiled env bc bcLen cs, none⟩ := by
    have hstep := @TrampStep.call env (jitCtxNew env bc bcLen) (.compileBlock 0)
    rw [JitCall.run, hcomp] at hstep
    exact Run.single hstep
  have htable := run_trampTable hrun
  have hfind : (firstCompiled env bc bcLen cs).find 0 = some 0 := by
    rw [firstCompiled, find_finish]
    exact find_addBlock env rfl
  obtain ⟨hlt, hblock⟩ := find_eq_some hfind
  have haddress := htable.address 0 hlt
  have htramp := htable.bytes 0 hlt
  have htarget : ∀ stub, lastTarget env [(jitCtxNew env bc bcLen, .call (.compileBlock 0))] 0 stub
      = firstBuf env := by
    intro stub
    show (compilePatch env (jitCtxNew env bc bcLen) 0).getD stub = _
    rw [compilePatch, hcomp]
    rfl
  rw [hblock, htarget, Nat.zero_mul] at htramp
  refine ⟨?_, htramp, htable.inv.size⟩
  rw [jitEntry, hcomp]
  simp only
  rw [jitTrampFor_of_find hfind, JitCtx.trampOf, hfind]
  simp only
  rw [haddress, Nat.zero_mul]
  exact congrArg (fun t => EStateM.Result.ok t _) (BitVec.add_zero _)

/-- The code buffer stays where it is as long as it holds the code. -/
theorem code_firstCompiled (env : JitEnv) (bc : Nat → Byte) (bcLen : Nat) {cs : JitCode}
    (h : cs.flatten.length ≤ 1 <<< 20) :
    (firstCompiled env bc bcLen cs).code.buf = firstBuf env ∧
      (firstCompiled env bc bcLen cs).code.len ≤ 1 <<< 20 ∧
      (firstCompiled env bc bcLen cs).code.cap = 1 <<< 20 := by
  have hroom : (jitBufNew env (1 <<< 20)).len + cs.flatten.length
      ≤ (jitBufNew env (1 <<< 20)).cap := Nat.le_trans (Nat.le_of_eq (Nat.zero_add _)) h
  obtain ⟨hbuf, hcap⟩ := emit_fits hroom
  refine ⟨hbuf, ?_, hcap⟩
  show (jitEmit env (jitBufNew env (1 <<< 20)) cs).bytes.length ≤ 1 <<< 20
  rw [emit_bytes]
  exact h

theorem entry_new (env : JitEnv) {bc : Nat → Byte} {bcLen : Nat} (h : HaltProgram bc bcLen 0) :
    ∃ ctx is, jitEntry env (jitCtxNew env bc bcLen) = .ok env.trampArena ctx ∧
      Entered env ctx is ∧ (blockSize bc bcLen bcLen 0 ≤ 1 <<< 20 →
        ctx.code.buf = firstBuf env ∧ ctx.code.len ≤ 1 <<< 20 ∧ ctx.code.cap = 1 <<< 20) := by
  have hlast := @scan_haltProgram bc bcLen 0 h bcLen (by omega)
  obtain ⟨hentry, htramp, hsize⟩ := entry_first (compile_first_eq env bc bcLen hlast)
  obtain ⟨is, his, hbody⟩ := scan_body bc bcLen bcLen 0
  refine ⟨_, is, hentry, ⟨hbody, ?_, htramp, hsize⟩, fun hfits => ?_⟩
  · have hepilogue : jitEpilogue.flatten = nativeBytes [.general (.pop rbp), .general .ret] := by
      decide
    have hbytes := emit_bytes env (jitBufNew env (1 <<< 20))
      ((scanBlock bc bcLen bcLen 0).1 ++ jitEpilogue)
    rw [List.flatten_append, his, hepilogue, ← nativeBytes_append] at hbytes
    exact hbytes
  · refine code_firstCompiled env bc bcLen (Nat.le_trans (Nat.le_of_eq ?_) hfits)
    rw [← scan_size (jitCtxNew env bc bcLen), hlast]
    rfl

/-! ## 3. The call -/

/-- The memory of the JIT that can be executed. -/
def Executable (env : JitEnv) (ctx : JitCtx) (x : Word) : Prop :=
  InBlock env.trampArena trampCap x ∨ InBlock env.stubArena stubCap x ∨
    InBlock ctx.code.buf ctx.code.cap x

/-- Memory that was mapped in place of the first code buffer, if it moved, is somewhere else, and
so are the arenas. -/
structure PagesApart (env : JitEnv) (ctx : JitCtx) : Prop where
  tramps : ¬ InBlock env.trampArena trampCap (firstBuf env)
  stubs : ¬ InBlock env.stubArena stubCap (firstBuf env)
  moved : ctx.code.buf ≠ firstBuf env → ¬ InBlock ctx.code.buf ctx.code.cap (firstBuf env)

/-- A processor that calls `t`: the trampolines and the code are in memory. -/
structure Loaded (env : JitEnv) (ctx : JitCtx) (t : Word) (c : Cpu) : Prop where
  rip : c.rip = t
  tramps : readBytes c.mem env.trampArena trampCap = ctx.tramps
  code : readBytes c.mem ctx.code.buf ctx.code.len = ctx.code.bytes

/-- The call goes on in executable memory up to a `RET`. -/
def Returns (env : JitEnv) (ctx : JitCtx) (c c' : Cpu) : Prop :=
  ∃ is, .general .ret ∉ is ∧ Run (StepIn (Executable env ctx)) c (is ++ [.general .ret]) c'

/-- What the System V convention says of a function that was entered in state `c` and is back
in `c'`. -/
structure HonoursConvention (c c' : Cpu) : Prop where
  rip : c'.rip = readWord c.mem (c.gpr rsp)
  sp : c'.gpr rsp = c.gpr rsp + 8
  saved : ∀ r ∈ calleeSaved, c'.gpr r = c.gpr r

/-- Where the call returns to in fact. -/
structure ReturnsAbove (c c' : Cpu) : Prop where
  rip : c'.rip = readWord c.mem (c.gpr rsp + 8)
  sp : c'.gpr rsp = c.gpr rsp + 16
  rbp : c'.gpr rbp = readWord c.mem (c.gpr rsp)

theorem ReturnsAbove.not_honours {c c' : Cpu} (h : ReturnsAbove c c') :
    ¬ HonoursConvention c c' := by
  intro hh
  have hsp := h.sp.symm.trans hh.sp
  exact absurd ((BitVec.add_right_inj _).mp hsp) (by decide)

section

variable {env : JitEnv} {ctx : JitCtx} {is : List NativeInstr} {c : Cpu}

/-- The epilogue takes two words from the stack. -/
theorem run_epilogue {X : Word → Prop} {c : Cpu} (h : readBytes c.mem c.rip 2 = [0x5D, 0xC3])
    (hpop : X c.rip) (hret : X (c.rip + 1)) :
    ∃ c', Run (StepIn X) c [.general (.pop rbp), .general .ret] c' ∧ ReturnsAbove c c' := by
  have hsplit : readBytes c.mem c.rip 1 ++ readBytes c.mem (c.rip + 1) 1 = [0x5D] ++ [0xC3] := h
  obtain ⟨hfst, hsnd⟩ := List.append_inj hsplit (length_readBytes _ _ _)
  have hne : rsp ≠ rbp := by decide
  obtain ⟨g, hg⟩ : ∃ g,
      g = setR (setR c.gpr rsp (c.gpr rsp + 8)) rbp (readWord c.mem (c.gpr rsp)) :=
    ⟨_, rfl⟩
  have hsp : g rsp = c.gpr rsp + 8 := by rw [hg, setR_ne _ _ hne, setR_self]
  have hbp : g rbp = readWord c.mem (c.gpr rsp) := by rw [hg, setR_self]
  have hs₁ : X86.Step c (c.rip, .pop rbp) { c with gpr := g, rip := c.rip + 1 } := by
    rw [hg]
    exact @step_of_code c (.pop rbp) trivial hfst
  have hs₂ : X86.Step { c with gpr := g, rip := c.rip + 1 } (c.rip + 1, .ret)
      { c with gpr := setR g rsp (g rsp + 8), rip := readWord c.mem (g rsp) } :=
    @step_of_code { c with gpr := g, rip := c.rip + 1 } .ret trivial hsnd
  have hfirst : StepIn X c (.general (.pop rbp)) _ := ⟨hpop, .general hs₁⟩
  refine ⟨_, (Run.single hfirst).next ⟨hret, .general hs₂⟩, ?_, ?_, ?_⟩
  · rw [← hsp]
  · show setR g rsp (g rsp + 8) rsp = _
    rw [setR_self, hsp, BitVec.add_assoc]
    rfl
  · show setR g rsp (g rsp + 8) rbp = _
    rw [setR_ne _ _ hne.symm, hbp]

/-- The trampoline jumps to where the code was when it was begun. -/
theorem Entered.jump (he : Entered env ctx is) (hl : Loaded env ctx env.trampArena c) :
    X86.Step c (c.rip, .jmpRip 0) { c with rip := firstBuf env } := by
  refine step_tramp ?_
  have hslot := readBytes_sub c.mem env.trampArena (show 0 + dvmTrampSize ≤ trampCap by decide)
  rwa [BitVec.add_zero, hl.tramps, he.tramp, ← hl.rip] at hslot

/-- Code that is in the buffer still is run through. -/
theorem Entered.run (he : Entered env ctx is) (hl : Loaded env ctx env.trampArena c)
    (hbuf : ctx.code.buf = firstBuf env) {X : Word → Prop} (htramp : X env.trampArena)
    (hcode : ∀ k < ctx.code.len, X (firstBuf env + BitVec.ofNat 64 k)) :
    ∃ es c', .general .ret ∉ es ∧ Run (StepIn X) c (es ++ [.general .ret]) c' ∧
      ReturnsAbove c c' := by
  have hlast : nativeBytes [.general (.pop rbp), .general .ret] = [0x5D, 0xC3] := by decide
  have hbytes := hl.code
  rw [hbuf, JitBuf.len, he.code, nativeBytes_append, hlast, List.length_append, readBytes_add]
    at hbytes
  rw [JitBuf.len, he.code, nativeBytes_append, hlast, List.length_append] at hcode
  obtain ⟨hbody, hepilogue⟩ := List.append_inj hbytes (length_readBytes _ _ _)
  obtain ⟨c₁, hrun, hrip, hmem, hrsp⟩ :=
    exists_run_body (c := { c with rip := firstBuf env }) (X := X) he.body hbody
      fun k hk => hcode k (by omega)
  obtain ⟨c', hrun', hreturns⟩ := run_epilogue (c := c₁) (X := X)
    (by rw [hmem, hrip]; exact hepilogue)
    (by rw [hrip]; exact hcode _ (by simp))
    (by
      have hnext := hcode ((nativeBytes is).length + 1) (by simp)
      rw [hrip]
      rwa [BitVec.ofNat_add, ← BitVec.add_assoc] at hnext)
  have hfirst : StepIn X c _ _ := ⟨hl.rip ▸ htramp, .general (he.jump hl)⟩
  have hall := ((Run.single hfirst).trans hrun).trans hrun'
  refine ⟨.general (.jmpRip 0) :: (is ++ [.general (.pop rbp)]), c', ?_, ?_, ?_⟩
  · have hbody : .general .ret ∉ is := fun hmem => (he.body _ hmem).1
    simp [hbody]
  · simpa using hall
  · exact ⟨by rw [hreturns.rip, hmem, hrsp], by rw [hreturns.sp, hrsp],
      by rw [hreturns.rbp, hmem, hrsp]⟩

/-- However the call returns, it returns above. -/
theorem Entered.returnsAbove (he : Entered env ctx is) (hl : Loaded env ctx env.trampArena c)
    (hpages : PagesApart env ctx) {c' : Cpu} (h : Returns env ctx c c') : ReturnsAbove c c' := by
  obtain ⟨es, hes, hrun⟩ := h
  by_cases hbuf : ctx.code.buf = firstBuf env
  · obtain ⟨fs, d, hfs, hrun', habove⟩ := @Entered.run _ _ _ _ he hl hbuf (fun _ => True) trivial
      fun _ _ => trivial
    obtain ⟨-, hsame⟩ := Run.lockstep_first
      (fun s t e f s' t' (hst : SameBut s t) hs ht => hst.step hs.2 ht.2) ⟨rfl, rfl, rfl⟩
      hrun' hrun hfs hes
    exact ⟨hsame.rip.trans habove.rip, (congrFun hsame.gpr rsp).trans habove.sp,
      (congrFun hsame.gpr rbp).trans habove.rbp⟩
  · -- behind the jump there is nothing to execute
    exfalso
    have hsame : SameBut c c := ⟨rfl, rfl, rfl⟩
    cases es with
    | nil =>
      obtain ⟨c₁, hs, -⟩ := hrun.head
      cases (hsame.step (.general (he.jump hl)) hs.2).1
    | cons e es =>
      obtain ⟨c₁, hs, hrest⟩ := hrun.head
      have hrip := (hsame.step (.general (he.jump hl)) hs.2).2.rip
      obtain ⟨f, gs, hnext⟩ := List.exists_cons_of_ne_nil
        (List.append_ne_nil_of_right_ne_nil es (List.cons_ne_nil (NativeInstr.general .ret) []))
      rw [show es.append _ = f :: gs from hnext] at hrest
      obtain ⟨c₂, ⟨hX, -⟩, -⟩ := hrest.head
      rw [hrip] at hX
      rcases hX with hX | hX | hX
      · exact hpages.tramps hX
      · exact hpages.stubs hX
      · exact hpages.moved hbuf hX

end

/-- The function that `jit_entry` returns for a program that halts honours the convention from no
state.  If the program's native code fits into the code buffer the call does return, and always
above. -/
theorem entry_never_honours (env : JitEnv) {bc : Nat → Byte} {bcLen : Nat}
    (h : HaltProgram bc bcLen 0) :
    ∃ t ctx, jitEntry env (jitCtxNew env bc bcLen) = .ok t ctx ∧
      (PagesApart env ctx → ∀ c, Loaded env ctx t c →
        (¬ ∃ c', Returns env ctx c c' ∧ HonoursConvention c c') ∧
        (∀ c', Returns env ctx c c' → ReturnsAbove c c') ∧
        (blockSize bc bcLen bcLen 0 ≤ 1 <<< 20 → ∃ c', Returns env ctx c c')) := by
  obtain ⟨ctx, is, hentry, he, hfits⟩ := entry_new env h
  refine ⟨env.trampArena, ctx, hentry, fun hpages c hl => ⟨?_, ?_, fun hsize => ?_⟩⟩
  · rintro ⟨c', hreturns, hhonours⟩
    exact (he.returnsAbove hl hpages hreturns).not_honours hhonours
  · exact fun c' hreturns => he.returnsAbove hl hpages hreturns
  · obtain ⟨hbuf, hlen, hcap⟩ := hfits hsize
    have htramp := inBlock_add env.trampArena (show 0 < trampCap by decide)
    rw [BitVec.add_zero] at htramp
    obtain ⟨es, c', hes, hrun, -⟩ := @Entered.run _ _ _ _ he hl hbuf (Executable env ctx)
      (.inl htramp)
      fun k hk => .inr (.inr (hbuf ▸ inBlock_add _ (hcap ▸ Nat.lt_of_lt_of_le hk hlen)))
    exact ⟨c', es, hes, hrun⟩

/-- `HALT` alone, with its code in memory. -/
theorem halt_loaded : ∃ ctx is c,
    jitEntry hostEnv (jitCtxNew hostEnv haltBytes 1) = .ok hostEnv.trampArena ctx ∧
      Entered hostEnv ctx is ∧ PagesApart hostEnv ctx ∧
      Loaded hostEnv ctx hostEnv.trampArena c := by
  have hprog : HaltProgram haltBytes 1 0 := .halt Nat.one_pos rfl
  obtain ⟨ctx, is, hentry, he, hfits⟩ := entry_new hostEnv hprog
  obtain ⟨hbuf, hlen, -⟩ := hfits (by decide)
  have hlt : ctx.code.bytes.length < 2 ^ 64 := Nat.lt_of_le_of_lt hlen (by decide)
  have hapart : Apart hostEnv.trampArena trampCap ctx.code.buf ctx.code.bytes.length := by
    have hend : 0x10000000 + ctx.code.bytes.length ≤ 0x30000000 :=
      Nat.le_trans (Nat.add_le_add_left hlen _) (by decide)
    rw [hbuf]
    exact fun x => @not_inBlock_of_sep 0 x 0x30000000 trampCap 0x10000000 _ (by decide)
      (Nat.lt_of_le_of_lt hend (by decide)) (.inr hend)
  let m : Mem := writeBytes (writeBytes (fun _ => 0) hostEnv.trampArena ctx.tramps)
    ctx.code.buf ctx.code.bytes
  refine ⟨ctx, is, ⟨fun _ => 0, fun _ => 0, hostEnv.trampArena, m⟩, hentry, he,
    ⟨by decide, by decide, fun hne => absurd hbuf hne⟩, rfl, ?_, ?_⟩
  · show readBytes m _ _ = _
    rw [readBytes_writeBytes_apart (by decide) hapart, ← he.size]
    exact readBytes_writeBytes_self _ _ (by rw [he.size]; decide)
  · exact readBytes_writeBytes_self _ _ hlt

theorem entry_never_honours_halt : ∃ t ctx c,
    jitEntry hostEnv (jitCtxNew hostEnv haltBytes 1) = .ok t ctx ∧ Loaded hostEnv ctx t c ∧
      (∃ c', Returns hostEnv ctx c c') ∧
      ¬ ∃ c', Returns hostEnv ctx c c' ∧ HonoursConvention c c' := by
  obtain ⟨ctx, is, c, hentry, -, hpages, hl⟩ := halt_loaded
  have hprog : HaltProgram haltBytes 1 0 := .halt Nat.one_pos rfl
  obtain ⟨t, ctx', hentry', hall⟩ := entry_never_honours hostEnv hprog
  obtain ⟨rfl, rfl⟩ := EStateM.Result.ok.inj (hentry.symm.trans hentry')
  obtain ⟨hnever, -, hreturns⟩ := hall hpages c hl
  exact ⟨_, ctx, c, hentry, hl, hreturns (by decide), hnever⟩

/-- A program that only halts does not return to its caller. -/
theorem halt_breaks_convention : ¬ ∀ (env : JitEnv) (bc : Nat → Byte) (bcLen : Nat) (t : Word)
    (ctx : JitCtx), HaltProgram bc bcLen 0 → jitEntry env (jitCtxNew env bc bcLen) = .ok t ctx →
    PagesApart env ctx → ∀ c, Loaded env ctx t c →
      ∃ c', Returns env ctx c c' ∧ HonoursConvention c c' := by
  intro hall
  obtain ⟨ctx, is, c, hentry, he, hpages, hl⟩ := halt_loaded
  obtain ⟨c', hreturns, hhonours⟩ :=
    hall hostEnv haltBytes 1 _ ctx (.halt Nat.one_pos rfl) hentry hpages c hl
  exact (he.returnsAbove hl hpages hreturns).not_honours hhonours

end Dvm
