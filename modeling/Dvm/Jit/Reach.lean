/-
# Pointers to native code

`jit_compile_block` takes the address of a block's code before it emits the code, and keeps it in
the block table and in the trampoline.  When the buffer grows, all code moves, and every pointer
into it is left behind: those of the earlier blocks and that of the block being compiled.

As long as no compilation grows the buffer (`Fits`, by the sizes of the native code of the
opcodes) every block's pointers lead to its code (`compiled_reachable`).
-/
import Dvm.Jit.Compile

namespace Dvm

open Bytes ByteMem Runs

/-! ## 1. The size of a block's native code -/

/-- The number of bytes that are emitted for an opcode. -/
def Op.nativeSize (op : Op) : Nat :=
  match op with
  | movRR | add | sub | and | or | xor | neg => 3
  | movRI => 10
  | mul | imul | fadd | fmul => 4
  | shl | shr | sar => 6
  | call => 33
  | ret => 10
  | throw => 9
  | halt => 2
  | _ => 0

/-- The opcodes after which the block goes on. -/
def Op.goesOn (op : Op) : Bool :=
  op ∈ [movRR, movRI, add, sub, and, or, xor, mul, imul, neg, shl, shr, sar, fadd, fmul]

/-- The number of bytes that are emitted for the block at `ip`. -/
def blockSize (bc : Nat → Byte) (bcLen : Nat) : Nat → Nat → Nat
  | 0, _ => 0
  | fuel + 1, ip =>
    if ip < bcLen then
      match Op.ofCode (bc ip) with
      | none => 0
      | some op =>
        op.nativeSize + if op.goesOn then blockSize bc bcLen fuel (ip + op.size) else 0
    else 0

theorem opcode_size (ctx : JitCtx) (op : Op) (o : Operands) :
    (∃ cs, jitStraight op o = some cs ∧ op.goesOn = true ∧ cs.flatten.length = op.nativeSize) ∨
    (jitStraight op o = none ∧ op.goesOn = false ∧
      (endCode ctx (blockEnd op o)).flatten.length = op.nativeSize) := by
  have hsse : ∀ (x : Byte) d s, (jitSse x d s).flatten.length = 4 := by
    intro x d s
    have hd : ¬ (8 ≤ d.val ∨ 8 ≤ s.val) := by omega
    simp [jitSse, hd, jitU8]
  have hcall : ∀ ok err, (jitEmitCall ok err).flatten.length = 33 := by
    intro ok err
    delta jitEmitCall
    simp only [jitU8, jitU64, List.flatten_append, List.length_append, List.flatten_singleton,
      length_le, List.length_singleton]
  cases op
  case fadd => exact .inl ⟨_, rfl, rfl, hsse _ _ _⟩
  case fmul => exact .inl ⟨_, rfl, rfl, hsse _ _ _⟩
  case call => exact .inr ⟨rfl, rfl, hcall _ _⟩
  all_goals first
    | exact .inl ⟨_, rfl, rfl, rfl⟩
    | exact .inr ⟨rfl, rfl, rfl⟩

theorem scan_size (ctx : JitCtx) (bc : Nat → Byte) (bcLen fuel ip : Nat) :
    ((scanBlock bc bcLen fuel ip).1 ++ endCode ctx (scanBlock bc bcLen fuel ip).2).flatten.length
      = blockSize bc bcLen fuel ip := by
  induction fuel generalizing ip with
  | zero => rfl
  | succ fuel ih =>
    rw [scanBlock, blockSize]
    by_cases hip : ip < bcLen
    · rw [if_pos hip, if_pos hip]
      cases Op.ofCode (bc ip) with
      | none => rfl
      | some op =>
        simp only
        rcases opcode_size ctx op (bcOperands bc op ip) with ⟨cs, hcs, hgo, hlen⟩ |
          ⟨hnone, hgo, hlen⟩
        · simp only [hcs, hgo, if_true]
          rw [List.append_assoc, List.flatten_append, List.length_append, hlen, ih]
        · simp [hnone, hgo, hlen]
    · rw [if_neg hip, if_neg hip]
      rfl

/-! ## 2. Emission without growth -/

/-- Code that fits leaves the buffer where it is. -/
theorem emit_fits {env : JitEnv} {j : JitBuf} {cs : JitCode}
    (h : j.len + cs.flatten.length ≤ j.cap) :
    (jitEmit env j cs).buf = j.buf ∧ (jitEmit env j cs).cap = j.cap := by
  induction cs generalizing j with
  | nil => exact ⟨rfl, rfl⟩
  | cons bs cs ih =>
    rw [List.flatten_cons, List.length_append] at h
    have hstore : jitStore env j bs =
        { j with bytes := j.bytes ++ bs, faulted := j.faulted || !j.writable } := by
      rw [jitStore, jitBufAlloc, if_neg (by omega)]
    have hlen : (jitStore env j bs).len = j.len + bs.length := by
      rw [hstore, JitBuf.len, List.length_append]
      rfl
    obtain ⟨hbuf, hcap⟩ := ih (j := jitStore env j bs) (by rw [hlen, hstore]; simp only; omega)
    rw [jitEmit_cons, hbuf, hcap, hstore]
    exact ⟨rfl, rfl⟩

/-! ## 3. Pointers -/

/-- The target that is stored in the trampoline of block `i`. -/
def trampTarget (ctx : JitCtx) (i : Nat) : Word :=
  BitVec.ofNat 64 (ofLe (field ctx.tramps (i * dvmTrampSize + 6) 8))

/-- The native pointer of the block at `off` and its trampoline's target lie in the code buffer,
at the code `bs`, which was emitted at position `p` of it. -/
def CodeReachable (ctx : JitCtx) (off : BitVec 32) (p : Nat) (bs : List Byte) : Prop :=
  ∃ i, ctx.find off = some i ∧
    (ctx.block i).native = some (ctx.code.buf + BitVec.ofNat 64 p) ∧
    trampTarget ctx i = ctx.code.buf + BitVec.ofNat 64 p ∧
    field ctx.code.bytes p bs.length = bs ∧ p + bs.length ≤ ctx.code.len ∧
    ctx.code.len ≤ ctx.code.cap

/-- Emitting without growth and adding blocks keeps the pointers. -/
theorem CodeReachable.extends {ctx ctx' : JitCtx} {off : BitVec 32} {p : Nat} {bs : List Byte}
    (hext : CtxExtends ctx ctx') (hbuf : ctx'.code.buf = ctx.code.buf)
    (hbytes : ctx.code.bytes <+: ctx'.code.bytes) (hcap : ctx'.code.len ≤ ctx'.code.cap)
    (h : CodeReachable ctx off p bs) : CodeReachable ctx' off p bs := by
  obtain ⟨i, hfind, hnative, htarget, hcode, hfit, -⟩ := h
  have hi := (find_eq_some hfind).1
  obtain ⟨tail, htail⟩ := hbytes
  refine ⟨i, hext.find hfind, ?_, ?_, ?_, ?_, hcap⟩
  · rw [hext.block hi, hnative, hbuf]
  · have hslot := hext.tramps i hi
    rw [trampTarget, hbuf, ← htarget, trampTarget]
    rw [← field_field (n := dvmTrampSize) (by decide), hslot, field_field (by decide)]
  · rw [← htail, field_append_left hfit, hcode]
  · rw [JitBuf.len, ← htail, List.length_append]
    exact Nat.le_add_right_of_le hfit

/-- Finishing a block points its trampoline at the code. -/
theorem target_finish {ctx : JitCtx} (hinv : TableInv ctx) {i k : Nat} (start : Word)
    (hi : i < ctx.blocks.length) :
    trampTarget (ctx.finish i start) k = if i = k then start else trampTarget ctx k := by
  have hfit := hinv.target_fits hi start
  simp only [trampTarget, JitCtx.finish, jitTrampPatch]
  split
  · next heq =>
    subst heq
    have hread := field_patch_same hfit
    rw [length_le] at hread
    rw [hread, ofLe_le_of_lt (show start.toNat < 256 ^ 8 from start.isLt), BitVec.ofNat_toNat,
      BitVec.setWidth_eq]
  · next hne =>
    rw [field_patch_disjoint hfit]
    rw [length_le]
    simp only [dvmTrampSize]
    omega

/-- Finishing another block keeps them too. -/
theorem CodeReachable.finish {ctx : JitCtx} {off : BitVec 32} {p k : Nat} {bs : List Byte}
    (start : Word) (hinv : TableInv ctx) (hk : k < ctx.blocks.length)
    (hnone : (ctx.block k).native = none) (h : CodeReachable ctx off p bs) :
    CodeReachable (ctx.finish k start) off p bs := by
  obtain ⟨i, hfind, hnative, htarget, hrest⟩ := h
  have hne : k ≠ i := by
    rintro rfl
    rw [hnative] at hnone
    cases hnone
  refine ⟨i, (find_finish ctx k start off).trans hfind, ?_, ?_, hrest⟩
  · rw [block_finish ctx k i start (find_eq_some hfind).1, if_neg hne]
    exact hnative
  · rw [target_finish hinv start hk, if_neg hne]
    exact htarget

/-! ## 4. One call -/

/-- The offset that a call compiles. -/
def JitCall.compiles : JitCall → Option (BitVec 32)
  | compileBlock off => some off
  | entry => some 0
  | blockGet _ | trampFor _ => none

/-- A call does not grow the buffer: it compiles nothing, or there is room for the code. -/
def Fits (ctx : JitCtx) (c : JitCall) : Prop :=
  ∀ off, c.compiles = some off → Compiled ctx off ∨
    ctx.code.len + blockSize ctx.bc ctx.bcLen (ctx.bcLen - off.toNat) off.toNat ≤ ctx.code.cap

/-- A completed call: what it does to the pointers of the blocks there are, and the pointers of
the block it compiles. -/
structure CallReaches (ctx ctx' : JitCtx) (compiles : Option (BitVec 32)) : Prop where
  fits : ctx'.code.len ≤ ctx'.code.cap
  inv : TableInv ctx'
  keeps : ∀ off p bs, CodeReachable ctx off p bs → CodeReachable ctx' off p bs
  reaches : ∀ off, compiles = some off → ¬ Compiled ctx off →
    CodeReachable ctx' off ctx.code.len (ctx'.code.bytes.drop ctx.code.len)

theorem CallReaches.of_extends {ctx ctx' : JitCtx} (hcap : ctx.code.len ≤ ctx.code.cap)
    (hext : CtxExtends ctx ctx') (hcode : ctx'.code = ctx.code) : CallReaches ctx ctx' none :=
  ⟨hcode ▸ hcap, hext.inv, fun _ _ _ h => h.extends hext (by rw [hcode])
    ⟨[], by rw [hcode, List.append_nil]⟩ (hcode ▸ hcap), nofun⟩

theorem compile_reaches {env : JitEnv} {ctx ctx' : JitCtx} {off : BitVec 32} {p : Word}
    (hinv : TableInv ctx) (hcap : ctx.code.len ≤ ctx.code.cap)
    (hfits : Fits ctx (.compileBlock off)) (h : jitCompileBlock env ctx off = .ok p ctx') :
    CallReaches ctx ctx' (some off) := by
  rcases jitCompileBlock_ok hinv h with ⟨hcomp, rfl⟩ |
    ⟨hnot, i, ctx₁, hext, hfind, hnone, hcode, hp, rfl⟩
  · exact ⟨hcap, hinv, fun _ _ _ h => h, by rintro _ ⟨⟩ hnot; exact absurd hcomp hnot⟩
  · have hsize := scan_size ctx₁ ctx.bc ctx.bcLen (ctx.bcLen - off.toNat) off.toNat
    have hroom := (hfits off rfl).resolve_left hnot
    rw [← hsize] at hroom
    obtain ⟨hbuf, hcap'⟩ := @emit_fits env _ _ hroom
    have hbytes := emit_bytes env ctx.code
      ((ctx.scan off).1 ++ endCode ctx₁ (ctx.scan off).2)
    have hbuf₁ : ctx₁.code.buf = ctx.code.buf := by rw [hcode]; exact hbuf
    have hbytes₁ : ctx.code.bytes <+: ctx₁.code.bytes := by
      rw [hcode, hbytes]
      exact List.prefix_append _ _
    have hcap₁ : ctx₁.code.len ≤ ctx₁.code.cap := by
      rw [JitBuf.len, hcode, hbytes, List.length_append]
      exact Nat.le_trans hroom (Nat.le_of_eq hcap'.symm)
    have hi := (find_eq_some hfind).1
    refine ⟨hcap₁, finish_tableInv p hi hext.inv, ?_, ?_⟩
    · intro off' p' bs hreach
      exact (hreach.extends hext hbuf₁ hbytes₁ hcap₁).finish p hext.inv hi hnone
    · rintro _ ⟨⟩ -
      have hpos : p = (ctx₁.finish i p).code.buf + BitVec.ofNat 64 ctx.code.len := by
        rw [hp, ← hbuf₁]
        rfl
      obtain ⟨tail, htail⟩ := hbytes₁
      have hdrop : (ctx₁.finish i p).code.bytes.drop ctx.code.len = tail := by
        show ctx₁.code.bytes.drop ctx.code.bytes.length = tail
        rw [← htail, List.drop_left]
      rw [hdrop]
      refine ⟨i, (find_finish ctx₁ i p off).trans hfind, ?_, ?_, ?_, ?_, hcap₁⟩
      · rw [block_finish ctx₁ i i p hi, if_pos rfl, ← hpos]
      · rw [target_finish hext.inv p hi, if_pos rfl, ← hpos]
      · show field ctx₁.code.bytes ctx.code.bytes.length tail.length = tail
        rw [← htail, field_append_self]
      · show ctx.code.bytes.length + tail.length ≤ ctx₁.code.bytes.length
        rw [← htail, List.length_append]

/-- The same for any call. -/
theorem call_reaches {env : JitEnv} {ctx ctx' : JitCtx} {c : JitCall} (hinv : TableInv ctx)
    (hcap : ctx.code.len ≤ ctx.code.cap) (hfits : Fits ctx c)
    (h : c.run env ctx = ⟨ctx', none⟩) : CallReaches ctx ctx' c.compiles := by
  cases c with
  | blockGet off =>
    simp only [JitCall.run] at h
    cases hres : jitBlockGet env ctx off with
    | error e ctx₁ => simp [hres, JitState.ofResult] at h
    | ok i ctx₁ =>
      obtain ⟨hext, -, hcode, -⟩ := jitBlockGet_ok hinv hres
      simp only [hres, JitState.ofResult, JitState.mk.injEq, and_true] at h
      subst h
      exact .of_extends hcap hext hcode
  | trampFor off =>
    simp only [JitCall.run] at h
    cases hres : jitTrampFor env ctx off with
    | error e ctx₁ => simp [hres, JitState.ofResult] at h
    | ok t ctx₁ =>
      obtain ⟨hext, hcode, -⟩ := jitTrampFor_ok hinv hres
      simp only [hres, JitState.ofResult, JitState.mk.injEq, and_true] at h
      subst h
      exact .of_extends hcap hext hcode
  | compileBlock off =>
    simp only [JitCall.run] at h
    cases hres : jitCompileBlock env ctx off with
    | error e ctx₁ => simp [hres, JitState.ofResult] at h
    | ok p ctx₁ =>
      simp only [hres, JitState.ofResult, JitState.mk.injEq, and_true] at h
      subst h
      exact compile_reaches hinv hcap hfits hres
  | entry =>
    simp only [JitCall.run, jitEntry] at h
    cases hres : jitCompileBlock env ctx 0 with
    | error e ctx₁ =>
      simp only [hres, JitState.ofResult] at h
      cases h
    | ok p ctx₁ =>
      have hcomp := compile_reaches hinv hcap hfits hres
      simp only [hres] at h
      cases hres' : jitTrampFor env ctx₁ 0 with
      | error e ctx₂ =>
        simp only [hres', JitState.ofResult] at h
        cases h
      | ok t ctx₂ =>
        obtain ⟨hext, hcode, -⟩ := jitTrampFor_ok hcomp.inv hres'
        have hlast := CallReaches.of_extends hcomp.fits hext hcode
        simp only [hres', JitState.ofResult, JitState.mk.injEq, and_true] at h
        subst h
        refine ⟨hlast.fits, hlast.inv,
          fun off p bs h => hlast.keeps _ _ _ (hcomp.keeps _ _ _ h), ?_⟩
        intro off hoff hnot
        rw [hcode]
        exact hlast.keeps _ _ _ (hcomp.reaches off hoff hnot)

/-! ## 5. Runs -/

/-- The bytes that a call emitted. -/
def emitted (env : JitEnv) (e : JitCtx × JitCall) : List Byte :=
  (e.2.run env e.1).ctx.code.bytes.drop e.1.code.len

/-- Over a run in which no compilation grows the buffer, after each call every block compiled so
far is reached through its pointers. -/
theorem compiled_reachable (env : JitEnv) (bc : Nat → Byte) (bcLen : Nat)
    {es : List (JitCtx × JitCall)} {ctx : JitCtx} (hrun : JitRun env bc bcLen es ⟨ctx, none⟩)
    (hfits : ∀ e ∈ es, Fits e.1 e.2) :
    ∀ e ∈ es, ∀ off, e.2.compiles = some off → ¬ Compiled e.1 off →
      CodeReachable ctx off e.1.code.len (emitted env e) := by
  have hinv : ∀ {es s}, JitRun env bc bcLen es s → (∀ e ∈ es, Fits e.1 e.2) → s.aborted = none →
      s.ctx.code.len ≤ s.ctx.code.cap ∧ ∀ e ∈ es, ∀ off, e.2.compiles = some off →
        ¬ Compiled e.1 off → CodeReachable s.ctx off e.1.code.len (emitted env e) := by
    intro es s hrun
    refine Run.invariant (I := fun es s => (∀ e ∈ es, Fits e.1 e.2) → s.aborted = none →
      s.ctx.code.len ≤ s.ctx.code.cap ∧ ∀ e ∈ es, ∀ off, e.2.compiles = some off →
        ¬ Compiled e.1 off → CodeReachable s.ctx off e.1.code.len (emitted env e)) ?_ ?_ hrun
    · intro _ _
      exact ⟨Nat.zero_le _, nofun⟩
    · rintro es s e s' hrun hI ⟨ctx, c⟩ hfits halive
      obtain ⟨hold, hnew⟩ := List.forall_mem_append.mp hfits
      obtain ⟨hcap, hall⟩ := hI hold rfl
      have hcall : c.run env ctx = ⟨(c.run env ctx).ctx, none⟩ := by
        rw [← halive]
      have hreach :=
        call_reaches (run_tableInv hrun) hcap (hnew _ (List.mem_singleton_self _)) hcall
      refine ⟨hreach.fits, ?_⟩
      rw [List.forall_mem_append, List.forall_mem_singleton]
      exact ⟨fun e he off hoff hnot => hreach.keeps _ _ _ (hall e he off hoff hnot),
        hreach.reaches⟩
  exact (hinv hrun hfits rfl).2

/-- `mov ax, bx`, `HALT`, and behind it `neg cx`, `RET`. -/
def twoBlocks : Nat → Byte := fun p =>
  [Op.movRR.code, 1, Op.halt.code, Op.neg.code, 0x20, Op.ret.code].getD p 0

/-- The second block leaves the pointers of the first where they are. -/
theorem compiled_reachable_two : ∃ es ctx,
    JitRun hostEnv twoBlocks 6 es ⟨ctx, none⟩ ∧
    es.map Prod.snd = [.compileBlock 0, .compileBlock 3] ∧
    ∀ e ∈ es, ∀ off, e.2.compiles = some off →
      CodeReachable ctx off e.1.code.len (emitted hostEnv e) := by
  have hrun : JitRun hostEnv twoBlocks 6 _ ⟨_, none⟩ :=
    Run.next (Run.single (.call (jitCtxNew _ _ _) (.compileBlock 0))) (.call _ (.compileBlock 3))
  refine ⟨_, _, hrun, rfl, fun e he off hoff =>
    compiled_reachable _ _ _ hrun ?_ e he off hoff ?_⟩
  · rw [List.forall_mem_append, List.forall_mem_singleton, List.forall_mem_singleton]
    refine ⟨?_, ?_⟩
    · rintro _ ⟨⟩
      exact .inr (by decide)
    · rintro _ ⟨⟩
      exact .inr (by decide)
  · revert e
    rw [List.forall_mem_append, List.forall_mem_singleton, List.forall_mem_singleton]
    refine ⟨?_, ?_⟩
    · rintro ⟨⟩
      decide
    · rintro ⟨⟩
      decide

/-! ## 6. Growth -/

/-- An emission that does not fit ends in a buffer that was mapped on the way. -/
theorem emit_grows {env : JitEnv} {j : JitBuf} {cs : JitCode} (hlen : j.len ≤ j.cap)
    (h : j.cap < j.len + cs.flatten.length) :
    ∃ k, 0 < k ∧ (jitEmit env j cs).buf = env.mmap (j.cap * 2 ^ k) := by
  have hmapped : ∀ (cs : JitCode) (j : JitBuf) (k : Nat) (cap : Nat), 0 < k →
      j.cap = cap * 2 ^ k → j.buf = env.mmap (cap * 2 ^ k) →
      ∃ k, 0 < k ∧ (jitEmit env j cs).buf = env.mmap (cap * 2 ^ k) := by
    intro cs
    induction cs with
    | nil => exact fun j k cap hk _ hbuf => ⟨k, hk, hbuf⟩
    | cons bs cs ih =>
      intro j k cap hk hcap hbuf
      by_cases hgrow : j.len + bs.length > j.cap
      · refine ih (jitStore env j bs) (k + 1) cap (Nat.succ_pos k) ?_ ?_
        · rw [jitStore, jitBufAlloc, if_pos hgrow, Nat.pow_succ, ← Nat.mul_assoc, ← hcap]
        · rw [jitStore, jitBufAlloc, if_pos hgrow, Nat.pow_succ, ← Nat.mul_assoc, ← hcap]
      · refine ih (jitStore env j bs) k cap hk ?_ ?_
        · rw [jitStore, jitBufAlloc, if_neg hgrow, ← hcap]
        · rw [jitStore, jitBufAlloc, if_neg hgrow, ← hbuf]
  induction cs generalizing j with
  | nil =>
    rw [List.flatten_nil, List.length_nil] at h
    omega
  | cons bs cs ih =>
    by_cases hgrow : j.len + bs.length > j.cap
    · refine hmapped cs (jitStore env j bs) 1 j.cap Nat.one_pos ?_ ?_
      · rw [jitStore, jitBufAlloc, if_pos hgrow, Nat.pow_one]
      · rw [jitStore, jitBufAlloc, if_pos hgrow, Nat.pow_one]
    · have hstore : jitStore env j bs =
          { j with bytes := j.bytes ++ bs, faulted := j.faulted || !j.writable } := by
        rw [jitStore, jitBufAlloc, if_neg hgrow]
      have hnext : (jitStore env j bs).len = j.len + bs.length := by
        rw [hstore, JitBuf.len, List.length_append]
        rfl
      rw [List.flatten_cons, List.length_append] at h
      have hcap : (jitStore env j bs).cap = j.cap := by rw [hstore]
      have hrest := ih (j := jitStore env j bs) (by omega) (by omega)
      rwa [hcap] at hrest

/-- A block whose code does not fit is not reached right after its compilation, when the code
has moved to another address. -/
theorem growth_strands {env : JitEnv} {ctx ctx' : JitCtx} {off : BitVec 32} {p : Word}
    (hinv : TableInv ctx) (hcap : ctx.code.len ≤ ctx.code.cap)
    (hmoved : ∀ k, 0 < k → env.mmap (ctx.code.cap * 2 ^ k) ≠ ctx.code.buf)
    (hnew : ¬ Compiled ctx off)
    (hgrow : ctx.code.cap < ctx.code.len +
      blockSize ctx.bc ctx.bcLen (ctx.bcLen - off.toNat) off.toNat)
    (h : jitCompileBlock env ctx off = .ok p ctx') (bs : List Byte) :
    ¬ CodeReachable ctx' off ctx.code.len bs := by
  rcases jitCompileBlock_ok hinv h with ⟨hcomp, -⟩ | ⟨-, i, ctx₁, hext, hfind, -, hcode, hp, rfl⟩
  · exact absurd hcomp hnew
  · rintro ⟨k, hk, hnative, -⟩
    rw [find_finish, hfind, Option.some.injEq] at hk
    subst hk
    have hi := (find_eq_some hfind).1
    rw [← scan_size ctx₁] at hgrow
    obtain ⟨n, hn, hbuf⟩ := @emit_grows env _ _ hcap hgrow
    have hbuf₁ : (ctx₁.finish i p).code.buf = env.mmap (ctx.code.cap * 2 ^ n) := by
      rw [← hbuf, ← JitCtx.scan, ← hcode]
      rfl
    rw [block_finish ctx₁ i i p hi, if_pos rfl, Option.some.injEq, hbuf₁, hp] at hnative
    exact hmoved n hn ((BitVec.add_left_inj _).mp hnative).symm

/-- `n` moves from `ax` to itself and a `HALT`. -/
def movs (n : Nat) : Nat → Byte := fun p => if p < 2 * n then 0 else Op.halt.code

theorem scan_movs {n i fuel : Nat} (h : i ≤ n) (hfuel : n < i + fuel) :
    (scanBlock (movs n) (2 * n + 1) fuel (2 * i)).2 = .last jitEpilogue ∧
      blockSize (movs n) (2 * n + 1) fuel (2 * i) = 3 * (n - i) + 2 := by
  induction fuel generalizing i with
  | zero => omega
  | succ fuel ih =>
    have hip : 2 * i < 2 * n + 1 := by omega
    rcases Nat.lt_or_ge i n with hlt | hge
    · have hop : Op.ofCode (movs n (2 * i)) = some .movRR := by
        rw [movs, if_pos (by omega)]
        rfl
      obtain ⟨hend, hsize⟩ := ih (i := i + 1) hlt (by omega)
      have hnext : 2 * i + Op.movRR.size = 2 * (i + 1) := rfl
      rw [scanBlock, blockSize, if_pos hip, if_pos hip, hop]
      have hgo : Op.movRR.goesOn = true := rfl
      simp only [jitStraight, hnext, hend, hsize, Op.nativeSize, hgo, if_true, true_and]
      omega
    · obtain rfl : i = n := Nat.le_antisymm h hge
      have hop : Op.ofCode (movs i (2 * i)) = some .halt := by
        rw [movs, if_neg (Nat.lt_irrefl _)]
        rfl
      rw [scanBlock, blockSize, if_pos hip, if_pos hip, hop]
      have hgo : Op.halt.goesOn = false := rfl
      simp only [jitStraight, blockEnd, Op.nativeSize, hgo, true_and]
      simp

/-- A block of more than a mebibyte of native code moves while it is compiled, and its pointers
are left behind. -/
theorem grown_block_unreachable : ¬ ∀ (env : JitEnv) (bc : Nat → Byte) (bcLen : Nat)
    (es : List (JitCtx × JitCall)) (ctx : JitCtx), JitRun env bc bcLen es ⟨ctx, none⟩ →
    ∀ e ∈ es, ∀ off, e.2.compiles = some off → ¬ Compiled e.1 off →
      CodeReachable ctx off e.1.code.len (emitted env e) := by
  intro hall
  have hend := (@scan_movs 350000 0 (2 * 350000 + 1) (by decide)
    (by decide)).1
  obtain ⟨ctx', hcomp, -⟩ := compile_first hostEnv (movs 350000) (2 * 350000 + 1) hend
  have hnew : ¬ Compiled (jitCtxNew hostEnv (movs 350000) (2 * 350000 + 1)) 0 := by
    rintro ⟨i, native, ⟨⟩, -⟩
  have hrun : JitRun hostEnv (movs 350000) (2 * 350000 + 1) _ _ :=
    Run.single (.call (jitCtxNew _ _ _) (.compileBlock 0))
  rw [JitCall.run, hcomp] at hrun
  have hreach := hall _ _ _ _ _ hrun _ (List.mem_singleton_self _) 0 rfl hnew
  have hsize := (@scan_movs 350000 0 (2 * 350000 + 1) (by decide)
    (by decide)).2
  have hcap : (jitCtxNew hostEnv (movs 350000) (2 * 350000 + 1)).code.cap = 1048576 := rfl
  refine growth_strands (run_tableInv .start) (Nat.zero_le _) ?_ hnew ?_ hcomp _ hreach
  · intro k hk
    have hne : 1048576 * 2 ^ k ≠ 1048576 := by
      have := Nat.one_lt_two_pow (by omega : k ≠ 0)
      omega
    have hbuf : (jitCtxNew hostEnv (movs 350000) (2 * 350000 + 1)).code.buf = 0x10000000 := rfl
    rw [hcap, hbuf]
    simp [hostEnv, hne]
  · have hzero : (0 : BitVec 32).toNat = 0 := rfl
    have hbc : (jitCtxNew hostEnv (movs 350000) (2 * 350000 + 1)).bc = movs 350000 := rfl
    have hbcLen : (jitCtxNew hostEnv (movs 350000) (2 * 350000 + 1)).bcLen = 2 * 350000 + 1 :=
      rfl
    rw [Nat.mul_zero] at hsize
    rw [hcap, hbc, hbcLen, hzero, Nat.sub_zero, hsize]
    decide

end Dvm
