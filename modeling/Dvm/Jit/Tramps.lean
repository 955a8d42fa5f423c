/-
# The trampoline table

A shadow-stack frame holds the addresses of trampolines, over any number of compilations.  So the
trampoline of an offset has to stay where it is, and only what is done for its own block may change
it, whatever the functions of the JIT are called for in between.

`JitRun` has no calls of `jit_tramp_patch` but those that `jit_compile_block` makes; a `TrampRun`
has.  After every such run each trampoline has its place in the arena and jumps where it was last
patched to, and before that to its stub (`tramps_sound`).
-/
import Mathlib.Data.List.Nodup
import Dvm.Jit.Compile

namespace Dvm

open Bytes ByteMem X86 Runs

/-! ## 1. Calls -/

inductive TrampCall where
  | call (c : JitCall)
  /-- `jit_tramp_patch` of the trampoline of a block. -/
  | patch (off : BitVec 32) (target : Word)
  deriving DecidableEq, Repr

/-- The block that a call is made for. -/
def TrampCall.block : TrampCall → BitVec 32
  | call (.blockGet off) | call (.trampFor off) | call (.compileBlock off) => off
  | call .entry => 0
  | patch off _ => off

/-- A call, labelled by itself and the context it is made on. -/
inductive TrampStep (env : JitEnv) : JitState → JitCtx × TrampCall → JitState → Prop
  | call (ctx : JitCtx) (c : JitCall) :
      TrampStep env ⟨ctx, none⟩ (ctx, .call c) (c.run env ctx)
  | patch (ctx : JitCtx) {off : BitVec 32} {i : Nat} (target : Word) : ctx.find off = some i →
      TrampStep env ⟨ctx, none⟩ (ctx, .patch off target) ⟨jitTrampPatch ctx i target, none⟩

def TrampRun (env : JitEnv) (bc : Nat → Byte) (bcLen : Nat) :
    List (JitCtx × TrampCall) → JitState → Prop :=
  Run (TrampStep env) ⟨jitCtxNew env bc bcLen, none⟩

/-- Where a call of `jit_compile_block` patches the block's trampoline to, if it does. -/
def compilePatch (env : JitEnv) (ctx : JitCtx) (off : BitVec 32) : Option Word :=
  match jitCompileBlock env ctx off with
  | .error _ _ => none
  | .ok native _ => if Compiled ctx off then none else some native

/-- The trampoline that a call patches, and its new target. -/
def patched (env : JitEnv) (e : JitCtx × TrampCall) : Option Word :=
  match e.2 with
  | .call (.blockGet _) | .call (.trampFor _) => none
  | .call (.compileBlock off) => compilePatch env e.1 off
  | .call .entry => compilePatch env e.1 0
  | .patch _ target => some target

/-- The stub of block `i`. -/
def stubAddr (env : JitEnv) (i : Nat) : Word := env.stubArena + BitVec.ofNat 64 (i * stubSlot)

/-- What the trampoline of `off` was last patched to, or its stub. -/
def lastTarget (env : JitEnv) (es : List (JitCtx × TrampCall)) (off : BitVec 32) (stub : Word) :
    Word :=
  es.foldl (fun t e => if e.2.block = off then (patched env e).getD t else t) stub

theorem lastTarget_snoc (env : JitEnv) (es : List (JitCtx × TrampCall)) (e : JitCtx × TrampCall)
    (off : BitVec 32) (stub : Word) :
    lastTarget env (es ++ [e]) off stub =
      if e.2.block = off then (patched env e).getD (lastTarget env es off stub)
      else lastTarget env es off stub := by
  simp [lastTarget]

/-! ## 2. The table -/

/-- The trampolines after the calls `es`. -/
structure TrampTable (env : JitEnv) (es : List (JitCtx × TrampCall)) (ctx : JitCtx) : Prop where
  inv : TableInv ctx
  distinct : ctx.known.Nodup
  address : ∀ i < ctx.blocks.length,
    (ctx.block i).trampoline = env.trampArena + BitVec.ofNat 64 (i * dvmTrampSize)
  bytes : ∀ i < ctx.blocks.length, field ctx.tramps (i * dvmTrampSize) dvmTrampSize
    = trampInit (lastTarget env es (ctx.block i).bcOffset (stubAddr env i))
  fresh : ∀ off ∉ ctx.known, ∀ stub, lastTarget env es off stub = stub

section

variable {env : JitEnv} {es : List (JitCtx × TrampCall)} {ctx : JitCtx}

theorem trampTable_addBlock {off : BitVec 32} (hnone : ctx.find off = none)
    (hroom : ctx.blocks.length < dvmMaxBlocks) (h : TrampTable env es ctx) :
    TrampTable env es (ctx.addBlock env off) := by
  have hext := @extends_addBlock env ctx off hroom h.inv
  have hnew : off ∉ ctx.known := find_eq_none.mp hnone
  refine ⟨hext.inv, ?_, trampoline_addBlock h.address, fun i hi => ?_, fun off' hoff' => ?_⟩
  · rw [known_addBlock]
    rw [← List.concat_eq_append]
    exact List.Nodup.concat hnew h.distinct
  · rcases lt_addBlock hi with hlt | rfl
    · rw [block_addBlock_of_lt hlt, hext.tramps i hlt]
      exact h.bytes i hlt
    · rw [block_addBlock_self, h.fresh off hnew]
      exact tramps_addBlock_self hroom h.inv
  · rw [known_addBlock, List.mem_append, not_or] at hoff'
    exact h.fresh off' hoff'.1

/-- A call that patches nothing leaves it at the targets there are. -/
theorem TrampTable.unpatched {e : JitCtx × TrampCall} (h : TrampTable env es ctx)
    (hnone : patched env e = none) : TrampTable env (es ++ [e]) ctx := by
  have hsame : ∀ off stub, lastTarget env (es ++ [e]) off stub = lastTarget env es off stub := by
    intro off stub
    rw [lastTarget_snoc, hnone, Option.getD_none, ite_self]
  refine ⟨h.inv, h.distinct, h.address, fun i hi => ?_, fun off hoff stub => ?_⟩
  · rw [hsame]
    exact h.bytes i hi
  · rw [hsame]
    exact h.fresh off hoff stub

/-- A call that patches one trampoline and names no block anew. -/
theorem TrampTable.retarget {e : JitCtx × TrampCall} {ctx' : JitCtx} {i : Nat} {target : Word}
    (h : TrampTable env es ctx) (hfind : ctx.find e.2.block = some i)
    (hpatched : patched env e = some target) (hknown : ctx'.known = ctx.known)
    (haddr : ∀ k < ctx.blocks.length, (ctx'.block k).trampoline = (ctx.block k).trampoline)
    (htramps : ctx'.tramps = patch ctx.tramps (i * dvmTrampSize + 6) (le 8 target.toNat)) :
    TrampTable env (es ++ [e]) ctx' := by
  obtain ⟨hi, hoff⟩ := find_eq_some hfind
  have hfit := h.inv.target_fits hi target
  have hlen : ctx'.blocks.length = ctx.blocks.length := by
    have hlen := congrArg List.length hknown
    rwa [JitCtx.known, JitCtx.known, List.length_map, List.length_map] at hlen
  have hname : ∀ k < ctx.blocks.length, (ctx'.block k).bcOffset = (ctx.block k).bcOffset := by
    intro k hk
    have hsame := known_block (hlen.symm ▸ hk)
    rw [hknown, known_block hk, Option.some.injEq] at hsame
    exact hsame.symm
  refine ⟨⟨hlen ▸ h.inv.few, ?_⟩, hknown ▸ h.distinct, fun k hk => ?_, fun k hk => ?_,
    fun off hnew stub => ?_⟩
  · rw [htramps, length_patch hfit]
    exact h.inv.size
  · rw [hlen] at hk
    rw [haddr k hk]
    exact h.address k hk
  · rw [hlen] at hk
    have hslot : (k + 1) * dvmTrampSize ≤ ctx.tramps.length := by
      rw [h.inv.size]
      exact Nat.mul_le_mul_right _ (Nat.le_trans hk h.inv.few)
    rw [hname k hk, lastTarget_snoc, htramps]
    by_cases hki : k = i
    · subst hki
      rw [if_pos hoff.symm, hpatched, Option.getD_some,
        field_patch_within (by rw [← Nat.succ_mul]; exact hslot) (by simp [dvmTrampSize]),
        h.bytes k hk]
      exact patch_append _ _ _ (by simp)
    · -- another block has another offset
      have hne : e.2.block ≠ (ctx.block k).bcOffset := by
        intro heq
        have hsame := (known_block hk).trans (heq ▸ hoff ▸ (known_block hi).symm)
        have hlt : k < ctx.known.length := by rwa [JitCtx.known, List.length_map]
        exact hki ((List.getElem?_inj hlt h.distinct).mp hsame)
      rw [if_neg hne, ← h.bytes k hk]
      refine field_patch_disjoint hfit ?_
      rw [length_le]
      simp only [dvmTrampSize]
      omega
  · have hne : e.2.block ≠ off := by
      rintro rfl
      rw [hknown] at hnew
      rw [find_eq_none.mpr hnew] at hfind
      cases hfind
    rw [lastTarget_snoc, if_neg hne]
    exact h.fresh off (hknown ▸ hnew) stub

/-- A compilation patches the trampoline of its block, or none. -/
theorem TrampTable.compile {e : JitCtx × TrampCall} {off : BitVec 32} (h : TrampTable env es ctx)
    (hblock : e.2.block = off) (hpatched : patched env e = compilePatch env ctx off) :
    TrampTable env (es ++ [e]) (JitState.ofResult (jitCompileBlock env ctx off)).ctx := by
  rcases jitCompileBlock_effect (fun ctx off h hnone hroom => trampTable_addBlock hnone hroom h)
    (fun ctx cs h => ⟨⟨h.inv.few, h.inv.size⟩, h.distinct, h.address, h.bytes, h.fresh⟩) h off with
    ⟨htable, hold⟩ | ⟨ctx₁, i, p, htable, hfind, hnew, heq⟩
  · refine htable.unpatched ?_
    rw [hpatched, compilePatch]
    cases hres : jitCompileBlock env ctx off with
    | error e ctx' => rfl
    | ok p ctx' => exact if_pos (hold p ctx' hres)
  · rw [heq]
    have hpatch : patched env e = some p := by
      rw [hpatched, compilePatch, heq]
      exact if_neg hnew
    refine htable.retarget (hblock.symm ▸ hfind) hpatch (known_finish ctx₁ i p)
      (fun k hk => ?_) rfl
    show ((ctx₁.finish i p).block k).trampoline = _
    rw [block_finish ctx₁ i k p hk]
    split <;> rfl

theorem TrampTable.step {e : JitCtx × TrampCall} {s s' : JitState} (h : TrampTable env es s.ctx)
    (hs : TrampStep env s e s') : TrampTable env (es ++ [e]) s'.ctx := by
  have hadd : ∀ {fs} ctx off, TrampTable env fs ctx → ctx.find off = none →
      ctx.blocks.length < dvmMaxBlocks → TrampTable env fs (ctx.addBlock env off) :=
    fun ctx off h hnone hroom => trampTable_addBlock hnone hroom h
  cases hs with
  | patch ctx target hfind =>
    exact h.retarget hfind rfl rfl (fun k _ => rfl) rfl
  | call ctx c =>
    cases c with
    | blockGet off => exact (jitBlockGet_keeps hadd h off).unpatched rfl
    | trampFor off => exact (jitTrampFor_keeps hadd h off).unpatched rfl
    | compileBlock off => exact h.compile rfl rfl
    | entry =>
      have hcomp := @TrampTable.compile _ _ _ (ctx, .call .entry) 0 h rfl rfl
      simp only [JitCall.run, jitEntry]
      cases hres : jitCompileBlock env ctx 0 with
      | error e ctx' => rwa [hres] at hcomp
      | ok p ctx' =>
        rw [hres] at hcomp
        exact jitTrampFor_keeps hadd hcomp 0

theorem trampTable_new (env : JitEnv) (bc : Nat → Byte) (bcLen : Nat) :
    TrampTable env [] (jitCtxNew env bc bcLen) where
  inv := ⟨Nat.zero_le _, List.length_replicate⟩
  distinct := List.nodup_nil
  address := fun i hi => absurd hi (Nat.not_lt_zero i)
  bytes := fun i hi => absurd hi (Nat.not_lt_zero i)
  fresh := fun _ _ _ => rfl

/-! ## 3. Blocks stay -/

theorem step_known {e : JitCtx × TrampCall} {s s' : JitState} (hs : TrampStep env s e s') :
    s.ctx.known <+: s'.ctx.known := by
  cases hs with
  | patch ctx target hfind => exact List.prefix_rfl
  | call ctx c =>
    refine @JitCall.run_keeps env (fun ctx' => ctx.known <+: ctx'.known) ?_ ?_ ?_ _
      List.prefix_rfl c
    · intro ctx' off h _ _
      rw [known_addBlock]
      exact h.trans (List.prefix_append _ _)
    · exact fun ctx' cs h => h
    · intro ctx' i start h _
      rwa [known_finish]

theorem run_known {fs : List (JitCtx × TrampCall)} {s s' : JitState}
    (hrun : Run (TrampStep env) s fs s') : s.ctx.known <+: s'.ctx.known :=
  Run.invariant (I := fun _ s' => s.ctx.known <+: s'.ctx.known) List.prefix_rfl
    (fun _ _ _ _ _ h hs => h.trans (step_known hs)) hrun

/-- A block is found where it was. -/
theorem find_of_known {ctx' : JitCtx} (h : ctx.known <+: ctx'.known) {off : BitVec 32} {i : Nat}
    (hfind : ctx.find off = some i) : ctx'.find off = some i := by
  obtain ⟨new, hnew⟩ := h
  rw [find_eq_known] at hfind ⊢
  rw [← hnew, List.findIdx?_append, hfind]
  rfl

theorem jitTrampFor_of_find {off : BitVec 32} {i : Nat} (hfind : ctx.find off = some i) :
    jitTrampFor env ctx off = .ok (ctx.trampOf off) ctx := by
  simp only [jitTrampFor, jitBlockGet, JitCtx.trampOf, hfind]

end

/-! ## 4. Runs -/

/-- What the table of trampolines is for: different offsets have different blocks, each with a
trampoline of its own in the arena that jumps where it was last patched to, and before to its
stub; it is handed out again and again, and calls for other blocks do not touch it. -/
structure TrampsSound (env : JitEnv) (es : List (JitCtx × TrampCall)) (s : JitState) : Prop where
  distinct : s.ctx.known.Nodup
  address : ∀ i < s.ctx.blocks.length,
    (s.ctx.block i).trampoline = env.trampArena + BitVec.ofNat 64 (i * dvmTrampSize)
  inside : ∀ i < s.ctx.blocks.length, ∀ x,
    InBlock (s.ctx.block i).trampoline dvmTrampSize x → InBlock env.trampArena trampCap x
  apart : ∀ i < s.ctx.blocks.length, ∀ j < s.ctx.blocks.length, i ≠ j →
    Apart (s.ctx.block i).trampoline dvmTrampSize (s.ctx.block j).trampoline dvmTrampSize
  jump : ∀ i < s.ctx.blocks.length,
    field s.ctx.tramps (i * dvmTrampSize) 6 = [0xFF, 0x25, 0x00, 0x00, 0x00, 0x00]
  target : ∀ i < s.ctx.blocks.length, field s.ctx.tramps (i * dvmTrampSize + 6) 8
    = le 8 (lastTarget env es (s.ctx.block i).bcOffset (stubAddr env i)).toNat
  stays : ∀ off i, s.ctx.find off = some i → ∀ fs s', Run (TrampStep env) s fs s' →
    jitTrampFor env s'.ctx off = .ok (s.ctx.trampOf off) s'.ctx
  untouched : ∀ e s', TrampStep env s e s' → ∀ i < s.ctx.blocks.length,
    (s.ctx.block i).bcOffset ≠ e.2.block →
      field s'.ctx.tramps (i * dvmTrampSize) dvmTrampSize
        = field s.ctx.tramps (i * dvmTrampSize) dvmTrampSize

theorem run_trampTable {env : JitEnv} {bc : Nat → Byte} {bcLen : Nat}
    {es : List (JitCtx × TrampCall)} {s : JitState} (hrun : TrampRun env bc bcLen es s) :
    TrampTable env es s.ctx :=
  Run.invariant (I := fun es s => TrampTable env es s.ctx) (trampTable_new env bc bcLen)
    (fun _ _ _ _ _ h hs => h.step hs) hrun

/-- Every run of calls leaves the table sound, whatever was compiled on the way and whichever
trampolines were patched from outside.  The arena does not run out: there are as many slots in it
as the table has entries. -/
theorem tramps_sound {env : JitEnv} {bc : Nat → Byte} {bcLen : Nat}
    {es : List (JitCtx × TrampCall)} {s : JitState} (hrun : TrampRun env bc bcLen es s) :
    TrampsSound env es s := by
  have htable := run_trampTable hrun
  have hslot : ∀ i < s.ctx.blocks.length, i * dvmTrampSize + dvmTrampSize ≤ trampCap := by
    intro i hi
    rw [← Nat.succ_mul]
    exact Nat.mul_le_mul_right _ (Nat.le_trans hi htable.inv.few)
  refine ⟨htable.distinct, htable.address, ?_, ?_, ?_, ?_, ?_, ?_⟩
  · intro i hi x hx
    rw [htable.address i hi] at hx
    exact inBlock_of_sub (hslot i hi) (by decide) hx
  · intro i hi j hj hne
    have hi' := hslot i hi
    have hj' := hslot j hj
    rw [htable.address i hi, htable.address j hj]
    intro x hx
    simp only [trampCap, dvmMaxBlocks, dvmTrampSize] at *
    exact not_inBlock_of_sep (by omega) (by omega) (by omega) hx
  · intro i hi
    have hbytes := congrArg (fun bs => field bs 0 6) (htable.bytes i hi)
    simp only [field_field (show 0 + 6 ≤ dvmTrampSize by decide)] at hbytes
    exact hbytes
  · intro i hi
    have hbytes := congrArg (fun bs => field bs 6 8) (htable.bytes i hi)
    simp only [field_field (show 6 + 8 ≤ dvmTrampSize by decide)] at hbytes
    generalize lastTarget env es (s.ctx.block i).bcOffset (stubAddr env i) = target at hbytes ⊢
    have hjump := field_append_self [0xFF, 0x25, 0x00, 0x00, 0x00, 0x00] (le 8 target.toNat)
    rw [length_le] at hjump
    rw [hbytes, trampInit, field_append_left (by simp)]
    exact hjump
  · intro off i hfind fs s' hrun'
    have hfind' := find_of_known (run_known hrun') hfind
    have htable' := run_trampTable (Run.trans hrun hrun')
    rw [jitTrampFor_of_find hfind', JitCtx.trampOf, JitCtx.trampOf, hfind, hfind']
    simp only
    rw [htable.address i (find_eq_some hfind).1, htable'.address i (find_eq_some hfind').1]
  · intro e s' hs i hi hne
    have htable' := htable.step hs
    have hknown := step_known hs
    have hlen := hknown.length_le
    rw [JitCtx.known, JitCtx.known, List.length_map, List.length_map] at hlen
    have hi' : i < s'.ctx.blocks.length := Nat.lt_of_lt_of_le hi hlen
    have hname : (s'.ctx.block i).bcOffset = (s.ctx.block i).bcOffset := by
      obtain ⟨new, hnew⟩ := hknown
      have hsame := known_block hi'
      rw [← hnew, List.getElem?_append_left (by rwa [JitCtx.known, List.length_map]),
        known_block hi, Option.some.injEq] at hsame
      exact hsame.symm
    rw [htable'.bytes i hi', htable.bytes i hi, hname, lastTarget_snoc, if_neg hne.symm]

/-- A trampoline that is handed out, patched from outside, and passed by a compilation. -/
theorem tramps_sound_patched : ∃ es s, TrampRun hostEnv (fun _ => Op.halt.code) 2 es s ∧
    (∃ ctx, (ctx, .patch 1 5) ∈ es) ∧ TrampsSound hostEnv es s := by
  have h₁ : TrampRun hostEnv (fun _ => Op.halt.code) 2 _ ⟨_, none⟩ :=
    Run.single (.call (jitCtxNew _ _ _) (.trampFor 1))
  have h₂ := h₁.next (@TrampStep.patch _ _ 1 0 5 rfl)
  have h₃ := h₂.next (.call _ (.compileBlock 0))
  exact ⟨_, _, h₃, ⟨_, by simp; rfl⟩, tramps_sound h₃⟩

end Dvm
