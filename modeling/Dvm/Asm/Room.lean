/-
# What a source needs of the buffers

The `buf_` functions store without looking at `DVM_BUF_MAX`.  So the assembler leaves a section's
buffer at the first store that takes the section past it, and it comes to one in exactly those
sources that need more (`sectionsBounded_iff`).  The guarded tables matter for that only where one
of them is full before (`Emit.Ready`), and the patches stay inside the text in any case.
-/
import Dvm.Base.Layout
import Dvm.Asm.DataLines
import Dvm.Asm.Undefined

namespace Dvm

open Bytes Table Layout Loops

/-! ## 1. What a section needs -/

/-- The bytes that statements put into a section. -/
def sectionSize (sec : DvmSection) (xs : List SourceStmt) : Nat :=
  if sec = dvmSecCode then total Emit.size (sourceEmits xs) else (sectionBytes sec xs).length

/-- The guarded tables have room for what a reference puts there before its bytes. -/
def Emit.Ready (ctx : AsmCtx) : Emit → Prop
  | .bytes _ => True
  | .codeRef name => (∃ i l, labelFind ctx.labels name = some (i, l) ∧ l.IsCodeDef) ∨
      ctx.patches.length < asmMaxPatches
  | .dataRef name => ctx.rels.length < dvmMaxRels ∧
      (labelFind ctx.labels name = none → ctx.labels.length < asmMaxLabels) ∧
      ((∃ i l, labelFind ctx.labels name = some (i, l) ∧ 0 ≤ l.offset) ∨
        ctx.patches.length < asmMaxPatches)
  | .stop _ => False

/-- The assembler comes to a store of the statement that takes its section past `DVM_BUF_MAX`;
`before` are the statements before it and `c` is the context that they leave. -/
def SourceStmt.Overfills (x : SourceStmt) (before : List SourceStmt) (c : AsmCtx) : Prop :=
  match x.stmt with
  | .data bs => dvmBufMax < sectionSize x.sec before + bs.length
  | .code _ es => ∃ es₁ e es₂ c₁, es = es₁ ++ e :: es₂ ∧
      es₁.foldlM (doEmit x.line) c = .ok c₁ ∧ e.Ready c₁ ∧
      dvmBufMax < sectionSize dvmSecCode before + total Emit.size es₁ + e.size
  | _ => False

/-- As far as the assembler gets, the source needs more than a section's buffer holds. -/
def NeedsMore (xs : List SourceStmt) : Prop :=
  ∃ (before : List SourceStmt) (x : SourceStmt) (after : List SourceStmt) (c : AsmCtx),
    xs = before ++ x :: after ∧ before.foldlM doSource .init = .ok c ∧ x.Overfills before c

/-- The assembler comes to a string literal that runs on past the end of the line buffer. -/
def LiteralOverrun (xs : List SourceStmt) : Prop :=
  ∃ (before : List SourceStmt) (x : SourceStmt) (after : List SourceStmt) (c : AsmCtx),
    xs = before ++ x :: after ∧ before.foldlM doSource .init = .ok c ∧ x.stmt = .stop .overrun

/-- `asm_compile` does not leave the buffer of a section, and rejects a source that needs more. -/
structure SectionsBounded (env : AsmEnv) (src : List Byte) : Prop where
  inside : asmCompile env src = .error .overrun → LiteralOverrun (sourceLines env src).flatten
  rejected : NeedsMore (sourceLines env src).flatten →
    ∃ err, asmCompile env src = .error (.fail err)

/-! ## 2. How the assembler stops -/

theorem doStmt_error {st : AsmState} {s : Stmt} {why : AsmStop} (h : doStmt st s = .error why) :
    doSource st.ctx ⟨st.lineno, st.cursec, s⟩ = .error why := by
  unfold doStmt at h
  rw [doSource_eq]
  cases hs : doStmtCtx st s with
  | error e =>
    rw [hs] at h
    cases h
    rfl
  | ok ctx =>
    rw [hs] at h
    cases h

theorem foldlM_doStmt_error {ss : List Stmt} {st : AsmState} {why : AsmStop}
    (h : ss.foldlM doStmt st = .error why) :
    (st.reader.place ss).foldlM doSource st.ctx = .error why := by
  induction ss generalizing st with
  | nil => cases h
  | cons s ss ih =>
    rw [List.foldlM_cons, bind_error_iff] at h
    rw [Reader.place, List.foldlM_cons, bind_error_iff]
    rcases h with h | ⟨st₁, h₁, h₂⟩
    · exact .inl (doStmt_error h)
    · obtain ⟨hctx, hrd⟩ := doStmt_ok h₁
      exact .inr ⟨st₁.ctx, hctx, hrd ▸ ih h₂⟩

theorem foldlM_asmLine_error {env : AsmEnv} {lines : List (List Byte)} {st : AsmState}
    {why : AsmStop} (h : lines.foldlM (asmLine env) st = .error why) :
    (readLines env st.reader lines).flatten.foldlM doSource st.ctx = .error why := by
  induction lines generalizing st with
  | nil => cases h
  | cons line lines ih =>
    rw [List.foldlM_cons, bind_error_iff] at h
    rw [readLines, List.flatten_cons, foldlM_append_error_iff]
    rcases h with h | ⟨st₁, h₁, h₂⟩
    · exact .inl (foldlM_doStmt_error h)
    · obtain ⟨hctx, hrd⟩ := asmLine_ok h₁
      exact .inr ⟨st₁.ctx, hctx, hrd ▸ ih h₂⟩

/-- The assembler carries out the statements of the source and resolves the patches. -/
theorem asmCompile_eq_sourceLines (env : AsmEnv) (src : List Byte) :
    asmCompile env src
      = (sourceLines env src).flatten.foldlM doSource .init >>= patchesResolve := by
  unfold asmCompile
  cases hl : (splitLines src).foldlM (asmLine env) (.init env) with
  | error why =>
    have herr := foldlM_asmLine_error hl
    show _ = (readLines env (AsmState.init env).reader (splitLines src)).flatten.foldlM doSource
      (AsmState.init env).ctx >>= patchesResolve
    rw [herr]
    rfl
  | ok st =>
    have hok := foldlM_asmLine_ok hl
    show _ = (readLines env (AsmState.init env).reader (splitLines src)).flatten.foldlM doSource
      (AsmState.init env).ctx >>= patchesResolve
    rw [hok]
    rfl

/-! ## 3. One emission -/

section Emissions

variable {ctx : AsmCtx} {name : CStr} {line : Nat}

theorem bufPut_overrun_iff {b : Buf} {bs : List Byte} :
    bufPut b bs = .error .overrun ↔ dvmBufMax < b.bytes.length + bs.length := by
  unfold bufPut
  by_cases hfit : (b.bytes ++ bs).length ≤ dvmBufMax
  · simp only [dif_pos hfit, reduceCtorEq, false_iff, Nat.not_lt]
    rwa [List.length_append] at hfit
  · simp only [dif_neg hfit, true_iff]
    rw [List.length_append] at hfit
    exact Nat.lt_of_not_le hfit

theorem putText_overrun_iff {bs : List Byte} :
    ctx.putText bs = .error .overrun ↔ dvmBufMax < ctx.text.bytes.length + bs.length := by
  rw [← bufPut_overrun_iff]
  unfold AsmCtx.putText
  cases bufPut ctx.text bs with
  | error e => simp
  | ok b => simp

theorem addPatch_ok_iff {p : AsmPatch} {ctx' : AsmCtx} :
    ctx.addPatch p = .ok ctx' ↔ ctx.patches.length < asmMaxPatches ∧
      ctx' = { ctx with patches := ctx.patches ++ [p] } := by
  unfold AsmCtx.addPatch
  by_cases hfull : asmMaxPatches ≤ ctx.patches.length
  · simp [hfull, Nat.not_lt.mpr hfull]
  · simp [hfull, Nat.lt_of_not_le hfull, eq_comm]

section OnlyExits

variable {α β : Type}

/-- Whatever goes wrong ends the process. -/
def OnlyExits (x : Except AsmStop α) : Prop := ∀ w, x = .error w → ∃ why, w = .exit why

theorem OnlyExits.ok (a : α) : OnlyExits (.ok a) := nofun

theorem OnlyExits.exit (why : AsmError) : OnlyExits (.error (.exit why) : Except AsmStop α) := by
  rintro w ⟨⟩
  exact ⟨why, rfl⟩

/-- An error that is passed on. -/
theorem OnlyExits.passOn {x : Except AsmStop α} (h : OnlyExits x) {e : AsmStop}
    (he : x = .error e) : OnlyExits (.error e : Except AsmStop β) := by
  rintro w ⟨⟩
  exact h e he

theorem OnlyExits.ne_overrun {x : Except AsmStop α} (h : OnlyExits x) : x ≠ .error .overrun := by
  intro hx
  obtain ⟨why, hwhy⟩ := h _ hx
  cases hwhy

theorem OnlyExits.of_not_ok {x : Except AsmStop α} (h : OnlyExits x) (hx : ¬ ∃ a, x = .ok a) :
    ∃ why, x = .error (.exit why) := by
  cases x with
  | ok a => exact absurd ⟨a, rfl⟩ hx
  | error w =>
    obtain ⟨why, rfl⟩ := h w rfl
    exact ⟨why, rfl⟩

end OnlyExits

theorem addPatch_onlyExits (p : AsmPatch) : OnlyExits (ctx.addPatch p) := by
  unfold AsmCtx.addPatch
  split
  · exact .exit _
  · exact .ok _

theorem labelDefine_onlyExits {labels : List AsmLabel} {flags : Byte} {sec : DvmSection}
    {off : Int} : OnlyExits (labelDefine labels name flags sec off) := by
  unfold labelDefine
  repeat' split
  all_goals first
    | exact .ok _
    | exact .exit _

theorem symIndex_onlyExits (labels : List AsmLabel) : OnlyExits (symIndex labels name) := by
  unfold symIndex
  split
  · exact .ok _
  · split
    · next he => exact labelDefine_onlyExits.passOn he
    · exact .ok _

theorem addRel_onlyExits (pos : Nat) (kind : Byte) : OnlyExits (ctx.addRel pos name kind) := by
  unfold AsmCtx.addRel
  split
  · exact .exit _
  · split
    · next he => exact (symIndex_onlyExits _).passOn he
    · exact .ok _

theorem labelRefCode_overrun_iff :
    labelRefCode ctx name line = .error .overrun ↔
      (Emit.codeRef name).Ready ctx ∧ dvmBufMax < ctx.text.bytes.length + 4 := by
  by_cases hdef : ∃ i l, labelFind ctx.labels name = some (i, l) ∧ l.IsCodeDef
  · obtain ⟨i, l, hf, hl⟩ := hdef
    rw [labelRefCode_of_def hf hl, putText_overrun_iff, length_offsetBytes]
    exact (and_iff_right (.inl ⟨i, l, hf, hl⟩)).symm
  · rw [labelRefCode_of_not_def hdef]
    refine bind_error_iff.trans ?_
    rw [or_iff_right (addPatch_onlyExits _).ne_overrun]
    constructor
    · rintro ⟨c, hpatch, h⟩
      obtain ⟨hlen, rfl⟩ := addPatch_ok_iff.mp hpatch
      rcases bind_error_iff.mp h with hover | ⟨c', -, hrel⟩
      · exact ⟨.inr hlen, putText_overrun_iff.mp hover⟩
      · split at hrel
        · exact absurd hrel (addRel_onlyExits _ _).ne_overrun
        · cases hrel
    · rintro ⟨hready, hover⟩
      exact ⟨_, addPatch_ok_iff.mpr ⟨hready.resolve_left hdef, rfl⟩,
        bind_error_iff.mpr (.inl (putText_overrun_iff.mpr hover))⟩

theorem symIndex_isOk_iff {labels : List AsmLabel} :
    (∃ k labels', symIndex labels name = .ok (k, labels')) ↔
      (labelFind labels name = none → labels.length < asmMaxLabels) := by
  unfold symIndex
  cases hf : labelFind labels name with
  | some x => simp
  | none =>
    simp only [labelDefine, hf, forall_const]
    by_cases hfull : asmMaxLabels ≤ labels.length
    · simp [hfull, Nat.not_lt.mpr hfull]
    · simp [hfull, Nat.lt_of_not_le hfull]

/-- The label that `sym_index` has found or made is undefined unless it was defined before. -/
theorem symIndex_undefined {labels labels' : List AsmLabel} {k : Nat}
    (h : symIndex labels name = .ok (k, labels')) :
    (((labelFind labels' name).map Prod.snd).all fun l => l.offset < 0) = true ↔
      ¬ ∃ i l, labelFind labels name = some (i, l) ∧ 0 ≤ l.offset := by
  rcases symIndex_ok h with ⟨l, hf, rfl⟩ | ⟨hnone, -, -, rfl⟩
  · simp [hf]
  · have hf : labelFind (labels ++ [⟨name, dvmSymExtern, dvmSecNone, -1⟩]) name
        = some (labels.length, ⟨name, dvmSymExtern, dvmSecNone, -1⟩) := by
      rw [labelFind, find_append_of_none hnone]
      simp [find]
    simp [hf, hnone]

theorem addRel_ok_iff {pos : Nat} {kind : Byte} {ctx' : AsmCtx} :
    ctx.addRel pos name kind = .ok ctx' ↔ ctx.rels.length < dvmMaxRels ∧
      ∃ k labels', symIndex ctx.labels name = .ok (k, labels') ∧
        ctx' = { ctx with
          labels := labels'
          rels := ctx.rels ++ [⟨BitVec.ofNat 32 pos, BitVec.ofNat 32 k, kind⟩] } := by
  constructor
  · intro h
    refine ⟨?_, addRel_ok h⟩
    by_contra hfull
    rw [AsmCtx.addRel, if_pos (Nat.le_of_not_lt hfull)] at h
    cases h
  · rintro ⟨hlen, k, labels', hs, rfl⟩
    rw [AsmCtx.addRel, if_neg (Nat.not_le.mpr hlen), hs]

theorem addRel_isOk_iff {pos : Nat} {kind : Byte} :
    (∃ c, ctx.addRel pos name kind = .ok c) ↔ ctx.rels.length < dvmMaxRels ∧
      (labelFind ctx.labels name = none → ctx.labels.length < asmMaxLabels) := by
  simp only [addRel_ok_iff, ← symIndex_isOk_iff]
  constructor
  · rintro ⟨c, hrels, k, labels, hs, -⟩
    exact ⟨hrels, k, labels, hs⟩
  · rintro ⟨hrels, k, labels, hs⟩
    exact ⟨_, hrels, k, labels, hs, rfl⟩

/-- Behind the relocation there is a patch, unless the label is defined. -/
theorem labelRefData_of_rel (line : Nat) {k : Nat} {labels' : List AsmLabel}
    (hrels : ctx.rels.length < dvmMaxRels) (hs : symIndex ctx.labels name = .ok (k, labels')) :
    ∃ c : AsmCtx, c.text = ctx.text ∧ c.patches = ctx.patches ∧
      ((∃ i l, labelFind ctx.labels name = some (i, l) ∧ 0 ≤ l.offset) →
        labelRefData ctx name line = c.putText (le 8 0)) ∧
      ((¬ ∃ i l, labelFind ctx.labels name = some (i, l) ∧ 0 ≤ l.offset) →
        labelRefData ctx name line
          = (c.addPatch ⟨name, ctx.text.bytes.length, true, line⟩).bind (·.putText (le 8 0))) := by
  obtain ⟨c, hrel⟩ : ∃ c, ctx.addRel ctx.text.bytes.length name dvmRelData = .ok c :=
    ⟨_, addRel_ok_iff.mpr ⟨hrels, k, labels', hs, rfl⟩⟩
  obtain ⟨-, k', labels'', hs', hc⟩ := addRel_ok_iff.mp hrel
  obtain ⟨rfl, rfl⟩ := Prod.mk.inj (Except.ok.inj (hs.symm.trans hs'))
  have hlabels : c.labels = labels' := by rw [hc]
  rw [← hlabels] at hs
  refine ⟨c, by rw [hc], by rw [hc], fun hdef => ?_, fun hdef => ?_⟩
  · rw [labelRefData, hrel]
    exact if_neg fun hall => (symIndex_undefined hs).mp hall hdef
  · rw [labelRefData, hrel]
    exact if_pos ((symIndex_undefined hs).mpr hdef)

/-- Where the tables have room, the bytes are put down. -/
theorem labelRefData_of_ready (line : Nat) (h : (Emit.dataRef name).Ready ctx) :
    ∃ c : AsmCtx, c.text = ctx.text ∧ labelRefData ctx name line = c.putText (le 8 0) := by
  obtain ⟨hrels, hlabels, hroom⟩ := h
  obtain ⟨k, labels', hs⟩ := symIndex_isOk_iff.mpr hlabels
  obtain ⟨c, htext, hpatches, hdefined, hundefined⟩ := labelRefData_of_rel line hrels hs
  by_cases hdef : ∃ i l, labelFind ctx.labels name = some (i, l) ∧ 0 ≤ l.offset
  · exact ⟨c, htext, hdefined hdef⟩
  · have hlen := hroom.resolve_left hdef
    rw [← hpatches] at hlen
    obtain ⟨c', hc'⟩ : ∃ c', c.addPatch ⟨name, ctx.text.bytes.length, true, line⟩ = .ok c' :=
      ⟨_, addPatch_ok_iff.mpr ⟨hlen, rfl⟩⟩
    refine ⟨c', ?_, ?_⟩
    · obtain ⟨-, rfl⟩ := addPatch_ok_iff.mp hc'
      exact htext
    · rw [hundefined hdef, hc']
      rfl

/-- And where they have none, the process ends. -/
theorem labelRefData_of_not_ready (line : Nat) (h : ¬ (Emit.dataRef name).Ready ctx) :
    ∃ why, labelRefData ctx name line = .error (.exit why) := by
  by_cases hrel : ∃ c, ctx.addRel ctx.text.bytes.length name dvmRelData = .ok c
  · obtain ⟨hrels, hlabels⟩ := addRel_isOk_iff.mp hrel
    obtain ⟨hdef, hlen⟩ := not_or.mp fun hroom => h ⟨hrels, hlabels, hroom⟩
    obtain ⟨k, labels', hs⟩ := symIndex_isOk_iff.mpr hlabels
    obtain ⟨c, -, hpatches, -, hundefined⟩ := labelRefData_of_rel line hrels hs
    rw [← hpatches] at hlen
    have hfull : ¬ ∃ c', c.addPatch ⟨name, ctx.text.bytes.length, true, line⟩ = .ok c' := by
      rintro ⟨c', hc'⟩
      exact hlen (addPatch_ok_iff.mp hc').1
    obtain ⟨why, hwhy⟩ := (addPatch_onlyExits _).of_not_ok hfull
    rw [hundefined hdef, hwhy]
    exact ⟨why, rfl⟩
  · obtain ⟨why, hwhy⟩ := (addRel_onlyExits _ _).of_not_ok hrel
    rw [labelRefData, hwhy]
    exact ⟨why, rfl⟩

theorem labelRefData_overrun_iff :
    labelRefData ctx name line = .error .overrun ↔
      (Emit.dataRef name).Ready ctx ∧ dvmBufMax < ctx.text.bytes.length + 8 := by
  by_cases hready : (Emit.dataRef name).Ready ctx
  · obtain ⟨c, htext, hc⟩ := labelRefData_of_ready line hready
    rw [hc, putText_overrun_iff, htext, length_le]
    exact (and_iff_right hready).symm
  · obtain ⟨why, hwhy⟩ := labelRefData_of_not_ready line hready
    rw [hwhy]
    exact iff_of_false (by simp) fun h => hready h.1

theorem doEmit_overrun_iff {e : Emit} (he : e ≠ .stop .overrun) :
    doEmit line ctx e = .error .overrun ↔
      e.Ready ctx ∧ dvmBufMax < ctx.text.bytes.length + e.size := by
  cases e with
  | bytes bs => exact putText_overrun_iff.trans (and_iff_right trivial).symm
  | codeRef name => exact labelRefCode_overrun_iff
  | dataRef name => exact labelRefData_overrun_iff
  | stop why =>
    constructor
    · rintro ⟨⟩
      exact absurd rfl he
    · rintro ⟨⟨⟩, -⟩

end Emissions

/-! ## 4. What an instruction emits -/

/-- No emission stands for an overrun of the line buffer. -/
def NoOverrun (es : List Emit) : Prop := .stop .overrun ∉ es

section Reading

variable {line : Nat} {p : List Byte}

theorem NoOverrun.stop {why : AsmStop} (h : why ≠ .overrun) : NoOverrun [.stop why] := by
  intro hmem
  cases List.mem_singleton.mp hmem
  exact h rfl

theorem NoOverrun.cons {e : Emit} {es : List Emit} (he : e ≠ .stop .overrun) (h : NoOverrun es) :
    NoOverrun (e :: es) := by
  intro hmem
  rcases List.mem_cons.mp hmem with heq | hmem
  · exact he heq.symm
  · exact h hmem

theorem NoOverrun.ite {c : Prop} [Decidable c] {es fs : List Emit} (h : NoOverrun es)
    (hf : NoOverrun fs) : NoOverrun (if c then es else fs) := by
  split
  · exact h
  · exact hf

theorem reqReg_noOverrun {s : CStr} {k : Reg → List Emit} (h : ∀ r, NoOverrun (k r)) :
    NoOverrun (reqReg line s k) := by
  unfold reqReg
  cases parseReg s with
  | some r => exact h r
  | none => exact .stop (by simp)

theorem reqFpreg_noOverrun {s : CStr} {k : Reg → List Emit} (h : ∀ r, NoOverrun (k r)) :
    NoOverrun (reqFpreg line s k) := by
  unfold reqFpreg
  cases parseFpreg s with
  | some r => exact h r
  | none => exact .stop (by simp)

theorem reqMem_noOverrun {s : CStr} {why : AsmStop} {k : Reg → List Emit} (hwhy : why ≠ .overrun)
    (h : ∀ r, NoOverrun (k r)) : NoOverrun (reqMem s why k) := by
  unfold reqMem
  cases parseMem s with
  | some r => exact h r
  | none => exact .stop hwhy

theorem expectComma_onlyExits : OnlyExits (expectComma p line) := by
  unfold expectComma
  repeat' split
  all_goals first
    | exact .ok _
    | exact .exit _

theorem NoOverrun.comma {why : AsmStop} (hc : expectComma p line = .error why) :
    NoOverrun [.stop why] :=
  .stop fun heq => expectComma_onlyExits.ne_overrun (heq ▸ hc)

theorem operands₂_noOverrun {k : CStr → CStr → List Emit} (h : ∀ a b, NoOverrun (k a b)) :
    NoOverrun (operands₂ line p k) := by
  unfold operands₂
  cases hc : expectComma (readTok asmLabelLen p).2 line with
  | error why =>
    simp only [hc]
    exact .comma hc
  | ok q =>
    simp only [hc]
    exact h _ _

theorem sizedLoadOperands_noOverrun {k : CStr → CStr → CStr → List Emit}
    (h : ∀ a size b, NoOverrun (k a size b)) : NoOverrun (sizedLoadOperands line p k) := by
  unfold sizedLoadOperands
  cases hc : expectComma (readTok asmLabelLen p).2 line with
  | error why =>
    simp only [hc]
    exact .comma hc
  | ok q =>
    simp only [hc]
    exact h _ _ _

theorem emitMem_noOverrun {op opOff : Op} {d s : Reg} {off : BitVec 32} :
    NoOverrun (emitMem op opOff d s off) := by
  unfold emitMem NoOverrun
  split <;> simp [emitOp, emitRegs, emitI32]

theorem mov_noOverrun (strtod : Strtod) {equs : List AsmEqu} :
    NoOverrun (parseForm strtod equs line .mov p) := by
  unfold parseForm
  refine operands₂_noOverrun fun a b => ?_
  cases parseMem a with
  | some md => exact reqReg_noOverrun fun rs => emitMem_noOverrun
  | none =>
    cases parseMem b with
    | some ms => exact reqReg_noOverrun fun rd => emitMem_noOverrun
    | none =>
      refine reqReg_noOverrun fun rd => ?_
      cases parseReg b with
      | some rs => simp [NoOverrun, emitOp, emitRegs]
      | none =>
        refine .ite (by simp [NoOverrun, emitOp, emitRegs]) (.ite ?_ (.stop (by simp)))
        simp [NoOverrun, emitOp, emitRegs, emitU64]

theorem sizedLoad_noOverrun (strtod : Strtod) (equs : List AsmEqu)
    {op8 op16 op32 op8Off op16Off op32Off : Op} :
    NoOverrun (parseForm strtod equs line (.sizedLoad op8 op16 op32 op8Off op16Off op32Off) p) := by
  unfold parseForm
  refine sizedLoadOperands_noOverrun fun a size b => reqReg_noOverrun fun rd =>
    reqMem_noOverrun (by simp) fun rs => ?_
  exact .ite emitMem_noOverrun (.ite emitMem_noOverrun (.ite emitMem_noOverrun (.stop (by simp))))

theorem parseForm_noOverrun {strtod : Strtod} {equs : List AsmEqu} {form : Form} :
    NoOverrun (parseForm strtod equs line form p) := by
  have hop : ∀ op, emitOp op ≠ .stop .overrun := by simp [emitOp]
  have hregs : ∀ d s, NoOverrun [emitRegs d s] := by simp [NoOverrun, emitRegs]
  unfold parseForm
  cases form with
  | mov => exact mov_noOverrun strtod
  | sizedStore op opOff =>
    exact operands₂_noOverrun fun a b => reqReg_noOverrun fun rs =>
      reqMem_noOverrun (by simp) fun rd => emitMem_noOverrun
  | sizedLoad => exact sizedLoad_noOverrun strtod equs
  | alu2 op =>
    exact operands₂_noOverrun fun a b =>
      .cons (hop _) (reqReg_noOverrun fun rd => reqReg_noOverrun fun rs => hregs rd rs)
  | alu1 op => exact .cons (hop _) (reqReg_noOverrun fun rd => hregs rd 0)
  | jmp1 op => simp [NoOverrun, emitOp]
  | enter => simp [NoOverrun, emitOp]
  | bare op => simp [NoOverrun, emitOp]
  | call => exact operands₂_noOverrun fun ok err => by simp [NoOverrun, emitOp]
  | falu2 op =>
    exact operands₂_noOverrun fun a b =>
      .cons (hop _) (reqFpreg_noOverrun fun rd => reqFpreg_noOverrun fun rs => hregs rd rs)
  | fmovi =>
    exact operands₂_noOverrun fun a b =>
      .cons (hop _) (reqFpreg_noOverrun fun rd => by simp [NoOverrun, emitRegs, emitU64])
  | fmovm =>
    exact operands₂_noOverrun fun a b => reqMem_noOverrun (by simp) fun rs =>
      .cons (hop _) (reqFpreg_noOverrun fun rd => hregs rd rs)
  | fmovs =>
    exact operands₂_noOverrun fun a b => reqMem_noOverrun (by simp) fun rd =>
      .cons (hop _) (reqFpreg_noOverrun fun rs => hregs rd rs)
  | itof =>
    exact operands₂_noOverrun fun a b =>
      .cons (hop _) (reqFpreg_noOverrun fun rd => reqReg_noOverrun fun rs => hregs rd rs)
  | ftoi =>
    exact operands₂_noOverrun fun a b =>
      .cons (hop _) (reqReg_noOverrun fun rd => reqFpreg_noOverrun fun rs => hregs rd rs)
  | callr =>
    exact operands₂_noOverrun fun a err =>
      reqReg_noOverrun fun rd => by simp [NoOverrun, emitOp, emitRegs]
  | lea =>
    exact operands₂_noOverrun fun a b => reqReg_noOverrun fun rd =>
      reqMem_noOverrun (by simp) fun rs => by simp [NoOverrun, emitOp, emitRegs, emitI32]

end Reading

/-! ## 5. Statements -/

section Statements

variable {ctx ctx' : AsmCtx}

theorem foldlM_doEmit_length {line : Nat} {es : List Emit}
    (h : es.foldlM (doEmit line) ctx = .ok ctx') :
    ctx'.text.bytes.length = ctx.text.bytes.length + total Emit.size es := by
  induction es generalizing ctx with
  | nil =>
    cases h
    rfl
  | cons e es ih =>
    obtain ⟨c₁, h₁, h₂⟩ := foldlM_cons_ok_iff.mp h
    rw [ih h₂, (doEmit_ok h₁).length, total_cons, Nat.add_assoc]

/-- A section holds the bytes of the statements carried out. -/
theorem length_secBuf {xs : List SourceStmt} {c : AsmCtx} {sec : DvmSection}
    (hxs : ∀ x ∈ xs, IsSec x.sec ∧ x.stmt.ReadIn x.sec) (h : xs.foldlM doSource .init = .ok c)
    (hsec : IsSec sec) : (c.secBuf sec).bytes.length = sectionSize sec xs := by
  have hdata : ∀ {s : DvmSection}, IsDataSec s →
      (c.secBuf s).bytes.length = (sectionBytes s xs).length := by
    intro s hs
    rw [foldlM_doSource_secBuf hs h]
    rcases hs with rfl | rfl <;> rfl
  rcases hsec with rfl | rfl | rfl
  · exact hdata (.inl rfl)
  · exact hdata (.inr rfl)
  · exact (assembled_sources hxs h).1.length

theorem withLabels_onlyExits {ls : Except AsmStop (List AsmLabel)} (h : OnlyExits ls) :
    OnlyExits (ctx.withLabels ls) := by
  unfold AsmCtx.withLabels
  split
  · exact h.passOn rfl
  · exact .ok _

theorem putData_overrun_iff {cursec : DvmSection} {bs : List Byte} :
    putData ctx cursec bs = .error .overrun ↔
      dvmBufMax < (ctx.secBuf cursec).bytes.length + bs.length := by
  rw [← bufPut_overrun_iff]
  unfold putData
  cases bufPut (ctx.secBuf cursec) bs with
  | error e => simp
  | ok b => simp

theorem globalLabel_onlyExits {labels : List AsmLabel} {name : CStr} {cursec : DvmSection} :
    OnlyExits (globalLabel labels name cursec) := by
  unfold globalLabel
  split
  · exact .ok _
  · exact labelDefine_onlyExits

/-- A statement leaves a buffer if it takes its section past the bound, or if reading it did. -/
theorem doSource_overrun_iff {before : List SourceStmt} {x : SourceStmt} {c : AsmCtx}
    (hxs : ∀ y ∈ before, IsSec y.sec ∧ y.stmt.ReadIn y.sec)
    (hx : IsSec x.sec ∧ x.stmt.ReadIn x.sec) (h : before.foldlM doSource .init = .ok c) :
    doSource c x = .error .overrun ↔ x.Overfills before c ∨ x.stmt = .stop .overrun := by
  obtain ⟨line, sec, s⟩ := x
  obtain ⟨hsec, hread⟩ := hx
  have hother : doStmtCtx ⟨c, sec, line, []⟩ s ≠ .error .overrun →
      ¬ SourceStmt.Overfills ⟨line, sec, s⟩ before c → s ≠ .stop .overrun →
      (doSource c ⟨line, sec, s⟩ = .error .overrun ↔
        SourceStmt.Overfills ⟨line, sec, s⟩ before c ∨ s = .stop .overrun) :=
    fun hne hno hs => ⟨fun heq => absurd heq hne, fun hor => (hor.elim hno hs).elim⟩
  cases s with
  | sect sec' => exact hother (by simp [doStmtCtx]) id (by simp)
  | equ name v => exact hother (by simp [doStmtCtx]) id (by simp)
  | globalDir name =>
    exact hother (withLabels_onlyExits globalLabel_onlyExits).ne_overrun id (by simp)
  | externDir name =>
    exact hother (withLabels_onlyExits labelDefine_onlyExits).ne_overrun id (by simp)
  | label name =>
    exact hother (withLabels_onlyExits labelDefine_onlyExits).ne_overrun id (by simp)
  | data bs =>
    rw [doSource, doStmtCtx, putData_overrun_iff, length_secBuf hxs h hsec]
    exact (or_iff_left (by simp)).symm
  | code mnem es =>
    obtain ⟨form, -, strtod, equs, line', p, hes⟩ := hread
    have hno : NoOverrun es := hes ▸ parseForm_noOverrun
    have htext : c.text.bytes.length = sectionSize dvmSecCode before :=
      length_secBuf hxs h (.inr (.inr rfl))
    rw [doSource, doStmtCtx, foldlM_error_iff, or_iff_left (by simp)]
    constructor
    · rintro ⟨es₁, e, es₂, c₁, rfl, h₁, herr⟩
      have he : e ≠ .stop .overrun := fun heq => hno (heq ▸ by simp)
      obtain ⟨hready, hover⟩ := (doEmit_overrun_iff he).mp herr
      rw [foldlM_doEmit_length h₁, htext] at hover
      exact ⟨es₁, e, es₂, c₁, rfl, h₁, hready, hover⟩
    · rintro ⟨es₁, e, es₂, c₁, rfl, h₁, hready, hover⟩
      have he : e ≠ .stop .overrun := fun heq => hno (heq ▸ by simp)
      rw [← htext, ← foldlM_doEmit_length h₁] at hover
      exact ⟨es₁, e, es₂, c₁, rfl, h₁, (doEmit_overrun_iff he).mpr ⟨hready, hover⟩⟩
  | stop why =>
    constructor
    · rintro ⟨⟩
      exact .inr rfl
    · rintro (⟨⟨⟩⟩ | ⟨⟨⟩⟩)
      rfl

end Statements

/-! ## 6. The result -/

theorem sources_overrun_iff (env : AsmEnv) (src : List Byte) :
    (sourceLines env src).flatten.foldlM doSource .init = .error .overrun ↔
      NeedsMore (sourceLines env src).flatten ∨ LiteralOverrun (sourceLines env src).flatten := by
  have hread := sourceLines_readIn env src
  generalize (sourceLines env src).flatten = xs at hread
  rw [foldlM_error_iff]
  constructor
  · rintro ⟨before, x, after, c, rfl, hbefore, herr⟩
    obtain ⟨hxs, hx, -⟩ := List.forall_mem_append.mp hread |>.imp_right List.forall_mem_cons.mp
    rcases (doSource_overrun_iff hxs hx hbefore).mp herr with hover | hlit
    · exact .inl ⟨before, x, after, c, rfl, hbefore, hover⟩
    · exact .inr ⟨before, x, after, c, rfl, hbefore, hlit⟩
  · have hstep : ∀ {before after : List SourceStmt} {x : SourceStmt} {c : AsmCtx},
        xs = before ++ x :: after → before.foldlM doSource .init = .ok c →
        x.Overfills before c ∨ x.stmt = .stop .overrun → doSource c x = .error .overrun := by
      rintro before after x c rfl hbefore hcase
      obtain ⟨hxs, hx, -⟩ := List.forall_mem_append.mp hread |>.imp_right List.forall_mem_cons.mp
      exact (doSource_overrun_iff hxs hx hbefore).mpr hcase
    rintro (⟨before, x, after, c, heq, hbefore, hover⟩ | ⟨before, x, after, c, heq, hbefore, hlit⟩)
    · exact ⟨before, x, after, c, heq, hbefore, hstep heq hbefore (.inl hover)⟩
    · exact ⟨before, x, after, c, heq, hbefore, hstep heq hbefore (.inr hlit)⟩

/-- The patches stay inside the text, so only a statement can leave a buffer. -/
theorem asmCompile_overrun_iff (env : AsmEnv) (src : List Byte) :
    asmCompile env src = .error .overrun ↔
      NeedsMore (sourceLines env src).flatten ∨ LiteralOverrun (sourceLines env src).flatten := by
  rw [asmCompile_eq_sourceLines, bind_error_iff, sources_overrun_iff]
  refine or_iff_left ?_
  rintro ⟨c, hd, hres⟩
  have hall := (assembled_sources (sourceLines_readIn env src) hd).1
  rcases patchesResolve_total hall.patch_fits with ⟨-, c', hc'⟩ | ⟨-, err, herr⟩
  · rw [hres] at hc'
    cases hc'
  · rw [hres] at herr
    cases herr

/-- The assembler stays inside the buffers, or rejects what they do not hold, exactly in those
sources that need no more. -/
theorem sectionsBounded_iff (env : AsmEnv) (src : List Byte) :
    SectionsBounded env src ↔ ¬ NeedsMore (sourceLines env src).flatten := by
  constructor
  · intro h hmore
    obtain ⟨err, herr⟩ := h.rejected hmore
    rw [(asmCompile_overrun_iff env src).mpr (.inl hmore)] at herr
    cases herr
  · intro hno
    refine ⟨?_, fun hmore => absurd hmore hno⟩
    intro hover
    exact ((asmCompile_overrun_iff env src).mp hover).resolve_left hno

/-! ## 7. A source that needs more -/

/-- A data section of `n` quadwords. -/
def quadwords (n : Nat) : List Byte :=
  lit ".data\n" ++ (List.replicate n (lit "dq 0" ++ [ch '\n'])).flatten

theorem splitLine_line {line s rest : List Byte} (hnul : (0 : Byte) ∉ s) (hnl : ch '\n' ∉ s)
    (hlen : line.length + s.length ≤ lineMax) :
    splitLine line (s ++ ch '\n' :: rest)
      = (line ++ s) :: if rest.headD 0 = 0 then [] else splitLine [] rest := by
  induction s generalizing line with
  | nil =>
    have hne : ch '\n' ≠ 0 := by decide
    rw [List.nil_append, splitLine, if_neg hne, if_pos rfl, List.append_nil]
  | cons c s ih =>
    obtain ⟨hc, hnul⟩ := List.ne_and_not_mem_of_not_mem_cons hnul
    obtain ⟨hcn, hnl⟩ := List.ne_and_not_mem_of_not_mem_cons hnl
    rw [List.length_cons] at hlen
    rw [List.cons_append, splitLine, if_neg (Ne.symm hc), if_neg (Ne.symm hcn),
      if_pos (by omega), ih hnul hnl (by rw [List.length_append, List.length_singleton]; omega),
      List.append_assoc, List.singleton_append]

theorem splitLine_quadwords (n : Nat) :
    splitLine [] (List.replicate (n + 1) (lit "dq 0" ++ [ch '\n'])).flatten
      = List.replicate (n + 1) (lit "dq 0") := by
  induction n with
  | zero => decide
  | succ n ih =>
    rw [List.replicate_succ, List.flatten_cons, List.append_assoc, List.singleton_append,
      splitLine_line (by decide) (by decide) (by decide), ih, List.nil_append]
    rfl

theorem splitLines_quadwords (n : Nat) :
    splitLines (quadwords (n + 1)) = lit ".data" :: List.replicate (n + 1) (lit "dq 0") := by
  have hhead : quadwords (n + 1) = lit ".data" ++ ch '\n' ::
      (List.replicate (n + 1) (lit "dq 0" ++ [ch '\n'])).flatten := rfl
  have hdot : (quadwords (n + 1)).headD 0 = ch '.' := rfl
  rw [splitLines, hdot, if_neg (by decide), hhead,
    splitLine_line (by decide) (by decide) (by decide), splitLine_quadwords]
  rfl

/-- A `dq 0` in the data section. -/
def SourceStmt.IsQuad (x : SourceStmt) : Prop := x.sec = dvmSecData ∧ x.stmt = .data (le 8 0)

theorem readLines_quadwords (n : Nat) {rd : Reader} (hequs : rd.equs = [])
    (hsec : rd.cursec = dvmSecData) :
    (readLines zeroEnv rd (List.replicate n (lit "dq 0"))).flatten.length = n ∧
      ∀ x ∈ (readLines zeroEnv rd (List.replicate n (lit "dq 0"))).flatten, x.IsQuad := by
  induction n generalizing rd with
  | zero => exact ⟨rfl, by simp [readLines]⟩
  | succ n ih =>
    have hstmts : (rd.enter (lit "dq 0")).stmts zeroEnv = [.data (le 8 0)] := by
      unfold Reader.stmts Reader.enter
      simp only [hequs, hsec]
      rfl
    obtain ⟨hlen, hall⟩ := @ih ((rd.enter (lit "dq 0")).after (.data (le 8 0))) hequs hsec
    rw [List.replicate_succ, readLines, hstmts]
    simp only [Reader.place, List.foldl_cons, List.foldl_nil, List.flatten_cons,
      List.singleton_append, List.length_cons, hlen, List.forall_mem_cons]
    exact ⟨trivial, ⟨hsec, rfl⟩, hall⟩

theorem sourceLines_quadwords (n : Nat) :
    ∃ line qs, (sourceLines zeroEnv (quadwords (n + 1))).flatten
        = ⟨line, dvmSecCode, .sect dvmSecData⟩ :: qs ∧
      qs.length = n + 1 ∧ ∀ x ∈ qs, x.IsQuad := by
  let rd := ((AsmState.init zeroEnv).reader.enter (lit ".data")).after (.sect dvmSecData)
  obtain ⟨hlen, hall⟩ := @readLines_quadwords (n + 1) rd rfl rfl
  refine ⟨1, _, ?_, hlen, hall⟩
  rw [sourceLines, splitLines_quadwords, readLines]
  rfl

theorem sectionBytes_quads {qs : List SourceStmt} (h : ∀ x ∈ qs, x.IsQuad) :
    (sectionBytes dvmSecData qs).length = 8 * qs.length := by
  induction qs with
  | nil => rfl
  | cons x qs ih =>
    obtain ⟨⟨hsec, hstmt⟩, hqs⟩ := List.forall_mem_cons.mp h
    have hx : x.dataIn dvmSecData = le 8 0 := by
      rw [SourceStmt.dataIn, hstmt]
      exact if_pos hsec
    rw [sectionBytes_cons, List.length_append, ih hqs, hx, length_le, List.length_cons]
    omega

/-- As many quadwords as fit are carried out. -/
theorem foldlM_quads {qs : List SourceStmt} (h : ∀ x ∈ qs, x.IsQuad) {ctx : AsmCtx}
    (hfit : ctx.data.bytes.length + 8 * qs.length ≤ dvmBufMax) :
    ∃ c, qs.foldlM doSource ctx = .ok c := by
  induction qs generalizing ctx with
  | nil => exact ⟨ctx, rfl⟩
  | cons x qs ih =>
    obtain ⟨⟨hsec, hstmt⟩, hqs⟩ := List.forall_mem_cons.mp h
    rw [List.length_cons] at hfit
    have hput : (ctx.data.bytes ++ le 8 0).length ≤ dvmBufMax := by
      rw [List.length_append, length_le]
      omega
    have hstep : doSource ctx x = .ok { ctx with data := ⟨ctx.data.bytes ++ le 8 0, hput⟩ } := by
      have hbuf : ctx.secBuf dvmSecData = ctx.data := rfl
      rw [doSource, hstmt, hsec, doStmtCtx, putData, hbuf, bufPut, dif_pos hput]
      rfl
    obtain ⟨c, hc⟩ := @ih hqs { ctx with data := ⟨ctx.data.bytes ++ le 8 0, hput⟩ } (by
      rw [List.length_append, length_le]
      omega)
    exact ⟨c, foldlM_cons_ok_iff.mpr ⟨_, hstep, hc⟩⟩

/-- Of `m` quadwords `.data` is full. -/
theorem quadwords_needsMore {m n : Nat} (hfull : 8 * m = dvmBufMax) (h : m ≤ n) :
    NeedsMore (sourceLines zeroEnv (quadwords (n + 1))).flatten := by
  obtain ⟨line, qs, hlines, hlen, hall⟩ := sourceLines_quadwords n
  obtain ⟨before, x, after, rfl, hbefore⟩ : ∃ before x after, qs = before ++ x :: after ∧
      before.length = m := by
    refine ⟨qs.take m, qs[m], qs.drop (m + 1), ?_, ?_⟩
    · rw [← List.drop_eq_getElem_cons, List.take_append_drop]
    · rw [List.length_take]
      omega
  obtain ⟨hqs, hx, -⟩ := List.forall_mem_append.mp hall |>.imp_right List.forall_mem_cons.mp
  have hfit : AsmCtx.init.data.bytes.length + 8 * before.length ≤ dvmBufMax := by
    rw [hbefore, hfull]
    exact Nat.le_of_eq (Nat.zero_add _)
  obtain ⟨c, hc⟩ := foldlM_quads hqs hfit
  have hsize : sectionSize dvmSecData (⟨line, dvmSecCode, .sect dvmSecData⟩ :: before)
      = dvmBufMax := by
    have hsect : SourceStmt.dataIn dvmSecData ⟨line, dvmSecCode, .sect dvmSecData⟩ = [] := rfl
    rw [sectionSize, if_neg (by decide), sectionBytes_cons, hsect, List.nil_append,
      sectionBytes_quads hqs, hbefore, hfull]
  refine ⟨⟨line, dvmSecCode, .sect dvmSecData⟩ :: before, x, after, c, hlines,
    foldlM_cons_ok_iff.mpr ⟨{}, rfl, hc⟩, ?_⟩
  rw [SourceStmt.Overfills, hx.2]
  show dvmBufMax < sectionSize x.sec _ + (le 8 0).length
  rw [hx.1, hsize, length_le]
  exact Nat.lt_add_of_pos_right (by decide)

/-- One quadword more goes past the end of `.data`. -/
theorem quadwords_overrun : asmCompile zeroEnv (quadwords 32769) = .error .overrun ∧
    ¬ SectionsBounded zeroEnv (quadwords 32769) := by
  have hmore : NeedsMore (sourceLines zeroEnv (quadwords 32769)).flatten :=
    @quadwords_needsMore 32768 32768 (by decide) (Nat.le_refl _)
  have hover := (asmCompile_overrun_iff zeroEnv (quadwords 32769)).mpr (.inl hmore)
  refine ⟨hover, fun h => ?_⟩
  obtain ⟨err, herr⟩ := h.rejected hmore
  rw [hover] at herr
  cases herr

end Dvm
