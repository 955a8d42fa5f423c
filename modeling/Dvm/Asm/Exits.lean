/-
# How `asm_compile` ends

An error is reported in one of two ways: `asm_compile` returns 0, or the assembler calls
`exit(1)` and takes the host with it.  Which one it is depends on what is wrong: a missing comma,
register or string ends the process, an unknown mnemonic does not (`Form.Misused`,
`LineMisused`), and neither does anything that `patches_resolve` finds.  `asm_compile` comes back
to its caller exactly if no line that it comes to is misused, and all of them find room in the
tables and sections (`givesResult_iff`).
-/
import Dvm.Asm.Room
import Dvm.Asm.Strings

namespace Dvm

open Bytes Loops

/-! ## 1. Results -/

/-- Whatever goes wrong is reported by the result. -/
def Reports {α : Type} (x : Except AsmStop α) : Prop := ∀ w, x = .error w → w.kind = .fail

/-- No comma behind the first operand. -/
def NoComma (p : List Byte) : Prop := (skipWs (readTok asmLabelLen p).2).head? ≠ some (ch ',')

/-- The first of two operands, as it is read. -/
def firstOperand (p : List Byte) : CStr := operand p

/-- What stands behind the comma. -/
def behindComma (p : List Byte) : List Byte := (skipWs (readTok asmLabelLen p).2).tail

def secondOperand (p : List Byte) : CStr := operand (behindComma p)

/-- The operands are not such as the assembler insists on: the comma is missing, or something
else stands where it wants a register, or `fmovm` and `fmovs` have no memory operand. -/
def Form.Misused (form : Form) (p : List Byte) : Prop :=
  let a := firstOperand p
  let b := secondOperand p
  match form with
  | .mov => NoComma p ∨ if (parseMem a).isSome then parseReg b = none else parseReg a = none
  | .sizedStore _ _ => NoComma p ∨ parseReg b = none
  | .sizedLoad _ _ _ _ _ _ => NoComma p ∨ parseReg a = none
  | .alu2 _ => NoComma p ∨ parseReg a = none ∨ parseReg b = none
  | .alu1 _ => parseReg a = none
  | .jmp1 _ => False
  | .enter => False
  | .bare _ => False
  | .call => NoComma p
  | .falu2 _ => NoComma p ∨ parseFpreg a = none ∨ parseFpreg b = none
  | .fmovi => NoComma p ∨ parseFpreg a = none
  | .fmovm => NoComma p ∨ parseMem b = none ∨ parseFpreg a = none
  | .fmovs => NoComma p ∨ parseMem a = none ∨ parseFpreg b = none
  | .itof => NoComma p ∨ parseFpreg a = none ∨ parseReg b = none
  | .ftoi => NoComma p ∨ parseReg a = none ∨ parseFpreg b = none
  | .callr => NoComma p ∨ parseReg a = none
  | .lea => NoComma p ∨ parseReg a = none

/-- No literal of at most 255 characters stands there, from an opening quote to its end. -/
def StringMisused (p : List Byte) : Prop :=
  ¬ (p.head? = some (ch '"') ∧ literalEnds p.tail = true ∧ literalChars p.tail < stringMax)

/-- An instruction or a pseudo-op with operands that the assembler does not put up with. -/
def InstrMisused (cursec : DvmSection) (mnem : CStr) (p : List Byte) : Prop :=
  if cursec = dvmSecCode then ∃ form, codeForms.lookup mnem = some form ∧ form.Misused p
  else (mnem = lit "ds" ∨ mnem = lit "dsz") ∧ StringMisused (skipWs p)

/-- `.equ` without a comma behind the name. -/
def EquMisused (buf : List Byte) : Prop :=
  let p := skipWs buf
  p.head? = some (ch '.') ∧ (readTok asmLabelLen p).1 = lit ".equ" ∧
    NoComma (readTok asmLabelLen p).2

/-- The line in the buffer ends the process, or runs on past the buffer. -/
def LineMisused (cursec : DvmSection) (buf : List Byte) : Prop :=
  EquMisused buf ∨ ∃ mnem p, instrText buf = some (mnem, p) ∧ InstrMisused cursec mnem p

/-- The label is an extern so far. -/
def AsmCtx.ExternHere (ctx : AsmCtx) (name : CStr) : Prop :=
  ∃ i l, labelFind ctx.labels name = some (i, l) ∧ l.flags = dvmSymExtern

/-- The tables and the text have room for what is put out. -/
def Emit.Fits (ctx : AsmCtx) : Emit → Prop
  | .bytes bs => ctx.text.bytes.length + bs.length ≤ dvmBufMax
  | .codeRef name => (Emit.codeRef name).Ready ctx ∧ ctx.text.bytes.length + 4 ≤ dvmBufMax ∧
      (ctx.ExternHere name → ctx.rels.length < dvmMaxRels)
  | .dataRef name => (Emit.dataRef name).Ready ctx ∧ ctx.text.bytes.length + 8 ≤ dvmBufMax
  | .stop _ => True

/-- The tables and the current section have room for a statement. -/
def Stmt.Fits (st : AsmState) : Stmt → Prop
  | .globalDir name | .externDir name | .label name =>
    labelFind st.ctx.labels name = none → st.ctx.labels.length < asmMaxLabels
  | .data bs => (st.ctx.secBuf st.cursec).bytes.length + bs.length ≤ dvmBufMax
  | .code _ es => ∀ es₁ e es₂ c, es = es₁ ++ e :: es₂ →
      es₁.foldlM (doEmit st.lineno) st.ctx = .ok c → e.Fits c
  | _ => True

section Line

variable {env : AsmEnv} {src : List Byte}

/-- The line buffer. -/
def ReachedLine.buf (L : ReachedLine env src) : List Byte := L.line ++ 0 :: L.leftover

/-- The assembler with the line in its buffer. -/
def ReachedLine.entered (L : ReachedLine env src) : AsmState :=
  { L.st with lineno := L.st.lineno + 1, lineBuf := L.buf }

/-- There is room for each statement of the line that the assembler comes to. -/
def ReachedLine.Fits (L : ReachedLine env src) : Prop :=
  ∀ ss₁ s ss₂ st, L.stmts L.leftover = ss₁ ++ s :: ss₂ →
    ss₁.foldlM doStmt L.entered = .ok st → s.Fits st

/-- The assembler gets over the line, or returns 0 there. -/
structure ReachedLine.Harmless (L : ReachedLine env src) : Prop where
  used : ¬ LineMisused L.st.cursec L.buf
  fits : L.Fits

end Line

/-! ## 2. Loops that report -/

section Reports

variable {α β σ : Type}

theorem Reports.ok (a : α) : Reports (.ok a) := nofun

theorem reports_error_iff {w : AsmStop} :
    Reports (.error w : Except AsmStop α) ↔ w.kind = .fail := by
  constructor
  · exact fun h => h w rfl
  · rintro h w' ⟨⟩
    exact h

/-- A loop reports if each of its steps does. -/
theorem reports_foldlM_iff {f : σ → α → Except AsmStop σ} {as : List α} {s : σ} :
    Reports (as.foldlM f s) ↔ ∀ before a after s', as = before ++ a :: after →
      before.foldlM f s = .ok s' → Reports (f s' a) := by
  constructor
  · intro h before a after s' heq hbefore w hw
    exact h w (foldlM_error_iff.mpr ⟨before, a, after, s', heq, hbefore, hw⟩)
  · intro h w hw
    obtain ⟨before, a, after, s', heq, hbefore, hw⟩ := foldlM_error_iff.mp hw
    exact h before a after s' heq hbefore w hw

end Reports

/-! ## 3. Full tables and sections

Where a table or a section is full, the assembler never returns 0. -/

/-- Nothing that goes wrong is reported by the result. -/
def NeverFails {α : Type} (x : Except AsmStop α) : Prop := ∀ w, x = .error w → w.kind ≠ .fail

section Tables

variable {α β : Type} {ctx : AsmCtx} {name : CStr} {line : Nat}

theorem NeverFails.bind {x : Except AsmStop α} {f : α → Except AsmStop β} (hx : NeverFails x)
    (hf : ∀ a, NeverFails (f a)) : NeverFails (x >>= f) := by
  intro w hw
  rcases bind_error_iff.mp hw with hw | ⟨a, -, hw⟩
  · exact hx w hw
  · exact hf a w hw

theorem NeverFails.ok (a : α) : NeverFails (.ok a) := nofun

theorem OnlyExits.neverFails {x : Except AsmStop α} (h : OnlyExits x) : NeverFails x := by
  intro w hw
  obtain ⟨why, rfl⟩ := h w hw
  simp [AsmStop.kind]

theorem NeverFails.overrun : NeverFails (.error .overrun : Except AsmStop α) := by
  rintro w ⟨⟩
  simp [AsmStop.kind]

/-- An error that is passed on. -/
theorem NeverFails.passOn {x : Except AsmStop α} (h : NeverFails x) {e : AsmStop}
    (he : x = .error e) : NeverFails (.error e : Except AsmStop β) := by
  rintro w ⟨⟩
  exact h e he

/-- Then it reports only if nothing goes wrong. -/
theorem NeverFails.reports_iff {x : Except AsmStop α} (h : NeverFails x) :
    Reports x ↔ ∃ a, x = .ok a := by
  cases x with
  | ok a => exact iff_of_true (.ok a) ⟨a, rfl⟩
  | error w => exact iff_of_false (fun hr => h w rfl (hr w rfl)) (by simp)

theorem bufPut_neverFails (b : Buf) (bs : List Byte) : NeverFails (bufPut b bs) := by
  unfold bufPut
  split
  · exact .ok _
  · exact .overrun

theorem putText_neverFails (bs : List Byte) : NeverFails (ctx.putText bs) := by
  unfold AsmCtx.putText
  split
  · next he => exact (bufPut_neverFails _ _).passOn he
  · exact .ok _

theorem putData_neverFails (sec : DvmSection) (bs : List Byte) :
    NeverFails (putData ctx sec bs) := by
  unfold putData
  split
  · next he => exact (bufPut_neverFails _ _).passOn he
  · exact .ok _

theorem doEmit_neverFails {e : Emit} (he : ∀ w, e ≠ .stop w) :
    NeverFails (doEmit line ctx e) := by
  cases e with
  | bytes bs => exact putText_neverFails bs
  | codeRef name =>
    simp only [doEmit, labelRefCode]
    split
    · exact putText_neverFails _
    · refine (addPatch_onlyExits _).neverFails.bind fun c =>
        (putText_neverFails _).bind fun c' => ?_
      split
      · exact (addRel_onlyExits _ _).neverFails
      · exact .ok _
  | dataRef name =>
    simp only [doEmit, labelRefData]
    refine (addRel_onlyExits _ _).neverFails.bind fun c => ?_
    split
    · exact (addPatch_onlyExits _).neverFails.bind fun c' => putText_neverFails _
    · exact putText_neverFails _
  | stop w => exact absurd rfl (he w)

theorem putText_isOk_iff {bs : List Byte} :
    (∃ c, ctx.putText bs = .ok c) ↔ ctx.text.bytes.length + bs.length ≤ dvmBufMax := by
  unfold AsmCtx.putText bufPut
  rw [← List.length_append]
  by_cases hfit : (ctx.text.bytes ++ bs).length ≤ dvmBufMax
  · rw [dif_pos hfit]
    exact iff_of_true ⟨_, rfl⟩ hfit
  · rw [dif_neg hfit]
    exact iff_of_false nofun hfit

theorem externHere_iff :
    ctx.ExternHere name ↔
      (((labelFind ctx.labels name).map Prod.snd).any fun l => l.flags = dvmSymExtern) = true := by
  unfold AsmCtx.ExternHere
  cases labelFind ctx.labels name with
  | none => simp
  | some x =>
    obtain ⟨i, l⟩ := x
    simp

theorem labelRefCode_isOk_iff :
    (∃ c, labelRefCode ctx name line = .ok c) ↔ (Emit.codeRef name).Fits ctx := by
  unfold Emit.Fits
  by_cases hdef : ∃ i l, labelFind ctx.labels name = some (i, l) ∧ l.IsCodeDef
  · obtain ⟨i, l, hf, hl⟩ := hdef
    have hext : ¬ ctx.ExternHere name := by
      rintro ⟨i', l', hf', hl'⟩
      rw [hf] at hf'
      cases hf'
      exact hl.2.2 hl'
    rw [labelRefCode_of_def hf hl, putText_isOk_iff, length_offsetBytes]
    exact ⟨fun h => ⟨.inl ⟨i, l, hf, hl⟩, h, fun he => absurd he hext⟩, fun h => h.2.1⟩
  · rw [labelRefCode_of_not_def hdef]
    constructor
    · rintro ⟨c, h⟩
      obtain ⟨c₁, hpatch, h⟩ := bind_ok_iff.mp h
      obtain ⟨c₂, hput, hrel⟩ := bind_ok_iff.mp h
      obtain ⟨hroom, rfl⟩ := addPatch_ok_iff.mp hpatch
      refine ⟨.inr hroom, putText_isOk_iff.mp ⟨c₂, hput⟩, fun he => ?_⟩
      rw [if_pos (externHere_iff.mp he)] at hrel
      obtain ⟨b, -, rfl⟩ := putText_ok hput
      exact (addRel_ok_iff.mp hrel).1
    · rintro ⟨hready, hfit, hrels⟩
      obtain ⟨c₁, hpatch⟩ :
          ∃ c₁, ctx.addPatch ⟨name, ctx.text.bytes.length, false, line⟩ = .ok c₁ :=
        ⟨_, addPatch_ok_iff.mpr ⟨hready.resolve_left hdef, rfl⟩⟩
      obtain ⟨-, hc₁⟩ := addPatch_ok_iff.mp hpatch
      obtain ⟨c₂, hput⟩ : ∃ c₂, c₁.putText (offsetBytes 0) = .ok c₂ := by
        rw [putText_isOk_iff, hc₁]
        exact hfit
      obtain ⟨b, -, hc₂⟩ := putText_ok hput
      by_cases he : ctx.ExternHere name
      · obtain ⟨i, l, hf, -⟩ := id he
        obtain ⟨c, hrel⟩ : ∃ c, c₂.addRel ctx.text.bytes.length name dvmRelCode = .ok c :=
          addRel_isOk_iff.mpr (by simp [hc₂, hc₁, hf, hrels he])
        refine ⟨c, bind_ok_iff.mpr ⟨c₁, hpatch, bind_ok_iff.mpr ⟨c₂, hput, ?_⟩⟩⟩
        exact (if_pos (externHere_iff.mp he)).trans hrel
      · refine ⟨c₂, bind_ok_iff.mpr ⟨c₁, hpatch, bind_ok_iff.mpr ⟨c₂, hput, ?_⟩⟩⟩
        exact if_neg (mt externHere_iff.mpr he)

theorem labelRefData_isOk_iff :
    (∃ c, labelRefData ctx name line = .ok c) ↔ (Emit.dataRef name).Fits ctx := by
  unfold Emit.Fits
  by_cases hready : (Emit.dataRef name).Ready ctx
  · obtain ⟨c, htext, hc⟩ := labelRefData_of_ready line hready
    rw [hc, putText_isOk_iff, htext]
    exact (and_iff_right hready).symm
  · obtain ⟨why, hwhy⟩ := labelRefData_of_not_ready line hready
    rw [hwhy]
    exact iff_of_false (by simp) fun h => hready h.1

/-- An emission that is no error is made if there is room, and else the assembler does not come
back. -/
theorem reports_doEmit_iff {e : Emit} (he : ∀ w, e ≠ .stop w) :
    Reports (doEmit line ctx e) ↔ e.Fits ctx := by
  rw [(doEmit_neverFails he).reports_iff]
  cases e with
  | bytes bs => exact putText_isOk_iff
  | codeRef name => exact labelRefCode_isOk_iff
  | dataRef name => exact labelRefData_isOk_iff
  | stop w => exact absurd rfl (he w)

end Tables

/-! ## 4. Instructions -/

/-- The first error among some emissions. -/
def stopOf : List Emit → Option AsmStop
  | [] => none
  | .stop w :: _ => some w
  | _ :: es => stopOf es

/-- The emissions come to an error that ends the process. -/
def Aborts (es : List Emit) : Prop := ∃ w, stopOf es = some w ∧ w.kind ≠ .fail

section Emits

variable {ctx : AsmCtx} {line : Nat}

def Emit.why : Emit → Option AsmStop
  | .stop w => some w
  | _ => none

theorem stopOf_eq_findSome? (es : List Emit) : stopOf es = es.findSome? Emit.why := by
  induction es with
  | nil => rfl
  | cons e es ih =>
    rw [List.findSome?_cons]
    cases e with
    | stop w => rfl
    | _ => exact ih

theorem stopOf_eq_some_iff {es : List Emit} {w : AsmStop} :
    stopOf es = some w ↔
      ∃ es₁ es₂, es = es₁ ++ .stop w :: es₂ ∧ ∀ w', Emit.stop w' ∉ es₁ := by
  rw [stopOf_eq_findSome?, List.findSome?_eq_some_iff]
  constructor
  · rintro ⟨es₁, e, es₂, rfl, he, hno⟩
    obtain rfl : e = .stop w := by
      cases e with
      | stop w' => exact congrArg Emit.stop (Option.some.inj he)
      | _ => cases he
    refine ⟨es₁, es₂, rfl, fun w' hmem => ?_⟩
    cases hno _ hmem
  · rintro ⟨es₁, es₂, rfl, hno⟩
    refine ⟨es₁, .stop w, es₂, rfl, rfl, fun e he => ?_⟩
    cases e with
    | stop w' => exact absurd he (hno w')
    | _ => rfl

/-- Emissions are made if none of them is an error that ends the process, and as long as there is
room. -/
theorem reports_emits_iff {es : List Emit} :
    Reports (es.foldlM (doEmit line) ctx) ↔ ¬ Aborts es ∧ ∀ es₁ e es₂ c,
      es = es₁ ++ e :: es₂ → es₁.foldlM (doEmit line) ctx = .ok c → e.Fits c := by
  rw [reports_foldlM_iff]
  constructor
  · intro h
    refine ⟨?_, ?_⟩
    · rintro ⟨w, hstop, hkind⟩
      obtain ⟨es₁, es₂, heq, hno⟩ := stopOf_eq_some_iff.mp hstop
      cases hd : es₁.foldlM (doEmit line) ctx with
      | ok c => exact hkind (h es₁ _ es₂ c heq hd w rfl)
      | error w' =>
        obtain ⟨es₃, e, es₄, c, hsplit, hc, he⟩ := foldlM_error_iff.mp hd
        have hne : ∀ w, e ≠ .stop w := by
          rintro w rfl
          exact hno w (by simp [hsplit])
        refine doEmit_neverFails hne w' he (h es₃ e (es₄ ++ .stop w :: es₂) c ?_ hc w' he)
        rw [heq, hsplit, List.append_assoc, List.cons_append]
    · intro es₁ e es₂ c heq hc
      by_cases he : ∃ w, e = .stop w
      · obtain ⟨w, rfl⟩ := he
        exact trivial
      · exact (reports_doEmit_iff fun w h' => he ⟨w, h'⟩).mp (h es₁ e es₂ c heq hc)
  · rintro ⟨hno, hfit⟩ es₁ e es₂ c heq hc
    by_cases he : ∃ w, e = .stop w
    · obtain ⟨w, rfl⟩ := he
      rintro w' ⟨⟩
      by_contra hkind
      exact hno ⟨w, stopOf_eq_some_iff.mpr ⟨es₁, es₂, heq, foldlM_doEmit_clean hc⟩, hkind⟩
    · exact (reports_doEmit_iff fun w h' => he ⟨w, h'⟩).mpr (hfit es₁ e es₂ c heq hc)

end Emits

section Forms

variable {line : Nat} {s : CStr} {p : List Byte} {w : AsmStop} {es : List Emit} {P : Prop}

@[simp] theorem not_aborts_nil : ¬ Aborts [] := nofun

@[simp] theorem aborts_stop : Aborts (.stop w :: es) ↔ w.kind ≠ .fail := by
  simp [Aborts, stopOf]

@[simp] theorem aborts_bytes (bs : List Byte) : Aborts (.bytes bs :: es) ↔ Aborts es := Iff.rfl

@[simp] theorem aborts_codeRef (name : CStr) : Aborts (.codeRef name :: es) ↔ Aborts es := Iff.rfl

@[simp] theorem aborts_dataRef (name : CStr) : Aborts (.dataRef name :: es) ↔ Aborts es := Iff.rfl

@[simp] theorem aborts_emitOp (op : Op) : Aborts (emitOp op :: es) ↔ Aborts es := Iff.rfl

@[simp] theorem aborts_emitRegs (d r : Reg) : Aborts (emitRegs d r :: es) ↔ Aborts es := Iff.rfl

@[simp] theorem aborts_emitI32 (v : BitVec 32) : Aborts (emitI32 v :: es) ↔ Aborts es := Iff.rfl

@[simp] theorem aborts_emitU64 (v : BitVec 64) : Aborts (emitU64 v :: es) ↔ Aborts es := Iff.rfl

@[simp] theorem not_aborts_emitMem (op opOff : Op) (d r : Reg) (off : BitVec 32) :
    ¬ Aborts (emitMem op opOff d r off) := by
  unfold emitMem
  split <;> simp

theorem aborts_reqReg {k : Reg → List Emit} (h : ∀ r, Aborts (k r) ↔ P) :
    Aborts (reqReg line s k) ↔ parseReg s = none ∨ P := by
  unfold reqReg
  cases parseReg s with
  | none => simp [AsmStop.kind]
  | some r => simp [h r]

theorem aborts_reqReg_last {k : Reg → List Emit} (h : ∀ r, ¬ Aborts (k r)) :
    Aborts (reqReg line s k) ↔ parseReg s = none :=
  (aborts_reqReg fun r => iff_false_intro (h r)).trans (or_iff_left id)

theorem aborts_reqFpreg {k : Reg → List Emit} (h : ∀ r, Aborts (k r) ↔ P) :
    Aborts (reqFpreg line s k) ↔ parseFpreg s = none ∨ P := by
  unfold reqFpreg
  cases parseFpreg s with
  | none => simp [AsmStop.kind]
  | some r => simp [h r]

theorem aborts_reqFpreg_last {k : Reg → List Emit} (h : ∀ r, ¬ Aborts (k r)) :
    Aborts (reqFpreg line s k) ↔ parseFpreg s = none :=
  (aborts_reqFpreg fun r => iff_false_intro (h r)).trans (or_iff_left id)

theorem aborts_reqMem {k : Reg → List Emit} (hw : w.kind ≠ .fail) (h : ∀ r, Aborts (k r) ↔ P) :
    Aborts (reqMem s w k) ↔ parseMem s = none ∨ P := by
  unfold reqMem
  cases parseMem s with
  | none => simp [hw]
  | some r => simp [h r]

theorem not_aborts_reqMem {k : Reg → List Emit} (hw : w.kind = .fail) (h : ∀ r, ¬ Aborts (k r)) :
    ¬ Aborts (reqMem s w k) := by
  unfold reqMem
  cases parseMem s with
  | none => simp [hw]
  | some r => exact h r

theorem expectComma_of_noComma (h : NoComma p) :
    expectComma (readTok asmLabelLen p).2 line = .error (.exit (.expectedComma line)) := by
  unfold NoComma at h
  unfold expectComma
  cases hq : skipWs (readTok asmLabelLen p).2 with
  | nil => rfl
  | cons c q =>
    rw [hq, List.head?_cons, Ne, Option.some_inj] at h
    exact if_neg h

theorem expectComma_of_comma (h : ¬ NoComma p) :
    expectComma (readTok asmLabelLen p).2 line = .ok (behindComma p) := by
  unfold NoComma at h
  unfold expectComma behindComma
  cases hq : skipWs (readTok asmLabelLen p).2 with
  | nil => simp [hq] at h
  | cons c q =>
    rw [hq, List.head?_cons, not_not, Option.some_inj] at h
    exact if_pos h

theorem aborts_operands₂ {k : CStr → CStr → List Emit} :
    Aborts (operands₂ line p k) ↔ NoComma p ∨ Aborts (k (firstOperand p) (secondOperand p)) := by
  unfold operands₂
  by_cases hcomma : NoComma p
  · simp [expectComma_of_noComma hcomma, hcomma, AsmStop.kind]
  · simp only [expectComma_of_comma hcomma, hcomma, false_or]
    rfl

theorem aborts_sizedLoadOperands {k : CStr → CStr → CStr → List Emit} :
    Aborts (sizedLoadOperands line p k) ↔ NoComma p ∨
      Aborts (k (firstOperand p) (readTok 16 (behindComma p)).1
        (operand (readTok 16 (behindComma p)).2)) := by
  unfold sizedLoadOperands
  by_cases hcomma : NoComma p
  · simp [expectComma_of_noComma hcomma, hcomma, AsmStop.kind]
  · simp only [expectComma_of_comma hcomma, hcomma, false_or]
    rfl

variable {strtod : Strtod} {equs : List AsmEqu}

theorem aborts_mov : Aborts (parseForm strtod equs line .mov p) ↔ Form.mov.Misused p := by
  rw [parseForm, aborts_operands₂]
  refine or_congr_right ?_
  cases parseMem (firstOperand p) with
  | some md =>
    exact aborts_reqReg_last fun rs => not_aborts_emitMem _ _ _ _ _
  | none =>
    cases parseMem (secondOperand p) with
    | some ms =>
      exact aborts_reqReg_last fun rd => not_aborts_emitMem _ _ _ _ _
    | none =>
      refine aborts_reqReg_last fun rd => ?_
      cases parseReg (secondOperand p) with
      | some rs => simp
      | none =>
        simp only
        split
        · simp
        · split <;> simp [AsmStop.kind]

/-- An instruction ends the process exactly if its operands are misused. -/
theorem aborts_parseForm {form : Form} :
    Aborts (parseForm strtod equs line form p) ↔ form.Misused p := by
  cases form with
  | mov => exact aborts_mov
  | sizedStore op opOff =>
    rw [parseForm, aborts_operands₂]
    exact or_congr_right (aborts_reqReg_last fun rs =>
      not_aborts_reqMem rfl fun rd => not_aborts_emitMem _ _ _ _ _)
  | sizedLoad op8 op16 op32 op8Off op16Off op32Off =>
    rw [parseForm, aborts_sizedLoadOperands]
    refine or_congr_right (aborts_reqReg_last fun rd => not_aborts_reqMem rfl fun rs => ?_)
    repeat' split
    all_goals simp [AsmStop.kind]
  | alu2 op =>
    rw [parseForm, aborts_operands₂, aborts_emitOp]
    refine or_congr_right (aborts_reqReg fun rd => ?_)
    exact aborts_reqReg_last fun rs => by simp
  | alu1 op => exact aborts_reqReg_last fun rd => by simp
  | jmp1 op => exact iff_of_false (by simp [parseForm]) id
  | enter => exact iff_of_false (by simp [parseForm]) id
  | bare op => exact iff_of_false (by simp [parseForm]) id
  | call =>
    rw [parseForm, aborts_operands₂]
    exact or_iff_left (by simp)
  | falu2 op =>
    rw [parseForm, aborts_operands₂, aborts_emitOp]
    refine or_congr_right (aborts_reqFpreg fun rd => ?_)
    exact aborts_reqFpreg_last fun rs => by simp
  | fmovi =>
    rw [parseForm, aborts_operands₂, aborts_emitOp]
    exact or_congr_right (aborts_reqFpreg_last fun rd => by simp)
  | fmovm =>
    rw [parseForm, aborts_operands₂]
    refine or_congr_right (aborts_reqMem (by simp [AsmStop.kind]) fun rs => ?_)
    exact aborts_reqFpreg_last fun rd => by simp
  | fmovs =>
    rw [parseForm, aborts_operands₂]
    refine or_congr_right (aborts_reqMem (by simp [AsmStop.kind]) fun rd => ?_)
    exact aborts_reqFpreg_last fun rs => by simp
  | itof =>
    rw [parseForm, aborts_operands₂, aborts_emitOp]
    refine or_congr_right (aborts_reqFpreg fun rd => ?_)
    exact aborts_reqReg_last fun rs => by simp
  | ftoi =>
    rw [parseForm, aborts_operands₂, aborts_emitOp]
    refine or_congr_right (aborts_reqReg fun rd => ?_)
    exact aborts_reqFpreg_last fun rs => by simp
  | callr =>
    rw [parseForm, aborts_operands₂]
    exact or_congr_right (aborts_reqReg_last fun rd => by simp)
  | lea =>
    rw [parseForm, aborts_operands₂]
    exact or_congr_right (aborts_reqReg_last fun rd => not_aborts_reqMem rfl fun rs => by simp)

end Forms

/-! ## 5. Lines -/

/-- The statement ends the process, or is one that runs past the line buffer. -/
def Stmt.Aborts : Stmt → Prop
  | .stop w => w.kind ≠ .fail
  | .code _ es => Dvm.Aborts es
  | _ => False

section Statements

variable {st : AsmState} {ctx : AsmCtx}

theorem reports_withLabels_iff {ls : Except AsmStop (List AsmLabel)} :
    Reports (ctx.withLabels ls) ↔ Reports ls := by
  cases ls with
  | ok labels => exact iff_of_true (.ok _) (.ok _)
  | error w => exact reports_error_iff.trans reports_error_iff.symm

theorem reports_labelDefine_iff {labels : List AsmLabel} {name : CStr} {flags : Byte}
    {sec : DvmSection} {off : Int} :
    Reports (labelDefine labels name flags sec off) ↔
      (labelFind labels name = none → labels.length < asmMaxLabels) :=
  labelDefine_onlyExits.neverFails.reports_iff.trans labelDefine_isOk_iff

theorem reports_globalLabel_iff {labels : List AsmLabel} {name : CStr} {cursec : DvmSection} :
    Reports (globalLabel labels name cursec) ↔
      (labelFind labels name = none → labels.length < asmMaxLabels) := by
  unfold globalLabel
  cases hf : labelFind labels name with
  | some x => exact iff_of_true (.ok _) nofun
  | none =>
    have h := @reports_labelDefine_iff labels name dvmSymGlobal cursec (-1)
    rw [hf] at h
    exact h

theorem reports_putData_iff {sec : DvmSection} {bs : List Byte} :
    Reports (putData ctx sec bs) ↔
      (ctx.secBuf sec).bytes.length + bs.length ≤ dvmBufMax :=
  (putData_neverFails sec bs).reports_iff.trans putData_isOk_iff

/-- A statement is carried out, or the assembler returns 0 at it. -/
theorem reports_doStmt_iff {s : Stmt} : Reports (doStmt st s) ↔ ¬ s.Aborts ∧ s.Fits st := by
  have hctx : Reports (doStmt st s) ↔ Reports (doStmtCtx st s) := by
    unfold doStmt
    cases doStmtCtx st s with
    | ok c => exact iff_of_true (.ok _) (.ok _)
    | error w => exact reports_error_iff.trans reports_error_iff.symm
  rw [hctx]
  cases s with
  | sect sec => exact iff_of_true (.ok _) ⟨id, trivial⟩
  | equ name v => exact iff_of_true (.ok _) ⟨id, trivial⟩
  | globalDir name =>
    exact reports_withLabels_iff.trans (reports_globalLabel_iff.trans (and_iff_right id).symm)
  | externDir name =>
    exact reports_withLabels_iff.trans (reports_labelDefine_iff.trans (and_iff_right id).symm)
  | label name =>
    exact reports_withLabels_iff.trans (reports_labelDefine_iff.trans (and_iff_right id).symm)
  | data bs => exact reports_putData_iff.trans (and_iff_right id).symm
  | code mnem es => exact reports_emits_iff
  | stop w => exact reports_error_iff.trans (not_not.symm.trans (and_iff_left trivial).symm)

end Statements

section Reading

variable {strtod : Strtod} {equs : List AsmEqu} {cursec : DvmSection} {line : Nat}

/-- A literal is read, or the assembler does not come back. -/
theorem parseString_misused {p : List Byte} :
    (∃ w, parseString line p = .error w ∧ w.kind ≠ .fail) ↔ StringMisused p := by
  unfold StringMisused
  cases p with
  | nil => exact iff_of_true ⟨_, rfl, by simp [AsmStop.kind]⟩ (by simp)
  | cons c p =>
    rw [parseString, List.head?_cons, List.tail_cons, Option.some_inj]
    by_cases hquote : c = ch '"'
    · rw [if_pos hquote, and_iff_right hquote]
      by_cases hlong : stringMax ≤ 0 + literalChars p
      · refine iff_of_true ⟨_, stringChars_tooLong (by decide) hlong, by simp [AsmStop.kind]⟩ ?_
        omega
      · cases hends : literalEnds p with
        | true =>
          obtain ⟨bs, hbs⟩ := @stringChars_ends 0 line p (by omega) hends
          rw [hbs]
          exact iff_of_false (by simp) (not_not.mpr ⟨rfl, by omega⟩)
        | false =>
          rw [stringChars_overrun (by omega) hends]
          exact iff_of_true ⟨_, rfl, by simp [AsmStop.kind]⟩ (by simp)
    · rw [if_neg hquote]
      exact iff_of_true ⟨_, rfl, by simp [AsmStop.kind]⟩ fun h => hquote h.1

theorem aborts_parseInstr {mnem : CStr} {p : List Byte} :
    (∃ s ∈ parseInstr strtod equs cursec line mnem p, s.Aborts) ↔ InstrMisused cursec mnem p := by
  unfold parseInstr InstrMisused
  by_cases hsec : cursec = dvmSecCode
  · rw [if_neg (not_not.mpr hsec), if_pos hsec, parseCode]
    cases codeForms.lookup mnem with
    | none => simp [Stmt.Aborts, AsmStop.kind]
    | some form => simp [Stmt.Aborts, aborts_parseForm]
  · rw [if_pos hsec, if_neg hsec]
    unfold parseData
    by_cases hmnem : mnem = lit "ds" ∨ mnem = lit "dsz"
    · obtain ⟨hdb, hdw, hdd, hdq⟩ := string_ne_number hmnem
      rw [and_iff_right hmnem, ← @parseString_misused line]
      simp only [hdb, hdw, hdd, hdq, if_false, hmnem, if_true]
      cases parseString line (skipWs p) with
      | ok bs => simp [Stmt.Aborts]
      | error w => simp [Stmt.Aborts]
    · refine iff_of_false ?_ fun h => hmnem h.1
      simp only [hmnem, if_false]
      rintro ⟨s, hs, habort⟩
      repeat' split at hs
      all_goals
        cases List.mem_singleton.mp hs
        simp [Stmt.Aborts, AsmStop.kind] at habort

theorem aborts_parseDirective {p : List Byte} :
    (∃ s ∈ parseDirective equs line p, s.Aborts) ↔
      (readTok asmLabelLen p).1 = lit ".equ" ∧ NoComma (readTok asmLabelLen p).2 := by
  unfold parseDirective
  simp only
  by_cases hequ : (readTok asmLabelLen p).1 = lit ".equ"
  · have hne : lit ".equ" ≠ lit ".text" ∧ lit ".equ" ≠ lit ".data" ∧
        ¬(lit ".equ" = lit ".cnst" ∨ lit ".equ" = lit ".rodata") := by decide
    rw [and_iff_right hequ, hequ, if_neg hne.1, if_neg hne.2.1, if_neg hne.2.2, if_pos rfl]
    by_cases hcomma : NoComma (readTok asmLabelLen p).2
    · simp [expectComma_of_noComma hcomma, hcomma, Stmt.Aborts, AsmStop.kind]
    · rw [expectComma_of_comma hcomma]
      refine iff_of_false ?_ hcomma
      rintro ⟨s, hs, habort⟩
      simp only at hs
      repeat' split at hs
      all_goals
        cases List.mem_singleton.mp hs
        simp [Stmt.Aborts, AsmStop.kind] at habort
  · refine iff_of_false ?_ fun h => hequ h.1
    rw [if_neg hequ]
    rintro ⟨s, hs, habort⟩
    repeat' split at hs
    all_goals
      cases List.mem_singleton.mp hs
      simp [Stmt.Aborts, AsmStop.kind] at habort

/-- A line ends the process exactly if it is misused. -/
theorem aborts_parseLine {buf : List Byte} :
    (∃ s ∈ parseLine strtod equs cursec line buf, s.Aborts) ↔ LineMisused cursec buf := by
  unfold parseLine LineMisused EquMisused instrText
  simp only
  by_cases hblank : isBlank (skipWs buf) = true
  · have hdot : (skipWs buf).head? ≠ some (ch '.') := by
      intro h
      obtain ⟨q, hq⟩ := List.head?_eq_some_iff.mp h
      have hsingle : isBlank (ch '.' :: q) = isBlank [ch '.'] := rfl
      rw [hq, hsingle] at hblank
      exact absurd hblank (by decide)
    simp [hblank, hdot]
  by_cases hdot : (skipWs buf).head? = some (ch '.')
  · simp only [hblank, hdot, or_true, if_true, true_and, if_false, Bool.false_eq_true]
    rw [aborts_parseDirective]
    simp
  have hinstr : ∀ mnem p, (∃ s ∈ parseInstr strtod equs cursec line mnem p, s.Aborts) ↔
      ∃ mnem' p', some (mnem, p) = some (mnem', p') ∧ InstrMisused cursec mnem' p' := by
    intro mnem p
    rw [aborts_parseInstr]
    simp
  simp only [hblank, hdot, false_or, or_self, if_false, false_and, Bool.false_eq_true]
  generalize readTok asmLabelLen (skipWs buf) = tok
  by_cases hglobal : tok.1 = lit "global"
  · simp [hglobal, Stmt.Aborts]
  by_cases hext : tok.1 = lit "extern"
  · have hne : lit "extern" ≠ lit "global" := by decide
    simp [hext, hne, Stmt.Aborts]
  simp only [hglobal, hext, or_self, if_false]
  by_cases hcolon : (skipWs tok.2).head? = some (ch ':')
  · simp only [hcolon, if_true]
    split
    · simp [Stmt.Aborts]
    · rw [← hinstr]
      simp [Stmt.Aborts]
  · simp only [hcolon, if_false]
    exact hinstr _ _

end Reading

/-! ## 6. The result -/

section Result

variable {env : AsmEnv} {src : List Byte}

/-- At a line the assembler comes back exactly if the line is harmless. -/
theorem ReachedLine.reports_iff (L : ReachedLine env src) :
    Reports (asmLine env L.st L.line) ↔ L.Harmless := by
  have hline : asmLine env L.st L.line = (L.stmts L.leftover).foldlM doStmt L.entered := rfl
  have haborts : (∃ s ∈ L.stmts L.leftover, s.Aborts) ↔ LineMisused L.st.cursec L.buf :=
    aborts_parseLine
  rw [hline, reports_foldlM_iff]
  simp only [reports_doStmt_iff]
  constructor
  · intro h
    refine ⟨?_, fun ss₁ s ss₂ st heq hst => (h ss₁ s ss₂ st heq hst).2⟩
    rw [← haborts]
    rintro ⟨s, hs, habort⟩
    rcases @parseLine_readIn env.strtod L.st.ctx.equs L.st.cursec (L.st.lineno + 1) L.buf with
      hnone | ⟨s', -, hone | ⟨tok, htwo⟩⟩
    · rw [stmts, ← buf, hnone] at hs
      cases hs
    · have hstmts : L.stmts L.leftover = [s'] := hone
      rw [hstmts] at hs h
      cases List.mem_singleton.mp hs
      exact (h [] s [] L.entered rfl rfl).1 habort
    · have hstmts : L.stmts L.leftover = [.label tok, s'] := htwo
      rw [hstmts] at hs h
      rcases List.mem_cons.mp hs with rfl | hs
      · exact habort
      · cases List.mem_singleton.mp hs
        -- the label is defined, since there is room for it
        obtain ⟨-, hfits⟩ := h [] (.label tok) [s] L.entered rfl rfl
        obtain ⟨labels, hdef⟩ := labelDefine_isOk_iff.mpr hfits
        have hlabel := doStmt_label_iff.mpr ⟨labels, hdef, rfl⟩
        exact (h [.label tok] s [] _ rfl (foldlM_cons_ok_iff.mpr ⟨_, hlabel, rfl⟩)).1 habort
  · rintro ⟨hused, hfits⟩ ss₁ s ss₂ st heq hst
    refine ⟨fun habort => hused (haborts.mp ⟨s, ?_, habort⟩), hfits ss₁ s ss₂ st heq hst⟩
    rw [heq]
    exact List.mem_append_right _ (.head _)

/-- `asm_compile` returns 1 or 0. -/
def GivesResult (env : AsmEnv) (src : List Byte) : Prop :=
  (∃ ctx, asmCompile env src = .ok ctx) ∨ ∃ why, asmCompile env src = .error (.fail why)

theorem givesResult_iff_reports : GivesResult env src ↔ Reports (asmCompile env src) := by
  unfold GivesResult
  cases asmCompile env src with
  | ok ctx => exact iff_of_true (.inl ⟨ctx, rfl⟩) (.ok ctx)
  | error w =>
    rw [reports_error_iff]
    cases w with
    | fail why => exact iff_of_true (.inr ⟨why, rfl⟩) rfl
    | exit why => exact iff_of_false (by simp) (by simp [AsmStop.kind])
    | overrun => exact iff_of_false (by simp) (by simp [AsmStop.kind])

/-- `asm_compile` comes back with a result exactly if each line that it comes to is harmless. -/
theorem givesResult_iff (env : AsmEnv) (src : List Byte) :
    GivesResult env src ↔ ∀ L : ReachedLine env src, L.Harmless := by
  rw [givesResult_iff_reports]
  constructor
  · intro h L
    refine L.reports_iff.mp fun w hw => h w ?_
    have hloop : (splitLines src).foldlM (asmLine env) (.init env) = .error w :=
      foldlM_error_iff.mpr ⟨L.before, L.line, L.after, L.st, L.split, L.reached, hw⟩
    unfold asmCompile
    rw [hloop]
  · intro h w hw
    unfold asmCompile at hw
    cases hloop : (splitLines src).foldlM (asmLine env) (.init env) with
    | error w' =>
      rw [hloop] at hw
      cases hw
      obtain ⟨before, line, after, st, hsplit, hst, hline⟩ := foldlM_error_iff.mp hloop
      exact (ReachedLine.reports_iff ⟨before, line, after, hsplit, st, hst⟩).mpr (h _) w hline
    | ok st =>
      rw [hloop] at hw
      have hres : patchesResolve st.ctx = .error w := hw
      have hsources := foldlM_asmLine_ok hloop
      have hall := (assembled_sources (sourceLines_readIn env src) hsources).1
      rcases patchesResolve_total hall.patch_fits with ⟨-, c, hc⟩ | ⟨-, err, herr⟩
      · rw [hres] at hc
        cases hc
      · rw [hres] at herr
        cases herr
        rfl

end Result

/-- A missing comma ends the process. -/
theorem missing_comma_exits :
    ¬ GivesResult zeroEnv (lit "mov ax 1") ∧
      asmCompile zeroEnv (lit "mov ax 1") = .error (.exit (.expectedComma 1)) := by
  have hexit : asmCompile zeroEnv (lit "mov ax 1") = .error (.exit (.expectedComma 1)) := rfl
  refine ⟨?_, hexit⟩
  unfold GivesResult
  rw [hexit]
  simp

end Dvm
