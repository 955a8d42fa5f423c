/-
# What a statement does to the assembler's context

The inversion lemmas of `Dvm.Asm.Defs`: for each part of a source line, all that a successful
run of it can have done.  Everything that is proved about assembled sources is derived from
them.
-/
import Dvm.Base.Loops
import Dvm.Asm.Defs

namespace Dvm

open Bytes Table Loops

/-! ## 1. Emissions -/

/-- The text buffer with `bs` behind it. -/
def Buf.Adds (b b' : Buf) (bs : List Byte) : Prop := b'.bytes = b.bytes ++ bs

theorem bufPut_adds {b b' : Buf} {bs : List Byte} (h : bufPut b bs = .ok b') : b.Adds b' bs := by
  unfold bufPut at h
  split at h
  · cases h
    rfl
  · cases h

/-- All that an emission can do to the context. -/
inductive Emitted (ctx : AsmCtx) : Emit → AsmCtx → Prop
  | bytes {bs : List Byte} {b : Buf} : ctx.text.Adds b bs →
      Emitted ctx (.bytes bs) { ctx with text := b }
  /-- The label is a code label defined above. -/
  | codeDef {name : CStr} {i : Nat} {l : AsmLabel} {b : Buf} :
      labelFind ctx.labels name = some (i, l) → l.IsCodeDef →
      ctx.text.Adds b (offsetBytes l.offset) →
      Emitted ctx (.codeRef name) { ctx with text := b }
  | codePatch {name : CStr} {line : Nat} {b : Buf} :
      (∀ i l, labelFind ctx.labels name = some (i, l) → l.flags ≠ dvmSymExtern) →
      ctx.text.Adds b (offsetBytes 0) →
      Emitted ctx (.codeRef name)
        { ctx with
          text := b
          patches := ctx.patches ++ [⟨name, ctx.text.bytes.length, false, line⟩] }
  /-- The label is an extern so far. -/
  | codeRel {name : CStr} {line i : Nat} {l : AsmLabel} {b : Buf} :
      labelFind ctx.labels name = some (i, l) → l.flags = dvmSymExtern →
      ctx.text.Adds b (offsetBytes 0) →
      Emitted ctx (.codeRef name)
        { ctx with
          text := b
          patches := ctx.patches ++ [⟨name, ctx.text.bytes.length, false, line⟩]
          rels := ctx.rels ++
            [⟨BitVec.ofNat 32 ctx.text.bytes.length, BitVec.ofNat 32 i, dvmRelCode⟩] }
  | dataDef {name : CStr} {i : Nat} {l : AsmLabel} {b : Buf} :
      labelFind ctx.labels name = some (i, l) → 0 ≤ l.offset → ctx.text.Adds b (le 8 0) →
      Emitted ctx (.dataRef name)
        { ctx with
          text := b
          rels := ctx.rels ++
            [⟨BitVec.ofNat 32 ctx.text.bytes.length, BitVec.ofNat 32 i, dvmRelData⟩] }
  | dataPatch {name : CStr} {line i : Nat} {l : AsmLabel} {b : Buf} :
      labelFind ctx.labels name = some (i, l) → ctx.text.Adds b (le 8 0) →
      Emitted ctx (.dataRef name)
        { ctx with
          text := b
          patches := ctx.patches ++ [⟨name, ctx.text.bytes.length, true, line⟩]
          rels := ctx.rels ++
            [⟨BitVec.ofNat 32 ctx.text.bytes.length, BitVec.ofNat 32 i, dvmRelData⟩] }
  /-- The label is new: it gets a placeholder. -/
  | dataNew {name : CStr} {line : Nat} {b : Buf} : labelFind ctx.labels name = none →
      ctx.labels.length < asmMaxLabels → ctx.text.Adds b (le 8 0) →
      Emitted ctx (.dataRef name)
        { ctx with
          text := b
          labels := ctx.labels ++ [⟨name, dvmSymExtern, dvmSecNone, -1⟩]
          patches := ctx.patches ++ [⟨name, ctx.text.bytes.length, true, line⟩]
          rels := ctx.rels ++
            [⟨BitVec.ofNat 32 ctx.text.bytes.length, BitVec.ofNat 32 ctx.labels.length,
              dvmRelData⟩] }

theorem putText_ok {ctx ctx' : AsmCtx} {bs : List Byte} (h : ctx.putText bs = .ok ctx') :
    ∃ b, ctx.text.Adds b bs ∧ ctx' = { ctx with text := b } := by
  unfold AsmCtx.putText at h
  cases hb : bufPut ctx.text bs with
  | error e => rw [hb] at h; cases h
  | ok b =>
    rw [hb] at h
    cases h
    exact ⟨b, bufPut_adds hb, rfl⟩

theorem addPatch_ok {ctx ctx' : AsmCtx} {p : AsmPatch} (h : ctx.addPatch p = .ok ctx') :
    ctx' = { ctx with patches := ctx.patches ++ [p] } := by
  unfold AsmCtx.addPatch at h
  split at h
  · cases h
  · cases h
    rfl

/-- `sym_index` finds the name, or adds a placeholder for it. -/
theorem symIndex_ok {labels labels' : List AsmLabel} {name : CStr} {k : Nat}
    (h : symIndex labels name = .ok (k, labels')) :
    (∃ l, labelFind labels name = some (k, l) ∧ labels' = labels) ∨
      (labelFind labels name = none ∧ labels.length < asmMaxLabels ∧ k = labels.length ∧
        labels' = labels ++ [⟨name, dvmSymExtern, dvmSecNone, -1⟩]) := by
  unfold symIndex at h
  cases hf : labelFind labels name with
  | some x =>
    simp only [hf, Except.ok.injEq, Prod.mk.injEq] at h
    obtain ⟨rfl, rfl⟩ := h
    exact .inl ⟨x.2, rfl, rfl⟩
  | none =>
    simp only [hf, labelDefine] at h
    split at h
    · cases h
    · next hlt =>
      split at hlt
      · cases hlt
      · next hlen =>
        cases hlt
        cases h
        exact .inr ⟨rfl, Nat.lt_of_not_le hlen, rfl, rfl⟩

theorem addRel_ok {ctx ctx' : AsmCtx} {pos : Nat} {name : CStr} {kind : Byte}
    (h : ctx.addRel pos name kind = .ok ctx') :
    ∃ k labels', symIndex ctx.labels name = .ok (k, labels') ∧
      ctx' = { ctx with
        labels := labels'
        rels := ctx.rels ++ [⟨BitVec.ofNat 32 pos, BitVec.ofNat 32 k, kind⟩] } := by
  unfold AsmCtx.addRel at h
  split at h
  · cases h
  · cases hs : symIndex ctx.labels name with
    | error e => rw [hs] at h; cases h
    | ok x =>
      simp only [hs, Except.ok.injEq] at h
      exact ⟨x.1, x.2, rfl, h.symm⟩

/-- A label that is defined in the text is put down. -/
theorem labelRefCode_of_def {ctx : AsmCtx} {name : CStr} {line i : Nat} {l : AsmLabel}
    (hf : labelFind ctx.labels name = some (i, l)) (hl : l.IsCodeDef) :
    labelRefCode ctx name line = ctx.putText (offsetBytes l.offset) := by
  simp only [labelRefCode, hf, Option.map_some, Option.filter_some, hl, decide_true, if_true]

/-- Any other one needs a patch. -/
theorem labelRefCode_of_not_def {ctx : AsmCtx} {name : CStr} {line : Nat}
    (h : ¬ ∃ i l, labelFind ctx.labels name = some (i, l) ∧ l.IsCodeDef) :
    labelRefCode ctx name line =
      (ctx.addPatch ⟨name, ctx.text.bytes.length, false, line⟩).bind fun c =>
        (c.putText (offsetBytes 0)).bind fun c =>
          if ((labelFind ctx.labels name).map Prod.snd).any fun l => l.flags = dvmSymExtern then
            c.addRel ctx.text.bytes.length name dvmRelCode
          else .ok c := by
  have hnone : (((labelFind ctx.labels name).map Prod.snd).filter fun l => l.IsCodeDef)
      = none := by
    cases hf : labelFind ctx.labels name with
    | none => rfl
    | some x =>
      have hx : ¬ x.2.IsCodeDef := fun hl => h ⟨x.1, x.2, hf, hl⟩
      simp [hx]
  simp only [labelRefCode, hnone]
  rfl

theorem labelRefCode_ok {ctx ctx' : AsmCtx} {name : CStr} {line : Nat}
    (h : labelRefCode ctx name line = .ok ctx') : Emitted ctx (.codeRef name) ctx' := by
  by_cases hdef : ∃ i l, labelFind ctx.labels name = some (i, l) ∧ l.IsCodeDef
  · obtain ⟨i, l, hf, hl⟩ := hdef
    rw [labelRefCode_of_def hf hl] at h
    obtain ⟨b, hb, rfl⟩ := putText_ok h
    exact .codeDef hf hl hb
  · rw [labelRefCode_of_not_def hdef] at h
    obtain ⟨c₁, h₁, h⟩ := bind_ok_iff.mp h
    obtain ⟨c₂, h₂, h₃⟩ := bind_ok_iff.mp h
    cases addPatch_ok h₁
    obtain ⟨b, hb, rfl⟩ := putText_ok h₂
    cases hf : labelFind ctx.labels name with
    | none =>
      rw [hf] at h₃
      cases h₃
      exact .codePatch (fun i l hl => by rw [hf] at hl; cases hl) hb
    | some x =>
      obtain ⟨i, l⟩ := x
      simp only [hf, Option.map_some, Option.any_some, decide_eq_true_eq] at h₃
      split at h₃
      · next hx =>
        obtain ⟨k, labels', hs, rfl⟩ := addRel_ok h₃
        rcases symIndex_ok hs with ⟨l', hf', rfl⟩ | ⟨hnone, -⟩
        · rw [hf, Option.some.injEq, Prod.mk.injEq] at hf'
          obtain ⟨rfl, rfl⟩ := hf'
          exact .codeRel hf hx hb
        · exact absurd (hf.symm.trans hnone) (by simp)
      · next hx =>
        cases h₃
        refine .codePatch (fun i' l' hf' => ?_) hb
        rw [hf, Option.some.injEq, Prod.mk.injEq] at hf'
        exact hf'.2 ▸ hx

theorem labelRefData_ok {ctx ctx' : AsmCtx} {name : CStr} {line : Nat}
    (h : labelRefData ctx name line = .ok ctx') : Emitted ctx (.dataRef name) ctx' := by
  unfold labelRefData at h
  obtain ⟨c₁, h₁, h⟩ := bind_ok_iff.mp h
  obtain ⟨k, labels', hs, rfl⟩ := addRel_ok h₁
  rcases symIndex_ok hs with ⟨l, hf, rfl⟩ | ⟨hnone, hlen, rfl, rfl⟩
  · simp only [hf, Option.map_some, Option.all_some, decide_eq_true_eq] at h
    split at h
    · obtain ⟨c₂, h₂, h₃⟩ := bind_ok_iff.mp h
      cases addPatch_ok h₂
      obtain ⟨b, hb, rfl⟩ := putText_ok h₃
      exact .dataPatch hf hb
    · next hoff =>
      obtain ⟨c₂, h₂, h₃⟩ := bind_ok_iff.mp h
      cases h₂
      obtain ⟨b, hb, rfl⟩ := putText_ok h₃
      exact .dataDef hf (Int.not_lt.mp hoff) hb
  · have hf : labelFind (ctx.labels ++ [⟨name, dvmSymExtern, dvmSecNone, -1⟩]) name
        = some (ctx.labels.length, ⟨name, dvmSymExtern, dvmSecNone, -1⟩) := by
      rw [labelFind, find_append_of_none hnone]
      simp [find]
    simp only [hf, Option.map_some, Option.all_some] at h
    obtain ⟨c₂, h₂, h₃⟩ := bind_ok_iff.mp h
    cases addPatch_ok h₂
    obtain ⟨b, hb, rfl⟩ := putText_ok h₃
    exact .dataNew hnone hlen hb

theorem doEmit_ok {line : Nat} {ctx ctx' : AsmCtx} {e : Emit}
    (h : doEmit line ctx e = .ok ctx') : Emitted ctx e ctx' := by
  cases e with
  | bytes bs =>
    obtain ⟨b, hb, rfl⟩ := putText_ok h
    exact .bytes hb
  | codeRef name => exact labelRefCode_ok h
  | dataRef name => exact labelRefData_ok h
  | stop why => cases h

theorem Emitted.equs {ctx ctx' : AsmCtx} {e : Emit} (h : Emitted ctx e ctx') :
    ctx'.equs = ctx.equs := by
  cases h <;> rfl

/-! ## 2. Labels -/

/-- All that a line can do to the label table; `new` says what a new or newly defined label
looks like. -/
inductive Relabeled (new : AsmLabel → Prop) (labels : List AsmLabel) : List AsmLabel → Prop
  | same : Relabeled new labels labels
  | global {i : Nat} {l : AsmLabel} : labels[i]? = some l →
      Relabeled new labels (labels.set i { l with flags := dvmSymGlobal })
  /-- Only an extern or undefined label is overwritten. -/
  | set {i : Nat} {l l' : AsmLabel} : labels[i]? = some l →
      l.flags = dvmSymExtern ∨ l.offset < 0 → l'.name = l.name → new l' →
      Relabeled new labels (labels.set i l')
  | add {l : AsmLabel} : labelFind labels l.name = none → labels.length < asmMaxLabels → new l →
      Relabeled new labels (labels ++ [l])

/-- A label that is undefined, or defined at the end of the current section. -/
def AsmLabel.NewIn (ctx : AsmCtx) (cursec : DvmSection) (l : AsmLabel) : Prop :=
  l.offset < 0 ∨
    (l.flags ≠ dvmSymExtern ∧ l.sec = cursec ∧ l.offset = (ctx.secBuf cursec).bytes.length)

theorem labelDefine_ok {labels labels' : List AsmLabel} {name : CStr} {flags : Byte}
    {sec : DvmSection} {off : Int} {new : AsmLabel → Prop}
    (h : labelDefine labels name flags sec off = .ok labels') (hnew : new ⟨name, flags, sec, off⟩) :
    Relabeled new labels labels' := by
  unfold labelDefine at h
  cases hf : labelFind labels name with
  | some x =>
    obtain ⟨i, l⟩ := x
    have hi := getElem?_of_find hf
    have hname : l.name = name := key_of_find hf
    have hnew' : new { l with flags := flags, sec := sec, offset := off } := by rwa [hname]
    simp only [hf] at h
    split at h
    · next hx =>
      cases h
      exact .set hi (.inl hx.1) rfl hnew'
    · split at h
      · next hneg =>
        cases h
        exact .set hi (.inr hneg) rfl hnew'
      · cases h
        exact .same
  | none =>
    simp only [hf] at h
    split at h
    · cases h
    · next hlen =>
      cases h
      exact .add hf (Nat.lt_of_not_le hlen) hnew

theorem globalLabel_ok {labels labels' : List AsmLabel} {name : CStr} {cursec : DvmSection}
    {ctx : AsmCtx} (h : globalLabel labels name cursec = .ok labels') :
    Relabeled (AsmLabel.NewIn ctx cursec) labels labels' := by
  unfold globalLabel at h
  cases hf : labelFind labels name with
  | some x =>
    simp only [hf, Except.ok.injEq] at h
    subst h
    exact .global (getElem?_of_find hf)
  | none =>
    simp only [hf] at h
    exact labelDefine_ok h (.inl (show (-1 : Int) < 0 by decide))

theorem defineLabel_ok {ctx : AsmCtx} {labels' : List AsmLabel} {name : CStr}
    {cursec : DvmSection} (h : defineLabel ctx name cursec = .ok labels') :
    Relabeled (AsmLabel.NewIn ctx cursec) ctx.labels labels' := by
  have hlocal : dvmSymLocal ≠ dvmSymExtern := by decide
  have hglobal : dvmSymGlobal ≠ dvmSymExtern := by decide
  refine labelDefine_ok h (.inr ⟨?_, rfl, rfl⟩)
  dsimp only
  split
  · exact hglobal
  · exact hlocal

/-! ## 3. Statements -/

/-- A statement about the label table. -/
def Stmt.Declares : Stmt → Prop
  | .globalDir _ | .externDir _ | .label _ => True
  | _ => False

/-- All that a statement can do to the context. -/
inductive Effect (st : AsmState) : Stmt → AsmCtx → Prop
  | sect {sec : DvmSection} : Effect st (.sect sec) st.ctx
  | equ {name : CStr} {v : BitVec 64} :
      Effect st (.equ name v) { st.ctx with equs := st.ctx.equs ++ [⟨name, v⟩] }
  | declare {s : Stmt} {labels : List AsmLabel} : s.Declares →
      Relabeled (AsmLabel.NewIn st.ctx st.cursec) st.ctx.labels labels →
      Effect st s { st.ctx with labels := labels }
  | data {bs : List Byte} {text data cnst : Buf} :
      (st.cursec = dvmSecCnst ∨ st.cursec = dvmSecData → text = st.ctx.text) →
      Effect st (.data bs) { st.ctx with text := text, data := data, cnst := cnst }
  | code {mnem : CStr} {es : List Emit} {ctx' : AsmCtx} :
      es.foldlM (doEmit st.lineno) st.ctx = .ok ctx' → Effect st (.code mnem es) ctx'

theorem withLabels_ok {ctx ctx' : AsmCtx} {ls : Except AsmStop (List AsmLabel)}
    (h : ctx.withLabels ls = .ok ctx') :
    ∃ labels, ls = .ok labels ∧ ctx' = { ctx with labels := labels } := by
  cases ls with
  | error e => cases h
  | ok labels =>
    cases h
    exact ⟨labels, rfl, rfl⟩

theorem doStmtCtx_ok {st : AsmState} {s : Stmt} {ctx' : AsmCtx}
    (h : doStmtCtx st s = .ok ctx') : Effect st s ctx' := by
  cases s with
  | sect sec =>
    cases h
    exact .sect
  | equ name v =>
    cases h
    exact .equ
  | globalDir name =>
    obtain ⟨labels, hls, rfl⟩ := withLabels_ok h
    exact .declare trivial (globalLabel_ok hls)
  | externDir name =>
    obtain ⟨labels, hls, rfl⟩ := withLabels_ok h
    exact .declare trivial (labelDefine_ok hls (.inl (show (-1 : Int) < 0 by decide)))
  | label name =>
    obtain ⟨labels, hls, rfl⟩ := withLabels_ok h
    exact .declare trivial (defineLabel_ok hls)
  | data bs =>
    simp only [doStmtCtx, putData] at h
    split at h
    · cases h
    · cases h
      split
      · exact .data fun _ => rfl
      · next hc =>
        split
        · exact .data fun _ => rfl
        · next hd => exact .data fun hsec => absurd hsec (not_or.mpr ⟨hc, hd⟩)
  | code mnem es => exact .code h
  | stop why => cases h

theorem foldlM_doEmit_equs {line : Nat} {es : List Emit} {ctx ctx' : AsmCtx}
    (h : es.foldlM (doEmit line) ctx = .ok ctx') : ctx'.equs = ctx.equs := by
  induction es generalizing ctx with
  | nil =>
    cases h
    rfl
  | cons e es ih =>
    obtain ⟨c₁, h₁, h₂⟩ := foldlM_cons_ok_iff.mp h
    rw [ih h₂, (doEmit_ok h₁).equs]

end Dvm
