/-
# What the line number is for

`asm_compile` counts lines for its messages only.  Two runs that count differently read a line
as the same effects, carry them out alike, and end alike: what differs is the number in a
message, and the one a patch keeps for its message.
-/
import Dvm.Asm.Compile

namespace Dvm

open Loops

/-! ## 1. Ends and effects up to line numbers -/

/-- How `asm_compile` ends, without the message. -/
inductive AsmEnd where
  | fail | exit | overrun
  deriving DecidableEq, Repr

def AsmStop.kind : AsmStop → AsmEnd
  | .fail _ => .fail
  | .exit _ => .exit
  | .overrun => .overrun

def AsmStop.Like (w w' : AsmStop) : Prop := w.kind = w'.kind

inductive Emit.Like : Emit → Emit → Prop
  | same (e : Emit) : Emit.Like e e
  | stop {w w' : AsmStop} : w.Like w' → Emit.Like (.stop w) (.stop w')

/-- The same effects up to the messages. -/
def EmitsLike (es es' : List Emit) : Prop := List.Forall₂ Emit.Like es es'

inductive Stmt.Like : Stmt → Stmt → Prop
  | same (s : Stmt) : Stmt.Like s s
  | code {es es' : List Emit} (mnem : CStr) : EmitsLike es es' →
      Stmt.Like (.code mnem es) (.code mnem es')
  | stop {w w' : AsmStop} : w.Like w' → Stmt.Like (.stop w) (.stop w')

def StmtsLike (ss ss' : List Stmt) : Prop := List.Forall₂ Stmt.Like ss ss'

theorem EmitsLike.refl (es : List Emit) : EmitsLike es es := by
  induction es with
  | nil => exact .nil
  | cons e es ih => exact .cons (.same e) ih

theorem EmitsLike.cons {es es' : List Emit} (e : Emit) (h : EmitsLike es es') :
    EmitsLike (e :: es) (e :: es') :=
  List.Forall₂.cons (.same e) h

theorem EmitsLike.stop {w w' : AsmStop} (h : w.Like w') : EmitsLike [.stop w] [.stop w'] :=
  List.Forall₂.cons (.stop h) .nil

theorem StmtsLike.single {s s' : Stmt} (h : s.Like s') : StmtsLike [s] [s'] :=
  List.Forall₂.cons h .nil

theorem EmitsLike.ite {c : Prop} [Decidable c] {es es' fs fs' : List Emit} (h : EmitsLike es es')
    (hf : EmitsLike fs fs') : EmitsLike (if c then es else fs) (if c then es' else fs') := by
  split
  · exact h
  · exact hf

theorem StmtsLike.ite {c : Prop} [Decidable c] {ss ss' ts ts' : List Stmt} (h : StmtsLike ss ss')
    (ht : StmtsLike ts ts') : StmtsLike (if c then ss else ts) (if c then ss' else ts') := by
  split
  · exact h
  · exact ht

/-! ## 2. Reading a line -/

section Reading

variable {n n' : Nat}

theorem reqReg_like {s : CStr} {k k' : Reg → List Emit} (h : ∀ r, EmitsLike (k r) (k' r)) :
    EmitsLike (reqReg n s k) (reqReg n' s k') := by
  unfold reqReg
  cases parseReg s with
  | some r => exact h r
  | none => exact .stop rfl

theorem reqFpreg_like {s : CStr} {k k' : Reg → List Emit} (h : ∀ r, EmitsLike (k r) (k' r)) :
    EmitsLike (reqFpreg n s k) (reqFpreg n' s k') := by
  unfold reqFpreg
  cases parseFpreg s with
  | some r => exact h r
  | none => exact .stop rfl

theorem reqMem_like {s : CStr} {w w' : AsmStop} {k k' : Reg → List Emit} (hw : w.Like w')
    (h : ∀ r, EmitsLike (k r) (k' r)) : EmitsLike (reqMem s w k) (reqMem s w' k') := by
  unfold reqMem
  cases parseMem s with
  | some r => exact h r
  | none => exact .stop hw

theorem expectComma_like (p : List Byte) :
    SideBySide AsmStop.Like Eq (expectComma p n) (expectComma p n') := by
  unfold expectComma
  cases skipWs p with
  | nil => exact rfl
  | cons c rest =>
    by_cases hc : c = ch ','
    · simp only [hc, if_true]
      exact rfl
    · simp only [hc, if_false]
      exact rfl

theorem operands₂_like {p : List Byte} {k k' : CStr → CStr → List Emit}
    (h : ∀ a b, EmitsLike (k a b) (k' a b)) : EmitsLike (operands₂ n p k) (operands₂ n' p k') := by
  simp only [operands₂]
  rcases (@expectComma_like n n' (readTok asmLabelLen p).2).cases with
    ⟨q, _, hq, hq', rfl⟩ | ⟨w, w', hq, hq', hw⟩
  · rw [hq, hq']
    exact h _ _
  · rw [hq, hq']
    exact .stop hw

theorem sizedLoadOperands_like {p : List Byte} {k k' : CStr → CStr → CStr → List Emit}
    (h : ∀ a size b, EmitsLike (k a size b) (k' a size b)) :
    EmitsLike (sizedLoadOperands n p k) (sizedLoadOperands n' p k') := by
  simp only [sizedLoadOperands]
  rcases (@expectComma_like n n' (readTok asmLabelLen p).2).cases with
    ⟨q, _, hq, hq', rfl⟩ | ⟨w, w', hq, hq', hw⟩
  · rw [hq, hq']
    exact h _ _ _
  · rw [hq, hq']
    exact .stop hw

theorem parseMov_like {strtod : Strtod} {equs : List AsmEqu} {p : List Byte} :
    EmitsLike (parseForm strtod equs n .mov p) (parseForm strtod equs n' .mov p) := by
  unfold parseForm
  refine operands₂_like fun a b => ?_
  cases parseMem a with
  | some md => exact reqReg_like fun rs => .refl _
  | none =>
    cases parseMem b with
    | some ms => exact reqReg_like fun rd => .refl _
    | none =>
      refine reqReg_like fun rd => ?_
      cases parseReg b with
      | some rs => exact .refl _
      | none =>
        exact .ite (.refl _) (.ite (.refl _) (.stop rfl))

theorem parseSizedLoad_like {strtod : Strtod} {equs : List AsmEqu} {p : List Byte}
    {op8 op16 op32 op8Off op16Off op32Off : Op} :
    EmitsLike (parseForm strtod equs n (.sizedLoad op8 op16 op32 op8Off op16Off op32Off) p)
      (parseForm strtod equs n' (.sizedLoad op8 op16 op32 op8Off op16Off op32Off) p) := by
  unfold parseForm
  refine sizedLoadOperands_like fun a size b => reqReg_like fun rd => reqMem_like rfl fun rs => ?_
  exact .ite (.refl _) (.ite (.refl _) (.ite (.refl _) (.stop rfl)))

theorem parseForm_like {strtod : Strtod} {equs : List AsmEqu} {form : Form} {p : List Byte} :
    EmitsLike (parseForm strtod equs n form p) (parseForm strtod equs n' form p) := by
  unfold parseForm
  cases form with
  | mov => exact @parseMov_like n n' strtod equs p
  | sizedStore op opOff =>
    exact operands₂_like fun a b => reqReg_like fun rs => reqMem_like rfl fun rd => .refl _
  | sizedLoad => exact @parseSizedLoad_like n n' strtod equs p _ _ _ _ _ _
  | alu2 op =>
    exact operands₂_like fun a b => .cons _ (reqReg_like fun rd => reqReg_like fun rs => .refl _)
  | alu1 op => exact .cons _ (reqReg_like fun rd => .refl _)
  | jmp1 op => exact .refl _
  | enter => exact .refl _
  | bare op => exact .refl _
  | call => exact operands₂_like fun ok err => .refl _
  | falu2 op =>
    exact operands₂_like fun a b =>
      .cons _ (reqFpreg_like fun rd => reqFpreg_like fun rs => .refl _)
  | fmovi => exact operands₂_like fun a b => .cons _ (reqFpreg_like fun rd => .refl _)
  | fmovm =>
    exact operands₂_like fun a b =>
      reqMem_like rfl fun rs => .cons _ (reqFpreg_like fun rd => .refl _)
  | fmovs =>
    exact operands₂_like fun a b =>
      reqMem_like rfl fun rd => .cons _ (reqFpreg_like fun rs => .refl _)
  | itof =>
    exact operands₂_like fun a b => .cons _ (reqFpreg_like fun rd => reqReg_like fun rs => .refl _)
  | ftoi =>
    exact operands₂_like fun a b => .cons _ (reqReg_like fun rd => reqFpreg_like fun rs => .refl _)
  | callr => exact operands₂_like fun a err => reqReg_like fun rd => .refl _
  | lea => exact operands₂_like fun a b => reqReg_like fun rd => reqMem_like rfl fun rs => .refl _

theorem stringChars_escape {k : Nat} {e : Byte} {p : List Byte} (hlong : ¬stringMax - 1 ≤ k) :
    stringChars n k (ch '\\' :: e :: p) = (stringChars n (k + 1) p).map (unescape e :: ·) := by
  have hend : ¬(ch '\\' = 0 ∨ ch '\\' = ch '"') := by decide
  rw [stringChars.eq_def]
  simp only [hend, hlong, if_true, if_false]
  cases stringChars n (k + 1) p <;> rfl

theorem stringChars_char {k : Nat} {c : Byte} {p : List Byte} (hend : ¬(c = 0 ∨ c = ch '"'))
    (hlong : ¬stringMax - 1 ≤ k) (hesc : c ≠ ch '\\') :
    stringChars n k (c :: p) = (stringChars n (k + 1) p).map (c :: ·) := by
  rw [stringChars.eq_def]
  simp only [hend, hlong, hesc, if_false]
  cases stringChars n (k + 1) p <;> rfl

/-- A string is read the same way in both counts. -/
theorem stringChars_like (k : Nat) (p : List Byte) :
    SideBySide AsmStop.Like Eq (stringChars n k p) (stringChars n' k p) := by
  match p with
  | [] => exact rfl
  | c :: p =>
    by_cases hend : c = 0 ∨ c = ch '"'
    · unfold stringChars
      simp only [hend, if_true]
      exact rfl
    by_cases hlong : stringMax - 1 ≤ k
    · unfold stringChars
      simp only [hend, hlong, if_true, if_false]
      exact rfl
    by_cases hesc : c = ch '\\'
    · subst hesc
      match p with
      | [] =>
        unfold stringChars
        simp only [hend, hlong, if_true, if_false]
        exact rfl
      | e :: p =>
        rw [stringChars_escape hlong, stringChars_escape hlong]
        exact (stringChars_like (k + 1) p).map fun _ _ h => congrArg _ h
    · rw [stringChars_char hend hlong hesc, stringChars_char hend hlong hesc]
      exact (stringChars_like (k + 1) p).map fun _ _ h => congrArg _ h
termination_by p.length

theorem parseString_like (p : List Byte) :
    SideBySide AsmStop.Like Eq (parseString n p) (parseString n' p) := by
  cases p with
  | nil => exact rfl
  | cons c p =>
    unfold parseString
    by_cases hc : c = ch '"'
    · simp only [hc, if_true]
      exact stringChars_like 0 p
    · simp only [hc, if_false]
      exact rfl

theorem parseData_like {equs : List AsmEqu} {mnem : CStr} {p : List Byte} :
    StmtsLike (parseData equs n mnem p) (parseData equs n' mnem p) := by
  simp only [parseData]
  refine .ite (.ite (.single (.same _)) (.single (.stop rfl))) ?_
  refine .ite (.single (.same _)) (.ite (.single (.same _)) (.ite (.single (.same _)) ?_))
  refine .ite ?_ (.single (.stop rfl))
  rcases (@parseString_like n n' (skipWs p)).cases with
    ⟨bs, _, hs, hs', rfl⟩ | ⟨w, w', hs, hs', hw⟩
  · rw [hs, hs']
    exact .single (.same _)
  · rw [hs, hs']
    exact .single (.stop hw)

theorem parseDirective_like {equs : List AsmEqu} {p : List Byte} :
    StmtsLike (parseDirective equs n p) (parseDirective equs n' p) := by
  simp only [parseDirective]
  refine .ite (.single (.same _)) (.ite (.single (.same _)) (.ite (.single (.same _)) ?_))
  refine .ite ?_ (.single (.stop rfl))
  rcases (@expectComma_like n n' (readTok asmLabelLen (readTok asmLabelLen p).2).2).cases with
    ⟨q, _, hq, hq', rfl⟩ | ⟨w, w', hq, hq', hw⟩
  · rw [hq, hq']
    exact .ite (.single (.same _)) (.ite (.single (.same _)) (.single (.stop rfl)))
  · rw [hq, hq']
    exact .single (.stop hw)

theorem parseInstr_like {strtod : Strtod} {equs : List AsmEqu} {cursec : DvmSection} {mnem : CStr}
    {p : List Byte} :
    StmtsLike (parseInstr strtod equs cursec n mnem p)
      (parseInstr strtod equs cursec n' mnem p) := by
  unfold parseInstr parseCode
  refine .ite parseData_like ?_
  cases codeForms.lookup mnem with
  | none => exact .single (.stop rfl)
  | some form => exact .single (.code mnem parseForm_like)

/-- A line is read as the same effects in both counts. -/
theorem parseLine_like {strtod : Strtod} {equs : List AsmEqu} {cursec : DvmSection}
    {buf : List Byte} :
    StmtsLike (parseLine strtod equs cursec n buf) (parseLine strtod equs cursec n' buf) := by
  unfold parseLine
  refine .ite .nil (.ite parseDirective_like ?_)
  refine .ite (.single (.same _)) (.ite (.single (.same _)) (.ite ?_ parseInstr_like))
  exact .ite (.single (.same _)) (List.Forall₂.cons (.same _) parseInstr_like)

end Reading

/-! ## 3. Carrying out a line -/

/-- A patch without its line number. -/
def AsmPatch.site (p : AsmPatch) : CStr × Nat × Bool := (p.name, p.patchAt, p.is64)

/-- The patches are the same up to their line numbers, all else is the same. -/
structure AsmCtx.Like (ctx ctx' : AsmCtx) : Prop where
  text : ctx'.text = ctx.text
  data : ctx'.data = ctx.data
  cnst : ctx'.cnst = ctx.cnst
  labels : ctx'.labels = ctx.labels
  patches : ctx'.patches.map AsmPatch.site = ctx.patches.map AsmPatch.site
  equs : ctx'.equs = ctx.equs
  rels : ctx'.rels = ctx.rels

/-- The line numbers and the line buffers do not matter. -/
structure AsmState.Like (st st' : AsmState) : Prop where
  ctx : st.ctx.Like st'.ctx
  cursec : st'.cursec = st.cursec

theorem AsmCtx.Like.refl (ctx : AsmCtx) : ctx.Like ctx := ⟨rfl, rfl, rfl, rfl, rfl, rfl, rfl⟩

theorem AsmCtx.Like.trans {c₁ c₂ c₃ : AsmCtx} (h : c₁.Like c₂) (h' : c₂.Like c₃) : c₁.Like c₃ where
  text := h'.text.trans h.text
  data := h'.data.trans h.data
  cnst := h'.cnst.trans h.cnst
  labels := h'.labels.trans h.labels
  patches := h'.patches.trans h.patches
  equs := h'.equs.trans h.equs
  rels := h'.rels.trans h.rels

theorem AsmState.Like.trans {s₁ s₂ s₃ : AsmState} (h : s₁.Like s₂) (h' : s₂.Like s₃) :
    s₁.Like s₃ :=
  ⟨h.ctx.trans h'.ctx, h'.cursec.trans h.cursec⟩

section Steps

variable {ctx ctx' : AsmCtx} {n n' : Nat}

theorem AsmCtx.Like.secBuf (h : ctx.Like ctx') (sec : DvmSection) :
    ctx'.secBuf sec = ctx.secBuf sec := by
  unfold AsmCtx.secBuf
  rw [h.cnst, h.data, h.text]

theorem putText_like (h : ctx.Like ctx') (bs : List Byte) :
    SideBySide AsmStop.Like AsmCtx.Like (ctx.putText bs) (ctx'.putText bs) := by
  unfold AsmCtx.putText
  rw [h.text]
  cases bufPut ctx.text bs with
  | error w => exact rfl
  | ok b => exact { h with text := rfl }

theorem addPatch_like (h : ctx.Like ctx') {p p' : AsmPatch} (hp : p'.site = p.site) :
    SideBySide AsmStop.Like AsmCtx.Like (ctx.addPatch p) (ctx'.addPatch p') := by
  have hlen := congrArg List.length h.patches
  rw [List.length_map, List.length_map] at hlen
  have hps : (ctx'.patches ++ [p']).map AsmPatch.site = (ctx.patches ++ [p]).map AsmPatch.site := by
    rw [List.map_append, List.map_append, h.patches, List.map_singleton, List.map_singleton, hp]
  unfold AsmCtx.addPatch
  rw [hlen]
  split
  · exact rfl
  · exact { h with patches := hps }

theorem addRel_like (h : ctx.Like ctx') (pos : Nat) (name : CStr) (kind : Byte) :
    SideBySide AsmStop.Like AsmCtx.Like (ctx.addRel pos name kind) (ctx'.addRel pos name kind) := by
  unfold AsmCtx.addRel
  rw [h.rels, h.labels]
  split
  · exact rfl
  · cases symIndex ctx.labels name with
    | error w => exact rfl
    | ok x => exact { h with labels := rfl, rels := rfl }

theorem labelRefCode_like (h : ctx.Like ctx') (name : CStr) :
    SideBySide AsmStop.Like AsmCtx.Like (labelRefCode ctx name n) (labelRefCode ctx' name n') := by
  simp only [labelRefCode, h.labels, h.text]
  cases ((labelFind ctx.labels name).map Prod.snd).filter fun l => l.IsCodeDef with
  | some l => exact putText_like h _
  | none =>
    refine SideBySide.bind (addPatch_like h ?_) fun c d hcd => ?_
    · exact rfl
    · refine (putText_like hcd _).bind fun c d hcd => ?_
      split
      · exact addRel_like hcd _ _ _
      · exact hcd

theorem labelRefData_like (h : ctx.Like ctx') (name : CStr) :
    SideBySide AsmStop.Like AsmCtx.Like (labelRefData ctx name n) (labelRefData ctx' name n') := by
  simp only [labelRefData, h.text]
  refine (addRel_like h _ _ _).bind fun c d hcd => ?_
  rw [hcd.labels]
  split
  · refine SideBySide.bind (addPatch_like hcd ?_) fun c d hcd => putText_like hcd _
    exact rfl
  · exact putText_like hcd _

theorem doEmit_like (h : ctx.Like ctx') {e e' : Emit} (he : e.Like e') :
    SideBySide AsmStop.Like AsmCtx.Like (doEmit n ctx e) (doEmit n' ctx' e') := by
  cases he with
  | stop hw => exact hw
  | same e =>
    cases e with
    | bytes bs => exact putText_like h bs
    | codeRef name => exact labelRefCode_like h name
    | dataRef name => exact labelRefData_like h name
    | stop w => exact rfl

theorem withLabels_like (h : ctx.Like ctx') (ls : Except AsmStop (List AsmLabel)) :
    SideBySide AsmStop.Like AsmCtx.Like (ctx.withLabels ls) (ctx'.withLabels ls) := by
  cases ls with
  | error w => exact rfl
  | ok labels => exact { h with labels := rfl }

theorem putData_like (h : ctx.Like ctx') (cursec : DvmSection) (bs : List Byte) :
    SideBySide AsmStop.Like AsmCtx.Like (putData ctx cursec bs) (putData ctx' cursec bs) := by
  unfold putData
  rw [h.secBuf]
  cases bufPut (ctx.secBuf cursec) bs with
  | error w => exact rfl
  | ok b =>
    by_cases hcnst : cursec = dvmSecCnst
    · simp only [hcnst, if_true]
      exact { h with cnst := rfl }
    · by_cases hdata : cursec = dvmSecData
      · simp only [hdata, if_true]
        exact { h with data := rfl }
      · simp only [hcnst, hdata, if_false]
        exact { h with text := rfl }

end Steps

section Lines

variable {st st' : AsmState}

theorem doStmtCtx_like (h : st.Like st') {s s' : Stmt} (hs : s.Like s') :
    SideBySide AsmStop.Like AsmCtx.Like (doStmtCtx st s) (doStmtCtx st' s') := by
  cases hs with
  | stop hw => exact hw
  | code mnem hes =>
    exact SideBySide.foldlM (R := Emit.Like) (fun _ _ _ _ hcd he => doEmit_like hcd he) hes h.ctx
  | same s =>
    cases s with
    | sect sec => exact h.ctx
    | equ name v => exact { h.ctx with equs := by rw [h.ctx.equs] }
    | globalDir name =>
      simp only [doStmtCtx, h.cursec, h.ctx.labels]
      exact withLabels_like h.ctx _
    | externDir name =>
      simp only [doStmtCtx, h.ctx.labels]
      exact withLabels_like h.ctx _
    | label name =>
      simp only [doStmtCtx, defineLabel, h.cursec, h.ctx.labels, h.ctx.secBuf]
      exact withLabels_like h.ctx _
    | data bs =>
      simp only [doStmtCtx, h.cursec]
      exact putData_like h.ctx _ _
    | code mnem es =>
      exact SideBySide.foldlM (R := Emit.Like) (fun _ _ _ _ hcd he => doEmit_like hcd he)
        (EmitsLike.refl es) h.ctx
    | stop w => exact rfl

theorem doStmt_like (h : st.Like st') {s s' : Stmt} (hs : s.Like s') :
    SideBySide AsmStop.Like AsmState.Like (doStmt st s) (doStmt st' s') := by
  unfold doStmt
  rcases (doStmtCtx_like h hs).cases with ⟨c, c', hc, hc', hlike⟩ | ⟨w, w', hw, hw', hlike⟩
  · rw [hc, hc']
    refine ⟨hlike, ?_⟩
    cases hs with
    | stop _ => exact h.cursec
    | code _ _ => exact h.cursec
    | same s =>
      cases s with
      | sect sec => rfl
      | _ => exact h.cursec
  · rw [hw, hw']
    exact hlike

/-- A line is carried out alike where its effects are the same. -/
theorem doStmts_like (h : st.Like st') {ss ss' : List Stmt} (hss : StmtsLike ss ss') :
    SideBySide AsmStop.Like AsmState.Like (ss.foldlM doStmt st) (ss'.foldlM doStmt st') :=
  SideBySide.foldlM (R := Stmt.Like) (fun _ _ _ _ h hs => doStmt_like h hs) hss h

end Lines

/-! ## 4. The end of the source -/

theorem patchResolve_like (labels : List AsmLabel) (text : Buf) {p p' : AsmPatch}
    (hp : p'.site = p.site) :
    SideBySide AsmStop.Like (fun r r' => r'.1 = r.1 ∧ r'.2.isSome = r.2.isSome)
      (patchResolve labels text p) (patchResolve labels text p') := by
  simp only [AsmPatch.site, Prod.mk.injEq] at hp
  obtain ⟨hname, hat, his⟩ := hp
  unfold patchResolve
  rw [hname, hat, his]
  cases labelFind labels p.name with
  | none => exact ⟨rfl, rfl⟩
  | some x =>
    simp only
    split
    · split <;> exact ⟨rfl, rfl⟩
    · split
      · exact ⟨rfl, rfl⟩
      · split
        · exact ⟨rfl, rfl⟩
        · cases bufPatch text p.patchAt (offsetBytes x.2.offset) with
          | error w => exact rfl
          | ok text => exact ⟨rfl, rfl⟩

theorem patchesLoop_like (labels : List AsmLabel) (text : Buf) {ps ps' : List AsmPatch}
    (hps : ps'.map AsmPatch.site = ps.map AsmPatch.site) :
    SideBySide AsmStop.Like (fun r r' => r'.1 = r.1 ∧ r'.2.length = r.2.length)
      (patchesLoop labels text ps) (patchesLoop labels text ps') := by
  induction ps generalizing text ps' with
  | nil =>
    rw [List.map_nil, List.map_eq_nil_iff] at hps
    rw [hps]
    exact ⟨rfl, rfl⟩
  | cons p ps ih =>
    cases ps' with
    | nil => cases hps
    | cons p' ps' =>
      rw [List.map_cons, List.map_cons, List.cons.injEq] at hps
      obtain ⟨hp, hps⟩ := hps
      unfold patchesLoop
      rcases (patchResolve_like labels text hp).cases with
        ⟨⟨text₁, err⟩, ⟨text₁', err'⟩, hr, hr', htext, herr⟩ | ⟨w, w', hw, hw', hlike⟩
      · simp only at htext herr
        subst htext
        simp only [hr, hr']
        rcases (ih text₁' hps).cases with
          ⟨⟨text₂, errs⟩, ⟨text₂', errs'⟩, hl, hl', htext, herrs⟩ | ⟨w, w', hw, hw', hlike⟩
        · simp only at htext herrs
          subst htext
          simp only [hl, hl']
          refine ⟨rfl, ?_⟩
          rw [List.length_append, List.length_append, herrs]
          cases err <;> cases err' <;> first | rfl | cases herr
        · simp only [hw, hw']
          exact hlike
      · simp only [hw, hw']
        exact hlike

theorem patchesResolve_like {ctx ctx' : AsmCtx} (h : ctx.Like ctx') :
    SideBySide AsmStop.Like AsmCtx.Like (patchesResolve ctx) (patchesResolve ctx') := by
  unfold patchesResolve
  rw [h.labels, h.text]
  rcases (patchesLoop_like ctx.labels ctx.text h.patches).cases with
    ⟨⟨text, errs⟩, ⟨text', errs'⟩, hl, hl', htext, herrs⟩ | ⟨w, w', hw, hw', hlike⟩
  · simp only at htext herrs
    subst htext
    simp only [hl, hl']
    cases errs with
    | nil =>
      rw [List.length_nil, List.length_eq_zero_iff] at herrs
      simp only [herrs]
      exact { h with text := rfl, labels := rfl }
    | cons err errs =>
      cases errs' with
      | nil => cases herrs
      | cons err' errs' => exact rfl
  · simp only [hw, hw']
    exact hlike

/-! ## 5. What an assembly gives -/

/-- The result of a successful assembly. -/
structure AsmOutput where
  text : List Byte
  data : List Byte
  cnst : List Byte
  labels : List AsmLabel
  rels : List DvmRel
  deriving DecidableEq, Repr

def AsmCtx.output (ctx : AsmCtx) : AsmOutput where
  text := ctx.text.bytes
  data := ctx.data.bytes
  cnst := ctx.cnst.bytes
  labels := ctx.labels
  rels := ctx.rels

/-- How an assembly ends: the output, or how it stops. -/
def asmOutcome (r : Except AsmStop AsmCtx) : Except AsmEnd AsmOutput :=
  match r with
  | .error w => .error w.kind
  | .ok ctx => .ok ctx.output

theorem AsmCtx.Like.output {ctx ctx' : AsmCtx} (h : ctx.Like ctx') : ctx'.output = ctx.output := by
  unfold AsmCtx.output
  rw [h.text, h.data, h.cnst, h.labels, h.rels]

theorem asmOutcome_like {r r' : Except AsmStop AsmCtx}
    (h : SideBySide AsmStop.Like AsmCtx.Like r r') : asmOutcome r' = asmOutcome r := by
  rcases h.cases with ⟨c, c', rfl, rfl, hlike⟩ | ⟨w, w', rfl, rfl, hlike⟩
  · exact congrArg Except.ok hlike.output
  · exact congrArg Except.error (Eq.symm hlike)

end Dvm
