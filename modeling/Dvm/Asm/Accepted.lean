/-
# Accepted sources

What `asm_compile` leaves behind for a source that it accepts (`asmCompile_accepted`): the
instructions of the code lines one behind the other, every reference to a code label filled in
or left 0 for an extern, and a relocation only at a reference to a label that will be in the
symbol table.
-/
import Mathlib.Data.List.Nodup
import Dvm.Asm.Assembled

namespace Dvm

open Bytes Table Layout Loops

/-! ## 1. All statements of a source -/

/-- The positions where an instruction begins or the last one ends. -/
def LineStarts (gs : List (List Emit)) (p : Nat) : Prop :=
  ∃ k, k ≤ gs.length ∧ p = groupStart Emit.size gs k

theorem LineStarts.append {gs : List (List Emit)} {p : Nat} (h : LineStarts gs p)
    (hs : List (List Emit)) : LineStarts (gs ++ hs) p := by
  obtain ⟨k, hk, rfl⟩ := h
  refine ⟨k, ?_, (groupStart_append hk hs).symm⟩
  rw [List.length_append]
  omega

theorem lineStarts_end (gs : List (List Emit)) : LineStarts gs (total Emit.size gs.flatten) :=
  ⟨gs.length, Nat.le_refl _, (groupStart_length gs).symm⟩

theorem Assembled.mono {starts starts' : Nat → Prop} {es : List Emit} {ctx : AsmCtx}
    (h : Assembled starts es ctx) (hs : ∀ p, starts p → starts' p) : Assembled starts' es ctx :=
  ⟨h.length, h.labels.mono hs, h.items, h.patches, h.rels⟩

/-- The opcodes of a mnemonic. -/
def mnemonicOps (mnem : CStr) : List Op := ((codeForms.lookup mnem).map Form.ops).getD []

/-- An instruction of the source emits one instruction of its mnemonic. -/
def Encoded (c : CStr × List Emit) : Prop := ∃ op ∈ mnemonicOps c.1, Encodes op c.2

theorem foldlM_doEmit_clean {line : Nat} {es : List Emit} {ctx ctx' : AsmCtx}
    (h : es.foldlM (doEmit line) ctx = .ok ctx') : Clean es := by
  induction es generalizing ctx with
  | nil => exact fun why hmem => by cases hmem
  | cons e es ih =>
    obtain ⟨c₁, h₁, h₂⟩ := foldlM_cons_ok_iff.mp h
    intro why hmem
    rcases List.mem_cons.mp hmem with rfl | hmem
    · cases h₁
    · exact ih h₂ why hmem

/-- What a code statement emits is an instruction. -/
theorem encoded_of_code {line : Nat} {sec : DvmSection} {mnem : CStr} {es : List Emit}
    {ctx ctx' : AsmCtx} (hread : (Stmt.code mnem es).ReadIn sec)
    (h : es.foldlM (doEmit line) ctx = .ok ctx') : Encoded (mnem, es) := by
  obtain ⟨form, hform, strtod, equs, line', p, rfl⟩ := hread
  have hfetched := codeForms_fetched _ (mem_of_lookup hform)
  obtain ⟨op, hop, henc⟩ := parseForm_encodesOne hfetched (foldlM_doEmit_clean h)
  exact ⟨op, by rw [mnemonicOps, hform]; exact hop, henc⟩

section Statements

variable {gs : List (List Emit)} {ctx ctx' : AsmCtx}

/-- A label defined in the code section stands where the next instruction begins. -/
theorem Assembled.placed_newIn (h : Assembled (LineStarts gs) gs.flatten ctx) {sec : DvmSection}
    {l : AsmLabel} (hl : l.NewIn ctx sec) : l.Placed (LineStarts gs) := by
  rcases hl with hneg | ⟨hx, hsec, hoff⟩
  · exact AsmLabel.placed_of_neg hneg
  · refine ⟨fun hx' => absurd hx' hx, ?_⟩
    intro _ hcode
    have htext : ctx.secBuf sec = ctx.text := by
      rw [← hsec, hcode]
      rfl
    rw [htext, h.length] at hoff
    exact ⟨_, lineStarts_end gs, hoff⟩

/-- One statement. -/
theorem Assembled.source {x : SourceStmt} (h : Assembled (LineStarts gs) gs.flatten ctx)
    (hx : IsSec x.sec ∧ x.stmt.ReadIn x.sec) (hd : doSource ctx x = .ok ctx') :
    Assembled (LineStarts (gs ++ (x.instr.map Prod.snd).toList))
        (gs ++ (x.instr.map Prod.snd).toList).flatten ctx' ∧ ∀ c ∈ x.instr, Encoded c := by
  obtain ⟨line, sec, s⟩ := x
  obtain ⟨hsec, hread⟩ := hx
  cases doStmtCtx_ok hd with
  | sect => exact ⟨by simpa [SourceStmt.instr] using h, by simp [SourceStmt.instr]⟩
  | equ =>
    refine ⟨?_, by simp [SourceStmt.instr]⟩
    simpa [SourceStmt.instr] using ⟨h.length, h.labels, h.items, h.patches, h.rels⟩
  | declare hdecl hl =>
    have hinstr : SourceStmt.instr ⟨line, sec, s⟩ = none := by
      cases s <;> first | cases hdecl; done | rfl
    have hstep := h.relabel hl fun l hnew => h.placed_newIn hnew
    exact ⟨by simpa [hinstr] using hstep, by simp [hinstr]⟩
  | data htext =>
    cases htext (hsec.data hread)
    refine ⟨?_, by simp [SourceStmt.instr]⟩
    simpa [SourceStmt.instr] using ⟨h.length, h.labels, h.items, h.patches, h.rels⟩
  | @code mnem es _ hes =>
    have hstep := (h.mono fun p hp => hp.append [es]).emits hes
    refine ⟨by simpa [SourceStmt.instr] using hstep, ?_⟩
    intro c hc
    cases hc
    exact encoded_of_code hread hes

/-- All statements. -/
theorem Assembled.sources {xs : List SourceStmt} (h : Assembled (LineStarts gs) gs.flatten ctx)
    (hxs : ∀ x ∈ xs, IsSec x.sec ∧ x.stmt.ReadIn x.sec)
    (hd : xs.foldlM doSource ctx = .ok ctx') :
    Assembled (LineStarts (gs ++ (xs.filterMap SourceStmt.instr).map Prod.snd))
        (gs ++ (xs.filterMap SourceStmt.instr).map Prod.snd).flatten ctx' ∧
      ∀ c ∈ xs.filterMap SourceStmt.instr, Encoded c := by
  induction xs generalizing gs ctx with
  | nil =>
    cases hd
    exact ⟨by simpa using h, by simp⟩
  | cons x xs ih =>
    obtain ⟨c₁, h₁, h₂⟩ := foldlM_cons_ok_iff.mp hd
    obtain ⟨hx, hxs'⟩ := List.forall_mem_cons.mp hxs
    obtain ⟨hone, henc⟩ := h.source hx h₁
    obtain ⟨hall, hencs⟩ := ih hone hxs' h₂
    cases hi : x.instr with
    | none =>
      rw [List.filterMap_cons_none hi]
      exact ⟨by simpa [hi] using hall, hencs⟩
    | some c =>
      rw [List.filterMap_cons_some hi, List.forall_mem_cons]
      exact ⟨by simpa [hi] using hall, henc c hi, hencs⟩

end Statements

/-- What the statements of a source leave. -/
theorem assembled_sources {xs : List SourceStmt} {ctx : AsmCtx}
    (hxs : ∀ x ∈ xs, IsSec x.sec ∧ x.stmt.ReadIn x.sec) (hd : xs.foldlM doSource .init = .ok ctx) :
    Assembled (LineStarts ((xs.filterMap SourceStmt.instr).map Prod.snd))
        ((xs.filterMap SourceStmt.instr).map Prod.snd).flatten ctx ∧
      ∀ c ∈ xs.filterMap SourceStmt.instr, Encoded c := by
  have hinit : Assembled (LineStarts []) ([] : List (List Emit)).flatten .init := assembled_init
  exact hinit.sources hxs hd

/-! ## 2. Patches -/

/-- What a patch stores, and where. -/
def patchStore (labels : List AsmLabel) (q : AsmPatch) : Option (Nat × List Byte) :=
  match labelFind labels q.name with
  | none => none
  | some (_, l) =>
    if q.is64 ∨ l.flags = dvmSymExtern then none else some (q.patchAt, offsetBytes l.offset)

/-- The label of a patch that is resolved: an extern, or defined, in the code section if the
patch is a code reference. -/
def AsmPatch.Resolves (labels : List AsmLabel) (q : AsmPatch) : Prop :=
  ∃ i l, labelFind labels q.name = some (i, l) ∧
    (l.flags = dvmSymExtern ∨ (0 ≤ l.offset ∧ (q.is64 = false → l.sec = dvmSecCode)))

theorem bufPatch_ok {b b' : Buf} {p : Nat} {v : List Byte} (h : bufPatch b p v = .ok b') :
    b'.bytes = patch b.bytes p v := by
  unfold bufPatch at h
  split at h
  · cases h
    rfl
  · cases h

/-- A patch that stores is for a label that is no extern. -/
theorem patchStore_eq_some {labels : List AsmLabel} {q : AsmPatch} {x : Nat × List Byte}
    (h : patchStore labels q = some x) :
    q.is64 = false ∧ ∃ i l, labelFind labels q.name = some (i, l) ∧ l.flags ≠ dvmSymExtern ∧
      x = (q.patchAt, offsetBytes l.offset) := by
  unfold patchStore at h
  split at h
  · cases h
  · next i l hf =>
    split at h
    · cases h
    · next hno =>
      obtain ⟨h64, hext⟩ := not_or.mp hno
      cases h
      exact ⟨Bool.eq_false_iff.mpr h64, i, l, hf, hext, rfl⟩

theorem AsmPatch.resolves_of_find {labels : List AsmLabel} {q : AsmPatch} {i : Nat} {l : AsmLabel}
    (hf : labelFind labels q.name = some (i, l)) :
    q.Resolves labels ↔
      l.flags = dvmSymExtern ∨ (0 ≤ l.offset ∧ (q.is64 = false → l.sec = dvmSecCode)) := by
  constructor
  · rintro ⟨i', l', hf', hl⟩
    rw [hf, Option.some.injEq, Prod.mk.injEq] at hf'
    exact hf'.2 ▸ hl
  · exact fun hl => ⟨i, l, hf, hl⟩

/-- A patch that resolves is stored. -/
theorem patchResolve_of_resolves {labels : List AsmLabel} {text : Buf} {q : AsmPatch}
    (h : q.Resolves labels) :
    patchResolve labels text q = (patchStore labels q).elim (.ok (text, none))
      fun x => (bufPatch text x.1 x.2).map fun text' => (text', none) := by
  obtain ⟨i, l, hf, hl⟩ := h
  by_cases hx : l.flags = dvmSymExtern
  · simp [patchResolve, patchStore, hf, hx]
  · obtain ⟨hoff, hsec⟩ := hl.resolve_left hx
    have hpos : ¬ l.offset < 0 := Int.not_lt.mpr hoff
    cases h64 : q.is64 with
    | true => simp [patchResolve, patchStore, hf, hx, h64, hpos]
    | false =>
      simp only [patchResolve, patchStore, hf, hx, h64, hsec h64, hpos, Bool.false_eq_true,
        ne_eq, not_true_eq_false, or_self, if_false, Option.elim]
      cases bufPatch text q.patchAt (offsetBytes l.offset) <;> rfl

/-- One that does not is reported. -/
theorem patchResolve_reports {labels : List AsmLabel} {text : Buf} {q : AsmPatch}
    (h : ¬ q.Resolves labels) : ∃ err, patchResolve labels text q = .ok (text, some err) := by
  unfold patchResolve
  cases hf : labelFind labels q.name with
  | none => exact ⟨_, rfl⟩
  | some x =>
    rw [AsmPatch.resolves_of_find hf, not_or, not_and_or, Int.not_le] at h
    obtain ⟨hx, hbad⟩ := h
    simp only
    cases h64 : q.is64 with
    | true =>
      have hneg : x.2.offset < 0 := hbad.resolve_right (by simp [h64])
      rw [if_pos rfl, if_pos ⟨hx, hneg⟩]
      exact ⟨_, rfl⟩
    | false =>
      have hcode : x.2.sec ≠ dvmSecCode ∨ x.2.offset < 0 := by
        refine hbad.symm.imp (fun hsec heq => hsec fun _ => heq) id
      rw [if_neg (by simp), if_neg hx, if_pos hcode]
      exact ⟨_, rfl⟩

theorem patchResolve_ok {labels : List AsmLabel} {text text' : Buf} {q : AsmPatch}
    (h : patchResolve labels text q = .ok (text', none)) :
    q.Resolves labels ∧ text'.bytes = patchAll text.bytes (patchStore labels q).toList := by
  by_cases hres : q.Resolves labels
  · refine ⟨hres, ?_⟩
    rw [patchResolve_of_resolves hres] at h
    cases hs : patchStore labels q with
    | none =>
      rw [hs] at h
      cases h
      rfl
    | some x =>
      rw [hs, Option.elim_some] at h
      cases hb : bufPatch text x.1 x.2 with
      | error e =>
        rw [hb] at h
        cases h
      | ok b =>
        rw [hb] at h
        cases h
        exact bufPatch_ok hb
  · obtain ⟨err, herr⟩ := @patchResolve_reports labels text q hres
    rw [herr] at h
    cases h

theorem patchesLoop_ok {labels : List AsmLabel} {qs : List AsmPatch} {text text' : Buf}
    (h : patchesLoop labels text qs = .ok (text', [])) :
    (∀ q ∈ qs, q.Resolves labels) ∧
      text'.bytes = patchAll text.bytes (qs.filterMap (patchStore labels)) := by
  induction qs generalizing text with
  | nil =>
    cases h
    exact ⟨by simp, rfl⟩
  | cons q qs ih =>
    unfold patchesLoop at h
    split at h
    · cases h
    · next text₁ err h₁ =>
      split at h
      · cases h
      · next text₂ errs h₂ =>
        simp only [Except.ok.injEq, Prod.mk.injEq, List.append_eq_nil_iff,
          Option.toList_eq_nil_iff] at h
        obtain ⟨rfl, rfl, rfl⟩ := h
        obtain ⟨hq, hone⟩ := patchResolve_ok h₁
        obtain ⟨hqs, hall⟩ := ih h₂
        refine ⟨List.forall_mem_cons.mpr ⟨hq, hqs⟩, ?_⟩
        rw [hall, hone]
        cases hs : patchStore labels q with
        | none => rw [List.filterMap_cons_none hs]; rfl
        | some x => rw [List.filterMap_cons_some hs]; rfl

theorem patchesResolve_ok {ctx ctx' : AsmCtx} (h : patchesResolve ctx = .ok ctx') :
    (∀ q ∈ ctx.patches, q.Resolves ctx.labels) ∧
      ∃ text, text.bytes = patchAll ctx.text.bytes (ctx.patches.filterMap (patchStore ctx.labels)) ∧
        ctx' = { ctx with text := text } := by
  unfold patchesResolve at h
  split at h
  · cases h
  · next text hl =>
    cases h
    obtain ⟨hqs, htext⟩ := patchesLoop_ok hl
    exact ⟨hqs, text, htext, rfl⟩
  · cases h

/-! ## 3. The result -/

/-- What the text holds at `p` in the end. -/
def Emit.InText (ctx : AsmCtx) (p : Nat) (e : Emit) : Prop :=
  match e with
  | .bytes bs => field ctx.text.bytes p bs.length = bs
  | .codeRef name => ∃ l ∈ ctx.labels, l.name = name ∧
      ((l.IsCodeDef ∧ field ctx.text.bytes p 4 = offsetBytes l.offset) ∨
        (l.flags = dvmSymExtern ∧ field ctx.text.bytes p 4 = offsetBytes 0))
  | .dataRef _ => field ctx.text.bytes p 8 = le 8 0
  | .stop _ => False

/-- The relocation is for the reference `e` at `p`. -/
def RelOf (ctx : AsmCtx) (r : DvmRel) (p : Nat) (e : Emit) : Prop :=
  r.codeOffset = BitVec.ofNat 32 p ∧ ∃ l, ctx.labels[r.symIndex.toNat]? = some l ∧ l.Exported ∧
    ((e = .codeRef l.name ∧ r.kind = dvmRelCode) ∨ (e = .dataRef l.name ∧ r.kind = dvmRelData))

/-- The context of an accepted source with the instructions `gs`. -/
structure Accepted (gs : List (List Emit)) (ctx : AsmCtx) : Prop where
  length : ctx.text.bytes.length = total Emit.size gs.flatten
  labels : LabelsOk (LineStarts gs) ctx.labels
  items : ∀ p e, At Emit.size gs.flatten p e → e.InText ctx p
  patches : ∀ q ∈ ctx.patches, At Emit.size gs.flatten q.patchAt q.ref
  rels : ∀ r ∈ ctx.rels, ∃ p e, At Emit.size gs.flatten p e ∧ RelOf ctx r p e

/-- The position of an emission survives being stored in 32 bits. -/
theorem Accepted.position {gs : List (List Emit)} {ctx : AsmCtx} (h : Accepted gs ctx) {p : Nat}
    {e : Emit} (hat : At Emit.size gs.flatten p e) : (BitVec.ofNat 32 p).toNat = p := by
  have hend := hat.end_le
  have hfits := ctx.text.fits
  rw [h.length] at hfits
  unfold dvmBufMax at hfits
  rw [BitVec.toNat_ofNat, Nat.mod_eq_of_lt (by omega)]

/-- The label that a code reference names, if it is defined. -/
theorem Accepted.codeRef_label {gs : List (List Emit)} {ctx : AsmCtx} (h : Accepted gs ctx)
    {p : Nat} {l : AsmLabel} (hat : At Emit.size gs.flatten p (.codeRef l.name))
    (hl : l ∈ ctx.labels) (hoff : 0 ≤ l.offset) :
    l.IsCodeDef ∧ field ctx.text.bytes p 4 = offsetBytes l.offset := by
  obtain ⟨l', hl', hname, hcase⟩ := h.items p _ hat
  have hsame : l' = l := List.inj_on_of_nodup_map h.labels.nodup hl' hl hname
  rw [hsame] at hcase
  refine hcase.resolve_right ?_
  intro hx
  exact absurd ((h.labels.placed l hl).1 hx.1) (Int.not_lt.mpr hoff)

/-- A defined code label stands in the text or at its end. -/
theorem Accepted.codeDef_le {gs : List (List Emit)} {ctx : AsmCtx} (h : Accepted gs ctx)
    {l : AsmLabel} (hl : l ∈ ctx.labels) (hdef : l.IsCodeDef) :
    ∃ q : Nat, l.offset = q ∧ q ≤ ctx.text.bytes.length := by
  obtain ⟨q, ⟨k, -, rfl⟩, heq⟩ := (h.labels.placed l hl).2 hdef.1 hdef.2.1
  exact ⟨_, heq, h.length ▸ groupStart_le gs k⟩

@[simp] theorem length_offsetBytes (off : Int) : (offsetBytes off).length = 4 := length_le _ _

section Resolve

variable {starts : Nat → Prop} {es : List Emit} {ctx : AsmCtx}

/-- A patch that stores does so at a code reference, and stores its label's offset. -/
theorem Assembled.store (h : Assembled starts es ctx) {x : Nat × List Byte}
    (hx : x ∈ ctx.patches.filterMap (patchStore ctx.labels)) :
    ∃ name i l, At Emit.size es x.1 (.codeRef name) ∧ labelFind ctx.labels name = some (i, l) ∧
      l.flags ≠ dvmSymExtern ∧ x.2 = offsetBytes l.offset := by
  obtain ⟨q, hq, hstore⟩ := List.mem_filterMap.mp hx
  obtain ⟨h32, i, l, hf, hext, rfl⟩ := patchStore_eq_some hstore
  have hat := h.patches q hq
  rw [AsmPatch.ref, h32] at hat
  exact ⟨q.name, i, l, hat, hf, hext, rfl⟩

theorem Assembled.store_fits (h : Assembled starts es ctx) :
    ∀ x ∈ ctx.patches.filterMap (patchStore ctx.labels),
      x.1 + x.2.length ≤ ctx.text.bytes.length := by
  intro x hx
  obtain ⟨name, i, l, hat, -, -, hv⟩ := h.store hx
  rw [hv, length_offsetBytes, h.length]
  exact hat.end_le

/-- It leaves an emission alone, or is for the same reference. -/
theorem Assembled.store_sep (h : Assembled starts es ctx) {x : Nat × List Byte}
    (hx : x ∈ ctx.patches.filterMap (patchStore ctx.labels)) {p : Nat} {e : Emit}
    (hat : At Emit.size es p e) :
    (∃ name i l, e = .codeRef name ∧ labelFind ctx.labels name = some (i, l) ∧
        l.flags ≠ dvmSymExtern ∧ x = (p, offsetBytes l.offset)) ∨
      x.1 + x.2.length ≤ p ∨ p + e.size ≤ x.1 := by
  obtain ⟨name, i, l, hat', hf, hext, hv⟩ := h.store hx
  rw [hv, length_offsetBytes]
  rcases hat.sep hat' with ⟨hp, he⟩ | hsep | hsep
  · exact .inl ⟨name, i, l, he, hf, hext, Prod.ext hp.symm hv⟩
  · exact .inr (.inr hsep)
  · exact .inr (.inl hsep)

/-- The text around a code reference after all patches. -/
theorem Assembled.codeRef_patched (h : Assembled starts es ctx)
    (hq : ∀ q ∈ ctx.patches, q.Resolves ctx.labels) {p : Nat} {name : CStr}
    (hat : At Emit.size es p (.codeRef name)) :
    ∃ l ∈ ctx.labels, l.name = name ∧
      ((l.IsCodeDef ∧
          field (patchAll ctx.text.bytes (ctx.patches.filterMap (patchStore ctx.labels))) p 4
            = offsetBytes l.offset) ∨
        (l.flags = dvmSymExtern ∧
          field (patchAll ctx.text.bytes (ctx.patches.filterMap (patchStore ctx.labels))) p 4
            = offsetBytes 0)) := by
  -- every store at `p` stores the offset of the label that `name` finds
  have hsame : ∀ {i : Nat} {l : AsmLabel}, labelFind ctx.labels name = some (i, l) →
      ∀ x ∈ ctx.patches.filterMap (patchStore ctx.labels), x = (p, offsetBytes l.offset) ∨
        x.1 + x.2.length ≤ p ∨ p + (offsetBytes l.offset).length ≤ x.1 := by
    intro i l hf x hx
    rw [length_offsetBytes]
    rcases h.store_sep hx hat with ⟨name', i', l', he, hf', -, hxp⟩ | hsep
    · cases he
      rw [hf, Option.some.injEq, Prod.mk.injEq] at hf'
      exact .inl (hf'.2 ▸ hxp)
    · exact .inr hsep
  rcases h.items p _ hat with ⟨l, hl, hname, hdef, hfield⟩ | ⟨⟨line, hmem⟩, hfield⟩
  · obtain ⟨i, hi⟩ := List.getElem?_of_mem hl
    have hf : labelFind ctx.labels name = some (i, l) := hname ▸ find_of_nodup h.labels.nodup hi
    have hv := field_patchAll h.store_fits (hsame hf) (.inl (by rwa [length_offsetBytes]))
    rw [length_offsetBytes] at hv
    exact ⟨l, hl, hname, .inl ⟨hdef, hv⟩⟩
  · obtain ⟨i, l, hf, hl⟩ := hq _ hmem
    have hlmem := List.mem_of_getElem? (getElem?_of_find hf)
    refine ⟨l, hlmem, key_of_find hf, ?_⟩
    rcases Decidable.em (l.flags = dvmSymExtern) with hx | hx
    · refine .inr ⟨hx, ?_⟩
      rw [field_patchAll_disjoint h.store_fits, hfield]
      intro x hxmem
      rcases h.store_sep hxmem hat with ⟨name', i', l', he, hf', hx', -⟩ | hsep
      · cases he
        rw [hf, Option.some.injEq, Prod.mk.injEq] at hf'
        exact absurd (hf'.2 ▸ hx) hx'
      · exact hsep
    · obtain ⟨hoff, hsec⟩ := hl.resolve_left hx
      have hstored : (p, offsetBytes l.offset) ∈
          ctx.patches.filterMap (patchStore ctx.labels) := by
        refine List.mem_filterMap.mpr ⟨_, hmem, ?_⟩
        simp only [patchStore, hf, Bool.false_eq_true, hx, or_self, if_false]
      have hv := field_patchAll h.store_fits (hsame hf) (.inr hstored)
      rw [length_offsetBytes] at hv
      exact .inl ⟨⟨hoff, hsec rfl, hx⟩, hv⟩

/-- Everything else is left alone. -/
theorem Assembled.field_patched (h : Assembled starts es ctx) {p : Nat} {e : Emit}
    (hat : At Emit.size es p e) (he : ∀ name, e ≠ .codeRef name) :
    field (patchAll ctx.text.bytes (ctx.patches.filterMap (patchStore ctx.labels))) p e.size
      = field ctx.text.bytes p e.size := by
  refine field_patchAll_disjoint h.store_fits ?_
  intro x hx
  rcases h.store_sep hx hat with ⟨name, i, l, hcode, -⟩ | hsep
  · exact absurd hcode (he name)
  · exact hsep

/-- The label of a relocation will be in the symbol table. -/
theorem Assembled.relOf (h : Assembled starts es ctx)
    (hq : ∀ q ∈ ctx.patches, q.Resolves ctx.labels) {r : DvmRel} {p : Nat} {e : Emit}
    (hr : RelFor ctx r p e) : RelOf ctx r p e := by
  obtain ⟨hpos, l, hi, hl⟩ := hr
  have hpatched : ∀ {is64 : Bool}, ctx.HasPatch l.name p is64 → l.Exported := by
    rintro is64 ⟨line, hmem⟩
    obtain ⟨i, l', hf, hres⟩ := hq _ hmem
    rw [labelFind, find_of_nodup h.labels.nodup hi, Option.some.injEq, Prod.mk.injEq] at hf
    rcases hres with hx | ⟨hoff, -⟩
    · exact .inr (hf.2 ▸ hx)
    · exact .inl (hf.2 ▸ hoff)
  rcases hl with ⟨he, hk, hp⟩ | ⟨he, hk, hdef⟩
  · exact ⟨hpos, l, hi, hpatched hp, .inl ⟨he, hk⟩⟩
  · refine ⟨hpos, l, hi, ?_, .inr ⟨he, hk⟩⟩
    rcases hdef with hoff | hp
    · exact .inl hoff
    · exact hpatched hp

end Resolve

theorem Assembled.accepted {gs : List (List Emit)} {ctx ctx' : AsmCtx}
    (h : Assembled (LineStarts gs) gs.flatten ctx) (hp : patchesResolve ctx = .ok ctx') :
    Accepted gs ctx' := by
  obtain ⟨hq, text, htext, rfl⟩ := patchesResolve_ok hp
  refine ⟨?_, h.labels, fun p e hat => ?_, h.patches, fun r hr => ?_⟩
  · rw [htext, length_patchAll h.store_fits, h.length]
  · have hitem := h.items p e hat
    cases e with
    | bytes bs =>
      have hfield := h.field_patched hat (by simp)
      rw [size_bytes, ← htext] at hfield
      exact hfield.trans hitem
    | codeRef name =>
      have hfield := h.codeRef_patched hq hat
      rwa [← htext] at hfield
    | dataRef name =>
      have hfield := h.field_patched hat (by simp)
      rw [size_dataRef, ← htext] at hfield
      exact hfield.trans hitem
    | stop why => exact hitem
  · obtain ⟨p, e, hat, hfor⟩ := h.rels r hr
    obtain ⟨hpos, l, hl⟩ := h.relOf hq hfor
    exact ⟨p, e, hat, hpos, l, hl⟩

/-- What each instruction of the source emits. -/
def codeEmits (env : AsmEnv) (src : List Byte) : List (List Emit) :=
  (codeLines env src).map Prod.snd

theorem asmCompile_accepted {env : AsmEnv} {src : List Byte} {ctx : AsmCtx}
    (h : asmCompile env src = .ok ctx) :
    Accepted (codeEmits env src) ctx ∧ ∀ c ∈ codeLines env src, Encoded c := by
  obtain ⟨ctx₀, hsrc, hres⟩ := asmCompile_sourceLines h
  obtain ⟨hall, henc⟩ := assembled_sources (sourceLines_readIn env src) hsrc
  rw [filterMap_instr] at hall henc
  exact ⟨hall.accepted hres, henc⟩

end Dvm
