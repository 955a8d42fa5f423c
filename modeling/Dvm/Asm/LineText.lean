/-
# Instruction lines

Where an instruction stands in the source, and where in the text: the line buffer with the line
in it (`sourceReaders`), the mnemonic found there (`instrText`), and the bytes that are left in
the text of an accepted source (`InstrLine.laid`).
-/
import Dvm.Asm.Framing
import Dvm.Asm.Refs

namespace Dvm

open Bytes Table Layout Loops

/-! ## 1. Lines -/

/-- The assembler at each line, with the line in its buffer. -/
def readersFrom (env : AsmEnv) (rd : Reader) : List (List Byte) → List Reader
  | [] => []
  | line :: lines =>
    let rd := rd.enter line
    rd :: readersFrom env ((rd.stmts env).foldl Reader.after rd) lines

/-- The assembler at each line of a source. -/
def sourceReaders (env : AsmEnv) (src : List Byte) : List Reader :=
  readersFrom env (AsmState.init env).reader (splitLines src)

theorem readLines_eq_map (env : AsmEnv) (rd : Reader) (lines : List (List Byte)) :
    readLines env rd lines = (readersFrom env rd lines).map fun rd => rd.place (rd.stmts env) := by
  induction lines generalizing rd with
  | nil => rfl
  | cons line lines ih => rw [readLines, readersFrom, List.map_cons, ih]

theorem sourceLines_getElem? {env : AsmEnv} {src : List Byte} {j : Nat} {rd : Reader}
    (h : (sourceReaders env src)[j]? = some rd) :
    (sourceLines env src)[j]? = some (rd.place (rd.stmts env)) := by
  rw [sourceLines, readLines_eq_map, List.getElem?_map]
  exact congrArg (Option.map _) h

/-- The statements before the last one of a line, itself, and those behind it. -/
theorem sourceLines_split {env : AsmEnv} {src : List Byte} {j : Nat} {rd : Reader}
    (h : (sourceReaders env src)[j]? = some rd) {labels : List SourceStmt} {x : SourceStmt}
    (hplace : rd.place (rd.stmts env) = labels ++ [x]) :
    ∃ after, (sourceLines env src).flatten
      = ((sourceLines env src).take j).flatten ++ labels ++ x :: after := by
  have hline := sourceLines_getElem? h
  rw [hplace] at hline
  obtain ⟨hlt, hget⟩ := List.getElem?_eq_some_iff.mp hline
  refine ⟨((sourceLines env src).drop (j + 1)).flatten, ?_⟩
  conv_lhs => rw [← List.take_append_drop j (sourceLines env src),
    List.drop_eq_getElem_cons hlt, hget, List.flatten_append, List.flatten_cons]
  simp

/-- The mnemonic of a line and what follows it, if there is one. -/
def instrText (buf : List Byte) : Option (CStr × List Byte) :=
  let p := skipWs buf
  if isBlank p ∨ p.head? = some (ch '.') then none
  else
    let (tok, after) := readTok asmLabelLen p
    let after := skipWs after
    if tok = lit "global" ∨ tok = lit "extern" then none
    else if after.head? = some (ch ':') then
      let p := skipWs after.tail
      if isBlank p then none
      else
        let (mnem, after) := readTok asmLabelLen p
        some (mnem, skipWs after)
    else some (tok, after)

/-- The line is an instruction, which a label can precede. -/
theorem parseLine_of_instrText {strtod : Strtod} {equs : List AsmEqu} {cursec : DvmSection}
    {line : Nat} {buf p : List Byte} {mnem : CStr} (h : instrText buf = some (mnem, p)) :
    parseLine strtod equs cursec line buf = parseInstr strtod equs cursec line mnem p ∨
      ∃ tok, parseLine strtod equs cursec line buf
        = .label tok :: parseInstr strtod equs cursec line mnem p := by
  unfold instrText at h
  unfold parseLine
  simp only at h ⊢
  split at h
  · cases h
  · next hinstr =>
    obtain ⟨hblank, hdot⟩ := not_or.mp hinstr
    rw [if_neg hblank, if_neg hdot]
    split at h
    · cases h
    · next htok =>
      obtain ⟨hglobal, hextern⟩ := not_or.mp htok
      rw [if_neg hglobal, if_neg hextern]
      split at h
      · next hcolon =>
        rw [if_pos hcolon]
        split at h
        · cases h
        · next hrest =>
          cases h
          rw [if_neg hrest]
          exact .inr ⟨_, rfl⟩
      · next hcolon =>
        cases h
        rw [if_neg hcolon]
        exact .inl rfl

/-! ## 2. Instructions in the text -/

/-- A line with an instruction. -/
structure InstrLine (env : AsmEnv) (src : List Byte) where
  index : Nat
  rd : Reader
  read : (sourceReaders env src)[index]? = some rd
  mnem : CStr
  operands : List Byte
  text : instrText rd.lineBuf = some (mnem, operands)
  form : Form
  known : codeForms.lookup mnem = some form

section Line

variable {env : AsmEnv} {src : List Byte} {ctx : AsmCtx}

/-- What the line emits. -/
def InstrLine.emits (L : InstrLine env src) : List Emit :=
  parseForm env.strtod L.rd.equs L.rd.lineno L.form L.operands

/-- Where it stands in the text: behind the lines before it. -/
def InstrLine.pos (L : InstrLine env src) : Nat :=
  total Emit.size (sourceEmits ((sourceLines env src).take L.index).flatten)

/-- A statement of an accepted source is carried out. -/
theorem doSource_of_accepted (h : asmCompile env src = .ok ctx) {x : SourceStmt}
    (hx : x ∈ (sourceLines env src).flatten) : ∃ c c', doSource c x = .ok c' := by
  obtain ⟨ctx₀, hd, -⟩ := asmCompile_sourceLines h
  obtain ⟨before, after, hsplit⟩ := List.append_of_mem hx
  rw [hsplit] at hd
  obtain ⟨c, -, hd'⟩ := foldlM_append_ok_iff.mp hd
  obtain ⟨c', hx', -⟩ := foldlM_cons_ok_iff.mp hd'
  exact ⟨c, c', hx'⟩

/-- A mnemonic of the code section is no pseudo-op of a data section. -/
theorem parseData_of_known {equs : List AsmEqu} {line : Nat} {mnem : CStr} {form : Form}
    {p : List Byte} (h : codeForms.lookup mnem = some form) :
    parseData equs line mnem p = [.stop (.fail (.invalidPseudoOp line mnem))] := by
  have hnames : ∀ x ∈ codeForms, x.1 ∉ [lit "db", lit "dw", lit "dd", lit "dq", lit "ds",
      lit "dsz"] := by decide
  have hmnem := hnames _ (mem_of_lookup h)
  simp only [List.mem_cons, List.not_mem_nil, or_false, not_or] at hmnem
  obtain ⟨hdb, hdw, hdd, hdq, hds, hdsz⟩ := hmnem
  simp [parseData, hdb, hdw, hdd, hdq, hds, hdsz]

/-- The statement that it is read as. -/
def InstrLine.stmt (L : InstrLine env src) : Stmt :=
  if L.rd.cursec = dvmSecCode then .code L.mnem L.emits
  else .stop (.fail (.invalidPseudoOp L.rd.lineno L.mnem))

theorem InstrLine.parse (L : InstrLine env src) :
    parseInstr env.strtod L.rd.equs L.rd.cursec L.rd.lineno L.mnem L.operands = [L.stmt] := by
  rw [parseInstr, parseData_of_known L.known, parseCode, L.known, stmt]
  by_cases hsec : L.rd.cursec = dvmSecCode
  · rw [if_neg (not_not.mpr hsec), if_pos hsec]
    rfl
  · rw [if_pos hsec, if_neg hsec]

/-- It is the last statement of the line, and what precedes it emits nothing. -/
theorem InstrLine.place (L : InstrLine env src) :
    ∃ labels, L.rd.place (L.rd.stmts env) = labels ++ [⟨L.rd.lineno, L.rd.cursec, L.stmt⟩] ∧
      sourceEmits labels = [] := by
  rcases parseLine_of_instrText L.text with h | ⟨tok, h⟩
  · rw [L.parse] at h
    exact ⟨[], by rw [Reader.stmts, h]; rfl, rfl⟩
  · rw [L.parse] at h
    exact ⟨[⟨L.rd.lineno, L.rd.cursec, .label tok⟩], by rw [Reader.stmts, h]; rfl, rfl⟩

/-- The statements before it, itself, and those behind it. -/
theorem InstrLine.split (L : InstrLine env src) :
    ∃ before after, (sourceLines env src).flatten
        = before ++ ⟨L.rd.lineno, L.rd.cursec, L.stmt⟩ :: after ∧
      total Emit.size (sourceEmits before) = L.pos := by
  obtain ⟨labels, hplace, hlabels⟩ := L.place
  obtain ⟨after, hsplit⟩ := sourceLines_split L.read hplace
  refine ⟨_, after, hsplit, ?_⟩
  rw [sourceEmits_append, hlabels, List.append_nil, pos]

/-- An instruction of an accepted source is in the text, behind the instructions before it. -/
theorem laid_of_accepted (h : asmCompile env src = .ok ctx) {before after : List SourceStmt}
    {x : SourceStmt} (hsplit : (sourceLines env src).flatten = before ++ x :: after) {mnem : CStr}
    {es : List Emit} (hx : x.stmt = .code mnem es) :
    Clean es ∧ LaidAt ctx.text.bytes (total Emit.size (sourceEmits before)) es := by
  have hmem : x ∈ (sourceLines env src).flatten := by
    rw [hsplit]
    exact List.mem_append_right _ (.head _)
  obtain ⟨c, c', hdone⟩ := doSource_of_accepted h hmem
  rw [doSource, hx] at hdone
  obtain ⟨hacc, -⟩ := asmCompile_accepted h
  have hemits : (codeEmits env src).flatten = sourceEmits (before ++ x :: after) := by
    rw [← hsplit, sourceEmits, filterMap_instr, codeEmits]
  refine ⟨foldlM_doEmit_clean hdone, ?_⟩
  have hlaid : BytesLaid ctx.text.bytes (sourceEmits before ++ es ++ sourceEmits after) := by
    rw [sourceEmits_append, sourceEmits_code hx, ← List.append_assoc] at hemits
    rw [← hemits]
    exact ⟨hacc.length, fun p bs hat => hacc.items p _ hat⟩
  exact hlaid.laidAt

/-- The instruction of a line of an accepted source is in the text, behind the instructions of
the lines before it. -/
theorem InstrLine.laid (h : asmCompile env src = .ok ctx) (L : InstrLine env src) :
    Clean L.emits ∧ LaidAt ctx.text.bytes L.pos L.emits := by
  obtain ⟨before, after, hsplit, hpos⟩ := L.split
  have hmem :
      (⟨L.rd.lineno, L.rd.cursec, L.stmt⟩ : SourceStmt) ∈ (sourceLines env src).flatten := by
    rw [hsplit]
    exact List.mem_append_right _ (.head _)
  obtain ⟨c, c', hdone⟩ := doSource_of_accepted h hmem
  have hsec : L.rd.cursec = dvmSecCode := by
    by_contra hne
    rw [InstrLine.stmt, if_neg hne] at hdone
    cases hdone
  rw [← hpos]
  exact laid_of_accepted h hsplit (if_pos hsec)

end Line

/-! ## 3. Decoding one instruction -/

theorem LaidAt.head {text : List Byte} {p : Nat} {bs : List Byte} {es : List Emit}
    (h : LaidAt text p (.bytes bs :: es)) : field text p bs.length = bs :=
  h.2 0 bs (at_cons_iff.mpr (.inl ⟨rfl, rfl⟩))

theorem LaidAt.tail {text : List Byte} {p : Nat} {e : Emit} {es : List Emit}
    (h : LaidAt text p (e :: es)) : LaidAt text (p + e.size) es := by
  refine ⟨?_, fun q bs hat => ?_⟩
  · have hfit := h.1
    rw [total_cons] at hfit
    omega
  · rw [Nat.add_assoc]
    exact h.2 _ bs (at_cons_iff.mpr (.inr ⟨q, rfl, hat⟩))

theorem fetchRegs_regByte (d s : Reg) : fetchRegs (regByte d s) = (d, s) := by
  revert d s
  decide

theorem headD_field {text : List Byte} {p n : Nat} {b : Byte} (hn : 0 < n)
    (h : field text p 1 = [b]) : (field text p n).headD 0 = b := by
  rw [List.headD_eq_head?_getD, List.head?_eq_getElem?, getElem?_field hn, Nat.add_zero,
    getElem?_of_field_singleton h]
  rfl

/-- The registers of an instruction. -/
theorem decode_regs {text : List Byte} {p : Nat} {op : Op} {d s : Reg} (hop : op.shape = .regs)
    (h : LaidAt text p [emitOp op, emitRegs d s]) :
    decode text p = some (op, { d := d, s := s }) := by
  have hregs : field text (p + 1) 1 = [regByte d s] := h.tail.head
  rw [h.decode (.regs d s hop), hop]
  simp only [Shape.fetch, Shape.size, headD_field Nat.one_pos hregs, fetchRegs_regByte]

/-- The registers and the displacement. -/
theorem decode_regsOff32 {text : List Byte} {p : Nat} {op : Op} {d s : Reg} {v : BitVec 32}
    (hop : op.shape = .regsOff32) (h : LaidAt text p [emitOp op, emitRegs d s, emitI32 v]) :
    decode text p = some (op, { d := d, s := s, off := v }) := by
  have hregs : field text (p + 1) 1 = [regByte d s] := h.tail.head
  have hoff : field text (p + 1 + 1) (le 4 v.toNat).length = le 4 v.toNat := h.tail.tail.head
  rw [length_le] at hoff
  have hfetch : fetchLe 32 (field (field text (p + 1) 5) 1 4) = v := by
    rw [field_field (by decide), hoff, fetchLe, ofLe_le_of_lt v.isLt, BitVec.ofNat_toNat,
      BitVec.setWidth_eq]
  rw [h.decode (.off32 d s v hop), hop]
  simp only [Shape.fetch, Shape.size, headD_field (by decide : 0 < 5) hregs, fetchRegs_regByte,
    hfetch]

end Dvm
