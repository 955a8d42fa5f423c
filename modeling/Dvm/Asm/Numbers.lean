/-
# Numeric operands

The lines with a numeric operand: the pseudo-ops `db` to `dq`, `mov` of an immediate, `enter` and
`.equ` (`NumLine`).  Of these only `db`, `mov` and `.equ` look at whether `parse_imm` found a
number, none looks at what follows the operand, and none at whether the value fits.

What is stored is the number that is written exactly if the line has one operand, a complete one,
whose value fits its field (`NumLine.lossless_iff`).
-/
import Dvm.Asm.DataLines
import Dvm.Asm.Literals
import Dvm.Asm.MemOperand

namespace Dvm

open Bytes Table Layout Loops

/-! ## 1. Lines with a number -/

/-- Where the number of a line goes. -/
inductive NumSite where
  | data (width : Nat)
  | mov (r : Reg)
  | enter
  | equ (name : CStr)

/-- The size of the field, or of the constant. -/
def NumSite.width : NumSite → Nat
  | .data n => n
  | .mov _ => 8
  | .enter => 2
  | .equ _ => 8

/-- The pseudo-ops for numbers. -/
def dataWidths : List (CStr × Nat) := [(lit "db", 1), (lit "dw", 2), (lit "dd", 4), (lit "dq", 8)]

/-- The line in the buffer has a numeric operand, which stands at `q`. -/
inductive NumText (rd : Reader) : NumSite → List Byte → Prop
  | data {mnem : CStr} {n : Nat} {q : List Byte} : instrText rd.lineBuf = some (mnem, q) →
      dataWidths.lookup mnem = some n → IsDataSec rd.cursec → NumText rd (.data n) q
  /-- `mov` to a register of what is no register, memory operand or label. -/
  | mov {p p' q : List Byte} {a : CStr} {r : Reg} : instrText rd.lineBuf = some (lit "mov", p) →
      readTok asmLabelLen p = (a, p') → parseReg a = some r →
      expectComma p' rd.lineno = .ok q → parseReg (operand q) = none →
      parseMem (operand q) = none → isLabelRef rd.equs (operand q) = false → NumText rd (.mov r) q
  | enter {q : List Byte} : instrText rd.lineBuf = some (lit "enter", q) → NumText rd .enter q
  | equ {p p' q : List Byte} {name : CStr} : (skipWs rd.lineBuf).head? = some (ch '.') →
      readTok asmLabelLen (skipWs rd.lineBuf) = (lit ".equ", p) →
      readTok asmLabelLen p = (name, p') → expectComma p' rd.lineno = .ok q →
      NumText rd (.equ name) q

/-- A line with a numeric operand. -/
structure NumLine (env : AsmEnv) (src : List Byte) where
  index : Nat
  rd : Reader
  read : (sourceReaders env src)[index]? = some rd
  site : NumSite
  operands : List Byte
  text : NumText rd site operands

/-- What stands at the place of the operand is the word `w`, and at most a comment behind it. -/
def OneOperand (q : List Byte) (w : CStr) : Prop :=
  IsWord w ∧ ∃ ws ws' rest, IsBlank ws ∧ IsBlank ws' ∧ isBlank rest = true ∧
    q = ws ++ (w ++ (ws' ++ rest))

/-- The `k` bytes at `p` are the number `n`. -/
def FieldIs (bs : List Byte) (p k n : Nat) : Prop := p + k ≤ bs.length ∧ ofLe (field bs p k) = n

section Line

variable {env : AsmEnv} {src : List Byte}

/-- The statements of the lines before it. -/
def NumLine.before (L : NumLine env src) : List SourceStmt :=
  ((sourceLines env src).take L.index).flatten

/-- The number `n` is in the field of the line. -/
def NumLine.Stored (L : NumLine env src) (ctx : AsmCtx) (n : Nat) : Prop :=
  match L.site with
  | .data k =>
    FieldIs (ctx.secBuf L.rd.cursec).bytes (sectionBytes L.rd.cursec L.before).length k n
  | .mov _ => FieldIs ctx.text.bytes (total Emit.size (sourceEmits L.before) + 2) 8 n
  | .enter => FieldIs ctx.text.bytes (total Emit.size (sourceEmits L.before) + 1) 2 n
  | .equ name => ∃ v, ctx.equs[L.rd.equs.length]? = some ⟨name, v⟩ ∧ v.toNat = n

/-- The line has one operand, a number or a constant of an earlier line, and its value is what is
stored. -/
def NumLine.Lossless (L : NumLine env src) (ctx : AsmCtx) : Prop :=
  ∃ w n, OneOperand L.operands w ∧ denoted L.rd.equs w = some n ∧ L.Stored ctx n

/-- The numbers of a source are stored as they are written, if it is accepted. -/
def NumbersLossless (env : AsmEnv) (src : List Byte) : Prop :=
  ∀ ctx, asmCompile env src = .ok ctx → ∀ L : NumLine env src, L.Lossless ctx

/-- The number `n`, written `w`, fits `k` bytes.  Of a word with more than 63 characters the first
63 are read: they are a smaller number unless it is 0, or happen to be the name of a constant. -/
def NumFits (equs : List AsmEqu) (k : Nat) (w : CStr) (n : Nat) : Prop :=
  if w.length < asmLabelLen then n < 256 ^ k
  else match equFind equs (w.take (asmLabelLen - 1)) with
    | some e => e.value.toNat % 256 ^ k = n
    | none => n = 0

/-- The line has one operand, a number or a constant of an earlier line, and its value fits. -/
def NumLine.Fits (L : NumLine env src) : Prop :=
  ∃ w n, OneOperand L.operands w ∧ denoted L.rd.equs w = some n ∧
    NumFits L.rd.equs L.site.width w n

end Line

/-! ## 2. What is read -/

theorem OneOperand.operand {q : List Byte} {w : CStr} (h : OneOperand q w) :
    operand q = w.take (asmLabelLen - 1) := by
  obtain ⟨hword, ws, ws', rest, hws, hws', hrest, rfl⟩ := h
  have hends : EndsToken (ws' ++ rest) := by
    cases ws' with
    | nil =>
      cases rest with
      | nil => rfl
      | cons c rest =>
        rw [isBlank, Bool.or_eq_true, decide_eq_true_eq, decide_eq_true_eq] at hrest
        rcases hrest with rfl | rfl
        · exact (by decide : isDelim 0 = true)
        · exact (by decide : isDelim (ch ';') = true)
    | cons c ws' => exact endsToken_blank hws' (List.cons_ne_nil _ _) rest
  rw [Dvm.operand, hword.readTok hws hends]

/-- The value that is read, as far as the field holds it, is the number that is written exactly if
that fits. -/
theorem value_eq_iff {equs : List AsmEqu} (hnames : ∀ e ∈ equs, e.name.length < asmLabelLen)
    {k : Nat} (hk : k ≤ 8) {w : CStr} {n : Nat} (h : denoted equs w = some n) :
    (parseImm equs (w.take (asmLabelLen - 1))).1.toNat % 256 ^ k = n ↔ NumFits equs k w n := by
  have hpow : 256 ^ k ≤ 256 ^ 8 := Nat.pow_le_pow_right (by decide) hk
  have hword : 256 ^ 8 = 2 ^ 64 := by decide
  unfold NumFits
  split
  · next hshort =>
    rw [List.take_of_length_le (by unfold asmLabelLen at hshort ⊢; omega), (parseImm_denoted h).1]
    constructor
    · intro heq
      rw [← heq]
      exact Nat.mod_lt _ (Nat.pow_pos (by decide))
    · intro hlt
      rw [Nat.min_eq_left (by omega), Nat.mod_eq_of_lt hlt]
  · next hlong =>
    -- no constant has so long a name
    have hnone : equFind equs w = none := by
      rw [equFind, List.find?_eq_none]
      intro e he heq
      rw [decide_eq_true_eq] at heq
      exact hlong (heq ▸ hnames e he)
    rw [denoted, hnone] at h
    obtain ⟨v, hv, hle, hzero⟩ := literal_take h (k := asmLabelLen - 1) (by decide)
      (by unfold asmLabelLen at hlong ⊢; omega)
    cases hequ : equFind equs (w.take (asmLabelLen - 1)) with
    | some e => rw [parseImm, hequ]
    | none =>
      have hden : denoted equs (w.take (asmLabelLen - 1)) = some v := by rw [denoted, hequ, hv]
      rw [(parseImm_denoted hden).1]
      constructor
      · intro heq
        refine hzero (Nat.le_antisymm hle ?_)
        rw [← heq]
        exact (Nat.mod_le _ _).trans (Nat.min_le_left _ _)
      · rintro rfl
        rw [Nat.le_zero.mp hle]
        rfl

theorem length_readTok (max : Nat) (p : List Byte) : (readTok max p).1.length ≤ max - 1 := by
  rw [readTok, takeTok_eq]
  exact List.length_take_le _ _

/-- The name of a constant is a token. -/
theorem parseLine_equ {strtod : Strtod} {equs : List AsmEqu} {sec : DvmSection} {line : Nat}
    {buf : List Byte} {name : CStr} {v : BitVec 64}
    (h : .equ name v ∈ parseLine strtod equs sec line buf) : name.length < asmLabelLen := by
  have hinstr : ∀ mnem p, Stmt.equ name v ∉ parseInstr strtod equs sec line mnem p := by
    intro mnem p hmem
    unfold parseInstr parseData parseCode at hmem
    simp only at hmem
    repeat' split at hmem
    all_goals exact absurd (List.mem_singleton.mp hmem) nofun
  unfold parseLine at h
  simp only at h
  split at h
  · cases h
  split at h
  · unfold parseDirective at h
    simp only at h
    repeat' split at h
    all_goals first
      | cases List.mem_singleton.mp h; done
      | cases List.mem_singleton.mp h
        exact Nat.lt_of_le_of_lt (length_readTok _ _) (by decide)
  split at h
  · exact absurd (List.mem_singleton.mp h) nofun
  split at h
  · exact absurd (List.mem_singleton.mp h) nofun
  split at h
  · split at h
    · exact absurd (List.mem_singleton.mp h) nofun
    · rcases List.mem_cons.mp h with heq | hmem
      · cases heq
      · exact absurd hmem (hinstr _ _)
  · exact absurd h (hinstr _ _)

theorem stmt_of_readLines {env : AsmEnv} {lines : List (List Byte)} {rd : Reader}
    {x : SourceStmt} (h : x ∈ (readLines env rd lines).flatten) :
    ∃ rd' : Reader, x.stmt ∈ rd'.stmts env := by
  have hplace : ∀ (ss : List Stmt) (rd : Reader), x ∈ rd.place ss → x.stmt ∈ ss := by
    intro ss
    induction ss with
    | nil => exact fun _ hx => nomatch hx
    | cons s ss ih =>
      intro rd hx
      rcases List.mem_cons.mp hx with rfl | hx
      · exact .head _
      · exact .tail _ (ih _ hx)
  induction lines generalizing rd with
  | nil => cases h
  | cons line lines ih =>
    rw [readLines, List.flatten_cons] at h
    rcases List.mem_append.mp h with hx | hx
    · exact ⟨_, hplace _ _ hx⟩
    · exact ih hx

theorem constants_short {env : AsmEnv} {src : List Byte} {j : Nat} {rd : Reader}
    (h : (sourceReaders env src)[j]? = some rd) : ∀ e ∈ rd.equs, e.name.length < asmLabelLen := by
  intro e he
  rw [sourceReaders_equs h] at he
  obtain ⟨x, hx, hconst⟩ := List.mem_filterMap.mp he
  have hmem : x ∈ (sourceLines env src).flatten := by
    obtain ⟨line, hline, hx⟩ := List.mem_flatten.mp hx
    exact List.mem_flatten.mpr ⟨line, List.mem_of_mem_take hline, hx⟩
  obtain ⟨rd', hrd⟩ := stmt_of_readLines hmem
  unfold SourceStmt.const at hconst
  split at hconst
  · next name v heq =>
    cases hconst
    rw [heq] at hrd
    exact parseLine_equ hrd
  · cases hconst

/-! ## 3. What a line is read as -/

section Line

variable {env : AsmEnv} {src : List Byte} {ctx : AsmCtx}

/-- The number that the assembler finds. -/
def NumLine.value (L : NumLine env src) : BitVec 64 := (parseImm L.rd.equs (operand L.operands)).1

/-- The statement that stores it. -/
def NumLine.store (L : NumLine env src) : Stmt :=
  match L.site with
  | .data k => .data (le k L.value.toNat)
  | .mov r => .code (lit "mov") [emitOp .movRI, emitRegs r 0, emitU64 L.value]
  | .enter => .code (lit "enter") [emitOp .enter, .bytes (le 2 L.value.toNat)]
  | .equ name => .equ name L.value

/-- The line is read as `s`, which a label can precede. -/
def NumLine.ReadsAs (L : NumLine env src) (s : Stmt) : Prop :=
  L.rd.stmts env = [s] ∨ ∃ tok, L.rd.stmts env = [.label tok, s]

/-- Carrying it out makes `asm_compile` return 0. -/
def Stmt.Fails (s : Stmt) : Prop := ∃ why, ∀ st, doStmtCtx st s = .error (.fail why)

theorem fails_stop (why : AsmError) : (Stmt.stop (.fail why)).Fails := ⟨why, fun _ => rfl⟩

/-- An instruction line that reads as its number or not at all. -/
theorem readsAs_of_instr {L : NumLine env src} {mnem : CStr} {p : List Byte}
    (htext : instrText L.rd.lineBuf = some (mnem, p)) {s : Stmt}
    (hs : parseInstr env.strtod L.rd.equs L.rd.cursec L.rd.lineno mnem p = [s]) : L.ReadsAs s := by
  rcases parseLine_of_instrText htext with h | ⟨tok, h⟩
  · rw [hs] at h
    exact .inl h
  · rw [hs] at h
    exact .inr ⟨tok, h⟩

/-- A code instruction, which a data section rejects. -/
theorem readsAs_of_form {L : NumLine env src} {mnem : CStr} {p : List Byte} {form : Form}
    (htext : instrText L.rd.lineBuf = some (mnem, p)) (hform : codeForms.lookup mnem = some form) :
    L.ReadsAs (.code mnem (parseForm env.strtod L.rd.equs L.rd.lineno form p)) ∨
      ∃ s, L.ReadsAs s ∧ s.Fails := by
  by_cases hsec : L.rd.cursec = dvmSecCode
  · refine .inl (readsAs_of_instr htext ?_)
    rw [parseInstr, if_neg (not_not.mpr hsec), parseCode, hform]
  · have hdata : parseInstr env.strtod L.rd.equs L.rd.cursec L.rd.lineno mnem p
        = [.stop (.fail (.invalidPseudoOp L.rd.lineno mnem))] := by
      rw [parseInstr, if_pos hsec, parseData_of_known hform]
    exact .inr ⟨_, readsAs_of_instr htext hdata, fails_stop _⟩

theorem parseData_num {equs : List AsmEqu} {line : Nat} {mnem : CStr} {n : Nat} {q : List Byte}
    (h : dataWidths.lookup mnem = some n) :
    ∃ s, parseData equs line mnem q = [s] ∧
      (s = .data (le n (parseImm equs (operand q)).1.toNat) ∨ s.Fails) := by
  have hmem := mem_of_lookup h
  simp only [dataWidths, List.mem_cons, List.not_mem_nil, or_false, Prod.mk.injEq] at hmem
  unfold parseData
  rcases hmem with ⟨rfl, rfl⟩ | ⟨rfl, rfl⟩ | ⟨rfl, rfl⟩ | ⟨rfl, rfl⟩
  · simp only [if_pos]
    split
    · exact ⟨_, rfl, .inl rfl⟩
    · exact ⟨_, rfl, .inr (fails_stop _)⟩
  · exact ⟨_, rfl, .inl rfl⟩
  · exact ⟨_, rfl, .inl rfl⟩
  · exact ⟨_, rfl, .inl rfl⟩

theorem parseMem_of_reg {a : CStr} {r : Reg} (h : parseReg a = some r) : parseMem a = none := by
  cases a with
  | nil => rfl
  | cons c a =>
    refine if_pos fun hbracket => ?_
    rw [hbracket, parseReg_bracket] at h
    cases h

/-- `mov` of an immediate. -/
theorem parseForm_mov {strtod : Strtod} {equs : List AsmEqu} {line : Nat} {p p' q : List Byte}
    {a : CStr} {r : Reg} (hread : readTok asmLabelLen p = (a, p')) (ha : parseReg a = some r)
    (hcomma : expectComma p' line = .ok q) (hreg : parseReg (operand q) = none)
    (hmem : parseMem (operand q) = none) (hlabel : isLabelRef equs (operand q) = false) :
    parseForm strtod equs line .mov p
      = if (parseImm equs (operand q)).2 then
          [emitOp .movRI, emitRegs r 0, emitU64 (parseImm equs (operand q)).1]
        else [.stop (.fail (.badImmediate line (operand q)))] := by
  simp only [parseForm, operands₂, hread, hcomma, parseMem_of_reg ha, hmem, reqReg, ha, hreg,
    hlabel, Bool.false_eq_true, if_false]

/-- The line stores the number that is found, or makes `asm_compile` return 0. -/
theorem NumLine.reads (L : NumLine env src) :
    ∃ s, L.ReadsAs s ∧ (s = L.store ∨ s.Fails) := by
  obtain ⟨index, rd, read, site, q, text⟩ := L
  cases text with
  | @data mnem n q htext hwidth hsec =>
    obtain ⟨s, hs, hcases⟩ := @parseData_num rd.equs rd.lineno _ _ q hwidth
    have hcode : rd.cursec ≠ dvmSecCode := by
      rcases hsec with h | h <;> rw [h] <;> decide
    exact ⟨s, readsAs_of_instr htext ((if_pos hcode).trans hs), hcases⟩
  | @mov p p' q a r htext hread ha hcomma hreg hmem hlabel =>
    let L : NumLine env src := ⟨index, rd, read, .mov r, q,
      .mov htext hread ha hcomma hreg hmem hlabel⟩
    rcases readsAs_of_form (L := L) htext
        (by decide : codeForms.lookup (lit "mov") = some .mov) with
      hcode | ⟨s, hs, hfails⟩
    · rw [parseForm_mov hread ha hcomma hreg hmem hlabel] at hcode
      refine ⟨_, hcode, ?_⟩
      split
      · exact .inl rfl
      · exact .inr ⟨_, fun _ => rfl⟩
    · exact ⟨s, hs, .inr hfails⟩
  | @enter q htext =>
    let L : NumLine env src := ⟨index, rd, read, .enter, q, .enter htext⟩
    rcases readsAs_of_form (L := L) htext
      (by decide : codeForms.lookup (lit "enter") = some .enter) with hcode | ⟨s, hs, hfails⟩
    · exact ⟨_, hcode, .inl rfl⟩
    · exact ⟨s, hs, .inr hfails⟩
  | @equ p p' q name hdot hread hname hcomma =>
    have hblank : isBlank (skipWs rd.lineBuf) = false := by
      cases hp : skipWs rd.lineBuf with
      | nil =>
        rw [hp] at hdot
        cases hdot
      | cons c rest =>
        rw [hp, List.head?_cons, Option.some.injEq] at hdot
        rw [hdot]
        rfl
    have hparse : rd.stmts env = parseDirective rd.equs rd.lineno (skipWs rd.lineBuf) := by
      simp only [Reader.stmts, parseLine, hblank, Bool.false_eq_true, if_false, hdot, if_true]
    have hnames : lit ".equ" ≠ lit ".text" ∧ lit ".equ" ≠ lit ".data" ∧
        ¬ (lit ".equ" = lit ".cnst" ∨ lit ".equ" = lit ".rodata") := by decide
    simp only [parseDirective, hread, hnames, if_false, if_true, hname, hcomma] at hparse
    split at hparse
    · exact ⟨_, .inl hparse, .inr (fails_stop _)⟩
    · split at hparse
      · exact ⟨_, .inl hparse, .inl rfl⟩
      · exact ⟨_, .inl hparse, .inr (fails_stop _)⟩

/-! ## 4. What is stored -/

/-- The statements before it and behind it; a label adds nothing. -/
theorem NumLine.ReadsAs.split {L : NumLine env src} {s : Stmt} (h : L.ReadsAs s) :
    ∃ before after, (sourceLines env src).flatten
        = before ++ ⟨L.rd.lineno, L.rd.cursec, s⟩ :: after ∧
      sectionBytes L.rd.cursec before = sectionBytes L.rd.cursec L.before ∧
      sourceEmits before = sourceEmits L.before ∧ constants before = constants L.before := by
  rcases h with h | ⟨tok, h⟩
  · obtain ⟨after, hsplit⟩ := @sourceLines_split _ _ _ _ L.read [] _ (by rw [h]; rfl)
    rw [List.append_nil] at hsplit
    exact ⟨L.before, after, hsplit, rfl, rfl, rfl⟩
  · obtain ⟨after, hsplit⟩ := @sourceLines_split _ _ _ _ L.read
      [⟨L.rd.lineno, L.rd.cursec, .label tok⟩] _ (by rw [h]; rfl)
    refine ⟨_, after, hsplit, ?_, ?_, ?_⟩
    · rw [sectionBytes_append]
      exact List.append_nil _
    · rw [sourceEmits_append]
      exact List.append_nil _
    · rw [constants_append]
      exact List.append_nil _

/-- A line of an accepted source stores the number that is found. -/
theorem NumLine.reads_store (h : asmCompile env src = .ok ctx) (L : NumLine env src) :
    L.ReadsAs L.store := by
  obtain ⟨s, hs, rfl | ⟨why, hfails⟩⟩ := L.reads
  · exact hs
  · obtain ⟨before, after, hsplit, -⟩ := hs.split
    obtain ⟨c, c', hdone⟩ := doSource_of_accepted h (x := ⟨L.rd.lineno, L.rd.cursec, s⟩) (by
      rw [hsplit]
      exact List.mem_append_right _ (.head _))
    rw [doSource, hfails] at hdone
    cases hdone

/-- Bytes of a number. -/
theorem fieldIs_le {bs : List Byte} {p k v n : Nat} (hfit : p + k ≤ bs.length)
    (h : field bs p k = le k v) : FieldIs bs p k n ↔ v % 256 ^ k = n := by
  rw [FieldIs, h, ofLe_le]
  exact and_iff_right hfit

theorem fieldIs_emit {text : List Byte} {p k v n : Nat}
    (h : LaidAt text p [.bytes (le k v)]) : FieldIs text p k n ↔ v % 256 ^ k = n := by
  have hfit := h.1
  have hfield := h.head
  rw [total_cons, Emit.size, length_le] at hfit
  rw [length_le] at hfield
  exact fieldIs_le (by omega) hfield

/-- What is in the field is the number that is found, as far as the field holds it. -/
theorem NumLine.stored_iff (h : asmCompile env src = .ok ctx) (L : NumLine env src) (n : Nat) :
    L.Stored ctx n ↔ L.value.toNat % 256 ^ L.site.width = n := by
  obtain ⟨before, after, hsplit, hdata, hemits, hconst⟩ := (L.reads_store h).split
  unfold Stored
  unfold store at hsplit
  cases hsite : L.site with
  | data k =>
    simp only [hsite] at hsplit ⊢
    have hsec : IsDataSec L.rd.cursec := by
      have htext := L.text
      rw [hsite] at htext
      cases htext with
      | data _ _ hsec => exact hsec
    have hbytes : (ctx.secBuf L.rd.cursec).bytes = sectionBytes L.rd.cursec L.before
        ++ (le k L.value.toNat ++ sectionBytes L.rd.cursec after) := by
      rw [section_of_accepted h hsec, hsplit, sectionBytes_append, sectionBytes_cons, hdata]
      congr 2
      exact if_pos rfl
    have hself := field_append_right (sectionBytes L.rd.cursec L.before)
      (le k L.value.toNat ++ sectionBytes L.rd.cursec after) 0 k
    rw [hbytes]
    refine fieldIs_le ?_ ?_
    · rw [List.length_append, List.length_append, length_le]
      omega
    · rw [Nat.add_zero] at hself
      rw [hself, field, List.drop_zero, List.take_left' (length_le _ _)]
  | mov r =>
    simp only [hsite] at hsplit ⊢
    obtain ⟨-, hlaid⟩ := laid_of_accepted h hsplit rfl
    rw [hemits] at hlaid
    exact fieldIs_emit hlaid.tail.tail
  | enter =>
    simp only [hsite] at hsplit ⊢
    obtain ⟨-, hlaid⟩ := laid_of_accepted h hsplit rfl
    rw [hemits] at hlaid
    exact fieldIs_emit hlaid.tail
  | equ name =>
    simp only [hsite] at hsplit ⊢
    have hequs : ctx.equs[L.rd.equs.length]? = some ⟨name, L.value⟩ := by
      rw [constants_of_accepted h, hsplit, constants_append, hconst, sourceReaders_equs L.read]
      exact List.getElem?_append_right (Nat.le_refl _) |>.trans (by rw [Nat.sub_self]; rfl)
    have hmod : L.value.toNat % 256 ^ (NumSite.equ name).width = L.value.toNat :=
      Nat.mod_eq_of_lt L.value.isLt
    rw [hequs, hmod]
    constructor
    · rintro ⟨v, hv, rfl⟩
      cases hv
      rfl
    · exact fun heq => ⟨L.value, rfl, heq⟩

theorem NumText.width_le {rd : Reader} {site : NumSite} {q : List Byte} (h : NumText rd site q) :
    site.width ≤ 8 := by
  cases h with
  | data _ hwidth _ =>
    have hall : ∀ x ∈ dataWidths, x.2 ≤ 8 := by decide
    exact hall _ (mem_of_lookup hwidth)
  | mov => exact Nat.le_refl 8
  | enter => exact (by decide : 2 ≤ 8)
  | equ => exact Nat.le_refl 8

/-- Every line with a numeric operand stores the number that it finds, or makes `asm_compile`
return 0.  In an accepted source this is the number that is written exactly if the line has one
operand whose value fits. -/
theorem NumLine.lossless_iff (L : NumLine env src) :
    (∀ ctx, asmCompile env src = .ok ctx → (L.Lossless ctx ↔ L.Fits)) ∧
      ∃ s, L.ReadsAs s ∧ (s = L.store ∨ s.Fails) := by
  refine ⟨fun ctx h => ?_, L.reads⟩
  refine exists₂_congr fun w n => ?_
  refine and_congr_right fun hone => and_congr_right fun hden => ?_
  rw [L.stored_iff h, value, hone.operand]
  exact value_eq_iff (constants_short L.read) L.text.width_le hden

/-- A source that only enters a frame. -/
def enterLine {src line q : List Byte} (hline : splitLines src = [line])
    (htext : instrText ((AsmState.init zeroEnv).reader.enter line).lineBuf
      = some (lit "enter", q)) : NumLine zeroEnv src where
  index := 0
  rd := (AsmState.init zeroEnv).reader.enter line
  read := sourceReaders_single hline
  site := .enter
  operands := q
  text := .enter htext

def enter16 : NumLine zeroEnv (lit "enter 16\n") :=
  @enterLine _ (lit "enter 16") (lit "16" ++ List.replicate 504 0) (by decide +kernel)
    (by decide +kernel)

theorem enter16_lossless :
    ∃ ctx, asmCompile zeroEnv (lit "enter 16\n") = .ok ctx ∧ enter16.Lossless ctx := by
  obtain ⟨ctx, h⟩ : ∃ ctx, asmCompile zeroEnv (lit "enter 16\n") = .ok ctx :=
    exists_ok_of_isOk (by decide)
  refine ⟨ctx, h, (enter16.lossless_iff.1 ctx h).mpr ⟨lit "16", 16, ?_, by decide, ?_⟩⟩
  · exact ⟨⟨by decide, by decide⟩, [], [], List.replicate 504 0, isBlank_nil, isBlank_nil, rfl, rfl⟩
  · exact (by decide : 16 < 256 ^ 2)

def enter65536 : NumLine zeroEnv (lit "enter 65536\n") :=
  @enterLine _ (lit "enter 65536") (lit "65536" ++ List.replicate 501 0) (by decide +kernel)
    (by decide +kernel)

/-- A frame of 65536 bytes becomes one of none. -/
theorem enter65536_lost : ¬ NumbersLossless zeroEnv (lit "enter 65536\n") := by
  obtain ⟨ctx, h⟩ : ∃ ctx, asmCompile zeroEnv (lit "enter 65536\n") = .ok ctx :=
    exists_ok_of_isOk (by decide)
  intro hall
  obtain ⟨w, n, hone, hden, hstored⟩ := hall ctx h enter65536
  have htok : w.take (asmLabelLen - 1) = lit "65536" := by
    rw [← hone.operand]
    decide
  have hw : w = lit "65536" := by
    have hlen := congrArg List.length htok
    rw [List.length_take] at hlen
    have hshort : w.length ≤ asmLabelLen - 1 := by
      have hfive : (lit "65536").length = 5 := rfl
      rw [hfive] at hlen
      unfold asmLabelLen at hlen ⊢
      omega
    rwa [List.take_of_length_le hshort] at htok
  have hn : n = 65536 := by
    rw [hw] at hden
    exact Option.some.inj (hden.symm.trans (by decide))
  rw [enter65536.stored_iff h, hn] at hstored
  exact absurd hstored (by decide)

end Line

end Dvm
