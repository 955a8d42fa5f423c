/-
# Memory operands as they are written

The lines with a bracketed operand (`MemLine`), and what the instruction of such a line uses
when the interpreter decodes it (`MemLine.used`).  It is what the line says, the base register,
the signed value of the displacement and the other operand, exactly if the operand is one that
can be encoded (`MemLine.encodedAsWritten_iff`).
-/
import Dvm.Asm.LineText
import Dvm.Asm.MemText
import Dvm.Vm.Access

namespace Dvm

open Bytes Table Layout Loops

/-! ## 1. Operands of a line -/

/-- A word without delimiters. -/
def IsWord (w : CStr) : Prop := w ≠ [] ∧ ∀ c ∈ w, isDelim c = false

/-- A memory operand, a comma, and the other operand. -/
def StoreText (p : List Byte) (m : MemText) (other : CStr) : Prop :=
  ∃ ws₁ ws₂ ws₃ rest, IsBlank ws₁ ∧ IsBlank ws₂ ∧ IsBlank ws₃ ∧ EndsToken rest ∧
    p = ws₁ ++ (m.text ++ (ws₂ ++ ch ',' :: (ws₃ ++ (other ++ rest))))

/-- The other operand, a comma, and a memory operand. -/
def LoadText (p : List Byte) (m : MemText) (other : CStr) : Prop :=
  ∃ ws₁ ws₂ ws₃ rest, IsBlank ws₁ ∧ IsBlank ws₂ ∧ IsBlank ws₃ ∧ EndsToken rest ∧
    p = ws₁ ++ (other ++ (ws₂ ++ ch ',' :: (ws₃ ++ (m.text ++ rest))))

/-- The other operand, a comma, the size, and a memory operand. -/
def SizedText (size : CStr) (p : List Byte) (m : MemText) (other : CStr) : Prop :=
  ∃ ws₁ ws₂ ws₃ ws₄ rest, IsBlank ws₁ ∧ IsBlank ws₂ ∧ IsBlank ws₃ ∧ IsBlank ws₄ ∧ EndsToken rest ∧
    p = ws₁ ++ (other ++ (ws₂ ++ ch ',' :: (ws₃ ++ (size ++ (ws₄ ++ (m.text ++ rest))))))

/-- How the families with a memory operand are written, and the access each stands for. -/
inductive MemOperands (p : List Byte) (m : MemText) (other : CStr) : Form → Op → Prop
  | movStore : StoreText p m other → MemOperands p m other .mov .movMR
  | movLoad : LoadText p m other → MemOperands p m other .mov .movRM
  | sizedStore (op opOff : Op) : StoreText p m other →
      MemOperands p m other (.sizedStore op opOff) op
  | byte (op8 op16 op32 op8Off op16Off op32Off : Op) : SizedText (lit "byte") p m other →
      MemOperands p m other (.sizedLoad op8 op16 op32 op8Off op16Off op32Off) op8
  | word (op8 op16 op32 op8Off op16Off op32Off : Op) : SizedText (lit "word") p m other →
      MemOperands p m other (.sizedLoad op8 op16 op32 op8Off op16Off op32Off) op16
  | dword (op8 op16 op32 op8Off op16Off op32Off : Op) : SizedText (lit "dword") p m other →
      MemOperands p m other (.sizedLoad op8 op16 op32 op8Off op16Off op32Off) op32
  | fmovm : LoadText p m other → MemOperands p m other .fmovm .fmovRM
  | fmovs : StoreText p m other → MemOperands p m other .fmovs .fmovMR
  | lea : LoadText p m other → MemOperands p m other .lea .lea

/-- The access is that of `fmovm` or `fmovs`. -/
def Op.MovesFloat (op : Op) : Prop := op = .fmovRM ∨ op = .fmovMR

instance Op.MovesFloat.decidable (op : Op) : Decidable op.MovesFloat :=
  inferInstanceAs (Decidable (_ ∨ _))

/-- The register of the other operand. -/
def parseOther (op : Op) (s : CStr) : Option Reg :=
  if op.MovesFloat then parseFpreg s else parseReg s

/-- A line with a memory operand. -/
structure MemLine (env : AsmEnv) (src : List Byte) extends InstrLine env src where
  op : Op
  mem : MemText
  other : CStr
  otherWord : IsWord other
  written : MemOperands operands mem other form op
  disp : Int
  value : mem.value rd.equs = some disp

/-- The instruction of the line uses the base, the displacement and the other operand that are
written. -/
def MemLine.EncodedAsWritten {env : AsmEnv} {src : List Byte} (L : MemLine env src)
    (ctx : AsmCtx) : Prop :=
  ∃ i, decode ctx.text.bytes L.pos = some i ∧ i.1.plain = L.op ∧
    parseReg L.mem.base = some (memBase i) ∧ memDisp i = L.disp ∧
    parseOther L.op L.other = some (memOther i)

/-- The memory operands of a source are encoded as they are written, if it is accepted. -/
def OperandsAsWritten (env : AsmEnv) (src : List Byte) : Prop :=
  ∀ ctx, asmCompile env src = .ok ctx → ∀ L : MemLine env src, L.EncodedAsWritten ctx

/-- What can be encoded: a base register right behind the bracket, for `lea` only `ax`, and a
displacement that `strtol` reads as what it is, for `fmovm` and `fmovs` only 0. -/
structure MemLine.Encodable {env : AsmEnv} {src : List Byte} (L : MemLine env src) : Prop where
  adjacent : L.mem.gapBefore = []
  base : ∃ r, parseReg L.mem.base = some r ∧ (L.op = .lea → r = regAx)
  disp : if L.op.MovesFloat then L.disp = 0 else L.mem.readOff.toInt = L.disp

/-! ## 2. Reading the operands -/

theorem IsWord.ne_comma {w : CStr} (hw : IsWord w) : ∀ c ∈ w, c ≠ ch ',' :=
  fun c hc => ne_comma_of_not_delim (hw.2 c hc)

theorem IsWord.solid {w : CStr} (hw : IsWord w) : ∀ c ∈ w, ¬ (c = ch ' ' ∨ c = ch '\t') := by
  intro c hc
  rintro (rfl | rfl)
  · exact absurd (hw.2 _ hc) (by decide)
  · exact absurd (hw.2 _ hc) (by decide)

theorem IsWord.skipWs {w : CStr} (hw : IsWord w) (q : List Byte) :
    skipWs (w ++ q) = w ++ q := by
  obtain ⟨c, w', rfl⟩ := List.exists_cons_of_ne_nil hw.1
  exact skipWs_of_head (hw.solid c (.head _)) _

theorem IsWord.readTok {w ws rest : List Byte} (hw : IsWord w) (hws : IsBlank ws)
    (hrest : EndsToken rest) (n : Nat) :
    readTok n (ws ++ (w ++ rest)) = (w.take (n - 1), w.drop (n - 1) ++ rest) := by
  have hskip := hw.skipWs rest
  have hall : ((w ++ rest).takeWhile fun c => !isDelim c) = w := by
    rw [List.takeWhile_append_of_pos (by simpa using hw.2), takeWhile_endsToken hrest,
      List.append_nil]
  rw [Dvm.readTok, skipWs_append hws, hskip, takeTok_eq, hall, List.length_take]
  rcases Nat.le_total (n - 1) w.length with hle | hle
  · rw [Nat.min_eq_left hle, List.drop_append_of_le_length hle]
  · rw [Nat.min_eq_right hle, List.drop_left, List.drop_of_length_le hle, List.nil_append]

/-- No comma is found where something else stands. -/
theorem expectComma_error {t : List Byte} (hcomma : ∀ c ∈ t, c ≠ ch ',')
    (hsolid : ∃ c ∈ t, ¬ (c = ch ' ' ∨ c = ch '\t')) (q : List Byte) (line : Nat) :
    expectComma (t ++ q) line = .error (.exit (.expectedComma line)) := by
  induction t with
  | nil => simp at hsolid
  | cons c t ih =>
    by_cases hblank : c = ch ' ' ∨ c = ch '\t'
    · have hsolid' : ∃ d ∈ t, ¬ (d = ch ' ' ∨ d = ch '\t') := by
        obtain ⟨d, hd, hnot⟩ := hsolid
        rcases List.mem_cons.mp hd with rfl | hd
        · exact absurd hblank hnot
        · exact ⟨d, hd, hnot⟩
      rw [← ih (fun d hd => hcomma d (List.mem_cons_of_mem _ hd)) hsolid', List.cons_append,
        expectComma, skipWs, if_pos hblank, expectComma]
    · rw [List.cons_append, expectComma, skipWs_of_head hblank]
      exact if_neg (hcomma c (.head _))

theorem expectComma_blank {ws : List Byte} (hws : IsBlank ws) (q : List Byte) (line : Nat) :
    expectComma (ws ++ ch ',' :: q) line = .ok q := by
  rw [expectComma, skipWs_append hws, skipWs_of_head (by decide)]
  exact if_pos rfl

/-- What is left of an operand stands before the comma. -/
theorem expectComma_left {t ws q : List Byte} {line : Nat} (hcomma : ∀ c ∈ t, c ≠ ch ',')
    (hsolid : t ≠ [] → ∃ c ∈ t, ¬ (c = ch ' ' ∨ c = ch '\t')) (hws : IsBlank ws) :
    expectComma (t ++ (ws ++ ch ',' :: q)) line
      = if t = [] then .ok q else .error (.exit (.expectedComma line)) := by
  split
  · next h =>
    rw [h, List.nil_append]
    exact expectComma_blank hws q line
  · next h => exact expectComma_error hcomma (hsolid h) _ _

theorem endsToken_blank {ws : List Byte} (hws : IsBlank ws) (hne : ws ≠ []) (q : List Byte) :
    EndsToken (ws ++ q) := by
  obtain ⟨c, ws, rfl⟩ := List.exists_cons_of_ne_nil hne
  rcases hws c (.head _) with rfl | rfl
  · exact (by decide : isDelim (ch ' ') = true)
  · exact (by decide : isDelim (ch '\t') = true)

theorem endsToken_comma {ws : List Byte} (hws : IsBlank ws) (q : List Byte) :
    EndsToken (ws ++ ch ',' :: q) := by
  rcases Decidable.em (ws = []) with rfl | hne
  · exact (by decide : isDelim (ch ',') = true)
  · exact endsToken_blank hws hne _

section Read

variable {p : List Byte} {m : MemText} {other : CStr} {line : Nat}

/-- The first operand is `tok`, and the second one stands at `q`; if something is left of the
first one in front of the comma, the assembler gives up. -/
structure FirstOperand (p : List Byte) (tok : CStr) (q : List Byte) : Prop where
  read : (readTok asmLabelLen p).1 = tok
  comma : ∀ line, expectComma (readTok asmLabelLen p).2 line = .ok q ∨
    expectComma (readTok asmLabelLen p).2 line = .error (.exit (.expectedComma line))

/-- A store has its memory operand first. -/
theorem StoreText.first (h : StoreText p m other) :
    ∃ ws rest, IsBlank ws ∧ EndsToken rest ∧ FirstOperand p m.token (ws ++ (other ++ rest)) := by
  obtain ⟨ws₁, ws₂, ws₃, rest, hws₁, hws₂, hws₃, hrest, rfl⟩ := h
  have hread := m.token_eq hws₁ (endsToken_comma hws₂ (ws₃ ++ (other ++ rest)))
  rw [List.drop_append_of_le_length m.length_token_le] at hread
  refine ⟨ws₃, rest, hws₃, hrest, by rw [hread], fun line => ?_⟩
  have hcomma := @expectComma_left (m.text.drop m.token.length) ws₂ (ws₃ ++ (other ++ rest)) line
    (fun c hc => m.ne_comma c (List.mem_of_mem_drop hc))
    (fun hne => ⟨_, m.close_mem_drop hne, by decide⟩) hws₂
  rw [hread, hcomma]
  split
  · exact .inl rfl
  · exact .inr rfl

/-- The other operand of a load stands first. -/
theorem IsWord.first (hother : IsWord other) {ws₁ ws₂ : List Byte} (hws₁ : IsBlank ws₁)
    (hws₂ : IsBlank ws₂) (q : List Byte) :
    FirstOperand (ws₁ ++ (other ++ (ws₂ ++ ch ',' :: q))) (other.take (asmLabelLen - 1)) q := by
  have hread := hother.readTok hws₁ (endsToken_comma hws₂ q) asmLabelLen
  have hsolid : other.drop (asmLabelLen - 1) ≠ [] →
      ∃ c ∈ other.drop (asmLabelLen - 1), ¬ (c = ch ' ' ∨ c = ch '\t') := by
    intro hne
    obtain ⟨c, hmem⟩ := List.exists_mem_of_ne_nil _ hne
    exact ⟨c, hmem, hother.solid c (List.mem_of_mem_drop hmem)⟩
  refine ⟨by rw [hread], fun line => ?_⟩
  have hcomma := @expectComma_left (other.drop (asmLabelLen - 1)) ws₂ q line
    (fun c hc => hother.ne_comma c (List.mem_of_mem_drop hc)) hsolid hws₂
  rw [hread, hcomma]
  split
  · exact .inl rfl
  · exact .inr rfl

theorem FirstOperand.operands₂ {a : CStr} {q : List Byte} (h : FirstOperand p a q)
    {k : CStr → CStr → List Emit} (hc : Clean (operands₂ line p k)) :
    Dvm.operands₂ line p k = k a (operand q) := by
  unfold Dvm.operands₂ at hc ⊢
  rcases h.comma line with hcomma | hcomma
  · simp only [hcomma, h.read]
  · simp only [hcomma] at hc
    exact absurd hc not_clean_stop

theorem FirstOperand.sizedLoad {a : CStr} {q : List Byte} (h : FirstOperand p a q)
    {k : CStr → CStr → CStr → List Emit} (hc : Clean (sizedLoadOperands line p k)) :
    sizedLoadOperands line p k = k a (readTok 16 q).1 (operand (readTok 16 q).2) := by
  unfold sizedLoadOperands at hc ⊢
  rcases h.comma line with hcomma | hcomma
  · simp only [hcomma, h.read]
  · simp only [hcomma] at hc
    exact absurd hc not_clean_stop

/-- The operands of a store, unless the assembler gives up. -/
theorem StoreText.operands₂ (h : StoreText p m other) (hother : IsWord other)
    {k : CStr → CStr → List Emit} (hc : Clean (operands₂ line p k)) :
    Dvm.operands₂ line p k = k m.token (other.take (asmLabelLen - 1)) := by
  obtain ⟨ws, rest, hws, hrest, hfirst⟩ := h.first
  rw [hfirst.operands₂ hc, operand, hother.readTok hws hrest]

/-- The operands of a load. -/
theorem LoadText.operands₂ (h : LoadText p m other) (hother : IsWord other)
    {k : CStr → CStr → List Emit} (hc : Clean (operands₂ line p k)) :
    Dvm.operands₂ line p k = k (other.take (asmLabelLen - 1)) m.token := by
  obtain ⟨ws₁, ws₂, ws₃, rest, hws₁, hws₂, hws₃, hrest, rfl⟩ := h
  rw [(hother.first hws₁ hws₂ _).operands₂ hc, operand, m.token_eq hws₃ hrest]

theorem size_isWord {size : CStr} (h : size ∈ [lit "byte", lit "word", lit "dword"]) :
    IsWord size ∧ size.length ≤ 5 ∧ ch '[' ∉ size := by
  have hall : ∀ w ∈ [lit "byte", lit "word", lit "dword"],
      w ≠ [] ∧ w.any isDelim = false ∧ w.length ≤ 5 ∧ ch '[' ∉ w := by decide
  obtain ⟨hne, hdelim, hlen, hbracket⟩ := hall size h
  exact ⟨⟨hne, fun c hc => Bool.eq_false_iff.mpr (List.any_eq_false.mp hdelim c hc)⟩, hlen,
    hbracket⟩

/-- Without a gap the bracket belongs to the word in front of it. -/
theorem IsWord.bracket_mem (hother : IsWord other) {ws : List Byte} (hws : IsBlank ws) {n : Nat}
    (hn : other.length < n - 1) (q : List Byte) :
    ch '[' ∈ (Dvm.readTok n (ws ++ (other ++ ch '[' :: q))).1 := by
  have hskip := hother.skipWs (ch '[' :: q)
  have hword : (other ++ ch '[' :: q).takeWhile (fun c => !isDelim c)
      = other ++ ch '[' :: q.takeWhile fun c => !isDelim c := by
    rw [List.takeWhile_append_of_pos (by simpa using hother.2),
      List.takeWhile_cons_of_pos (by decide)]
  obtain ⟨k, hk⟩ := Nat.exists_eq_add_of_lt hn
  have hcut : n - 1 - other.length = k + 1 := by omega
  rw [Dvm.readTok, skipWs_append hws, hskip, takeTok_eq, hword, List.take_append, hcut,
    List.take_succ_cons]
  exact List.mem_append_right _ (.head _)

/-- The operands of a load with a size: if the memory operand follows the size without a gap,
something else is read as the size. -/
theorem SizedText.operands {size : CStr} (hsize : size ∈ [lit "byte", lit "word", lit "dword"])
    (h : SizedText size p m other) (hother : IsWord other) {k : CStr → CStr → CStr → List Emit}
    (hc : Clean (sizedLoadOperands line p k)) :
    sizedLoadOperands line p k = k (other.take (asmLabelLen - 1)) size m.token ∨
      ∃ t b, ch '[' ∈ t ∧ sizedLoadOperands line p k = k (other.take (asmLabelLen - 1)) t b := by
  obtain ⟨ws₁, ws₂, ws₃, ws₄, rest, hws₁, hws₂, hws₃, hws₄, hrest, rfl⟩ := h
  obtain ⟨hword, hlen, -⟩ := size_isWord hsize
  rw [(hother.first hws₁ hws₂ _).sizedLoad hc]
  rcases Decidable.em (ws₄ = []) with rfl | hgap
  · have hfits : size.length < 16 - 1 := by omega
    exact .inr ⟨_, _, hword.bracket_mem hws₃ hfits _, rfl⟩
  · have hfits : size.length ≤ 16 - 1 := by omega
    left
    rw [hword.readTok hws₃ (endsToken_blank hws₄ hgap _), List.take_of_length_le hfits,
      List.drop_of_length_le hfits, List.nil_append, operand, m.token_eq hws₄ hrest]

end Read

/-! ## 3. What is decoded -/

/-- The instruction at `p` is the access `op`, with these registers and this displacement. -/
def UsesAt (text : List Byte) (p : Nat) (op : Op) (base other : Reg) (disp : Int) : Prop :=
  ∃ i, decode text p = some i ∧ i.1.plain = op ∧ memBase i = base ∧ memOther i = other ∧
    memDisp i = disp

/-- `opOff` is the access `op` with a displacement. -/
structure Op.Pairs (op opOff : Op) : Prop where
  regs : op.shape = .regs
  regsOff32 : opOff.shape = .regsOff32
  plain : op.plain = op
  plainOff : opOff.plain = op

instance Op.Pairs.decidable (op opOff : Op) : Decidable (op.Pairs opOff) :=
  decidable_of_iff (op.shape = .regs ∧ opOff.shape = .regsOff32 ∧ op.plain = op ∧
      opOff.plain = op)
    ⟨fun ⟨h₁, h₂, h₃, h₄⟩ => ⟨h₁, h₂, h₃, h₄⟩, fun h => ⟨h.1, h.2, h.3, h.4⟩⟩

theorem Op.Pairs.stores {op opOff : Op} (h : op.Pairs opOff) : opOff.Stores ↔ op.Stores := by
  rw [Stores, Stores, h.plainOff, h.plain]

/-- It is one of the memory accesses. -/
theorem Op.Pairs.mem_accessOps {op opOff : Op} (h : op.Pairs opOff) : op ∈ accessOps := by
  have hregs := h.regs
  have hplain := h.plainOff
  have hshape := h.regsOff32
  cases opOff
  all_goals first
    | (cases hshape; done)
    | (cases hplain; cases hregs; done)
    | (cases hplain; decide)

section Decode

variable {text : List Byte} {p : Nat} {op opOff : Op} {d s : Reg} {off : BitVec 32}

theorem usesAt_regs (hop : op.shape = .regs) (h : LaidAt text p [emitOp op, emitRegs d s]) :
    UsesAt text p op.plain (if op.Stores then d else s) (if op.Stores then s else d) 0 := by
  refine ⟨_, decode_regs hop h, rfl, rfl, rfl, ?_⟩
  rw [memDisp, hop]
  rfl

theorem usesAt_regsOff32 (hop : op.shape = .regsOff32)
    (h : LaidAt text p [emitOp op, emitRegs d s, emitI32 off]) :
    UsesAt text p op.plain (if op.Stores then d else s) (if op.Stores then s else d) off.toInt := by
  refine ⟨_, decode_regsOff32 hop h, rfl, rfl, rfl, ?_⟩
  rw [memDisp, if_pos hop]

/-- A memory access uses the offset, which is left out if it is 0. -/
theorem usesAt_emitMem (hop : op.Pairs opOff) (h : LaidAt text p (emitMem op opOff d s off)) :
    UsesAt text p op (if op.Stores then d else s) (if op.Stores then s else d) off.toInt := by
  unfold emitMem at h
  split at h
  · have huses := usesAt_regsOff32 hop.regsOff32 h
    simp only [hop.plainOff, hop.stores] at huses
    exact huses
  · next hzero =>
    have huses := usesAt_regs hop.regs h
    rw [hop.plain] at huses
    rw [not_not.mp hzero]
    exact huses

end Decode

/-! ## 4. The families -/

/-- The accesses of a family with a memory operand, without and with a displacement, and whether
they store. -/
def Form.Accesses : Form → Prop
  | .sizedStore op opOff => op.Pairs opOff ∧ op.Stores
  | .sizedLoad op8 op16 op32 op8Off op16Off op32Off =>
    (op8.Pairs op8Off ∧ ¬ op8.Stores) ∧ (op16.Pairs op16Off ∧ ¬ op16.Stores) ∧
      op32.Pairs op32Off ∧ ¬ op32.Stores
  | _ => True

instance Form.Accesses.decidable (f : Form) : Decidable f.Accesses :=
  match f with
  | .sizedStore _ _ => inferInstanceAs (Decidable (_ ∧ _))
  | .sizedLoad _ _ _ _ _ _ => inferInstanceAs (Decidable ((_ ∧ _) ∧ (_ ∧ _) ∧ _ ∧ _))
  | .mov | .alu2 _ | .alu1 _ | .jmp1 _ | .enter | .bare _ | .call | .falu2 _ | .fmovi | .fmovm
  | .fmovs | .itof | .ftoi | .callr | .lea => .isTrue trivial

theorem codeForms_accesses : ∀ x ∈ codeForms, x.2.Accesses := by decide

/-- What becomes of a memory operand with the token `tok`: it is used, except that `lea` uses
`ax` for its base and the float moves no displacement; or, in a `mov`, it is no memory operand
and becomes an immediate. -/
inductive OperandUsed (text : List Byte) (p : Nat) (op : Op) (tok other : CStr) : Prop
  | used (b r : Reg) (base : parseMem tok = some b) (reg : parseOther op other = some r)
      (uses : UsesAt text p op (if op = .lea then regAx else b) r
        (if op.MovesFloat then 0 else (parseMemOff tok).toInt))
  | immediate (o : Operands) (base : parseMem tok = none)
      (movs : decode text p = some (.movRI, o)) (load : op = .movRM)

/-- A token with a bracket is no register. -/
theorem parseReg_bracket (s : CStr) : parseReg (ch '[' :: s) = none := by
  have hnames : ∀ x ∈ regNames, x.1.head? ≠ some (ch '[') := by decide
  cases h : parseReg (ch '[' :: s) with
  | none => rfl
  | some r => exact absurd rfl (hnames _ (mem_regNames h))

theorem MemText.parseReg_token (m : MemText) : parseReg m.token = none := parseReg_bracket _

/-- Accesses that come with and without a displacement use what `parse_mem` and `parse_mem_off`
find. -/
theorem OperandUsed.of_pair {text : List Byte} {p : Nat} {op opOff : Op} {tok other : CStr}
    {b r : Reg} (hop : op.Pairs opOff) (hbase : parseMem tok = some b)
    (hr : parseReg (other.take (asmLabelLen - 1)) = some r)
    (h : UsesAt text p op b r (parseMemOff tok).toInt) : OperandUsed text p op tok other := by
  have hfloat : ¬ op.MovesFloat := by
    have hplain := hop.plainOff
    have hshape := hop.regsOff32
    rintro (rfl | rfl)
    all_goals cases opOff <;> first | cases hplain; done | cases hshape
  have hlea : op ≠ .lea := by
    rintro rfl
    cases hop.regs
  rw [parseReg_take (by decide)] at hr
  refine .used b r hbase ?_ ?_
  · rw [parseOther, if_neg hfloat, hr]
  · rw [if_neg hlea, if_neg hfloat]
    exact h

section Family

variable {strtod : Strtod} {equs : List AsmEqu} {line : Nat} {p : List Byte} {m : MemText}
  {other : CStr} {text : List Byte} {pos : Nat}

/-- The assembler did not give up, and the emissions are in the text. -/
def Stands (text : List Byte) (pos : Nat) (es : List Emit) : Prop :=
  Clean es ∧ LaidAt text pos es

theorem Stands.not_stop {why : AsmStop} : ¬ Stands text pos [.stop why] :=
  fun h => not_clean_stop h.1

theorem Stands.reqReg {s : CStr} {k : Reg → List Emit} (h : Stands text pos (reqReg line s k)) :
    ∃ r, parseReg s = some r ∧ Stands text pos (k r) := by
  obtain ⟨r, hr, heq⟩ := reqReg_clean h.1
  exact ⟨r, hr, heq ▸ h⟩

theorem Stands.reqMem {s : CStr} {why : AsmStop} {k : Reg → List Emit}
    (h : Stands text pos (reqMem s why k)) : ∃ r, parseMem s = some r ∧ Stands text pos (k r) := by
  obtain ⟨r, hr, heq⟩ := reqMem_clean h.1
  exact ⟨r, hr, heq ▸ h⟩

theorem Stands.reqFpreg {e : Emit} {s : CStr} {k : Reg → List Emit}
    (h : Stands text pos (e :: reqFpreg line s k)) :
    ∃ r, parseFpreg s = some r ∧ Stands text pos (e :: k r) := by
  obtain ⟨r, hr, heq⟩ := reqFpreg_clean h.1.tail
  exact ⟨r, hr, heq ▸ h⟩

theorem Stands.store {k : CStr → CStr → List Emit} (h : Stands text pos (operands₂ line p k))
    (hp : StoreText p m other) (hother : IsWord other) :
    Stands text pos (k m.token (other.take (asmLabelLen - 1))) :=
  hp.operands₂ hother h.1 ▸ h

theorem Stands.load {k : CStr → CStr → List Emit} (h : Stands text pos (operands₂ line p k))
    (hp : LoadText p m other) (hother : IsWord other) :
    Stands text pos (k (other.take (asmLabelLen - 1)) m.token) :=
  hp.operands₂ hother h.1 ▸ h

theorem Stands.emitMem {op opOff : Op} {d s : Reg} {off : BitVec 32} (hop : op.Pairs opOff)
    (h : Stands text pos (emitMem op opOff d s off)) :
    UsesAt text pos op (if op.Stores then d else s) (if op.Stores then s else d) off.toInt :=
  usesAt_emitMem hop h.2

/-- `mov` to memory. -/
theorem movStore_used (hp : StoreText p m other) (hother : IsWord other)
    (h : Stands text pos (parseForm strtod equs line .mov p)) :
    OperandUsed text pos .movMR m.token other := by
  rw [parseForm] at h
  have hk := h.store hp hother
  dsimp only at hk
  cases hbase : parseMem m.token with
  | some b =>
    rw [hbase] at hk
    obtain ⟨r, hr, hes⟩ := hk.reqReg
    rw [parseReg_take (by decide)] at hr
    exact .used b r hbase hr (hes.emitMem (by decide))
  | none =>
    rw [hbase] at hk
    -- the token is no register either
    split at hk
    · next hsome => cases hsome
    all_goals
      obtain ⟨r, hr, -⟩ := hk.reqReg
      cases m.parseReg_token.symm.trans hr

/-- `mov` from memory: without a base register it is a `mov` of an immediate. -/
theorem movLoad_used (hp : LoadText p m other) (hother : IsWord other)
    (h : Stands text pos (parseForm strtod equs line .mov p)) :
    OperandUsed text pos .movRM m.token other := by
  rw [parseForm] at h
  have hk := h.load hp hother
  dsimp only at hk
  split at hk
  · obtain ⟨r, hr, -⟩ := hk.reqReg
    cases m.parseReg_token.symm.trans hr
  · next b _ hbase =>
    obtain ⟨r, hr, hes⟩ := hk.reqReg
    rw [parseReg_take (by decide)] at hr
    exact .used b r hbase hr (hes.emitMem (by decide))
  · next _ hbase =>
    obtain ⟨r, -, hes⟩ := hk.reqReg
    rw [m.parseReg_token] at hes
    dsimp only at hes
    split at hes
    · exact .immediate _ hbase (hes.2.decode (.data r _)) rfl
    · split at hes
      · have henc :
            Encodes .movRI [emitOp .movRI, emitRegs r 0, emitU64 (parseImm equs m.token).1] :=
          .imm64 r _ rfl
        exact .immediate _ hbase (hes.2.decode henc) rfl
      · exact absurd hes Stands.not_stop

/-- `movb`, `movw`, `movd`. -/
theorem sizedStore_used {op opOff : Op} (hop : op.Pairs opOff ∧ op.Stores)
    (hp : StoreText p m other) (hother : IsWord other)
    (h : Stands text pos (parseForm strtod equs line (.sizedStore op opOff) p)) :
    OperandUsed text pos op m.token other := by
  rw [parseForm] at h
  obtain ⟨r, hr, hk⟩ := (h.store hp hother).reqReg
  obtain ⟨b, hbase, hes⟩ := hk.reqMem
  have huses := hes.emitMem hop.1
  rw [if_pos hop.2, if_pos hop.2] at huses
  exact .of_pair hop.1 hbase hr huses

/-- `movzx` and `movsx`, the access being that of the size. -/
theorem sizedLoad_used {op8 op16 op32 op8Off op16Off op32Off : Op} {size : CStr} {op opOff : Op}
    (hp : SizedText size p m other) (hother : IsWord other)
    (hop : (size = lit "byte" ∧ op = op8 ∧ opOff = op8Off) ∨
      (size = lit "word" ∧ op = op16 ∧ opOff = op16Off) ∨
        (size = lit "dword" ∧ op = op32 ∧ opOff = op32Off))
    (hpair : op.Pairs opOff ∧ ¬ op.Stores)
    (h : Stands text pos (parseForm strtod equs line
      (.sizedLoad op8 op16 op32 op8Off op16Off op32Off) p)) :
    OperandUsed text pos op m.token other := by
  have hsize : size ∈ [lit "byte", lit "word", lit "dword"] := by
    rcases hop with ⟨rfl, -⟩ | ⟨rfl, -⟩ | ⟨rfl, -⟩ <;> decide
  rw [parseForm] at h
  rcases hp.operands hsize hother h.1 with heq | ⟨t, b, hbracket, heq⟩
  · rw [heq] at h
    obtain ⟨r, hr, hk⟩ := h.reqReg
    obtain ⟨b, hbase, hes⟩ := hk.reqMem
    have hmem : Stands text pos (emitMem op opOff r b (parseMemOff m.token)) := by
      rcases hop with ⟨rfl, rfl, rfl⟩ | ⟨rfl, rfl, rfl⟩ | ⟨rfl, rfl, rfl⟩
      · rwa [if_pos rfl] at hes
      · rwa [if_neg (by decide), if_pos rfl] at hes
      · rwa [if_neg (by decide), if_neg (by decide), if_pos rfl] at hes
    have huses := hmem.emitMem hpair.1
    rw [if_neg hpair.2, if_neg hpair.2] at huses
    exact .of_pair hpair.1 hbase hr huses
  · rw [heq] at h
    obtain ⟨r, hr, hk⟩ := h.reqReg
    obtain ⟨b, hbase, hes⟩ := hk.reqMem
    have hne : ∀ w ∈ [lit "byte", lit "word", lit "dword"], t ≠ w := by
      rintro w hw rfl
      exact (size_isWord hw).2.2 hbracket
    rw [if_neg (hne _ (by decide)), if_neg (hne _ (by decide)), if_neg (hne _ (by decide))] at hes
    exact absurd hes Stands.not_stop

theorem fmovm_used (hp : LoadText p m other) (hother : IsWord other)
    (h : Stands text pos (parseForm strtod equs line .fmovm p)) :
    OperandUsed text pos .fmovRM m.token other := by
  rw [parseForm] at h
  obtain ⟨b, hbase, hk⟩ := (h.load hp hother).reqMem
  obtain ⟨r, hr, hes⟩ := hk.reqFpreg
  rw [parseFpreg_take (by decide)] at hr
  exact .used b r hbase hr (usesAt_regs rfl hes.2)

theorem fmovs_used (hp : StoreText p m other) (hother : IsWord other)
    (h : Stands text pos (parseForm strtod equs line .fmovs p)) :
    OperandUsed text pos .fmovMR m.token other := by
  rw [parseForm] at h
  obtain ⟨b, hbase, hk⟩ := (h.store hp hother).reqMem
  obtain ⟨r, hr, hes⟩ := hk.reqFpreg
  rw [parseFpreg_take (by decide)] at hr
  exact .used b r hbase hr (usesAt_regs rfl hes.2)

theorem lea_used (hp : LoadText p m other) (hother : IsWord other)
    (h : Stands text pos (parseForm strtod equs line .lea p)) :
    OperandUsed text pos .lea m.token other := by
  rw [parseForm] at h
  obtain ⟨r, hr, hk⟩ := (h.load hp hother).reqReg
  obtain ⟨b, hbase, hes⟩ := hk.reqMem
  rw [parseReg_take (by decide)] at hr
  exact .used b r hbase hr (usesAt_regsOff32 rfl hes.2)

theorem MemOperands.used {form : Form} {op : Op} (hw : MemOperands p m other form op)
    (hacc : form.Accesses) (hother : IsWord other)
    (h : Stands text pos (parseForm strtod equs line form p)) :
    OperandUsed text pos op m.token other := by
  cases hw with
  | movStore hp => exact movStore_used hp hother h
  | movLoad hp => exact movLoad_used hp hother h
  | sizedStore op opOff hp => exact sizedStore_used hacc hp hother h
  | byte _ _ _ _ _ _ hp => exact sizedLoad_used hp hother (.inl ⟨rfl, rfl, rfl⟩) hacc.1 h
  | word _ _ _ _ _ _ hp =>
    exact sizedLoad_used hp hother (.inr (.inl ⟨rfl, rfl, rfl⟩)) hacc.2.1 h
  | dword _ _ _ _ _ _ hp =>
    exact sizedLoad_used hp hother (.inr (.inr ⟨rfl, rfl, rfl⟩)) hacc.2.2 h
  | fmovm hp => exact fmovm_used hp hother h
  | fmovs hp => exact fmovs_used hp hother h
  | lea hp => exact lea_used hp hother h

theorem MemOperands.mem_accessOps {form : Form} {op : Op} (hw : MemOperands p m other form op)
    (hacc : form.Accesses) : op ∈ accessOps := by
  cases hw with
  | sizedStore op opOff hp => exact hacc.1.mem_accessOps
  | byte _ _ _ _ _ _ hp => exact hacc.1.1.mem_accessOps
  | word _ _ _ _ _ _ hp => exact hacc.2.1.1.mem_accessOps
  | dword _ _ _ _ _ _ hp => exact hacc.2.2.1.mem_accessOps
  | _ => decide

end Family

/-! ## 5. The lines of an accepted source -/

section Lines

variable {env : AsmEnv} {src : List Byte} {ctx : AsmCtx}

theorem MemLine.used (h : asmCompile env src = .ok ctx) (L : MemLine env src) :
    OperandUsed ctx.text.bytes L.pos L.op L.mem.token L.other :=
  L.written.used (codeForms_accesses _ (mem_of_lookup L.known)) L.otherWord (L.laid h)

/-- An instruction that is encoded as written accesses the base plus the displacement. -/
theorem MemLine.exec_encoded (L : MemLine env src) (h : L.EncodedAsWritten ctx) :
    ∃ i b r, decode ctx.text.bytes L.pos = some i ∧ parseReg L.mem.base = some b ∧
      parseOther L.op L.other = some r ∧ ∀ sys t m,
        exec sys i.1 i.2 t m = accessAt L.op r (t.gpr b + BitVec.ofInt 64 L.disp) t m := by
  obtain ⟨i, hi, hplain, hbase, hdisp, hother⟩ := h
  have hop : i.1.plain ∈ accessOps := by
    rw [hplain]
    exact L.written.mem_accessOps (codeForms_accesses _ (mem_of_lookup L.known))
  refine ⟨i, memBase i, memOther i, hi, hbase, hother, fun sys t m => ?_⟩
  rw [exec_access hop, hplain, ← hdisp]

/-- In an accepted source a memory operand is encoded as it is written exactly if it is one that
can be encoded. -/
theorem MemLine.encodedAsWritten_iff (h : asmCompile env src = .ok ctx) (L : MemLine env src) :
    L.EncodedAsWritten ctx ↔ L.Encodable := by
  rcases L.used h with ⟨b, r, hbase, hr, i, hi, hplain, hb, hother, hdisp⟩ | ⟨o, hbase, hi, hload⟩
  · rw [L.mem.parseMem_token, Option.ite_none_right_eq_some] at hbase
    obtain ⟨hgap, hreg⟩ := hbase
    rw [MemText.parseMemOff_token hgap] at hdisp
    constructor
    · rintro ⟨i', hi', -, hreg', hdisp', -⟩
      cases hi.symm.trans hi'
      have hsame : b = memBase i := Option.some.inj (hreg.symm.trans hreg')
      refine ⟨hgap, ⟨b, hreg, ?_⟩, ?_⟩
      · intro hlea
        rw [hsame, hb, if_pos hlea]
      · rw [← hdisp', hdisp]
        split <;> rfl
    · rintro ⟨-, ⟨b', hreg', hlea⟩, hd⟩
      cases hreg.symm.trans hreg'
      refine ⟨i, hi, hplain, ?_, ?_, ?_⟩
      · rw [hreg, hb]
        split
        · next hop => rw [hlea hop]
        · rfl
      · rw [hdisp]
        split at hd
        · next hop => rw [if_pos hop, hd]
        · next hop => rw [if_neg hop, hd]
      · rw [hr, hother]
  · constructor
    · rintro ⟨i, hi', hplain, -⟩
      cases hi.symm.trans hi'
      rw [hload] at hplain
      cases hplain
    · rintro ⟨hgap, ⟨b, hreg, -⟩, -⟩
      rw [L.mem.parseMem_token, if_pos hgap, hreg] at hbase
      cases hbase

/-- The one line of a source. -/
theorem sourceReaders_single {env : AsmEnv} {src line : List Byte} (h : splitLines src = [line]) :
    (sourceReaders env src)[0]? = some ((AsmState.init env).reader.enter line) := by
  rw [sourceReaders, h]
  rfl

/-- A source that only loads `ax`. -/
def movLoadLine {src line rest : List Byte} (m : MemText) (disp : Int)
    (hline : splitLines src = [line])
    (htext : instrText ((AsmState.init zeroEnv).reader.enter line).lineBuf
      = some (lit "mov", lit "ax, " ++ (m.text ++ rest)))
    (hrest : EndsToken rest) (hvalue : m.value [] = some disp) : MemLine zeroEnv src where
  index := 0
  rd := (AsmState.init zeroEnv).reader.enter line
  read := sourceReaders_single hline
  mnem := lit "mov"
  operands := lit "ax, " ++ (m.text ++ rest)
  text := htext
  form := .mov
  known := by decide
  op := .movRM
  mem := m
  other := lit "ax"
  otherWord := ⟨by decide, by decide⟩
  written := .movLoad ⟨[], [], [ch ' '], rest, isBlank_nil, isBlank_nil, isBlank_space, hrest, rfl⟩
  disp := disp
  value := hvalue

/-- `[bx+8]`, with white space around the sign. -/
def bxPlus8 (gap : List Byte) (h : IsBlank gap) : MemText where
  base := lit "bx"
  gapAfter := gap
  disp := some
    { minus := false
      gapBefore := gap
      num := lit "8"
      word := by decide
      nonempty := by decide
      gaps := ⟨h, isBlank_nil⟩ }
  word := by decide
  nonempty := by decide
  gaps := ⟨isBlank_nil, h⟩

def adjacentSource : List Byte := lit "mov ax, [bx+8]\n"

def adjacentLine : MemLine zeroEnv adjacentSource :=
  @movLoadLine _ (lit "mov ax, [bx+8]") (List.replicate 498 0) (bxPlus8 [] isBlank_nil) 8
    (by decide +kernel) (by decide +kernel) rfl (by decide +kernel)

/-- A displacement without white space is encoded as written. -/
theorem adjacentLine_encoded : ∃ ctx, asmCompile zeroEnv adjacentSource = .ok ctx ∧
    adjacentLine.EncodedAsWritten ctx := by
  obtain ⟨ctx, h⟩ : ∃ ctx, asmCompile zeroEnv adjacentSource = .ok ctx :=
    exists_ok_of_isOk (by decide)
  have hdisp : (bxPlus8 [] isBlank_nil).readOff.toInt = 8 := by decide
  exact ⟨ctx, h, (adjacentLine.encodedAsWritten_iff h).mpr ⟨rfl, ⟨regBx, rfl, nofun⟩, hdisp⟩⟩

def spacedSource : List Byte := lit "mov ax, [bx + 8]\n"

def spacedLine : MemLine zeroEnv spacedSource :=
  @movLoadLine _ (lit "mov ax, [bx + 8]") (List.replicate 496 0) (bxPlus8 [ch ' '] isBlank_space) 8
    (by decide +kernel) (by decide +kernel) rfl (by decide +kernel)

/-- With white space around the sign 0 is encoded. -/
theorem spacedSource_not_asWritten : ¬ OperandsAsWritten zeroEnv spacedSource := by
  obtain ⟨ctx, h⟩ : ∃ ctx, asmCompile zeroEnv spacedSource = .ok ctx :=
    exists_ok_of_isOk (by decide)
  intro hall
  obtain ⟨i, hi, -, -, hdisp, -⟩ := hall ctx h spacedLine
  rcases spacedLine.used h with ⟨b, r, -, -, i', hi', -, -, -, hdisp'⟩ | ⟨o, hnone, -, -⟩
  · cases hi.symm.trans hi'
    have hzero : (parseMemOff (bxPlus8 [ch ' '] isBlank_space).token).toInt = 0 := by decide
    rw [hdisp] at hdisp'
    cases hdisp'.trans hzero
  · have hsome : parseMem (bxPlus8 [ch ' '] isBlank_space).token = some regBx := by decide
    cases hnone.symm.trans hsome

end Lines

end Dvm
