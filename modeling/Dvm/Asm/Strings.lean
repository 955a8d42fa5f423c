/-
# String literals

The bytes of a string are written between quotes, some of them behind a backslash (`Writes`).
`parse_string` reads back what was written, and a line `ds "…"` puts exactly that behind its
section, whatever separators stand between the quotes (`string_appended`).
-/
import Dvm.Asm.Comments
import Dvm.Asm.DataLines
import Dvm.Asm.MemOperand

namespace Dvm

open Loops

/-! ## 1. Writing a string -/

/-- No character of `s` ends a line. -/
def InLine (s : List Byte) : Prop := ∀ c ∈ s, c ≠ 0 ∧ c ≠ ch '\n'

theorem InLine.append {s t : List Byte} (hs : InLine s) (ht : InLine t) : InLine (s ++ t) :=
  fun c hc => (List.mem_append.mp hc).elim (hs c) (ht c)

theorem InLine.cons {c : Byte} {s : List Byte} (hc : c ≠ 0 ∧ c ≠ ch '\n') (hs : InLine s) :
    InLine (c :: s) :=
  List.forall_mem_cons.mpr ⟨hc, hs⟩

theorem InLine.not_mem {s : List Byte} (h : InLine s) : (0 : Byte) ∉ s ∧ ch '\n' ∉ s :=
  ⟨fun hc => (h _ hc).1 rfl, fun hc => (h _ hc).2 rfl⟩

/-- The bytes that are written as a letter behind a backslash. -/
def stringEscapes : List (Byte × Byte) :=
  [(0, ch '0'), (ch '\n', ch 'n'), (ch '"', ch '"'), (ch '\\', ch '\\'), (ch '\t', ch 't'),
   (ch '\r', ch 'r')]

/-- The literal `s` stands for the bytes `bs`.  Tab and carriage return can be written in both
ways. -/
inductive Writes : List Byte → List Byte → Prop
  | nil : Writes [] []
  | plain {c : Byte} {bs s : List Byte} : c ≠ 0 → c ≠ ch '\n' → c ≠ ch '"' → c ≠ ch '\\' →
      Writes bs s → Writes (c :: bs) (c :: s)
  | escaped {c e : Byte} {bs s : List Byte} : (c, e) ∈ stringEscapes →
      Writes bs s → Writes (c :: bs) (ch '\\' :: e :: s)

/-- Every string can be written. -/
theorem exists_writes (bs : List Byte) : ∃ s, Writes bs s := by
  induction bs with
  | nil => exact ⟨[], .nil⟩
  | cons c bs ih =>
    obtain ⟨s, hs⟩ := ih
    by_cases hesc : ∃ e, (c, e) ∈ stringEscapes
    · obtain ⟨e, he⟩ := hesc
      exact ⟨ch '\\' :: e :: s, .escaped he hs⟩
    · have hne : ∀ d e, (d, e) ∈ stringEscapes → c ≠ d := by
        rintro d e he rfl
        exact hesc ⟨e, he⟩
      exact ⟨c :: s, .plain (hne _ (ch '0') (by simp [stringEscapes]))
        (hne _ (ch 'n') (by simp [stringEscapes])) (hne _ (ch '"') (by simp [stringEscapes]))
        (hne _ (ch '\\') (by simp [stringEscapes])) hs⟩

theorem unescape_of_mem {c e : Byte} (h : (c, e) ∈ stringEscapes) : unescape e = c := by
  have hall : (stringEscapes.all fun x => unescape x.2 = x.1) = true := by decide
  simpa using List.all_eq_true.mp hall _ h

theorem escape_ne {c e : Byte} (h : (c, e) ∈ stringEscapes) : e ≠ 0 ∧ e ≠ ch '\n' := by
  have hall : (stringEscapes.all fun x => x.2 ≠ 0 ∧ x.2 ≠ ch '\n') = true := by decide
  simpa using List.all_eq_true.mp hall _ h

theorem Writes.inLine {bs s : List Byte} (h : Writes bs s) : InLine s := by
  induction h with
  | nil => exact fun c hc => nomatch hc
  | plain h0 hn hq hb hs ih => exact .cons ⟨h0, hn⟩ ih
  | escaped he hs ih => exact .cons (by decide) (.cons (escape_ne he) ih)

/-- `parse_string` inverts the writing, as long as the buffer holds the string. -/
theorem Writes.stringChars {bs s : List Byte} (h : Writes bs s) (line : Nat) (rest : List Byte)
    {n : Nat} (hn : n + bs.length < stringMax) :
    Dvm.stringChars line n (s ++ ch '"' :: rest) = .ok bs := by
  induction h generalizing n with
  | nil =>
    rw [List.nil_append, Dvm.stringChars.eq_def]
    exact if_pos (.inr rfl)
  | plain h0 hnl hq hb hs ih =>
    rw [List.length_cons] at hn
    rw [List.cons_append, stringChars_char (not_or.mpr ⟨h0, hq⟩) (by omega) hb, ih (by omega)]
    rfl
  | escaped he hs ih =>
    rw [List.length_cons] at hn
    rw [List.cons_append, List.cons_append, stringChars_escape (by omega), ih (by omega),
      ← unescape_of_mem he]
    rfl

/-! ## 2. Lines with a string -/

/-- A label in front of an instruction: a word that the assembler does not take for something
else. -/
structure LabelText where
  name : CStr
  gapBefore : List Byte := []
  gapAfter : List Byte
  word : IsWord name
  short : name.length < asmLabelLen
  plain : name ≠ lit "global" ∧ name ≠ lit "extern" ∧ name.head? ≠ some (ch '.')
  gaps : IsBlank gapBefore ∧ IsBlank gapAfter

def LabelText.text (l : LabelText) : List Byte :=
  l.name ++ (l.gapBefore ++ ch ':' :: l.gapAfter)

/-- The lines `ds "…"` and `dsz "…"`, which a label can precede.  What stands behind the closing
quote is not looked at. -/
structure StringText where
  indent : List Byte := []
  label : Option LabelText := none
  mnem : CStr
  gap : List Byte
  bytes : List Byte
  literal : List Byte
  behind : List Byte := []
  known : mnem = lit "ds" ∨ mnem = lit "dsz"
  gaps : IsBlank indent ∧ IsBlank gap ∧ gap ≠ []
  rest : InLine behind
  writes : Writes bytes literal
  short : bytes.length < stringMax

/-- From the mnemonic on. -/
def StringText.instr (t : StringText) : List Byte :=
  t.mnem ++ (t.gap ++ ch '"' :: (t.literal ++ ch '"' :: t.behind))

def StringText.text (t : StringText) : List Byte :=
  t.indent ++ (t.label.elim [] LabelText.text ++ t.instr)

/-- What the line stands for. -/
def StringText.payload (t : StringText) : List Byte :=
  if t.mnem = lit "dsz" then t.bytes ++ [0] else t.bytes

/-- The statements of the line. -/
def StringText.stmts (t : StringText) : List Stmt :=
  (t.label.map fun l => Stmt.label l.name).toList ++ [.data t.payload]

/-- A line with a string in a source. -/
structure StringLine (src : List Byte) extends StringText where
  before : List Byte
  after : List Byte
  split : before ++ (toStringText.text ++ after) = src
  inside : (0 : Byte) ∉ before
  starts : before = [] ∨ ∃ s, before = s ++ [ch '\n']
  ends : after.headD 0 = 0 ∨ after.headD 0 = ch '\n'
  fits : toStringText.text.length ≤ lineMax

section Source

variable {src : List Byte}

def StringLine.linesBefore (l : StringLine src) : List (List Byte) := (cut [] l.before).1

def StringLine.linesBehind (l : StringLine src) : List (List Byte) :=
  if l.after.headD 0 = ch '\n' then splitLines l.after.tail else []

/-- The section holds what the line stands for, and the label table its label. -/
def StringText.HasRoom (t : StringText) (st : AsmState) : Prop :=
  (st.ctx.secBuf st.cursec).bytes.length + t.payload.length ≤ dvmBufMax ∧
    ∀ l ∈ t.label, labelFind st.ctx.labels l.name = none → st.ctx.labels.length < asmMaxLabels

/-- `bs` is put behind a section, and the other sections stay as they are. -/
structure AsmCtx.Appends (c c' : AsmCtx) (sec : DvmSection) (bs : List Byte) : Prop where
  here : (c'.secBuf sec).bytes = (c.secBuf sec).bytes ++ bs
  others : ∀ sec', IsSec sec' → sec' ≠ sec → c'.secBuf sec' = c.secBuf sec'

/-- From `st` on, the line is carried out and puts what it stands for behind the current
section; and there it stands in an accepted source, in front of what the lines behind add. -/
structure StringLine.Appended (l : StringLine src) (env : AsmEnv) (st : AsmState) : Prop where
  carried : ∃ st', asmLine env st l.text = .ok st'
  step : ∀ st', asmLine env st l.text = .ok st' →
    st.ctx.Appends st'.ctx st.cursec l.payload ∧ st'.cursec = st.cursec
  result : ∀ ctx, asmCompile env src = .ok ctx → ∃ st', asmLine env st l.text = .ok st' ∧
    (ctx.secBuf st.cursec).bytes = (st.ctx.secBuf st.cursec).bytes ++ l.payload
      ++ sectionBytes st.cursec (readLines env st'.reader l.linesBehind).flatten

end Source

/-! ## 3. What the line is read as -/

theorem IsWord.append_ne_blank {w : CStr} (hw : IsWord w) (q : List Byte) :
    isBlank (w ++ q) = false := by
  obtain ⟨c, w', rfl⟩ := List.exists_cons_of_ne_nil hw.1
  have hc := hw.2 c (.head _)
  simp only [List.cons_append, isBlank, Bool.or_eq_false_iff, decide_eq_false_iff_not]
  constructor
  · rintro rfl
    exact absurd hc (by decide)
  · rintro rfl
    exact absurd hc (by decide)

section Read

variable {strtod : Strtod} {equs : List AsmEqu} {cursec : DvmSection} {n : Nat}

/-- A short word is a token. -/
theorem IsWord.readTok_short {w ws rest : List Byte} (hw : IsWord w) (hws : IsBlank ws)
    (hrest : EndsToken rest) (hshort : w.length < asmLabelLen) :
    Dvm.readTok asmLabelLen (ws ++ (w ++ rest)) = (w, rest) := by
  have hle : w.length ≤ asmLabelLen - 1 := Nat.le_sub_one_of_lt hshort
  rw [hw.readTok hws hrest, List.take_of_length_le hle, List.drop_of_length_le hle,
    List.nil_append]

/-- A line from its first word on, if that is neither a directive nor a dot. -/
theorem parseLine_word {w ws rest : List Byte} (hw : IsWord w) (hws : IsBlank ws)
    (hrest : EndsToken rest) (hshort : w.length < asmLabelLen)
    (hplain : w ≠ lit "global" ∧ w ≠ lit "extern" ∧ w.head? ≠ some (ch '.')) :
    parseLine strtod equs cursec n (ws ++ (w ++ rest))
      = if (skipWs rest).head? = some (ch ':') then
          let p := skipWs (skipWs rest).tail
          if isBlank p then [.label w]
          else
            let (mnem, after) := readTok asmLabelLen p
            .label w :: parseInstr strtod equs cursec n mnem (skipWs after)
        else parseInstr strtod equs cursec n w (skipWs rest) := by
  have hskip : skipWs (ws ++ (w ++ rest)) = w ++ rest := by
    rw [skipWs_append hws, hw.skipWs]
  have hread : readTok asmLabelLen (w ++ rest) = (w, rest) :=
    hw.readTok_short isBlank_nil hrest hshort
  have hdot : (w ++ rest).head? ≠ some (ch '.') := by
    obtain ⟨c, w', rfl⟩ := List.exists_cons_of_ne_nil hw.1
    exact hplain.2.2
  have hblank : ¬ isBlank (w ++ rest) = true := by
    rw [hw.append_ne_blank]
    exact Bool.false_ne_true
  simp only [parseLine, hskip]
  rw [if_neg hblank, if_neg hdot]
  simp only [hread, hplain.1, hplain.2.1, if_false]

theorem string_ne_number {mnem : CStr} (h : mnem = lit "ds" ∨ mnem = lit "dsz") :
    mnem ≠ lit "db" ∧ mnem ≠ lit "dw" ∧ mnem ≠ lit "dd" ∧ mnem ≠ lit "dq" := by
  rcases h with rfl | rfl
  · decide
  · decide

/-- A pseudo-op for a string and the literal behind it. -/
theorem StringText.parseInstr (t : StringText) (hsec : cursec ≠ dvmSecCode) (r : List Byte) :
    Dvm.parseInstr strtod equs cursec n t.mnem
        (ch '"' :: (t.literal ++ ch '"' :: (t.behind ++ r))) = [.data t.payload] := by
  obtain ⟨hdb, hdw, hdd, hdq⟩ := string_ne_number t.known
  have hskip : skipWs (ch '"' :: (t.literal ++ ch '"' :: (t.behind ++ r)))
      = ch '"' :: (t.literal ++ ch '"' :: (t.behind ++ r)) := skipWs_of_head (by decide) _
  have hchars := t.writes.stringChars n (t.behind ++ r) (n := 0) (by simpa using t.short)
  rw [Dvm.parseInstr, if_pos hsec, parseData]
  simp only [hdb, hdw, hdd, hdq, if_false, t.known, if_true, hskip, parseString, hchars]
  rfl

theorem StringText.isWord (t : StringText) :
    IsWord t.mnem ∧ t.mnem.length < asmLabelLen ∧
      t.mnem ≠ lit "global" ∧ t.mnem ≠ lit "extern" ∧ t.mnem.head? ≠ some (ch '.') := by
  unfold IsWord
  rcases t.known with h | h
  · rw [h]
    decide
  · rw [h]
    decide

/-- Behind a label the line goes on with the next word. -/
theorem parseLine_label (l : LabelText) {w ws rest : List Byte} (hw : IsWord w) (hws : IsBlank ws)
    (hrest : EndsToken rest) (hshort : w.length < asmLabelLen) :
    parseLine strtod equs cursec n (ws ++ (l.text ++ (w ++ rest)))
      = .label l.name :: parseInstr strtod equs cursec n w (skipWs rest) := by
  have htext : ws ++ (l.text ++ (w ++ rest))
      = ws ++ (l.name ++ (l.gapBefore ++ ch ':' :: (l.gapAfter ++ (w ++ rest)))) := by
    simp only [LabelText.text, List.append_assoc, List.cons_append]
  have hcolon : skipWs (l.gapBefore ++ ch ':' :: (l.gapAfter ++ (w ++ rest)))
      = ch ':' :: (l.gapAfter ++ (w ++ rest)) := by
    rw [skipWs_append l.gaps.1]
    exact skipWs_of_head (by decide) _
  have hends : EndsToken (l.gapBefore ++ ch ':' :: (l.gapAfter ++ (w ++ rest))) := by
    rcases Decidable.em (l.gapBefore = []) with hnil | hsome
    · rw [hnil]
      exact (by decide : isDelim (ch ':') = true)
    · exact endsToken_blank l.gaps.1 hsome _
  have hbehind : skipWs (l.gapAfter ++ (w ++ rest)) = w ++ rest := by
    rw [skipWs_append l.gaps.2, hw.skipWs]
  have hread : readTok asmLabelLen (w ++ rest) = (w, rest) :=
    hw.readTok_short isBlank_nil hrest hshort
  rw [htext, parseLine_word l.word hws hends l.short l.plain, hcolon]
  simp only [List.head?_cons, List.tail_cons, if_true, hbehind, hw.append_ne_blank,
    Bool.false_eq_true, if_false, hread]

/-- Behind the label the line is a pseudo-op with its literal, whatever the buffer holds behind
the line. -/
theorem StringText.parseLine (t : StringText) (hsec : cursec ≠ dvmSecCode) (r : List Byte) :
    Dvm.parseLine strtod equs cursec n (t.text ++ r) = t.stmts := by
  obtain ⟨hword, hshort, hplain⟩ := t.isWord
  obtain ⟨hindent, hgap, hne⟩ := t.gaps
  let q := ch '"' :: (t.literal ++ ch '"' :: (t.behind ++ r))
  have hends : EndsToken (t.gap ++ q) := endsToken_blank hgap hne q
  have hskip : skipWs (t.gap ++ q) = q := by
    rw [skipWs_append hgap]
    exact skipWs_of_head (by decide) _
  have hinstr : t.instr ++ r = t.mnem ++ (t.gap ++ q) := by
    simp only [instr, q, List.append_assoc, List.cons_append]
  have hdata : Dvm.parseInstr strtod equs cursec n t.mnem q = [.data t.payload] :=
    t.parseInstr hsec r
  cases hl : t.label with
  | none =>
    have htext : t.text ++ r = t.indent ++ (t.mnem ++ (t.gap ++ q)) := by
      rw [text, hl, List.append_assoc, Option.elim_none, List.nil_append, hinstr]
    have hcolon : (skipWs (t.gap ++ q)).head? ≠ some (ch ':') := by
      rw [hskip]
      exact (by decide : some (ch '"') ≠ some (ch ':'))
    rw [htext, parseLine_word hword hindent hends hshort hplain, if_neg hcolon, hskip, hdata,
      stmts, hl]
    rfl
  | some l =>
    have htext : t.text ++ r = t.indent ++ (l.text ++ (t.mnem ++ (t.gap ++ q))) := by
      rw [text, hl, List.append_assoc, Option.elim_some, List.append_assoc, hinstr]
    rw [htext, parseLine_label l hword hindent hends hshort, hskip, hdata, stmts, hl]
    rfl

end Read

/-! ## 4. Where the line stands -/

theorem IsBlank.inLine {ws : List Byte} (h : IsBlank ws) : InLine ws := by
  intro c hc
  rcases h c hc with rfl | rfl
  · decide
  · decide

theorem IsWord.inLine {w : CStr} (h : IsWord w) : InLine w := by
  intro c hc
  have hdelim := h.2 c hc
  constructor
  · rintro rfl
    exact absurd hdelim (by decide)
  · rintro rfl
    exact absurd hdelim (by decide)

theorem StringText.inLine (t : StringText) : InLine t.text := by
  obtain ⟨hindent, hgap, -⟩ := t.gaps
  have hquote : ch '"' ≠ 0 ∧ ch '"' ≠ ch '\n' := by decide
  have hcolon : ch ':' ≠ 0 ∧ ch ':' ≠ ch '\n' := by decide
  have hliteral : InLine (ch '"' :: (t.literal ++ ch '"' :: t.behind)) :=
    .cons hquote (t.writes.inLine.append (.cons hquote t.rest))
  refine hindent.inLine.append (.append ?_ (t.isWord.1.inLine.append (hgap.inLine.append hliteral)))
  cases t.label with
  | none => exact fun c hc => nomatch hc
  | some l =>
    exact l.word.inLine.append (l.gaps.1.inLine.append (.cons hcolon l.gaps.2.inLine))

theorem StringText.text_ne_nil (t : StringText) : t.text ≠ [] := by
  intro h
  simp [text, instr] at h

/-- Behind the end of a line a new one starts. -/
theorem cut_newline (line s : List Byte) : (cut line (s ++ [ch '\n'])).2 = [] := by
  induction s generalizing line with
  | nil =>
    rw [List.nil_append, cut, if_pos rfl]
    rfl
  | cons c s ih =>
    rw [List.cons_append, cut]
    split
    · exact ih []
    · split
      · exact ih _
      · exact ih _

/-- Characters that the buffer holds are read into it. -/
theorem cut_append {line s : List Byte} (hs : InLine s) (hlen : line.length + s.length ≤ lineMax)
    (rest : List Byte) : cut line (s ++ rest) = cut (line ++ s) rest := by
  induction s generalizing line with
  | nil => rw [List.append_nil, List.nil_append]
  | cons c s ih =>
    obtain ⟨hc, hs⟩ := List.forall_mem_cons.mp hs
    rw [List.length_cons] at hlen
    rw [List.cons_append, cut, if_neg hc.2, if_pos (by omega),
      ih hs (by rw [List.length_append, List.length_singleton]; omega), List.append_assoc]
    rfl

theorem cut_fits {line s : List Byte} (hs : InLine s) (hlen : line.length + s.length ≤ lineMax) :
    cut line s = ([], line ++ s) := by
  have h := cut_append hs hlen []
  rwa [List.append_nil, cut] at h

/-- Lines that fit are cut where they end. -/
theorem cut_lines {line : List Byte} {ts : List (List Byte)}
    (h : ∀ t ∈ ts, InLine t ∧ t.length ≤ lineMax) :
    cut line (ts.flatMap (ch '\n' :: ·) ++ [ch '\n']) = (line :: ts, []) := by
  induction ts generalizing line with
  | nil =>
    rw [List.flatMap_nil, List.nil_append, cut, if_pos rfl]
    rfl
  | cons t ts ih =>
    obtain ⟨⟨ht, hlen⟩, hts⟩ := List.forall_mem_cons.mp h
    rw [List.flatMap_cons, List.cons_append, List.cons_append, cut, if_pos rfl, List.append_assoc,
      cut_append ht (by simpa using hlen), List.nil_append, ih hts]

section Source

variable {src : List Byte} {env : AsmEnv} {st st' : AsmState}

theorem StringLine.splitLines_eq (l : StringLine src) :
    splitLines src = l.linesBefore ++ l.text :: l.linesBehind := by
  have hstart : (cut [] l.before).2 = [] := by
    rcases l.starts with h | ⟨s, h⟩
    · rw [h, cut]
    · rw [h]
      exact cut_newline [] s
  have hcut : cut [] l.text = ([], l.text) := cut_fits l.inLine (by simpa using l.fits)
  have hends : linesFrom l.text l.after = l.text :: l.linesBehind := by
    rw [linesFrom_end l.ends, if_neg fun h => l.text_ne_nil h.1]
    rfl
  have hline : linesFrom [] (l.text ++ l.after) = l.text :: l.linesBehind := by
    rw [linesFrom_append l.inLine.not_mem.1, hcut]
    exact hends
  have h := @linesFrom_append [] l.before (l.text ++ l.after) l.inside
  rw [l.split, ← Dvm.splitLines_eq, hstart, hline] at h
  exact h

/-! ## 5. Carrying it out -/

theorem labelDefine_isOk_iff {labels : List AsmLabel} {name : CStr} {flags : Byte}
    {sec : DvmSection} {off : Int} :
    (∃ labels', labelDefine labels name flags sec off = .ok labels') ↔
      (labelFind labels name = none → labels.length < asmMaxLabels) := by
  unfold labelDefine
  cases hf : labelFind labels name with
  | some x =>
    refine iff_of_true ?_ nofun
    simp only
    split
    · exact ⟨_, rfl⟩
    · split <;> exact ⟨_, rfl⟩
  | none =>
    by_cases hfull : asmMaxLabels ≤ labels.length
    · simp [hfull, Nat.not_lt.mpr hfull]
    · simp [hfull, Nat.lt_of_not_le hfull]

theorem putData_isOk_iff {ctx : AsmCtx} {sec : DvmSection} {bs : List Byte} :
    (∃ ctx', putData ctx sec bs = .ok ctx') ↔
      (ctx.secBuf sec).bytes.length + bs.length ≤ dvmBufMax := by
  unfold putData bufPut
  rw [← List.length_append]
  by_cases hfit : ((ctx.secBuf sec).bytes ++ bs).length ≤ dvmBufMax
  · rw [dif_pos hfit]
    exact iff_of_true ⟨_, rfl⟩ hfit
  · rw [dif_neg hfit]
    exact iff_of_false nofun hfit

theorem putData_appends {ctx ctx' : AsmCtx} {sec : DvmSection} {bs : List Byte}
    (hsec : IsDataSec sec) (h : putData ctx sec bs = .ok ctx') : ctx.Appends ctx' sec bs := by
  refine ⟨?_, ?_⟩
  · have hbytes := putData_secBuf hsec h
    rwa [if_pos rfl] at hbytes
  · unfold putData at h
    cases hput : bufPut (ctx.secBuf sec) bs with
    | error e =>
      rw [hput] at h
      cases h
    | ok b =>
      rw [hput] at h
      cases h
      intro sec' hsec' hne
      rcases hsec with rfl | rfl
      · rcases hsec' with rfl | rfl | rfl
        · exact absurd rfl hne
        · rfl
        · rfl
      · rcases hsec' with rfl | rfl | rfl
        · rfl
        · exact absurd rfl hne
        · rfl

theorem putData_labels {ctx ctx' : AsmCtx} {sec : DvmSection} {bs : List Byte}
    (h : putData ctx sec bs = .ok ctx') : ctx'.labels = ctx.labels := by
  unfold putData at h
  split at h
  · cases h
  · cases h
    split
    · rfl
    · split <;> rfl

theorem doStmt_label_iff {name : CStr} :
    doStmt st (.label name) = .ok st' ↔
      ∃ labels, defineLabel st.ctx name st.cursec = .ok labels ∧
        st' = { st with ctx := { st.ctx with labels := labels } } := by
  simp only [doStmt, doStmtCtx, AsmCtx.withLabels]
  cases defineLabel st.ctx name st.cursec with
  | error e => simp
  | ok labels => simp [eq_comm]

theorem doStmt_data_iff {bs : List Byte} :
    doStmt st (.data bs) = .ok st' ↔
      ∃ ctx, putData st.ctx st.cursec bs = .ok ctx ∧ st' = { st with ctx := ctx } := by
  simp only [doStmt, doStmtCtx]
  cases putData st.ctx st.cursec bs with
  | error e => simp
  | ok ctx => simp [eq_comm]

/-- The label, if there is one, and then the string. -/
theorem StringText.foldlM_stmts_iff (t : StringText) :
    t.stmts.foldlM doStmt st = .ok st' ↔
      ∃ labels ctx, (∀ l ∈ t.label, defineLabel st.ctx l.name st.cursec = .ok labels) ∧
        (t.label = none → labels = st.ctx.labels) ∧
        putData { st.ctx with labels := labels } st.cursec t.payload = .ok ctx ∧
        st' = { st with ctx := ctx } := by
  rw [stmts]
  cases t.label with
  | none =>
    rw [Option.map_none, Option.toList_none, List.nil_append, foldlM_cons_ok_iff]
    constructor
    · rintro ⟨s, hdata, hs⟩
      cases hs
      obtain ⟨ctx, hput, hst⟩ := doStmt_data_iff.mp hdata
      exact ⟨st.ctx.labels, ctx, nofun, fun _ => rfl, hput, hst⟩
    · rintro ⟨labels, ctx, -, hlabels, hput, hst⟩
      rw [hlabels rfl] at hput
      exact ⟨st', doStmt_data_iff.mpr ⟨ctx, hput, hst⟩, rfl⟩
  | some l =>
    rw [Option.map_some, Option.toList_some, List.singleton_append, foldlM_cons_ok_iff]
    constructor
    · rintro ⟨s, hlabel, hrest⟩
      obtain ⟨labels, hdef, rfl⟩ := doStmt_label_iff.mp hlabel
      obtain ⟨s', hdata, hs⟩ := foldlM_cons_ok_iff.mp hrest
      cases hs
      obtain ⟨ctx, hput, hst⟩ := doStmt_data_iff.mp hdata
      refine ⟨labels, ctx, ?_, nofun, hput, hst⟩
      rintro l' ⟨⟩
      exact hdef
    · rintro ⟨labels, ctx, hdef, -, hput, hst⟩
      refine ⟨_, doStmt_label_iff.mpr ⟨labels, hdef l rfl, rfl⟩, foldlM_cons_ok_iff.mpr ?_⟩
      exact ⟨st', doStmt_data_iff.mpr ⟨ctx, hput, hst⟩, rfl⟩

/-- The line in the buffer is read as its statements. -/
theorem StringText.asmLine_eq (t : StringText) (hsec : IsDataSec st.cursec) :
    asmLine env st t.text = t.stmts.foldlM doStmt
      { st with
        lineno := st.lineno + 1
        lineBuf := t.text ++ 0 :: st.lineBuf.drop (t.text.length + 1) } := by
  have hne : st.cursec ≠ dvmSecCode := by
    rcases hsec with h | h
    · rw [h]
      decide
    · rw [h]
      decide
  rw [asmLine]
  simp only [t.parseLine hne]

theorem StringText.asmLine_isOk_iff (t : StringText) (hsec : IsDataSec st.cursec) :
    (∃ st', asmLine env st t.text = .ok st') ↔ t.HasRoom st := by
  simp only [t.asmLine_eq hsec, t.foldlM_stmts_iff]
  have hput : ∀ labels, (∃ ctx, putData { st.ctx with labels := labels } st.cursec t.payload
      = .ok ctx) ↔ (st.ctx.secBuf st.cursec).bytes.length + t.payload.length ≤ dvmBufMax :=
    fun labels => putData_isOk_iff
  constructor
  · rintro ⟨st', labels, ctx, hdef, -, hctx, -⟩
    exact ⟨(hput labels).mp ⟨ctx, hctx⟩, fun l hl => labelDefine_isOk_iff.mp ⟨labels, hdef l hl⟩⟩
  · rintro ⟨hroom, hlabel⟩
    obtain ⟨labels, hdef, hnone⟩ : ∃ labels,
        (∀ l ∈ t.label, defineLabel st.ctx l.name st.cursec = .ok labels) ∧
          (t.label = none → labels = st.ctx.labels) := by
      cases hl : t.label with
      | none => exact ⟨st.ctx.labels, nofun, fun _ => rfl⟩
      | some l =>
        obtain ⟨labels, h⟩ := labelDefine_isOk_iff.mpr (hlabel l hl)
        refine ⟨labels, ?_, nofun⟩
        rintro l' ⟨⟩
        exact h
    obtain ⟨ctx, hctx⟩ := (hput labels).mpr hroom
    exact ⟨_, labels, ctx, hdef, hnone, hctx, rfl⟩

theorem StringText.asmLine_appends (t : StringText) (hsec : IsDataSec st.cursec)
    (h : asmLine env st t.text = .ok st') :
    st.ctx.Appends st'.ctx st.cursec t.payload ∧ st'.cursec = st.cursec := by
  rw [t.asmLine_eq hsec, t.foldlM_stmts_iff] at h
  obtain ⟨labels, ctx, -, -, hput, rfl⟩ := h
  obtain ⟨hhere, hothers⟩ := putData_appends hsec hput
  exact ⟨⟨hhere, hothers⟩, rfl⟩

/-- In an accepted source the string stands between what the lines before and behind it add. -/
theorem StringLine.asmCompile_appends (l : StringLine src)
    (hst : l.linesBefore.foldlM (asmLine env) (.init env) = .ok st) (hsec : IsDataSec st.cursec)
    {ctx : AsmCtx} (h : asmCompile env src = .ok ctx) :
    ∃ st', asmLine env st l.text = .ok st' ∧
      (ctx.secBuf st.cursec).bytes = (st.ctx.secBuf st.cursec).bytes ++ l.payload
        ++ sectionBytes st.cursec (readLines env st'.reader l.linesBehind).flatten := by
  unfold asmCompile at h
  cases hlines : (splitLines src).foldlM (asmLine env) (.init env) with
  | error e =>
    rw [hlines] at h
    cases h
  | ok stEnd =>
    rw [hlines] at h
    rw [l.splitLines_eq] at hlines
    obtain ⟨s, hs, hrest⟩ := foldlM_append_ok_iff.mp hlines
    rw [hst] at hs
    cases hs
    obtain ⟨st', hline, hbehind⟩ := foldlM_cons_ok_iff.mp hrest
    obtain ⟨hhere, -⟩ := (l.asmLine_appends hsec hline).1
    obtain ⟨-, text, -, rfl⟩ := patchesResolve_ok h
    refine ⟨st', hline, ?_⟩
    rw [secBuf_text hsec, foldlM_doSource_secBuf hsec (foldlM_asmLine_ok hbehind), hhere]

/-- A line that stops the assembler is the end of the run. -/
theorem StringLine.asmCompile_stops (l : StringLine src)
    (hst : l.linesBefore.foldlM (asmLine env) (.init env) = .ok st) {why : AsmStop}
    (h : asmLine env st l.text = .error why) : asmCompile env src = .error why := by
  have hlines : (splitLines src).foldlM (asmLine env) (.init env) = .error why := by
    rw [l.splitLines_eq, foldlM_append_error_iff]
    exact .inr ⟨st, hst, by rw [List.foldlM_cons, h]; rfl⟩
  rw [asmCompile, hlines]

/-- A string is put behind its section as it was before it was written out, on its own line and
in the whole of an accepted source, exactly if the section and the label table have room. -/
theorem string_appended (env : AsmEnv) {src : List Byte} (l : StringLine src) {st : AsmState}
    (hst : l.linesBefore.foldlM (asmLine env) (.init env) = .ok st) (hsec : IsDataSec st.cursec) :
    l.Appended env st ↔ l.HasRoom st := by
  rw [← l.asmLine_isOk_iff hsec]
  constructor
  · exact StringLine.Appended.carried
  · intro hcarried
    exact ⟨hcarried, fun st' h => l.asmLine_appends hsec h,
      fun ctx h => l.asmCompile_appends hst hsec h⟩

end Source

theorem writes_sample : Writes [ch ';', ch '"', 0] (lit ";\\\"\\0") := by
  have hquote : (ch '"', ch '"') ∈ stringEscapes := by simp [stringEscapes]
  have hnul : (0, ch '0') ∈ stringEscapes := by simp [stringEscapes]
  exact .plain (by decide) (by decide) (by decide) (by decide)
    (.escaped hquote (.escaped hnul .nil))

theorem ends_nil : ([] : List Byte).headD 0 = 0 ∨ ([] : List Byte).headD 0 = ch '\n' :=
  .inl rfl

/-- `s: dsz ";\"\0"`, behind `.data`. -/
def sampleLine : StringLine (lit ".data\ns: dsz \";\\\"\\0\"") where
  label := some {
    name := lit "s"
    gapAfter := lit " "
    word := ⟨by decide, by decide⟩
    short := by decide
    plain := by decide
    gaps := ⟨isBlank_nil, isBlank_space⟩ }
  mnem := lit "dsz"
  gap := lit " "
  bytes := [ch ';', ch '"', 0]
  literal := lit ";\\\"\\0"
  known := .inr rfl
  gaps := ⟨isBlank_nil, isBlank_space, by decide⟩
  rest := List.forall_mem_nil _
  writes := writes_sample
  short := by decide
  before := lit ".data\n"
  after := []
  split := by decide
  inside := by decide
  starts := .inr ⟨lit ".data", by decide⟩
  ends := ends_nil
  fits := by decide

theorem string_appended_sample :
    ∃ st, sampleLine.linesBefore.foldlM (asmLine zeroEnv) (.init zeroEnv) = .ok st ∧
      sampleLine.Appended zeroEnv st :=
  ⟨_, rfl, (string_appended zeroEnv sampleLine rfl (.inr rfl)).mpr
    ⟨by decide, fun _ _ _ => by decide⟩⟩

/-! ## 6. A full label table -/

def letter (i : Nat) : Byte := ch 'A' + BitVec.ofNat 8 (i % 24)

theorem letter_word (i : Nat) : isDelim (letter i) = false ∧ letter i ≠ ch '.' := by
  have hall : ∀ k < 24, isDelim (letter k) = false ∧ letter k ≠ ch '.' := by decide
  have hmod : letter (i % 24) = letter i := by rw [letter, Nat.mod_mod, letter]
  rw [← hmod]
  exact hall _ (Nat.mod_lt _ (by decide))

theorem letter_inj {i k : Nat} (h : letter i = letter k) : i % 24 = k % 24 := by
  have hnat := congrArg BitVec.toNat h
  simp only [letter, ch, BitVec.toNat_add, BitVec.toNat_ofNat] at hnat
  omega

/-- Two letters as a label. -/
def twoLetters (i : Nat) : LabelText where
  name := [letter (i / 24), letter i]
  gapAfter := lit " "
  word := ⟨List.cons_ne_nil _ _, by simp [letter_word]⟩
  short := Nat.lt_of_lt_of_le (Nat.lt_succ_self 2) (by decide)
  plain := ⟨fun h => (by decide : (lit "global").length ≠ 2) (h ▸ rfl),
    fun h => (by decide : (lit "extern").length ≠ 2) (h ▸ rfl),
    fun h => (letter_word _).2 (Option.some.inj h)⟩
  gaps := ⟨isBlank_nil, isBlank_space⟩

/-- The labels are all different. -/
theorem nodup_twoLetters {n : Nat} (hn : n ≤ 24 * 24) :
    (((List.range n).map twoLetters).map LabelText.name).Nodup := by
  rw [List.map_map]
  refine List.Nodup.map_on (fun i hi k hk h => ?_) List.nodup_range
  have hi := List.mem_range.mp hi
  have hk := List.mem_range.mp hk
  simp only [Function.comp_apply, twoLetters, List.cons.injEq, and_true] at h
  have hhigh := letter_inj h.1
  have hlow := letter_inj h.2
  omega

/-- A label in front of an empty string. -/
def emptyString (l : LabelText) : StringText where
  label := some l
  mnem := lit "ds"
  gap := lit " "
  bytes := []
  literal := []
  known := .inl rfl
  gaps := ⟨isBlank_nil, isBlank_space, by decide⟩
  rest := List.forall_mem_nil _
  writes := .nil
  short := by decide

section Labels

variable {env : AsmEnv} {st : AsmState}

/-- One more label for the table. -/
theorem asmLine_emptyString (hsec : IsDataSec st.cursec) (l : LabelText)
    (hnew : l.name ∉ st.ctx.labels.map AsmLabel.name)
    (hroom : st.ctx.labels.length < asmMaxLabels) :
    ∃ st', asmLine env st (emptyString l).text = .ok st' ∧ st'.cursec = st.cursec ∧
      st'.ctx.labels.map AsmLabel.name = st.ctx.labels.map AsmLabel.name ++ [l.name] := by
  have hfind : labelFind st.ctx.labels l.name = none :=
    Table.find_eq_none_iff.mpr fun a ha hname => hnew (List.mem_map.mpr ⟨a, ha, hname⟩)
  have hfits : (st.ctx.secBuf st.cursec).bytes.length + (emptyString l).payload.length
      ≤ dvmBufMax := (st.ctx.secBuf st.cursec).fits
  have hok : ∃ st', asmLine env st (emptyString l).text = .ok st' :=
    ((emptyString l).asmLine_isOk_iff hsec).mpr ⟨hfits, fun _ _ _ => hroom⟩
  obtain ⟨st', hline⟩ := hok
  refine ⟨st', hline, ((emptyString l).asmLine_appends hsec hline).2, ?_⟩
  rw [(emptyString l).asmLine_eq hsec, (emptyString l).foldlM_stmts_iff] at hline
  obtain ⟨labels, ctx, hdef, -, hput, rfl⟩ := hline
  have hdef : defineLabel st.ctx l.name st.cursec = .ok labels := hdef l rfl
  have hlabels : ctx.labels = labels := putData_labels hput
  unfold defineLabel labelDefine at hdef
  simp only [hfind, if_neg (Nat.not_le.mpr hroom), Except.ok.injEq] at hdef
  show ctx.labels.map AsmLabel.name = _
  rw [hlabels, ← hdef, List.map_append]
  rfl

/-- As many as there are names. -/
theorem foldlM_emptyStrings (ls : List LabelText) (hsec : IsDataSec st.cursec)
    (hnew : (st.ctx.labels.map AsmLabel.name ++ ls.map LabelText.name).Nodup)
    (hroom : st.ctx.labels.length + ls.length ≤ asmMaxLabels) :
    ∃ st', (ls.map fun l => (emptyString l).text).foldlM (asmLine env) st = .ok st' ∧
      st'.cursec = st.cursec ∧ st'.ctx.labels.map AsmLabel.name
        = st.ctx.labels.map AsmLabel.name ++ ls.map LabelText.name := by
  induction ls generalizing st with
  | nil => exact ⟨st, rfl, rfl, (List.append_nil _).symm⟩
  | cons l ls ih =>
    rw [List.length_cons] at hroom
    rw [List.map_cons, List.append_cons] at hnew
    have hfresh : l.name ∉ st.ctx.labels.map AsmLabel.name := by
      intro hmem
      have hpair := (List.nodup_append.mp (List.nodup_append.mp hnew).1).2.2
      exact hpair _ hmem _ (.head _) rfl
    obtain ⟨st₁, hline, hcur, hnames⟩ := @asmLine_emptyString env _ hsec l hfresh (by omega)
    have hlen := congrArg List.length hnames
    rw [List.length_append, List.length_map, List.length_map, List.length_singleton] at hlen
    obtain ⟨st', hlines, hcur', hnames'⟩ :=
      @ih st₁ (hcur ▸ hsec) (hnames ▸ hnew) (by omega)
    refine ⟨st', foldlM_cons_ok_iff.mpr ⟨st₁, hline, hlines⟩, hcur'.trans hcur, ?_⟩
    rw [hnames', hnames, List.map_cons, List.append_assoc, List.singleton_append]

end Labels

/-- As many labels as the table holds. -/
def tableLabels : List LabelText := (List.range asmMaxLabels).map twoLetters

/-- Lines with these labels. -/
def fullTable : List (List Byte) := tableLabels.map fun l => (emptyString l).text

theorem fullTable_inLine : ∀ t ∈ fullTable, InLine t ∧ t.length ≤ lineMax := by
  intro t ht
  obtain ⟨l, hl, rfl⟩ := List.mem_map.mp ht
  obtain ⟨i, -, rfl⟩ := List.mem_map.mp hl
  exact ⟨(emptyString (twoLetters i)).inLine, Nat.le_of_ble_eq_true rfl⟩

/-- A data section with these lines. -/
def fullTableSrc : List Byte := lit ".data" ++ (fullTable.flatMap (ch '\n' :: ·) ++ [ch '\n'])

theorem cut_fullTableSrc : cut [] fullTableSrc = (lit ".data" :: fullTable, []) := by
  rw [fullTableSrc, cut_append (by unfold InLine; decide) (by decide), List.nil_append,
    cut_lines fullTable_inLine]

theorem fullTableSrc_no_nul : (0 : Byte) ∉ fullTableSrc := by
  intro h
  rcases List.mem_append.mp h with h | h
  · exact absurd h (by decide)
  rcases List.mem_append.mp h with h | h
  · obtain ⟨t, ht, hc⟩ := List.mem_flatMap.mp h
    rcases List.mem_cons.mp hc with hc | hc
    · exact absurd hc (by decide)
    · exact ((fullTable_inLine t ht).1.not_mem).1 hc
  · exact absurd h (by decide)

/-- `X: ds "A"`, behind them. -/
def labelTooMany : StringLine (fullTableSrc ++ lit "X: ds \"A\"") where
  label := some {
    name := lit "X"
    gapAfter := lit " "
    word := ⟨by decide, by decide⟩
    short := by decide
    plain := by decide
    gaps := ⟨isBlank_nil, isBlank_space⟩ }
  mnem := lit "ds"
  gap := lit " "
  bytes := [ch 'A']
  literal := [ch 'A']
  known := .inl rfl
  gaps := ⟨isBlank_nil, isBlank_space, by decide⟩
  rest := List.forall_mem_nil _
  writes := .plain (by decide) (by decide) (by decide) (by decide) .nil
  short := by decide
  before := fullTableSrc
  after := []
  split := congrArg (fullTableSrc ++ ·) (by decide)
  inside := fullTableSrc_no_nul
  starts := .inr ⟨_, (List.append_assoc _ _ _).symm⟩
  ends := ends_nil
  fits := by decide

/-- The table is full when the line is reached, and its label is new. -/
theorem labelTooMany_reached :
    ∃ st, labelTooMany.linesBefore.foldlM (asmLine zeroEnv) (.init zeroEnv) = .ok st ∧
      st.cursec = dvmSecData ∧ st.ctx.labels.length = asmMaxLabels ∧
      labelFind st.ctx.labels (lit "X") = none := by
  obtain ⟨st₀, hdata, hsec, hnone⟩ : ∃ st₀,
      asmLine zeroEnv (.init zeroEnv) (lit ".data") = .ok st₀ ∧ st₀.cursec = dvmSecData ∧
        st₀.ctx.labels = [] := ⟨_, rfl, rfl, rfl⟩
  have hlen : tableLabels.length = asmMaxLabels := by
    rw [tableLabels, List.length_map, List.length_range]
  obtain ⟨st, hst, hcur, hlabels⟩ := @foldlM_emptyStrings zeroEnv st₀ tableLabels (.inr hsec)
    (by rw [hnone, List.map_nil, List.nil_append]; exact nodup_twoLetters (by decide))
    (by rw [hnone, hlen, List.length_nil, Nat.zero_add])
  rw [hnone, List.map_nil, List.nil_append] at hlabels
  refine ⟨st, ?_, hcur.trans hsec, ?_, ?_⟩
  · have hlines : labelTooMany.linesBefore = lit ".data" :: fullTable :=
      congrArg Prod.fst cut_fullTableSrc
    rw [hlines, foldlM_cons_ok_iff]
    exact ⟨st₀, hdata, hst⟩
  · rw [← List.length_map AsmLabel.name, hlabels, List.length_map, hlen]
  · refine Table.find_eq_none_iff.mpr fun a ha hname => ?_
    have hmem : lit "X" ∈ tableLabels.map LabelText.name :=
      hlabels ▸ List.mem_map.mpr ⟨a, ha, hname⟩
    obtain ⟨l, hl, hx⟩ := List.mem_map.mp hmem
    obtain ⟨i, -, rfl⟩ := List.mem_map.mp hl
    exact (by decide : (lit "X").length ≠ 2) (hx ▸ rfl)

/-- The line is not carried out: its label finds the table full, and the process ends. -/
theorem label_ends_process :
    ∃ st, labelTooMany.linesBefore.foldlM (asmLine zeroEnv) (.init zeroEnv) = .ok st ∧
      st.cursec = dvmSecData ∧ ¬ labelTooMany.Appended zeroEnv st ∧
      asmCompile zeroEnv (fullTableSrc ++ lit "X: ds \"A\"") = .error (.exit .labelTableFull) := by
  obtain ⟨st, hst, hsec, hfull, hnew⟩ := labelTooMany_reached
  have hexit : asmLine zeroEnv st labelTooMany.text = .error (.exit .labelTableFull) := by
    rw [labelTooMany.asmLine_eq (.inr hsec)]
    show (doStmt _ (.label (lit "X"))).bind _ = _
    simp only [doStmt, doStmtCtx, defineLabel, labelDefine, hnew, hfull, le_refl, if_true,
      AsmCtx.withLabels]
    rfl
  refine ⟨st, hst, hsec, fun h => ?_, ?_⟩
  · obtain ⟨st', hst'⟩ := h.carried
    rw [hexit] at hst'
    cases hst'
  · exact labelTooMany.asmCompile_stops hst hexit

/-! ## 7. What `parse_string` looks at -/

/-- The characters of a literal behind its opening quote, an escape being one of them. -/
def literalChars : List Byte → Nat
  | [] => 0
  | c :: p =>
    if c = 0 ∨ c = ch '"' then 0
    else if c = ch '\\' then
      match p with
      | [] => 1
      | _ :: p => literalChars p + 1
    else literalChars p + 1

/-- The literal comes to its end: a quote or a NUL that no backslash stands before. -/
def literalEnds : List Byte → Bool
  | [] => false
  | c :: p =>
    if c = 0 ∨ c = ch '"' then true
    else if c = ch '\\' then
      match p with
      | [] => false
      | _ :: p => literalEnds p
    else literalEnds p

/-- How many characters the loop of `parse_string` looks at, `n` characters being stored. -/
def charsRead : Nat → List Byte → Nat
  | _, [] => 1
  | n, c :: p =>
    if c = 0 ∨ c = ch '"' then 1
    else if stringMax - 1 ≤ n then 1
    else if c = ch '\\' then
      match p with
      | [] => 2
      | _ :: p => charsRead (n + 1) p + 2
    else charsRead (n + 1) p + 1

/-- How many characters `parse_string` looks at. -/
def stringRead (p : List Byte) : Nat :=
  match p with
  | [] => 1
  | c :: p => if c = ch '"' then charsRead 0 p + 1 else 1

/-- A line that the assembler comes to, in the state `st`. -/
structure ReachedLine (env : AsmEnv) (src : List Byte) where
  before : List (List Byte)
  line : List Byte
  after : List (List Byte)
  split : splitLines src = before ++ line :: after
  st : AsmState
  reached : before.foldlM (asmLine env) (.init env) = .ok st

/-- What the line is read as, if `r` stands behind its NUL. -/
def ReachedLine.stmts {env : AsmEnv} {src : List Byte} (L : ReachedLine env src) (r : List Byte) :
    List Stmt :=
  parseLine env.strtod L.st.ctx.equs L.st.cursec (L.st.lineno + 1) (L.line ++ 0 :: r)

/-- What the lines before have left behind the NUL. -/
def ReachedLine.leftover {env : AsmEnv} {src : List Byte} (L : ReachedLine env src) : List Byte :=
  L.st.lineBuf.drop (L.line.length + 1)

/-- A line `ds` or `dsz` in a data section. -/
structure DsLine (env : AsmEnv) (src : List Byte) extends ReachedLine env src where
  inData : st.cursec ≠ dvmSecCode
  mnem : CStr
  operands : List Byte
  instr : instrText line = some (mnem, operands)
  known : mnem = lit "ds" ∨ mnem = lit "dsz"

section DsLine

variable {env : AsmEnv} {src : List Byte}

/-- The literal, from its opening quote to the end of the line. -/
def DsLine.literal (L : DsLine env src) : List Byte := skipWs L.operands

def DsLine.Opened (L : DsLine env src) : Prop := L.literal.head? = some (ch '"')

/-- The literal has a closing quote. -/
def DsLine.Closed (L : DsLine env src) : Prop := L.Opened ∧ literalEnds L.literal.tail = true

/-- The literal is read from its own line: up to the NUL at most, with a result that does not
depend on what stands behind it, and without a closing quote it is rejected. -/
structure DsLine.Confined (L : DsLine env src) : Prop where
  inside : stringRead (L.literal ++ 0 :: L.leftover) ≤ L.literal.length + 1
  own : ∀ r r', L.stmts r = L.stmts r'
  rejected : ¬ L.Closed → ∃ why, .stop why ∈ L.stmts L.leftover

/-- The literal is closed, or rejected for something else: it is none, or it is too long. -/
def DsLine.Ends (L : DsLine env src) : Prop :=
  L.Opened → L.Closed ∨ stringMax ≤ literalChars L.literal.tail

end DsLine

/-! ## 8. The loop over a literal -/

section Loop

variable {n line : Nat} {c e : Byte} {p : List Byte}

theorem stringChars_end (hend : c = 0 ∨ c = ch '"') : stringChars line n (c :: p) = .ok [] := by
  rw [stringChars.eq_def]
  exact if_pos hend

theorem stringChars_long (hend : ¬(c = 0 ∨ c = ch '"')) (hlong : stringMax - 1 ≤ n) :
    stringChars line n (c :: p) = .error (.exit (.stringTooLong line)) := by
  rw [stringChars.eq_def]
  simp only [hend, hlong, if_true, if_false]

theorem charsRead_pos (n : Nat) (p : List Byte) : 1 ≤ charsRead n p := by
  rw [charsRead.eq_def]
  repeat' split
  all_goals omega

theorem charsRead_end (hend : c = 0 ∨ c = ch '"') : charsRead n (c :: p) = 1 := by
  rw [charsRead.eq_def]
  exact if_pos hend

theorem charsRead_long (hend : ¬(c = 0 ∨ c = ch '"')) (hlong : stringMax - 1 ≤ n) :
    charsRead n (c :: p) = 1 := by
  rw [charsRead.eq_def]
  simp only [hend, hlong, if_true, if_false]

theorem charsRead_escape (hlong : ¬stringMax - 1 ≤ n) :
    charsRead n (ch '\\' :: e :: p) = charsRead (n + 1) p + 2 := by
  have hend : ¬(ch '\\' = 0 ∨ ch '\\' = ch '"') := by decide
  rw [charsRead.eq_def]
  simp only [hend, hlong, if_true, if_false]

theorem charsRead_char (hend : ¬(c = 0 ∨ c = ch '"')) (hlong : ¬stringMax - 1 ≤ n)
    (hesc : c ≠ ch '\\') : charsRead n (c :: p) = charsRead (n + 1) p + 1 := by
  rw [charsRead.eq_def]
  simp only [hend, hlong, hesc, if_false]

theorem literal_end (hend : c = 0 ∨ c = ch '"') :
    literalChars (c :: p) = 0 ∧ literalEnds (c :: p) = true := by
  rw [literalChars.eq_def, literalEnds.eq_def]
  simp only [hend, if_true, and_self]

theorem literal_escape : literalChars (ch '\\' :: e :: p) = literalChars p + 1 ∧
    literalEnds (ch '\\' :: e :: p) = literalEnds p := by
  have hend : ¬(ch '\\' = 0 ∨ ch '\\' = ch '"') := by decide
  rw [literalChars.eq_def, literalEnds.eq_def]
  simp only [hend, if_true, if_false, and_self]

/-- The line ends behind a backslash. -/
theorem literal_backslash :
    literalChars [ch '\\'] = 1 ∧ literalEnds [ch '\\'] = false := by
  decide

theorem literal_char (hend : ¬(c = 0 ∨ c = ch '"')) (hesc : c ≠ ch '\\') :
    literalChars (c :: p) = literalChars p + 1 ∧ literalEnds (c :: p) = literalEnds p := by
  rw [literalChars.eq_def, literalEnds.eq_def]
  simp only [hend, hesc, if_false, and_self]

/-- A literal with too many characters is rejected. -/
theorem stringChars_tooLong (hn : n < stringMax) (h : stringMax ≤ n + literalChars p) :
    stringChars line n p = .error (.exit (.stringTooLong line)) := by
  induction p using literalChars.induct generalizing n with
  | case1 =>
    rw [literalChars] at h
    omega
  | case2 c p hend =>
    rw [(literal_end hend).1] at h
    omega
  | case3 hend =>
    rw [literal_backslash.1] at h
    exact stringChars_long hend (by omega)
  | case4 e p hend ih =>
    rw [literal_escape.1] at h
    by_cases hlong : stringMax - 1 ≤ n
    · exact stringChars_long hend hlong
    · rw [stringChars_escape hlong, ih (by omega) (by omega)]
      rfl
  | case5 c p hend hesc ih =>
    rw [(literal_char hend hesc).1] at h
    by_cases hlong : stringMax - 1 ≤ n
    · exact stringChars_long hend hlong
    · rw [stringChars_char hend hlong hesc, ih (by omega) (by omega)]
      rfl

/-- A literal that the buffer of `parse_string` holds is read to its end. -/
theorem stringChars_ends (h : n + literalChars p < stringMax) (hends : literalEnds p = true) :
    ∃ bs, stringChars line n p = .ok bs := by
  induction p using literalChars.induct generalizing n with
  | case1 => cases hends
  | case2 c p hend => exact ⟨[], stringChars_end hend⟩
  | case3 hend => exact absurd hends (by decide)
  | case4 e p hend ih =>
    rw [literal_escape.1] at h
    rw [literal_escape.2] at hends
    obtain ⟨bs, hbs⟩ := @ih (n + 1) (by omega) hends
    rw [stringChars_escape (by omega), hbs]
    exact ⟨unescape e :: bs, rfl⟩
  | case5 c p hend hesc ih =>
    obtain ⟨hchars, hrest⟩ := @literal_char c p hend hesc
    rw [hchars] at h
    rw [hrest] at hends
    obtain ⟨bs, hbs⟩ := @ih (n + 1) (by omega) hends
    rw [stringChars_char hend (by omega) hesc, hbs]
    exact ⟨c :: bs, rfl⟩

/-- One that does not end takes the assembler past the end of the buffer. -/
theorem stringChars_overrun (h : n + literalChars p < stringMax) (hends : literalEnds p = false) :
    stringChars line n p = .error .overrun := by
  induction p using literalChars.induct generalizing n with
  | case1 => rfl
  | case2 c p hend =>
    rw [(literal_end hend).2] at hends
    cases hends
  | case3 hend =>
    rw [literal_backslash.1] at h
    have hlong : ¬stringMax - 1 ≤ n := by omega
    rw [stringChars.eq_def]
    simp only [hend, hlong, if_true, if_false]
  | case4 e p hend ih =>
    rw [literal_escape.1] at h
    rw [literal_escape.2] at hends
    rw [stringChars_escape (by omega), ih (by omega) hends]
    rfl
  | case5 c p hend hesc ih =>
    obtain ⟨hchars, hrest⟩ := @literal_char c p hend hesc
    rw [hchars] at h
    rw [hrest] at hends
    rw [stringChars_char hend (by omega) hesc, ih (by omega) hends]
    rfl

/-- A literal that ends, or is too long, is not left. -/
theorem charsRead_le (hn : n < stringMax)
    (h : literalEnds p = true ∨ stringMax ≤ n + literalChars p) (q : List Byte) :
    charsRead n (p ++ q) ≤ p.length := by
  induction p using literalChars.induct generalizing n with
  | case1 =>
    rw [literalChars] at h
    rcases h with h | h
    · cases h
    · omega
  | case2 c p hend =>
    rw [List.cons_append, charsRead_end hend, List.length_cons]
    omega
  | case3 hend =>
    rw [literal_backslash.1, literal_backslash.2] at h
    have hlong := h.resolve_left Bool.false_ne_true
    rw [List.cons_append, charsRead_long hend (by omega), List.length_singleton]
  | case4 e p hend ih =>
    rw [literal_escape.1, literal_escape.2] at h
    rw [List.cons_append, List.cons_append, List.length_cons, List.length_cons]
    by_cases hlong : stringMax - 1 ≤ n
    · rw [charsRead_long hend hlong]
      omega
    · have hrest := @ih (n + 1) (by omega) (h.imp_right fun h => by omega)
      rw [charsRead_escape hlong]
      omega
  | case5 c p hend hesc ih =>
    obtain ⟨hchars, hends⟩ := @literal_char c p hend hesc
    rw [hchars, hends] at h
    rw [List.cons_append, List.length_cons]
    by_cases hlong : stringMax - 1 ≤ n
    · rw [charsRead_long hend hlong]
      omega
    · have hrest := @ih (n + 1) (by omega) (h.imp_right fun h => by omega)
      rw [charsRead_char hend hlong hesc]
      omega

/-- A literal that the end of the line cuts off is accepted, or the NUL is stepped over. -/
theorem stringChars_cut (h0 : (0 : Byte) ∉ p) (hends : literalEnds p = false)
    (h : n + literalChars p < stringMax) (r : List Byte) :
    (∃ bs, stringChars line n (p ++ 0 :: r) = .ok bs) ∨
      p.length + 1 < charsRead n (p ++ 0 :: r) := by
  induction p using literalChars.induct generalizing n with
  | case1 => exact .inl ⟨[], stringChars_end (.inl rfl)⟩
  | case2 c p hend =>
    rw [(literal_end hend).2] at hends
    cases hends
  | case3 hend =>
    rw [literal_backslash.1] at h
    have hrest := charsRead_pos (n + 1) r
    refine .inr ?_
    rw [List.cons_append, List.nil_append, charsRead_escape (by omega), List.length_singleton]
    omega
  | case4 e p hend ih =>
    obtain ⟨-, h0⟩ := List.ne_and_not_mem_of_not_mem_cons h0
    obtain ⟨-, h0⟩ := List.ne_and_not_mem_of_not_mem_cons h0
    rw [literal_escape.1] at h
    rw [literal_escape.2] at hends
    rw [List.cons_append, List.cons_append, stringChars_escape (by omega),
      charsRead_escape (by omega), List.length_cons, List.length_cons]
    rcases @ih (n + 1) h0 hends (by omega) with ⟨bs, hbs⟩ | hread
    · rw [hbs]
      exact .inl ⟨unescape e :: bs, rfl⟩
    · exact .inr (by omega)
  | case5 c p hend hesc ih =>
    obtain ⟨-, h0⟩ := List.ne_and_not_mem_of_not_mem_cons h0
    obtain ⟨hchars, hrest⟩ := @literal_char c p hend hesc
    rw [hchars] at h
    rw [hrest] at hends
    rw [List.cons_append, stringChars_char hend (by omega) hesc,
      charsRead_char hend (by omega) hesc, List.length_cons]
    rcases @ih (n + 1) h0 hends (by omega) with ⟨bs, hbs⟩ | hread
    · rw [hbs]
      exact .inl ⟨c :: bs, rfl⟩
    · exact .inr (by omega)

end Loop

/-! ## 9. Literals and their lines -/

section Text

variable {c : Byte} {p q : List Byte}

theorem mem_of_mem_skipWs (h : c ∈ skipWs p) : c ∈ p := by
  induction p with
  | nil => exact h
  | cons d p ih =>
    rw [skipWs] at h
    split at h
    · exact .tail _ (ih h)
    · exact h

theorem mem_of_mem_readTok {n : Nat} (h : c ∈ (readTok n p).2) : c ∈ p := by
  rw [readTok, takeTok_eq] at h
  exact mem_of_mem_skipWs (List.mem_of_mem_drop h)

theorem mem_of_mem_instrText {mnem : CStr} (h : instrText p = some (mnem, q)) (hc : c ∈ q) :
    c ∈ p := by
  unfold instrText at h
  simp only at h
  split at h
  · cases h
  split at h
  · cases h
  split at h
  · split at h
    · cases h
    · cases h
      have htail := mem_of_mem_skipWs (mem_of_mem_readTok (mem_of_mem_skipWs hc))
      exact mem_of_mem_skipWs (mem_of_mem_readTok (mem_of_mem_skipWs (List.mem_of_mem_tail htail)))
  · cases h
    exact mem_of_mem_skipWs (mem_of_mem_readTok (mem_of_mem_skipWs hc))

/-- No line holds a NUL. -/
theorem splitLine_no_nul {line : List Byte} (hline : (0 : Byte) ∉ line) {src : List Byte} :
    ∀ l ∈ splitLine line src, (0 : Byte) ∉ l := by
  induction src generalizing line with
  | nil =>
    rw [splitLine]
    exact List.forall_mem_singleton.mpr hline
  | cons c src ih =>
    rw [splitLine]
    split
    · exact List.forall_mem_singleton.mpr hline
    next hc =>
    split
    · refine List.forall_mem_cons.mpr ⟨hline, ?_⟩
      split
      · exact List.forall_mem_nil _
      · exact ih List.not_mem_nil
    · split
      · exact ih fun h => (List.mem_append.mp h).elim hline fun h =>
          hc (List.mem_singleton.mp h).symm
      · exact List.forall_mem_cons.mpr ⟨hline, ih fun h => hc (List.mem_singleton.mp h).symm⟩

end Text

section DsLine

variable {env : AsmEnv} {src : List Byte}

theorem DsLine.no_nul (L : DsLine env src) : (0 : Byte) ∉ L.literal := by
  intro h
  have hmem : L.line ∈ splitLines src := by
    rw [L.split]
    exact List.mem_append_right _ (.head _)
  have hline : (0 : Byte) ∈ L.line := mem_of_mem_instrText L.instr (mem_of_mem_skipWs h)
  unfold splitLines at hmem
  split at hmem
  · cases hmem
  · exact splitLine_no_nul List.not_mem_nil _ hmem hline

/-- The line stops the assembler exactly if its literal does. -/
theorem DsLine.stop_iff (L : DsLine env src) (r : List Byte) {why : AsmStop} :
    .stop why ∈ L.stmts r ↔ parseString (L.st.lineno + 1) (L.literal ++ 0 :: r) = .error why := by
  have hnul : isBlank (0 :: r : List Byte) = true := rfl
  have htext := instrText_tail L.line hnul
  rw [L.instr, Option.map_some] at htext
  obtain ⟨hdb, hdw, hdd, hdq⟩ := string_ne_number L.known
  have hliteral : skipWs (L.operands ++ 0 :: r) = L.literal ++ 0 :: r := skipWs_tail _ hnul
  have hinstr : .stop why ∈ parseInstr env.strtod L.st.ctx.equs L.st.cursec (L.st.lineno + 1)
        L.mnem (L.operands ++ 0 :: r) ↔
      parseString (L.st.lineno + 1) (L.literal ++ 0 :: r) = .error why := by
    rw [parseInstr, if_pos L.inData, parseData]
    simp only [hdb, hdw, hdd, hdq, if_false, L.known, if_true, hliteral]
    cases parseString (L.st.lineno + 1) (L.literal ++ 0 :: r) with
    | error e => simp [eq_comm]
    | ok bs => simp
  unfold ReachedLine.stmts
  rcases parseLine_of_instrText htext with h | ⟨tok, h⟩
  · rw [h, hinstr]
  · rw [h, List.mem_cons, or_iff_right (by simp), hinstr]

/-- What the line is read as depends on what stands behind it only through its literal. -/
theorem DsLine.stmts_eq (L : DsLine env src) {r r' : List Byte}
    (h : parseString (L.st.lineno + 1) (L.literal ++ 0 :: r)
      = parseString (L.st.lineno + 1) (L.literal ++ 0 :: r')) : L.stmts r = L.stmts r' := by
  refine parseLine_tails rfl rfl fun mnem q hq _ _ => ?_
  rw [L.instr] at hq
  cases hq
  exact h

theorem DsLine.ends_of_confined (L : DsLine env src) (h : L.Confined) : L.Ends := by
  intro hopen
  by_contra hnot
  obtain ⟨hclosed, hshort⟩ := not_or.mp hnot
  obtain ⟨p, hp⟩ : ∃ p, L.literal = ch '"' :: p := List.head?_eq_some_iff.mp hopen
  have hnul := L.no_nul
  have hin := h.inside
  obtain ⟨why, hwhy⟩ := h.rejected hclosed
  have hends : literalEnds p = false := by
    rw [← Bool.not_eq_true]
    intro hends
    refine hclosed ⟨hopen, ?_⟩
    rw [hp]
    exact hends
  rw [L.stop_iff, hp, List.cons_append, parseString, if_pos rfl] at hwhy
  rw [hp] at hnul hshort
  rw [hp, List.cons_append, stringRead, if_pos rfl, List.length_cons] at hin
  obtain ⟨-, hnul⟩ := List.ne_and_not_mem_of_not_mem_cons hnul
  rw [List.tail_cons] at hshort
  rcases @stringChars_cut 0 (L.st.lineno + 1) p hnul hends (by omega) L.leftover with
    ⟨bs, hbs⟩ | hread
  · rw [hwhy] at hbs
    cases hbs
  · omega

/-- Nothing behind a literal that ends, or is too long, is read. -/
theorem parseString_alone {p : List Byte} (h : literalEnds p = true ∨ stringMax ≤ literalChars p)
    (line : Nat) (r : List Byte) :
    parseString line (ch '"' :: p ++ r) = stringChars line 0 p := by
  rw [List.cons_append, parseString, if_pos rfl]
  refine stringChars_append _ _ _ _ ?_
  by_cases hlong : stringMax ≤ 0 + literalChars p
  · rw [stringChars_tooLong (by decide) hlong]
    simp
  · obtain ⟨bs, hbs⟩ := @stringChars_ends 0 line p (by omega) (h.resolve_right (by omega))
    rw [hbs]
    simp

theorem DsLine.confined_of_opened (L : DsLine env src) (h : L.Ends) (hopen : L.Opened) :
    L.Confined := by
  obtain ⟨p, hp⟩ : ∃ p, L.literal = ch '"' :: p := List.head?_eq_some_iff.mp hopen
  have hends := h hopen
  rw [DsLine.Closed, hp, List.tail_cons, and_iff_right hopen] at hends
  have hown : ∀ r, parseString (L.st.lineno + 1) (L.literal ++ 0 :: r)
      = stringChars (L.st.lineno + 1) 0 p := by
    intro r
    rw [hp]
    exact parseString_alone hends _ _
  rw [← Nat.zero_add (literalChars p)] at hends
  refine ⟨?_, fun r r' => L.stmts_eq ((hown r).trans (hown r').symm), fun hclosed => ?_⟩
  · have hread := @charsRead_le 0 p (by decide) hends (0 :: L.leftover)
    rw [hp, List.cons_append, stringRead, if_pos rfl, List.length_cons]
    omega
  · have hlong := (h hopen).resolve_left hclosed
    rw [hp, List.tail_cons, ← Nat.zero_add (literalChars p)] at hlong
    exact ⟨_, (L.stop_iff _).mpr ((hown _).trans (stringChars_tooLong (by decide) hlong))⟩

/-- Where no quote stands, nothing else is looked at. -/
theorem parseString_not_opened {p : List Byte} (h : p.head? ≠ some (ch '"')) (line : Nat)
    (r : List Byte) :
    parseString line (p ++ 0 :: r) = .error (.exit (.expectedString line)) ∧
      stringRead (p ++ 0 :: r) = 1 := by
  cases p with
  | nil =>
    rw [List.nil_append, parseString, stringRead, if_neg (by decide), if_neg (by decide)]
    exact ⟨rfl, rfl⟩
  | cons c p =>
    have hc : c ≠ ch '"' := fun hc => h (congrArg some hc)
    rw [List.cons_append, parseString, stringRead, if_neg hc, if_neg hc]
    exact ⟨rfl, rfl⟩

theorem DsLine.confined_of_not_opened (L : DsLine env src) (h : ¬ L.Opened) : L.Confined := by
  have hnone := fun r => parseString_not_opened h (L.st.lineno + 1) r
  refine ⟨?_, fun r r' => L.stmts_eq ((hnone r).1.trans (hnone r').1.symm),
    fun _ => ⟨_, (L.stop_iff _).mpr (hnone _).1⟩⟩
  rw [(hnone _).2]
  exact Nat.le_add_left _ _

/-- A literal is read from its own line exactly if it is closed there or rejected for something
else. -/
theorem confined_iff (L : DsLine env src) : L.Confined ↔ L.Ends := by
  refine ⟨L.ends_of_confined, fun h => ?_⟩
  by_cases hopen : L.Opened
  · exact L.confined_of_opened h hopen
  · exact L.confined_of_not_opened hopen

end DsLine

/-- Its last line ends behind a backslash. -/
def cutOff : List Byte := lit ".data\nds \"AAAAAAAA\"\nds \"\\"

/-- The line behind it, wherever the two lines before have got to. -/
def cutOffLine (st : AsmState)
    (h : [lit ".data", lit "ds \"AAAAAAAA\""].foldlM (asmLine zeroEnv) (.init zeroEnv) = .ok st)
    (hsec : st.cursec ≠ dvmSecCode) : DsLine zeroEnv cutOff where
  before := [lit ".data", lit "ds \"AAAAAAAA\""]
  line := lit "ds \"\\"
  after := []
  split := by decide
  st := st
  reached := h
  inData := hsec
  mnem := lit "ds"
  operands := lit "\"\\"
  instr := by decide
  known := .inl rfl

/-- The literal goes on in what the line before has left in the buffer, up to its quote; and one
without a closing quote is accepted. -/
theorem cutOff_leaves_line :
    (¬ ∀ L : DsLine zeroEnv cutOff, L.Confined) ∧
    (asmOutcome (asmCompile zeroEnv cutOff)).toOption.map AsmOutput.data
      = some (lit "AAAAAAAA" ++ 0 :: lit "AAAAAA") ∧
    (asmOutcome (asmCompile zeroEnv (lit ".data\nds \"abc"))).toOption.map AsmOutput.data
      = some (lit "abc") := by
  refine ⟨fun h => ?_, by decide +kernel, by decide +kernel⟩
  obtain ⟨st, hst, hsec⟩ : ∃ st, [lit ".data", lit "ds \"AAAAAAAA\""].foldlM (asmLine zeroEnv)
      (.init zeroEnv) = .ok st ∧ st.cursec ≠ dvmSecCode :=
    exists_ok_of_decide (by decide +kernel)
  have hin := (h (cutOffLine st hst hsec)).inside
  have hread := charsRead_pos (0 + 1) (cutOffLine st hst hsec).leftover
  have hliteral : (cutOffLine st hst hsec).literal = [ch '"', ch '\\'] := by
    show skipWs (lit "\"\\") = _
    decide
  rw [hliteral, List.cons_append, stringRead, if_pos rfl, List.cons_append, List.nil_append,
    charsRead_escape (by decide), List.length_cons, List.length_singleton] at hin
  omega

end Dvm
