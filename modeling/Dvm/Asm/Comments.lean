/-
# Comments

The line loop of `asm_compile` cuts a line behind 510 characters, wherever that is, and reads
what follows as a line of its own: of a comment that is longer than the room on its line, too.
And `parse_string` goes on behind the line's NUL where an escape skips it, in what the lines
before left in the line buffer: the text of their comments, too.

Apart from these two a comment does not matter (`comment_neutral`), whatever is before it, in it
and behind its line.  What there is room for is never cut (`LineEnd.overflow_blank`), and one
character more can spoil any source (`comment_spoils`).
-/
import Mathlib.Data.List.Infix
import Dvm.Asm.LineNumbers
import Dvm.Asm.LineText

namespace Dvm

open Loops

/-! ## 1. The end of a line -/

/-- The lines that the line loop completes in some characters, of which `line` are read already,
and what it has of the next one at their end. -/
def cut (line : List Byte) : List Byte → List (List Byte) × List Byte
  | [] => ([], line)
  | c :: rest =>
    if c = ch '\n' then let (lines, cur) := cut [] rest; (line :: lines, cur)
    else if line.length < lineMax then cut (line ++ [c]) rest
    else let (lines, cur) := cut [c] rest; (line :: lines, cur)

/-- Whether a line ends inside a string literal. -/
def endsInString (line : List Byte) : Bool :=
  match instrText line with
  | none => false
  | some (mnem, p) =>
    (mnem = lit "ds" ∨ mnem = lit "dsz") &&
      match parseString 0 (skipWs p) with
      | .error .overrun => true
      | _ => false

/-- The end of a line of a source, outside a string literal. -/
structure LineEnd (src : List Byte) where
  before : List Byte
  after : List Byte
  split : before ++ after = src
  inside : (0 : Byte) ∉ before
  ends : after.headD 0 = 0 ∨ after.headD 0 = ch '\n'
  outside : endsInString (cut [] before).2 = false

/-- The text of a comment. -/
def IsComment (c : List Byte) : Prop := (0 : Byte) ∉ c ∧ ch '\n' ∉ c

instance (c : List Byte) : Decidable (IsComment c) := inferInstanceAs (Decidable (_ ∧ _))

section LineEnd

variable {src : List Byte}

/-- The source with a comment there. -/
def LineEnd.comment (e : LineEnd src) (c : List Byte) : List Byte :=
  e.before ++ ch ';' :: c ++ e.after

/-- The lines before. -/
def LineEnd.linesBefore (e : LineEnd src) : List (List Byte) := (cut [] e.before).1

/-- The line that ends there, or its last piece. -/
def LineEnd.line (e : LineEnd src) : List Byte := (cut [] e.before).2

/-- The lines behind. -/
def LineEnd.linesBehind (e : LineEnd src) : List (List Byte) :=
  if e.after.headD 0 = ch '\n' then splitLines e.after.tail else []

/-- The pieces that are cut off a comment. -/
def LineEnd.overflow (e : LineEnd src) (c : List Byte) : List (List Byte) :=
  (splitLine e.line (ch ';' :: c)).tail

/-- What the line buffer holds behind the line, with and without the comment. -/
def LineEnd.kept (e : LineEnd src) (c : List Byte) : List Byte :=
  if e.overflow c = [] then e.line else []

end LineEnd

/-- The line loop from inside a line, of which `line` is read. -/
def linesFrom (line src : List Byte) : List (List Byte) :=
  if line = [] ∧ src.headD 0 = 0 then [] else splitLine line src

theorem splitLines_eq (src : List Byte) : splitLines src = linesFrom [] src := by
  unfold splitLines linesFrom
  simp only [true_and]

/-- The line loop over some characters, then over the rest. -/
theorem linesFrom_append {line pre rest : List Byte} (hpre : (0 : Byte) ∉ pre) :
    linesFrom line (pre ++ rest) = (cut line pre).1 ++ linesFrom (cut line pre).2 rest := by
  induction pre generalizing line with
  | nil => rfl
  | cons c pre ih =>
    obtain ⟨hc, hpre⟩ := List.ne_and_not_mem_of_not_mem_cons hpre
    have hline : linesFrom line (c :: pre ++ rest) = splitLine line (c :: (pre ++ rest)) :=
      if_neg fun h => hc h.2.symm
    rw [hline, splitLine, if_neg (Ne.symm hc), cut]
    by_cases hnl : c = ch '\n'
    · rw [if_pos hnl, if_pos hnl, List.cons_append, ← ih hpre]
      simp only [linesFrom, true_and]
    · rw [if_neg hnl, if_neg hnl]
      by_cases hlen : line.length < lineMax
      · rw [if_pos hlen, if_pos hlen, ← ih hpre]
        exact (if_neg fun h => absurd h.1 (by simp)).symm
      · rw [if_neg hlen, if_neg hlen, List.cons_append, ← ih hpre]
        exact congrArg _ (if_neg fun h => absurd h.1 (by simp)).symm

/-- At the end of a line. -/
theorem linesFrom_end {line rest : List Byte} (hrest : rest.headD 0 = 0 ∨ rest.headD 0 = ch '\n') :
    linesFrom line rest = (if line = [] ∧ rest.headD 0 = 0 then [] else [line]) ++
      if rest.headD 0 = ch '\n' then splitLines rest.tail else [] := by
  have hne : (0 : Byte) ≠ ch '\n' := by decide
  unfold linesFrom
  cases rest with
  | nil =>
    rw [List.headD_nil, if_neg hne, List.append_nil, splitLine]
  | cons c rest =>
    rw [List.headD_cons, List.tail_cons, splitLine]
    rcases hrest with hzero | hnl
    · rw [List.headD_cons] at hzero
      rw [hzero, if_pos rfl, if_neg hne, List.append_nil]
    · rw [List.headD_cons] at hnl
      have hline : ¬(line = [] ∧ ch '\n' = 0) := fun h => hne h.2.symm
      rw [hnl, if_neg hne.symm, if_pos rfl, if_pos rfl, if_neg hline, if_neg hline]
      rfl

theorem cut_ne_nil {line s : List Byte} (h : line ≠ [] ∨ s ≠ []) (hnl : ch '\n' ∉ s) :
    (cut line s).2 ≠ [] := by
  induction s generalizing line with
  | nil => exact h.resolve_right (not_not.mpr rfl)
  | cons c s ih =>
    obtain ⟨hc, hnl⟩ := List.ne_and_not_mem_of_not_mem_cons hnl
    rw [cut, if_neg (Ne.symm hc)]
    split
    · exact ih (.inl (by simp)) hnl
    · exact ih (.inl (by simp)) hnl

/-- The pieces of a line. -/
theorem splitLine_cut {line s : List Byte} (hs : (0 : Byte) ∉ s) (hnl : ch '\n' ∉ s)
    (hne : line ≠ [] ∨ s ≠ []) : splitLine line s = (cut line s).1 ++ [(cut line s).2] := by
  have hcut := cut_ne_nil hne hnl
  have hline : linesFrom line s = splitLine line s := by
    refine if_neg fun h => ?_
    cases s with
    | nil => exact hne.elim (fun hl => hl h.1) (fun hs => hs rfl)
    | cons c s => exact (List.ne_and_not_mem_of_not_mem_cons hs).1 h.2.symm
  have happend := @linesFrom_append line s [] hs
  have hend := @linesFrom_end (cut line s).2 [] (.inl rfl)
  rw [if_neg fun h => hcut h.1] at hend
  rw [List.append_nil, hline, hend] at happend
  exact happend

/-- The first piece of a line starts with what is read already. -/
theorem splitLine_head {line s : List Byte} (hs : (0 : Byte) ∉ s) (hnl : ch '\n' ∉ s) :
    ∃ x pieces, splitLine line s = (line ++ x) :: pieces ∧ x <+: s := by
  induction s generalizing line with
  | nil => exact ⟨[], [], by rw [splitLine, List.append_nil], List.nil_prefix⟩
  | cons c s ih =>
    obtain ⟨hc, hs⟩ := List.ne_and_not_mem_of_not_mem_cons hs
    obtain ⟨hcn, hnl⟩ := List.ne_and_not_mem_of_not_mem_cons hnl
    rw [splitLine, if_neg (Ne.symm hc), if_neg (Ne.symm hcn)]
    split
    · obtain ⟨x, pieces, hsplit, hx⟩ := @ih (line ++ [c]) hs hnl
      refine ⟨c :: x, pieces, ?_, List.cons_prefix_cons.mpr ⟨rfl, hx⟩⟩
      rw [hsplit, List.append_assoc, List.singleton_append]
    · exact ⟨[], _, by rw [List.append_nil], List.nil_prefix⟩

section LineEnd

variable {src : List Byte}

theorem LineEnd.splitLines_src (e : LineEnd src) :
    splitLines src = e.linesBefore ++
      ((if e.line = [] ∧ e.after.headD 0 = 0 then [] else [e.line]) ++ e.linesBehind) := by
  have h := @linesFrom_append [] e.before e.after e.inside
  rw [e.split, ← splitLines_eq, linesFrom_end e.ends] at h
  exact h

theorem LineEnd.splitLines_comment (e : LineEnd src) {c : List Byte} (hc : IsComment c) :
    splitLines (e.comment c)
      = e.linesBefore ++ (splitLine e.line (ch ';' :: c) ++ e.linesBehind) := by
  have hzero : (0 : Byte) ∉ ch ';' :: c := List.not_mem_cons_of_ne_of_not_mem (by decide) hc.1
  have hnl : ch '\n' ∉ ch ';' :: c := List.not_mem_cons_of_ne_of_not_mem (by decide) hc.2
  have hne : e.line ≠ [] ∨ ch ';' :: c ≠ [] := .inr (List.cons_ne_nil _ _)
  rw [comment, List.append_assoc, splitLines_eq, linesFrom_append e.inside,
    linesFrom_append hzero, linesFrom_end e.ends, if_neg fun h => cut_ne_nil hne hnl h.1,
    splitLine_cut hzero hnl hne, List.append_assoc]
  rfl

end LineEnd

/-! ## 2. Text in front of a comment

The tokenizer stops in front of a comment, and in front of the end of the line, in the same
way: what is read does not depend on which of them is there, and on what is behind it. -/

section Tail

variable {t : List Byte}

theorem skipWs_blank (ht : isBlank t) : skipWs t = t := by
  cases t with
  | nil => rfl
  | cons c t =>
    simp only [isBlank, Bool.or_eq_true, decide_eq_true_eq] at ht
    refine if_neg ?_
    rcases ht with rfl | rfl <;> decide

theorem skipWs_tail (p : List Byte) (ht : isBlank t) : skipWs (p ++ t) = skipWs p ++ t := by
  induction p with
  | nil => exact skipWs_blank ht
  | cons c p ih =>
    rw [List.cons_append, skipWs, skipWs]
    split
    · exact ih
    · rfl

theorem takeTok_tail (n : Nat) (p : List Byte) (ht : isBlank t) :
    takeTok n (p ++ t) = ((takeTok n p).1, (takeTok n p).2 ++ t) := by
  induction n generalizing p with
  | zero => rfl
  | succ n ih =>
    cases p with
    | nil =>
      cases t with
      | nil => rfl
      | cons c t =>
        have hdelim : isDelim c = true := by
          simp only [isBlank, Bool.or_eq_true, decide_eq_true_eq] at ht
          rcases ht with rfl | rfl <;> decide
        exact if_pos hdelim
    | cons c p =>
      rw [List.cons_append, takeTok, takeTok]
      split
      · rfl
      · rw [ih]

theorem readTok_tail (n : Nat) (p : List Byte) (ht : isBlank t) :
    readTok n (p ++ t) = ((readTok n p).1, (readTok n p).2 ++ t) := by
  rw [readTok, skipWs_tail p ht, takeTok_tail _ _ ht]
  rfl

theorem operand_tail (p : List Byte) (ht : isBlank t) : operand (p ++ t) = operand p := by
  rw [operand, readTok_tail _ p ht, operand]

theorem expectComma_tail (p : List Byte) (line : Nat) (ht : isBlank t) :
    expectComma (p ++ t) line = (expectComma p line).map (· ++ t) := by
  unfold expectComma
  rw [skipWs_tail p ht]
  cases skipWs p with
  | nil =>
    cases t with
    | nil => rfl
    | cons c t =>
      have hcomma : c ≠ ch ',' := by
        simp only [isBlank, Bool.or_eq_true, decide_eq_true_eq] at ht
        rcases ht with rfl | rfl <;> decide
      exact if_neg hcomma
  | cons c p =>
    simp only [List.cons_append]
    split <;> rfl

theorem isBlank_tail (p : List Byte) (ht : isBlank t) : isBlank (p ++ t) = isBlank p := by
  cases p with
  | nil => exact ht
  | cons c p => rfl

/-- A dot, or a colon, is in front of the comment. -/
theorem head?_tail {p : List Byte} {c : Byte} (ht : isBlank t) (hc : isBlank [c] = false) :
    (p ++ t).head? = some c ↔ p.head? = some c := by
  cases p with
  | cons c p => rfl
  | nil =>
    cases t with
    | nil => rfl
    | cons d t =>
      refine ⟨fun h => ?_, nofun⟩
      cases h
      rw [show isBlank (c :: t) = isBlank [c] from rfl, hc] at ht
      cases ht

theorem operands₂_tail (line : Nat) (p : List Byte) (k : CStr → CStr → List Emit)
    (ht : isBlank t) : operands₂ line (p ++ t) k = operands₂ line p k := by
  simp only [operands₂, readTok_tail _ p ht, expectComma_tail _ _ ht]
  cases expectComma (readTok asmLabelLen p).2 line with
  | error w => rfl
  | ok q => exact congrArg _ (operand_tail q ht)

theorem sizedLoadOperands_tail (line : Nat) (p : List Byte) (k : CStr → CStr → CStr → List Emit)
    (ht : isBlank t) : sizedLoadOperands line (p ++ t) k = sizedLoadOperands line p k := by
  simp only [sizedLoadOperands, readTok_tail _ p ht, expectComma_tail _ _ ht]
  cases expectComma (readTok asmLabelLen p).2 line with
  | error w => rfl
  | ok q =>
    simp only [Except.map, readTok_tail _ q ht, operand_tail _ ht]

theorem parseForm_tail {strtod : Strtod} {equs : List AsmEqu} {line : Nat} {form : Form}
    {p : List Byte} (ht : isBlank t) :
    parseForm strtod equs line form (p ++ t) = parseForm strtod equs line form p := by
  cases form <;> simp only [parseForm, operands₂_tail _ _ _ ht, sizedLoadOperands_tail _ _ _ ht,
    operand_tail _ ht]

theorem parseDirective_tail {equs : List AsmEqu} {line : Nat} {p : List Byte} (ht : isBlank t) :
    parseDirective equs line (p ++ t) = parseDirective equs line p := by
  simp only [parseDirective, readTok_tail _ _ ht, expectComma_tail _ _ ht]
  cases expectComma (readTok asmLabelLen (readTok asmLabelLen p).2).2 line with
  | error w => rfl
  | ok q => simp only [Except.map, operand_tail q ht]

end Tail

/-! ## 3. String literals

A literal that is read to its end does not depend on what is behind it either. -/

theorem stringChars_append (line n : Nat) (p q : List Byte) :
    stringChars line n p ≠ .error .overrun →
      stringChars line n (p ++ q) = stringChars line n p := by
  match p with
  | [] =>
    intro h
    exact absurd (by unfold stringChars; rfl) h
  | c :: p =>
    rw [List.cons_append]
    by_cases hend : c = 0 ∨ c = ch '"'
    · unfold stringChars
      simp only [hend, if_true, implies_true]
    by_cases hlong : stringMax - 1 ≤ n
    · unfold stringChars
      simp only [hend, hlong, if_true, if_false, implies_true]
    by_cases hesc : c = ch '\\'
    · subst hesc
      match p with
      | [] =>
        unfold stringChars
        simp only [hend, hlong, if_true, if_false]
        exact fun h => absurd rfl h
      | e :: p =>
        rw [List.cons_append, stringChars_escape hlong, stringChars_escape hlong]
        intro h
        rw [stringChars_append line (n + 1) p q fun h' => h (by rw [h']; rfl)]
    · rw [stringChars_char hend hlong hesc, stringChars_char hend hlong hesc]
      intro h
      rw [stringChars_append line (n + 1) p q fun h' => h (by rw [h']; rfl)]
termination_by p.length

theorem parseString_append {line : Nat} {p q : List Byte} (hp : p = [] → isBlank q)
    (h : parseString line p ≠ .error .overrun) :
    parseString line (p ++ q) = parseString line p := by
  cases p with
  | nil =>
    have hq := hp rfl
    cases q with
    | nil => rfl
    | cons c q =>
      have hquote : c ≠ ch '"' := by
        simp only [isBlank, Bool.or_eq_true, decide_eq_true_eq] at hq
        rcases hq with rfl | rfl <;> decide
      exact if_neg hquote
  | cons c p =>
    simp only [List.cons_append, parseString] at h ⊢
    split
    · next hc =>
      rw [if_pos hc] at h
      exact stringChars_append line 0 p q h
    · rfl

/-- The literal ends on the line, whatever number the line has. -/
theorem parseString_ends {line : List Byte} {mnem : CStr} {p : List Byte}
    (hopen : endsInString line = false) (htext : instrText line = some (mnem, p))
    (hmnem : mnem = lit "ds" ∨ mnem = lit "dsz") (n : Nat) :
    parseString n (skipWs p) ≠ .error .overrun := by
  intro hn
  have hlike := @parseString_like n 0 (skipWs p)
  rw [hn] at hlike
  have hzero : parseString 0 (skipWs p) = .error .overrun := by
    cases h0 : parseString 0 (skipWs p) with
    | ok bs =>
      rw [h0] at hlike
      exact hlike.elim
    | error w =>
      rw [h0] at hlike
      cases w with
      | overrun => rfl
      | _ => cases hlike
  simp [endsInString, htext, hmnem, hzero] at hopen

/-! ## 4. A line in front of a comment -/

section Line

variable {p t t' : List Byte}

theorem instrText_tail (p : List Byte) (ht : isBlank t) :
    instrText (p ++ t) = (instrText p).map fun x => (x.1, x.2 ++ t) := by
  have hdot : isBlank [ch '.'] = false := by decide
  have hcolon : isBlank [ch ':'] = false := by decide
  simp only [instrText, skipWs_tail _ ht, isBlank_tail _ ht, readTok_tail _ _ ht,
    head?_tail ht hdot, head?_tail ht hcolon]
  split
  · rfl
  · split
    · rfl
    · split
      · next h =>
        have hne : skipWs (readTok asmLabelLen (skipWs p)).2 ≠ [] := by
          intro hnil
          rw [hnil] at h
          cases h
        simp only [List.tail_append_of_ne_nil hne, skipWs_tail _ ht, isBlank_tail _ ht,
          readTok_tail _ _ ht]
        split <;> rfl
      · rfl

variable {strtod : Strtod} {equs : List AsmEqu} {cursec : DvmSection} {n : Nat}

theorem parseInstr_tails {mnem : CStr} (ht : isBlank t) (ht' : isBlank t')
    (hstr : cursec ≠ dvmSecCode → mnem = lit "ds" ∨ mnem = lit "dsz" →
      parseString n (skipWs p ++ t) = parseString n (skipWs p ++ t')) :
    parseInstr strtod equs cursec n mnem (p ++ t)
      = parseInstr strtod equs cursec n mnem (p ++ t') := by
  unfold parseInstr
  split
  · next hsec =>
    simp only [parseData, operand_tail _ ht, operand_tail _ ht', skipWs_tail _ ht,
      skipWs_tail _ ht']
    by_cases hmnem : mnem = lit "ds" ∨ mnem = lit "dsz"
    · rw [hstr hsec hmnem]
    · simp only [hmnem, if_false]
  · unfold parseCode
    cases codeForms.lookup mnem with
    | none => rfl
    | some form => simp only [parseForm_tail ht, parseForm_tail ht']

/-- A line is read in the same way in front of two comments, if its string literal is. -/
theorem parseLine_tails (ht : isBlank t) (ht' : isBlank t')
    (hstr : ∀ mnem q, instrText p = some (mnem, q) → cursec ≠ dvmSecCode →
      mnem = lit "ds" ∨ mnem = lit "dsz" →
        parseString n (skipWs q ++ t) = parseString n (skipWs q ++ t')) :
    parseLine strtod equs cursec n (p ++ t) = parseLine strtod equs cursec n (p ++ t') := by
  have hdot : isBlank [ch '.'] = false := by decide
  have hcolon : isBlank [ch ':'] = false := by decide
  have hinstr : ∀ mnem q, instrText p = some (mnem, q) →
      parseInstr strtod equs cursec n mnem (q ++ t)
        = parseInstr strtod equs cursec n mnem (q ++ t') :=
    fun mnem q h => parseInstr_tails ht ht' (hstr mnem q h)
  simp only [instrText] at hinstr
  simp only [parseLine, skipWs_tail _ ht, skipWs_tail _ ht', isBlank_tail _ ht, isBlank_tail _ ht',
    readTok_tail _ _ ht, readTok_tail _ _ ht', head?_tail ht hdot, head?_tail ht' hdot,
    head?_tail ht hcolon, head?_tail ht' hcolon, operand_tail _ ht, operand_tail _ ht',
    parseDirective_tail ht, parseDirective_tail ht']
  split
  · rfl
  next hblank =>
  split
  · rfl
  next hd =>
  rw [if_neg (not_or.mpr ⟨hblank, hd⟩)] at hinstr
  split
  · rfl
  next hglobal =>
  split
  · rfl
  next hextern =>
  rw [if_neg (not_or.mpr ⟨hglobal, hextern⟩)] at hinstr
  split
  · next hc =>
    have hne : skipWs (readTok asmLabelLen (skipWs p)).2 ≠ [] := by
      intro hnil
      rw [hnil] at hc
      cases hc
    rw [if_pos hc] at hinstr
    simp only [List.tail_append_of_ne_nil hne, skipWs_tail _ ht, skipWs_tail _ ht',
      isBlank_tail _ ht, isBlank_tail _ ht', readTok_tail _ _ ht, readTok_tail _ _ ht']
    split
    · rfl
    · next hrest =>
      rw [if_neg hrest] at hinstr
      exact congrArg _ (hinstr _ _ rfl)
  · next hc =>
    rw [if_neg hc] at hinstr
    exact hinstr _ _ rfl

end Line

/-! ## 5. Lines with and without a comment -/

section Lines

variable {env : AsmEnv} {st st' : AsmState}

/-- Two lines that are read as the same effects. -/
theorem asmLine_like (h : st.Like st') {line line' : List Byte}
    (hparse : ∀ n, parseLine env.strtod st.ctx.equs st.cursec n
        (line ++ 0 :: st.lineBuf.drop (line.length + 1))
      = parseLine env.strtod st.ctx.equs st.cursec n
        (line' ++ 0 :: st'.lineBuf.drop (line'.length + 1))) :
    SideBySide AsmStop.Like AsmState.Like (asmLine env st line) (asmLine env st' line') := by
  simp only [asmLine]
  refine doStmts_like ?_ ?_
  · exact ⟨h.ctx, h.cursec⟩
  · rw [h.ctx.equs, h.cursec, ← hparse]
    exact parseLine_like

theorem foldl_after_lineBuf (ss : List Stmt) (rd : Reader) :
    (ss.foldl Reader.after rd).lineBuf = rd.lineBuf := by
  induction ss generalizing rd with
  | nil => rfl
  | cons s ss ih =>
    rw [List.foldl_cons, ih]
    cases s <;> rfl

theorem asmLine_lineBuf {line : List Byte} (h : asmLine env st line = .ok st') :
    st'.lineBuf = line ++ 0 :: st.lineBuf.drop (line.length + 1) :=
  (congrArg Reader.lineBuf (asmLine_ok h).2).trans (foldl_after_lineBuf _ _)

/-- A line that ends outside a string literal, with and without a comment. -/
theorem asmLine_comment {line x : List Byte} (hline : endsInString line = false)
    (hx : isBlank x) :
    SideBySide AsmStop.Like AsmState.Like (asmLine env st line) (asmLine env st (line ++ x)) := by
  refine asmLine_like ⟨.refl _, rfl⟩ fun n => ?_
  have hnul : ∀ r, isBlank (0 :: r : List Byte) := fun _ => rfl
  have hxnul : ∀ r, isBlank (x ++ 0 :: r) := fun r => (isBlank_tail x (hnul r)).trans hx
  rw [List.append_assoc]
  refine parseLine_tails (hnul _) (hxnul _) fun mnem q htext _ hmnem => ?_
  have hends := parseString_ends hline htext hmnem n
  rw [parseString_append (fun _ => hnul _) hends, parseString_append (fun _ => hxnul _) hends]

/-- A blank line, and a line that is a comment. -/
theorem asmLine_blank {line : List Byte} (h : isBlank (skipWs line)) :
    ∃ st', asmLine env st line = .ok st' ∧ st.Like st' := by
  have hnul : ∀ r, isBlank (0 :: r : List Byte) := fun _ => rfl
  have hparse : ∀ n r, parseLine env.strtod st.ctx.equs st.cursec n (line ++ 0 :: r) = [] := by
    intro n r
    rw [parseLine, skipWs_tail _ (hnul r)]
    exact if_pos ((isBlank_tail _ (hnul r)).trans h)
  simp only [asmLine, hparse]
  exact ⟨_, rfl, .refl _, rfl⟩

theorem foldlM_asmLine_blank {lines : List (List Byte)} (h : ∀ l ∈ lines, isBlank (skipWs l)) :
    ∃ st', lines.foldlM (asmLine env) st = .ok st' ∧ st.Like st' := by
  induction lines generalizing st with
  | nil => exact ⟨st, rfl, .refl _, rfl⟩
  | cons line lines ih =>
    obtain ⟨hline, hlines⟩ := List.forall_mem_cons.mp h
    obtain ⟨st₁, h₁, hlike₁⟩ := @asmLine_blank env st line hline
    obtain ⟨st₂, h₂, hlike₂⟩ := @ih st₁ hlines
    exact ⟨st₂, foldlM_cons_ok_iff.mpr ⟨st₁, h₁, h₂⟩, hlike₁.trans hlike₂⟩

/-- A later line, whose string literal ends in the part of the line buffer that is known. -/
theorem asmLine_behind (h : st.Like st') {known line : List Byte} (hk : known <+: st.lineBuf)
    (hk' : known <+: st'.lineBuf)
    (hown : st.cursec ≠ dvmSecCode →
      endsInString (line ++ 0 :: known.drop (line.length + 1)) = false) :
    SideBySide AsmStop.Like AsmState.Like (asmLine env st line) (asmLine env st' line) := by
  obtain ⟨r, hr⟩ := hk
  obtain ⟨r', hr'⟩ := hk'
  refine asmLine_like h fun n => ?_
  rw [← hr, ← hr', List.drop_append, List.drop_append]
  have hnul : ∀ r, isBlank (0 :: r : List Byte) := fun _ => rfl
  refine parseLine_tails (hnul _) (hnul _) fun mnem q htext hsec hmnem => ?_
  have hknown : instrText (line ++ 0 :: known.drop (line.length + 1))
      = some (mnem, q ++ 0 :: known.drop (line.length + 1)) := by
    rw [instrText_tail _ (hnul _), htext]
    rfl
  have hends := parseString_ends (hown hsec) hknown hmnem n
  rw [skipWs_tail _ (hnul _)] at hends
  have happend : ∀ r, parseString n (skipWs q ++ 0 :: (known.drop (line.length + 1) ++ r))
      = parseString n (skipWs q ++ 0 :: known.drop (line.length + 1)) := by
    intro r
    rw [← parseString_append (fun hnil => absurd hnil (by simp)) hends, List.append_assoc]
    rfl
  rw [happend, happend]

end Lines

/-- No line, read in a data section, has a string literal that goes on behind what the lines
have put into the line buffer, which `known` was in before. -/
def OwnText (env : AsmEnv) : AsmState → List Byte → List (List Byte) → Prop
  | _, _, [] => True
  | st, known, line :: lines =>
    let buf := line ++ 0 :: known.drop (line.length + 1)
    (st.cursec ≠ dvmSecCode → endsInString buf = false) ∧
      ∀ st', asmLine env st line = .ok st' → OwnText env st' buf lines

theorem foldlM_asmLine_behind {env : AsmEnv} {lines : List (List Byte)} {st st' : AsmState}
    {known : List Byte} (h : st.Like st') (hk : known <+: st.lineBuf) (hk' : known <+: st'.lineBuf)
    (hown : OwnText env st known lines) :
    SideBySide AsmStop.Like AsmState.Like (lines.foldlM (asmLine env) st)
      (lines.foldlM (asmLine env) st') := by
  induction lines generalizing st st' known with
  | nil => exact h
  | cons line lines ih =>
    rw [List.foldlM_cons, List.foldlM_cons]
    have hbuf : ∀ {s t : AsmState}, known <+: s.lineBuf → asmLine env s line = .ok t →
        line ++ 0 :: known.drop (line.length + 1) <+: t.lineBuf := by
      intro s t hs ht
      rw [asmLine_lineBuf ht]
      exact (List.prefix_append_right_inj line).mpr
        (List.cons_prefix_cons.mpr ⟨rfl, hs.drop _⟩)
    rcases (asmLine_behind h hk hk' hown.1).cases with ⟨a, b, ha, hb, hab⟩ | ⟨w, w', hw, hw', hlike⟩
    · rw [ha, hb]
      exact ih hab (hbuf hk ha) (hbuf hk' hb) (hown.2 a ha)
    · rw [hw, hw']
      exact hlike

/-! ## 6. Sources with and without a comment -/

/-- The comment is not read where the assembler gets behind its line: the pieces that are cut
off it are comments, or blank, and the literals behind it are on their own lines. -/
def LineEnd.Unread {src : List Byte} (env : AsmEnv) (e : LineEnd src) (c : List Byte) : Prop :=
  ∀ st, (e.linesBefore ++ [e.line]).foldlM (asmLine env) (.init env) = .ok st →
    (∀ piece ∈ e.overflow c, isBlank (skipWs piece)) ∧ OwnText env st (e.kept c) e.linesBehind

section Comment

variable {env : AsmEnv} {src : List Byte} {c : List Byte}

/-- The line with the comment: a first piece in front of it, and what is cut off. -/
theorem LineEnd.splitLine_comment (e : LineEnd src) (hc : IsComment c) :
    ∃ x, isBlank x ∧ splitLine e.line (ch ';' :: c) = (e.line ++ x) :: e.overflow c := by
  have hzero : (0 : Byte) ∉ ch ';' :: c := List.not_mem_cons_of_ne_of_not_mem (by decide) hc.1
  have hnl : ch '\n' ∉ ch ';' :: c := List.not_mem_cons_of_ne_of_not_mem (by decide) hc.2
  obtain ⟨x, pieces, hsplit, hx⟩ := @splitLine_head e.line _ hzero hnl
  refine ⟨x, ?_, ?_⟩
  · cases x with
    | nil => rfl
    | cons d x =>
      rw [(List.cons_prefix_cons.mp hx).1]
      rfl
  · rw [overflow, hsplit]
    rfl

/-- The line with the comment and the lines behind it, where the lines before have led to `st`. -/
theorem LineEnd.foldlM_line_like (e : LineEnd src) (hc : IsComment c) {st : AsmState}
    (hunread : ∀ st', asmLine env st e.line = .ok st' →
      (∀ piece ∈ e.overflow c, isBlank (skipWs piece)) ∧
        OwnText env st' (e.kept c) e.linesBehind) :
    SideBySide AsmStop.Like AsmState.Like
      ((e.line :: e.linesBehind).foldlM (asmLine env) st)
      ((splitLine e.line (ch ';' :: c) ++ e.linesBehind).foldlM (asmLine env) st) := by
  obtain ⟨x, hx, hsplit⟩ := e.splitLine_comment hc
  rw [hsplit, List.cons_append, List.foldlM_cons, List.foldlM_cons]
  have houtside : endsInString e.line = false := e.outside
  rcases (@asmLine_comment env st _ _ houtside hx).cases with
    ⟨a, b, ha, hb, hab⟩ | ⟨w, w', hw, hw', hlike⟩
  · obtain ⟨hblank, hown⟩ := hunread a ha
    obtain ⟨b', hb', hbb'⟩ := @foldlM_asmLine_blank env b _ hblank
    have hkept : e.kept c <+: a.lineBuf ∧ e.kept c <+: b'.lineBuf := by
      unfold kept
      split
      · next hnil =>
        rw [hnil] at hb'
        cases hb'
        rw [asmLine_lineBuf ha, asmLine_lineBuf hb, List.append_assoc]
        exact ⟨List.prefix_append _ _, List.prefix_append _ _⟩
      · exact ⟨List.nil_prefix, List.nil_prefix⟩
    have hbehind := foldlM_asmLine_behind (hab.trans hbb') hkept.1 hkept.2 hown
    rw [ha, hb, ok_bind, ok_bind, List.foldlM_append, hb', ok_bind]
    exact hbehind
  · rw [hw, hw']
    exact hlike

theorem asmCompile_like {src' : List Byte}
    (h : SideBySide AsmStop.Like AsmState.Like ((splitLines src).foldlM (asmLine env) (.init env))
      ((splitLines src').foldlM (asmLine env) (.init env))) :
    asmOutcome (asmCompile env src') = asmOutcome (asmCompile env src) := by
  refine asmOutcome_like ?_
  unfold asmCompile
  rcases h.cases with ⟨a, b, ha, hb, hab⟩ | ⟨w, w', hw, hw', hlike⟩
  · rw [ha, hb]
    exact patchesResolve_like hab.ctx
  · rw [hw, hw']
    exact hlike

/-- A comment does not matter if it is not read. -/
theorem comment_neutral (env : AsmEnv) (e : LineEnd src) (hc : IsComment c)
    (h : e.Unread env c) :
    asmOutcome (asmCompile env (e.comment c)) = asmOutcome (asmCompile env src) := by
  refine asmCompile_like ?_
  rw [e.splitLines_src, e.splitLines_comment hc, List.foldlM_append, List.foldlM_append]
  cases hbefore : e.linesBefore.foldlM (asmLine env) (.init env) with
  | error w => exact rfl
  | ok st =>
    rw [ok_bind, ok_bind]
    have hline : SideBySide AsmStop.Like AsmState.Like
        ((e.line :: e.linesBehind).foldlM (asmLine env) st)
        ((splitLine e.line (ch ';' :: c) ++ e.linesBehind).foldlM (asmLine env) st) := by
      refine e.foldlM_line_like hc fun st' hst' => h st' ?_
      exact foldlM_append_ok_iff.mpr ⟨st, hbefore, foldlM_cons_ok_iff.mpr ⟨st', hst', rfl⟩⟩
    split
    · next hend =>
      -- There is no line in the source, and nothing behind it.
      obtain ⟨hnil, hzero⟩ := hend
      have hbehind : e.linesBehind = [] := by
        rw [LineEnd.linesBehind, hzero]
        exact if_neg (by decide)
      obtain ⟨st₁, h₁, hlike₁⟩ := @asmLine_blank env st [] rfl
      rw [hbehind, hnil, List.foldlM_cons, h₁, ok_bind] at hline
      rw [hbehind, hnil]
      rcases hline.cases with ⟨a, b, ha, hb, hab⟩ | ⟨w, w', hw, hw', hlike⟩
      · cases ha
        rw [hb]
        exact hlike₁.trans hab
      · cases hw
    · exact hline

end Comment

/-- The end of the first line of two. -/
def resultEnd : LineEnd (lit "mov ax, 1\nhalt") where
  before := lit "mov ax, 1"
  after := lit "\nhalt"
  split := by decide
  inside := by decide
  ends := .inr (by decide)
  outside := by decide

theorem comment_neutral_result :
    asmOutcome (asmCompile zeroEnv (lit "mov ax, 1; the result\nhalt"))
      = asmOutcome (asmCompile zeroEnv (lit "mov ax, 1\nhalt")) :=
  comment_neutral zeroEnv resultEnd (c := lit " the result") (by decide) fun st _ =>
    ⟨by decide, fun _ => by decide, fun _ _ => trivial⟩

/-- The end of a source of one line. -/
def haltEnd : LineEnd (lit "halt") where
  before := lit "halt"
  after := []
  split := rfl
  inside := by decide
  ends := .inl rfl
  outside := by decide

/-- With the `;` it fills the line behind `halt`; what follows is read as a line. -/
def longComment : List Byte := List.replicate 505 (ch ' ') ++ lit "halt"

/-- A second `halt` out of a comment. -/
theorem longComment_read : IsComment longComment ∧
    (asmOutcome (asmCompile zeroEnv (lit "halt"))).toOption.map AsmOutput.text
      = some [Op.halt.code] ∧
    (asmOutcome (asmCompile zeroEnv (haltEnd.comment longComment))).toOption.map AsmOutput.text
      = some [Op.halt.code, Op.halt.code] := by
  decide +kernel

/-- The escape at the end of the last line skips its NUL: the literal goes on in the comment of
the line before, up to its quote. -/
example :
    (asmOutcome (asmCompile zeroEnv (lit ".data\ndb 1\nds \"\\"))).toOption.map AsmOutput.data
      = some [1, 0] ∧
    (asmOutcome (asmCompile zeroEnv (lit ".data\ndb 1;xy\"\nds \"\\"))).toOption.map
      AsmOutput.data = some [1, 0, ch 'y'] := by
  decide +kernel

/-! ## 7. The room for a comment -/

/-- The characters of a comment for which there is room; a line that is full already gets its
comment on a line of its own. -/
def LineEnd.room {src : List Byte} (e : LineEnd src) : Nat :=
  if e.line.length < lineMax then lineMax - (e.line.length + 1) else lineMax - 1

/-- What fits is not cut. -/
theorem splitLine_fits {line s : List Byte} (hs : (0 : Byte) ∉ s) (hnl : ch '\n' ∉ s)
    (hlen : line.length + s.length ≤ lineMax) : splitLine line s = [line ++ s] := by
  induction s generalizing line with
  | nil => rw [splitLine, List.append_nil]
  | cons c s ih =>
    obtain ⟨hc, hs⟩ := List.ne_and_not_mem_of_not_mem_cons hs
    obtain ⟨hcn, hnl⟩ := List.ne_and_not_mem_of_not_mem_cons hnl
    rw [List.length_cons] at hlen
    have hroom : line.length < lineMax := by omega
    rw [splitLine, if_neg (Ne.symm hc), if_neg (Ne.symm hcn), if_pos hroom,
      ih hs hnl (by rw [List.length_append, List.length_singleton]; omega), List.append_assoc]
    rfl

/-- Of a comment that there is room for nothing is read. -/
theorem LineEnd.overflow_blank {src : List Byte} (e : LineEnd src) {c : List Byte}
    (hc : IsComment c) (hlen : c.length ≤ e.room) :
    ∀ piece ∈ e.overflow c, isBlank (skipWs piece) := by
  unfold room at hlen
  unfold overflow
  have hsemi : splitLine e.line (ch ';' :: c)
      = if e.line.length < lineMax then splitLine (e.line ++ [ch ';']) c
        else e.line :: splitLine [ch ';'] c := by
    rw [splitLine, if_neg (by decide), if_neg (by decide)]
  rw [hsemi]
  split at hlen
  · next hroom =>
    have hfits : (e.line ++ [ch ';']).length + c.length ≤ lineMax := by
      rw [List.length_append, List.length_singleton]
      omega
    rw [if_pos hroom, splitLine_fits hc.1 hc.2 hfits]
    exact fun piece hp => absurd hp List.not_mem_nil
  · next hroom =>
    have hfits : [ch ';'].length + c.length ≤ lineMax := by
      have hmax : lineMax = 510 := rfl
      rw [List.length_singleton]
      omega
    rw [if_neg hroom, splitLine_fits hc.1 hc.2 hfits]
    intro piece hp
    rw [List.mem_singleton.mp hp]
    rfl

/-- A line that is filled up with blanks. -/
theorem splitLine_fill {line : List Byte} {n : Nat} (hn : line.length + n = lineMax) {d : Byte}
    (hd : d ≠ 0) (hnl : d ≠ ch '\n') :
    splitLine line (List.replicate n (ch ' ') ++ [d])
      = [line ++ List.replicate n (ch ' '), [d]] := by
  induction n generalizing line with
  | zero =>
    have hfull : ¬line.length < lineMax := by omega
    rw [List.replicate_zero, List.nil_append, splitLine, if_neg hd, if_neg hnl, if_neg hfull,
      List.append_nil]
    rfl
  | succ n ih =>
    have hroom : line.length < lineMax := by omega
    rw [List.replicate_succ, List.cons_append, splitLine, if_neg (by decide), if_neg (by decide),
      if_pos hroom, ih (by rw [List.length_append, List.length_singleton]; omega),
      List.append_assoc]
    rfl

/-- A comment of one character more, of which a dot is cut off. -/
theorem LineEnd.splitLine_dot {src : List Byte} (e : LineEnd src) :
    ∃ x blanks, isBlank x ∧ (∀ l ∈ blanks, isBlank (skipWs l)) ∧
      splitLine e.line (ch ';' :: (List.replicate e.room (ch ' ') ++ [ch '.']))
        = (e.line ++ x) :: (blanks ++ [[ch '.']]) := by
  unfold room
  by_cases hroom : e.line.length < lineMax
  · rw [if_pos hroom]
    have hfill : (e.line ++ [ch ';']).length + (lineMax - (e.line.length + 1)) = lineMax := by
      rw [List.length_append, List.length_singleton]
      omega
    refine ⟨ch ';' :: List.replicate (lineMax - (e.line.length + 1)) (ch ' '), [], rfl, ?_, ?_⟩
    · exact fun l hl => absurd hl List.not_mem_nil
    · rw [splitLine, if_neg (by decide), if_neg (by decide), if_pos hroom,
        splitLine_fill hfill (by decide) (by decide), List.append_assoc]
      rfl
  · rw [if_neg hroom]
    refine ⟨[], [ch ';' :: List.replicate (lineMax - 1) (ch ' ')], rfl, ?_, ?_⟩
    · intro l hl
      rw [List.mem_singleton.mp hl]
      rfl
    · rw [splitLine, if_neg (by decide), if_neg (by decide), if_neg hroom,
        splitLine_fill rfl (by decide) (by decide), List.append_nil]
      rfl

/-- A line of a dot stops the assembler. -/
theorem asmLine_dot (env : AsmEnv) (st : AsmState) :
    asmLine env st ([ch '.'])
      = .error (.fail (.unknownDirective (st.lineno + 1) ([ch '.']))) := by
  have hnul : ∀ r, isBlank (0 :: r : List Byte) := fun _ => rfl
  have hparse : ∀ n r, parseLine env.strtod st.ctx.equs st.cursec n ([ch '.'] ++ 0 :: r)
      = [.stop (.fail (.unknownDirective n ([ch '.'])))] := by
    intro n r
    have hnone : instrText [ch '.'] = none := by decide
    have htails := @parseLine_tails [ch '.'] (0 :: r) [] env.strtod st.ctx.equs st.cursec n
      (hnul r) rfl fun mnem q h => by rw [hnone] at h; cases h
    rw [htails]
    rfl
  simp only [asmLine, hparse]
  rfl

/-- Every accepted source is refused with some comment of one character more than there is room
for, at the end of any of its lines. -/
theorem comment_spoils {env : AsmEnv} {src : List Byte} {ctx : AsmCtx}
    (h : asmCompile env src = .ok ctx) (e : LineEnd src) :
    ∃ c, IsComment c ∧ c.length = e.room + 1 ∧
      asmOutcome (asmCompile env (e.comment c)) = .error .fail := by
  obtain ⟨x, blanks, hx, hblanks, hsplit⟩ := e.splitLine_dot
  have hmem : ∀ d ∈ List.replicate e.room (ch ' ') ++ [ch '.'], d = ch ' ' ∨ d = ch '.' := by
    intro d hd
    rcases List.mem_append.mp hd with hd | hd
    · exact .inl (List.eq_of_mem_replicate hd)
    · exact .inr (List.mem_singleton.mp hd)
  have hc : IsComment (List.replicate e.room (ch ' ') ++ [ch '.']) :=
    ⟨fun h => absurd (hmem _ h) (by decide), fun h => absurd (hmem _ h) (by decide)⟩
  refine ⟨_, hc, by rw [List.length_append, List.length_replicate, List.length_singleton], ?_⟩
  -- The source gets behind its line.
  obtain ⟨st, st₁, hbefore, hline⟩ : ∃ st st₁,
      e.linesBefore.foldlM (asmLine env) (.init env) = .ok st ∧
        asmLine env st e.line = .ok st₁ := by
    unfold asmCompile at h
    cases hl : (splitLines src).foldlM (asmLine env) (.init env) with
    | error w => rw [hl] at h; cases h
    | ok st' =>
      rw [e.splitLines_src] at hl
      obtain ⟨st, hbefore, hrest⟩ := foldlM_append_ok_iff.mp hl
      split at hrest
      · next hend =>
        rw [hend.1]
        obtain ⟨st₁, h₁, -⟩ := @asmLine_blank env st [] rfl
        exact ⟨st, st₁, hbefore, h₁⟩
      · obtain ⟨st₁, h₁, -⟩ := foldlM_cons_ok_iff.mp hrest
        exact ⟨st, st₁, hbefore, h₁⟩
  have houtside : endsInString e.line = false := e.outside
  rcases (@asmLine_comment env st _ _ houtside hx).cases with
    ⟨_, b, -, hb, -⟩ | ⟨w, w', hw, -, -⟩
  · obtain ⟨st₂, h₂, -⟩ := @foldlM_asmLine_blank env b _ hblanks
    have hstop : (splitLines (e.comment (List.replicate e.room (ch ' ') ++ [ch '.']))).foldlM
        (asmLine env) (.init env)
          = .error (.fail (.unknownDirective (st₂.lineno + 1) [ch '.'])) := by
      rw [e.splitLines_comment hc, hsplit, List.foldlM_append, hbefore, ok_bind, List.cons_append,
        List.foldlM_cons, hb, ok_bind, List.append_assoc, List.foldlM_append, h₂, ok_bind,
        List.singleton_append, List.foldlM_cons, asmLine_dot]
      rfl
    rw [asmCompile, hstop]
    rfl
  · rw [hline] at hw
    cases hw

end Dvm
