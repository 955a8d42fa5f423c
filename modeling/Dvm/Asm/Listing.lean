/-
# The assembler as one loop over the statements of a source

Reading a line depends on the `.equ` table, the current section, the line number and the line
buffer, and on nothing else that the assembler keeps.  So the lines of a source can be read
first (`sourceLines`) and carried out then: an accepted source is a `foldlM` over the
statements of its lines (`asmCompile_sourceLines`).  A line holds at most one instruction, which is
what `codeLines` lists.
-/
import Dvm.Asm.Effects
import Dvm.Asm.Frame

namespace Dvm

open Loops

/-! ## 1. Reading ahead -/

/-- The locals of `asm_compile` that reading depends on. -/
structure Reader where
  equs : List AsmEqu
  cursec : DvmSection
  lineno : Nat
  lineBuf : List Byte

def AsmState.reader (st : AsmState) : Reader := ⟨st.ctx.equs, st.cursec, st.lineno, st.lineBuf⟩

/-- Behind a statement. -/
def Reader.after (rd : Reader) (s : Stmt) : Reader :=
  match s with
  | .sect sec => { rd with cursec := sec }
  | .equ name v => { rd with equs := rd.equs ++ [⟨name, v⟩] }
  | _ => rd

/-- With a line in the line buffer. -/
def Reader.enter (rd : Reader) (line : List Byte) : Reader :=
  { rd with
    lineno := rd.lineno + 1
    lineBuf := line ++ 0 :: rd.lineBuf.drop (line.length + 1) }

/-- The statements of the line in the buffer. -/
def Reader.stmts (env : AsmEnv) (rd : Reader) : List Stmt :=
  parseLine env.strtod rd.equs rd.cursec rd.lineno rd.lineBuf

/-- A statement, its line and the section it stands in. -/
structure SourceStmt where
  line : Nat
  sec : DvmSection
  stmt : Stmt

def Reader.place (rd : Reader) : List Stmt → List SourceStmt
  | [] => []
  | s :: ss => ⟨rd.lineno, rd.cursec, s⟩ :: (rd.after s).place ss

def readLines (env : AsmEnv) (rd : Reader) : List (List Byte) → List (List SourceStmt)
  | [] => []
  | line :: lines =>
    let rd := rd.enter line
    rd.place (rd.stmts env) :: readLines env ((rd.stmts env).foldl Reader.after rd) lines

/-- The statements of a source, line by line. -/
def sourceLines (env : AsmEnv) (src : List Byte) : List (List SourceStmt) :=
  readLines env (AsmState.init env).reader (splitLines src)

/-- The instruction a statement is, its mnemonic and what it emits. -/
def SourceStmt.instr (x : SourceStmt) : Option (CStr × List Emit) :=
  match x.stmt with
  | .code mnem es => some (mnem, es)
  | _ => none

/-- The code lines of a source: the instructions of those lines that hold one. -/
def codeLines (env : AsmEnv) (src : List Byte) : List (CStr × List Emit) :=
  (sourceLines env src).filterMap fun line => line.findSome? SourceStmt.instr

/-! ## 2. Carrying out what was read -/

def doSource (ctx : AsmCtx) (x : SourceStmt) : Except AsmStop AsmCtx :=
  doStmtCtx ⟨ctx, x.sec, x.line, []⟩ x.stmt

theorem doSource_eq (st : AsmState) (s : Stmt) :
    doSource st.ctx ⟨st.lineno, st.cursec, s⟩ = doStmtCtx st s := by
  cases s <;> rfl

theorem doStmt_ok {st st' : AsmState} {s : Stmt} (h : doStmt st s = .ok st') :
    doSource st.ctx ⟨st.lineno, st.cursec, s⟩ = .ok st'.ctx ∧
      st'.reader = st.reader.after s := by
  unfold doStmt at h
  rw [doSource_eq]
  cases hs : doStmtCtx st s with
  | error e => rw [hs] at h; cases h
  | ok ctx =>
    rw [hs] at h
    cases h
    refine ⟨rfl, ?_⟩
    cases doStmtCtx_ok hs with
    | sect => rfl
    | equ => rfl
    | declare hd _ => cases s <;> first | cases hd; done | rfl
    | data _ => rfl
    | code hes => simp only [AsmState.reader, Reader.after, foldlM_doEmit_equs hes]

theorem foldlM_doStmt_ok {ss : List Stmt} {st st' : AsmState} (h : ss.foldlM doStmt st = .ok st') :
    (st.reader.place ss).foldlM doSource st.ctx = .ok st'.ctx ∧
      st'.reader = ss.foldl Reader.after st.reader := by
  induction ss generalizing st with
  | nil =>
    cases h
    exact ⟨rfl, rfl⟩
  | cons s ss ih =>
    obtain ⟨st₁, h₁, h₂⟩ := foldlM_cons_ok_iff.mp h
    obtain ⟨hctx, hrd⟩ := doStmt_ok h₁
    obtain ⟨hctx', hrd'⟩ := ih h₂
    rw [hrd] at hctx' hrd'
    exact ⟨foldlM_cons_ok_iff.mpr ⟨st₁.ctx, hctx, hctx'⟩, hrd'⟩

theorem asmLine_ok {env : AsmEnv} {st st' : AsmState} {line : List Byte}
    (h : asmLine env st line = .ok st') :
    ((st.reader.enter line).place ((st.reader.enter line).stmts env)).foldlM doSource st.ctx
        = .ok st'.ctx ∧
      st'.reader = ((st.reader.enter line).stmts env).foldl Reader.after (st.reader.enter line) :=
  foldlM_doStmt_ok h

theorem foldlM_asmLine_ok {env : AsmEnv} {lines : List (List Byte)} {st st' : AsmState}
    (h : lines.foldlM (asmLine env) st = .ok st') :
    (readLines env st.reader lines).flatten.foldlM doSource st.ctx = .ok st'.ctx := by
  induction lines generalizing st with
  | nil =>
    cases h
    rfl
  | cons line lines ih =>
    obtain ⟨st₁, h₁, h₂⟩ := foldlM_cons_ok_iff.mp h
    obtain ⟨hctx, hrd⟩ := asmLine_ok h₁
    have htail := ih h₂
    rw [hrd] at htail
    rw [readLines, List.flatten_cons]
    exact foldlM_append_ok_iff.mpr ⟨st₁.ctx, hctx, htail⟩

/-- An accepted source: its statements are carried out one after the other, then the patches
are resolved. -/
theorem asmCompile_sourceLines {env : AsmEnv} {src : List Byte} {ctx : AsmCtx}
    (h : asmCompile env src = .ok ctx) :
    ∃ ctx₀, (sourceLines env src).flatten.foldlM doSource {} = .ok ctx₀ ∧
      patchesResolve ctx₀ = .ok ctx := by
  unfold asmCompile at h
  cases hl : (splitLines src).foldlM (asmLine env) (.init env) with
  | error e => rw [hl] at h; cases h
  | ok st =>
    rw [hl] at h
    exact ⟨st.ctx, foldlM_asmLine_ok hl, h⟩

/-! ## 3. What a line can hold -/

/-- A section that a source can select. -/
def IsSec (sec : DvmSection) : Prop := sec = dvmSecCnst ∨ sec = dvmSecData ∨ sec = dvmSecCode

/-- What reading makes sure of: data stands in a data section, and an instruction is one of
those known. -/
def Stmt.ReadIn (sec : DvmSection) (s : Stmt) : Prop :=
  match s with
  | .sect sec' => IsSec sec'
  | .data _ => sec ≠ dvmSecCode
  | .code mnem es => ∃ form, codeForms.lookup mnem = some form ∧
      ∃ strtod equs line p, es = parseForm strtod equs line form p
  | _ => True

/-- Data stands in one of the two data sections. -/
theorem IsSec.data {sec : DvmSection} {bs : List Byte} (h : IsSec sec)
    (hread : (Stmt.data bs).ReadIn sec) : sec = dvmSecCnst ∨ sec = dvmSecData := by
  rcases h with h | h | h
  · exact .inl h
  · exact .inr h
  · exact absurd h hread

theorem parseData_readIn {equs : List AsmEqu} {line : Nat} {mnem : CStr} {p : List Byte}
    {sec : DvmSection} (hsec : sec ≠ dvmSecCode) :
    ∃ s, parseData equs line mnem p = [s] ∧ s.ReadIn sec := by
  unfold parseData
  repeat' split
  all_goals first
    | exact ⟨_, rfl, hsec⟩
    | exact ⟨_, rfl, trivial⟩

theorem parseInstr_readIn {strtod : Strtod} {equs : List AsmEqu} {sec : DvmSection} {line : Nat}
    {mnem : CStr} {p : List Byte} :
    ∃ s, parseInstr strtod equs sec line mnem p = [s] ∧ s.ReadIn sec := by
  unfold parseInstr
  split
  · next hsec => exact parseData_readIn hsec
  · unfold parseCode
    split
    · next form hform => exact ⟨_, rfl, form, hform, strtod, equs, line, p, rfl⟩
    · exact ⟨_, rfl, trivial⟩

theorem parseDirective_readIn {equs : List AsmEqu} {line : Nat} {p : List Byte}
    {sec : DvmSection} : ∃ s, parseDirective equs line p = [s] ∧ s.ReadIn sec := by
  unfold parseDirective
  simp only
  repeat' split
  all_goals first
    | exact ⟨_, rfl, trivial⟩
    | exact ⟨_, rfl, .inr (.inr rfl)⟩
    | exact ⟨_, rfl, .inr (.inl rfl)⟩
    | exact ⟨_, rfl, .inl rfl⟩

/-- A line holds nothing, or one statement, which a label can precede. -/
theorem parseLine_readIn {strtod : Strtod} {equs : List AsmEqu} {sec : DvmSection} {line : Nat}
    {buf : List Byte} :
    parseLine strtod equs sec line buf = [] ∨
      ∃ s, s.ReadIn sec ∧ (parseLine strtod equs sec line buf = [s] ∨
        ∃ tok, parseLine strtod equs sec line buf = [.label tok, s]) := by
  unfold parseLine
  simp only
  split
  · exact .inl rfl
  refine .inr ?_
  split
  · obtain ⟨s, hs, hread⟩ := parseDirective_readIn
    exact ⟨s, hread, .inl hs⟩
  split
  · exact ⟨.globalDir _, trivial, .inl rfl⟩
  split
  · exact ⟨.externDir _, trivial, .inl rfl⟩
  split
  · split
    · exact ⟨.label _, trivial, .inl rfl⟩
    · obtain ⟨s, hs, hread⟩ := parseInstr_readIn
      exact ⟨s, hread, .inr ⟨_, by rw [hs]⟩⟩
  · obtain ⟨s, hs, hread⟩ := parseInstr_readIn
    exact ⟨s, hread, .inl hs⟩

/-- A source line holds nothing, or one statement, which a label can precede. -/
def IsLine (line : List SourceStmt) : Prop :=
  line = [] ∨ ∃ x : SourceStmt, IsSec x.sec ∧ x.stmt.ReadIn x.sec ∧
    (line = [x] ∨ ∃ tok, line = [⟨x.line, x.sec, .label tok⟩, x])

theorem Reader.isLine {env : AsmEnv} {rd : Reader} (h : IsSec rd.cursec) :
    IsLine (rd.place (rd.stmts env)) ∧ IsSec ((rd.stmts env).foldl Reader.after rd).cursec := by
  have hafter : ∀ s, Stmt.ReadIn rd.cursec s → IsSec (rd.after s).cursec := by
    intro s hs
    cases s with
    | sect sec => exact hs
    | _ => exact h
  rcases @parseLine_readIn env.strtod rd.equs rd.cursec rd.lineno rd.lineBuf with
    hp | ⟨s, hs, hp | ⟨tok, hp⟩⟩
  · rw [Reader.stmts, hp]
    exact ⟨.inl rfl, h⟩
  · rw [Reader.stmts, hp]
    exact ⟨.inr ⟨_, h, hs, .inl rfl⟩, hafter s hs⟩
  · rw [Reader.stmts, hp]
    exact ⟨.inr ⟨⟨rd.lineno, rd.cursec, s⟩, h, hs, .inr ⟨tok, rfl⟩⟩, hafter s hs⟩

theorem readLines_isLine {env : AsmEnv} {lines : List (List Byte)} {rd : Reader}
    (h : IsSec rd.cursec) : ∀ line ∈ readLines env rd lines, IsLine line := by
  induction lines generalizing rd with
  | nil => simp [readLines]
  | cons l lines ih =>
    have hl := @Reader.isLine env (rd.enter l) h
    intro line hmem
    rcases List.mem_cons.mp hmem with rfl | hmem
    · exact hl.1
    · exact ih hl.2 line hmem

theorem sourceLines_isLine (env : AsmEnv) (src : List Byte) :
    ∀ line ∈ sourceLines env src, IsLine line :=
  readLines_isLine (.inr (.inr rfl))

theorem IsLine.readIn {line : List SourceStmt} (h : IsLine line) {x : SourceStmt} (hx : x ∈ line) :
    IsSec x.sec ∧ x.stmt.ReadIn x.sec := by
  rcases h with rfl | ⟨y, hsec, hread, rfl | ⟨tok, rfl⟩⟩
  · cases hx
  · cases List.mem_singleton.mp hx
    exact ⟨hsec, hread⟩
  · rcases List.mem_cons.mp hx with rfl | hx
    · exact ⟨hsec, trivial⟩
    · cases List.mem_singleton.mp hx
      exact ⟨hsec, hread⟩

theorem sourceLines_readIn (env : AsmEnv) (src : List Byte) :
    ∀ x ∈ (sourceLines env src).flatten, IsSec x.sec ∧ x.stmt.ReadIn x.sec := by
  intro x hx
  obtain ⟨line, hline, hx⟩ := List.mem_flatten.mp hx
  exact (sourceLines_isLine env src line hline).readIn hx

theorem IsLine.filterMap_instr {line : List SourceStmt} (h : IsLine line) :
    line.filterMap SourceStmt.instr = (line.findSome? SourceStmt.instr).toList := by
  rcases h with rfl | ⟨y, -, -, rfl | ⟨tok, rfl⟩⟩
  · rfl
  · cases hy : y.instr <;> simp [hy]
  · have hl : SourceStmt.instr ⟨y.line, y.sec, .label tok⟩ = none := rfl
    cases hy : y.instr <;> simp [hy, hl]

/-- The instructions of all statements are those of the code lines, one each. -/
theorem filterMap_instr (env : AsmEnv) (src : List Byte) :
    (sourceLines env src).flatten.filterMap SourceStmt.instr = codeLines env src := by
  have hlines := sourceLines_isLine env src
  unfold codeLines
  generalize sourceLines env src = lines at hlines
  induction lines with
  | nil => rfl
  | cons line lines ih =>
    obtain ⟨hl, hls⟩ := List.forall_mem_cons.mp hlines
    rw [List.flatten_cons, List.filterMap_append, ih hls, hl.filterMap_instr, List.filterMap_cons]
    cases line.findSome? SourceStmt.instr <;> rfl

end Dvm
