/-
# Data and constants of an accepted source

The sections `.data` and `.cnst` of an accepted source are the bytes of the data lines that stand
in them, one behind the other (`section_of_accepted`), and the `.equ` table is the constants in
the order of their lines (`constants_of_accepted`).
-/
import Dvm.Asm.LineText

namespace Dvm

open Bytes Loops

/-! ## 1. What a statement adds -/

/-- The bytes a statement adds to a section. -/
def SourceStmt.dataIn (sec : DvmSection) (x : SourceStmt) : List Byte :=
  match x.stmt with
  | .data bs => if x.sec = sec then bs else []
  | _ => []

def sectionBytes (sec : DvmSection) (xs : List SourceStmt) : List Byte :=
  xs.flatMap (SourceStmt.dataIn sec)

theorem sectionBytes_append (sec : DvmSection) (xs ys : List SourceStmt) :
    sectionBytes sec (xs ++ ys) = sectionBytes sec xs ++ sectionBytes sec ys :=
  List.flatMap_append

theorem sectionBytes_cons (sec : DvmSection) (x : SourceStmt) (xs : List SourceStmt) :
    sectionBytes sec (x :: xs) = x.dataIn sec ++ sectionBytes sec xs := rfl

/-- The constant a statement defines. -/
def SourceStmt.const (x : SourceStmt) : Option AsmEqu :=
  match x.stmt with
  | .equ name v => some ⟨name, v⟩
  | _ => none

def constants (xs : List SourceStmt) : List AsmEqu := xs.filterMap SourceStmt.const

theorem constants_append (xs ys : List SourceStmt) :
    constants (xs ++ ys) = constants xs ++ constants ys := List.filterMap_append

theorem constants_cons (x : SourceStmt) (xs : List SourceStmt) :
    constants (x :: xs) = x.const.toList ++ constants xs := by
  rw [constants, List.filterMap_cons]
  cases x.const <;> rfl

section Sections

variable {sec : DvmSection} {ctx ctx' : AsmCtx}

/-- The two data sections. -/
def IsDataSec (sec : DvmSection) : Prop := sec = dvmSecCnst ∨ sec = dvmSecData

theorem secBuf_text (hsec : IsDataSec sec) (text : Buf) :
    ({ ctx with text := text } : AsmCtx).secBuf sec = ctx.secBuf sec := by
  rcases hsec with rfl | rfl <;> rfl

theorem emitted_secBuf (hsec : IsDataSec sec) {e : Emit} (h : Emitted ctx e ctx') :
    ctx'.secBuf sec = ctx.secBuf sec := by
  rcases hsec with rfl | rfl <;> cases h <;> rfl

theorem foldlM_doEmit_secBuf (hsec : IsDataSec sec) {line : Nat} {es : List Emit}
    (h : es.foldlM (doEmit line) ctx = .ok ctx') : ctx'.secBuf sec = ctx.secBuf sec := by
  induction es generalizing ctx with
  | nil =>
    cases h
    rfl
  | cons e es ih =>
    obtain ⟨c₁, h₁, h₂⟩ := foldlM_cons_ok_iff.mp h
    rw [ih h₂, emitted_secBuf hsec (doEmit_ok h₁)]

theorem putData_secBuf (hsec : IsDataSec sec) {cursec : DvmSection} {bs : List Byte}
    (h : putData ctx cursec bs = .ok ctx') :
    (ctx'.secBuf sec).bytes = (ctx.secBuf sec).bytes ++ if cursec = sec then bs else [] := by
  have hne : dvmSecData ≠ dvmSecCnst := by decide
  unfold putData at h
  cases hput : bufPut (ctx.secBuf cursec) bs with
  | error e =>
    rw [hput] at h
    cases h
  | ok b =>
    rw [hput] at h
    cases h
    have hadds : b.bytes = (ctx.secBuf cursec).bytes ++ bs := bufPut_adds hput
    by_cases hcur : cursec = sec
    · subst hcur
      rw [if_pos rfl, ← hadds]
      rcases hsec with rfl | rfl <;> rfl
    · rw [if_neg hcur, List.append_nil]
      split
      · next hcnst =>
        subst hcnst
        obtain rfl := hsec.resolve_left (Ne.symm hcur)
        rfl
      · split
        · next hdata =>
          subst hdata
          obtain rfl := hsec.resolve_right (Ne.symm hcur)
          rfl
        · rw [secBuf_text hsec]

theorem doSource_secBuf (hsec : IsDataSec sec) {x : SourceStmt} (h : doSource ctx x = .ok ctx') :
    (ctx'.secBuf sec).bytes = (ctx.secBuf sec).bytes ++ x.dataIn sec := by
  obtain ⟨line, cursec, s⟩ := x
  by_cases hdata : ∃ bs, s = .data bs
  · obtain ⟨bs, rfl⟩ := hdata
    exact putData_secBuf hsec h
  · have hnone : SourceStmt.dataIn sec ⟨line, cursec, s⟩ = [] := by
      unfold SourceStmt.dataIn
      split
      · next bs heq => exact absurd ⟨bs, heq⟩ hdata
      · rfl
    rw [hnone, List.append_nil]
    cases doStmtCtx_ok h with
    | sect => rfl
    | equ => rcases hsec with rfl | rfl <;> rfl
    | declare _ _ => rcases hsec with rfl | rfl <;> rfl
    | data _ => exact absurd ⟨_, rfl⟩ hdata
    | code hes => rw [foldlM_doEmit_secBuf hsec hes]

theorem doSource_equs {x : SourceStmt} (h : doSource ctx x = .ok ctx') :
    ctx'.equs = ctx.equs ++ x.const.toList := by
  obtain ⟨line, cursec, s⟩ := x
  cases doStmtCtx_ok h with
  | equ => rfl
  | declare hd _ => cases s <;> first | cases hd; done | exact (List.append_nil _).symm
  | code hes => exact (foldlM_doEmit_equs hes).trans (List.append_nil _).symm
  | _ => exact (List.append_nil _).symm

/-! ## 2. Whole sources -/

theorem foldlM_doSource_secBuf (hsec : IsDataSec sec) {xs : List SourceStmt}
    (h : xs.foldlM doSource ctx = .ok ctx') :
    (ctx'.secBuf sec).bytes = (ctx.secBuf sec).bytes ++ sectionBytes sec xs := by
  induction xs generalizing ctx with
  | nil =>
    cases h
    exact (List.append_nil _).symm
  | cons x xs ih =>
    obtain ⟨c₁, h₁, h₂⟩ := foldlM_cons_ok_iff.mp h
    rw [ih h₂, doSource_secBuf hsec h₁, sectionBytes_cons, List.append_assoc]

theorem foldlM_doSource_equs {xs : List SourceStmt} (h : xs.foldlM doSource ctx = .ok ctx') :
    ctx'.equs = ctx.equs ++ constants xs := by
  induction xs generalizing ctx with
  | nil =>
    cases h
    exact (List.append_nil _).symm
  | cons x xs ih =>
    obtain ⟨c₁, h₁, h₂⟩ := foldlM_cons_ok_iff.mp h
    rw [ih h₂, doSource_equs h₁, constants_cons, List.append_assoc]

variable {env : AsmEnv} {src : List Byte}

/-- A data section of an accepted source. -/
theorem section_of_accepted (h : asmCompile env src = .ok ctx) (hsec : IsDataSec sec) :
    (ctx.secBuf sec).bytes = sectionBytes sec (sourceLines env src).flatten := by
  obtain ⟨ctx₀, hsrc, hres⟩ := asmCompile_sourceLines h
  obtain ⟨-, text, -, rfl⟩ := patchesResolve_ok hres
  rw [secBuf_text hsec, foldlM_doSource_secBuf hsec hsrc]
  rcases hsec with rfl | rfl <;> rfl

/-- The constants of an accepted source. -/
theorem constants_of_accepted (h : asmCompile env src = .ok ctx) :
    ctx.equs = constants (sourceLines env src).flatten := by
  obtain ⟨ctx₀, hsrc, hres⟩ := asmCompile_sourceLines h
  obtain ⟨-, text, -, rfl⟩ := patchesResolve_ok hres
  exact foldlM_doSource_equs hsrc

end Sections

/-! ## 3. The constants that a line can use -/

theorem Reader.equs_after (rd : Reader) (s : Stmt) :
    (rd.after s).equs = rd.equs ++ (SourceStmt.const ⟨rd.lineno, rd.cursec, s⟩).toList := by
  cases s <;> first | rfl | exact (List.append_nil _).symm

theorem Reader.equs_place (rd : Reader) (ss : List Stmt) :
    (ss.foldl Reader.after rd).equs = rd.equs ++ constants (rd.place ss) := by
  induction ss generalizing rd with
  | nil => exact (List.append_nil _).symm
  | cons s ss ih =>
    rw [List.foldl_cons, ih, Reader.equs_after, Reader.place, constants_cons, List.append_assoc]

theorem readersFrom_equs {env : AsmEnv} {rd rd' : Reader} {lines : List (List Byte)} {j : Nat}
    (h : (readersFrom env rd lines)[j]? = some rd') :
    rd'.equs = rd.equs ++ constants ((readLines env rd lines).take j).flatten := by
  induction lines generalizing rd j with
  | nil => cases h
  | cons line lines ih =>
    cases j with
    | zero =>
      cases h
      exact (List.append_nil _).symm
    | succ j =>
      have hrest := ih h
      rw [Reader.equs_place] at hrest
      rw [hrest, readLines, List.take_succ_cons, List.flatten_cons, constants_append,
        List.append_assoc]
      rfl

/-- A line can use the constants of the lines before it. -/
theorem sourceReaders_equs {env : AsmEnv} {src : List Byte} {j : Nat} {rd : Reader}
    (h : (sourceReaders env src)[j]? = some rd) :
    rd.equs = constants ((sourceLines env src).take j).flatten :=
  readersFrom_equs h

end Dvm
