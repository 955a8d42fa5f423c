/-
# What the tool writes can be read back

The format holds 32-bit lengths, tables of limited size and names of limited length
(`DvmProg.FitsFormat`).  The assembler keeps within all of them: a name is a token, its tables are
those of the format, and its buffers are smaller than any length the format can say
(`Assembly.fitsFormat`).  Neither the reader nor the linker leaves them, except that sections may
become too long to be written (`fitsFormat_of_link`).  So the format is sealed (`sealed_format`):
what was cut off is not read.
-/
import Dvm.Asm.Names
import Dvm.Asm.Numbers
import Dvm.File.RoundTrip
import Dvm.Link.Loadable
import Dvm.Prog.Linked
import Dvm.Tool.Commands

namespace Dvm

open Bytes FileRead Files Loops Table

/-! ## 1. Names are tokens -/

theorem nulTerminated_readTok (p : List Byte) : NulTerminated (readTok asmLabelLen p).1 := by
  refine ⟨Nat.lt_of_le_of_lt (length_readTok _ _) (by decide), fun hnul => ?_⟩
  rw [readTok, takeTok_eq] at hnul
  have hkept := List.mem_takeWhile_imp (List.mem_of_mem_take hnul)
  simp [isDelim] at hkept

theorem nulTerminated_operand (p : List Byte) : NulTerminated (operand p) :=
  nulTerminated_readTok p

/-- The name that an emission refers to is one. -/
def Emit.NameOk : Emit → Prop
  | .codeRef name => NulTerminated name
  | .dataRef name => NulTerminated name
  | _ => True

def NamesOk (es : List Emit) : Prop := ∀ e ∈ es, e.NameOk

@[simp] theorem namesOk_nil : NamesOk [] := List.forall_mem_nil _

@[simp] theorem namesOk_cons {e : Emit} {es : List Emit} :
    NamesOk (e :: es) ↔ e.NameOk ∧ NamesOk es := List.forall_mem_cons

@[simp] theorem Emit.nameOk_bytes (bs : List Byte) : (Emit.bytes bs).NameOk := trivial

@[simp] theorem Emit.nameOk_stop (why : AsmStop) : (Emit.stop why).NameOk := trivial

@[simp] theorem Emit.nameOk_codeRef {name : CStr} :
    (Emit.codeRef name).NameOk ↔ NulTerminated name := Iff.rfl

@[simp] theorem Emit.nameOk_dataRef {name : CStr} :
    (Emit.dataRef name).NameOk ↔ NulTerminated name := Iff.rfl

@[simp] theorem nameOk_emitOp (op : Op) : (emitOp op).NameOk := trivial

@[simp] theorem nameOk_emitRegs (d s : Reg) : (emitRegs d s).NameOk := trivial

@[simp] theorem nameOk_emitI32 (v : BitVec 32) : (emitI32 v).NameOk := trivial

@[simp] theorem nameOk_emitU64 (v : BitVec 64) : (emitU64 v).NameOk := trivial

section Operands

variable {line : Nat} {p : List Byte}

theorem namesOk_reqReg {s : CStr} {k : Reg → List Emit} (hk : ∀ r, NamesOk (k r)) :
    NamesOk (reqReg line s k) := by
  unfold reqReg
  split
  · exact hk _
  · simp

theorem namesOk_reqFpreg {s : CStr} {k : Reg → List Emit} (hk : ∀ r, NamesOk (k r)) :
    NamesOk (reqFpreg line s k) := by
  unfold reqFpreg
  split
  · exact hk _
  · simp

theorem namesOk_reqMem {s : CStr} {why : AsmStop} {k : Reg → List Emit}
    (hk : ∀ r, NamesOk (k r)) : NamesOk (reqMem s why k) := by
  unfold reqMem
  split
  · exact hk _
  · simp

theorem namesOk_operands₂ {k : CStr → CStr → List Emit}
    (hk : ∀ a b, NulTerminated a → NulTerminated b → NamesOk (k a b)) :
    NamesOk (operands₂ line p k) := by
  unfold operands₂
  simp only
  split
  · simp
  · exact hk _ _ (nulTerminated_readTok _) (nulTerminated_operand _)

theorem namesOk_emitMem (op opOff : Op) (d s : Reg) (off : BitVec 32) :
    NamesOk (emitMem op opOff d s off) := by
  unfold emitMem
  split <;> simp

/-- The operands of an instruction are tokens, family by family. -/
theorem namesOk_parseForm (strtod : Strtod) (equs : List AsmEqu) (form : Form) :
    NamesOk (parseForm strtod equs line form p) := by
  unfold parseForm
  cases form with
  | mov =>
    refine namesOk_operands₂ fun a b _ hb => ?_
    split
    · exact namesOk_reqReg fun _ => namesOk_emitMem _ _ _ _ _
    · exact namesOk_reqReg fun _ => namesOk_emitMem _ _ _ _ _
    · refine namesOk_reqReg fun rd => ?_
      split
      · simp
      · split
        · simpa using hb
        · dsimp only
          split
          · simp
          · simp
  | sizedStore op opOff =>
    exact namesOk_operands₂ fun _ _ _ _ => namesOk_reqReg fun _ => namesOk_reqMem fun _ =>
      namesOk_emitMem _ _ _ _ _
  | sizedLoad op8 op16 op32 op8Off op16Off op32Off =>
    unfold sizedLoadOperands
    simp only
    split
    · simp
    · refine namesOk_reqReg fun _ => namesOk_reqMem fun _ => ?_
      repeat' split
      all_goals first
        | exact namesOk_emitMem _ _ _ _ _
        | simp
  | alu2 op =>
    refine namesOk_operands₂ fun _ _ _ _ => namesOk_cons.mpr ⟨trivial, ?_⟩
    exact namesOk_reqReg fun _ => namesOk_reqReg fun _ => by simp
  | alu1 op => exact namesOk_cons.mpr ⟨trivial, namesOk_reqReg fun _ => by simp⟩
  | jmp1 op => simpa using nulTerminated_operand p
  | enter => simp
  | bare op => simp
  | call => exact namesOk_operands₂ fun ok err hok herr => by simpa using ⟨hok, herr⟩
  | falu2 op =>
    refine namesOk_operands₂ fun _ _ _ _ => namesOk_cons.mpr ⟨trivial, ?_⟩
    exact namesOk_reqFpreg fun _ => namesOk_reqFpreg fun _ => by simp
  | fmovi =>
    refine namesOk_operands₂ fun _ _ _ _ => namesOk_cons.mpr ⟨trivial, ?_⟩
    exact namesOk_reqFpreg fun _ => by simp
  | fmovm =>
    refine namesOk_operands₂ fun _ _ _ _ => namesOk_reqMem fun _ =>
      namesOk_cons.mpr ⟨trivial, namesOk_reqFpreg fun _ => by simp⟩
  | fmovs =>
    refine namesOk_operands₂ fun _ _ _ _ => namesOk_reqMem fun _ =>
      namesOk_cons.mpr ⟨trivial, namesOk_reqFpreg fun _ => by simp⟩
  | itof =>
    refine namesOk_operands₂ fun _ _ _ _ => namesOk_cons.mpr ⟨trivial, ?_⟩
    exact namesOk_reqFpreg fun _ => namesOk_reqReg fun _ => by simp
  | ftoi =>
    refine namesOk_operands₂ fun _ _ _ _ => namesOk_cons.mpr ⟨trivial, ?_⟩
    exact namesOk_reqReg fun _ => namesOk_reqFpreg fun _ => by simp
  | callr =>
    exact namesOk_operands₂ fun _ err _ herr => namesOk_reqReg fun _ => by simpa using herr
  | lea =>
    exact namesOk_operands₂ fun _ _ _ _ => namesOk_reqReg fun _ => namesOk_reqMem fun _ => by simp

end Operands

/-- The names that a statement says something about, or refers to. -/
def Stmt.NamesOk : Stmt → Prop
  | .globalDir name => NulTerminated name
  | .externDir name => NulTerminated name
  | .label name => NulTerminated name
  | .code _ es => Dvm.NamesOk es
  | _ => True

theorem parseInstr_namesOk {strtod : Strtod} {equs : List AsmEqu} {sec : DvmSection}
    {line : Nat} {mnem : CStr} {p : List Byte} :
    ∀ s ∈ parseInstr strtod equs sec line mnem p, s.NamesOk := by
  obtain ⟨s, hs, hread⟩ := @parseInstr_readIn strtod equs sec line mnem p
  rw [hs]
  refine List.forall_mem_singleton.mpr ?_
  cases s with
  | code mnem' es =>
    obtain ⟨form, -, strtod', equs', line', p', rfl⟩ := hread
    exact namesOk_parseForm strtod' equs' form
  | globalDir name | externDir name | label name =>
    unfold parseInstr parseData parseCode at hs
    simp only at hs
    repeat' split at hs
    all_goals cases hs
  | _ => trivial

theorem parseLine_namesOk {strtod : Strtod} {equs : List AsmEqu} {sec : DvmSection} {line : Nat}
    {buf : List Byte} : ∀ s ∈ parseLine strtod equs sec line buf, s.NamesOk := by
  unfold parseLine
  simp only
  split
  · simp
  split
  · unfold parseDirective
    simp only
    repeat' split
    all_goals exact List.forall_mem_singleton.mpr trivial
  split
  · exact List.forall_mem_singleton.mpr (nulTerminated_operand _)
  split
  · exact List.forall_mem_singleton.mpr (nulTerminated_operand _)
  split
  · split
    · exact List.forall_mem_singleton.mpr (nulTerminated_readTok _)
    · exact List.forall_mem_cons.mpr ⟨nulTerminated_readTok _, parseInstr_namesOk⟩
  · exact parseInstr_namesOk

/-! ## 2. The names of an accepted source -/

/-- Every name that was mentioned is one. -/
def NameTable.AllNamed (t : NameTable) : Prop := ∀ name ∈ t.names, NulTerminated name

theorem NameTable.AllNamed.say {t : NameTable} (h : t.AllNamed) {name : CStr}
    (hname : NulTerminated name) (s : NameStatus) : (t.say name s).AllNamed := by
  intro n hn
  unfold NameTable.say at hn
  dsimp only at hn
  split at hn
  · exact h n hn
  · rcases List.mem_append.mp hn with hn | hn
    · exact h n hn
    · exact List.mem_singleton.mp hn ▸ hname

theorem NameTable.AllNamed.emit {t : NameTable} (h : t.AllNamed) {e : Emit} (he : e.NameOk) :
    (t.emit e).AllNamed := by
  cases e with
  | bytes bs => exact h
  | stop why => exact h
  | codeRef name =>
    show (if t.status name = .imported then t.relocate name else t).AllNamed
    split
    · exact h
    · exact h
  | dataRef name =>
    show (if t.status name = .absent then t.say name .imported else t).AllNamed
    split
    · exact h.say he _
    · exact h

theorem NameTable.AllNamed.read {t : NameTable} (h : t.AllNamed) {s : Stmt} (hs : s.NamesOk) :
    (t.read s).AllNamed := by
  cases s with
  | globalDir name => exact h.say hs _
  | externDir name => exact h.say hs _
  | label name => exact h.say hs _
  | code mnem es =>
    show (es.foldl NameTable.emit t).AllNamed
    have hes : Dvm.NamesOk es := hs
    clear hs
    induction es generalizing t with
    | nil => exact h
    | cons e es ih =>
      obtain ⟨he, hes⟩ := namesOk_cons.mp hes
      exact ih (h.emit he) hes
  | _ => exact h

theorem allNamed_sourceNames (env : AsmEnv) (src : List Byte) :
    (sourceNames env src).AllNamed := by
  have hstmts : ∀ x ∈ (sourceLines env src).flatten, x.stmt.NamesOk := by
    intro x hx
    obtain ⟨rd, hmem⟩ := stmt_of_readLines hx
    exact parseLine_namesOk x.stmt hmem
  have hall : ∀ (xs : List SourceStmt) (t : NameTable), t.AllNamed →
      (∀ x ∈ xs, x.stmt.NamesOk) → (xs.foldl (fun t x => t.read x.stmt) t).AllNamed := by
    intro xs
    induction xs with
    | nil => exact fun t ht _ => ht
    | cons x xs ih =>
      intro t ht hxs
      obtain ⟨hx, hxs⟩ := List.forall_mem_cons.mp hxs
      exact ih _ (ht.read hx) hxs
  exact hall _ _ (fun name hname => nomatch hname) hstmts

/-! ## 3. The relocations of an accepted source -/

/-- The relocation table is not fuller than the format allows. -/
def AsmCtx.RelsFit (ctx : AsmCtx) : Prop := ctx.rels.length ≤ dvmMaxRels

theorem AsmCtx.RelsFit.addRel {ctx ctx' : AsmCtx} {pos : Nat} {name : CStr} {kind : Byte}
    (h : ctx.addRel pos name kind = .ok ctx') : ctx'.RelsFit := by
  have hroom : ¬ dvmMaxRels ≤ ctx.rels.length := by
    intro hfull
    rw [AsmCtx.addRel, if_pos hfull] at h
    cases h
  obtain ⟨k, labels, -, rfl⟩ := addRel_ok h
  rw [RelsFit, List.length_append]
  exact Nat.lt_of_not_le hroom

theorem AsmCtx.RelsFit.emit {ctx ctx' : AsmCtx} {line : Nat} {e : Emit} (hfit : ctx.RelsFit)
    (h : doEmit line ctx e = .ok ctx') : ctx'.RelsFit := by
  cases e with
  | bytes bs =>
    obtain ⟨b, -, rfl⟩ := putText_ok h
    exact hfit
  | stop why => cases h
  | codeRef name =>
    by_cases hdef : ∃ i l, labelFind ctx.labels name = some (i, l) ∧ l.IsCodeDef
    · obtain ⟨i, l, hf, hl⟩ := hdef
      rw [doEmit, labelRefCode_of_def hf hl] at h
      obtain ⟨b, -, rfl⟩ := putText_ok h
      exact hfit
    · rw [doEmit, labelRefCode_of_not_def hdef] at h
      obtain ⟨c₁, h₁, h⟩ := Loops.bind_ok_iff.mp h
      obtain ⟨c₂, h₂, h₃⟩ := Loops.bind_ok_iff.mp h
      cases addPatch_ok h₁
      obtain ⟨b, -, rfl⟩ := putText_ok h₂
      split at h₃
      · exact .addRel h₃
      · cases h₃
        exact hfit
  | dataRef name =>
    rw [doEmit, labelRefData] at h
    obtain ⟨c₁, h₁, h⟩ := Loops.bind_ok_iff.mp h
    have hfit₁ : c₁.RelsFit := .addRel h₁
    dsimp only at h
    split at h
    · obtain ⟨c₂, h₂, h₃⟩ := Loops.bind_ok_iff.mp h
      cases addPatch_ok h₂
      obtain ⟨b, -, rfl⟩ := putText_ok h₃
      exact hfit₁
    · obtain ⟨b, -, rfl⟩ := putText_ok h
      exact hfit₁

theorem AsmCtx.RelsFit.source {ctx ctx' : AsmCtx} {x : SourceStmt} (hfit : ctx.RelsFit)
    (h : doSource ctx x = .ok ctx') : ctx'.RelsFit := by
  obtain ⟨line, sec, s⟩ := x
  cases doStmtCtx_ok h with
  | sect => exact hfit
  | equ => exact hfit
  | declare _ _ => exact hfit
  | data _ => exact hfit
  | @code mnem es _ hes =>
    clear h
    induction es generalizing ctx with
    | nil =>
      cases hes
      exact hfit
    | cons e es ih =>
      obtain ⟨c, h₁, h₂⟩ := foldlM_cons_ok_iff.mp hes
      exact ih (hfit.emit h₁) h₂

theorem relsFit_of_accepted {env : AsmEnv} {src : List Byte} {ctx : AsmCtx}
    (h : asmCompile env src = .ok ctx) : ctx.RelsFit := by
  obtain ⟨ctx₀, hsrc, hres⟩ := asmCompile_sourceLines h
  obtain ⟨-, text, -, rfl⟩ := patchesResolve_ok hres
  have hall : ∀ (xs : List SourceStmt) (c : AsmCtx), c.RelsFit →
      xs.foldlM doSource c = .ok ctx₀ → ctx₀.RelsFit := by
    intro xs
    induction xs with
    | nil =>
      rintro c hc ⟨⟩
      exact hc
    | cons x xs ih =>
      intro c hc hxs
      obtain ⟨c₁, h₁, h₂⟩ := foldlM_cons_ok_iff.mp hxs
      exact ih c₁ (hc.source h₁) h₂
  exact hall _ _ (Nat.zero_le _) hsrc

/-! ## 4. Programs that fit the format -/

/-- The object of an accepted source fits the format. -/
theorem Assembly.fitsFormat (u : Assembly) : u.obj.FitsFormat where
  cnst := Nat.lt_of_le_of_lt u.ctx.cnst.fits (by decide)
  data := Nat.lt_of_le_of_lt u.ctx.data.fits (by decide)
  code := Nat.lt_of_le_of_lt u.ctx.text.fits (by decide)
  syms := List.length_take_le _ _
  rels := relsFit_of_accepted u.ok
  names := by
    intro s hs
    obtain ⟨l, hl, -, rfl⟩ := u.label_of_sym hs
    refine allNamed_sourceNames u.env u.src l.name ?_
    have hnames : u.ctx.labels.map AsmLabel.name = (sourceNames u.env u.src).names :=
      u.abstracts.names
    rw [← hnames]
    exact List.mem_map_of_mem hl

/-- What the reader accepts fits the format. -/
theorem DvmFile.fitsFormat (file : DvmFile) : file.prog.FitsFormat where
  cnst := file.head.cnstFits
  data := file.head.dataFits
  code := file.head.codeFits
  syms := by
    show (file.syms.map SymRecord.sym).length ≤ dvmMaxSyms
    rw [List.length_map, file.symsCount]
    exact file.head.symsFit
  rels := file.relsFit
  names := by
    intro s hs
    obtain ⟨r, -, rfl⟩ := List.mem_map.mp hs
    have hfree : 0 ∉ r.name.takeWhile (· ≠ 0) := fun hnul => by
      simpa using List.mem_takeWhile_imp hnul
    exact ⟨Nat.lt_of_le_of_lt (List.takeWhile_prefix _).length_le r.fits, hfree⟩

/-- A linked program fits the format if its sections are short enough to be written. -/
theorem fitsFormat_of_link {objs : List DvmProg} {entrySym : Option CStr} {out : DvmProg}
    (hlink : dvmLink objs entrySym = .ok out) (hobjs : ∀ o ∈ objs, o.FitsFormat)
    (hfits : SizesFit out) : out.FitsFormat := by
  obtain ⟨ms, defMaps, maps, rels, -, -, hpass, hout⟩ := dvmLink_ok_iff.mp hlink
  obtain ⟨hrels, -, hall⟩ := remapPass_ok_iff.mp hpass
  refine ⟨hfits.cnst, hfits.data, hfits.code, ?_, ?_, fun t ht => ?_⟩
  · rw [hout]
    exact ms.fits
  · rw [hout]
    exact (hall ▸ hrels : rels.length ≤ dvmMaxRels)
  · obtain ⟨i, o, s, hi, hs, -, rfl⟩ := mem_syms_dvmLink hlink ht
    exact (hobjs o (List.mem_of_getElem? hi)).names s hs

/-! ## 5. The format is sealed -/

/-- What `dvm_read` returns of a file that it accepts. -/
def readProg (f : List Byte) : Option DvmProg :=
  match dvmRead f with
  | .ok () s => some s.out
  | .error _ _ => none

/-- A program as it comes back from a file: `has_entry` is not stored. -/
def DvmProg.asRead (p : DvmProg) : DvmProg := { p with hasEntry := true }

theorem readProg_eq_some_iff {f : List Byte} {p : DvmProg} :
    readProg f = some p ↔ ∃ rest, dvmRead f = .ok () ⟨rest, p⟩ := by
  unfold readProg
  constructor
  · intro h
    split at h
    · next s hread =>
      obtain rfl := Option.some.inj h
      exact ⟨s.file, hread⟩
    · cases h
  · rintro ⟨rest, hread⟩
    rw [hread]

theorem dvmReadFile_ok_iff {fs : HostFiles} {path : CStr} {p : DvmProg} :
    dvmReadFile fs path = .ok p ↔ ∃ f, fs path = some f ∧ readProg f = some p := by
  unfold dvmReadFile readProg
  cases fs path with
  | none => simp
  | some f =>
    cases hread : dvmRead f with
    | ok u s => simp [hread]
    | error e s => simp [hread]

theorem fitsFormat_of_readProg {f : List Byte} {p : DvmProg} (h : readProg f = some p) :
    p.FitsFormat := by
  obtain ⟨rest, hread⟩ := readProg_eq_some_iff.mp h
  obtain ⟨file, -, rfl⟩ := dvmRead_ok_iff.mp hread
  exact file.fitsFormat

/-- A program that fits is read back whole, and no part of its file is read: were a beginning
accepted, so would be the file, with bytes left over. -/
theorem sealed_format : Sealed readProg dvmWrite DvmProg.FitsFormat DvmProg.asRead where
  whole := by
    intro p hfits
    obtain ⟨file, hbytes, hprog⟩ := exists_file hfits
    refine readProg_eq_some_iff.mpr ⟨[], ?_⟩
    rw [← hbytes, ← List.append_nil file.bytes, DvmProg.asRead, ← hprog]
    exact dvmRead_bytes file []
  cut := by
    intro p n hfits hlt
    obtain ⟨file, hbytes, -⟩ := exists_file hfits
    rw [Option.eq_none_iff_forall_ne_some]
    intro q hq
    obtain ⟨rest, hread⟩ := readProg_eq_some_iff.mp hq
    obtain ⟨file', hfront, -⟩ := dvmRead_ok_iff.mp hread
    have hwhole : dvmRead (dvmWrite p) = .ok () ⟨[], file.prog⟩ := by
      rw [← hbytes, ← List.append_nil file.bytes]
      exact dvmRead_bytes file []
    have hagain : dvmRead (dvmWrite p) = .ok () ⟨rest ++ (dvmWrite p).drop n, file'.prog⟩ := by
      conv_lhs => rw [← List.take_append_drop n (dvmWrite p), hfront, List.append_assoc]
      exact dvmRead_bytes file' _
    rw [hwhole] at hagain
    injection hagain with _ hleft
    have hnil : rest ++ (dvmWrite p).drop n = [] := (congrArg Input.file hleft).symm
    have hdrop : (dvmWrite p).drop n = [] := (List.append_eq_nil_iff.mp hnil).2
    exact absurd (List.drop_eq_nil_iff.mp hdrop) (Nat.not_le.mpr hlt)

end Dvm
