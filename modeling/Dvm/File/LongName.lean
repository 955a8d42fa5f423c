/-
# Behind a name that is too long

`dvmRead` stops with `overrun` where a name and its NUL do not fit `char name[64]`: from there on
the source has no defined behaviour.  What a compiled `dvm_read` does is to go on.  The bytes
behind the array are those of the symbol's other fields, of the symbols behind it and of their
count, so that the symbol table is something else then; the stream is read as if nothing had
happened.

`dvmReadOn` is that reader, with the table behind a long name as a parameter, `spill`.  It
accepts the files of the format without the bound on their names (`dvmReadOn_ok_iff`), and where
`dvmRead` does not overrun it is the same (`dvmReadOn_eq`).
-/
import Dvm.File.NameBound

namespace Dvm

open Bytes FileRead

/-! ## 1. Records with names of any length -/

/-- A symbol record as it stands in a file. -/
structure RawRecord where
  flags : Byte
  sec : DvmSection
  offset : BitVec 32
  nl : Byte
  name : List Byte
  count : name.length = nl.toNat

def RawRecord.bytes (r : RawRecord) : List Byte := fieldsBytes r.flags r.sec r.offset r.nl ++ r.name

/-- The symbol of a record whose name fits. -/
def RawRecord.sym (r : RawRecord) : DvmSym :=
  ⟨r.name.takeWhile (· ≠ 0), r.flags, r.sec, r.offset⟩

/-- The symbol table after a record has been read. -/
abbrev Spill := List DvmSym → RawRecord → List DvmSym

/-- A record whose name fits is stored behind the others; `spill` is what a longer one does. -/
def Spill.store (spill : Spill) (ss : List DvmSym) (r : RawRecord) : List DvmSym :=
  if r.name.length < dvmSymName then ss ++ [r.sym] else spill ss r

/-- Where the flags stand behind the name array, the NUL of a name of 64 bytes is stored to
them. -/
def nulInFlags : Spill := fun ss r => ss ++ [{ r.sym with flags := 0 }]

/-- A whole file, with names of any length. -/
structure RawFile where
  head : FileHead
  syms : List RawRecord
  rels : List DvmRel
  symsCount : syms.length = head.nsyms
  relsFit : rels.length ≤ dvmMaxRels

def RawFile.bytes (f : RawFile) : List Byte :=
  f.head.bytes ++ (f.syms.flatMap RawRecord.bytes ++ relsBytes f.rels)

/-- The program that is read from it. -/
def RawFile.prog (spill : Spill) (f : RawFile) : DvmProg :=
  { cnst := f.head.cnst, data := f.head.data, code := f.head.code,
    syms := f.syms.foldl spill.store [], rels := f.rels,
    entryOffset := f.head.entryOffset, hasEntry := true }

/-! ## 2. The reader -/

/-- The name of a symbol, with the symbol's fields. -/
def frNameOn (spill : Spill) (flags : Byte) (sec : DvmSection) (offset : BitVec 32) (nl : Byte) :
    ReadM Unit := do
  let got ← fread nl.toNat
  if h : got.length = nl.toNat then
    fill fun p => { p with syms := spill.store p.syms ⟨flags, sec, offset, nl, got, h⟩ }
  else throw .short

/-- A pass of the symbol loop. -/
def frSymOn (spill : Spill) : ReadM Unit := do
  let (flags, sec, offset, nl) ← frSymFields
  frNameOn spill flags sec offset nl

/-- `dvm_read` on a stream, going on behind names that are too long. -/
def dvmReadOn (spill : Spill) (f : List Byte) : EStateM.Result ReadStop (Input DvmProg) Unit :=
  (frHead >>= fun n => times (frSymOn spill) n >>= fun _ => frRels) ⟨f, {}⟩

section Accepts

variable {spill : Spill} {s s' : Input DvmProg}

theorem frSymOn_ok_iff :
    frSymOn spill s = .ok () s' ↔ ∃ r : RawRecord, s.file = r.bytes ++ s'.file ∧
      s'.out = { s.out with syms := spill.store s.out.syms r } := by
  rw [frSymOn, bind_ok_iff]
  constructor
  · rintro ⟨⟨flags, sec, offset, nl⟩, s₁, hfields, hname⟩
    obtain ⟨hfile, hout⟩ := frSymFields_ok_iff.mp hfields
    obtain ⟨got, s₂, hread, hname⟩ := bind_ok_iff.mp hname
    cases hread
    split at hname
    · next hcount =>
      cases hname
      refine ⟨⟨flags, sec, offset, nl, _, hcount⟩, ?_, by rw [hout]⟩
      rw [hfile, RawRecord.bytes, List.append_assoc, List.take_append_drop]
    · cases hname
  · rintro ⟨⟨flags, sec, offset, nl, name, hcount⟩, hfile, hout⟩
    rw [RawRecord.bytes, List.append_assoc] at hfile
    refine ⟨_, ⟨name ++ s'.file, s.out⟩, frSymFields_ok_iff.mpr ⟨hfile, rfl⟩, ?_⟩
    refine bind_ok_iff.mpr ⟨name, ⟨s'.file, s.out⟩, ?_, ?_⟩
    · simp only [fread, ← hcount, List.take_left, List.drop_left]
    · rw [dif_pos hcount]
      exact fill_ok_iff.mpr ⟨rfl, hout⟩

theorem foldl_store (rs : List RawRecord) (o : DvmProg) :
    rs.foldl (fun o r => { o with syms := spill.store o.syms r }) o
      = { o with syms := rs.foldl spill.store o.syms } := by
  induction rs generalizing o with
  | nil => rfl
  | cons r rs ih => rw [List.foldl_cons, ih, List.foldl_cons]

theorem frSymsOn_ok_iff {n : Nat} {u : Unit} :
    times (frSymOn spill) n s = .ok u s' ↔ ∃ rs : List RawRecord, rs.length = n ∧
      s.file = rs.flatMap RawRecord.bytes ++ s'.file ∧
        s'.out = { s.out with syms := rs.foldl spill.store s.out.syms } := by
  rw [times_ok_iff RawRecord.bytes (fun o r => { o with syms := spill.store o.syms r })
    fun s s' => frSymOn_ok_iff]
  simp only [foldl_store]

/-- It accepts exactly the files of the format with names of any length. -/
theorem dvmReadOn_ok_iff {f : List Byte} :
    dvmReadOn spill f = .ok () s' ↔
      ∃ file : RawFile, f = file.bytes ++ s'.file ∧ s'.out = file.prog spill := by
  rw [dvmReadOn]
  simp only [bind_ok_iff, frHead_ok_iff, frSymsOn_ok_iff, frRels_ok_iff]
  constructor
  · rintro ⟨n, s₁, ⟨head, hn, hf₁, ho₁⟩, ⟨⟩, s₂, ⟨rs, hlen, hf₂, ho₂⟩, rels, hle, hf₃, ho₃⟩
    refine ⟨⟨head, rs, rels, hlen.trans hn.symm, hle⟩, ?_, ?_⟩
    · simp only [RawFile.bytes, hf₁, hf₂, hf₃, List.append_assoc]
    · rw [ho₃, ho₂, ho₁]
      simp [FileHead.putIn, RawFile.prog]
  · rintro ⟨⟨head, rs, rels, hlen, hle⟩, rfl, hout⟩
    simp only [RawFile.bytes, List.append_assoc]
    refine ⟨_, ⟨_, _⟩, ⟨head, rfl, rfl, rfl⟩, (), ⟨_, _⟩, ⟨rs, hlen, rfl, rfl⟩, rels, hle, rfl, ?_⟩
    rw [hout]
    simp [RawFile.prog]

theorem dvmReadOn_bytes (spill : Spill) (file : RawFile) (rest : List Byte) :
    dvmReadOn spill (file.bytes ++ rest) = .ok () ⟨rest, file.prog spill⟩ :=
  dvmReadOn_ok_iff.mpr ⟨file, rfl, rfl⟩

end Accepts

/-! ## 3. Where names fit -/

/-- The error that `dvmReadOn` goes on from. -/
def ReadStop.isOverrun (e : ReadStop) : Prop := e = .overrun

theorem frNameOn_run (spill : Spill) (flags : Byte) (sec : DvmSection) (offset : BitVec 32)
    (nl : Byte) (s : Input DvmProg) :
    frNameOn spill flags sec offset nl s =
      if h : (s.file.take nl.toNat).length = nl.toNat then
        .ok () ⟨s.file.drop nl.toNat,
          { s.out with syms := spill.store s.out.syms ⟨flags, sec, offset, nl, _, h⟩ }⟩
      else .error .short ⟨s.file.drop nl.toNat, s.out⟩ := by
  by_cases h : (s.file.take nl.toNat).length = nl.toNat
  · rw [dif_pos h, frNameOn]
    exact bind_ok_iff.mpr ⟨_, _, rfl, by rw [dif_pos h]; rfl⟩
  · rw [dif_neg h, frNameOn]
    exact bind_error_iff.mpr (.inr ⟨_, _, rfl, by rw [dif_neg h]; rfl⟩)

theorem sameUnless_frNameOn (spill : Spill) (flags : Byte) (sec : DvmSection) (offset : BitVec 32)
    (nl : Byte) :
    SameUnless ReadStop.isOverrun
      (frName nl >>= fun name =>
        fill fun p => { p with syms := p.syms ++ [⟨name, flags, sec, offset⟩] })
      (frNameOn spill flags sec offset nl) := by
  intro s
  have hsize : dvmSymName = 64 := rfl
  by_cases hover : Overruns nl s.file
  · obtain ⟨s', h⟩ := frName_overrun hover
    exact .inr ⟨_, s', bind_error_iff.mpr (.inl h), rfl⟩
  · left
    have hlen := List.length_take (i := nl.toNat) (l := s.file)
    have hname := frName_run nl s
    unfold Overruns at hover
    rw [frNameOn_run]
    by_cases hfull : (s.file.take nl.toNat).length = nl.toNat
    · -- the whole name is there, and fits
      have hfits : (s.file.take nl.toNat).length < dvmSymName := by omega
      rw [if_neg (by omega), if_neg (by omega), if_neg (by omega)] at hname
      rw [dif_pos hfull, Spill.store, if_pos hfits]
      refine Eq.symm (bind_ok_iff.mpr ?_)
      exact ⟨_, _, hname, rfl⟩
    · rw [if_neg (by omega), if_pos (by omega)] at hname
      rw [dif_neg hfull]
      exact Eq.symm (bind_error_iff.mpr (.inl hname))

theorem sameUnless_frSymOn (spill : Spill) :
    SameUnless ReadStop.isOverrun frSym (frSymOn spill) := by
  rw [frSym_eq]
  exact (SameUnless.refl frSymFields).bind fun x => sameUnless_frNameOn spill x.1 x.2.1 x.2.2.1 _

/-- On a stream without a long name it is `dvm_read`. -/
theorem dvmReadOn_eq {f : List Byte} (h : ¬ LongName f) (spill : Spill) :
    dvmReadOn spill f = dvmRead f := by
  have hsame : SameUnless ReadStop.isOverrun dvmReadBody
      (frHead >>= fun n => times (frSymOn spill) n >>= fun _ => frRels) := by
    rw [dvmReadBody_eq]
    exact (SameUnless.refl frHead).bind fun n => ((sameUnless_frSymOn spill).times n).bind fun _ =>
      .refl frRels
  rcases hsame ⟨f, {}⟩ with heq | ⟨e, s', herr, rfl⟩
  · exact heq
  · exact absurd (dvmRead_overrun_iff.mp ⟨s', herr⟩) h

/-- Whatever becomes of the table, it only fails by returning 0. -/
theorem failsIn_frSymOn (spill : Spill) : FailsIn ReadStop.isFail (frSymOn spill) := by
  refine failsIn_frSymFields.bind fun x => (failsIn_fread _).bind fun got => ?_
  split
  · exact failsIn_fill _
  · exact failsIn_throw isFail_short

/-! ## 4. Files whose names fit -/

/-- A record whose name fits, as one of the format. -/
def RawRecord.toRecord (r : RawRecord) (h : r.name.length < dvmSymName) : SymRecord :=
  ⟨r.name, r.flags, r.sec, r.offset, h⟩

theorem RawRecord.bytes_toRecord {r : RawRecord} (h : r.name.length < dvmSymName) :
    (r.toRecord h).bytes = r.bytes := by
  have hnl : BitVec.ofNat 8 r.name.length = r.nl := by
    rw [r.count, BitVec.ofNat_toNat, BitVec.setWidth_eq]
  simp only [toRecord, SymRecord.bytes, RawRecord.bytes, fieldsBytes, hnl, List.append_assoc]

theorem foldl_store_fits (spill : Spill) {rs : List RawRecord}
    (h : ∀ r ∈ rs, r.name.length < dvmSymName) (ss : List DvmSym) :
    rs.foldl spill.store ss = ss ++ rs.map RawRecord.sym := by
  induction rs generalizing ss with
  | nil => simp
  | cons r rs ih =>
    obtain ⟨hr, hrs⟩ := List.forall_mem_cons.mp h
    rw [List.foldl_cons, ih hrs, Spill.store, if_pos hr, List.append_assoc]
    rfl

/-- A file whose names fit is one of the format, and stands for one program. -/
theorem RawFile.exists_file (file : RawFile) (h : ∀ r ∈ file.syms, r.name.length < dvmSymName) :
    ∃ file' : DvmFile, file'.bytes = file.bytes ∧ (∀ spill, file.prog spill = file'.prog) ∧
      ∀ r' ∈ file'.syms, ∃ r ∈ file.syms, r'.name = r.name := by
  have hbytes : (file.syms.pmap RawRecord.toRecord h).flatMap SymRecord.bytes
      = file.syms.flatMap RawRecord.bytes := by
    rw [List.flatMap_def, List.flatMap_def, List.map_pmap]
    refine congrArg List.flatten ?_
    rw [← List.pmap_eq_map h]
    exact List.pmap_congr_left _ fun r _ hr _ => RawRecord.bytes_toRecord hr
  have hsyms : (file.syms.pmap RawRecord.toRecord h).map SymRecord.sym
      = file.syms.map RawRecord.sym := by
    rw [List.map_pmap, ← List.pmap_eq_map h]
    rfl
  have hcount : (file.syms.pmap RawRecord.toRecord h).length = file.head.nsyms :=
    List.length_pmap.trans file.symsCount
  refine ⟨⟨file.head, _, file.rels, hcount, file.relsFit⟩, ?_, ?_, ?_⟩
  · rw [DvmFile.bytes, RawFile.bytes, hbytes]
  · intro spill
    rw [RawFile.prog, foldl_store_fits spill h, DvmFile.prog, hsyms]
    rfl
  · intro r' hr'
    obtain ⟨r, hr, rfl⟩ := List.mem_pmap.mp hr'
    exact ⟨r, hr, rfl⟩

end Dvm
