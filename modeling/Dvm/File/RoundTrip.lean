/-
# Writing a file and reading it back

The two walks of `dvm_io.c` are compared through the format (`Dvm.File.Format`), in both
directions.

* **Writer first.**  A program within the limits of the format is written as the file that
  stands for it, so it is read back unchanged (`dvmRead_dvmWrite`), and no proper prefix of its
  bytes is accepted (`dvmRead_truncated`).
* **Reader first.**  An accepted file is written back byte for byte if each of its names is one
  of at most 63 bytes without a NUL.  The reader looks for neither: what follows a NUL in the name
  is lost, and behind a longer name the symbol table need not be what was read
  (`dvmWrite_dvmRead_iff`).
-/
import Dvm.File.LongName

namespace Dvm

open Bytes FileRead

/-! ## 1. The file of a program -/

/-- A name that is NUL-terminated within its 64 bytes. -/
def NulTerminated (name : CStr) : Prop := name.length < dvmSymName ∧ 0 ∉ name

/-- What a program must satisfy for the format to hold it: lengths that fit their 32-bit
fields, tables within their maxima, names terminated within their arrays. -/
structure DvmProg.FitsFormat (p : DvmProg) : Prop where
  cnst : p.cnst.length < 2 ^ 32
  data : p.data.length < 2 ^ 32
  code : p.code.length < 2 ^ 32
  syms : p.syms.length ≤ dvmMaxSyms
  rels : p.rels.length ≤ dvmMaxRels
  names : ∀ s ∈ p.syms, NulTerminated s.name

theorem takeWhile_eq_self_iff_nul {name : List Byte} :
    name.takeWhile (· ≠ 0) = name ↔ 0 ∉ name := by
  rw [List.takeWhile_eq_self_iff]
  constructor
  · intro h hnul
    simpa using h 0 hnul
  · intro h c hc
    simpa using fun h0 : c = 0 => h (h0 ▸ hc)

/-- A record without a NUL in its name is what the writer writes for its symbol. -/
theorem SymRecord.fwSym_sym {r : SymRecord} (h : 0 ∉ r.name) : fwSym r.sym = r.bytes := by
  have hlen : (BitVec.ofNat 8 r.name.length).toNat = r.name.length := by
    have : r.name.length < 64 := r.fits
    rw [BitVec.toNat_ofNat, Nat.mod_eq_of_lt (by omega)]
  simp only [fwSym, SymRecord.sym, SymRecord.bytes, takeWhile_eq_self_iff_nul.mpr h, hlen,
    List.take_length]

/-- The record of a symbol. -/
def SymRecord.ofSym (s : DvmSym) (h : NulTerminated s.name) : SymRecord :=
  ⟨s.name, s.flags, s.sec, s.offset, h.1⟩

theorem SymRecord.sym_ofSym {s : DvmSym} (h : NulTerminated s.name) : (ofSym s h).sym = s := by
  show DvmSym.mk (s.name.takeWhile (· ≠ 0)) s.flags s.sec s.offset = s
  rw [takeWhile_eq_self_iff_nul.mpr h.2]

/-- The symbol table of a program as records, by induction over the table. -/
theorem exists_records {ss : List DvmSym} (h : ∀ s ∈ ss, NulTerminated s.name) :
    ∃ rs : List SymRecord, rs.map SymRecord.sym = ss ∧ ∀ r ∈ rs, 0 ∉ r.name := by
  induction ss with
  | nil => exact ⟨[], rfl, by simp⟩
  | cons s ss ih =>
    obtain ⟨hs, hss⟩ := List.forall_mem_cons.mp h
    obtain ⟨rs, hmap, hnul⟩ := ih hss
    refine ⟨.ofSym s hs :: rs, ?_, ?_⟩
    · rw [List.map_cons, hmap, SymRecord.sym_ofSym]
    · exact List.forall_mem_cons.mpr ⟨hs.2, hnul⟩

/-- The writer on a program with the head of a file: the head, the symbols, the relocations. -/
theorem dvmWrite_of_head {head : FileHead} {ss : List DvmSym} (hcount : ss.length = head.nsyms)
    (rels : List DvmRel) :
    dvmWrite { head.putIn {} with syms := ss, rels := rels } =
      head.bytes ++ (ss.flatMap fwSym ++ relsBytes rels) := by
  simp only [dvmWrite, FileHead.putIn, FileHead.bytes, relsBytes, hcount, List.append_assoc]

theorem dvmWrite_prog (file : DvmFile) :
    dvmWrite file.prog =
      file.head.bytes ++ (file.syms.flatMap (fun r => fwSym r.sym) ++ relsBytes file.rels) := by
  have hcount : (file.syms.map SymRecord.sym).length = file.head.nsyms :=
    (List.length_map _).trans file.symsCount
  rw [← List.flatMap_map]
  exact dvmWrite_of_head hcount file.rels

theorem DvmFile.dvmWrite_eq_bytes {file : DvmFile} (h : ∀ r ∈ file.syms, 0 ∉ r.name) :
    dvmWrite file.prog = file.bytes := by
  have hsyms : file.syms.flatMap (fun r => fwSym r.sym) = file.syms.flatMap SymRecord.bytes :=
    List.flatMap_congr fun r hr => SymRecord.fwSym_sym (h r hr)
  rw [dvmWrite_prog, hsyms, DvmFile.bytes]

/-- A program within the limits is written as a file that stands for it. -/
theorem exists_file {p : DvmProg} (h : p.FitsFormat) :
    ∃ file : DvmFile, file.bytes = dvmWrite p ∧ file.prog = { p with hasEntry := true } := by
  obtain ⟨rs, hmap, hnul⟩ := exists_records h.names
  have hcount : rs.length = p.syms.length := by rw [← hmap, List.length_map]
  let file : DvmFile :=
    { head := ⟨p.entryOffset, p.cnst, p.data, p.code, p.syms.length, h.cnst, h.data, h.code, h.syms⟩
      syms := rs, rels := p.rels, symsCount := hcount, relsFit := h.rels }
  have hprog : file.prog = { p with hasEntry := true } := by
    simp only [file, DvmFile.prog, hmap]
  have hbytes : file.bytes = dvmWrite p := by
    rw [← DvmFile.dvmWrite_eq_bytes hnul, hprog]
    rfl
  exact ⟨file, hbytes, hprog⟩

/-! ## 2. What was written is read back -/

theorem dvmRead_bytes (file : DvmFile) (rest : List Byte) :
    dvmRead (file.bytes ++ rest) = .ok () ⟨rest, file.prog⟩ :=
  dvmRead_ok_iff.mpr ⟨file, rfl, rfl⟩

/-- Reading what was written succeeds, consumes exactly the bytes written whatever follows
them in the stream, and returns the same program.  Only `has_entry`, which is not stored,
comes back set. -/
theorem dvmRead_dvmWrite (p : DvmProg) (h : p.FitsFormat) (rest : List Byte) :
    dvmRead (dvmWrite p ++ rest) = .ok () ⟨rest, { p with hasEntry := true }⟩ := by
  obtain ⟨file, hbytes, hprog⟩ := exists_file h
  rw [← hbytes, ← hprog]
  exact dvmRead_bytes file rest

/-- A program with an empty section, two kinds of symbol and a relocation comes back. -/
theorem dvmRead_dvmWrite_sample :
    let p : DvmProg :=
      { data := [1, 2], code := List.replicate 10 0, entryOffset := 3,
        syms := [⟨lit "main", dvmSymGlobal, dvmSecCode, 0⟩, ⟨lit "x", dvmSymExtern, dvmSecNone, 0⟩],
        rels := [⟨2, 1, dvmRelData⟩] }
    dvmRead (dvmWrite p ++ []) = .ok () ⟨[], { p with hasEntry := true }⟩ :=
  dvmRead_dvmWrite _ ⟨by decide, by decide, by decide, by decide, by decide,
    by unfold NulTerminated; decide⟩ []

/-- A proper prefix of what was written is rejected: were it accepted, so would be the whole
with bytes to spare, and what it lacks cannot make an overrun good. -/
theorem dvmRead_truncated (p : DvmProg) (h : p.FitsFormat) (front more : List Byte)
    (hcut : front ++ more = dvmWrite p) (hmore : more ≠ []) :
    ∃ msg s', dvmRead front = .error (.fail msg) s' := by
  obtain ⟨file, hbytes, -⟩ := exists_file h
  have hwhole : dvmRead (front ++ more) = .ok () ⟨[], file.prog⟩ := by
    rw [hcut, ← hbytes, ← List.append_nil file.bytes]
    exact dvmRead_bytes file []
  match hread : dvmRead front with
  | .ok () s' =>
    obtain ⟨file', hfront, -⟩ := dvmRead_ok_iff.mp hread
    have hagain : dvmRead (front ++ more) = .ok () ⟨s'.file ++ more, file'.prog⟩ := by
      rw [hfront, List.append_assoc]
      exact dvmRead_bytes file' (s'.file ++ more)
    rw [hwhole] at hagain
    injection hagain with _ hleft
    have hnil : s'.file ++ more = [] := (congrArg Input.file hleft).symm
    exact absurd (List.append_eq_nil_iff.mp hnil).2 hmore
  | .error .overrun s' =>
    have hlong : LongName (front ++ more) := (dvmRead_overrun_iff.mp ⟨s', hread⟩).append more
    obtain ⟨s'', hover⟩ := dvmRead_overrun_iff.mpr hlong
    rw [hwhole] at hover
    cases hover
  | .error (.fail msg) s' => exact ⟨msg, s', rfl⟩

/-- A program with all sections, two symbols and two relocations. -/
def cutProgram : DvmProg :=
  { cnst := [7], data := [1, 2], code := List.replicate 10 0, entryOffset := 3,
    syms := [⟨lit "main", dvmSymGlobal, dvmSecCode, 0⟩, ⟨lit "x", dvmSymExtern, dvmSecNone, 0⟩],
    rels := [⟨2, 1, dvmRelData⟩, ⟨4, 0, dvmRelCode⟩] }

theorem dvmRead_truncated_sample : (dvmWrite cutProgram).length = 106 ∧
    ∀ n < 106, ∃ msg s', dvmRead ((dvmWrite cutProgram).take n) = .error (.fail msg) s' := by
  have hfits : cutProgram.FitsFormat := ⟨by decide, by decide, by decide, by decide, by decide,
    by unfold NulTerminated; decide⟩
  have hlen : (dvmWrite cutProgram).length = 106 := by decide
  refine ⟨hlen, fun n hn => ?_⟩
  have hmore : (dvmWrite cutProgram).drop n ≠ [] := by
    rw [ne_eq, List.drop_eq_nil_iff]
    omega
  exact dvmRead_truncated cutProgram hfits _ _ (List.take_append_drop n _) hmore

/-! ## 3. What was read is written back -/

/-- Every name in the stream's symbol records fits its array with the NUL, and holds none itself. -/
def TerminatedNames (f : List Byte) : Prop :=
  ∀ (file : RawFile) (rest : List Byte), f = file.bytes ++ rest →
    ∀ r ∈ file.syms, NulTerminated r.name

/-- Record by record, what is written back differs from what was read in the length byte of the
first name with a NUL. -/
theorem SymRecord.nul_free_of_append {r : SymRecord} {as bs : List Byte}
    (h : r.bytes ++ as = fwSym r.sym ++ bs) : 0 ∉ r.name ∧ as = bs := by
  have hle : (r.name.takeWhile (· ≠ 0)).length ≤ r.name.length :=
    (List.takeWhile_prefix _).length_le
  have hfits : r.name.length < 64 := r.fits
  have hnames := h
  simp only [SymRecord.bytes, fwSym, SymRecord.sym, List.append_assoc] at hnames
  replace hnames := List.append_cancel_left hnames
  replace hnames := List.append_cancel_left hnames
  replace hnames := List.append_cancel_left hnames
  obtain ⟨hnl, -⟩ := List.cons.inj hnames
  have hlen : r.name.length = (r.name.takeWhile (· ≠ 0)).length := by
    have := congrArg BitVec.toNat hnl
    rw [BitVec.toNat_ofNat, BitVec.toNat_ofNat, Nat.mod_eq_of_lt (by omega),
      Nat.mod_eq_of_lt (by omega)] at this
    exact this
  have hnul : 0 ∉ r.name :=
    takeWhile_eq_self_iff_nul.mp ((List.takeWhile_prefix _).eq_of_length hlen.symm)
  rw [SymRecord.fwSym_sym hnul] at h
  exact ⟨hnul, List.append_cancel_left h⟩

/-- A long name that has left its symbol with other flags. -/
def spoilFlags : Spill := fun ss r => ss ++ [{ r.sym with flags := r.flags + 1 }]

/-- The symbol that a record is then read as. -/
def RawRecord.spoiled (r : RawRecord) : DvmSym :=
  if r.name.length < dvmSymName then r.sym else { r.sym with flags := r.flags + 1 }

theorem foldl_store_spoilFlags (rs : List RawRecord) (ss : List DvmSym) :
    rs.foldl spoilFlags.store ss = ss ++ rs.map RawRecord.spoiled := by
  induction rs generalizing ss with
  | nil => simp
  | cons r rs ih =>
    have hstore : spoilFlags.store ss r = ss ++ [r.spoiled] := by
      unfold Spill.store RawRecord.spoiled
      split <;> rfl
    rw [List.foldl_cons, hstore, ih, List.append_assoc]
    rfl

/-- What is written back for a long name then differs from what was read in its first byte. -/
theorem RawRecord.terminated_of_append {r : RawRecord} {as bs : List Byte}
    (h : r.bytes ++ as = fwSym r.spoiled ++ bs) : NulTerminated r.name ∧ as = bs := by
  by_cases hfits : r.name.length < dvmSymName
  · rw [RawRecord.spoiled, if_pos hfits, ← RawRecord.bytes_toRecord hfits] at h
    obtain ⟨hnul, heq⟩ := SymRecord.nul_free_of_append (r := r.toRecord hfits) h
    exact ⟨⟨hfits, hnul⟩, heq⟩
  · rw [RawRecord.spoiled, if_neg hfits] at h
    have hflags : r.flags = r.flags + 1 := (List.cons.inj h).1
    have hnat := congrArg BitVec.toNat hflags
    rw [BitVec.toNat_add] at hnat
    have hone : (1 : Byte).toNat = 1 := rfl
    have hlt := r.flags.isLt
    omega

theorem terminated_of_flatMap {rs : List RawRecord} {tail : List Byte}
    (h : rs.flatMap RawRecord.bytes ++ tail = (rs.map RawRecord.spoiled).flatMap fwSym ++ tail) :
    ∀ r ∈ rs, NulTerminated r.name := by
  induction rs with
  | nil => simp
  | cons r rs ih =>
    simp only [List.map_cons, List.flatMap_cons, List.append_assoc] at h
    obtain ⟨hr, hrs⟩ := RawRecord.terminated_of_append h
    exact List.forall_mem_cons.mpr ⟨hr, ih hrs⟩

/-- What `dvm_read` accepts is written back byte for byte, whatever becomes of the symbol table
behind a name that is too long, exactly if no name is too long or holds a NUL. -/
theorem dvmWrite_dvmRead_iff (f : List Byte) :
    (∀ spill s', dvmReadOn spill f = .ok () s' → f = dvmWrite s'.out ++ s'.file) ↔
      TerminatedNames f := by
  constructor
  · rintro h file rest rfl
    have hback := h spoilFlags _ (dvmReadOn_bytes spoilFlags file rest)
    have hsame := List.append_cancel_right hback
    have hcount : (file.syms.map RawRecord.spoiled).length = file.head.nsyms :=
      (List.length_map _).trans file.symsCount
    have hprog : file.prog spoilFlags = { file.head.putIn {} with
        syms := file.syms.map RawRecord.spoiled, rels := file.rels } := by
      rw [RawFile.prog, foldl_store_spoilFlags]
      rfl
    rw [hprog, dvmWrite_of_head hcount, RawFile.bytes] at hsame
    exact terminated_of_flatMap (List.append_cancel_left hsame)
  · intro h spill s' hread
    obtain ⟨file, hf, hout⟩ := dvmReadOn_ok_iff.mp hread
    have hnames := h file s'.file hf
    obtain ⟨file', hbytes, hprog, hsyms⟩ := file.exists_file fun r hr => (hnames r hr).1
    have hnul : ∀ r' ∈ file'.syms, 0 ∉ r'.name := by
      intro r' hr'
      obtain ⟨r, hr, heq⟩ := hsyms r' hr'
      exact heq ▸ (hnames r hr).2
    rw [hout, hprog, DvmFile.dvmWrite_eq_bytes hnul, hbytes]
    exact hf

/-- A file whose only name is the two bytes `a`, NUL: it comes back with a name of one byte. -/
def nulNameFile : List Byte :=
  dvmMagic ++ (dvmTagEntr ++ (fwU32 0 ++ (fwSec dvmTagCnst [] ++ (fwSec dvmTagData [] ++
    (fwSec dvmTagCode [] ++ (dvmTagSyms ++ (fwU32 1 ++ (fieldsBytes 1 2 0 2 ++ ([0x61, 0] ++
      relsBytes [])))))))))

theorem dvmWrite_dvmRead_nulNameFile :
    ¬ ∀ spill s', dvmReadOn spill nulNameFile = .ok () s' →
      nulNameFile = dvmWrite s'.out ++ s'.file := by
  let file : RawFile :=
    { head := ⟨0, [], [], [], 1, by decide, by decide, by decide, by decide⟩
      syms := [⟨1, 2, 0, 2, [0x61, 0], rfl⟩], rels := []
      symsCount := rfl, relsFit := by decide }
  intro h
  have hfile : file.bytes ++ [] = nulNameFile := by decide
  have hread : dvmReadOn (fun ss _ => ss) nulNameFile = .ok () ⟨[], file.prog fun ss _ => ss⟩ := by
    rw [← hfile]
    exact dvmReadOn_bytes _ file []
  exact absurd (h _ _ hread) (by decide)

/-- A `GLOBAL` with a name of 64 bytes comes back as a `LOCAL` then. -/
theorem dvmWrite_dvmRead_longName :
    ∃ f s', dvmReadOn nulInFlags f = .ok () s' ∧ s'.out.syms.map DvmSym.flags = [dvmSymLocal] ∧
      f ≠ dvmWrite s'.out ++ s'.file := by
  let file : RawFile :=
    { head := ⟨0, [], [], [], 1, by decide, by decide, by decide, by decide⟩
      syms := [⟨dvmSymGlobal, 2, 0, 64, List.replicate 64 0x61, rfl⟩], rels := []
      symsCount := rfl, relsFit := by decide }
  exact ⟨file.bytes ++ [], _, dvmReadOn_bytes nulInFlags file [], rfl, by decide⟩

end Dvm
