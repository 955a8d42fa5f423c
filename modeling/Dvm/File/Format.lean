/-
# What `dvm_read` accepts

The layout of `dvm_fmt.h` as a data type: a `DvmFile` is the contents of a well formed file,
with the bounds its fields must keep as fields of the structure, `DvmFile.bytes` is the byte
string the layout gives it, and `DvmFile.prog` the program it stands for.

The reader is specified against it, part by part.  Each `…_ok_iff` says on which bytes a part
of the reader succeeds, what it leaves of the stream and what it puts in the record, and they
compose to `dvmRead_ok_iff`: `dvm_read` succeeds exactly on the files of the format, stops
behind the END tag, and returns the file's program.

A symbol record keeps the name as the bytes that its length byte counts.  In the program the
name is a C string, so it ends at the first NUL among them.
-/
import Mathlib.Data.List.TakeWhile
import Dvm.Io

namespace Dvm

open Bytes FileRead

/-! ## 1. The files of the format -/

/-- A symbol record: its name bytes are fewer than the name array has. -/
structure SymRecord where
  name : List Byte
  flags : Byte
  sec : DvmSection
  offset : BitVec 32
  fits : name.length < dvmSymName

def SymRecord.bytes (r : SymRecord) : List Byte :=
  fwU8 r.flags ++ (fwU8 r.sec ++ (fwU32 r.offset ++
    (fwU8 (BitVec.ofNat 8 r.name.length) ++ r.name)))

/-- The symbol that a record stands for. -/
def SymRecord.sym (r : SymRecord) : DvmSym :=
  ⟨r.name.takeWhile (· ≠ 0), r.flags, r.sec, r.offset⟩

/-- A file up to its symbol records. -/
structure FileHead where
  entryOffset : BitVec 32
  cnst : List Byte
  data : List Byte
  code : List Byte
  nsyms : Nat
  cnstFits : cnst.length < 2 ^ 32
  dataFits : data.length < 2 ^ 32
  codeFits : code.length < 2 ^ 32
  symsFit : nsyms ≤ dvmMaxSyms

def FileHead.bytes (h : FileHead) : List Byte :=
  dvmMagic ++ (dvmTagEntr ++ (fwU32 h.entryOffset ++
    (fwSec dvmTagCnst h.cnst ++ (fwSec dvmTagData h.data ++ (fwSec dvmTagCode h.code ++
      (dvmTagSyms ++ fwU32 (BitVec.ofNat 32 h.nsyms)))))))

/-- What the head puts in the record. -/
def FileHead.putIn (h : FileHead) (p : DvmProg) : DvmProg :=
  { p with entryOffset := h.entryOffset, hasEntry := true,
           cnst := h.cnst, data := h.data, code := h.code }

/-- A whole file. -/
structure DvmFile where
  head : FileHead
  syms : List SymRecord
  rels : List DvmRel
  symsCount : syms.length = head.nsyms
  relsFit : rels.length ≤ dvmMaxRels

/-- The part of a file behind its symbol records. -/
def relsBytes (rels : List DvmRel) : List Byte :=
  dvmTagRels ++ (fwU32 (BitVec.ofNat 32 rels.length) ++ (rels.flatMap fwRel ++ dvmTagEnd))

def DvmFile.bytes (f : DvmFile) : List Byte :=
  f.head.bytes ++ (f.syms.flatMap SymRecord.bytes ++ relsBytes f.rels)

/-- The program a file stands for. -/
def DvmFile.prog (f : DvmFile) : DvmProg :=
  { cnst := f.head.cnst, data := f.head.data, code := f.head.code,
    syms := f.syms.map SymRecord.sym, rels := f.rels,
    entryOffset := f.head.entryOffset, hasEntry := true }

/-! ## 2. Numbers, tags and sections -/

section Fields

variable {s s' : Input DvmProg}

theorem frU8_ok_iff {v : Byte} :
    frU8 s = .ok v s' ↔ s.file = fwU8 v ++ s'.file ∧ s'.out = s.out := by
  rw [frU8, bind_ok_iff]
  constructor
  · rintro ⟨got, s₁, hread, hv⟩
    cases hv
    obtain ⟨hlen, hfile, hout⟩ := freadExact_ok_iff.mp hread
    obtain ⟨b, rfl⟩ := List.length_eq_one_iff.mp hlen
    refine ⟨?_, hout⟩
    rw [hfile, fwU8]
    simp [ofLe]
  · rintro ⟨hfile, hout⟩
    refine ⟨[v], s', freadExact_ok_iff.mpr ⟨rfl, hfile, hout⟩, ?_⟩
    show EStateM.Result.ok (BitVec.ofNat 8 (ofLe [v])) s' = _
    simp [ofLe]

theorem frU32_ok_iff {v : BitVec 32} :
    frU32 s = .ok v s' ↔ s.file = fwU32 v ++ s'.file ∧ s'.out = s.out := by
  rw [frU32, bind_ok_iff]
  constructor
  · rintro ⟨got, s₁, hread, hv⟩
    cases hv
    obtain ⟨hlen, hfile, hout⟩ := freadExact_ok_iff.mp hread
    have hlt : ofLe got < 2 ^ 32 := by
      have := ofLe_lt got
      rw [hlen] at this
      omega
    have hgot : fwU32 (BitVec.ofNat 32 (ofLe got)) = got := by
      rw [fwU32, BitVec.toNat_ofNat, Nat.mod_eq_of_lt hlt, ← hlen, le_ofLe]
    exact ⟨by rw [hgot, hfile], hout⟩
  · rintro ⟨hfile, hout⟩
    refine ⟨fwU32 v, s', freadExact_ok_iff.mpr ⟨length_le 4 v.toNat, hfile, hout⟩, ?_⟩
    show EStateM.Result.ok (BitVec.ofNat 32 (ofLe (fwU32 v))) s' = _
    have hv : ofLe (fwU32 v) = v.toNat := by
      have := v.isLt
      exact ofLe_le_of_lt (by omega)
    rw [hv, BitVec.ofNat_toNat, BitVec.setWidth_eq]

theorem frExpectTag_ok_iff {want : List Byte} (hwant : want.length = 4) {u : Unit} :
    frExpectTag want s = .ok u s' ↔ s.file = want ++ s'.file ∧ s'.out = s.out := by
  rw [frExpectTag, bind_ok_iff]
  constructor
  · rintro ⟨got, s₁, hread, hreq⟩
    obtain ⟨rfl, rfl⟩ := require_ok_iff.mp hreq
    exact (freadExact_ok_iff.mp hread).2
  · rintro ⟨hfile, hout⟩
    exact ⟨want, s', freadExact_ok_iff.mpr ⟨hwant, hfile, hout⟩, require_ok_iff.mpr ⟨rfl, rfl⟩⟩

theorem toNat_ofNat_of_lt {n : Nat} (h : n < 2 ^ 32) : (BitVec.ofNat 32 n).toNat = n := by
  rw [BitVec.toNat_ofNat, Nat.mod_eq_of_lt h]

/-- An empty section has no bytes to read. -/
theorem frSection_ok_iff {d : List Byte} :
    frSection s = .ok d s' ↔
      d.length < 2 ^ 32 ∧ s.file = fwU32 (BitVec.ofNat 32 d.length) ++ (d ++ s'.file) ∧
        s'.out = s.out := by
  rw [frSection, bind_ok_iff]
  constructor
  · rintro ⟨sz, s₁, hsz, hd⟩
    obtain ⟨hfile, hout⟩ := frU32_ok_iff.mp hsz
    split at hd
    · next hz =>
      cases hd
      rw [hz] at hfile
      exact ⟨by decide, hfile, hout⟩
    · obtain ⟨hlen, hfile', hout'⟩ := freadExact_ok_iff.mp hd
      have hsize : BitVec.ofNat 32 d.length = sz := by
        rw [hlen, BitVec.ofNat_toNat, BitVec.setWidth_eq]
      exact ⟨hlen ▸ sz.isLt, by rw [hfile, hfile', hsize], hout'.trans hout⟩
  · rintro ⟨hlt, hfile, hout⟩
    have hsize := toNat_ofNat_of_lt hlt
    refine ⟨_, ⟨d ++ s'.file, s.out⟩, frU32_ok_iff.mpr ⟨hfile, rfl⟩, ?_⟩
    split
    · next hz =>
      rw [hz] at hsize
      obtain rfl : d = [] := List.eq_nil_of_length_eq_zero hsize.symm
      obtain ⟨file', out'⟩ := s'
      cases hout
      rfl
    · exact freadExact_ok_iff.mpr ⟨hsize.symm, rfl, hout⟩

end Fields

/-! ## 3. The records of the two tables -/

section Records

variable {s s' : Input DvmProg}

/-- A name is taken in if it fits its array with the NUL, up to a NUL of its own. -/
theorem frName_ok_iff {nl : Byte} {name : CStr} :
    frName nl s = .ok name s' ↔
      ∃ raw : List Byte, raw.length = nl.toNat ∧ raw.length < dvmSymName ∧
        s.file = raw ++ s'.file ∧ s'.out = s.out ∧ name = raw.takeWhile (· ≠ 0) := by
  obtain ⟨file, out⟩ := s
  rw [frName, bind_ok_iff]
  constructor
  · rintro ⟨got, s₁, hread, hname⟩
    cases hread
    split at hname
    · cases hname
    split at hname
    · cases hname
    · next hlen =>
      split at hname
      · cases hname
      · next hfits =>
        cases hname
        have hlen : (file.take nl.toNat).length = nl.toNat := not_not.mp hlen
        refine ⟨file.take nl.toNat, hlen, ?_, (List.take_append_drop nl.toNat file).symm, rfl, rfl⟩
        rw [hlen]
        exact Nat.lt_of_not_le hfits
  · rintro ⟨raw, hlen, hfits, rfl, rfl, rfl⟩
    refine ⟨raw, s', ?_, ?_⟩
    · rw [← hlen]
      simp [fread]
    · rw [if_neg (Nat.lt_asymm hfits), if_neg (not_not.mpr hlen),
        if_neg (Nat.not_le.mpr (hlen ▸ hfits))]
      rfl

/-- The symbol loop reads one record in each pass. -/
theorem frSym_ok_iff :
    frSym s = .ok () s' ↔ ∃ r : SymRecord, s.file = r.bytes ++ s'.file ∧
      s'.out = { s.out with syms := s.out.syms ++ [r.sym] } := by
  simp only [frSym, bind_ok_iff, frU8_ok_iff, frU32_ok_iff, frName_ok_iff, fill_ok_iff]
  constructor
  · rintro ⟨flags, s₁, ⟨hflags, ho₁⟩, sec, s₂, ⟨hsec, ho₂⟩, offset, s₃, ⟨hoffset, ho₃⟩,
      nl, s₄, ⟨hnl, ho₄⟩, name, s₅, ⟨raw, hlen, hfits, hraw, ho₅, rfl⟩, hfile, ho₆⟩
    have hcount : BitVec.ofNat 8 raw.length = nl := by
      rw [hlen, BitVec.ofNat_toNat, BitVec.setWidth_eq]
    refine ⟨⟨raw, flags, sec, offset, hfits⟩, ?_, ?_⟩
    · simp only [SymRecord.bytes, hflags, hsec, hoffset, hnl, hraw, hcount, hfile,
        List.append_assoc]
    · rw [ho₆, ho₅, ho₄, ho₃, ho₂, ho₁, SymRecord.sym]
  · rintro ⟨⟨raw, flags, sec, offset, hfits⟩, hfile, hout⟩
    have hlen : (BitVec.ofNat 8 raw.length).toNat = raw.length := by
      have : raw.length < 64 := hfits
      rw [BitVec.toNat_ofNat, Nat.mod_eq_of_lt (by omega)]
    simp only [SymRecord.bytes, List.append_assoc] at hfile
    exact ⟨flags, ⟨_, s.out⟩, ⟨hfile, rfl⟩, sec, ⟨_, s.out⟩, ⟨rfl, rfl⟩, offset, ⟨_, s.out⟩,
      ⟨rfl, rfl⟩, _, ⟨_, s.out⟩, ⟨rfl, rfl⟩, _, ⟨s'.file, s.out⟩,
      ⟨raw, hlen.symm, hfits, rfl, rfl, rfl⟩, rfl, hout⟩

theorem frRel_ok_iff :
    frRel s = .ok () s' ↔ ∃ r : DvmRel, s.file = fwRel r ++ s'.file ∧
      s'.out = { s.out with rels := s.out.rels ++ [r] } := by
  simp only [frRel, bind_ok_iff, frU8_ok_iff, frU32_ok_iff, fill_ok_iff]
  constructor
  · rintro ⟨codeOffset, s₁, ⟨hoffset, ho₁⟩, symIndex, s₂, ⟨hindex, ho₂⟩, kind, s₃, ⟨hkind, ho₃⟩,
      hfile, ho₄⟩
    refine ⟨⟨codeOffset, symIndex, kind⟩, ?_, ?_⟩
    · simp only [fwRel, hoffset, hindex, hkind, hfile, List.append_assoc]
    · rw [ho₄, ho₃, ho₂, ho₁]
  · rintro ⟨⟨codeOffset, symIndex, kind⟩, hfile, hout⟩
    simp only [fwRel, List.append_assoc] at hfile
    exact ⟨codeOffset, ⟨_, s.out⟩, ⟨hfile, rfl⟩, symIndex, ⟨_, s.out⟩, ⟨rfl, rfl⟩, kind,
      ⟨s'.file, s.out⟩, ⟨rfl, rfl⟩, rfl, hout⟩

theorem foldl_syms (rs : List SymRecord) (o : DvmProg) :
    rs.foldl (fun o r => { o with syms := o.syms ++ [r.sym] }) o
      = { o with syms := o.syms ++ rs.map SymRecord.sym } := by
  induction rs generalizing o with
  | nil => simp
  | cons r rs ih => rw [List.foldl_cons, ih]; simp

theorem foldl_rels (rs : List DvmRel) (o : DvmProg) :
    rs.foldl (fun o r => { o with rels := o.rels ++ [r] }) o
      = { o with rels := o.rels ++ rs } := by
  induction rs generalizing o with
  | nil => simp
  | cons r rs ih => rw [List.foldl_cons, ih]; simp

/-- The symbol table, by the rule for tables. -/
theorem frSyms_ok_iff {n : Nat} {u : Unit} :
    times frSym n s = .ok u s' ↔ ∃ rs : List SymRecord, rs.length = n ∧
      s.file = rs.flatMap SymRecord.bytes ++ s'.file ∧
        s'.out = { s.out with syms := s.out.syms ++ rs.map SymRecord.sym } := by
  rw [times_ok_iff SymRecord.bytes (fun o r => { o with syms := o.syms ++ [r.sym] })
    fun s s' => frSym_ok_iff]
  simp only [foldl_syms]

theorem frRelTable_ok_iff {n : Nat} {u : Unit} :
    times frRel n s = .ok u s' ↔ ∃ rs : List DvmRel, rs.length = n ∧
      s.file = rs.flatMap fwRel ++ s'.file ∧
        s'.out = { s.out with rels := s.out.rels ++ rs } := by
  rw [times_ok_iff fwRel (fun o r => { o with rels := o.rels ++ [r] }) fun s s' => frRel_ok_iff]
  simp only [foldl_rels]

end Records

/-! ## 4. The head of the file -/

/-- A tagged section, assigned to the record. -/
def frTagged (tag : List Byte) (put : DvmProg → List Byte → DvmProg) : ReadM Unit := do
  frExpectTag tag
  let d ← frSection
  fill fun p => put p d

/-- A count behind a tag, with the bound of its table. -/
def frCount (tag : List Byte) (bound : Nat) : ReadM Nat := do
  frExpectTag tag
  let n ← frU32
  require .short (n.toNat ≤ bound)
  pure n.toNat

/-- The reader up to the symbol loop: the number of records to read. -/
def frHead : ReadM Nat := do
  let magic ← freadExact (.fail "dvm: bad magic") 4
  require (.fail "dvm: bad magic") (magic = dvmMagic)
  frExpectTag dvmTagEntr
  let entry ← frU32
  fill fun p => { p with entryOffset := entry, hasEntry := true }
  frTagged dvmTagCnst fun p d => { p with cnst := d }
  frTagged dvmTagData fun p d => { p with data := d }
  frTagged dvmTagCode fun p d => { p with code := d }
  frCount dvmTagSyms dvmMaxSyms

/-- The reader behind the symbol loop. -/
def frRels : ReadM Unit := do
  let n ← frCount dvmTagRels dvmMaxRels
  times frRel n
  frExpectTag dvmTagEnd

theorem dvmReadBody_eq :
    dvmReadBody = frHead >>= fun n => times frSym n >>= fun _ => frRels := by
  simp only [dvmReadBody, frHead, frRels, frTagged, frCount, bind_assoc, pure_bind]

section Whole

variable {s s' : Input DvmProg}

theorem frTagged_ok_iff {tag : List Byte} (htag : tag.length = 4)
    {put : DvmProg → List Byte → DvmProg} {u : Unit} :
    frTagged tag put s = .ok u s' ↔ ∃ d : List Byte, d.length < 2 ^ 32 ∧
      s.file = fwSec tag d ++ s'.file ∧ s'.out = put s.out d := by
  simp only [frTagged, bind_ok_iff, frExpectTag_ok_iff htag, frSection_ok_iff, fill_ok_iff]
  constructor
  · rintro ⟨⟨⟩, s₁, ⟨htag, ho₁⟩, d, s₂, ⟨hlt, hsec, ho₂⟩, hfile, ho₃⟩
    refine ⟨d, hlt, ?_, ?_⟩
    · simp only [fwSec, htag, hsec, hfile, List.append_assoc]
    · rw [ho₃, ho₂, ho₁]
  · rintro ⟨d, hlt, hfile, hout⟩
    simp only [fwSec, List.append_assoc] at hfile
    exact ⟨(), ⟨_, s.out⟩, ⟨hfile, rfl⟩, d, ⟨s'.file, s.out⟩, ⟨hlt, rfl, rfl⟩, rfl, hout⟩

theorem frCount_ok_iff {tag : List Byte} (htag : tag.length = 4) {bound : Nat}
    (hbound : bound < 2 ^ 32) {n : Nat} :
    frCount tag bound s = .ok n s' ↔ n ≤ bound ∧
      s.file = tag ++ (fwU32 (BitVec.ofNat 32 n) ++ s'.file) ∧ s'.out = s.out := by
  simp only [frCount, bind_ok_iff, frExpectTag_ok_iff htag, frU32_ok_iff, require_ok_iff]
  constructor
  · rintro ⟨⟨⟩, s₁, ⟨htag, ho₁⟩, v, s₂, ⟨hv, ho₂⟩, ⟨⟩, s₃, ⟨hle, rfl⟩, hn⟩
    cases hn
    rw [BitVec.ofNat_toNat, BitVec.setWidth_eq]
    exact ⟨hle, by rw [htag, hv], ho₂.trans ho₁⟩
  · rintro ⟨hle, hfile, hout⟩
    have hn := toNat_ofNat_of_lt (Nat.lt_of_le_of_lt hle hbound)
    refine ⟨(), ⟨_, s.out⟩, ⟨hfile, rfl⟩, _, s', ⟨rfl, hout⟩, (), s', ⟨hn.trans_le hle, rfl⟩, ?_⟩
    rw [hn]
    rfl

theorem length_dvmTagEntr : dvmTagEntr.length = 4 := rfl
theorem length_dvmTagCnst : dvmTagCnst.length = 4 := rfl
theorem length_dvmTagData : dvmTagData.length = 4 := rfl
theorem length_dvmTagCode : dvmTagCode.length = 4 := rfl
theorem length_dvmTagSyms : dvmTagSyms.length = 4 := rfl
theorem length_dvmTagRels : dvmTagRels.length = 4 := rfl
theorem length_dvmTagEnd : dvmTagEnd.length = 4 := rfl

theorem frHead_ok_iff {n : Nat} :
    frHead s = .ok n s' ↔ ∃ h : FileHead, h.nsyms = n ∧ s.file = h.bytes ++ s'.file ∧
      s'.out = h.putIn s.out := by
  simp only [frHead, bind_ok_iff, freadExact_ok_iff, require_ok_iff,
    frExpectTag_ok_iff length_dvmTagEntr, frU32_ok_iff, fill_ok_iff,
    frTagged_ok_iff length_dvmTagCnst, frTagged_ok_iff length_dvmTagData,
    frTagged_ok_iff length_dvmTagCode,
    frCount_ok_iff length_dvmTagSyms (show dvmMaxSyms < 2 ^ 32 by decide)]
  constructor
  · rintro ⟨magic, s₁, ⟨-, hmagic, ho₁⟩, ⟨⟩, s₂, ⟨rfl, rfl⟩, ⟨⟩, s₃, ⟨hentr, ho₃⟩, entry, s₄,
      ⟨hentry, ho₄⟩, ⟨⟩, s₅, ⟨hf₅, ho₅⟩, ⟨⟩, s₆, ⟨cnst, hcnst, hf₆, ho₆⟩, ⟨⟩, s₇,
      ⟨data, hdata, hf₇, ho₇⟩, ⟨⟩, s₈, ⟨code, hcode, hf₈, ho₈⟩, hle, hf₉, ho₉⟩
    refine ⟨⟨entry, cnst, data, code, n, hcnst, hdata, hcode, hle⟩, rfl, ?_, ?_⟩
    · simp only [FileHead.bytes, hmagic, hentr, hentry, ← hf₅, hf₆, hf₇, hf₈, hf₉,
        List.append_assoc]
    · rw [ho₉, ho₈, ho₇, ho₆, ho₅, ho₄, ho₃, ho₁]
      rfl
  · rintro ⟨⟨entry, cnst, data, code, n, hcnst, hdata, hcode, hle⟩, rfl, hfile, hout⟩
    simp only [FileHead.bytes, List.append_assoc] at hfile
    refine ⟨dvmMagic, ⟨_, s.out⟩, ⟨rfl, hfile, rfl⟩, (), _, ⟨rfl, rfl⟩, (), ⟨_, s.out⟩, ⟨rfl, rfl⟩,
      entry, ⟨_, s.out⟩, ⟨rfl, rfl⟩, ?_⟩
    refine ⟨(), ⟨_, { s.out with entryOffset := entry, hasEntry := true }⟩, ⟨rfl, rfl⟩, ?_⟩
    refine ⟨(), ⟨_, { s.out with entryOffset := entry, hasEntry := true, cnst := cnst }⟩,
      ⟨cnst, hcnst, rfl, rfl⟩, ?_⟩
    refine ⟨(), ⟨_, { s.out with
      entryOffset := entry, hasEntry := true, cnst := cnst, data := data }⟩,
      ⟨data, hdata, rfl, rfl⟩, ?_⟩
    exact ⟨(), ⟨_, _⟩, ⟨code, hcode, rfl, rfl⟩, hle, rfl, hout⟩

theorem frRels_ok_iff {u : Unit} :
    frRels s = .ok u s' ↔ ∃ rels : List DvmRel, rels.length ≤ dvmMaxRels ∧
      s.file = relsBytes rels ++ s'.file ∧
        s'.out = { s.out with rels := s.out.rels ++ rels } := by
  simp only [frRels, bind_ok_iff,
    frCount_ok_iff length_dvmTagRels (show dvmMaxRels < 2 ^ 32 by decide),
    frRelTable_ok_iff, frExpectTag_ok_iff length_dvmTagEnd]
  constructor
  · rintro ⟨n, s₁, ⟨hle, hf₁, ho₁⟩, ⟨⟩, s₂, ⟨rels, rfl, hf₂, ho₂⟩, hf₃, ho₃⟩
    refine ⟨rels, hle, ?_, ?_⟩
    · simp only [relsBytes, hf₁, hf₂, hf₃, List.append_assoc]
    · rw [ho₃, ho₂, ho₁]
  · rintro ⟨rels, hle, hfile, hout⟩
    simp only [relsBytes, List.append_assoc] at hfile
    exact ⟨rels.length, ⟨_, s.out⟩, ⟨hle, hfile, rfl⟩, (), ⟨_, _⟩, ⟨rels, rfl, rfl, rfl⟩, rfl, hout⟩

end Whole

/-! ## 5. The whole file -/

/-- `dvm_read` succeeds exactly on the files of the format: it stops behind the END tag and
returns the program the file stands for. -/
theorem dvmRead_ok_iff {f : List Byte} {s' : Input DvmProg} :
    dvmRead f = .ok () s' ↔
      ∃ file : DvmFile, f = file.bytes ++ s'.file ∧ s'.out = file.prog := by
  rw [dvmRead, dvmReadBody_eq]
  simp only [bind_ok_iff, frHead_ok_iff, frSyms_ok_iff, frRels_ok_iff]
  constructor
  · rintro ⟨n, s₁, ⟨head, hn, hf₁, ho₁⟩, ⟨⟩, s₂, ⟨rs, hlen, hf₂, ho₂⟩, rels, hle, hf₃, ho₃⟩
    refine ⟨⟨head, rs, rels, hlen.trans hn.symm, hle⟩, ?_, ?_⟩
    · simp only [DvmFile.bytes, hf₁, hf₂, hf₃, List.append_assoc]
    · rw [ho₃, ho₂, ho₁]
      simp [FileHead.putIn, DvmFile.prog]
  · rintro ⟨⟨head, rs, rels, hlen, hle⟩, rfl, hout⟩
    simp only [DvmFile.bytes, List.append_assoc]
    refine ⟨_, ⟨_, _⟩, ⟨head, rfl, rfl, rfl⟩, (), ⟨_, _⟩, ⟨rs, hlen, rfl, rfl⟩, rels, hle, rfl, ?_⟩
    rw [hout]
    simp [DvmFile.prog]

end Dvm
