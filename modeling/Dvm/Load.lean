/-
# The loader

`dvm_load` of `dvm_io.c` copies the three sections into memory it maps for them and applies the
relocations there, one store for each.  Memory is a flat address space, so that a store that
misses the code section is seen for what it is.  The addresses `dvm_mmap` returns are a
parameter; it is taken to succeed.  The program being loaded is not part of that memory.

The loader checks that the symbol of each relocation can be resolved.  It checks neither where
the relocation patches nor where the program is entered, and it has patched the relocations in
front of one that it rejects: `loadSafe_iff` is what that leaves.
-/
import Dvm.Base.ByteMem
import Dvm.Base.Loops
import Dvm.Fmt

namespace Dvm

open Bytes ByteMem Loops

/-! ## 1. `dvm_load` -/

/-- The addresses `dvm_mmap` returns for the three sections. -/
structure LoadMaps where
  cnst : Word
  data : Word
  code : Word

/-- The loaded program: a section's pointer, `none` for NULL, and its length. -/
structure DvmLoaded where
  cnst : Option Word
  cnstLen : Nat
  data : Option Word
  dataLen : Nat
  code : Option Word
  codeLen : Nat
  entryOffset : BitVec 32

/-- The error messages of `dvm_load`. -/
inductive LoadError where
  | emptyCode
  | symIndexOutOfRange (index : BitVec 32)
  | unresolvedExtern (name : CStr)
  | emptySection (name : CStr)

/-- Where a section is mapped; an empty one is not. -/
def mapped (a : Word) (bs : List Byte) : Option Word := if bs.length = 0 then none else some a

/-- `bases[sec]`; the array has three elements. -/
def LoadMaps.bases (maps : LoadMaps) (p : DvmProg) (sec : DvmSection) : Option Word :=
  if sec = dvmSecCnst then mapped maps.cnst p.cnst
  else if sec = dvmSecData then mapped maps.data p.data
  else if sec = dvmSecCode then mapped maps.code p.code
  else none

/-- The bytes stored for a relocation of symbol `s`, whose section is mapped at `base`. -/
def relValue (base : Word) (s : DvmSym) (r : DvmRel) : List Byte :=
  if r.kind = dvmRelCode then le 4 s.offset.toNat
  else le 8 (base + s.offset.setWidth 64).toNat

/-- One iteration of the relocation loop. -/
def applyRel (maps : LoadMaps) (p : DvmProg) (m : Mem) (r : DvmRel) : Except LoadError Mem :=
  match p.syms[r.symIndex.toNat]? with
  | none => .error (.symIndexOutOfRange r.symIndex)
  | some s =>
    if s.flags = dvmSymExtern ∨ s.sec = dvmSecNone then .error (.unresolvedExtern s.name)
    else match maps.bases p s.sec with
      | none => .error (.emptySection s.name)
      | some base => .ok (writeBytes m (maps.code + r.codeOffset.setWidth 64) (relValue base s r))

/-- Memory with the sections copied into it.  `memcpy` of an empty section is not called. -/
def copySections (maps : LoadMaps) (m : Mem) (p : DvmProg) : Mem :=
  writeBytes (writeBytes (writeBytes m maps.cnst p.cnst) maps.data p.data) maps.code p.code

def loadedProg (maps : LoadMaps) (p : DvmProg) : DvmLoaded where
  cnst := mapped maps.cnst p.cnst
  cnstLen := p.cnst.length
  data := mapped maps.data p.data
  dataLen := p.data.length
  code := mapped maps.code p.code
  codeLen := p.code.length
  entryOffset := p.entryOffset

/-- On success, the loaded program and the memory it lies in. -/
def dvmLoad (maps : LoadMaps) (m : Mem) (p : DvmProg) : Except LoadError (DvmLoaded × Mem) :=
  if p.code.length = 0 then .error .emptyCode
  else match p.rels.foldlM (applyRel maps p) (copySections maps m p) with
    | .error e => .error e
    | .ok m' => .ok (loadedProg maps p, m')

/-! ## 2. What it accepts and what it stores -/

/-- The sections that hold bytes. -/
def DvmProg.HasSec (p : DvmProg) (sec : DvmSection) : Prop :=
  (sec = dvmSecCnst ∧ p.cnst ≠ []) ∨ (sec = dvmSecData ∧ p.data ≠ []) ∨
    (sec = dvmSecCode ∧ p.code ≠ [])

/-- What the loader checks of a relocation: its symbol exists, is no extern, and lies in a
section that is not empty. -/
def Relocatable (p : DvmProg) (r : DvmRel) : Prop :=
  ∃ s, p.syms[r.symIndex.toNat]? = some s ∧ s.flags ≠ dvmSymExtern ∧ p.HasSec s.sec

/-- Where a loaded section is mapped. -/
def LoadMaps.addr (maps : LoadMaps) (sec : DvmSection) : Word :=
  if sec = dvmSecCnst then maps.cnst else if sec = dvmSecData then maps.data else maps.code

theorem LoadMaps.bases_eq_addr (maps : LoadMaps) {p : DvmProg} {sec : DvmSection}
    (h : p.HasSec sec) : maps.bases p sec = some (maps.addr sec) := by
  have hmapped : ∀ (a : Word) {bs : List Byte}, bs ≠ [] → mapped a bs = some a := by
    intro a bs hbs
    exact if_neg (mt List.length_eq_zero_iff.mp hbs)
  rcases h with ⟨rfl, hbs⟩ | ⟨rfl, hbs⟩ | ⟨rfl, hbs⟩
  · exact hmapped maps.cnst hbs
  · exact hmapped maps.data hbs
  · exact hmapped maps.code hbs

theorem bases_eq_some_iff {maps : LoadMaps} {p : DvmProg} {sec : DvmSection} :
    (∃ base, maps.bases p sec = some base) ↔ p.HasSec sec := by
  have hmapped : ∀ (a : Word) (bs : List Byte), (∃ base, mapped a bs = some base) ↔ bs ≠ [] := by
    intro a bs
    cases bs <;> simp [mapped]
  unfold LoadMaps.bases DvmProg.HasSec
  by_cases h₀ : sec = dvmSecCnst
  · subst h₀
    simpa [dvmSecCnst, dvmSecData, dvmSecCode] using hmapped maps.cnst p.cnst
  by_cases h₁ : sec = dvmSecData
  · subst h₁
    simpa [dvmSecCnst, dvmSecData, dvmSecCode] using hmapped maps.data p.data
  by_cases h₂ : sec = dvmSecCode
  · subst h₂
    simpa [dvmSecCnst, dvmSecData, dvmSecCode] using hmapped maps.code p.code
  simp [h₀, h₁, h₂]

/-- The bytes the loader stores for a relocation. -/
def relBytes (maps : LoadMaps) (p : DvmProg) (r : DvmRel) : List Byte :=
  match p.syms[r.symIndex.toNat]? with
  | none => []
  | some s => ((maps.bases p s.sec).map fun base => relValue base s r).getD []

/-- The store itself. -/
def storeRel (maps : LoadMaps) (p : DvmProg) (m : Mem) (r : DvmRel) : Mem :=
  writeBytes m (maps.code + r.codeOffset.setWidth 64) (relBytes maps p r)

theorem length_relValue (base : Word) (s : DvmSym) (r : DvmRel) :
    (relValue base s r).length = r.width := by
  unfold relValue DvmRel.width
  split <;> exact length_le _ _

theorem length_relBytes_le (maps : LoadMaps) (p : DvmProg) (r : DvmRel) :
    (relBytes maps p r).length ≤ r.width := by
  unfold relBytes
  split
  · exact Nat.zero_le _
  · next s _ =>
    cases maps.bases p s.sec with
    | none => exact Nat.zero_le _
    | some base => exact Nat.le_of_eq (length_relValue base s r)

/-- One iteration succeeds exactly if the relocation's symbol resolves. -/
theorem applyRel_ok_iff {maps : LoadMaps} {p : DvmProg} {m m' : Mem} {r : DvmRel} :
    applyRel maps p m r = .ok m' ↔ Relocatable p r ∧ m' = storeRel maps p m r := by
  unfold applyRel Relocatable storeRel relBytes
  cases hs : p.syms[r.symIndex.toNat]? with
  | none => simp
  | some s =>
    have hbase : (∃ base, maps.bases p s.sec = some base) ↔ p.HasSec s.sec := bases_eq_some_iff
    by_cases hx : s.flags = dvmSymExtern ∨ s.sec = dvmSecNone
    · have hno : ¬ (s.flags ≠ dvmSymExtern ∧ p.HasSec s.sec) := by
        rintro ⟨hf, hsec⟩
        have hnone := hx.resolve_left hf
        rw [hnone] at hsec
        simp [DvmProg.HasSec, dvmSecNone, dvmSecCnst, dvmSecData, dvmSecCode] at hsec
      simp only [if_pos hx, reduceCtorEq, Option.some.injEq, exists_eq_left', false_iff]
      exact fun h => hno h.1
    · rw [not_or] at hx
      simp only [if_neg (not_or.mpr hx), Option.some.injEq, exists_eq_left', ← hbase]
      cases hb : maps.bases p s.sec with
      | none => simp
      | some base => simp [hx.1, eq_comm]

theorem foldlM_applyRel_ok_iff {maps : LoadMaps} {p : DvmProg} {rs : List DvmRel} {m m' : Mem} :
    rs.foldlM (applyRel maps p) m = .ok m' ↔
      (∀ r ∈ rs, Relocatable p r) ∧ m' = rs.foldl (storeRel maps p) m := by
  induction rs generalizing m with
  | nil => simp [pure, Except.pure, eq_comm]
  | cons r rs ih =>
    rw [foldlM_cons_ok_iff, List.forall_mem_cons, List.foldl_cons]
    constructor
    · rintro ⟨m₁, h₁, h₂⟩
      obtain ⟨hr, rfl⟩ := applyRel_ok_iff.mp h₁
      obtain ⟨hrs, hm⟩ := ih.mp h₂
      exact ⟨⟨hr, hrs⟩, hm⟩
    · rintro ⟨⟨hr, hrs⟩, hm⟩
      exact ⟨_, applyRel_ok_iff.mpr ⟨hr, rfl⟩, ih.mpr ⟨hrs, hm⟩⟩

/-- A program is loaded exactly if it has code and every relocation's symbol resolves; its
relocations are then stored in table order. -/
theorem dvmLoad_ok_iff {maps : LoadMaps} {m m' : Mem} {p : DvmProg} {l : DvmLoaded} :
    dvmLoad maps m p = .ok (l, m') ↔
      p.code ≠ [] ∧ (∀ r ∈ p.rels, Relocatable p r) ∧ l = loadedProg maps p ∧
        m' = p.rels.foldl (storeRel maps p) (copySections maps m p) := by
  unfold dvmLoad
  by_cases hc : p.code = []
  · simp [hc]
  · rw [if_neg (by simpa using hc)]
    have hiff := @foldlM_applyRel_ok_iff maps p p.rels (copySections maps m p)
    cases hf : p.rels.foldlM (applyRel maps p) (copySections maps m p) with
    | error e =>
      have hno : ¬ ∀ r ∈ p.rels, Relocatable p r := fun hall => by
        have h := hiff.mpr ⟨hall, rfl⟩
        rw [hf] at h
        cases h
      simp [hno]
    | ok m₁ =>
      obtain ⟨hall, hm⟩ := hiff.mp hf
      simp only [Except.ok.injEq, Prod.mk.injEq, ne_eq, hc, not_false_eq_true, true_and, ← hm]
      exact ⟨fun h => ⟨hall, h.1.symm, h.2.symm⟩, fun h => ⟨h.2.1.symm, h.2.2.symm⟩⟩

/-! ## 3. Where it stores -/

/-- Every relocation patches bytes of the code section only. -/
def PatchesInside (p : DvmProg) : Prop :=
  ∀ r ∈ p.rels, r.codeOffset.toNat + r.width ≤ p.code.length

/-- What the relocations store, and where in the code section. -/
def relStores (maps : LoadMaps) (p : DvmProg) : List (Nat × List Byte) :=
  p.rels.map fun r => (r.codeOffset.toNat, relBytes maps p r)

theorem relStores_fit {p : DvmProg} (hin : PatchesInside p) (maps : LoadMaps) :
    ∀ x ∈ relStores maps p, x.1 + x.2.length ≤ p.code.length := by
  intro x hx
  obtain ⟨r, hr, rfl⟩ := List.mem_map.mp hx
  have hwidth := length_relBytes_le maps p r
  have hfit := hin r hr
  simp only
  omega

/-- A program that is loaded stores the value of its relocation's symbol. -/
theorem relBytes_of_dvmLoad {maps : LoadMaps} {m m' : Mem} {p : DvmProg} {l : DvmLoaded}
    (h : dvmLoad maps m p = .ok (l, m')) {r : DvmRel} (hr : r ∈ p.rels) {s : DvmSym}
    (hs : p.syms[r.symIndex.toNat]? = some s) :
    relBytes maps p r = relValue (maps.addr s.sec) s r := by
  obtain ⟨-, hall, -, -⟩ := dvmLoad_ok_iff.mp h
  obtain ⟨s', hs', -, hsec⟩ := hall r hr
  obtain rfl := Option.some.inj (hs.symm.trans hs')
  rw [relBytes, hs]
  simp only [maps.bases_eq_addr hsec, Option.map_some, Option.getD_some]

/-- The loaded code section: the program's, patched by the relocations in table order. -/
theorem dvmLoad_code {maps : LoadMaps} {m m' : Mem} {p : DvmProg} {l : DvmLoaded}
    (h : dvmLoad maps m p = .ok (l, m')) (hin : PatchesInside p)
    (hlen : p.code.length < 2 ^ 64) :
    readBytes m' maps.code p.code.length = patchAll p.code (relStores maps p) := by
  obtain ⟨-, -, -, rfl⟩ := dvmLoad_ok_iff.mp h
  rw [relStores, patchAll, List.foldl_map]
  have hcopy : readBytes (copySections maps m p) maps.code p.code.length = p.code :=
    readBytes_writeBytes_self _ _ hlen
  rw [PatchesInside] at hin
  generalize copySections maps m p = m₀ at hcopy
  conv_rhs => rw [← hcopy]
  clear hcopy h
  generalize p.rels = rs at hin
  induction rs generalizing m₀ with
  | nil => rfl
  | cons r rs ih =>
    obtain ⟨hr, hrs⟩ := List.forall_mem_cons.mp hin
    have hstore : readBytes (storeRel maps p m₀ r) maps.code p.code.length
        = patch (readBytes m₀ maps.code p.code.length) r.codeOffset.toNat (relBytes maps p r) := by
      have hwidth := length_relBytes_le maps p r
      rw [storeRel, ← BitVec.ofNat_toNat]
      exact readBytes_writeBytes (by omega) hlen
    rw [List.foldl_cons, List.foldl_cons, ih _ hrs, hstore]

/-- The relocations store to the code section only. -/
theorem foldl_storeRel_outside {maps : LoadMaps} {p : DvmProg} {rs : List DvmRel}
    (hin : ∀ r ∈ rs, r.codeOffset.toNat + r.width ≤ p.code.length)
    (hlen : p.code.length < 2 ^ 64) {x : Word} (hx : ¬ InBlock maps.code p.code.length x)
    (m : Mem) : rs.foldl (storeRel maps p) m x = m x := by
  induction rs generalizing m with
  | nil => rfl
  | cons r rs ih =>
    obtain ⟨hr, hrs⟩ := List.forall_mem_cons.mp hin
    have hwidth := length_relBytes_le maps p r
    rw [List.foldl_cons, ih hrs, storeRel]
    refine writeBytes_of_not_inBlock _ fun hmem => hx ?_
    rw [← BitVec.ofNat_toNat] at hmem
    exact inBlock_of_sub (by omega) hlen hmem

/-- Memory outside the three mapped sections stays as it was. -/
theorem dvmLoad_frame {maps : LoadMaps} {m m' : Mem} {p : DvmProg} {l : DvmLoaded}
    (h : dvmLoad maps m p = .ok (l, m')) (hin : PatchesInside p)
    (hlen : p.code.length < 2 ^ 64) {x : Word} (hc : ¬ InBlock maps.cnst p.cnst.length x)
    (hd : ¬ InBlock maps.data p.data.length x) (hx : ¬ InBlock maps.code p.code.length x) :
    m' x = m x := by
  obtain ⟨-, -, -, rfl⟩ := dvmLoad_ok_iff.mp h
  rw [foldl_storeRel_outside hin hlen hx, copySections, writeBytes_of_not_inBlock _ hx,
    writeBytes_of_not_inBlock _ hd, writeBytes_of_not_inBlock _ hc]

/-- The sections are mapped to blocks that do not overlap, as `mmap` does. -/
structure LoadMaps.Apart (maps : LoadMaps) (p : DvmProg) : Prop where
  cnst_fits : p.cnst.length < 2 ^ 64
  data_fits : p.data.length < 2 ^ 64
  code_fits : p.code.length < 2 ^ 64
  cnst_data : ∀ x, InBlock maps.cnst p.cnst.length x → ¬ InBlock maps.data p.data.length x
  cnst_code : ∀ x, InBlock maps.cnst p.cnst.length x → ¬ InBlock maps.code p.code.length x
  data_code : ∀ x, InBlock maps.data p.data.length x → ¬ InBlock maps.code p.code.length x

/-- The loaded `cnst` section is the program's. -/
theorem dvmLoad_cnst {maps : LoadMaps} {m m' : Mem} {p : DvmProg} {l : DvmLoaded}
    (h : dvmLoad maps m p = .ok (l, m')) (hin : PatchesInside p) (hmaps : maps.Apart p) :
    readBytes m' maps.cnst p.cnst.length = p.cnst := by
  obtain ⟨-, -, -, rfl⟩ := dvmLoad_ok_iff.mp h
  refine (readBytes_congr hmaps.cnst_fits ?_).trans
    (readBytes_writeBytes_self m maps.cnst hmaps.cnst_fits)
  intro x hx
  rw [foldl_storeRel_outside hin hmaps.code_fits (hmaps.cnst_code x hx), copySections,
    writeBytes_of_not_inBlock _ (hmaps.cnst_code x hx),
    writeBytes_of_not_inBlock _ (hmaps.cnst_data x hx)]

/-- So is the loaded `data` section. -/
theorem dvmLoad_data {maps : LoadMaps} {m m' : Mem} {p : DvmProg} {l : DvmLoaded}
    (h : dvmLoad maps m p = .ok (l, m')) (hin : PatchesInside p) (hmaps : maps.Apart p) :
    readBytes m' maps.data p.data.length = p.data := by
  obtain ⟨-, -, -, rfl⟩ := dvmLoad_ok_iff.mp h
  refine (readBytes_congr hmaps.data_fits ?_).trans
    (readBytes_writeBytes_self (writeBytes m maps.cnst p.cnst) maps.data hmaps.data_fits)
  intro x hx
  rw [foldl_storeRel_outside hin hmaps.code_fits (hmaps.data_code x hx), copySections,
    writeBytes_of_not_inBlock _ (hmaps.data_code x hx)]

/-- Relocations whose stores do not overlap can be carried out in any order. -/
theorem dvmLoad_perm {maps : LoadMaps} {m m' : Mem} {p : DvmProg} {l : DvmLoaded}
    (h : dvmLoad maps m p = .ok (l, m')) (hin : PatchesInside p)
    (hlen : p.code.length < 2 ^ 64)
    (hsep : ∀ r ∈ p.rels, ∀ r' ∈ p.rels, r = r' ∨
      r.codeOffset.toNat + r.width ≤ r'.codeOffset.toNat ∨
      r'.codeOffset.toNat + r'.width ≤ r.codeOffset.toNat)
    {rels : List DvmRel} (hperm : rels.Perm p.rels) :
    dvmLoad maps m { p with rels := rels } = .ok (l, m') := by
  obtain ⟨hcode, hall, rfl, rfl⟩ := dvmLoad_ok_iff.mp h
  refine dvmLoad_ok_iff.mpr ⟨hcode, fun r hr => hall r (hperm.mem_iff.mp hr), rfl, ?_⟩
  refine hperm.symm.foldl_eq' ?_ _
  intro r hr r' hr' m₁
  rcases hsep r hr r' hr' with rfl | hapart
  · rfl
  · have hfit := hin r hr
    have hfit' := hin r' hr'
    have hwidth := length_relBytes_le maps p r
    have hwidth' := length_relBytes_le maps p r'
    unfold storeRel
    refine writeBytes_comm m₁ ?_
    intro x hx
    rw [← BitVec.ofNat_toNat] at hx ⊢
    exact not_inBlock_of_sep (by omega) (by omega) (by omega) hx

/-! ## 4. The stores of a load that fails

`dvmLoad` keeps the memory of a successful load only.  The loop stores relocation after
relocation, and the stores in front of the one it rejects have been made. -/

/-- A load up to its end: the memory it leaves, the relocations it has carried out, and the
error with which it returns 0. -/
structure LoadRun where
  mem : Mem
  done : List DvmRel
  error : Option LoadError

/-- The relocation loop. -/
def relocate (maps : LoadMaps) (p : DvmProg) (m : Mem) : List DvmRel → LoadRun
  | [] => ⟨m, [], none⟩
  | r :: rs =>
    match applyRel maps p m r with
    | .error e => ⟨m, [], some e⟩
    | .ok m' =>
      let run := relocate maps p m' rs
      { run with done := r :: run.done }

/-- `dvm_load` with all it has stored when it returns. -/
def dvmLoadRun (maps : LoadMaps) (m : Mem) (p : DvmProg) : LoadRun :=
  if p.code.length = 0 then
    ⟨writeBytes (writeBytes m maps.cnst p.cnst) maps.data p.data, [], some .emptyCode⟩
  else relocate maps p (copySections maps m p) p.rels

theorem foldlM_applyRel_eq (maps : LoadMaps) (p : DvmProg) (m : Mem) (rs : List DvmRel) :
    rs.foldlM (applyRel maps p) m = match (relocate maps p m rs).error with
      | some e => .error e
      | none => .ok (relocate maps p m rs).mem := by
  induction rs generalizing m with
  | nil => rfl
  | cons r rs ih =>
    rw [List.foldlM_cons, relocate]
    cases happly : applyRel maps p m r with
    | error e => rfl
    | ok m₁ => exact ih m₁

/-- `dvmLoad` is what the run returns. -/
theorem dvmLoad_eq_run (maps : LoadMaps) (m : Mem) (p : DvmProg) :
    dvmLoad maps m p = match (dvmLoadRun maps m p).error with
      | some e => .error e
      | none => .ok (loadedProg maps p, (dvmLoadRun maps m p).mem) := by
  unfold dvmLoad dvmLoadRun
  by_cases hcode : p.code.length = 0
  · rw [if_pos hcode, if_pos hcode]
  · rw [if_neg hcode, if_neg hcode, foldlM_applyRel_eq]
    cases (relocate maps p (copySections maps m p) p.rels).error <;> rfl

instance (p : DvmProg) (sec : DvmSection) : Decidable (p.HasSec sec) :=
  inferInstanceAs (Decidable (_ ∨ _))

instance (p : DvmProg) (r : DvmRel) : Decidable (Relocatable p r) :=
  decidable_of_iff
    (p.syms[r.symIndex.toNat]?.any fun s => s.flags ≠ dvmSymExtern ∧ p.HasSec s.sec)
    (by simp [Relocatable, Option.any_eq_true])

/-- The loop carries out the relocations in front of the first one that does not resolve. -/
theorem relocate_done (maps : LoadMaps) (p : DvmProg) (m : Mem) (rs : List DvmRel) :
    (relocate maps p m rs).done = rs.takeWhile (Relocatable p) := by
  induction rs generalizing m with
  | nil => rfl
  | cons r rs ih =>
    rw [relocate]
    cases happly : applyRel maps p m r with
    | error e =>
      have hno : ¬ Relocatable p r := by
        intro hr
        rw [applyRel_ok_iff.mpr ⟨hr, rfl⟩] at happly
        cases happly
      rw [List.takeWhile_cons_of_neg (by simpa using hno)]
    | ok m₁ =>
      have hr := (applyRel_ok_iff.mp happly).1
      rw [List.takeWhile_cons_of_pos (by simpa using hr), ← ih m₁]

/-- The memory it leaves is that of their stores. -/
theorem relocate_mem (maps : LoadMaps) (p : DvmProg) (m : Mem) (rs : List DvmRel) :
    (relocate maps p m rs).mem = (relocate maps p m rs).done.foldl (storeRel maps p) m := by
  induction rs generalizing m with
  | nil => rfl
  | cons r rs ih =>
    rw [relocate]
    cases happly : applyRel maps p m r with
    | error e => rfl
    | ok m₁ =>
      obtain ⟨-, rfl⟩ := applyRel_ok_iff.mp happly
      exact ih _

theorem dvmLoadRun_done {maps : LoadMaps} {m : Mem} {p : DvmProg} (hcode : p.code ≠ []) :
    (dvmLoadRun maps m p).done = p.rels.takeWhile (Relocatable p) := by
  rw [dvmLoadRun, if_neg (by simpa using hcode), relocate_done]

/-! ## 5. What it leaves unchecked -/

/-- Every load of the program, also one that ends with an error, patches code bytes only, and
one that succeeds enters the code section. -/
def LoadSafe (p : DvmProg) : Prop :=
  ∀ maps m,
    (∀ r ∈ (dvmLoadRun maps m p).done, r.codeOffset.toNat + r.width ≤ p.code.length) ∧
      ∀ l m', dvmLoad maps m p = .ok (l, m') → l.entryOffset.toNat < l.codeLen

/-- Such a load changes no memory outside the mapped sections, whatever it returns. -/
theorem LoadSafe.frame {p : DvmProg} (h : LoadSafe p) {maps : LoadMaps} {m : Mem}
    (hlen : p.code.length < 2 ^ 64) {x : Word} (hc : ¬ InBlock maps.cnst p.cnst.length x)
    (hd : ¬ InBlock maps.data p.data.length x) (hx : ¬ InBlock maps.code p.code.length x) :
    (dvmLoadRun maps m p).mem x = m x := by
  have hdone := (h maps m).1
  revert hdone
  unfold dvmLoadRun
  split
  · intro
    show writeBytes (writeBytes m maps.cnst p.cnst) maps.data p.data x = m x
    rw [writeBytes_of_not_inBlock _ hd, writeBytes_of_not_inBlock _ hc]
  · intro hdone
    rw [relocate_mem, foldl_storeRel_outside hdone hlen hx, copySections,
      writeBytes_of_not_inBlock _ hx, writeBytes_of_not_inBlock _ hd,
      writeBytes_of_not_inBlock _ hc]

/-- The loader is safe on exactly those programs without code, and those whose relocations in
front of the first one that does not resolve patch code bytes, and which are either rejected for
that one or entered inside their code. -/
theorem loadSafe_iff (p : DvmProg) :
    LoadSafe p ↔ p.code = [] ∨
      ((∀ r ∈ p.rels.takeWhile (Relocatable p),
          r.codeOffset.toNat + r.width ≤ p.code.length) ∧
        ((∃ r ∈ p.rels, ¬ Relocatable p r) ∨ p.entryOffset.toNat < p.code.length)) := by
  constructor
  · intro hsafe
    by_cases hcode : p.code = []
    · exact .inl hcode
    · obtain ⟨hdone, hentry⟩ := hsafe ⟨0, 0, 0⟩ fun _ => 0
      rw [dvmLoadRun_done hcode] at hdone
      refine .inr ⟨hdone, ?_⟩
      by_cases hall : ∀ r ∈ p.rels, Relocatable p r
      · exact .inr (hentry _ _ (dvmLoad_ok_iff.mpr ⟨hcode, hall, rfl, rfl⟩))
      · push Not at hall
        exact .inl hall
  · intro hcond maps m
    rcases hcond with hcode | ⟨hdone, hentry⟩
    · have hlen : p.code.length = 0 := List.length_eq_zero_iff.mpr hcode
      constructor
      · rw [dvmLoadRun, if_pos hlen]
        intro r hr
        cases hr
      · intro l m' h
        exact absurd hcode (dvmLoad_ok_iff.mp h).1
    · constructor
      · by_cases hcode : p.code.length = 0
        · rw [dvmLoadRun, if_pos hcode]
          intro r hr
          cases hr
        · rw [dvmLoadRun_done (by simpa using hcode)]
          exact hdone
      · intro l m' h
        obtain ⟨-, hall, rfl, -⟩ := dvmLoad_ok_iff.mp h
        rcases hentry with ⟨r, hr, hno⟩ | hlt
        · exact absurd (hall r hr) hno
        · exact hlt

/-- One byte of code, and a relocation far behind it. -/
def strayReloc : DvmProg where
  code := [0]
  syms := [⟨lit "f", dvmSymGlobal, dvmSecCode, 0⟩]
  rels := [⟨100, 0, dvmRelData⟩]

/-- It is a program of the format, it is loaded, and it is patched 100 bytes behind its code. -/
theorem strayReloc_loaded :
    (∃ l m', dvmLoad ⟨0x1000, 0x2000, 0x3000⟩ (fun _ => 0) strayReloc = .ok (l, m')) ∧
      ¬ LoadSafe strayReloc := by
  have hload : ∃ l m', dvmLoad ⟨0x1000, 0x2000, 0x3000⟩ (fun _ => 0) strayReloc = .ok (l, m') :=
    ⟨_, _, rfl⟩
  refine ⟨hload, ?_⟩
  intro hsafe
  have hin := (hsafe ⟨0x1000, 0x2000, 0x3000⟩ fun _ => 0).1 ⟨100, 0, dvmRelData⟩ (.head _)
  exact absurd hin (by decide)

-- In front of a relocation that is rejected the same bytes are patched.
example : (dvmLoadRun ⟨0x1000, 0x2000, 0x3000⟩ (fun _ => 0)
    { strayReloc with rels := [⟨100, 0, dvmRelData⟩, ⟨0, 1, dvmRelCode⟩] }).done
      = [⟨100, 0, dvmRelData⟩] := by decide

end Dvm
