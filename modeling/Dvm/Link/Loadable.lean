/-
# What is linked can be loaded

The linker and the loader check the same things in different places: `dvm_link` refuses an
extern without a definition and a relocation without a symbol while it merges, `dvm_load` looks
the symbol of each relocation up in the output and refuses it if it is an extern, has no section
or an empty one.  The merged table is made of definitions only (`mem_places`) and every
index handed out is an entry of it (`referent_of_mergedIndex`), so of the loader's conditions
only those on the contents remain: some code, and bytes in the sections referred to.
-/
import Dvm.Link.Referent
import Dvm.Load

namespace Dvm

open Table Loops Concat Bytes

/-! ## 1. The merged table holds definitions -/

/-- Every entry of the merged table is one of the definitions put there. -/
theorem mem_places {ss : List DvmSym} {t : DvmSym} (h : t ∈ places ss) : t ∈ ss ∧ t.IsDef := by
  induction ss using List.reverseRecOn with
  | nil => cases h
  | append_singleton ss s ih =>
    rw [places_append, List.foldl_cons, List.foldl_nil, place] at h
    split at h
    · next hd =>
      have hcases : t ∈ places ss ∨ t = s := by
        split at h
        · exact List.mem_or_eq_of_mem_set h
        · simpa using h
      rcases hcases with hmem | rfl
      · exact ⟨List.mem_append_left _ (ih hmem).1, (ih hmem).2⟩
      · exact ⟨by simp, hd⟩
    · exact ⟨List.mem_append_left _ (ih h).1, (ih h).2⟩

section Output

variable {objs : List DvmProg} {entrySym : Option CStr} {out : DvmProg}

/-- Every symbol of the output is a definition of some object, moved. -/
theorem mem_syms_dvmLink (hout : dvmLink objs entrySym = .ok out) {t : DvmSym}
    (ht : t ∈ out.syms) :
    ∃ i o s, objs[i]? = some o ∧ s ∈ o.syms ∧ s.IsDef ∧ t = adjust (baseOf objs i) s := by
  rw [(dvmLink_ok hout).1] at ht
  obtain ⟨hmem, hdef⟩ := mem_places (List.mem_of_mem_take ht)
  obtain ⟨i, o, s, hi, hs, rfl⟩ := mem_linkSyms.mp hmem
  exact ⟨i, o, s, hi, hs, hdef, rfl⟩

/-- Every relocation of the output has a symbol. -/
theorem sym_of_mem_rels (hout : dvmLink objs entrySym = .ok out) {r' : DvmRel}
    (hr' : r' ∈ out.rels) : ∃ t, out.syms[r'.symIndex.toNat]? = some t := by
  obtain ⟨i, o, r, s, t, -, -, -, -, hfrom⟩ := mem_rels_dvmLink hout hr'
  exact ⟨t, hfrom.sym⟩

/-! ## 2. Loading -/

/-- Of a symbol with this section the loader finds the section filled. -/
structure SecFilled (p : DvmProg) (sec : DvmSection) : Prop where
  cnst : sec = dvmSecCnst → p.cnst ≠ []
  data : sec = dvmSecData → p.data ≠ []
  code : sec = dvmSecCode → p.code ≠ []

/-- The sections that definitions lie in. -/
def SecKnown (sec : DvmSection) : Prop := sec = dvmSecCnst ∨ sec = dvmSecData ∨ sec = dvmSecCode

instance SecKnown.decidable (sec : DvmSection) : Decidable (SecKnown sec) :=
  inferInstanceAs (Decidable (_ ∨ _))

theorem SecFilled.hasSec {p : DvmProg} {sec : DvmSection} (h : SecFilled p sec)
    (hknown : SecKnown sec) : p.HasSec sec := by
  rcases hknown with hsec | hsec | hsec
  · exact .inl ⟨hsec, h.cnst hsec⟩
  · exact .inr (.inl ⟨hsec, h.data hsec⟩)
  · exact .inr (.inr ⟨hsec, h.code hsec⟩)

/-- A successful link of objects with some code, whose definitions lie in the three sections, is
loaded wherever its relocations refer to sections that are not empty. -/
theorem dvmLink_loadable
    (hsecs : ∀ o ∈ objs, ∀ s ∈ o.syms, s.IsDef → SecKnown s.sec)
    (hout : dvmLink objs entrySym = .ok out)
    (hcode : 0 < (objs.map fun o => o.code.length).sum)
    (hfilled : ∀ r ∈ out.rels, ∀ s, out.syms[r.symIndex.toNat]? = some s → SecFilled out s.sec) :
    (∀ s ∈ out.syms, ¬ s.IsExtern) ∧ (∀ r ∈ out.rels, r.symIndex.toNat < out.syms.length) ∧
      ∀ maps m, ∃ l m', dvmLoad maps m out = .ok (l, m') := by
  have hdef : ∀ s ∈ out.syms, s.IsDef ∧ SecKnown s.sec := by
    intro s hs
    obtain ⟨i, o, s', hi, hs', hd, rfl⟩ := mem_syms_dvmLink hout hs
    exact ⟨hd, hsecs o (List.mem_of_getElem? hi) s' hs' hd⟩
  refine ⟨fun s hs => (hdef s hs).1, ?_, ?_⟩
  · intro r hr
    obtain ⟨t, ht⟩ := sym_of_mem_rels hout hr
    exact (List.getElem?_eq_some_iff.mp ht).1
  · intro maps m
    have hcode' : out.code ≠ [] := by
      rw [(dvmLink_ok hout).2.1]
      intro hnil
      rw [← List.length_flatMap, hnil] at hcode
      exact Nat.lt_irrefl 0 hcode
    have hrels : ∀ r ∈ out.rels, Relocatable out r := by
      intro r hr
      obtain ⟨t, ht⟩ := sym_of_mem_rels hout hr
      obtain ⟨hd, hknown⟩ := hdef t (List.mem_of_getElem? ht)
      exact ⟨t, ht, hd, (hfilled r hr t ht).hasSec hknown⟩
    exact ⟨_, _, dvmLoad_ok_iff.mpr ⟨hcode', hrels, rfl, rfl⟩⟩

/-- An object that refers to data it imports, and the object that exports the data. -/
def dataImport : List DvmProg :=
  [{ code := List.replicate 10 0, syms := [⟨lit "x", dvmSymExtern, dvmSecNone, 0⟩],
     rels := [⟨2, 0, dvmRelData⟩] },
   { data := [7], syms := [⟨lit "x", dvmSymGlobal, dvmSecData, 0⟩] }]

theorem dvmLink_loadable_dataImport :
    ∃ out, dvmLink dataImport none = .ok out ∧ (∀ s ∈ out.syms, ¬ s.IsExtern) ∧
      (∀ r ∈ out.rels, r.symIndex.toNat < out.syms.length) ∧
      ∀ maps m, ∃ l m', dvmLoad maps m out = .ok (l, m') := by
  refine ⟨_, rfl, @dvmLink_loadable dataImport none _ (by decide) rfl (by decide) ?_⟩
  intro r hr s hs
  obtain rfl := List.mem_singleton.mp hr
  cases hs
  exact ⟨by decide, by decide, by decide⟩

/-! ## 3. Where the loader patches -/

/-- If the relocations of every object patch its own code, those of the output patch the linked
code.  A position that wraps around 32 bits only moves to the front. -/
theorem dvmLink_patchesInside (hin : ∀ o ∈ objs, PatchesInside o)
    (hout : dvmLink objs entrySym = .ok out) : PatchesInside out := by
  intro r' hr'
  obtain ⟨i, o, r, s, t, hi, hr, -, -, hfrom⟩ := mem_rels_dvmLink hout hr'
  have hfit := hin o (List.mem_of_getElem? hi) r hr
  have hend : (baseOf objs i).code + o.code.length ≤ (objs.flatMap DvmProg.code).length :=
    start_add_le DvmProg.code hi
  have hwrap : r'.codeOffset.toNat ≤ r.codeOffset.toNat + (baseOf objs i).code := by
    rw [hfrom.codeOffset, BitVec.toNat_add, BitVec.toNat_ofNat]
    exact Nat.le_trans (Nat.mod_le _ _) (Nat.add_le_add_left (Nat.mod_le _ _) _)
  have hwidth : r'.width = r.width := by rw [DvmRel.width, DvmRel.width, hfrom.kind]
  rw [(dvmLink_ok hout).2.1]
  omega

end Output

end Dvm
