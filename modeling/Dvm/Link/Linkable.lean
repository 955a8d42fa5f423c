/-
# Linkable inputs

`linker.h` promises an error on unresolved externs and on duplicate globals.  `Linkable` is
that promise, with the table sizes of the format.  `dvm_link` accepts more, in two ways.

* It looks an extern up by name alone, so a `LOCAL` of some object satisfies it.
* It does not report a full symbol table: the link fails only if a relocation needs a symbol
  that was dropped.

`linksExactly_iff` says on which inputs the two agree.
-/
import Dvm.Link.Accept

namespace Dvm

open Table Loops Concat

/-! ## 1. The promise -/

/-- The inputs of a link: the table sizes of the format, and section `NONE` on externs only. -/
structure LinkInputs (objs : List DvmProg) : Prop where
  syms : ∀ o ∈ objs, o.syms.length ≤ dvmMaxSyms
  rels : ∀ o ∈ objs, o.rels.length ≤ dvmMaxRels
  secs : ∀ o ∈ objs, ∀ s ∈ o.syms, s.IsDef → s.sec ≠ dvmSecNone

/-- Every extern's name is `GLOBAL` in some input. -/
def ExternsExported (objs : List DvmProg) : Prop :=
  ∀ o ∈ objs, ∀ s ∈ o.syms, s.IsExtern → ∃ o' ∈ objs, ∃ g ∈ o'.syms, g.IsGlobal ∧ g.name = s.name

/-- The definitions of all inputs fit the symbol table. -/
def DefsFit (objs : List DvmProg) : Prop :=
  ((objs.flatMap DvmProg.syms).filter fun s => s.IsDef).length ≤ dvmMaxSyms

/-- The inputs a linker of this format is expected to accept. -/
structure Linkable (objs : List DvmProg) : Prop where
  globals : (((objs.flatMap DvmProg.syms).filter fun s => s.IsGlobal).map DvmSym.name).Nodup
  externs : ExternsExported objs
  indices : ∀ o ∈ objs, ∀ r ∈ o.rels, r.symIndex.toNat < o.syms.length
  defsFit : DefsFit objs
  relsFit : (objs.flatMap DvmProg.rels).length ≤ dvmMaxRels

/-- The link accepts exactly the linkable inputs, and exports every `GLOBAL` of them. -/
def LinksExactly (objs : List DvmProg) (entrySym : Option CStr) : Prop :=
  ((∃ out, dvmLink objs entrySym = .ok out) ↔ Linkable objs) ∧
  ∀ out, dvmLink objs entrySym = .ok out → ∀ i o s, objs[i]? = some o → s ∈ o.syms →
    s.IsGlobal → adjust (baseOf objs i) s ∈ out.syms

/-! ## 2. While the definitions fit -/

/-- Selecting symbols and reading them, by properties the adjustment keeps, gives the same for
the inputs and for the list of all symbols. -/
theorem filter_linkSyms {β : Type} {p : DvmSym → Bool} {f : DvmSym → β}
    (hp : ∀ b s, p (adjust b s) = p s) (hf : ∀ b s, f (adjust b s) = f s)
    (objs : List DvmProg) :
    ((linkSyms objs).filter p).map f = ((objs.flatMap DvmProg.syms).filter p).map f := by
  have hobj : ∀ b (ss : List DvmSym),
      ((ss.map (adjust b)).filter p).map f = (ss.filter p).map f := by
    intro b ss
    have hcomp : (p ∘ adjust b) = p := funext fun s => hp b s
    rw [List.filter_map, hcomp, List.map_map]
    exact List.map_congr_left fun s _ => hf b s
  suffices ∀ b, (((withBases b objs).flatMap adjustedSyms).filter p).map f
      = ((objs.flatMap DvmProg.syms).filter p).map f from this {}
  induction objs with
  | nil => intro b; rfl
  | cons o os ih =>
    intro b
    simp only [withBases, List.flatMap_cons, List.filter_append, List.map_append, ih,
      adjustedSyms, hobj]

theorem defsFit_iff {objs : List DvmProg} :
    DefsFit objs ↔ ((linkSyms objs).filter fun s => s.IsDef).length ≤ dvmMaxSyms := by
  have h := congrArg List.length
    (filter_linkSyms (p := fun s => s.IsDef) (f := fun _ => ()) (fun _ _ => rfl)
      (fun _ _ => rfl) objs)
  simp only [List.length_map] at h
  rw [DefsFit, h]

/-- While the definitions fit, every name they define has an entry. -/
theorem storedNames_linkSyms {objs : List DvmProg} (h : DefsFit objs) :
    storedNames (linkSyms objs) = slotNames (linkSyms objs) :=
  storedNames_eq_slotNames (defsFit_iff.mp h)

theorem mem_slotNames_linkSyms {objs : List DvmProg} {n : CStr} :
    n ∈ slotNames (linkSyms objs) ↔
      ∃ o ∈ objs, ∃ s ∈ o.syms, s.IsDef ∧ s.name = n := by
  rw [mem_slotNames]
  constructor
  · rintro ⟨d, hd, hdef, hn⟩
    obtain ⟨i, o, s, hi, hs, rfl⟩ := mem_linkSyms.mp hd
    exact ⟨o, List.mem_of_getElem? hi, s, hs, hdef, hn⟩
  · rintro ⟨o, ho, s, hs, hdef, hn⟩
    obtain ⟨i, hi⟩ := List.mem_iff_getElem?.mp ho
    exact ⟨_, mem_linkSyms.mpr ⟨i, o, s, hi, hs, rfl⟩, hdef, hn⟩

/-- While the definitions fit, the check for duplicates is complete. -/
theorem uniqueGlobals_iff {objs : List DvmProg} (h : DefsFit objs) :
    UniqueGlobals (linkSyms objs) ↔
      (((objs.flatMap DvmProg.syms).filter fun s => s.IsGlobal).map DvmSym.name).Nodup := by
  have hfil : ((linkSyms objs).filter fun s => s.IsGlobal ∧ s.name ∈ storedNames (linkSyms objs))
      = (linkSyms objs).filter fun s => s.IsGlobal := by
    apply List.filter_congr
    intro d hd
    by_cases hg : d.IsGlobal
    · have hst : d.name ∈ storedNames (linkSyms objs) := by
        rw [storedNames_linkSyms h]
        exact mem_slotNames.mpr ⟨d, hd, hg.isDef, rfl⟩
      simp [hg, hst]
    · simp [hg]
  rw [UniqueGlobals, hfil, filter_linkSyms (fun _ _ => rfl) (fun _ _ => rfl)]

/-- While the definitions fit, every definition finds an entry. -/
theorem hasSlot_of_defsFit {objs : List DvmProg} (h : DefsFit objs) {i k : Nat} {o : DvmProg}
    {s : DvmSym} (hi : objs[i]? = some o) (hk : o.syms[k]? = some s) (hd : s.IsDef) :
    HasSlot (symsBefore objs i k) s := by
  -- the symbol is a definition itself, so fewer than all of them come before it
  have hsplit := (linkSyms_split hi hk).1
  have hcount : ((symsBefore objs i k).filter fun s => s.IsDef).length
      < dvmMaxSyms := by
    have hall := defsFit_iff.mp h
    have hself : (adjust (baseOf objs i) s).IsDef := hd
    rw [hsplit, List.filter_append, List.filter_cons, if_pos (by simpa using hself),
      List.length_append, List.length_cons] at hall
    omega
  have hst := storedNames_eq_slotNames (Nat.le_of_lt hcount)
  unfold HasSlot
  split
  · next hh => rw [hst]; exact hh.2
  · exact Nat.lt_of_le_of_lt (length_slotNames_le _) hcount

/-! ## 3. Linkable and acceptable -/

/-- Linkable inputs are accepted. -/
theorem Linkable.acceptable {objs : List DvmProg} (h : Linkable objs) : Acceptable objs where
  globals := (uniqueGlobals_iff h.defsFit).mpr h.globals
  externs := by
    intro o ho s hs hx
    obtain ⟨o', ho', g, hg, hglob, hn⟩ := h.externs o ho s hs hx
    rw [storedNames_linkSyms h.defsFit]
    exact mem_slotNames_linkSyms.mpr ⟨o', ho', g, hg, hglob.isDef, hn⟩
  symbols := by
    intro i o r hi hr
    have hlt := h.indices o (List.mem_of_getElem? hi) r hr
    exact ⟨_, List.getElem?_eq_getElem hlt,
      hasSlot_of_defsFit h.defsFit hi (List.getElem?_eq_getElem hlt)⟩
  relsFit := h.relsFit

/-- What is accepted is linkable, if no extern is satisfied by a `LOCAL` only and the
definitions fit. -/
theorem Acceptable.linkable {objs : List DvmProg} (h : Acceptable objs)
    (hext : ExternsExported objs) (hfit : DefsFit objs) : Linkable objs where
  globals := (uniqueGlobals_iff hfit).mp h.globals
  externs := hext
  indices := by
    intro o ho r hr
    obtain ⟨i, hi⟩ := List.mem_iff_getElem?.mp ho
    obtain ⟨s, hs, -⟩ := h.symbols i o r hi hr
    exact (List.getElem?_eq_some_iff.mp hs).1
  defsFit := hfit
  relsFit := h.relsFit

/-- Two `GLOBAL`s of one name are the same entry of the list of all symbols. -/
theorem global_unique {objs : List DvmProg} (hfit : DefsFit objs)
    (huniq : UniqueGlobals (linkSyms objs)) {a b : DvmSym} (ha : a ∈ linkSyms objs)
    (hb : b ∈ linkSyms objs) (hga : a.IsGlobal) (hgb : b.IsGlobal) (hn : a.name = b.name) :
    a = b := by
  have hmem : ∀ d ∈ linkSyms objs, d.IsGlobal →
      d ∈ (linkSyms objs).filter fun s => s.IsGlobal ∧ s.name ∈ storedNames (linkSyms objs) := by
    intro d hd hg
    have hst : d.name ∈ storedNames (linkSyms objs) := by
      rw [storedNames_linkSyms hfit]
      exact mem_slotNames.mpr ⟨d, hd, hg.isDef, rfl⟩
    simp [hd, hg, hst]
  exact List.inj_on_of_nodup_map huniq (hmem a ha hga) (hmem b hb hgb) hn

/-- Every `GLOBAL` of linkable inputs is in the output's symbol table. -/
theorem global_mem_output {objs : List DvmProg} {entrySym : Option CStr} {out : DvmProg}
    (hfit : DefsFit objs) (huniq : UniqueGlobals (linkSyms objs))
    (hout : dvmLink objs entrySym = .ok out) {g : DvmSym} (hg : g ∈ linkSyms objs)
    (hglob : g.IsGlobal) : g ∈ out.syms := by
  have hstored : g.name ∈ storedNames (linkSyms objs) := by
    rw [storedNames_linkSyms hfit]
    exact mem_slotNames.mpr ⟨g, hg, hglob.isDef, rfl⟩
  obtain ⟨q, a, hf⟩ := mem_storedNames_iff.mp hstored
  obtain ⟨hn, hmem, -, hcase⟩ := find_front hf
  have hga : a.IsGlobal := hcase.resolve_right fun hall => hall g hg ⟨hglob, rfl⟩
  rw [global_unique hfit huniq hg hmem hglob hga hn.symm, (dvmLink_ok hout).1]
  exact List.mem_of_getElem? (getElem?_of_find hf)

/-- The link keeps its promise on exactly those inputs that one of its own checks refuses, or
that export a `GLOBAL` for every extern and fit the symbol table. -/
theorem linksExactly_iff {objs : List DvmProg} (h : LinkInputs objs) (entrySym : Option CStr) :
    LinksExactly objs entrySym ↔
      (Acceptable objs → ExternsExported objs ∧ DefsFit objs) := by
  have hacc : (∃ out, dvmLink objs entrySym = .ok out) ↔ Acceptable objs :=
    dvmLink_ok_iff_acceptable h.secs
  rw [LinksExactly, hacc]
  constructor
  · rintro ⟨hiff, -⟩ ha
    exact ⟨(hiff.mp ha).externs, (hiff.mp ha).defsFit⟩
  · intro hcond
    refine ⟨⟨fun ha => ha.linkable (hcond ha).1 (hcond ha).2, Linkable.acceptable⟩, ?_⟩
    intro out hout i o s hi hs hg
    have ha := hacc.mp ⟨out, hout⟩
    exact global_mem_output (hcond ha).2 ha.globals hout
      (mem_linkSyms.mpr ⟨i, o, s, hi, hs, rfl⟩) hg

/-- Two linkable objects: one exports `f`, the other imports it. -/
def exportImport : List DvmProg :=
  [{ code := [0], syms := [⟨lit "f", dvmSymGlobal, dvmSecCode, 0⟩] },
   { code := [0], syms := [⟨lit "f", dvmSymExtern, dvmSecNone, 0⟩] }]

theorem linksExactly_exportImport :
    LinkInputs exportImport ∧ LinksExactly exportImport none := by
  have hin : LinkInputs exportImport := ⟨by decide, by decide, by decide⟩
  exact ⟨hin, (linksExactly_iff hin none).mpr fun _ =>
    ⟨by unfold ExternsExported; decide, by unfold DefsFit; decide⟩⟩

/-- An object that imports `f`, and one that has a `LOCAL` of that name. -/
def localForExtern : List DvmProg :=
  [{ code := [0], syms := [⟨lit "f", dvmSymExtern, dvmSecNone, 0⟩] },
   { code := [0], syms := [⟨lit "f", dvmSymLocal, dvmSecCode, 0⟩] }]

/-- The `LOCAL` satisfies the extern, which no input exports. -/
theorem local_satisfies_extern :
    LinkInputs localForExtern ∧ (∃ out, dvmLink localForExtern none = .ok out) ∧
      ¬ LinksExactly localForExtern none := by
  have hok : ∃ out, dvmLink localForExtern none = .ok out := ⟨_, rfl⟩
  refine ⟨⟨by decide, by decide, by decide⟩, hok, ?_⟩
  intro h
  have hext := (h.1.mp hok).externs
  revert hext
  unfold ExternsExported
  decide

end Dvm
