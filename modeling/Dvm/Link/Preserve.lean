/-
# What a relocation refers to after linking

An output relocation should refer to the symbol its input relocation referred to.  It does for
every `GLOBAL` and every `EXTERN`, and for every `LOCAL` except one kind (`TakenOver`): all
symbols are merged by name into one table, and a `GLOBAL` is stored into the first entry of its
name without a look at whose entry that is.  A `LOCAL` that comes first in link order thus
loses its entry to a `GLOBAL` of another object.

The offsets of the property are sums of natural numbers; the linker's have 32 bits.  So a
relocation or a symbol that comes to lie behind 4 GiB is another thing to go wrong
(`RelSafe`).
-/
import Dvm.Link.Linkable
import Dvm.Link.Referent

namespace Dvm

open Table Loops Concat

/-! ## 1. The property -/

def DvmSym.IsLocal (s : DvmSym) : Prop := s.flags = dvmSymLocal

instance (s : DvmSym) : Decidable s.IsLocal := inferInstanceAs (Decidable (_ = _))

theorem DvmSym.IsLocal.isDef {s : DvmSym} (h : s.IsLocal) : s.IsDef := by
  unfold IsLocal at h
  unfold IsDef
  rw [h]
  decide

theorem DvmSym.IsLocal.not_isGlobal {s : DvmSym} (h : s.IsLocal) : ¬ s.IsGlobal := by
  unfold IsLocal at h
  unfold IsGlobal
  rw [h]
  decide

/-- Output symbol `t` has the name and section of symbol `s` of object `i` and lies where that
symbol lies in the linked section. -/
def IsRebased (objs : List DvmProg) (i : Nat) (s t : DvmSym) : Prop :=
  t.name = s.name ∧ t.sec = s.sec ∧ t.offset.toNat = rebased objs i s

/-- What output symbol `t` must be for symbol `s` of object `i`: the rebased symbol itself for
a `LOCAL` or a `GLOBAL`, every rebased `GLOBAL` of the name for an `EXTERN`. -/
def StandsFor (objs : List DvmProg) (i : Nat) (s t : DvmSym) : Prop :=
  (s.IsLocal ∨ s.IsGlobal → IsRebased objs i s t) ∧
  (s.IsExtern → ∀ i' o' g, objs[i']? = some o' → g ∈ o'.syms → g.IsGlobal → g.name = s.name →
    IsRebased objs i' g t)

/-- Every output relocation is its input relocation, moved by the object's code base and
referring to the same symbol. -/
def RefersAsWritten (objs : List DvmProg) (out : DvmProg) : Prop :=
  ∀ i o j r s, objs[i]? = some o → o.rels[j]? = some r → o.syms[r.symIndex.toNat]? = some s →
    ∃ r' t, out.rels[relPos objs i j]? = some r' ∧ r'.kind = r.kind ∧
      r'.codeOffset.toNat = r.codeOffset.toNat + (baseOf objs i).code ∧
      out.syms[r'.symIndex.toNat]? = some t ∧ StandsFor objs i s t

/-- The same name, section and 32-bit offset; the flags may differ. -/
def SamePlace (t s : DvmSym) : Prop := t.name = s.name ∧ t.sec = s.sec ∧ t.offset = s.offset

theorem SamePlace.refl (s : DvmSym) : SamePlace s s := ⟨rfl, rfl, rfl⟩

/-- Symbol `s`, the `k`-th of object `i`, is the first definition of its name in link order,
and a later `GLOBAL` of the name lies somewhere else. -/
def TakenOver (objs : List DvmProg) (i k : Nat) (s : DvmSym) : Prop :=
  (∀ d ∈ symsBefore objs i k, ¬ (d.IsDef ∧ d.name = s.name)) ∧
  ∃ g ∈ symsAfter objs i k,
    g.IsGlobal ∧ g.name = s.name ∧ ¬ SamePlace g (adjust (baseOf objs i) s)

/-- A relocation of object `i` that begins in the first 4 GiB of the linked code, and whose
symbol `s` lies there in its section: itself, if it is defined in the object, without being
taken over, or the `GLOBAL`s of its name. -/
structure RelSafe (objs : List DvmProg) (i : Nat) (r : DvmRel) (s : DvmSym) : Prop where
  position : r.codeOffset.toNat + (baseOf objs i).code < 2 ^ 32
  own : s.IsLocal ∨ s.IsGlobal → rebased objs i s < 2 ^ 32
  keeps : s.IsLocal → ¬ TakenOver objs i r.symIndex.toNat s
  exported : s.IsExtern → ∀ i' o' g, objs[i']? = some o' → g ∈ o'.syms → g.IsGlobal →
    g.name = s.name → rebased objs i' g < 2 ^ 32

/-! ## 2. When a symbol stays itself -/

section Referent

variable {objs : List DvmProg} {i k : Nat} {o : DvmProg} {s t : DvmSym}

/-- A symbol at the place that the linker computes is the rebased one if that does not wrap
around. -/
theorem isRebased_iff :
    IsRebased objs i s t ↔ SamePlace t (adjust (baseOf objs i) s) ∧ rebased objs i s < 2 ^ 32 := by
  constructor
  · rintro ⟨hn, hsec, hoff⟩
    have hlt : rebased objs i s < 2 ^ 32 := hoff ▸ t.offset.isLt
    refine ⟨⟨hn, hsec, BitVec.eq_of_toNat_eq ?_⟩, hlt⟩
    rw [hoff, toNat_adjust_eq_iff.mpr hlt]
  · rintro ⟨⟨hn, hsec, hoff⟩, hlt⟩
    exact ⟨hn, hsec, hoff ▸ toNat_adjust_eq_iff.mpr hlt⟩

/-- A symbol that shares the entry of its name stays where it is exactly if no other definition
of the name takes that entry over. -/
theorem samePlace_nameEntry (hfit : DefsFit objs) (huniq : UniqueGlobals (linkSyms objs))
    (hi : objs[i]? = some o) (hk : o.syms[k]? = some s) (hkind : s.IsLocal ∨ s.IsGlobal)
    (hshared : ¬ KeepsEntry objs i k s) (ht : nameEntry (linkSyms objs) s.name = some t) :
    SamePlace t (adjust (baseOf objs i) s) ↔ (s.IsLocal → ¬ TakenOver objs i k s) := by
  have hself : adjust (baseOf objs i) s ∈ linkSyms objs :=
    mem_linkSyms.mpr ⟨i, o, s, hi, List.mem_of_getElem? hk, rfl⟩
  have hsplit := (linkSyms_split hi hk).1
  obtain ⟨hn, hmem, -, hcase⟩ := nameEntry_eq_some ht
  rcases hkind with hloc | hglob
  · have hfirst : ∀ d ∈ symsBefore objs i k, ¬ (d.IsDef ∧ d.name = s.name) :=
      fun d hd hdd => hshared ⟨hloc.not_isGlobal, d, hd, hdd⟩
    rcases hcase with hg | hno
    · -- the entry holds a `GLOBAL`, which comes after `s`
      have hafter : t ∈ symsAfter objs i k := by
        rw [hsplit] at hmem
        rcases List.mem_append.mp hmem with hmem | hmem
        · exact absurd ⟨hg.isDef, hn⟩ (hfirst t hmem)
        · rcases List.mem_cons.mp hmem with rfl | hmem
          · exact absurd hg hloc.not_isGlobal
          · exact hmem
      constructor
      · rintro hsame - ⟨-, g, hgmem, hgg, hgn, hne⟩
        have hgt : g = t := global_unique hfit huniq (List.mem_of_mem_drop hgmem) hmem hgg hg
          (hgn.trans hn.symm)
        exact hne (hgt ▸ hsame)
      · intro hcond
        by_contra hne
        exact hcond hloc ⟨hfirst, t, hafter, hg, hn, hne⟩
    · have hentry : nameEntry (linkSyms objs) s.name = some (adjust (baseOf objs i) s) := by
        rw [hsplit] at hno ⊢
        exact nameEntry_of_first (s := adjust (baseOf objs i) s) hloc.isDef hfirst hno
      rw [ht, Option.some.injEq] at hentry
      refine iff_of_true (hentry ▸ SamePlace.refl _) ?_
      rintro - ⟨-, g, hgmem, hgg, hgn, -⟩
      exact hno g (List.mem_of_mem_drop hgmem) ⟨hgg, hgn⟩
  · have hg : t.IsGlobal := hcase.resolve_right fun hno => hno _ hself ⟨hglob, rfl⟩
    have hts := global_unique hfit huniq hmem hself hg hglob hn
    refine iff_of_true (hts ▸ SamePlace.refl _) ?_
    intro hloc
    exact absurd hglob hloc.not_isGlobal

/-- A `GLOBAL` or `LOCAL` stays itself exactly if it is not taken over. -/
theorem samePlace_referent (hfit : DefsFit objs) (huniq : UniqueGlobals (linkSyms objs))
    (hi : objs[i]? = some o) (hk : o.syms[k]? = some s) (hkind : s.IsLocal ∨ s.IsGlobal)
    (ht : referent objs i k s = some t) :
    SamePlace t (adjust (baseOf objs i) s) ↔ (s.IsLocal → ¬ TakenOver objs i k s) := by
  unfold referent at ht
  split at ht
  · next hkeep =>
    rw [Option.some.injEq] at ht
    refine iff_of_true (ht ▸ SamePlace.refl _) ?_
    obtain ⟨-, -, d, hd, hdd⟩ := hkeep
    rintro - ⟨hfirst, -⟩
    exact hfirst d hd hdd
  · next hno =>
    have hd : s.IsDef := hkind.elim DvmSym.IsLocal.isDef DvmSym.IsGlobal.isDef
    exact samePlace_nameEntry hfit huniq hi hk hkind (fun h => hno ⟨hd, h⟩) ht

/-- An extern refers to the `GLOBAL` of its name. -/
theorem referent_of_isExtern (hfit : DefsFit objs) (huniq : UniqueGlobals (linkSyms objs))
    (hx : s.IsExtern) (ht : referent objs i k s = some t) {g : DvmSym} (hg : g ∈ linkSyms objs)
    (hglob : g.IsGlobal) (hn : g.name = s.name) : t = g := by
  rw [referent, if_neg fun h => h.1 hx] at ht
  obtain ⟨htn, hmem, -, hcase⟩ := nameEntry_eq_some ht
  have hgt : t.IsGlobal := hcase.resolve_right fun hno => hno g hg ⟨hglob, hn⟩
  exact global_unique hfit huniq hmem hg hgt hglob (htn.trans hn.symm)

end Referent

/-! ## 3. Which links preserve what relocations refer to -/

section Links

variable {objs : List DvmProg} {entrySym : Option CStr} {out : DvmProg}

theorem refersAsWritten_of_relSafe (h : LinkInputs objs) (hfit : DefsFit objs)
    (hout : dvmLink objs entrySym = .ok out)
    (hsafe : ∀ i o r s, objs[i]? = some o → r ∈ o.rels → o.syms[r.symIndex.toNat]? = some s →
      RelSafe objs i r s) : RefersAsWritten objs out := by
  have huniq := ((dvmLink_ok_iff_acceptable h.secs).mp ⟨out, hout⟩).globals
  intro i o j r s hi hj hs
  obtain ⟨r', t, hr', ht, hfrom⟩ := dvmLink_referent hout hi hj hs
  have hr := hsafe i o r s hi (List.mem_of_getElem? hj) hs
  refine ⟨r', t, hr', hfrom.kind, ?_, hfrom.sym, ?_, ?_⟩
  · rw [hfrom.toNat_codeOffset, Nat.mod_eq_of_lt hr.position]
  · intro hkind
    exact isRebased_iff.mpr
      ⟨(samePlace_referent hfit huniq hi hs hkind ht).mpr hr.keeps, hr.own hkind⟩
  · intro hx i' o' g hi' hg hglob hn
    rw [referent_of_isExtern hfit huniq hx ht (mem_linkSyms.mpr ⟨i', o', g, hi', hg, rfl⟩)
      hglob hn]
    exact isRebased_iff.mpr ⟨SamePlace.refl _, hr.exported hx i' o' g hi' hg hglob hn⟩

/-- A link preserves what its relocations refer to exactly if none of them wraps around, and
none refers to a symbol that wraps around or to a `LOCAL` that a later `GLOBAL` takes over. -/
theorem refersAsWritten_iff (h : LinkInputs objs) (hfit : DefsFit objs)
    (hout : dvmLink objs entrySym = .ok out) :
    RefersAsWritten objs out ↔
      ∀ i o r s, objs[i]? = some o → r ∈ o.rels → o.syms[r.symIndex.toNat]? = some s →
        RelSafe objs i r s := by
  refine ⟨fun href i o r s hi hr hs => ?_, refersAsWritten_of_relSafe h hfit hout⟩
  have huniq := ((dvmLink_ok_iff_acceptable h.secs).mp ⟨out, hout⟩).globals
  obtain ⟨j, hj⟩ := List.mem_iff_getElem?.mp hr
  obtain ⟨r', t, hr', -, hpos, ht, hown, hext⟩ := href i o j r s hi hj hs
  obtain ⟨r'', t', hr'', ht', hfrom⟩ := dvmLink_referent hout hi hj hs
  rw [hr', Option.some.injEq] at hr''
  subst hr''
  rw [hfrom.sym, Option.some.injEq] at ht
  subst ht
  refine ⟨hpos ▸ r'.codeOffset.isLt, fun hkind => (isRebased_iff.mp (hown hkind)).2, ?_, ?_⟩
  · intro hloc
    exact (samePlace_referent hfit huniq hi hs (.inl hloc) ht').mp
      (isRebased_iff.mp (hown (.inl hloc))).1 hloc
  · intro hx i' o' g hi' hg hglob hn
    exact (isRebased_iff.mp (hext hx i' o' g hi' hg hglob hn)).2

end Links

/-- Two objects that each refer to their own `LOCAL` of one name. -/
def ownLocals : List DvmProg :=
  [{ data := [1], code := List.replicate 10 0, syms := [⟨lit "x", dvmSymLocal, dvmSecData, 0⟩],
     rels := [⟨2, 0, dvmRelData⟩] },
   { data := [2], code := List.replicate 10 0, syms := [⟨lit "x", dvmSymLocal, dvmSecData, 0⟩],
     rels := [⟨2, 0, dvmRelData⟩] }]

theorem refersAsWritten_ownLocals :
    ∃ out, dvmLink ownLocals none = .ok out ∧ RefersAsWritten ownLocals out := by
  have hin : LinkInputs ownLocals := ⟨by decide, by decide, by decide⟩
  refine ⟨_, rfl, (refersAsWritten_iff hin (by unfold DefsFit; decide) rfl).mpr ?_⟩
  -- no symbol of the two objects is a `GLOBAL`
  have hall : ∀ d ∈ linkSyms ownLocals, ¬ d.IsGlobal := by decide
  intro i o r s hi hr hs
  have hkeeps : ¬ TakenOver ownLocals i r.symIndex.toNat s := fun ⟨_, g, hg, hglob, _⟩ =>
    hall g (List.mem_of_mem_drop hg) hglob
  match i, hi with
  | 0, hi | 1, hi =>
    cases hi
    obtain rfl := List.mem_singleton.mp hr
    cases hs
    exact ⟨by decide, fun _ => by decide, fun _ => hkeeps, fun hx => absurd hx (by decide)⟩

/-- An object that refers to its `LOCAL` named `x`, and one that exports an `x` of its own. -/
def localThenGlobal : List DvmProg :=
  [{ data := [1], code := List.replicate 10 0, syms := [⟨lit "x", dvmSymLocal, dvmSecData, 0⟩],
     rels := [⟨2, 0, dvmRelData⟩] },
   { data := [2], syms := [⟨lit "x", dvmSymGlobal, dvmSecData, 0⟩] }]

/-- The first object's relocation ends up at the second object's symbol. -/
theorem local_taken_over :
    LinkInputs localThenGlobal ∧ DefsFit localThenGlobal ∧
      ∃ out, dvmLink localThenGlobal none = .ok out ∧ ¬ RefersAsWritten localThenGlobal out := by
  refine ⟨⟨by decide, by decide, by decide⟩, by unfold DefsFit; decide, _, rfl, ?_⟩
  intro h
  obtain ⟨r', t, hr, -, -, ht, hstands, -⟩ := h 0 _ 0 _ _ rfl rfl rfl
  cases hr
  cases ht
  have hoff := (hstands (.inl rfl)).2.2
  revert hoff
  decide

end Dvm
