/-
# What jumps are bound to

An operand with a `DVM_REL_CODE` relocation holds, after linking and loading, the offset of the
symbol that the merge by name leaves for the relocation's symbol.  The assembler looks at the
section of a label only where the label is its own, and neither the linker nor the loader asks a
symbol that a code relocation arrives at for its section.  So such an operand is an offset into
the code only if the definition that its symbol is bound to is one of the code section.

`jumpsBindCode_iff` asks that of every code relocation, and that its operand and the definition
lie in the first 4 GiB of the linked code, where 32 bits tell their positions.
-/
import Dvm.Link.Preserve
import Dvm.LinkLoad

namespace Dvm

open Bytes ByteMem Table Layout Concat Loops

/-! ## 1. Bindings -/

/-- The symbols of all objects in link order, each with its object's place in that order. -/
def numbered (objs : List DvmProg) : List (Nat × DvmSym) :=
  objs.zipIdx.flatMap fun x => x.1.syms.map fun s => (x.2, s)

/-- The definition of a name in a list of objects, and its object: the `GLOBAL`, or else the first
in link order. -/
def definitionOf (objs : List DvmProg) (n : CStr) : Option (Nat × DvmSym) :=
  ((numbered objs).filter fun x => x.2.IsGlobal ∧ x.2.name = n).getLast?.or
    ((numbered objs).find? fun x => x.2.IsDef ∧ x.2.name = n)

/-- The definition that symbol `s`, the `k`-th of object `i`, is bound to: a `LOCAL` behind
another definition of its name to itself, every other symbol to the definition of its name. -/
def binding (objs : List DvmProg) (i k : Nat) (s : DvmSym) : Option (Nat × DvmSym) :=
  if s.IsDef ∧ ¬ s.IsGlobal ∧
      ∃ x ∈ (numbered objs).take (symPos objs i k), x.2.IsDef ∧ x.2.name = s.name then
    some (i, s)
  else definitionOf objs s.name

/-- The definition that relocation `r` of source `i` is for. -/
def boundTo (us : List Assembly) (i : Nat) (u : Assembly) (r : DvmRel) : Option (Nat × DvmSym) :=
  u.obj.syms[r.symIndex.toNat]?.bind (binding (objects us) i r.symIndex.toNat)

/-- A code relocation whose operand lies in the first 4 GiB of the linked code, and the definition
it is for as well; if relocations wrap around to the operand, they leave the offset of that
definition there. -/
def CodeRelSafe (us : List Assembly) (maps : LoadMaps) (i : Nat) (u : Assembly) (r : DvmRel) :
    Prop :=
  fieldPos us i r < 2 ^ 32 ∧
    ∃ i' d, boundTo us i u r = some (i', d) ∧ d.sec = dvmSecCode ∧
      rebased (objects us) i' d < 2 ^ 32 ∧
      (WrapsOnto us (fieldPos us i r) →
        ofLe (field (patchAll ((objects us).flatMap DvmProg.code) (linkStores us maps))
          (fieldPos us i r) 4) = rebased (objects us) i' d)

/-! ## 2. Bindings and referents -/

theorem withBases_eq_zipIdx (objs : List DvmProg) :
    withBases {} objs = objs.zipIdx.map fun x => (baseOf objs x.2, x.1) := by
  apply List.ext_getElem?
  intro i
  rw [getElem?_withBases_from, List.getElem?_map, List.getElem?_zipIdx]
  cases objs[i]? with
  | none => rfl
  | some o => simp

/-- The symbols that pass 3 visits. -/
theorem linkSyms_eq_numbered (objs : List DvmProg) :
    linkSyms objs = (numbered objs).map fun x => adjust (baseOf objs x.1) x.2 := by
  rw [linkSyms, withBases_eq_zipIdx, List.flatMap_map, numbered, List.map_flatMap]
  refine List.flatMap_congr fun x _ => ?_
  rw [adjustedSyms, List.map_map]
  rfl

theorem nameEntry_linkSyms (objs : List DvmProg) (n : CStr) :
    nameEntry (linkSyms objs) n
      = (definitionOf objs n).map fun x => adjust (baseOf objs x.1) x.2 := by
  rw [nameEntry, definitionOf, linkSyms_eq_numbered, List.filter_map, List.getLast?_map,
    List.find?_map, Option.map_or]
  rfl

/-- What a relocation refers to in the output is the definition its symbol is bound to, moved by
the base of that definition's object. -/
theorem referent_eq_binding (objs : List DvmProg) (i k : Nat) (s : DvmSym) :
    referent objs i k s = (binding objs i k s).map fun x => adjust (baseOf objs x.1) x.2 := by
  have hkeep : KeepsEntry objs i k s ↔ ¬ s.IsGlobal ∧
      ∃ x ∈ (numbered objs).take (symPos objs i k), x.2.IsDef ∧ x.2.name = s.name := by
    rw [KeepsEntry, symsBefore, linkSyms_eq_numbered, ← List.map_take]
    refine and_congr_right fun _ => ?_
    constructor
    · rintro ⟨d, hd, hdd⟩
      obtain ⟨x, hx, rfl⟩ := List.mem_map.mp hd
      exact ⟨x, hx, hdd⟩
    · rintro ⟨x, hx, hxx⟩
      exact ⟨_, List.mem_map_of_mem hx, hxx⟩
  unfold referent binding
  by_cases h : s.IsDef ∧ KeepsEntry objs i k s
  · rw [if_pos h, if_pos ⟨h.1, hkeep.mp h.2⟩]
    rfl
  · rw [if_neg h, if_neg fun h' => h ⟨h'.1, hkeep.mpr h'.2⟩]
    exact nameEntry_linkSyms objs s.name

/-! ## 3. Jumps and sections -/

section Loaded

variable {us : List Assembly} {entrySym : Option CStr} {out : DvmProg} {maps : LoadMaps}
  {m m' : Mem} {ld : DvmLoaded}

/-- Jumps bind only to code. -/
structure JumpsBindCode (us : List Assembly) (out : DvmProg) (maps : LoadMaps) (m : Mem) :
    Prop where
  /-- The operand of a code relocation is written through the linked relocation, and holds the
  rebased offset of the definition the relocation is for, a symbol of the code section. -/
  relocated : ∀ i j u r, LinkedRel us i j u r → r.kind = dvmRelCode →
    ∃ r' t i' d, out.rels[relPos (objects us) i j]? = some r' ∧
      r'.codeOffset.toNat = fieldPos us i r ∧ out.syms[r'.symIndex.toNat]? = some t ∧
      boundTo us i u r = some (i', d) ∧ IsRebased (objects us) i' d t ∧ t.sec = dvmSecCode ∧
      ofLe (readBytes m (maps.code + BitVec.ofNat 64 (fieldPos us i r)) 4) = t.offset.toNat
  /-- A label of the operand's own source is a label of the code section. -/
  own : ∀ i p u l, OwnJump us i p u l → l.sec = dvmSecCode

/-- A code relocation of a source is for the operand that names its label, and that operand is
linked to the symbol the relocation refers to. -/
theorem LinkedRel.jump {i j : Nat} {u : Assembly} {r : DvmRel} (h : LinkedRel us i j u r)
    (hkind : r.kind = dvmRelCode) :
    ∃ name, At Emit.size u.emits r.codeOffset.toNat (.codeRef name) ∧
      (r.codeOffset.toNat, name) ∈ u.names.relocated ∧
      linkedSym us i u name = (boundTo us i u r).map fun x =>
        adjust (baseOf (objects us) x.1) x.2 := by
  have hr := List.mem_of_getElem? h.rel
  obtain ⟨e, l, hat, -, hl, href⟩ := u.operand hr
  rcases href with ⟨rfl, -⟩ | ⟨-, hdata⟩
  · obtain ⟨hname, hidx⟩ := u.idxOf_label hl
    refine ⟨l.name, hat, u.abstracts.mem_relocated_iff.mpr ⟨r, hr, rfl, hname⟩, ?_⟩
    rw [linkedSym, hidx, boundTo]
    cases u.obj.syms[r.symIndex.toNat]? with
    | none => rfl
    | some s => exact referent_eq_binding _ _ _ s
  · rw [hkind] at hdata
    exact absurd hdata (by decide)

/-- The linked relocation refers to the definition that the relocation is for. -/
theorem LinkedRel.bound (hlink : dvmLink (objects us) entrySym = .ok out) {i j : Nat}
    {u : Assembly} {r : DvmRel} (h : LinkedRel us i j u r) :
    ∃ r' i' d, out.rels[relPos (objects us) i j]? = some r' ∧
      r'.codeOffset.toNat = fieldPos us i r % 2 ^ 32 ∧ boundTo us i u r = some (i', d) ∧
      out.syms[r'.symIndex.toNat]? = some (adjust (baseOf (objects us) i') d) := by
  have hobj := objects_getElem? h.source
  obtain ⟨s, -, hs, -⟩ := (dvmLink_ok hlink).2.2 i u.obj j r hobj h.rel
  obtain ⟨r', t, hr', ht, hfrom⟩ := dvmLink_referent hlink hobj h.rel hs
  rw [referent_eq_binding, Option.map_eq_some_iff] at ht
  obtain ⟨⟨i', d⟩, hd, rfl⟩ := ht
  refine ⟨r', i', d, hr', ?_, ?_, hfrom.sym⟩
  · rw [hfrom.toNat_codeOffset, Nat.add_comm]
    rfl
  · rw [boundTo, hs, Option.bind_some, hd]

/-- What the operand of a code relocation in the first 4 GiB is loaded as. -/
theorem LinkedRel.operand_eq (hlink : dvmLink (objects us) entrySym = .ok out)
    (hload : dvmLoad maps m out = .ok (ld, m')) (hspace : out.code.length < 2 ^ 64) {i j : Nat}
    {u : Assembly} {r : DvmRel} (h : LinkedRel us i j u r) (hkind : r.kind = dvmRelCode)
    (hpos : fieldPos us i r < 2 ^ 32) {i' : Nat} {d : DvmSym}
    (hd : boundTo us i u r = some (i', d)) :
    (WrapsOnto us (fieldPos us i r) → loadedOperand us maps m' i r.codeOffset.toNat
        = field (patchAll ((objects us).flatMap DvmProg.code) (linkStores us maps))
          (fieldPos us i r) 4) ∧
      (¬ WrapsOnto us (fieldPos us i r) → ofLe (loadedOperand us maps m' i r.codeOffset.toNat)
        = (adjust (baseOf (objects us) i') d).offset.toNat) := by
  obtain ⟨name, hat, hrel, hsym⟩ := h.jump hkind
  constructor
  · intro
    rw [loadedOperand_eq hlink hload hspace h.source hat, relStores_eq hlink hload,
      (dvmLink_ok hlink).2.1]
    rfl
  · intro hno
    obtain ⟨t, ht, hop⟩ := loadedOperand_relocated hlink hload hspace hno hpos h.source hat hrel
    rw [hsym, hd, Option.map_some, Option.some.injEq] at ht
    have hlt : t.offset.toNat < 256 ^ 4 := t.offset.isLt
    rw [hop, ofLe_le_of_lt hlt, ← ht]

/-- Jumps bind only to code exactly if every code relocation is safe.  The size of the linked code
is a `size_t`. -/
theorem jumpsBindCode_iff (hlink : dvmLink (objects us) entrySym = .ok out)
    (hload : dvmLoad maps m out = .ok (ld, m')) (hspace : out.code.length < 2 ^ 64) :
    JumpsBindCode us out maps m' ↔
      ∀ i j u r, LinkedRel us i j u r → r.kind = dvmRelCode → CodeRelSafe us maps i u r := by
  constructor
  · intro h i j u r hrel hkind
    obtain ⟨r', t, i', d, -, hpos, -, hd, hreb, hsec, hop⟩ := h.relocated i j u r hrel hkind
    have hlt : fieldPos us i r < 2 ^ 32 := hpos ▸ r'.codeOffset.isLt
    refine ⟨hlt, i', d, hd, hreb.2.1 ▸ hsec, (isRebased_iff.mp hreb).2, fun hwrap => ?_⟩
    rw [← (hrel.operand_eq hlink hload hspace hkind hlt hd).1 hwrap, ← hreb.2.2, ← hop]
    rfl
  · intro h
    refine ⟨fun i j u r hrel hkind => ?_, fun i p u l hown => ?_⟩
    · obtain ⟨hlt, i', d, hd, hsec, hfits, hwrap⟩ := h i j u r hrel hkind
      obtain ⟨r', i'', d', hr', hpos, hd', ht⟩ := hrel.bound hlink
      obtain ⟨rfl, rfl⟩ := Prod.mk.inj (Option.some.inj (hd.symm.trans hd'))
      have hreb : IsRebased (objects us) i' d (adjust (baseOf (objects us) i') d) :=
        isRebased_iff.mpr ⟨SamePlace.refl _, hfits⟩
      refine ⟨r', _, i', d, hr', hpos.trans (Nat.mod_eq_of_lt hlt), ht, hd, hreb, hsec, ?_⟩
      show ofLe (loadedOperand us maps m' i r.codeOffset.toNat) = _
      obtain ⟨hover, hfree⟩ := hrel.operand_eq hlink hload hspace hkind hlt hd
      by_cases hw : WrapsOnto us (fieldPos us i r)
      · rw [hover hw, hwrap hw, hreb.2.2]
      · exact hfree hw
    · exact (u.accepted.codeRef_label hown.operand hown.label hown.defined).1.2.1

end Loaded

/-! ## 4. A jump to another source -/

theorem exists_assembly {src : List Byte} {o : DvmProg}
    (h : ((asmCompile zeroEnv src).toOption.any fun ctx => asmToProg ctx = o) = true) :
    ∃ u : Assembly, u.src = src ∧ u.obj = o := by
  obtain ⟨ctx, hok, hobj⟩ := exists_ok_of_decide h
  exact ⟨⟨zeroEnv, src, ctx, hok⟩, rfl, hobj⟩

/-- A jump to a label of another source. -/
def jumpAway : List Byte := lit "extern f\njmp f\n"

/-- The label in the code section. -/
def exportCode : List Byte := lit "global f\nf: halt\n"

/-- The label in the data section. -/
def exportData : List Byte := lit "global f\n.data\nf: db 1\n"

/-- The objects of the jump and of its label. -/
def jumpAwayObj : DvmProg where
  code := [0x15, 0, 0, 0, 0]
  syms := [⟨lit "f", dvmSymExtern, dvmSecNone, 0⟩]
  rels := [⟨1, 0, dvmRelCode⟩]

def exportCodeObj : DvmProg where
  code := [0x2f]
  syms := [⟨lit "f", dvmSymGlobal, dvmSecCode, 0⟩]

def exportDataObj : DvmProg where
  data := [1]
  syms := [⟨lit "f", dvmSymGlobal, dvmSecData, 0⟩]

theorem load_jumpAway {out : DvmProg} {s : DvmSym} (hcode : out.code ≠ [])
    (hrels : out.rels = [⟨1, 0, dvmRelCode⟩]) (hsym : out.syms[0]? = some s)
    (hs : s.flags ≠ dvmSymExtern) (hsec : out.HasSec s.sec) :
    ∃ ld m', dvmLoad sampleMaps (fun _ => 0) out = .ok (ld, m') := by
  refine ⟨_, _, dvmLoad_ok_iff.mpr ⟨hcode, fun r hr => ?_, rfl, rfl⟩⟩
  rw [hrels, List.mem_singleton] at hr
  subst hr
  exact ⟨s, hsym, hs, hsec⟩

/-- With the label in the code. -/
theorem jumpsBindCode_iff_jumpAway : ∃ u v : Assembly, u.src = jumpAway ∧ v.src = exportCode ∧
    ∃ out ld m', dvmLink (objects [u, v]) none = .ok out ∧
      dvmLoad sampleMaps (fun _ => 0) out = .ok (ld, m') ∧
      JumpsBindCode [u, v] out sampleMaps m' := by
  obtain ⟨u, husrc, hu⟩ := @exists_assembly jumpAway jumpAwayObj (by decide)
  obtain ⟨v, hvsrc, hv⟩ := @exists_assembly exportCode exportCodeObj (by decide)
  have hobjs : objects [u, v] = [jumpAwayObj, exportCodeObj] := by
    rw [← hu, ← hv]
    rfl
  obtain ⟨out, hlink, hrels, hsym, hcode, hfits⟩ : ∃ out, dvmLink (objects [u, v]) none = .ok out ∧
      out.rels = [⟨1, 0, dvmRelCode⟩] ∧ out.syms[0]? = some ⟨lit "f", dvmSymGlobal, dvmSecCode, 5⟩ ∧
      out.code ≠ [] ∧ out.code.length < 2 ^ 32 := by
    rw [hobjs]
    exact ⟨_, rfl, rfl, rfl, by decide, by decide⟩
  obtain ⟨ld, m', hload⟩ := load_jumpAway hcode hrels hsym (by decide) (.inr (.inr ⟨rfl, hcode⟩))
  refine ⟨u, v, husrc, hvsrc, out, ld, m', hlink, hload,
    (jumpsBindCode_iff hlink hload (by omega)).mpr ?_⟩
  intro i j w r hrel _
  refine ⟨hrel.fieldPos_lt hlink (by omega), ?_⟩
  match i, hrel with
  | 0, hrel =>
    obtain rfl : u = w := Option.some.inj hrel.source
    have hr : r = ⟨1, 0, dvmRelCode⟩ := by
      have hmem : r ∈ u.obj.rels := List.mem_of_getElem? hrel.rel
      rw [hu] at hmem
      exact List.mem_singleton.mp hmem
    subst hr
    refine ⟨1, ⟨lit "f", dvmSymGlobal, dvmSecCode, 0⟩, ?_, rfl, ?_,
      fun hwrap => absurd hwrap (not_wrapsOnto hlink (by omega) _)⟩
    · rw [boundTo, hobjs, hu]
      decide
    · rw [hobjs]
      decide
  | 1, hrel =>
    obtain rfl : v = w := Option.some.inj hrel.source
    have hmem : r ∈ v.obj.rels := List.mem_of_getElem? hrel.rel
    rw [hv] at hmem
    cases hmem

/-- With the label in the data. -/
theorem jump_binds_data : ∃ u v : Assembly, u.src = jumpAway ∧ v.src = exportData ∧
    ∃ out ld m', dvmLink (objects [u, v]) none = .ok out ∧ out.code.length < 2 ^ 32 ∧
      dvmLoad sampleMaps (fun _ => 0) out = .ok (ld, m') ∧
      ¬ JumpsBindCode [u, v] out sampleMaps m' := by
  obtain ⟨u, husrc, hu⟩ := @exists_assembly jumpAway jumpAwayObj (by decide)
  obtain ⟨v, hvsrc, hv⟩ := @exists_assembly exportData exportDataObj (by decide)
  have hobjs : objects [u, v] = [jumpAwayObj, exportDataObj] := by
    rw [← hu, ← hv]
    rfl
  obtain ⟨out, hlink, hrels, hsym, hcode, hdata, hfits⟩ : ∃ out,
      dvmLink (objects [u, v]) none = .ok out ∧ out.rels = [⟨1, 0, dvmRelCode⟩] ∧
      out.syms[0]? = some ⟨lit "f", dvmSymGlobal, dvmSecData, 0⟩ ∧ out.code ≠ [] ∧
      out.data ≠ [] ∧ out.code.length < 2 ^ 32 := by
    rw [hobjs]
    exact ⟨_, rfl, rfl, rfl, by decide, by decide, by decide⟩
  obtain ⟨ld, m', hload⟩ := load_jumpAway hcode hrels hsym (by decide) (.inr (.inl ⟨rfl, hdata⟩))
  refine ⟨u, v, husrc, hvsrc, out, ld, m', hlink, hfits, hload, fun h => ?_⟩
  have hrel : LinkedRel [u, v] 0 0 u ⟨1, 0, dvmRelCode⟩ := ⟨rfl, by
    show u.obj.rels[0]? = _
    rw [hu]
    rfl⟩
  obtain ⟨r', t, -, -, hr', -, ht, -, -, hsec, -⟩ := h.relocated 0 0 u _ hrel rfl
  have hpos : relPos (objects [u, v]) 0 0 = 0 := rfl
  rw [hpos, hrels, List.getElem?_cons_zero, Option.some.injEq] at hr'
  subst hr'
  have hzero : (0 : BitVec 32).toNat = 0 := rfl
  rw [hzero, hsym, Option.some.injEq] at ht
  rw [← ht] at hsec
  exact absurd hsec (by decide)

end Dvm
