/-
# Jumps after linking and loading

The operand of a jump to a label of its own source goes through the assembler, the linker and
the loader.  It must end up as the position of the label in the linked code: the label's offset
behind the code of all objects linked before (`JumpsKept`).

The assembler writes the offset itself and leaves a relocation only where the label was an
extern when the operand was read; without a relocation the operand is not rebased.  With one it
is whatever symbol the relocation's index leads to.  A position has 32 bits: behind 4 GiB of
linked code an operand is not found by its relocation, and the relocations from there are
carried out somewhere else (`WrapsOnto`).  `jumpsKept_iff` is what all that leaves.
-/
import Dvm.Asm.Symbols
import Dvm.Link.Loadable

namespace Dvm

open Bytes ByteMem Table Layout Concat Loops

/-! ## 1. Linked sources -/

/-- An accepted source. -/
structure Assembly where
  env : AsmEnv
  src : List Byte
  ctx : AsmCtx
  ok : asmCompile env src = .ok ctx

namespace Assembly

def obj (u : Assembly) : DvmProg := asmToProg u.ctx

def emits (u : Assembly) : List Emit := (codeEmits u.env u.src).flatten

def names (u : Assembly) : NameTable := sourceNames u.env u.src

theorem accepted (u : Assembly) : Accepted (codeEmits u.env u.src) u.ctx :=
  (asmCompile_accepted u.ok).1

theorem abstracts (u : Assembly) : Abstracts u.names u.ctx := asmCompile_names u.ok

theorem length_code (u : Assembly) : u.obj.code.length = total Emit.size u.emits :=
  u.accepted.length

/-- A label's index is its name's place among the names. -/
theorem idxOf_label (u : Assembly) {k : Nat} {l : AsmLabel} (hl : u.ctx.labels[k]? = some l) :
    u.names.names[k]? = some l.name ∧ u.names.names.idxOf l.name = k := by
  have hname : u.names.names[k]? = some l.name := u.abstracts.names_getElem?.mpr ⟨l, hl, rfl⟩
  obtain ⟨hlt, hget⟩ := List.getElem?_eq_some_iff.mp hname
  have hnodup : u.names.names.Nodup := u.abstracts.names ▸ u.accepted.labels.nodup
  refine ⟨hname, ?_⟩
  rw [← hget, hnodup.idxOf_getElem]

/-- A relocation is for an operand that names the label of its index, and as wide. -/
theorem operand (u : Assembly) {r : DvmRel} (hr : r ∈ u.ctx.rels) :
    ∃ e l, At Emit.size u.emits r.codeOffset.toNat e ∧ r.width = e.size ∧
      u.ctx.labels[r.symIndex.toNat]? = some l ∧
      ((e = .codeRef l.name ∧ r.kind = dvmRelCode) ∨
        (e = .dataRef l.name ∧ r.kind = dvmRelData)) := by
  obtain ⟨p, e, hat, hpos, l, hl, -, href⟩ := u.accepted.rels r hr
  have hp : r.codeOffset.toNat = p := hpos ▸ u.accepted.position hat
  subst hp
  refine ⟨e, l, hat, ?_, hl, href⟩
  rcases href with ⟨rfl, hk⟩ | ⟨rfl, hk⟩
  · rw [DvmRel.width, hk]
    rfl
  · rw [DvmRel.width, hk]
    rfl

/-- The relocations of an accepted source patch its own text. -/
theorem patchesInside (u : Assembly) : PatchesInside u.obj := by
  intro r hr
  obtain ⟨e, l, hat, hwidth, -, -⟩ := u.operand hr
  rw [hwidth, u.length_code]
  exact hat.end_le

end Assembly

/-- The objects of the sources, in link order. -/
def objects (us : List Assembly) : List DvmProg := us.map Assembly.obj

/-- Where the code of source `i` begins in the linked code. -/
def codeBase (us : List Assembly) (i : Nat) : Nat := (baseOf (objects us) i).code

/-- The jump operand at text position `p` of source `i` names the label `l`, which that source
defines. -/
structure OwnJump (us : List Assembly) (i p : Nat) (u : Assembly) (l : AsmLabel) : Prop where
  source : us[i]? = some u
  operand : At Emit.size u.emits p (.codeRef l.name)
  label : l ∈ u.ctx.labels
  defined : 0 ≤ l.offset

/-- The loaded operand at text position `p` of source `i`. -/
def loadedOperand (us : List Assembly) (maps : LoadMaps) (m : Mem) (i p : Nat) : List Byte :=
  readBytes m (maps.code + BitVec.ofNat 64 (codeBase us i + p)) 4

/-- Every jump operand that names a label of its own source is loaded as the position of that
label in the linked code. -/
def JumpsKept (us : List Assembly) (maps : LoadMaps) (m : Mem) : Prop :=
  ∀ i p u l, OwnJump us i p u l →
    ofLe (loadedOperand us maps m i p) = codeBase us i + l.offset.toNat

/-! ## 2. Linked relocations -/

/-- Relocation `r` is the `j`-th of source `i`. -/
structure LinkedRel (us : List Assembly) (i j : Nat) (u : Assembly) (r : DvmRel) : Prop where
  source : us[i]? = some u
  rel : u.ctx.rels[j]? = some r

/-- Where the operand of a relocation of source `i` begins in the linked code. -/
def fieldPos (us : List Assembly) (i : Nat) (r : DvmRel) : Nat :=
  codeBase us i + r.codeOffset.toNat

/-- A relocation whose operand lies behind 4 GiB is carried out, at the 32 bits that are kept of
its position, on the four bytes at `x`. -/
def WrapsOnto (us : List Assembly) (x : Nat) : Prop :=
  ∃ i j u r, LinkedRel us i j u r ∧ 2 ^ 32 ≤ fieldPos us i r ∧
    fieldPos us i r % 2 ^ 32 < x + 4 ∧ x < fieldPos us i r % 2 ^ 32 + r.width

/-- What is stored for relocation `r` of source `i`, and where: the value of the symbol that it
refers to after linking. -/
def linkStore (us : List Assembly) (maps : LoadMaps) (i : Nat) (u : Assembly) (r : DvmRel) :
    Nat × List Byte :=
  (fieldPos us i r % 2 ^ 32,
    ((u.obj.syms[r.symIndex.toNat]?.bind (referent (objects us) i r.symIndex.toNat)).map
      fun t => relValue (maps.addr t.sec) t r).getD [])

/-- The stores for the relocations of all sources. -/
def linkStores (us : List Assembly) (maps : LoadMaps) : List (Nat × List Byte) :=
  us.zipIdx.flatMap fun x => x.1.ctx.rels.map (linkStore us maps x.2 x.1)

theorem zipIdx_getElem? {us : List Assembly} {i : Nat} {u : Assembly} (h : us[i]? = some u) :
    us.zipIdx[i]? = some (u, i) := by
  rw [List.getElem?_zipIdx, h, Nat.zero_add]
  rfl

theorem objects_getElem? {us : List Assembly} {i : Nat} {u : Assembly} (h : us[i]? = some u) :
    (objects us)[i]? = some u.obj := by
  rw [objects, List.getElem?_map, h]
  rfl

section LinkedRels

variable {us : List Assembly} {entrySym : Option CStr} {out : DvmProg} {i j : Nat} {u : Assembly}
  {r : DvmRel}

/-- The operands of the relocations lie inside the linked code. -/
theorem LinkedRel.inside (h : LinkedRel us i j u r) :
    fieldPos us i r + r.width ≤ ((objects us).flatMap DvmProg.code).length := by
  have hfit := u.patchesInside r (List.mem_of_getElem? h.rel)
  have hpart : codeBase us i + u.obj.code.length ≤ ((objects us).flatMap DvmProg.code).length :=
    start_add_le DvmProg.code (objects_getElem? h.source)
  rw [fieldPos]
  omega

/-- The linked relocation of a relocation. -/
theorem LinkedRel.output (hlink : dvmLink (objects us) entrySym = .ok out)
    (h : LinkedRel us i j u r) : ∃ r', out.rels[relPos (objects us) i j]? = some r' ∧
      r'.codeOffset.toNat = fieldPos us i r % 2 ^ 32 ∧ r'.width = r.width := by
  obtain ⟨s, k, -, -, hr'⟩ := (dvmLink_ok hlink).2.2 i u.obj j r (objects_getElem? h.source) h.rel
  refine ⟨_, hr', ?_, rfl⟩
  rw [remap, BitVec.toNat_add, BitVec.toNat_ofNat, fieldPos, codeBase, Nat.add_mod_mod,
    Nat.add_comm]

/-- There are no others, and a relocation has one only. -/
theorem linkedRel_of_mem (hlink : dvmLink (objects us) entrySym = .ok out) {r' : DvmRel}
    (hr' : r' ∈ out.rels) :
    ∃ i j u r, LinkedRel us i j u r ∧ out.rels[relPos (objects us) i j]? = some r' := by
  obtain ⟨i, o, r, s, k, hi, hr, hs, hk, rfl⟩ := dvmLink_mem_rels hlink hr'
  have hobj := hi
  rw [objects, List.getElem?_map, Option.map_eq_some_iff] at hi
  obtain ⟨u, hi, rfl⟩ := hi
  obtain ⟨j, hj⟩ := List.mem_iff_getElem?.mp hr
  obtain ⟨s', k', hs', hk', hrel⟩ := (dvmLink_ok hlink).2.2 i u.obj j r hobj hj
  rw [hs, Option.some.injEq] at hs'
  subst hs'
  rw [hk, Option.some.injEq] at hk'
  subst hk'
  exact ⟨i, j, u, r, ⟨hi, hj⟩, hrel⟩

/-- In linked code of at most 4 GiB no relocation wraps around. -/
theorem LinkedRel.fieldPos_lt (hlink : dvmLink (objects us) entrySym = .ok out)
    (hle : out.code.length ≤ 2 ^ 32) (h : LinkedRel us i j u r) : fieldPos us i r < 2 ^ 32 := by
  have hin := h.inside
  have hpos : 0 < r.width := by
    unfold DvmRel.width
    split <;> omega
  rw [← (dvmLink_ok hlink).2.1] at hin
  omega

theorem not_wrapsOnto (hlink : dvmLink (objects us) entrySym = .ok out)
    (hle : out.code.length ≤ 2 ^ 32) (x : Nat) : ¬ WrapsOnto us x := by
  rintro ⟨i, j, u, r, h, hge, -⟩
  have hlt := h.fieldPos_lt hlink hle
  omega

end LinkedRels

/-! ## 3. What decides it -/

/-- The symbol that source `i`'s relocations of a name refer to after linking: their index is
the name's place among the names of the source. -/
def linkedSym (us : List Assembly) (i : Nat) (u : Assembly) (name : CStr) : Option DvmSym :=
  u.obj.syms[u.names.names.idxOf name]?.bind (referent (objects us) i (u.names.names.idxOf name))

/-- An operand with a relocation lies in the first 4 GiB and is resolved to the label's position,
and one without a relocation needs no rebasing. -/
def Rebased (us : List Assembly) (i p : Nat) (u : Assembly) (l : AsmLabel) : Prop :=
  if (p, l.name) ∈ u.names.relocated then
    codeBase us i + p < 2 ^ 32 ∧
      ∃ t, linkedSym us i u l.name = some t ∧ t.offset.toNat = codeBase us i + l.offset.toNat
  else codeBase us i = 0

/-- The operand is rebased, or overwritten by relocations of operands behind 4 GiB, which leave
the label's position there. -/
structure StaysRebased (us : List Assembly) (maps : LoadMaps) (i p : Nat) (u : Assembly)
    (l : AsmLabel) : Prop where
  own : ¬ WrapsOnto us (codeBase us i + p) → Rebased us i p u l
  overwritten : WrapsOnto us (codeBase us i + p) →
    ofLe (field (patchAll ((objects us).flatMap DvmProg.code) (linkStores us maps))
      (codeBase us i + p) 4) = codeBase us i + l.offset.toNat

section Positions

variable {us : List Assembly} {i j p q : Nat} {u v : Assembly} {e e' : Emit}

/-- The emissions of all sources lie one behind the other in the linked code. -/
theorem emits_sep (hi : us[i]? = some u) (hj : us[j]? = some v) (he : At Emit.size u.emits p e)
    (he' : At Emit.size v.emits q e') :
    (i = j ∧ p = q ∧ e = e') ∨ codeBase us i + p + e.size ≤ codeBase us j + q ∨
      codeBase us j + q + e'.size ≤ codeBase us i + p := by
  have hend := u.length_code ▸ he.end_le
  have hend' := v.length_code ▸ he'.end_le
  rcases Nat.lt_trichotomy i j with hij | rfl | hij
  · have hstart : codeBase us i + u.obj.code.length ≤ codeBase us j :=
      start_add_le_start DvmProg.code (objects_getElem? hi) hij
    exact .inr (.inl (by omega))
  · rw [hi, Option.some.injEq] at hj
    subst hj
    rcases he.sep he' with ⟨hp, heq⟩ | hsep | hsep
    · exact .inl ⟨rfl, hp, heq⟩
    · exact .inr (.inl (by omega))
    · exact .inr (.inr (by omega))
  · have hstart : codeBase us j + v.obj.code.length ≤ codeBase us i :=
      start_add_le_start DvmProg.code (objects_getElem? hj) hij
    exact .inr (.inr (by omega))

/-- They end inside it. -/
theorem emits_end_le {entrySym : Option CStr} {out : DvmProg}
    (hlink : dvmLink (objects us) entrySym = .ok out) (hi : us[i]? = some u)
    (he : At Emit.size u.emits p e) : codeBase us i + p + e.size ≤ out.code.length := by
  have hend := u.length_code ▸ he.end_le
  have hpart : codeBase us i + u.obj.code.length ≤ out.code.length :=
    (dvmLink_ok hlink).2.1 ▸ start_add_le DvmProg.code (objects_getElem? hi)
  omega

/-- The linked code holds there what the assembler wrote. -/
theorem field_code {entrySym : Option CStr} {out : DvmProg}
    (hlink : dvmLink (objects us) entrySym = .ok out) (hi : us[i]? = some u)
    (he : At Emit.size u.emits p e) :
    field out.code (codeBase us i + p) e.size = field u.ctx.text.bytes p e.size := by
  have hend := u.length_code ▸ he.end_le
  rw [(dvmLink_ok hlink).2.1, flatMap_split DvmProg.code (objects_getElem? hi)]
  show field _ ((((objects us).take i).flatMap DvmProg.code).length + p) e.size = _
  rw [field_append_right, field_append_left hend]
  rfl

end Positions

/-! ## 4. What the loader stores -/

section Loaded

variable {us : List Assembly} {entrySym : Option CStr} {out : DvmProg} {maps : LoadMaps}
  {m m' : Mem} {ld : DvmLoaded}

/-- The stores of the loader are those for the relocations of the sources, in their order. -/
theorem relStores_eq (hlink : dvmLink (objects us) entrySym = .ok out)
    (hload : dvmLoad maps m out = .ok (ld, m')) : relStores maps out = linkStores us maps := by
  have hlen : ∀ x : Assembly × Nat,
      (x.1.obj.rels).length = (x.1.ctx.rels.map (linkStore us maps x.2 x.1)).length :=
    fun x => (List.length_map _).symm
  have hobjs : us.zipIdx.map (fun x => x.1.obj) = objects us := by
    conv_rhs => rw [objects, ← List.zipIdx_map_fst 0 us, List.map_map]
    rfl
  have hstart : ∀ i, relPos (objects us) i 0
      = start (fun x => x.1.ctx.rels.map (linkStore us maps x.2 x.1)) us.zipIdx i := by
    intro i
    rw [← start_map (f := fun x : Assembly × Nat => x.1.obj) (g := DvmProg.rels) hlen, hobjs]
    rfl
  apply List.ext_getElem?
  intro n
  rcases Nat.lt_or_ge n (linkStores us maps).length with hn | hn
  · have hget := List.getElem?_eq_getElem hn
    obtain ⟨i, ⟨u, i'⟩, j, hi, hj, rfl⟩ := exists_of_getElem?_flatMap hget
    rw [List.getElem?_zipIdx, Option.map_eq_some_iff] at hi
    obtain ⟨u', hi, heq⟩ := hi
    rw [Nat.zero_add] at heq
    obtain ⟨rfl, rfl⟩ := Prod.mk.inj heq
    rw [List.getElem?_map, Option.map_eq_some_iff] at hj
    obtain ⟨r, hj, hr⟩ := hj
    obtain ⟨s, -, hs, -⟩ := (dvmLink_ok hlink).2.2 i u'.obj j r (objects_getElem? hi) hj
    obtain ⟨r', t, hr', ht, hfrom⟩ := dvmLink_referent hlink (objects_getElem? hi) hj hs
    rw [hget, ← hr, ← hstart, relStores, List.getElem?_map]
    show (out.rels[relPos (objects us) i j]?).map _ = _
    have hvalue : relBytes maps out r' = relValue (maps.addr t.sec) t r := by
      rw [relBytes_of_dvmLoad hload (List.mem_of_getElem? hr') hfrom.sym]
      unfold relValue
      rw [hfrom.kind]
    rw [hr', Option.map_some, hfrom.toNat_codeOffset, hvalue, linkStore, hs, Option.bind_some, ht,
      fieldPos, codeBase, Nat.add_comm]
    rfl
  · have hcount : out.rels.length = (linkStores us maps).length := by
      rw [length_rels_dvmLink hlink, ← hobjs, List.flatMap_map, List.length_flatMap, linkStores,
        List.length_flatMap]
      exact congrArg List.sum (List.map_congr_left fun x _ => hlen x)
    rw [List.getElem?_eq_none hn, List.getElem?_eq_none]
    rwa [relStores, List.length_map, hcount]

/-- The output relocation `r` is for the reference `e` at text position `p` of source `i`. -/
structure RelAt (us : List Assembly) (maps : LoadMaps) (out : DvmProg) (r : DvmRel) (i p : Nat)
    (u : Assembly) (e : Emit) : Prop where
  source : us[i]? = some u
  reference : At Emit.size u.emits p e
  codeOffset : r.codeOffset.toNat = codeBase us i + p
  width : r.width = e.size
  code : ∀ name, e = .codeRef name → (p, name) ∈ u.names.relocated ∧
    ∃ t, linkedSym us i u name = some t ∧ relBytes maps out r = le 4 t.offset.toNat

/-- The output relocation of relocation `r` of source `i`, whose operand lies in the first
4 GiB. -/
theorem LinkedRel.relAt (hlink : dvmLink (objects us) entrySym = .ok out)
    (hload : dvmLoad maps m out = .ok (ld, m')) {i j : Nat} {u : Assembly} {r r' : DvmRel}
    (h : LinkedRel us i j u r) (hlt : fieldPos us i r < 2 ^ 32)
    (hr' : out.rels[relPos (objects us) i j]? = some r') :
    ∃ e, RelAt us maps out r' i r.codeOffset.toNat u e := by
  have hmem := List.mem_of_getElem? hr'
  obtain ⟨e, l, hat, hwidth, hl, href⟩ := u.operand (List.mem_of_getElem? h.rel)
  obtain ⟨s, -, hs, -⟩ := (dvmLink_ok hlink).2.2 i u.obj j r (objects_getElem? h.source) h.rel
  obtain ⟨r'', t, hr'', ht, hfrom⟩ := dvmLink_referent hlink (objects_getElem? h.source) h.rel hs
  obtain rfl : r' = r'' := Option.some.inj (hr'.symm.trans hr'')
  refine ⟨e, h.source, hat, ?_, ?_, ?_⟩
  · rw [hfrom.toNat_codeOffset, Nat.add_comm]
    exact Nat.mod_eq_of_lt hlt
  · rw [DvmRel.width, hfrom.kind]
    exact hwidth
  · rintro name rfl
    rcases href with ⟨he, hk⟩ | ⟨he, -⟩
    · cases he
      obtain ⟨hname, hidx⟩ := u.idxOf_label hl
      refine ⟨u.abstracts.mem_relocated_iff.mpr
        ⟨r, List.mem_of_getElem? h.rel, rfl, hname⟩, t, ?_, ?_⟩
      · rw [linkedSym, hidx, hs, Option.bind_some, ht]
      · rw [relBytes_of_dvmLoad hload hmem hfrom.sym, relValue, hfrom.kind, if_pos hk]
    · cases he

/-- A relocation that the operand left behind is carried out at the operand. -/
theorem relAt_of_relocated (hlink : dvmLink (objects us) entrySym = .ok out)
    (hload : dvmLoad maps m out = .ok (ld, m')) {i p : Nat} (hlt : codeBase us i + p < 2 ^ 32)
    {u : Assembly} {name : CStr} (hi : us[i]? = some u) (hrel : (p, name) ∈ u.names.relocated) :
    ∃ r' ∈ out.rels, ∃ e, RelAt us maps out r' i p u e := by
  obtain ⟨r, hr, rfl, -⟩ := u.abstracts.mem_relocated_iff.mp hrel
  obtain ⟨j, hj⟩ := List.mem_iff_getElem?.mp hr
  have h : LinkedRel us i j u r := ⟨hi, hj⟩
  obtain ⟨r', hr', -⟩ := h.output hlink
  exact ⟨r', List.mem_of_getElem? hr', h.relAt hlink hload hlt hr'⟩

theorem patchesInside_dvmLink (hlink : dvmLink (objects us) entrySym = .ok out) :
    PatchesInside out := by
  refine dvmLink_patchesInside (fun o ho => ?_) hlink
  obtain ⟨u, -, rfl⟩ := List.mem_map.mp ho
  exact u.patchesInside

/-- Where no relocation wraps around to, a store is the relocation of the operand, or leaves the
operand alone. -/
theorem store_sep (hlink : dvmLink (objects us) entrySym = .ok out)
    (hload : dvmLoad maps m out = .ok (ld, m')) {i p : Nat}
    (hno : ¬ WrapsOnto us (codeBase us i + p)) {u : Assembly} {name : CStr}
    (hi : us[i]? = some u) (hat : At Emit.size u.emits p (.codeRef name)) {x : Nat × List Byte}
    (hx : x ∈ relStores maps out) :
    (codeBase us i + p < 2 ^ 32 ∧ (p, name) ∈ u.names.relocated ∧
        ∃ t, linkedSym us i u name = some t ∧ x = (codeBase us i + p, le 4 t.offset.toNat)) ∨
      x.1 + x.2.length ≤ codeBase us i + p ∨ codeBase us i + p + 4 ≤ x.1 := by
  obtain ⟨r', hr', rfl⟩ := List.mem_map.mp hx
  obtain ⟨i', j, v, r, hrel, hget⟩ := linkedRel_of_mem hlink hr'
  have hlen := length_relBytes_le maps out r'
  rcases Nat.lt_or_ge (fieldPos us i' r) (2 ^ 32) with hlt | hge
  · -- the relocation is carried out at its operand, and operands lie apart
    obtain ⟨e, hrelAt⟩ := hrel.relAt hlink hload hlt hget
    have hpos := hrelAt.codeOffset
    rw [hrelAt.width] at hlen
    rcases emits_sep hi hrelAt.source hat hrelAt.reference with ⟨rfl, rfl, rfl⟩ | hsep | hsep
    · have hj := hrelAt.source
      rw [hi, Option.some.injEq] at hj
      subst hj
      obtain ⟨hmem, t, ht, hbytes⟩ := hrelAt.code name rfl
      exact .inl ⟨hlt, hmem, t, ht, Prod.ext hpos hbytes⟩
    · exact .inr (.inr (hpos ▸ hsep))
    · refine .inr (.inl ?_)
      simp only [hpos]
      omega
  · -- it wraps around, to some other place
    obtain ⟨r'', hget', hpos, hwidth⟩ := hrel.output hlink
    obtain rfl : r' = r'' := Option.some.inj (hget.symm.trans hget')
    have hmiss : ¬ (fieldPos us i' r % 2 ^ 32 < codeBase us i + p + 4 ∧
        codeBase us i + p < fieldPos us i' r % 2 ^ 32 + r.width) :=
      fun h => hno ⟨i', j, v, r, hrel, hge, h⟩
    right
    simp only [hpos]
    omega

/-! ## 5. What a loaded operand is -/

theorem ofLe_offsetBytes {q : Nat} (h : q < 2 ^ 32) : ofLe (offsetBytes q) = q := by
  rw [offsetBytes, BitVec.ofInt_natCast, BitVec.toNat_ofNat, Nat.mod_eq_of_lt h]
  exact ofLe_le_of_lt h

theorem loadedOperand_eq (hlink : dvmLink (objects us) entrySym = .ok out)
    (hload : dvmLoad maps m out = .ok (ld, m')) (hspace : out.code.length < 2 ^ 64) {i p : Nat}
    {u : Assembly} {name : CStr} (hi : us[i]? = some u)
    (hat : At Emit.size u.emits p (.codeRef name)) :
    loadedOperand us maps m' i p
      = field (patchAll out.code (relStores maps out)) (codeBase us i + p) 4 := by
  have hin := patchesInside_dvmLink hlink
  rw [← dvmLoad_code hload hin hspace]
  exact readBytes_sub m' maps.code (emits_end_le hlink hi hat)

/-- With a relocation: what its symbol says. -/
theorem loadedOperand_relocated (hlink : dvmLink (objects us) entrySym = .ok out)
    (hload : dvmLoad maps m out = .ok (ld, m')) (hspace : out.code.length < 2 ^ 64) {i p : Nat}
    (hno : ¬ WrapsOnto us (codeBase us i + p)) (hlt : codeBase us i + p < 2 ^ 32)
    {u : Assembly} {name : CStr} (hi : us[i]? = some u)
    (hat : At Emit.size u.emits p (.codeRef name)) (hrel : (p, name) ∈ u.names.relocated) :
    ∃ t, linkedSym us i u name = some t ∧
      loadedOperand us maps m' i p = le 4 t.offset.toNat := by
  obtain ⟨r', hr', e, hrelAt⟩ := relAt_of_relocated hlink hload hlt hi hrel
  have he : e = .codeRef name := by
    rcases hat.sep hrelAt.reference with ⟨-, he⟩ | hsep | hsep
    · exact he.symm
    · rw [size_codeRef] at hsep
      omega
    · have hpos : 0 < r'.width := by
        unfold DvmRel.width
        split <;> omega
      rw [hrelAt.width] at hpos
      omega
  obtain ⟨-, t, ht, hbytes⟩ := hrelAt.code name he
  refine ⟨t, ht, ?_⟩
  have hin := patchesInside_dvmLink hlink
  have hstored : (codeBase us i + p, le 4 t.offset.toNat) ∈ relStores maps out :=
    List.mem_map.mpr ⟨r', hr', Prod.ext hrelAt.codeOffset hbytes⟩
  have hsame : ∀ x ∈ relStores maps out, x = (codeBase us i + p, le 4 t.offset.toNat) ∨
      x.1 + x.2.length ≤ codeBase us i + p ∨
      codeBase us i + p + (le 4 t.offset.toNat).length ≤ x.1 := by
    intro x hx
    rw [length_le]
    rcases store_sep hlink hload hno hi hat hx with ⟨-, -, t', ht', hxp⟩ | hsep
    · rw [ht, Option.some.injEq] at ht'
      exact .inl (ht' ▸ hxp)
    · exact .inr hsep
  have hfield := field_patchAll (relStores_fit hin maps) hsame (.inr hstored)
  rw [length_le] at hfield
  rw [loadedOperand_eq hlink hload hspace hi hat, hfield]

/-- Without one, or with one that wraps around: what the assembler wrote. -/
theorem loadedOperand_plain (hlink : dvmLink (objects us) entrySym = .ok out)
    (hload : dvmLoad maps m out = .ok (ld, m')) (hspace : out.code.length < 2 ^ 64) {i p : Nat}
    (hno : ¬ WrapsOnto us (codeBase us i + p)) {u : Assembly} {name : CStr}
    (hi : us[i]? = some u) (hat : At Emit.size u.emits p (.codeRef name))
    (hplain : (p, name) ∈ u.names.relocated → 2 ^ 32 ≤ codeBase us i + p) :
    loadedOperand us maps m' i p = field u.ctx.text.bytes p 4 := by
  have hin := patchesInside_dvmLink hlink
  rw [loadedOperand_eq hlink hload hspace hi hat,
    field_patchAll_disjoint (relStores_fit hin maps)]
  · exact field_code hlink hi hat
  · intro x hx
    rcases store_sep hlink hload hno hi hat hx with ⟨hlt, hrel, -⟩ | hsep
    · exact absurd hlt (Nat.not_lt.mpr (hplain hrel))
    · exact hsep

/-- The label of a jump within its source is written as its offset, which is not the position
behind other code. -/
theorem OwnJump.plain_iff {i p : Nat} {u : Assembly} {l : AsmLabel} (h : OwnJump us i p u l) :
    ofLe (field u.ctx.text.bytes p 4) = codeBase us i + l.offset.toNat ↔ codeBase us i = 0 := by
  obtain ⟨hdef, hfield⟩ := u.accepted.codeRef_label h.operand h.label h.defined
  obtain ⟨q, hq, hle⟩ := u.accepted.codeDef_le h.label hdef
  have hbuf := u.ctx.text.fits
  unfold dvmBufMax at hbuf
  rw [hfield, hq, ofLe_offsetBytes (by omega), Int.toNat_natCast]
  omega

/-- A jump operand that no relocation wraps around to is loaded as the position of its label
exactly if it is rebased. -/
theorem OwnJump.rebased_iff (hlink : dvmLink (objects us) entrySym = .ok out)
    (hload : dvmLoad maps m out = .ok (ld, m')) (hspace : out.code.length < 2 ^ 64) {i p : Nat}
    (hno : ¬ WrapsOnto us (codeBase us i + p)) {u : Assembly} {l : AsmLabel}
    (h : OwnJump us i p u l) :
    ofLe (loadedOperand us maps m' i p) = codeBase us i + l.offset.toNat ↔ Rebased us i p u l := by
  unfold Rebased
  split
  · next hrel =>
    rcases Nat.lt_or_ge (codeBase us i + p) (2 ^ 32) with hlt | hge
    · obtain ⟨t, ht, hop⟩ :=
        loadedOperand_relocated hlink hload hspace hno hlt h.source h.operand hrel
      have hbound : t.offset.toNat < 256 ^ 4 := t.offset.isLt
      rw [hop, ofLe_le_of_lt hbound, ht]
      simpa using fun _ => hlt
    · -- the relocation is carried out elsewhere, and there is code in front of the source
      rw [loadedOperand_plain hlink hload hspace hno h.source h.operand fun _ => hge, h.plain_iff]
      have hend := u.length_code ▸ h.operand.end_le
      have hbuf : u.obj.code.length ≤ dvmBufMax := u.ctx.text.fits
      unfold dvmBufMax at hbuf
      constructor
      · intro hzero
        omega
      · rintro ⟨hlt, -⟩
        omega
  · next hplain =>
    rw [loadedOperand_plain hlink hload hspace hno h.source h.operand fun hrel =>
      absurd hrel hplain, h.plain_iff]

/-- What a jump operand is loaded as, relocations that wrap around to it included. -/
theorem OwnJump.kept_iff (hlink : dvmLink (objects us) entrySym = .ok out)
    (hload : dvmLoad maps m out = .ok (ld, m')) (hspace : out.code.length < 2 ^ 64) {i p : Nat}
    {u : Assembly} {l : AsmLabel} (h : OwnJump us i p u l) :
    ofLe (loadedOperand us maps m' i p) = codeBase us i + l.offset.toNat ↔
      StaysRebased us maps i p u l := by
  by_cases hwrap : WrapsOnto us (codeBase us i + p)
  · rw [loadedOperand_eq hlink hload hspace h.source h.operand, relStores_eq hlink hload,
      (dvmLink_ok hlink).2.1]
    exact ⟨fun hkept => ⟨fun hno => absurd hwrap hno, fun _ => hkept⟩, fun hst =>
      hst.overwritten hwrap⟩
  · rw [h.rebased_iff hlink hload hspace hwrap]
    exact ⟨fun hreb => ⟨fun _ => hreb, fun hw => absurd hw hwrap⟩, fun hst => hst.own hwrap⟩

end Loaded

/-! ## 6. Which jumps are kept -/

/-- All jumps are kept exactly if every operand is rebased, and stays so.  The size of the linked
code is a `size_t`. -/
theorem jumpsKept_iff {us : List Assembly} {entrySym : Option CStr} {out : DvmProg}
    {maps : LoadMaps} {m m' : Mem} {ld : DvmLoaded}
    (hlink : dvmLink (objects us) entrySym = .ok out)
    (hload : dvmLoad maps m out = .ok (ld, m')) (hspace : out.code.length < 2 ^ 64) :
    JumpsKept us maps m' ↔ ∀ i p u l, OwnJump us i p u l → StaysRebased us maps i p u l := by
  constructor
  · intro hkept i p u l h
    exact (h.kept_iff hlink hload hspace).mp (hkept i p u l h)
  · intro hall i p u l h
    exact (h.kept_iff hlink hload hspace).mpr (hall i p u l h)

/-- Where the examples are loaded. -/
def sampleMaps : LoadMaps := ⟨0x1000, 0x2000, 0x3000⟩

theorem load_of_no_rels {p : DvmProg} (hcode : p.code ≠ []) (hrels : p.rels = []) :
    dvmLoad sampleMaps (fun _ => 0) p
      = .ok (loadedProg sampleMaps p, copySections sampleMaps (fun _ => 0) p) := by
  rw [dvmLoad_ok_iff, hrels]
  exact ⟨hcode, by simp, rfl, rfl⟩

/-- A jump back to its own label. -/
def jumpBack : List Byte := lit "start: jmp start\n"

theorem exists_jumpBack : ∃ u : Assembly, u.src = jumpBack ∧
    u.obj = { code := [0x15, 0, 0, 0, 0], syms := [⟨lit "start", dvmSymLocal, dvmSecCode, 0⟩] } ∧
    u.ctx.labels = [⟨lit "start", dvmSymLocal, dvmSecCode, 0⟩] ∧
    u.emits = [emitOp .jmp, .codeRef (lit "start")] ∧ u.names.relocated = [] := by
  obtain ⟨ctx, hok, hobj, hlabels⟩ : ∃ ctx, asmCompile zeroEnv jumpBack = .ok ctx ∧
      asmToProg ctx = { code := [0x15, 0, 0, 0, 0],
                        syms := [⟨lit "start", dvmSymLocal, dvmSecCode, 0⟩] } ∧
      ctx.labels = [⟨lit "start", dvmSymLocal, dvmSecCode, 0⟩] :=
    exists_ok_of_decide (by decide)
  have hemits : (codeEmits zeroEnv jumpBack).flatten = [emitOp .jmp, .codeRef (lit "start")] := by
    decide +kernel
  have hno : (sourceNames zeroEnv jumpBack).relocated = [] := by decide +kernel
  exact ⟨⟨zeroEnv, jumpBack, ctx, hok⟩, rfl, hobj, hlabels, hemits, hno⟩

/-- Linked alone it is kept. -/
theorem jumpBack_kept :
    ∃ u : Assembly, u.src = jumpBack ∧ ∃ out ld m', dvmLink (objects [u]) none = .ok out ∧
      dvmLoad sampleMaps (fun _ => 0) out = .ok (ld, m') ∧ JumpsKept [u] sampleMaps m' := by
  obtain ⟨u, hsrc, hobj, -, -, hno⟩ := exists_jumpBack
  obtain ⟨out, hlink, hrels, hcode, hfits⟩ : ∃ out, dvmLink (objects [u]) none = .ok out ∧
      out.rels = [] ∧ out.code ≠ [] ∧ out.code.length < 2 ^ 32 := by
    rw [objects, List.map_singleton, hobj]
    exact ⟨_, rfl, rfl, by decide, by decide⟩
  have hload := load_of_no_rels hcode hrels
  refine ⟨u, hsrc, out, _, _, hlink, hload, (jumpsKept_iff hlink hload (by omega)).mpr ?_⟩
  intro i p v l h
  refine ⟨fun _ => ?_, fun hwrap => absurd hwrap (not_wrapsOnto hlink (by omega) _)⟩
  cases i with
  | zero =>
    obtain rfl : u = v := Option.some.inj h.source
    rw [Rebased, hno, if_neg List.not_mem_nil]
    rfl
  | succ i => cases h.source

/-- One instruction. -/
def haltOnly : List Byte := lit "halt\n"

/-- Linked behind another object the jump goes to the beginning of that object. -/
theorem jumpBack_not_rebased :
    ∃ u v : Assembly, u.src = haltOnly ∧ v.src = jumpBack ∧ ∃ out ld m',
      dvmLink (objects [u, v]) none = .ok out ∧ out.code.length < 2 ^ 32 ∧
      dvmLoad sampleMaps (fun _ => 0) out = .ok (ld, m') ∧ ¬ JumpsKept [u, v] sampleMaps m' := by
  obtain ⟨ctx, hok, hhalt⟩ : ∃ ctx, asmCompile zeroEnv haltOnly = .ok ctx ∧
      asmToProg ctx = { code := [0x2f] } := exists_ok_of_decide (by decide)
  let u : Assembly := ⟨zeroEnv, haltOnly, ctx, hok⟩
  obtain ⟨v, hsrc, hobj, hlabels, hemits, hno⟩ := exists_jumpBack
  have hobjs : objects [u, v] = [asmToProg ctx, v.obj] := rfl
  rw [hhalt, hobj] at hobjs
  obtain ⟨out, hlink, hrels, hcode, hfits⟩ : ∃ out, dvmLink (objects [u, v]) none = .ok out ∧
      out.rels = [] ∧ out.code ≠ [] ∧ out.code.length < 2 ^ 32 := by
    rw [hobjs]
    exact ⟨_, rfl, rfl, by decide, by decide⟩
  have hload := load_of_no_rels hcode hrels
  refine ⟨u, v, rfl, hsrc, out, _, _, hlink, hfits, hload, ?_⟩
  intro hkept
  have hjump : OwnJump [u, v] 1 1 v ⟨lit "start", dvmSymLocal, dvmSecCode, 0⟩ := by
    refine ⟨rfl, ?_, hlabels ▸ .head _, Int.le_refl 0⟩
    rw [hemits]
    exact ⟨[emitOp .jmp], [], rfl, rfl⟩
  have hbase : codeBase [u, v] 1 = 1 := by
    rw [codeBase, hobjs]
    rfl
  have hreb := (hjump.rebased_iff hlink hload (by omega) (not_wrapsOnto hlink (by omega) _)).mp
    (hkept 1 1 v _ hjump)
  rw [Rebased, hno, if_neg List.not_mem_nil, hbase] at hreb
  cases hreb

end Dvm
