/-
# The listing of several sources, linked and run

A linked program is the instructions of its sources one behind the other.  What a name leads to
depends on the source that uses it: its own definition, or the one that another source exports
(`linkTarget`).  `linkedListing` is read off the sources alone.  Where no reference is lost on the
way, the linked and loaded text is the layout of that listing (`linked_laidOut`), and a run from
the beginning does what the listing does (`linked_runs`).
-/
import Dvm.Asm.Exports
import Dvm.Link.Preserve
import Dvm.LinkFrame
import Dvm.Prog.Loaded

namespace Dvm

open Bytes ByteMem Layout Loops Table Concat Runs

/-! ## 1. The listing of several sources -/

section Listing

variable (us : List Assembly) (maps : LoadMaps)

/-- The number of instructions of the sources before source `i`. -/
def firstInstr (i : Nat) : Nat := start (fun u => codeLines u.env u.src) us i

/-- Where a section of source `i` is mapped: behind those of the sources before it. -/
def sectionAddr (i : Nat) (sec : DvmSection) : Word :=
  maps.addr sec + BitVec.ofNat 64 (start (fun u => sectionBytes sec u.stmts) us i)

/-- What source `i` defines a name as. -/
def definedIn (i : Nat) (name : CStr) : Option Target :=
  us[i]?.bind fun u => nameTarget (firstInstr us i) (sectionAddr us maps i) u.stmts name

/-- What source `i` exports a name as. -/
def exportedIn (i : Nat) (name : CStr) : Option Target :=
  us[i]?.bind fun u =>
    if Export.afterAll name .unknown u.stmts = .shown then definedIn us maps i name else none

/-- What a name in source `i` leads to. -/
def linkTarget (i : Nat) (name : CStr) : Option Target :=
  (definedIn us maps i name).or
    ((List.range us.length).findSome? fun j => exportedIn us maps j name)

/-- The code lines of source `i`, with what their names lead to. -/
def sourceScope (x : Assembly × Nat) : List ScopedLine :=
  (codeLines x.1.env x.1.src).map fun c => (linkTarget us maps x.2, c.2)

/-- The code lines of all sources. -/
def linkedLines : List ScopedLine := us.zipIdx.flatMap (sourceScope us maps)

/-- The listing of all sources; `none` if a line refers to a name that its source does not define
and no source exports, or jumps to one outside the code section. -/
def linkedListing : Option (List (SymInstr Nat)) :=
  (linkedLines us maps).mapM fun l => resolveLine l.1 l.2

end Listing

section Lines

variable {us : List Assembly} {maps : LoadMaps} {prog : List (SymInstr Nat)} {i : Nat}
  {u : Assembly}

theorem start_sourceScope (us : List Assembly) (maps : LoadMaps) (i : Nat) :
    start (sourceScope us maps) us.zipIdx i = firstInstr us i := by
  have hmap := start_map (f := Prod.fst) (g := fun u : Assembly => codeLines u.env u.src)
    (k := sourceScope us maps) (fun x => (List.length_map _).symm) us.zipIdx i
  rw [← hmap, List.zipIdx_map_fst, firstInstr]

/-- Every line stands in one of the sources. -/
theorem line_of_linked {n : Nat} {l : ScopedLine} (h : (linkedLines us maps)[n]? = some l) :
    ∃ i u k c, us[i]? = some u ∧ (codeLines u.env u.src)[k]? = some c ∧
      n = firstInstr us i + k ∧ l = (linkTarget us maps i, c.2) := by
  obtain ⟨i, ⟨u, i'⟩, k, hi, hk, rfl⟩ := exists_of_getElem?_flatMap h
  rw [List.getElem?_zipIdx, Option.map_eq_some_iff] at hi
  obtain ⟨u', hu, heq⟩ := hi
  obtain ⟨rfl, rfl⟩ := Prod.mk.inj heq
  rw [sourceScope, List.getElem?_map, Option.map_eq_some_iff] at hk
  obtain ⟨c, hc, rfl⟩ := hk
  exact ⟨i, u', k, c, hu, hc, by rw [start_sourceScope], by rw [Nat.zero_add]⟩

/-- The lines of a source stand behind those of the sources before it. -/
theorem linked_of_line (hi : us[i]? = some u) {k : Nat} {c : CStr × List Emit}
    (hk : (codeLines u.env u.src)[k]? = some c) :
    (linkedLines us maps)[firstInstr us i + k]? = some (linkTarget us maps i, c.2) := by
  have hscope : (sourceScope us maps (u, i))[k]? = some (linkTarget us maps i, c.2) := by
    rw [sourceScope, List.getElem?_map, hk]
    rfl
  have hlt := (List.getElem?_eq_some_iff.mp hscope).1
  rw [← start_sourceScope us maps i, linkedLines,
    getElem?_flatMap (zipIdx_getElem? hi) hlt, hscope]

theorem linked_resolves (h : linkedListing us maps = some prog) :
    List.Forall₂ ResolvesTo (linkedLines us maps) prog := by
  have henc : ∀ l ∈ linkedLines us maps, ∃ op, Encodes op l.2 := by
    intro l hl
    obtain ⟨n, hn⟩ := List.getElem?_of_mem hl
    obtain ⟨i, u, k, c, -, hk, -, rfl⟩ := line_of_linked hn
    obtain ⟨op, -, hop⟩ := (asmCompile_accepted u.ok).2 c (List.mem_of_getElem? hk)
    exact ⟨op, hop⟩
  exact (List.forall₂_and_left _ _).mpr ⟨henc, forall₂_of_mapM h⟩

/-- The emissions of a source's lines. -/
theorem flatMap_sourceScope (x : Assembly × Nat) :
    (sourceScope us maps x).flatMap Prod.snd = x.1.emits := by
  rw [sourceScope, Assembly.emits, codeEmits, List.flatMap_map, List.flatMap_def]

/-- The emissions of sources are as long as their code. -/
theorem total_emits (vs : List Assembly) : total Emit.size (vs.flatMap Assembly.emits)
    = ((vs.map Assembly.obj).flatMap DvmProg.code).length := by
  induction vs with
  | nil => rfl
  | cons v vs ih =>
    rw [List.flatMap_cons, total_append, ih, List.map_cons, List.flatMap_cons, List.length_append,
      v.length_code]

/-- Where the instructions of a source begin in the listing, its code begins in the linked
code. -/
theorem listStart_linked (h : linkedListing us maps = some prog) (hi : us[i]? = some u) {k : Nat}
    (hk : k ≤ (codeLines u.env u.src).length) :
    listStart prog (firstInstr us i + k) = codeBase us i + u.textStart k := by
  have htake := total_lines (List.forall₂_take (firstInstr us i + k) (linked_resolves h))
  have hlen : (sourceScope us maps (u, i)).length = (codeLines u.env u.src).length :=
    List.length_map _
  have hfront : ((us.zipIdx.take i).flatMap (sourceScope us maps)).length = firstInstr us i :=
    start_sourceScope us maps i
  have hlines : (linkedLines us maps).take (firstInstr us i + k)
      = (us.zipIdx.take i).flatMap (sourceScope us maps)
        ++ (sourceScope us maps (u, i)).take k := by
    rw [linkedLines, flatMap_split _ (zipIdx_getElem? hi), ← hfront, List.take_length_add_append,
      List.take_append_of_le_length (by omega)]
  have hbase : total Emit.size (((us.zipIdx.take i).flatMap (sourceScope us maps)).flatMap Prod.snd)
      = codeBase us i := by
    rw [List.flatMap_assoc]
    simp only [flatMap_sourceScope]
    have hfst : (us.zipIdx.take i).flatMap (fun x => x.1.emits)
        = (us.take i).flatMap Assembly.emits := by
      conv_rhs => rw [← List.zipIdx_map_fst 0 us, ← List.map_take, List.flatMap_map]
    rw [hfst, total_emits, List.map_take]
    rfl
  rw [hlines, List.flatMap_append, total_append, hbase] at htake
  rw [listStart, ← List.take_length (l := prog.take _), ← listStart, ← htake, sourceScope,
    ← List.map_take, List.flatMap_map, Assembly.textStart, ← List.flatMap_def]

end Lines

/-! ## 2. Labels and the names of a source -/

theorem firstDef_of_hasLabel {xs : List SourceStmt} {name : CStr} (h : HasLabel xs name) :
    ∃ d, firstDef xs name = some d := by
  induction xs with
  | nil =>
    obtain ⟨x, hx, -⟩ := h
    cases hx
  | cons y xs ih =>
    by_cases hy : y.stmt = .label name
    · exact ⟨_, if_pos hy⟩
    · obtain ⟨d, hd⟩ := ih ((hasLabel_cons.mp h).resolve_left hy)
      exact ⟨_, by rw [firstDef, if_neg hy, hd]; rfl⟩

/-- An entry has one of the three flags. -/
def FlagsKnown (e : Option AsmLabel) : Prop :=
  ∀ l, e = some l → l.flags = dvmSymLocal ∨ l.flags = dvmSymGlobal ∨ l.flags = dvmSymExtern

theorem FlagsKnown.onEntry {e : Option AsmLabel} (h : FlagsKnown e) (x : SourceStmt)
    (name : CStr) (len : Nat) : FlagsKnown (x.onEntry name len e) := by
  have hdefine : ∀ new : AsmLabel, FlagsKnown (some new) →
      FlagsKnown (some (defineOver new e)) := by
    intro new hnew l hl
    obtain rfl := Option.some.inj hl
    unfold defineOver
    split
    · exact hnew new rfl
    · next l' =>
      split
      · exact hnew new rfl
      · exact h l' rfl
  have hflags : definedFlags e = dvmSymLocal ∨ definedFlags e = dvmSymGlobal := by
    unfold definedFlags
    split
    · exact .inr rfl
    · exact .inl rfl
  have hextern : FlagsKnown (some (externEntry name)) := by
    intro l hl
    obtain rfl := Option.some.inj hl
    exact .inr (.inr rfl)
  unfold SourceStmt.onEntry
  split
  · split
    · intro l hl
      obtain rfl := Option.some.inj hl
      unfold globalOver
      split <;> exact .inr (.inl rfl)
    · exact h
  · split
    · exact hdefine _ hextern
    · exact h
  · split
    · refine hdefine _ fun l hl => ?_
      obtain rfl := Option.some.inj hl
      exact hflags.imp_right .inl
    · exact h
  · split
    · cases e with
      | none => exact hextern
      | some l => exact h
    · exact h
  · exact h

namespace Assembly

variable {u : Assembly} {l : AsmLabel} {first : Nat} {addr : DvmSection → Word} {name : CStr}

theorem find_label (hl : l ∈ u.ctx.labels) : ∃ i, labelFind u.ctx.labels l.name = some (i, l) := by
  obtain ⟨i, hi⟩ := List.getElem?_of_mem hl
  exact ⟨i, find_of_nodup u.accepted.labels.nodup hi⟩

/-- Nothing is lost of the code references of a source that imports its names first. -/
theorem codeRefs_of_imported (u : Assembly) (h : ImportedFirst (sourceLines u.env u.src).flatten) :
    CodeRefsResolved (codeEmits u.env u.src).flatten u.ctx := by
  refine (u.accepted.codeRefs_iff u.abstracts flatten_codeEmits ?_).mpr h
  rw [filterMap_instr]
  exact (asmCompile_accepted u.ok).2

/-- A label has one of the three flags. -/
theorem flags_of_label (hl : l ∈ u.ctx.labels) :
    l.flags = dvmSymLocal ∨ l.flags = dvmSymGlobal ∨ l.flags = dvmSymExtern := by
  obtain ⟨ctx₀, hsrc, hlabels⟩ := labels_of_accepted u.ok
  obtain ⟨i, hf⟩ := u.find_label hl
  have hknown : FlagsKnown (entryIn ctx₀.labels l.name) :=
    entryIn_sources (I := FlagsKnown) (fun x _ len _ hI => hI.onEntry x l.name len) hsrc
      (fun _ hl => nomatch hl)
  rw [← hlabels, entryIn_of_find hf] at hknown
  exact hknown l rfl

/-- A label with an offset is not an extern. -/
theorem not_extern_of_nonneg (hl : l ∈ u.ctx.labels) (hoff : 0 ≤ l.offset) :
    l.flags ≠ dvmSymExtern := by
  intro hx
  have hneg := (u.accepted.labels.placed l hl).1 hx
  omega

/-- The name of a defined label leads somewhere. -/
theorem target_of_label (first : Nat) (addr : DvmSection → Word) (hl : l ∈ u.ctx.labels)
    (hoff : 0 ≤ l.offset) : ∃ t, nameTarget first addr u.stmts l.name = some t := by
  obtain ⟨ctx₀, hsrc, hlabels⟩ := labels_of_accepted u.ok
  obtain ⟨i, hf⟩ := u.find_label hl
  have hplace : entryPlace (entryIn ctx₀.labels l.name) = some (l.sec, l.offset) := by
    rw [← hlabels, entryIn_of_find hf, entryPlace_of_nonneg hoff]
  obtain ⟨n, -, k, x, c, hk, hx, -⟩ := labelDef_of_place hsrc hplace
  obtain ⟨d, hd⟩ : ∃ d, firstDef u.stmts l.name = some d :=
    firstDef_of_hasLabel ⟨x, List.mem_of_getElem? hk, hx⟩
  exact ⟨_, by rw [nameTarget, hd]; rfl⟩

/-- A name that leads somewhere has a defined label. -/
theorem label_of_target {t : Target} (ht : nameTarget first addr u.stmts name = some t) :
    ∃ l ∈ u.ctx.labels, l.name = name ∧ 0 ≤ l.offset := by
  rw [nameTarget, Option.map_eq_some_iff] at ht
  obtain ⟨⟨sec, before⟩, hd, -⟩ := ht
  obtain ⟨l, hl, hname, -, c, -, hoff⟩ := label_of_firstDef u.ok hd
  exact ⟨l, hl, hname, by omega⟩

/-- A shown name is that of a global label. -/
theorem label_of_shown (h : Export.afterAll name .unknown u.stmts = .shown) :
    ∃ l ∈ u.ctx.labels, l.name = name ∧ 0 ≤ l.offset ∧ l.flags = dvmSymGlobal := by
  obtain ⟨ctx₀, hsrc, hlabels⟩ := labels_of_accepted u.ok
  have hexport : exportOf (entryIn u.ctx.labels name) = .shown := by
    rw [hlabels]
    exact (exportOf_sources hsrc (externUndefined_init name)).trans h
  unfold exportOf at hexport
  split at hexport
  · cases hexport
  · next l hentry =>
    obtain ⟨i, hf⟩ := entryIn_eq_some_iff.mp hentry
    split at hexport
    · next hoff =>
      split at hexport
      · next hglobal =>
        exact ⟨l, List.mem_of_getElem? (getElem?_of_find hf), key_of_find hf, hoff, hglobal⟩
      · cases hexport
    · split at hexport <;> cases hexport

/-- The symbols of a source are those of its exported labels. -/
theorem toSym_mem (hl : l ∈ u.ctx.labels) (hexp : l.Exported) : l.toSym ∈ u.obj.syms := by
  rw [obj, u.accepted.syms]
  exact List.mem_map_of_mem (List.mem_filter.mpr ⟨hl, decide_eq_true hexp⟩)

theorem label_of_sym {s : DvmSym} (hs : s ∈ u.obj.syms) :
    ∃ l ∈ u.ctx.labels, l.Exported ∧ s = l.toSym := by
  rw [obj, u.accepted.syms] at hs
  obtain ⟨l, hl, rfl⟩ := List.mem_map.mp hs
  obtain ⟨hmem, hexp⟩ := List.mem_filter.mp hl
  exact ⟨l, hmem, of_decide_eq_true hexp, rfl⟩

/-- The symbol of a relocation is that of the label its operand names. -/
theorem toSym_of_rel (hgap : (sourceNames u.env u.src).NoGap) {r : DvmRel} (hr : r ∈ u.ctx.rels)
    (hl : l ∈ u.ctx.labels) (hnames : Names u.emits r.codeOffset.toNat l.name) :
    l.Exported ∧ u.obj.syms[r.symIndex.toNat]? = some l.toSym := by
  obtain ⟨s, hs, hsym⟩ := u.sym_of_rel hgap hr hl hnames
  obtain ⟨l', hl', hexp, rfl⟩ := u.label_of_sym (List.mem_of_getElem? hs)
  obtain rfl : l' = l := u.label_unique hl' hl hsym.1
  exact ⟨hexp, hs⟩

end Assembly

/-! ## 3. Places -/

/-- The target is the place `n` bytes into section `sec`. -/
def Target.IsAt (maps : LoadMaps) (prog : List (SymInstr Nat)) (sec : DvmSection) (n : Nat) :
    Target → Prop
  | .code k => sec = dvmSecCode ∧ listStart prog k = n
  | .data w => w = maps.addr sec + BitVec.ofNat 64 n

/-- The value of a reference to a place. -/
theorem Target.IsAt.value {maps : LoadMaps} {prog : List (SymInstr Nat)} {sec : DvmSection}
    {n : Nat} {t : Target} (h : t.IsAt maps prog sec n) {names : CStr → Option Target}
    {name : CStr} (ht : names name = some t) :
    (∀ k, t = .code k → (Emit.codeRef name).value maps.code (listStart prog) names = le 4 n) ∧
      (Emit.dataRef name).value maps.code (listStart prog) names
        = le 8 (maps.addr sec + BitVec.ofNat 64 n).toNat := by
  cases t with
  | code k =>
    obtain ⟨rfl, rfl⟩ := h
    refine ⟨fun _ _ => ?_, ?_⟩
    · rw [Emit.value, codeTarget, ht]
      rfl
    · rw [Emit.value, ht]
      rfl
  | data w =>
    obtain rfl := h
    refine ⟨fun k hk => ?_, ?_⟩
    · cases hk
    · rw [Emit.value, ht]

/-- The bases of the sections are the lengths of what the sources before define in them. -/
theorem baseOf_ofSec (us : List Assembly) (i : Nat) {sec : DvmSection} (hsec : IsDataSec sec) :
    (baseOf (objects us) i).ofSec sec = start (fun u => sectionBytes sec u.stmts) us i := by
  have hstart : ∀ g : DvmProg → List Byte, (∀ u : Assembly, g u.obj = (u.ctx.secBuf sec).bytes) →
      start g (objects us) i = start (fun u => sectionBytes sec u.stmts) us i := by
    intro g hg
    refine start_map (fun u => ?_) us i
    rw [hg, section_of_accepted u.ok hsec]
    rfl
  rcases hsec with rfl | rfl
  · exact hstart DvmProg.cnst fun u => rfl
  · exact hstart DvmProg.data fun u => rfl

/-- The sections of the linked program are no longer than the format can say. -/
structure SizesFit (p : DvmProg) : Prop where
  code : p.code.length < 2 ^ 32
  cnst : p.cnst.length < 2 ^ 32
  data : p.data.length < 2 ^ 32

/-- Where a definition lies in the linked program. -/
theorem place_of_definedIn {us : List Assembly} {maps : LoadMaps} {prog : List (SymInstr Nat)}
    {entrySym : Option CStr} {out : DvmProg} (hlink : dvmLink (objects us) entrySym = .ok out)
    (hfits : SizesFit out) (hlist : linkedListing us maps = some prog) {i : Nat} {u : Assembly}
    (hi : us[i]? = some u) {l : AsmLabel} (hl : l ∈ u.ctx.labels) {t : Target}
    (ht : definedIn us maps i l.name = some t) :
    ∃ n : Nat, n < 2 ^ 32 ∧ (adjust (baseOf (objects us) i) l.toSym).offset = BitVec.ofNat 32 n ∧
      0 ≤ l.offset ∧ t.IsAt maps prog l.sec n := by
  rw [definedIn, hi, Option.bind_some] at ht
  have hadjust : ∀ n : Nat, l.offset = n → (adjust (baseOf (objects us) i) l.toSym).offset
      = BitVec.ofNat 32 ((baseOf (objects us) i).ofSec l.sec + n) := by
    intro n hn
    have hx : l.flags ≠ dvmSymExtern := u.not_extern_of_nonneg hl (by omega)
    simp only [adjust, AsmLabel.toSym, if_neg hx]
    rw [if_pos (by omega), hn, BitVec.ofInt_natCast, Nat.add_comm, BitVec.ofNat_add]
  have hobj := objects_getElem? hi
  cases t with
  | code k =>
    obtain ⟨l', hl', hname, hsec, k', rfl, hk', hoff⟩ := u.label_of_code ht
    obtain rfl : l' = l := u.label_unique hl' hl hname
    have hbase : (baseOf (objects us) i).ofSec l'.sec = codeBase us i := by
      rw [hsec]
      rfl
    have hstart := listStart_linked hlist hi hk'
    have hle := u.textStart_le k'
    have hpart : codeBase us i + u.obj.code.length ≤ out.code.length :=
      (dvmLink_ok hlink).2.1 ▸ start_add_le DvmProg.code hobj
    have hcode := hfits.code
    exact ⟨codeBase us i + u.textStart k', by omega, hbase ▸ hadjust _ hoff, by omega, hsec, hstart⟩
  | data w =>
    obtain ⟨l', hl', hname, hsec, n, hoff, hn, rfl⟩ := u.label_of_data ht
    obtain rfl : l' = l := u.label_unique hl' hl hname
    have hbound : (baseOf (objects us) i).ofSec l'.sec + (u.ctx.secBuf l'.sec).bytes.length
        < 2 ^ 32 := by
      have hsecs := dvmLink_sections hlink
      have hcnst := hfits.cnst
      have hdata := hfits.data
      rcases hsec with hsec | hsec
      · rw [hsec]
        have hpart := start_add_le DvmProg.cnst hobj
        rw [← hsecs.1] at hpart
        exact Nat.lt_of_le_of_lt hpart hcnst
      · rw [hsec]
        have hpart := start_add_le DvmProg.data hobj
        rw [← hsecs.2] at hpart
        exact Nat.lt_of_le_of_lt hpart hdata
    refine ⟨_, by omega, hadjust n hoff, by omega, ?_⟩
    show maps.addr l'.sec + _ + _ = maps.addr l'.sec + _
    rw [baseOf_ofSec us i hsec, BitVec.add_assoc, BitVec.ofNat_add]

/-! ## 4. The loaded text -/

/-- No reference is lost by the assembler or the linker. -/
structure RefsKept (us : List Assembly) (out : DvmProg) : Prop where
  noGap : ∀ u ∈ us, (sourceNames u.env u.src).NoGap
  imported : ∀ u ∈ us, ImportedFirst u.stmts
  /-- A jump without a relocation is one of the source whose code comes first. -/
  unmoved : ∀ (i : Nat) (u : Assembly) (p : Nat) (name : CStr), us[i]? = some u →
    At Emit.size u.emits p (.codeRef name) → (p, name) ∉ u.names.relocated → codeBase us i = 0
  refers : RefersAsWritten (objects us) out

section Linked

variable {us : List Assembly} {maps : LoadMaps} {prog : List (SymInstr Nat)} {m m' : Mem}
  {ld : DvmLoaded} {entrySym : Option CStr} {out : DvmProg} {i j p : Nat} {u : Assembly} {e : Emit}

/-- An emission of a source stands in a line that resolves. -/
theorem scoped_of_at (hlist : linkedListing us maps = some prog) (hi : us[i]? = some u)
    (hat : At Emit.size u.emits p e) :
    ∃ l k, l.1 = linkTarget us maps i ∧ e ∈ l.2 ∧ ResolvesTo l k := by
  obtain ⟨es, hes, he⟩ := List.mem_flatten.mp hat.mem
  obtain ⟨c, hc, rfl⟩ := List.mem_map.mp hes
  obtain ⟨k, hk⟩ := List.getElem?_of_mem hc
  obtain ⟨j, -, hres⟩ := ResolvesTo.of_line (linked_resolves hlist) (linked_of_line hi hk)
  exact ⟨_, j, rfl, he, hres⟩

/-- The definition that a name with a relocation leads to, and the symbol that the linked
relocation refers to. -/
theorem definition_of_rel {l : AsmLabel} {s t : DvmSym} {w : Target}
    (hi : us[i]? = some u) (hl : l ∈ u.ctx.labels) (hexp : l.Exported)
    (hs : s = l.toSym) (hstands : StandsFor (objects us) i s t)
    (hw : linkTarget us maps i l.name = some w) :
    ∃ j v l', us[j]? = some v ∧ l' ∈ v.ctx.labels ∧ definedIn us maps j l'.name = some w ∧
      SamePlace t (adjust (baseOf (objects us) j) l'.toSym) := by
  subst hs
  rcases Option.or_eq_some_iff.mp hw with hown | ⟨hnone, hother⟩
  · -- its own definition
    have ht := hown
    rw [definedIn, hi, Option.bind_some] at ht
    obtain ⟨l', hl', hname, hoff⟩ := u.label_of_target ht
    obtain rfl : l' = l := u.label_unique hl' hl hname
    have hx : l'.flags ≠ dvmSymExtern := u.not_extern_of_nonneg hl' hoff
    have hkind : l'.toSym.IsLocal ∨ l'.toSym.IsGlobal := by
      rcases u.flags_of_label hl' with hf | hf | hf
      · exact .inl hf
      · exact .inr hf
      · exact absurd hf hx
    exact ⟨i, u, l', hi, hl', hown, (isRebased_iff.mp (hstands.1 hkind)).1⟩
  · -- one that another source exports
    obtain ⟨j, -, hj⟩ := List.exists_of_findSome?_eq_some hother
    rw [exportedIn, Option.bind_eq_some_iff] at hj
    obtain ⟨v, hv, hj⟩ := hj
    split at hj
    · next hshown =>
      obtain ⟨l', hl', hname, hoff, hglobal⟩ := v.label_of_shown hshown
      have hundef : l.offset < 0 := by
        by_contra hoff
        obtain ⟨t', ht'⟩ := u.target_of_label (firstInstr us i) (sectionAddr us maps i) hl
          (Int.not_lt.mp hoff)
        rw [definedIn, hi, Option.bind_some, ht'] at hnone
        cases hnone
      have hextern : l.toSym.IsExtern := hexp.resolve_left (Int.not_le.mpr hundef)
      have hsame := hstands.2 hextern j v.obj l'.toSym (objects_getElem? hv)
        (v.toSym_mem hl' (.inl hoff)) hglobal hname
      exact ⟨j, v, l', hv, hl', hname ▸ hj, (isRebased_iff.mp hsame).1⟩
    · cases hj

/-- Every output relocation stores the value of the reference it is for. -/
theorem linkedRel_value (hlink : dvmLink (objects us) entrySym = .ok out) (hfits : SizesFit out)
    (hkept : RefsKept us out) (hlist : linkedListing us maps = some prog)
    (hload : dvmLoad maps m out = .ok (ld, m')) {r' : DvmRel} (hr' : r' ∈ out.rels) :
    ∃ i u p e, us[i]? = some u ∧ At Emit.size u.emits p e ∧
      r'.codeOffset.toNat = codeBase us i + p ∧ r'.width = e.size ∧
      relBytes maps out r' = e.value maps.code (listStart prog) (linkTarget us maps i) := by
  obtain ⟨i, j, u, r, hrel, hget⟩ := linkedRel_of_mem hlink hr'
  have hi := hrel.source
  have hr := List.mem_of_getElem? hrel.rel
  obtain ⟨e, l, hat, hwidth, hl, href⟩ := u.operand hr
  have hlmem := List.mem_of_getElem? hl
  have hnames : Names u.emits r.codeOffset.toNat l.name := by
    rcases href with ⟨rfl, -⟩ | ⟨rfl, -⟩
    · exact .inl hat
    · exact .inr hat
  obtain ⟨hexp, hsym⟩ := u.toSym_of_rel (hkept.noGap u (List.mem_of_getElem? hi)) hr hlmem hnames
  obtain ⟨r'', t, hget', hkind, hpos, ht, hstands⟩ :=
    hkept.refers i u.obj j r l.toSym (objects_getElem? hi) hrel.rel hsym
  obtain rfl : r' = r'' := Option.some.inj (hget.symm.trans hget')
  -- what the name leads to
  obtain ⟨line, k, hscope, he, hres⟩ := scoped_of_at hlist hi hat
  have htargets := hres.targets
  rw [hscope] at htargets
  obtain ⟨w, hw⟩ : ∃ w, linkTarget us maps i l.name = some w := by
    rcases href with ⟨rfl, -⟩ | ⟨rfl, -⟩
    · obtain ⟨k, hk⟩ := htargets.1 l.name he
      exact ⟨_, hk⟩
    · exact htargets.2 l.name he
  obtain ⟨j', v, l', hv, hl', hdef, hname, hsec, hoff⟩ :=
    definition_of_rel hi hlmem hexp rfl hstands hw
  obtain ⟨n, hn, hadj, hnonneg, hplace⟩ := place_of_definedIn hlink hfits hlist hv hl' hdef
  have htsec : t.sec = l'.sec := hsec.trans (if_neg (v.not_extern_of_nonneg hl' hnonneg))
  have hbytes := relBytes_of_sym hload hr' ht (hoff.trans hadj) hn
  have hvalue := hplace.value hw
  refine ⟨i, u, _, e, hi, hat, ?_, ?_, ?_⟩
  · rw [hpos, Nat.add_comm]
    rfl
  · rw [DvmRel.width, hkind]
    exact hwidth
  · rw [hbytes, hkind, htsec]
    rcases href with ⟨rfl, hk⟩ | ⟨rfl, hk⟩
    · obtain ⟨k, hk'⟩ := htargets.1 l.name he
      rw [if_pos hk, hvalue.1 k (Option.some.inj (hw.symm.trans hk'))]
    · have hno : r.kind ≠ dvmRelCode := by
        rw [hk]
        decide
      rw [if_neg hno, hvalue.2]

/-- A reference with a relocation is stored. -/
theorem stored_of_relocated (hlink : dvmLink (objects us) entrySym = .ok out)
    (hfits : SizesFit out) (hkept : RefsKept us out) (hlist : linkedListing us maps = some prog)
    (hload : dvmLoad maps m out = .ok (ld, m')) (hi : us[i]? = some u)
    (hat : At Emit.size u.emits p e) (hsize : 0 < e.size) {name : CStr}
    (hrel : (p, name) ∈ u.names.relocated) :
    (codeBase us i + p, e.value maps.code (listStart prog) (linkTarget us maps i))
      ∈ relStores maps out := by
  have hend := emits_end_le hlink hi hat
  have hcode := hfits.code
  obtain ⟨r', hr', e₀, hrelAt⟩ := relAt_of_relocated hlink hload (by omega) hi hrel
  obtain ⟨j, v, q, e', hj, hat', hpos, hwidth, hvalue⟩ :=
    linkedRel_value hlink hfits hkept hlist hload hr'
  refine List.mem_map.mpr ⟨r', hr', Prod.ext hrelAt.codeOffset ?_⟩
  have hsize' : 0 < e'.size := by
    rw [← hwidth]
    unfold DvmRel.width
    split <;> omega
  have hsame := hrelAt.codeOffset.symm.trans hpos
  rcases emits_sep hi hj hat hat' with ⟨rfl, rfl, rfl⟩ | hsep | hsep
  · exact hvalue
  · omega
  · omega

/-- A jump without a relocation was resolved by the assembler, and is not moved. -/
theorem field_unmoved (hlink : dvmLink (objects us) entrySym = .ok out) (hfits : SizesFit out)
    (hkept : RefsKept us out) (hlist : linkedListing us maps = some prog) (hi : us[i]? = some u)
    {name : CStr} (hat : At Emit.size u.emits p (.codeRef name))
    (hrel : (p, name) ∉ u.names.relocated) {k : Nat}
    (hk : linkTarget us maps i name = some (.code k)) :
    field out.code (codeBase us i + p) 4
      = (Emit.codeRef name).value maps.code (listStart prog) (linkTarget us maps i) := by
  have hbase := hkept.unmoved i u p name hi hat hrel
  obtain ⟨l, hl, rfl, hdef, hfield⟩ : u.ctx.ResolvedAt p name := by
    have hresolved := u.codeRefs_of_imported (hkept.imported u (List.mem_of_getElem? hi))
    refine (hresolved p name hat).resolve_right ?_
    rintro ⟨l, hl, rfl, -, r, hr, -, hpos, hidx⟩
    exact hrel (u.abstracts.mem_relocated_iff.mpr
      ⟨r, hr, hpos, u.abstracts.names_getElem?.mpr ⟨l, hidx, rfl⟩⟩)
  obtain ⟨t, ht⟩ := u.target_of_label (firstInstr us i) (sectionAddr us maps i) hl hdef.1
  have htarget : definedIn us maps i l.name = some t := by
    rw [definedIn, hi, Option.bind_some, ht]
  have hlead : linkTarget us maps i l.name = some t := by
    rw [linkTarget, htarget, Option.some_or]
  obtain ⟨n, hn, hadj, -, hplace⟩ := place_of_definedIn hlink hfits hlist hi hl htarget
  have hoff : offsetBytes l.offset = le 4 n := by
    have hx : l.flags ≠ dvmSymExtern := hdef.2.2
    have hcode : (baseOf (objects us) i).ofSec l.sec = 0 := by
      rw [hdef.2.1]
      exact hbase
    simp only [adjust, AsmLabel.toSym, if_neg hx, if_pos hdef.1, hcode] at hadj
    rw [offsetBytes, (BitVec.add_zero _).symm.trans hadj, BitVec.toNat_ofNat,
      Nat.mod_eq_of_lt hn]
  rw [(hplace.value hlead).1 k (Option.some.inj (hlead.symm.trans hk)), ← hoff]
  exact (field_code hlink hi hat).trans hfield

/-- The loaded text holds the value of every emission of every source. -/
theorem field_linked (hlink : dvmLink (objects us) entrySym = .ok out) (hfits : SizesFit out)
    (hkept : RefsKept us out) (hlist : linkedListing us maps = some prog)
    (hload : dvmLoad maps m out = .ok (ld, m')) (hi : us[i]? = some u)
    (hat : At Emit.size u.emits p e) :
    field (patchAll out.code (relStores maps out)) (codeBase us i + p) e.size
      = e.value maps.code (listStart prog) (linkTarget us maps i) := by
  have hin := patchesInside_dvmLink hlink
  obtain ⟨line, k, hscope, he, hres⟩ := scoped_of_at hlist hi hat
  have hlen : (e.value maps.code (listStart prog) (linkTarget us maps i)).length = e.size :=
    hscope ▸ hres.length_value he
  rw [← hlen]
  refine field_patchAll (relStores_fit hin maps) (fun x hx => ?_) ?_
  · obtain ⟨r', hr', rfl⟩ := List.mem_map.mp hx
    obtain ⟨j, v, q, e', hj, hat', hpos, hwidth, hvalue⟩ :=
      linkedRel_value hlink hfits hkept hlist hload hr'
    have hle := length_relBytes_le maps out r'
    rw [hlen]
    rcases emits_sep hi hj hat hat' with ⟨rfl, rfl, rfl⟩ | hsep | hsep
    · exact .inl (Prod.ext hpos hvalue)
    · exact .inr (.inr (hpos ▸ hsep))
    · refine .inr (.inl ?_)
      simp only [hpos]
      omega
  · rw [hlen]
    cases e with
    | bytes bs => exact .inl ((field_code hlink hi hat).trans (u.accepted.items p _ hat))
    | codeRef name =>
      by_cases hrel : (p, name) ∈ u.names.relocated
      · exact .inr (stored_of_relocated hlink hfits hkept hlist hload hi hat (by simp) hrel)
      · obtain ⟨k, hk⟩ := hres.targets.1 name he
        exact .inl (field_unmoved hlink hfits hkept hlist hi hat hrel (hscope ▸ hk))
    | dataRef name =>
      have hrel : (p, name) ∈ u.names.relocated := by
        refine dataRef_relocated ?_
        rw [sourceEmits, filterMap_instr]
        exact hat
      exact .inr (stored_of_relocated hlink hfits hkept hlist hload hi hat (by simp) hrel)
    | stop why => exact absurd (u.accepted.items p _ hat) id

/-- The linked and loaded text is the layout of the listing of the sources. -/
theorem linked_laidOut (hlink : dvmLink (objects us) entrySym = .ok out) (hfits : SizesFit out)
    (hkept : RefsKept us out) (hlist : linkedListing us maps = some prog)
    (hload : dvmLoad maps m out = .ok (ld, m')) :
    LaidOut maps.code prog (readBytes m' maps.code out.code.length) := by
  have hin := patchesInside_dvmLink hlink
  have hcode := hfits.code
  have hlen : (patchAll out.code (relStores maps out)).length = out.code.length :=
    length_patchAll (relStores_fit hin maps)
  have htotal : total Emit.size ((linkedLines us maps).flatMap Prod.snd) = out.code.length := by
    rw [linkedLines, List.flatMap_assoc]
    simp only [flatMap_sourceScope]
    rw [(dvmLink_ok hlink).2.1, objects, ← total_emits]
    conv_rhs => rw [← List.zipIdx_map_fst 0 us, List.flatMap_map]
  rw [dvmLoad_code hload hin (by omega)]
  refine laidOut_of_values (linked_resolves hlist) (by rw [hlen, htotal]) (by omega) ?_
  intro n l f e hl hat
  obtain ⟨i, u, k, c, hi, hk, rfl, rfl⟩ := line_of_linked hl
  have hle : k ≤ (codeLines u.env u.src).length := (List.getElem?_eq_some_iff.mp hk).1.le
  have hgroup : ((codeLines u.env u.src).map Prod.snd)[k]? = some c.2 := by
    rw [List.getElem?_map, hk]
    rfl
  have hpos : At Emit.size u.emits (u.textStart k + f) e := by
    have hat' := hat.flatten hgroup
    rwa [groupStart, ← List.map_take] at hat'
  rw [listStart_linked hlist hi hle, Nat.add_assoc]
  exact field_linked hlink hfits hkept hlist hload hi hpos

end Linked

/-! ## 5. The result -/

/-- Sources that are assembled, linked without losing a reference and loaded do what their listing
does from the first instruction on.  There is a listing if every name leads somewhere, and those of
jumps and calls to code. -/
theorem linked_runs {us : List Assembly} {maps : LoadMaps} {prog : List (SymInstr Nat)}
    {m m' : Mem} {ld : DvmLoaded} {entrySym : Option CStr} {out : DvmProg} {vmStack : Word}
    {t : VMThread} (hlink : dvmLink (objects us) entrySym = .ok out) (hfits : SizesFit out)
    (hkept : RefsKept us out) (hlist : linkedListing us maps = some prog)
    (hload : dvmLoad maps m out = .ok (ld, m')) (hentry : out.entryOffset = 0)
    (hrun : cmdRun vmStack ld = some t) :
    t = (listInit t).conc (instrPlace maps.code prog) ∧
      RunsListing maps.code prog (readBytes m' maps.code out.code.length) (listInit t) m' := by
  have hlaid := linked_laidOut hlink hfits hkept hlist hload
  exact ⟨listInit_of_cmdRun prog hload hentry hrun,
    hlaid.runsListing (textAt_readBytes m' _ _) _⟩

/-- No name is imported behind a jump or call that refers to it. -/
theorem importedFirst_of_all {xs : List SourceStmt}
    (h : ((List.range xs.length).all fun k => (xs[k]?.bind SourceStmt.instr).all fun c =>
      (c.2.filterMap fun e => match e with | .codeRef name => some name | _ => none).all
        fun name => (namesOf xs).status name ≠ .imported ∨
          (namesOf (xs.take k)).status name = .imported) = true) : ImportedFirst xs := by
  intro before x after mnem es name hxs hx hname himp
  have hlt : before.length < xs.length := by
    rw [hxs, List.length_append, List.length_cons]
    omega
  have hk := List.all_eq_true.mp h before.length (List.mem_range.mpr hlt)
  have hget : xs[before.length]? = some x := by
    rw [hxs, List.getElem?_append_right (Nat.le_refl _), Nat.sub_self]
    rfl
  have hinstr : x.instr = some (mnem, es) := by rw [SourceStmt.instr, hx]
  rw [hget, Option.bind_some, hinstr, Option.all_some] at hk
  have hmem := List.all_eq_true.mp hk name
    (List.mem_filterMap.mpr ⟨.codeRef name, hname, rfl⟩)
  rcases of_decide_eq_true hmem with hno | hyes
  · exact absurd himp hno
  · rwa [hxs, List.take_left] at hyes

/-- The dash in the comments of the test sources. -/
def dash : List Byte := [0xe2, 0x80, 0x94]

/-- `test/asm/entry_main.asm`. -/
def entryMainAsm : List Byte := lit "; entry_main.asm " ++ dash ++ asmText
  [" uses extern compute, exports _start as entry point",
   "; _start: ax = compute(6) = 6^2+1 = 37",
   "; result = 37",
   "",
   "extern compute",
   "",
   ".data",
   "result: dq 0",
   "",
   ".text",
   "global _start",
   "_start:",
   "    mov  ax, 6",
   "    call compute, die",
   "    mov  bx, result",
   "    mov  [bx], ax",
   "    halt",
   "",
   "die:",
   "    halt"]

/-- `test/asm/entry_lib.asm`. -/
def entryLibAsm : List Byte := lit "; entry_lib.asm " ++ dash ++ asmText
  [" library that exports 'compute'",
   "; compute: ax = ax * ax + 1  (square plus one)",
   "",
   ".text",
   "global compute",
   "compute:",
   "    mov  bx, ax",
   "    mul  ax, bx     ; ax = ax * ax",
   "    mov  bx, 1",
   "    add  ax, bx     ; ax = ax^2 + 1",
   "    ret"]

theorem eq_ok_get {ε α : Type} {r : Except ε α} (h : r.toOption.isSome = true) :
    r = .ok (r.toOption.get h) := by
  cases r with
  | error e => cases h
  | ok a => rfl

/-- A source that is found to be accepted. -/
def Assembly.of (env : AsmEnv) (src : List Byte) (h : (asmCompile env src).toOption.isSome = true) :
    Assembly where
  env := env
  src := src
  ctx := (asmCompile env src).toOption.get h
  ok := eq_ok_get h

theorem entryMainAsm_accepted : (asmCompile zeroEnv entryMainAsm).toOption.isSome = true := by
  decide +kernel

theorem entryLibAsm_accepted : (asmCompile zeroEnv entryLibAsm).toOption.isSome = true := by
  decide +kernel

/-- The two sources, in link order. -/
def entrySources : List Assembly :=
  [Assembly.of zeroEnv entryMainAsm entryMainAsm_accepted,
    Assembly.of zeroEnv entryLibAsm entryLibAsm_accepted]

/-- Their objects. -/
def entryMainObj : DvmProg where
  data := [0, 0, 0, 0, 0, 0, 0, 0]
  code := [0x01, 0x00, 6, 0, 0, 0, 0, 0, 0, 0, 0x20, 0, 0, 0, 0, 0x20, 0, 0, 0,
    0x01, 0x10, 0, 0, 0, 0, 0, 0, 0, 0, 0x03, 0x10, 0x2f, 0x2f]
  syms := [⟨lit "compute", dvmSymExtern, dvmSecNone, 0⟩, ⟨lit "result", dvmSymLocal, dvmSecData, 0⟩,
    ⟨lit "_start", dvmSymGlobal, dvmSecCode, 0⟩, ⟨lit "die", dvmSymLocal, dvmSecCode, 32⟩]
  rels := [⟨11, 0, dvmRelCode⟩, ⟨21, 1, dvmRelData⟩]

def entryLibObj : DvmProg where
  code := [0x00, 0x10, 0x06, 0x01, 0x01, 0x10, 1, 0, 0, 0, 0, 0, 0, 0, 0x04, 0x01, 0x21]
  syms := [⟨lit "compute", dvmSymGlobal, dvmSecCode, 0⟩]

theorem objects_entrySources : objects entrySources = [entryMainObj, entryLibObj] := by
  decide +kernel

theorem entrySources_kept {out : DvmProg} (hlink : dvmLink (objects entrySources) none = .ok out) :
    RefsKept entrySources out where
  noGap := by
    have hall : entrySources.all (fun u => (sourceNames u.env u.src).names.all fun name =>
        (sourceNames u.env u.src).status name ≠ .announced) = true := by decide +kernel
    intro u hu
    exact NameTable.noGap_of_all (List.all_eq_true.mp hall u hu)
  imported := by
    rintro u (_ | ⟨_, _ | ⟨_, ⟨⟩⟩⟩)
    · exact importedFirst_of_all (by decide +kernel)
    · exact importedFirst_of_all (by decide +kernel)
  unmoved := by
    intro i u p name hi hat hrel
    match i, hi with
    | 0, hi => rfl
    | 1, hi =>
      obtain rfl := Option.some.inj hi
      have hnone : (Assembly.of zeroEnv entryLibAsm entryLibAsm_accepted).emits.all
          (fun e => match e with | .codeRef _ => false | _ => true) = true := by decide +kernel
      have hmem := List.all_eq_true.mp hnone _ hat.mem
      cases hmem
  refers := by
    rw [objects_entrySources] at hlink ⊢
    have hin : LinkInputs [entryMainObj, entryLibObj] := ⟨by decide, by decide, by decide⟩
    refine refersAsWritten_of_relSafe hin (by unfold DefsFit; decide) hlink ?_
    have hapart : ∀ o ∈ [entryMainObj, entryLibObj], ∀ s ∈ o.syms, s.IsLocal →
        ∀ g ∈ linkSyms [entryMainObj, entryLibObj], g.IsGlobal → g.name ≠ s.name := by decide
    have hrebased : ∀ i < 2, ∀ o ∈ [entryMainObj, entryLibObj], ∀ s ∈ o.syms,
        rebased [entryMainObj, entryLibObj] i s < 2 ^ 32 := by decide
    have hpos : ∀ i < 2, ∀ o ∈ [entryMainObj, entryLibObj], ∀ r ∈ o.rels,
        r.codeOffset.toNat + (baseOf [entryMainObj, entryLibObj] i).code < 2 ^ 32 := by decide
    intro i o r s hi hr hs
    have ho := List.mem_of_getElem? hi
    have hsmem := List.mem_of_getElem? hs
    have hlt : i < 2 := (List.getElem?_eq_some_iff.mp hi).1
    refine ⟨hpos i hlt o ho r hr, fun _ => hrebased i hlt o ho s hsmem, ?_, ?_⟩
    · rintro hloc ⟨-, g, hg, hglob, hname, -⟩
      exact hapart o ho s hsmem hloc g (List.mem_of_mem_drop hg) hglob hname
    · intro _ i' o' g hi' hg _ _
      exact hrebased i' (List.getElem?_eq_some_iff.mp hi').1 o' (List.mem_of_getElem? hi') g hg

/-- The link of the two sources, and what is mapped of it. -/
theorem entrySources_linked : ∃ out, dvmLink (objects entrySources) none = .ok out ∧
    SizesFit out ∧ out.entryOffset = 0 ∧
      ∃ ld m', dvmLoad sampleMaps (fun _ => 0) out = .ok (ld, m') := by
  obtain ⟨out, hlink, hout⟩ : ∃ out, dvmLink (objects entrySources) none = .ok out ∧
      (out.code.length < 2 ^ 32 ∧ out.cnst.length < 2 ^ 32 ∧ out.data.length < 2 ^ 32 ∧
        out.entryOffset = 0 ∧ (dvmLoad sampleMaps (fun _ => 0) out).isOk = true) := by
    rw [objects_entrySources]
    exact exists_ok_of_decide (by decide +kernel)
  obtain ⟨hcode, hcnst, hdata, hentry, hok⟩ := hout
  obtain ⟨⟨ld, m'⟩, hload⟩ := exists_ok_of_isOk hok
  exact ⟨out, hlink, ⟨hcode, hcnst, hdata⟩, hentry, ld, m', hload⟩

/-- Their listing. -/
theorem entrySources_listing :
    ∃ prog, linkedListing entrySources sampleMaps = some prog ∧ prog.length = 11 := by
  have hlen : (linkedListing entrySources sampleMaps).map List.length = some 11 := by
    decide +kernel
  exact Option.map_eq_some_iff.mp hlen

/-- A loaded program can be started. -/
theorem exists_cmdRun {maps : LoadMaps} {m m' : Mem} {p : DvmProg} {ld : DvmLoaded}
    (vmStack : Word) (h : dvmLoad maps m p = .ok (ld, m')) : ∃ t, cmdRun vmStack ld = some t := by
  rw [cmdRun, dvmLoad_code_mapped h]
  exact ⟨_, rfl⟩

theorem entrySources_run : ∃ out prog ld m' t, dvmLink (objects entrySources) none = .ok out ∧
    dvmLoad sampleMaps (fun _ => 0) out = .ok (ld, m') ∧ cmdRun 0x8000 ld = some t ∧
    prog.length = 11 ∧ RunsListing sampleMaps.code prog
      (readBytes m' sampleMaps.code out.code.length) (listInit t) m' := by
  obtain ⟨out, hlink, hfits, hentry, ld, m', hload⟩ := entrySources_linked
  obtain ⟨prog, hlist, hprog⟩ := entrySources_listing
  obtain ⟨t, hrun⟩ := exists_cmdRun 0x8000 hload
  exact ⟨out, prog, ld, m', t, hlink, hload, hrun, hprog,
    (linked_runs hlink hfits (entrySources_kept hlink) hlist hload hentry hrun).2⟩

end Dvm
