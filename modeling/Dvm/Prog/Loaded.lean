/-
# The listing of a source, loaded and run

What a name of a source leads to is read off its statements: the first line that defines it, the
number of instructions before that line, and the bytes of its section so far (`nameTarget`).
With it the code lines of a source are a listing (`sourceListing`).  Assembled, loaded and run,
the source does what its listing does (`assembled_runs`).
-/
import Dvm.Asm.DataLines
import Dvm.Asm.Places
import Dvm.LinkLoad
import Dvm.Vm.Entry
import Dvm.Prog.Simulation
import Dvm.Prog.Source

namespace Dvm

open Bytes ByteMem Layout Loops Table Runs

/-! ## 1. Names -/

/-- The section of the first line that defines a name, and the statements before that line. -/
def firstDef (xs : List SourceStmt) (name : CStr) : Option (DvmSection × List SourceStmt) :=
  match xs with
  | [] => none
  | x :: xs =>
    if x.stmt = .label name then some (x.sec, [])
    else (firstDef xs name).map fun d => (d.1, x :: d.2)

/-- The number of instructions. -/
def instrCount (xs : List SourceStmt) : Nat := (xs.filterMap SourceStmt.instr).length

/-- What a name leads to, when the source's instructions are numbered from `first` on and its
sections lie at `addr`. -/
def nameTarget (first : Nat) (addr : DvmSection → Word) (xs : List SourceStmt) (name : CStr) :
    Option Target :=
  (firstDef xs name).map fun d =>
    if d.1 = dvmSecCode then .code (first + instrCount d.2)
    else .data (addr d.1 + BitVec.ofNat 64 (sectionBytes d.1 d.2).length)

/-- The listing of a source; `none` if a line refers to a name that the source does not define,
or jumps to one outside the code section. -/
def sourceListing (maps : LoadMaps) (env : AsmEnv) (src : List Byte) :
    Option (List (SymInstr Nat)) :=
  (codeLines env src).mapM fun c =>
    resolveLine (nameTarget 0 maps.addr (sourceLines env src).flatten) c.2

theorem firstDef_eq_some {xs : List SourceStmt} {name : CStr} {sec : DvmSection}
    {before : List SourceStmt} (h : firstDef xs name = some (sec, before)) :
    ∃ x after, xs = before ++ x :: after ∧ x.stmt = .label name ∧ x.sec = sec ∧
      ∀ y ∈ before, y.stmt ≠ .label name := by
  induction xs generalizing before with
  | nil => cases h
  | cons y xs ih =>
    rw [firstDef] at h
    split at h
    · next hy =>
      obtain ⟨rfl, rfl⟩ := Prod.mk.inj (Option.some.inj h)
      exact ⟨y, xs, rfl, hy, rfl, by simp⟩
    · next hy =>
      obtain ⟨⟨sec', before'⟩, hd, heq⟩ := Option.map_eq_some_iff.mp h
      obtain ⟨rfl, rfl⟩ := Prod.mk.inj heq
      obtain ⟨x, after, rfl, hx, hsec, hbefore⟩ := ih hd
      exact ⟨x, after, rfl, hx, hsec, List.forall_mem_cons.mpr ⟨hy, hbefore⟩⟩

section Labels

variable {env : AsmEnv} {src : List Byte} {ctx : AsmCtx} {name : CStr} {sec : DvmSection}
  {before : List SourceStmt}

/-- The label of a name has the place of its first definition. -/
theorem label_of_firstDef (h : asmCompile env src = .ok ctx)
    (hd : firstDef (sourceLines env src).flatten name = some (sec, before)) :
    ∃ l ∈ ctx.labels, l.name = name ∧ l.sec = sec ∧
      ∃ c, before.foldlM doSource .init = .ok c ∧
        l.offset = ((c.secBuf sec).bytes.length : Int) := by
  obtain ⟨x, after, hxs, hx, rfl, hbefore⟩ := firstDef_eq_some hd
  obtain ⟨ctx₀, hsrc, hlabels⟩ := labels_of_accepted h
  rw [hxs] at hsrc
  obtain ⟨c, hc, -⟩ := foldlM_append_ok_iff.mp hsrc
  have hplace := entryPlace_definition hx hc hsrc
  have hnone : entryPlace (entryIn c.labels name) = none := by
    cases hold : entryPlace (entryIn c.labels name) with
    | none => rfl
    | some p =>
      obtain ⟨n, -, k, y, c', hk, hy, -⟩ := labelDef_of_place hc hold
      exact absurd hy (hbefore y (List.mem_of_getElem? hk))
  rw [hnone, Option.getD_none] at hplace
  obtain ⟨i, l, hf, -, hsec, hoff⟩ := entryPlace_eq_some_iff.mp hplace
  rw [← hlabels] at hf
  exact ⟨l, List.mem_of_getElem? (getElem?_of_find hf), key_of_find hf, hsec, c, hc, hoff⟩

/-- The text before a code label: the instructions before its definition. -/
theorem textPos_of_firstDef (h : asmCompile env src = .ok ctx)
    (hd : firstDef (sourceLines env src).flatten name = some (dvmSecCode, before)) :
    ∃ l ∈ ctx.labels, l.name = name ∧ l.sec = dvmSecCode ∧ ∃ n : Nat, l.offset = n ∧
      n = total Emit.size
        (((codeLines env src).take (instrCount before)).map Prod.snd).flatten := by
  obtain ⟨l, hl, hname, hsec, c, hc, hoff⟩ := label_of_firstDef h hd
  obtain ⟨x, after, hxs, -, -, -⟩ := firstDef_eq_some hd
  have hread : ∀ y ∈ before, IsSec y.sec ∧ y.stmt.ReadIn y.sec := by
    intro y hy
    refine sourceLines_readIn env src y ?_
    rw [hxs]
    exact List.mem_append_left _ hy
  have hlen := (assembled_sources hread hc).1.length
  have htake : (codeLines env src).take (instrCount before)
      = before.filterMap SourceStmt.instr := by
    rw [← filterMap_instr, hxs, List.filterMap_append, instrCount, List.take_left]
  rw [htake, ← hlen]
  exact ⟨l, hl, hname, hsec, _, hoff, rfl⟩

/-- The data before a data label: the bytes written before its definition. -/
theorem dataPos_of_firstDef (h : asmCompile env src = .ok ctx) (hsec : IsDataSec sec)
    (hd : firstDef (sourceLines env src).flatten name = some (sec, before)) :
    ∃ l ∈ ctx.labels, l.name = name ∧ l.sec = sec ∧
      l.offset = ((sectionBytes sec before).length : Int) ∧
      (sectionBytes sec before).length ≤ dvmBufMax := by
  obtain ⟨l, hl, hname, hlsec, c, hc, hoff⟩ := label_of_firstDef h hd
  have hbytes := foldlM_doSource_secBuf hsec hc
  have hempty : (AsmCtx.init.secBuf sec).bytes = [] := by
    rcases hsec with rfl | rfl <;> rfl
  rw [hempty, List.nil_append] at hbytes
  have hfits := (c.secBuf sec).fits
  rw [hbytes] at hoff hfits
  exact ⟨l, hl, hname, hlsec, hoff, hfits⟩

/-- Every data reference has a relocation. -/
theorem dataRef_relocated {xs : List SourceStmt} {p : Nat}
    (hat : At Emit.size (sourceEmits xs) p (.dataRef name)) :
    (p, name) ∈ (namesOf xs).relocated := by
  obtain ⟨pre, x, after, mnem, es, q, rfl, hx, ⟨es₁, es₂, rfl, rfl⟩, rfl⟩ := at_sourceEmits hat
  -- the name table right before the reference
  let t := es₁.foldl NameTable.emit (namesOf pre)
  have hpos : t.pos = total Emit.size (sourceEmits pre) + total Emit.size es₁ := by
    rw [NameTable.emits_pos, namesOf, NameTable.reads_pos]
    exact congrArg (· + _) (Nat.zero_add _)
  have hmem : (t.pos, name) ∈ (t.emit (.dataRef name)).relocated := by
    rw [NameTable.emit, NameTable.refer]
    split <;> exact List.mem_append_right _ (.head _)
  have hlast : namesOf (pre ++ x :: after)
      = after.foldl (fun t x => t.read x.stmt)
          (es₂.foldl NameTable.emit (t.emit (.dataRef name))) := by
    rw [namesOf, List.foldl_append, List.foldl_cons, hx, NameTable.read, List.foldl_append]
    rfl
  obtain ⟨-, more, hmore, -, -⟩ :=
    ((t.emit (.dataRef name)).later_emits es₂).trans (NameTable.later_reads _ after)
  rw [← hpos, hlast, hmore]
  exact List.mem_append_left _ hmem

end Labels

/-! ## 2. What the names of a source lead to -/

namespace Assembly

variable {u : Assembly} {first : Nat} {addr : DvmSection → Word} {name : CStr}

def stmts (u : Assembly) : List SourceStmt := (sourceLines u.env u.src).flatten

/-- The length of the first `k` instructions. -/
def textStart (u : Assembly) (k : Nat) : Nat :=
  total Emit.size (((codeLines u.env u.src).take k).map Prod.snd).flatten

theorem textStart_le (u : Assembly) (k : Nat) : u.textStart k ≤ u.obj.code.length := by
  rw [u.length_code, emits, codeEmits, textStart, List.map_take]
  exact groupStart_le _ k

/-- A name that leads to an instruction is a label at the instruction's position. -/
theorem label_of_code {k : Nat} (hk : nameTarget first addr u.stmts name = some (.code k)) :
    ∃ l ∈ u.ctx.labels, l.name = name ∧ l.sec = dvmSecCode ∧
      ∃ k', k = first + k' ∧ k' ≤ (codeLines u.env u.src).length ∧
        l.offset = (u.textStart k' : Int) := by
  rw [nameTarget, Option.map_eq_some_iff] at hk
  obtain ⟨⟨sec, before⟩, hd, hk⟩ := hk
  split at hk
  · next hsec =>
    obtain rfl : sec = dvmSecCode := hsec
    obtain ⟨l, hl, hname, hlsec, n, hoff, hn⟩ := textPos_of_firstDef u.ok hd
    refine ⟨l, hl, hname, hlsec, _, (Target.code.inj hk).symm, ?_, by rw [hoff, hn]; rfl⟩
    obtain ⟨x, after, hxs, -, -, -⟩ := firstDef_eq_some hd
    rw [← filterMap_instr, show (sourceLines u.env u.src).flatten = _ from hxs,
      List.filterMap_append, List.length_append]
    exact Nat.le_add_right _ _
  · cases hk

/-- A name that leads to an address is a label in one of the data sections. -/
theorem label_of_data {w : Word} (hw : nameTarget first addr u.stmts name = some (.data w)) :
    ∃ l ∈ u.ctx.labels, l.name = name ∧ IsDataSec l.sec ∧ ∃ n : Nat, l.offset = n ∧
      n ≤ (u.ctx.secBuf l.sec).bytes.length ∧ w = addr l.sec + BitVec.ofNat 64 n := by
  rw [nameTarget, Option.map_eq_some_iff] at hw
  obtain ⟨⟨sec, before⟩, hd, hw⟩ := hw
  split at hw
  · cases hw
  · next hsec =>
    obtain ⟨x, after, hxs, -, rfl, -⟩ := firstDef_eq_some hd
    have hdata : IsDataSec x.sec := by
      have hx := (sourceLines_readIn u.env u.src x (by
        rw [show (sourceLines u.env u.src).flatten = _ from hxs]
        simp)).1
      rcases hx with hx | hx | hx
      · exact .inl hx
      · exact .inr hx
      · exact absurd hx hsec
    obtain ⟨l, hl, hname, hlsec, hoff, -⟩ := dataPos_of_firstDef u.ok hdata hd
    refine ⟨l, hl, hname, hlsec ▸ hdata, _, hoff, ?_, ?_⟩
    · rw [hlsec, section_of_accepted u.ok hdata,
        show (sourceLines u.env u.src).flatten = _ from hxs, sectionBytes_append,
        List.length_append]
      omega
    · rw [hlsec]
      exact (Target.data.inj hw).symm

/-- A label is the only one of its name. -/
theorem label_unique (u : Assembly) {l l' : AsmLabel} (hl : l ∈ u.ctx.labels)
    (hl' : l' ∈ u.ctx.labels) (h : l.name = l'.name) : l = l' :=
  List.inj_on_of_nodup_map u.accepted.labels.nodup hl hl' h

/-- The symbol of a relocation, with the place of the label that its operand names. -/
theorem sym_of_rel (hgap : (sourceNames u.env u.src).NoGap) {r : DvmRel} (hr : r ∈ u.ctx.rels)
    {l : AsmLabel} (hl : l ∈ u.ctx.labels) (hnames : Names u.emits r.codeOffset.toNat l.name) :
    ∃ s, u.obj.syms[r.symIndex.toNat]? = some s ∧ IsSymOf l s := by
  obtain ⟨name, hname, l', hl', hl'name, s, hs, hsym⟩ :=
    (u.accepted.relsNamed_iff_noGap u.abstracts).mpr hgap r hr
  have hsame : l' = l := u.label_unique hl' hl (hl'name.trans (hname.unique hnames))
  exact ⟨s, hs, hsame ▸ hsym⟩

end Assembly

theorem offsetBytes_natCast {n : Nat} (h : n < 2 ^ 32) : offsetBytes (n : Int) = le 4 n := by
  rw [offsetBytes, BitVec.ofInt_natCast, BitVec.toNat_ofNat, Nat.mod_eq_of_lt h]

/-- What a relocation with symbol `s` stores. -/
theorem relBytes_of_sym {maps : LoadMaps} {p : DvmProg} {m m' : Mem} {ld : DvmLoaded}
    (hload : dvmLoad maps m p = .ok (ld, m')) {r : DvmRel} (hr : r ∈ p.rels) {s : DvmSym}
    (hs : p.syms[r.symIndex.toNat]? = some s) {n : Nat} (hoff : s.offset = BitVec.ofNat 32 n)
    (hn : n < 2 ^ 32) :
    relBytes maps p r = if r.kind = dvmRelCode then le 4 n
      else le 8 (maps.addr s.sec + BitVec.ofNat 64 n).toNat := by
  have hnat : (BitVec.ofNat 32 n).toNat = n := by
    rw [BitVec.toNat_ofNat, Nat.mod_eq_of_lt hn]
  have hwide : (BitVec.ofNat 32 n).setWidth 64 = BitVec.ofNat 64 n := by
    apply BitVec.eq_of_toNat_eq
    rw [BitVec.toNat_setWidth, hnat, BitVec.toNat_ofNat]
  rw [relBytes_of_dvmLoad hload hr hs, relValue, hoff, hnat, hwide]

/-! ## 3. What the references of a source become -/

namespace Assembly

variable {u : Assembly} {maps : LoadMaps} {prog : List (SymInstr Nat)}

/-- What the names of a source lead to when it is loaded alone. -/
def targets (u : Assembly) (maps : LoadMaps) : CStr → Option Target :=
  nameTarget 0 maps.addr u.stmts

/-- The code lines with their names. -/
def lines (u : Assembly) (maps : LoadMaps) : List ScopedLine :=
  (codeLines u.env u.src).map fun c => (u.targets maps, c.2)

theorem flatMap_lines (u : Assembly) (maps : LoadMaps) :
    (u.lines maps).flatMap Prod.snd = u.emits := by
  rw [lines, emits, codeEmits, List.flatMap_map, List.flatMap_def]

theorem resolves (h : sourceListing maps u.env u.src = some prog) :
    List.Forall₂ ResolvesTo (u.lines maps) prog := by
  have henc : ∀ c ∈ codeLines u.env u.src, ∃ op, Encodes op c.2 := by
    intro c hc
    obtain ⟨op, -, henc⟩ := (asmCompile_accepted u.ok).2 c hc
    exact ⟨op, henc⟩
  rw [lines, List.forall₂_map_left_iff]
  exact (List.forall₂_and_left _ _).mpr ⟨henc, forall₂_of_mapM h⟩

/-- The first instructions of the listing are as long as the first code lines. -/
theorem listStart_eq (h : sourceListing maps u.env u.src = some prog) (k : Nat) :
    listStart prog k = u.textStart k := by
  have htake := total_lines (List.forall₂_take k (u.resolves h))
  rw [lines, ← List.map_take, List.flatMap_map] at htake
  rw [textStart, ← List.flatMap_def, htake, listStart, listStart, List.take_length]

theorem listStart_lt (h : sourceListing maps u.env u.src = some prog) (k : Nat) :
    listStart prog k < 2 ^ 32 := by
  have hle := u.textStart_le k
  have hfits := u.ctx.text.fits
  unfold dvmBufMax at hfits
  have hcode : u.obj.code.length = u.ctx.text.bytes.length := rfl
  rw [u.listStart_eq h]
  omega

/-- An emission of the source stands in a line that resolves. -/
theorem line_of_at (h : sourceListing maps u.env u.src = some prog) {p : Nat} {e : Emit}
    (hat : At Emit.size u.emits p e) :
    ∃ l j, l.1 = u.targets maps ∧ e ∈ l.2 ∧ ResolvesTo l j := by
  obtain ⟨es, hes, he⟩ := List.mem_flatten.mp hat.mem
  obtain ⟨c, hc, rfl⟩ := List.mem_map.mp hes
  obtain ⟨k, hk⟩ := List.getElem?_of_mem hc
  have hl : (u.lines maps)[k]? = some (u.targets maps, c.2) := by
    rw [lines, List.getElem?_map, hk]
    rfl
  obtain ⟨j, -, hres⟩ := ResolvesTo.of_line (u.resolves h) hl
  exact ⟨_, j, rfl, he, hres⟩

/-- The references of a source whose listing resolves lead somewhere. -/
theorem target_of_ref (h : sourceListing maps u.env u.src = some prog) {p : Nat} {e : Emit}
    (hat : At Emit.size u.emits p e) :
    (∀ name, e = .codeRef name → ∃ k, u.targets maps name = some (.code k)) ∧
      ∀ name, e = .dataRef name → ∃ t, u.targets maps name = some t := by
  obtain ⟨l, j, hl, he, hres⟩ := u.line_of_at h hat
  obtain ⟨hcode, hdata⟩ := hres.targets
  rw [← hl]
  refine ⟨?_, ?_⟩
  · rintro name rfl
    exact hcode name he
  · rintro name rfl
    exact hdata name he

/-- A code label, among the labels of the source. -/
theorem label_of_codeTarget (h : sourceListing maps u.env u.src = some prog) {name : CStr}
    {k : Nat} (hk : u.targets maps name = some (.code k)) :
    ∃ l ∈ u.ctx.labels, l.name = name ∧ l.sec = dvmSecCode ∧
      l.offset = (listStart prog k : Int) := by
  obtain ⟨l, hl, hname, hsec, k', rfl, -, hoff⟩ := u.label_of_code hk
  exact ⟨l, hl, hname, hsec, by rw [hoff, u.listStart_eq h, Nat.zero_add]⟩

/-- A relocation of a reference to the label `l` stores the label's position, or the address of
that position. -/
theorem relBytes_eq {m m' : Mem} {ld : DvmLoaded}
    (hload : dvmLoad maps m u.obj = .ok (ld, m')) (hgap : (sourceNames u.env u.src).NoGap)
    {r : DvmRel} (hr : r ∈ u.ctx.rels) {l : AsmLabel} (hl : l ∈ u.ctx.labels)
    (hnames : Names u.emits r.codeOffset.toNat l.name) {n : Nat} (hoff : l.offset = n)
    (hn : n < 2 ^ 32) :
    relBytes maps u.obj r
      = if r.kind = dvmRelCode then le 4 n
        else le 8 (maps.addr l.sec + BitVec.ofNat 64 n).toNat := by
  obtain ⟨s, hs, -, hssec, hsoff⟩ := u.sym_of_rel hgap hr hl hnames
  have hx : l.flags ≠ dvmSymExtern := by
    intro hx
    have hneg := (u.accepted.labels.placed l hl).1 hx
    omega
  rw [if_neg hx] at hssec
  rw [if_pos (by omega), hoff, BitVec.ofInt_natCast] at hsoff
  rw [relBytes_of_sym hload hr hs hsoff hn, hssec]

/-! ## 4. The loaded text -/

/-- The relocation `r` of a listing's source stores the value of the reference it is for. -/
theorem relBytes_value {m m' : Mem} {ld : DvmLoaded}
    (h : sourceListing maps u.env u.src = some prog)
    (hload : dvmLoad maps m u.obj = .ok (ld, m')) (hgap : (sourceNames u.env u.src).NoGap)
    {r : DvmRel} (hr : r ∈ u.ctx.rels) :
    ∃ e, At Emit.size u.emits r.codeOffset.toNat e ∧ r.width = e.size ∧ (∀ bs, e ≠ .bytes bs) ∧
      relBytes maps u.obj r = e.value maps.code (listStart prog) (u.targets maps) := by
  obtain ⟨e, l, hat, hwidth, -, href⟩ := u.operand hr
  have htarget := u.target_of_ref h hat
  refine ⟨e, hat, hwidth, ?_, ?_⟩
  · rintro bs rfl
    rcases href with ⟨he, -⟩ | ⟨he, -⟩ <;> cases he
  rcases href with ⟨rfl, hkind⟩ | ⟨rfl, hkind⟩
  · obtain ⟨k, hk⟩ := htarget.1 l.name rfl
    obtain ⟨l', hl', hname, -, hoff⟩ := u.label_of_codeTarget h hk
    rw [u.relBytes_eq hload hgap hr hl' (hname ▸ .inl hat) hoff (u.listStart_lt h k),
      if_pos hkind, Emit.value, codeTarget, hk]
    rfl
  · have hno : r.kind ≠ dvmRelCode := by
      rw [hkind]
      decide
    obtain ⟨t, ht⟩ := htarget.2 l.name rfl
    cases t with
    | code k =>
      obtain ⟨l', hl', hname, hsec, hoff⟩ := u.label_of_codeTarget h ht
      rw [u.relBytes_eq hload hgap hr hl' (hname ▸ .inr hat) hoff (u.listStart_lt h k),
        if_neg hno, Emit.value, ht, hsec]
      rfl
    | data w =>
      obtain ⟨l', hl', hname, -, n, hoff, hn, rfl⟩ := u.label_of_data ht
      have hlt : n < 2 ^ 32 := by
        have hfits := (u.ctx.secBuf l'.sec).fits
        unfold dvmBufMax at hfits
        omega
      rw [u.relBytes_eq hload hgap hr hl' (hname ▸ .inr hat) hoff hlt, if_neg hno, Emit.value, ht]

theorem length_value (h : sourceListing maps u.env u.src = some prog) {p : Nat} {e : Emit}
    (hat : At Emit.size u.emits p e) :
    (e.value maps.code (listStart prog) (u.targets maps)).length = e.size := by
  obtain ⟨l, j, hl, he, hres⟩ := u.line_of_at h hat
  exact hl ▸ hres.length_value he

/-- The loaded text holds the value of every emission. -/
theorem field_loaded {m m' : Mem} {ld : DvmLoaded}
    (h : sourceListing maps u.env u.src = some prog)
    (hload : dvmLoad maps m u.obj = .ok (ld, m')) (hgap : (sourceNames u.env u.src).NoGap)
    {p : Nat} {e : Emit} (hat : At Emit.size u.emits p e) :
    field (patchAll u.obj.code (relStores maps u.obj)) p e.size
      = e.value maps.code (listStart prog) (u.targets maps) := by
  rw [← u.length_value h hat]
  refine field_patchAll (relStores_fit u.patchesInside maps) (fun x hx => ?_) ?_
  · obtain ⟨r, hr, rfl⟩ := List.mem_map.mp hx
    obtain ⟨e', hat', hwidth, -, hvalue⟩ := u.relBytes_value h hload hgap hr
    have hlen := length_relBytes_le maps u.obj r
    rw [u.length_value h hat]
    rcases hat.sep hat' with ⟨hp, rfl⟩ | hsep | hsep
    · exact .inl (Prod.ext hp.symm hvalue)
    · exact .inr (.inr hsep)
    · refine .inr (.inl ?_)
      simp only
      omega
  · rw [u.length_value h hat]
    have htarget := u.target_of_ref h hat
    cases e with
    | bytes bs => exact .inl (u.accepted.items p _ hat)
    | codeRef name =>
      obtain ⟨k, hk⟩ := htarget.1 name rfl
      obtain ⟨l, hl, rfl, -, hoff⟩ := u.label_of_codeTarget h hk
      have hfield := (u.accepted.codeRef_label hat hl (by omega)).2
      rw [hoff, offsetBytes_natCast (u.listStart_lt h k)] at hfield
      refine .inl (hfield.trans ?_)
      rw [Emit.value, codeTarget, hk]
      rfl
    | dataRef name =>
      have hrel : (p, name) ∈ u.names.relocated := by
        refine dataRef_relocated ?_
        rw [sourceEmits, filterMap_instr]
        exact hat
      obtain ⟨r, hr, hp, -⟩ := u.abstracts.mem_relocated_iff.mp hrel
      obtain ⟨e', hat', hwidth, href, hvalue⟩ := u.relBytes_value h hload hgap hr
      have hsame : e' = .dataRef name := by
        rw [hp] at hat'
        rcases hat'.sep hat with ⟨-, he⟩ | hsep | hsep
        · exact he
        · have hpos : 0 < r.width := by
            unfold DvmRel.width
            split <;> omega
          omega
        · rw [size_dataRef] at hsep
          omega
      refine .inr (List.mem_map.mpr ⟨r, hr, Prod.ext hp ?_⟩)
      rw [← hsame]
      exact hvalue
    | stop why => exact absurd (u.accepted.items p _ hat) id

/-- The loaded text is the layout of the listing. -/
theorem laidOut {m m' : Mem} {ld : DvmLoaded} (h : sourceListing maps u.env u.src = some prog)
    (hload : dvmLoad maps m u.obj = .ok (ld, m')) (hgap : (sourceNames u.env u.src).NoGap) :
    LaidOut maps.code prog (readBytes m' maps.code u.obj.code.length) := by
  have hfits := u.ctx.text.fits
  unfold dvmBufMax at hfits
  have hcode : u.obj.code.length = u.ctx.text.bytes.length := rfl
  have hlen : (patchAll u.obj.code (relStores maps u.obj)).length = u.obj.code.length :=
    length_patchAll (relStores_fit u.patchesInside maps)
  rw [dvmLoad_code hload u.patchesInside (by omega)]
  refine laidOut_of_values (u.resolves h) ?_ (by omega) ?_
  · rw [hlen, u.length_code, flatMap_lines]
  · intro k l f e hl hat
    rw [lines, List.getElem?_map, Option.map_eq_some_iff] at hl
    obtain ⟨c, hc, rfl⟩ := hl
    have hpos : At Emit.size u.emits (listStart prog k + f) e := by
      rw [u.listStart_eq h, textStart, emits, codeEmits]
      have hgroup : ((codeLines u.env u.src).map Prod.snd)[k]? = some c.2 := by
        rw [List.getElem?_map, hc]
        rfl
      have hat' := hat.flatten hgroup
      rwa [groupStart, ← List.map_take] at hat'
    exact u.field_loaded h hload hgap hpos

end Assembly

/-! ## 5. The result -/

/-- A program that is entered at its beginning is started in the first state of its listing. -/
theorem listInit_of_cmdRun {maps : LoadMaps} {m m' : Mem} {p : DvmProg} {ld : DvmLoaded}
    {vmStack : Word} {t : VMThread} (prog : List (SymInstr Nat))
    (hload : dvmLoad maps m p = .ok (ld, m')) (hentry : p.entryOffset = 0)
    (hrun : cmdRun vmStack ld = some t) : t = (listInit t).conc (instrPlace maps.code prog) := by
  rw [cmdRun, dvmLoad_code_mapped hload, Option.map_some, Option.some.injEq] at hrun
  obtain ⟨-, -, rfl, -⟩ := dvmLoad_ok_iff.mp hload
  have hstart : maps.code + (loadedProg maps p).entryOffset.setWidth 64 = maps.code := by
    show maps.code + p.entryOffset.setWidth 64 = maps.code
    rw [hentry]
    exact BitVec.add_zero maps.code
  rw [hstart] at hrun
  rw [← hrun, listInit_conc]

/-- An accepted source, loaded and run, does what its listing does from the first instruction
on. -/
theorem assembled_runs {env : AsmEnv} {src : List Byte} {ctx : AsmCtx} {maps : LoadMaps}
    {m m' : Mem} {ld : DvmLoaded} {prog : List (SymInstr Nat)} {vmStack : Word} {t : VMThread}
    (hasm : asmCompile env src = .ok ctx) (hgap : (sourceNames env src).NoGap)
    (hlist : sourceListing maps env src = some prog)
    (hload : dvmLoad maps m (asmToProg ctx) = .ok (ld, m')) (hrun : cmdRun vmStack ld = some t) :
    t = (listInit t).conc (instrPlace maps.code prog) ∧
      RunsListing maps.code prog (readBytes m' maps.code ctx.text.bytes.length)
        (listInit t) m' := by
  have hlaid := Assembly.laidOut (u := ⟨env, src, ctx, hasm⟩) hlist hload hgap
  exact ⟨listInit_of_cmdRun prog hload rfl hrun, hlaid.runsListing (textAt_readBytes m' _ _) _⟩

/-- A source without names that are announced only. -/
theorem NameTable.noGap_of_all {t : NameTable}
    (h : (t.names.all fun name => t.status name ≠ .announced) = true) : t.NoGap := by
  intro i p name _ _ j name' _ hj
  have hname := List.all_eq_true.mp h name' (List.mem_of_getElem? hj)
  exact of_decide_eq_true hname

/-- The text of a source, line by line. -/
def asmText (lines : List String) : List Byte := lines.flatMap fun l => lit l ++ [0x0a]

/-- `test/asm/callr.asm`. -/
def callrAsm : List Byte := asmText
  ["; callr.asm",
   "; Tests indirect call through a register (function pointer).",
   "; result = double(21) = 42",
   "",
   ".data",
   "result: dq 0",
   "",
   ".text",
   "    ; load address of 'double_fn' into bx, call through it",
   "    mov  bx, double_fn",
   "    mov  ax, 21",
   "    callr bx, die",
   "    mov  cx, result",
   "    mov  [cx], ax",
   "    halt",
   "",
   "die:",
   "    halt",
   "",
   "double_fn:",
   "    mov  bx, ax",
   "    add  ax, bx",
   "    ret"]

theorem callrAsm_runs : ∃ ctx prog ld m' t, asmCompile zeroEnv callrAsm = .ok ctx ∧
    dvmLoad sampleMaps (fun _ => 0) (asmToProg ctx) = .ok (ld, m') ∧
    cmdRun 0x8000 ld = some t ∧ prog.length = 10 ∧
    RunsListing sampleMaps.code prog
      (readBytes m' sampleMaps.code ctx.text.bytes.length) (listInit t) m' := by
  obtain ⟨ctx, hasm, hok⟩ : ∃ ctx, asmCompile zeroEnv callrAsm = .ok ctx ∧
      (dvmLoad sampleMaps (fun _ => 0) (asmToProg ctx)).isOk = true :=
    exists_ok_of_decide (by decide +kernel)
  obtain ⟨⟨ld, m'⟩, hload⟩ := exists_ok_of_isOk hok
  have hgap : (sourceNames zeroEnv callrAsm).NoGap :=
    NameTable.noGap_of_all (by decide +kernel)
  have hlen : (sourceListing sampleMaps zeroEnv callrAsm).map List.length = some 10 := by
    decide +kernel
  obtain ⟨prog, hlist, hprog⟩ := Option.map_eq_some_iff.mp hlen
  obtain ⟨t, hrun⟩ : ∃ t, cmdRun 0x8000 ld = some t := by
    rw [cmdRun, dvmLoad_code_mapped hload]
    exact ⟨_, rfl⟩
  exact ⟨ctx, prog, ld, m', t, hasm, hload, hrun, hprog,
    (assembled_runs hasm hgap hlist hload hrun).2⟩

end Dvm
