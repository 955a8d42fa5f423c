/-
# What a source says about its names

An abstract model of the assembler's label table: `NameTable` holds the names in the order in
which the source mentions them first, what has been said about each of them so far, and the
references that are left to the linker.  It is computed from the statements of the source alone
(`sourceNames`).  The label table and the relocations of an accepted source
refine it (`asmCompile_names`).
-/
import Dvm.Asm.Accepted

namespace Dvm

open Bytes Table Loops

/-! ## 1. The abstract table -/

/-- What a source has said about a name so far. -/
inductive NameStatus where
  | absent
  /-- An extern, or referred to as data and not known yet. -/
  | imported
  /-- Declared `global`, but not defined. -/
  | announced
  | defined
  deriving DecidableEq, Repr

structure NameTable where
  names : List CStr := []
  status : CStr → NameStatus := fun _ => .absent
  /-- The text position. -/
  pos : Nat := 0
  /-- The references with a relocation: where, and to which name. -/
  relocated : List (Nat × CStr) := []

/-- The name is mentioned, and its status is now `s`. -/
def NameTable.say (t : NameTable) (name : CStr) (s : NameStatus) : NameTable :=
  { t with
    names := if name ∈ t.names then t.names else t.names ++ [name]
    status := Function.update t.status name s }

/-- A declaration does not undo a definition. -/
def NameTable.declare (t : NameTable) (name : CStr) (s : NameStatus) : NameTable :=
  t.say name (if t.status name = .defined then .defined else s)

def NameTable.relocate (t : NameTable) (name : CStr) : NameTable :=
  { t with relocated := t.relocated ++ [(t.pos, name)] }

/-- A data reference is always left to the linker, a code reference only if its name is an
extern at this point. -/
def NameTable.refer (t : NameTable) (e : Emit) : NameTable :=
  match e with
  | .dataRef name =>
    (if t.status name = .absent then t.say name .imported else t).relocate name
  | .codeRef name => if t.status name = .imported then t.relocate name else t
  | _ => t

def NameTable.emit (t : NameTable) (e : Emit) : NameTable :=
  { t.refer e with pos := t.pos + e.size }

def NameTable.read (t : NameTable) (s : Stmt) : NameTable :=
  match s with
  | .globalDir name => t.declare name .announced
  | .externDir name => t.declare name .imported
  | .label name => t.say name .defined
  | .code _ es => es.foldl NameTable.emit t
  | _ => t

/-- The name table of a source. -/
def sourceNames (env : AsmEnv) (src : List Byte) : NameTable :=
  (sourceLines env src).flatten.foldl (fun t x => t.read x.stmt) {}

/-! ## 2. The label table says the same -/

def AsmLabel.status (l : AsmLabel) : NameStatus :=
  if 0 ≤ l.offset then .defined else if l.flags = dvmSymExtern then .imported else .announced

def statusIn (labels : List AsmLabel) (name : CStr) : NameStatus :=
  match labelFind labels name with
  | none => .absent
  | some (_, l) => l.status

theorem statusIn_of_find {labels : List AsmLabel} {name : CStr} {i : Nat} {l : AsmLabel}
    (h : labelFind labels name = some (i, l)) : statusIn labels name = l.status := by
  rw [statusIn, h]

theorem statusIn_of_none {labels : List AsmLabel} {name : CStr}
    (h : labelFind labels name = none) : statusIn labels name = .absent := by
  rw [statusIn, h]

theorem AsmLabel.status_ne_absent (l : AsmLabel) : l.status ≠ .absent := by
  unfold AsmLabel.status
  split
  · simp
  · split <;> simp

theorem AsmLabel.status_eq_defined_iff {l : AsmLabel} : l.status = .defined ↔ 0 ≤ l.offset := by
  unfold AsmLabel.status
  split
  · next h => simp [h]
  · next h => split <;> simp [h]

theorem AsmLabel.status_ne_defined {l : AsmLabel} (h : l.offset < 0) : l.status ≠ .defined :=
  fun hdef => Int.not_le.mpr h (status_eq_defined_iff.mp hdef)

theorem AsmLabel.status_eq_imported_iff {l : AsmLabel} :
    l.status = .imported ↔ l.offset < 0 ∧ l.flags = dvmSymExtern := by
  unfold AsmLabel.status
  split
  · next h => simp [Int.not_lt.mpr h]
  · next h => split <;> simp_all

theorem AsmLabel.status_global (l : AsmLabel) :
    { l with flags := dvmSymGlobal }.status
      = if l.status = .defined then .defined else .announced := by
  have hglobal : dvmSymGlobal ≠ dvmSymExtern := by decide
  rcases Int.lt_or_le l.offset 0 with hoff | hoff
  · rw [if_neg (status_ne_defined hoff), AsmLabel.status, if_neg (Int.not_le.mpr hoff),
      if_neg hglobal]
  · rw [if_pos (status_eq_defined_iff.mpr hoff), status_eq_defined_iff]
    exact hoff

/-- The labels with a symbol are those that the source does not leave announced. -/
theorem AsmLabel.exported_iff {l : AsmLabel} : l.Exported ↔ l.status ≠ .announced := by
  unfold AsmLabel.Exported AsmLabel.status
  split
  · next h => simp [h]
  · next h => split <;> simp_all

/-- `labels'` is `labels` after the name was mentioned with status `s`. -/
def Says (labels labels' : List AsmLabel) (name : CStr) (s : NameStatus) : Prop :=
  labels'.map AsmLabel.name
      = (if name ∈ labels.map AsmLabel.name then labels.map AsmLabel.name
        else labels.map AsmLabel.name ++ [name]) ∧
    statusIn labels' = Function.update (statusIn labels) name s

theorem mem_names_of_find {labels : List AsmLabel} {name : CStr} {i : Nat} {l : AsmLabel}
    (h : labelFind labels name = some (i, l)) : name ∈ labels.map AsmLabel.name :=
  List.mem_map.mpr ⟨l, List.mem_of_getElem? (getElem?_of_find h), key_of_find h⟩

theorem says_same {labels : List AsmLabel} {name : CStr} {i : Nat} {l : AsmLabel}
    (h : labelFind labels name = some (i, l)) : Says labels labels name l.status := by
  refine ⟨by rw [if_pos (mem_names_of_find h)], ?_⟩
  rw [← statusIn_of_find h, Function.update_eq_self]

theorem statusIn_eq_view (labels : List AsmLabel) :
    statusIn labels = view AsmLabel.name AsmLabel.status .absent labels := by
  funext name
  rw [statusIn, labelFind, view]
  cases find AsmLabel.name name labels <;> rfl

theorem says_set {labels : List AsmLabel} {name : CStr} {i : Nat} {l l' : AsmLabel}
    (h : labelFind labels name = some (i, l)) (hname : l'.name = l.name) :
    Says labels (labels.set i l') name l'.status := by
  refine ⟨by rw [if_pos (mem_names_of_find h), map_key_set (getElem?_of_find h) hname], ?_⟩
  rw [statusIn_eq_view, view_set h (hname.trans (key_of_find h)), ← statusIn_eq_view]

theorem says_add {labels : List AsmLabel} {l : AsmLabel} (h : labelFind labels l.name = none) :
    Says labels (labels ++ [l]) l.name l.status := by
  have hnew : l.name ∉ labels.map AsmLabel.name := by
    intro hmem
    obtain ⟨m, hm, hname⟩ := List.mem_map.mp hmem
    exact find_eq_none_iff.mp h m hm hname
  refine ⟨by rw [if_neg hnew, List.map_append]; rfl, ?_⟩
  rw [statusIn_eq_view, view_append h, ← statusIn_eq_view]

theorem says_labelDefine {starts : Nat → Prop} {labels labels' : List AsmLabel} {name : CStr}
    {flags : Byte} {sec : DvmSection} {off : Int} (hok : LabelsOk starts labels)
    (h : labelDefine labels name flags sec off = .ok labels') :
    Says labels labels' name (if statusIn labels name = .defined then .defined
      else (AsmLabel.mk name flags sec off).status) := by
  unfold labelDefine at h
  cases hf : labelFind labels name with
  | none =>
    simp only [hf] at h
    split at h
    · cases h
    · cases h
      rw [statusIn_of_none hf, if_neg (by simp)]
      exact @says_add labels ⟨name, flags, sec, off⟩ hf
  | some x =>
    obtain ⟨i, l⟩ := x
    simp only [hf] at h
    rw [statusIn_of_find hf]
    have hundef : l.flags = dvmSymExtern → l.offset < 0 :=
      (hok.placed l (List.mem_of_getElem? (getElem?_of_find hf))).1
    split at h
    · next hx =>
      cases h
      rw [if_neg (AsmLabel.status_ne_defined (hundef hx.1))]
      exact says_set hf rfl
    · split at h
      · next hneg =>
        cases h
        rw [if_neg (AsmLabel.status_ne_defined hneg)]
        exact says_set hf rfl
      · next hpos =>
        cases h
        have hdef := AsmLabel.status_eq_defined_iff.mpr (Int.not_lt.mp hpos)
        rw [if_pos hdef, ← hdef]
        exact says_same hf

theorem says_globalLabel {starts : Nat → Prop} {labels labels' : List AsmLabel} {name : CStr}
    {cursec : DvmSection} (hok : LabelsOk starts labels)
    (h : globalLabel labels name cursec = .ok labels') :
    Says labels labels' name (if statusIn labels name = .defined then .defined
      else .announced) := by
  unfold globalLabel at h
  cases hf : labelFind labels name with
  | none =>
    simp only [hf] at h
    exact says_labelDefine hok h
  | some x =>
    obtain ⟨i, l⟩ := x
    simp only [hf] at h
    cases h
    have hsays := says_set hf
      (show AsmLabel.name { l with flags := dvmSymGlobal } = l.name from rfl)
    rw [statusIn_of_find hf, ← l.status_global]
    exact hsays

theorem says_defineLabel {starts : Nat → Prop} {ctx : AsmCtx} {labels' : List AsmLabel}
    {name : CStr} {cursec : DvmSection} (hok : LabelsOk starts ctx.labels)
    (h : defineLabel ctx name cursec = .ok labels') : Says ctx.labels labels' name .defined := by
  have hsays := says_labelDefine hok h
  rw [AsmLabel.status_eq_defined_iff.mpr (Int.natCast_nonneg _), ite_self] at hsays
  exact hsays

/-! ## 3. Refinement -/

/-- The label table and the relocations are those of the abstract table. -/
structure Abstracts (t : NameTable) (ctx : AsmCtx) : Prop where
  names : ctx.labels.map AsmLabel.name = t.names
  status : statusIn ctx.labels = t.status
  pos : ctx.text.bytes.length = t.pos
  rels : ctx.rels.map (fun r => (r.codeOffset.toNat, t.names[r.symIndex.toNat]?))
    = t.relocated.map fun x => (x.1, some x.2)

/-- More names at the end do not change those of the relocations. -/
theorem Abstracts.rels_append {t : NameTable} {ctx : AsmCtx} (h : Abstracts t ctx)
    (more : List CStr) :
    ctx.rels.map (fun r => (r.codeOffset.toNat, (t.names ++ more)[r.symIndex.toNat]?))
      = t.relocated.map fun x => (x.1, some x.2) := by
  rw [← h.rels]
  refine List.map_congr_left ?_
  intro r hr
  have hmem : (r.codeOffset.toNat, t.names[r.symIndex.toNat]?)
      ∈ t.relocated.map fun x => (x.1, some x.2) := h.rels ▸ List.mem_map_of_mem hr
  obtain ⟨x, -, hx⟩ := List.mem_map.mp hmem
  have hname : t.names[r.symIndex.toNat]? = some x.2 := (congrArg Prod.snd hx).symm
  rw [List.getElem?_append_left (List.getElem?_eq_some_iff.mp hname).1]

theorem Abstracts.say {t : NameTable} {ctx : AsmCtx} (h : Abstracts t ctx)
    {labels' : List AsmLabel} {name : CStr} {s : NameStatus}
    (hs : Says ctx.labels labels' name s) :
    Abstracts (t.say name s) { ctx with labels := labels' } where
  names := by
    rw [hs.1, h.names]
    rfl
  status := by
    rw [hs.2, h.status]
    rfl
  pos := h.pos
  rels := by
    show ctx.rels.map (fun r => (r.codeOffset.toNat,
      (if name ∈ t.names then t.names else t.names ++ [name])[_]?)) = _
    split
    · exact h.rels
    · exact h.rels_append [name]

/-- One more relocation, of a name in the table. -/
theorem Abstracts.relocate {t : NameTable} {ctx : AsmCtx} (h : Abstracts t ctx) {name : CStr}
    {r : DvmRel} (hr : t.names[r.symIndex.toNat]? = some name)
    (hpos : r.codeOffset = BitVec.ofNat 32 ctx.text.bytes.length) :
    Abstracts (t.relocate name) { ctx with rels := ctx.rels ++ [r] } where
  names := h.names
  status := h.status
  pos := h.pos
  rels := by
    have hfits := ctx.text.fits
    unfold dvmBufMax at hfits
    have hp : r.codeOffset.toNat = t.pos := by
      rw [hpos, BitVec.toNat_ofNat, Nat.mod_eq_of_lt (by omega), h.pos]
    show (ctx.rels ++ [r]).map (fun r => (r.codeOffset.toNat, t.names[r.symIndex.toNat]?))
      = (t.relocated ++ [(t.pos, name)]).map fun x => (x.1, some x.2)
    rw [List.map_append, List.map_append, h.rels, List.map_singleton, List.map_singleton, hr, hp]

/-- The text goes on, and there may be a new patch. -/
theorem Abstracts.advance {t : NameTable} {ctx : AsmCtx} {text : Buf} {n : Nat}
    (h : Abstracts t ctx) (ht : text.bytes.length = ctx.text.bytes.length + n)
    (patches : List AsmPatch) :
    Abstracts { t with pos := t.pos + n } { ctx with text := text, patches := patches } :=
  ⟨h.names, h.status, by rw [← h.pos]; exact ht, h.rels⟩

theorem Abstracts.names_of_find {t : NameTable} {ctx : AsmCtx} (h : Abstracts t ctx) {name : CStr}
    {i : Nat} {l : AsmLabel} (hf : labelFind ctx.labels name = some (i, l)) :
    t.names[i]? = some name := by
  rw [← h.names, List.getElem?_map, getElem?_of_find hf]
  exact congrArg some (key_of_find hf)

theorem NameTable.refer_pos (t : NameTable) (e : Emit) : (t.refer e).pos = t.pos := by
  unfold NameTable.refer
  repeat' split
  all_goals rfl

theorem Abstracts.emit {starts : Nat → Prop} {t : NameTable} {ctx ctx' : AsmCtx} {e : Emit}
    (h : Abstracts t ctx) (hok : LabelsOk starts ctx.labels) (he : Emitted ctx e ctx') :
    Abstracts (t.emit e) ctx' := by
  have hlen := he.length
  rw [NameTable.emit, ← t.refer_pos e]
  -- a reference to a label of the table gets a relocation with its index
  have hfound : ∀ {name : CStr} {i : Nat} {l : AsmLabel},
      labelFind ctx.labels name = some (i, l) → ∀ pos kind, t.names[(DvmRel.mk pos
        (BitVec.ofNat 32 i) kind).symIndex.toNat]? = some name := by
    intro name i l hf pos kind
    rw [hok.index (lt_length_of_find hf)]
    exact h.names_of_find hf
  have hknown : ∀ {name : CStr} {i : Nat} {l : AsmLabel},
      labelFind ctx.labels name = some (i, l) → t.status name ≠ .absent := by
    intro name i l hf
    rw [← h.status, statusIn_of_find hf]
    exact l.status_ne_absent
  cases he with
  | bytes _ => exact h.advance hlen _
  | @codeDef name i l b hf hdef _ =>
    have hst : t.status name ≠ .imported := by
      rw [← h.status, statusIn_of_find hf, AsmLabel.status_eq_defined_iff.mpr hdef.1]
      simp
    rw [NameTable.refer, if_neg hst]
    exact h.advance hlen _
  | @codePatch name line b hne _ =>
    have hst : t.status name ≠ .imported := by
      rw [← h.status]
      cases hf : labelFind ctx.labels name with
      | none => simp [statusIn_of_none hf]
      | some x =>
        rw [statusIn_of_find hf]
        exact fun himp => hne x.1 x.2 hf (AsmLabel.status_eq_imported_iff.mp himp).2
    rw [NameTable.refer, if_neg hst]
    exact h.advance hlen _
  | @codeRel name line i l b hf hx _ =>
    have hneg := (hok.placed l (List.mem_of_getElem? (getElem?_of_find hf))).1 hx
    have hst : t.status name = .imported := by
      rw [← h.status, statusIn_of_find hf, AsmLabel.status_eq_imported_iff]
      exact ⟨hneg, hx⟩
    rw [NameTable.refer, if_pos hst]
    exact (h.relocate (hfound hf _ _) rfl).advance hlen _
  | dataDef hf _ _ =>
    rw [NameTable.refer, if_neg (hknown hf)]
    exact (h.relocate (hfound hf _ _) rfl).advance hlen _
  | dataPatch hf _ =>
    rw [NameTable.refer, if_neg (hknown hf)]
    exact (h.relocate (hfound hf _ _) rfl).advance hlen _
  | @dataNew name line b hnone hlen' _ =>
    have hst : t.status name = .absent := by rw [← h.status, statusIn_of_none hnone]
    have hsay : Abstracts (t.say name .imported) _ :=
      h.say (@says_add ctx.labels ⟨name, dvmSymExtern, dvmSecNone, -1⟩ hnone)
    have hidx : (BitVec.ofNat 32 ctx.labels.length).toNat = ctx.labels.length := by
      rw [BitVec.toNat_ofNat, Nat.mod_eq_of_lt]
      unfold asmMaxLabels at hlen'
      omega
    rw [NameTable.refer, if_pos hst]
    refine (hsay.relocate ?_ rfl).advance hlen _
    rw [hidx, ← hsay.names, List.getElem?_map, List.getElem?_concat_length]
    rfl

/-! ## 4. All statements of a source -/

theorem Abstracts.emits {starts : Nat → Prop} {t : NameTable} {ctx ctx' : AsmCtx} {line : Nat}
    {es : List Emit} (h : Abstracts t ctx) (hok : LabelsOk starts ctx.labels)
    (hes : es.foldlM (doEmit line) ctx = .ok ctx') :
    Abstracts (es.foldl NameTable.emit t) ctx' := by
  induction es generalizing t ctx with
  | nil =>
    cases hes
    exact h
  | cons e es ih =>
    obtain ⟨c₁, h₁, h₂⟩ := foldlM_cons_ok_iff.mp hes
    have he := doEmit_ok h₁
    exact ih (h.emit hok he) (he.labelsOk hok) h₂

theorem Abstracts.source {starts : Nat → Prop} {t : NameTable} {ctx ctx' : AsmCtx}
    {x : SourceStmt} (h : Abstracts t ctx) (hok : LabelsOk starts ctx.labels)
    (hx : IsSec x.sec ∧ x.stmt.ReadIn x.sec) (hd : doSource ctx x = .ok ctx') :
    Abstracts (t.read x.stmt) ctx' := by
  obtain ⟨line, sec, s⟩ := x
  have hdeclare : ∀ {labels' : List AsmLabel} {name : CStr} {st : NameStatus},
      Says ctx.labels labels' name (if statusIn ctx.labels name = .defined then .defined else st) →
      Abstracts (t.declare name st) { ctx with labels := labels' } := by
    intro labels' name st hsays
    rw [h.status] at hsays
    exact h.say hsays
  cases s with
  | sect sec' =>
    cases hd
    exact h
  | equ name v =>
    cases hd
    exact ⟨h.names, h.status, h.pos, h.rels⟩
  | globalDir name =>
    obtain ⟨labels, hls, rfl⟩ := withLabels_ok hd
    exact hdeclare (says_globalLabel hok hls)
  | externDir name =>
    obtain ⟨labels, hls, rfl⟩ := withLabels_ok hd
    exact hdeclare (says_labelDefine hok hls)
  | label name =>
    obtain ⟨labels, hls, rfl⟩ := withLabels_ok hd
    exact h.say (says_defineLabel hok hls)
  | data bs =>
    cases doStmtCtx_ok hd with
    | declare hdecl _ => cases hdecl
    | data htext =>
      have hsame := htext (hx.1.data hx.2)
      exact ⟨h.names, h.status, hsame ▸ h.pos, h.rels⟩
  | code mnem es => exact h.emits hok hd
  | stop why => cases hd

theorem Abstracts.sources {gs : List (List Emit)} {t : NameTable} {ctx ctx' : AsmCtx}
    {xs : List SourceStmt} (h : Abstracts t ctx) (ha : Assembled (LineStarts gs) gs.flatten ctx)
    (hxs : ∀ x ∈ xs, IsSec x.sec ∧ x.stmt.ReadIn x.sec)
    (hd : xs.foldlM doSource ctx = .ok ctx') :
    Abstracts (xs.foldl (fun t x => t.read x.stmt) t) ctx' := by
  induction xs generalizing gs t ctx with
  | nil =>
    cases hd
    exact h
  | cons x xs ih =>
    obtain ⟨c₁, h₁, h₂⟩ := foldlM_cons_ok_iff.mp hd
    obtain ⟨hx, hxs'⟩ := List.forall_mem_cons.mp hxs
    exact ih (h.source ha.labels hx h₁) (ha.source hx h₁).1 hxs' h₂

theorem abstracts_sources {xs : List SourceStmt} {ctx : AsmCtx}
    (hxs : ∀ x ∈ xs, IsSec x.sec ∧ x.stmt.ReadIn x.sec) (hd : xs.foldlM doSource .init = .ok ctx) :
    Abstracts (xs.foldl (fun t x => t.read x.stmt) {}) ctx := by
  have hinit : Abstracts {} .init := ⟨rfl, rfl, rfl, rfl⟩
  have hempty : Assembled (LineStarts []) ([] : List (List Emit)).flatten .init := assembled_init
  exact hinit.sources hempty hxs hd

/-- The label table and the relocations of an accepted source are those that its statements
say. -/
theorem asmCompile_names {env : AsmEnv} {src : List Byte} {ctx : AsmCtx}
    (h : asmCompile env src = .ok ctx) : Abstracts (sourceNames env src) ctx := by
  obtain ⟨ctx₀, hsrc, hres⟩ := asmCompile_sourceLines h
  obtain ⟨-, text, htext, rfl⟩ := patchesResolve_ok hres
  have hall := abstracts_sources (sourceLines_readIn env src) hsrc
  have hplaced := (assembled_sources (sourceLines_readIn env src) hsrc).1
  have hlen : text.bytes.length = ctx₀.text.bytes.length :=
    htext ▸ length_patchAll hplaced.store_fits
  exact ⟨hall.names, hall.status, hlen.trans hall.pos, hall.rels⟩

end Dvm
