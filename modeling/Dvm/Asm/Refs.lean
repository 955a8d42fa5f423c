/-
# Code references

Whether a code reference is patched, left to the linker, or both is decided when it is reached,
by what the source has said of its name up to there.  Whether the source is accepted is decided
by what it has said in the end.  The two agree exactly if every name that ends up imported was
imported already where the code refers to it (`codeRefsResolved_iff`).
-/
import Dvm.Asm.Symbols

namespace Dvm

open Bytes Table Layout Loops

/-! ## 1. Resolved references -/

/-- The four bytes at `p` are the offset of the code label `name`. -/
def AsmCtx.ResolvedAt (ctx : AsmCtx) (p : Nat) (name : CStr) : Prop :=
  ∃ l ∈ ctx.labels, l.name = name ∧ l.IsCodeDef ∧ field ctx.text.bytes p 4 = offsetBytes l.offset

/-- `name` is an extern, and a relocation tells the linker to fill in the four bytes at `p`. -/
def AsmCtx.HandedOver (ctx : AsmCtx) (p : Nat) (name : CStr) : Prop :=
  ∃ l ∈ ctx.labels, l.name = name ∧ l.flags = dvmSymExtern ∧
    ∃ r ∈ ctx.rels, r.kind = dvmRelCode ∧ r.codeOffset.toNat = p ∧
      ctx.labels[r.symIndex.toNat]? = some l

/-- Every code reference is resolved, or handed over to the linker. -/
def CodeRefsResolved (es : List Emit) (ctx : AsmCtx) : Prop :=
  ∀ p name, At Emit.size es p (.codeRef name) → ctx.ResolvedAt p name ∨ ctx.HandedOver p name

/-- The name table after some statements. -/
def namesOf (xs : List SourceStmt) : NameTable := xs.foldl (fun t x => t.read x.stmt) {}

/-- A name that ends up imported is imported already where the code refers to it. -/
def ImportedFirst (xs : List SourceStmt) : Prop :=
  ∀ (before : List SourceStmt) (x : SourceStmt) (after : List SourceStmt) (mnem : CStr)
    (es : List Emit) (name : CStr), xs = before ++ x :: after → x.stmt = .code mnem es →
    .codeRef name ∈ es → (namesOf xs).status name = .imported →
    (namesOf before).status name = .imported

/-! ## 2. Positions -/

/-- What the instructions among the statements emit. -/
def sourceEmits (xs : List SourceStmt) : List Emit :=
  ((xs.filterMap SourceStmt.instr).map Prod.snd).flatten

theorem sourceEmits_append (xs ys : List SourceStmt) :
    sourceEmits (xs ++ ys) = sourceEmits xs ++ sourceEmits ys := by
  simp [sourceEmits]

theorem sourceEmits_code {x : SourceStmt} {mnem : CStr} {es : List Emit}
    (hx : x.stmt = .code mnem es) (xs : List SourceStmt) :
    sourceEmits (x :: xs) = es ++ sourceEmits xs := by
  have hinstr : x.instr = some (mnem, es) := by rw [SourceStmt.instr, hx]
  rw [sourceEmits, List.filterMap_cons_some hinstr]
  rfl

theorem sourceEmits_other {x : SourceStmt} (hx : x.instr = none) (xs : List SourceStmt) :
    sourceEmits (x :: xs) = sourceEmits xs := by
  rw [sourceEmits, List.filterMap_cons_none hx, sourceEmits]

theorem SourceStmt.code_of_instr {x : SourceStmt} {c : CStr × List Emit} (h : x.instr = some c) :
    x.stmt = .code c.1 c.2 := by
  unfold SourceStmt.instr at h
  split at h
  · next mnem es hx =>
    cases h
    exact hx
  · cases h

/-- An emission comes from one instruction of the source. -/
theorem at_sourceEmits {xs : List SourceStmt} {p : Nat} {e : Emit}
    (h : At Emit.size (sourceEmits xs) p e) :
    ∃ before x after mnem es q, xs = before ++ x :: after ∧ x.stmt = .code mnem es ∧
      At Emit.size es q e ∧ p = total Emit.size (sourceEmits before) + q := by
  induction xs generalizing p with
  | nil => exact absurd h not_at_nil
  | cons y xs ih =>
    cases hy : y.instr with
    | none =>
      rw [sourceEmits_other hy] at h
      obtain ⟨before, x, after, mnem, es, q, rfl, hx, hat, rfl⟩ := ih h
      exact ⟨y :: before, x, after, mnem, es, q, rfl, hx, hat, by rw [sourceEmits_other hy]⟩
    | some c =>
      have hcode := SourceStmt.code_of_instr hy
      rw [sourceEmits_code hcode] at h
      rcases at_append_iff.mp h with hat | ⟨p', rfl, hat⟩
      · exact ⟨[], y, xs, c.1, c.2, p, rfl, hcode, hat, (Nat.zero_add p).symm⟩
      · obtain ⟨before, x, after, mnem, es, q, rfl, hx, hat', rfl⟩ := ih hat
        refine ⟨y :: before, x, after, mnem, es, q, rfl, hx, hat', ?_⟩
        rw [sourceEmits_code hcode, total_append]
        omega

theorem at_sourceEmits_of {before : List SourceStmt} {x : SourceStmt} {mnem : CStr}
    {es : List Emit} (hx : x.stmt = .code mnem es) {q : Nat} {e : Emit}
    (hat : At Emit.size es q e) (after : List SourceStmt) :
    At Emit.size (sourceEmits (before ++ x :: after)) (total Emit.size (sourceEmits before) + q)
      e := by
  rw [sourceEmits_append, sourceEmits_code hx]
  exact at_append_iff.mpr (.inr ⟨q, rfl, at_append_iff.mpr (.inl hat)⟩)

/-! ## 3. The name table goes on -/

/-- `t'` is a later name table: what was relocated in between stands behind what was emitted
before, in the order of the text. -/
structure NameTable.Later (t t' : NameTable) : Prop where
  pos : t.pos ≤ t'.pos
  relocated : ∃ more, t'.relocated = t.relocated ++ more ∧
    (∀ y ∈ more, t.pos ≤ y.1 ∧ y.1 < t'.pos) ∧ more.Pairwise fun y z => y.1 < z.1

theorem NameTable.Later.of_eq {t t' : NameTable} (hpos : t.pos = t'.pos)
    (hrel : t'.relocated = t.relocated) : t.Later t' :=
  ⟨hpos.le, [], by rw [hrel, List.append_nil], by simp, .nil⟩

theorem NameTable.Later.trans {t t₁ t₂ : NameTable} (h : t.Later t₁) (h' : t₁.Later t₂) :
    t.Later t₂ := by
  obtain ⟨hpos, more, hmore, hin, hsort⟩ := h
  obtain ⟨hpos', more', hmore', hin', hsort'⟩ := h'
  refine ⟨hpos.trans hpos', more ++ more', by rw [hmore', hmore, List.append_assoc], ?_, ?_⟩
  · intro y hy
    rcases List.mem_append.mp hy with hy | hy
    · exact ⟨(hin y hy).1, (hin y hy).2.trans_le hpos'⟩
    · exact ⟨hpos.trans (hin' y hy).1, (hin' y hy).2⟩
  · refine List.pairwise_append.mpr ⟨hsort, hsort', ?_⟩
    intro y hy z hz
    exact (hin y hy).2.trans_le (hin' z hz).1

/-- Nothing is relocated later among what was emitted before. -/
theorem NameTable.Later.mem_iff {t t' : NameTable} (h : t.Later t') {y : Nat × CStr}
    (hy : y.1 < t.pos) : y ∈ t'.relocated ↔ y ∈ t.relocated := by
  obtain ⟨-, more, hmore, hin, -⟩ := h
  rw [hmore, List.mem_append]
  constructor
  · rintro (hmem | hmem)
    · exact hmem
    · exact absurd hy (Nat.not_lt.mpr (hin y hmem).1)
  · exact .inl

/-- What is relocated lies in the text. -/
theorem NameTable.Later.lt {t : NameTable} (h : NameTable.Later {} t) :
    ∀ y ∈ t.relocated, y.1 < t.pos := by
  obtain ⟨-, more, hmore, hin, -⟩ := h
  rw [hmore, List.nil_append]
  exact fun y hy => (hin y hy).2

/-- The references with a relocation are listed in the order of the text. -/
theorem NameTable.Later.sorted {t : NameTable} (h : NameTable.Later {} t) :
    t.relocated.Pairwise fun y z => y.1 < z.1 := by
  obtain ⟨-, more, hmore, -, hsort⟩ := h
  rwa [hmore, List.nil_append]

@[simp] theorem NameTable.emit_pos (t : NameTable) (e : Emit) :
    (t.emit e).pos = t.pos + e.size := rfl

theorem NameTable.later_emit (t : NameTable) (e : Emit) : t.Later (t.emit e) := by
  refine ⟨Nat.le_add_right _ _, ?_⟩
  cases e with
  | codeRef name =>
    rw [NameTable.emit, NameTable.refer]
    split
    · exact ⟨[(t.pos, name)], rfl, by simp, List.pairwise_singleton _ _⟩
    · exact ⟨[], by simp, by simp, .nil⟩
  | dataRef name =>
    refine ⟨[(t.pos, name)], ?_, by simp, List.pairwise_singleton _ _⟩
    rw [NameTable.emit, NameTable.refer]
    split <;> rfl
  | bytes bs => exact ⟨[], by simp [NameTable.emit, NameTable.refer], by simp, .nil⟩
  | stop why => exact ⟨[], by simp [NameTable.emit, NameTable.refer], by simp, .nil⟩

theorem NameTable.later_emits (t : NameTable) (es : List Emit) :
    t.Later (es.foldl NameTable.emit t) := by
  induction es generalizing t with
  | nil => exact .of_eq rfl rfl
  | cons e es ih => exact (t.later_emit e).trans (ih (t.emit e))

theorem NameTable.later_read (t : NameTable) (s : Stmt) : t.Later (t.read s) := by
  cases s with
  | code mnem es => exact t.later_emits es
  | _ => exact .of_eq rfl rfl

theorem NameTable.later_reads (t : NameTable) (xs : List SourceStmt) :
    t.Later (xs.foldl (fun t x => t.read x.stmt) t) := by
  induction xs generalizing t with
  | nil => exact .of_eq rfl rfl
  | cons x xs ih => exact (t.later_read x.stmt).trans (ih (t.read x.stmt))

theorem NameTable.emits_pos (t : NameTable) (es : List Emit) :
    (es.foldl NameTable.emit t).pos = t.pos + total Emit.size es := by
  induction es generalizing t with
  | nil => rfl
  | cons e es ih =>
    rw [List.foldl_cons, ih, emit_pos, total_cons]
    omega

theorem NameTable.reads_pos (t : NameTable) (xs : List SourceStmt) :
    (xs.foldl (fun t x => t.read x.stmt) t).pos = t.pos + total Emit.size (sourceEmits xs) := by
  induction xs generalizing t with
  | nil => rfl
  | cons x xs ih =>
    rw [List.foldl_cons, ih]
    obtain ⟨line, sec, s⟩ := x
    cases s with
    | code mnem es =>
      rw [sourceEmits_code rfl, total_append, NameTable.read, emits_pos]
      omega
    | _ =>
      rw [sourceEmits_other rfl]
      rfl

/-- Code references and bytes do not change what is known of a name. -/
theorem NameTable.emits_status {es : List Emit} (h : ∀ name, .dataRef name ∉ es) (t : NameTable) :
    (es.foldl NameTable.emit t).status = t.status := by
  induction es generalizing t with
  | nil => rfl
  | cons e es ih =>
    rw [List.foldl_cons, ih fun name hmem => h name (List.mem_cons_of_mem _ hmem)]
    cases e with
    | dataRef name => exact absurd List.mem_cons_self (h name)
    | codeRef name =>
      rw [NameTable.emit, NameTable.refer]
      split <;> rfl
    | bytes bs => rfl
    | stop why => rfl

/-- An instruction with a code reference has no data reference. -/
theorem Encodes.no_dataRef {op : Op} {es : List Emit} (h : Encodes op es) {name : CStr}
    (hmem : .codeRef name ∈ es) : ∀ name', .dataRef name' ∉ es := by
  intro name' hmem'
  cases h <;> simp [emitOp, emitRegs, emitI32, emitU64] at hmem hmem'

/-- A code reference is relocated if its name is imported where the code refers to it. -/
theorem mem_relocated_namesOf {before after : List SourceStmt} {x : SourceStmt} {mnem : CStr}
    {es : List Emit} {q : Nat} {name : CStr} (hx : x.stmt = .code mnem es)
    (hes : Encoded (mnem, es)) (hat : At Emit.size es q (.codeRef name)) :
    (total Emit.size (sourceEmits before) + q, name)
        ∈ (namesOf (before ++ x :: after)).relocated ↔
      (namesOf before).status name = .imported := by
  obtain ⟨op, -, henc⟩ := hes
  have hdata := henc.no_dataRef hat.mem
  obtain ⟨es₁, es₂, rfl, rfl⟩ := hat
  -- the name table right before the reference
  let t := es₁.foldl NameTable.emit (namesOf before)
  have hstatus : t.status = (namesOf before).status :=
    NameTable.emits_status (fun name' hmem => hdata name' (List.mem_append_left _ hmem)) _
  have hpos : t.pos = total Emit.size (sourceEmits before) + total Emit.size es₁ := by
    rw [NameTable.emits_pos, namesOf, NameTable.reads_pos]
    exact congrArg (· + _) (Nat.zero_add _)
  have hbefore : NameTable.Later {} t :=
    (NameTable.later_reads {} before).trans (NameTable.later_emits _ es₁)
  have hlast : namesOf (before ++ x :: after)
      = after.foldl (fun t x => t.read x.stmt)
          (es₂.foldl NameTable.emit (t.emit (.codeRef name))) := by
    rw [namesOf, List.foldl_append, List.foldl_cons, hx, NameTable.read, List.foldl_append]
    rfl
  have hafter : (t.emit (.codeRef name)).Later (namesOf (before ++ x :: after)) :=
    hlast ▸ ((t.emit (.codeRef name)).later_emits es₂).trans (NameTable.later_reads _ after)
  rw [← hpos, ← hstatus, hafter.mem_iff (by simp), NameTable.emit, NameTable.refer]
  split
  · next himp => exact ⟨fun _ => himp, fun _ => List.mem_append_right _ (.head _)⟩
  · next himp =>
    refine ⟨fun hmem => ?_, fun h => absurd h himp⟩
    exact absurd (hbefore.lt _ hmem) (Nat.lt_irrefl _)

/-! ## 4. Which references are resolved -/

section Resolved

variable {gs : List (List Emit)} {ctx : AsmCtx} {t : NameTable}

/-- The relocation at a code reference is a code relocation. -/
theorem Accepted.rel_kind (h : Accepted gs ctx) {r : DvmRel} (hr : r ∈ ctx.rels) {name : CStr}
    (hat : At Emit.size gs.flatten r.codeOffset.toNat (.codeRef name)) : r.kind = dvmRelCode := by
  obtain ⟨p, e, hat', hpos, l, -, -, href⟩ := h.rels r hr
  have hp : r.codeOffset.toNat = p := hpos ▸ h.position hat'
  rw [hp] at hat
  rcases href with ⟨-, hkind⟩ | ⟨rfl, -⟩
  · exact hkind
  · rcases hat.sep hat' with ⟨-, heq⟩ | hsep | hsep
    · cases heq
    · rw [size_codeRef] at hsep
      omega
    · rw [size_dataRef] at hsep
      omega

/-- The relocations are listed in the order of the text. -/
theorem Abstracts.rels_sorted (ht : Abstracts t ctx) (hlater : NameTable.Later {} t) :
    ctx.rels.Pairwise fun r r' => r.codeOffset.toNat < r'.codeOffset.toNat := by
  have hfst := congrArg (List.map Prod.fst) ht.rels
  rw [List.map_map, List.map_map] at hfst
  have hsort := List.pairwise_map.mpr hlater.sorted
  rw [show t.relocated.map Prod.fst = _ from hfst.symm] at hsort
  exact List.pairwise_map.mp hsort

/-- A code reference is resolved or handed over, unless its name is imported and it has no
relocation. -/
theorem Accepted.codeRef_iff (h : Accepted gs ctx) (ht : Abstracts t ctx) {p : Nat} {name : CStr}
    (hat : At Emit.size gs.flatten p (.codeRef name)) :
    ctx.ResolvedAt p name ∨ ctx.HandedOver p name ↔
      (t.status name = .imported → (p, name) ∈ t.relocated) := by
  obtain ⟨l, hl, rfl, hcase⟩ := h.items p _ hat
  obtain ⟨i, hi⟩ := List.getElem?_of_mem hl
  have hstatus := ht.status_of_label h.labels.nodup hi
  have hsame : ∀ m ∈ ctx.labels, m.name = l.name → m = l := fun m hm hname =>
    List.inj_on_of_nodup_map h.labels.nodup hm hl hname
  rcases hcase with ⟨hdef, hfield⟩ | ⟨hx, -⟩
  · refine iff_of_true (.inl ⟨l, hl, rfl, hdef, hfield⟩) ?_
    intro himp
    rw [hstatus, AsmLabel.status_eq_defined_iff.mpr hdef.1] at himp
    cases himp
  · have hundef := (h.labels.placed l hl).1 hx
    have himp : t.status l.name = .imported := by
      rw [hstatus, AsmLabel.status_eq_imported_iff]
      exact ⟨hundef, hx⟩
    constructor
    · rintro (⟨m, hm, hname, hdef, -⟩ | ⟨m, hm, hname, -, r, hr, -, hpos, hidx⟩) -
      · exact absurd hx (hsame m hm hname ▸ hdef.2.2)
      · exact ht.mem_relocated_iff.mpr
          ⟨r, hr, hpos, ht.names_getElem?.mpr ⟨m, hidx, hname⟩⟩
    · intro hrel
      obtain ⟨r, hr, rfl, hidx⟩ := ht.mem_relocated_iff.mp (hrel himp)
      obtain ⟨m, hm, hname⟩ := ht.names_getElem?.mp hidx
      rw [hsame m (List.mem_of_getElem? hm) hname] at hm
      exact .inr ⟨l, hl, rfl, hx, r, hr, h.rel_kind hr hat, rfl, hm⟩

theorem Accepted.codeRefs_iff {xs : List SourceStmt} (h : Accepted gs ctx)
    (ht : Abstracts (namesOf xs) ctx) (hgs : gs.flatten = sourceEmits xs)
    (henc : ∀ c ∈ xs.filterMap SourceStmt.instr, Encoded c) :
    CodeRefsResolved gs.flatten ctx ↔ ImportedFirst xs := by
  have hencoded : ∀ {x mnem es}, x ∈ xs → x.stmt = .code mnem es → Encoded (mnem, es) := by
    intro x mnem es hmem hx
    refine henc _ (List.mem_filterMap.mpr ⟨x, hmem, ?_⟩)
    rw [SourceStmt.instr, hx]
  constructor
  · intro hres before x after mnem es name hxs hx hmem himp
    obtain ⟨q, hq⟩ := At.of_mem hmem
    have hes := hencoded (hxs ▸ List.mem_append_right _ (.head _)) hx
    have hat := @at_sourceEmits_of before x mnem es hx q _ hq after
    rw [← hxs, ← hgs] at hat
    have hrel := (h.codeRef_iff ht hat).mp (hres _ _ hat) himp
    rw [hxs] at hrel
    exact (mem_relocated_namesOf hx hes hq).mp hrel
  · intro hfirst p name hat
    refine (h.codeRef_iff ht hat).mpr ?_
    intro himp
    rw [hgs] at hat
    obtain ⟨before, x, after, mnem, es, q, hxs, hx, hq, rfl⟩ := at_sourceEmits hat
    have hes := hencoded (hxs ▸ List.mem_append_right _ (.head _)) hx
    have hbefore := hfirst before x after mnem es name hxs hx hq.mem himp
    rw [hxs]
    exact (mem_relocated_namesOf hx hes hq).mpr hbefore

end Resolved

theorem flatten_codeEmits {env : AsmEnv} {src : List Byte} :
    (codeEmits env src).flatten = sourceEmits (sourceLines env src).flatten := by
  rw [sourceEmits, filterMap_instr]
  rfl

end Dvm
