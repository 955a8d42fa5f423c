/-
# Which labels are exported

`asm_to_prog` exports a label with the flag that its entry has in the end.  `Export` is what an
entry says about that, and `Export.after` how a line changes it (`exportOf_onEntry`): a `global`
line makes an undefined name a global, an `extern` line takes that back, and after the definition
only `global` lines count.  So the order of the lines matters exactly where an `extern` line comes
between the last `global` line and the definition (`exportedGlobal_iff`).
-/
import Dvm.Asm.Places
import Dvm.Asm.Symbols
import Dvm.Asm.Undefined

namespace Dvm

open Table Loops Concat

/-! ## 1. What a source says about an export -/

/-- What the entry of a name says about its export. -/
inductive Export where
  /-- No entry, or an extern. -/
  | unknown
  /-- Declared `global`, but not defined. -/
  | announced
  /-- Defined, as a local label. -/
  | hidden
  /-- Defined, as a global label. -/
  | shown
  deriving DecidableEq, Repr

def exportOf (e : Option AsmLabel) : Export :=
  match e with
  | none => .unknown
  | some l =>
    if 0 ≤ l.offset then if l.flags = dvmSymGlobal then .shown else .hidden
    else if l.flags = dvmSymGlobal then .announced else .unknown

/-- `global name`. -/
def Export.afterGlobal : Export → Export
  | unknown | announced => .announced
  | hidden | shown => .shown

/-- `extern name`. -/
def Export.afterExtern : Export → Export
  | unknown | announced => .unknown
  | e => e

/-- `name:`. -/
def Export.afterLabel : Export → Export
  | unknown => .hidden
  | announced => .shown
  | e => e

/-- Behind a statement. -/
def Export.after (name : CStr) (e : Export) (s : Stmt) : Export :=
  if s = .globalDir name then e.afterGlobal
  else if s = .externDir name then e.afterExtern
  else if s = .label name then e.afterLabel
  else e

/-- Behind all statements. -/
def Export.afterAll (name : CStr) (e : Export) (xs : List SourceStmt) : Export :=
  xs.foldl (fun e x => e.after name x.stmt) e

def HasGlobal (xs : List SourceStmt) (name : CStr) : Prop := ∃ x ∈ xs, x.stmt = .globalDir name

/-- No `extern` line for the name up to its first definition. -/
def NoExternYet (xs : List SourceStmt) (name : CStr) : Prop :=
  ∀ y ∈ xs.takeWhile (fun y => y.stmt ≠ .label name), y.stmt ≠ .externDir name

/-- Some `global` line stands behind a definition of the name, or no `extern` line stands between
it and the first one. -/
def GlobalKept (xs : List SourceStmt) (name : CStr) : Prop :=
  ∃ (k : Nat) (x : SourceStmt), xs[k]? = some x ∧ x.stmt = .globalDir name ∧
    (HasLabel (xs.take k) name ∨ NoExternYet (xs.drop (k + 1)) name)

/-- The program exports the name, as a global. -/
def ExportedGlobal (p : DvmProg) (name : CStr) : Prop :=
  (∃ s ∈ p.syms, s.name = name) ∧ ∀ s ∈ p.syms, s.name = name → s.flags = dvmSymGlobal

/-! ## 2. One statement -/

theorem exportOf_of_neg {l : AsmLabel} (h : l.offset < 0) :
    exportOf (some l) = if l.flags = dvmSymGlobal then .announced else .unknown :=
  if_neg (Int.not_le.mpr h)

theorem exportOf_of_nonneg {l : AsmLabel} (h : 0 ≤ l.offset) :
    exportOf (some l) = if l.flags = dvmSymGlobal then .shown else .hidden :=
  if_pos h

theorem exportOf_global {e : Option AsmLabel} {name : CStr} {sec : DvmSection} :
    exportOf (some (globalOver name sec e)) = (exportOf e).afterGlobal := by
  cases e with
  | none => rfl
  | some l =>
    rcases Int.lt_or_le l.offset 0 with hoff | hoff
    · have hnew : exportOf (some (globalOver name sec (some l))) = .announced :=
        exportOf_of_neg (l := { l with flags := dvmSymGlobal }) hoff
      rw [hnew, exportOf_of_neg hoff]
      split <;> rfl
    · have hnew : exportOf (some (globalOver name sec (some l))) = .shown :=
        exportOf_of_nonneg (l := { l with flags := dvmSymGlobal }) hoff
      rw [hnew, exportOf_of_nonneg hoff]
      split <;> rfl

theorem exportOf_extern {e : Option AsmLabel} {name : CStr} :
    exportOf (some (defineOver (externEntry name) e)) = (exportOf e).afterExtern := by
  have hnew : exportOf (some (externEntry name)) = .unknown := rfl
  cases e with
  | none => exact hnew
  | some l =>
    rcases Int.lt_or_le l.offset 0 with hoff | hoff
    · rw [defineOver, if_pos (.inr hoff), hnew, exportOf_of_neg hoff]
      split <;> rfl
    · have hkeep : ¬ ((l.flags = dvmSymExtern ∧ (externEntry name).flags ≠ dvmSymExtern) ∨
          l.offset < 0) :=
        not_or.mpr ⟨fun hd => hd.2 rfl, Int.not_lt.mpr hoff⟩
      rw [defineOver, if_neg hkeep, exportOf_of_nonneg hoff]
      split <;> rfl

theorem exportOf_label {e : Option AsmLabel} (h : ExternUndefined e) {name : CStr}
    {sec : DvmSection} {len : Nat} :
    exportOf (some (defineOver ⟨name, definedFlags e, sec, len⟩ e)) = (exportOf e).afterLabel := by
  have hnew : exportOf (some ⟨name, definedFlags e, sec, len⟩)
      = if definedFlags e = dvmSymGlobal then .shown else .hidden :=
    exportOf_of_nonneg (Int.natCast_nonneg _)
  cases e with
  | none => exact hnew
  | some l =>
    have hflags : definedFlags (some l) = if l.flags = dvmSymGlobal then dvmSymGlobal
        else dvmSymLocal := by simp [definedFlags]
    rcases Int.lt_or_le l.offset 0 with hoff | hoff
    · rw [defineOver, if_pos (.inr hoff), hnew, hflags, exportOf_of_neg hoff]
      split <;> rfl
    · have hx : l.flags ≠ dvmSymExtern := fun hx => Int.not_lt.mpr hoff (h l rfl hx)
      rw [defineOver, if_neg (not_or.mpr ⟨fun hd => hx hd.1, Int.not_lt.mpr hoff⟩),
        exportOf_of_nonneg hoff]
      split <;> rfl

/-- What a statement makes of the export of a name.  A reference makes an extern of a new name, and
that says as little as no entry. -/
theorem exportOf_onEntry {e : Option AsmLabel} (h : ExternUndefined e) (x : SourceStmt)
    (name : CStr) (len : Nat) :
    exportOf (x.onEntry name len e) = (exportOf e).after name x.stmt := by
  obtain ⟨line, sec, s⟩ := x
  unfold Export.after
  cases s with
  | globalDir name' =>
    simp only [SourceStmt.onEntry, Stmt.globalDir.injEq, reduceCtorEq, if_false]
    split
    · next hname => rw [if_pos hname.symm, exportOf_global]
    · next hname => rw [if_neg (Ne.symm hname)]
  | externDir name' =>
    simp only [SourceStmt.onEntry, Stmt.externDir.injEq, reduceCtorEq, if_false]
    split
    · next hname => rw [if_pos hname.symm, exportOf_extern]
    · next hname => rw [if_neg (Ne.symm hname)]
  | label name' =>
    simp only [SourceStmt.onEntry, Stmt.label.injEq, reduceCtorEq, if_false]
    split
    · next hname => rw [if_pos hname.symm, exportOf_label h]
    · next hname => rw [if_neg (Ne.symm hname)]
  | code mnem es =>
    simp only [SourceStmt.onEntry, reduceCtorEq, if_false]
    split
    · cases e <;> rfl
    · rfl
  | sect _ => simp [SourceStmt.onEntry]
  | equ _ _ => simp [SourceStmt.onEntry]
  | data _ => simp [SourceStmt.onEntry]
  | stop _ => simp [SourceStmt.onEntry]

/-! ## 3. All statements -/

theorem exportOf_sources {xs : List SourceStmt} {c c' : AsmCtx} {name : CStr}
    (h : xs.foldlM doSource c = .ok c') (hx : ExternUndefined (entryIn c.labels name)) :
    exportOf (entryIn c'.labels name) = (exportOf (entryIn c.labels name)).afterAll name xs := by
  induction xs generalizing c with
  | nil =>
    cases h
    rfl
  | cons x xs ih =>
    obtain ⟨c₁, h₁, h₂⟩ := foldlM_cons_ok_iff.mp h
    have hentry := entryIn_source h₁ name
    rw [ih h₂ (hentry ▸ hx.onEntry x name _), hentry, exportOf_onEntry hx]
    rfl

section Lines

variable {name : CStr} {x : SourceStmt} {xs : List SourceStmt}

theorem hasLabel_cons : HasLabel (x :: xs) name ↔ x.stmt = .label name ∨ HasLabel xs name :=
  List.exists_mem_cons_iff ..

theorem hasGlobal_cons : HasGlobal (x :: xs) name ↔ x.stmt = .globalDir name ∨ HasGlobal xs name :=
  List.exists_mem_cons_iff ..

theorem noExternYet_of_label (hx : x.stmt = .label name) : NoExternYet (x :: xs) name := by
  rw [NoExternYet, List.takeWhile_cons_of_neg (by simp [hx])]
  exact fun y hy => nomatch hy

theorem noExternYet_cons (hx : x.stmt ≠ .label name) :
    NoExternYet (x :: xs) name ↔ x.stmt ≠ .externDir name ∧ NoExternYet xs name := by
  rw [NoExternYet, List.takeWhile_cons_of_pos (by simp [hx]), List.forall_mem_cons]
  rfl

/-- Behind a definition every `global` line counts. -/
theorem globalKept_of_label (hx : x.stmt = .label name) :
    GlobalKept (x :: xs) name ↔ HasGlobal xs name := by
  constructor
  · rintro ⟨k, y, hk, hy, -⟩
    cases k with
    | zero =>
      cases hk
      rw [hx] at hy
      cases hy
    | succ k => exact ⟨y, List.mem_of_getElem? (by simpa using hk), hy⟩
  · rintro ⟨y, hmem, hy⟩
    obtain ⟨k, hk⟩ := List.getElem?_of_mem hmem
    exact ⟨k + 1, y, by simpa using hk, hy, .inl ⟨x, List.mem_cons_self, hx⟩⟩

theorem globalKept_cons (hx : x.stmt ≠ .label name) :
    GlobalKept (x :: xs) name ↔
      (x.stmt = .globalDir name ∧ NoExternYet xs name) ∨ GlobalKept xs name := by
  constructor
  · rintro ⟨k, y, hk, hy, hkept⟩
    cases k with
    | zero =>
      cases hk
      refine .inl ⟨hy, hkept.resolve_left ?_⟩
      rintro ⟨z, hz, -⟩
      cases hz
    | succ k =>
      refine .inr ⟨k, y, by simpa using hk, hy, hkept.imp_left fun hlabel => ?_⟩
      exact (hasLabel_cons.mp hlabel).resolve_left hx
  · rintro (⟨hglobal, hno⟩ | ⟨k, y, hk, hy, hkept⟩)
    · exact ⟨0, x, rfl, hglobal, .inr hno⟩
    · exact ⟨k + 1, y, by simpa using hk, hy,
        hkept.imp_left fun hlabel => hasLabel_cons.mpr (.inr hlabel)⟩

end Lines

/-- From each state, when the name ends up as a global label. -/
structure ShownFrom (name : CStr) (xs : List SourceStmt) : Prop where
  shown : Export.afterAll name .shown xs = .shown
  hidden : Export.afterAll name .hidden xs = .shown ↔ HasGlobal xs name
  announced : Export.afterAll name .announced xs = .shown ↔
    HasLabel xs name ∧ (NoExternYet xs name ∨ GlobalKept xs name)
  unknown : Export.afterAll name .unknown xs = .shown ↔ HasLabel xs name ∧ GlobalKept xs name

theorem shownFrom_nil (name : CStr) : ShownFrom name [] := by
  have hlabel : ¬ HasLabel [] name := fun ⟨z, hz, _⟩ => nomatch hz
  have hglobal : ¬ HasGlobal [] name := fun ⟨z, hz, _⟩ => nomatch hz
  exact ⟨rfl, iff_of_false (by simp [Export.afterAll]) hglobal,
    iff_of_false (by simp [Export.afterAll]) fun h => hlabel h.1,
    iff_of_false (by simp [Export.afterAll]) fun h => hlabel h.1⟩

section Cons

variable {name : CStr} {x : SourceStmt} {xs : List SourceStmt}

theorem afterAll_cons (e : Export) :
    e.afterAll name (x :: xs) = (e.after name x.stmt).afterAll name xs := rfl

theorem ShownFrom.label (h : ShownFrom name xs) (hl : x.stmt = .label name) :
    ShownFrom name (x :: xs) := by
  have hafter : ∀ e : Export, e.after name x.stmt = e.afterLabel := by
    intro e
    simp [Export.after, hl]
  have hlabel : HasLabel (x :: xs) name := hasLabel_cons.mpr (.inl hl)
  have hglobal : HasGlobal (x :: xs) name ↔ HasGlobal xs name := by
    rw [hasGlobal_cons]
    simp [hl]
  refine ⟨?_, ?_, ?_, ?_⟩
  · rw [afterAll_cons, hafter]
    exact h.shown
  · rw [afterAll_cons, hafter, hglobal]
    exact h.hidden
  · rw [afterAll_cons, hafter]
    exact iff_of_true h.shown ⟨hlabel, .inl (noExternYet_of_label hl)⟩
  · rw [afterAll_cons, hafter, globalKept_of_label hl, and_iff_right hlabel]
    exact h.hidden

/-- A line that does not define the name. -/
theorem hasLabel_cons_of_ne (hl : x.stmt ≠ .label name) :
    HasLabel (x :: xs) name ↔ HasLabel xs name := by
  rw [hasLabel_cons, or_iff_right hl]

theorem ShownFrom.globalDir (h : ShownFrom name xs) (hg : x.stmt = .globalDir name) :
    ShownFrom name (x :: xs) := by
  have hl : x.stmt ≠ .label name := by simp [hg]
  have hx : x.stmt ≠ .externDir name := by simp [hg]
  have hafter : ∀ e : Export, e.after name x.stmt = e.afterGlobal := by
    intro e
    simp [Export.after, hg]
  refine ⟨?_, ?_, ?_, ?_⟩
  · rw [afterAll_cons, hafter]
    exact h.shown
  · rw [afterAll_cons, hafter]
    exact iff_of_true h.shown (hasGlobal_cons.mpr (.inl hg))
  · rw [afterAll_cons, hafter, hasLabel_cons_of_ne hl, noExternYet_cons hl, globalKept_cons hl,
      and_iff_right hx, and_iff_right hg, ← or_assoc, or_self]
    exact h.announced
  · rw [afterAll_cons, hafter, hasLabel_cons_of_ne hl, globalKept_cons hl, and_iff_right hg]
    exact h.announced

/-- A line that is no `global` line for the name. -/
theorem hasGlobal_cons_of_ne (hg : x.stmt ≠ .globalDir name) :
    HasGlobal (x :: xs) name ↔ HasGlobal xs name := by
  rw [hasGlobal_cons, or_iff_right hg]

theorem globalKept_cons_of_ne (hl : x.stmt ≠ .label name) (hg : x.stmt ≠ .globalDir name) :
    GlobalKept (x :: xs) name ↔ GlobalKept xs name := by
  rw [globalKept_cons hl, or_iff_right fun h => hg h.1]

theorem ShownFrom.externDir (h : ShownFrom name xs) (hx : x.stmt = .externDir name) :
    ShownFrom name (x :: xs) := by
  have hl : x.stmt ≠ .label name := by simp [hx]
  have hg : x.stmt ≠ .globalDir name := by simp [hx]
  have hafter : ∀ e : Export, e.after name x.stmt = e.afterExtern := by
    intro e
    simp [Export.after, hx]
  have hnot : ¬ NoExternYet (x :: xs) name := fun hno => ((noExternYet_cons hl).mp hno).1 hx
  refine ⟨?_, ?_, ?_, ?_⟩
  · rw [afterAll_cons, hafter]
    exact h.shown
  · rw [afterAll_cons, hafter, hasGlobal_cons_of_ne hg]
    exact h.hidden
  · rw [afterAll_cons, hafter, hasLabel_cons_of_ne hl, globalKept_cons_of_ne hl hg,
      or_iff_right hnot]
    exact h.unknown
  · rw [afterAll_cons, hafter, hasLabel_cons_of_ne hl, globalKept_cons_of_ne hl hg]
    exact h.unknown

theorem ShownFrom.other (h : ShownFrom name xs) (hl : x.stmt ≠ .label name)
    (hg : x.stmt ≠ .globalDir name) (hx : x.stmt ≠ .externDir name) :
    ShownFrom name (x :: xs) := by
  have hafter : ∀ e : Export, e.after name x.stmt = e := by
    intro e
    simp [Export.after, hg, hx, hl]
  refine ⟨?_, ?_, ?_, ?_⟩
  · rw [afterAll_cons, hafter]
    exact h.shown
  · rw [afterAll_cons, hafter, hasGlobal_cons_of_ne hg]
    exact h.hidden
  · rw [afterAll_cons, hafter, hasLabel_cons_of_ne hl, noExternYet_cons hl,
      globalKept_cons_of_ne hl hg, and_iff_right hx]
    exact h.announced
  · rw [afterAll_cons, hafter, hasLabel_cons_of_ne hl, globalKept_cons_of_ne hl hg]
    exact h.unknown

end Cons

theorem shownFrom (name : CStr) (xs : List SourceStmt) : ShownFrom name xs := by
  induction xs with
  | nil => exact shownFrom_nil name
  | cons x xs ih =>
    by_cases hl : x.stmt = .label name
    · exact ih.label hl
    · by_cases hg : x.stmt = .globalDir name
      · exact ih.globalDir hg
      · by_cases hx : x.stmt = .externDir name
        · exact ih.externDir hx
        · exact ih.other hl hg hx

/-! ## 4. The result -/

/-- A name that the source defines is in the label table, with a place. -/
theorem label_of_hasLabel {env : AsmEnv} {src : List Byte} {ctx : AsmCtx} {name : CStr}
    (h : asmCompile env src = .ok ctx) (hl : HasLabel (sourceLines env src).flatten name) :
    ∃ i l, labelFind ctx.labels name = some (i, l) ∧ 0 ≤ l.offset := by
  obtain ⟨ctx₀, hsrc, hlabels⟩ := labels_of_accepted h
  obtain ⟨x, hmem, hname⟩ := hl
  obtain ⟨before, after, hsplit⟩ := List.append_of_mem hmem
  rw [hsplit] at hsrc
  obtain ⟨c, hbefore, -⟩ := foldlM_append_ok_iff.mp hsrc
  obtain ⟨i, l, hf, hoff, -⟩ := entryPlace_eq_some_iff.mp (entryPlace_definition hname hbefore hsrc)
  exact ⟨i, l, hlabels ▸ hf, hoff⟩

/-- A name that an accepted source defines is exported as a global exactly if a `global` line for it
stands behind a definition, or has no `extern` line between itself and the first definition. -/
theorem exportedGlobal_iff {env : AsmEnv} {src : List Byte} {ctx : AsmCtx} {name : CStr}
    (h : asmCompile env src = .ok ctx) (hl : HasLabel (sourceLines env src).flatten name) :
    ExportedGlobal (asmToProg ctx) name ↔ GlobalKept (sourceLines env src).flatten name := by
  obtain ⟨i, l, hf, hoff⟩ := label_of_hasLabel h hl
  have hacc := (asmCompile_accepted h).1
  have hlmem := List.mem_of_getElem? (getElem?_of_find hf)
  have hlname : l.name = name := key_of_find hf
  have hflags : ExportedGlobal (asmToProg ctx) name ↔ l.flags = dvmSymGlobal := by
    have hsym : l.toSym ∈ (asmToProg ctx).syms := by
      rw [hacc.syms]
      exact List.mem_map_of_mem (List.mem_filter.mpr ⟨hlmem, decide_eq_true (.inl hoff)⟩)
    constructor
    · intro hexp
      exact hexp.2 _ hsym hlname
    · intro hglobal
      refine ⟨⟨_, hsym, hlname⟩, fun s hs hname => ?_⟩
      rw [hacc.syms] at hs
      obtain ⟨m, hm, rfl⟩ := List.mem_map.mp hs
      have hsame : m = l := List.inj_on_of_nodup_map hacc.labels.nodup (List.mem_filter.mp hm).1
        hlmem (hname.trans hlname.symm)
      rw [hsame]
      exact hglobal
  obtain ⟨ctx₀, hsrc, hlabels⟩ := labels_of_accepted h
  have hexport : exportOf (some l)
      = Export.afterAll name .unknown (sourceLines env src).flatten := by
    rw [← entryIn_of_find hf, hlabels]
    exact exportOf_sources hsrc (externUndefined_init name)
  rw [hflags, ← and_iff_right (b := GlobalKept _ name) hl, ← (shownFrom name _).unknown, ← hexport,
    exportOf_of_nonneg hoff]
  split
  · next hglobal => exact iff_of_true hglobal rfl
  · next hlocal => exact iff_of_false hlocal (by simp)

/-- A label declared `extern` and `global` before its definition, with a reference in between. -/
def externThenGlobal : List Byte := lit "extern f\nmov ax, f\nglobal f\nf:\nhalt\n"

theorem externThenGlobal_exported : ∃ ctx, asmCompile zeroEnv externThenGlobal = .ok ctx ∧
    ExportedGlobal (asmToProg ctx) (lit "f") := by
  obtain ⟨ctx, h⟩ : ∃ ctx, asmCompile zeroEnv externThenGlobal = .ok ctx :=
    exists_ok_of_isOk (by decide +kernel)
  refine ⟨ctx, h, (exportedGlobal_iff h ?_).mpr ?_⟩
  · exact ⟨⟨4, dvmSecCode, .label (lit "f")⟩, List.mem_of_getElem? (i := 3) rfl, rfl⟩
  · exact ⟨2, ⟨3, dvmSecCode, .globalDir (lit "f")⟩, rfl, rfl, .inr (noExternYet_of_label rfl)⟩

/-- The same lines with the `extern` line behind the `global` line. -/
def globalThenExtern : List Byte := lit "global f\nextern f\nf:\nhalt\n"

/-- The label is exported as a local one. -/
theorem globalThenExtern_local : ∃ ctx, asmCompile zeroEnv globalThenExtern = .ok ctx ∧
    HasLabel (sourceLines zeroEnv globalThenExtern).flatten (lit "f") ∧
    HasGlobal (sourceLines zeroEnv globalThenExtern).flatten (lit "f") ∧
    ¬ ExportedGlobal (asmToProg ctx) (lit "f") := by
  obtain ⟨ctx, h⟩ : ∃ ctx, asmCompile zeroEnv globalThenExtern = .ok ctx :=
    exists_ok_of_isOk (by decide +kernel)
  have hsyms : (asmToProg ctx).syms = [⟨lit "f", dvmSymLocal, dvmSecCode, 0⟩] := by
    have hrun : (asmCompile zeroEnv globalThenExtern).toOption.map (fun ctx => (asmToProg ctx).syms)
        = some [⟨lit "f", dvmSymLocal, dvmSecCode, 0⟩] := by decide +kernel
    rw [h] at hrun
    exact Option.some.inj hrun
  refine ⟨ctx, h, ?_, ?_, fun hexp => ?_⟩
  · exact ⟨⟨3, dvmSecCode, .label (lit "f")⟩, List.mem_of_getElem? (i := 2) rfl, rfl⟩
  · exact ⟨⟨1, dvmSecCode, .globalDir (lit "f")⟩, List.mem_of_getElem? (i := 0) rfl, rfl⟩
  · have hflags := hexp.2 ⟨lit "f", dvmSymLocal, dvmSecCode, 0⟩ (by rw [hsyms]; exact .head _) rfl
    cases hflags

end Dvm
