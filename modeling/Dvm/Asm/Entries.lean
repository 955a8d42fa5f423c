/-
# The label table, name by name

Four kinds of lines rewrite the entry of a name: `global`, `extern`, a definition, and a `mov` that
refers to it.  What each of them does to the entry depends on that entry alone
(`entryIn_source`), so the fate of a name can be followed through a source without the rest of the
table (`entryIn_sources`).  Only a definition gives an entry a place, and only if it has none
(`entryPlace_onEntry`).
-/
import Dvm.Asm.Accepted

namespace Dvm

open Table Loops

/-! ## 1. What a line makes of an entry -/

/-- The entry of a name, as `asm_label_find` sees it. -/
def entryIn (labels : List AsmLabel) (name : CStr) : Option AsmLabel :=
  view AsmLabel.name some none labels name

/-- `label_define` over the entry there is. -/
def defineOver (new : AsmLabel) (old : Option AsmLabel) : AsmLabel :=
  match old with
  | none => new
  | some l => if (l.flags = dvmSymExtern ∧ new.flags ≠ dvmSymExtern) ∨ l.offset < 0 then new else l

/-- A `global` line. -/
def globalOver (name : CStr) (cursec : DvmSection) (old : Option AsmLabel) : AsmLabel :=
  match old with
  | none => ⟨name, dvmSymGlobal, cursec, -1⟩
  | some l => { l with flags := dvmSymGlobal }

/-- The flags of a definition. -/
def definedFlags (old : Option AsmLabel) : Byte :=
  if old.any fun l => l.flags = dvmSymGlobal then dvmSymGlobal else dvmSymLocal

/-- An extern or a placeholder. -/
def externEntry (name : CStr) : AsmLabel := ⟨name, dvmSymExtern, dvmSecNone, -1⟩

/-- What a statement makes of the entry of `name`; `len` is the length of its section before it. -/
def SourceStmt.onEntry (x : SourceStmt) (name : CStr) (len : Nat) (old : Option AsmLabel) :
    Option AsmLabel :=
  match x.stmt with
  | .globalDir name' => if name = name' then some (globalOver name x.sec old) else old
  | .externDir name' => if name = name' then some (defineOver (externEntry name) old) else old
  | .label name' =>
    if name = name' then some (defineOver ⟨name, definedFlags old, x.sec, len⟩ old) else old
  | .code _ es => if .dataRef name ∈ es then some (old.getD (externEntry name)) else old
  | _ => old

theorem entryIn_eq_map (labels : List AsmLabel) (name : CStr) :
    entryIn labels name = (labelFind labels name).map Prod.snd := by
  rw [entryIn, view, labelFind]
  cases find AsmLabel.name name labels <;> rfl

theorem entryIn_of_find {labels : List AsmLabel} {name : CStr} {i : Nat} {l : AsmLabel}
    (h : labelFind labels name = some (i, l)) : entryIn labels name = some l :=
  view_of_find h

theorem entryIn_of_none {labels : List AsmLabel} {name : CStr}
    (h : labelFind labels name = none) : entryIn labels name = none :=
  view_of_none h

theorem entryIn_eq_some_iff {labels : List AsmLabel} {name : CStr} {l : AsmLabel} :
    entryIn labels name = some l ↔ ∃ i, labelFind labels name = some (i, l) := by
  rw [entryIn_eq_map, Option.map_eq_some_iff]
  constructor
  · rintro ⟨⟨i, l⟩, hf, rfl⟩
    exact ⟨i, hf⟩
  · rintro ⟨i, hf⟩
    exact ⟨(i, l), hf, rfl⟩

/-! ## 2. The functions of the assembler -/

theorem entryIn_labelDefine {labels labels' : List AsmLabel} {name : CStr} {flags : Byte}
    {sec : DvmSection} {off : Int} (h : labelDefine labels name flags sec off = .ok labels') :
    entryIn labels' = Function.update (entryIn labels) name
      (some (defineOver ⟨name, flags, sec, off⟩ (entryIn labels name))) := by
  unfold labelDefine at h
  cases hf : labelFind labels name with
  | none =>
    simp only [hf] at h
    split at h
    · cases h
    · cases h
      rw [entryIn_of_none hf]
      exact @view_append AsmLabel CStr _ AsmLabel.name _ some none labels ⟨name, flags, sec, off⟩ hf
  | some x =>
    obtain ⟨i, l⟩ := x
    have hname : l.name = name := key_of_find hf
    have hset : entryIn (labels.set i { l with flags := flags, sec := sec, offset := off })
        = Function.update (entryIn labels) name (some ⟨name, flags, sec, off⟩) := by
      rw [← hname]
      exact view_set (hname ▸ hf) rfl
    simp only [hf] at h
    rw [entryIn_of_find hf, defineOver]
    split at h
    · next hx =>
      cases h
      rw [if_pos (.inl hx), hset]
    · next hx =>
      split at h
      · next hneg =>
        cases h
        rw [if_pos (.inr hneg), hset]
      · next hpos =>
        cases h
        rw [if_neg (not_or.mpr ⟨hx, hpos⟩), ← entryIn_of_find hf, Function.update_eq_self]

theorem entryIn_globalLabel {labels labels' : List AsmLabel} {name : CStr} {cursec : DvmSection}
    (h : globalLabel labels name cursec = .ok labels') :
    entryIn labels' = Function.update (entryIn labels) name
      (some (globalOver name cursec (entryIn labels name))) := by
  unfold globalLabel at h
  cases hf : labelFind labels name with
  | none =>
    simp only [hf] at h
    rw [entryIn_labelDefine h, entryIn_of_none hf]
    rfl
  | some x =>
    simp only [hf] at h
    cases h
    rw [entryIn_of_find hf]
    have hname : x.2.name = name := key_of_find hf
    exact view_set hf hname

theorem entryIn_defineLabel {ctx : AsmCtx} {labels' : List AsmLabel} {name : CStr}
    {cursec : DvmSection} (h : defineLabel ctx name cursec = .ok labels') :
    entryIn labels' = Function.update (entryIn ctx.labels) name
      (some (defineOver ⟨name, definedFlags (entryIn ctx.labels name), cursec,
        (ctx.secBuf cursec).bytes.length⟩ (entryIn ctx.labels name))) := by
  rw [entryIn_labelDefine h, definedFlags, entryIn_eq_map]

/-- Of what an instruction emits only a data reference makes an entry, if there is none. -/
theorem Emitted.entryIn {ctx ctx' : AsmCtx} {e : Emit} (h : Emitted ctx e ctx') (name : CStr) :
    entryIn ctx'.labels name = if e = .dataRef name
      then some ((entryIn ctx.labels name).getD (externEntry name))
      else entryIn ctx.labels name := by
  have hfound : ∀ {name' : CStr} {i : Nat} {l : AsmLabel},
      labelFind ctx.labels name' = some (i, l) → Dvm.entryIn ctx.labels name
        = if Emit.dataRef name' = .dataRef name
          then some ((Dvm.entryIn ctx.labels name).getD (externEntry name))
          else Dvm.entryIn ctx.labels name := by
    intro name' i l hf
    split
    · next heq =>
      cases heq
      rw [entryIn_of_find hf, Option.getD_some]
    · rfl
  cases h with
  | bytes _ => rw [if_neg (by simp)]
  | codeDef _ _ _ => rw [if_neg (by simp)]
  | codePatch _ _ => rw [if_neg (by simp)]
  | codeRel _ _ _ => rw [if_neg (by simp)]
  | dataDef hf _ _ => exact hfound hf
  | dataPatch hf _ => exact hfound hf
  | @dataNew name' line b hnone hlen hb =>
    have hadd : Dvm.entryIn (ctx.labels ++ [externEntry name'])
        = Function.update (Dvm.entryIn ctx.labels) name' (some (externEntry name')) :=
      @view_append AsmLabel CStr _ AsmLabel.name _ some none ctx.labels (externEntry name') hnone
    show Dvm.entryIn (ctx.labels ++ [externEntry name']) name = _
    rw [hadd]
    rcases Decidable.em (name = name') with rfl | hne
    · rw [Function.update_self, if_pos rfl, entryIn_of_none hnone, Option.getD_none]
    · rw [Function.update_of_ne hne, if_neg fun heq => hne (Emit.dataRef.inj heq).symm]

theorem entryIn_emits {ctx ctx' : AsmCtx} {line : Nat} {es : List Emit}
    (h : es.foldlM (doEmit line) ctx = .ok ctx') (name : CStr) :
    entryIn ctx'.labels name = if .dataRef name ∈ es
      then some ((entryIn ctx.labels name).getD (externEntry name))
      else entryIn ctx.labels name := by
  induction es generalizing ctx with
  | nil =>
    cases h
    rw [if_neg (by simp)]
  | cons e es ih =>
    obtain ⟨c₁, h₁, h₂⟩ := foldlM_cons_ok_iff.mp h
    have he := (doEmit_ok h₁).entryIn name
    rw [ih h₂, he]
    by_cases hhead : e = .dataRef name
    · rw [if_pos hhead, Option.getD_some, ite_self, if_pos (by simp [hhead])]
    · rw [if_neg hhead]
      simp [Ne.symm hhead]

/-! ## 3. Statements -/

/-- What a statement does to the entry of a name. -/
theorem entryIn_source {ctx ctx' : AsmCtx} {x : SourceStmt} (h : doSource ctx x = .ok ctx')
    (name : CStr) :
    entryIn ctx'.labels name
      = x.onEntry name (ctx.secBuf x.sec).bytes.length (entryIn ctx.labels name) := by
  obtain ⟨line, sec, s⟩ := x
  have hupdate : ∀ {labels : List AsmLabel} {name' : CStr} {new : CStr → AsmLabel},
      entryIn labels = Function.update (entryIn ctx.labels) name' (some (new name')) →
      entryIn labels name = if name = name' then some (new name) else entryIn ctx.labels name := by
    intro labels name' new heq
    rw [heq, Function.update_apply]
    split
    · next hn => rw [hn]
    · rfl
  cases s with
  | sect sec' =>
    cases h
    rfl
  | equ name' v =>
    cases h
    rfl
  | globalDir name' =>
    obtain ⟨labels, hls, rfl⟩ := withLabels_ok h
    exact @hupdate labels name' (fun n => globalOver n sec (entryIn ctx.labels n))
      (entryIn_globalLabel hls)
  | externDir name' =>
    obtain ⟨labels, hls, rfl⟩ := withLabels_ok h
    exact @hupdate labels name' (fun n => defineOver (externEntry n) (entryIn ctx.labels n))
      (entryIn_labelDefine hls)
  | label name' =>
    obtain ⟨labels, hls, rfl⟩ := withLabels_ok h
    exact @hupdate labels name' (fun n => defineOver ⟨n, definedFlags (entryIn ctx.labels n), sec,
      (ctx.secBuf sec).bytes.length⟩ (entryIn ctx.labels n)) (entryIn_defineLabel hls)
  | data bs =>
    cases doStmtCtx_ok h with
    | declare hdecl _ => cases hdecl
    | data htext => rfl
  | code mnem es => exact entryIn_emits h name
  | stop why => cases h

/-- A property of a name's entry that every statement keeps. -/
theorem entryIn_sources {I : Option AsmLabel → Prop} {name : CStr} {xs : List SourceStmt}
    (hstep : ∀ x ∈ xs, ∀ len old, I old → I (x.onEntry name len old)) {ctx ctx' : AsmCtx}
    (h : xs.foldlM doSource ctx = .ok ctx') (hI : I (entryIn ctx.labels name)) :
    I (entryIn ctx'.labels name) := by
  induction xs generalizing ctx with
  | nil =>
    cases h
    exact hI
  | cons x xs ih =>
    obtain ⟨c₁, h₁, h₂⟩ := foldlM_cons_ok_iff.mp h
    obtain ⟨hx, hxs⟩ := List.forall_mem_cons.mp hstep
    refine ih hxs h₂ ?_
    rw [entryIn_source h₁]
    exact hx _ _ hI

/-- The label table that an accepted source leaves is that after its statements. -/
theorem labels_of_accepted {env : AsmEnv} {src : List Byte} {ctx : AsmCtx}
    (h : asmCompile env src = .ok ctx) :
    ∃ ctx₀, (sourceLines env src).flatten.foldlM doSource .init = .ok ctx₀ ∧
      ctx.labels = ctx₀.labels := by
  obtain ⟨ctx₀, hsrc, hres⟩ := asmCompile_sourceLines h
  obtain ⟨-, text, -, rfl⟩ := patchesResolve_ok hres
  exact ⟨ctx₀, hsrc, rfl⟩

/-! ## 4. Externs have no place -/

/-- An entry with the EXTERN flag is undefined. -/
def ExternUndefined (e : Option AsmLabel) : Prop :=
  ∀ l, e = some l → l.flags = dvmSymExtern → l.offset < 0

theorem ExternUndefined.onEntry {e : Option AsmLabel} (h : ExternUndefined e) (x : SourceStmt)
    (name : CStr) (len : Nat) : ExternUndefined (x.onEntry name len e) := by
  have hdefine : ∀ new : AsmLabel, (new.flags = dvmSymExtern → new.offset < 0) →
      ExternUndefined (some (defineOver new e)) := by
    intro new hnew l hl hx
    rw [Option.some.injEq] at hl
    subst hl
    unfold defineOver at hx ⊢
    split at hx
    · exact hnew hx
    · next l =>
      split at hx
      · next hrw => rw [if_pos hrw]; exact hnew hx
      · next hrw => rw [if_neg hrw]; exact h l rfl hx
  have hflags : definedFlags e ≠ dvmSymExtern := by
    unfold definedFlags
    split <;> decide
  have hneg : (externEntry name).offset < 0 := show (-1 : Int) < 0 by decide
  unfold SourceStmt.onEntry
  split
  · split
    · intro l hl hx
      rw [Option.some.injEq] at hl
      subst hl
      unfold globalOver at hx
      split at hx <;> cases hx
    · exact h
  · split
    · exact hdefine _ fun _ => hneg
    · exact h
  · split
    · exact hdefine _ fun hx => absurd hx hflags
    · exact h
  · split
    · intro l hl hx
      rw [Option.some.injEq] at hl
      subst hl
      cases e with
      | none => exact hneg
      | some l => exact h l rfl hx
    · exact h
  · exact h

theorem externUndefined_init (name : CStr) :
    ExternUndefined (entryIn AsmCtx.init.labels name) := by
  intro l hl
  cases hl

theorem externUndefined_sources {xs : List SourceStmt} {ctx : AsmCtx}
    (h : xs.foldlM doSource .init = .ok ctx) (name : CStr) :
    ExternUndefined (entryIn ctx.labels name) :=
  entryIn_sources (I := ExternUndefined) (fun x _ len _ hI => hI.onEntry x name len) h
    (externUndefined_init name)

/-! ## 5. The place of an entry -/

/-- The place of an entry, if it is defined. -/
def entryPlace (e : Option AsmLabel) : Option (DvmSection × Int) :=
  e.bind fun l => if 0 ≤ l.offset then some (l.sec, l.offset) else none

theorem entryPlace_none : entryPlace none = none := rfl

theorem entryPlace_of_neg {l : AsmLabel} (h : l.offset < 0) : entryPlace (some l) = none :=
  if_neg (Int.not_le.mpr h)

theorem entryPlace_of_nonneg {l : AsmLabel} (h : 0 ≤ l.offset) :
    entryPlace (some l) = some (l.sec, l.offset) :=
  if_pos h

theorem entryPlace_eq_some_iff {labels : List AsmLabel} {name : CStr} {sec : DvmSection}
    {off : Int} :
    entryPlace (entryIn labels name) = some (sec, off) ↔
      ∃ i l, labelFind labels name = some (i, l) ∧ 0 ≤ l.offset ∧ l.sec = sec ∧ l.offset = off := by
  constructor
  · intro h
    obtain ⟨l, hl, hplace⟩ := Option.bind_eq_some_iff.mp h
    obtain ⟨i, hf⟩ := entryIn_eq_some_iff.mp hl
    split at hplace
    · next hoff =>
      rw [Option.some.injEq, Prod.mk.injEq] at hplace
      exact ⟨i, l, hf, hoff, hplace⟩
    · cases hplace
  · rintro ⟨i, l, hf, hoff, rfl, rfl⟩
    rw [entryIn_of_find hf, entryPlace_of_nonneg hoff]

theorem entryPlace_defineOver {e : Option AsmLabel} (h : ExternUndefined e) (new : AsmLabel) :
    entryPlace (some (defineOver new e)) = (entryPlace e).or (entryPlace (some new)) := by
  cases e with
  | none => rw [entryPlace_none, Option.none_or, defineOver]
  | some l =>
    rcases Int.lt_or_le l.offset 0 with hoff | hoff
    · rw [defineOver, if_pos (.inr hoff), entryPlace_of_neg hoff, Option.none_or]
    · have hx : l.flags ≠ dvmSymExtern := fun hx => Int.not_lt.mpr hoff (h l rfl hx)
      rw [defineOver, if_neg (not_or.mpr ⟨fun hd => hx hd.1, Int.not_lt.mpr hoff⟩),
        entryPlace_of_nonneg hoff, Option.some_or]

/-- Only a definition gives a place, and only to a name that has none. -/
theorem entryPlace_onEntry {e : Option AsmLabel} (h : ExternUndefined e) (x : SourceStmt)
    (name : CStr) (len : Nat) :
    entryPlace (x.onEntry name len e)
      = (entryPlace e).or (if x.stmt = .label name then some (x.sec, (len : Int)) else none) := by
  have hneg : entryPlace (some (externEntry name)) = none :=
    entryPlace_of_neg (show (-1 : Int) < 0 by decide)
  have hsame : ∀ {s : Stmt}, s ≠ .label name → entryPlace e
      = (entryPlace e).or (if s = .label name then some (x.sec, (len : Int)) else none) := by
    intro s hs
    rw [if_neg hs, Option.or_none]
  obtain ⟨line, sec, s⟩ := x
  cases s with
  | globalDir name' =>
    rw [← hsame (by simp)]
    simp only [SourceStmt.onEntry]
    split
    · cases e with
      | none => exact entryPlace_of_neg (show (-1 : Int) < 0 by decide)
      | some l => rfl
    · rfl
  | externDir name' =>
    rw [← hsame (by simp)]
    simp only [SourceStmt.onEntry]
    split
    · rw [entryPlace_defineOver h, hneg, Option.or_none]
    · rfl
  | label name' =>
    simp only [SourceStmt.onEntry]
    split
    · next hname =>
      rw [entryPlace_defineOver h, entryPlace_of_nonneg (Int.natCast_nonneg _),
        if_pos (by rw [hname])]
    · next hname =>
      exact hsame fun heq => hname (Stmt.label.inj heq).symm
  | code mnem es =>
    rw [← hsame (by simp)]
    simp only [SourceStmt.onEntry]
    split
    · cases e with
      | none => exact hneg
      | some l => rfl
    · rfl
  | sect _ => exact hsame (by simp)
  | equ _ _ => exact hsame (by simp)
  | data _ => exact hsame (by simp)
  | stop _ => exact hsame (by simp)

end Dvm
