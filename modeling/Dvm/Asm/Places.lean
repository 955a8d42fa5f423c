/-
# Where labels stand

A label gets its section and offset from the first of its definitions that the assembler comes to,
whatever `global` and `extern` lines and references stand before it (`entryPlace_definition`).  A
second definition is ignored without a message, so labels mean the places where they are written
in exactly those sources that define none twice (`labelsMeanPlaces_iff`).
-/
import Mathlib.Data.List.Induction
import Dvm.Base.Concat
import Dvm.Asm.Entries

namespace Dvm

open Table Loops Concat

/-! ## 1. Definitions and places -/

/-- A source with the statements `xs` has a line that defines `name`, and when the assembler comes
to it the section is `sec` and `off` bytes long. -/
def LabelDef (xs : List SourceStmt) (name : CStr) (sec : DvmSection) (off : Nat) : Prop :=
  ∃ (k : Nat) (x : SourceStmt) (c : AsmCtx), xs[k]? = some x ∧ x.stmt = .label name ∧ x.sec = sec ∧
    (xs.take k).foldlM doSource .init = .ok c ∧ off = (c.secBuf sec).bytes.length

/-- The entry of every label says where it is defined. -/
def LabelsPlaced (xs : List SourceStmt) (ctx : AsmCtx) : Prop :=
  ∀ name sec off, LabelDef xs name sec off →
    ∃ i l, labelFind ctx.labels name = some (i, l) ∧ l.sec = sec ∧ l.offset = off

/-- All definitions of a name are at one place. -/
def OnePlace (xs : List SourceStmt) : Prop :=
  ∀ name sec off sec' off', LabelDef xs name sec off → LabelDef xs name sec' off' →
    sec = sec' ∧ off = off'

/-- The name that a statement defines. -/
def SourceStmt.defines (x : SourceStmt) : Option CStr :=
  match x.stmt with
  | .label name => some name
  | _ => none

/-- The labels of a source, definition by definition. -/
def definedNames (xs : List SourceStmt) : List CStr := xs.filterMap SourceStmt.defines

/-- Labels mean the places where they are written, and a source that defines one twice is
rejected. -/
structure LabelsMeanPlaces (env : AsmEnv) (src : List Byte) : Prop where
  placed : ∀ ctx, asmCompile env src = .ok ctx → LabelsPlaced (sourceLines env src).flatten ctx
  rejected : ¬ (definedNames (sourceLines env src).flatten).Nodup →
    ∀ ctx, asmCompile env src ≠ .ok ctx

/-! ## 2. The first definition counts -/

/-- A place stays, once a name has one. -/
theorem entryPlace_sources {xs : List SourceStmt} {c c' : AsmCtx} {name : CStr}
    {p : DvmSection × Int} (h : xs.foldlM doSource c = .ok c')
    (hx : ExternUndefined (entryIn c.labels name))
    (hp : entryPlace (entryIn c.labels name) = some p) :
    entryPlace (entryIn c'.labels name) = some p := by
  refine (entryIn_sources (I := fun e => ExternUndefined e ∧ entryPlace e = some p) ?_ h ⟨hx, hp⟩).2
  rintro x - len old ⟨hold, hplace⟩
  refine ⟨hold.onEntry x name len, ?_⟩
  rw [entryPlace_onEntry hold, hplace, Option.some_or]

/-- At a definition of `name`, its place at the end is the one it has there already, or that of the
definition. -/
theorem entryPlace_definition {before after : List SourceStmt} {x : SourceStmt} {c c' : AsmCtx}
    {name : CStr} (hname : x.stmt = .label name) (hbefore : before.foldlM doSource .init = .ok c)
    (h : (before ++ x :: after).foldlM doSource .init = .ok c') :
    entryPlace (entryIn c'.labels name) = some ((entryPlace (entryIn c.labels name)).getD
      (x.sec, ((c.secBuf x.sec).bytes.length : Int))) := by
  obtain ⟨c₁, h₁, h₂⟩ := foldlM_append_ok_iff.mp h
  obtain rfl : c₁ = c := Except.ok.inj (h₁.symm.trans hbefore)
  obtain ⟨c₂, hone, hrest⟩ := foldlM_cons_ok_iff.mp h₂
  have hx := externUndefined_sources hbefore name
  have hentry := entryIn_source hone name
  have hplace := entryPlace_onEntry hx x name (c₁.secBuf x.sec).bytes.length
  rw [← hentry, if_pos hname] at hplace
  refine entryPlace_sources hrest (hentry ▸ hx.onEntry x name _) ?_
  rw [hplace]
  cases entryPlace (entryIn c₁.labels name) <;> rfl

theorem LabelDef.append {xs : List SourceStmt} {name : CStr} {sec : DvmSection} {off : Nat}
    (h : LabelDef xs name sec off) (ys : List SourceStmt) : LabelDef (xs ++ ys) name sec off := by
  obtain ⟨k, x, c, hk, hx⟩ := h
  have hlt := (List.getElem?_eq_some_iff.mp hk).1
  refine ⟨k, x, c, by rw [List.getElem?_append_left hlt, hk], ?_⟩
  rwa [List.take_append_of_le_length (Nat.le_of_lt hlt)]

/-- Every place in the label table is that of a definition. -/
theorem labelDef_of_place {xs : List SourceStmt} {c : AsmCtx} {name : CStr} {sec : DvmSection}
    {off : Int} (h : xs.foldlM doSource .init = .ok c)
    (hp : entryPlace (entryIn c.labels name) = some (sec, off)) :
    ∃ n : Nat, off = n ∧ LabelDef xs name sec n := by
  induction xs using List.reverseRecOn generalizing c with
  | nil =>
    cases h
    cases hp
  | append_singleton xs x ih =>
    obtain ⟨c₁, h₁, h₂⟩ := foldlM_append_ok_iff.mp h
    obtain ⟨c₂, hone, hend⟩ := foldlM_cons_ok_iff.mp h₂
    cases hend
    rw [entryIn_source hone, entryPlace_onEntry (externUndefined_sources h₁ name)] at hp
    cases hold : entryPlace (entryIn c₁.labels name) with
    | some p =>
      rw [hold, Option.some_or, Option.some.injEq] at hp
      subst hp
      obtain ⟨n, hn, hd⟩ := ih h₁ hold
      exact ⟨n, hn, hd.append [x]⟩
    | none =>
      rw [hold, Option.none_or] at hp
      split at hp
      · next hname =>
        rw [Option.some.injEq, Prod.mk.injEq] at hp
        obtain ⟨rfl, rfl⟩ := hp
        refine ⟨_, rfl, xs.length, x, c₁, List.getElem?_concat_length, hname, rfl, ?_, rfl⟩
        rwa [List.take_left]
      · cases hp

/-! ## 3. The result -/

/-- Labels are where they are written exactly if no name is defined at two places. -/
theorem labelsPlaced_iff {env : AsmEnv} {src : List Byte} {ctx : AsmCtx}
    (h : asmCompile env src = .ok ctx) :
    LabelsPlaced (sourceLines env src).flatten ctx ↔ OnePlace (sourceLines env src).flatten := by
  obtain ⟨ctx₀, hsrc, hlabels⟩ := labels_of_accepted h
  unfold LabelsPlaced
  rw [hlabels]
  constructor
  · intro hplaced name sec off sec' off' hd hd'
    obtain ⟨i, l, hf, rfl, hoff⟩ := hplaced name sec off hd
    obtain ⟨i', l', hf', rfl, hoff'⟩ := hplaced name sec' off' hd'
    rw [hf, Option.some.injEq, Prod.mk.injEq] at hf'
    obtain ⟨-, rfl⟩ := hf'
    exact ⟨rfl, Int.ofNat.inj (hoff.symm.trans hoff')⟩
  · intro hone name sec off hd
    obtain ⟨k, x, c, hk, hname, rfl, hbefore, rfl⟩ := id hd
    have hplace := entryPlace_definition hname hbefore (eq_take_cons_drop hk ▸ hsrc)
    have hfirst : (entryPlace (entryIn c.labels name)).getD
        (x.sec, ((c.secBuf x.sec).bytes.length : Int))
        = (x.sec, ((c.secBuf x.sec).bytes.length : Int)) := by
      cases hold : entryPlace (entryIn c.labels name) with
      | none => rfl
      | some p =>
        -- an earlier definition, at the same place
        obtain ⟨n, hn, hearlier⟩ := labelDef_of_place hbefore hold
        have hd' := hearlier.append ((sourceLines env src).flatten.drop k)
        rw [List.take_append_drop] at hd'
        obtain ⟨hsec, hoff⟩ := hone _ _ _ _ _ hd hd'
        exact Prod.ext hsec.symm (hn.trans (congrArg Int.ofNat hoff.symm))
    rw [hfirst] at hplace
    obtain ⟨i, l, hf, -, hsec, hoff⟩ := entryPlace_eq_some_iff.mp hplace
    exact ⟨i, l, hf, hsec, hoff⟩

/-- Two definitions of one name are one, where no name is defined twice. -/
theorem definition_unique {xs : List SourceStmt} (h : (definedNames xs).Nodup) {j k : Nat}
    {x y : SourceStmt} {name : CStr} (hj : xs[j]? = some x) (hk : xs[k]? = some y)
    (hx : x.stmt = .label name) (hy : y.stmt = .label name) : j = k := by
  have hdefines : ∀ {z : SourceStmt}, z.stmt = .label name → z.defines = some name := by
    intro z hz
    rw [SourceStmt.defines, hz]
  have hpair := List.pairwise_iff_getElem.mp (List.pairwise_filterMap.mp h)
  obtain ⟨hjlt, rfl⟩ := List.getElem?_eq_some_iff.mp hj
  obtain ⟨hklt, rfl⟩ := List.getElem?_eq_some_iff.mp hk
  rcases Nat.lt_trichotomy j k with hlt | heq | hlt
  · exact absurd rfl (hpair j k hjlt hklt hlt _ (hdefines hx) _ (hdefines hy))
  · exact heq
  · exact absurd rfl (hpair k j hklt hjlt hlt _ (hdefines hy) _ (hdefines hx))

theorem onePlace_of_nodup {xs : List SourceStmt} (h : (definedNames xs).Nodup) : OnePlace xs := by
  rintro name sec off sec' off' ⟨k, x, c, hk, hx, rfl, hc, rfl⟩
    ⟨k', x', c', hk', hx', rfl, hc', rfl⟩
  obtain rfl : k = k' := definition_unique h hk hk' hx hx'
  obtain rfl : x = x' := Option.some.inj (hk.symm.trans hk')
  obtain rfl : c = c' := Except.ok.inj (hc.symm.trans hc')
  exact ⟨rfl, rfl⟩

/-- Labels mean the places where they are written in exactly those accepted sources that define no
label twice. -/
theorem labelsMeanPlaces_iff {env : AsmEnv} {src : List Byte} {ctx : AsmCtx}
    (h : asmCompile env src = .ok ctx) :
    LabelsMeanPlaces env src ↔ (definedNames (sourceLines env src).flatten).Nodup := by
  constructor
  · intro hmean
    by_contra htwice
    exact hmean.rejected htwice ctx h
  · intro honce
    refine ⟨fun ctx' h' => (labelsPlaced_iff h').mpr (onePlace_of_nodup honce), ?_⟩
    exact fun htwice => absurd honce htwice

/-- A label in each of two sections, both announced before. -/
def twoSections : List Byte := lit "global f\nextern d\n.data\nd: dq 1\n.text\nhalt\nf: halt\n"

theorem twoSections_meanPlaces : LabelsMeanPlaces zeroEnv twoSections := by
  obtain ⟨ctx, h⟩ : ∃ ctx, asmCompile zeroEnv twoSections = .ok ctx :=
    exists_ok_of_isOk (by decide +kernel)
  exact (labelsMeanPlaces_iff h).mpr (by decide +kernel)

/-- A label that is defined again behind an instruction. -/
def labelAgain : List Byte := lit "L:\nhalt\nL:\nhalt\n"

/-- It is accepted, and the label stands where it was first. -/
theorem labelAgain_ignored : (∃ ctx, asmCompile zeroEnv labelAgain = .ok ctx ∧
    ¬ LabelsPlaced (sourceLines zeroEnv labelAgain).flatten ctx) ∧
    ¬ LabelsMeanPlaces zeroEnv labelAgain := by
  obtain ⟨ctx, h⟩ : ∃ ctx, asmCompile zeroEnv labelAgain = .ok ctx :=
    exists_ok_of_isOk (by decide +kernel)
  have hdef : LabelDef (sourceLines zeroEnv labelAgain).flatten (lit "L") dvmSecCode 1 :=
    ⟨2, ⟨3, dvmSecCode, .label (lit "L")⟩, _, rfl, rfl, rfl, rfl, rfl⟩
  have hoff : (labelFind ctx.labels (lit "L")).map (fun x => x.2.offset) = some 0 := by
    have hrun : (asmCompile zeroEnv labelAgain).toOption.bind (fun ctx =>
        (labelFind ctx.labels (lit "L")).map fun x => x.2.offset) = some 0 := by decide +kernel
    rwa [h] at hrun
  have hnot : ¬ LabelsPlaced (sourceLines zeroEnv labelAgain).flatten ctx := by
    intro hplaced
    obtain ⟨i, l, hf, -, hl⟩ := hplaced _ _ _ hdef
    rw [hf, Option.map_some, hl] at hoff
    cases hoff
  exact ⟨⟨ctx, h, hnot⟩, fun hmean => hnot (hmean.placed ctx h)⟩

end Dvm
