/-
# Linking in steps

Objects can be linked in one go or in steps, an intermediate output being linked again with the
rest (`dvmLink_incremental`).  The two links pass through the same states.

* **Pass 3.**  In the merged table a `GLOBAL` is the first entry of its name (`GlobalsFirst`), so
  defining the entries of the table again, in order, rebuilds the same table and gives every
  symbol its own index (`scan_defineSym_again`).
* **Pass 4.**  An extern of the objects linked first was resolved in the smaller table.  The entry
  it was found at stays the first of its name, and what replaces its contents is a definition
  (`resolveSym_of_front`).
* **Pass 5.**  The output's relocations are rebased by nothing and keep their indices
  (`remappedRels_again`).
-/
import Dvm.Link.Loadable

namespace Dvm

open Table Loops Concat

/-! ## 1. Defining a merged table again -/

/-- A `GLOBAL` is the first entry of its name. -/
def GlobalsFirst (t : List DvmSym) : Prop := t.Pairwise fun a b => b.IsGlobal → a.name ≠ b.name

theorem globalsFirst_place {t : List DvmSym} (h : GlobalsFirst t) (s : DvmSym) :
    GlobalsFirst (place t s) := by
  by_cases hd : s.IsDef
  · by_cases hf : s.IsGlobal ∧ ∃ i a, find DvmSym.name s.name t = some (i, a)
    · -- the entry that is taken over was the first of its name
      obtain ⟨hg, i, a, hf⟩ := hf
      obtain ⟨hget, hname, hbefore⟩ := find_eq_some_iff.mp hf
      have hsplit := eq_take_cons_drop hget
      have hset : t.set i s = t.take i ++ s :: t.drop (i + 1) := by
        rw [List.set_eq_take_append_cons_drop, if_pos (lt_length_of_find hf)]
      unfold GlobalsFirst at h ⊢
      rw [place_of_find hg hf, hset]
      rw [hsplit] at h
      obtain ⟨hfront, hback, hcross⟩ := List.pairwise_append.mp h
      obtain ⟨hhead, htail⟩ := List.pairwise_cons.mp hback
      refine List.pairwise_append.mpr ⟨hfront, List.pairwise_cons.mpr ⟨?_, htail⟩, ?_⟩
      · intro b hb hgb
        exact hname ▸ hhead b hb hgb
      · intro b hb c hc
        rcases List.mem_cons.mp hc with rfl | hc
        · intro _
          obtain ⟨j, hj⟩ := List.mem_iff_getElem?.mp hb
          rw [List.getElem?_take, Option.ite_none_right_eq_some] at hj
          exact hbefore j hj.1 b hj.2
        · exact hcross b hb c (List.mem_cons_of_mem _ hc)
    · rw [place_of_not_find hd hf]
      refine List.pairwise_append.mpr ⟨h, List.pairwise_singleton _ _, ?_⟩
      intro a ha b hb hgb hab
      obtain rfl := List.mem_singleton.mp hb
      exact hf ⟨hgb, exists_find ha hab⟩
  · rw [place, if_neg hd]
    exact h

theorem globalsFirst_places (ss : List DvmSym) : GlobalsFirst (places ss) := by
  induction ss using List.reverseRecOn with
  | nil => exact List.Pairwise.nil
  | append_singleton ss s ih =>
    rw [places_append]
    exact globalsFirst_place ih s

/-- Pass 3 over the entries of a merged table: they are put where they are. -/
theorem scan_defineSym_again {t : List DvmSym} (hdef : ∀ s ∈ t, s.IsDef) (hfirst : GlobalsFirst t)
    (hfits : t.length ≤ dvmMaxSyms) :
    scan defineSym MergedSyms.empty t = .ok (⟨t, hfits⟩, (List.range t.length).map some) := by
  induction t using List.reverseRecOn with
  | nil => rfl
  | append_singleton t s ih =>
    have hlen : (t ++ [s]).length = t.length + 1 := List.length_append
    have hlt : t.length < dvmMaxSyms := by omega
    obtain ⟨hfront, -, hcross⟩ := List.pairwise_append.mp hfirst
    have ih := ih (fun a ha => hdef a (List.mem_append_left _ ha)) hfront (Nat.le_of_lt hlt)
    have hd : s.flags ≠ dvmSymExtern := hdef s (by simp)
    have hadd : msymsAdd ⟨t, Nat.le_of_lt hlt⟩ s = (⟨t ++ [s], hfits⟩, some t.length) := dif_pos hlt
    have hdefine : defineSym ⟨t, Nat.le_of_lt hlt⟩ s = .ok (⟨t ++ [s], hfits⟩, some t.length) := by
      rw [defineSym, if_neg hd]
      by_cases hg : s.flags = dvmSymGlobal
      · have hnone : msymsFind ⟨t, Nat.le_of_lt hlt⟩ s.name = none :=
          find_eq_none_iff.mpr fun a ha => hcross a ha s (by simp) hg
        rw [if_pos hg, hnone, ← hadd]
      · rw [if_neg hg, hadd]
    refine scan_append_iff.mpr ⟨_, _, [some t.length], ih, ?_, ?_⟩
    · exact scan_cons_iff.mpr ⟨_, _, [], hdefine, rfl, rfl⟩
    · rw [hlen, List.range_succ, List.map_append]
      rfl

/-! ## 2. The objects linked first, in the larger link -/

/-- The bases behind a list of objects. -/
def endBases (b : ObjBases) (objs : List DvmProg) : ObjBases := objs.foldl ObjBases.advance b

theorem withBases_append (b : ObjBases) (os ps : List DvmProg) :
    withBases b (os ++ ps) = withBases b os ++ withBases (endBases b os) ps := by
  induction os generalizing b with
  | nil => rfl
  | cons o os ih => exact congrArg ((b, o) :: ·) (ih (b.advance o))

theorem endBases_eq (b : ObjBases) (objs : List DvmProg) :
    endBases b objs = ⟨b.cnst + (objs.flatMap DvmProg.cnst).length,
      b.data + (objs.flatMap DvmProg.data).length,
      b.code + (objs.flatMap DvmProg.code).length⟩ := by
  induction objs generalizing b with
  | nil => rfl
  | cons o os ih =>
    rw [endBases, List.foldl_cons, ← endBases, ih]
    simp only [ObjBases.advance, List.flatMap_cons, List.length_append, Nat.add_assoc]

theorem linkSyms_append (os ps : List DvmProg) :
    linkSyms (os ++ ps) = linkSyms os ++ (withBases (endBases {} os) ps).flatMap adjustedSyms := by
  rw [linkSyms, withBases_append, List.flatMap_append, ← linkSyms]

/-- What a search found in the table of the objects linked first, it finds at the same place in
the table of all objects, and a definition there. -/
theorem find_larger {A B : List DvmProg}
    (hsec : ∀ o ∈ A ++ B, ∀ s ∈ o.syms, s.IsDef → s.sec ≠ dvmSecNone) {n : CStr} {q : Nat}
    {t : DvmSym}
    (h : find DvmSym.name n ((places (linkSyms A)).take dvmMaxSyms) = some (q, t)) :
    ∃ t', find DvmSym.name n ((places (linkSyms (A ++ B))).take dvmMaxSyms) = some (q, t') ∧
      t'.sec ≠ dvmSecNone := by
  rw [find_take, Option.filter_eq_some_iff] at h
  obtain ⟨hfind, hlt⟩ := h
  obtain ⟨t', hfind', -⟩ :=
    find_foldl_place ((withBases (endBases {} A) B).flatMap adjustedSyms) hfind
  have hfront : find DvmSym.name n ((places (linkSyms (A ++ B))).take dvmMaxSyms)
      = some (q, t') := by
    rw [linkSyms_append, places_append, find_take, hfind', Option.filter_eq_some_iff]
    exact ⟨rfl, hlt⟩
  obtain ⟨-, hmem, hdef, -⟩ := find_front hfront
  exact ⟨t', hfront, sec_linkSyms hsec t' hmem hdef⟩

/-- Pass 4 gives a symbol of the objects linked first the same index in both links. -/
theorem resolveSym_of_front {A B : List DvmProg}
    (hsec : ∀ o ∈ A ++ B, ∀ s ∈ o.syms, s.IsDef → s.sec ≠ dvmSecNone) {ms ms' : MergedSyms}
    (hms : ms.syms = (places (linkSyms A)).take dvmMaxSyms)
    (hms' : ms'.syms = (places (linkSyms (A ++ B))).take dvmMaxSyms)
    {x : DvmSym × Option Nat} {e : Option Nat} (h : resolveSym ms x = .ok e) :
    resolveSym ms' x = .ok e := by
  unfold resolveSym at h ⊢
  split at h
  · next hx => rw [if_pos hx, h]
  · next hx =>
    rw [if_neg hx]
    cases hf : msymsFind ms x.1.name with
    | none => simp [hf] at h
    | some y =>
      obtain ⟨q, t⟩ := y
      rw [msymsFind, hms] at hf
      obtain ⟨t', hf', hsec'⟩ := find_larger hsec hf
      have hf'' : msymsFind ms' x.1.name = some (q, t') := by rw [msymsFind, hms', hf']
      have hf₀ : msymsFind ms x.1.name = some (q, t) := by rw [msymsFind, hms, hf]
      simp only [hf₀] at h
      simp only [hf'', if_neg hsec']
      split at h
      · cases h
      · exact h

/-! ## 3. The output linked again -/

section Again

variable {objs : List DvmProg} {entrySym : Option CStr} {m : DvmProg}

/-- The map of an output's symbols: every index to itself. -/
def identityMap (m : DvmProg) : SymMap := (List.range m.syms.length).map some

theorem adjustedSyms_first (m : DvmProg) : adjustedSyms ({}, m) = m.syms := by
  have hadj : ∀ s ∈ m.syms, adjust {} s = s := by
    intro s _
    have hbase : ObjBases.ofSec {} s.sec = 0 := by simp [ObjBases.ofSec]
    rw [adjust, hbase]
    simp
  exact (List.map_congr_left hadj).trans (List.map_id _)

/-- Pass 3 over an output. -/
theorem defineSym_output (hm : dvmLink objs entrySym = .ok m) {ms : MergedSyms}
    (hms : ms.syms = m.syms) :
    scan defineSym MergedSyms.empty (adjustedSyms ({}, m)) = .ok (ms, identityMap m) := by
  obtain ⟨syms, fits⟩ := ms
  cases hms
  rw [adjustedSyms_first]
  have hdef : ∀ s ∈ m.syms, s.IsDef := by
    intro s hs
    obtain ⟨i, o, s', -, -, hd, rfl⟩ := mem_syms_dvmLink hm hs
    exact hd
  have hfirst : GlobalsFirst m.syms := by
    rw [(dvmLink_ok hm).1]
    exact (globalsFirst_places _).sublist (List.take_sublist _ _)
  exact scan_defineSym_again hdef hfirst fits

/-- Pass 4 over an output: it has no externs. -/
theorem resolveSym_output (hm : dvmLink objs entrySym = .ok m) (ms : MergedSyms) :
    each (resolveSym ms) (m.syms.zip (identityMap m)) = .ok (identityMap m) := by
  have hres : ∀ x ∈ m.syms.zip (identityMap m), resolveSym ms x = .ok x.2 := by
    intro x hx
    obtain ⟨i, o, s, -, -, hd, heq⟩ := mem_syms_dvmLink hm (List.of_mem_zip hx).1
    have hflags : x.1.flags ≠ dvmSymExtern := by rw [heq]; exact hd
    rw [resolveSym, if_pos hflags]
  rw [each_eq_map hres, List.map_snd_zip]
  simp [identityMap]

/-- Pass 5 over an output. -/
theorem newSym_output (hm : dvmLink objs entrySym = .ok m) {r : DvmRel} (hr : r ∈ m.rels) :
    newSym (identityMap m) r = some r.symIndex.toNat := by
  obtain ⟨t, ht⟩ := sym_of_mem_rels hm hr
  have hlt := (List.getElem?_eq_some_iff.mp ht).1
  simp [newSym, identityMap, hlt]

theorem remappedRels_again (hm : dvmLink objs entrySym = .ok m) :
    remappedRels (({}, m), identityMap m) = m.rels := by
  have hremap : ∀ r ∈ m.rels, remap {} ((newSym (identityMap m) r).getD 0) r = r := by
    intro r hr
    rw [newSym_output hm hr, remap]
    simp
  exact (List.map_congr_left hremap).trans (List.map_id _)

end Again

/-! ## 4. The two links -/

/-- Pass 3 from a table already filled. -/
def defineFrom (ms : MergedSyms) (objs : List (ObjBases × DvmProg)) :
    Except LinkError (MergedSyms × List SymMap) :=
  scan (fun ms x => scan defineSym ms (adjustedSyms x)) ms objs

section Steps

variable {A B : List DvmProg} {e₀ entrySym : Option CStr} {m : DvmProg} {msA ms : MergedSyms}
  {dA dB mapsA mapsB maps : List SymMap} {relsA rels : List DvmRel}

theorem definePass_append (h : definePass (withBases {} A) = .ok (msA, dA)) :
    definePass (withBases {} (A ++ B)) = .ok (ms, maps) ↔
      ∃ dB, defineFrom msA (withBases (endBases {} A) B) = .ok (ms, dB) ∧ maps = dA ++ dB := by
  rw [withBases_append, definePass, scan_append_iff]
  constructor
  · rintro ⟨ms', y₁, y₂, h₁, h₂, rfl⟩
    rw [← definePass, h] at h₁
    cases h₁
    exact ⟨y₂, h₂, rfl⟩
  · rintro ⟨dB, h₂, rfl⟩
    exact ⟨msA, dA, dB, h, h₂, rfl⟩

/-- The bases behind an output are those behind the objects it was linked from. -/
theorem advance_output (hm : m = linkOutput A e₀ msA relsA) :
    ObjBases.advance {} m = endBases {} A := by
  rw [endBases_eq, hm]
  rfl

theorem definePass_output (hm : dvmLink A e₀ = .ok m) (heq : m = linkOutput A e₀ msA relsA) :
    definePass (withBases {} (m :: B)) = .ok (ms, maps) ↔
      ∃ dB, defineFrom msA (withBases (endBases {} A) B) = .ok (ms, dB) ∧
        maps = identityMap m :: dB := by
  have hms : msA.syms = m.syms := by rw [heq]; rfl
  have hfirst := defineSym_output hm hms
  rw [withBases, definePass, scan_cons_iff, advance_output heq]
  constructor
  · rintro ⟨ms', b, bs, h₁, h₂, rfl⟩
    rw [hfirst] at h₁
    cases h₁
    exact ⟨bs, h₂, rfl⟩
  · rintro ⟨dB, h₂, rfl⟩
    exact ⟨msA, _, dB, hfirst, h₂, rfl⟩

theorem resolvePass_append
    (hsec : ∀ o ∈ A ++ B, ∀ s ∈ o.syms, s.IsDef → s.sec ≠ dvmSecNone)
    (h₃ : definePass (withBases {} A) = .ok (msA, dA))
    (h₃' : definePass (withBases {} (A ++ B)) = .ok (ms, dA ++ dB))
    (h₄ : resolvePass msA (A.zip dA) = .ok mapsA) :
    resolvePass ms ((A ++ B).zip (dA ++ dB)) = .ok maps ↔
      ∃ mapsB, resolvePass ms (B.zip dB) = .ok mapsB ∧ maps = mapsA ++ mapsB := by
  have hlen : A.length = dA.length := by rw [length_of_scan h₃, length_withBases]
  have hfront : resolvePass ms (A.zip dA) = .ok mapsA := by
    refine each_of_each h₄ fun x _ map hmap => each_of_each hmap fun y _ e he => ?_
    exact resolveSym_of_front hsec (definePass_ok h₃).1 (definePass_ok h₃').1 he
  rw [List.zip_append hlen, resolvePass, each_append_iff]
  constructor
  · rintro ⟨y₁, y₂, h₁, h₂, rfl⟩
    rw [← resolvePass, hfront] at h₁
    cases h₁
    exact ⟨y₂, h₂, rfl⟩
  · rintro ⟨mapsB, h₂, rfl⟩
    exact ⟨mapsA, mapsB, hfront, h₂, rfl⟩

theorem resolvePass_output (hm : dvmLink A e₀ = .ok m) :
    resolvePass ms ((m :: B).zip (identityMap m :: dB)) = .ok maps ↔
      ∃ mapsB, resolvePass ms (B.zip dB) = .ok mapsB ∧ maps = identityMap m :: mapsB := by
  rw [List.zip_cons_cons, resolvePass, each_cons_iff]
  constructor
  · rintro ⟨b, bs, h₁, h₂, rfl⟩
    rw [resolveSym_output hm] at h₁
    cases h₁
    exact ⟨bs, h₂, rfl⟩
  · rintro ⟨mapsB, h₂, rfl⟩
    exact ⟨_, mapsB, resolveSym_output hm ms, h₂, rfl⟩

theorem remapPass_output (hm : dvmLink A e₀ = .ok m) (heq : m = linkOutput A e₀ msA relsA)
    (hlen : mapsA.length = A.length)
    (h₅ : remapPass ((withBases {} A).zip mapsA) = .ok relsA) :
    remapPass ((withBases {} (m :: B)).zip (identityMap m :: mapsB)) = .ok rels ↔
      remapPass ((withBases {} (A ++ B)).zip (mapsA ++ mapsB)) = .ok rels := by
  have hzip : (withBases {} A).length = mapsA.length := by rw [length_withBases, hlen]
  have hrels : m.rels = relsA := by rw [heq]; rfl
  obtain ⟨-, hmapped, hrelsA⟩ := remapPass_ok_iff.mp h₅
  rw [withBases_append, List.zip_append hzip, withBases, List.zip_cons_cons, advance_output heq,
    remapPass_ok_iff, remapPass_ok_iff, List.flatMap_cons, List.flatMap_append,
    remappedRels_again hm, hrels, ← hrelsA, List.forall_mem_cons, List.forall_mem_append]
  have hself : ∀ r ∈ m.rels, ∃ k, newSym (identityMap m) r = some k :=
    fun r hr => ⟨_, newSym_output hm hr⟩
  exact and_congr_right' (and_congr_left' (and_congr_left' (iff_of_true hself hmapped)))

/-- The same tables make the same output. -/
theorem linkOutput_again (heq : m = linkOutput A e₀ msA relsA) :
    linkOutput (m :: B) entrySym ms rels = linkOutput (A ++ B) entrySym ms rels := by
  rw [heq]
  simp only [linkOutput, List.flatMap_cons, List.flatMap_append]

/-- An output linked with more objects, and all the objects linked at once. -/
theorem dvmLink_output_iff
    (hsec : ∀ o ∈ A ++ B, ∀ s ∈ o.syms, s.IsDef → s.sec ≠ dvmSecNone)
    (hm : dvmLink A e₀ = .ok m) (out : DvmProg) :
    dvmLink (m :: B) entrySym = .ok out ↔ dvmLink (A ++ B) entrySym = .ok out := by
  obtain ⟨msA, dA, mapsA, relsA, h₃, h₄, h₅, heq⟩ := dvmLink_ok_iff.mp hm
  have hlen : mapsA.length = A.length := by
    rw [length_of_each h₄, List.length_zip, length_of_scan h₃, length_withBases, Nat.min_self]
  rw [dvmLink_ok_iff, dvmLink_ok_iff]
  constructor
  · rintro ⟨ms, defMaps, maps, rels, h₃', h₄', h₅', rfl⟩
    obtain ⟨dB, hdef, rfl⟩ := (definePass_output hm heq).mp h₃'
    obtain ⟨mapsB, hres, rfl⟩ := (resolvePass_output hm).mp h₄'
    have h₃'' := (definePass_append h₃).mpr ⟨dB, hdef, rfl⟩
    exact ⟨ms, dA ++ dB, mapsA ++ mapsB, rels, h₃'',
      (resolvePass_append hsec h₃ h₃'' h₄).mpr ⟨mapsB, hres, rfl⟩,
      (remapPass_output hm heq hlen h₅).mp h₅', linkOutput_again heq⟩
  · rintro ⟨ms, defMaps, maps, rels, h₃', h₄', h₅', rfl⟩
    obtain ⟨dB, hdef, rfl⟩ := (definePass_append h₃).mp h₃'
    obtain ⟨mapsB, hres, rfl⟩ := (resolvePass_append hsec h₃ h₃' h₄).mp h₄'
    exact ⟨ms, identityMap m :: dB, identityMap m :: mapsB, rels,
      (definePass_output hm heq).mpr ⟨dB, hdef, rfl⟩,
      (resolvePass_output hm).mpr ⟨mapsB, hres, rfl⟩,
      (remapPass_output hm heq hlen h₅).mpr h₅', (linkOutput_again heq).symm⟩

/-- Linking in steps gives what linking at once gives, whatever the later objects and the entry
symbol; linking an output alone gives it back. -/
theorem dvmLink_incremental
    (hsec : ∀ o ∈ A ++ B, ∀ s ∈ o.syms, s.IsDef → s.sec ≠ dvmSecNone)
    (hm : dvmLink A e₀ = .ok m) :
    (∀ out, dvmLink (m :: B) entrySym = .ok out ↔ dvmLink (A ++ B) entrySym = .ok out) ∧
      dvmLink [m] e₀ = .ok m := by
  refine ⟨dvmLink_output_iff hsec hm, (dvmLink_output_iff ?_ hm m).mpr ?_⟩
  · intro o ho
    rw [List.append_nil] at ho
    exact hsec o (List.mem_append_left _ ho)
  · rw [List.append_nil]
    exact hm

end Steps

/-- An object with a `LOCAL` that has the name of a `GLOBAL` linked before. -/
def laterLocal : List DvmProg :=
  [{ data := [3], syms := [⟨lit "x", dvmSymLocal, dvmSecData, 0⟩] }]

theorem dvmLink_incremental_sample :
    ∃ m, dvmLink dataImport none = .ok m ∧
      (∀ out, dvmLink (m :: laterLocal) none = .ok out ↔
        dvmLink (dataImport ++ laterLocal) none = .ok out) ∧
      dvmLink [m] none = .ok m :=
  ⟨_, rfl, dvmLink_incremental (A := dataImport) (B := laterLocal) (by decide) rfl⟩

end Dvm
