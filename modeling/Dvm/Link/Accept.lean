/-
# Which inputs `dvm_link` accepts

`dvmLink_ok_iff_acceptable` is the exact acceptance condition, stated on the inputs.  Success
is decided in three places: pass 3 refuses a second `GLOBAL` of a name, pass 4 an extern whose
name it cannot find, pass 5 a relocation whose symbol has no entry.

What makes the condition awkward is the size of the symbol table.  On a full table `msyms_add`
returns -1, which is stored and not reported, so a definition can go without an entry
(`HasSlot`), and a name without an entry is neither found nor checked for duplicates
(`storedNames`).
-/
import Mathlib.Data.List.Nodup
import Dvm.Link.Maps

namespace Dvm

open Table Loops Concat

/-! ## 1. Names that get an entry -/

/-- One more symbol takes an entry for its name, unless it is a `GLOBAL` whose name has one. -/
def takeSlot (names : List CStr) (s : DvmSym) : List CStr :=
  if s.IsDef ∧ ¬ (s.IsGlobal ∧ s.name ∈ names) then names ++ [s.name] else names

/-- The names of the entries taken by a list of symbols, in order. -/
def slotNames (ss : List DvmSym) : List CStr := ss.foldl takeSlot []

/-- The names that get one of the `DVM_MAX_SYMS` entries. -/
def storedNames (ss : List DvmSym) : List CStr := (slotNames ss).take dvmMaxSyms

theorem slotNames_append (ss rs : List DvmSym) :
    slotNames (ss ++ rs) = rs.foldl takeSlot (slotNames ss) := List.foldl_append

/-- They are the names of the table without a limit. -/
theorem map_name_places (ss : List DvmSym) : (places ss).map DvmSym.name = slotNames ss := by
  induction ss using List.reverseRecOn with
  | nil => rfl
  | append_singleton ss s ih =>
    have hp : places (ss ++ [s]) = place (places ss) s := by rw [places_append]; rfl
    have hn : slotNames (ss ++ [s]) = takeSlot (slotNames ss) s := by
      rw [slotNames_append]; rfl
    have hmem : s.name ∈ slotNames ss ↔
        ∃ i a, find DvmSym.name s.name (places ss) = some (i, a) := by
      rw [← ih, List.mem_map, exists_find_iff]
    rw [hp, hn, takeSlot]
    by_cases hd : s.IsDef
    · by_cases hf : s.IsGlobal ∧ ∃ i a, find DvmSym.name s.name (places ss) = some (i, a)
      · obtain ⟨hg, i, a, hfa⟩ := hf
        rw [if_neg (fun h => h.2 ⟨hg, hmem.mpr ⟨i, a, hfa⟩⟩), place_of_find hg hfa,
          map_key_set (getElem?_of_find hfa) (key_of_find hfa).symm, ih]
      · rw [if_pos ⟨hd, fun h => hf ⟨h.1, hmem.mp h.2⟩⟩, place_of_not_find hd hf, List.map_append,
          ih]
        rfl
    · rw [if_neg (fun h => hd h.1), place, if_neg hd, ih]

theorem mem_slotNames {ss : List DvmSym} {n : CStr} :
    n ∈ slotNames ss ↔ ∃ s ∈ ss, s.IsDef ∧ s.name = n := by
  rw [← map_name_places, List.mem_map, name_places_mem]

/-- More symbols only add names behind. -/
theorem slotNames_prefix (ss rs : List DvmSym) : slotNames ss <+: slotNames (ss ++ rs) := by
  rw [slotNames_append]
  generalize slotNames ss = names
  induction rs generalizing names with
  | nil => exact List.prefix_refl _
  | cons s rs ih =>
    refine List.IsPrefix.trans ?_ (ih (takeSlot names s))
    unfold takeSlot
    split
    · exact List.prefix_append _ _
    · exact List.prefix_refl _

/-- A name already defined does not become stored later. -/
theorem mem_storedNames_append {ss rs : List DvmSym} {n : CStr} (h : n ∈ slotNames ss) :
    n ∈ storedNames (ss ++ rs) ↔ n ∈ storedNames ss := by
  obtain ⟨tail, htail⟩ := slotNames_prefix ss rs
  rw [storedNames, storedNames, ← htail, List.take_append]
  constructor
  · intro hmem
    rcases List.mem_append.mp hmem with hmem | hmem
    · exact hmem
    · -- something of the tail is kept, so all of the front is
      have hpos : 0 < dvmMaxSyms - (slotNames ss).length := by
        by_contra hz
        rw [Nat.eq_zero_of_not_pos hz] at hmem
        simp at hmem
      rw [List.take_of_length_le (by omega)]
      exact h
  · exact fun hmem => List.mem_append_left _ hmem

/-- The names of the linker's table are the stored ones. -/
theorem mem_storedNames_iff {ss : List DvmSym} {n : CStr} :
    n ∈ storedNames ss ↔
      ∃ q a, find DvmSym.name n ((places ss).take dvmMaxSyms) = some (q, a) := by
  rw [storedNames, ← map_name_places, ← List.map_take, List.mem_map]
  constructor
  · rintro ⟨a, ha, hn⟩
    exact exists_find ha hn
  · rintro ⟨q, a, hf⟩
    exact ⟨a, List.mem_of_getElem? (getElem?_of_find hf), key_of_find hf⟩

theorem length_slotNames_le (ss : List DvmSym) :
    (slotNames ss).length ≤ (ss.filter fun s => s.IsDef).length := by
  induction ss using List.reverseRecOn with
  | nil => exact Nat.le_refl _
  | append_singleton ss s ih =>
    have hn : slotNames (ss ++ [s]) = takeSlot (slotNames ss) s := by
      rw [slotNames_append]; rfl
    rw [hn, takeSlot, List.filter_append, List.length_append]
    split
    · next hs => simp [hs.1]; omega
    · omega

/-- Few enough definitions are all stored. -/
theorem storedNames_eq_slotNames {ss : List DvmSym}
    (h : (ss.filter fun s => s.IsDef).length ≤ dvmMaxSyms) : storedNames ss = slotNames ss :=
  List.take_of_length_le (Nat.le_trans (length_slotNames_le ss) h)

/-! ## 2. Pass 3 -/

/-- No stored name is `GLOBAL` twice. -/
def UniqueGlobals (ss : List DvmSym) : Prop :=
  ((ss.filter fun s => s.IsGlobal ∧ s.name ∈ storedNames ss).map DvmSym.name).Nodup

/-- What a lookup in the linker's table finds is one of the definitions, and a `GLOBAL` if the
name has one. -/
theorem find_front {ss : List DvmSym} {n : CStr} {q : Nat} {a : DvmSym}
    (h : find DvmSym.name n ((places ss).take dvmMaxSyms) = some (q, a)) :
    a.name = n ∧ a ∈ ss ∧ a.IsDef ∧ (a.IsGlobal ∨ ∀ g ∈ ss, ¬ (g.IsGlobal ∧ g.name = n)) := by
  rw [find_take, Option.filter_eq_some_iff] at h
  exact nameEntry_eq_some (nameEntry_of_find h.1)

/-- Pass 3 refuses a symbol exactly if it is a `GLOBAL` and a `GLOBAL` of its name is stored. -/
theorem defineSym_ok_iff {ss : List DvmSym} {ms : MergedSyms} {s : DvmSym}
    (hms : ms.syms = (places ss).take dvmMaxSyms)
    (hsec : ∀ d ∈ ss, d.IsDef → d.sec ≠ dvmSecNone) :
    (∃ r, defineSym ms s = .ok r) ↔
      ¬ (s.IsGlobal ∧ s.name ∈ storedNames ss ∧ ∃ g ∈ ss, g.IsGlobal ∧ g.name = s.name) := by
  have hfind : msymsFind ms s.name
      = find DvmSym.name s.name ((places ss).take dvmMaxSyms) := by rw [msymsFind, hms]
  unfold defineSym
  by_cases hx : s.flags = dvmSymExtern
  · have hng : ¬ s.IsGlobal := fun hg => hg.isDef hx
    simp [hx, hng]
  by_cases hg : s.flags = dvmSymGlobal
  · have hglob : s.IsGlobal := hg
    rw [if_neg hx, if_pos hg, hfind, mem_storedNames_iff]
    cases hf : find DvmSym.name s.name ((places ss).take dvmMaxSyms) with
    | none => simp
    | some x =>
      obtain ⟨q, a⟩ := x
      obtain ⟨hname, hmem, hdef, hcase⟩ := find_front hf
      have hiff : (a.flags = dvmSymGlobal ∧ a.sec ≠ dvmSecNone) ↔
          ∃ g ∈ ss, g.IsGlobal ∧ g.name = s.name := by
        constructor
        · exact fun h => ⟨a, hmem, h.1, hname⟩
        · rintro ⟨g, hgm, hgg⟩
          exact ⟨hcase.resolve_right fun hall => hall g hgm hgg, hsec a hmem hdef⟩
      by_cases hdup : ∃ g ∈ ss, g.IsGlobal ∧ g.name = s.name
      · simp only [if_pos (hiff.mpr hdup)]
        simp [hglob, hdup]
      · simp only [if_neg (fun h => hdup (hiff.mp h))]
        simp [hdup]
  · have hng : ¬ s.IsGlobal := hg
    rw [if_neg hx, if_neg hg]
    simp [hng]

/-- Adding a symbol keeps `UniqueGlobals` exactly if pass 3 accepts it. -/
theorem uniqueGlobals_snoc {ss : List DvmSym} {s : DvmSym} :
    UniqueGlobals (ss ++ [s]) ↔ UniqueGlobals ss ∧
      ¬ (s.IsGlobal ∧ s.name ∈ storedNames ss ∧ ∃ g ∈ ss, g.IsGlobal ∧ g.name = s.name) := by
  -- the symbols already there count as before: their names are defined, so none of them
  -- becomes stored by the new symbol
  have hold : (ss.filter fun d => d.IsGlobal ∧ d.name ∈ storedNames (ss ++ [s]))
      = ss.filter fun d => d.IsGlobal ∧ d.name ∈ storedNames ss := by
    apply List.filter_congr
    intro d hd
    by_cases hg : d.IsGlobal
    · have hmem : d.name ∈ slotNames ss := mem_slotNames.mpr ⟨d, hd, hg.isDef, rfl⟩
      simp [hg, mem_storedNames_append hmem]
    · simp [hg]
  unfold UniqueGlobals
  rw [List.filter_append, List.map_append, hold]
  by_cases hs : s.IsGlobal ∧ s.name ∈ storedNames (ss ++ [s])
  · have hfil : ([s].filter fun d => d.IsGlobal ∧ d.name ∈ storedNames (ss ++ [s])) = [s] := by
      simp [hs.1, hs.2]
    rw [hfil, List.map_singleton, List.nodup_append]
    have hiff : (s.name ∈ storedNames ss ∧ ∃ g ∈ ss, g.IsGlobal ∧ g.name = s.name) ↔
        s.name ∈ (ss.filter fun d => d.IsGlobal ∧ d.name ∈ storedNames ss).map DvmSym.name := by
      rw [List.mem_map]
      constructor
      · rintro ⟨hst, g, hg, hgg, hn⟩
        exact ⟨g, by simp [hg, hgg, hn, hst], hn⟩
      · rintro ⟨g, hg, hn⟩
        simp only [List.mem_filter, decide_eq_true_eq] at hg
        exact ⟨hn ▸ hg.2.2, g, hg.1, hg.2.1, hn⟩
    rw [hiff]
    simp only [List.nodup_singleton, List.mem_singleton, true_and, hs.1]
    constructor
    · rintro ⟨hnd, hne⟩
      exact ⟨hnd, fun hmem => hne _ hmem _ rfl rfl⟩
    · rintro ⟨hnd, hne⟩
      exact ⟨hnd, fun a ha b hb hab => hne (hb ▸ hab ▸ ha)⟩
  · have hfil : ([s].filter fun d => d.IsGlobal ∧ d.name ∈ storedNames (ss ++ [s])) = [] := by
      simp only [List.filter_cons, List.filter_nil, decide_eq_true_eq, if_neg hs]
    have hacc : ¬ (s.IsGlobal ∧ s.name ∈ storedNames ss ∧
        ∃ g ∈ ss, g.IsGlobal ∧ g.name = s.name) := by
      rintro ⟨hg, hst, g, hgm, hgg, hn⟩
      refine hs ⟨hg, (mem_storedNames_append ?_).mpr hst⟩
      exact mem_slotNames.mpr ⟨g, hgm, hgg.isDef, hn⟩
    rw [hfil, List.map_nil, List.append_nil]
    simp [hacc]

/-- Pass 3 succeeds exactly if no stored name is `GLOBAL` twice. -/
theorem scan_defineSym_ok_iff {ss : List DvmSym}
    (hsec : ∀ d ∈ ss, d.IsDef → d.sec ≠ dvmSecNone) :
    (∃ r, scan defineSym MergedSyms.empty ss = .ok r) ↔ UniqueGlobals ss := by
  induction ss using List.reverseRecOn with
  | nil => simp [scan_nil, UniqueGlobals]
  | append_singleton ss s ih =>
    have hsec' : ∀ d ∈ ss, d.IsDef → d.sec ≠ dvmSecNone := fun d hd =>
      hsec d (List.mem_append_left _ hd)
    rw [uniqueGlobals_snoc, ← ih hsec']
    constructor
    · rintro ⟨⟨ms, is⟩, h⟩
      obtain ⟨ms', y₁, y₂, h₁, h₂, -⟩ := scan_append_iff.mp h
      obtain ⟨ms'', e, y₃, h₃, -, -⟩ := scan_cons_iff.mp h₂
      have hms := scan_defineSym_place (t := []) rfl h₁
      exact ⟨⟨_, h₁⟩, (defineSym_ok_iff hms hsec').mp ⟨_, h₃⟩⟩
    · rintro ⟨⟨⟨ms, is⟩, h₁⟩, hacc⟩
      have hms := scan_defineSym_place (t := []) rfl h₁
      obtain ⟨⟨ms', e⟩, h₂⟩ := (defineSym_ok_iff hms hsec').mpr hacc
      exact ⟨_, scan_append_iff.mpr ⟨ms, is, [e], h₁,
        scan_cons_iff.mpr ⟨ms', e, [], h₂, rfl, rfl⟩, rfl⟩⟩

/-! ## 3. Passes 4 and 5 -/

@[simp] theorem adjust_isDef (b : ObjBases) (s : DvmSym) : (adjust b s).IsDef ↔ s.IsDef := Iff.rfl

theorem mem_linkSyms {objs : List DvmProg} {d : DvmSym} :
    d ∈ linkSyms objs ↔
      ∃ i o s, objs[i]? = some o ∧ s ∈ o.syms ∧ d = adjust (baseOf objs i) s := by
  rw [linkSyms, List.mem_flatMap]
  constructor
  · rintro ⟨x, hx, hd⟩
    obtain ⟨i, hi⟩ := List.mem_iff_getElem?.mp hx
    obtain ⟨s, hs, rfl⟩ := List.mem_map.mp hd
    have hobj : objs[i]? = some x.2 := by
      rw [← map_snd_withBases {} objs, List.getElem?_map, hi]
      rfl
    rw [getElem?_withBases hobj, Option.some.injEq] at hi
    exact ⟨i, x.2, s, hobj, hs, by rw [← hi]⟩
  · rintro ⟨i, o, s, hi, hs, rfl⟩
    exact ⟨_, List.mem_of_getElem? (getElem?_withBases hi), List.mem_map_of_mem hs⟩

/-- A definition has a section in every object, hence in the list of all symbols. -/
theorem sec_linkSyms {objs : List DvmProg}
    (hsec : ∀ o ∈ objs, ∀ s ∈ o.syms, s.IsDef → s.sec ≠ dvmSecNone) :
    ∀ d ∈ linkSyms objs, d.IsDef → d.sec ≠ dvmSecNone := by
  intro d hd hdef
  obtain ⟨i, o, s, hi, hs, rfl⟩ := mem_linkSyms.mp hd
  exact hsec o (List.mem_of_getElem? hi) s hs hdef

/-- The symbol gets one of the `DVM_MAX_SYMS` entries when it comes after `before`: a `GLOBAL`
takes over the entry of its name, every other definition needs a new one. -/
def HasSlot (before : List DvmSym) (s : DvmSym) : Prop :=
  if s.IsGlobal ∧ s.name ∈ slotNames before then s.name ∈ storedNames before
  else (slotNames before).length < dvmMaxSyms

theorem hasSlot_iff {before : List DvmSym} {s : DvmSym} :
    HasSlot before s ↔ slotOf (places before) s < dvmMaxSyms := by
  have hlen : (slotNames before).length = (places before).length := by
    rw [← map_name_places, List.length_map]
  have hmem : s.name ∈ slotNames before ↔
      ∃ i a, find DvmSym.name s.name (places before) = some (i, a) := by
    rw [mem_slotNames, ← name_places_mem, exists_find_iff]
  unfold HasSlot
  by_cases hf : s.IsGlobal ∧ s.name ∈ slotNames before
  · obtain ⟨i, a, hfa⟩ := hmem.mp hf.2
    have hs : slotOf (places before) s = i := by simp [slotOf, hf.1, hfa]
    rw [if_pos hf, mem_storedNames_iff, find_take, hfa, hs]
    by_cases hi : i < dvmMaxSyms <;> simp [Option.filter, hi]
  · have hs : slotOf (places before) s = (places before).length := by
      have hge : ¬ slotOf (places before) s < (places before).length := fun hlt => by
        obtain ⟨hg, a, ha⟩ := slotOf_lt_iff.mp hlt
        exact hf ⟨hg, hmem.mpr ⟨_, a, ha⟩⟩
      have := slotOf_le (places before) s
      omega
    rw [if_neg hf, hs, hlen]

/-- Pass 4 accepts a symbol exactly if it is no extern or its name is stored. -/
theorem resolveSym_ok_iff {ss : List DvmSym} {ms : MergedSyms} {x : DvmSym × Option Nat}
    (hms : ms.syms = (places ss).take dvmMaxSyms)
    (hsec : ∀ d ∈ ss, d.IsDef → d.sec ≠ dvmSecNone) :
    (∃ e, resolveSym ms x = .ok e) ↔ (x.1.IsExtern → x.1.name ∈ storedNames ss) := by
  rw [mem_storedNames_iff, ← hms]
  unfold resolveSym
  by_cases hx : x.1.flags = dvmSymExtern
  · have hext : x.1.IsExtern := hx
    rw [if_neg (fun hne => hne hx), msymsFind]
    cases hf : find DvmSym.name x.1.name ms.syms with
    | none => simp [hext]
    | some y =>
      obtain ⟨q, t⟩ := y
      obtain ⟨-, hmem, hdef, -⟩ := find_front (hms ▸ hf)
      simp [hsec t hmem hdef]
  · have hext : ¬ x.1.IsExtern := hx
    simp [hx, hext]

/-- Pass 4 succeeds exactly if every extern's name is stored. -/
theorem resolvePass_ok_iff {objs : List DvmProg} {ms : MergedSyms} {defMaps : List SymMap}
    (hsec : ∀ o ∈ objs, ∀ s ∈ o.syms, s.IsDef → s.sec ≠ dvmSecNone)
    (h₃ : definePass (withBases {} objs) = .ok (ms, defMaps)) :
    (∃ maps, resolvePass ms (objs.zip defMaps) = .ok maps) ↔
      ∀ o ∈ objs, ∀ s ∈ o.syms, s.IsExtern → s.name ∈ storedNames (linkSyms objs) := by
  obtain ⟨hms, hdef⟩ := definePass_ok h₃
  have hsec' := sec_linkSyms hsec
  simp only [resolvePass, each_ok_iff]
  constructor
  · intro h o ho s hs
    obtain ⟨i, hi⟩ := List.mem_iff_getElem?.mp ho
    obtain ⟨k, hk⟩ := List.mem_iff_getElem?.mp hs
    obtain ⟨map, hmap, -, hent⟩ := hdef i o hi
    have hx : (o, map) ∈ objs.zip defMaps :=
      List.mem_of_getElem? (List.getElem?_zip_eq_some.mpr ⟨hi, hmap⟩)
    have hy : (s, definedIndex objs i k s) ∈ o.syms.zip map :=
      List.mem_of_getElem? (List.getElem?_zip_eq_some.mpr ⟨hk, hent k s hk⟩)
    exact (resolveSym_ok_iff hms hsec').mp (h _ hx _ hy)
  · intro h x hx y hy
    exact (resolveSym_ok_iff hms hsec').mpr
      (h x.1 (List.of_mem_zip hx).1 y.1 (List.of_mem_zip hy).1)

/-! ## 4. What the code accepts -/

/-- What `dvm_link` checks, stated on the inputs. -/
structure Acceptable (objs : List DvmProg) : Prop where
  /-- No name is `GLOBAL` twice, among the names that found an entry. -/
  globals : UniqueGlobals (linkSyms objs)
  /-- An extern's name is defined by some symbol, `LOCAL` or `GLOBAL`, that found an entry. -/
  externs : ∀ o ∈ objs, ∀ s ∈ o.syms, s.IsExtern → s.name ∈ storedNames (linkSyms objs)
  /-- A relocation's symbol exists and, if it is a definition, found an entry. -/
  symbols : ∀ i o r, objs[i]? = some o → r ∈ o.rels →
    ∃ s, o.syms[r.symIndex.toNat]? = some s ∧
      (s.IsDef → HasSlot (symsBefore objs i r.symIndex.toNat) s)
  relsFit : (objs.flatMap DvmProg.rels).length ≤ dvmMaxRels

/-- The entry a relocation's symbol is mapped to exists exactly if the symbol does and, for a
definition, found room in the table. -/
theorem newSym_ok_iff {objs : List DvmProg} {ms : MergedSyms} {defMaps maps : List SymMap}
    (h₃ : definePass (withBases {} objs) = .ok (ms, defMaps))
    (h₄ : resolvePass ms (objs.zip defMaps) = .ok maps) {i : Nat} {o : DvmProg} {map : SymMap}
    (hi : objs[i]? = some o) (hmap : maps[i]? = some map) (r : DvmRel) :
    (∃ k, newSym map r = some k) ↔ ∃ s, o.syms[r.symIndex.toNat]? = some s ∧
      (s.IsDef → HasSlot (symsBefore objs i r.symIndex.toNat) s) := by
  obtain ⟨map', hmap', hlen, hent⟩ := resolvePass_ok h₃ h₄ i o hi
  rw [hmap, Option.some.injEq] at hmap'
  subst hmap'
  cases hs : o.syms[r.symIndex.toNat]? with
  | none =>
    have hge : map.length ≤ r.symIndex.toNat := hlen ▸ List.getElem?_eq_none_iff.mp hs
    simp [newSym, List.getElem?_eq_none hge]
  | some s =>
    obtain ⟨hk, hext⟩ := hent _ s hs
    have hjoin : newSym map r = mergedIndex objs i r.symIndex.toNat s := by
      rw [newSym, hk]
      rfl
    rw [hjoin, mergedIndex]
    by_cases hd : s.IsDef
    · have hslot : HasSlot (symsBefore objs i r.symIndex.toNat) s ↔
          placeOf objs i r.symIndex.toNat s < dvmMaxSyms := hasSlot_iff
      by_cases hroom : placeOf objs i r.symIndex.toNat s < dvmMaxSyms
      · have : HasSlot (symsBefore objs i r.symIndex.toNat) s :=
          hslot.mpr hroom
        simp [hd, definedIndex, hroom, this]
      · have : ¬ HasSlot (symsBefore objs i r.symIndex.toNat) s :=
          fun h => hroom (hslot.mp h)
        simp [hd, definedIndex, hroom, this]
    · obtain ⟨q, t, hf, -⟩ := hext (not_not.mp hd)
      rw [msymsFind, (definePass_ok h₃).1] at hf
      simp [hd, hf]

/-- The exact acceptance condition of `dvm_link`. -/
theorem dvmLink_ok_iff_acceptable {objs : List DvmProg} {entrySym : Option CStr}
    (hsec : ∀ o ∈ objs, ∀ s ∈ o.syms, s.IsDef → s.sec ≠ dvmSecNone) :
    (∃ out, dvmLink objs entrySym = .ok out) ↔ Acceptable objs := by
  have hdefine : (∃ ms maps, definePass (withBases {} objs) = .ok (ms, maps)) ↔
      UniqueGlobals (linkSyms objs) := by
    rw [← scan_defineSym_ok_iff (sec_linkSyms hsec)]
    constructor
    · rintro ⟨ms, maps, h⟩
      obtain ⟨is, his⟩ := scan_flatMap_iff.mp ⟨maps, h⟩
      exact ⟨_, his⟩
    · rintro ⟨⟨ms, is⟩, his⟩
      obtain ⟨maps, h⟩ := scan_flatMap_iff.mpr ⟨is, his⟩
      exact ⟨ms, maps, h⟩
  have hpass₅ : ∀ {ms defMaps maps}, definePass (withBases {} objs) = .ok (ms, defMaps) →
      resolvePass ms (objs.zip defMaps) = .ok maps →
      ((∃ rels, remapPass ((withBases {} objs).zip maps) = .ok rels) ↔
        (objs.flatMap DvmProg.rels).length ≤ dvmMaxRels ∧
        ∀ i o r, objs[i]? = some o → r ∈ o.rels →
          ∃ s, o.syms[r.symIndex.toNat]? = some s ∧
            (s.IsDef → HasSlot (symsBefore objs i r.symIndex.toNat) s)) := by
    intro ms defMaps maps h₃ h₄
    have hlen : maps.length = objs.length := by
      rw [length_of_each h₄, List.length_zip, length_of_scan h₃, length_withBases, Nat.min_self]
    have hcount : (((withBases {} objs).zip maps).flatMap remappedRels).length
        = (objs.flatMap DvmProg.rels).length := by
      conv_rhs => rw [← map_zip_withBases hlen, List.flatMap_map]
      rw [List.length_flatMap, List.length_flatMap]
      simp [remappedRels]
    simp only [remapPass_ok_iff, hcount, exists_and_left, exists_eq, and_true]
    refine and_congr_right fun _ => ⟨fun h i o r hi hr => ?_, fun h x hx r hr => ?_⟩
    · obtain ⟨map, hmap, -⟩ := resolvePass_ok h₃ h₄ i o hi
      have hx := List.mem_of_getElem? (getElem?_zip_withBases hi hmap)
      exact (newSym_ok_iff h₃ h₄ hi hmap r).mp (h _ hx r hr)
    · obtain ⟨i, hi⟩ := List.mem_iff_getElem?.mp hx
      obtain ⟨h₁, hmap⟩ := List.getElem?_zip_eq_some.mp hi
      have hobj : objs[i]? = some x.1.2 := by
        rw [← map_snd_withBases {} objs, List.getElem?_map, h₁]
        rfl
      exact (newSym_ok_iff h₃ h₄ hobj hmap r).mpr (h i _ r hobj hr)
  constructor
  · rintro ⟨out, h⟩
    obtain ⟨ms, defMaps, maps, rels, h₃, h₄, h₅, -⟩ := dvmLink_ok_iff.mp h
    obtain ⟨hfit, hsyms⟩ := (hpass₅ h₃ h₄).mp ⟨rels, h₅⟩
    exact ⟨hdefine.mp ⟨ms, defMaps, h₃⟩, (resolvePass_ok_iff hsec h₃).mp ⟨maps, h₄⟩, hsyms, hfit⟩
  · rintro ⟨hglob, hext, hsyms, hfit⟩
    obtain ⟨ms, defMaps, h₃⟩ := hdefine.mpr hglob
    obtain ⟨maps, h₄⟩ := (resolvePass_ok_iff hsec h₃).mpr hext
    obtain ⟨rels, h₅⟩ := (hpass₅ h₃ h₄).mpr ⟨hfit, hsyms⟩
    exact ⟨_, dvmLink_ok_iff.mpr ⟨ms, defMaps, maps, rels, h₃, h₄, h₅, rfl⟩⟩

end Dvm
