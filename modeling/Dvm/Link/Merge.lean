/-
# What the merged symbol table holds

Pass 3 of `dvm_link` fills a table of at most `DVM_MAX_SYMS` entries.  This module separates
the two things that can happen to a definition there.

* **Its place.**  `places` is the table without a size limit: a `GLOBAL` takes over the first
  entry of its name, if there is one, and every other definition goes to the end.  The table
  the linker builds is the front of it (`definePass_places`), and a definition whose place
  lies behind the limit is dropped.
* **Its fate.**  An entry is rewritten only by a later `GLOBAL` of its name, and only if it is
  the first entry of that name (`find_foldl_place`, `getElem?_foldl_place`).  That is how a
  `LOCAL` can lose its entry to a symbol of another object.
-/
import Mathlib.Data.List.Induction
import Dvm.Link.Defs

namespace Dvm

open Table Loops

/-! ## 1. The table without a limit -/

/-- A symbol that defines its name in its object. -/
def DvmSym.IsDef (s : DvmSym) : Prop := s.flags ≠ dvmSymExtern

def DvmSym.IsGlobal (s : DvmSym) : Prop := s.flags = dvmSymGlobal

def DvmSym.IsExtern (s : DvmSym) : Prop := s.flags = dvmSymExtern

instance (s : DvmSym) : Decidable s.IsDef := inferInstanceAs (Decidable (_ ≠ _))
instance (s : DvmSym) : Decidable s.IsGlobal := inferInstanceAs (Decidable (_ = _))
instance (s : DvmSym) : Decidable s.IsExtern := inferInstanceAs (Decidable (_ = _))

theorem DvmSym.IsGlobal.isDef {s : DvmSym} (h : s.IsGlobal) : s.IsDef := by
  unfold IsGlobal at h
  unfold IsDef
  rw [h]
  decide

/-- The position at which a definition is put. -/
def slotOf (t : List DvmSym) (s : DvmSym) : Nat :=
  if s.IsGlobal then
    match find DvmSym.name s.name t with
    | some (i, _) => i
    | none => t.length
  else t.length

/-- The table after one more symbol. -/
def place (t : List DvmSym) (s : DvmSym) : List DvmSym :=
  if s.IsDef then
    if slotOf t s < t.length then t.set (slotOf t s) s else t ++ [s]
  else t

/-- The table after a list of symbols. -/
def places (ss : List DvmSym) : List DvmSym := ss.foldl place []

theorem places_append (ss rs : List DvmSym) : places (ss ++ rs) = rs.foldl place (places ss) :=
  List.foldl_append

theorem slotOf_le (t : List DvmSym) (s : DvmSym) : slotOf t s ≤ t.length := by
  unfold slotOf
  split
  · split
    · next hf => exact Nat.le_of_lt (lt_length_of_find hf)
    · exact Nat.le_refl _
  · exact Nat.le_refl _

/-- A place in front of the end is that of a `GLOBAL` whose name the table already has. -/
theorem slotOf_lt_iff {t : List DvmSym} {s : DvmSym} :
    slotOf t s < t.length ↔
      s.IsGlobal ∧ ∃ a, find DvmSym.name s.name t = some (slotOf t s, a) := by
  by_cases hg : s.IsGlobal
  · cases hf : find DvmSym.name s.name t with
    | none => simp [slotOf, hg, hf]
    | some x =>
      have hs : slotOf t s = x.1 := by simp [slotOf, hg, hf]
      have hlt : x.1 < t.length := lt_length_of_find (a := x.2) hf
      rw [hs]
      exact ⟨fun _ => ⟨hg, x.2, rfl⟩, fun _ => hlt⟩
  · simp [slotOf, hg]

theorem place_of_find {t : List DvmSym} {s a : DvmSym} {i : Nat} (hg : s.IsGlobal)
    (hf : find DvmSym.name s.name t = some (i, a)) : place t s = t.set i s := by
  have hs : slotOf t s = i := by simp [slotOf, hg, hf]
  rw [place, if_pos hg.isDef, hs, if_pos (lt_length_of_find hf)]

theorem place_of_not_find {t : List DvmSym} {s : DvmSym} (hd : s.IsDef)
    (hf : ¬ (s.IsGlobal ∧ ∃ i a, find DvmSym.name s.name t = some (i, a))) :
    place t s = t ++ [s] := by
  have hlt : ¬ slotOf t s < t.length := fun h => by
    obtain ⟨hg, a, ha⟩ := slotOf_lt_iff.mp h
    exact hf ⟨hg, _, a, ha⟩
  rw [place, if_pos hd, if_neg hlt]

/-- The definition is found at its place. -/
theorem getElem?_place_slotOf {t : List DvmSym} {s : DvmSym} (hd : s.IsDef) :
    (place t s)[slotOf t s]? = some s := by
  rw [place, if_pos hd]
  by_cases h : slotOf t s < t.length
  · rw [if_pos h, List.getElem?_set_self h]
  · have heq : slotOf t s = t.length := by have := slotOf_le t s; omega
    rw [if_neg h, heq, List.getElem?_append_right (Nat.le_refl _), Nat.sub_self]
    rfl

/-! ## 2. The linker's table is the front of it -/

/-- Everything pass 3 can do with one symbol: leave an extern alone, rewrite the first entry
of a `GLOBAL`'s name, or append. -/
theorem defineSym_cases {ms ms' : MergedSyms} {s : DvmSym} {e : Option Nat}
    (h : defineSym ms s = .ok (ms', e)) :
    (¬ s.IsDef ∧ ms' = ms ∧ e = none) ∨
    (s.IsGlobal ∧ ∃ i a, msymsFind ms s.name = some (i, a) ∧
      ¬ (a.IsGlobal ∧ a.sec ≠ dvmSecNone) ∧ ms' = msymsSet ms i s ∧ e = some i) ∨
    (s.IsDef ∧ ¬ (s.IsGlobal ∧ ∃ i a, msymsFind ms s.name = some (i, a)) ∧
      (ms', e) = msymsAdd ms s) := by
  unfold defineSym at h
  by_cases hx : s.flags = dvmSymExtern
  · rw [if_pos hx] at h
    simp only [Except.ok.injEq, Prod.mk.injEq] at h
    exact .inl ⟨fun hd => hd hx, h.1.symm, h.2.symm⟩
  rw [if_neg hx] at h
  by_cases hg : s.flags = dvmSymGlobal
  · rw [if_pos hg] at h
    cases hf : msymsFind ms s.name with
    | none =>
      simp only [hf, Except.ok.injEq] at h
      exact .inr (.inr ⟨hx, by simp, h.symm⟩)
    | some x =>
      obtain ⟨i, a⟩ := x
      simp only [hf] at h
      split at h
      · cases h
      · next hdup =>
        simp only [Except.ok.injEq, Prod.mk.injEq] at h
        exact .inr (.inl ⟨hg, i, a, rfl, hdup, h.1.symm, h.2.symm⟩)
  · rw [if_neg hg] at h
    simp only [Except.ok.injEq] at h
    exact .inr (.inr ⟨hx, fun hh => hg hh.1, h.symm⟩)

/-- Appending to the front of a table, when the whole table would append too. -/
theorem msymsAdd_take {ms ms' : MergedSyms} {t : List DvmSym} {s : DvmSym} {e : Option Nat}
    (hms : ms.syms = t.take dvmMaxSyms) (h : (ms', e) = msymsAdd ms s) :
    ms'.syms = (t ++ [s]).take dvmMaxSyms ∧
      e = if t.length < dvmMaxSyms then some t.length else none := by
  have hlen : ms.syms.length = min dvmMaxSyms t.length := by rw [hms, List.length_take]
  unfold msymsAdd at h
  by_cases hroom : t.length < dvmMaxSyms
  · rw [dif_pos (by omega)] at h
    simp only [Prod.mk.injEq] at h
    have htake : t.take dvmMaxSyms = t := List.take_of_length_le (by omega)
    have htake' : (t ++ [s]).take dvmMaxSyms = t ++ [s] :=
      List.take_of_length_le (by rw [List.length_append]; exact hroom)
    rw [htake] at hms
    rw [if_pos hroom, htake', h.1, h.2]
    show ms.syms ++ [s] = t ++ [s] ∧ some ms.syms.length = some t.length
    rw [hms]
    exact ⟨rfl, rfl⟩
  · rw [dif_neg (by omega)] at h
    simp only [Prod.mk.injEq] at h
    rw [if_neg hroom, h.1, h.2, hms, List.take_append_of_le_length (by omega)]
    exact ⟨rfl, rfl⟩

/-- One symbol keeps the linker's table the front of the unlimited one, and the index it
stores is the symbol's place, or -1 where that lies behind the limit. -/
theorem defineSym_place {ms ms' : MergedSyms} {t : List DvmSym} {s : DvmSym} {e : Option Nat}
    (hms : ms.syms = t.take dvmMaxSyms) (h : defineSym ms s = .ok (ms', e)) :
    ms'.syms = (place t s).take dvmMaxSyms ∧
      e = if s.IsDef ∧ slotOf t s < dvmMaxSyms then some (slotOf t s) else none := by
  have hfind : msymsFind ms s.name
      = (find DvmSym.name s.name t).filter fun x => x.1 < dvmMaxSyms := by
    rw [msymsFind, hms, find_take]
  rcases defineSym_cases h with ⟨hd, rfl, rfl⟩ | ⟨hg, i, a, hf, _, rfl, rfl⟩ | ⟨hd, hf, hadd⟩
  · rw [place, if_neg hd, if_neg (fun hh => hd hh.1)]
    exact ⟨hms, rfl⟩
  · -- the first entry of the name lies in front of the limit
    rw [hfind, Option.filter_eq_some_iff] at hf
    obtain ⟨hft, hlt⟩ := hf
    have hi : i < dvmMaxSyms := by simpa using hlt
    have hs : slotOf t s = i := by simp [slotOf, hg, hft]
    rw [place_of_find hg hft, hs, if_pos ⟨hg.isDef, hi⟩, msymsSet_syms, hms, List.take_set]
    exact ⟨rfl, rfl⟩
  · obtain ⟨hsyms, he⟩ := msymsAdd_take hms hadd
    by_cases hft : s.IsGlobal ∧ ∃ i a, find DvmSym.name s.name t = some (i, a)
    · -- the entry lies behind the limit, so the table is full
      obtain ⟨hg, i, a, hft⟩ := hft
      have hi : dvmMaxSyms ≤ i := by
        by_contra hlt
        refine hf ⟨hg, i, a, ?_⟩
        rw [hfind, hft]
        simp [Option.filter, show i < dvmMaxSyms by omega]
      have hlen := lt_length_of_find hft
      have hs : slotOf t s = i := by simp [slotOf, hg, hft]
      rw [if_neg (by omega)] at he
      rw [place_of_find hg hft, hs, if_neg (by omega), hsyms, he, List.take_set,
        List.set_eq_of_length_le (by rw [List.length_take]; omega),
        List.take_append_of_le_length (by omega)]
      exact ⟨rfl, rfl⟩
    · have hs : slotOf t s = t.length := by
        have hlt : ¬ slotOf t s < t.length := fun hlt => by
          obtain ⟨hg, a, ha⟩ := slotOf_lt_iff.mp hlt
          exact hft ⟨hg, _, a, ha⟩
        have := slotOf_le t s
        omega
      rw [place_of_not_find hd hft, hs, hsyms, he]
      simp [hd]

/-- A whole list of symbols keeps it. -/
theorem scan_defineSym_place {ss : List DvmSym} {ms ms' : MergedSyms} {t : List DvmSym}
    {is : SymMap} (hms : ms.syms = t.take dvmMaxSyms)
    (h : scan defineSym ms ss = .ok (ms', is)) :
    ms'.syms = (ss.foldl place t).take dvmMaxSyms := by
  induction ss generalizing ms t is with
  | nil =>
    simp only [scan_nil, Except.ok.injEq, Prod.mk.injEq] at h
    rw [← h.1, hms]
    rfl
  | cons s ss ih =>
    obtain ⟨ms₁, e, is', h₁, h₂, rfl⟩ := scan_cons_iff.mp h
    exact ih (defineSym_place hms h₁).1 h₂

/-! ## 3. The fate of an entry -/

theorem name_place_mem {t : List DvmSym} {s : DvmSym} {n : CStr} :
    (∃ a ∈ place t s, a.name = n) ↔ (∃ a ∈ t, a.name = n) ∨ (s.IsDef ∧ s.name = n) := by
  by_cases hd : s.IsDef
  · by_cases hf : s.IsGlobal ∧ ∃ i a, find DvmSym.name s.name t = some (i, a)
    · obtain ⟨hg, i, a, hf⟩ := hf
      have hmap : (t.set i s).map DvmSym.name = t.map DvmSym.name :=
        map_key_set (getElem?_of_find hf) (key_of_find hf).symm
      have hiff : (∃ b ∈ t.set i s, b.name = n) ↔ ∃ b ∈ t, b.name = n := by
        rw [← List.mem_map, ← List.mem_map, hmap]
      have ha : a ∈ t := List.mem_of_getElem? (getElem?_of_find hf)
      rw [place_of_find hg hf, hiff]
      constructor
      · exact .inl
      · rintro (h | ⟨_, rfl⟩)
        · exact h
        · exact ⟨a, ha, key_of_find hf⟩
    · rw [place_of_not_find hd hf]
      simp [hd, or_and_right, exists_or]
  · simp [place, hd]

/-- One more symbol and the first entry of a name: a `GLOBAL` of that name takes the entry
over, everything else leaves it where and what it is. -/
theorem find_place {t : List DvmSym} {n : CStr} {q : Nat} {a : DvmSym}
    (h : find DvmSym.name n t = some (q, a)) (s : DvmSym) :
    find DvmSym.name n (place t s)
      = some (q, if s.IsGlobal ∧ s.name = n then s else a) := by
  by_cases hd : s.IsDef
  · by_cases hf : s.IsGlobal ∧ ∃ i b, find DvmSym.name s.name t = some (i, b)
    · obtain ⟨hg, i, b, hf⟩ := hf
      rw [place_of_find hg hf, find_set (getElem?_of_find hf) (key_of_find hf).symm, h]
      by_cases hn : s.name = n
      · rw [hn, h] at hf
        simp only [Option.some.injEq, Prod.mk.injEq] at hf
        simp [hg, hn, hf.1]
      · have hqi : q ≠ i := by
          rintro rfl
          have hab : a = b := by
            have h₁ := getElem?_of_find h
            rw [getElem?_of_find hf, Option.some.injEq] at h₁
            exact h₁.symm
          exact hn ((key_of_find hf).symm.trans (hab ▸ key_of_find h))
        simp [hn, hqi]
    · have hn : ¬ (s.IsGlobal ∧ s.name = n) := by
        rintro ⟨hg, rfl⟩
        exact hf ⟨hg, q, a, h⟩
      rw [place_of_not_find hd hf, find_append_of_some h, if_neg hn]
  · have hn : ¬ (s.IsGlobal ∧ s.name = n) := fun hh => hd hh.1.isDef
    rw [place, if_neg hd, if_neg hn, h]

/-- The first entry of a name over many symbols: it stays first, and what it holds is a later
`GLOBAL` of the name if there is one. -/
theorem find_foldl_place (rs : List DvmSym) {t : List DvmSym} {n : CStr} {q : Nat} {a : DvmSym}
    (h : find DvmSym.name n t = some (q, a)) :
    ∃ a', find DvmSym.name n (rs.foldl place t) = some (q, a') ∧
      ((∃ g ∈ rs, g.IsGlobal ∧ g.name = n ∧ a' = g) ∨
        ((∀ g ∈ rs, ¬ (g.IsGlobal ∧ g.name = n)) ∧ a' = a)) := by
  induction rs generalizing t a with
  | nil => exact ⟨a, h, .inr ⟨by simp, rfl⟩⟩
  | cons s rs ih =>
    obtain ⟨a', hfind, hfate⟩ := ih (find_place h s)
    refine ⟨a', hfind, ?_⟩
    rcases hfate with ⟨g, hg, hglob, hn, rfl⟩ | ⟨hnone, rfl⟩
    · exact .inl ⟨_, List.mem_cons_of_mem _ hg, hglob, hn, rfl⟩
    · by_cases hs : s.IsGlobal ∧ s.name = n
      · exact .inl ⟨s, List.mem_cons_self, hs.1, hs.2, if_pos hs⟩
      · refine .inr ⟨fun g hg => ?_, if_neg hs⟩
        rcases List.mem_cons.mp hg with rfl | hg
        · exact hs
        · exact hnone g hg

/-- An entry that is not the first of its name is never rewritten. -/
theorem getElem?_foldl_place {rs : List DvmSym} {t : List DvmSym} {q q' : Nat} {a b : DvmSym}
    (ha : t[q]? = some a) (hf : find DvmSym.name a.name t = some (q', b)) (hne : q' ≠ q) :
    (rs.foldl place t)[q]? = some a := by
  induction rs generalizing t b with
  | nil => exact ha
  | cons s rs ih =>
    refine ih ?_ (find_place hf s)
    by_cases hd : s.IsDef
    · by_cases hfs : s.IsGlobal ∧ ∃ i b, find DvmSym.name s.name t = some (i, b)
      · obtain ⟨hg, i, c, hfs⟩ := hfs
        have hqi : i ≠ q := by
          rintro rfl
          have hac : a = c := by
            have h₁ := getElem?_of_find hfs
            rw [ha, Option.some.injEq] at h₁
            exact h₁
          have hname : s.name = a.name := by rw [hac]; exact (key_of_find hfs).symm
          rw [hname, hf] at hfs
          simp only [Option.some.injEq, Prod.mk.injEq] at hfs
          exact hne hfs.1
        rw [place_of_find hg hfs, List.getElem?_set_ne hqi, ha]
      · rw [place_of_not_find hd hfs,
          List.getElem?_append_left (List.getElem?_eq_some_iff.mp ha).1, ha]
    · rw [place, if_neg hd, ha]

/-- The names of the table are those defined. -/
theorem name_places_mem {ss : List DvmSym} {n : CStr} :
    (∃ a ∈ places ss, a.name = n) ↔ ∃ s ∈ ss, s.IsDef ∧ s.name = n := by
  suffices ∀ t : List DvmSym, (∃ a ∈ ss.foldl place t, a.name = n) ↔
      (∃ a ∈ t, a.name = n) ∨ ∃ s ∈ ss, s.IsDef ∧ s.name = n by
    simpa [places] using this []
  induction ss with
  | nil => simp
  | cons s ss ih =>
    intro t
    rw [List.foldl_cons, ih, name_place_mem, or_assoc]
    simp

/-- The first definition of a name makes its entry. -/
theorem find_place_new {t : List DvmSym} {n : CStr} (h : find DvmSym.name n t = none)
    (s : DvmSym) : (find DvmSym.name n (place t s)).map Prod.snd
      = if s.IsDef ∧ s.name = n then some s else none := by
  by_cases hs : s.IsDef ∧ s.name = n
  · obtain ⟨hd, rfl⟩ := hs
    rw [place_of_not_find hd (by simp [h]), find_append_new h]
    simp [hd]
  · have hnone : find DvmSym.name n (place t s) = none := by
      refine find_eq_none_iff.mpr ?_
      intro a ha hn
      rcases name_place_mem.mp ⟨a, ha, hn⟩ with ⟨b, hb, hbn⟩ | hdef
      · exact find_eq_none_iff.mp h b hb hbn
      · exact hs hdef
    rw [hnone, if_neg hs]
    rfl

/-- The entry of a name: the last `GLOBAL` of the name, or else its first definition. -/
def nameEntry (ss : List DvmSym) (n : CStr) : Option DvmSym :=
  (ss.filter fun s => s.IsGlobal ∧ s.name = n).getLast?.or
    (ss.find? fun s => s.IsDef ∧ s.name = n)

theorem nameEntry_snoc_global {ss : List DvmSym} {s : DvmSym} {n : CStr}
    (h : s.IsGlobal ∧ s.name = n) : nameEntry (ss ++ [s]) n = some s := by
  simp [nameEntry, List.filter_append, h]

theorem nameEntry_snoc {ss : List DvmSym} {s : DvmSym} {n : CStr}
    (h : ¬ (s.IsGlobal ∧ s.name = n)) : nameEntry (ss ++ [s]) n
      = (nameEntry ss n).or (if s.IsDef ∧ s.name = n then some s else none) := by
  have hfilter : [s].filter (fun s => s.IsGlobal ∧ s.name = n) = [] := by
    simpa [List.filter_cons] using h
  rw [nameEntry, List.filter_append, hfilter, List.append_nil, List.find?_append,
    ← Option.or_assoc, ← nameEntry, List.find?_singleton]
  simp only [decide_eq_true_eq]

/-- It is what a search for the name finds. -/
theorem find_places_entry (ss : List DvmSym) (n : CStr) :
    (find DvmSym.name n (places ss)).map Prod.snd = nameEntry ss n := by
  induction ss using List.reverseRecOn with
  | nil => rfl
  | append_singleton ss s ih =>
    have hsnoc : places (ss ++ [s]) = place (places ss) s := by
      rw [places_append]
      rfl
    rw [hsnoc]
    cases hf : find DvmSym.name n (places ss) with
    | some x =>
      rw [hf] at ih
      rw [find_place hf s]
      by_cases hs : s.IsGlobal ∧ s.name = n
      · rw [nameEntry_snoc_global hs, if_pos hs]
        rfl
      · rw [nameEntry_snoc hs, if_neg hs, ← ih]
        rfl
    | none =>
      rw [hf] at ih
      rw [find_place_new hf s]
      by_cases hs : s.IsGlobal ∧ s.name = n
      · rw [nameEntry_snoc_global hs, if_pos ⟨hs.1.isDef, hs.2⟩]
      · rw [nameEntry_snoc hs, ← ih]
        rfl

theorem nameEntry_of_find {ss : List DvmSym} {n : CStr} {q : Nat} {a : DvmSym}
    (h : find DvmSym.name n (places ss) = some (q, a)) : nameEntry ss n = some a := by
  rw [← find_places_entry, h]
  rfl

/-- It is the `GLOBAL` of the name if there is one, otherwise a definition of the name. -/
theorem nameEntry_eq_some {ss : List DvmSym} {n : CStr} {a : DvmSym}
    (h : nameEntry ss n = some a) : a.name = n ∧ a ∈ ss ∧ a.IsDef ∧
      (a.IsGlobal ∨ ∀ g ∈ ss, ¬ (g.IsGlobal ∧ g.name = n)) := by
  rcases Option.or_eq_some_iff.mp h with hlast | ⟨hno, hfirst⟩
  · have hmem := List.mem_filter.mp (List.mem_of_getLast? hlast)
    simp only [decide_eq_true_eq] at hmem
    exact ⟨hmem.2.2, hmem.1, hmem.2.1.isDef, .inl hmem.2.1⟩
  · have hdef := List.find?_some hfirst
    simp only [decide_eq_true_eq] at hdef
    refine ⟨hdef.2, List.mem_of_find?_eq_some hfirst, hdef.1, .inr fun g hg hglob => ?_⟩
    have hempty := List.getLast?_eq_none_iff.mp hno
    exact List.filter_eq_nil_iff.mp hempty g hg (decide_eq_true hglob)

/-- The entry of a name without a `GLOBAL` is its first definition. -/
theorem nameEntry_of_first {before after : List DvmSym} {s : DvmSym} (hd : s.IsDef)
    (hfirst : ∀ d ∈ before, ¬ (d.IsDef ∧ d.name = s.name))
    (hno : ∀ g ∈ before ++ s :: after, ¬ (g.IsGlobal ∧ g.name = s.name)) :
    nameEntry (before ++ s :: after) s.name = some s := by
  have hempty : (before ++ s :: after).filter (fun g => g.IsGlobal ∧ g.name = s.name) = [] :=
    List.filter_eq_nil_iff.mpr fun g hg hglob => hno g hg (of_decide_eq_true hglob)
  have hnone : before.find? (fun d => d.IsDef ∧ d.name = s.name) = none :=
    List.find?_eq_none.mpr fun d hdm hdd => hfirst d hdm (of_decide_eq_true hdd)
  rw [nameEntry, hempty, List.find?_append, hnone, List.find?_cons_of_pos (by simpa using hd)]
  rfl

end Dvm
