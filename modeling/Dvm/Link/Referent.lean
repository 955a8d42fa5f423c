/-
# The symbol behind a relocation

`referent` says on the inputs alone which symbol a relocation of symbol `k` of object `i` refers
to after linking: a `LOCAL` behind another definition of its name has an entry of its own, all
other symbols share the entry of their name.  `dvmLink_referent` reads this off a successful
link, for the output relocation of every input relocation, and `mem_rels_dvmLink` says that
there are no others.
-/
import Dvm.Link.Accept

namespace Dvm

open Table Loops Concat

/-! ## 1. The entry of a symbol -/

/-- The table without a limit, as it is filled after symbol `k` of object `i`. -/
theorem places_linkSyms {objs : List DvmProg} {i k : Nat} {o : DvmProg} {s : DvmSym}
    (hi : objs[i]? = some o) (hk : o.syms[k]? = some s) :
    places (linkSyms objs) = (symsAfter objs i k).foldl place
      (place (places (symsBefore objs i k)) (adjust (baseOf objs i) s)) := by
  conv_lhs => rw [(linkSyms_split hi hk).1, places_append, List.foldl_cons]

/-- A `LOCAL` behind a definition of its name is not the first entry of the name. -/
theorem find_place_of_mem {before : List DvmSym} {d s : DvmSym} (hd : d ∈ before)
    (hdef : d.IsDef) (hn : d.name = s.name) (hs : ¬ s.IsGlobal) :
    ∃ q a, find DvmSym.name s.name (place (places before) s) = some (q, a) ∧
      q < slotOf (places before) s := by
  obtain ⟨a₀, ha₀, hn₀⟩ := name_places_mem.mpr ⟨d, hd, hdef, hn⟩
  obtain ⟨q, a, hf⟩ : ∃ q a, find DvmSym.name s.name (places before) = some (q, a) :=
    exists_find ha₀ hn₀
  have hslot : slotOf (places before) s = (places before).length := by simp [slotOf, hs]
  exact ⟨q, _, find_place hf s, hslot ▸ lt_length_of_find hf⟩

/-- A `GLOBAL`, and the first definition of a name, is the first entry of the name. -/
theorem find_place_slotOf {before : List DvmSym} {s : DvmSym} (hd : s.IsDef)
    (h : s.IsGlobal ∨ ∀ d ∈ before, ¬ (d.IsDef ∧ d.name = s.name)) :
    find DvmSym.name s.name (place (places before) s) = some (slotOf (places before) s, s) := by
  cases hf : find DvmSym.name s.name (places before) with
  | none =>
    have hslot : slotOf (places before) s = (places before).length := by simp [slotOf, hf]
    rw [place_of_not_find hd (by simp [hf]), hslot]
    exact find_append_new hf
  | some x =>
    obtain ⟨q, a⟩ := x
    have ha := List.mem_of_getElem? (getElem?_of_find hf)
    obtain ⟨d, hdmem, hdd⟩ := name_places_mem.mp ⟨a, ha, key_of_find hf⟩
    have hg : s.IsGlobal := h.resolve_right fun hfirst => hfirst d hdmem hdd
    have hslot : slotOf (places before) s = q := by simp [slotOf, hg, hf]
    rw [find_place hf s, if_pos ⟨hg, rfl⟩, hslot]

/-! ## 2. The referent -/

/-- Symbol `s`, the `k`-th of object `i`, is a `LOCAL` behind a definition of its name. -/
def KeepsEntry (objs : List DvmProg) (i k : Nat) (s : DvmSym) : Prop :=
  ¬ s.IsGlobal ∧ ∃ d ∈ symsBefore objs i k, d.IsDef ∧ d.name = s.name

instance (objs : List DvmProg) (i k : Nat) (s : DvmSym) : Decidable (KeepsEntry objs i k s) :=
  inferInstanceAs (Decidable (_ ∧ _))

/-- The symbol that relocations of symbol `s`, the `k`-th of object `i`, refer to after
linking. -/
def referent (objs : List DvmProg) (i k : Nat) (s : DvmSym) : Option DvmSym :=
  if s.IsDef ∧ KeepsEntry objs i k s then some (adjust (baseOf objs i) s)
  else nameEntry (linkSyms objs) s.name

/-- A symbol's merged index is that of its referent. -/
theorem referent_of_mergedIndex {objs : List DvmProg} {i k q : Nat} {o : DvmProg} {s : DvmSym}
    (hi : objs[i]? = some o) (hk : o.syms[k]? = some s) (hq : mergedIndex objs i k s = some q) :
    q < dvmMaxSyms ∧ ∃ t, (places (linkSyms objs))[q]? = some t ∧ referent objs i k s = some t := by
  by_cases hd : s.IsDef
  · obtain ⟨hroom, rfl⟩ := placeOf_of_mergedIndex hd hq
    refine ⟨hroom, ?_⟩
    rw [places_linkSyms hi hk]
    by_cases hkeep : KeepsEntry objs i k s
    · rw [referent, if_pos ⟨hd, hkeep⟩]
      obtain ⟨hlocal, d, hdmem, hdd, hdn⟩ := hkeep
      obtain ⟨q, a, hf, hlt⟩ :=
        find_place_of_mem (s := adjust (baseOf objs i) s) hdmem hdd hdn hlocal
      have hself := getElem?_place_slotOf (t := places (symsBefore objs i k))
        (s := adjust (baseOf objs i) s) hd
      exact ⟨_, getElem?_foldl_place hself hf (Nat.ne_of_lt hlt), rfl⟩
    · rw [referent, if_neg fun h => hkeep h.2]
      have hfirst : s.IsGlobal ∨ ∀ d ∈ symsBefore objs i k, ¬ (d.IsDef ∧ d.name = s.name) := by
        rcases Decidable.em s.IsGlobal with hg | hg
        · exact .inl hg
        · exact .inr fun d hdmem hdd => hkeep ⟨hg, d, hdmem, hdd⟩
      obtain ⟨t, hf, -⟩ := find_foldl_place (symsAfter objs i k)
        (find_place_slotOf (s := adjust (baseOf objs i) s) hd hfirst)
      have hget := getElem?_of_find hf
      rw [← places_linkSyms hi hk] at hf
      exact ⟨t, hget, nameEntry_of_find hf⟩
  · rw [mergedIndex, if_neg hd, Option.map_eq_some_iff] at hq
    obtain ⟨⟨q', t⟩, hf, rfl⟩ := hq
    rw [find_take, Option.filter_eq_some_iff] at hf
    rw [referent, if_neg fun h => hd h.1]
    exact ⟨by simpa using hf.2, t, getElem?_of_find hf.1, nameEntry_of_find hf.1⟩

/-! ## 3. The output relocations -/

section Output

variable {objs : List DvmProg} {entrySym : Option CStr} {out : DvmProg}

/-- The output relocation `r'` is for relocation `r` of object `i`, and refers to symbol `t`. -/
structure RelFrom (objs : List DvmProg) (out : DvmProg) (i : Nat) (r r' : DvmRel) (t : DvmSym) :
    Prop where
  kind : r'.kind = r.kind
  codeOffset : r'.codeOffset = r.codeOffset + BitVec.ofNat 32 (baseOf objs i).code
  sym : out.syms[r'.symIndex.toNat]? = some t

/-- The position of an output relocation is a sum modulo `2 ^ 32`. -/
theorem RelFrom.toNat_codeOffset {i : Nat} {r r' : DvmRel} {t : DvmSym}
    (h : RelFrom objs out i r r' t) :
    r'.codeOffset.toNat = (r.codeOffset.toNat + (baseOf objs i).code) % 2 ^ 32 := by
  rw [h.codeOffset, BitVec.toNat_add, BitVec.toNat_ofNat, Nat.add_mod_mod]

theorem relFrom_remap (hout : dvmLink objs entrySym = .ok out) {i q : Nat} {o : DvmProg}
    {r : DvmRel} {s : DvmSym} (hi : objs[i]? = some o)
    (hs : o.syms[r.symIndex.toNat]? = some s)
    (hq : mergedIndex objs i r.symIndex.toNat s = some q) :
    ∃ t, referent objs i r.symIndex.toNat s = some t ∧
      RelFrom objs out i r (remap (baseOf objs i) q r) t := by
  obtain ⟨hlt, t, ht, href⟩ := referent_of_mergedIndex hi hs hq
  refine ⟨t, href, rfl, rfl, ?_⟩
  have hidx : (BitVec.ofNat 32 q).toNat = q := by
    unfold dvmMaxSyms at hlt
    rw [BitVec.toNat_ofNat, Nat.mod_eq_of_lt (by omega)]
  rw [remap, hidx, (dvmLink_ok hout).1, List.getElem?_take_of_lt hlt, ht]

/-- The output relocation of an input relocation refers to the referent of its symbol. -/
theorem dvmLink_referent (hout : dvmLink objs entrySym = .ok out) {i j : Nat} {o : DvmProg}
    {r : DvmRel} {s : DvmSym} (hi : objs[i]? = some o) (hj : o.rels[j]? = some r)
    (hs : o.syms[r.symIndex.toNat]? = some s) :
    ∃ r' t, out.rels[relPos objs i j]? = some r' ∧
      referent objs i r.symIndex.toNat s = some t ∧ RelFrom objs out i r r' t := by
  obtain ⟨s', q, hs', hq, hrel⟩ := (dvmLink_ok hout).2.2 i o j r hi hj
  rw [hs, Option.some.injEq] at hs'
  subst hs'
  obtain ⟨t, href, hfrom⟩ := relFrom_remap hout hi hs hq
  exact ⟨_, t, hrel, href, hfrom⟩

/-- There are no other output relocations. -/
theorem mem_rels_dvmLink (hout : dvmLink objs entrySym = .ok out) {r' : DvmRel}
    (hr' : r' ∈ out.rels) : ∃ i o r s t, objs[i]? = some o ∧ r ∈ o.rels ∧
      o.syms[r.symIndex.toNat]? = some s ∧ referent objs i r.symIndex.toNat s = some t ∧
      RelFrom objs out i r r' t := by
  obtain ⟨i, o, r, s, q, hi, hr, hs, hq, rfl⟩ := dvmLink_mem_rels hout hr'
  obtain ⟨t, href, hfrom⟩ := relFrom_remap hout hi hs hq
  exact ⟨i, o, r, s, t, hi, hr, hs, href, hfrom⟩

end Output

end Dvm
