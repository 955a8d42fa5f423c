/-
# What a successful link returns

`dvmLink_ok` reads the three passes off a successful run of `dvm_link`: the output symbol
table is the front of `places`, and the output relocation for relocation `j` of object `i` is
that relocation moved by the object's code base, with the index `mergedIndex` gives its symbol.

`mergedIndex` is stated on the inputs alone: for a definition it is the place it is put at, for
an extern the entry its name is found at.
-/
import Dvm.Base.Concat
import Dvm.Link.Merge

namespace Dvm

open Table Loops Concat

/-! ## 1. The inputs as one list of symbols -/

/-- The bases of object `i`: the lengths of the sections before it. -/
def baseOf (objs : List DvmProg) (i : Nat) : ObjBases :=
  ⟨start DvmProg.cnst objs i, start DvmProg.data objs i, start DvmProg.code objs i⟩

/-- Where symbol `s` of object `i` lies in the linked section: the sum that `adjust` takes
modulo `2 ^ 32`. -/
def rebased (objs : List DvmProg) (i : Nat) (s : DvmSym) : Nat :=
  s.offset.toNat + (baseOf objs i).ofSec s.sec

theorem toNat_adjust (objs : List DvmProg) (i : Nat) (s : DvmSym) :
    (adjust (baseOf objs i) s).offset.toNat = rebased objs i s % 2 ^ 32 := by
  rw [adjust, rebased, BitVec.toNat_add, BitVec.toNat_ofNat, Nat.add_mod_mod]

theorem toNat_adjust_eq_iff {objs : List DvmProg} {i : Nat} {s : DvmSym} :
    (adjust (baseOf objs i) s).offset.toNat = rebased objs i s ↔ rebased objs i s < 2 ^ 32 := by
  rw [toNat_adjust]
  exact Nat.mod_eq_iff_lt (by decide)

/-- The symbols of all objects, adjusted, in the order pass 3 visits them. -/
def linkSyms (objs : List DvmProg) : List DvmSym := (withBases {} objs).flatMap adjustedSyms

/-- Where symbol `k` of object `i` stands in `linkSyms`. -/
def symPos (objs : List DvmProg) (i k : Nat) : Nat := start DvmProg.syms objs i + k

/-- The symbols of all objects before and after symbol `k` of object `i`. -/
def symsBefore (objs : List DvmProg) (i k : Nat) : List DvmSym :=
  (linkSyms objs).take (symPos objs i k)

def symsAfter (objs : List DvmProg) (i k : Nat) : List DvmSym :=
  (linkSyms objs).drop (symPos objs i k + 1)

/-- Where relocation `j` of object `i` stands in the output. -/
def relPos (objs : List DvmProg) (i j : Nat) : Nat := start DvmProg.rels objs i + j

theorem getElem?_withBases_from (b : ObjBases) (objs : List DvmProg) (i : Nat) :
    (withBases b objs)[i]? = objs[i]?.map fun o =>
      (⟨b.cnst + (baseOf objs i).cnst, b.data + (baseOf objs i).data,
        b.code + (baseOf objs i).code⟩, o) := by
  induction objs generalizing b i with
  | nil => simp [withBases]
  | cons o os ih =>
    cases i with
    | zero => simp [withBases, baseOf]
    | succ i =>
      simp only [withBases, List.getElem?_cons_succ, ih, baseOf, ObjBases.advance,
        start_cons_succ, Nat.add_assoc]

theorem getElem?_withBases {objs : List DvmProg} {i : Nat} {o : DvmProg}
    (h : objs[i]? = some o) : (withBases {} objs)[i]? = some (baseOf objs i, o) := by
  rw [getElem?_withBases_from, h]
  simp

@[simp] theorem map_snd_withBases (b : ObjBases) (objs : List DvmProg) :
    (withBases b objs).map Prod.snd = objs := by
  induction objs generalizing b with
  | nil => rfl
  | cons o os ih => simp [withBases, ih]

@[simp] theorem length_withBases (b : ObjBases) (objs : List DvmProg) :
    (withBases b objs).length = objs.length := by
  rw [← List.length_map (f := Prod.snd), map_snd_withBases]

/-- A part that depends on the object only starts where it starts in the objects. -/
theorem start_withBases {β : Type} {g : ObjBases × DvmProg → List β} {g' : DvmProg → List β}
    (h : ∀ x, (g' x.2).length = (g x).length) (objs : List DvmProg) (i : Nat) :
    start g (withBases {} objs) i = start g' objs i := by
  rw [← start_map (f := Prod.snd) (g := g') h, map_snd_withBases]

theorem getElem?_adjustedSyms {b : ObjBases} {o : DvmProg} {k : Nat} {s : DvmSym}
    (h : o.syms[k]? = some s) : (adjustedSyms (b, o))[k]? = some (adjust b s) := by
  simp [adjustedSyms, h]

/-- The symbols around symbol `k` of object `i`. -/
theorem linkSyms_split {objs : List DvmProg} {i k : Nat} {o : DvmProg} {s : DvmSym}
    (hi : objs[i]? = some o) (hk : o.syms[k]? = some s) :
    linkSyms objs = symsBefore objs i k ++
        adjust (baseOf objs i) s :: symsAfter objs i k ∧
      symsBefore objs i k = ((withBases {} objs).take i).flatMap adjustedSyms
        ++ (adjustedSyms (baseOf objs i, o)).take k := by
  have hlt : k < o.syms.length := (List.getElem?_eq_some_iff.mp hk).1
  have hlt' : k < (adjustedSyms (baseOf objs i, o)).length := by simpa [adjustedSyms] using hlt
  have hpos : symPos objs i k = start adjustedSyms (withBases {} objs) i + k := by
    have hlen : ∀ x : ObjBases × DvmProg, x.2.syms.length = (adjustedSyms x).length := by
      simp [adjustedSyms]
    rw [symPos, start_withBases hlen]
  have hget : (linkSyms objs)[symPos objs i k]? = some (adjust (baseOf objs i) s) := by
    rw [hpos, linkSyms, getElem?_flatMap (getElem?_withBases hi) hlt',
      getElem?_adjustedSyms hk]
  refine ⟨eq_take_cons_drop hget, ?_⟩
  have hsplit := flatMap_split_at adjustedSyms (getElem?_withBases hi) (getElem?_adjustedSyms hk)
  rw [symsBefore, linkSyms, hsplit, hpos, List.take_left']
  rw [List.length_append, List.length_take, Nat.min_eq_left (Nat.le_of_lt hlt')]
  rfl

/-! ## 2. Pass 3 -/

/-- The place of symbol `s`, the `k`-th of object `i`, in the table without a limit. -/
def placeOf (objs : List DvmProg) (i k : Nat) (s : DvmSym) : Nat :=
  slotOf (places (symsBefore objs i k)) (adjust (baseOf objs i) s)

/-- The entry pass 3 stores for it: its place, if it is a definition with a place in front of
the limit. -/
def definedIndex (objs : List DvmProg) (i k : Nat) (s : DvmSym) : Option Nat :=
  if s.IsDef ∧ placeOf objs i k s < dvmMaxSyms then some (placeOf objs i k s) else none

/-- The merged table, and for each symbol of each object the entry pass 3 stores for it. -/
theorem definePass_ok {objs : List DvmProg} {ms : MergedSyms} {maps : List SymMap}
    (h : definePass (withBases {} objs) = .ok (ms, maps)) :
    ms.syms = (places (linkSyms objs)).take dvmMaxSyms ∧
    ∀ i o, objs[i]? = some o → ∃ map, maps[i]? = some map ∧ map.length = o.syms.length ∧
      ∀ k s, o.syms[k]? = some s → map[k]? = some (definedIndex objs i k s) := by
  have hfront : MergedSyms.empty.syms = (places []).take dvmMaxSyms := rfl
  refine ⟨?_, fun i o hi => ?_⟩
  · obtain ⟨is, hs⟩ := scan_flatMap_iff.mp ⟨maps, h⟩
    exact scan_defineSym_place hfront hs
  · have hobj := getElem?_withBases hi
    have hlen : ((withBases {} objs).take i).length = i := by
      rw [List.length_take]
      exact Nat.min_eq_left (Nat.le_of_lt (List.getElem?_eq_some_iff.mp hobj).1)
    rw [definePass, eq_take_cons_drop hobj] at h
    obtain ⟨ms₁, ms₂, y₁, map, y₂, h₁, h₂, -, hmap⟩ := scan_split h
    obtain ⟨is₁, hs₁⟩ := scan_flatMap_iff.mp ⟨y₁, h₁⟩
    have hfront₁ := scan_defineSym_place hfront hs₁
    refine ⟨map, by rwa [hlen] at hmap, by rw [length_of_scan h₂]; simp [adjustedSyms], ?_⟩
    intro k s hk
    have hadj := getElem?_adjustedSyms (b := baseOf objs i) hk
    have hklen : ((adjustedSyms (baseOf objs i, o)).take k).length = k := by
      rw [List.length_take]
      exact Nat.min_eq_left (Nat.le_of_lt (List.getElem?_eq_some_iff.mp hadj).1)
    rw [eq_take_cons_drop hadj] at h₂
    obtain ⟨ms₃, ms₄, z₁, e, z₂, h₃, h₄, -, hent⟩ := scan_split h₂
    have hfront₃ := scan_defineSym_place hfront₁ h₃
    have htable : ((adjustedSyms (baseOf objs i, o)).take k).foldl place
        (((withBases {} objs).take i).flatMap adjustedSyms |>.foldl place (places []))
        = places (symsBefore objs i k) := by
      rw [(linkSyms_split hi hk).2, places_append]
      rfl
    rw [htable] at hfront₃
    rw [hklen] at hent
    rw [hent, (defineSym_place hfront₃ h₄).2]
    rfl

/-! ## 3. The index of a symbol -/

/-- The merged index of symbol `s`, the `k`-th of object `i`, in terms of the inputs: the
place of a definition, the entry an extern's name is found at. -/
def mergedIndex (objs : List DvmProg) (i k : Nat) (s : DvmSym) : Option Nat :=
  if s.IsDef then definedIndex objs i k s
  else (find DvmSym.name s.name ((places (linkSyms objs)).take dvmMaxSyms)).map Prod.fst

theorem placeOf_of_mergedIndex {objs : List DvmProg} {i k n : Nat} {s : DvmSym} (hd : s.IsDef)
    (h : mergedIndex objs i k s = some n) : placeOf objs i k s < dvmMaxSyms ∧
      n = placeOf objs i k s := by
  rw [mergedIndex, if_pos hd, definedIndex] at h
  split at h
  · next hroom => exact ⟨hroom.2, (Option.some.inj h).symm⟩
  · cases h

/-- Pass 4 finds an entry for every extern and leaves the other symbols' entries alone. -/
theorem resolvePass_ok {objs : List DvmProg} {ms : MergedSyms} {defMaps maps : List SymMap}
    (h₃ : definePass (withBases {} objs) = .ok (ms, defMaps))
    (h₄ : resolvePass ms (objs.zip defMaps) = .ok maps) :
    ∀ i o, objs[i]? = some o → ∃ map, maps[i]? = some map ∧ map.length = o.syms.length ∧
      ∀ k s, o.syms[k]? = some s → map[k]? = some (mergedIndex objs i k s) ∧
        (s.IsExtern → ∃ q t, msymsFind ms s.name = some (q, t) ∧ t.sec ≠ dvmSecNone) := by
  obtain ⟨hsyms, hdef⟩ := definePass_ok h₃
  intro i o hi
  obtain ⟨dmap, hdmap, hdlen, hentries⟩ := hdef i o hi
  have hzip : (objs.zip defMaps)[i]? = some (o, dmap) := by
    rw [List.getElem?_zip_eq_some]
    exact ⟨hi, hdmap⟩
  obtain ⟨map, hmap, hobj⟩ := getElem?_of_each h₄ hzip
  refine ⟨map, hmap, ?_, fun k s hk => ?_⟩
  · rw [length_of_each hobj, List.length_zip, hdlen, Nat.min_self]
  have hzip' : (o.syms.zip dmap)[k]? = some (s, definedIndex objs i k s) := by
    rw [List.getElem?_zip_eq_some]
    exact ⟨hk, hentries k s hk⟩
  obtain ⟨e, he, hres⟩ := getElem?_of_each hobj hzip'
  rw [he, mergedIndex]
  unfold resolveSym at hres
  by_cases hx : s.flags = dvmSymExtern
  · have hnd : ¬ s.IsDef := fun hd => hd hx
    rw [if_neg hnd, ← hsyms]
    simp only [hx, ne_eq, not_true_eq_false, if_false] at hres
    cases hf : msymsFind ms s.name with
    | none => simp [hf] at hres
    | some x =>
      obtain ⟨q, t⟩ := x
      simp only [hf] at hres
      by_cases hsec : t.sec = dvmSecNone
      · simp [hsec] at hres
      · rw [if_neg hsec, Except.ok.injEq] at hres
        refine ⟨?_, fun _ => ⟨q, t, rfl, hsec⟩⟩
        rw [msymsFind] at hf
        rw [hf, ← hres]
        rfl
  · have hd : s.IsDef := hx
    rw [if_pos hd]
    simp only [ne_eq, hx, not_false_eq_true, if_true, Except.ok.injEq] at hres
    exact ⟨by rw [hres], fun hext => absurd hext hx⟩

/-! ## 4. Pass 5 -/

/-- What pass 5 does with one object's relocations. -/
theorem foldlM_remapRel_ok_iff {b : ObjBases} {map : SymMap} {rs rels rels' : List DvmRel} :
    rs.foldlM (remapRel b map) rels = .ok rels' ↔
      (rs ≠ [] → rels.length + rs.length ≤ dvmMaxRels) ∧
      (∀ r ∈ rs, ∃ k, newSym map r = some k) ∧
      rels' = rels ++ rs.map fun r => remap b ((newSym map r).getD 0) r := by
  induction rs generalizing rels with
  | nil => simp [pure, Except.pure, eq_comm]
  | cons r rs ih =>
    rw [foldlM_cons_ok_iff]
    constructor
    · rintro ⟨rels₁, h₁, h₂⟩
      unfold remapRel at h₁
      split at h₁
      · cases h₁
      · next hroom =>
        cases hk : newSym map r with
        | none => simp [hk] at h₁
        | some k =>
          simp only [hk, Except.ok.injEq] at h₁
          subst h₁
          obtain ⟨hlen, hall, rfl⟩ := ih.mp h₂
          refine ⟨fun _ => ?_, ?_, ?_⟩
          · by_cases hrs : rs = []
            · subst hrs; simp; omega
            · have := hlen hrs
              simp only [List.length_append, List.length_cons, List.length_nil] at this ⊢
              omega
          · rw [List.forall_mem_cons]
            exact ⟨⟨k, hk⟩, hall⟩
          · simp [hk]
    · rintro ⟨hlen, hall, rfl⟩
      have hlen' := hlen (List.cons_ne_nil _ _)
      rw [List.length_cons] at hlen'
      obtain ⟨⟨k, hk⟩, hall'⟩ := List.forall_mem_cons.mp hall
      refine ⟨rels ++ [remap b k r], ?_, ih.mpr ⟨fun _ => ?_, hall', ?_⟩⟩
      · rw [remapRel, if_neg (by omega), hk]
      · simp only [List.length_append, List.length_cons, List.length_nil]
        omega
      · simp [hk]

/-- The output relocations of one object. -/
def remappedRels (x : (ObjBases × DvmProg) × SymMap) : List DvmRel :=
  x.1.2.rels.map fun r => remap x.1.1 ((newSym x.2 r).getD 0) r

/-- Pass 5 succeeds exactly when the relocations fit the output table and each of them has a
mapped symbol; it then concatenates the objects' relocations. -/
theorem remapPass_ok_iff {xs : List ((ObjBases × DvmProg) × SymMap)} {rels : List DvmRel} :
    remapPass xs = .ok rels ↔
      (xs.flatMap remappedRels).length ≤ dvmMaxRels ∧
      (∀ x ∈ xs, ∀ r ∈ x.1.2.rels, ∃ k, newSym x.2 r = some k) ∧
      rels = xs.flatMap remappedRels := by
  suffices ∀ acc : List DvmRel, acc.length ≤ dvmMaxRels →
      (xs.foldlM (fun rels x => x.1.2.rels.foldlM (remapRel x.1.1 x.2) rels) acc = .ok rels ↔
        acc.length + (xs.flatMap remappedRels).length ≤ dvmMaxRels ∧
        (∀ x ∈ xs, ∀ r ∈ x.1.2.rels, ∃ k, newSym x.2 r = some k) ∧
        rels = acc ++ xs.flatMap remappedRels) by
    simpa [remapPass] using this [] (Nat.zero_le _)
  induction xs with
  | nil => intro acc hacc; simp [pure, Except.pure, eq_comm, hacc]
  | cons x xs ih =>
    intro acc hacc
    have hlen : (remappedRels x).length = x.1.2.rels.length := by simp [remappedRels]
    rw [foldlM_cons_ok_iff, List.flatMap_cons, List.length_append, hlen, List.forall_mem_cons]
    constructor
    · rintro ⟨acc₁, h₁, h₂⟩
      obtain ⟨hroom, hall, rfl⟩ := foldlM_remapRel_ok_iff.mp h₁
      have hacc₁ : acc.length + x.1.2.rels.length ≤ dvmMaxRels := by
        by_cases hnil : x.1.2.rels = []
        · simpa [hnil] using hacc
        · exact hroom hnil
      obtain ⟨hroom', hall', rfl⟩ := (ih _ (by simpa using hacc₁)).mp h₂
      refine ⟨?_, ⟨hall, hall'⟩, by simp [remappedRels]⟩
      simp only [List.length_append, List.length_map] at hroom'
      omega
    · rintro ⟨hroom, ⟨hall, hall'⟩, rfl⟩
      refine ⟨acc ++ remappedRels x,
        foldlM_remapRel_ok_iff.mpr ⟨fun _ => by omega, hall, rfl⟩,
        (ih _ (by rw [List.length_append, hlen]; omega)).mpr ⟨?_, hall', by simp⟩⟩
      rw [List.length_append, hlen]
      omega

/-! ## 5. The whole link -/

/-- A link succeeds exactly when its three passes do. -/
theorem dvmLink_ok_iff {objs : List DvmProg} {entrySym : Option CStr} {out : DvmProg} :
    dvmLink objs entrySym = .ok out ↔
      ∃ ms defMaps maps rels, definePass (withBases {} objs) = .ok (ms, defMaps) ∧
        resolvePass ms (objs.zip defMaps) = .ok maps ∧
        remapPass ((withBases {} objs).zip maps) = .ok rels ∧
        out = linkOutput objs entrySym ms rels := by
  constructor
  · intro h
    unfold dvmLink at h
    cases h₃ : definePass (withBases {} objs) with
    | error e => simp [h₃] at h
    | ok x =>
      simp only [h₃] at h
      cases h₄ : resolvePass x.1 (objs.zip x.2) with
      | error e => simp [h₄] at h
      | ok maps =>
        simp only [h₄] at h
        cases h₅ : remapPass ((withBases {} objs).zip maps) with
        | error e => simp [h₅] at h
        | ok rels =>
          simp only [h₅, Except.ok.injEq] at h
          exact ⟨x.1, x.2, maps, rels, rfl, h₄, h₅, h.symm⟩
  · rintro ⟨ms, defMaps, maps, rels, h₃, h₄, h₅, rfl⟩
    simp only [dvmLink, h₃, h₄, h₅]

/-- The objects with their bases and maps, as pass 5 visits them. -/
theorem getElem?_zip_withBases {objs : List DvmProg} {maps : List SymMap} {i : Nat}
    {o : DvmProg} {map : SymMap} (hi : objs[i]? = some o) (hm : maps[i]? = some map) :
    ((withBases {} objs).zip maps)[i]? = some ((baseOf objs i, o), map) := by
  rw [List.getElem?_zip_eq_some]
  exact ⟨getElem?_withBases hi, hm⟩

theorem map_zip_withBases {objs : List DvmProg} {maps : List SymMap}
    (h : maps.length = objs.length) :
    ((withBases {} objs).zip maps).map (fun x => x.1.2) = objs := by
  have hfst : ((withBases {} objs).zip maps).map Prod.fst = withBases {} objs :=
    List.map_fst_zip (by rw [length_withBases, h])
  calc ((withBases {} objs).zip maps).map (fun x => x.1.2)
      = (((withBases {} objs).zip maps).map Prod.fst).map Prod.snd := by
        rw [List.map_map]
        rfl
    _ = objs := by rw [hfst, map_snd_withBases]

/-- A relocation that is mapped has a symbol, and is mapped to its merged index. -/
theorem mergedIndex_of_newSym {objs : List DvmProg} {ms : MergedSyms} {defMaps maps : List SymMap}
    (h₃ : definePass (withBases {} objs) = .ok (ms, defMaps))
    (h₄ : resolvePass ms (objs.zip defMaps) = .ok maps) {i k : Nat} {o : DvmProg} {map : SymMap}
    (hi : objs[i]? = some o) (hmap : maps[i]? = some map) {r : DvmRel}
    (hk : newSym map r = some k) :
    ∃ s, o.syms[r.symIndex.toNat]? = some s ∧ mergedIndex objs i r.symIndex.toNat s = some k := by
  obtain ⟨map', hmap', hlen, hent⟩ := resolvePass_ok h₃ h₄ i o hi
  rw [hmap, Option.some.injEq] at hmap'
  subst hmap'
  -- the relocation's index lies in the map, hence in the object's symbol table
  have hlt : r.symIndex.toNat < o.syms.length := by
    rw [← hlen]
    by_contra hge
    simp [newSym, List.getElem?_eq_none (Nat.le_of_not_lt hge)] at hk
  obtain ⟨s, hs⟩ : ∃ s, o.syms[r.symIndex.toNat]? = some s := ⟨_, List.getElem?_eq_getElem hlt⟩
  exact ⟨s, hs, by simpa [newSym, (hent _ s hs).1] using hk⟩

/-- What a successful link returns, in terms of the inputs. -/
theorem dvmLink_ok {objs : List DvmProg} {entrySym : Option CStr} {out : DvmProg}
    (h : dvmLink objs entrySym = .ok out) :
    out.syms = (places (linkSyms objs)).take dvmMaxSyms ∧
    out.code = objs.flatMap DvmProg.code ∧
    ∀ i o j r, objs[i]? = some o → o.rels[j]? = some r →
      ∃ s k, o.syms[r.symIndex.toNat]? = some s ∧
        mergedIndex objs i r.symIndex.toNat s = some k ∧
        out.rels[relPos objs i j]? = some (remap (baseOf objs i) k r) := by
  obtain ⟨ms, defMaps, maps, rels, h₃, h₄, h₅, rfl⟩ := dvmLink_ok_iff.mp h
  refine ⟨(definePass_ok h₃).1, rfl, ?_⟩
  intro i o j r hi hj
  obtain ⟨-, hmapped, hrels⟩ := remapPass_ok_iff.mp h₅
  have hlen : maps.length = objs.length := by
    rw [length_of_each h₄, List.length_zip, length_of_scan h₃, length_withBases, Nat.min_self]
  obtain ⟨map, hmap, -⟩ := resolvePass_ok h₃ h₄ i o hi
  have hx := getElem?_zip_withBases hi hmap
  obtain ⟨k, hk⟩ := hmapped _ (List.mem_of_getElem? hx) r (List.mem_of_getElem? hj)
  obtain ⟨s, hs, hk'⟩ := mergedIndex_of_newSym h₃ h₄ hi hmap hk
  refine ⟨s, k, hs, hk', ?_⟩
  have hpos : relPos objs i j = start remappedRels ((withBases {} objs).zip maps) i + j := by
    have hparts : ∀ x : (ObjBases × DvmProg) × SymMap,
        x.1.2.rels.length = (remappedRels x).length := by simp [remappedRels]
    have hstart := start_map hparts ((withBases {} objs).zip maps) i
    rw [map_zip_withBases hlen] at hstart
    rw [relPos, hstart]
  have hrem : (remappedRels ((baseOf objs i, o), map))[j]?
      = some (remap (baseOf objs i) ((newSym map r).getD 0) r) := by
    simp [remappedRels, hj]
  show rels[relPos objs i j]? = _
  rw [hpos, hrels, getElem?_flatMap hx (List.getElem?_eq_some_iff.mp hrem).1, hrem, hk]
  rfl

/-- The output has as many relocations as the inputs. -/
theorem length_rels_dvmLink {objs : List DvmProg} {entrySym : Option CStr} {out : DvmProg}
    (h : dvmLink objs entrySym = .ok out) :
    out.rels.length = (objs.flatMap DvmProg.rels).length := by
  obtain ⟨ms, defMaps, maps, rels, h₃, h₄, h₅, rfl⟩ := dvmLink_ok_iff.mp h
  obtain ⟨-, -, hrels⟩ := remapPass_ok_iff.mp h₅
  have hlen : maps.length = objs.length := by
    rw [length_of_each h₄, List.length_zip, length_of_scan h₃, length_withBases, Nat.min_self]
  show rels.length = _
  conv_rhs => rw [← map_zip_withBases hlen, List.flatMap_map]
  rw [hrels, List.length_flatMap, List.length_flatMap]
  exact congrArg List.sum (List.map_congr_left fun x _ => List.length_map _)

/-- Every output relocation is one of an input. -/
theorem dvmLink_mem_rels {objs : List DvmProg} {entrySym : Option CStr} {out : DvmProg}
    (h : dvmLink objs entrySym = .ok out) {r' : DvmRel} (hr' : r' ∈ out.rels) :
    ∃ i o r s k, objs[i]? = some o ∧ r ∈ o.rels ∧ o.syms[r.symIndex.toNat]? = some s ∧
      mergedIndex objs i r.symIndex.toNat s = some k ∧ r' = remap (baseOf objs i) k r := by
  obtain ⟨ms, defMaps, maps, rels, h₃, h₄, h₅, rfl⟩ := dvmLink_ok_iff.mp h
  obtain ⟨-, hmapped, hrels⟩ := remapPass_ok_iff.mp h₅
  obtain ⟨x, hx, hmem⟩ := List.mem_flatMap.mp (hrels ▸ hr' : r' ∈ _)
  obtain ⟨r, hr, rfl⟩ := List.mem_map.mp hmem
  obtain ⟨k, hk⟩ := hmapped x hx r hr
  obtain ⟨i, hi⟩ := List.mem_iff_getElem?.mp hx
  obtain ⟨hbase, hmap⟩ := List.getElem?_zip_eq_some.mp hi
  have hobj : objs[i]? = some x.1.2 := by
    rw [← map_snd_withBases {} objs, List.getElem?_map, hbase]
    rfl
  rw [getElem?_withBases hobj, Option.some.injEq] at hbase
  obtain ⟨s, hs, hq⟩ := mergedIndex_of_newSym h₃ h₄ hobj hmap hk
  exact ⟨i, x.1.2, r, s, k, hobj, hr, hs, hq, by rw [← hbase, hk]; rfl⟩

end Dvm
