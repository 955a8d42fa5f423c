/-
# Tables searched from the front

A table is a list of entries; `find key k t` is the first entry whose key is `k`, with its
position.  It is the `for`/`strcmp` loop by which a C program looks a name up in an array.
Entries are added at the end and rewritten in place; the lemmas say how the search sees either.
-/
import Mathlib.Data.List.Basic
import Mathlib.Logic.Function.Basic

namespace Table

/-- What `List.lookup` finds is in the list. -/
theorem mem_of_lookup {κ β : Type} [BEq κ] [LawfulBEq κ] {t : List (κ × β)} {k : κ} {b : β}
    (h : t.lookup k = some b) : (k, b) ∈ t := by
  obtain ⟨l₁, l₂, rfl, -⟩ := List.lookup_eq_some_iff.mp h
  exact List.mem_append_right _ (.head _)

variable {α κ : Type} [DecidableEq κ] {key : α → κ}

/-- The first entry with key `k`, and where it stands. -/
def find (key : α → κ) (k : κ) : List α → Option (Nat × α)
  | [] => none
  | a :: t => if key a = k then some (0, a) else (find key k t).map fun x => (x.1 + 1, x.2)

@[simp] theorem find_nil (k : κ) : find key k [] = none := rfl

theorem find_cons_self (a : α) (t : List α) : find key (key a) (a :: t) = some (0, a) :=
  if_pos rfl

theorem find_cons_ne {a : α} {k : κ} (h : key a ≠ k) (t : List α) :
    find key k (a :: t) = (find key k t).map fun x => (x.1 + 1, x.2) :=
  if_neg h

/-- The search fails exactly when no entry has the key. -/
theorem find_eq_none_iff {k : κ} {t : List α} : find key k t = none ↔ ∀ a ∈ t, key a ≠ k := by
  induction t with
  | nil => simp
  | cons a t ih =>
    by_cases h : key a = k
    · simp [find, h]
    · simp [find_cons_ne h, ih, h]

/-- A successful search found an entry of the table with the key, and the first such. -/
theorem find_eq_some_iff {k : κ} {t : List α} {i : Nat} {a : α} :
    find key k t = some (i, a) ↔
      t[i]? = some a ∧ key a = k ∧ ∀ j, j < i → ∀ b, t[j]? = some b → key b ≠ k := by
  induction t generalizing i with
  | nil => simp
  | cons c t ih =>
    by_cases h : key c = k
    · simp only [find, if_pos h, Option.some.injEq, Prod.mk.injEq]
      constructor
      · rintro ⟨rfl, rfl⟩
        exact ⟨rfl, h, fun j hj => absurd hj (Nat.not_lt_zero j)⟩
      · rintro ⟨hget, _, hfirst⟩
        cases i with
        | zero => simpa using hget
        | succ i => exact absurd h (hfirst 0 (Nat.succ_pos i) c rfl)
    · rw [find_cons_ne h, Option.map_eq_some_iff]
      constructor
      · rintro ⟨⟨j, b⟩, hfind, heq⟩
        simp only [Prod.mk.injEq] at heq
        obtain ⟨rfl, rfl⟩ := heq
        obtain ⟨hget, hkey, hfirst⟩ := ih.mp hfind
        refine ⟨by simpa using hget, hkey, ?_⟩
        intro l hl d hd
        cases l with
        | zero => simp only [List.getElem?_cons_zero, Option.some.injEq] at hd; exact hd ▸ h
        | succ l => exact hfirst l (by omega) d (by simpa using hd)
      · rintro ⟨hget, hkey, hfirst⟩
        cases i with
        | zero =>
          simp only [List.getElem?_cons_zero, Option.some.injEq] at hget
          exact absurd (hget ▸ hkey) h
        | succ i =>
          refine ⟨(i, a), ih.mpr ⟨by simpa using hget, hkey, fun l hl d hd => ?_⟩, rfl⟩
          exact hfirst (l + 1) (by omega) d (by simpa using hd)

theorem getElem?_of_find {k : κ} {t : List α} {i : Nat} {a : α}
    (h : find key k t = some (i, a)) : t[i]? = some a := (find_eq_some_iff.mp h).1

theorem key_of_find {k : κ} {t : List α} {i : Nat} {a : α}
    (h : find key k t = some (i, a)) : key a = k := (find_eq_some_iff.mp h).2.1

theorem lt_length_of_find {k : κ} {t : List α} {i : Nat} {a : α}
    (h : find key k t = some (i, a)) : i < t.length :=
  (List.getElem?_eq_some_iff.mp (getElem?_of_find h)).1

/-- A key that occurs is found. -/
theorem exists_find {k : κ} {t : List α} {a : α} (ha : a ∈ t) (hk : key a = k) :
    ∃ i b, find key k t = some (i, b) := by
  cases h : find key k t with
  | none => exact absurd hk (find_eq_none_iff.mp h a ha)
  | some x => exact ⟨x.1, x.2, rfl⟩

theorem exists_find_iff {k : κ} {t : List α} :
    (∃ i a, find key k t = some (i, a)) ↔ ∃ a ∈ t, key a = k := by
  constructor
  · rintro ⟨i, a, hf⟩
    exact ⟨a, List.mem_of_getElem? (getElem?_of_find hf), key_of_find hf⟩
  · rintro ⟨a, ha, hk⟩
    exact exists_find ha hk

/-! ## Adding at the end -/

theorem find_append_of_some {k : κ} {t : List α} {x : Nat × α}
    (h : find key k t = some x) (u : List α) : find key k (t ++ u) = some x := by
  obtain ⟨hget, hkey, hfirst⟩ := find_eq_some_iff.mp (show find key k t = some (x.1, x.2) from h)
  have hlt := lt_length_of_find (show find key k t = some (x.1, x.2) from h)
  refine find_eq_some_iff.mpr ⟨?_, hkey, fun j hj b hb => ?_⟩
  · rw [List.getElem?_append_left hlt, hget]
  · rw [List.getElem?_append_left (by omega)] at hb
    exact hfirst j hj b hb

theorem find_append_of_none {k : κ} {t : List α} (h : find key k t = none) (u : List α) :
    find key k (t ++ u) = (find key k u).map fun x => (x.1 + t.length, x.2) := by
  induction t with
  | nil => simp
  | cons a t ih =>
    have hall := find_eq_none_iff.mp h
    have hne : key a ≠ k := hall a List.mem_cons_self
    have ht : find key k t = none :=
      find_eq_none_iff.mpr fun b hb => hall b (List.mem_cons_of_mem _ hb)
    rw [List.cons_append, find_cons_ne hne, ih ht, Option.map_map]
    rfl

/-- A new key is found where it was added. -/
theorem find_append_new {a : α} {t : List α} (h : find key (key a) t = none) :
    find key (key a) (t ++ [a]) = some (t.length, a) := by
  rw [find_append_of_none h, find_cons_self]
  simp

/-- Adding an entry does not disturb the search for another key. -/
theorem find_append_ne {a : α} {k : κ} (h : key a ≠ k) (t : List α) :
    find key k (t ++ [a]) = find key k t := by
  cases hf : find key k t with
  | none => rw [find_append_of_none hf, find_cons_ne h]; rfl
  | some x => exact find_append_of_some hf _

/-- Searching the first `n` entries only: what the whole table gives, if it lies there. -/
theorem find_take (k : κ) (t : List α) (n : Nat) :
    find key k (t.take n) = (find key k t).filter fun x => x.1 < n := by
  induction t generalizing n with
  | nil => simp
  | cons a t ih =>
    cases n with
    | zero => cases find key k (a :: t) <;> simp [Option.filter]
    | succ n =>
      by_cases h : key a = k
      · simp [find, h, Option.filter]
      · rw [List.take_succ_cons, find_cons_ne h, find_cons_ne h, ih]
        cases find key k t with
        | none => rfl
        | some x => by_cases hx : x.1 < n <;> simp [Option.filter, hx]

/-! ## Rewriting in place -/

/-- Rewriting an entry without changing its key: the search finds the same places, with the
new contents. -/
theorem find_set {t : List α} {i : Nat} {a b : α} (hi : t[i]? = some a) (hab : key b = key a)
    (k : κ) :
    find key k (t.set i b)
      = (find key k t).map fun x => (x.1, if x.1 = i then b else x.2) := by
  induction t generalizing i with
  | nil => simp at hi
  | cons c t ih =>
    cases i with
    | zero =>
      simp only [List.getElem?_cons_zero, Option.some.injEq] at hi
      subst hi
      by_cases h : key c = k
      · have hb : key b = k := hab.trans h
        simp [find, h, hb]
      · have hb : ¬ key b = k := fun e => h (hab.symm.trans e)
        rw [List.set_cons_zero, find_cons_ne h, find_cons_ne hb, Option.map_map]
        congr 1
    | succ i =>
      rw [List.set_cons_succ]
      by_cases h : key c = k
      · simp [find, h]
      · rw [find_cons_ne h, find_cons_ne h, ih (by simpa using hi), Option.map_map,
          Option.map_map]
        congr 1
        funext x
        simp

omit [DecidableEq κ] in
theorem map_key_set {t : List α} {i : Nat} {a b : α} (hi : t[i]? = some a)
    (hab : key b = key a) : (t.set i b).map key = t.map key := by
  rw [List.map_set, hab]
  have hlt := (List.getElem?_eq_some_iff.mp hi).1
  have hget : (t.map key)[i]? = some (key a) := by rw [List.getElem?_map, hi]; rfl
  obtain ⟨hlt', hget'⟩ := List.getElem?_eq_some_iff.mp hget
  rw [← hget', List.set_getElem_self]

/-! ## What the search sees of an entry -/

section View

variable {β : Type} {f : α → β} {d : β}

/-- `f` of the entry with key `k`, or `d` if there is none. -/
def view (key : α → κ) (f : α → β) (d : β) (t : List α) (k : κ) : β :=
  match find key k t with
  | none => d
  | some (_, a) => f a

theorem view_of_find {t : List α} {k : κ} {i : Nat} {a : α} (h : find key k t = some (i, a)) :
    view key f d t k = f a := by
  rw [view, h]

theorem view_of_none {t : List α} {k : κ} (h : find key k t = none) : view key f d t k = d := by
  rw [view, h]

/-- Rewriting the entry of a key changes what is seen of this key only. -/
theorem view_set {t : List α} {k : κ} {i : Nat} {a b : α} (h : find key k t = some (i, a))
    (hb : key b = k) : view key f d (t.set i b) = Function.update (view key f d t) k (f b) := by
  have hi := getElem?_of_find h
  have hset := find_set hi (hb.trans (key_of_find h).symm)
  funext k'
  rcases Decidable.em (k' = k) with rfl | hk
  · rw [Function.update_self, view, hset, h]
    simp
  · rw [Function.update_of_ne hk, view, hset, view]
    cases hf : find key k' t with
    | none => rfl
    | some x =>
      obtain ⟨j, c⟩ := x
      have hj : j ≠ i := by
        rintro rfl
        have heq : c = a := Option.some.inj ((getElem?_of_find hf).symm.trans hi)
        exact hk ((key_of_find hf).symm.trans (heq ▸ key_of_find h))
      simp [hj]

/-- Adding an entry changes what is seen of its key only. -/
theorem view_append {t : List α} {a : α} (h : find key (key a) t = none) :
    view key f d (t ++ [a]) = Function.update (view key f d t) (key a) (f a) := by
  funext k
  rcases Decidable.em (k = key a) with rfl | hk
  · rw [Function.update_self, view_of_find (find_append_new h)]
  · rw [Function.update_of_ne hk, view, find_append_ne (Ne.symm hk), view]

end View

/-! ## Tables that grow -/

/-- `t` has become `t'`: entries kept their places and keys and changed as `R` allows. -/
def Evolves (key : α → κ) (R : α → α → Prop) (t t' : List α) : Prop :=
  ∀ (i : Nat) (a : α), t[i]? = some a → ∃ b, t'[i]? = some b ∧ key b = key a ∧ R a b

variable {R : α → α → Prop} {t t' t'' : List α}

omit [DecidableEq κ] in
theorem Evolves.refl (hR : ∀ a, R a a) (t : List α) : Evolves key R t t :=
  fun _ a h => ⟨a, h, rfl, hR a⟩

omit [DecidableEq κ] in
theorem Evolves.append (hR : ∀ a, R a a) (t u : List α) : Evolves key R t (t ++ u) := by
  intro i a ha
  have hlt := (List.getElem?_eq_some_iff.mp ha).1
  exact ⟨a, by rw [List.getElem?_append_left hlt, ha], rfl, hR a⟩

omit [DecidableEq κ] in
theorem Evolves.set (hR : ∀ a, R a a) {i : Nat} {a b : α} (hi : t[i]? = some a)
    (hab : key b = key a) (h : R a b) : Evolves key R t (t.set i b) := by
  intro j c hc
  by_cases hij : i = j
  · subst hij
    rw [hi, Option.some.injEq] at hc
    subst hc
    have hlt := (List.getElem?_eq_some_iff.mp hi).1
    exact ⟨b, List.getElem?_set_self hlt, hab, h⟩
  · exact ⟨c, by rw [List.getElem?_set_ne hij, hc], rfl, hR c⟩

/-! ## Tables without duplicate keys -/

/-- Without duplicate keys the search finds every entry. -/
theorem find_of_nodup {t : List α} (h : (t.map key).Nodup) {i : Nat} {a : α}
    (hi : t[i]? = some a) : find key (key a) t = some (i, a) := by
  refine find_eq_some_iff.mpr ⟨hi, rfl, ?_⟩
  intro j hj b hb heq
  have hki : (t.map key)[i]? = some (key a) := by rw [List.getElem?_map, hi]; rfl
  have hkj : (t.map key)[j]? = some (key a) := by rw [List.getElem?_map, hb, ← heq]; rfl
  have hlt := (List.getElem?_eq_some_iff.mp hkj).1
  exact absurd ((List.getElem?_inj hlt h).mp (hkj.trans hki.symm)) (Nat.ne_of_lt hj)

theorem nodup_append_new {t : List α} {a : α} (h : (t.map key).Nodup)
    (hnew : find key (key a) t = none) : ((t ++ [a]).map key).Nodup := by
  rw [List.map_append, List.nodup_append]
  refine ⟨h, by simp, ?_⟩
  intro k hk k' hk'
  rw [List.map_singleton, List.mem_singleton] at hk'
  obtain ⟨b, hb, rfl⟩ := List.mem_map.mp hk
  rw [hk']
  exact find_eq_none_iff.mp hnew b hb

/-! ## Leaving entries out -/

section Filter

variable {t : List α} {P : α → Bool} {i : Nat} {a : α}

omit [DecidableEq κ] in
/-- An entry that stays moves to the number of entries before it that stay. -/
theorem getElem?_filter_countP (hi : t[i]? = some a) (ha : P a) :
    (t.filter P)[(t.take i).countP P]? = some a := by
  induction t generalizing i with
  | nil => cases hi
  | cons b t ih =>
    cases i with
    | zero =>
      rw [List.getElem?_cons_zero, Option.some.injEq] at hi
      subst hi
      rw [List.filter_cons_of_pos ha]
      rfl
    | succ i =>
      have htail := ih (by simpa using hi)
      rw [List.take_succ_cons]
      cases hb : P b with
      | true =>
        rwa [List.filter_cons_of_pos hb, List.countP_cons_of_pos hb, List.getElem?_cons_succ]
      | false =>
        have hb' : ¬ P b = true := by simp [hb]
        rwa [List.filter_cons_of_neg hb', List.countP_cons_of_neg hb']

omit [DecidableEq κ] in
/-- Leaving entries out keeps the index of an entry that stays exactly if all entries before it
stay, too. -/
theorem filter_keeps_index_iff (hnodup : (t.map key).Nodup) (hi : t[i]? = some a) (ha : P a) :
    (∃ b, (t.filter P)[i]? = some b ∧ key b = key a) ↔
      ∀ (j : Nat) (b : α), j < i → t[j]? = some b → P b := by
  have hcount := getElem?_filter_countP hi ha
  have hlen : (t.take i).length = i := by
    rw [List.length_take]
    have hlt := (List.getElem?_eq_some_iff.mp hi).1
    omega
  have hall : (t.take i).countP P = i ↔
      ∀ (j : Nat) (b : α), j < i → t[j]? = some b → P b := by
    have hiff := @List.countP_eq_length _ (t.take i) P
    rw [hlen] at hiff
    rw [hiff]
    constructor
    · intro h j b hj hb
      exact h b (List.mem_of_getElem? (by rwa [List.getElem?_take_of_lt hj]))
    · intro h b hb
      obtain ⟨j, hjb⟩ := List.getElem?_of_mem hb
      have hj : j < i := hlen ▸ (List.getElem?_eq_some_iff.mp hjb).1
      rw [List.getElem?_take_of_lt hj] at hjb
      exact h j b hj hjb
  rw [← hall]
  constructor
  · rintro ⟨b, hb, hkey⟩
    have hsub : ((t.filter P).map key).Nodup := hnodup.sublist (List.filter_sublist.map key)
    have hkb : ((t.filter P).map key)[i]? = some (key a) := by
      rw [List.getElem?_map, hb, ← hkey]
      rfl
    have hka : ((t.filter P).map key)[(t.take i).countP P]? = some (key a) := by
      rw [List.getElem?_map, hcount]
      rfl
    have hlt := (List.getElem?_eq_some_iff.mp hka).1
    exact (List.getElem?_inj hlt hsub).mp (hka.trans hkb.symm)
  · intro h
    exact ⟨a, h ▸ hcount, rfl⟩

end Filter

end Table
