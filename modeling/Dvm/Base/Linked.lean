/-
# Singly linked lists in memory

A list of nodes linked by their `next` fields: a head variable and, for each node that is
allocated, what its `next` field holds.  Reading or writing the field of a node that is not
allocated fails.  `Seg` says which nodes are reached from a pointer before NULL; it is determined by
the memory (`Seg.unique`), without duplicates (`Seg.nodup`) and depends on the nodes it goes through
only (`Seg.frame`).

A node is looked for by walking along the places that hold the pointers (`walk`), so that it can be
unlinked wherever it is (`walk_found`, `seg_unlink`).
-/
import Mathlib.Data.List.Nodup
import Mathlib.Logic.Function.Basic

namespace Linked

variable {α : Type}

/-! ## 1. Memory -/

/-- What the `next` fields hold, `some none` being NULL; `none` where there is no node. -/
abbrev Heap (α : Type) := α → Option (Option α)

structure Chain (α : Type) where
  head : Option α
  heap : Heap α

/-- A place that holds a pointer to a node. -/
inductive Slot (α : Type) where
  | head
  | next (a : α)
  deriving DecidableEq, Repr

def Chain.read (c : Chain α) : Slot α → Option (Option α)
  | .head => some c.head
  | .next a => c.heap a

section Ops

variable [DecidableEq α]

def Chain.write (c : Chain α) : Slot α → Option α → Option (Chain α)
  | .head, v => some { c with head := v }
  | .next a, v =>
    match c.heap a with
    | none => none
    | some _ => some { c with heap := Function.update c.heap a (some v) }

/-- The place that holds the pointer to `t`, or the NULL at the end, looked for from `p` on. -/
def Chain.walk (c : Chain α) (t : α) : Nat → Slot α → Option (Slot α)
  | 0, _ => none
  | fuel + 1, p =>
    match c.read p with
    | none => none
    | some none => some p
    | some (some a) => if a = t then some p else c.walk t fuel (.next a)

end Ops

/-! ## 2. Segments -/

/-- The nodes from a pointer on, up to NULL. -/
inductive Seg (heap : Heap α) : Option α → List α → Prop
  | nil : Seg heap none []
  | cons {a : α} {q : Option α} {l : List α} : heap a = some q → Seg heap q l →
      Seg heap (some a) (a :: l)

namespace Seg

variable {heap heap' : Heap α} {p : Option α} {l l' l₁ l₂ : List α} {a : α}

theorem eq_nil (h : Seg heap none l) : l = [] := by
  cases h with
  | nil => rfl

theorem cons_inv (h : Seg heap p (a :: l)) : p = some a ∧ ∃ q, heap a = some q ∧ Seg heap q l := by
  cases h with
  | cons ha hl => exact ⟨rfl, _, ha, hl⟩

theorem unique (h : Seg heap p l) (h' : Seg heap p l') : l = l' := by
  induction h generalizing l' with
  | nil => exact h'.eq_nil.symm
  | cons ha _ ih =>
    cases h' with
    | cons ha' hl' =>
      rw [ha, Option.some.injEq] at ha'
      exact congrArg _ (ih (ha' ▸ hl'))

/-- The second part of a segment is one. -/
theorem drop (h : Seg heap p (l₁ ++ a :: l₂)) : Seg heap (some a) (a :: l₂) := by
  induction l₁ generalizing p with
  | nil =>
    obtain ⟨rfl, -⟩ := cons_inv h
    exact h
  | cons b l₁ ih =>
    obtain ⟨-, q, -, hl⟩ := cons_inv h
    exact ih hl

theorem allocated (h : Seg heap p l) (ha : a ∈ l) : ∃ q, heap a = some q := by
  obtain ⟨l₁, l₂, rfl⟩ := List.append_of_mem ha
  obtain ⟨-, q, hq, -⟩ := cons_inv h.drop
  exact ⟨q, hq⟩

/-- A node that came twice would be followed by lists of different lengths. -/
theorem nodup (h : Seg heap p l) : l.Nodup := by
  induction h with
  | nil => exact List.nodup_nil
  | @cons a q l ha hl ih =>
    refine List.nodup_cons.mpr ⟨fun hmem => ?_, ih⟩
    obtain ⟨l₁, l₂, rfl⟩ := List.append_of_mem hmem
    have heq : a :: (l₁ ++ a :: l₂) = a :: l₂ := (Seg.cons ha hl).unique hl.drop
    have hlen := congrArg List.length heq
    simp at hlen
    omega

theorem frame (h : Seg heap p l) (heq : ∀ a ∈ l, heap' a = heap a) : Seg heap' p l := by
  induction h with
  | nil => exact .nil
  | cons ha _ ih =>
    obtain ⟨hhead, htail⟩ := List.forall_mem_cons.mp heq
    exact .cons (hhead.trans ha) (ih htail)

theorem frame_update [DecidableEq α] {v : Option (Option α)} (h : Seg heap p l) (ha : a ∉ l) :
    Seg (Function.update heap a v) p l :=
  h.frame fun b hb => Function.update_of_ne (fun heq : b = a => ha (heq ▸ hb)) _ _

end Seg

/-! ## 3. Walking -/

variable [DecidableEq α] {c c' : Chain α} {p : Slot α} {q : Option α} {t : α} {l l₁ l₂ : List α}

/-- The place behind a list of nodes. -/
def lastSlot : Slot α → List α → Slot α
  | p, [] => p
  | _, a :: l => lastSlot (.next a) l

omit [DecidableEq α] in
/-- It holds what comes next. -/
theorem read_lastSlot {heap : Heap α} (hread : c.read p = some q) (hheap : c.heap = heap)
    (h : Seg heap q (l₁ ++ l₂)) :
    ∃ q', c.read (lastSlot p l₁) = some q' ∧ Seg heap q' l₂ := by
  induction l₁ generalizing p q with
  | nil => exact ⟨q, hread, h⟩
  | cons a l₁ ih =>
    obtain ⟨-, q', ha, hl⟩ := h.cons_inv
    exact @ih (.next a) q' ((congrFun hheap a).trans ha) hl

theorem walk_steps (hread : c.read p = some q) (h : Seg c.heap q (l₁ ++ l₂)) (ht : t ∉ l₁)
    (fuel : Nat) : c.walk t (l₁.length + fuel) p = c.walk t fuel (lastSlot p l₁) := by
  induction l₁ generalizing p q with
  | nil => rw [List.length_nil, Nat.zero_add, lastSlot]
  | cons a l₁ ih =>
    obtain ⟨rfl, q', ha, hl⟩ := h.cons_inv
    have hne : a ≠ t := by
      rintro rfl
      exact ht List.mem_cons_self
    rw [List.length_cons, Nat.add_right_comm, Chain.walk, hread]
    simp only [if_neg hne]
    exact @ih (.next a) q' ha hl fun hmem => ht (List.mem_cons_of_mem a hmem)

/-- A walk that ends within some fuel ends there with more. -/
theorem walk_mono {p' : Slot α} {fuel fuel' : Nat} (h : c.walk t fuel p = some p')
    (hle : fuel ≤ fuel') : c.walk t fuel' p = some p' := by
  induction fuel generalizing p fuel' with
  | zero => cases h
  | succ fuel ih =>
    obtain ⟨n, rfl⟩ : ∃ n, fuel' = n + 1 := ⟨fuel' - 1, by omega⟩
    rw [Chain.walk] at h ⊢
    cases hread : c.read p with
    | none =>
      rw [hread] at h
      cases h
    | some q =>
      rw [hread] at h
      cases q with
      | none => exact h
      | some a =>
        by_cases ha : a = t
        · simpa [ha] using h
        · simp only [if_neg ha] at h ⊢
          exact ih h (by omega)

/-- A node of the list is found, and the walk ends at the place that points to it. -/
theorem walk_found (hread : c.read p = some q) (h : Seg c.heap q (l₁ ++ t :: l₂)) {fuel : Nat}
    (hfuel : l₁.length < fuel) :
    c.walk t fuel p = some (lastSlot p l₁) ∧ c.read (lastSlot p l₁) = some (some t) := by
  have ht : t ∉ l₁ := fun hmem =>
    (List.disjoint_of_nodup_append h.nodup) hmem List.mem_cons_self
  obtain ⟨q', hslot, hseg⟩ := read_lastSlot hread rfl h
  obtain ⟨rfl, -⟩ := hseg.cons_inv
  obtain ⟨n, rfl⟩ : ∃ n, fuel = l₁.length + (n + 1) := ⟨fuel - l₁.length - 1, by omega⟩
  refine ⟨?_, hslot⟩
  rw [walk_steps hread h ht, Chain.walk, hslot]
  simp

/-- Without the node the walk ends at NULL. -/
theorem walk_missing (hread : c.read p = some q) (h : Seg c.heap q l) (ht : t ∉ l) {fuel : Nat}
    (hfuel : l.length < fuel) :
    c.walk t fuel p = some (lastSlot p l) ∧ c.read (lastSlot p l) = some none := by
  have h' : Seg c.heap q (l ++ []) := by rwa [List.append_nil]
  obtain ⟨q', hslot, hseg⟩ := read_lastSlot hread rfl h'
  cases hseg
  obtain ⟨n, rfl⟩ : ∃ n, fuel = l.length + (n + 1) := ⟨fuel - l.length - 1, by omega⟩
  refine ⟨?_, hslot⟩
  rw [walk_steps hread h' ht, Chain.walk, hslot]

/-! ## 4. Writing -/

theorem write_ok {v : Option α} (hread : c.read p = some q) : ∃ c', c.write p v = some c' := by
  cases p with
  | head => exact ⟨_, rfl⟩
  | next a =>
    have ha : c.heap a = some q := hread
    exact ⟨_, by rw [Chain.write, ha]⟩

theorem read_write_self {v : Option α} (h : c.write p v = some c') : c'.read p = some v := by
  cases p with
  | head =>
    cases h
    rfl
  | next a =>
    cases ha : c.heap a with
    | none => simp [Chain.write, ha] at h
    | some q =>
      simp only [Chain.write, ha, Option.some.injEq] at h
      subst h
      exact Function.update_self ..

theorem read_write_ne {v : Option α} {p' : Slot α} (h : c.write p v = some c') (hp : p' ≠ p) :
    c'.read p' = c.read p' := by
  cases p with
  | head =>
    cases h
    cases p' with
    | head => exact absurd rfl hp
    | next a => rfl
  | next a =>
    cases ha : c.heap a with
    | none => simp [Chain.write, ha] at h
    | some q =>
      simp only [Chain.write, ha, Option.some.injEq] at h
      subst h
      cases p' with
      | head => rfl
      | next b => exact Function.update_of_ne (fun heq => hp (congrArg Slot.next heq)) _ _

/-- Writing allocates nothing. -/
theorem write_allocated {v : Option α} (h : c.write p v = some c') (a : α) :
    (c'.heap a).isSome = (c.heap a).isSome := by
  cases p with
  | head =>
    cases h
    rfl
  | next b =>
    cases hb : c.heap b with
    | none => simp [Chain.write, hb] at h
    | some q =>
      simp only [Chain.write, hb, Option.some.injEq] at h
      subst h
      by_cases ha : a = b
      · subst ha
        simp [hb]
      · simp [Function.update_of_ne ha]

/-- Writing over the `next` field of no node of a segment. -/
theorem seg_write {v : Option α} (h : c.write p v = some c') (hseg : Seg c.heap q l)
    (hp : ∀ a ∈ l, p ≠ .next a) : Seg c'.heap q l :=
  hseg.frame fun a ha => @read_write_ne _ _ _ _ _ _ (.next a) h (hp a ha).symm

omit [DecidableEq α] in
theorem lastSlot_mem (p : Slot α) (l : List α) :
    lastSlot p l = p ∨ ∃ a ∈ l, lastSlot p l = .next a := by
  induction l generalizing p with
  | nil => exact .inl rfl
  | cons a l ih =>
    rcases ih (.next a) with heq | ⟨b, hb, heq⟩
    · exact .inr ⟨a, List.mem_cons_self, heq⟩
    · exact .inr ⟨b, List.mem_cons_of_mem a hb, heq⟩

/-- Making the place that points to a node point behind it takes the node out. -/
theorem seg_unlink {v : Option α} (hread : c.read p = some q)
    (hseg : Seg c.heap q (l₁ ++ t :: l₂)) (ht : c.heap t = some v)
    (hp : ∀ a ∈ l₁ ++ t :: l₂, p ≠ .next a) (h : c.write (lastSlot p l₁) v = some c') :
    ∃ q', c'.read p = some q' ∧ Seg c'.heap q' (l₁ ++ l₂) := by
  induction l₁ generalizing p q with
  | nil =>
    obtain ⟨rfl, q', ht', hl₂⟩ := hseg.cons_inv
    obtain rfl : v = q' := Option.some.inj (ht.symm.trans ht')
    exact ⟨v, read_write_self h,
      seg_write h hl₂ fun a ha => hp a (List.mem_cons_of_mem t ha)⟩
  | cons a l₁ ih =>
    have hnodup := List.nodup_cons.mp hseg.nodup
    obtain ⟨rfl, q', ha, hl⟩ := hseg.cons_inv
    have hnext : ∀ b ∈ l₁ ++ t :: l₂, Slot.next a ≠ .next b := by
      rintro b hb ⟨⟩
      exact hnodup.1 hb
    obtain ⟨q'', hread', hseg'⟩ := @ih (.next a) q' ha hl hnext h
    refine ⟨some a, ?_, .cons hread' hseg'⟩
    rw [read_write_ne h, hread]
    -- `p` is before the list, the place that is written in it
    rcases lastSlot_mem (.next a) l₁ with heq | ⟨b, hb, heq⟩
    · exact fun hpe => hp a List.mem_cons_self (hpe.trans heq)
    · exact fun hpe => hp b (List.mem_cons_of_mem a (List.mem_append_left _ hb)) (hpe.trans heq)

end Linked
