/-
# Items laid out one behind the other

Items of a type `α` with sizes, such as the pieces of an instruction stream, are put one behind
the other.  `At size xs p x` says that `x` is one of the items `xs` and begins at position `p`.
Two items are the same occurrence or do not overlap (`At.sep`), whatever is appended comes
behind (`at_snoc_iff`), and in a layout of groups of items an item lies inside one group
(`At.of_flatten`).
-/
import Mathlib.Algebra.GroupWithZero.Nat
import Mathlib.Data.List.Basic

namespace Layout

variable {α : Type} {size : α → Nat}

/-- The size of all items. -/
def total (size : α → Nat) (xs : List α) : Nat := (xs.map size).sum

@[simp] theorem total_nil : total size [] = 0 := rfl

@[simp] theorem total_cons (x : α) (xs : List α) :
    total size (x :: xs) = size x + total size xs := by
  simp [total]

@[simp] theorem total_append (xs ys : List α) :
    total size (xs ++ ys) = total size xs + total size ys := by
  simp [total]

/-- The item `x` begins at `p`. -/
def At (size : α → Nat) (xs : List α) (p : Nat) (x : α) : Prop :=
  ∃ before after, xs = before ++ x :: after ∧ p = total size before

theorem At.mem {xs : List α} {p : Nat} {x : α} (h : At size xs p x) : x ∈ xs := by
  obtain ⟨before, after, rfl, -⟩ := h
  simp

theorem At.of_mem {xs : List α} {x : α} (h : x ∈ xs) : ∃ p, At size xs p x := by
  obtain ⟨before, after, rfl⟩ := List.append_of_mem h
  exact ⟨_, before, after, rfl, rfl⟩

/-- An item ends inside the layout. -/
theorem At.end_le {xs : List α} {p : Nat} {x : α} (h : At size xs p x) :
    p + size x ≤ total size xs := by
  obtain ⟨before, after, rfl, rfl⟩ := h
  rw [total_append, total_cons]
  omega

theorem not_at_nil {p : Nat} {x : α} : ¬ At size [] p x := by
  intro h
  cases h.mem

theorem at_cons_iff {xs : List α} {p : Nat} {x y : α} :
    At size (y :: xs) p x ↔ (p = 0 ∧ x = y) ∨ ∃ q, p = size y + q ∧ At size xs q x := by
  constructor
  · rintro ⟨before, after, heq, rfl⟩
    cases before with
    | nil =>
      rw [List.nil_append, List.cons.injEq] at heq
      exact .inl ⟨rfl, heq.1.symm⟩
    | cons z before =>
      rw [List.cons_append, List.cons.injEq] at heq
      obtain ⟨rfl, heq⟩ := heq
      exact .inr ⟨_, total_cons y before, before, after, heq, rfl⟩
  · rintro (⟨rfl, rfl⟩ | ⟨q, rfl, before, after, rfl, rfl⟩)
    · exact ⟨[], xs, rfl, rfl⟩
    · exact ⟨y :: before, after, rfl, (total_cons y before).symm⟩

/-- Items of a concatenation: those of the front, and those of the back moved behind it. -/
theorem at_append_iff {xs ys : List α} {p : Nat} {x : α} :
    At size (xs ++ ys) p x ↔
      At size xs p x ∨ ∃ q, p = total size xs + q ∧ At size ys q x := by
  induction xs generalizing p with
  | nil =>
    constructor
    · intro h
      exact .inr ⟨p, by simp, h⟩
    · rintro (h | ⟨q, rfl, h⟩)
      · exact absurd h not_at_nil
      · simpa using h
  | cons z xs ih =>
    rw [List.cons_append, at_cons_iff, at_cons_iff]
    constructor
    · rintro (h | ⟨q, rfl, h⟩)
      · exact .inl (.inl h)
      · rcases ih.mp h with h | ⟨r, rfl, hr⟩
        · exact .inl (.inr ⟨q, rfl, h⟩)
        · exact .inr ⟨r, by rw [total_cons]; omega, hr⟩
    · rintro ((h | ⟨q, rfl, h⟩) | ⟨r, rfl, h⟩)
      · exact .inl h
      · exact .inr ⟨q, rfl, ih.mpr (.inl h)⟩
      · exact .inr ⟨total size xs + r, by rw [total_cons]; omega, ih.mpr (.inr ⟨r, rfl, h⟩)⟩

/-- One more item. -/
theorem at_snoc_iff {xs : List α} {p : Nat} {x y : α} :
    At size (xs ++ [y]) p x ↔ At size xs p x ∨ (p = total size xs ∧ x = y) := by
  rw [at_append_iff]
  constructor
  · rintro (h | ⟨q, rfl, h⟩)
    · exact .inl h
    · rcases at_cons_iff.mp h with ⟨rfl, rfl⟩ | ⟨r, -, h⟩
      · exact .inr ⟨rfl, rfl⟩
      · exact absurd h not_at_nil
  · rintro (h | ⟨rfl, rfl⟩)
    · exact .inl h
    · exact .inr ⟨0, rfl, at_cons_iff.mpr (.inl ⟨rfl, rfl⟩)⟩

/-- Two items are the same occurrence, or one ends before the other begins. -/
theorem At.sep {xs : List α} {p q : Nat} {x y : α} (hx : At size xs p x) (hy : At size xs q y) :
    (p = q ∧ x = y) ∨ p + size x ≤ q ∨ q + size y ≤ p := by
  induction xs generalizing p q with
  | nil => exact absurd hx not_at_nil
  | cons z xs ih =>
    rcases at_cons_iff.mp hx with ⟨rfl, rfl⟩ | ⟨p', rfl, hx'⟩
    · rcases at_cons_iff.mp hy with ⟨rfl, rfl⟩ | ⟨q', rfl, -⟩
      · exact .inl ⟨rfl, rfl⟩
      · exact .inr (.inl (by omega))
    · rcases at_cons_iff.mp hy with ⟨rfl, rfl⟩ | ⟨q', rfl, hy'⟩
      · exact .inr (.inr (by omega))
      · rcases ih hx' hy' with ⟨rfl, rfl⟩ | h | h
        · exact .inl ⟨rfl, rfl⟩
        · exact .inr (.inl (by omega))
        · exact .inr (.inr (by omega))

/-! ## Layouts of groups -/

/-- Where group `k` begins. -/
def groupStart (size : α → Nat) (gs : List (List α)) (k : Nat) : Nat :=
  total size (gs.take k).flatten

@[simp] theorem groupStart_zero (gs : List (List α)) : groupStart size gs 0 = 0 := rfl

theorem groupStart_cons_succ (g : List α) (gs : List (List α)) (k : Nat) :
    groupStart size (g :: gs) (k + 1) = total size g + groupStart size gs k := by
  simp [groupStart]

theorem groupStart_length (gs : List (List α)) :
    groupStart size gs gs.length = total size gs.flatten := by
  rw [groupStart, List.take_length]

theorem groupStart_le (gs : List (List α)) (k : Nat) :
    groupStart size gs k ≤ total size gs.flatten := by
  conv_rhs => rw [← List.take_append_drop k gs, List.flatten_append, total_append]
  exact Nat.le_add_right _ _

/-- More groups do not move the starts of those before. -/
theorem groupStart_append {gs : List (List α)} {k : Nat} (h : k ≤ gs.length)
    (hs : List (List α)) : groupStart size (gs ++ hs) k = groupStart size gs k := by
  rw [groupStart, List.take_append_of_le_length h, groupStart]

/-- An item of a layout of groups lies in one of them. -/
theorem At.of_flatten {gs : List (List α)} {p : Nat} {x : α} (h : At size gs.flatten p x) :
    ∃ k g q, gs[k]? = some g ∧ p = groupStart size gs k + q ∧ At size g q x := by
  induction gs generalizing p with
  | nil => exact absurd h not_at_nil
  | cons g gs ih =>
    rw [List.flatten_cons] at h
    rcases at_append_iff.mp h with h | ⟨q, rfl, hq⟩
    · exact ⟨0, g, p, rfl, by simp, h⟩
    · obtain ⟨k, g', q', hk, rfl, hat⟩ := ih hq
      exact ⟨k + 1, g', q', hk, by rw [groupStart_cons_succ]; omega, hat⟩

/-- An item of a group is an item of the layout. -/
theorem At.flatten {gs : List (List α)} {k q : Nat} {g : List α} {x : α} (hk : gs[k]? = some g)
    (h : At size g q x) : At size gs.flatten (groupStart size gs k + q) x := by
  induction gs generalizing k with
  | nil => cases hk
  | cons g' gs ih =>
    rw [List.flatten_cons]
    cases k with
    | zero =>
      rw [List.getElem?_cons_zero, Option.some.injEq] at hk
      subst hk
      exact at_append_iff.mpr (.inl (by simpa using h))
    | succ k =>
      refine at_append_iff.mpr (.inr ⟨_, ?_, ih hk⟩)
      rw [groupStart_cons_succ]
      omega

end Layout
