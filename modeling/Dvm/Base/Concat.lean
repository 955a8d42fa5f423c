/-
# Positions in a concatenation

A linker, a table of tables, a section made of the sections of many objects: all of them are
`xs.flatMap g`.  `start g xs i` is where the part of the `i`-th element begins.
-/
import Mathlib.Data.List.Basic

namespace Concat

variable {α β γ : Type}

/-- A list around one of its elements. -/
theorem eq_take_cons_drop {l : List α} {i : Nat} {a : α} (h : l[i]? = some a) :
    l = l.take i ++ a :: l.drop (i + 1) := by
  obtain ⟨hlt, hget⟩ := List.getElem?_eq_some_iff.mp h
  conv_lhs => rw [← List.take_append_drop i l, List.drop_eq_getElem_cons hlt, hget]

/-- Where the part of the `i`-th element begins. -/
def start (g : α → List β) (xs : List α) (i : Nat) : Nat := ((xs.take i).flatMap g).length

@[simp] theorem start_zero (g : α → List β) (xs : List α) : start g xs 0 = 0 := rfl

theorem start_cons_succ (g : α → List β) (x : α) (xs : List α) (i : Nat) :
    start g (x :: xs) (i + 1) = (g x).length + start g xs i := by
  simp [start]

/-- A concatenation around one of its parts. -/
theorem flatMap_split {xs : List α} {i : Nat} {x : α} (g : α → List β) (h : xs[i]? = some x) :
    xs.flatMap g = (xs.take i).flatMap g ++ (g x ++ (xs.drop (i + 1)).flatMap g) := by
  conv_lhs => rw [eq_take_cons_drop h, List.flatMap_append, List.flatMap_cons]

/-- A concatenation around one element of one of its parts. -/
theorem flatMap_split_at {xs : List α} {i j : Nat} {x : α} {y : β} (g : α → List β)
    (h : xs[i]? = some x) (hj : (g x)[j]? = some y) :
    xs.flatMap g = ((xs.take i).flatMap g ++ (g x).take j) ++
      y :: ((g x).drop (j + 1) ++ (xs.drop (i + 1)).flatMap g) := by
  rw [flatMap_split g h, List.append_assoc]
  conv_lhs => rw [eq_take_cons_drop hj]
  simp

/-- The `j`-th element of the `i`-th part stands `j` behind the part's start. -/
theorem getElem?_flatMap {xs : List α} {i j : Nat} {x : α} {g : α → List β}
    (h : xs[i]? = some x) (hj : j < (g x).length) :
    (xs.flatMap g)[start g xs i + j]? = (g x)[j]? := by
  rw [flatMap_split g h, start, List.getElem?_append_right (Nat.le_add_right _ _),
    Nat.add_sub_cancel_left, List.getElem?_append_left hj]

/-- Every element of a concatenation stands in one of the parts. -/
theorem exists_of_getElem?_flatMap {xs : List α} {g : α → List β} {n : Nat} {y : β}
    (h : (xs.flatMap g)[n]? = some y) :
    ∃ i x j, xs[i]? = some x ∧ (g x)[j]? = some y ∧ n = start g xs i + j := by
  induction xs generalizing n with
  | nil => cases h
  | cons x xs ih =>
    rw [List.flatMap_cons] at h
    rcases Nat.lt_or_ge n (g x).length with hn | hn
    · rw [List.getElem?_append_left hn] at h
      exact ⟨0, x, n, rfl, h, (Nat.zero_add n).symm⟩
    · rw [List.getElem?_append_right hn] at h
      obtain ⟨i, x', j, hi, hj, heq⟩ := ih h
      refine ⟨i + 1, x', j, hi, hj, ?_⟩
      rw [start_cons_succ]
      omega

/-- A part ends inside the concatenation. -/
theorem start_add_le {xs : List α} {i : Nat} {x : α} (g : α → List β) (h : xs[i]? = some x) :
    start g xs i + (g x).length ≤ (xs.flatMap g).length := by
  rw [flatMap_split g h]
  simp only [start, List.length_append]
  omega

/-- A part ends before a later one begins. -/
theorem start_add_le_start {xs : List α} {i j : Nat} {x : α} (g : α → List β)
    (h : xs[i]? = some x) (hij : i < j) : start g xs i + (g x).length ≤ start g xs j := by
  have hx : (xs.take j)[i]? = some x := by rw [List.getElem?_take_of_lt hij, h]
  have hle := start_add_le g hx
  rwa [start, List.take_take, Nat.min_eq_left (Nat.le_of_lt hij)] at hle

/-- Starts do not see a change of the elements that keeps the length of their parts. -/
theorem start_map {δ : Type} {f : α → γ} {g : γ → List β} {k : α → List δ}
    (h : ∀ a, (g (f a)).length = (k a).length) (xs : List α) (i : Nat) :
    start g (xs.map f) i = start k xs i := by
  rw [start, start, ← List.map_take, List.flatMap_map, List.length_flatMap, List.length_flatMap]
  congr 1
  exact List.map_congr_left fun a _ => h a

end Concat
