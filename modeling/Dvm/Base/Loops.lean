/-
# Loops that can fail

Three shapes of loop over a list, each stopping at the first error:

* `scan` threads a state and collects one result for each element;
* `each` collects one result for each element, without a state;
* `List.foldlM` threads a state only.

For each shape: when it succeeds, what it returns, and how a loop over loops is one loop over
the concatenation.
-/
import Mathlib.Data.List.Forall2

namespace Loops

variable {σ α β γ ε : Type}

theorem exists_ok_of_isOk {x : Except ε α} (h : x.isOk = true) : ∃ a, x = .ok a := by
  cases x with
  | error e => cases h
  | ok a => exact ⟨a, rfl⟩

/-- A computation that succeeds with a result of a decidable property. -/
theorem exists_ok_of_decide {x : Except ε α} {P : α → Prop} [DecidablePred P]
    (h : (x.toOption.any fun a => P a) = true) : ∃ a, x = .ok a ∧ P a := by
  cases x with
  | error e => cases h
  | ok a => exact ⟨a, rfl, of_decide_eq_true h⟩

/-- A sequence of two computations succeeds if both do. -/
theorem bind_ok_iff {x : Except ε α} {f : α → Except ε β} {b : β} :
    (x >>= f) = .ok b ↔ ∃ a, x = .ok a ∧ f a = .ok b := by
  cases x with
  | error e => simp [Bind.bind, Except.bind]
  | ok a => simp [Bind.bind, Except.bind]

theorem ok_bind {a : α} {f : α → Except ε β} : (.ok a >>= f) = f a := rfl

/-! ## 1. `scan` -/

/-- A loop that threads a state and collects a result for each element. -/
def scan (f : σ → α → Except ε (σ × β)) : σ → List α → Except ε (σ × List β)
  | s, [] => .ok (s, [])
  | s, a :: as =>
    match f s a with
    | .error e => .error e
    | .ok (s', b) =>
      match scan f s' as with
      | .error e => .error e
      | .ok (s'', bs) => .ok (s'', b :: bs)

theorem scan_nil (f : σ → α → Except ε (σ × β)) (s : σ) : scan f s [] = .ok (s, []) := rfl

theorem scan_cons (f : σ → α → Except ε (σ × β)) (s : σ) (a : α) (as : List α) :
    scan f s (a :: as) =
      match f s a with
      | .error e => .error e
      | .ok (s', b) =>
        match scan f s' as with
        | .error e => .error e
        | .ok (s'', bs) => .ok (s'', b :: bs) := rfl

theorem scan_cons_iff {f : σ → α → Except ε (σ × β)} {s t : σ} {a : α} {as : List α}
    {ys : List β} :
    scan f s (a :: as) = .ok (t, ys) ↔
      ∃ s' b bs, f s a = .ok (s', b) ∧ scan f s' as = .ok (t, bs) ∧ ys = b :: bs := by
  constructor
  · intro h
    rw [scan_cons] at h
    cases hf : f s a with
    | error e => rw [hf] at h; cases h
    | ok r =>
      rw [hf] at h
      cases hs : scan f r.1 as with
      | error e => simp only [hs] at h; cases h
      | ok q =>
        simp only [hs, Except.ok.injEq, Prod.mk.injEq] at h
        exact ⟨r.1, r.2, q.2, rfl, by rw [hs, ← h.1], h.2.symm⟩
  · rintro ⟨s', b, bs, hf, hs, rfl⟩
    rw [scan_cons, hf]
    simp only [hs]

/-- A loop over a concatenation is the loop over the first part, then over the second. -/
theorem scan_append_iff {f : σ → α → Except ε (σ × β)} {s t : σ} {as bs : List α}
    {ys : List β} :
    scan f s (as ++ bs) = .ok (t, ys) ↔
      ∃ s' y₁ y₂, scan f s as = .ok (s', y₁) ∧ scan f s' bs = .ok (t, y₂) ∧ ys = y₁ ++ y₂ := by
  induction as generalizing s ys with
  | nil => simp [scan_nil]
  | cons a as ih =>
    rw [List.cons_append, scan_cons_iff]
    constructor
    · rintro ⟨s₁, b, bs', hf, hs, rfl⟩
      obtain ⟨s', y₁, y₂, h₁, h₂, rfl⟩ := ih.mp hs
      exact ⟨s', b :: y₁, y₂, scan_cons_iff.mpr ⟨s₁, b, y₁, hf, h₁, rfl⟩, h₂, rfl⟩
    · rintro ⟨s', y₁, y₂, h₁, h₂, rfl⟩
      obtain ⟨s₁, b, bs', hf, hs, rfl⟩ := scan_cons_iff.mp h₁
      exact ⟨s₁, b, bs' ++ y₂, hf, ih.mpr ⟨s', bs', y₂, hs, h₂, rfl⟩, rfl⟩

theorem length_of_scan {f : σ → α → Except ε (σ × β)} {s t : σ} {as : List α} {ys : List β}
    (h : scan f s as = .ok (t, ys)) : ys.length = as.length := by
  induction as generalizing s ys with
  | nil =>
    simp only [scan_nil, Except.ok.injEq, Prod.mk.injEq] at h
    rw [← h.2]
    rfl
  | cons a as ih =>
    obtain ⟨s', b, bs, _, hs, rfl⟩ := scan_cons_iff.mp h
    rw [List.length_cons, List.length_cons, ih hs]

theorem scan_map (f : σ → β → Except ε (σ × γ)) (g : α → β) (s : σ) (as : List α) :
    scan f s (as.map g) = scan (fun s a => f s (g a)) s as := by
  induction as generalizing s with
  | nil => rfl
  | cons a as ih => simp only [List.map_cons, scan_cons, ih]

/-- What the loop did at one element: the state it was reached in, the result collected for
it, and the rest of the loop from the state after it. -/
theorem scan_split {f : σ → α → Except ε (σ × β)} {s t : σ} {as bs : List α} {a : α}
    {ys : List β} (h : scan f s (as ++ a :: bs) = .ok (t, ys)) :
    ∃ s₁ s₂ y₁ b y₂, scan f s as = .ok (s₁, y₁) ∧ f s₁ a = .ok (s₂, b) ∧
      scan f s₂ bs = .ok (t, y₂) ∧ ys[as.length]? = some b := by
  obtain ⟨s₁, y₁, ys', h₁, h₂, rfl⟩ := scan_append_iff.mp h
  obtain ⟨s₂, b, y₂, hf, h₃, rfl⟩ := scan_cons_iff.mp h₂
  refine ⟨s₁, s₂, y₁, b, y₂, h₁, hf, h₃, ?_⟩
  rw [← length_of_scan h₁, List.getElem?_append_right (Nat.le_refl _), Nat.sub_self]
  rfl

/-- A loop over loops runs through the same states as one loop over the concatenation. -/
theorem scan_flatMap_iff {f : σ → β → Except ε (σ × γ)} {g : α → List β} {s t : σ}
    {as : List α} :
    (∃ yss, scan (fun s a => scan f s (g a)) s as = .ok (t, yss)) ↔
      ∃ ys, scan f s (as.flatMap g) = .ok (t, ys) := by
  induction as generalizing s with
  | nil => simp [scan_nil]
  | cons a as ih =>
    rw [List.flatMap_cons]
    constructor
    · rintro ⟨yss, h⟩
      obtain ⟨s', b, bs, h₁, h₂, rfl⟩ := scan_cons_iff.mp h
      obtain ⟨ys, h₃⟩ := ih.mp ⟨bs, h₂⟩
      exact ⟨b ++ ys, scan_append_iff.mpr ⟨s', b, ys, h₁, h₃, rfl⟩⟩
    · rintro ⟨ys, h⟩
      obtain ⟨s', y₁, y₂, h₁, h₂, rfl⟩ := scan_append_iff.mp h
      obtain ⟨yss, h₃⟩ := ih.mpr ⟨y₂, h₂⟩
      exact ⟨y₁ :: yss, scan_cons_iff.mpr ⟨s', y₁, yss, h₁, h₃, rfl⟩⟩

/-! ## 2. `each` -/

/-- A loop that collects a result for each element. -/
def each (f : α → Except ε β) : List α → Except ε (List β)
  | [] => .ok []
  | a :: as =>
    match f a with
    | .error e => .error e
    | .ok b =>
      match each f as with
      | .error e => .error e
      | .ok bs => .ok (b :: bs)

theorem each_nil (f : α → Except ε β) : each f [] = .ok [] := rfl

theorem each_cons (f : α → Except ε β) (a : α) (as : List α) :
    each f (a :: as) =
      match f a with
      | .error e => .error e
      | .ok b =>
        match each f as with
        | .error e => .error e
        | .ok bs => .ok (b :: bs) := rfl

theorem each_cons_iff {f : α → Except ε β} {a : α} {as : List α} {ys : List β} :
    each f (a :: as) = .ok ys ↔
      ∃ b bs, f a = .ok b ∧ each f as = .ok bs ∧ ys = b :: bs := by
  simp only [each_cons]
  cases f a with
  | error e => simp
  | ok b =>
    cases each f as with
    | error e => simp
    | ok bs => simp [eq_comm]

/-- The loop succeeds exactly when every iteration does. -/
theorem each_ok_iff {f : α → Except ε β} {as : List α} :
    (∃ ys, each f as = .ok ys) ↔ ∀ a ∈ as, ∃ b, f a = .ok b := by
  induction as with
  | nil => simp [each_nil]
  | cons a as ih =>
    rw [List.forall_mem_cons, ← ih]
    constructor
    · rintro ⟨ys, h⟩
      obtain ⟨b, bs, h₁, h₂, _⟩ := each_cons_iff.mp h
      exact ⟨⟨b, h₁⟩, bs, h₂⟩
    · rintro ⟨⟨b, h₁⟩, bs, h₂⟩
      exact ⟨b :: bs, each_cons_iff.mpr ⟨b, bs, h₁, h₂, rfl⟩⟩

theorem length_of_each {f : α → Except ε β} {as : List α} {ys : List β}
    (h : each f as = .ok ys) : ys.length = as.length := by
  induction as generalizing ys with
  | nil =>
    simp only [each_nil, Except.ok.injEq] at h
    rw [← h]
    rfl
  | cons a as ih =>
    obtain ⟨b, bs, _, hs, rfl⟩ := each_cons_iff.mp h
    rw [List.length_cons, List.length_cons, ih hs]

/-- The result collected for one element. -/
theorem getElem?_of_each {f : α → Except ε β} {as : List α} {ys : List β} {i : Nat} {a : α}
    (h : each f as = .ok ys) (hi : as[i]? = some a) : ∃ b, ys[i]? = some b ∧ f a = .ok b := by
  induction as generalizing ys i with
  | nil => simp at hi
  | cons c as ih =>
    obtain ⟨b, bs, h₁, h₂, rfl⟩ := each_cons_iff.mp h
    cases i with
    | zero =>
      simp only [List.getElem?_cons_zero, Option.some.injEq] at hi
      exact ⟨b, rfl, hi ▸ h₁⟩
    | succ i => simpa using ih h₂ (by simpa using hi)

theorem each_append_iff {f : α → Except ε β} {as bs : List α} {ys : List β} :
    each f (as ++ bs) = .ok ys ↔
      ∃ y₁ y₂, each f as = .ok y₁ ∧ each f bs = .ok y₂ ∧ ys = y₁ ++ y₂ := by
  induction as generalizing ys with
  | nil => simp [each_nil]
  | cons a as ih =>
    rw [List.cons_append, each_cons_iff]
    constructor
    · rintro ⟨b, bs', hf, hs, rfl⟩
      obtain ⟨y₁, y₂, h₁, h₂, rfl⟩ := ih.mp hs
      exact ⟨b :: y₁, y₂, each_cons_iff.mpr ⟨b, y₁, hf, h₁, rfl⟩, h₂, rfl⟩
    · rintro ⟨y₁, y₂, h₁, h₂, rfl⟩
      obtain ⟨b, bs', hf, hs, rfl⟩ := each_cons_iff.mp h₁
      exact ⟨b, bs' ++ y₂, hf, ih.mpr ⟨bs', y₂, hs, h₂, rfl⟩, rfl⟩

theorem each_ok_iff_forall₂ {f : α → Except ε β} {as : List α} {ys : List β} :
    each f as = .ok ys ↔ List.Forall₂ (fun a b => f a = .ok b) as ys := by
  induction as generalizing ys with
  | nil =>
    rw [each_nil, List.forall₂_nil_left_iff, Except.ok.injEq]
    exact eq_comm
  | cons a as ih =>
    rw [each_cons_iff, List.forall₂_cons_left_iff]
    exact exists_congr fun b => exists_congr fun bs => and_congr_right fun _ => and_congr_left' ih

theorem each_congr {f g : α → Except ε β} {as : List α} (h : ∀ a ∈ as, f a = g a) :
    each f as = each g as := by
  induction as with
  | nil => rfl
  | cons a as ih =>
    obtain ⟨ha, has⟩ := List.forall_mem_cons.mp h
    rw [each_cons, each_cons, ha, ih has]

theorem each_map (f : β → Except ε γ) (g : α → β) (as : List α) :
    each f (as.map g) = each (fun a => f (g a)) as := by
  induction as with
  | nil => rfl
  | cons a as ih => rw [List.map_cons, each_cons, each_cons, ih]

/-- Iterations that another loop also succeeds in, with the same results. -/
theorem each_of_each {f g : α → Except ε β} {as : List α} {ys : List β}
    (h : each f as = .ok ys) (hg : ∀ a ∈ as, ∀ b, f a = .ok b → g a = .ok b) :
    each g as = .ok ys := by
  induction as generalizing ys with
  | nil => exact h
  | cons a as ih =>
    obtain ⟨b, bs, hf, hs, rfl⟩ := each_cons_iff.mp h
    obtain ⟨hga, hgs⟩ := List.forall_mem_cons.mp hg
    exact each_cons_iff.mpr ⟨b, bs, hga b hf, ih hs hgs, rfl⟩

/-- A loop whose iterations all succeed with a known result. -/
theorem each_eq_map {f : α → Except ε β} {g : α → β} {as : List α}
    (h : ∀ a ∈ as, f a = .ok (g a)) : each f as = .ok (as.map g) := by
  induction as with
  | nil => rfl
  | cons a as ih =>
    obtain ⟨ha, has⟩ := List.forall_mem_cons.mp h
    exact each_cons_iff.mpr ⟨g a, as.map g, ha, ih has, rfl⟩

/-! ## 3. `foldlM` -/

theorem foldlM_cons_ok_iff {f : σ → α → Except ε σ} {s t : σ} {a : α} {as : List α} :
    (a :: as).foldlM f s = .ok t ↔ ∃ s', f s a = .ok s' ∧ as.foldlM f s' = .ok t := by
  rw [List.foldlM_cons]
  cases f s a with
  | error e => simp [Bind.bind, Except.bind]
  | ok s' => simp [Bind.bind, Except.bind]

theorem foldlM_append_ok_iff {f : σ → α → Except ε σ} {s t : σ} {as bs : List α} :
    (as ++ bs).foldlM f s = .ok t ↔
      ∃ s', as.foldlM f s = .ok s' ∧ bs.foldlM f s' = .ok t := by
  induction as generalizing s with
  | nil => simp [pure, Except.pure]
  | cons a as ih =>
    rw [List.cons_append, foldlM_cons_ok_iff]
    constructor
    · rintro ⟨s₁, h₁, h₂⟩
      obtain ⟨s', h₃, h₄⟩ := ih.mp h₂
      exact ⟨s', foldlM_cons_ok_iff.mpr ⟨s₁, h₁, h₃⟩, h₄⟩
    · rintro ⟨s', h₁, h₂⟩
      obtain ⟨s₁, h₃, h₄⟩ := foldlM_cons_ok_iff.mp h₁
      exact ⟨s₁, h₃, ih.mpr ⟨s', h₄, h₂⟩⟩

theorem bind_error_iff {x : Except ε α} {f : α → Except ε β} {e : ε} :
    (x >>= f) = .error e ↔ x = .error e ∨ ∃ a, x = .ok a ∧ f a = .error e := by
  cases x with
  | error e' => simp [Bind.bind, Except.bind]
  | ok a => simp [Bind.bind, Except.bind]

theorem foldlM_append_error_iff {f : σ → α → Except ε σ} {s : σ} {as bs : List α} {e : ε} :
    (as ++ bs).foldlM f s = .error e ↔
      as.foldlM f s = .error e ∨ ∃ s', as.foldlM f s = .ok s' ∧ bs.foldlM f s' = .error e := by
  rw [List.foldlM_append, bind_error_iff]

/-- A loop that stops, stops at one of its elements. -/
theorem foldlM_error_iff {f : σ → α → Except ε σ} {s : σ} {as : List α} {e : ε} :
    as.foldlM f s = .error e ↔ ∃ (before : List α) (a : α) (after : List α) (s' : σ),
      as = before ++ a :: after ∧ before.foldlM f s = .ok s' ∧ f s' a = .error e := by
  induction as generalizing s with
  | nil =>
    constructor
    · intro h
      cases h
    · rintro ⟨before, a, after, s', heq, -⟩
      simp at heq
  | cons b as ih =>
    rw [List.foldlM_cons, bind_error_iff]
    constructor
    · rintro (hb | ⟨s₁, hb, h⟩)
      · exact ⟨[], b, as, s, rfl, rfl, hb⟩
      · obtain ⟨before, a, after, s', rfl, hbefore, ha⟩ := ih.mp h
        exact ⟨b :: before, a, after, s', rfl, foldlM_cons_ok_iff.mpr ⟨s₁, hb, hbefore⟩, ha⟩
    · rintro ⟨before, a, after, s', heq, hbefore, ha⟩
      cases before with
      | nil =>
        cases heq
        cases hbefore
        exact .inl ha
      | cons b' before =>
        rw [List.cons_append, List.cons.injEq] at heq
        obtain ⟨rfl, rfl⟩ := heq
        obtain ⟨s₁, hb, hbefore⟩ := foldlM_cons_ok_iff.mp hbefore
        exact .inr ⟨s₁, hb, ih.mpr ⟨before, a, after, s', rfl, hbefore, ha⟩⟩

/-! ## 4. Two loops side by side -/

/-- Both succeed with related results, or both stop with related errors. -/
def SideBySide (E : ε → ε → Prop) (R : α → β → Prop) : Except ε α → Except ε β → Prop
  | .ok a, .ok b => R a b
  | .error e, .error e' => E e e'
  | _, _ => False

section SideBySide

variable {E : ε → ε → Prop} {R : α → β → Prop}

theorem SideBySide.cases {x : Except ε α} {y : Except ε β} (h : SideBySide E R x y) :
    (∃ a b, x = .ok a ∧ y = .ok b ∧ R a b) ∨
      ∃ e e', x = .error e ∧ y = .error e' ∧ E e e' := by
  cases x with
  | error e =>
    cases y with
    | error e' => exact .inr ⟨e, e', rfl, rfl, h⟩
    | ok b => exact h.elim
  | ok a =>
    cases y with
    | error e' => exact h.elim
    | ok b => exact .inl ⟨a, b, rfl, rfl, h⟩

theorem SideBySide.map {γ δ : Type} {S : γ → δ → Prop} {x : Except ε α} {y : Except ε β} {f : α → γ}
    {g : β → δ} (h : SideBySide E R x y) (hf : ∀ a b, R a b → S (f a) (g b)) :
    SideBySide E S (x.map f) (y.map g) := by
  rcases h.cases with ⟨a, b, rfl, rfl, hab⟩ | ⟨e, e', rfl, rfl, he⟩
  · exact hf a b hab
  · exact he

/-- A computation that starts from related results. -/
theorem SideBySide.bind {γ δ : Type} {S : γ → δ → Prop} {x : Except ε α} {y : Except ε β}
    {f : α → Except ε γ} {g : β → Except ε δ} (h : SideBySide E R x y)
    (hf : ∀ a b, R a b → SideBySide E S (f a) (g b)) : SideBySide E S (x >>= f) (y >>= g) := by
  rcases h.cases with ⟨a, b, rfl, rfl, hab⟩ | ⟨e, e', rfl, rfl, he⟩
  · exact hf a b hab
  · exact he

/-- Two loops over related elements, each step of which keeps the states related. -/
theorem SideBySide.foldlM {τ : Type} {S : σ → τ → Prop} {f : σ → α → Except ε σ}
    {g : τ → β → Except ε τ} (hstep : ∀ s t a b, S s t → R a b → SideBySide E S (f s a) (g t b))
    {as : List α} {bs : List β} (hab : List.Forall₂ R as bs) {s : σ} {t : τ} (hst : S s t) :
    SideBySide E S (as.foldlM f s) (bs.foldlM g t) := by
  induction hab generalizing s t with
  | nil => exact hst
  | cons hhead _ ih =>
    rw [List.foldlM_cons, List.foldlM_cons]
    exact (hstep s t _ _ hst hhead).bind fun s' t' h => ih h

end SideBySide

end Loops
