/-
# Reading a byte stream into a record

A C reader consumes a `FILE *` from the front and fills a record as it goes; when it gives up
halfway, what it has consumed and filled so far stays as it is.  `FileM ε σ` is that
discipline: a state of the bytes still to come (`file`) and the record being filled (`out`),
and an error that keeps both.

The rules say exactly on which input a reader succeeds and what it then leaves (`bind_ok_iff`
and the rules for the primitives; `times_ok_iff` for a table read record by record), and how
it can fail (`bind_error_iff`, `times_error_iff`, `FailsIn`).  `SameUnless` compares two readers
that differ in what one of them gives up on.

A record may hold more than the reader proper knows of, buffers it has allocated for example.
`Views` says that a reader does to a part of the record what another reader does to that part
alone, `Triple` what becomes of the rest, whether the reader succeeds or not.
-/
import Dvm.Base.Bytes

namespace FileRead

/-- The stream still to be read, and the record filled so far. -/
structure Input (σ : Type) where
  file : List Byte
  out : σ

/-- Readers with errors `ε` filling a record `σ`. -/
abbrev FileM (ε σ : Type) := EStateM ε (Input σ)

variable {ε σ α β : Type}

/-! ## 1. The primitives -/

/-- `fread`: the next `n` bytes, or fewer where the stream ends before. -/
def fread (n : Nat) : FileM ε σ (List Byte) :=
  fun s => .ok (s.file.take n) { s with file := s.file.drop n }

/-- `fread` of `n` bytes where the caller gives up on a short read. -/
def freadExact (e : ε) (n : Nat) : FileM ε σ (List Byte) := do
  let got ← fread n
  if got.length = n then pure got else throw e

/-- Give up unless `c` holds. -/
def require (e : ε) (c : Prop) [Decidable c] : FileM ε σ Unit :=
  if c then pure () else throw e

/-- Assign to the record. -/
def fill (f : σ → σ) : FileM ε σ Unit :=
  fun s => .ok () { s with out := f s.out }

/-- A counted loop: `n` times the same reader. -/
def times (body : FileM ε σ Unit) : Nat → FileM ε σ Unit
  | 0 => pure ()
  | n + 1 => do
    body
    times body n

/-! ## 2. When they succeed -/

theorem bind_ok_iff {x : FileM ε σ α} {f : α → FileM ε σ β} {s s' : Input σ} {b : β} :
    (x >>= f) s = .ok b s' ↔ ∃ a s₁, x s = .ok a s₁ ∧ f a s₁ = .ok b s' := by
  show EStateM.bind x f s = _ ↔ _
  unfold EStateM.bind
  cases x s with
  | ok a s₁ => simp
  | error e s₁ => simp

theorem freadExact_ok_iff {e : ε} {n : Nat} {s s' : Input σ} {got : List Byte} :
    (freadExact e n : FileM ε σ _) s = .ok got s' ↔
      got.length = n ∧ s.file = got ++ s'.file ∧ s'.out = s.out := by
  obtain ⟨file, out⟩ := s
  obtain ⟨file', out'⟩ := s'
  rw [freadExact, bind_ok_iff]
  constructor
  · rintro ⟨a, s₁, hread, hcheck⟩
    cases hread
    split at hcheck
    · next hlen =>
      cases hcheck
      exact ⟨hlen, (List.take_append_drop n file).symm, rfl⟩
    · cases hcheck
  · rintro ⟨rfl, rfl, rfl⟩
    refine ⟨got, ⟨file', out'⟩, ?_, ?_⟩
    · simp [fread]
    · rw [if_pos rfl]
      rfl

theorem require_ok_iff {e : ε} {c : Prop} [Decidable c] {s s' : Input σ} {u : Unit} :
    (require e c : FileM ε σ Unit) s = .ok u s' ↔ c ∧ s' = s := by
  unfold require
  by_cases hc : c
  · rw [if_pos hc]
    simp [pure, EStateM.pure, hc, eq_comm]
  · rw [if_neg hc]
    refine iff_of_false ?_ fun h => hc h.1
    intro h
    cases h

theorem fill_ok_iff {f : σ → σ} {s s' : Input σ} {u : Unit} :
    (fill f : FileM ε σ Unit) s = .ok u s' ↔ s'.file = s.file ∧ s'.out = f s.out := by
  obtain ⟨file, out⟩ := s
  obtain ⟨file', out'⟩ := s'
  simp [fill, eq_comm]

/-- A table is read record by record: if a pass of the loop reads exactly the records `write a`
of the values with `P`, the loop reads the records of that many values, in order. -/
theorem times_ok_iff {body : FileM ε σ Unit} (write : α → List Byte) (put : σ → α → σ)
    (hbody : ∀ s s', body s = .ok () s' ↔ ∃ a, s.file = write a ++ s'.file ∧ s'.out = put s.out a)
    {n : Nat} {s s' : Input σ} {u : Unit} :
    times body n s = .ok u s' ↔ ∃ as : List α, as.length = n ∧
      s.file = as.flatMap write ++ s'.file ∧ s'.out = as.foldl put s.out := by
  induction n generalizing s with
  | zero =>
    obtain ⟨file, out⟩ := s
    obtain ⟨file', out'⟩ := s'
    simp [times, pure, EStateM.pure, eq_comm]
  | succ n ih =>
    rw [times, bind_ok_iff]
    constructor
    · rintro ⟨⟨⟩, s₁, hhead, htail⟩
      obtain ⟨a, hfile, hout⟩ := (hbody s s₁).mp hhead
      obtain ⟨as, hlen, hfiles, houts⟩ := ih.mp htail
      refine ⟨a :: as, by rw [List.length_cons, hlen], ?_, ?_⟩
      · rw [hfile, hfiles, List.flatMap_cons, List.append_assoc]
      · rw [houts, hout, List.foldl_cons]
    · rintro ⟨as, hlen, hfiles, houts⟩
      cases as with
      | nil => cases hlen
      | cons a as =>
        rw [List.flatMap_cons, List.append_assoc] at hfiles
        refine ⟨(), ⟨as.flatMap write ++ s'.file, put s.out a⟩,
          (hbody _ _).mpr ⟨a, hfiles, rfl⟩, ?_⟩
        exact ih.mpr ⟨as, Nat.succ.inj hlen, rfl, houts⟩

/-! ## 3. When they fail -/

theorem bind_error_iff {x : FileM ε σ α} {f : α → FileM ε σ β} {s s' : Input σ} {e : ε} :
    (x >>= f) s = .error e s' ↔
      x s = .error e s' ∨ ∃ a s₁, x s = .ok a s₁ ∧ f a s₁ = .error e s' := by
  show EStateM.bind x f s = _ ↔ _
  unfold EStateM.bind
  cases x s with
  | ok a s₁ => simp
  | error e s₁ => simp

/-- A reader that fails, does so with an error in `es`. -/
def FailsIn (es : ε → Prop) (x : FileM ε σ α) : Prop := ∀ s e s', x s = .error e s' → es e

section FailsIn

variable {es : ε → Prop}

theorem FailsIn.bind {x : FileM ε σ α} {f : α → FileM ε σ β} (hx : FailsIn es x)
    (hf : ∀ a, FailsIn es (f a)) : FailsIn es (x >>= f) := by
  intro s e s' h
  rcases bind_error_iff.mp h with h | ⟨a, s₁, -, h⟩
  · exact hx s e s' h
  · exact hf a s₁ e s' h

theorem failsIn_pure (a : α) : FailsIn es (pure a : FileM ε σ α) := by
  intro s e s' h
  cases h

theorem failsIn_throw {e : ε} (he : es e) : FailsIn es (throw e : FileM ε σ α) := by
  intro s e' s' h
  cases h
  exact he

theorem failsIn_fread (n : Nat) : FailsIn es (fread n : FileM ε σ _) := by
  intro s e s' h
  cases h

theorem failsIn_freadExact {e : ε} (he : es e) (n : Nat) :
    FailsIn es (freadExact e n : FileM ε σ _) := by
  intro s e' s' h
  rcases bind_error_iff.mp h with h | ⟨got, s₁, -, h⟩
  · cases h
  · split at h
    · cases h
    · cases h
      exact he

theorem failsIn_require {e : ε} (he : es e) (c : Prop) [Decidable c] :
    FailsIn es (require e c : FileM ε σ Unit) := by
  intro s e' s' h
  unfold require at h
  split at h
  · cases h
  · cases h
    exact he

theorem failsIn_fill (f : σ → σ) : FailsIn es (fill f : FileM ε σ Unit) := by
  intro s e s' h
  cases h

theorem FailsIn.times {body : FileM ε σ Unit} (h : FailsIn es body) (n : Nat) :
    FailsIn es (times body n) := by
  induction n with
  | zero => exact failsIn_pure ()
  | succ n ih => exact h.bind fun _ => ih

end FailsIn

/-- A reader that fails on every stream, with an error in `es`. -/
def Stops (es : ε → Prop) (x : FileM ε σ α) : Prop := ∀ s, ∃ e s', x s = .error e s' ∧ es e

section Stops

variable {es : ε → Prop}

theorem stops_throw {e : ε} (he : es e) : Stops es (throw e : FileM ε σ α) :=
  fun s => ⟨e, s, rfl, he⟩

theorem Stops.bind {x : FileM ε σ α} (hx : Stops es x) (f : α → FileM ε σ β) :
    Stops es (x >>= f) := by
  intro s
  obtain ⟨e, s', h, he⟩ := hx s
  exact ⟨e, s', bind_error_iff.mpr (.inl h), he⟩

theorem FailsIn.stops {x : FileM ε σ α} {f : α → FileM ε σ β} (hx : FailsIn es x)
    (hf : ∀ a, Stops es (f a)) : Stops es (x >>= f) := by
  intro s
  cases h : x s with
  | ok a s₁ =>
    obtain ⟨e, s', h', he⟩ := hf a s₁
    exact ⟨e, s', bind_error_iff.mpr (.inr ⟨a, s₁, h, h'⟩), he⟩
  | error e s' => exact ⟨e, s', bind_error_iff.mpr (.inl h), hx s e s' h⟩

theorem Stops.not_ok {x : FileM ε σ α} (hx : Stops es x) {s s' : Input σ} {a : α} :
    x s ≠ .ok a s' := by
  obtain ⟨e, s₁, h, -⟩ := hx s
  rw [h]
  exact nofun

end Stops

/-- `y` does what `x` does, unless `x` fails with an error in `es`. -/
def SameUnless (es : ε → Prop) (x y : FileM ε σ α) : Prop :=
  ∀ s, y s = x s ∨ ∃ e s', x s = .error e s' ∧ es e

section SameUnless

variable {es : ε → Prop}

theorem SameUnless.refl (x : FileM ε σ α) : SameUnless es x x := fun _ => .inl rfl

theorem SameUnless.bind {x y : FileM ε σ α} {f g : α → FileM ε σ β} (hx : SameUnless es x y)
    (hf : ∀ a, SameUnless es (f a) (g a)) : SameUnless es (x >>= f) (y >>= g) := by
  intro s
  rcases hx s with heq | ⟨e, s', he, hes⟩
  · cases h : x s with
    | error e s₁ =>
      left
      show EStateM.bind y g s = EStateM.bind x f s
      unfold EStateM.bind
      rw [heq, h]
    | ok a s₁ =>
      rcases hf a s₁ with hfa | ⟨e, s', he, hes⟩
      · left
        show EStateM.bind y g s = EStateM.bind x f s
        unfold EStateM.bind
        rw [heq, h]
        exact hfa
      · exact .inr ⟨e, s', bind_error_iff.mpr (.inr ⟨a, s₁, h, he⟩), hes⟩
  · exact .inr ⟨e, s', bind_error_iff.mpr (.inl he), hes⟩

theorem SameUnless.times {x y : FileM ε σ Unit} (h : SameUnless es x y) (n : Nat) :
    SameUnless es (times x n) (times y n) := by
  induction n with
  | zero => exact .refl _
  | succ n ih => exact h.bind fun _ => ih

end SameUnless

/-- A counted loop fails in one of its passes, the passes before having succeeded. -/
theorem times_error_iff {body : FileM ε σ Unit} {n : Nat} {s s' : Input σ} {e : ε} :
    times body n s = .error e s' ↔
      ∃ k s₁, k < n ∧ times body k s = .ok () s₁ ∧ body s₁ = .error e s' := by
  induction n generalizing s with
  | zero =>
    constructor
    · intro h
      cases h
    · rintro ⟨k, -, hk, -⟩
      exact absurd hk (Nat.not_lt_zero k)
  | succ n ih =>
    rw [times, bind_error_iff]
    constructor
    · rintro (h | ⟨⟨⟩, s₁, hhead, h⟩)
      · exact ⟨0, s, Nat.succ_pos n, rfl, h⟩
      · obtain ⟨k, s₂, hk, htail, hbody⟩ := ih.mp h
        exact ⟨k + 1, s₂, Nat.succ_lt_succ hk, bind_ok_iff.mpr ⟨(), s₁, hhead, htail⟩, hbody⟩
    · rintro ⟨k, s₂, hk, hpasses, hbody⟩
      cases k with
      | zero =>
        cases hpasses
        exact .inl hbody
      | succ k =>
        obtain ⟨⟨⟩, s₁, hhead, htail⟩ := bind_ok_iff.mp hpasses
        exact .inr ⟨(), s₁, hhead, ih.mpr ⟨k, s₂, Nat.lt_of_succ_lt_succ hk, htail, hbody⟩⟩

/-! ## 4. A part of the record -/

section Part

variable {τ : Type} {get : σ → τ}

/-- A reader of a part of the record, which `put` puts back into it. -/
def onPart (get : σ → τ) (put : τ → σ → σ) (y : FileM ε τ α) : FileM ε σ α := fun s =>
  match y ⟨s.file, get s.out⟩ with
  | .ok a s' => .ok a ⟨s'.file, put s'.out s.out⟩
  | .error e s' => .error e ⟨s'.file, put s'.out s.out⟩

theorem FailsIn.onPart {es : ε → Prop} {put : τ → σ → σ} {y : FileM ε τ α} (h : FailsIn es y) :
    FailsIn es (onPart get put y) := by
  intro s e s' hx
  unfold FileRead.onPart at hx
  split at hx
  · cases hx
  · next hy =>
    cases hx
    exact h _ _ _ hy

/-- What a result says about the part. -/
def partOf (get : σ → τ) : EStateM.Result ε (Input σ) α → EStateM.Result ε (Input τ) α
  | .ok a s => .ok a ⟨s.file, get s.out⟩
  | .error e s => .error e ⟨s.file, get s.out⟩

/-- `x` reads the same as `y` and does to the part what `y` does. -/
def Views (get : σ → τ) (x : FileM ε σ α) (y : FileM ε τ α) : Prop :=
  ∀ s, partOf get (x s) = y ⟨s.file, get s.out⟩

theorem views_onPart {put : τ → σ → σ} (h : ∀ t s, get (put t s) = t) (y : FileM ε τ α) :
    Views get (onPart get put y) y := by
  intro s
  unfold onPart
  cases y ⟨s.file, get s.out⟩ with
  | ok a s' => simp [partOf, h]
  | error e s' => simp [partOf, h]

theorem Views.bind {x : FileM ε σ α} {y : FileM ε τ α} {f : α → FileM ε σ β}
    {g : α → FileM ε τ β} (hx : Views get x y) (hf : ∀ a, Views get (f a) (g a)) :
    Views get (x >>= f) (y >>= g) := by
  intro s
  have hxs := hx s
  show partOf get (EStateM.bind x f s) = EStateM.bind y g _
  unfold EStateM.bind
  rw [← hxs]
  cases x s with
  | ok a s' => exact hf a s'
  | error e s' => rfl

theorem views_pure (a : α) : Views get (pure a : FileM ε σ α) (pure a) := fun _ => rfl

theorem views_throw (e : ε) : Views get (throw e : FileM ε σ α) (throw e) := fun _ => rfl

theorem views_fread (n : Nat) : Views get (fread n : FileM ε σ _) (fread n) := fun _ => rfl

theorem views_fill {f : σ → σ} {g : τ → τ} (h : ∀ s, get (f s) = g (get s)) :
    Views get (fill f : FileM ε σ Unit) (fill g) := by
  intro s
  simp [fill, partOf, h]

/-- Assignments to the rest are not seen. -/
theorem Views.fill_left {f : σ → σ} (h : ∀ s, get (f s) = get s) {x : FileM ε σ α}
    {y : FileM ε τ α} (hx : Views get x y) : Views get (fill f >>= fun _ => x) y := by
  intro s
  have hxs := hx ⟨s.file, f s.out⟩
  rw [h] at hxs
  exact hxs

theorem Views.ok_iff {x : FileM ε σ α} {y : FileM ε τ α} (hx : Views get x y) {s : Input σ}
    {a : α} {t : Input τ} :
    y ⟨s.file, get s.out⟩ = .ok a t ↔ ∃ s', x s = .ok a s' ∧ t = ⟨s'.file, get s'.out⟩ := by
  rw [← hx s]
  cases x s with
  | ok b s' => simp [partOf, eq_comm]
  | error e s' => simp [partOf]

end Part

/-- From a record with `P`, the reader ends with one that `Q` holds of, or gives up with one that
`E` holds of. -/
def Triple (P : σ → Prop) (x : FileM ε σ α) (Q E : σ → Prop) : Prop :=
  ∀ s, P s.out →
    match x s with
    | .ok _ s' => Q s'.out
    | .error _ s' => E s'.out

section Triple

variable {P Q R E : σ → Prop}

theorem Triple.ok {x : FileM ε σ α} (h : Triple P x Q E) {s s' : Input σ} {a : α}
    (hs : P s.out) (hx : x s = .ok a s') : Q s'.out := by
  have hres := h s hs
  rwa [hx] at hres

theorem Triple.error {x : FileM ε σ α} (h : Triple P x Q E) {s s' : Input σ} {e : ε}
    (hs : P s.out) (hx : x s = .error e s') : E s'.out := by
  have hres := h s hs
  rwa [hx] at hres

theorem Triple.bind {x : FileM ε σ α} {f : α → FileM ε σ β} (hx : Triple P x Q E)
    (hf : ∀ a, Triple Q (f a) R E) : Triple P (x >>= f) R E := by
  intro s hs
  cases h : (x >>= f) s with
  | ok b s' =>
    obtain ⟨a, s₁, h₁, h₂⟩ := bind_ok_iff.mp h
    exact (hf a).ok (hx.ok hs h₁) h₂
  | error e s' =>
    rcases bind_error_iff.mp h with h | ⟨a, s₁, h₁, h₂⟩
    · exact hx.error hs h
    · exact (hf a).error (hx.ok hs h₁) h₂

/-- A weaker condition for the case that it gives up. -/
theorem Triple.weaken {E' : σ → Prop} {x : FileM ε σ α} (h : Triple P x Q E)
    (hE : ∀ r, E r → E' r) : Triple P x Q E' := by
  intro s hs
  cases hx : x s with
  | ok a s' => exact h.ok hs hx
  | error e s' => exact hE _ (h.error hs hx)

/-- What is kept when a part is assigned to is kept by a reader of that part. -/
theorem triple_onPart {τ : Type} {get : σ → τ} {put : τ → σ → σ} (h : ∀ t r, P r → P (put t r))
    (y : FileM ε τ α) : Triple P (onPart get put y) P P := by
  intro s hs
  unfold onPart
  cases y ⟨s.file, get s.out⟩ with
  | ok a s' => exact h _ _ hs
  | error e s' => exact h _ _ hs

theorem triple_fill {f : σ → σ} (h : ∀ r, P r → Q (f r)) :
    Triple P (fill f : FileM ε σ Unit) Q E := fun _ hs => h _ hs

theorem triple_pure (h : ∀ r, P r → Q r) (a : α) : Triple P (pure a : FileM ε σ α) Q E :=
  fun _ hs => h _ hs

theorem triple_throw (h : ∀ r, P r → E r) (e : ε) : Triple P (throw e : FileM ε σ α) Q E :=
  fun _ hs => h _ hs

theorem triple_fread (n : Nat) : Triple P (fread n : FileM ε σ _) P E := fun _ hs => hs

end Triple

end FileRead
