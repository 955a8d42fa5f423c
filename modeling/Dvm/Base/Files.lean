/-
# Files that commands write, and may leave cut off

A command looks at the files and asks for at most one to be written, as the encoding of some
value.  The disk refuses the file, or takes a beginning of it, whatever the command is told about
that.  After a run of commands every file is as it was, or the beginning of what the command that
wrote it last meant to write (`Run.of_unwritten`, `Run.of_last`).

In a sealed format no text that is cut off can be read.  What a reader accepts is then exactly
what the last command meant (`Sealed.read_last`).  Commands none of which writes a file that
another one uses can run in any order (`Run.perm`).
-/
import Mathlib.Data.List.Perm.Basic
import Mathlib.Logic.Function.Basic
import Dvm.Base.Runs

namespace Files

open Runs

variable {P B A C : Type}

/-! ## 1. Files, and what the disk makes of a write -/

/-- The contents of the files that there are. -/
abbrev Store (P B : Type) := P → Option (List B)

/-- What becomes of a file that is written. -/
inductive Disk where
  /-- It cannot be opened. -/
  | refused
  /-- Its first `n` bytes arrive; the command is told `ok`. -/
  | took (n : Nat) (ok : Bool)

/-- What the command is told. -/
def Disk.ok : Disk → Bool
  | .refused => false
  | .took _ ok => ok

variable [DecidableEq P]

def Disk.write (d : Disk) (path : P) (bs : List B) (fs : Store P B) : Store P B :=
  match d with
  | .refused => fs
  | .took n _ => Function.update fs path (some (bs.take n))

/-! ## 2. Runs of commands -/

/-- A command that was carried out: what it asked for, and what the disk made of it. -/
structure Event (C P A : Type) where
  cmd : C
  asks : Option (P × A)
  disk : Disk

/-- What the event puts behind a path. -/
def Event.puts (e : Event C P A) (path : P) : Option A :=
  match e.asks, e.disk with
  | some (out, a), .took _ _ => if out = path then some a else none
  | _, _ => none

/-- The files after an event. -/
def Event.apply (enc : A → List B) (e : Event C P A) (fs : Store P B) : Store P B :=
  match e.asks with
  | none => fs
  | some (out, a) => e.disk.write out (enc a) fs

/-- A command is carried out; `does cmd fs asks` says what it asks for. -/
def Step (does : C → Store P B → Option (P × A) → Prop) (enc : A → List B) (fs : Store P B)
    (e : Event C P A) (fs' : Store P B) : Prop :=
  does e.cmd fs e.asks ∧ fs' = e.apply enc fs

/-- What was written to a path last. -/
def lastPut (path : P) : List (Event C P A) → Option A
  | [] => none
  | e :: es => (lastPut path es).or (e.puts path)

theorem lastPut_append (path : P) (es es' : List (Event C P A)) :
    lastPut path (es ++ es') = (lastPut path es').or (lastPut path es) := by
  induction es with
  | nil => simp [lastPut]
  | cons e es ih => rw [List.cons_append, lastPut, ih, lastPut, Option.or_assoc]

theorem Event.apply_took {enc : A → List B} {e : Event C P A} {path : P} {a : A} {n : Nat}
    {ok : Bool} (hasks : e.asks = some (path, a)) (hdisk : e.disk = .took n ok) (fs : Store P B) :
    e.apply enc fs = Function.update fs path (some ((enc a).take n)) := by
  rw [Event.apply, hasks]
  dsimp only
  rw [hdisk, Disk.write]

theorem asks_of_puts {e : Event C P A} {path : P} {a : A} (h : e.puts path = some a) :
    e.asks = some (path, a) := by
  obtain ⟨cmd, asks, disk⟩ := e
  cases asks with
  | none => cases h
  | some x =>
    cases disk with
    | refused => cases h
    | took n ok =>
      obtain ⟨rfl, rfl⟩ : x.1 = path ∧ x.2 = a := by simpa [Event.puts] using h
      rfl

theorem Event.apply_of_puts_none {enc : A → List B} {e : Event C P A} {path : P}
    (h : e.puts path = none) (fs : Store P B) : e.apply enc fs path = fs path := by
  obtain ⟨cmd, asks, disk⟩ := e
  cases asks with
  | none => rfl
  | some x =>
    cases disk with
    | refused => rfl
    | took n ok =>
      have hne : x.1 ≠ path := by simpa [Event.puts] using h
      exact Function.update_of_ne hne.symm _ _

theorem Event.apply_of_puts {enc : A → List B} {e : Event C P A} {path : P} {a : A}
    (h : e.puts path = some a) (fs : Store P B) :
    ∃ n, e.apply enc fs path = some ((enc a).take n) := by
  obtain ⟨cmd, asks, disk⟩ := e
  cases asks with
  | none => cases h
  | some x =>
    cases disk with
    | refused => cases h
    | took n ok =>
      obtain ⟨rfl, rfl⟩ : x.1 = path ∧ x.2 = a := by simpa [Event.puts] using h
      exact ⟨n, Function.update_self _ _ _⟩

section Run

variable {does : C → Store P B → Option (P × A) → Prop} {enc : A → List B}
  {fs fs' : Store P B} {es : List (Event C P A)} {path : P}

/-- Nothing but a command's output changes. -/
theorem Run.of_unwritten (run : Run (Step does enc) fs es fs') (h : lastPut path es = none) :
    fs' path = fs path := by
  induction run with
  | start => rfl
  | next _ hstep ih =>
    rw [lastPut_append, Option.or_eq_none_iff] at h
    rw [hstep.2, Event.apply_of_puts_none (by simpa [lastPut] using h.1), ih h.2]

/-- A file that was written is the beginning of what was written last. -/
theorem Run.of_last {a : A} (run : Run (Step does enc) fs es fs')
    (h : lastPut path es = some a) : ∃ n, fs' path = some ((enc a).take n) := by
  induction run with
  | start => cases h
  | @next es s s' e _ hstep ih =>
    rw [lastPut_append] at h
    rw [hstep.2]
    cases hput : e.puts path with
    | none =>
      have hlast : lastPut path es = some a := by simpa [lastPut, hput] using h
      rw [Event.apply_of_puts_none hput]
      exact ih hlast
    | some b =>
      obtain rfl : b = a := by simpa [lastPut, hput] using h
      exact Event.apply_of_puts hput s

/-- What was written last was asked for by a command. -/
theorem Run.does_of_last {a : A} (run : Run (Step does enc) fs es fs')
    (h : lastPut path es = some a) : ∃ cmd fs₁, does cmd fs₁ (some (path, a)) := by
  induction run with
  | start => cases h
  | @next es s s' e _ hstep ih =>
    rw [lastPut_append] at h
    cases hput : e.puts path with
    | none => exact ih (by simpa [lastPut, hput] using h)
    | some b =>
      obtain rfl : b = a := by simpa [lastPut, hput] using h
      exact ⟨e.cmd, s, asks_of_puts hput ▸ hstep.1⟩

/-- Every event of a run was asked for. -/
theorem Run.does_of_mem {e : Event C P A} (run : Run (Step does enc) fs es fs') (he : e ∈ es) :
    ∃ fs₁, does e.cmd fs₁ e.asks := by
  induction run with
  | start => cases he
  | next _ hstep ih =>
    rcases List.mem_append.mp he with he | he
    · exact ih he
    · obtain rfl := List.mem_singleton.mp he
      exact ⟨_, hstep.1⟩

end Run

/-! ## 3. Formats -/

/-- A format in which whole texts can be read, and none that is cut off. -/
structure Sealed (read : List B → Option A) (enc : A → List B) (Fits : A → Prop)
    (norm : A → A) : Prop where
  whole : ∀ a, Fits a → read (enc a) = some (norm a)
  cut : ∀ a n, Fits a → n < (enc a).length → read ((enc a).take n) = none

/-- What can be read of a beginning of a text is the text. -/
theorem Sealed.of_take {read : List B → Option A} {enc : A → List B} {Fits : A → Prop}
    {norm : A → A} (hs : Sealed read enc Fits norm) {a b : A} {n : Nat} (hfits : Fits a)
    (hread : read ((enc a).take n) = some b) : (enc a).take n = enc a ∧ b = norm a := by
  rcases Nat.lt_or_ge n (enc a).length with hlt | hle
  · rw [hs.cut a n hfits hlt] at hread
    cases hread
  · have hall : (enc a).take n = enc a := List.take_of_length_le hle
    rw [hall, hs.whole a hfits, Option.some.injEq] at hread
    exact ⟨hall, hread.symm⟩

/-- A file that can be read is what was written last. -/
theorem Sealed.read_last {does : C → Store P B → Option (P × A) → Prop} {enc : A → List B}
    {read : List B → Option A} {Fits : A → Prop} {norm : A → A} (hs : Sealed read enc Fits norm)
    {fs fs' : Store P B} {es : List (Event C P A)} {path : P} {a b : A} {bs : List B}
    (run : Run (Step does enc) fs es fs') (hlast : lastPut path es = some a) (hfits : Fits a)
    (hbs : fs' path = some bs) (hread : read bs = some b) : bs = enc a ∧ b = norm a := by
  obtain ⟨n, hn⟩ := Run.of_last run hlast
  obtain rfl : (enc a).take n = bs := Option.some.inj (hn.symm.trans hbs)
  exact hs.of_take hfits hread

/-! ## 4. Commands in another order -/

/-- The command looks at no files but those of `reads`. -/
def LooksAt (does : C → Store P B → Option (P × A) → Prop) (reads : C → P → Prop) : Prop :=
  ∀ cmd fs fs' asks, (∀ path, reads cmd path → fs path = fs' path) →
    does cmd fs asks → does cmd fs' asks

/-- The file is the event's output. -/
def Event.Out (e : Event C P A) (path : P) : Prop := ∃ a, e.asks = some (path, a)

/-- Neither event writes what the other one reads or writes. -/
structure Apart (reads : C → P → Prop) (e e' : Event C P A) : Prop where
  left : ∀ path, e.Out path → ¬ reads e'.cmd path
  right : ∀ path, e'.Out path → ¬ reads e.cmd path
  outs : ∀ path, e.Out path → ¬ e'.Out path

omit [DecidableEq P] in
theorem Apart.symm {reads : C → P → Prop} {e e' : Event C P A} (h : Apart reads e e') :
    Apart reads e' e :=
  ⟨h.right, h.left, fun path hout hout' => h.outs path hout' hout⟩

theorem Event.apply_of_not_out {enc : A → List B} {e : Event C P A} {path : P}
    (h : ¬ e.Out path) (fs : Store P B) : e.apply enc fs path = fs path := by
  refine apply_of_puts_none ?_ fs
  cases hput : e.puts path with
  | none => rfl
  | some a => exact absurd ⟨a, asks_of_puts hput⟩ h

/-- What an event puts behind its output depends on the file that was there only. -/
theorem Event.apply_congr {enc : A → List B} {fs fs' : Store P B} {path : P} (e : Event C P A)
    (h : fs path = fs' path) : e.apply enc fs path = e.apply enc fs' path := by
  obtain ⟨cmd, asks, disk⟩ := e
  cases asks with
  | none => exact h
  | some x =>
    cases disk with
    | refused => exact h
    | took n ok =>
      show Function.update fs x.1 _ path = Function.update fs' x.1 _ path
      by_cases heq : path = x.1
      · subst heq
        rw [Function.update_self, Function.update_self]
      · rw [Function.update_of_ne heq, Function.update_of_ne heq, h]

theorem Event.apply_comm {enc : A → List B} {e e' : Event C P A} {reads : C → P → Prop}
    (h : Apart reads e e') (fs : Store P B) :
    e'.apply enc (e.apply enc fs) = e.apply enc (e'.apply enc fs) := by
  funext path
  by_cases hout : e.Out path
  · have hout' := h.outs path hout
    rw [apply_of_not_out hout', apply_congr e (apply_of_not_out hout' fs).symm]
  · rw [apply_of_not_out hout, apply_congr e' (apply_of_not_out hout fs)]

section Perm

variable {does : C → Store P B → Option (P × A) → Prop} {enc : A → List B} {reads : C → P → Prop}
  {fs fs' : Store P B}

/-- Two neighbouring events change places. -/
theorem Step.swap (hlook : LooksAt does reads) {e e' : Event C P A} (h : Apart reads e e')
    {fs₁ : Store P B} (h₁ : Step does enc fs e fs₁) (h₂ : Step does enc fs₁ e' fs') :
    ∃ fs₂, Step does enc fs e' fs₂ ∧ Step does enc fs₂ e fs' := by
  obtain ⟨hdo, rfl⟩ := h₁
  obtain ⟨hdo', rfl⟩ := h₂
  refine ⟨e'.apply enc fs, ⟨?_, rfl⟩, ?_, Event.apply_comm h fs⟩
  · refine hlook _ _ _ _ (fun path hread => ?_) hdo'
    exact Event.apply_of_not_out (fun hout => h.left path hout hread) fs
  · refine hlook _ _ _ _ (fun path hread => ?_) hdo
    exact (Event.apply_of_not_out (fun hout => h.right path hout hread) fs).symm

/-- Events that are apart from each other lead to the same files in any order, by induction on
how the order comes about. -/
theorem Run.perm (hlook : LooksAt does reads) {es es' : List (Event C P A)} (hperm : es.Perm es')
    (hapart : es.Pairwise (Apart reads)) (run : Run (Step does enc) fs es fs') :
    Run (Step does enc) fs es' fs' := by
  induction hperm generalizing fs with
  | nil => exact run
  | @cons e es es' _ ih =>
    obtain ⟨fs₁, hfirst, hrest⟩ := run.head
    exact (Run.single hfirst).trans (ih (List.pairwise_cons.mp hapart).2 hrest)
  | @swap e e' es =>
    obtain ⟨fs₁, h₁, hrun⟩ := run.head
    obtain ⟨fs₂, h₂, hrest⟩ := hrun.head
    have hpair := (List.pairwise_cons.mp hapart).1 e (List.mem_cons_self ..)
    obtain ⟨fs₃, h₃, h₄⟩ := Step.swap hlook hpair h₁ h₂
    exact ((Run.single h₃).next h₄).trans hrest
  | @trans es es₁ es₂ hp _ ih₁ ih₂ =>
    exact ih₂ (hp.pairwise hapart fun h => h.symm) (ih₁ hapart run)

end Perm

end Files
