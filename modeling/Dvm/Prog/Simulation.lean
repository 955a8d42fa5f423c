/-
# Runs of a listing

Runs of the machine of a listing and runs of the interpreter on the code it is laid out as are
the same runs, as long as the code is not overwritten: each run of the machine is one of the
interpreter (`LaidOut.run_conc`), and each run of the interpreter is one of the machine until
control leaves the listing (`LaidOut.run_list`).
-/
import Mathlib.Data.List.Forall2
import Dvm.Prog.Layout

namespace Dvm

open ByteMem Runs

/-! ## 1. Steps of both sides -/

/-- Instruction `k` is executed, or memory changes from outside. -/
inductive ListEvent where
  | instr (k : Nat)
  | host
  deriving DecidableEq, Repr

abbrev ListConfig := ListState × Mem

inductive ListStep (prog : List (SymInstr Nat)) (place : Nat → Word) :
    ListConfig → ListEvent → ListConfig → Prop
  | instr {s s' : ListState} {m m' : Mem} (sys : SysAnswer) :
      listStep prog place sys s m = .next s' m' →
      ListStep prog place (s, m) (.instr s.pc) (s', m')
  | host {s : ListState} {m : Mem} (m' : Mem) : ListStep prog place (s, m) .host (s, m')

/-- A step of the machine that does not overwrite the code. -/
def KeepsListing (a : Word) (prog : List (SymInstr Nat)) (text : List Byte) (c : ListConfig)
    (e : ListEvent) (c' : ListConfig) : Prop :=
  ListStep prog (instrPlace a prog) c e c' ∧ TextAt a text c'.2

/-- The event of the interpreter that is an event of the machine. -/
inductive SameEvent (place : Nat → Word) : ListEvent → Event → Prop
  | instr {k : Nat} {op : Op} {o : Operands} {before after : VMThread} :
      before.ip = place k → SameEvent place (.instr k) (.exec op o before after)
  | host : SameEvent place .host .host

/-- Control leaves the listing in the next step. -/
def LeavesListing (prog : List (SymInstr Nat)) (place : Nat → Word) (c : ListConfig) : Prop :=
  ∃ sys, listStep prog place sys c.1 c.2 = .stray

/-! ## 2. Whole runs -/

section Runs

variable {a : Word} {prog : List (SymInstr Nat)} {text : List Byte} {s₀ : ListState} {m₀ : Mem}

/-- The code is there in every state of a run that does not overwrite it. -/
theorem textAt_of_run (ht : TextAt a text m₀) {es : List ListEvent} {c : ListConfig}
    (h : Run (KeepsListing a prog text) (s₀, m₀) es c) : TextAt a text c.2 := by
  cases h with
  | start => exact ht
  | next _ hs => exact hs.2

/-- A step of the machine, taken by the interpreter. -/
theorem LaidOut.step_conc (h : LaidOut a prog text) {c c' : ListConfig} {e : ListEvent}
    (ht : TextAt a text c.2) (hs : KeepsListing a prog text c e c') :
    ∃ e', SameEvent (instrPlace a prog) e e' ∧
      KeepsText a text (c.1.conc (instrPlace a prog), c.2) e'
        (c'.1.conc (instrPlace a prog), c'.2) := by
  obtain ⟨hstep, ht'⟩ := hs
  cases hstep with
  | @instr s s' m m' sys hnext =>
    have hout := h.listStep_conc ht sys s (by rw [hnext]; rfl)
    obtain ⟨op, o, hfetch⟩ : ∃ op o,
        fetchInstr m (s.conc (instrPlace a prog)).ip = some (op, o) := by
      cases hf : fetchInstr m (s.conc (instrPlace a prog)).ip with
      | none =>
        rw [step, hf] at hout
        cases hout
      | some i => exact ⟨i.1, i.2, rfl⟩
    exact ⟨_, .instr rfl, .exec sys hfetch hout, ht'⟩
  | host m' => exact ⟨_, .host, .host m', ht'⟩

/-- A step of the interpreter is one of the machine, or control leaves the listing. -/
theorem LaidOut.step_list (h : LaidOut a prog text) {c : ListConfig} {e' : Event} {t' : VMState}
    (ht : TextAt a text c.2)
    (hs : KeepsText a text (c.1.conc (instrPlace a prog), c.2) e' t') :
    (∃ e c', SameEvent (instrPlace a prog) e e' ∧ KeepsListing a prog text c e c' ∧
      t' = (c'.1.conc (instrPlace a prog), c'.2)) ∨
    LeavesListing prog (instrPlace a prog) c := by
  obtain ⟨s, m⟩ := c
  obtain ⟨hstep, ht'⟩ := hs
  cases hstep with
  | @exec _ t'' _ m'' op o sys hfetch hnext =>
    cases hlist : listStep prog (instrPlace a prog) sys s m with
    | next s' m' =>
      have hout := h.listStep_conc ht sys s (by rw [hlist]; rfl)
      rw [hnext, Outcome.next.injEq] at hout
      obtain ⟨rfl, rfl⟩ := hout
      exact .inl ⟨_, (s', m''), .instr rfl, ⟨.instr sys hlist, ht'⟩, rfl⟩
    | halted s' m' =>
      have hout := h.listStep_conc ht sys s (by rw [hlist]; rfl)
      rw [hnext] at hout
      cases hout
    | aborted why s' =>
      have hout := h.listStep_conc ht sys s (by rw [hlist]; rfl)
      rw [hnext] at hout
      cases hout
    | exited =>
      have hout := h.listStep_conc ht sys s (by rw [hlist]; rfl)
      rw [hnext] at hout
      cases hout
    | undefined =>
      have hout := h.listStep_conc ht sys s (by rw [hlist]; rfl)
      rw [hnext] at hout
      cases hout
    | stray => exact .inr ⟨sys, hlist⟩
  | host m' => exact .inl ⟨_, (s, m'), .host, ⟨.host m', ht'⟩, rfl⟩

/-- Every run of the machine is one of the interpreter. -/
theorem LaidOut.run_conc (h : LaidOut a prog text) (ht : TextAt a text m₀) {es : List ListEvent}
    {c : ListConfig} (hrun : Run (KeepsListing a prog text) (s₀, m₀) es c) :
    ∃ es', List.Forall₂ (SameEvent (instrPlace a prog)) es es' ∧
      Run (KeepsText a text) (s₀.conc (instrPlace a prog), m₀) es'
        (c.1.conc (instrPlace a prog), c.2) := by
  induction hrun with
  | start => exact ⟨[], .nil, .start⟩
  | next hr hs ih =>
    obtain ⟨es', hall, hr'⟩ := ih
    obtain ⟨e', he, hs'⟩ := h.step_conc (textAt_of_run ht hr) hs
    exact ⟨es' ++ [e'], List.rel_append hall (.cons he .nil), hr'.next hs'⟩

/-- Every run of the interpreter is one of the machine, until control leaves the listing. -/
theorem LaidOut.run_list (h : LaidOut a prog text) (ht : TextAt a text m₀) {es' : List Event}
    {t : VMState}
    (hrun : Run (KeepsText a text) (s₀.conc (instrPlace a prog), m₀) es' t) :
    (∃ es c, List.Forall₂ (SameEvent (instrPlace a prog)) es es' ∧
      Run (KeepsListing a prog text) (s₀, m₀) es c ∧
      t = (c.1.conc (instrPlace a prog), c.2)) ∨
    ∃ n es c, n < es'.length ∧
      List.Forall₂ (SameEvent (instrPlace a prog)) es (es'.take n) ∧
      Run (KeepsListing a prog text) (s₀, m₀) es c ∧ LeavesListing prog (instrPlace a prog) c := by
  induction hrun with
  | start => exact .inl ⟨[], (s₀, m₀), .nil, .start, rfl⟩
  | @next es' t t' e' hr hs ih =>
    rcases ih with ⟨es, c, hall, hlist, rfl⟩ | ⟨n, es, c, hn, hall, hlist, hstray⟩
    · rcases h.step_list (textAt_of_run ht hlist) hs with ⟨e, c', he, hs', rfl⟩ | hstray
      · exact .inl ⟨es ++ [e], c', List.rel_append hall (.cons he .nil), hlist.next hs', rfl⟩
      · refine .inr ⟨es'.length, es, c, by simp, ?_, hlist, hstray⟩
        rwa [List.take_left]
    · refine .inr ⟨n, es, c, ?_, ?_, hlist, hstray⟩
      · rw [List.length_append]
        omega
      · rwa [List.take_append_of_le_length (Nat.le_of_lt hn)]

end Runs

/-! ## 3. Running a listing -/

/-- The interpreter on the code at `a`, from the thread of `s₀` on, runs the listing. -/
structure RunsListing (a : Word) (prog : List (SymInstr Nat)) (text : List Byte) (s₀ : ListState)
    (m₀ : Mem) : Prop where
  /-- Every run of the listing is one of the interpreter, -/
  listed : ∀ es c, Run (KeepsListing a prog text) (s₀, m₀) es c →
    ∃ es', List.Forall₂ (SameEvent (instrPlace a prog)) es es' ∧
      Run (KeepsText a text) (s₀.conc (instrPlace a prog), m₀) es'
        (c.1.conc (instrPlace a prog), c.2)
  /-- every run of the interpreter is one of the listing until that is left, -/
  run : ∀ es' t, Run (KeepsText a text) (s₀.conc (instrPlace a prog), m₀) es' t →
    (∃ es c, List.Forall₂ (SameEvent (instrPlace a prog)) es es' ∧
      Run (KeepsListing a prog text) (s₀, m₀) es c ∧
      t = (c.1.conc (instrPlace a prog), c.2)) ∨
    ∃ n es c, n < es'.length ∧
      List.Forall₂ (SameEvent (instrPlace a prog)) es (es'.take n) ∧
      Run (KeepsListing a prog text) (s₀, m₀) es c ∧ LeavesListing prog (instrPlace a prog) c
  /-- and from each state both go on in the same way. -/
  goesOn : ∀ es c, Run (KeepsListing a prog text) (s₀, m₀) es c → ∀ sys out,
    (listStep prog (instrPlace a prog) sys c.1 c.2).conc (instrPlace a prog) = some out →
      step sys (c.1.conc (instrPlace a prog)) c.2 = out

theorem LaidOut.runsListing {a : Word} {prog : List (SymInstr Nat)} {text : List Byte}
    (h : LaidOut a prog text) {m₀ : Mem} (ht : TextAt a text m₀) (s₀ : ListState) :
    RunsListing a prog text s₀ m₀ where
  listed _ _ hrun := h.run_conc ht hrun
  run _ _ hrun := h.run_list ht hrun
  goesOn _ _ hrun _ _ hout := h.listStep_conc (textAt_of_run ht hrun) _ _ hout

/-- The machine at the first instruction, with no call open. -/
def listInit (t : VMThread) : ListState := ⟨0, [], t, Nat.zero_le _⟩

theorem listInit_conc (vmStack a stackSize : Word) (prog : List (SymInstr Nat)) :
    (listInit (vmRun vmStack a stackSize)).conc (instrPlace a prog)
      = vmRun vmStack a stackSize := by
  rw [ListState.conc, instrPlace_zero]
  show (vmRun vmStack a stackSize).withFlow ⟨instrPlace a prog 0, _, a⟩ = _
  rw [instrPlace_zero]
  rfl

end Dvm
