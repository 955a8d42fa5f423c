/-
# Contracts of routines

A program logic for the machine of a listing.  What is proved about an instruction is `Until`: it
is carried out, whatever the system calls answer, and the rest is reached.  A routine is what a
call leads to.  Its contract (`Contract`) says what it needs of registers, memory and free frames,
what it leaves alone while it runs, and what is so when it returns or throws; `Meets` is total
correctness for every caller.  A call of a routine that meets its contract is one step of its
caller (`until_call`).

The interpreter keeps the contracts of a listing wherever that is laid out (`LaidOut.calls`).
-/
import Dvm.Base.Until
import Dvm.Prog.Simulation

namespace Dvm

open ByteMem Eventual

/-! ## 1. Rules for instructions -/

/-- One instruction, a system call answered in any way. -/
def ListGo (prog : List (SymInstr Nat)) (place : Nat → Word) (c c' : ListConfig) : Prop :=
  ∃ sys, listStep prog place sys c.1 c.2 = .next c'.1 c'.2

section Rules

variable {prog : List (SymInstr Nat)} {place : Nat → Word} {I Q : ListConfig → Prop}
  {pc : Nat} {frames : List (Nat × Nat)} {fits : frames.length ≤ frameDepth} {t t' : VMThread}
  {m m' : Mem}

/-- The outcome of an instruction that does not ask the system. -/
theorem until_of_next {s s' : ListState}
    (hnext : ∀ sys, listStep prog place sys s m = .next s' m') (hI : I (s, m))
    (h : Until (ListGo prog place) I Q (s', m')) : Until (ListGo prog place) I Q (s, m) := by
  refine .of_step hI ⟨none, hnext none⟩ ?_ h
  rintro ⟨s'', m''⟩ ⟨sys, hs⟩
  have heq := (hnext sys).symm.trans hs
  obtain ⟨rfl, rfl⟩ := ListOutcome.next.inj heq
  rfl

theorem until_plain {op : Op} {o : Operands} {straight : op.flow = .straight}
    (hi : prog[pc]? = some (.plain op o straight))
    (hexec : ∀ sys, exec sys op o t m = .next t' m') (hI : I (⟨pc, frames, t, fits⟩, m))
    (h : Until (ListGo prog place) I Q (⟨pc + 1, frames, t', fits⟩, m')) :
    Until (ListGo prog place) I Q (⟨pc, frames, t, fits⟩, m) := by
  refine until_of_next (fun sys => ?_) hI h
  have hexec' : exec sys op o ((⟨pc, frames, t, fits⟩ : ListState).goto (pc + 1)).regs m
      = .next t' m' := hexec sys
  rw [listStep, hi]
  simp only [listExec]
  rw [hexec']
  rfl

theorem until_jump {op : Op} {dest : Nat} {jumps : op.flow = .jump}
    (hi : prog[pc]? = some (.jump op dest jumps)) (hI : I (⟨pc, frames, t, fits⟩, m))
    (htaken : op.taken t.fl = true →
      Until (ListGo prog place) I Q (⟨dest, frames, t, fits⟩, m))
    (hpassed : op.taken t.fl = false →
      Until (ListGo prog place) I Q (⟨pc + 1, frames, t, fits⟩, m)) :
    Until (ListGo prog place) I Q (⟨pc, frames, t, fits⟩, m) := by
  have hstep : ∀ sys, listStep prog place sys ⟨pc, frames, t, fits⟩ m
      = .next (if op.taken t.fl then ⟨dest, frames, t, fits⟩ else ⟨pc + 1, frames, t, fits⟩) m := by
    intro sys
    rw [listStep, hi]
    rfl
  cases hfl : op.taken t.fl with
  | true => exact until_of_next (fun sys => by rw [hstep, hfl]; rfl) hI (htaken hfl)
  | false => exact until_of_next (fun sys => by rw [hstep, hfl]; rfl) hI (hpassed hfl)

/-- Back to one of the two places of the innermost frame. -/
theorem until_leave {f : Nat × Nat} {fits : (f :: frames).length ≤ frameDepth} {i : SymInstr Nat}
    {pick : Nat × Nat → Nat} (hi : prog[pc]? = some i)
    (hpick : i = .ret ∧ pick = Prod.fst ∨ i = .throw ∧ pick = Prod.snd)
    (hI : I (⟨pc, f :: frames, t, fits⟩, m))
    (h : Until (ListGo prog place) I Q (⟨pick f, frames, t, Nat.le_of_succ_le fits⟩, m)) :
    Until (ListGo prog place) I Q (⟨pc, f :: frames, t, fits⟩, m) := by
  refine until_of_next (fun sys => ?_) hI h
  rw [listStep, hi]
  rcases hpick with ⟨rfl, rfl⟩ | ⟨rfl, rfl⟩ <;> rfl

end Rules

/-! ## 2. Instructions on registers, flags and stack pointer -/

/-- Registers with another value in one of them. -/
def regSet (g : Reg → Word) (d : Reg) (v : Word) : Reg → Word := fun k => if k = d then v else g k

/-- A thread with other registers, flags and stack pointer. -/
def VMThread.withRegs (t : VMThread) (g : Reg → Word) (fl sp : Word) : VMThread :=
  { t with gpr := g, fl := fl, sp := sp }

section Instructions

variable {sys : SysAnswer} {t : VMThread} {g : Reg → Word} {fl fl' sp sp' v : Word} {m : Mem}
  {o : Operands}

@[simp] theorem regSet_apply (d k : Reg) : regSet g d v k = if k = d then v else g k := rfl

theorem exec_movRI : exec sys .movRI o (t.withRegs g fl sp) m
    = .next (t.withRegs (regSet g o.d o.imm) fl sp) m := rfl

theorem exec_movRR (hv : g o.s = v) : exec sys .movRR o (t.withRegs g fl sp) m
    = .next (t.withRegs (regSet g o.d v) fl sp) m := hv ▸ rfl

theorem exec_mul (hv : g o.d * g o.s = v) : exec sys .mul o (t.withRegs g fl sp) m
    = .next (t.withRegs (regSet g o.d v) fl sp) m := hv ▸ rfl

theorem exec_sub (hv : g o.d - g o.s = v) : exec sys .sub o (t.withRegs g fl sp) m
    = .next (t.withRegs (regSet g o.d v) fl sp) m := hv ▸ rfl

theorem exec_add (hv : g o.d + g o.s = v) : exec sys .add o (t.withRegs g fl sp) m
    = .next (t.withRegs (regSet g o.d v) fl sp) m := hv ▸ rfl

theorem exec_cmp (hfl : cmpFlags (g o.d) (g o.s) = fl') : exec sys .cmp o (t.withRegs g fl sp) m
    = .next (t.withRegs g fl' sp) m := hfl ▸ rfl

theorem exec_push (hv : g o.d = v) (hsp : sp - 8 = sp') :
    exec sys .push o (t.withRegs g fl sp) m = .next (t.withRegs g fl sp') (store 8 m sp' v) :=
  hv ▸ hsp ▸ rfl

theorem exec_pop (hv : load 8 m sp = v) (hsp : sp + 8 = sp') :
    exec sys .pop o (t.withRegs g fl sp) m = .next (t.withRegs (regSet g o.d v) fl sp') m :=
  hv ▸ hsp ▸ rfl

end Instructions

/-! ## 3. Contracts -/

/-- What a routine needs and what it does; the first thread and memory are those at its entry. -/
structure Contract where
  /-- The most frames it has open at once, with its own. -/
  depth : Nat
  requires : VMThread → Mem → Prop
  /-- The memory while it runs. -/
  keeps : VMThread → Mem → Mem → Prop
  returns : VMThread → Mem → VMThread → Mem → Prop
  throws : VMThread → Mem → VMThread → Mem → Prop

namespace Contract

variable (C : Contract)

/-- While the routine runs, called with the frames `fs` open. -/
def Inside (t : VMThread) (m : Mem) (fs : List (Nat × Nat)) (c : ListConfig) : Prop :=
  c.1.frames.length ≤ fs.length + C.depth ∧ C.keeps t m c.2

/-- The routine returned or threw, to a place of its frame. -/
def Left (t : VMThread) (m : Mem) (f : Nat × Nat) (fs : List (Nat × Nat)) (c : ListConfig) :
    Prop :=
  c.1.frames = fs ∧ C.keeps t m c.2 ∧
    (c.1.pc = f.1 ∧ C.returns t m c.1.regs c.2 ∨ c.1.pc = f.2 ∧ C.throws t m c.1.regs c.2)

end Contract

/-- The routine at instruction `k` meets the contract, whoever calls it. -/
def Meets (prog : List (SymInstr Nat)) (place : Nat → Word) (k : Nat) (C : Contract) : Prop :=
  ∀ (f : Nat × Nat) (fs : List (Nat × Nat)) (t : VMThread) (m : Mem)
    (fits : (f :: fs).length ≤ frameDepth), fs.length + C.depth ≤ frameDepth →
    C.requires t m →
    Until (ListGo prog place) (C.Inside t m fs) (C.Left t m f fs) (⟨k, f :: fs, t, fits⟩, m)

section Calls

variable {prog : List (SymInstr Nat)} {place : Nat → Word} {I Q : ListConfig → Prop}
  {pc : Nat} {frames : List (Nat × Nat)} {fits : frames.length ≤ frameDepth} {t : VMThread}
  {m : Mem} {C : Contract}

/-- A call is one step of the caller: behind it the routine has returned, at the error label it
has thrown. -/
theorem until_call {k err : Nat} (hi : prog[pc]? = some (.call k err)) (hC : Meets prog place k C)
    (hpos : 0 < C.depth) (hroom : frames.length + C.depth ≤ frameDepth)
    (hreq : C.requires t m) (hI : I (⟨pc, frames, t, fits⟩, m))
    (hinside : ∀ c, C.Inside t m frames c → I c)
    (hleft : ∀ c, C.Left t m (pc + 1, err) frames c → Until (ListGo prog place) I Q c) :
    Until (ListGo prog place) I Q (⟨pc, frames, t, fits⟩, m) := by
  have hfits : frames.length < frameDepth := by omega
  have hrun := hC (pc + 1, err) frames t m hfits hroom hreq
  refine until_of_next (fun sys => ?_) hI ((hrun.mono hinside fun c => id).bind hleft)
  rw [listStep, hi]
  exact dif_pos hfits

/-- Recursion: a routine meets each of its contracts if it does where its calls meet those with a
smaller variant. -/
theorem meets_rec {ι : Type} {r : ι → ι → Prop} (hwf : WellFounded r) {k : Nat}
    {C : ι → Contract}
    (hbody : ∀ x, (∀ y, r y x → Meets prog place k (C y)) → Meets prog place k (C x)) (x : ι) :
    Meets prog place k (C x) :=
  hwf.induction x hbody

end Calls

/-! ## 4. The interpreter -/

/-- One pass of the interpreter loop that does not end it, a system call answered in any way. -/
def VmGo (v v' : VMState) : Prop := ∃ sys, step sys v.1 v.2 = .next v'.1 v'.2

/-- Whether an instruction leaves the listing does not depend on a system call. -/
theorem stray_of_stray {prog : List (SymInstr Nat)} {place : Nat → Word} {s : ListState} {m : Mem}
    {sys : SysAnswer} (h : listStep prog place sys s m = .stray) (sys' : SysAnswer) :
    listStep prog place sys' s m = .stray := by
  unfold listStep at *
  cases hi : prog[s.pc]? with
  | none => rfl
  | some i =>
    rw [hi] at h
    cases i with
    | plain op o straight =>
      simp only [listExec] at h
      cases hexec : exec sys op o (s.goto (s.pc + 1)).regs m <;> rw [hexec] at h <;> cases h
    | _ => exact h

section Sound

variable {a : Word} {prog : List (SymInstr Nat)} {text : List Byte} {I Q : ListConfig → Prop}
  {c : ListConfig}

/-- What is proved of a listing whose code is not overwritten is so for the interpreter. -/
theorem LaidOut.until (h : LaidOut a prog text) (hI : ∀ c, I c → TextAt a text c.2)
    (hc : Until (ListGo prog (instrPlace a prog)) I Q c) :
    Until VmGo (fun v => ∃ c, v = (c.1.conc (instrPlace a prog), c.2) ∧ I c)
      (fun v => ∃ c, v = (c.1.conc (instrPlace a prog), c.2) ∧ Q c)
      (c.1.conc (instrPlace a prog), c.2) := by
  refine Until.sim (R := fun c v => v = (c.1.conc (instrPlace a prog), c.2)) ?_ hc rfl
  rintro ⟨s, m⟩ _ rfl hi ⟨c₁, sys₁, hnext₁⟩ -
  have ht := hI _ hi
  refine ⟨⟨(c₁.1.conc (instrPlace a prog), c₁.2), sys₁,
    h.listStep_conc ht sys₁ s (by rw [hnext₁]; rfl)⟩, ?_⟩
  rintro ⟨t', m'⟩ ⟨sys, hstep⟩
  have hout : ∀ out, (listStep prog (instrPlace a prog) sys s m).conc (instrPlace a prog)
      = some out → out = .next t' m' :=
    fun out hout => (h.listStep_conc ht sys s hout).symm.trans hstep
  cases hnext : listStep prog (instrPlace a prog) sys s m with
  | next s' m'' =>
    rw [hnext] at hout
    obtain ⟨rfl, rfl⟩ := Outcome.next.inj (hout _ rfl)
    exact ⟨(s', m''), ⟨sys, hnext⟩, rfl⟩
  | stray =>
    have hstray := stray_of_stray hnext sys₁
    cases hnext₁.symm.trans hstray
  | halted s' m'' => rw [hnext] at hout; cases hout _ rfl
  | aborted why s' => rw [hnext] at hout; cases hout _ rfl
  | exited => rw [hnext] at hout; cases hout _ rfl
  | undefined => rw [hnext] at hout; cases hout _ rfl

/-- The interpreter at a call of a routine that meets its contract: the routine returns or throws,
and what it does is in the contract. -/
theorem LaidOut.calls (h : LaidOut a prog text) {C : Contract} {k err : Nat}
    (hC : Meets prog (instrPlace a prog) k C) (hpos : 0 < C.depth) {s : ListState} {m : Mem}
    (hi : prog[s.pc]? = some (.call k err)) (hroom : s.frames.length + C.depth ≤ frameDepth)
    (hreq : C.requires s.regs m) (ht : TextAt a text m)
    (hkeeps : ∀ m', C.keeps s.regs m m' → TextAt a text m') :
    Until VmGo (fun v => TextAt a text v.2)
      (fun v => ∃ c, v = (c.1.conc (instrPlace a prog), c.2) ∧
        C.Left s.regs m (s.pc + 1, err) s.frames c) (s.conc (instrPlace a prog), m) := by
  have hrun : Until (ListGo prog (instrPlace a prog)) (fun c => TextAt a text c.2)
      (C.Left s.regs m (s.pc + 1, err) s.frames) (s, m) :=
    until_call hi hC hpos hroom hreq ht (fun c hc => hkeeps _ hc.2) fun c hc => .here hc
  refine (h.until (fun _ hc => hc) hrun).mono ?_ fun _ hv => hv
  rintro _ ⟨c, rfl, hc⟩
  exact hc

end Sound

end Dvm
