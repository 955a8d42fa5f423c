/-
# A counter behind a mutex

The guest program that the tests of the system calls run on many threads at once: it locks a mutex,
loads a counter, adds one, stores it and unlocks the mutex (`counterCode`).  Threads that start at
any time and whose instructions are mixed in any way exclude each other and lose no addition, and
they are never stuck (`counter_threads`).

The interpreter does, one instruction for one, the steps of a program with a critical section
(`counterProgram`), which is where the threads' steps are put in order.
-/
import Dvm.Base.Locked
import Dvm.Prog.Loaded
import Dvm.Vm.Atomics
import Dvm.Vm.Confined
import Mathlib.Algebra.Order.BigOperators.Group.Finset

namespace Dvm

open Bytes ByteMem Loops Runs

/-! ## 1. The program -/

section Program

variable (handle counter : Word)

/-- Lock `handle`, add one to `counter`, unlock `handle`, and halt. -/
def counterCode : List (Op × Operands) :=
  [(.movRI, { d := regAx, imm := 17 }), (.movRI, { d := regBx, imm := handle }), (.syscall, {}),
    (.movRI, { d := regDi, imm := counter }), (.movRM, { d := regAx, s := regDi }),
    (.movRI, { d := regBx, imm := 1 }), (.add, { d := regAx, s := regBx }),
    (.movMR, { d := regDi, s := regAx }),
    (.movRI, { d := regAx, imm := 18 }), (.movRI, { d := regBx, imm := handle }), (.syscall, {}),
    (.halt, {})]

/-- What the registers hold before instruction `k`, where the counter is `w`. -/
def CounterRegs (w : Word) (k : Nat) (t : VMThread) : Prop :=
  match k with
  | 1 => t.gpr regAx = 17
  | 2 => t.gpr regAx = 17 ∧ t.gpr regBx = handle
  | 4 => t.gpr regDi = counter
  | 5 => t.gpr regDi = counter ∧ t.gpr regAx = w
  | 6 => t.gpr regDi = counter ∧ t.gpr regAx = w ∧ t.gpr regBx = 1
  | 7 => t.gpr regDi = counter ∧ t.gpr regAx = w + 1
  | 9 => t.gpr regAx = 18
  | 10 => t.gpr regAx = 18 ∧ t.gpr regBx = handle
  | _ => True

variable (a : Word)

/-- Where instruction `k` of the code at `a` begins. -/
def counterPlace (k : Nat) : Word := a + BitVec.ofNat 64 (instrStart (counterCode handle counter) k)

/-- A thread before instruction `k`, or behind the last one. -/
structure AtCounter (w : Word) (k : Nat) (t : VMThread) : Prop where
  le : k ≤ 12
  running : k < 12 → t.state = .running ∧ t.ip = counterPlace handle counter a k
  finished : k = 12 → t.state = .finished
  regs : CounterRegs handle counter w k t

end Program

def counterAct (k : Nat) (w : Word) : Word := if k = 7 then w + 1 else w

theorem counterAct_outside (k : Nat) (w : Word) (h : ¬ (2 < k ∧ k < 10)) : counterAct k w = w := by
  refine if_neg ?_
  omega

theorem two_lt_ten : 2 < 10 := by decide

theorem ten_lt_twelve : 10 < 12 := by decide

/-- The steps of a thread: only between the two system calls they act on the counter. -/
def counterProgram : Locked.Program Word where
  length := 12
  lock := 2
  unlock := 10
  act := counterAct
  lock_lt := two_lt_ten
  unlock_lt := ten_lt_twelve
  outside := counterAct_outside

/-! ## 2. One instruction -/

theorem Decodes.nil_iff (bs : List Byte) (p : Nat) : Decodes bs p [] ↔ p = bs.length := by
  constructor
  · intro h
    cases h
    rfl
  · rintro rfl
    exact .done

theorem Decodes.cons_iff (bs : List Byte) (p : Nat) (i : Op × Operands)
    (is : List (Op × Operands)) :
    Decodes bs p (i :: is) ↔ Dvm.decode bs p = some i ∧ Decodes bs (p + i.1.size) is := by
  constructor
  · intro h
    cases h with
    | instr hd hrest => exact ⟨hd, hrest⟩
  · rintro ⟨hd, hrest⟩
    exact .instr hd hrest

theorem Decodes.fetch {a : Word} {text : List Byte} {is : List (Op × Operands)}
    (h : Decodes text 0 is) {m : Mem} (ht : TextAt a text m) {k : Nat} {i : Op × Operands}
    (hk : is[k]? = some i) : fetchInstr m (a + BitVec.ofNat 64 (instrStart is k)) = some i := by
  have hd := h.decode hk
  rw [Nat.zero_add] at hd
  exact fetchInstr_of_decode ht hd

instance Decodes.decidable (bs : List Byte) :
    (p : Nat) → (is : List (Op × Operands)) → Decidable (Decodes bs p is)
  | p, [] => decidable_of_iff (p = bs.length) (Decodes.nil_iff bs p).symm
  | p, i :: is =>
    have := Decodes.decidable bs (p + i.1.size) is
    decidable_of_iff (Dvm.decode bs p = some i ∧ Decodes bs (p + i.1.size) is)
      (Decodes.cons_iff bs p i is).symm

theorem Outcome.Leaves.unique {out : Outcome} {t t' : VMThread} {m m' : Mem}
    (h : out.Leaves t m) (h' : out.Leaves t' m') : t = t' ∧ m = m' := by
  rcases h with rfl | rfl <;> rcases h' with h' | h' <;> cases h' <;> exact ⟨rfl, rfl⟩

section Step

variable {a handle counter : Word} {w : Word} {k : Nat} {t t' : VMThread} {m m' : Mem}

theorem counterPlace_succ {i : Op × Operands} (hk : (counterCode handle counter)[k]? = some i) :
    counterPlace handle counter a k + BitVec.ofNat 64 i.1.size
      = counterPlace handle counter a (k + 1) := by
  rw [counterPlace, counterPlace, instrStart_succ hk, BitVec.ofNat_add, BitVec.add_assoc]

/-- A thread that has gone on by one instruction. -/
theorem AtCounter.succ {i : Op × Operands} (h : AtCounter handle counter a w k t)
    (hk : (counterCode handle counter)[k]? = some i) (hlt : k < 11)
    (hstate : t'.state = t.state) (hip : t'.ip = t.ip + BitVec.ofNat 64 i.1.size) {w' : Word}
    (hregs : CounterRegs handle counter w' (k + 1) t') :
    AtCounter handle counter a w' (k + 1) t' := by
  obtain ⟨hrun, hplace⟩ := h.running (by omega)
  refine ⟨by omega, fun _ => ⟨hstate.trans hrun, ?_⟩, fun h => by omega, hregs⟩
  rw [hip, hplace, counterPlace_succ hk]

/-- The registers before the first system call. -/
theorem AtCounter.locks (h : AtCounter handle counter a w k t) (hk : k = 2) :
    t.sysNr = some .mutexLock ∧ t.gpr regBx = handle := by
  subst hk
  obtain ⟨hax, hbx⟩ := h.regs
  refine ⟨?_, hbx⟩
  rw [VMThread.sysNr, hax]
  rfl

/-- The registers before the second one. -/
theorem AtCounter.unlocks (h : AtCounter handle counter a w k t) (hk : k = 10) :
    t.sysNr = some .mutexUnlock ∧ t.gpr regBx = handle := by
  subst hk
  obtain ⟨hax, hbx⟩ := h.regs
  refine ⟨?_, hbx⟩
  rw [VMThread.sysNr, hax]
  rfl

/-- What an instruction that is no system call leaves. -/
def PlainStep (a handle counter w : Word) (k : Nat) (t : VMThread) (m : Mem) : Prop :=
  ∃ op o t' m', (counterCode handle counter)[k]? = some (op, o) ∧ op ≠ .syscall ∧
    (exec none op o (t.fetched op) m).Leaves t' m' ∧
    AtCounter handle counter a (counterAct k w) (k + 1) t' ∧
    m' = if k = 7 then store 8 m counter (w + 1) else m

theorem AtCounter.plain {op : Op} {o : Operands} (h : AtCounter handle counter a w k t)
    (hk : (counterCode handle counter)[k]? = some (op, o)) (hop : op ≠ .syscall) (hlt : k < 11)
    (hexec : exec none op o (t.fetched op) m = .next t' m') (hstate : t'.state = t.state)
    (hip : t'.ip = t.ip + BitVec.ofNat 64 op.size)
    (hregs : CounterRegs handle counter (counterAct k w) (k + 1) t')
    (hm : m' = if k = 7 then store 8 m counter (w + 1) else m) :
    PlainStep a handle counter w k t m :=
  ⟨op, o, t', m', hk, hop, .inl hexec, h.succ hk hlt hstate hip hregs, hm⟩

/-- The instructions that are no system calls. -/
theorem counter_plain (hlt : k < 12) (hlock : k ≠ 2) (hunlock : k ≠ 10)
    (h : AtCounter handle counter a w k t) (hw : load 8 m counter = w) :
    PlainStep a handle counter w k t m := by
  have hregs := h.regs
  match k, hlt with
  | 0, _ => exact h.plain rfl (by decide) (by decide) rfl rfl rfl rfl rfl
  | 1, _ => exact h.plain rfl (by decide) (by decide) rfl rfl rfl ⟨hregs, rfl⟩ rfl
  | 2, _ => exact absurd rfl hlock
  | 3, _ => exact h.plain rfl (by decide) (by decide) rfl rfl rfl rfl rfl
  | 4, _ =>
    have hdi : t.gpr regDi = counter := hregs
    refine h.plain rfl (by decide) (by decide) rfl rfl rfl ⟨hdi, ?_⟩ rfl
    show load 8 m (t.gpr regDi) = w
    rw [hdi, hw]
  | 5, _ =>
    obtain ⟨hdi, hax⟩ := hregs
    exact h.plain rfl (by decide) (by decide) rfl rfl rfl ⟨hdi, hax, rfl⟩ rfl
  | 6, _ =>
    obtain ⟨hdi, hax, hbx⟩ := hregs
    refine h.plain rfl (by decide) (by decide) rfl rfl rfl ⟨hdi, ?_⟩ rfl
    show t.gpr regAx + t.gpr regBx = w + 1
    rw [hax, hbx]
  | 7, _ =>
    obtain ⟨hdi, hax⟩ := hregs
    refine h.plain rfl (by decide) (by decide) rfl rfl rfl trivial ?_
    show store 8 m (t.gpr regDi) (t.gpr regAx) = _
    rw [hdi, hax]
    rfl
  | 8, _ => exact h.plain rfl (by decide) (by decide) rfl rfl rfl rfl rfl
  | 9, _ => exact h.plain rfl (by decide) (by decide) rfl rfl rfl ⟨hregs, rfl⟩ rfl
  | 10, _ => exact absurd rfl hunlock
  | 11, _ =>
    refine ⟨_, _, _, _, rfl, by decide, .inr rfl, ?_, rfl⟩
    exact ⟨Nat.le_refl _, fun hlt => absurd hlt (by decide), fun _ => rfl, trivial⟩
  | n + 12, hlt => omega

/-- Outside the section the registers do not depend on the counter. -/
theorem CounterRegs.outside {w' : Word} (h : CounterRegs handle counter w k t)
    (hk : ¬ (2 < k ∧ k ≤ 10)) : CounterRegs handle counter w' k t := by
  match k, hk with
  | 0, _ => trivial
  | 1, _ => exact h
  | 2, _ => exact h
  | n + 11, _ => trivial
  | 3, hk | 4, hk | 5, hk | 6, hk | 7, hk | 8, hk | 9, hk | 10, hk =>
    exact absurd (by decide) hk

end Step

/-! ## 3. The threads, one step -/

/-- Where the code, the mutex and the counter lie. -/
structure CounterLayout (a handle counter : Word) (text : List Byte) : Prop where
  decodes : Decodes text 0 (counterCode handle counter)
  fits : text.length < 2 ^ 64
  nonzero : handle ≠ 0
  mutexText : ∀ x, InBlock a text.length x → ¬ InBlock handle mutexSize x
  counterText : ∀ x, InBlock a text.length x → ¬ InBlock counter 8 x
  counterMutex : ∀ x, InBlock counter 8 x → ¬ InBlock handle mutexSize x

/-- The threads and what they share, as in the program with a critical section. -/
structure CounterState (a handle counter : Word) (text : List Byte) (g : Guests)
    (s : Locked.State Word) : Prop where
  text : TextAt a text g.mem
  mutex : g.mutex handle = some s.holder
  value : load 8 g.mem counter = s.shared
  started : ∀ i ∈ s.ids, ∃ t, g.thread i = some t ∧
    AtCounter handle counter a s.shared (s.pc i) t
  unstarted : ∀ i, i ∉ s.ids → g.thread i = none

section Threads

variable {a handle counter w₀ : Word} {text : List Byte} {g g' : Guests} {s : Locked.State Word}
  {i : Nat} {op : Op} {o : Operands} {t t' : VMThread}

/-- The functions of the host on the mutex leave the code and the counter alone. -/
theorem CounterLayout.turns (hl : CounterLayout a handle counter text) {m : HostState}
    {v : Option (Option Nat)} {m' : HostState} (h : MutexTurns handle v m m')
    (ht : TextAt a text m.mem) :
    TextAt a text m'.mem ∧ load 8 m'.mem counter = load 8 m.mem counter ∧
      m'.mutex handle = v := by
  refine ⟨ht.congr hl.fits fun x hx => h.mem x (hl.mutexText x hx),
    load_untouched fun x hx => h.mem x (hl.counterMutex x hx), ?_⟩
  rw [h.mutex]
  exact if_pos rfl

/-- A thread goes on, and the others are where they were. -/
theorem CounterState.next (hg : CounterState a handle counter text g s)
    (hs : Locked.Serial counterProgram w₀ s) (hi : i ∈ s.ids) {m : HostState}
    (hat : AtCounter handle counter a (counterAct (s.pc i) s.shared) (s.pc i + 1) t')
    (htext : TextAt a text m.mem)
    (hmutex : m.mutex handle = some (s.next counterProgram i).holder)
    (hvalue : load 8 m.mem counter = counterAct (s.pc i) s.shared) :
    CounterState a handle counter text (g.setThread i t' m) (s.next counterProgram i) := by
  refine ⟨htext, hmutex, hvalue, fun j hj => ?_, fun j hj => ?_⟩
  · rcases eq_or_ne j i with rfl | hne
    · refine ⟨t', Guests.setThread_self _ _ _ _, ?_⟩
      rw [Locked.State.next_pc_self]
      exact hat
    · obtain ⟨u, hu, hthere⟩ := hg.started j hj
      refine ⟨u, (Guests.setThread_ne _ _ _ hne).trans hu, ?_⟩
      rw [Locked.State.next_pc_ne hne]
      by_cases hin : s.Inside counterProgram j
      · -- thread `i` is not in the section, so the counter is as it was
        have hsame : counterAct (s.pc i) s.shared = s.shared :=
          counterAct_outside _ _ fun hk => hne (hs.exclusive hin ⟨hi, hk.1, Nat.le_of_lt hk.2⟩)
        show AtCounter handle counter a (counterAct (s.pc i) s.shared) (s.pc j) u
        rw [hsame]
        exact hthere
      · exact ⟨hthere.le, hthere.running, hthere.finished,
          hthere.regs.outside fun hk => hin ⟨hj, hk⟩⟩
  · have hne : j ≠ i := by
      rintro rfl
      exact hj hi
    exact (Guests.setThread_ne _ _ _ hne).trans (hg.unstarted j hj)

/-- The thread of an event has started, and is before one of the instructions. -/
theorem CounterState.runs (hg : CounterState a handle counter text g s)
    (ht : g.thread i = some t) (hrun : t.state = .running) :
    i ∈ s.ids ∧ s.pc i < 12 ∧ AtCounter handle counter a s.shared (s.pc i) t := by
  have hi : i ∈ s.ids := by
    by_contra hno
    rw [hg.unstarted i hno] at ht
    cases ht
  obtain ⟨u, hu, hat⟩ := hg.started i hi
  obtain rfl := Option.some.inj (ht.symm.trans hu)
  refine ⟨hi, lt_of_le_of_ne hat.le fun h => ?_, hat⟩
  rw [hat.finished h] at hrun
  cases hrun

/-- The instruction that a thread is before. -/
theorem CounterState.fetches (hl : CounterLayout a handle counter text)
    (hg : CounterState a handle counter text g s)
    (hat : AtCounter handle counter a s.shared (s.pc i) t) (hlt : s.pc i < 12)
    {j : Op × Operands} (hj : (counterCode handle counter)[s.pc i]? = some j) :
    fetchInstr g.mem t.ip = some j := by
  rw [(hat.running hlt).2]
  exact hl.decodes.fetch hg.text hj

/-- A thread that executes the code is before the instruction it executes. -/
theorem CounterState.current (hl : CounterLayout a handle counter text)
    (hg : CounterState a handle counter text g s) (h : g.Step (.exec i op o t t') g') :
    i ∈ s.ids ∧ s.pc i < 12 ∧ AtCounter handle counter a s.shared (s.pc i) t ∧
      (counterCode handle counter)[s.pc i]? = some (op, o) := by
  obtain ⟨ht, hrun, hfetch⟩ := h.exec_inv
  obtain ⟨hi, hlt, hat⟩ := hg.runs ht hrun
  have hcode := List.getElem?_eq_getElem (l := counterCode handle counter) hlt
  rw [hg.fetches hl hat hlt hcode] at hfetch
  exact ⟨hi, hlt, hat, hcode.trans hfetch⟩

/-- The lock is free, and the thread gets it. -/
theorem CounterState.step_lock (hl : CounterLayout a handle counter text)
    (hg : CounterState a handle counter text g s) (hs : Locked.Serial counterProgram w₀ s)
    (h : g.Step (.exec i op o t t') g') (hlock : s.pc i = 2) :
    s.holder = none ∧ CounterState a handle counter text g' (s.next counterProgram i) := by
  obtain ⟨hi, hlt, hat, hcode⟩ := hg.current hl h
  obtain ⟨rfl, rfl⟩ : Op.syscall = op ∧ ({} : Operands) = o := by
    rw [hlock] at hcode
    exact Prod.mk.inj (Option.some.inj hcode)
  obtain ⟨hnr, hbx⟩ := hat.locks hlock
  obtain ⟨hfree, ht', m, hturns, hg'⟩ := h.mutexLock hnr (hbx ▸ hl.nonzero) (hbx ▸ hg.mutex)
  rw [hbx] at hturns
  obtain ⟨htext, hvalue, hmutex⟩ := hl.turns hturns hg.text
  refine ⟨hfree, ?_⟩
  rw [hg']
  refine hg.next hs hi ?_ htext ?_ ?_
  · refine hat.succ hcode (by omega) (ht' ▸ rfl) (ht' ▸ rfl) ?_
    rw [hlock]
    trivial
  · rw [hmutex]
    exact congrArg some (if_pos hlock).symm
  · rw [hvalue, hg.value, hlock]
    rfl

/-- The thread that unlocks is in the section, so it holds the lock. -/
theorem CounterState.step_unlock (hl : CounterLayout a handle counter text)
    (hg : CounterState a handle counter text g s) (hs : Locked.Serial counterProgram w₀ s)
    (h : g.Step (.exec i op o t t') g') (hunlock : s.pc i = 10) :
    CounterState a handle counter text g' (s.next counterProgram i) := by
  obtain ⟨hi, hlt, hat, hcode⟩ := hg.current hl h
  obtain ⟨rfl, rfl⟩ : Op.syscall = op ∧ ({} : Operands) = o := by
    rw [hunlock] at hcode
    exact Prod.mk.inj (Option.some.inj hcode)
  obtain ⟨hnr, hbx⟩ := hat.unlocks hunlock
  have hheld : s.holder = some i :=
    (hs.holds i).mpr ⟨hi, hunlock ▸ two_lt_ten, Nat.le_of_eq hunlock⟩
  obtain ⟨ht', m, hturns, hg'⟩ :=
    h.mutexUnlock hnr (hbx ▸ hl.nonzero) (hbx ▸ hheld ▸ hg.mutex)
  rw [hbx] at hturns
  obtain ⟨htext, hvalue, hmutex⟩ := hl.turns hturns hg.text
  have hlock : ¬ s.pc i = 2 := by omega
  rw [hg']
  refine hg.next hs hi ?_ htext ?_ ?_
  · refine hat.succ hcode (by omega) (ht' ▸ rfl) (ht' ▸ rfl) ?_
    rw [hunlock]
    trivial
  · rw [hmutex]
    exact congrArg some ((if_neg hlock).trans (if_pos hunlock)).symm
  · rw [hvalue, hg.value, hunlock]
    rfl

/-- Any other instruction acts on the counter as the program does, and not on the mutex. -/
theorem CounterState.step_plain (hl : CounterLayout a handle counter text)
    (hg : CounterState a handle counter text g s) (hs : Locked.Serial counterProgram w₀ s)
    (h : g.Step (.exec i op o t t') g') (hlock : s.pc i ≠ 2) (hunlock : s.pc i ≠ 10) :
    CounterState a handle counter text g' (s.next counterProgram i) := by
  obtain ⟨hi, hlt, hat, hcode⟩ := hg.current hl h
  obtain ⟨op₁, o₁, t₁, m₁, hcode₁, hop, hleaves, hnext, hm⟩ :=
    counter_plain hlt hlock hunlock hat hg.value
  obtain ⟨rfl, rfl⟩ := Prod.mk.inj (Option.some.inj (hcode.symm.trans hcode₁))
  obtain ⟨m, hex, hg'⟩ := h.plain_inv hop
  obtain ⟨rfl, rfl⟩ := hex.unique hleaves
  rw [hg']
  refine hg.next hs hi hnext ?_ ?_ ?_
  · rw [hm]
    split
    · exact hg.text.congr hl.fits fun x hx => store_frame (hl.counterText x hx)
    · exact hg.text
  · exact hg.mutex.trans (congrArg some ((if_neg hlock).trans (if_neg hunlock)).symm)
  · rw [hm, counterAct]
    split
    · exact load_store_word _ _ _
    · exact hg.value

/-- A step of a thread is a step of the program with a critical section. -/
theorem CounterState.step (hl : CounterLayout a handle counter text)
    (hg : CounterState a handle counter text g s) (hs : Locked.Serial counterProgram w₀ s)
    (h : g.Step (.exec i op o t t') g') :
    Locked.Step counterProgram s (.step i) (s.next counterProgram i) ∧
      CounterState a handle counter text g' (s.next counterProgram i) := by
  obtain ⟨hi, hlt, -, -⟩ := hg.current hl h
  by_cases hlock : s.pc i = 2
  · obtain ⟨hfree, hnext⟩ := hg.step_lock hl hs h hlock
    exact ⟨.step hi hlt fun _ => hfree, hnext⟩
  refine ⟨.step hi hlt fun h => absurd h hlock, ?_⟩
  by_cases hunlock : s.pc i = 10
  · exact hg.step_unlock hl hs h hunlock
  · exact hg.step_plain hl hs h hlock hunlock

end Threads

/-! ## 4. Runs -/

def GuestEv.isStart : GuestEv → Bool
  | .start _ _ => true
  | _ => false

def GuestEv.isExec : GuestEv → Bool
  | .exec _ _ _ _ _ => true
  | _ => false

/-- The step of the program with a critical section. -/
def GuestEv.turn : GuestEv → Option Locked.Event
  | .exec i _ _ _ _ => some (.step i)
  | .start i _ => some (.start i)
  | .host => none

/-- A step where threads start at the code, and the host does not write to it or to the counter. -/
structure CounterStep (a counter : Word) (text : List Byte) (g : Guests) (e : GuestEv)
    (g' : Guests) : Prop where
  step : g.Step e g'
  start : ∀ i t, e = .start i t → ∃ vmStack stackSize, t = vmThreadCreate vmStack a stackSize
  host : e = .host → ∀ x, InBlock a text.length x ∨ InBlock counter 8 x → g'.mem x = g.mem x

theorem CounterStep.of_exec {a counter : Word} {text : List Byte} {g g' : Guests} {i : Nat}
    {op : Op} {o : Operands} {t t' : VMThread} (h : g.Step (.exec i op o t t') g') :
    CounterStep a counter text g (.exec i op o t t') g' := by
  refine ⟨h, ?_, ?_⟩
  · rintro _ _ ⟨⟩
  · rintro ⟨⟩

theorem CounterStep.of_start {a counter : Word} {text : List Byte} {g : Guests} {i : Nat}
    (h : g.thread i = none) (vmStack stackSize : Word) :
    CounterStep a counter text g (.start i (vmThreadCreate vmStack a stackSize))
      (g.setThread i (vmThreadCreate vmStack a stackSize) g.toHostState) := by
  refine ⟨.start h, ?_, ?_⟩
  · rintro _ _ ⟨⟩
    exact ⟨vmStack, stackSize, rfl⟩
  · rintro ⟨⟩

/-- The thread is at an instruction of the section. -/
def InCounterSection (a handle counter : Word) (t : VMThread) : Prop :=
  t.state = .running ∧ ∃ k, 2 < k ∧ k ≤ 10 ∧ t.ip = counterPlace handle counter a k

/-- What the threads of the program have done in a run, and what they still can do. -/
structure CounterRun (a handle counter : Word) (g₀ : Guests) (es : List GuestEv) (g : Guests) :
    Prop where
  /-- No two threads are in the section. -/
  exclusive : ∀ i j t u, g.thread i = some t → g.thread j = some u →
    InCounterSection a handle counter t → InCounterSection a handle counter u → i = j
  /-- When all have halted, each has added one. -/
  counted : (∀ i t, g.thread i = some t → t.state = .finished) →
    load 8 g.mem counter = load 8 g₀.mem counter + BitVec.ofNat 64 (es.countP GuestEv.isStart)
  /-- Until then one of them can go on. -/
  live : ∀ i t, g.thread i = some t → t.state ≠ .finished →
    ∃ j op o u u' g', g.Step (.exec j op o u u') g'
  /-- They execute twelve instructions each. -/
  bounded : es.countP GuestEv.isExec ≤ 12 * es.countP GuestEv.isStart

section Runs

variable {a handle counter w₀ : Word} {text : List Byte} {g₀ g g' : Guests}
  {s : Locked.State Word} {es : List GuestEv}

/-- Each step is one of the program with a critical section, or none of it. -/
theorem CounterState.simulates {e : GuestEv} (hl : CounterLayout a handle counter text)
    (hg : CounterState a handle counter text g s) (hs : Locked.Serial counterProgram w₀ s)
    (h : CounterStep a counter text g e g') :
    (∃ l s', e.turn = some l ∧ Locked.Step counterProgram s l s' ∧
      CounterState a handle counter text g' s') ∨
    (e.turn = none ∧ CounterState a handle counter text g' s) := by
  cases e with
  | exec i op o t t' =>
    obtain ⟨hstep, hnext⟩ := hg.step hl hs h.step
    exact .inl ⟨_, _, rfl, hstep, hnext⟩
  | start i t =>
    obtain ⟨vmStack, stackSize, rfl⟩ := h.start i t rfl
    have hnone : g.thread i = none ∧ g' = g.setThread i (vmThreadCreate vmStack a stackSize)
        g.toHostState := by
      cases h.step with
      | start hnone => exact ⟨hnone, rfl⟩
    have hi : i ∉ s.ids := by
      intro hi
      obtain ⟨u, hu, -⟩ := hg.started i hi
      rw [hnone.1] at hu
      cases hu
    refine .inl ⟨_, _, rfl, .start hi, ?_⟩
    rw [hnone.2]
    refine ⟨hg.text, hg.mutex, hg.value, fun j hj => ?_, fun j hj => ?_⟩
    · rcases eq_or_ne j i with rfl | hne
      · refine ⟨_, Guests.setThread_self _ _ _ _, ?_⟩
        rw [Locked.State.begin_pc_self]
        refine ⟨by decide, fun _ => ⟨rfl, ?_⟩, fun h => absurd h (by decide), trivial⟩
        exact (BitVec.add_zero a).symm
      · obtain ⟨u, hu, hat⟩ := hg.started j ((Locked.State.mem_begin.mp hj).resolve_left hne)
        refine ⟨u, (Guests.setThread_ne _ _ _ hne).trans hu, ?_⟩
        rw [Locked.State.begin_pc_ne hne]
        exact hat
    · have hne := mt (fun h => Locked.State.mem_begin.mpr (.inl h)) hj
      have hold := mt (fun h => Locked.State.mem_begin.mpr (.inr h)) hj
      exact (Guests.setThread_ne _ _ _ hne).trans (hg.unstarted j hold)
  | host =>
    have hkept := h.host rfl
    cases h.step with
    | host m' =>
      refine .inr ⟨rfl, hg.text.congr hl.fits fun x hx => hkept x (.inl hx), hg.mutex, ?_,
        hg.started, hg.unstarted⟩
      exact (load_untouched fun x hx => hkept x (.inr hx)).trans hg.value

/-- A run of the threads is one of the program with a critical section. -/
theorem counterState_of_run (hl : CounterLayout a handle counter text)
    (hg : CounterState a handle counter text g₀ (.init w₀))
    (h : Run (CounterStep a counter text) g₀ es g) :
    ∃ s, Run (Locked.Step counterProgram) (.init w₀) (es.filterMap GuestEv.turn) s ∧
      CounterState a handle counter text g s := by
  refine Run.invariant (I := fun es g => ∃ s,
    Run (Locked.Step counterProgram) (.init w₀) (es.filterMap GuestEv.turn) s ∧
      CounterState a handle counter text g s) ⟨_, .start, hg⟩ ?_ h
  rintro es g e g' - ⟨s, hrun, hstate⟩ hs
  rcases hstate.simulates hl (Locked.Run.serial hrun) hs with
    ⟨l, s', hturn, hstep, hnext⟩ | ⟨hturn, hnext⟩
  · have happ : (es ++ [e]).filterMap GuestEv.turn = es.filterMap GuestEv.turn ++ [l] := by
      simp [List.filterMap_append, hturn]
    exact ⟨s', happ ▸ hrun.next hstep, hnext⟩
  · have happ : (es ++ [e]).filterMap GuestEv.turn = es.filterMap GuestEv.turn := by
      simp [List.filterMap_append, hturn]
    exact ⟨s, happ.symm ▸ hrun, hnext⟩

/-- The instructions begin at different places. -/
theorem counterPlace_inj {k k' : Nat} (hk : k < 12) (hk' : k' < 12)
    (h : counterPlace handle counter a k = counterPlace handle counter a k') : k = k' := by
  have hstart : ∀ n, instrStart (counterCode handle counter) n
      = instrStart (counterCode 0 0) n := by
    intro n
    rw [instrStart, instrStart, List.map_take, List.map_take]
    rfl
  have hsmall : ∀ j < 12, ∀ j' < 12, BitVec.ofNat 64 (instrStart (counterCode 0 0) j)
      = BitVec.ofNat 64 (instrStart (counterCode 0 0) j') → j = j' := by decide
  rw [counterPlace, counterPlace, hstart, hstart, BitVec.add_right_inj] at h
  exact hsmall k hk k' hk' h

theorem CounterState.inside (hg : CounterState a handle counter text g s) {i : Nat}
    {t : VMThread} (ht : g.thread i = some t) (hin : InCounterSection a handle counter t) :
    s.Inside counterProgram i := by
  obtain ⟨hrun, k, hlow, hhigh, hip⟩ := hin
  obtain ⟨hi, hlt, hat⟩ := hg.runs ht hrun
  have hplace := (hat.running hlt).2
  have hpc := counterPlace_inj (by omega) hlt (hip.symm.trans hplace)
  exact ⟨hi, hpc ▸ hlow, hpc ▸ hhigh⟩

/-- A thread that has the lock, or does not need it, can go on. -/
theorem CounterState.can_step (hl : CounterLayout a handle counter text)
    (hg : CounterState a handle counter text g s) {i : Nat} (hi : i ∈ s.ids) (hlt : s.pc i < 12)
    (hfree : s.pc i = 2 → s.holder = none) : ∃ op o t t' g', g.Step (.exec i op o t t') g' := by
  obtain ⟨t, ht, hat⟩ := hg.started i hi
  have hrun := (hat.running hlt).1
  by_cases hlock : s.pc i = 2
  · have hfetch : fetchInstr g.mem t.ip = some (.syscall, {}) :=
      hg.fetches hl hat hlt (hlock ▸ rfl)
    obtain ⟨hnr, hbx⟩ := hat.locks hlock
    obtain ⟨t', g', hstep⟩ := Guests.mutexLock_step ht hrun hfetch hnr (hbx ▸ hl.nonzero)
      (hbx ▸ hfree hlock ▸ hg.mutex)
    exact ⟨_, _, _, _, _, hstep⟩
  by_cases hunlock : s.pc i = 10
  · have hfetch : fetchInstr g.mem t.ip = some (.syscall, {}) :=
      hg.fetches hl hat hlt (hunlock ▸ rfl)
    obtain ⟨hnr, hbx⟩ := hat.unlocks hunlock
    obtain ⟨t', g', hstep⟩ :=
      Guests.mutexUnlock_step ht hrun hfetch hnr (hbx ▸ hl.nonzero)
    exact ⟨_, _, _, _, _, hstep⟩
  · obtain ⟨op, o, t', m', hcode, hop, hleaves, -, -⟩ :=
      counter_plain hlt hlock hunlock hat hg.value
    have hfetch := hg.fetches hl hat hlt hcode
    exact ⟨op, o, t, t', _, .exec ht hrun hfetch hop (step_of_fetch hfetch ▸ hleaves)⟩

theorem counterProgram_run (w : Word) : counterProgram.run w = w + 1 := rfl

theorem counterProgram_runs (n : Nat) (w : Word) :
    counterProgram.run^[n] w = w + BitVec.ofNat 64 n := by
  induction n with
  | zero => exact (BitVec.add_zero w).symm
  | succ n ih =>
    rw [Function.iterate_succ_apply', ih, counterProgram_run, BitVec.ofNat_add, BitVec.add_assoc]
    rfl

/-- A thread that has not halted leaves one that can go on. -/
theorem CounterState.live (hl : CounterLayout a handle counter text)
    (hg : CounterState a handle counter text g s) (hs : Locked.Serial counterProgram w₀ s)
    {i : Nat} {t : VMThread} (hti : g.thread i = some t) (hno : t.state ≠ .finished) :
    ∃ j op o u u' g', g.Step (.exec j op o u u') g' := by
  have hi : i ∈ s.ids := by
    by_contra hi
    rw [hg.unstarted i hi] at hti
    cases hti
  obtain ⟨u, hu, hat⟩ := hg.started i hi
  obtain rfl := Option.some.inj (hti.symm.trans hu)
  have hlt : s.pc i < counterProgram.length := lt_of_le_of_ne hat.le (mt hat.finished hno)
  obtain ⟨j, hj, hjlt, hfree⟩ := hs.exists_step hi hlt
  obtain ⟨op, o, v, v', g', hstep⟩ := hg.can_step hl hj hjlt hfree
  exact ⟨j, op, o, v, v', g', hstep⟩

/-- When all threads have halted, each has acted on the counter once. -/
theorem CounterState.counted (hg : CounterState a handle counter text g s)
    (hs : Locked.Serial counterProgram w₀ s)
    (hall : ∀ i t, g.thread i = some t → t.state = .finished) :
    load 8 g.mem counter = w₀ + BitVec.ofNat 64 s.ids.card := by
  have hdone : ∀ i ∈ s.ids, counterProgram.unlock < s.pc i := by
    intro i hi
    obtain ⟨t, hti, hat⟩ := hg.started i hi
    by_contra hno
    have hle : s.pc i ≤ 10 := Nat.not_lt.mp hno
    have hrunning := (hat.running (by omega)).1
    rw [hall i t hti] at hrunning
    cases hrunning
  rw [hg.value, hs.shared_of_done hdone, counterProgram_runs]

/-- What has been counted of a run: the threads, and their instructions. -/
theorem counts_of_turns
    (h : Run (Locked.Step counterProgram) (.init w₀) (es.filterMap GuestEv.turn) s) :
    es.countP GuestEv.isStart = s.ids.card ∧
      es.countP GuestEv.isExec ≤ 12 * es.countP GuestEv.isStart := by
  obtain ⟨hstarts, hsteps, hle⟩ := Locked.Run.counts h
  have hstart : es.countP GuestEv.isStart = s.ids.card := by
    rw [← hstarts, List.countP_filterMap]
    refine List.countP_congr fun e _ => ?_
    cases e <;> simp [GuestEv.turn, GuestEv.isStart, Locked.Event.isStart]
  have hexec : es.countP GuestEv.isExec = ∑ i ∈ s.ids, s.pc i := by
    rw [← hsteps, List.countP_filterMap]
    refine List.countP_congr fun e _ => ?_
    cases e <;> simp [GuestEv.turn, GuestEv.isExec, Locked.Event.isStep]
  refine ⟨hstart, ?_⟩
  rw [hexec, hstart, Nat.mul_comm]
  exact Finset.sum_le_card_nsmul _ _ _ hle

/-- What the threads start from: the code, a free mutex, and no thread. -/
theorem CounterState.init (ht : TextAt a text g₀.mem) (hmutex : g₀.mutex handle = some none)
    (hnone : ∀ i, g₀.thread i = none) :
    CounterState a handle counter text g₀ (.init (load 8 g₀.mem counter)) :=
  ⟨ht, hmutex, rfl, fun i hi => absurd hi (Finset.notMem_empty i), fun i _ => hnone i⟩

/-- Threads that run the program, however their instructions are mixed: they exclude each other
between the two system calls, lose no addition, and are never stuck. -/
theorem counter_threads (hl : CounterLayout a handle counter text) (ht : TextAt a text g₀.mem)
    (hmutex : g₀.mutex handle = some none) (hnone : ∀ i, g₀.thread i = none)
    (hrun : Run (CounterStep a counter text) g₀ es g) :
    CounterRun a handle counter g₀ es g := by
  obtain ⟨s, hlocked, hg⟩ := counterState_of_run hl (.init ht hmutex hnone) hrun
  have hs := Locked.Run.serial hlocked
  obtain ⟨hstart, hbound⟩ := counts_of_turns hlocked
  refine ⟨?_, ?_, ?_, hbound⟩
  · intro i j t u hti hu hin hinu
    exact hs.exclusive (hg.inside hti hin) (hg.inside hu hinu)
  · intro hall
    rw [hg.counted hs hall, hstart]
  · intro i t hti hno
    exact hg.live hl hs hti hno

/-- Every run goes on to one in which all threads that have started halt. -/
theorem counter_completes (hl : CounterLayout a handle counter text) (ht : TextAt a text g₀.mem)
    (hmutex : g₀.mutex handle = some none) (hnone : ∀ i, g₀.thread i = none)
    (hrun : Run (CounterStep a counter text) g₀ es g) :
    ∃ fs g', Run (CounterStep a counter text) g₀ (es ++ fs) g' ∧
      (es ++ fs).countP GuestEv.isStart = es.countP GuestEv.isStart ∧
      ∀ i t, g'.thread i = some t → t.state = .finished := by
  have hinit := @CounterState.init a handle counter text g₀ ht hmutex hnone
  generalize hleft : 12 * es.countP GuestEv.isStart - es.countP GuestEv.isExec = n
  induction n using Nat.strong_induction_on generalizing es g with
  | _ n ih =>
    obtain ⟨s, hlocked, hg⟩ := counterState_of_run hl hinit hrun
    by_cases hall : ∀ i t, g.thread i = some t → t.state = .finished
    · exact ⟨[], g, by rwa [List.append_nil], by rw [List.append_nil], hall⟩
    · push Not at hall
      obtain ⟨i, t, hti, hno⟩ := hall
      obtain ⟨j, op, o, u, u', g', hstep⟩ :=
        hg.live hl (Locked.Run.serial hlocked) hti hno
      have hnext := hrun.next (CounterStep.of_exec hstep)
      obtain ⟨s', hlocked', -⟩ := counterState_of_run hl hinit hnext
      have hbound := (counts_of_turns hlocked').2
      have hexec : (es ++ [GuestEv.exec j op o u u']).countP GuestEv.isExec
          = es.countP GuestEv.isExec + 1 := by
        rw [List.countP_append]
        rfl
      have hstart : (es ++ [GuestEv.exec j op o u u']).countP GuestEv.isStart
          = es.countP GuestEv.isStart := by
        rw [List.countP_append]
        rfl
      rw [hexec, hstart] at hbound
      obtain ⟨fs, g'', hrun', hcount, hdone⟩ := ih _ (by omega) hnext rfl
      rw [List.append_assoc] at hrun' hcount
      exact ⟨_, g'', hrun', hcount.trans hstart, hdone⟩

end Runs

/-- The source of `test_vm_thread_shared_mutex`, with the mutex at 0x5000 and the counter at
0x6000. -/
def counterAsm : List Byte := asmText
  ["    mov  ax, 17",
   "    mov  bx, 20480",
   "    syscall",
   "    mov  di, 24576",
   "    mov  ax, [di]",
   "    mov  bx, 1",
   "    add  ax, bx",
   "    mov  [di], ax",
   "    mov  ax, 18",
   "    mov  bx, 20480",
   "    syscall",
   "    halt"]

/-- No thread yet, the assembled code at 0x1000, and a free mutex. -/
def counterGuests (text : List Byte) : Guests where
  mem := writeBytes (fun _ => 0) 0x1000 text
  mutex p := if p = 0x5000 then some none else none
  thread _ := none

theorem counterAsm_threads : ∃ ctx es g, asmCompile zeroEnv counterAsm = .ok ctx ∧
    Run (CounterStep 0x1000 0x6000 ctx.text.bytes) (counterGuests ctx.text.bytes) es g ∧
    CounterRun 0x1000 0x5000 0x6000 (counterGuests ctx.text.bytes) es g ∧
    es.countP GuestEv.isStart = 2 ∧ (∀ i t, g.thread i = some t → t.state = .finished) := by
  obtain ⟨ctx, hasm, hdec, hlen⟩ : ∃ ctx, asmCompile zeroEnv counterAsm = .ok ctx ∧
      Decodes ctx.text.bytes 0 (counterCode 0x5000 0x6000) ∧ ctx.text.bytes.length = 69 :=
    exists_ok_of_decide (by decide +kernel)
  have hlayout : CounterLayout 0x1000 0x5000 0x6000 ctx.text.bytes := by
    refine ⟨hdec, by omega, by decide, ?_, ?_, ?_⟩
    all_goals
      intro x hx hx'
      unfold InBlock at hx hx'
      try unfold mutexSize at hx'
      bv_omega
  have htext : TextAt 0x1000 ctx.text.bytes (counterGuests ctx.text.bytes).mem :=
    readBytes_writeBytes_self _ _ (by omega)
  have hmutex : (counterGuests ctx.text.bytes).mutex 0x5000 = some none := rfl
  have hfirst : Run (CounterStep 0x1000 0x6000 ctx.text.bytes) (counterGuests ctx.text.bytes) _ _ :=
    .single (.of_start (i := 0) rfl 0x8000 0x100)
  have hstarts := hfirst.next (.of_start (i := 1) rfl 0x9000 0x100)
  obtain ⟨fs, g, hrun, hcount, hdone⟩ :=
    counter_completes hlayout htext hmutex (fun _ => rfl) hstarts
  exact ⟨ctx, _, g, hasm, hrun, counter_threads hlayout htext hmutex (fun _ => rfl) hrun,
    hcount, hdone⟩

end Dvm
