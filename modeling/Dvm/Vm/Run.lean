/-
# Runs of a thread

A run is a sequence of executed instructions (`Event.exec`) and of changes made to memory by
others, by system calls or other threads (`Event.host`).  The flow lemmas say once what an
instruction can do to `ip`, the shadow stack and the bytecode pointer; everything that is
proved about runs is derived from them.
-/
import Dvm.Base.Runs
import Dvm.Vm.Exec

namespace Dvm

open ByteMem Runs

/-! ## 1. Steps -/

/-- A thread at an instruction boundary, and memory. -/
abbrev VMState := VMThread × Mem

inductive Event where
  /-- An instruction with its operands, and the thread before and after it. -/
  | exec (op : Op) (o : Operands) (before after : VMThread)
  | host

inductive Step : VMState → Event → VMState → Prop
  | exec {t t' : VMThread} {m m' : Mem} {op : Op} {o : Operands} (sys : SysAnswer) :
      fetchInstr m t.ip = some (op, o) → step sys t m = .next t' m' →
      Step (t, m) (.exec op o t t') (t', m')
  | host {t : VMThread} {m : Mem} (m' : Mem) : Step (t, m) .host (t, m')

/-- The thread with `ip` behind an instruction, as its handler sees it. -/
def VMThread.fetched (t : VMThread) (op : Op) : VMThread :=
  { t with ip := t.ip + BitVec.ofNat 64 op.size }

@[simp] theorem VMThread.fetched_ip (t : VMThread) (op : Op) :
    (t.fetched op).ip = t.ip + BitVec.ofNat 64 op.size := rfl
@[simp] theorem VMThread.fetched_shadow (t : VMThread) (op : Op) :
    (t.fetched op).shadow = t.shadow := rfl
@[simp] theorem VMThread.fetched_fl (t : VMThread) (op : Op) : (t.fetched op).fl = t.fl := rfl

theorem step_of_fetch {sys : SysAnswer} {t : VMThread} {m : Mem} {op : Op} {o : Operands}
    (h : fetchInstr m t.ip = some (op, o)) : step sys t m = exec sys op o (t.fetched op) m := by
  rw [step, h]
  rfl

/-! ## 2. What an instruction does to the flow of control -/

/-- The groups of opcodes by what they do to `ip` and the shadow stack. -/
inductive Flow where
  | straight | jump | call | callr | ret | throw
  deriving DecidableEq, Repr

def Op.flow : Op → Flow
  | jmp | je | jne | jl | jle | jg | jge => .jump
  | .call => .call
  | .callr => .callr
  | .ret => .ret
  | .throw => .throw
  | _ => .straight

/-- `ip`, shadow stack and bytecode pointer stay as they are. -/
structure SameFlow (t t' : VMThread) : Prop where
  ip : t'.ip = t.ip
  shadow : t'.shadow = t.shadow
  bytecode : t'.bytecode = t.bytecode

/-- The comparisons: the instructions that write the flags. -/
def Op.compares (op : Op) : Bool := op = .cmp ∨ op = .test ∨ op = .fcmp

/-- A straight instruction leaves the flow as it is, and the flags unless it is a comparison. -/
theorem exec_straight_frame {sys : SysAnswer} {op : Op} {o : Operands} {t t' : VMThread}
    {m m' : Mem} (hop : op.flow = .straight) (h : exec sys op o t m = .next t' m') :
    SameFlow t t' ∧ (op.compares = false → t'.fl = t.fl) := by
  cases op
  case div =>
    simp only [exec] at h
    split at h
    · cases h
    · cases h
      exact ⟨⟨rfl, rfl, rfl⟩, fun _ => rfl⟩
  case idiv =>
    simp only [exec] at h
    split at h
    · cases h
    · split at h
      · cases h
      · cases h
        exact ⟨⟨rfl, rfl, rfl⟩, fun _ => rfl⟩
  case mod =>
    simp only [exec] at h
    split at h
    · cases h
    · cases h
      exact ⟨⟨rfl, rfl, rfl⟩, fun _ => rfl⟩
  case ftoi =>
    simp only [exec] at h
    split at h
    · cases h
      exact ⟨⟨rfl, rfl, rfl⟩, fun _ => rfl⟩
    · cases h
  case syscall =>
    cases sys with
    | none => cases h
    | some x =>
      cases h
      exact ⟨⟨rfl, rfl, rfl⟩, fun _ => rfl⟩
  case halt => cases h
  -- the jumps and the shadow stack opcodes are excluded; the other handlers end in `NEXT`
  all_goals first
    | cases hop; done
    | cases h; exact ⟨⟨rfl, rfl, rfl⟩, fun _ => rfl⟩
    | cases h; exact ⟨⟨rfl, rfl, rfl⟩, nofun⟩

theorem exec_straight {sys : SysAnswer} {op : Op} {o : Operands} {t t' : VMThread} {m m' : Mem}
    (hop : op.flow = .straight) (h : exec sys op o t m = .next t' m') : SameFlow t t' :=
  (exec_straight_frame hop h).1

/-- A jump moves `ip` if it is taken, and does nothing else. -/
theorem exec_jump_eq {sys : SysAnswer} {op : Op} {o : Operands} {t t' : VMThread} {m m' : Mem}
    (hop : op.flow = .jump) (h : exec sys op o t m = .next t' m') :
    t' = if op.taken t.fl then { t with ip := t.target o.off } else t := by
  cases op
  all_goals first
    | cases hop; done
    | exact (Outcome.next.inj h).1.symm

theorem exec_jump {sys : SysAnswer} {op : Op} {o : Operands} {t t' : VMThread} {m m' : Mem}
    (hop : op.flow = .jump) (h : exec sys op o t m = .next t' m') :
    t'.ip = (if op.taken t.fl then t.target o.off else t.ip) ∧ t'.shadow = t.shadow ∧
      t'.bytecode = t.bytecode := by
  rw [exec_jump_eq hop h]
  split
  · exact ⟨rfl, rfl, rfl⟩
  · exact ⟨rfl, rfl, rfl⟩

/-- A call that goes on has pushed a whole frame. -/
theorem callTo_next {t t' : VMThread} {m m' : Mem} {dest err : Word}
    (h : callTo t m dest err = .next t' m') :
    t'.shadow.entries = t.ip :: err :: t.shadow.entries ∧ t'.ip = dest ∧
      t'.bytecode = t.bytecode := by
  unfold callTo at h
  cases h₁ : spush t.shadow err with
  | none => simp [h₁] at h
  | some s₁ =>
    cases h₂ : spush s₁ t.ip with
    | none => simp [h₁, h₂] at h
    | some s₂ =>
      simp only [h₁, h₂, Outcome.next.injEq] at h
      obtain ⟨rfl, -⟩ := h
      refine ⟨?_, rfl, rfl⟩
      show s₂.entries = _
      rw [spush_eq_some_iff.mp h₂, spush_eq_some_iff.mp h₁]

/-- A return or a throw that goes on has popped a whole frame. -/
theorem popFrame_next {t t' : VMThread} {m m' : Mem} {pick : Word → Word → Word}
    (h : popFrame t m pick = .next t' m') :
    ∃ ok err, t.shadow.entries = ok :: err :: t'.shadow.entries ∧ t'.ip = pick ok err ∧
      t'.bytecode = t.bytecode := by
  unfold popFrame at h
  cases h₁ : spop t.shadow with
  | none => simp [h₁] at h
  | some x =>
    obtain ⟨ok, s₁⟩ := x
    cases h₂ : spop s₁ with
    | none => simp [h₁, h₂] at h
    | some y =>
      obtain ⟨err, s₂⟩ := y
      simp only [h₁, h₂, Outcome.next.injEq] at h
      obtain ⟨rfl, -⟩ := h
      refine ⟨ok, err, ?_, rfl, rfl⟩
      rw [spop_eq_some_iff.mp h₁, spop_eq_some_iff.mp h₂]

/-- Everything an instruction that goes on can do to the flow of control. -/
theorem exec_cases {sys : SysAnswer} {op : Op} {o : Operands} {t t' : VMThread} {m m' : Mem}
    (h : exec sys op o t m = .next t' m') :
    (op.flow = .straight ∧ SameFlow t t') ∨
    (op.flow = .jump ∧ t'.ip = (if op.taken t.fl then t.target o.off else t.ip) ∧
      t'.shadow = t.shadow ∧ t'.bytecode = t.bytecode) ∨
    (op = .call ∧ t'.shadow.entries = t.ip :: t.target o.err :: t.shadow.entries ∧
      t'.ip = t.target o.off ∧ t'.bytecode = t.bytecode) ∨
    (op = .callr ∧ t'.shadow.entries = t.ip :: t.target o.off :: t.shadow.entries ∧
      t'.ip = t.gpr o.d ∧ t'.bytecode = t.bytecode) ∨
    (op = .ret ∧ ∃ ok err, t.shadow.entries = ok :: err :: t'.shadow.entries ∧ t'.ip = ok ∧
      t'.bytecode = t.bytecode) ∨
    (op = .throw ∧ ∃ ok err, t.shadow.entries = ok :: err :: t'.shadow.entries ∧ t'.ip = err ∧
      t'.bytecode = t.bytecode) := by
  cases hflow : op.flow with
  | straight => exact .inl ⟨rfl, exec_straight hflow h⟩
  | jump => exact .inr (.inl ⟨rfl, exec_jump hflow h⟩)
  | call =>
    have hop : op = .call := by
      cases op
      all_goals first
        | rfl
        | cases hflow
    subst hop
    exact .inr (.inr (.inl ⟨rfl, callTo_next h⟩))
  | callr =>
    have hop : op = .callr := by
      cases op
      all_goals first
        | rfl
        | cases hflow
    subst hop
    exact .inr (.inr (.inr (.inl ⟨rfl, callTo_next h⟩)))
  | ret =>
    have hop : op = .ret := by
      cases op
      all_goals first
        | rfl
        | cases hflow
    subst hop
    exact .inr (.inr (.inr (.inr (.inl ⟨rfl, popFrame_next h⟩))))
  | throw =>
    have hop : op = .throw := by
      cases op
      all_goals first
        | rfl
        | cases hflow
    subst hop
    exact .inr (.inr (.inr (.inr (.inr ⟨rfl, popFrame_next h⟩))))

theorem callTo_aborted {t t' : VMThread} {m : Mem} {dest err : Word} {why : Abort}
    (h : callTo t m dest err = .aborted why t') :
    why = .shadowOverflow ∧ (t' = t ∧ t.shadow.entries.length = shadowDepth ∨
      t.shadow.entries.length + 1 = shadowDepth) := by
  unfold callTo at h
  cases h₁ : spush t.shadow err with
  | none =>
    simp only [h₁, Outcome.aborted.injEq] at h
    exact ⟨h.1.symm, .inl ⟨h.2.symm, spush_eq_none_iff.mp h₁⟩⟩
  | some s₁ =>
    cases h₂ : spush s₁ t.ip with
    | none =>
      simp only [h₁, h₂, Outcome.aborted.injEq] at h
      have hlen := spush_eq_none_iff.mp h₂
      rw [spush_eq_some_iff.mp h₁, List.length_cons] at hlen
      exact ⟨h.1.symm, .inr hlen⟩
    | some s₂ => simp [h₁, h₂] at h

theorem popFrame_aborted {t t' : VMThread} {m : Mem} {pick : Word → Word → Word} {why : Abort}
    (h : popFrame t m pick = .aborted why t') :
    why = .shadowUnderflow ∧ (t' = t ∧ t.shadow.entries = [] ∨
      t.shadow.entries.length = 1) := by
  unfold popFrame at h
  cases h₁ : spop t.shadow with
  | none =>
    simp only [h₁, Outcome.aborted.injEq] at h
    exact ⟨h.1.symm, .inl ⟨h.2.symm, spop_eq_none_iff.mp h₁⟩⟩
  | some x =>
    obtain ⟨ok, s₁⟩ := x
    cases h₂ : spop s₁ with
    | none =>
      simp only [h₁, h₂, Outcome.aborted.injEq] at h
      refine ⟨h.1.symm, .inr ?_⟩
      rw [spop_eq_some_iff.mp h₁, spop_eq_none_iff.mp h₂]
      rfl
    | some y => simp [h₁, h₂] at h

/-- Everything that can make an instruction abort. -/
theorem exec_aborted {sys : SysAnswer} {op : Op} {o : Operands} {t t' : VMThread} {m : Mem}
    {why : Abort} (h : exec sys op o t m = .aborted why t') :
    (why = .divZero ∧ t' = t) ∨
    (why = .shadowOverflow ∧ (t' = t ∧ t.shadow.entries.length = shadowDepth ∨
      t.shadow.entries.length + 1 = shadowDepth)) ∨
    (why = .shadowUnderflow ∧ (t' = t ∧ t.shadow.entries = [] ∨
      t.shadow.entries.length = 1)) := by
  cases op
  case call => exact .inr (.inl (callTo_aborted h))
  case callr => exact .inr (.inl (callTo_aborted h))
  case ret => exact .inr (.inr (popFrame_aborted h))
  case throw => exact .inr (.inr (popFrame_aborted h))
  case div =>
    simp only [exec] at h
    split at h
    · cases h
      exact .inl ⟨rfl, rfl⟩
    · cases h
  case idiv =>
    simp only [exec] at h
    split at h
    · cases h
      exact .inl ⟨rfl, rfl⟩
    · split at h
      · cases h
      · cases h
  case mod =>
    simp only [exec] at h
    split at h
    · cases h
    · cases h
  case ftoi =>
    simp only [exec] at h
    split at h
    · cases h
    · cases h
  case syscall =>
    cases sys with
    | none => cases h
    | some x => cases h
  all_goals cases h

end Dvm
