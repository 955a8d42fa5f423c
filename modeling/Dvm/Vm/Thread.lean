/-
# A virtual machine thread

The `VMThread` of `vm.h` as far as the interpreter uses it, its shadow stack, and the two ways
a thread starts.  The thread record is no part of the memory the guest can store to.
-/
import Dvm.Base.ByteMem
import Dvm.Isa

namespace Dvm

open ByteMem

/-! ## 1. The shadow stack -/

def shadowDepth : Nat := 2048

/-- The shadow stack, top first.  `stop - shadow` is the number of entries. -/
structure ShadowStack where
  entries : List Word
  fits : entries.length ≤ shadowDepth

def ShadowStack.empty : ShadowStack := ⟨[], Nat.zero_le _⟩

/-- `spush`; `none` where it aborts. -/
def spush (s : ShadowStack) (v : Word) : Option ShadowStack :=
  if h : s.entries.length < shadowDepth then some ⟨v :: s.entries, h⟩ else none

/-- `spop`; `none` where it aborts. -/
def spop : ShadowStack → Option (Word × ShadowStack)
  | ⟨[], _⟩ => none
  | ⟨v :: rest, h⟩ => some (v, ⟨rest, Nat.le_of_succ_le h⟩)

theorem spush_eq_some_iff {s s' : ShadowStack} {v : Word} :
    spush s v = some s' ↔ s'.entries = v :: s.entries := by
  unfold spush
  split
  · rw [Option.some.injEq]
    constructor
    · rintro rfl
      rfl
    · intro h
      cases s'
      simp_all
  · next hfull =>
    constructor
    · intro h
      cases h
    · intro h
      have := s'.fits
      rw [h, List.length_cons] at this
      omega

theorem spush_eq_none_iff {s : ShadowStack} {v : Word} :
    spush s v = none ↔ s.entries.length = shadowDepth := by
  have := s.fits
  unfold spush
  split
  · constructor
    · intro h
      cases h
    · intro h
      omega
  · constructor
    · intro _
      omega
    · intro _
      rfl

theorem spop_eq_some_iff {s s' : ShadowStack} {v : Word} :
    spop s = some (v, s') ↔ s.entries = v :: s'.entries := by
  obtain ⟨entries, fits⟩ := s
  cases entries with
  | nil => simp [spop]
  | cons w rest =>
    simp only [spop, Option.some.injEq, Prod.mk.injEq, List.cons.injEq]
    constructor
    · rintro ⟨rfl, rfl⟩
      exact ⟨rfl, rfl⟩
    · rintro ⟨rfl, rfl⟩
      exact ⟨rfl, rfl⟩

theorem spop_eq_none_iff {s : ShadowStack} : spop s = none ↔ s.entries = [] := by
  obtain ⟨entries, fits⟩ := s
  cases entries <;> simp [spop]

/-! ## 2. Threads -/

inductive VMThreadState where
  | running | blocked | finished
  deriving DecidableEq, Repr

/-- A thread.  The float registers hold the bits of their `double`s. -/
structure VMThread where
  state : VMThreadState
  gpr : Reg → Word
  ip : Word
  sp : Word
  bp : Word
  fl : Word
  fp : Reg → Word
  shadow : ShadowStack
  /-- The stack's mapping, `none` for NULL. -/
  vmStack : Option Word
  stackSize : Word
  bytecode : Word

def regAx : Reg := 0
def regBx : Reg := 1
def regCx : Reg := 2
def regDx : Reg := 3
def regDi : Reg := 4
def regSi : Reg := 5
def regEx : Reg := 6
def regFx : Reg := 7

/-- `S(n, v)`. -/
def VMThread.setReg (t : VMThread) (n : Reg) (v : Word) : VMThread :=
  { t with gpr := fun k => if k = n then v else t.gpr k }

/-- `rf->fp[n] = v`. -/
def VMThread.setFp (t : VMThread) (n : Reg) (v : Word) : VMThread :=
  { t with fp := fun k => if k = n then v else t.fp k }

/-- The thread `vm_thread_create` and `vm_run` set up, with its register file initialised by
`thread_init_rf`; `vmStack` is what `dvm_mmap` returns for the stack. -/
def freshThread (vmStack bytecode stackSize : Word) : VMThread where
  state := .running
  gpr := fun _ => 0
  ip := bytecode
  sp := vmStack + stackSize
  bp := vmStack + stackSize
  fl := 0
  fp := fun _ => 0
  shadow := .empty
  vmStack := some vmStack
  stackSize := stackSize
  bytecode := bytecode

/-- `vm_thread_create`. -/
def vmThreadCreate (vmStack bytecode stackSize : Word) : VMThread :=
  freshThread vmStack bytecode stackSize

/-- The thread `vm_run` runs on the calling thread. -/
def vmRun (vmStack bytecode stackSize : Word) : VMThread :=
  freshThread vmStack bytecode stackSize

end Dvm
