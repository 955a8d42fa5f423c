/-
# Sized and indexed memory accesses

A store of some width writes the low bytes of its register, and no others.  A load of the same
width at the same address gives them back, zero- or sign-extended, whichever of the two has a
displacement (`StoreLaw`).  An access with a displacement is a `LEA` to a register that it does
not use and the access without a displacement at that register, for the handlers (`exec_indexed`)
and as instructions that are fetched (`step_indexed`).
-/
import Dvm.Vm.Access
import Dvm.Vm.Run

namespace Dvm

open Bytes ByteMem

/-! ## 1. The accesses -/

/-- The number of bytes an opcode stores. -/
def Op.stored : Op → Option Nat
  | .movMR | .movMROff => some 8
  | .movMR8 | .movMR8Off => some 1
  | .movMR16 | .movMR16Off => some 2
  | .movMR32 | .movMR32Off => some 4
  | _ => none

/-- The number of bytes an opcode loads and zero-extends. -/
def Op.loadedZx : Op → Option Nat
  | .movRM | .movRMOff => some 8
  | .movzxRM8 | .movzxRM8Off => some 1
  | .movzxRM16 | .movzxRM16Off => some 2
  | .movzxRM32 | .movzxRM32Off => some 4
  | _ => none

/-- The number of bytes an opcode loads and sign-extends. -/
def Op.loadedSx : Op → Option Nat
  | .movsxRM8 | .movsxRM8Off => some 1
  | .movsxRM16 | .movsxRM16Off => some 2
  | .movsxRM32 | .movsxRM32Off => some 4
  | _ => none

/-- The opcode has a displacement. -/
def Op.Indexed (op : Op) : Prop := op.plain ≠ op

/-- The address that an access computes. -/
def memAddr (i : Op × Operands) (t : VMThread) : Word :=
  t.gpr (memBase i) + BitVec.ofInt 64 (memDisp i)

/-- What a store of `n` bytes has done, and what loads of `n` bytes at its address do then;
`m'` is the memory after it. -/
structure StoreLaw (n : Nat) (i : Op × Operands) (t : VMThread) (m m' : Mem) : Prop where
  stores : ∀ sys, exec sys i.1 i.2 t m = .next t m'
  frame : ∀ x, ¬ InBlock (memAddr i t) n x → m' x = m x
  zeroExtended : ∀ sys ld o t', ld.loadedZx = some n → memAddr (ld, o) t' = memAddr i t →
    exec sys ld o t' m'
      = .next (t'.setReg o.d (BitVec.ofNat 64 ((t.gpr i.2.s).toNat % 2 ^ (8 * n)))) m'
  signExtended : ∀ sys ld o t', ld.loadedSx = some n → memAddr (ld, o) t' = memAddr i t →
    exec sys ld o t' m'
      = .next (t'.setReg o.d (((t.gpr i.2.s).setWidth (8 * n)).signExtend 64)) m'

/-- The operands of `LEA` to `r` of the address that an access computes. -/
def leaOperands (i : Op × Operands) (r : Reg) : Operands :=
  { d := r, s := memBase i, off := i.2.off }

/-- The operands of the access without a displacement, at `r`. -/
def plainOperands (i : Op × Operands) (r : Reg) : Operands :=
  if i.1.Stores then { d := r, s := i.2.s } else { d := i.2.d, s := r }

/-- The handler of an indexed access ends as those of `LEA` and the plain access do, `r` aside. -/
structure IndexedLaw (i : Op × Operands) (r : Reg) (t : VMThread) (m : Mem) : Prop where
  lea : ∀ sys, exec sys .lea (leaOperands i r) t m = .next (t.setReg r (memAddr i t)) m
  same : ∀ sys, ∃ t₁ m₁, exec sys i.1 i.2 t m = .next t₁ m₁ ∧
    exec sys i.1.plain (plainOperands i r) (t.setReg r (memAddr i t)) m
      = .next (t₁.setReg r (memAddr i t)) m₁

/-- The same as instructions: one thread is at the indexed access, one at `LEA` and the plain
access, and they are in the same state behind them, `ip` and `r` aside. -/
structure IndexedSteps (i : Op × Operands) (r : Reg) (t : VMThread) (ip : Word) (m : Mem) :
    Prop where
  same : fetchInstr m t.ip = some i → fetchInstr m ip = some (.lea, leaOperands i r) →
    fetchInstr m (ip + BitVec.ofNat 64 Op.lea.size) = some (i.1.plain, plainOperands i r) →
    ∀ sys, ∃ t₁ m₁ t₂, step sys t m = .next t₁ m₁ ∧ step sys { t with ip := ip } m = .next t₂ m ∧
      step sys t₂ m = .next { t₁.setReg r (memAddr i t) with
        ip := ip + BitVec.ofNat 64 Op.lea.size + BitVec.ofNat 64 i.1.plain.size } m₁

/-- Sized and indexed accesses are consistent. -/
structure AccessesConsistent : Prop where
  sized : ∀ (op : Op) (o : Operands) (n : Nat) (t : VMThread) (m : Mem), op.stored = some n →
    ∃ m', StoreLaw n (op, o) t m m'
  indexed : ∀ (op : Op) (o : Operands) (r : Reg) (t : VMThread) (m : Mem), op.Indexed →
    r ≠ o.d → r ≠ o.s → IndexedLaw (op, o) r t m ∧ ∀ ip, IndexedSteps (op, o) r t ip m

/-! ## 2. Stores and loads -/

section Stores

variable {n : Nat} {m : Mem} {a v : Word}

theorem readBytes_store (hn : n < 2 ^ 64) : readBytes (store n m a v) a n = le n v.toNat := by
  have hself := @readBytes_writeBytes_self m a (le n v.toNat) (by rwa [length_le])
  rwa [length_le] at hself

theorem pow_256 (n : Nat) : 256 ^ n = 2 ^ (8 * n) := by
  rw [pow_mul]
  rfl

theorem load_store (hn : n < 2 ^ 64) :
    load n (store n m a v) a = BitVec.ofNat 64 (v.toNat % 2 ^ (8 * n)) := by
  rw [load, readBytes_store hn, ofLe_le, pow_256]

theorem loadSx_store (hn : n < 2 ^ 64) :
    loadSx n (store n m a v) a = (v.setWidth (8 * n)).signExtend 64 := by
  have hlow : BitVec.ofNat (8 * n) (v.toNat % 2 ^ (8 * n)) = v.setWidth (8 * n) := by
    apply BitVec.eq_of_toNat_eq
    rw [BitVec.toNat_ofNat, Nat.mod_mod, BitVec.toNat_setWidth]
  rw [loadSx, readBytes_store hn, ofLe_le, pow_256, hlow]

theorem store_frame {x : Word} (h : ¬ InBlock a n x) : store n m a v x = m x := by
  refine writeBytes_of_not_inBlock m ?_
  rwa [length_le]

end Stores

/-! ## 3. Handlers -/

/-- Every width is at most 8 bytes. -/
theorem stored_lt {op : Op} {n : Nat} (h : op.stored = some n) : n < 2 ^ 64 := by
  cases op
  all_goals first
    | cases h; done
    | cases h; decide

theorem exec_stored {op : Op} {n : Nat} (h : op.stored = some n) (sys : SysAnswer) (o : Operands)
    (t : VMThread) (m : Mem) :
    exec sys op o t m = .next t (store n m (memAddr (op, o) t) (t.gpr o.s)) := by
  rw [memAddr]
  cases op
  all_goals first
    | cases h; done
    | cases h; rw [exec_access (by decide)]; rfl

theorem exec_loadedZx {op : Op} {n : Nat} (h : op.loadedZx = some n) (sys : SysAnswer)
    (o : Operands) (t : VMThread) (m : Mem) :
    exec sys op o t m = .next (t.setReg o.d (load n m (memAddr (op, o) t))) m := by
  rw [memAddr]
  cases op
  all_goals first
    | cases h; done
    | cases h; rw [exec_access (by decide)]; rfl

theorem exec_loadedSx {op : Op} {n : Nat} (h : op.loadedSx = some n) (sys : SysAnswer)
    (o : Operands) (t : VMThread) (m : Mem) :
    exec sys op o t m = .next (t.setReg o.d (loadSx n m (memAddr (op, o) t))) m := by
  rw [memAddr]
  cases op
  all_goals first
    | cases h; done
    | cases h; rw [exec_access (by decide)]; rfl

theorem storeLaw {op : Op} {n : Nat} (h : op.stored = some n) (o : Operands) (t : VMThread)
    (m : Mem) : StoreLaw n (op, o) t m (store n m (memAddr (op, o) t) (t.gpr o.s)) where
  stores sys := exec_stored h sys o t m
  frame _ hx := store_frame hx
  zeroExtended sys ld o' t' hld haddr := by
    rw [exec_loadedZx hld, haddr, load_store (stored_lt h)]
  signExtended sys ld o' t' hld haddr := by
    rw [exec_loadedSx hld, haddr, loadSx_store (stored_lt h)]

/-! ## 4. Displacements -/

theorem setReg_same (t : VMThread) (r : Reg) (v : Word) : (t.setReg r v).gpr r = v := if_pos rfl

theorem setReg_ne {t : VMThread} {r k : Reg} (v : Word) (h : k ≠ r) :
    (t.setReg r v).gpr k = t.gpr k := if_neg h

theorem setReg_comm {t : VMThread} {r k : Reg} (v w : Word) (h : k ≠ r) :
    (t.setReg r v).setReg k w = (t.setReg k w).setReg r v := by
  unfold VMThread.setReg
  congr 1
  funext j
  by_cases hk : j = k
  · subst hk
    simp [h]
  · simp [hk]

section Indexed

variable {op : Op} {o : Operands} {r : Reg} {t : VMThread} {m : Mem}

/-- An indexed access loads, or it stores. -/
theorem Op.Indexed.cases (h : op.Indexed) :
    (∃ n, op.loadedZx = some n ∧ op.plain.loadedZx = some n ∧ ¬ op.Stores) ∨
      (∃ n, op.loadedSx = some n ∧ op.plain.loadedSx = some n ∧ ¬ op.Stores) ∨
      ∃ n, op.stored = some n ∧ op.plain.stored = some n ∧ op.Stores := by
  cases op
  all_goals first
    | exact absurd rfl h
    | exact .inl ⟨_, rfl, rfl, by decide⟩
    | exact .inr (.inl ⟨_, rfl, rfl, by decide⟩)
    | exact .inr (.inr ⟨_, rfl, rfl, by decide⟩)

/-- The plain access has no displacement, and its base is `r`. -/
theorem memAddr_plain (h : op.Indexed) (v : Word) :
    memAddr (op.plain, plainOperands (op, o) r) (t.setReg r v) = v := by
  have hbase : memBase (op.plain, plainOperands (op, o) r) = r := by
    cases op
    all_goals first
      | exact absurd rfl h
      | rfl
  have hdisp : memDisp (op.plain, plainOperands (op, o) r) = 0 := by
    cases op
    all_goals first
      | exact absurd rfl h
      | rfl
  rw [memAddr, hbase, hdisp, setReg_same]
  exact BitVec.add_zero v

theorem exec_lea (h : op.Indexed) (sys : SysAnswer) :
    exec sys .lea (leaOperands (op, o) r) t m = .next (t.setReg r (memAddr (op, o) t)) m := by
  have hdisp : memDisp (op, o) = o.off.toInt := by
    cases op
    all_goals first
      | exact absurd rfl h
      | rfl
  rw [memAddr, hdisp]
  rfl

theorem exec_indexed (h : op.Indexed) (hd : r ≠ o.d) (hs : r ≠ o.s) :
    IndexedLaw (op, o) r t m where
  lea sys := exec_lea h sys
  same sys := by
    let a := memAddr (op, o) t
    have haddr : memAddr (op.plain, plainOperands (op, o) r) (t.setReg r a) = a := memAddr_plain h a
    rcases h.cases with ⟨n, hop, hplain, hst⟩ | ⟨n, hop, hplain, hst⟩ | ⟨n, hop, hplain, hst⟩
    · have hregs : plainOperands (op, o) r = { d := o.d, s := r } := if_neg hst
      refine ⟨_, _, exec_loadedZx hop sys o t m, ?_⟩
      rw [exec_loadedZx hplain, haddr, hregs, setReg_comm _ _ (Ne.symm hd)]
    · have hregs : plainOperands (op, o) r = { d := o.d, s := r } := if_neg hst
      refine ⟨_, _, exec_loadedSx hop sys o t m, ?_⟩
      rw [exec_loadedSx hplain, haddr, hregs, setReg_comm _ _ (Ne.symm hd)]
    · have hregs : plainOperands (op, o) r = { d := r, s := o.s } := if_pos hst
      refine ⟨_, _, exec_stored hop sys o t m, ?_⟩
      rw [exec_stored hplain, haddr, hregs, setReg_ne _ (Ne.symm hs)]

theorem accessAt_ip {a : Word} {t₁ : VMThread} {m₁ : Mem} (h : accessAt op r a t m = .next t₁ m₁)
    (ip : Word) : accessAt op r a { t with ip := ip } m = .next { t₁ with ip := ip } m₁ := by
  cases op
  all_goals first
    | cases h; done
    | cases h; rfl

/-- An access neither reads nor writes `ip`. -/
theorem exec_access_ip (hop : op.plain ∈ accessOps) {sys : SysAnswer} {t₁ : VMThread} {m₁ : Mem}
    (h : exec sys op o t m = .next t₁ m₁) (ip : Word) :
    exec sys op o { t with ip := ip } m = .next { t₁ with ip := ip } m₁ := by
  rw [exec_access hop] at h ⊢
  exact accessAt_ip h ip

theorem Op.Indexed.access (h : op.Indexed) : op.plain ∈ accessOps ∧ op.plain.plain ∈ accessOps := by
  cases op
  all_goals first
    | exact absurd rfl h
    | decide

theorem step_indexed (h : op.Indexed) (hd : r ≠ o.d) (hs : r ≠ o.s) (ip : Word) :
    IndexedSteps (op, o) r t ip m where
  same hop hlea hplain sys := by
    obtain ⟨t₁, m₁, hexec, hexec'⟩ := (@exec_indexed op o r t m h hd hs).same sys
    let t₂ : VMThread :=
      { t.setReg r (memAddr (op, o) t) with ip := ip + BitVec.ofNat 64 Op.lea.size }
    refine ⟨_, m₁, t₂, (step_of_fetch hop).trans (exec_access_ip h.access.1 hexec _), ?_, ?_⟩
    · have hstep := @step_of_fetch sys { t with ip := ip } m _ _ hlea
      exact hstep.trans (exec_access_ip (by decide) (exec_lea h sys) _)
    · have hstep := @step_of_fetch sys t₂ m _ _ hplain
      exact hstep.trans (exec_access_ip h.access.2 hexec' _)

end Indexed

/-- The store, its loads, and the displacements. -/
theorem accesses_consistent : AccessesConsistent where
  sized _ o _ t m h := ⟨_, storeLaw h o t m⟩
  indexed _ _ _ _ _ h hd hs := ⟨exec_indexed h hd hs, fun ip => step_indexed h hd hs ip⟩

end Dvm
