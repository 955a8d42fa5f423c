/-
# What an instruction does to memory

An instruction reads its own bytes and what it loads (`loadedBlock`), and writes what it stores
(`storedBytes`); nothing else of memory matters to it, and nothing else of memory changes
(`exec_local`).  To a word of memory it is one of a few operations (`WordOp`): a store of any width
at any address lays its bytes over those of the word that it meets (`load_writeBytes`).
-/
import Dvm.Vm.Frames

namespace Dvm

open Bytes ByteMem

/-! ## 1. Blocks -/

/-- The block that an instruction loads, empty for most. -/
def loadedBlock (op : Op) (o : Operands) (t : VMThread) : Word × Nat :=
  match op with
  | .pop => (t.sp, 8)
  | .leave => (t.bp, 8)
  | .fmovRM => (t.gpr o.s, 8)
  | _ => (memAddr (op, o) t, (op.loadedZx.or op.loadedSx).getD 0)

/-- What an instruction stores, and where. -/
def storedBytes (op : Op) (o : Operands) (t : VMThread) : Word × List Byte :=
  match op with
  | .push => (t.sp - 8, le 8 (t.gpr o.d).toNat)
  | .enter => (t.sp - 8, le 8 t.bp.toNat)
  | .fmovMR => (t.gpr o.d, le 8 (t.fp o.s).toNat)
  | _ => (memAddr (op, o) t, op.stored.elim [] fun n => le n (t.gpr o.s).toNat)

/-- Memory after an instruction. -/
def written (op : Op) (o : Operands) (t : VMThread) (m : Mem) : Mem :=
  writeBytes m (storedBytes op o t).1 (storedBytes op o t).2

/-- The instruction ends, in `NEXT` or in `HALT`. -/
def Outcome.Leaves (out : Outcome) (t : VMThread) (m : Mem) : Prop :=
  out = .next t m ∨ out = .halted t m

/-- Where the instruction has put what it loads. -/
def loadedInto (op : Op) (o : Operands) (t' : VMThread) : Word :=
  match op with
  | .leave => t'.bp
  | .fmovRM => t'.fp o.d
  | _ => t'.gpr o.d

/-- The outcome with another memory. -/
def Outcome.withMem (out : Outcome) (m : Mem) : Outcome :=
  match out with
  | .next t _ => .next t m
  | .halted t _ => .halted t m
  | out => out

theorem writeBytes_nil (m : Mem) (a : Word) : writeBytes m a [] = m := rfl

theorem written_of_not_stored {op : Op} {o : Operands} {t : VMThread} (m : Mem)
    (h : (storedBytes op o t).2 = []) : written op o t m = m := by
  rw [written, h, writeBytes_nil]

theorem callTo_withMem (t : VMThread) (m m₁ : Mem) (dest err : Word) :
    callTo t m₁ dest err = (callTo t m dest err).withMem m₁ := by
  unfold callTo
  split
  · rfl
  · split <;> rfl

theorem popFrame_withMem (t : VMThread) (m m₁ : Mem) (pick : Word → Word → Word) :
    popFrame t m₁ pick = (popFrame t m pick).withMem m₁ := by
  unfold popFrame
  split
  · rfl
  · split <;> rfl

theorem load_of_readBytes {n : Nat} {m m₁ : Mem} {a : Word}
    (h : readBytes m₁ a n = readBytes m a n) : load n m₁ a = load n m a := by
  rw [load, load, h]

theorem loadedBlock_of_load {op : Op} {n : Nat} (h : op.loadedZx.or op.loadedSx = some n)
    (o : Operands) (t : VMThread) : loadedBlock op o t = (memAddr (op, o) t, n) := by
  cases op
  all_goals first
    | cases h; done
    | cases h; rfl

theorem storedBytes_of_stored {op : Op} {n : Nat} (h : op.stored = some n) (o : Operands)
    (t : VMThread) : storedBytes op o t = (memAddr (op, o) t, le n (t.gpr o.s).toNat) := by
  cases op
  all_goals first
    | cases h; done
    | cases h; rfl

/-- The opcodes that load. -/
theorem storedBytes_of_load {op : Op} {n : Nat} (h : op.loadedZx.or op.loadedSx = some n)
    (o : Operands) (t : VMThread) : (storedBytes op o t).2 = [] := by
  cases op
  all_goals first
    | cases h; done
    | rfl

/-- An instruction depends on memory by what it loads, and changes it by what it stores. -/
theorem exec_local {op : Op} {o : Operands} {t : VMThread} {m m₁ : Mem}
    (h : readBytes m₁ (loadedBlock op o t).1 (loadedBlock op o t).2
      = readBytes m (loadedBlock op o t).1 (loadedBlock op o t).2) :
    exec none op o t m₁ = (exec none op o t m).withMem (written op o t m₁) := by
  by_cases hstored : ∃ n, op.stored = some n
  · obtain ⟨n, hn⟩ := hstored
    rw [exec_stored hn, exec_stored hn, written, storedBytes_of_stored hn]
    rfl
  by_cases hzx : ∃ n, op.loadedZx = some n
  · obtain ⟨n, hn⟩ := hzx
    have hload : op.loadedZx.or op.loadedSx = some n := by rw [hn, Option.some_or]
    rw [loadedBlock_of_load hload] at h
    rw [exec_loadedZx hn, exec_loadedZx hn,
      written_of_not_stored m₁ (storedBytes_of_load hload o t),
      load_of_readBytes h]
    rfl
  by_cases hsx : ∃ n, op.loadedSx = some n
  · obtain ⟨n, hn⟩ := hsx
    have hload : op.loadedZx.or op.loadedSx = some n := by
      cases hz : op.loadedZx with
      | none => exact hn
      | some k => exact absurd ⟨k, hz⟩ hzx
    rw [loadedBlock_of_load hload] at h
    rw [exec_loadedSx hn, exec_loadedSx hn,
      written_of_not_stored m₁ (storedBytes_of_load hload o t),
      loadSx, loadSx, h]
    rfl
  · cases op
    case call => exact callTo_withMem _ _ _ _ _
    case callr => exact callTo_withMem _ _ _ _ _
    case ret => exact popFrame_withMem _ _ _ _
    case throw => exact popFrame_withMem _ _ _ _
    case div | mod | idiv | ftoi =>
      rw [written_of_not_stored m₁ rfl]
      simp only [exec]
      repeat' split
      all_goals rfl
    case pop =>
      have hload : load 8 m₁ t.sp = load 8 m t.sp := load_of_readBytes h
      rw [written_of_not_stored m₁ rfl]
      show Outcome.next { t.setReg o.d (load 8 m₁ t.sp) with sp := t.sp + 8 } m₁ = _
      rw [hload]
      rfl
    case leave =>
      have hload : load 8 m₁ t.bp = load 8 m t.bp := load_of_readBytes h
      rw [written_of_not_stored m₁ rfl]
      show Outcome.next { t with bp := load 8 m₁ t.bp, sp := t.bp + 8 } m₁ = _
      rw [hload]
      rfl
    case fmovRM =>
      have hload : load 8 m₁ (t.gpr o.s) = load 8 m (t.gpr o.s) := load_of_readBytes h
      rw [written_of_not_stored m₁ rfl]
      show Outcome.next (t.setFp o.d (load 8 m₁ (t.gpr o.s))) m₁ = _
      rw [hload]
      rfl
    all_goals first
      | exact absurd ⟨_, rfl⟩ hstored
      | exact absurd ⟨_, rfl⟩ hzx
      | exact absurd ⟨_, rfl⟩ hsx
      | rfl

@[simp] theorem VMThread.fetched_gpr (t : VMThread) (op : Op) : (t.fetched op).gpr = t.gpr := rfl

theorem memAddr_fetched (i : Op × Operands) (t : VMThread) (op : Op) :
    memAddr i (t.fetched op) = memAddr i t := by
  rw [memAddr, VMThread.fetched_gpr, memAddr]

theorem loadedBlock_fetched (op : Op) (o : Operands) (t : VMThread) :
    loadedBlock op o (t.fetched op) = loadedBlock op o t := by
  unfold loadedBlock
  rw [memAddr_fetched]
  cases op <;> rfl

theorem storedBytes_fetched (op : Op) (o : Operands) (t : VMThread) :
    storedBytes op o (t.fetched op) = storedBytes op o t := by
  unfold storedBytes
  rw [memAddr_fetched]
  cases op <;> rfl

section Ends

variable {op : Op} {o : Operands} {t t' : VMThread} {m m' : Mem}

theorem Outcome.leaves_withMem {out : Outcome} (h : (out.withMem m).Leaves t' m') : m' = m := by
  cases out with
  | next t₁ m₁ => rcases h with h | h <;> cases h; rfl
  | halted t₁ m₁ => rcases h with h | h <;> cases h; rfl
  | _ => rcases h with h | h <;> cases h

/-- Memory behind an instruction that ends. -/
theorem exec_written (h : (exec none op o (t.fetched op) m).Leaves t' m') :
    m' = written op o t m := by
  rw [exec_local (rfl : readBytes m _ _ = readBytes m _ _)] at h
  rw [Outcome.leaves_withMem h, written, written, storedBytes_fetched]

/-- What has been loaded, for the instructions that load eight bytes. -/
theorem exec_loaded (h8 : (loadedBlock op o t).2 = 8)
    (h : (exec none op o (t.fetched op) m).Leaves t' m') :
    loadedInto op o t' = load 8 m (loadedBlock op o t).1 := by
  rw [← loadedBlock_fetched] at h8 ⊢
  generalize t.fetched op = t at h8 h ⊢
  have hnext : ∀ t₁ m₁, exec none op o t m = .next t₁ m₁ → t' = t₁ := by
    intro t₁ m₁ hex
    rw [hex] at h
    rcases h with h | h <;> cases h
    rfl
  cases op
  case movRM | movRMOff =>
    obtain rfl := hnext _ _ (exec_loadedZx rfl none o t m)
    exact setReg_same _ _ _
  case pop =>
    obtain rfl := hnext _ _ rfl
    exact setReg_same _ _ _
  case leave =>
    obtain rfl := hnext _ _ rfl
    rfl
  case fmovRM =>
    obtain rfl := hnext _ _ rfl
    exact if_pos rfl
  all_goals exact absurd h8 (Nat.ne_of_beq_eq_false rfl)

/-- What is loaded by an instruction is not stored by it. -/
theorem storedBytes_of_loaded (h : (loadedBlock op o t).2 ≠ 0) : (storedBytes op o t).2 = [] := by
  cases op
  all_goals first
    | rfl
    | exact absurd rfl h

end Ends

/-! ## 2. Words -/

/-- Bytes that lie over a word, the first of them as far before its own as `off` says. -/
def overlay (off : Word) (bs : List Byte) (w : Word) : Word :=
  BitVec.ofNat 64 (ofLe ((le 8 w.toNat).mapIdx fun k b =>
    bs[(off + BitVec.ofNat 64 k).toNat]?.getD b))

/-- What is done to a word at a time. -/
inductive WordOp where
  | load
  | store (v : Word)
  | fetchAdd (delta : Word)
  | cmpxchg (expected desired : Word)
  /-- A store that meets the word. -/
  | bytes (off : Word) (bs : List Byte)
  deriving DecidableEq

def WordOp.next : WordOp → Word → Word
  | .load, w => w
  | .store v, _ => v
  | .fetchAdd delta, w => w + delta
  | .cmpxchg expected desired, w => if w = expected then desired else w
  | .bytes off bs, w => overlay off bs w

/-- All but a store answer with the old value. -/
def WordOp.answer : WordOp → Word → Option Word
  | .store _, _ => none
  | .bytes _ _, _ => none
  | _, w => some w

/-- An access of eight bytes, and the register that its answer goes to. -/
structure WordAccess where
  addr : Word
  op : WordOp
  reg : Reg
  deriving DecidableEq

/-- What an access does to the word, and what becomes of the register for its answer. -/
def WordAccess.Done (a : WordAccess) (m : Mem) (t' : VMThread) (m' : Mem) : Prop :=
  a.op.answer (t'.gpr a.reg) = a.op.answer (load 8 m a.addr) ∧
    load 8 m' a.addr = a.op.next (load 8 m a.addr)

theorem WordOp.answer_store (v w : Word) : (WordOp.store v).answer w = none := rfl

theorem WordOp.next_cmpxchg (expected desired w : Word) :
    (WordOp.cmpxchg expected desired).next w = if w = expected then desired else w := rfl

/-- An access whose answer is in its register. -/
theorem WordAccess.done_of_answer {a : WordAccess} {t : VMThread} {m m' : Mem}
    (h : load 8 m' a.addr = a.op.next (load 8 m a.addr)) :
    a.Done m (t.setReg a.reg (load 8 m a.addr)) m' :=
  ⟨by rw [setReg_same], h⟩

theorem WordAccess.done_store (t : VMThread) (m : Mem) (p v : Word) (r : Reg) :
    WordAccess.Done ⟨p, .store v, r⟩ m t (store 8 m p v) := by
  refine ⟨?_, load_store_word m p v⟩
  rw [WordOp.answer_store, WordOp.answer_store]

/-- The bytes of a word that is loaded. -/
theorem le_load (m : Mem) (p : Word) : le 8 (load 8 m p).toNat = readBytes m p 8 := by
  have hlt : ofLe (readBytes m p 8) < 2 ^ 64 := by
    refine Nat.lt_of_lt_of_le (ofLe_lt _) ?_
    rw [length_readBytes]
    decide
  have hle := le_ofLe (readBytes m p 8)
  rw [length_readBytes] at hle
  rw [load, BitVec.toNat_ofNat, Nat.mod_eq_of_lt hlt, hle]

/-- A word that is stored where it was loaded changes nothing. -/
theorem store_load (m : Mem) (p : Word) : store 8 m p (load 8 m p) = m := by
  funext x
  rw [store, le_load]
  by_cases hx : InBlock p 8 x
  · rw [writeBytes, getElem?_readBytes m p hx, BitVec.ofNat_toNat, BitVec.setWidth_eq,
      BitVec.add_comm, BitVec.sub_add_cancel]
    rfl
  · refine writeBytes_of_not_inBlock m fun hin => hx ?_
    rwa [length_readBytes] at hin

/-- A store lays its bytes over the word. -/
theorem load_writeBytes (m : Mem) (a p : Word) (bs : List Byte) :
    load 8 (writeBytes m a bs) p = overlay (p - a) bs (load 8 m p) := by
  rw [overlay, le_load, load, readBytes_writeBytes_meet]

end Dvm
