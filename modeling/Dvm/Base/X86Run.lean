/-
# Running x86-64 code

What the instructions of `X86` do to the registers and to memory, and runs of a processor on the
bytes it finds at `rip`.  `step_of_code` is the one place where bytes are decoded: where memory
holds an instruction's encoding, a step executes that instruction.  Runs through code that was
emitted are put together from it (`run_regs` where only registers change).
-/
import Dvm.Base.Runs
import Dvm.Base.X86

namespace X86

open Bytes ByteMem Runs

/-! ## 1. Words in memory -/

def readWord (m : Mem) (a : Word) : Word := BitVec.ofNat 64 (ofLe (readBytes m a 8))

def writeWord (m : Mem) (a v : Word) : Mem := writeBytes m a (le 8 v.toNat)

/-- Two blocks have no byte in common. -/
def Apart (a : Word) (n : Nat) (b : Word) (k : Nat) : Prop := ∀ x, InBlock a n x → ¬ InBlock b k x

theorem readBytes_add (m : Mem) (a : Word) (n k : Nat) :
    readBytes m a (n + k) = readBytes m a n ++ readBytes m (a + BitVec.ofNat 64 n) k := by
  induction n generalizing a with
  | zero => simp [readBytes]
  | succ n ih =>
    have haddr : a + 1 + BitVec.ofNat 64 n = a + BitVec.ofNat 64 (n + 1) := by
      rw [BitVec.ofNat_add, BitVec.add_assoc, BitVec.add_comm (BitVec.ofNat 64 n)]
      rfl
    rw [Nat.succ_add, readBytes, ih, readBytes, List.cons_append, haddr]

/-- A store does not change a block that lies apart from it. -/
theorem readBytes_writeBytes_apart {m : Mem} {a b : Word} {n : Nat} {bs : List Byte}
    (hn : n < 2 ^ 64) (h : Apart a n b bs.length) :
    readBytes (writeBytes m b bs) a n = readBytes m a n :=
  readBytes_congr hn fun x hx => writeBytes_of_not_inBlock m (h x hx)

theorem readWord_writeWord (m : Mem) (a v : Word) : readWord (writeWord m a v) a = v := by
  have hread := @readBytes_writeBytes_self m a (le 8 v.toNat) (by simp)
  rw [length_le] at hread
  rw [readWord, writeWord, hread, ofLe_le_of_lt (show v.toNat < 256 ^ 8 from v.isLt),
    BitVec.ofNat_toNat, BitVec.setWidth_eq]

theorem readWord_writeWord_apart {m : Mem} {a b v : Word} (h : Apart a 8 b 8) :
    readWord (writeWord m b v) a = readWord m a := by
  rw [readWord, writeWord, readBytes_writeBytes_apart (by decide) (by rwa [length_le]), readWord]

theorem writeWord_apply {m : Mem} {a v x : Word} (h : ¬ InBlock a 8 x) :
    writeWord m a v x = m x :=
  writeBytes_of_not_inBlock m (by rwa [length_le])

/-! ## 2. Execution -/

/-- The processor, as far as the instructions here see it. -/
structure Cpu where
  gpr : R64 → Word
  /-- The SSE registers. -/
  xmm : Fin 16 → BitVec 128
  rip : Word
  mem : Mem

def setR (g : R64 → Word) (r : R64) (v : Word) : R64 → Word := fun k => if k = r then v else g k

@[simp] theorem setR_self (g : R64 → Word) (r : R64) (v : Word) : setR g r v r = v := if_pos rfl

@[simp] theorem setR_ne (g : R64 → Word) {r k : R64} (v : Word) (h : k ≠ r) :
    setR g r v k = g k := if_neg h

def Alu.apply : Alu → Word → Word → Word
  | add, a, b => a + b
  | or, a, b => a ||| b
  | and, a, b => a &&& b
  | sub, a, b => a - b
  | xor, a, b => a ^^^ b

/-- A shift of a 64-bit operand takes the low six bits of its count. -/
def Shift.apply : Shift → Word → Word → Word
  | shl, a, c => a <<< (c &&& 63)
  | shr, a, c => a >>> (c &&& 63)
  | sar, a, c => a.sshiftRight (c &&& 63).toNat

/-- The address of a memory operand. -/
def MemOp.addr (g : R64 → Word) : MemOp → Word
  | plain base => g base
  | disp base d => g base + d.signExtend 64
  | rspDisp d => g rsp + d.signExtend 64

/-- The general registers after an instruction that changes nothing else; the others are in
`exec`. -/
def Instr.regs (g : R64 → Word) : Instr → R64 → Word
  | load d s => setR g d (g s)
  | store d s => setR g d (g s)
  | movImm64 d v => setR g d v
  | movImm32 d v => setR g d (v.setWidth 64)
  | alu op d s => setR g d (op.apply (g d) (g s))
  | imul d s => setR g d (g d * g s)
  | neg d => setR g d (-g d)
  | shift op d => setR g d (op.apply (g d) (g rcx))
  | addImm d v => setR g d (g d + v.signExtend 64)
  | subImm d v => setR g d (g d - v.signExtend 64)
  | _ => g

/-- `push` of a word. -/
def Cpu.pushWord (c : Cpu) (v : Word) : Cpu :=
  { c with gpr := setR c.gpr rsp (c.gpr rsp - 8), mem := writeWord c.mem (c.gpr rsp - 8) v }

/-- What an instruction does, `rip` being behind it already. -/
def Instr.exec (c : Cpu) : Instr → Cpu
  | loadMem d a => { c with gpr := setR c.gpr d (readWord c.mem (a.addr c.gpr)) }
  | storeMem a s => { c with mem := writeWord c.mem (a.addr c.gpr) (c.gpr s) }
  | storeImm a v => { c with mem := writeWord c.mem (a.addr c.gpr) (v.signExtend 64) }
  | push r => c.pushWord (c.gpr r)
  | pop r =>
    { c with gpr := setR (setR c.gpr rsp (c.gpr rsp + 8)) r (readWord c.mem (c.gpr rsp)) }
  | callReg r => { c.pushWord c.rip with rip := c.gpr r }
  | jmpReg r => { c with rip := c.gpr r }
  | jmpRip d => { c with rip := readWord c.mem (c.rip + d.signExtend 64) }
  | ret => { c with gpr := setR c.gpr rsp (c.gpr rsp + 8), rip := readWord c.mem (c.gpr rsp) }
  | i => { c with gpr := i.regs c.gpr }

/-- The instruction at an address, and the address behind it. -/
def fetch (m : Mem) (a : Word) : Option (Instr × Word) :=
  -- no instruction has more than 15 bytes
  (decode (readBytes m a 15)).map fun x => (x.1, a + BitVec.ofNat 64 (15 - x.2.length))

/-- One instruction, labelled by its address and itself. -/
def Step (c : Cpu) (e : Word × Instr) (c' : Cpu) : Prop :=
  ∃ next, fetch c.mem c.rip = some (e.2, next) ∧ e.1 = c.rip ∧ c' = e.2.exec { c with rip := next }

/-- A processor has one next state. -/
theorem Step.deterministic {c c₁ c₂ : Cpu} {e₁ e₂ : Word × Instr} (h₁ : Step c e₁ c₁)
    (h₂ : Step c e₂ c₂) : e₁ = e₂ ∧ c₁ = c₂ := by
  obtain ⟨a₁, i₁⟩ := e₁
  obtain ⟨a₂, i₂⟩ := e₂
  obtain ⟨n₁, hf₁, ha₁, rfl⟩ := h₁
  obtain ⟨n₂, hf₂, ha₂, rfl⟩ := h₂
  simp only at hf₁ ha₁ hf₂ ha₂
  rw [hf₁, Option.some.injEq, Prod.mk.injEq] at hf₂
  obtain ⟨rfl, rfl⟩ := hf₂
  exact ⟨by rw [ha₁, ha₂], rfl⟩

theorem run_deterministic {c c₁ c₂ : Cpu} {es fs : List (Word × Instr)} (h₁ : Run Step c es c₁)
    (h₂ : Run Step c fs c₂) (hlen : es.length = fs.length) : es = fs ∧ c₁ = c₂ :=
  @Run.deterministic _ _ Step _ (fun _ _ _ _ _ => Step.deterministic) _ _ _ _ h₁ h₂ hlen

/-! ## 3. Code in memory -/

def code (is : List Instr) : List Byte := is.flatMap Instr.encode

@[simp] theorem code_nil : code [] = [] := rfl
@[simp] theorem code_cons (i : Instr) (is : List Instr) : code (i :: is) = i.encode ++ code is :=
  rfl
@[simp] theorem code_append (is js : List Instr) : code (is ++ js) = code is ++ code js :=
  List.flatMap_append

/-- Memory holds the instructions from `a` on. -/
def CodeAt (m : Mem) (a : Word) (is : List Instr) : Prop :=
  readBytes m a (code is).length = code is

theorem codeAt_append {m : Mem} {a : Word} {is js : List Instr} :
    CodeAt m a (is ++ js) ↔
      CodeAt m a is ∧ CodeAt m (a + BitVec.ofNat 64 (code is).length) js := by
  unfold CodeAt
  rw [code_append, List.length_append, readBytes_add]
  constructor
  · intro h
    exact List.append_inj h (length_readBytes _ _ _)
  · rintro ⟨h, h'⟩
    rw [h, h']

theorem codeAt_cons {m : Mem} {a : Word} {i : Instr} {is : List Instr} :
    CodeAt m a (i :: is) ↔
      readBytes m a i.encode.length = i.encode ∧
        CodeAt m (a + BitVec.ofNat 64 i.encode.length) is := by
  have h := @codeAt_append m a [i] is
  simpa [CodeAt] using h

/-- Code stays where no byte of it is changed. -/
theorem CodeAt.congr {m m' : Mem} {a : Word} {is : List Instr} (hlt : (code is).length < 2 ^ 64)
    (hm : ∀ x, InBlock a (code is).length x → m' x = m x) (h : CodeAt m a is) :
    CodeAt m' a is := by
  rw [CodeAt, readBytes_congr hlt hm]
  exact h

theorem length_encode_le (i : Instr) : i.encode.length ≤ 15 := by
  have hpre : ∀ r : R64, (rexIfExt r).length ≤ 1 := by
    intro r
    unfold rexIfExt
    split <;> simp
  have hmem : ∀ op r a, (encodeMem op r a).length ≤ 5 := by
    intro op r a
    cases a <;> simp [encodeMem]
  cases i with
  | movImm32 d v | push d | pop d | callReg d | jmpReg d =>
    have := hpre d
    simp [Instr.encode]
    omega
  | loadMem d a =>
    have := hmem 0x8B d a
    simp only [Instr.encode]
    omega
  | storeMem a s =>
    have := hmem 0x89 s a
    simp only [Instr.encode]
    omega
  | storeImm a v =>
    have := hmem 0xC7 0 a
    simp only [Instr.encode, List.length_append, length_le]
    omega
  | _ => simp [Instr.encode, encodeRR, encodeR]

/-- Where memory holds an instruction's encoding, a step executes that instruction. -/
theorem step_of_code {c : Cpu} {i : Instr} (hi : i.Encodable)
    (h : readBytes c.mem c.rip i.encode.length = i.encode) :
    Step c (c.rip, i) (i.exec { c with rip := c.rip + BitVec.ofNat 64 i.encode.length }) := by
  have hle := length_encode_le i
  obtain ⟨k, hk⟩ : ∃ k, 15 = i.encode.length + k := ⟨15 - i.encode.length, by omega⟩
  refine ⟨c.rip + BitVec.ofNat 64 i.encode.length, ?_, rfl, rfl⟩
  rw [fetch, hk, readBytes_add, h, decode_encode i hi, Option.map_some, length_readBytes,
    Nat.add_sub_cancel]

/-- The instructions that change general registers only. -/
def Instr.IsReg : Instr → Prop
  | load _ _ | store _ _ | movImm64 _ _ | movImm32 _ _ | alu _ _ _ | imul _ _ | neg _
  | shift _ _ | addImm _ _ | subImm _ _ => True
  | _ => False

theorem Instr.IsReg.encodable {i : Instr} (h : i.IsReg) : i.Encodable := by
  cases i <;> trivial

theorem Instr.IsReg.exec {i : Instr} (h : i.IsReg) (c : Cpu) :
    i.exec c = { c with gpr := i.regs c.gpr } := by
  cases i <;> first | exact h.elim | rfl

/-- The registers after a sequence of such instructions. -/
def regsAfter (is : List Instr) (g : R64 → Word) : R64 → Word :=
  is.foldl (fun g i => i.regs g) g

@[simp] theorem regsAfter_nil (g : R64 → Word) : regsAfter [] g = g := rfl
@[simp] theorem regsAfter_cons (i : Instr) (is : List Instr) (g : R64 → Word) :
    regsAfter (i :: is) g = regsAfter is (i.regs g) := rfl
theorem regsAfter_append (is js : List Instr) (g : R64 → Word) :
    regsAfter (is ++ js) g = regsAfter js (regsAfter is g) :=
  List.foldl_append

/-- A run through register instructions. -/
theorem run_regs {is : List Instr} (hreg : ∀ i ∈ is, i.IsReg) {c : Cpu}
    (h : CodeAt c.mem c.rip is) :
    ∃ es, es.map Prod.snd = is ∧ Run Step c es { c with
      gpr := regsAfter is c.gpr, rip := c.rip + BitVec.ofNat 64 (code is).length } := by
  induction is generalizing c with
  | nil => exact ⟨[], rfl, by simpa using Run.start⟩
  | cons i is ih =>
    obtain ⟨hi, his⟩ := List.forall_mem_cons.mp hreg
    obtain ⟨hhead, htail⟩ := codeAt_cons.mp h
    have hstep := step_of_code hi.encodable hhead
    rw [hi.exec] at hstep
    obtain ⟨es, hes, hrun⟩ := ih his (c := { c with
      gpr := i.regs c.gpr, rip := c.rip + BitVec.ofNat 64 i.encode.length }) htail
    refine ⟨(c.rip, i) :: es, by rw [List.map_cons, hes], ?_⟩
    have hall := (Run.single hstep).trans hrun
    rw [code_cons, List.length_append, BitVec.ofNat_add, ← BitVec.add_assoc]
    exact hall

/-! ## 4. Code that stores -/

/-- The processor with `rip` behind an instruction. -/
def Cpu.past (c : Cpu) (i : Instr) : Cpu :=
  { c with rip := c.rip + BitVec.ofNat 64 i.encode.length }

@[simp] theorem Cpu.past_gpr (c : Cpu) (i : Instr) : (c.past i).gpr = c.gpr := rfl
@[simp] theorem Cpu.past_mem (c : Cpu) (i : Instr) : (c.past i).mem = c.mem := rfl
@[simp] theorem Cpu.past_xmm (c : Cpu) (i : Instr) : (c.past i).xmm = c.xmm := rfl

/-- The instructions that the next one in memory follows. -/
def Instr.Falls : Instr → Prop
  | callReg _ | jmpReg _ | jmpRip _ | ret => False
  | _ => True

theorem Instr.Falls.rip {i : Instr} (h : i.Falls) (c : Cpu) : (i.exec c).rip = c.rip := by
  cases i <;> first | exact h.elim | rfl

theorem step_code {c : Cpu} {i : Instr} {is : List Instr} (hi : i.Encodable)
    (h : CodeAt c.mem c.rip (i :: is)) : Step c (c.rip, i) (i.exec (c.past i)) :=
  step_of_code hi (codeAt_cons.mp h).1

/-- After an instruction that does not store into it, the code goes on. -/
theorem codeAt_step {c : Cpu} {i : Instr} {is : List Instr} (hfalls : i.Falls)
    (hlt : (code (i :: is)).length < 2 ^ 64)
    (hkeep : ∀ x, InBlock c.rip (code (i :: is)).length x → (i.exec (c.past i)).mem x = c.mem x)
    (h : CodeAt c.mem c.rip (i :: is)) :
    CodeAt (i.exec (c.past i)).mem (i.exec (c.past i)).rip is := by
  have htail := (codeAt_cons.mp h).2
  rw [code_cons, List.length_append] at hlt hkeep
  rw [hfalls.rip]
  refine htail.congr (by omega) fun x hx => hkeep x ?_
  exact inBlock_of_sub (Nat.le_refl _) hlt hx

/-- A store that does not meet the code. -/
theorem step_store {c : Cpu} {a : MemOp} {s : R64} {is : List Instr} (ha : a.Encodable)
    (hlt : (code (.storeMem a s :: is)).length < 2 ^ 64)
    (hkeep : ∀ x, InBlock c.rip (code (.storeMem a s :: is)).length x →
      ¬ InBlock (a.addr c.gpr) 8 x) (h : CodeAt c.mem c.rip (.storeMem a s :: is)) :
    ∃ c', Step c (c.rip, .storeMem a s) c' ∧ CodeAt c'.mem c'.rip is ∧
      c'.mem = writeWord c.mem (a.addr c.gpr) (c.gpr s) ∧ c'.gpr = c.gpr ∧
      c'.rip = c.rip + BitVec.ofNat 64 (Instr.storeMem a s).encode.length := by
  have hi : (Instr.storeMem a s).Encodable := ha
  exact ⟨_, step_code hi h, codeAt_step (i := .storeMem a s) trivial hlt
    (fun x hx => writeWord_apply (hkeep x hx)) h, rfl, rfl, rfl⟩

/-- Register instructions in front of other code. -/
theorem run_regs_append {is js : List Instr} (hreg : ∀ i ∈ is, i.IsReg) {c : Cpu}
    (h : CodeAt c.mem c.rip (is ++ js)) :
    ∃ es c', es.map Prod.snd = is ∧ Run Step c es c' ∧ CodeAt c'.mem c'.rip js ∧
      c'.mem = c.mem ∧ c'.gpr = regsAfter is c.gpr ∧
      c'.rip = c.rip + BitVec.ofNat 64 (code is).length := by
  obtain ⟨hhead, htail⟩ := codeAt_append.mp h
  obtain ⟨es, hes, hrun⟩ := run_regs hreg hhead
  exact ⟨es, _, hes, hrun, htail, rfl, rfl, rfl⟩

/-! ## 5. The stack -/

/-- The `n` words from `a` on. -/
def words (m : Mem) (a : Word) : Nat → List Word
  | 0 => []
  | n + 1 => readWord m a :: words m (a + 8) n

@[simp] theorem length_words (m : Mem) (a : Word) (n : Nat) : (words m a n).length = n := by
  induction n generalizing a with
  | zero => rfl
  | succ n ih => simp [words, ih]

theorem add_eight (a : Word) (n : Nat) :
    a + 8 + BitVec.ofNat 64 (8 * n) = a + BitVec.ofNat 64 (8 * (n + 1)) := by
  have height : (8 : Word) = BitVec.ofNat 64 8 := rfl
  rw [Nat.mul_succ, Nat.add_comm, BitVec.ofNat_add, BitVec.add_assoc, height]

theorem words_add (m : Mem) (a : Word) (n k : Nat) :
    words m a (n + k) = words m a n ++ words m (a + BitVec.ofNat 64 (8 * n)) k := by
  induction n generalizing a with
  | zero => simp [words]
  | succ n ih => rw [Nat.succ_add, words, ih, words, List.cons_append, add_eight]

/-- Memories with the same bytes in a block hold the same words there. -/
theorem words_congr {m m' : Mem} {a : Word} {n : Nat} (hn : 8 * n < 2 ^ 64)
    (h : ∀ x, InBlock a (8 * n) x → m x = m' x) : words m a n = words m' a n := by
  induction n generalizing a with
  | zero => rfl
  | succ n ih =>
    have hsplit : ∀ p k, p + k ≤ 8 * (n + 1) → ∀ x, InBlock (a + BitVec.ofNat 64 p) k x →
        m x = m' x := fun p k hpk x hx => h x (inBlock_of_sub hpk hn hx)
    have hhead : readWord m a = readWord m' a := by
      rw [readWord, readWord, @readBytes_congr m m' _ _ (by decide)]
      intro x hx
      refine hsplit 0 8 (by omega) x ?_
      rwa [BitVec.add_zero]
    rw [words, words, hhead, ih (by omega)]
    exact hsplit 8 (8 * n) (by omega)

theorem sub_eight (a : Word) (n : Nat) :
    a - 8 - BitVec.ofNat 64 (8 * n) = a - BitVec.ofNat 64 (8 * (n + 1)) := by
  have height : (8 : Word) = BitVec.ofNat 64 8 := rfl
  rw [BitVec.sub_sub, Nat.mul_succ, Nat.add_comm, BitVec.ofNat_add, height]

theorem sub_eight_add (a : Word) (n : Nat) :
    a - BitVec.ofNat 64 (8 * (n + 1)) + BitVec.ofNat 64 (8 * n) = a - 8 := by
  rw [← sub_eight, BitVec.sub_add_cancel]

/-- Pushing registers, from the first to the last: the stack then holds them, the last on top. -/
theorem run_push {rs : List R64} (hrs : rsp ∉ rs) {is : List Instr} {c : Cpu}
    (hcode : CodeAt c.mem c.rip (rs.map .push ++ is))
    (hlt : (code (rs.map .push ++ is)).length < 2 ^ 64) (hstack : 8 * rs.length < 2 ^ 64)
    (hapart : Apart c.rip (code (rs.map .push ++ is)).length
      (c.gpr rsp - BitVec.ofNat 64 (8 * rs.length)) (8 * rs.length)) :
    ∃ es c', es.map Prod.snd = rs.map Instr.push ∧ Run Step c es c' ∧
      CodeAt c'.mem c'.rip is ∧ c'.rip = c.rip + BitVec.ofNat 64 (code (rs.map .push)).length ∧
      c'.gpr = setR c.gpr rsp (c.gpr rsp - BitVec.ofNat 64 (8 * rs.length)) ∧ c'.xmm = c.xmm ∧
      words c'.mem (c'.gpr rsp) rs.length = (rs.map c.gpr).reverse ∧
      ∀ x, ¬ InBlock (c.gpr rsp - BitVec.ofNat 64 (8 * rs.length)) (8 * rs.length) x →
        c'.mem x = c.mem x := by
  induction rs generalizing c with
  | nil =>
    refine ⟨[], c, rfl, .start, hcode, (BitVec.add_zero _).symm, ?_, rfl, rfl, fun _ _ => rfl⟩
    funext k
    by_cases hk : k = rsp <;> simp [hk]
  | cons r rs ih =>
    obtain ⟨hr, hrs⟩ := not_or.mp (mt List.mem_cons.mpr hrs)
    rw [List.length_cons] at hapart hstack
    rw [List.map_cons, List.cons_append] at hcode hlt hapart
    -- the word of `r` is the highest of the block
    have htop : ∀ x, InBlock (c.gpr rsp - 8) 8 x →
        InBlock (c.gpr rsp - BitVec.ofNat 64 (8 * (rs.length + 1))) (8 * (rs.length + 1)) x := by
      intro x hx
      rw [← sub_eight_add] at hx
      exact inBlock_of_sub (by omega) hstack hx
    have hrest : ∀ x,
        InBlock (c.gpr rsp - BitVec.ofNat 64 (8 * (rs.length + 1))) (8 * rs.length) x →
        InBlock (c.gpr rsp - BitVec.ofNat 64 (8 * (rs.length + 1))) (8 * (rs.length + 1)) x := by
      intro x hx
      exact Nat.lt_of_lt_of_le hx (by omega)
    have hpush : ((Instr.push r).exec (c.past (.push r))).gpr = setR c.gpr rsp (c.gpr rsp - 8) :=
      rfl
    have hstep := step_code (i := .push r) trivial hcode
    have hnext := codeAt_step (i := .push r) trivial hlt
      (fun x hx => writeWord_apply fun hx' => hapart x hx (htop x hx')) hcode
    have hlow : ((Instr.push r).exec (c.past (.push r))).gpr rsp - BitVec.ofNat 64 (8 * rs.length)
        = c.gpr rsp - BitVec.ofNat 64 (8 * (rs.length + 1)) := by
      rw [← sub_eight, hpush, setR_self]
    obtain ⟨es, c', hes, hrun, hat, hrip, hgpr, hxmm, hwords, hmem⟩ := ih hrs hnext (by
        rw [code_cons, List.length_append] at hlt
        omega) (by omega) (by
        rw [hlow]
        intro x hx hx'
        refine hapart x ?_ (hrest x hx')
        rw [code_cons, List.length_append] at hlt ⊢
        exact inBlock_of_sub (Nat.le_refl _) hlt hx)
    have hrsp : c'.gpr rsp = c.gpr rsp - BitVec.ofNat 64 (8 * (rs.length + 1)) := by
      rw [hgpr, setR_self, hlow]
    rw [hlow] at hmem
    refine ⟨(c.rip, .push r) :: es, c', by rw [List.map_cons, hes, List.map_cons],
      (Run.single hstep).trans hrun, hat, ?_, ?_, hxmm, ?_, ?_⟩
    · rw [hrip, List.map_cons, code_cons, List.length_append, BitVec.ofNat_add, ← BitVec.add_assoc]
      rfl
    · rw [hgpr, hlow, hpush]
      funext k
      by_cases hk : k = rsp <;> simp [hk]
    · have hval : readWord c'.mem (c.gpr rsp - 8) = c.gpr r := by
        have hkept : ∀ x, InBlock (c.gpr rsp - 8) 8 x →
            c'.mem x = ((Instr.push r).exec (c.past (.push r))).mem x := by
          intro x hx
          refine hmem x fun hx' => ?_
          rw [← sub_eight_add (c.gpr rsp) rs.length] at hx
          exact not_inBlock_of_sep (p := 8 * rs.length) (q := 0) (k := 8) (l := 8 * rs.length)
            (by omega) (by omega) (.inr (by omega)) hx (by rwa [BitVec.add_zero])
        rw [readWord, readBytes_congr (by decide) hkept, ← readWord]
        exact readWord_writeWord _ _ _
      have hregs : rs.map ((Instr.push r).exec (c.past (.push r))).gpr = rs.map c.gpr := by
        refine List.map_congr_left fun k hk => ?_
        rw [hpush]
        exact setR_ne _ _ fun heq => hrs (heq ▸ hk)
      rw [List.length_cons, words_add, hwords, hregs, hrsp, sub_eight_add, List.map_cons,
        List.reverse_cons]
      simp only [words, hval]
    · intro x hx
      rw [hmem x fun hx' => hx (hrest x hx')]
      exact writeWord_apply fun hx' => hx (htop x hx')

/-- Popping registers off a stack that holds their values `f`. -/
theorem run_pop {rs : List R64} (hrs : rsp ∉ rs) {is : List Instr} {c : Cpu} {f : R64 → Word}
    (hcode : CodeAt c.mem c.rip (rs.map .pop ++ is))
    (hwords : words c.mem (c.gpr rsp) rs.length = rs.map f) :
    ∃ es c', es.map Prod.snd = rs.map Instr.pop ∧ Run Step c es c' ∧
      CodeAt c'.mem c'.rip is ∧ c'.mem = c.mem ∧ c'.xmm = c.xmm ∧
      c'.gpr rsp = c.gpr rsp + BitVec.ofNat 64 (8 * rs.length) ∧
      (∀ r ∈ rs, c'.gpr r = f r) ∧ ∀ r, r ≠ rsp → r ∉ rs → c'.gpr r = c.gpr r := by
  induction rs generalizing c with
  | nil =>
    exact ⟨[], c, rfl, .start, hcode, rfl, rfl, (BitVec.add_zero _).symm,
      fun r hr => absurd hr List.not_mem_nil, fun _ _ _ => rfl⟩
  | cons r rs ih =>
    obtain ⟨hr, hrs⟩ := not_or.mp (mt List.mem_cons.mpr hrs)
    rw [List.length_cons, words, List.map_cons, List.cons.injEq] at hwords
    obtain ⟨hval, hwords⟩ := hwords
    rw [List.map_cons, List.cons_append] at hcode
    have hpop : ((Instr.pop r).exec (c.past (.pop r))).gpr
        = setR (setR c.gpr rsp (c.gpr rsp + 8)) r (f r) := by
      rw [← hval]
      rfl
    have hsp : ((Instr.pop r).exec (c.past (.pop r))).gpr rsp = c.gpr rsp + 8 := by
      rw [hpop, setR_ne _ _ hr, setR_self]
    have hstep := step_code (i := .pop r) trivial hcode
    obtain ⟨es, c', hes, hrun, hat, hmem, hxmm, hrsp, hpopped, hother⟩ :=
      ih hrs (codeAt_cons.mp hcode).2 (by
        rw [hsp]
        exact hwords)
    refine ⟨(c.rip, .pop r) :: es, c', by rw [List.map_cons, hes, List.map_cons],
      (Run.single hstep).trans hrun, hat, hmem, hxmm, ?_, fun k hk => ?_, fun k hk hkr => ?_⟩
    · rw [hrsp, hsp, add_eight, List.length_cons]
    · by_cases hkrs : k ∈ rs
      · exact hpopped k hkrs
      · obtain rfl : k = r := (List.mem_cons.mp hk).resolve_right hkrs
        rw [hother k (Ne.symm hr) hkrs, hpop, setR_self]
    · obtain ⟨hne, hkrs⟩ := not_or.mp (mt List.mem_cons.mpr hkr)
      rw [hother k hk hkrs, hpop, setR_ne _ _ hne, setR_ne _ _ hk]

end X86
