/-
# A part of x86-64

The register, arithmetic, stack and jump instructions that a small code generator emits, in
64-bit mode: how they are encoded (`Instr.encode`), a decoder that reads them back
(`decode_encode`), and what each of them does to the registers and to memory (`Instr.exec`).
Arithmetic is on 64 bits.  The flags are left out: no instruction here reads one.
-/
import Dvm.Base.ByteMem

namespace X86

open Bytes ByteMem

/-! ## 1. Encodings -/

/-- A general register by its number: `rax`, `rcx`, `rdx`, `rbx`, `rsp`, `rbp`, `rsi`, `rdi`,
`r8` to `r15`. -/
abbrev R64 := Fin 16

instance R64.neZero : NeZero 16 := ⟨by decide⟩

def rax : R64 := 0
def rcx : R64 := 1
def rsp : R64 := 4

/-- The bit of a register's number that goes into the REX prefix. -/
def R64.ext (r : R64) : Bool := 8 ≤ r.val

/-- The three bits that go into the opcode or the ModRM byte. -/
def R64.low (r : R64) : Fin 8 := ⟨r.val % 8, Nat.mod_lt _ (by decide)⟩

def R64.join (ext : Bool) (low : Fin 8) : R64 :=
  ⟨(if ext then 8 else 0) + low.val, by have := low.isLt; split <;> omega⟩

theorem R64.join_ext_low (r : R64) : R64.join r.ext r.low = r := by
  revert r
  decide

/-- A REX prefix; its X bit, for index registers, is 0. -/
structure Rex where
  w : Bool := false
  r : Bool := false
  b : Bool := false
  deriving DecidableEq, Repr

def Rex.byte (x : Rex) : Byte := BitVec.ofNat 8 (0x40 + 8 * x.w.toNat + 4 * x.r.toNat + x.b.toNat)

def Rex.read (c : Byte) : Option Rex :=
  if c.toNat / 16 = 4 ∧ c.toNat / 2 % 2 = 0 then
    some ⟨c.toNat / 8 % 2 = 1, c.toNat / 4 % 2 = 1, c.toNat % 2 = 1⟩
  else none

theorem Rex.read_byte (x : Rex) : Rex.read x.byte = some x := by
  obtain ⟨w, r, b⟩ := x
  revert w r b
  decide

theorem low_lt (c : Byte) : c.toNat % 8 < 8 := Nat.mod_lt _ (by decide)

/-- A ModRM byte. -/
structure ModRm where
  mod : Fin 4
  reg : Fin 8
  rm : Fin 8
  deriving DecidableEq, Repr

def ModRm.byte (x : ModRm) : Byte := BitVec.ofNat 8 (64 * x.mod.val + 8 * x.reg.val + x.rm.val)

/-- Two registers. -/
def ModRm.direct (reg rm : Fin 8) : ModRm := ⟨3, reg, rm⟩

def ModRm.read (c : Byte) : ModRm :=
  ⟨⟨c.toNat / 64 % 4, Nat.mod_lt _ (by decide)⟩, ⟨c.toNat / 8 % 8, Nat.mod_lt _ (by decide)⟩,
    ⟨c.toNat % 8, low_lt c⟩⟩

theorem ModRm.read_byte (x : ModRm) : ModRm.read x.byte = x := by
  obtain ⟨⟨m, hm⟩, ⟨r, hr⟩, ⟨b, hb⟩⟩ := x
  have hnat : (ModRm.byte ⟨⟨m, hm⟩, ⟨r, hr⟩, ⟨b, hb⟩⟩).toNat = 64 * m + 8 * r + b := by
    rw [ModRm.byte, BitVec.toNat_ofNat, Nat.mod_eq_of_lt]
    simp only
    omega
  simp only [ModRm.read, hnat, ModRm.mk.injEq, Fin.mk.injEq]
  omega

/-- An opcode with a register in its low three bits. -/
def opReg (base : Nat) (r : R64) : Byte := BitVec.ofNat 8 (base + r.low.val)

theorem toNat_opReg {base : Nat} (h : base ≤ 248) (r : R64) :
    (opReg base r).toNat = base + r.low.val := by
  have := r.low.isLt
  rw [opReg, BitVec.toNat_ofNat, Nat.mod_eq_of_lt]
  omega

inductive Alu where
  | add | or | and | sub | xor
  deriving DecidableEq, Repr

/-- The opcode of the form whose destination is the `reg` operand. -/
def Alu.code : Alu → Byte
  | add => 0x03
  | or => 0x0B
  | and => 0x23
  | sub => 0x2B
  | xor => 0x33

inductive Shift where
  | shl | shr | sar
  deriving DecidableEq, Repr

def Shift.digit : Shift → Fin 8
  | shl => 4
  | shr => 5
  | sar => 7

/-- A memory operand: `[base]`, `[base+disp8]`, `[rsp+disp8]`. -/
inductive MemOp where
  | plain (base : R64)
  | disp (base : R64) (d : BitVec 8)
  | rspDisp (d : BitVec 8)
  deriving DecidableEq, Repr

inductive Instr where
  /-- `MOV r64, r/m64` between registers. -/
  | load (d s : R64)
  /-- `MOV r/m64, r64` between registers. -/
  | store (d s : R64)
  | movImm64 (d : R64) (v : BitVec 64)
  /-- The upper half of the register becomes 0. -/
  | movImm32 (d : R64) (v : BitVec 32)
  | alu (op : Alu) (d s : R64)
  | imul (d s : R64)
  | neg (d : R64)
  /-- A shift by `cl`. -/
  | shift (op : Shift) (d : R64)
  | addImm (d : R64) (v : BitVec 8)
  | subImm (d : R64) (v : BitVec 8)
  | loadMem (d : R64) (a : MemOp)
  | storeMem (a : MemOp) (s : R64)
  | storeImm (a : MemOp) (v : BitVec 32)
  | push (r : R64)
  | pop (r : R64)
  | callReg (r : R64)
  | jmpReg (r : R64)
  /-- `JMP QWORD PTR [rip+d]`. -/
  | jmpRip (d : BitVec 32)
  | ret
  deriving DecidableEq, Repr

/-- Two register operands behind an opcode. -/
def encodeRR (op : List Byte) (reg rm : R64) : List Byte :=
  (⟨true, reg.ext, rm.ext⟩ : Rex).byte :: (op ++ [(⟨3, reg.low, rm.low⟩ : ModRm).byte])

/-- One register operand, with an opcode extension. -/
def encodeR (op : Byte) (digit : Fin 8) (rm : R64) : List Byte :=
  [(⟨true, false, rm.ext⟩ : Rex).byte, op, (⟨3, digit, rm.low⟩ : ModRm).byte]

def encodeMem (op : Byte) (reg : R64) : MemOp → List Byte
  | .plain base =>
    [(⟨true, reg.ext, base.ext⟩ : Rex).byte, op, (⟨0, reg.low, base.low⟩ : ModRm).byte]
  | .disp base d =>
    [(⟨true, reg.ext, base.ext⟩ : Rex).byte, op, (⟨1, reg.low, base.low⟩ : ModRm).byte, d]
  | .rspDisp d => [(⟨true, reg.ext, false⟩ : Rex).byte, op, (⟨1, reg.low, 4⟩ : ModRm).byte, 0x24, d]

/-- A prefix only where the register needs one. -/
def rexIfExt (r : R64) : List Byte := if r.ext then [(⟨false, false, true⟩ : Rex).byte] else []

def Instr.encode : Instr → List Byte
  | load d s => encodeRR [0x8B] d s
  | store d s => encodeRR [0x89] s d
  | movImm64 d v => (⟨true, false, d.ext⟩ : Rex).byte :: opReg 0xB8 d :: le 8 v.toNat
  | movImm32 d v => rexIfExt d ++ opReg 0xB8 d :: le 4 v.toNat
  | alu op d s => encodeRR [op.code] d s
  | imul d s => encodeRR [0x0F, 0xAF] d s
  | neg d => encodeR 0xF7 3 d
  | shift op d => encodeR 0xD3 op.digit d
  | addImm d v => encodeR 0x83 0 d ++ [v]
  | subImm d v => encodeR 0x83 5 d ++ [v]
  | loadMem d a => encodeMem 0x8B d a
  | storeMem a s => encodeMem 0x89 s a
  | storeImm a v => encodeMem 0xC7 0 a ++ le 4 v.toNat
  | push r => rexIfExt r ++ [opReg 0x50 r]
  | pop r => rexIfExt r ++ [opReg 0x58 r]
  | callReg r => rexIfExt r ++ [0xFF, (⟨3, 2, r.low⟩ : ModRm).byte]
  | jmpReg r => rexIfExt r ++ [0xFF, (⟨3, 4, r.low⟩ : ModRm).byte]
  | jmpRip d => 0xFF :: (⟨0, 4, 5⟩ : ModRm).byte :: le 4 d.toNat
  | ret => [0xC3]

/-! ## 2. Decoding -/

/-- A memory operand, behind its ModRM byte. -/
def decodeMem (x : Rex) (m : ModRm) (bs : List Byte) : Option (MemOp × List Byte) :=
  if m.mod = 0 then
    if m.rm = 4 ∨ m.rm = 5 then none else some (.plain (R64.join x.b m.rm), bs)
  else if m.mod = 1 then
    if m.rm = 4 then
      match bs with
      | sib :: d :: bs => if sib = 0x24 ∧ x.b = false then some (.rspDisp d, bs) else none
      | _ => none
    else
      match bs with
      | d :: bs => some (.disp (R64.join x.b m.rm) d, bs)
      | [] => none
  else none

/-- A `w`-bit little-endian number of `n` bytes. -/
def decodeLe (w n : Nat) (bs : List Byte) : Option (BitVec w × List Byte) :=
  if n ≤ bs.length then some (BitVec.ofNat w (ofLe (bs.take n)), bs.drop n) else none

/-- The moves to and from memory. -/
def decodeMove (op : Byte) (reg : R64) (a : MemOp) (bs : List Byte) : Option (Instr × List Byte) :=
  if op = 0x8B then some (.loadMem reg a, bs)
  else if op = 0x89 then some (.storeMem a reg, bs)
  else if op = 0xC7 ∧ reg.low = 0 then (decodeLe 32 4 bs).map fun y => (.storeImm a y.1, y.2)
  else none

/-- The opcodes with a ModRM byte, of which the REX.W prefix was read. -/
def decodeModRm (x : Rex) (op : Byte) (m : ModRm) (bs : List Byte) : Option (Instr × List Byte) :=
  let reg := R64.join x.r m.reg
  let rm := R64.join x.b m.rm
  if m.mod = 3 then
    if op = 0x8B then some (.load reg rm, bs)
    else if op = 0x89 then some (.store rm reg, bs)
    else if op = 0x03 then some (.alu .add reg rm, bs)
    else if op = 0x0B then some (.alu .or reg rm, bs)
    else if op = 0x23 then some (.alu .and reg rm, bs)
    else if op = 0x2B then some (.alu .sub reg rm, bs)
    else if op = 0x33 then some (.alu .xor reg rm, bs)
    else if op = 0xF7 ∧ m.reg = 3 then some (.neg rm, bs)
    else if op = 0xD3 ∧ m.reg = 4 then some (.shift .shl rm, bs)
    else if op = 0xD3 ∧ m.reg = 5 then some (.shift .shr rm, bs)
    else if op = 0xD3 ∧ m.reg = 7 then some (.shift .sar rm, bs)
    else if op = 0x83 ∧ m.reg = 0 then
      (decodeLe 8 1 bs).map fun y => (.addImm rm y.1, y.2)
    else if op = 0x83 ∧ m.reg = 5 then
      (decodeLe 8 1 bs).map fun y => (.subImm rm y.1, y.2)
    else none
  else
    match decodeMem x m bs with
    | none => none
    | some (a, bs) => decodeMove op reg a bs

/-- The group of indirect calls and jumps. -/
def decodeIndirect (x : Rex) (m : ModRm) (bs : List Byte) : Option (Instr × List Byte) :=
  if m.mod = 3 ∧ m.reg = 2 then some (.callReg (R64.join x.b m.rm), bs)
  else if m.mod = 3 ∧ m.reg = 4 then some (.jmpReg (R64.join x.b m.rm), bs)
  else if m.mod = 0 ∧ m.reg = 4 ∧ m.rm = 5 then
    (decodeLe 32 4 bs).map fun y => (.jmpRip y.1, y.2)
  else none

/-- What follows the prefix. -/
def decodeOp (x : Rex) : List Byte → Option (Instr × List Byte)
  | [] => none
  | op :: bs =>
    let r := R64.join x.b ⟨op.toNat % 8, low_lt op⟩
    if op.toNat / 8 = 10 then some (.push r, bs)
    else if op.toNat / 8 = 11 then some (.pop r, bs)
    else if op.toNat / 8 = 23 then
      if x.w then (decodeLe 64 8 bs).map fun y => (.movImm64 r y.1, y.2)
      else (decodeLe 32 4 bs).map fun y => (.movImm32 r y.1, y.2)
    else if op = 0xC3 then some (.ret, bs)
    else match bs with
      | [] => none
      | m :: bs =>
        if op = 0xFF then decodeIndirect x (ModRm.read m) bs
        else if op = 0x0F then
          match bs with
          | m' :: bs =>
            let mm := ModRm.read m'
            if m = 0xAF ∧ mm.mod = 3 ∧ x.w then
              some (.imul (R64.join x.r mm.reg) (R64.join x.b mm.rm), bs)
            else none
          | [] => none
        else if x.w then decodeModRm x op (ModRm.read m) bs
        else none

/-- The first instruction of a byte string, and what follows it. -/
def decode : List Byte → Option (Instr × List Byte)
  | [] => none
  | c :: bs =>
    match Rex.read c with
    | some x => decodeOp x bs
    | none => decodeOp {} (c :: bs)

/-- The operand has an encoding of its own: base registers that need other forms are excluded. -/
def MemOp.Encodable : MemOp → Prop
  | plain base => base.low ≠ 4 ∧ base.low ≠ 5
  | disp base _ => base.low ≠ 4
  | rspDisp _ => True

instance MemOp.Encodable.decidable (a : MemOp) : Decidable a.Encodable :=
  match a with
  | plain base => inferInstanceAs (Decidable (base.low ≠ 4 ∧ base.low ≠ 5))
  | disp base _ => inferInstanceAs (Decidable (base.low ≠ 4))
  | rspDisp _ => inferInstanceAs (Decidable True)

def Instr.Encodable : Instr → Prop
  | loadMem _ a => a.Encodable
  | storeMem a _ => a.Encodable
  | storeImm a _ => a.Encodable
  | _ => True

theorem decodeLe_le {w n : Nat} (v : BitVec w) (h : 256 ^ n = 2 ^ w) (bs : List Byte) :
    decodeLe w n (le n v.toNat ++ bs) = some (v, bs) := by
  have hlen : n ≤ (le n v.toNat ++ bs).length := by
    rw [List.length_append, length_le]
    exact Nat.le_add_right _ _
  have hlt : v.toNat < 256 ^ n := h ▸ v.isLt
  rw [decodeLe, if_pos hlen, List.take_left' (length_le _ _), List.drop_left' (length_le _ _),
    ofLe_le_of_lt hlt, BitVec.ofNat_toNat, BitVec.setWidth_eq]

theorem decodeLe_byte (v : BitVec 8) (bs : List Byte) :
    decodeLe 8 1 (v :: bs) = some (v, bs) := by
  simp [decodeLe, ofLe]

theorem decode_rex (x : Rex) (bs : List Byte) : decode (x.byte :: bs) = decodeOp x bs := by
  rw [decode, Rex.read_byte]

/-- What an opcode with a register in its low bits is taken apart into. -/
theorem opReg_parts {base : Nat} (h : base ≤ 248) (h8 : base % 8 = 0) (x : Rex) (r : R64)
    (hb : x.b = r.ext) :
    (opReg base r).toNat / 8 = base / 8 ∧
      R64.join x.b ⟨(opReg base r).toNat % 8, low_lt _⟩ = r := by
  have hlow := r.low.isLt
  have hmod : (⟨(base + r.low.val) % 8, Nat.mod_lt _ (by decide)⟩ : Fin 8) = r.low :=
    Fin.ext (show (base + r.low.val) % 8 = r.low.val by omega)
  simp only [toNat_opReg h, hmod, hb, R64.join_ext_low, and_true]
  omega

/-- A prefix that is there only where it is needed. -/
theorem decode_rexIfExt {r : R64} {op : Byte} (hop : Rex.read op = none) (bs : List Byte) :
    decode (rexIfExt r ++ op :: bs) = decodeOp ⟨false, false, r.ext⟩ (op :: bs) := by
  unfold rexIfExt
  split
  · next h => rw [h]; exact decode_rex _ _
  · next h =>
    rw [Bool.not_eq_true] at h
    rw [h, List.nil_append, decode, hop]

theorem rex_read_opReg {base : Nat} (h : 80 ≤ base) (hle : base ≤ 248) (r : R64) :
    Rex.read (opReg base r) = none := by
  have hlow := r.low.isLt
  rw [Rex.read, if_neg]
  rw [toNat_opReg hle]
  omega

theorem decode_plain {op : Byte} (hop : Rex.read op = none) (bs : List Byte) :
    decode (op :: bs) = decodeOp {} (op :: bs) := by
  rw [decode, hop]

/-- The opcodes that are no group of their own: a ModRM byte follows, behind a REX.W prefix. -/
def IsPlain (op : Byte) : Prop :=
  ¬(op.toNat / 8 = 10 ∨ op.toNat / 8 = 11 ∨ op.toNat / 8 = 23 ∨ op = 0xC3 ∨ op = 0xFF ∨ op = 0x0F)

instance (op : Byte) : Decidable (IsPlain op) := inferInstanceAs (Decidable (¬_))

theorem decode_modRm {x : Rex} {op : Byte} (hop : IsPlain op) (hw : x.w = true) (m : ModRm)
    (bs : List Byte) : decode (x.byte :: op :: m.byte :: bs) = decodeModRm x op m bs := by
  simp only [IsPlain, not_or] at hop
  obtain ⟨h10, h11, h23, hret, hind, htwo⟩ := hop
  rw [decode_rex]
  unfold decodeOp
  simp only [if_neg h10, if_neg h11, if_neg h23, if_neg hret, if_neg hind, if_neg htwo, hw,
    if_true, ModRm.read_byte]

def IsMove (op : Byte) : Prop := op = 0x8B ∨ op = 0x89 ∨ op = 0xC7

theorem IsMove.isPlain {op : Byte} (h : IsMove op) : IsPlain op := by
  rcases h with rfl | rfl | rfl <;> decide

theorem decode_encodeMem {op : Byte} (hop : IsMove op) (reg : R64) {a : MemOp}
    (ha : a.Encodable) (bs : List Byte) :
    decode (encodeMem op reg a ++ bs) = decodeMove op reg a bs := by
  cases a with
  | plain base =>
    obtain ⟨h4, h5⟩ : base.low ≠ 4 ∧ base.low ≠ 5 := ha
    simp only [encodeMem, List.cons_append, List.nil_append, decode_modRm hop.isPlain]
    simp [decodeModRm, decodeMem, R64.join_ext_low, h4, h5]
  | disp base d =>
    have h4 : base.low ≠ 4 := ha
    simp only [encodeMem, List.cons_append, List.nil_append, decode_modRm hop.isPlain]
    simp [decodeModRm, decodeMem, R64.join_ext_low, h4]
  | rspDisp d =>
    simp only [encodeMem, List.cons_append, List.nil_append, decode_modRm hop.isPlain]
    simp [decodeModRm, decodeMem, R64.join_ext_low]

/-- Every instruction is read back from its encoding, whatever follows it. -/
theorem decode_encode (i : Instr) (h : i.Encodable) (bs : List Byte) :
    decode (i.encode ++ bs) = some (i, bs) := by
  have hrr : ∀ (op : Byte) (d s : R64) (bs : List Byte), IsPlain op →
      decode (encodeRR [op] d s ++ bs)
        = decodeModRm ⟨true, d.ext, s.ext⟩ op ⟨3, d.low, s.low⟩ bs :=
    fun op d s bs hop => decode_modRm hop rfl _ bs
  have hr : ∀ (op : Byte) (digit : Fin 8) (d : R64) (bs : List Byte), IsPlain op →
      decode (encodeR op digit d ++ bs)
        = decodeModRm ⟨true, false, d.ext⟩ op ⟨3, digit, d.low⟩ bs :=
    fun op digit d bs hop => decode_modRm hop rfl _ bs
  cases i with
  | load d s =>
    rw [Instr.encode, hrr _ _ _ _ (by decide)]
    simp [decodeModRm, R64.join_ext_low]
  | store d s =>
    rw [Instr.encode, hrr _ _ _ _ (by decide)]
    simp [decodeModRm, R64.join_ext_low]
  | movImm64 d v =>
    obtain ⟨hop, hreg⟩ :=
      @opReg_parts 0xB8 (by decide) (by decide) ⟨true, false, d.ext⟩ d rfl
    rw [Instr.encode, List.cons_append, decode_rex, List.cons_append]
    simp only [decodeOp, hop, hreg, decodeLe_le v (by decide : 256 ^ 8 = 2 ^ 64)]
    rfl
  | movImm32 d v =>
    obtain ⟨hop, hreg⟩ :=
      @opReg_parts 0xB8 (by decide) (by decide) ⟨false, false, d.ext⟩ d rfl
    rw [Instr.encode, List.append_assoc, List.cons_append,
      decode_rexIfExt (rex_read_opReg (by decide) (by decide) d)]
    simp only [decodeOp, hop, hreg, decodeLe_le v (by decide : 256 ^ 4 = 2 ^ 32)]
    rfl
  | alu op d s =>
    cases op with
    | add | or | and | sub | xor =>
      rw [Instr.encode, hrr _ _ _ _ (by decide)]
      simp [decodeModRm, R64.join_ext_low, Alu.code]
  | imul d s =>
    simp [Instr.encode, encodeRR, decode_rex, decodeOp, ModRm.read_byte, R64.join_ext_low]
  | neg d =>
    rw [Instr.encode, hr _ _ _ _ (by decide)]
    simp [decodeModRm, R64.join_ext_low]
  | shift op d =>
    rw [Instr.encode, hr _ _ _ _ (by decide)]
    cases op with
    | shl | shr | sar => simp [decodeModRm, R64.join_ext_low, Shift.digit]
  | addImm d v =>
    rw [Instr.encode, List.append_assoc,
      hr _ _ _ _ (by decide)]
    simp [decodeModRm, R64.join_ext_low, decodeLe_byte]
  | subImm d v =>
    rw [Instr.encode, List.append_assoc,
      hr _ _ _ _ (by decide)]
    simp [decodeModRm, R64.join_ext_low, decodeLe_byte]
  | loadMem d a => rw [Instr.encode, decode_encodeMem (.inl rfl) d h, decodeMove, if_pos rfl]
  | storeMem a s =>
    rw [Instr.encode, decode_encodeMem (.inr (.inl rfl)) s h, decodeMove, if_neg (by decide),
      if_pos rfl]
  | storeImm a v =>
    rw [Instr.encode, List.append_assoc, decode_encodeMem (.inr (.inr rfl)) 0 h, decodeMove,
      if_neg (by decide), if_neg (by decide), if_pos (by decide),
      decodeLe_le v (by decide : 256 ^ 4 = 2 ^ 32)]
    rfl
  | push r =>
    obtain ⟨hop, hreg⟩ :=
      @opReg_parts 0x50 (by decide) (by decide) ⟨false, false, r.ext⟩ r rfl
    rw [Instr.encode, List.append_assoc, List.cons_append,
      decode_rexIfExt (rex_read_opReg (by decide) (by decide) r)]
    simp only [decodeOp, hop, hreg]
    rfl
  | pop r =>
    obtain ⟨hop, hreg⟩ :=
      @opReg_parts 0x58 (by decide) (by decide) ⟨false, false, r.ext⟩ r rfl
    rw [Instr.encode, List.append_assoc, List.cons_append,
      decode_rexIfExt (rex_read_opReg (by decide) (by decide) r)]
    simp only [decodeOp, hop, hreg]
    rfl
  | callReg r =>
    rw [Instr.encode, List.append_assoc, List.cons_append, decode_rexIfExt (by decide)]
    simp [decodeOp, decodeIndirect, ModRm.read_byte, R64.join_ext_low]
  | jmpReg r =>
    rw [Instr.encode, List.append_assoc, List.cons_append, decode_rexIfExt (by decide)]
    simp [decodeOp, decodeIndirect, ModRm.read_byte, R64.join_ext_low]
  | jmpRip d =>
    rw [Instr.encode, List.cons_append, decode_plain (by decide)]
    simp [decodeOp, decodeIndirect, ModRm.read_byte, decodeLe_le d]
  | ret =>
    rw [Instr.encode, List.cons_append, decode_plain (by decide)]
    simp [decodeOp]

end X86
