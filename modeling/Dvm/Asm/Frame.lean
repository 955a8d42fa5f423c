/-
# What the assembler emits for one instruction

Every family of instructions emits one opcode byte and then exactly the operand bytes the
interpreter fetches for that opcode (`Encodes`), unless it gives up.  Label references stand
only where the interpreter fetches a code offset or the immediate of a `MOV_RI`.
-/
import Dvm.Base.Layout
import Dvm.Asm.Compile

namespace Dvm

open Bytes Layout

/-! ## 1. Encodings -/

/-- The number of text bytes of an emission. -/
def Emit.size : Emit → Nat
  | .bytes bs => bs.length
  | .codeRef _ => 4
  | .dataRef _ => 8
  | .stop _ => 0

/-- The emissions are those of one instruction with the given opcode. -/
inductive Encodes : Op → List Emit → Prop
  | bare {op : Op} : op.shape = .bare → Encodes op [emitOp op]
  | regs {op : Op} (d s : Reg) : op.shape = .regs → Encodes op [emitOp op, emitRegs d s]
  | imm64 {op : Op} (d : Reg) (v : BitVec 64) : op.shape = .regsImm64 →
      Encodes op [emitOp op, emitRegs d 0, emitU64 v]
  | data (d : Reg) (name : CStr) : Encodes .movRI [emitOp .movRI, emitRegs d 0, .dataRef name]
  | imm16 {op : Op} (v : Nat) : op.shape = .imm16 → Encodes op [emitOp op, .bytes (le 2 v)]
  | jump {op : Op} (name : CStr) : op.shape = .off32 → Encodes op [emitOp op, .codeRef name]
  | call (ok err : CStr) : Encodes .call [emitOp .call, .codeRef ok, .codeRef err]
  | callr (d : Reg) (err : CStr) : Encodes .callr [emitOp .callr, emitRegs d 0, .codeRef err]
  | off32 {op : Op} (d s : Reg) (v : BitVec 32) : op.shape = .regsOff32 →
      Encodes op [emitOp op, emitRegs d s, emitI32 v]

@[simp] theorem size_bytes (bs : List Byte) : (Emit.bytes bs).size = bs.length := rfl
@[simp] theorem size_codeRef (name : CStr) : (Emit.codeRef name).size = 4 := rfl
@[simp] theorem size_dataRef (name : CStr) : (Emit.dataRef name).size = 8 := rfl
@[simp] theorem size_emitOp (op : Op) : (emitOp op).size = 1 := rfl
@[simp] theorem size_emitRegs (d s : Reg) : (emitRegs d s).size = 1 := rfl
@[simp] theorem size_emitI32 (v : BitVec 32) : (emitI32 v).size = 4 := length_le _ _
@[simp] theorem size_emitU64 (v : BitVec 64) : (emitU64 v).size = 8 := length_le _ _

/-- An instruction has as many bytes as the interpreter fetches for it. -/
theorem Encodes.size {op : Op} {es : List Emit} (h : Encodes op es) :
    total Emit.size es = op.size := by
  cases h with
  | bare hs => simp [Op.size, hs, Shape.size]
  | regs d s hs => simp [Op.size, hs, Shape.size]
  | imm64 d v hs => simp [Op.size, hs, Shape.size]
  | data d name => simp [Op.size, Op.shape, Shape.size]
  | imm16 v hs => simp [Op.size, hs, Shape.size]
  | jump name hs => simp [Op.size, hs, Shape.size]
  | call ok err => simp [Op.size, Op.shape, Shape.size]
  | callr d err => simp [Op.size, Op.shape, Shape.size]
  | off32 d s v hs => simp [Op.size, hs, Shape.size]

/-- It begins with its opcode byte. -/
theorem Encodes.head {op : Op} {es : List Emit} (h : Encodes op es) :
    At Emit.size es 0 (emitOp op) := by
  cases h
  all_goals exact at_cons_iff.mpr (.inl ⟨rfl, rfl⟩)

/-! ## 2. Where label references stand -/

theorem Encodes.codeRef {op : Op} {es : List Emit} (h : Encodes op es) {p : Nat} {name : CStr}
    (hat : At Emit.size es p (.codeRef name)) : p ∈ op.codeFields := by
  cases h with
  | jump n hs =>
    simp only [at_cons_iff, not_at_nil, emitOp] at hat
    simp at hat
    simp [Op.codeFields, hs, hat]
  | call ok err =>
    simp only [at_cons_iff, not_at_nil, emitOp] at hat
    simp at hat
    obtain ⟨q, rfl, ⟨rfl, -⟩ | ⟨rfl, -⟩⟩ := hat
    · decide
    · decide
  | callr d err =>
    simp only [at_cons_iff, not_at_nil, emitOp, emitRegs] at hat
    simp at hat
    rw [hat.1]
    decide
  | _ =>
    simp only [at_cons_iff, not_at_nil, emitOp, emitRegs, emitI32, emitU64] at hat
    simp at hat

theorem Encodes.dataRef {op : Op} {es : List Emit} (h : Encodes op es) {p : Nat} {name : CStr}
    (hat : At Emit.size es p (.dataRef name)) : op = .movRI ∧ p = movImmField := by
  cases h with
  | data d n =>
    simp only [at_cons_iff, not_at_nil, emitOp, emitRegs] at hat
    simp at hat
    exact ⟨rfl, hat.1⟩
  | _ =>
    simp only [at_cons_iff, not_at_nil, emitOp, emitRegs, emitI32, emitU64] at hat
    simp at hat

/-- A jump has a code reference for its operand. -/
theorem Encodes.jump_ref {op : Op} {es : List Emit} (h : Encodes op es)
    (hop : op.shape = .off32) : ∃ name, At Emit.size es 1 (.codeRef name) := by
  cases h with
  | jump name hs =>
    exact ⟨name, at_cons_iff.mpr (.inr ⟨0, rfl, at_cons_iff.mpr (.inl ⟨rfl, rfl⟩)⟩)⟩
  | bare hs => rw [hs] at hop; cases hop
  | regs _ _ hs => rw [hs] at hop; cases hop
  | imm64 _ _ hs => rw [hs] at hop; cases hop
  | imm16 _ hs => rw [hs] at hop; cases hop
  | off32 _ _ _ hs => rw [hs] at hop; cases hop
  | data _ _ => cases hop
  | call _ _ => cases hop
  | callr _ _ => cases hop

/-- A call has one for each of its operands. -/
theorem Encodes.call_refs {es : List Emit} (h : Encodes .call es) :
    ∃ ok err, At Emit.size es 1 (.codeRef ok) ∧ At Emit.size es 5 (.codeRef err) := by
  cases h with
  | call ok err =>
    refine ⟨ok, err, ?_, ?_⟩
    · exact at_cons_iff.mpr (.inr ⟨0, rfl, at_cons_iff.mpr (.inl ⟨rfl, rfl⟩)⟩)
    · exact at_cons_iff.mpr (.inr ⟨4, rfl, at_cons_iff.mpr
        (.inr ⟨0, rfl, at_cons_iff.mpr (.inl ⟨rfl, rfl⟩)⟩)⟩)
  | bare hs => cases hs
  | regs _ _ hs => cases hs
  | imm64 _ _ hs => cases hs
  | imm16 _ hs => cases hs
  | jump _ hs => cases hs
  | off32 _ _ _ hs => cases hs

/-! ## 3. Every family encodes -/

/-- The source did not give up. -/
def Clean (es : List Emit) : Prop := ∀ why, .stop why ∉ es

theorem not_clean_stop {why : AsmStop} : ¬ Clean [.stop why] := fun h => h why (by simp)

theorem Clean.tail {e : Emit} {es : List Emit} (h : Clean (e :: es)) : Clean es :=
  fun why hmem => h why (List.mem_cons_of_mem _ hmem)

theorem reqReg_clean {line : Nat} {s : CStr} {k : Reg → List Emit} (h : Clean (reqReg line s k)) :
    ∃ r, parseReg s = some r ∧ reqReg line s k = k r := by
  unfold reqReg at *
  cases hr : parseReg s with
  | none => rw [hr] at h; exact absurd h not_clean_stop
  | some r => exact ⟨r, rfl, rfl⟩

theorem reqFpreg_clean {line : Nat} {s : CStr} {k : Reg → List Emit}
    (h : Clean (reqFpreg line s k)) : ∃ r, parseFpreg s = some r ∧ reqFpreg line s k = k r := by
  unfold reqFpreg at *
  cases hr : parseFpreg s with
  | none => rw [hr] at h; exact absurd h not_clean_stop
  | some r => exact ⟨r, rfl, rfl⟩

theorem reqMem_clean {s : CStr} {why : AsmStop} {k : Reg → List Emit}
    (h : Clean (reqMem s why k)) : ∃ r, parseMem s = some r ∧ reqMem s why k = k r := by
  unfold reqMem at *
  cases hr : parseMem s with
  | none => rw [hr] at h; exact absurd h not_clean_stop
  | some r => exact ⟨r, rfl, rfl⟩

/-- `f` goes on with a register, unless it gives up. -/
def Requires (f : (Reg → List Emit) → List Emit) : Prop :=
  ∀ k, Clean (f k) → ∃ r, f k = k r

theorem requires_reg (line : Nat) (s : CStr) : Requires (reqReg line s) := by
  intro k h
  obtain ⟨r, -, hr⟩ := reqReg_clean h
  exact ⟨r, hr⟩

theorem requires_fpreg (line : Nat) (s : CStr) : Requires (reqFpreg line s) := by
  intro k h
  obtain ⟨r, -, hr⟩ := reqFpreg_clean h
  exact ⟨r, hr⟩

theorem requires_mem (s : CStr) (why : AsmStop) : Requires (reqMem s why) := by
  intro k h
  obtain ⟨r, -, hr⟩ := reqMem_clean h
  exact ⟨r, hr⟩

/-- The emissions are an instruction with one of these opcodes, unless the source gives up. -/
def EncodesOne (ops : List Op) (es : List Emit) : Prop := Clean es → ∃ op ∈ ops, Encodes op es

theorem encodesOne_stop {ops : List Op} {why : AsmStop} : EncodesOne ops [.stop why] :=
  fun h => absurd h not_clean_stop

theorem EncodesOne.of_mem {ops : List Op} {op : Op} {es : List Emit} (hop : op ∈ ops)
    (h : Encodes op es) : EncodesOne ops es := fun _ => ⟨op, hop, h⟩

section Operands

variable {ops : List Op} {line : Nat} {p : List Byte}

theorem Requires.encodesOne {f : (Reg → List Emit) → List Emit} {k : Reg → List Emit}
    (hf : Requires f) (hk : ∀ r, EncodesOne ops (k r)) : EncodesOne ops (f k) := by
  intro h
  obtain ⟨r, hr⟩ := hf k h
  rw [hr] at h ⊢
  exact hk r h

/-- The opcode is out before the register is read. -/
theorem Requires.encodesOne_cons {f : (Reg → List Emit) → List Emit} {k : Reg → List Emit}
    {e : Emit} (hf : Requires f) (hk : ∀ r, EncodesOne ops (e :: k r)) :
    EncodesOne ops (e :: f k) := by
  intro h
  obtain ⟨r, hr⟩ := hf k h.tail
  rw [hr] at h ⊢
  exact hk r h

theorem operands₂_encodesOne {k : CStr → CStr → List Emit}
    (hk : ∀ a b, EncodesOne ops (k a b)) : EncodesOne ops (operands₂ line p k) := by
  intro h
  unfold operands₂ at *
  cases hc : expectComma (readTok asmLabelLen p).2 line with
  | error why => simp only [hc] at h; exact absurd h not_clean_stop
  | ok q =>
    simp only [hc] at h ⊢
    exact hk _ _ h

theorem sizedLoadOperands_encodesOne {k : CStr → CStr → CStr → List Emit}
    (hk : ∀ a size b, EncodesOne ops (k a size b)) :
    EncodesOne ops (sizedLoadOperands line p k) := by
  intro h
  unfold sizedLoadOperands at *
  cases hc : expectComma (readTok asmLabelLen p).2 line with
  | error why => simp only [hc] at h; exact absurd h not_clean_stop
  | ok q =>
    simp only [hc] at h ⊢
    exact hk _ _ _ h

theorem emitMem_encodesOne {op opOff : Op} (h : op.shape = .regs) (hoff : opOff.shape = .regsOff32)
    (hop : op ∈ ops) (hopOff : opOff ∈ ops) (d s : Reg) (off : BitVec 32) :
    EncodesOne ops (emitMem op opOff d s off) := by
  unfold emitMem
  split
  · exact .of_mem hopOff (.off32 d s off hoff)
  · exact .of_mem hop (.regs d s h)

/-- An opcode and the byte of two registers. -/
theorem regs₂_encodesOne {op : Op} (h : op.shape = .regs) {f g : (Reg → List Emit) → List Emit}
    (hf : Requires f) (hg : Requires g) :
    EncodesOne [op] (emitOp op :: f fun rd => g fun rs => [emitRegs rd rs]) := by
  refine hf.encodesOne_cons ?_
  intro rd
  refine hg.encodesOne_cons ?_
  intro rs
  exact .of_mem (List.mem_singleton_self op) (.regs rd rs h)

end Operands

/-- The opcodes a family emits. -/
def Form.ops : Form → List Op
  | .mov => [.movRR, .movRI, .movRM, .movMR, .movRMOff, .movMROff]
  | .sizedStore op opOff => [op, opOff]
  | .sizedLoad op8 op16 op32 op8Off op16Off op32Off => [op8, op16, op32, op8Off, op16Off, op32Off]
  | .alu2 op => [op]
  | .alu1 op => [op]
  | .jmp1 op => [op]
  | .enter => [.enter]
  | .bare op => [op]
  | .call => [.call]
  | .falu2 op => [op]
  | .fmovi => [.fmovRI]
  | .fmovm => [.fmovRM]
  | .fmovs => [.fmovMR]
  | .itof => [.itof]
  | .ftoi => [.ftoi]
  | .callr => [.callr]
  | .lea => [.lea]

/-- The opcodes of a family are fetched the way the family writes them. -/
def Form.Fetched : Form → Prop
  | .sizedStore op opOff => op.shape = .regs ∧ opOff.shape = .regsOff32
  | .sizedLoad op8 op16 op32 op8Off op16Off op32Off =>
    (op8.shape = .regs ∧ op16.shape = .regs ∧ op32.shape = .regs) ∧
      op8Off.shape = .regsOff32 ∧ op16Off.shape = .regsOff32 ∧ op32Off.shape = .regsOff32
  | .alu2 op => op.shape = .regs
  | .alu1 op => op.shape = .regs
  | .jmp1 op => op.shape = .off32
  | .bare op => op.shape = .bare
  | .falu2 op => op.shape = .regs
  | _ => True

instance (f : Form) : Decidable f.Fetched := by
  cases f <;> unfold Form.Fetched <;> infer_instance

theorem codeForms_fetched : ∀ x ∈ codeForms, x.2.Fetched := by decide

theorem mov_encodesOne (strtod : Strtod) {equs : List AsmEqu} {line : Nat} {p : List Byte} :
    EncodesOne Form.mov.ops (parseForm strtod equs line .mov p) := by
  unfold parseForm
  refine operands₂_encodesOne ?_
  intro a b
  cases parseMem a with
  | some md =>
    refine (requires_reg line b).encodesOne ?_
    intro rs
    exact emitMem_encodesOne rfl rfl (by simp [Form.ops]) (by simp [Form.ops]) _ _ _
  | none =>
    cases parseMem b with
    | some ms =>
      refine (requires_reg line a).encodesOne ?_
      intro rd
      exact emitMem_encodesOne rfl rfl (by simp [Form.ops]) (by simp [Form.ops]) _ _ _
    | none =>
      refine (requires_reg line a).encodesOne ?_
      intro rd
      cases parseReg b with
      | some rs =>
        have henc : Encodes .movRR [emitOp .movRR, emitRegs rd rs] := .regs rd rs rfl
        exact .of_mem (by simp [Form.ops]) henc
      | none =>
        dsimp only
        split
        · exact .of_mem (by simp [Form.ops]) (.data rd b)
        · split
          · have henc :
                Encodes .movRI [emitOp .movRI, emitRegs rd 0, emitU64 (parseImm equs b).1] :=
              .imm64 rd _ rfl
            exact .of_mem (by simp [Form.ops]) henc
          · exact encodesOne_stop

theorem sizedLoad_encodesOne (strtod : Strtod) (equs : List AsmEqu) {line : Nat} {p : List Byte}
    {op8 op16 op32 op8Off op16Off op32Off : Op}
    (hf : (Form.sizedLoad op8 op16 op32 op8Off op16Off op32Off).Fetched) :
    EncodesOne (Form.sizedLoad op8 op16 op32 op8Off op16Off op32Off).ops
      (parseForm strtod equs line (.sizedLoad op8 op16 op32 op8Off op16Off op32Off) p) := by
  obtain ⟨⟨h8, h16, h32⟩, h8o, h16o, h32o⟩ := hf
  unfold parseForm
  refine sizedLoadOperands_encodesOne ?_
  intro a size b
  refine (requires_reg line a).encodesOne ?_
  intro rd
  refine (requires_mem b _).encodesOne ?_
  intro rs
  split
  · exact emitMem_encodesOne h8 h8o (by simp [Form.ops]) (by simp [Form.ops]) _ _ _
  · split
    · exact emitMem_encodesOne h16 h16o (by simp [Form.ops]) (by simp [Form.ops]) _ _ _
    · split
      · exact emitMem_encodesOne h32 h32o (by simp [Form.ops]) (by simp [Form.ops]) _ _ _
      · exact encodesOne_stop

/-- What an instruction line emits is an instruction of its family, unless it gives up. -/
theorem parseForm_encodesOne {strtod : Strtod} {equs : List AsmEqu} {line : Nat} {form : Form}
    {p : List Byte} (hf : form.Fetched) :
    EncodesOne form.ops (parseForm strtod equs line form p) := by
  unfold parseForm
  cases form with
  | mov => exact mov_encodesOne strtod
  | sizedStore op opOff =>
    refine operands₂_encodesOne ?_
    intro a b
    refine (requires_reg line b).encodesOne ?_
    intro rs
    refine (requires_mem a _).encodesOne ?_
    intro rd
    exact emitMem_encodesOne hf.1 hf.2 (by simp [Form.ops]) (by simp [Form.ops]) _ _ _
  | sizedLoad op8 op16 op32 op8Off op16Off op32Off => exact sizedLoad_encodesOne strtod equs hf
  | alu2 op =>
    refine operands₂_encodesOne ?_
    intro a b
    exact regs₂_encodesOne hf (requires_reg line a) (requires_reg line b)
  | alu1 op =>
    refine (requires_reg line _).encodesOne_cons ?_
    intro rd
    exact .of_mem (List.mem_singleton_self op) (.regs rd 0 hf)
  | jmp1 op => exact .of_mem (List.mem_singleton_self op) (.jump _ hf)
  | enter => exact .of_mem (List.mem_singleton_self _) (.imm16 _ rfl)
  | bare op => exact .of_mem (List.mem_singleton_self op) (.bare hf)
  | call =>
    refine operands₂_encodesOne ?_
    intro a b
    exact .of_mem (List.mem_singleton_self _) (.call a b)
  | falu2 op =>
    refine operands₂_encodesOne ?_
    intro a b
    exact regs₂_encodesOne hf (requires_fpreg line a) (requires_fpreg line b)
  | fmovi =>
    refine operands₂_encodesOne ?_
    intro a b
    refine (requires_fpreg line a).encodesOne_cons ?_
    intro rd
    exact .of_mem (List.mem_singleton_self _) (.imm64 rd _ rfl)
  | fmovm =>
    refine operands₂_encodesOne ?_
    intro a b
    refine (requires_mem b _).encodesOne ?_
    intro rs
    refine (requires_fpreg line a).encodesOne_cons ?_
    intro rd
    exact .of_mem (List.mem_singleton_self _) (.regs rd rs rfl)
  | fmovs =>
    refine operands₂_encodesOne ?_
    intro a b
    refine (requires_mem a _).encodesOne ?_
    intro rd
    refine (requires_fpreg line b).encodesOne_cons ?_
    intro rs
    exact .of_mem (List.mem_singleton_self _) (.regs rd rs rfl)
  | itof =>
    refine operands₂_encodesOne ?_
    intro a b
    exact regs₂_encodesOne rfl (requires_fpreg line a) (requires_reg line b)
  | ftoi =>
    refine operands₂_encodesOne ?_
    intro a b
    exact regs₂_encodesOne rfl (requires_reg line a) (requires_fpreg line b)
  | callr =>
    refine operands₂_encodesOne ?_
    intro a b
    refine (requires_reg line a).encodesOne ?_
    intro rd
    exact .of_mem (List.mem_singleton_self _) (.callr rd b)
  | lea =>
    refine operands₂_encodesOne ?_
    intro a b
    refine (requires_reg line a).encodesOne ?_
    intro rd
    refine (requires_mem b _).encodesOne ?_
    intro base
    exact .of_mem (List.mem_singleton_self _) (.off32 rd 0 _ rfl)

end Dvm
