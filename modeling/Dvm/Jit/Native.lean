/-
# Native code with floating-point instructions

The block compiler handles two floating-point opcodes, for which it emits ADDSD and MULSD between
the registers `xmm0` to `xmm7`.  They are added to the instructions of `X86` here: their encoding,
which no other instruction begins like, so that native code is read in one way (`nativeBytes_inj`),
and that nothing but an SSE register changes in them.  What is added or multiplied is left open.
-/
import Dvm.Jit.Calls
import Dvm.Jit.Pages
import Dvm.Jit.Reach

namespace Dvm

open Bytes ByteMem X86 Runs

/-! ## 1. Instructions -/

inductive NativeInstr where
  | general (i : Instr)
  /-- `ADDSD xmm, xmm` or `MULSD xmm, xmm`, by its opcode. -/
  | sse (op : Byte) (d s : Reg)
  deriving DecidableEq, Repr

def NativeInstr.encode : NativeInstr → List Byte
  | general i => i.encode
  | sse op d s => [0xF2, 0x0F, op, (ModRm.direct d s).byte]

def NativeInstr.Encodable : NativeInstr → Prop
  | general i => i.Encodable
  | sse _ _ _ => True

/-- No other instruction begins like the floating-point ones. -/
theorem decode_sse (bs : List Byte) : X86.decode (0xF2 :: bs) = none := by
  rw [decode_plain (by decide)]
  cases bs <;> simp [decodeOp]

/-- An instruction is recognised by its bytes, whatever follows. -/
theorem encode_inj {i j : NativeInstr} (hi : i.Encodable) (hj : j.Encodable) {bs cs : List Byte}
    (h : i.encode ++ bs = j.encode ++ cs) : i = j ∧ bs = cs := by
  cases i with
  | general a =>
    have ha := decode_encode a hi bs
    cases j with
    | general b =>
      rw [show a.encode ++ bs = b.encode ++ cs from h, decode_encode b hj cs, Option.some.injEq,
        Prod.mk.injEq] at ha
      exact ⟨congrArg _ ha.1.symm, ha.2.symm⟩
    | sse op d s =>
      rw [show a.encode ++ bs = 0xF2 :: _ from h, decode_sse] at ha
      cases ha
  | sse op d s =>
    cases j with
    | general b =>
      have hb := decode_encode b hj cs
      rw [show b.encode ++ cs = 0xF2 :: _ from h.symm, decode_sse] at hb
      cases hb
    | sse op' d' s' =>
      simp only [NativeInstr.encode, List.cons_append, List.nil_append, List.cons.injEq,
        true_and] at h
      obtain ⟨rfl, hbyte, rfl⟩ := h
      have hread := congrArg ModRm.read hbyte
      rw [ModRm.read_byte, ModRm.read_byte, ModRm.mk.injEq] at hread
      obtain ⟨-, rfl, rfl⟩ := hread
      exact ⟨rfl, rfl⟩

theorem encode_ne_nil {i : NativeInstr} (hi : i.Encodable) : i.encode ≠ [] := by
  cases i with
  | general a =>
    intro hnil
    have ha := decode_encode a hi []
    rw [show a.encode = [] from hnil] at ha
    cases ha
  | sse op d s => exact List.cons_ne_nil _ _

/-- The bytes of a sequence. -/
def nativeBytes (is : List NativeInstr) : List Byte := is.flatMap NativeInstr.encode

@[simp] theorem nativeBytes_nil : nativeBytes [] = [] := rfl
@[simp] theorem nativeBytes_cons (i : NativeInstr) (is : List NativeInstr) :
    nativeBytes (i :: is) = i.encode ++ nativeBytes is := rfl
theorem nativeBytes_append (is js : List NativeInstr) :
    nativeBytes (is ++ js) = nativeBytes is ++ nativeBytes js := List.flatMap_append

theorem nativeBytes_general (is : List Instr) : nativeBytes (is.map .general) = code is :=
  List.flatMap_map ..

/-- Native code is read in one way. -/
theorem nativeBytes_inj {is js : List NativeInstr} (hi : ∀ i ∈ is, i.Encodable)
    (hj : ∀ j ∈ js, j.Encodable) (h : nativeBytes is = nativeBytes js) : is = js := by
  induction is generalizing js with
  | nil =>
    cases js with
    | nil => rfl
    | cons j js =>
      have hnil := (List.append_eq_nil_iff.mp h.symm).1
      exact absurd hnil (encode_ne_nil (hj j List.mem_cons_self))
  | cons i is ih =>
    obtain ⟨hi₀, his⟩ := List.forall_mem_cons.mp hi
    cases js with
    | nil =>
      have hnil := (List.append_eq_nil_iff.mp h).1
      exact absurd hnil (encode_ne_nil hi₀)
    | cons j js =>
      obtain ⟨hj₀, hjs⟩ := List.forall_mem_cons.mp hj
      obtain ⟨rfl, hrest⟩ := encode_inj hi₀ hj₀ h
      rw [ih his hjs hrest]

/-! ## 2. The code of an opcode -/

/-- The instructions that are emitted for an opcode after which the block goes on. -/
def opInstrs (op : Op) (o : Operands) : List NativeInstr :=
  match op with
  | .fadd => [.sse 0x58 o.d o.s]
  | .fmul => [.sse 0x59 o.d o.s]
  | op => (straightInstrs op o).map .general

/-- Of these, the general ones change general registers only, and the stack pointer is none. -/
def NativeInstr.IsBody : NativeInstr → Prop
  | general i => i.IsReg ∧ ∀ g, i.regs g rsp = g rsp
  | sse _ _ _ => True

theorem NativeInstr.IsBody.encodable {i : NativeInstr} (h : i.IsBody) : i.Encodable := by
  cases i with
  | general a => exact h.1.encodable
  | sse op d s => trivial

theorem vm2x86_ne_rsp : ∀ r : Reg, rsp ≠ vm2x86 r := by decide

theorem opInstrs_isBody (op : Op) (o : Operands) : ∀ i ∈ opInstrs op o, i.IsBody := by
  have hmov : ∀ r v (g : R64 → Word), setR g (vm2x86 r) v rsp = g rsp :=
    fun r v g => setR_ne _ _ (vm2x86_ne_rsp r)
  intro i hi
  cases op <;> simp only [opInstrs, straightInstrs, List.map_cons, List.map_nil, List.mem_cons,
    List.not_mem_nil, or_false] at hi
  all_goals first
    | exact hi.elim
    | subst hi; exact ⟨trivial, hmov _ _⟩
    | subst hi; exact trivial
    | rcases hi with rfl | rfl <;> exact ⟨trivial, fun g => hmov _ _ g⟩

theorem flatten_jitSse (op : Byte) (d s : Reg) :
    (jitSse op d s).flatten = (NativeInstr.sse op d s).encode := by
  have hreg : ∀ d s : Reg, BitVec.ofNat 8 (0xC0 ||| (d.val &&& 7) <<< 3 ||| (s.val &&& 7))
      = (ModRm.direct d s).byte := by decide
  have hlow : ¬ (8 ≤ d.val ∨ 8 ≤ s.val) := by omega
  simp only [jitSse, hlow, if_false, hreg]
  rfl

/-- The bytes that are emitted for it. -/
theorem jitStraight_bytes {op : Op} (hgo : op.goesOn = true) (o : Operands) :
    ∃ cs, jitStraight op o = some cs ∧ cs.flatten = nativeBytes (opInstrs op o) := by
  cases op
  case fadd => exact ⟨_, rfl, by simp [flatten_jitSse, opInstrs]⟩
  case fmul => exact ⟨_, rfl, by simp [flatten_jitSse, opInstrs]⟩
  all_goals first
    | exact absurd hgo (by decide)
    | exact (jitStraight_code (by decide) o).imp fun cs hcs =>
        ⟨hcs.1, hcs.2.trans (nativeBytes_general _).symm⟩

/-- An opcode goes on, ends the block or is not handled. -/
theorem opcode_kinds (op : Op) :
    (op.goesOn = true ∧ op.isEnd = false ∧ op.jitted = true) ∨
    (op.goesOn = false ∧ op.isEnd = true ∧ op.jitted = true ∧ ∀ o, jitStraight op o = none) ∨
    (op.goesOn = false ∧ op.isEnd = false ∧ op.jitted = false ∧
      ∀ o, jitStraight op o = none ∧ blockEnd op o = .unhandled) := by
  cases op
  all_goals first
    | exact .inl ⟨rfl, rfl, rfl⟩
    | exact .inr (.inl ⟨rfl, rfl, rfl, fun _ => rfl⟩)
    | exact .inr (.inr ⟨rfl, rfl, rfl, fun _ => ⟨rfl, rfl⟩⟩)

/-- The code of a scan up to the end of the block. -/
theorem scan_body (bc : Nat → Byte) (bcLen fuel p : Nat) :
    ∃ is, (scanBlock bc bcLen fuel p).1.flatten = nativeBytes is ∧ ∀ i ∈ is, i.IsBody := by
  induction fuel generalizing p with
  | zero => exact ⟨[], rfl, nofun⟩
  | succ fuel ih =>
    rw [scanBlock]
    split
    · cases hop : Op.ofCode (bc p) with
      | none => exact ⟨[], rfl, nofun⟩
      | some op =>
        simp only
        obtain ⟨is, his, hbody⟩ := ih (p + op.size)
        rcases opcode_kinds op with ⟨hgo, -⟩ | ⟨-, -, -, hnone⟩ | ⟨-, -, -, hnone⟩
        · obtain ⟨cs, hcs, hcode⟩ := jitStraight_bytes hgo (bcOperands bc op p)
          refine ⟨opInstrs op (bcOperands bc op p) ++ is, ?_, ?_⟩
          · rw [hcs, nativeBytes_append, ← hcode, ← his]
            exact List.flatten_append
          · exact List.forall_mem_append.mpr ⟨opInstrs_isBody _ _, hbody⟩
        · rw [hnone]
          exact ⟨[], rfl, nofun⟩
        · rw [(hnone _).1]
          exact ⟨[], rfl, nofun⟩
    · exact ⟨[], rfl, nofun⟩

/-! ## 3. Execution -/

/-- One instruction; the result of an addition or multiplication may be any. -/
inductive NativeStep (c : Cpu) : NativeInstr → Cpu → Prop
  | general {e : Word × Instr} {c' : Cpu} : X86.Step c e c' → NativeStep c (.general e.2) c'
  | sse {op : Byte} {d s : Reg} (v : BitVec 128) :
      readBytes c.mem c.rip 4 = (NativeInstr.sse op d s).encode →
      NativeStep c (.sse op d s)
        { c with xmm := fun k => if k.val = d.val then v else c.xmm k, rip := c.rip + 4 }

/-- One instruction that is fetched from `X`. -/
def StepIn (X : Word → Prop) (c : Cpu) (i : NativeInstr) (c' : Cpu) : Prop :=
  X c.rip ∧ NativeStep c i c'

/-- The processors differ in their SSE registers only. -/
structure SameBut (c d : Cpu) : Prop where
  gpr : d.gpr = c.gpr
  rip : d.rip = c.rip
  mem : d.mem = c.mem

theorem SameBut.exec {c d : Cpu} (h : SameBut c d) (i : Instr) (next : Word) :
    SameBut (i.exec { c with rip := next }) (i.exec { d with rip := next }) := by
  obtain ⟨g, x, p, m⟩ := c
  obtain ⟨g', x', p', m'⟩ := d
  obtain ⟨rfl, rfl, rfl⟩ := h
  cases i <;> exact ⟨rfl, rfl, rfl⟩

theorem not_fetch_sse {m : Mem} {a : Word} {op : Byte} {d s : Reg} {i : Instr} {next : Word}
    (h : readBytes m a 4 = (NativeInstr.sse op d s).encode) : fetch m a ≠ some (i, next) := by
  have hsize : 15 = 4 + 11 := rfl
  rw [fetch, hsize, readBytes_add, h]
  show Option.map _ (X86.decode (0xF2 :: _)) ≠ _
  rw [decode_sse]
  simp

/-- What is executed does not depend on the SSE registers, nor does anything else after it. -/
theorem SameBut.step {c d c' d' : Cpu} {i j : NativeInstr} (h : SameBut c d)
    (hc : NativeStep c i c') (hd : NativeStep d j d') : i = j ∧ SameBut c' d' := by
  cases hc with
  | general hc =>
    obtain ⟨next, hfetch, -, rfl⟩ := hc
    cases hd with
    | general hd =>
      obtain ⟨next', hfetch', -, rfl⟩ := hd
      rw [h.mem, h.rip, hfetch, Option.some.injEq, Prod.mk.injEq] at hfetch'
      obtain ⟨hi, rfl⟩ := hfetch'
      rw [← hi]
      exact ⟨rfl, h.exec _ _⟩
    | sse v hbytes =>
      rw [h.mem, h.rip] at hbytes
      exact absurd hfetch (not_fetch_sse hbytes)
  | sse v hbytes =>
    cases hd with
    | general hd =>
      obtain ⟨next, hfetch, -⟩ := hd
      rw [h.mem, h.rip] at hfetch
      exact absurd hfetch (not_fetch_sse hbytes)
    | sse v' hbytes' =>
      rw [h.mem, h.rip, hbytes] at hbytes'
      obtain ⟨hsame, -⟩ := @encode_inj (.sse _ _ _) (.sse _ _ _) trivial trivial [] []
        (congrArg (· ++ []) hbytes')
      refine ⟨hsame, ?_, ?_, ?_⟩
      · exact h.gpr
      · exact congrArg (· + 4) h.rip
      · exact h.mem

/-- Neither memory nor the stack pointer changes. -/
theorem NativeStep.body {c c' : Cpu} {i : NativeInstr} (hs : NativeStep c i c') (hi : i.IsBody) :
    c'.mem = c.mem ∧ c'.gpr rsp = c.gpr rsp := by
  cases hs with
  | sse v h => exact ⟨rfl, rfl⟩
  | general hs =>
    obtain ⟨hreg, hrsp⟩ := hi
    obtain ⟨next, -, -, rfl⟩ := hs
    rw [hreg.exec]
    exact ⟨rfl, hrsp _⟩

/-- Code in memory is run through. -/
theorem exists_run_body {X : Word → Prop} {is : List NativeInstr} (his : ∀ i ∈ is, i.IsBody)
    {c : Cpu} (h : readBytes c.mem c.rip (nativeBytes is).length = nativeBytes is)
    (hX : ∀ k < (nativeBytes is).length, X (c.rip + BitVec.ofNat 64 k)) :
    ∃ c', Run (StepIn X) c is c' ∧ c'.rip = c.rip + BitVec.ofNat 64 (nativeBytes is).length ∧
      c'.mem = c.mem ∧ c'.gpr rsp = c.gpr rsp := by
  induction is generalizing c with
  | nil => exact ⟨c, .start, (BitVec.add_zero _).symm, rfl, rfl⟩
  | cons i is ih =>
    obtain ⟨hi, his⟩ := List.forall_mem_cons.mp his
    rw [nativeBytes_cons, List.length_append, readBytes_add] at h
    rw [nativeBytes_cons, List.length_append] at hX
    obtain ⟨hhead, htail⟩ := List.append_inj h (length_readBytes _ _ _)
    have hstep : ∃ c₁, NativeStep c i c₁ ∧ c₁.rip = c.rip + BitVec.ofNat 64 i.encode.length := by
      cases i with
      | sse op d s => exact ⟨_, .sse 0 hhead, rfl⟩
      | general a => exact ⟨_, .general (step_of_code hi.encodable hhead), by rw [hi.1.exec]; rfl⟩
    obtain ⟨c₁, hs, hrip⟩ := hstep
    obtain ⟨hmem, hrsp⟩ := hs.body hi
    have hpos : 0 < i.encode.length := List.length_pos_iff.mpr (encode_ne_nil hi.encodable)
    have hfirst : X c.rip := by
      have hzero := hX 0 (by omega)
      rwa [BitVec.add_zero] at hzero
    rw [← hmem, ← hrip] at htail
    obtain ⟨c', hrun, hend, hmem', hrsp'⟩ := ih his htail fun k hk => by
      rw [hrip, BitVec.add_assoc, ← BitVec.ofNat_add]
      exact hX _ (by omega)
    have hone : StepIn X c i c₁ := ⟨hfirst, hs⟩
    have hall := (Run.single hone).trans hrun
    refine ⟨c', hall, ?_, hmem'.trans hmem, hrsp'.trans hrsp⟩
    rw [hend, hrip, nativeBytes_cons, List.length_append, BitVec.ofNat_add, BitVec.add_assoc]

end Dvm
