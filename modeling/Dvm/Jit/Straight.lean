/-
# Straight-line code

A bytecode sequence of integer opcodes runs in the interpreter and as native code.  Both are
functions on the eight general registers, and they are the same function for every opcode but
the shifts: `jit_compile_block` emits `mov src, rcx` where it means `mov rcx, src`, so that a
shift overwrites its count register by `cx` and shifts by `cx`.

The two engines agree at every instruction exactly if each shift is one where this makes no
difference (`ShiftAgrees`), `straight_agrees_iff`.
-/
import Dvm.Jit.Compile
import Dvm.Vm.Exec

namespace Dvm

open Bytes ByteMem X86 Runs

/-! ## 1. Bytecode in memory -/

/-- The bytecode at `base`. -/
def bcAt (m : Mem) (base : Word) : Nat → Byte := fun p => m (base + BitVec.ofNat 64 p)

theorem map_bcAt (m : Mem) (base : Word) (p n : Nat) :
    (List.range' p n).map (bcAt m base) = readBytes m (base + BitVec.ofNat 64 p) n := by
  induction n generalizing p with
  | zero => rfl
  | succ n ih =>
    have haddr : base + BitVec.ofNat 64 p + 1 = base + BitVec.ofNat 64 (p + 1) := by
      rw [BitVec.ofNat_add, BitVec.add_assoc]
      rfl
    rw [List.range'_succ, List.map_cons, ih, readBytes, haddr]
    rfl

/-- The interpreter fetches what the block compiler reads. -/
theorem fetchInstr_bcAt (m : Mem) (base : Word) (p : Nat) :
    fetchInstr m (base + BitVec.ofNat 64 p)
      = (Op.ofCode (bcAt m base p)).map fun op => (op, bcOperands (bcAt m base) op p) := by
  have haddr : base + BitVec.ofNat 64 p + 1 = base + BitVec.ofNat 64 (p + 1) := by
    rw [BitVec.ofNat_add, BitVec.add_assoc]
    rfl
  rw [fetchInstr]
  show (Op.ofCode (bcAt m base p)).map _ = _
  congr 1
  funext op
  rw [bcOperands, map_bcAt, haddr]

/-- Integer opcodes from `p` on, followed by `HALT`, all of it before `bcLen`. -/
def StraightCode (bc : Nat → Byte) (bcLen : Nat) : Nat → List (Op × Operands) → Prop
  | p, [] => p < bcLen ∧ Op.ofCode (bc p) = some .halt
  | p, i :: is => p < bcLen ∧ Op.ofCode (bc p) = some i.1 ∧ i.1.isInt = true ∧
      i.2 = bcOperands bc i.1 p ∧ StraightCode bc bcLen (p + i.1.size) is

/-- Integer opcodes one behind the other from `p` on. -/
def InstrsAt (bc : Nat → Byte) (p : Nat) (is : List (Op × Operands)) : Prop :=
  ∀ k i, is[k]? = some i → Op.ofCode (bc (p + instrStart is k)) = some i.1 ∧ i.1.isInt = true ∧
    i.2 = bcOperands bc i.1 (p + instrStart is k)

theorem InstrsAt.cons {bc : Nat → Byte} {p : Nat} {j : Op × Operands} {is : List (Op × Operands)}
    (hop : Op.ofCode (bc p) = some j.1) (hint : j.1.isInt = true) (ho : j.2 = bcOperands bc j.1 p)
    (h : InstrsAt bc (p + j.1.size) is) : InstrsAt bc p (j :: is) := by
  intro k i hk
  cases k with
  | zero =>
    cases hk
    exact ⟨hop, hint, ho⟩
  | succ k =>
    rw [instrStart_cons, ← Nat.add_assoc]
    exact h k i hk

theorem StraightCode.instrs {bc : Nat → Byte} {bcLen p : Nat} {is : List (Op × Operands)}
    (h : StraightCode bc bcLen p is) : InstrsAt bc p is := by
  induction is generalizing p with
  | nil =>
    intro k i hk
    cases hk
  | cons j is ih => exact .cons h.2.1 h.2.2.1 h.2.2.2.1 (ih h.2.2.2.2)

theorem StraightCode.halt {bc : Nat → Byte} {bcLen p : Nat} {is : List (Op × Operands)}
    (h : StraightCode bc bcLen p is) :
    Op.ofCode (bc (p + instrStart is is.length)) = some .halt := by
  induction is generalizing p with
  | nil => exact h.2
  | cons j is ih =>
    rw [List.length_cons, instrStart_cons, ← Nat.add_assoc]
    exact ih h.2.2.2.2

/-! ## 2. The interpreter -/

/-- The result of an integer opcode in the interpreter. -/
def vmResult (op : Op) (o : Operands) (g : Reg → Word) : Word :=
  let gd := g o.d
  let gs := g o.s
  match op with
  | .movRR => gs
  | .movRI => o.imm
  | .add => gd + gs
  | .sub => gd - gs
  | .mul | .imul => gd * gs
  | .neg => -gd
  | .and => gd &&& gs
  | .or => gd ||| gs
  | .xor => gd ^^^ gs
  | .shl => gd <<< (gs &&& 63)
  | .shr => gd >>> (gs &&& 63)
  | .sar => gd.sshiftRight (gs &&& 63).toNat
  | _ => 0

/-- The general registers after an integer opcode. -/
def vmRegs (g : Reg → Word) (i : Op × Operands) : Reg → Word :=
  fun k => if k = i.2.d then vmResult i.1 i.2 g else g k

def vmAfter (is : List (Op × Operands)) (g : Reg → Word) : Reg → Word := is.foldl vmRegs g

theorem vmAfter_succ {is : List (Op × Operands)} {k : Nat} {i : Op × Operands}
    (h : is[k]? = some i) (g : Reg → Word) :
    vmAfter (is.take (k + 1)) g = vmRegs (vmAfter (is.take k) g) i := by
  rw [List.take_add_one, h, vmAfter, List.foldl_append]
  rfl

theorem exec_int {op : Op} (hop : op.isInt = true) (sys : SysAnswer) (o : Operands)
    (t : VMThread) (m : Mem) :
    exec sys op o t m = .next { t with gpr := vmRegs t.gpr (op, o) } m := by
  cases op
  all_goals first
    | exact absurd hop (by decide)
    | rfl

/-- `k` instructions of the interpreter that leave memory as it is. -/
inductive Executes (m : Mem) (t₀ : VMThread) : Nat → VMThread → Prop
  | none : Executes m t₀ 0 t₀
  | next {k : Nat} {t t' : VMThread} : Executes m t₀ k t → Dvm.step .none t m = .next t' m →
      Executes m t₀ (k + 1) t'

theorem Executes.deterministic {m : Mem} {t₀ t t' : VMThread} {k : Nat}
    (h : Executes m t₀ k t) (h' : Executes m t₀ k t') : t = t' := by
  induction h generalizing t' with
  | none =>
    cases h'
    rfl
  | next _ hs ih =>
    cases h' with
    | next hr hs' =>
      obtain rfl := ih hr
      rw [hs, Outcome.next.injEq] at hs'
      exact hs'.1

/-- Where the interpreter is after `k` instructions, and with which registers. -/
theorem executes_straight {m : Mem} {base : Word} {p : Nat} {is : List (Op × Operands)}
    (h : InstrsAt (bcAt m base) p is) {t : VMThread}
    (ht : t.ip = base + BitVec.ofNat 64 p) {k : Nat} (hk : k ≤ is.length) :
    Executes m t k { t with
      gpr := vmAfter (is.take k) t.gpr
      ip := base + BitVec.ofNat 64 (p + instrStart is k) } := by
  induction k with
  | zero =>
    have hstart : instrStart is 0 = 0 := by simp [instrStart]
    rw [hstart, Nat.add_zero, ← ht]
    exact .none
  | succ k ih =>
    have hrun := ih (by omega)
    obtain ⟨i, hi⟩ : ∃ i, is[k]? = some i := ⟨_, List.getElem?_eq_getElem hk⟩
    obtain ⟨hop, hint, ho⟩ := h k i hi
    have hfetch : fetchInstr m (base + BitVec.ofNat 64 (p + instrStart is k)) = some i := by
      rw [fetchInstr_bcAt, hop, Option.map_some, ← ho]
    have hnext : base + BitVec.ofNat 64 (p + instrStart is k) + BitVec.ofNat 64 i.1.size
        = base + BitVec.ofNat 64 (p + instrStart is (k + 1)) := by
      rw [instrStart_succ hi, ← Nat.add_assoc, BitVec.ofNat_add (p + instrStart is k),
        BitVec.add_assoc]
    refine hrun.next ?_
    rw [Dvm.step]
    simp only [hfetch]
    rw [exec_int hint, vmAfter_succ hi, hnext]

/-- The interpreter halts behind the sequence. -/
theorem halts_straight {m : Mem} {base : Word} {bcLen p : Nat} {is : List (Op × Operands)}
    (h : StraightCode (bcAt m base) bcLen p is) {t : VMThread}
    (ht : t.ip = base + BitVec.ofNat 64 (p + instrStart is is.length)) :
    ∃ t', Dvm.step none t m = .halted t' m ∧ t'.gpr = t.gpr := by
  have hfetch : fetchInstr m t.ip = some (.halt, bcOperands (bcAt m base) .halt
      (p + instrStart is is.length)) := by
    rw [ht, fetchInstr_bcAt, h.halt, Option.map_some]
  rw [Dvm.step, hfetch]
  exact ⟨_, rfl, rfl⟩

/-! ## 3. The native code -/

theorem vm2x86_injective : ∀ r s : Reg, vm2x86 r = vm2x86 s → r = s := by decide

theorem vm2x86_cx : vm2x86 regCx = rcx := rfl

/-- The general registers after the native code of an integer opcode. -/
def jitRegs (g : Reg → Word) (i : Op × Operands) : Reg → Word :=
  match i.1 with
  | .shl | .shr | .sar =>
    -- `mov src, rcx`, then the shift by `cl`
    let g₁ : Reg → Word := fun k => if k = i.2.s then g regCx else g k
    vmRegs g₁ (i.1, { i.2 with s := regCx })
  | _ => vmRegs g i

def jitAfter (is : List (Op × Operands)) (g : Reg → Word) : Reg → Word := is.foldl jitRegs g

theorem jitAfter_succ {is : List (Op × Operands)} {k : Nat} {i : Op × Operands}
    (h : is[k]? = some i) (g : Reg → Word) :
    jitAfter (is.take (k + 1)) g = jitRegs (jitAfter (is.take k) g) i := by
  rw [List.take_add_one, h, jitAfter, List.foldl_append]
  rfl

/-- The mapped registers hold the VM registers. -/
def SameRegs (g : Reg → Word) (G : R64 → Word) : Prop := ∀ r, G (vm2x86 r) = g r

theorem SameRegs.set {g : Reg → Word} {G : R64 → Word} (h : SameRegs g G) (d : Reg) {v w : Word}
    (hv : v = w) : SameRegs (fun k => if k = d then w else g k) (setR G (vm2x86 d) v) := by
  intro r
  by_cases hr : r = d
  · simp [hr, hv]
  · have hne : vm2x86 r ≠ vm2x86 d := fun heq => hr (vm2x86_injective _ _ heq)
    simp [hr, hne, h r]

/-- The native code of one opcode. -/
theorem regs_straight {op : Op} (hop : op.isInt = true) (o : Operands) {g : Reg → Word}
    {G : R64 → Word} (h : SameRegs g G) :
    SameRegs (jitRegs g (op, o)) (regsAfter (straightInstrs op o) G) := by
  have hshift : ∀ (sh : Shift) (v : (Reg → Word) → Word),
      (∀ (g : Reg → Word) (G : R64 → Word), SameRegs g G →
        sh.apply (G (vm2x86 o.d)) (G rcx) = v g) →
      SameRegs (fun k => if k = o.d then v (fun k => if k = o.s then g regCx else g k)
          else if k = o.s then g regCx else g k)
        (regsAfter [.store (vm2x86 o.s) rcx, .shift sh (vm2x86 o.d)] G) := by
    intro sh v hv
    have hmov := h.set o.s (h regCx)
    exact hmov.set o.d (hv _ _ hmov)
  cases op
  case shl => exact hshift .shl _ fun g G h => by rw [h o.d, ← vm2x86_cx, h regCx]; rfl
  case shr => exact hshift .shr _ fun g G h => by rw [h o.d, ← vm2x86_cx, h regCx]; rfl
  case sar => exact hshift .sar _ fun g G h => by rw [h o.d, ← vm2x86_cx, h regCx]; rfl
  all_goals first
    | exact absurd hop (by decide)
    | exact h.set o.d (by simp only [Alu.apply, h o.d, h o.s]; rfl)

/-- The instructions that are emitted for a sequence. -/
def nativeCode (is : List (Op × Operands)) : List Instr :=
  is.flatMap fun i => straightInstrs i.1 i.2

theorem nativeCode_cons (i : Op × Operands) (is : List (Op × Operands)) :
    nativeCode (i :: is) = straightInstrs i.1 i.2 ++ nativeCode is := rfl

theorem nativeCode_append (is js : List (Op × Operands)) :
    nativeCode (is ++ js) = nativeCode is ++ nativeCode js := List.flatMap_append

theorem Op.size_pos (op : Op) : 0 < op.size := by
  rw [Op.size]
  omega

/-- The scan emits the code of an integer instruction and goes on behind it. -/
theorem scanBlock_step {bc : Nat → Byte} {bcLen p : Nat} {i : Op × Operands} (hp : p < bcLen)
    (hop : Op.ofCode (bc p) = some i.1) (hint : i.1.isInt = true)
    (ho : i.2 = bcOperands bc i.1 p) (fuel : Nat) :
    (scanBlock bc bcLen (fuel + 1) p).1.flatten
        = code (straightInstrs i.1 i.2) ++ (scanBlock bc bcLen fuel (p + i.1.size)).1.flatten ∧
      (scanBlock bc bcLen (fuel + 1) p).2 = (scanBlock bc bcLen fuel (p + i.1.size)).2 := by
  obtain ⟨cs, hcs, hcode⟩ := jitStraight_code hint i.2
  rw [scanBlock, if_pos hp, hop]
  simp only [← ho, hcs]
  refine ⟨?_, trivial⟩
  rw [List.flatten_append, hcode]

/-- The bytes that are emitted for a sequence and its `HALT`. -/
theorem scan_straight {bc : Nat → Byte} {bcLen p : Nat} {is : List (Op × Operands)}
    (h : StraightCode bc bcLen p is) {fuel : Nat} (hfuel : bcLen ≤ p + fuel) :
    (scanBlock bc bcLen fuel p).1.flatten = code (nativeCode is) ∧
      (scanBlock bc bcLen fuel p).2 = .last jitEpilogue := by
  induction is generalizing p fuel with
  | nil =>
    obtain ⟨hp, hop⟩ := h
    obtain ⟨fuel, rfl⟩ : ∃ n, fuel = n + 1 := ⟨fuel - 1, by omega⟩
    rw [scanBlock, if_pos hp, hop]
    exact ⟨rfl, rfl⟩
  | cons i is ih =>
    obtain ⟨hp, hop, hint, ho, hrest⟩ := h
    obtain ⟨fuel, rfl⟩ : ∃ n, fuel = n + 1 := ⟨fuel - 1, by omega⟩
    have hsize := i.1.size_pos
    obtain ⟨hfst, hsnd⟩ := @ih _ hrest fuel (by omega)
    obtain ⟨hcode, hstop⟩ := scanBlock_step hp hop hint ho fuel
    exact ⟨by rw [hcode, hfst, nativeCode_cons, code_append], hstop.trans hsnd⟩

/-- The registers after the native code of a sequence. -/
theorem regs_nativeCode {is : List (Op × Operands)} (hint : ∀ i ∈ is, i.1.isInt = true)
    {g : Reg → Word} {G : R64 → Word} (h : SameRegs g G) :
    SameRegs (jitAfter is g) (regsAfter (nativeCode is) G) := by
  induction is generalizing g G with
  | nil => exact h
  | cons i is ih =>
    obtain ⟨hi, his⟩ := List.forall_mem_cons.mp hint
    rw [nativeCode_cons, regsAfter_append]
    exact ih his (regs_straight hi i.2 h)

/-! ## 4. Agreement -/

/-- A shift for which it makes no difference that the wrong register is moved: its count
register holds the same as `cx`, or it shifts itself, with the result that shifting `cx` by itself
has. -/
def ShiftAgrees (g : Reg → Word) (i : Op × Operands) : Prop :=
  i.1 ∈ [Op.shl, Op.shr, Op.sar] → g i.2.s = g regCx ∨
    (i.2.d = i.2.s ∧ vmResult i.1 { d := regCx, s := regCx } g
      = vmResult i.1 { d := i.2.s, s := i.2.s } g)

/-- The two ways to shift, `f` being the shift. -/
theorem shift_eq_iff (f : Word → Word → Word) (d s : Reg) (g : Reg → Word) :
    (fun k => if k = d then f (if d = s then g regCx else g d) (if regCx = s then g regCx else
        g regCx) else if k = s then g regCx else g k) =
      (fun k => if k = d then f (g d) (g s) else g k) ↔
    g s = g regCx ∨ (d = s ∧ f (g regCx) (g regCx) = f (g s) (g s)) := by
  rw [ite_self]
  constructor
  · intro h
    by_cases hds : d = s
    · have hd := congrFun h d
      simp only [hds, if_true] at hd
      exact .inr ⟨hds, hd⟩
    · have hs := congrFun h s
      simp only [if_neg (Ne.symm hds), if_true] at hs
      exact .inl hs.symm
  · rintro (heq | ⟨rfl, heq⟩)
    · have hmov : ∀ k, (if k = s then g regCx else g k) = g k := by
        intro k
        by_cases hk : k = s
        · rw [if_pos hk, hk, heq]
        · rw [if_neg hk]
      funext k
      rw [hmov, hmov, heq]
    · funext k
      by_cases hk : k = d
      · simp only [hk, if_true, heq]
      · simp only [if_neg hk]

theorem jitRegs_eq_iff (g : Reg → Word) (i : Op × Operands) :
    jitRegs g i = vmRegs g i ↔ ShiftAgrees g i := by
  obtain ⟨op, o⟩ := i
  by_cases hop : op ∈ [Op.shl, Op.shr, Op.sar]
  · rw [ShiftAgrees, imp_iff_right hop]
    simp only [List.mem_cons, List.not_mem_nil, or_false] at hop
    rcases hop with rfl | rfl | rfl
    · exact shift_eq_iff (fun a c => a <<< (c &&& 63)) o.d o.s g
    · exact shift_eq_iff (fun a c => a >>> (c &&& 63)) o.d o.s g
    · exact shift_eq_iff (fun a c => a.sshiftRight (c &&& 63).toNat) o.d o.s g
  · refine iff_of_true ?_ fun h => absurd h hop
    cases op
    all_goals first
      | exact absurd (by decide) hop
      | rfl

/-- Each shift of a sequence agrees where it is reached. -/
def ShiftsAgree (is : List (Op × Operands)) (g : Reg → Word) : Prop :=
  ∀ k i, is[k]? = some i → ShiftAgrees (vmAfter (is.take k) g) i

/-- The two engines compute the same all along exactly if each shift agrees. -/
theorem jitAfter_eq_iff (is : List (Op × Operands)) (g : Reg → Word) :
    (∀ k ≤ is.length, jitAfter (is.take k) g = vmAfter (is.take k) g) ↔ ShiftsAgree is g := by
  constructor
  · intro hall k i hi
    have hk : k < is.length := (List.getElem?_eq_some_iff.mp hi).1
    have hnext := hall (k + 1) hk
    rw [vmAfter_succ hi, jitAfter_succ hi, hall k (by omega)] at hnext
    exact (jitRegs_eq_iff _ _).mp hnext
  · intro hall k
    induction k with
    | zero => exact fun _ => rfl
    | succ k ih =>
      intro hk
      obtain ⟨i, hi⟩ : ∃ i, is[k]? = some i := ⟨_, List.getElem?_eq_getElem hk⟩
      rw [vmAfter_succ hi, jitAfter_succ hi, ih (by omega)]
      exact (jitRegs_eq_iff _ _).mpr (hall k i hi)

/-- `k` instructions of the interpreter and the native code of these lead to the same
registers. -/
def AgreeAfter (m : Mem) (t : VMThread) (c : Cpu) (is : List (Op × Operands)) (k : Nat) : Prop :=
  ∃ t' c' es, Executes m t k t' ∧ es.map Prod.snd = nativeCode (is.take k) ∧
    Run X86.Step c es c' ∧ SameRegs t'.gpr c'.gpr

/-- The interpreter halts, and the native code gets to the epilogue, with the same registers. -/
def AgreeAtHalt (m : Mem) (t : VMThread) (c : Cpu) (is : List (Op × Operands)) : Prop :=
  ∃ t' t'' c' es, Executes m t is.length t' ∧ Dvm.step none t' m = .halted t'' m ∧
    es.map Prod.snd = nativeCode is ∧ Run X86.Step c es c' ∧
    readBytes c'.mem c'.rip 2 = jitEpilogue.flatten ∧ SameRegs t''.gpr c'.gpr

section

variable {m : Mem} {base : Word} {bcLen : Nat} {is : List (Op × Operands)}

theorem StraightCode.isInt {bc : Nat → Byte} {p : Nat} (h : StraightCode bc bcLen p is) :
    ∀ i ∈ is, i.1.isInt = true := by
  intro i hi
  obtain ⟨k, hk⟩ := List.getElem?_of_mem hi
  exact (h.instrs k i hk).2.1

/-- A run through the native code of the first `k` instructions. -/
theorem run_nativeCode {c : Cpu} (hcode : CodeAt c.mem c.rip (nativeCode is)) (k : Nat) :
    ∃ es, es.map Prod.snd = nativeCode (is.take k) ∧ Run X86.Step c es { c with
      gpr := regsAfter (nativeCode (is.take k)) c.gpr
      rip := c.rip + BitVec.ofNat 64 (code (nativeCode (is.take k))).length } := by
  have hsplit : nativeCode is = nativeCode (is.take k) ++ nativeCode (is.drop k) := by
    rw [← nativeCode_append, List.take_append_drop]
  rw [hsplit] at hcode
  refine run_regs ?_ (codeAt_append.mp hcode).1
  intro i hi
  obtain ⟨x, -, hx⟩ := List.mem_flatMap.mp hi
  exact straightInstrs_isReg x.1 x.2 i hx

theorem agreeAfter_iff (h : StraightCode (bcAt m base) bcLen 0 is) {t : VMThread} {c : Cpu}
    (ht : t.ip = base) (hcode : CodeAt c.mem c.rip (nativeCode is)) (hregs : SameRegs t.gpr c.gpr)
    {k : Nat} (hk : k ≤ is.length) :
    AgreeAfter m t c is k ↔ jitAfter (is.take k) t.gpr = vmAfter (is.take k) t.gpr := by
  have hvm := executes_straight h.instrs (ht.trans (BitVec.add_zero base).symm) hk
  obtain ⟨es, hes, hrun⟩ := run_nativeCode hcode k
  have hjit : SameRegs (jitAfter (is.take k) t.gpr)
      (regsAfter (nativeCode (is.take k)) c.gpr) :=
    regs_nativeCode (fun i hi => h.isInt i (List.mem_of_mem_take hi)) hregs
  constructor
  · rintro ⟨t', c', fs, hvm', hfs, hrun', hsame⟩
    obtain rfl := hvm.deterministic hvm'
    have hlen : es.length = fs.length := by
      rw [← List.length_map (f := Prod.snd), hes, ← hfs, List.length_map]
    obtain ⟨-, rfl⟩ := run_deterministic hrun hrun' hlen
    funext r
    exact (hjit r).symm.trans (hsame r)
  · intro heq
    exact ⟨_, _, es, hvm, hes, hrun, heq ▸ hjit⟩

theorem agreeAtHalt_iff (h : StraightCode (bcAt m base) bcLen 0 is) {t : VMThread} {c : Cpu}
    (ht : t.ip = base) (hregs : SameRegs t.gpr c.gpr)
    (hcode : readBytes c.mem c.rip (code (nativeCode is) ++ jitEpilogue.flatten).length
      = code (nativeCode is) ++ jitEpilogue.flatten) :
    AgreeAtHalt m t c is ↔ jitAfter is t.gpr = vmAfter is t.gpr := by
  rw [List.length_append, readBytes_add] at hcode
  obtain ⟨hbody, hlast⟩ := List.append_inj hcode (length_readBytes _ _ _)
  have hafter := agreeAfter_iff h ht hbody hregs (Nat.le_refl _)
  rw [List.take_length] at hafter
  rw [← hafter]
  constructor
  · rintro ⟨t', t'', c', es, hvm, hhalt, hes, hrun, -, hsame⟩
    have hvm' := executes_straight h.instrs (ht.trans (BitVec.add_zero base).symm) (Nat.le_refl _)
    obtain ⟨u, hu, hgpr⟩ := halts_straight h (t := t') (by rw [hvm.deterministic hvm'])
    rw [hhalt, Outcome.halted.injEq] at hu
    refine ⟨t', c', es, hvm, by rwa [List.take_length], hrun, ?_⟩
    rw [← hgpr, ← hu.1]
    exact hsame
  · rintro ⟨t', c', es, hvm, hes, hrun, hsame⟩
    have hvm' := executes_straight h.instrs (ht.trans (BitVec.add_zero base).symm) (Nat.le_refl _)
    obtain ⟨u, hu, hgpr⟩ := halts_straight h (t := t') (by rw [hvm.deterministic hvm'])
    obtain ⟨fs, hfs, hrun'⟩ := run_nativeCode hbody is.length
    rw [List.take_length] at hes hfs hrun'
    have hlen : es.length = fs.length := by
      rw [← List.length_map (f := Prod.snd), hes, ← hfs, List.length_map]
    obtain ⟨-, rfl⟩ := run_deterministic hrun hrun' hlen
    exact ⟨t', u, _, es, hvm, hu, hes, hrun, hlast, hgpr ▸ hsame⟩

/-- The block compiler compiles every such sequence. -/
theorem compile_straight (env : JitEnv) (h : StraightCode (bcAt m base) bcLen 0 is) :
    ∃ p ctx, jitCompileBlock env (jitCtxNew env (bcAt m base) bcLen) 0 = .ok p ctx ∧
      ctx.code.bytes = code (nativeCode is) ++ jitEpilogue.flatten := by
  obtain ⟨hfst, hsnd⟩ := @scan_straight _ _ _ _ h bcLen (by omega)
  obtain ⟨ctx, hcomp, hbytes⟩ := compile_first env _ _ hsnd
  rw [List.flatten_append, hfst] at hbytes
  exact ⟨_, ctx, hcomp, hbytes⟩

/-- Native code and interpreter agree after each instruction exactly if every shift agrees, and
then also in the end. -/
theorem straight_agrees_iff (env : JitEnv) (h : StraightCode (bcAt m base) bcLen 0 is) :
    ∃ p ctx, jitCompileBlock env (jitCtxNew env (bcAt m base) bcLen) 0 = .ok p ctx ∧
      ∀ (t : VMThread) (c : Cpu), t.ip = base → SameRegs t.gpr c.gpr →
        readBytes c.mem c.rip ctx.code.len = ctx.code.bytes →
        ((∀ k ≤ is.length, AgreeAfter m t c is k) ↔ ShiftsAgree is t.gpr) ∧
          (ShiftsAgree is t.gpr → AgreeAtHalt m t c is) := by
  obtain ⟨p, ctx, hcomp, hbytes⟩ := compile_straight env h
  refine ⟨p, ctx, hcomp, fun t c ht hregs hcode => ?_⟩
  rw [JitBuf.len, hbytes] at hcode
  have hbody := hcode
  rw [List.length_append, readBytes_add] at hbody
  have hbody := (List.append_inj hbody (length_readBytes _ _ _)).1
  constructor
  · rw [← jitAfter_eq_iff]
    exact forall₂_congr fun k hk => agreeAfter_iff h ht hbody hregs hk
  · intro hshifts
    have hall := (jitAfter_eq_iff is t.gpr).mpr hshifts is.length (Nat.le_refl _)
    rw [List.take_length] at hall
    exact (agreeAtHalt_iff h ht hregs hcode).mpr hall

end

/-- A thread at address 0 with 1 in `ax` and `bx`, 0 in the other registers. -/
def onesThread : VMThread :=
  { vmThreadCreate 0 0 0 with gpr := fun r => if r.val < 2 then 1 else 0 }

/-- A processor with the same registers, at this code. -/
def onesCpu (bs : List Byte) : Cpu :=
  ⟨fun r => if r = 0 ∨ r = 3 then 1 else 0, fun _ => 0, 0, writeBytes (fun _ => 0) 0 bs⟩

theorem ones_sameRegs (bs : List Byte) : SameRegs onesThread.gpr (onesCpu bs).gpr := by
  have hval : ∀ r : Reg, (if vm2x86 r = 0 ∨ vm2x86 r = 3 then (1 : Word) else 0)
      = if r.val < 2 then 1 else 0 := by decide
  exact hval

/-- `mov cx, bx`, `shl ax, bx`, `sub bx, ax`, `imul ax, bx` and `HALT`, at address 0. -/
def copyShift : Mem :=
  writeBytes (fun _ => 0) 0 [Op.movRR.code, 0x21, Op.shl.code, 0x01, Op.sub.code, 0x10,
    Op.imul.code, 0x01, Op.halt.code]

def copyShiftInstrs : List (Op × Operands) :=
  [(.movRR, { d := regCx, s := regBx }), (.shl, { d := regAx, s := regBx }),
    (.sub, { d := regBx, s := regAx }), (.imul, { d := regAx, s := regBx })]

/-- A shift by a register that `cx` has been made equal to. -/
theorem straight_agrees_iff_copyShift :
    ∃ p ctx, jitCompileBlock hostEnv (jitCtxNew hostEnv (bcAt copyShift 0) 9) 0 = .ok p ctx ∧
      (∀ k ≤ 4, AgreeAfter copyShift onesThread (onesCpu ctx.code.bytes) copyShiftInstrs k) ∧
      AgreeAtHalt copyShift onesThread (onesCpu ctx.code.bytes) copyShiftInstrs ∧
      vmAfter copyShiftInstrs onesThread.gpr regAx = -2 := by
  have hprog : StraightCode (bcAt copyShift 0) 9 0 copyShiftInstrs :=
    ⟨by decide, rfl, rfl, rfl, by decide, rfl, rfl, rfl, by decide, rfl, rfl, rfl,
      by decide, rfl, rfl, rfl, by decide, rfl⟩
  have hshifts : ShiftsAgree copyShiftInstrs onesThread.gpr := by
    intro k i hi
    match k with
    | 0 | 2 | 3 =>
      cases hi
      exact fun hshift => absurd hshift (by decide)
    | 1 =>
      cases hi
      exact fun _ => .inl rfl
    | k + 4 => cases hi
  obtain ⟨p, ctx, hcomp, hagree⟩ := straight_agrees_iff hostEnv hprog
  obtain ⟨p', ctx', hcomp', hbytes⟩ := compile_straight hostEnv hprog
  rw [hcomp, EStateM.Result.ok.injEq] at hcomp'
  obtain ⟨-, rfl⟩ := hcomp'
  have hcode : readBytes (onesCpu ctx.code.bytes).mem 0 ctx.code.len = ctx.code.bytes :=
    readBytes_writeBytes_self _ _ (by rw [hbytes]; decide)
  obtain ⟨hiff, hhalt⟩ :=
    hagree onesThread (onesCpu ctx.code.bytes) rfl (ones_sameRegs _) hcode
  exact ⟨p, ctx, hcomp, hiff.mpr hshifts, hhalt hshifts, by decide⟩

/-- `shl ax, bx` and `HALT`, at address 0. -/
def shlAx : Mem := writeBytes (fun _ => 0) 0 [Op.shl.code, 0x01, Op.halt.code]

/-- A shift of `ax` by `bx`, which hold 1, with `cx` 0. -/
theorem shift_by_bx_differs : ¬ ∀ (env : JitEnv) (m : Mem) (base : Word) (bcLen : Nat)
    (is : List (Op × Operands)) (p : Word) (ctx : JitCtx) (t : VMThread) (c : Cpu),
    StraightCode (bcAt m base) bcLen 0 is →
    jitCompileBlock env (jitCtxNew env (bcAt m base) bcLen) 0 = .ok p ctx →
    t.ip = base → SameRegs t.gpr c.gpr →
    readBytes c.mem c.rip ctx.code.len = ctx.code.bytes → AgreeAtHalt m t c is := by
  intro hall
  have hprog : StraightCode (bcAt shlAx 0) 3 0 [(.shl, { d := regAx, s := regBx })] :=
    ⟨by decide, rfl, rfl, rfl, by decide, rfl⟩
  obtain ⟨p, ctx, hcomp, hbytes⟩ := compile_straight hostEnv hprog
  have hregs := ones_sameRegs ctx.code.bytes
  have hcode : readBytes (onesCpu ctx.code.bytes).mem 0 ctx.code.len = ctx.code.bytes :=
    readBytes_writeBytes_self _ _ (by rw [hbytes]; decide)
  have hagree := hall hostEnv shlAx 0 3 _ _ ctx onesThread (onesCpu ctx.code.bytes) hprog hcomp rfl
    hregs hcode
  rw [agreeAtHalt_iff hprog rfl hregs (by rw [← hbytes]; exact hcode)] at hagree
  exact absurd (congrFun hagree regAx) (by decide)

end Dvm
