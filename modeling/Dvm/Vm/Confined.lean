/-
# Code that control does not leave

The interpreter indexes its table of handlers by the byte at `ip` without a check.  `ClosedCode`
is what makes that safe for a code section: all its jump and call operands are starts of
instructions, it does not use `CALLR`, and nothing falls through its end.  Then every
instruction pointer of every run is the start of an instruction (`run_confined`), as long as the
code itself is not overwritten.
-/
import Dvm.Vm.Run

namespace Dvm

open Bytes ByteMem Runs

/-! ## 1. Closed code -/

/-- A code offset at which an instruction begins. -/
def IsStart (is : List (Op × Operands)) (o : BitVec 32) : Prop :=
  ∃ k, k < is.length ∧ o = BitVec.ofNat 32 (instrStart is k)

/-- The opcodes behind which control does not go on. -/
def Op.ends (op : Op) : Bool :=
  match op with
  | halt | jmp | ret | throw => true
  | _ => false

structure ClosedCode (text : List Byte) (is : List (Op × Operands)) : Prop where
  decodes : Decodes text 0 is
  fits : text.length < 2 ^ 32
  nonempty : 0 < is.length
  noCallr : ∀ i ∈ is, i.1 ≠ .callr
  last : ∀ k i, is[k]? = some i → k + 1 = is.length → i.1.ends
  jumps : ∀ i ∈ is, i.1.flow = .jump → IsStart is i.2.off
  calls : ∀ i ∈ is, i.1 = .call → IsStart is i.2.off ∧ IsStart is i.2.err

/-- The code lies at `a`. -/
def TextAt (a : Word) (text : List Byte) (m : Mem) : Prop := readBytes m a text.length = text

/-- A step that does not overwrite the code. -/
def KeepsText (a : Word) (text : List Byte) (s : VMState) (e : Event) (s' : VMState) : Prop :=
  Step s e s' ∧ TextAt a text s'.2

/-- The address of the start of an instruction. -/
def IsInstrAddr (a : Word) (is : List (Op × Operands)) (w : Word) : Prop :=
  ∃ k, k < is.length ∧ w = a + BitVec.ofNat 64 (instrStart is k)

/-- The interpreter is at the start of an instruction, inside the code, and fetches it. -/
def AtInstr (a : Word) (text : List Byte) (is : List (Op × Operands)) (s : VMState) : Prop :=
  ∃ k i, is[k]? = some i ∧ s.1.ip = a + BitVec.ofNat 64 (instrStart is k) ∧
    instrStart is k + i.1.size ≤ text.length ∧ fetchInstr s.2 s.1.ip = some i

/-! ## 2. Fetching from closed code -/

/-- What is decoded in the code is fetched from memory. -/
theorem fetchInstr_of_decode {a : Word} {text : List Byte} {m : Mem} (ht : TextAt a text m)
    {p : Nat} {i : Op × Operands} (hd : decode text p = some i) :
    fetchInstr m (a + BitVec.ofNat 64 p) = some i := by
  obtain ⟨op, o⟩ := i
  obtain ⟨hop, hfit, rfl⟩ := decode_fits hd
  unfold Op.size at hfit
  unfold TextAt at ht
  have hbyte : text[p]? = some (m (a + BitVec.ofNat 64 p)) := by
    have hget := getElem?_readBytes m a (n := text.length) (i := p) (by omega)
    rwa [ht] at hget
  rw [hbyte, Option.bind_some] at hop
  have hops : readBytes m (a + BitVec.ofNat 64 p + 1) op.shape.size
      = field text (p + 1) op.shape.size := by
    have hsub := readBytes_sub m a (n := text.length) (p := p + 1) (k := op.shape.size) (by omega)
    rwa [ht, BitVec.ofNat_add, ← BitVec.add_assoc] at hsub
  rw [fetchInstr, hop, Option.map_some, hops]

section Closed

variable {a : Word} {text : List Byte} {is : List (Op × Operands)}

theorem ClosedCode.start_fits (h : ClosedCode text is) {k : Nat} {i : Op × Operands}
    (hk : is[k]? = some i) : instrStart is k + i.1.size ≤ text.length := by
  have hd := h.decodes.decode hk
  rw [Nat.zero_add] at hd
  exact (decode_fits hd).2.1

theorem ClosedCode.fetch (h : ClosedCode text is) {m : Mem} (ht : TextAt a text m) {k : Nat}
    {i : Op × Operands} (hk : is[k]? = some i) :
    fetchInstr m (a + BitVec.ofNat 64 (instrStart is k)) = some i := by
  have hd := h.decodes.decode hk
  rw [Nat.zero_add] at hd
  exact fetchInstr_of_decode ht hd

/-- An operand that is the start of an instruction leads to one. -/
theorem ClosedCode.target (h : ClosedCode text is) {t : VMThread} (ht : t.bytecode = a)
    {o : BitVec 32} (ho : IsStart is o) : IsInstrAddr a is (t.target o) := by
  obtain ⟨k, hk, rfl⟩ := ho
  have hfit := h.start_fits (List.getElem?_eq_getElem hk)
  have hlt := h.fits
  refine ⟨k, hk, ?_⟩
  rw [VMThread.target, ht]
  congr 1
  apply BitVec.eq_of_toNat_eq
  rw [BitVec.toNat_setWidth, BitVec.toNat_ofNat, BitVec.toNat_ofNat,
    Nat.mod_eq_of_lt (by omega : instrStart is k < 2 ^ 32)]

/-! ## 3. Runs -/

/-- The instruction pointer and all return and error targets are starts of instructions. -/
structure Confined (a : Word) (text : List Byte) (is : List (Op × Operands)) (s : VMState) :
    Prop where
  ip : IsInstrAddr a is s.1.ip
  shadow : ∀ w ∈ s.1.shadow.entries, IsInstrAddr a is w
  bytecode : s.1.bytecode = a
  text : TextAt a text s.2

/-- An opcode that ends the code's control flow does not go on straight. -/
theorem exec_next_ends {sys : SysAnswer} {op : Op} {o : Operands} {t t' : VMThread} {m m' : Mem}
    (h : exec sys op o t m = .next t' m') (hends : op.ends) :
    op = .jmp ∨ op = .ret ∨ op = .throw := by
  cases op
  case halt => cases h
  case jmp => exact .inl rfl
  case ret => exact .inr (.inl rfl)
  case throw => exact .inr (.inr rfl)
  all_goals cases hends

/-- Behind an instruction there is another one, unless control does not get there. -/
theorem ClosedCode.next (h : ClosedCode text is) {k : Nat} {op : Op} {o : Operands}
    {t t' : VMThread} {m m' : Mem} {sys : SysAnswer} (hi : is[k]? = some (op, o))
    (hip : t.ip = a + BitVec.ofNat 64 (instrStart is k))
    (hstep : exec sys op o (t.fetched op) m = .next t' m') (hjmp : op ≠ .jmp) (hret : op ≠ .ret)
    (hthrow : op ≠ .throw) : IsInstrAddr a is (t.fetched op).ip := by
  have hends : ¬ op.ends := by
    intro hends
    rcases exec_next_ends hstep hends with hop | hop | hop
    · exact hjmp hop
    · exact hret hop
    · exact hthrow hop
  have hlt := (List.getElem?_eq_some_iff.mp hi).1
  have hne : k + 1 ≠ is.length := fun hlast => hends (h.last k _ hi hlast)
  refine ⟨k + 1, by omega, ?_⟩
  rw [VMThread.fetched_ip, hip, instrStart_succ hi, BitVec.ofNat_add, BitVec.add_assoc]

theorem Confined.exec (h : ClosedCode text is) {t t' : VMThread} {m m' : Mem} {op : Op}
    {o : Operands} {sys : SysAnswer} (hc : Confined a text is (t, m))
    (hfetch : fetchInstr m t.ip = some (op, o)) (hstep : step sys t m = .next t' m')
    (ht' : TextAt a text m') : Confined a text is (t', m') := by
  obtain ⟨⟨k, hk, hip⟩, hshadow, hbase, htext⟩ := hc
  have hbase : t.bytecode = a := hbase
  have hip : t.ip = a + BitVec.ofNat 64 (instrStart is k) := hip
  have hi : is[k]? = some (op, o) := by
    rw [List.getElem?_eq_getElem hk, ← h.fetch htext (List.getElem?_eq_getElem hk), ← hip, hfetch]
  have hmem := List.mem_of_getElem? hi
  rw [step_of_fetch hfetch] at hstep
  have hnext := h.next hi hip hstep
  have hpop : ∀ {ok err : Word}, t.shadow.entries = ok :: err :: t'.shadow.entries →
      IsInstrAddr a is ok ∧ IsInstrAddr a is err ∧
        ∀ w ∈ t'.shadow.entries, IsInstrAddr a is w := by
    intro ok err hent
    have hall : ∀ w ∈ t.shadow.entries, IsInstrAddr a is w := hshadow
    rw [hent, List.forall_mem_cons, List.forall_mem_cons] at hall
    exact hall
  rcases exec_cases hstep with ⟨hflow, hsame⟩ | ⟨hflow, hip', hsh, hbc⟩ | ⟨rfl, hent, hip', hbc⟩ |
    ⟨rfl, -, -, -⟩ | ⟨rfl, ok, err, hent, hip', hbc⟩ | ⟨rfl, ok, err, hent, hip', hbc⟩
  · have hnew : IsInstrAddr a is t'.ip := by
      rw [hsame.ip]
      refine hnext ?_ ?_ ?_
      all_goals
        rintro rfl
        cases hflow
    have hsh : ∀ w ∈ t'.shadow.entries, IsInstrAddr a is w := by
      rw [hsame.shadow]
      exact hshadow
    exact ⟨hnew, hsh, hsame.bytecode.trans hbase, ht'⟩
  · have hnew : IsInstrAddr a is t'.ip := by
      rw [hip']
      split
      · exact h.target hbase (h.jumps _ hmem hflow)
      · next hnot =>
        refine hnext ?_ ?_ ?_
        · rintro rfl
          exact hnot rfl
        · rintro rfl
          cases hflow
        · rintro rfl
          cases hflow
    have hsh' : ∀ w ∈ t'.shadow.entries, IsInstrAddr a is w := by
      rw [hsh]
      exact hshadow
    exact ⟨hnew, hsh', hbc.trans hbase, ht'⟩
  · obtain ⟨hok, herr⟩ := h.calls _ hmem rfl
    have hnew : IsInstrAddr a is t'.ip := by
      rw [hip']
      exact h.target hbase hok
    have hret : IsInstrAddr a is (t.fetched .call).ip := by
      refine hnext ?_ ?_ ?_
      all_goals exact Op.noConfusion
    have hsh : ∀ w ∈ t'.shadow.entries, IsInstrAddr a is w := by
      rw [hent, List.forall_mem_cons, List.forall_mem_cons]
      exact ⟨hret, h.target hbase herr, hshadow⟩
    exact ⟨hnew, hsh, hbc.trans hbase, ht'⟩
  · exact absurd rfl (h.noCallr _ hmem)
  · obtain ⟨hok, -, hrest⟩ := hpop hent
    have hnew : IsInstrAddr a is t'.ip := hip' ▸ hok
    exact ⟨hnew, hrest, hbc.trans hbase, ht'⟩
  · obtain ⟨-, herr, hrest⟩ := hpop hent
    have hnew : IsInstrAddr a is t'.ip := hip' ▸ herr
    exact ⟨hnew, hrest, hbc.trans hbase, ht'⟩

/-- In every run from the start of closed code, the interpreter is always at an instruction. -/
theorem run_confined (h : ClosedCode text is) {vmStack stackSize : Word} {m₀ : Mem}
    (ht : TextAt a text m₀) {es : List Event} {s : VMState}
    (hrun : Run (KeepsText a text) (vmRun vmStack a stackSize, m₀) es s) :
    AtInstr a text is s := by
  have hconf : Confined a text is s := by
    refine Run.invariant (I := fun _ s => Confined a text is s) ?_ ?_ hrun
    · refine ⟨⟨0, h.nonempty, ?_⟩, fun w hw => (List.not_mem_nil hw).elim, rfl, ht⟩
      exact (BitVec.add_zero a).symm
    · rintro es s e s' - hI ⟨hs, ht'⟩
      cases hs with
      | host m' => exact ⟨hI.ip, hI.shadow, hI.bytecode, ht'⟩
      | exec sys hfetch hstep => exact hI.exec h hfetch hstep ht'
  obtain ⟨k, hk, hip⟩ := hconf.ip
  refine ⟨k, is[k], List.getElem?_eq_getElem hk, hip,
    h.start_fits (List.getElem?_eq_getElem hk), ?_⟩
  rw [hip]
  exact h.fetch hconf.text (List.getElem?_eq_getElem hk)

end Closed

end Dvm
