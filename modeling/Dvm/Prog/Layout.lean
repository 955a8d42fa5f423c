/-
# A listing in memory

`encodeProg` gives the instructions of a listing the operands they have when the listing is laid
out from an address on: a label becomes the position of its instruction.  The interpreter on such
code does what the machine of the listing does, one instruction for one, with the instruction
pointer and the shadow stack holding the addresses of the instructions that the machine has by
their numbers (`listStep_conc`).
-/
import Dvm.Vm.Confined
import Dvm.Prog.Machine

namespace Dvm

open Bytes ByteMem Runs

/-! ## 1. Layout -/

section Layout

variable {ν : Type}

/-- Where instruction `k` of a listing begins. -/
def listStart (prog : List (SymInstr ν)) (k : Nat) : Nat :=
  ((prog.take k).map fun i => i.op.size).sum

@[simp] theorem listStart_zero (prog : List (SymInstr ν)) : listStart prog 0 = 0 := rfl

theorem listStart_le (prog : List (SymInstr ν)) (k : Nat) :
    listStart prog k ≤ listStart prog prog.length := by
  have hsplit : prog.take prog.length = prog.take k ++ prog.drop k := by
    rw [List.take_length, List.take_append_drop]
  rw [listStart, listStart, hsplit, List.map_append, List.sum_append]
  omega

end Layout

/-- An instruction of a listing whose instructions begin at `starts`, laid out from `a` on. -/
def SymInstr.encode (a : Word) (starts : Nat → Nat) : SymInstr Nat → Op × Operands
  | .plain op o _ => (op, o)
  | .jump op dest _ => (op, { off := BitVec.ofNat 32 (starts dest) })
  | .call ok err =>
    (.call, { off := BitVec.ofNat 32 (starts ok), err := BitVec.ofNat 32 (starts err) })
  | .callr d err => (.callr, { d := d, off := BitVec.ofNat 32 (starts err) })
  | .ret => (.ret, {})
  | .throw => (.throw, {})
  | .addr d k => (.movRI, { d := d, imm := a + BitVec.ofNat 64 (starts k) })

@[simp] theorem SymInstr.encode_fst (a : Word) (starts : Nat → Nat) (i : SymInstr Nat) :
    (i.encode a starts).1 = i.op := by
  cases i <;> rfl

/-- The instructions of a listing that lies at `a`. -/
def encodeProg (a : Word) (prog : List (SymInstr Nat)) : List (Op × Operands) :=
  prog.map (SymInstr.encode a (listStart prog))

theorem instrStart_encodeProg (a : Word) (prog : List (SymInstr Nat)) (k : Nat) :
    instrStart (encodeProg a prog) k = listStart prog k := by
  rw [instrStart, listStart, encodeProg, ← List.map_take, List.map_map]
  congr 1
  refine List.map_congr_left fun i _ => ?_
  rw [Function.comp_apply, SymInstr.encode_fst]

theorem encodeProg_getElem? {a : Word} {prog : List (SymInstr Nat)} {k : Nat} {i : SymInstr Nat}
    (h : prog[k]? = some i) :
    (encodeProg a prog)[k]? = some (i.encode a (listStart prog)) := by
  rw [encodeProg, List.getElem?_map, h]
  rfl

/-- The address of instruction `k` of a listing that lies at `a`. -/
def instrPlace (a : Word) (prog : List (SymInstr Nat)) (k : Nat) : Word :=
  a + BitVec.ofNat 64 (listStart prog k)

@[simp] theorem instrPlace_zero (a : Word) (prog : List (SymInstr Nat)) :
    instrPlace a prog 0 = a := by
  simp [instrPlace]

theorem listStart_succ {prog : List (SymInstr Nat)} {k : Nat} {i : SymInstr Nat}
    (h : prog[k]? = some i) : listStart prog (k + 1) = listStart prog k + i.op.size := by
  rw [← instrStart_encodeProg 0, ← instrStart_encodeProg 0,
    instrStart_succ (encodeProg_getElem? h), SymInstr.encode_fst]

theorem instrPlace_succ {a : Word} {prog : List (SymInstr Nat)} {k : Nat} {i : SymInstr Nat}
    (h : prog[k]? = some i) :
    instrPlace a prog k + BitVec.ofNat 64 i.op.size = instrPlace a prog (k + 1) := by
  rw [instrPlace, instrPlace, listStart_succ h, BitVec.ofNat_add, BitVec.add_assoc]

/-! ## 2. The thread of a machine state -/

section Conc

variable (place : Nat → Word)

theorem length_frameWords (frames : List (Nat × Nat)) :
    (frames.flatMap fun f => [place f.1, place f.2]).length = 2 * frames.length := by
  induction frames with
  | nil => rfl
  | cons f frames ih =>
    rw [List.flatMap_cons, List.length_append, ih, List.length_cons]
    simp only [List.length_cons, List.length_nil]
    omega

/-- The frames, as the addresses of their instructions. -/
def ListState.shadow (s : ListState) : ShadowStack where
  entries := s.frames.flatMap fun f => [place f.1, place f.2]
  fits := by
    have hfits := s.fits
    rw [length_frameWords]
    unfold frameDepth at hfits
    omega

/-- The thread of the interpreter. -/
def ListState.conc (s : ListState) : VMThread :=
  s.regs.withFlow ⟨place s.pc, s.shadow place, place 0⟩

@[simp] theorem ListState.conc_ip (s : ListState) : (s.conc place).ip = place s.pc := rfl
@[simp] theorem ListState.conc_bytecode (s : ListState) :
    (s.conc place).bytecode = place 0 := rfl
@[simp] theorem ListState.conc_gpr (s : ListState) : (s.conc place).gpr = s.regs.gpr := rfl
@[simp] theorem ListState.conc_fl (s : ListState) : (s.conc place).fl = s.regs.fl := rfl

/-- The outcome of the interpreter; nothing is said where control leaves the listing. -/
def ListOutcome.conc : ListOutcome → Option Outcome
  | .next s m => some (.next (s.conc place) m)
  | .halted s m => some (.halted (s.conc place) m)
  | .aborted why s => some (.aborted why (s.conc place))
  | .exited => some .exited
  | .undefined => some .undefined
  | .stray => none

end Conc

/-! ## 3. Calls and returns -/

section Calls

variable {place : Nat → Word} {s : ListState} {m : Mem}

theorem callTo_of_full {t : VMThread} {dest err : Word}
    (h : t.shadow.entries.length = shadowDepth) :
    callTo t m dest err = .aborted .shadowOverflow t := by
  rw [callTo, spush_eq_none_iff.mpr h]

theorem callTo_of_room {t : VMThread} {dest err : Word} {u : ShadowStack}
    (h : u.entries = t.ip :: err :: t.shadow.entries) :
    callTo t m dest err = .next { t with shadow := u, ip := dest } m := by
  have hfits := u.fits
  rw [h, List.length_cons] at hfits
  have h₁ : spush t.shadow err = some ⟨err :: t.shadow.entries, Nat.le_of_succ_le hfits⟩ :=
    spush_eq_some_iff.mpr rfl
  have h₂ : spush ⟨err :: t.shadow.entries, Nat.le_of_succ_le hfits⟩ t.ip = some u :=
    spush_eq_some_iff.mpr h
  rw [callTo, h₁]
  simp only [h₂]

theorem popFrame_of_empty {t : VMThread} {pick : Word → Word → Word}
    (h : t.shadow.entries = []) : popFrame t m pick = .aborted .shadowUnderflow t := by
  rw [popFrame, spop_eq_none_iff.mpr h]

theorem popFrame_of_frame {t : VMThread} {pick : Word → Word → Word} {ok err : Word}
    {u : ShadowStack} (h : t.shadow.entries = ok :: err :: u.entries) :
    popFrame t m pick = .next { t with shadow := u, ip := pick ok err } m := by
  have hfits := t.shadow.fits
  rw [h, List.length_cons] at hfits
  have h₁ : spop t.shadow = some (ok, ⟨err :: u.entries, Nat.le_of_succ_le hfits⟩) :=
    spop_eq_some_iff.mpr h
  have h₂ : spop ⟨err :: u.entries, Nat.le_of_succ_le hfits⟩ = some (err, u) :=
    spop_eq_some_iff.mpr rfl
  rw [popFrame, h₁]
  simp only [h₂]

/-- A call of the machine is one of the interpreter: frames are whole, so that a full shadow
stack is found full before the first of the two pushes. -/
theorem enter_conc (dest err : Nat) :
    (s.enter dest err m).conc place
      = some (callTo (s.conc place) m (place dest) (place err)) := by
  have hlen := length_frameWords place s.frames
  unfold ListState.enter
  split
  · next h =>
    rw [callTo_of_room (u := ListState.shadow place ⟨dest, (s.pc, err) :: s.frames, s.regs, h⟩) rfl]
    rfl
  · next h =>
    have hfits := s.fits
    rw [callTo_of_full]
    · rfl
    · show (s.frames.flatMap fun f => [place f.1, place f.2]).length = shadowDepth
      rw [hlen]
      unfold frameDepth shadowDepth at *
      omega

theorem unwind_conc (pick : Nat × Nat → Nat) (pick' : Word → Word → Word)
    (hpick : ∀ f : Nat × Nat, pick' (place f.1) (place f.2) = place (pick f)) :
    (s.unwind pick m).conc place = some (popFrame (s.conc place) m pick') := by
  obtain ⟨pc, frames, regs, fits⟩ := s
  cases frames with
  | nil =>
    rw [popFrame_of_empty rfl]
    rfl
  | cons f frames =>
    rw [popFrame_of_frame (u := ListState.shadow place
        ⟨pick f, frames, regs, Nat.le_of_succ_le fits⟩) rfl, hpick]
    rfl

end Calls

/-! ## 4. One step -/

/-- The bytes are those of a listing laid out from `a` on. -/
structure LaidOut (a : Word) (prog : List (SymInstr Nat)) (text : List Byte) : Prop where
  decodes : Decodes text 0 (encodeProg a prog)
  fits : text.length < 2 ^ 32

/-- Code is there in a memory with the same bytes where it lies. -/
theorem TextAt.congr {a : Word} {text : List Byte} {m m' : Mem} (h : TextAt a text m)
    (hfits : text.length < 2 ^ 64) (hsame : ∀ x, InBlock a text.length x → m' x = m x) :
    TextAt a text m' :=
  (readBytes_congr hfits hsame).trans h

theorem textAt_readBytes (m : Mem) (a : Word) (n : Nat) : TextAt a (readBytes m a n) m := by
  rw [TextAt, length_readBytes]

section Step

variable {a : Word} {prog : List (SymInstr Nat)} {text : List Byte}

theorem LaidOut.length (h : LaidOut a prog text) : listStart prog prog.length = text.length := by
  have hlen := h.decodes.length
  rwa [Nat.zero_add, encodeProg, List.length_map, ← encodeProg, instrStart_encodeProg] at hlen

/-- A laid out label leads to its instruction. -/
theorem LaidOut.target (h : LaidOut a prog text) {t : VMThread}
    (ht : t.bytecode = instrPlace a prog 0) (k : Nat) :
    t.target (BitVec.ofNat 32 (listStart prog k)) = instrPlace a prog k := by
  have hle := listStart_le prog k
  have hfits := h.fits
  rw [h.length] at hle
  rw [VMThread.target, ht, instrPlace_zero, instrPlace]
  congr 1
  apply BitVec.eq_of_toNat_eq
  rw [BitVec.toNat_setWidth, BitVec.toNat_ofNat, BitVec.toNat_ofNat,
    Nat.mod_eq_of_lt (by omega : listStart prog k < 2 ^ 32)]

/-- An instruction of the listing, and its handler on the laid out operands. -/
theorem LaidOut.exec_conc (h : LaidOut a prog text) {sys : SysAnswer} {i : SymInstr Nat}
    {s : ListState} {m : Mem} {out : Outcome}
    (hout : (listExec prog.length (instrPlace a prog) sys i s m).conc (instrPlace a prog)
      = some out) :
    exec sys (i.encode a (listStart prog)).1 (i.encode a (listStart prog)).2
      (s.conc (instrPlace a prog)) m = out := by
  have htarget := fun k => h.target (t := s.conc (instrPlace a prog)) rfl k
  cases i with
  | plain op o straight =>
    rw [listExec] at hout
    rw [SymInstr.encode, ListState.conc, exec_straight_withFlow straight]
    cases hexec : exec sys op o s.regs m <;> rw [hexec] at hout <;> exact Option.some.inj hout
  | jump op dest jumps =>
    obtain rfl := Option.some.inj hout
    have hjump : exec sys op { off := BitVec.ofNat 32 (listStart prog dest) }
        (s.conc (instrPlace a prog)) m = .next (if op.taken s.regs.fl then
          { s.conc (instrPlace a prog) with ip := instrPlace a prog dest }
          else s.conc (instrPlace a prog)) m := by
      rw [← htarget dest]
      cases op
      all_goals first
        | cases jumps; done
        | rfl
    rw [SymInstr.encode, hjump]
    split <;> rfl
  | call ok err =>
    rw [listExec, enter_conc] at hout
    rw [← htarget, ← htarget] at hout
    exact Option.some.inj hout
  | callr d err =>
    rw [listExec] at hout
    cases hk : instrAt (instrPlace a prog) prog.length (s.regs.gpr d) with
    | none =>
      rw [hk] at hout
      cases hout
    | some k =>
      rw [hk] at hout
      simp only [enter_conc, place_of_instrAt hk] at hout
      rw [← htarget] at hout
      exact Option.some.inj hout
  | ret =>
    rw [listExec, unwind_conc Prod.fst (fun ok _ => ok) fun _ => rfl] at hout
    exact Option.some.inj hout
  | throw =>
    rw [listExec, unwind_conc Prod.snd (fun _ err => err) fun _ => rfl] at hout
    exact Option.some.inj hout
  | addr d k =>
    obtain rfl := Option.some.inj hout
    rfl

/-- A step of the machine that does not leave the listing is a step of the interpreter. -/
theorem LaidOut.listStep_conc (h : LaidOut a prog text) {m : Mem} (ht : TextAt a text m)
    (sys : SysAnswer) (s : ListState) {out : Outcome}
    (hout : (listStep prog (instrPlace a prog) sys s m).conc (instrPlace a prog) = some out) :
    step sys (s.conc (instrPlace a prog)) m = out := by
  unfold listStep at hout
  cases hi : prog[s.pc]? with
  | none =>
    rw [hi] at hout
    cases hout
  | some i =>
    rw [hi] at hout
    have hdec := h.decodes.decode (encodeProg_getElem? (a := a) hi)
    rw [Nat.zero_add, instrStart_encodeProg] at hdec
    have hfetch := fetchInstr_of_decode ht hdec
    rw [@step_of_fetch sys (s.conc (instrPlace a prog)) m (i.encode a (listStart prog)).1
      (i.encode a (listStart prog)).2 hfetch]
    have hnext : (s.conc (instrPlace a prog)).fetched (i.encode a (listStart prog)).1
        = (s.goto (s.pc + 1)).conc (instrPlace a prog) := by
      rw [SymInstr.encode_fst, VMThread.fetched, ListState.conc_ip, instrPlace_succ hi]
      rfl
    rw [hnext]
    exact h.exec_conc hout

end Step

end Dvm
