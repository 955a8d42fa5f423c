/-
# Comparisons and the branches that follow them

`CMP`, `TEST` and `FCMP` write the flags, the conditional jumps read them, and any number of
other instructions can come in between.  Two arguments meet in `run_branch`.

* **Frame.**  No other instruction writes the flags, so at every point of a run they are those
  of the most recent comparison (`run_flags`).
* **Arithmetic.**  The four bits that `op_cmp` sets for `a` and `b` say how `a` and `b` compare
  (`cmpFlags_zf` and so on), and the jumps combine them to the six signed relations
  (`taken_cmpFlags`).
-/
import Dvm.Vm.Run

namespace Dvm

open ByteMem Runs

/-! ## 1. What the flags of a comparison say -/

/-- Flags from four conditions. -/
def flagWord (z s c o : Bool) : Word :=
  (if z then flZf else 0) ||| (if s then flSf else 0) ||| (if c then flCf else 0) |||
    (if o then flOf else 0)

theorem flagWord_zf : ∀ z s c o, flagWord z s c o &&& flZf ≠ 0 ↔ z = true := by decide
theorem flagWord_sf : ∀ z s c o, flagWord z s c o &&& flSf ≠ 0 ↔ s = true := by decide
theorem flagWord_cf : ∀ z s c o, flagWord z s c o &&& flCf ≠ 0 ↔ c = true := by decide
theorem flagWord_of : ∀ z s c o, flagWord z s c o &&& flOf ≠ 0 ↔ o = true := by decide

theorem flagWord_sf_zf : ∀ z s c o,
    flagWord z s c o &&& (flSf ||| flZf) ≠ 0 ↔ s = true ∨ z = true := by decide

/-- The difference does not fit 64 bits. -/
def SubOverflows (a b : Word) : Prop :=
  a.toInt - b.toInt < -2 ^ 63 ∨ 2 ^ 63 ≤ a.toInt - b.toInt

theorem ssubOverflow_iff {a b : Word} : a.ssubOverflow b = true ↔ SubOverflows a b := by
  simp only [BitVec.ssubOverflow, SubOverflows, Bool.or_eq_true, decide_eq_true_eq]
  omega

/-- The topmost bit, as the source takes it. -/
theorem shiftRight_ne_zero_iff {x : Word} : x >>> 63 ≠ 0 ↔ x.msb = true := by
  have hx := x.isLt
  rw [BitVec.msb_eq_decide, decide_eq_true_eq, ne_eq, ← BitVec.toNat_inj, BitVec.toNat_ushiftRight,
    Nat.shiftRight_eq_div_pow]
  show ¬ x.toNat / 2 ^ 63 = 0 ↔ 2 ^ 63 ≤ x.toNat
  omega

/-- Operands of different sign, and the difference not of the first one's. -/
theorem overflow_bit_iff {a b : Word} :
    ((a ^^^ b) &&& (a ^^^ (a - b))) >>> 63 ≠ 0 ↔ SubOverflows a b := by
  rw [shiftRight_ne_zero_iff, ← ssubOverflow_iff, BitVec.ssubOverflow_eq, BitVec.msb_and,
    BitVec.msb_xor, BitVec.msb_xor]
  cases a.msb <;> cases b.msb <;> cases (a - b).msb <;> decide

theorem cmpFlags_eq (a b : Word) :
    cmpFlags a b = flagWord (decide (a = b)) (a.slt b) (decide (a < b))
      (decide (((a ^^^ b) &&& (a ^^^ (a - b))) >>> 63 ≠ 0)) := by
  simp only [cmpFlags, flagWord, decide_eq_true_eq]

theorem cmpFlags_zf {a b : Word} : cmpFlags a b &&& flZf ≠ 0 ↔ a = b := by
  rw [cmpFlags_eq, flagWord_zf, decide_eq_true_eq]

theorem cmpFlags_sf {a b : Word} : cmpFlags a b &&& flSf ≠ 0 ↔ a.toInt < b.toInt := by
  rw [cmpFlags_eq, flagWord_sf, BitVec.slt_iff_toInt_lt]

theorem cmpFlags_cf {a b : Word} : cmpFlags a b &&& flCf ≠ 0 ↔ a.toNat < b.toNat := by
  rw [cmpFlags_eq, flagWord_cf, decide_eq_true_eq, BitVec.lt_def]

theorem cmpFlags_of {a b : Word} : cmpFlags a b &&& flOf ≠ 0 ↔ SubOverflows a b := by
  rw [cmpFlags_eq, flagWord_of, decide_eq_true_eq, overflow_bit_iff]

theorem cmpFlags_sf_zf {a b : Word} :
    cmpFlags a b &&& (flSf ||| flZf) ≠ 0 ↔ a.toInt ≤ b.toInt := by
  rw [cmpFlags_eq, flagWord_sf_zf, BitVec.slt_iff_toInt_lt, decide_eq_true_eq, ← BitVec.toInt_inj]
  omega

/-! ## 2. The relations the jumps stand for -/

/-- The condition of a jump, on the operands of a `CMP`. -/
def Op.Holds (op : Op) (a b : Word) : Prop :=
  match op with
  | jmp => True
  | je => a = b
  | jne => a ≠ b
  | jl => a.toInt < b.toInt
  | jle => a.toInt ≤ b.toInt
  | jg => b.toInt < a.toInt
  | jge => b.toInt ≤ a.toInt
  | _ => False

theorem taken_cmpFlags (op : Op) (a b : Word) :
    op.taken (cmpFlags a b) = true ↔ op.Holds a b := by
  have hzf : ¬ cmpFlags a b &&& flZf = 0 ↔ a = b := cmpFlags_zf
  have hsf : ¬ cmpFlags a b &&& flSf = 0 ↔ a.toInt < b.toInt := cmpFlags_sf
  have hsz : ¬ cmpFlags a b &&& (flSf ||| flZf) = 0 ↔ a.toInt ≤ b.toInt := cmpFlags_sf_zf
  cases op
  case je => exact decide_eq_true_iff.trans hzf
  case jne => exact decide_eq_true_iff.trans (not_iff_comm.mp hzf).symm
  case jl => exact decide_eq_true_iff.trans hsf
  case jle => exact decide_eq_true_iff.trans hsz
  case jg => exact decide_eq_true_iff.trans ((not_iff_comm.mp hsz).symm.trans Int.not_le)
  case jge => exact decide_eq_true_iff.trans ((not_iff_comm.mp hsf).symm.trans Int.not_lt)
  case jmp => exact iff_of_true rfl trivial
  all_goals exact iff_of_false Bool.false_ne_true id

/-! ## 3. Nothing else writes the flags -/

theorem callTo_fl {t t' : VMThread} {m m' : Mem} {dest err : Word}
    (h : callTo t m dest err = .next t' m') : t'.fl = t.fl := by
  unfold callTo at h
  split at h
  · cases h
  · split at h
    · cases h
    · cases h
      rfl

theorem popFrame_fl {t t' : VMThread} {m m' : Mem} {pick : Word → Word → Word}
    (h : popFrame t m pick = .next t' m') : t'.fl = t.fl := by
  unfold popFrame at h
  split at h
  · cases h
  · split at h
    · cases h
    · cases h
      rfl

theorem exec_fl {sys : SysAnswer} {op : Op} {o : Operands} {t t' : VMThread} {m m' : Mem}
    (hop : op.compares = false) (h : exec sys op o t m = .next t' m') : t'.fl = t.fl := by
  cases hflow : op.flow with
  | straight => exact (exec_straight_frame hflow h).2 hop
  | jump =>
    rw [exec_jump_eq hflow h]
    split
    · rfl
    · rfl
  | call | callr =>
    cases op
    all_goals first
      | cases hflow; done
      | exact callTo_fl h
  | ret | throw =>
    cases op
    all_goals first
      | cases hflow; done
      | exact popFrame_fl h

/-- The event is a comparison. -/
def Event.Compares : Event → Prop
  | .exec op _ _ _ => op.compares = true
  | .host => False

/-- A step that is no comparison keeps the flags: whatever is done to memory, or answered to a
system call. -/
theorem step_fl {s s' : VMState} {e : Event} (hs : Step s e s') (he : ¬ e.Compares) :
    s'.1.fl = s.1.fl := by
  cases hs with
  | host m' => rfl
  | @exec t t' m m' op o sys hfetch hstep =>
    rw [step_of_fetch hfetch] at hstep
    have hfl : t'.fl = (t.fetched op).fl := exec_fl (Bool.eq_false_iff.mpr he) hstep
    exact hfl

/-- A `CMP` leaves the flags of its two registers. -/
theorem step_cmp {s s' : VMState} {o : Operands} {t t' : VMThread}
    (hs : Step s (.exec .cmp o t t') s') : s'.1.fl = cmpFlags (t.gpr o.d) (t.gpr o.s) := by
  cases hs with
  | exec sys hfetch hstep =>
    rw [step_of_fetch hfetch] at hstep
    cases hstep
    rfl

/-- **The flags are those of the most recent comparison.** -/
theorem run_flags {s₀ s : VMState} {es : List Event} (h : Run Step s₀ es s) :
    ∀ before o t t' between, es = before ++ .exec .cmp o t t' :: between →
      (∀ e ∈ between, ¬ e.Compares) → s.1.fl = cmpFlags (t.gpr o.d) (t.gpr o.s) := by
  refine Run.invariant (I := fun es s => ∀ before o t t' between,
    es = before ++ .exec .cmp o t t' :: between → (∀ e ∈ between, ¬ e.Compares) →
      s.1.fl = cmpFlags (t.gpr o.d) (t.gpr o.s)) ?_ ?_ h
  · intro before o t t' between heq
    simp at heq
  · intro es s e s' _ ih hs before o t t' between heq hquiet
    rcases List.eq_nil_or_concat between with rfl | ⟨between', e', rfl⟩
    · obtain ⟨-, hlast⟩ := List.append_inj' heq rfl
      obtain rfl := (List.cons.inj hlast).1
      exact step_cmp hs
    · rw [List.concat_eq_append, ← List.cons_append, ← List.append_assoc] at heq
      obtain ⟨hes, hlast⟩ := List.append_inj' heq rfl
      obtain rfl := (List.cons.inj hlast).1
      rw [List.concat_eq_append] at hquiet
      rw [step_fl hs (hquiet e (by simp))]
      exact ih before o t t' between' hes fun e' he' => hquiet e' (by simp [he'])

/-! ## 4. Compare and branch -/

/-- What a jump with the operands `o` does from `t` to `t'` when `a` and `b` were compared, and
what the flags say about them then. -/
structure BranchesOn (a b : Word) (op : Op) (o : Operands) (t t' : VMThread) : Prop where
  taken : op.Holds a b → t'.ip = t.target o.off
  passed : ¬ op.Holds a b → t'.ip = t.ip + BitVec.ofNat 64 op.size
  test : op.taken t.fl = true ↔ op.Holds a b
  carry : t.fl &&& flCf ≠ 0 ↔ a.toNat < b.toNat
  overflow : t.fl &&& flOf ≠ 0 ↔ SubOverflows a b

theorem step_branch {s s' : VMState} {op : Op} {o : Operands} {t t' : VMThread} {a b : Word}
    (hs : Step s (.exec op o t t') s') (hop : op.flow = .jump) (hfl : s.1.fl = cmpFlags a b) :
    BranchesOn a b op o t t' := by
  cases hs with
  | @exec t t' m m' op o sys hfetch hstep =>
    have hfl : t.fl = cmpFlags a b := hfl
    have htaken : op.taken t.fl = true ↔ op.Holds a b := by rw [hfl, taken_cmpFlags]
    rw [step_of_fetch hfetch] at hstep
    have hip := (exec_jump hop hstep).1
    rw [VMThread.fetched_fl] at hip
    refine ⟨?_, ?_, htaken, by rw [hfl, cmpFlags_cf], by rw [hfl, cmpFlags_of]⟩
    · intro hholds
      rw [hip, if_pos (htaken.mpr hholds)]
      rfl
    · intro hholds
      rw [hip, if_neg (mt htaken.mp hholds)]
      rfl

/-- In every run, a jump whose most recent comparison was a `CMP` is taken exactly if the
compared values are in its relation, whatever was executed in between. -/
theorem run_branch {s₀ s : VMState} {es : List Event} (h : Run Step s₀ es s) :
    ∀ before oc c c' between op o t t' after,
      es = before ++ .exec .cmp oc c c' :: between ++ .exec op o t t' :: after →
      (∀ e ∈ between, ¬ e.Compares) → op.flow = .jump →
        BranchesOn (c.gpr oc.d) (c.gpr oc.s) op o t t' := by
  intro before oc c c' between op o t t' after heq hquiet hop
  refine Run.event (P := fun pre e => ∀ op o t t', e = .exec op o t t' → op.flow = .jump →
    ∀ before oc c c' between, pre = before ++ .exec .cmp oc c c' :: between →
      (∀ e ∈ between, ¬ e.Compares) → BranchesOn (c.gpr oc.d) (c.gpr oc.s) op o t t')
    ?_ h _ _ after heq op o t t' rfl hop before oc c c' between rfl hquiet
  intro pre s₁ e s₂ hrun hs op o t t' he hop before oc c c' between hpre hquiet
  subst he
  exact step_branch hs hop (run_flags hrun before oc c c' between hpre hquiet)

/-- Two equal registers compared, the stack used, then a jump on greater or equal. -/
def cmpThenJump : List Byte :=
  [Op.cmp.code, 0x01, Op.push.code, 0x00, Op.jge.code, 2, 0, 0, 0]

theorem run_branch_cmpThenJump :
    ∃ o t t', t'.ip = 0x1002 ∧ BranchesOn 0 0 .jge o t t' := by
  have hcmp : Run Step
      (freshThread 0x8000 0x1000 0x100, writeBytes (fun _ => 0) 0x1000 cmpThenJump) _ _ :=
    .next .start (.exec none rfl rfl)
  have hpush := hcmp.next (.exec none rfl rfl)
  have hjump := hpush.next (.exec none rfl rfl)
  refine ⟨_, _, _, ?_, run_branch hjump [] _ _ _ [_] .jge _ _ _ [] rfl ?_ rfl⟩
  · rfl
  · intro e he
    rw [List.mem_singleton.mp he]
    exact Bool.false_ne_true

end Dvm
