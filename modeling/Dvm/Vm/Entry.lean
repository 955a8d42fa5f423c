/-
# Runs that do not start at the beginning of the code

A loaded program is entered at `code + entry_offset`, a spawned thread at the address the guest
passes.  Either way the address becomes the thread's bytecode pointer, and that is what jump,
call and error operands are added to, while the assembler and the linker made them offsets in
the code section.  `operandsAbsolute_iff` is what follows: the operands mean what they say only
in runs that start at offset 0, or that never use one.
-/
import Dvm.Load
import Dvm.Vm.Run

namespace Dvm

open ByteMem Runs

/-! ## 1. How a thread is started -/

/-- The thread `cmd_run` runs: `vm_run(loaded.code + loaded.entry_offset, 1<<20)`. -/
def cmdRun (vmStack : Word) (l : DvmLoaded) : Option VMThread :=
  l.code.map fun code => vmRun vmStack (code + l.entryOffset.setWidth 64) (1 <<< 20)

/-- The child of `DVM_SYS_THREAD_SPAWN` with arguments `a1` and `a2`. -/
def threadSpawn (vmStack a1 a2 : Word) : VMThread :=
  vmThreadCreate vmStack a1 (if a2 ≠ 0 then a2 else 64 * 1024)

/-- The thread is started at offset `e` of the code section of a loaded program. -/
inductive StartedAt (l : DvmLoaded) : Word → VMThread → Prop
  | run (vmStack : Word) {t : VMThread} : cmdRun vmStack l = some t →
      l.entryOffset.toNat < l.codeLen → StartedAt l (l.entryOffset.setWidth 64) t
  | spawn {vmStack code e a2 : Word} : l.code = some code → e.toNat < l.codeLen →
      StartedAt l e (threadSpawn vmStack (code + e) a2)

theorem StartedAt.bytecode {l : DvmLoaded} {code e : Word} {t : VMThread}
    (h : StartedAt l e t) (hcode : l.code = some code) : t.bytecode = code + e := by
  cases h with
  | run vmStack hrun _ =>
    rw [cmdRun, hcode, Option.map_some, Option.some.injEq] at hrun
    rw [← hrun]
    rfl
  | spawn hcode' _ =>
    rw [hcode, Option.some.injEq] at hcode'
    rw [hcode']
    rfl

/-- A loaded program has its code where it was mapped. -/
theorem dvmLoad_code_mapped {maps : LoadMaps} {m m' : Mem} {p : DvmProg} {l : DvmLoaded}
    (h : dvmLoad maps m p = .ok (l, m')) : l.code = some maps.code := by
  obtain ⟨hcode, -, rfl, -⟩ := dvmLoad_ok_iff.mp h
  exact if_neg (fun hlen => hcode (List.eq_nil_of_length_eq_zero hlen))

/-! ## 2. Operands as offsets in the code section -/

/-- The event takes a jump or calls, so it uses a code operand. -/
def Event.UsesOperand : Event → Prop
  | .exec op _ before _ => (op.flow = .jump ∧ op.taken before.fl) ∨ op = .call ∨ op = .callr
  | .host => False

/-- Control goes to, or the shadow stack records, the operand as an offset from `code`. -/
def Event.Absolute (code : Word) : Event → Prop
  | .exec op o before after =>
    (op.flow = .jump → op.taken before.fl → after.ip = code + o.off.setWidth 64) ∧
    (op = .call → after.ip = code + o.off.setWidth 64 ∧
      after.shadow.entries[1]? = some (code + o.err.setWidth 64)) ∧
    (op = .callr → after.shadow.entries[1]? = some (code + o.off.setWidth 64))
  | .host => True

/-- Every operand used in a run means an offset in the code section. -/
def OperandsAbsolute (code : Word) (es : List Event) : Prop := ∀ e ∈ es, e.Absolute code

/-! ## 3. Operands count from the bytecode pointer -/

/-- An instruction that is no jump and no call uses no operand as an offset. -/
theorem Event.absolute_of_flow {op : Op} {o : Operands} {t t' : VMThread} {code : Word}
    (hj : op.flow ≠ .jump) (hc : op ≠ .call) (hr : op ≠ .callr) :
    (Event.exec op o t t').Absolute code :=
  ⟨fun h => absurd h hj, fun h => absurd h hc, fun h => absurd h hr⟩

/-- A step adds the operands it uses to the bytecode pointer, and keeps that. -/
theorem step_absolute {base : Word} {s s' : VMState} {e : Event} (hs : Step s e s')
    (h : s.1.bytecode = base) : s'.1.bytecode = base ∧ e.Absolute base := by
  cases hs with
  | host m' => exact ⟨h, trivial⟩
  | @exec t t' m m' op o sys hfetch hstep =>
    have h : t.bytecode = base := h
    rw [step_of_fetch hfetch] at hstep
    rcases exec_cases hstep with ⟨hflow, hsame⟩ | ⟨hflow, hip, -, hbc⟩ | ⟨rfl, hent, hip, hbc⟩ |
      ⟨rfl, hent, -, hbc⟩ | ⟨rfl, ok, err, -, -, hbc⟩ | ⟨rfl, ok, err, -, -, hbc⟩
    · refine ⟨hsame.bytecode.trans h, Event.absolute_of_flow ?_ ?_ ?_⟩
      · rw [hflow]
        exact Flow.noConfusion
      · rintro rfl
        cases hflow
      · rintro rfl
        cases hflow
    · refine ⟨hbc.trans h, ?_, ?_, ?_⟩
      · intro _ htaken
        rw [hip, VMThread.fetched_fl, if_pos htaken, ← h]
        rfl
      · rintro rfl
        cases hflow
      · rintro rfl
        cases hflow
    · refine ⟨hbc.trans h, Flow.noConfusion, ?_, Op.noConfusion⟩
      intro _
      rw [hip, hent, ← h]
      exact ⟨rfl, rfl⟩
    · refine ⟨hbc.trans h, Flow.noConfusion, Op.noConfusion, ?_⟩
      intro _
      rw [hent, ← h]
      rfl
    · exact ⟨hbc.trans h, Event.absolute_of_flow Flow.noConfusion Op.noConfusion Op.noConfusion⟩
    · exact ⟨hbc.trans h, Event.absolute_of_flow Flow.noConfusion Op.noConfusion Op.noConfusion⟩

/-- Over a whole run every operand counts from the bytecode pointer the thread started with. -/
theorem run_absolute {base : Word} {t : VMThread} {m₀ : Mem} {es : List Event} {s : VMState}
    (ht : t.bytecode = base) (hrun : Run Step (t, m₀) es s) : OperandsAbsolute base es := by
  have hinv : s.1.bytecode = base ∧ OperandsAbsolute base es := by
    refine Run.invariant (I := fun es s => s.1.bytecode = base ∧ OperandsAbsolute base es) ?_ ?_
      hrun
    · exact ⟨ht, fun e he => by cases he⟩
    · intro es s e s' _ hI hs
      obtain ⟨hbase, habs⟩ := step_absolute hs hI.1
      refine ⟨hbase, ?_⟩
      intro e' he'
      rcases List.mem_append.mp he' with he' | he'
      · exact hI.2 e' he'
      · rw [List.mem_singleton.mp he']
        exact habs
  exact hinv.2

/-- One operand that is used determines what the operands count from. -/
theorem Event.base_unique {e : Event} {base code : Word} (huse : e.UsesOperand)
    (hb : e.Absolute base) (hc : e.Absolute code) : base = code := by
  cases e with
  | host => cases huse
  | exec op o before after =>
    have hcancel : ∀ x : Word, base + x = code + x → base = code := fun x =>
      (BitVec.add_left_inj x).mp
    rcases huse with ⟨hj, htaken⟩ | hop | hop
    · exact hcancel _ ((hb.1 hj htaken).symm.trans (hc.1 hj htaken))
    · exact hcancel _ ((hb.2.1 hop).1.symm.trans (hc.2.1 hop).1)
    · have h := (hb.2.2 hop).symm.trans (hc.2.2 hop)
      exact hcancel _ (Option.some.inj h)

/-- An event that uses no operand is absolute with respect to anything. -/
theorem Event.absolute_of_not_uses {e : Event} {code : Word} (h : ¬ e.UsesOperand) :
    e.Absolute code := by
  cases e with
  | host => trivial
  | exec op o before after =>
    refine ⟨?_, ?_, ?_⟩
    · intro hj htaken
      exact absurd (.inl ⟨hj, htaken⟩) h
    · intro hop
      exact absurd (.inr (.inl hop)) h
    · intro hop
      exact absurd (.inr (.inr hop)) h

/-- In a run of a loaded program from offset `e`, the operands are offsets in the code section
exactly if `e` is 0 or the run uses none. -/
theorem operandsAbsolute_iff {maps : LoadMaps} {m m' m₀ : Mem} {p : DvmProg} {l : DvmLoaded}
    (hload : dvmLoad maps m p = .ok (l, m')) {e : Word} {t : VMThread} (hstart : StartedAt l e t)
    {es : List Event} {s : VMState} (hrun : Run Step (t, m₀) es s) :
    OperandsAbsolute maps.code es ↔ e = 0 ∨ ∀ ev ∈ es, ¬ ev.UsesOperand := by
  have hbase := run_absolute (hstart.bytecode (dvmLoad_code_mapped hload)) hrun
  constructor
  · intro habs
    by_contra hno
    obtain ⟨hne, huse⟩ := not_or.mp hno
    push Not at huse
    obtain ⟨ev, hev, huse⟩ := huse
    have heq := Event.base_unique huse (hbase ev hev) (habs ev hev)
    exact hne (by simpa using heq)
  · intro hcond ev hev
    have h := hbase ev hev
    rcases hcond with rfl | hno
    · exact BitVec.add_zero maps.code ▸ h
    · exact Event.absolute_of_not_uses (hno ev hev)

/-- A program that jumps to offset 0 from offset 0 and from offset 5. -/
def jumpTwice (entry : BitVec 32) : DvmProg where
  code := [Op.jmp.code, 0, 0, 0, 0, Op.jmp.code, 0, 0, 0, 0]
  entryOffset := entry

theorem operandsAbsolute_at_zero :
    ∃ l m' t es s, dvmLoad ⟨0x1000, 0x2000, 0x3000⟩ (fun _ => 0) (jumpTwice 0) = .ok (l, m') ∧
      StartedAt l 0 t ∧ Run Step (t, m') es s ∧ s.1.ip = 0x3000 ∧
      OperandsAbsolute 0x3000 es := by
  obtain ⟨l, m', t, es, s, hload, hstart, hrun, hip⟩ :
      ∃ l m' t es s, dvmLoad ⟨0x1000, 0x2000, 0x3000⟩ (fun _ => 0) (jumpTwice 0) = .ok (l, m') ∧
        StartedAt l 0 t ∧ Run Step (t, m') es s ∧ s.1.ip = 0x3000 := by
    refine ⟨_, _, vmRun 0x8000 0x3000 (1 <<< 20), _, _, rfl, ?_,
      .next .start (.exec none rfl rfl), ?_⟩
    · exact .run 0x8000 rfl (by decide)
    · rfl
  exact ⟨l, m', t, es, s, hload, hstart, hrun, hip,
    (operandsAbsolute_iff hload hstart hrun).mpr (.inl rfl)⟩

/-- Entered at offset 5, the jump to offset 0 goes to offset 5 instead. -/
theorem operand_counts_from_entry :
    ∃ l m' t es s, dvmLoad ⟨0x1000, 0x2000, 0x3000⟩ (fun _ => 0) (jumpTwice 5) = .ok (l, m') ∧
      StartedAt l 5 t ∧ Run Step (t, m') es s ∧ s.1.ip = 0x3005 ∧
      ¬ OperandsAbsolute 0x3000 es := by
  refine ⟨_, _, vmRun 0x8000 0x3005 (1 <<< 20), _, _, rfl, ?_,
    .next .start (.exec none rfl rfl), ?_, ?_⟩
  · exact .run 0x8000 rfl (by decide)
  · rfl
  · intro h
    have hip := (h _ (List.mem_singleton_self _)).1 rfl rfl
    revert hip
    decide

end Dvm
