/-
# The shadow stack over whole runs

`pending` reads the calls that wait for their return off the history of a run, as brackets are
matched: `CALL` and `CALLR` open a frame, `RET` and `THROW` close the most recent one.  It does
not look at the thread's shadow stack.  The discipline is that the two agree at every
instruction boundary of every run (`run_shadow`), and that the interpreter never pushes or pops
half a frame.
-/
import Dvm.Vm.Run

namespace Dvm

open ByteMem Runs

/-! ## 1. The calls waiting for their return -/

/-- Where a call goes on after a throw, and where after a return. -/
structure Frame where
  err : Word
  ok : Word
  deriving DecidableEq

/-- The waiting calls, the most recent first, after one more event.  `base` is the thread's
bytecode pointer. -/
def pendingStep (base : Word) (fs : List Frame) : Event → List Frame
  | .exec .call o before _ =>
    ⟨base + o.err.setWidth 64, before.ip + BitVec.ofNat 64 Op.call.size⟩ :: fs
  | .exec .callr o before _ =>
    ⟨base + o.off.setWidth 64, before.ip + BitVec.ofNat 64 Op.callr.size⟩ :: fs
  | .exec .ret _ _ _ => fs.tail
  | .exec .throw _ _ _ => fs.tail
  | _ => fs

def pending (base : Word) (es : List Event) : List Frame := es.foldl (pendingStep base) []

theorem pending_snoc (base : Word) (es : List Event) (e : Event) :
    pending base (es ++ [e]) = pendingStep base (pending base es) e := by
  rw [pending, List.foldl_append]
  rfl

/-- The shadow stack entries of waiting calls, top first. -/
def shadowOf (fs : List Frame) : List Word := fs.flatMap fun f => [f.ok, f.err]

@[simp] theorem shadowOf_cons (f : Frame) (fs : List Frame) :
    shadowOf (f :: fs) = f.ok :: f.err :: shadowOf fs := rfl

theorem length_shadowOf (fs : List Frame) : (shadowOf fs).length = 2 * fs.length := by
  induction fs with
  | nil => rfl
  | cons f fs ih =>
    rw [shadowOf_cons, List.length_cons, List.length_cons, List.length_cons, ih]
    omega

/-- A frame on top of the shadow stack is the most recent waiting call. -/
theorem shadowOf_eq_cons {fs : List Frame} {ok err : Word} {rest : List Word}
    (h : shadowOf fs = ok :: err :: rest) :
    ∃ f fs', fs = f :: fs' ∧ f.ok = ok ∧ f.err = err ∧ shadowOf fs' = rest := by
  cases fs with
  | nil => cases h
  | cons f fs' =>
    rw [shadowOf_cons, List.cons.injEq, List.cons.injEq] at h
    exact ⟨f, fs', rfl, h.1, h.2.1, h.2.2⟩

/-! ## 2. One step -/

/-- What one event does, when the waiting calls before it are `fs`. -/
def Matched (fs : List Frame) : Event → Prop
  | .exec .ret _ _ after => ∃ f fs', fs = f :: fs' ∧ after.ip = f.ok
  | .exec .throw _ _ after => ∃ f fs', fs = f :: fs' ∧ after.ip = f.err
  | .exec op _ before after => op = .call ∨ op = .callr ∨ after.shadow = before.shadow
  | .host => True

/-- The thread is one started at `base` whose shadow stack holds exactly the waiting calls. -/
def Synced (base : Word) (fs : List Frame) (t : VMThread) : Prop :=
  t.bytecode = base ∧ t.shadow.entries = shadowOf fs

/-- The other instructions leave the waiting calls alone. -/
theorem step_quiet {base : Word} {fs : List Frame} {op : Op} {o : Operands} {t t' : VMThread}
    (hflow : op.flow = .straight ∨ op.flow = .jump) (hsh : t'.shadow = t.shadow)
    (hbc : t'.bytecode = t.bytecode) (h : Synced base fs t) :
    Synced base (pendingStep base fs (.exec op o t t')) t' ∧ Matched fs (.exec op o t t') := by
  have hquiet : pendingStep base fs (.exec op o t t') = fs ∧ Matched fs (.exec op o t t') := by
    cases op
    all_goals first
      | exact ⟨rfl, .inr (.inr hsh)⟩
      | simp [Op.flow] at hflow
  rw [hquiet.1]
  exact ⟨⟨hbc.trans h.1, by rw [hsh]; exact h.2⟩, hquiet.2⟩

/-- One step keeps the shadow stack in step with the waiting calls, and returns and throws go
where the most recent of them says. -/
theorem step_synced {base : Word} {fs : List Frame} {s s' : VMState} {e : Event}
    (hs : Step s e s') (h : Synced base fs s.1) :
    Synced base (pendingStep base fs e) s'.1 ∧ Matched fs e := by
  obtain ⟨hbase, hshadow⟩ := h
  cases hs with
  | host m' => exact ⟨⟨hbase, hshadow⟩, trivial⟩
  | @exec t t' m m' op o sys hfetch hstep =>
    rw [step_of_fetch hfetch] at hstep
    rcases exec_cases hstep with ⟨hflow, hsame⟩ | ⟨hflow, -, hsh, hbc⟩ | ⟨rfl, hent, -, hbc⟩ |
      ⟨rfl, hent, -, hbc⟩ | ⟨rfl, ok, err, hent, hip, hbc⟩ | ⟨rfl, ok, err, hent, hip, hbc⟩
    · exact step_quiet (.inl hflow) hsame.shadow hsame.bytecode ⟨hbase, hshadow⟩
    · exact step_quiet (.inr hflow) hsh hbc ⟨hbase, hshadow⟩
    · refine ⟨⟨hbc.trans hbase, ?_⟩, .inl rfl⟩
      have hshadow : t.shadow.entries = shadowOf fs := hshadow
      rw [hent, VMThread.fetched_shadow, hshadow, ← hbase]
      rfl
    · refine ⟨⟨hbc.trans hbase, ?_⟩, .inr (.inl rfl)⟩
      have hshadow : t.shadow.entries = shadowOf fs := hshadow
      rw [hent, VMThread.fetched_shadow, hshadow, ← hbase]
      rfl
    · obtain ⟨f, fs', rfl, hok, -, hrest⟩ := shadowOf_eq_cons (hshadow.symm.trans hent)
      exact ⟨⟨hbc.trans hbase, hrest.symm⟩, f, fs', rfl, hip.trans hok.symm⟩
    · obtain ⟨f, fs', rfl, -, herr, hrest⟩ := shadowOf_eq_cons (hshadow.symm.trans hent)
      exact ⟨⟨hbc.trans hbase, hrest.symm⟩, f, fs', rfl, hip.trans herr.symm⟩

/-! ## 3. Whole runs -/

/-- Over every run of a fresh thread the shadow stack holds exactly the waiting calls. -/
theorem run_synced {vmStack base stackSize : Word} {m₀ : Mem} {es : List Event} {s : VMState}
    (hrun : Run Step (freshThread vmStack base stackSize, m₀) es s) :
    Synced base (pending base es) s.1 := by
  refine Run.invariant (I := fun es s => Synced base (pending base es) s.1) ⟨rfl, rfl⟩ ?_ hrun
  intro es s e s' _ hI hs
  rw [pending_snoc]
  exact (step_synced hs hI).1

/-- The discipline of the shadow stack at an instruction boundary of a run with history `es`. -/
structure ShadowDiscipline (base : Word) (es : List Event) (t : VMThread) (m : Mem) : Prop where
  /-- The entries are those of the calls executed and not yet matched, in order. -/
  entries : t.shadow.entries = shadowOf (pending base es)
  even : t.shadow.entries.length % 2 = 0
  depth : t.shadow.entries.length ≤ shadowDepth
  /-- A return went on after the most recent unmatched call, a throw at its error target, and
  no instruction but calls, returns and throws changed the shadow stack. -/
  matched : ∀ before e after, es = before ++ e :: after → Matched (pending base before) e
  /-- An abort here finds whole frames: no frame is half pushed or half popped. -/
  aborts : ∀ sys why t', step sys t m = .aborted why t' → t'.shadow = t.shadow

/-- Every run of the loop keeps the discipline.  The entries are those of the calls that wait, so
each return and each throw goes on where its own call said; and since they are an even number, no
abort finds one half of a frame. -/
theorem run_shadow {vmStack base stackSize : Word} {m₀ : Mem} {es : List Event} {s : VMState}
    (hrun : Run Step (freshThread vmStack base stackSize, m₀) es s) :
    ShadowDiscipline base es s.1 s.2 := by
  obtain ⟨hbase, hent⟩ := run_synced hrun
  have hlen : s.1.shadow.entries.length = 2 * (pending base es).length := by
    rw [hent, length_shadowOf]
  refine ⟨hent, by omega, s.1.shadow.fits, ?_, ?_⟩
  · refine Run.event ?_ hrun
    intro es s e s' hr hs
    exact (step_synced hs (run_synced hr)).2
  · intro sys why t' hab
    cases hf : fetchInstr s.2 s.1.ip with
    | none => simp [step, hf] at hab
    | some x =>
      obtain ⟨op, o⟩ := x
      rw [step_of_fetch hf] at hab
      -- an odd depth is what a half pushed or half popped frame would need
      have hlen' : (s.1.fetched op).shadow.entries.length = 2 * (pending base es).length := hlen
      rcases exec_aborted hab with ⟨-, rfl⟩ | ⟨-, ⟨rfl, -⟩ | hodd⟩ | ⟨-, ⟨rfl, -⟩ | hodd⟩
      · rfl
      · rfl
      · simp only [shadowDepth] at hodd
        omega
      · rfl
      · omega

/-- A call of a function that returns at once. -/
def callRet : List Byte :=
  [Op.call.code, 10, 0, 0, 0, 9, 0, 0, 0, Op.halt.code, Op.ret.code]

theorem run_shadow_callRet :
    ∃ es s, Run Step
        (freshThread 0x8000 0x1000 0x100, writeBytes (fun _ => 0) 0x1000 callRet) es s ∧
      es.length = 2 ∧ s.1.ip = 0x1009 ∧ ShadowDiscipline 0x1000 es s.1 s.2 := by
  have hcall : Run Step
      (freshThread 0x8000 0x1000 0x100, writeBytes (fun _ => 0) 0x1000 callRet) _ _ :=
    .next .start (.exec none rfl rfl)
  have hret := hcall.next (.exec none rfl rfl)
  exact ⟨_, _, hret, rfl, rfl, run_shadow hret⟩

end Dvm
