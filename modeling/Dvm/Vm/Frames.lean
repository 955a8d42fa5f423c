/-
# Stack frames

`ENTER` saves `bp` in a slot below the stack and lets `bp` point there, `LEAVE` takes both
registers back from it.  `sp` moves in between by amounts that depend on data, so what carries
the frames is `bp` and the slots alone: they form a chain from the innermost open frame to the
outermost one (`Chained`).  No other instruction changes `bp`, and the chain stays whole as long
as no write hits the slot of an open frame.  At the matching `LEAVE` only the frame of its
`ENTER` is left of the chain (`leave_restores`).
-/
import Dvm.Vm.Run
import Dvm.Vm.Sized

namespace Dvm

open ByteMem Runs

/-! ## 1. Open frames -/

/-- A frame, by the `sp` and `bp` just before its `ENTER`. -/
structure OpenFrame where
  sp : Word
  bp : Word

/-- Where `ENTER` saves `bp`. -/
def OpenFrame.slot (f : OpenFrame) : Word := f.sp - 8

/-- The open frames, the innermost first, after one more event. -/
def openStep (fs : List OpenFrame) : Event → List OpenFrame
  | .exec .enter _ before _ => ⟨before.sp, before.bp⟩ :: fs
  | .exec .leave _ _ _ => fs.tail
  | _ => fs

def Event.IsLeave : Event → Prop
  | .exec .leave _ _ _ => True
  | _ => False

/-- No write hits the slot: it holds the bytes it held. -/
def Untouched (slot : Word) (m m' : Mem) : Prop := ∀ x, InBlock slot 8 x → m' x = m x

/-- A step inside the frame `base`, with the frames that are opened in it and still open: it does
not leave `base`, and what it writes hits the slot of no frame that is open. -/
inductive InnerStep (base : OpenFrame) :
    VMState × List OpenFrame → Event → VMState × List OpenFrame → Prop
  | step {s s' : VMState} {e : Event} {inner : List OpenFrame} : Step s e s' →
      (e.IsLeave → inner ≠ []) → (∀ f ∈ inner ++ [base], Untouched f.slot s.2 s'.2) →
      InnerStep base (s, inner) e (s', openStep inner e)

/-- A run inside the frame `base` that closes all the frames it opens. -/
def InnerRun (base : OpenFrame) (s : VMState) (es : List Event) (s' : VMState) : Prop :=
  Run (InnerStep base) (s, []) es (s', [])

/-! ## 2. One step -/

/-- `bp` points to the slot of the innermost frame, and each slot holds what `bp` was before. -/
def Chained (bp : Word) (m : Mem) : List OpenFrame → Prop
  | [] => True
  | f :: fs => bp = f.slot ∧ load 8 m f.slot = f.bp ∧ Chained f.bp m fs

theorem load_untouched {slot : Word} {m m' : Mem} (h : Untouched slot m m') :
    load 8 m' slot = load 8 m slot := by
  rw [load, load, readBytes_congr (by decide) h]

/-- A chain whose slots are not hit. -/
theorem Chained.untouched {bp : Word} {m m' : Mem} {fs : List OpenFrame} (h : Chained bp m fs)
    (hkept : ∀ f ∈ fs, Untouched f.slot m m') : Chained bp m' fs := by
  induction fs generalizing bp with
  | nil => trivial
  | cons f fs ih =>
    obtain ⟨hbp, hsaved, hrest⟩ := h
    obtain ⟨hf, hfs⟩ := List.forall_mem_cons.mp hkept
    exact ⟨hbp, (load_untouched hf).trans hsaved, ih hrest hfs⟩

theorem callTo_bp {t t' : VMThread} {m m' : Mem} {dest err : Word}
    (h : callTo t m dest err = .next t' m') : t'.bp = t.bp := by
  unfold callTo at h
  split at h
  · cases h
  · split at h
    · cases h
    · cases h
      rfl

theorem popFrame_bp {t t' : VMThread} {m m' : Mem} {pick : Word → Word → Word}
    (h : popFrame t m pick = .next t' m') : t'.bp = t.bp := by
  unfold popFrame at h
  split at h
  · cases h
  · split at h
    · cases h
    · cases h
      rfl

/-- Only `ENTER` and `LEAVE` change `bp`. -/
theorem exec_bp {sys : SysAnswer} {op : Op} {o : Operands} {t t' : VMThread} {m m' : Mem}
    (henter : op ≠ .enter) (hleave : op ≠ .leave) (h : exec sys op o t m = .next t' m') :
    t'.bp = t.bp := by
  cases op
  case enter => exact absurd rfl henter
  case leave => exact absurd rfl hleave
  case call => exact callTo_bp h
  case callr => exact callTo_bp h
  case ret => exact popFrame_bp h
  case throw => exact popFrame_bp h
  case div | mod | idiv | ftoi =>
    simp only [exec] at h
    repeat' split at h
    all_goals cases h; try rfl
  case syscall =>
    cases sys with
    | none => cases h
    | some x =>
      cases h
      rfl
  case halt => cases h
  case jmp | je | jne | jl | jle | jg | jge =>
    rw [exec_jump_eq rfl h]
    split
    · rfl
    · rfl
  all_goals
    cases h
    rfl

theorem load_store_word (m : Mem) (a v : Word) : load 8 (store 8 m a v) a = v := by
  rw [load_store (by decide), Nat.mod_eq_of_lt v.isLt, BitVec.ofNat_toNat, BitVec.setWidth_eq]

/-- What a step does to `bp` and to the chain. -/
theorem step_chained {s s' : VMState} {e : Event} {fs : List OpenFrame} (hs : Step s e s')
    (hleave : e.IsLeave → fs ≠ []) (hkept : ∀ f ∈ fs, Untouched f.slot s.2 s'.2)
    (h : Chained s.1.bp s.2 fs) : Chained s'.1.bp s'.2 (openStep fs e) := by
  cases hs with
  | host m' => exact h.untouched hkept
  | @exec t t' m m' op o sys hfetch hstep =>
    rw [step_of_fetch hfetch] at hstep
    by_cases henter : op = .enter
    · subst henter
      have hold := h.untouched hkept
      cases hstep
      exact ⟨rfl, load_store_word m (t.sp - 8) t.bp, hold⟩
    by_cases hop : op = .leave
    · subst hop
      cases fs with
      | nil => exact absurd rfl (hleave trivial)
      | cons f fs =>
        cases hstep
        obtain ⟨hbp, hsaved, hrest⟩ := h
        have hload : load 8 m (t.fetched .leave).bp = f.bp := by
          rw [← hsaved, ← hbp]
          rfl
        show Chained (load 8 m (t.fetched .leave).bp) m fs
        rwa [hload]
    · have hsame : openStep fs (.exec op o t t') = fs := by
        cases op <;> first | rfl | exact absurd rfl henter | exact absurd rfl hop
      have hbp : t'.bp = (t.fetched op).bp := exec_bp henter hop hstep
      rw [hsame]
      show Chained t'.bp m' fs
      rw [hbp]
      exact h.untouched hkept

theorem openStep_append {inner outer : List OpenFrame} {e : Event}
    (h : e.IsLeave → inner ≠ []) : openStep (inner ++ outer) e = openStep inner e ++ outer := by
  cases e with
  | host => rfl
  | exec op o t t' =>
    cases op
    case leave =>
      cases inner with
      | nil => exact absurd rfl (h trivial)
      | cons f fs => rfl
    all_goals rfl

/-! ## 3. Whole frames -/

/-- Inside a frame the open frames stay chained, down to its own. -/
theorem innerRun_chained {base : OpenFrame} {s s' : VMState} {es : List Event}
    {inner : List OpenFrame} (hs : Chained s.1.bp s.2 [base])
    (hrun : Run (InnerStep base) (s, []) es (s', inner)) :
    Chained s'.1.bp s'.2 (inner ++ [base]) := by
  refine Run.invariant (I := fun _ x => Chained x.1.1.bp x.1.2 (x.2 ++ [base])) hs ?_ hrun
  rintro es ⟨s, inner⟩ e ⟨s', inner'⟩ - hI hstep
  cases hstep with
  | step hs hinner hkept =>
    rw [← openStep_append hinner]
    exact step_chained hs (fun _ => by simp) hkept hI

/-- `LEAVE` restores the `sp` and `bp` that the matching `ENTER` found. -/
theorem leave_restores {s₀ s₁ s₂ s₃ : VMState} {o o' : Operands} {es : List Event}
    (henter : Step s₀ (.exec .enter o s₀.1 s₁.1) s₁)
    (hrun : InnerRun ⟨s₀.1.sp, s₀.1.bp⟩ s₁ es s₂)
    (hleave : Step s₂ (.exec .leave o' s₂.1 s₃.1) s₃) :
    s₃.1.sp = s₀.1.sp ∧ s₃.1.bp = s₀.1.bp := by
  have hopen : Chained s₁.1.bp s₁.2 [⟨s₀.1.sp, s₀.1.bp⟩] :=
    step_chained henter nofun nofun trivial
  obtain ⟨hbp, hsaved, -⟩ := innerRun_chained hopen hrun
  obtain ⟨t, m⟩ := s₂
  obtain ⟨t', m'⟩ := s₃
  cases hleave with
  | exec sys hfetch hstep =>
    rw [step_of_fetch hfetch] at hstep
    cases hstep
    have hbp : t.bp = s₀.1.sp - 8 := hbp
    have hsaved : load 8 m (s₀.1.sp - 8) = s₀.1.bp := hsaved
    refine ⟨?_, ?_⟩
    · show t.bp + 8 = s₀.1.sp
      rw [hbp, BitVec.sub_add_cancel]
    · show load 8 m t.bp = s₀.1.bp
      rw [hbp, hsaved]

/-- A store of a word beside a slot. -/
theorem untouched_store {slot a v : Word} {m : Mem} (h : ∀ x, InBlock slot 8 x → ¬ InBlock a 8 x) :
    Untouched slot m (store 8 m a v) := fun x hx => store_frame (h x hx)

/-- `enter 16`, `push ax`, `enter 0`, `leave`, `leave`. -/
def nestedFrames : List Byte :=
  [Op.enter.code, 16, 0, Op.push.code, 0, Op.enter.code, 0, 0, Op.leave.code, Op.leave.code]

/-- A thread that runs it. -/
def nestedThread (ip sp bp : Word) : VMThread :=
  { freshThread 0x8000 0x1000 0x100 with ip := ip, sp := sp, bp := bp }

/-- Before the first `ENTER`. -/
def codeMem : Mem := writeBytes (fun _ => 0) 0x1000 nestedFrames

/-- Behind it. -/
def outerMem : Mem := store 8 codeMem 0x80F8 0x8100

/-- Behind the inner one, with what was pushed between the two. -/
def innerMem : Mem := store 8 (store 8 outerMem 0x80E0 0) 0x80D8 0x80F8

theorem step_of_exec {sys : SysAnswer} {t t' : VMThread} {m m' : Mem} {op : Op} {o : Operands}
    (hfetch : fetchInstr m t.ip = some (op, o))
    (h : exec sys op o (t.fetched op) m = .next t' m') : Step (t, m) (.exec op o t t') (t', m') :=
  .exec sys hfetch ((step_of_fetch hfetch).trans h)

theorem nestedFrames_inner : InnerRun ⟨0x8100, 0x8100⟩
    (nestedThread 0x1003 0x80E8 0x80F8, outerMem)
    [.exec .push {} (nestedThread 0x1003 0x80E8 0x80F8) (nestedThread 0x1005 0x80E0 0x80F8),
     .exec .enter {} (nestedThread 0x1005 0x80E0 0x80F8) (nestedThread 0x1008 0x80D8 0x80D8),
     .exec .leave {} (nestedThread 0x1008 0x80D8 0x80D8) (nestedThread 0x1009 0x80E0 0x80F8)]
    (nestedThread 0x1009 0x80E0 0x80F8, innerMem) := by
  have hpush := @step_of_exec none (nestedThread 0x1003 0x80E8 0x80F8)
    (nestedThread 0x1005 0x80E0 0x80F8) outerMem (store 8 outerMem 0x80E0 0) .push {} rfl rfl
  have henter := @step_of_exec none (nestedThread 0x1005 0x80E0 0x80F8)
    (nestedThread 0x1008 0x80D8 0x80D8) (store 8 outerMem 0x80E0 0) innerMem .enter {} rfl rfl
  have hleave := @step_of_exec none (nestedThread 0x1008 0x80D8 0x80D8)
    (nestedThread 0x1009 0x80E0 0x80F8) innerMem innerMem .leave {} rfl rfl
  have hfree : ∀ (m : Mem) (a v : Word), a = 0x80E0 ∨ a = 0x80D8 →
      ∀ f ∈ [] ++ [OpenFrame.mk 0x8100 0x8100], Untouched f.slot m (store 8 m a v) := by
    intro m a v ha f hf
    have hslot : f.slot = 0x80F8 := by
      rw [List.mem_singleton.mp hf]
      rfl
    refine untouched_store fun x hx => ?_
    rw [hslot] at hx
    unfold InBlock at *
    rcases ha with rfl | rfl
    · bv_omega
    · bv_omega
  have hpush' := @InnerStep.step ⟨0x8100, 0x8100⟩ _ _ _ [] hpush nofun (hfree _ _ _ (.inl rfl))
  have henter' := @InnerStep.step ⟨0x8100, 0x8100⟩ _ _ _ [] henter nofun (hfree _ _ _ (.inr rfl))
  have hleave' := @InnerStep.step ⟨0x8100, 0x8100⟩ _ _ _ [⟨0x80E0, 0x80F8⟩] hleave
    (fun _ => by simp) (fun f _ x _ => rfl)
  exact ((Run.start.next hpush').next henter').next hleave'

/-- The outer frame of `nestedFrames`. -/
theorem nestedFrames_restored :
    (nestedThread 0x100A 0x8100 0x8100).sp = (nestedThread 0x1000 0x8100 0x8100).sp ∧
      (nestedThread 0x100A 0x8100 0x8100).bp = (nestedThread 0x1000 0x8100 0x8100).bp :=
  @leave_restores (nestedThread 0x1000 0x8100 0x8100, codeMem)
    (nestedThread 0x1003 0x80E8 0x80F8, outerMem) (nestedThread 0x1009 0x80E0 0x80F8, innerMem)
    (nestedThread 0x100A 0x8100 0x8100, innerMem)
    { imm := 16 } {} _ (@step_of_exec none _ _ _ _ .enter { imm := 16 } rfl rfl) nestedFrames_inner
    (@step_of_exec none _ _ _ _ .leave {} rfl rfl)

end Dvm
