/-
# Words that guest threads share

A word of memory that guest threads share is a sequential object (`sharedWord`): whatever the order
in which the threads run and whatever they execute, each load of the word and each atomic system
call on it is answered with what the stores before have made of it, those of any width and from
any address that meet it among them (`word_serial`).

The two uses that the atomic system calls have are consequences about the history of a word that
threads access as a whole only.  As a counter no addition is lost and no two threads get the same
number (`tickets_distinct`); as a lock no thread gets it while another one holds it
(`lock_excludes`).
-/
import Dvm.Base.Serial
import Dvm.Vm.Guests
import Mathlib.Data.List.Nodup

namespace Dvm

open Bytes ByteMem Runs Serial

/-! ## 1. Accesses of a word -/

structure WordCall where
  thread : Nat
  op : WordOp
  deriving DecidableEq

def sharedWord : Object Word WordCall (Option Word) where
  next c := c.op.next
  answer c := c.op.answer

@[simp] theorem sharedWord_next (c : WordCall) : sharedWord.next c = c.op.next := rfl
@[simp] theorem sharedWord_answer (c : WordCall) : sharedWord.answer c = c.op.answer := rfl

/-- The access that an instruction makes. -/
def VMThread.wordAccess (t : VMThread) (i : Op × Operands) : Option WordAccess :=
  if i.1 = .syscall then t.atomicAccess
  else if i.1.loadedZx = some 8 then some ⟨memAddr i t, .load, i.2.d⟩
  else if i.1.stored = some 8 then some ⟨memAddr i t, .store (t.gpr i.2.s), i.2.s⟩
  else none

/-- The call that an event is of the word at `p`, and its answer. -/
def GuestEv.callOn (p : Word) : GuestEv → Option (WordCall × Option Word)
  | .exec i op o t t' =>
    match t.wordAccess (op, o) with
    | some a => if a.addr = p then some (⟨i, a.op⟩, a.op.answer (t'.gpr a.reg)) else none
    | none => none
  | _ => none

/-- The calls of the word at `p`, with their answers. -/
def wordHistory (p : Word) (es : List GuestEv) : List (WordCall × Option Word) :=
  es.filterMap (GuestEv.callOn p)

/-- A step that changes the word at `p` by an access of it only. -/
def SharesWord (p : Word) (g : Guests) (e : GuestEv) (g' : Guests) : Prop :=
  g.Step e g' ∧ (e.callOn p = none → load 8 g'.mem p = load 8 g.mem p)

/-- What the other instructions do to the word at `p`: some load eight bytes too, and some store
bytes of which a part may lie in the word. -/
def GuestEv.partOn (p : Word) : GuestEv → Option (WordCall × Option Word)
  | .exec i op o t t' =>
    let block := loadedBlock op o t
    let (a, bs) := storedBytes op o t
    if op = .syscall then none
    else if block = (p, 8) then some (⟨i, .load⟩, some (loadedInto op o t'))
    else if BlocksMeet p 8 a bs.length then some (⟨i, .bytes (p - a) bs⟩, none)
    else none
  | _ => none

/-- What any event does to the word, and its answer. -/
def GuestEv.useOf (p : Word) (e : GuestEv) : Option (WordCall × Option Word) :=
  (e.callOn p).or (e.partOn p)

/-- All that is done to the word at `p`, with the answers. -/
def wordUses (p : Word) (es : List GuestEv) : List (WordCall × Option Word) :=
  es.filterMap (GuestEv.useOf p)

/-- The host has done something else than an atomic operation on an aligned word. -/
def GuestEv.ByHost : GuestEv → Prop
  | .exec _ op _ t _ => op = .syscall ∧ ∀ a, t.atomicAccess = some a → ¬ Aligned a.addr
  | .start _ _ => False
  | .host => True

/-- A step in which the host leaves the word at `p` alone. -/
def UsesWord (p : Word) (g : Guests) (e : GuestEv) (g' : Guests) : Prop :=
  g.Step e g' ∧ (e.ByHost → load 8 g'.mem p = load 8 g.mem p)

/-! ## 2. The word as an object -/

section Word

variable {p : Word} {g₀ g g' : Guests} {es : List GuestEv}

theorem exec_wordAccess {op : Op} {o : Operands} {t t' : VMThread} {m m' : Mem} {a : WordAccess}
    (hop : op ≠ .syscall) (ha : t.wordAccess (op, o) = some a)
    (hex : (exec none op o (t.fetched op) m).Leaves t' m') : a.Done m t' m' := by
  rw [VMThread.wordAccess, if_neg hop] at ha
  split at ha
  · next hload =>
    obtain rfl := Option.some.inj ha
    rw [exec_loadedZx hload, memAddr_fetched] at hex
    rcases hex with hex | hex
    · obtain ⟨rfl, rfl⟩ := Outcome.next.inj hex
      exact WordAccess.done_of_answer rfl
    · cases hex
  split at ha
  · next hstore =>
    obtain rfl := Option.some.inj ha
    rw [exec_stored hstore, memAddr_fetched, VMThread.fetched_gpr] at hex
    rcases hex with hex | hex
    · obtain ⟨rfl, rfl⟩ := Outcome.next.inj hex
      exact WordAccess.done_store _ _ _ _ _
    · cases hex
  · cases ha

theorem syscall_wordAccess {i : Nat} {o : Operands} {t t' : VMThread} {a : WordAccess}
    (ha : t.atomicAccess = some a) (hp : Aligned a.addr)
    (h : g.Step (.exec i .syscall o t t') g') : a.Done g.mem t' g'.mem := by
  have hreg : a.reg = regAx := by
    unfold VMThread.atomicAccess at ha
    split at ha <;> cases ha <;> rfl
  obtain ⟨rfl, hg'⟩ := h.atomic ha hp
  rw [hg', Guests.setThread_mem, ← hreg]
  exact WordAccess.done_of_answer (load_store_word _ _ _)

theorem Guests.Step.wordAccess {i : Nat} {op : Op} {o : Operands} {t t' : VMThread}
    {a : WordAccess} (ha : t.wordAccess (op, o) = some a) (hp : Aligned a.addr)
    (h : g.Step (.exec i op o t t') g') : a.Done g.mem t' g'.mem := by
  by_cases hop : op = .syscall
  · subst hop
    rw [VMThread.wordAccess, if_pos rfl] at ha
    exact syscall_wordAccess ha hp h
  · obtain ⟨m', hex, hg'⟩ := h.plain_inv hop
    rw [hg', Guests.setThread_mem]
    exact exec_wordAccess hop ha hex

/-- The access that an event with an answer makes. -/
theorem GuestEv.callOn_inv {e : GuestEv} {c : WordCall × Option Word} (h : e.callOn p = some c) :
    ∃ i op o t t' a, e = .exec i op o t t' ∧ t.wordAccess (op, o) = some a ∧ a.addr = p ∧
      c = (⟨i, a.op⟩, a.op.answer (t'.gpr a.reg)) := by
  cases e with
  | start i t => cases h
  | host => cases h
  | exec i op o t t' =>
    simp only [GuestEv.callOn] at h
    split at h
    · next a ha =>
      split at h
      · next haddr => exact ⟨i, op, o, t, t', a, rfl, ha, haddr, (Option.some.inj h).symm⟩
      · cases h
    · cases h

/-- A step is a call of the word, or leaves it as it is. -/
theorem SharesWord.calls {e : GuestEv} (hp : Aligned p) (h : SharesWord p g e g') :
    CallsObject sharedWord (fun g => load 8 g.mem p) (GuestEv.callOn p) g e g' := by
  constructor
  · intro c hc
    obtain ⟨i, op, o, t, t', a, rfl, ha, rfl, rfl⟩ := GuestEv.callOn_inv hc
    rw [sharedWord_answer, sharedWord_next]
    exact h.1.wordAccess ha hp
  · exact h.2

/-- The history of a word that is accessed as a whole. -/
theorem SharesWord.serial (hp : Aligned p) (h : Run (SharesWord p) g₀ es g) :
    sharedWord.Legal (load 8 g₀.mem p) (wordHistory p es) ∧
      load 8 g.mem p = sharedWord.after (load 8 g₀.mem p) (wordHistory p es) := by
  have hcalls : ∀ g e g', SharesWord p g e g' →
      CallsObject sharedWord (fun g => load 8 g.mem p) (GuestEv.callOn p) g e g' :=
    fun _ _ _ hs => hs.calls hp
  exact Run.serial hcalls h

theorem SharesWord.of_call {e : GuestEv} (h : g.Step e g') (hc : (e.callOn p).isSome) :
    SharesWord p g e g' := by
  refine ⟨h, fun hnone => ?_⟩
  rw [hnone] at hc
  cases hc

/-- A store elsewhere does not meet the word. -/
theorem load_not_met {m : Mem} {a : Word} {bs : List Byte} (h : ¬ BlocksMeet p 8 a bs.length) :
    load 8 (writeBytes m a bs) p = load 8 m p :=
  load_untouched fun _ hx => writeBytes_of_not_inBlock m fun hx' => h (.of_inBlock hx hx')

/-- Two aligned words are the same, or apart. -/
theorem Aligned.apart {q : Word} (hp : Aligned p) (hq : Aligned q) (hne : p ≠ q) :
    ¬ BlocksMeet p 8 q 8 := by
  have hmod : ∀ {r : Word}, Aligned r → r.toNat % 8 = 0 := by
    intro r hr
    have hand := congrArg BitVec.toNat hr
    rwa [BitVec.toNat_and, show (7 : Word).toNat = 2 ^ 3 - 1 from rfl,
      Nat.and_two_pow_sub_one_eq_mod] at hand
  have hp := hmod hp
  have hq := hmod hq
  rintro ⟨-, -, hin⟩
  unfold InBlock at hin
  rcases hin with hin | hin <;> bv_omega

/-- An instruction, by what it loads and stores. -/
theorem Guests.Step.partOn {i : Nat} {op : Op} {o : Operands} {t t' : VMThread}
    (hop : op ≠ .syscall) (h : g.Step (.exec i op o t t') g') :
    CallsObject sharedWord (fun g => load 8 g.mem p) (GuestEv.partOn p) g (.exec i op o t t')
      g' := by
  obtain ⟨m', hex, hg'⟩ := h.plain_inv hop
  have hmem : g'.mem = written op o t g.mem := by
    rw [hg', Guests.setThread_mem, exec_written hex]
  have hpart : GuestEv.partOn p (.exec i op o t t')
      = if loadedBlock op o t = (p, 8) then some (⟨i, .load⟩, some (loadedInto op o t'))
        else if BlocksMeet p 8 (storedBytes op o t).1 (storedBytes op o t).2.length then
          some (⟨i, .bytes (p - (storedBytes op o t).1) (storedBytes op o t).2⟩, none)
        else none := if_neg hop
  by_cases hload : loadedBlock op o t = (p, 8)
  · rw [if_pos hload] at hpart
    have h8 : (loadedBlock op o t).2 = 8 := by rw [hload]
    have hnone : (storedBytes op o t).2 = [] := storedBytes_of_loaded (h8 ▸ by decide)
    have hinto := exec_loaded h8 hex
    rw [hload] at hinto
    refine .of_some hpart (congrArg some hinto) ?_
    rw [hmem, written_of_not_stored _ hnone]
    rfl
  rw [if_neg hload] at hpart
  by_cases hmeet : BlocksMeet p 8 (storedBytes op o t).1 (storedBytes op o t).2.length
  · rw [if_pos hmeet] at hpart
    refine .of_some hpart rfl ?_
    rw [hmem, written, load_writeBytes]
    rfl
  · rw [if_neg hmeet] at hpart
    refine .of_none hpart ?_
    rw [hmem, written, load_not_met hmeet]

/-- A system call that is no access of the word leaves it as it is, if the host does. -/
theorem UsesWord.syscall_kept (hp : Aligned p) {i : Nat} {o : Operands} {t t' : VMThread}
    (h : UsesWord p g (.exec i .syscall o t t') g')
    (hc : (GuestEv.exec i .syscall o t t').callOn p = none) :
    load 8 g'.mem p = load 8 g.mem p := by
  by_cases hatomic : ∃ a, t.atomicAccess = some a ∧ Aligned a.addr
  · obtain ⟨a, ha, hq⟩ := hatomic
    have hne : p ≠ a.addr := by
      rintro rfl
      simp [GuestEv.callOn, VMThread.wordAccess, ha] at hc
    obtain ⟨-, hg'⟩ := h.1.atomic ha hq
    rw [hg', Guests.setThread_mem, store, load_not_met]
    rw [length_le]
    exact hp.apart hq hne
  · exact h.2 ⟨rfl, fun a ha hq => hatomic ⟨a, ha, hq⟩⟩

theorem UsesWord.calls {e : GuestEv} (hp : Aligned p) (h : UsesWord p g e g') :
    CallsObject sharedWord (fun g => load 8 g.mem p) (GuestEv.useOf p) g e g' := by
  cases hc : e.callOn p with
  | some c =>
    have huse : e.useOf p = some c := by rw [GuestEv.useOf, hc, Option.some_or]
    obtain ⟨i, op, o, t, t', a, rfl, ha, rfl, rfl⟩ := GuestEv.callOn_inv hc
    obtain ⟨hanswer, hnext⟩ := h.1.wordAccess ha hp
    exact .of_some huse hanswer hnext
  | none =>
    have huse : e.useOf p = e.partOn p := by rw [GuestEv.useOf, hc, Option.none_or]
    cases e with
    | exec i op o t t' =>
      by_cases hop : op = .syscall
      · subst hop
        exact .of_none huse (h.syscall_kept hp hc)
      · obtain ⟨hcalled, hkept⟩ := h.1.partOn (p := p) hop
        exact ⟨fun c hc => hcalled c (huse.symm.trans hc), fun hno => hkept (huse.symm.trans hno)⟩
    | start i t =>
      refine .of_none huse ?_
      cases h.1
      rfl
    | host => exact .of_none huse (h.2 trivial)

/-- An aligned word is used one instruction at a time, in the order of the events, whatever the
instructions are: each answer is what those before have made of the word. -/
theorem word_serial (hp : Aligned p) (h : Run (UsesWord p) g₀ es g) :
    sharedWord.Legal (load 8 g₀.mem p) (wordUses p es) ∧
      load 8 g.mem p = sharedWord.after (load 8 g₀.mem p) (wordUses p es) := by
  have hcalls : ∀ g e g', UsesWord p g e g' →
      CallsObject sharedWord (fun g => load 8 g.mem p) (GuestEv.useOf p) g e g' :=
    fun _ _ _ hs => hs.calls hp
  exact Run.serial hcalls h

theorem UsesWord.of_not_byHost {e : GuestEv} (h : g.Step e g') (hno : ¬ e.ByHost) :
    UsesWord p g e g' := ⟨h, fun hby => absurd hby hno⟩

end Word

/-- A thread at a system call on the word at 0x2000. -/
def wordCaller (nr cx : Word) : VMThread :=
  { vmRun 0x8000 0x1000 0x100 with
    gpr := fun r => if r = regAx then nr else if r = regBx then 0x2000
      else if r = regCx then cx else if r = regDx then 1 else 0 }

/-- Two threads that make the call, and then `MOV [bx], di`. -/
def twoCallers (nr cx : Word) : Guests where
  mem x := if x = 0x1000 then Op.syscall.code else if x = 0x1001 then Op.movMR.code
    else if x = 0x1002 then 0x14 else 0
  mutex _ := none
  thread i := if i < 2 then some (wordCaller nr cx) else none

/-- The same threads, which add 0x101 and then store only the low byte of `di`. -/
def byteCallers : Guests :=
  { twoCallers 20 0x101 with
    mem := fun x => if x = 0x1001 then Op.movMR8.code else (twoCallers 20 0x101).mem x }

/-- The first one adds and clears the low byte again, and then the second one adds. -/
theorem byteCallers_uses : ∃ es g, Run (UsesWord 0x2000) byteCallers es g ∧
    wordUses 0x2000 es = [(⟨0, .fetchAdd 0x101⟩, some 0), (⟨0, .bytes 0 [0]⟩, none),
      (⟨1, .fetchAdd 0x101⟩, some 0x100)] := by
  have ha : (wordCaller 20 0x101).atomicAccess = some ⟨0x2000, .fetchAdd 0x101, regAx⟩ := by
    decide
  have hf : fetchInstr byteCallers.mem 0x1000 = some (.syscall, {}) := by decide +kernel
  have ht : byteCallers.thread 0 = some (wordCaller 20 0x101) := rfl
  obtain ⟨t₁, g₁, ht₁, hg₁, hs₁⟩ := Guests.atomic_step ht rfl hf ha (by decide)
  have hf₁ : fetchInstr g₁.mem t₁.ip = some (.movMR8, { d := regBx, s := regDi }) := by
    rw [hg₁, ht₁, Guests.setThread_mem]
    decide +kernel
  have ht' : g₁.thread 0 = some t₁ := by rw [hg₁, Guests.setThread_self]
  have hrunning : t₁.state = .running := by
    rw [ht₁]
    rfl
  have hs₂ := Guests.Step.exec ht' hrunning hf₁ (by decide) (.inl (step_of_fetch hf₁))
  generalize hg₂ : g₁.setThread 0 _ _ = g₂ at hs₂
  have hf₂ : fetchInstr g₂.mem 0x1000 = some (.syscall, {}) := by
    rw [← hg₂, Guests.setThread_mem, hg₁, Guests.setThread_mem, ht₁]
    decide +kernel
  have ht'' : g₂.thread 1 = some (wordCaller 20 0x101) := by
    rw [← hg₂, Guests.setThread_ne _ _ _ (by decide), hg₁]
    rfl
  obtain ⟨t₃, g₃, ht₃, hg₃, hs₃⟩ := Guests.atomic_step ht'' rfl hf₂ ha (by decide)
  have hcall : ∀ i o t', ¬ (GuestEv.exec i .syscall o (wordCaller 20 0x101) t').ByHost :=
    fun i o t' hby => hby.2 _ ha (by decide)
  refine ⟨_, _, .next (.next (.single (.of_not_byHost hs₁ (hcall _ _ _)))
    (.of_not_byHost hs₂ fun hby => Op.noConfusion hby.1)) (.of_not_byHost hs₃ (hcall _ _ _)), ?_⟩
  subst hg₂ hg₁ ht₁ ht₃
  decide +kernel

theorem byteCallers_serial : ∃ es g, Run (UsesWord 0x2000) byteCallers es g ∧
    (wordUses 0x2000 es).map Prod.snd = [some 0, none, some 0x100] ∧
    sharedWord.Legal (load 8 byteCallers.mem 0x2000) (wordUses 0x2000 es) ∧
      load 8 g.mem 0x2000
        = sharedWord.after (load 8 byteCallers.mem 0x2000) (wordUses 0x2000 es) := by
  obtain ⟨es, g, hrun, huses⟩ := byteCallers_uses
  exact ⟨es, g, hrun, congrArg (List.map Prod.snd) huses, word_serial (by decide) hrun⟩

/-! ## 3. Counters -/

section Counter

variable {h : List (WordCall × Option Word)} {w : Word}

/-- A word that is only incremented: the answers count up from what it was. -/
theorem Legal.fetchAdds (hl : sharedWord.Legal w h) (hadds : ∀ c ∈ h, c.1.op = .fetchAdd 1) :
    h.map Prod.snd = (List.range h.length).map (fun k => some (w + BitVec.ofNat 64 k)) ∧
      sharedWord.after w h = w + BitVec.ofNat 64 h.length := by
  refine Object.Legal.invariant
    (I := fun h v => (∀ c ∈ h, c.1.op = .fetchAdd 1) →
      h.map Prod.snd = (List.range h.length).map (fun k => some (w + BitVec.ofNat 64 k)) ∧
        v = w + BitVec.ofNat 64 h.length) ?_ ?_ hl hadds
  · exact fun _ => ⟨rfl, (BitVec.add_zero w).symm⟩
  · intro h c hI hans hall
    obtain ⟨hmap, hafter⟩ := hI fun c hc => hall c (List.mem_append_left _ hc)
    have hop : c.1.op = .fetchAdd 1 := hall c (List.mem_append_right _ (List.mem_singleton_self c))
    rw [sharedWord_answer, hop, hafter] at hans
    rw [sharedWord_next, hop, hafter, List.length_append, List.length_singleton, List.range_succ,
      List.map_append, List.map_append, hmap, List.map_singleton, List.map_singleton, hans]
    refine ⟨rfl, ?_⟩
    rw [BitVec.ofNat_add, ← BitVec.add_assoc]
    rfl

theorem nodup_counted_iff (w : Word) (n : Nat) :
    ((List.range n).map fun k => some (w + BitVec.ofNat 64 k)).Nodup ↔ n ≤ 2 ^ 64 := by
  constructor
  · intro hnd
    by_contra hn
    have hwrap : w + BitVec.ofNat 64 0 = w + BitVec.ofNat 64 (2 ^ 64) := rfl
    have hinj := List.inj_on_of_nodup_map hnd (List.mem_range.mpr (by omega : 0 < n))
      (List.mem_range.mpr (by omega : 2 ^ 64 < n)) (congrArg some hwrap)
    omega
  · intro hn
    refine List.Nodup.map_on ?_ List.nodup_range
    intro j hj k hk heq
    rw [List.mem_range] at hj hk
    have hadd := (BitVec.add_right_inj w).mp (Option.some.inj heq)
    have hnat := congrArg BitVec.toNat hadd
    rwa [BitVec.toNat_ofNat, BitVec.toNat_ofNat, Nat.mod_eq_of_lt (by omega),
      Nat.mod_eq_of_lt (by omega)] at hnat

/-- A word that guest threads only increment by `ATOMIC_FETCHADD` counts the calls, and no two of
these get the same number before the word wraps around. -/
theorem tickets_distinct {p : Word} {g₀ g : Guests} {es : List GuestEv} (hp : Aligned p)
    (hrun : Run (SharesWord p) g₀ es g)
    (hadds : ∀ c ∈ wordHistory p es, c.1.op = .fetchAdd 1) :
    load 8 g.mem p = load 8 g₀.mem p + BitVec.ofNat 64 (wordHistory p es).length ∧
      (((wordHistory p es).map Prod.snd).Nodup ↔ (wordHistory p es).length ≤ 2 ^ 64) := by
  obtain ⟨hlegal, hafter⟩ := SharesWord.serial hp hrun
  obtain ⟨hmap, hcount⟩ := Legal.fetchAdds hlegal hadds
  rw [hafter, hcount, hmap]
  exact ⟨rfl, nodup_counted_iff _ _⟩

theorem twoCallers_fetchAdd : ∃ es g, Run (SharesWord 0x2000) (twoCallers 20 1) es g ∧
    wordHistory 0x2000 es = [(⟨0, .fetchAdd 1⟩, some 0), (⟨1, .fetchAdd 1⟩, some 1)] := by
  have ha : (wordCaller 20 1).atomicAccess = some ⟨0x2000, .fetchAdd 1, regAx⟩ := by decide
  have hf : fetchInstr (twoCallers 20 1).mem 0x1000 = some (.syscall, {}) := by decide +kernel
  have ht : (twoCallers 20 1).thread 0 = some (wordCaller 20 1) := rfl
  obtain ⟨t₁, g₁, ht₁, hg₁, hs₁⟩ := Guests.atomic_step ht rfl hf ha (by decide)
  have hf' : fetchInstr g₁.mem 0x1000 = some (.syscall, {}) := by
    rw [hg₁, Guests.setThread_mem]
    decide +kernel
  have ht' : g₁.thread 1 = some (wordCaller 20 1) := by
    rw [hg₁]
    rfl
  obtain ⟨t₂, g₂, ht₂, hg₂, hs₂⟩ := Guests.atomic_step ht' rfl hf' ha (by decide)
  refine ⟨_, _, .next (.single (.of_call hs₁ rfl)) (.of_call hs₂ rfl), ?_⟩
  subst ht₁ hg₁ ht₂ hg₂
  decide +kernel

theorem twoCallers_tickets : ∃ es g, Run (SharesWord 0x2000) (twoCallers 20 1) es g ∧
    (wordHistory 0x2000 es).map Prod.snd = [some 0, some 1] ∧
    load 8 g.mem 0x2000 = load 8 (twoCallers 20 1).mem 0x2000
        + BitVec.ofNat 64 (wordHistory 0x2000 es).length ∧
      (((wordHistory 0x2000 es).map Prod.snd).Nodup ↔
        (wordHistory 0x2000 es).length ≤ 2 ^ 64) := by
  obtain ⟨es, g, hrun, hhist⟩ := twoCallers_fetchAdd
  have hadds : ∀ c ∈ wordHistory 0x2000 es, c.1.op = .fetchAdd 1 := by
    rw [hhist]
    decide
  exact ⟨es, g, hrun, congrArg (List.map Prod.snd) hhist,
    tickets_distinct (by decide) hrun hadds⟩

end Counter

/-! ## 4. Locks -/

/-- Who holds the lock after a call, if `holder` did before. -/
def lockStep (holder : Option Nat) (c : WordCall × Option Word) : Option Nat :=
  match c.1.op with
  | .cmpxchg _ _ => if c.2 = some 0 then some c.1.thread else holder
  | .store _ => none
  | _ => holder

/-- Who holds the lock after the calls. -/
def lockHolder (h : List (WordCall × Option Word)) : Option Nat := h.foldl lockStep none

/-- A call as threads make it that use the word as a lock: it is taken by a change from zero,
looked at, and freed by its holder with a zero. -/
def WordCall.UsesLock (holder : Option Nat) (c : WordCall) : Prop :=
  match c.op with
  | .load => True
  | .store v => v = 0 ∧ holder = some c.thread
  | .fetchAdd _ => False
  | .cmpxchg expected desired => expected = 0 ∧ desired ≠ 0
  | .bytes _ _ => False

instance WordCall.UsesLock.decidable (holder : Option Nat) :
    (c : WordCall) → Decidable (c.UsesLock holder)
  | ⟨_, .load⟩ => inferInstanceAs (Decidable True)
  | ⟨i, .store v⟩ => inferInstanceAs (Decidable (v = 0 ∧ holder = some i))
  | ⟨_, .fetchAdd _⟩ => inferInstanceAs (Decidable False)
  | ⟨_, .cmpxchg expected desired⟩ =>
    inferInstanceAs (Decidable (expected = 0 ∧ desired ≠ 0))
  | ⟨_, .bytes _ _⟩ => inferInstanceAs (Decidable False)

/-- All calls use the word as a lock. -/
def LockUsed (h : List (WordCall × Option Word)) : Prop :=
  ∀ before c after, h = before ++ c :: after → c.1.UsesLock (lockHolder before)

/-- The call takes the lock. -/
def TakesLock (c : WordCall × Option Word) : Prop :=
  (∃ expected desired, c.1.op = .cmpxchg expected desired) ∧ c.2 = some 0

section Lock

variable {h : List (WordCall × Option Word)} {c : WordCall × Option Word} {w : Word}

theorem lockHolder_snoc : lockHolder (h ++ [c]) = lockStep (lockHolder h) c := by
  rw [lockHolder, List.foldl_append]
  rfl

theorem LockUsed.of_append {h₁ h₂ : List (WordCall × Option Word)} (hu : LockUsed (h₁ ++ h₂)) :
    LockUsed h₁ := by
  rintro before c after rfl
  exact hu before c (after ++ h₂) (List.append_assoc _ _ _)

theorem LockUsed.nil : LockUsed [] := by
  intro before c after heq
  simp at heq

theorem LockUsed.snoc (hu : LockUsed h) (hc : c.1.UsesLock (lockHolder h)) :
    LockUsed (h ++ [c]) := by
  intro before d after heq
  rcases List.eq_nil_or_concat after with rfl | ⟨after, z, rfl⟩
  · obtain ⟨rfl, hlast⟩ := List.append_inj' heq rfl
    exact List.singleton_inj.mp hlast ▸ hc
  · rw [List.concat_eq_append, ← List.cons_append, ← List.append_assoc] at heq
    exact hu before d after (List.append_inj' heq rfl).1

/-- The lock is free when the word is zero. -/
theorem Legal.free_iff (hl : sharedWord.Legal 0 h) (hu : LockUsed h) :
    lockHolder h = none ↔ sharedWord.after 0 h = 0 := by
  refine Object.Legal.invariant (I := fun h v => LockUsed h → (lockHolder h = none ↔ v = 0))
    ?_ ?_ hl hu
  · exact fun _ => iff_of_true rfl rfl
  · intro h c hI hans hu
    have hfree := hI hu.of_append
    have huse := hu h c [] rfl
    rw [sharedWord_answer] at hans
    rw [lockHolder_snoc, sharedWord_next]
    unfold WordCall.UsesLock at huse
    unfold lockStep
    generalize c.1.op = op at huse hans
    cases op with
    | load => exact hfree
    | store v =>
      obtain ⟨rfl, -⟩ := huse
      exact iff_of_true rfl rfl
    | fetchAdd delta => exact huse.elim
    | bytes off bs => exact huse.elim
    | cmpxchg expected desired =>
      obtain ⟨rfl, hdesired⟩ := huse
      have hzero : c.2 = some 0 ↔ sharedWord.after 0 h = 0 := by
        rw [hans]
        exact Option.some_inj
      rw [WordOp.next_cmpxchg]
      by_cases hw : sharedWord.after 0 h = 0
      · rw [if_pos hw]
        simp only [if_pos (hzero.mpr hw)]
        exact iff_of_false (Option.some_ne_none _) hdesired
      · rw [if_neg hw]
        simp only [if_neg (mt hzero.mp hw)]
        exact hfree

/-- Threads that use a word as a lock exclude each other: whoever takes the lock finds that no
thread holds it, and the word is zero just as long. -/
theorem lock_excludes {p : Word} {g₀ g : Guests} {es : List GuestEv} (hp : Aligned p)
    (hrun : Run (SharesWord p) g₀ es g) (h0 : load 8 g₀.mem p = 0)
    (hu : LockUsed (wordHistory p es)) :
    (lockHolder (wordHistory p es) = none ↔ load 8 g.mem p = 0) ∧
      ∀ before c after, wordHistory p es = before ++ c :: after → TakesLock c →
        lockHolder before = none := by
  obtain ⟨hlegal, hafter⟩ := SharesWord.serial hp hrun
  rw [h0] at hlegal hafter
  refine ⟨hafter ▸ Legal.free_iff hlegal hu, ?_⟩
  rintro before c after heq ⟨⟨expected, desired, hop⟩, htaken⟩
  rw [heq] at hlegal hu
  have hans := hlegal.answer
  rw [sharedWord_answer, hop, htaken] at hans
  exact (Legal.free_iff (Object.legal_append.mp hlegal).1 hu.of_append).mpr
    (Option.some.inj hans).symm

theorem twoCallers_cmpxchg : ∃ es g, Run (SharesWord 0x2000) (twoCallers 21 0) es g ∧
    wordHistory 0x2000 es = [(⟨0, .cmpxchg 0 1⟩, some 0), (⟨1, .cmpxchg 0 1⟩, some 1),
      (⟨0, .store 0⟩, none)] := by
  have ha : (wordCaller 21 0).atomicAccess = some ⟨0x2000, .cmpxchg 0 1, regAx⟩ := by decide
  have hf : fetchInstr (twoCallers 21 0).mem 0x1000 = some (.syscall, {}) := by decide +kernel
  have ht : (twoCallers 21 0).thread 0 = some (wordCaller 21 0) := rfl
  obtain ⟨t₁, g₁, ht₁, hg₁, hs₁⟩ := Guests.atomic_step ht rfl hf ha (by decide)
  have hf' : fetchInstr g₁.mem 0x1000 = some (.syscall, {}) := by
    rw [hg₁, Guests.setThread_mem]
    decide +kernel
  have ht' : g₁.thread 1 = some (wordCaller 21 0) := by
    rw [hg₁]
    rfl
  obtain ⟨t₂, g₂, ht₂, hg₂, hs₂⟩ := Guests.atomic_step ht' rfl hf' ha (by decide)
  have hf'' : fetchInstr g₂.mem 0x1001 = some (.movMR, { d := regBx, s := regDi }) := by
    simp only [hg₂, hg₁, Guests.setThread_mem]
    decide +kernel
  have ht'' : g₂.thread 0 = some t₁ := by
    rw [hg₂, Guests.setThread_ne _ _ _ (by decide), hg₁]
    exact Guests.setThread_self _ _ _ _
  have hip : t₁.ip = 0x1001 := by
    rw [ht₁]
    rfl
  have hrunning : t₁.state = .running := by
    rw [ht₁]
    rfl
  have hs₃ := Guests.Step.exec ht'' hrunning (hip ▸ hf'') (by decide)
    (.inl (step_of_fetch (hip ▸ hf'')))
  refine ⟨_, _, .next (.next (.single (.of_call hs₁ rfl)) (.of_call hs₂ rfl))
    (.of_call hs₃ ?_), ?_⟩
  · subst ht₁
    rfl
  · subst ht₁ hg₁ ht₂
    decide +kernel

theorem twoCallers_lock : ∃ es g, Run (SharesWord 0x2000) (twoCallers 21 0) es g ∧
    (wordHistory 0x2000 es).map Prod.snd = [some 0, some 1, none] ∧
    (lockHolder (wordHistory 0x2000 es) = none ↔ load 8 g.mem 0x2000 = 0) ∧
      ∀ before c after, wordHistory 0x2000 es = before ++ c :: after → TakesLock c →
        lockHolder before = none := by
  obtain ⟨es, g, hrun, hhist⟩ := twoCallers_cmpxchg
  have hused : LockUsed (wordHistory 0x2000 es) := by
    rw [hhist]
    exact ((LockUsed.nil.snoc (by decide)).snoc (by decide)).snoc (by decide)
  exact ⟨es, g, hrun, congrArg (List.map Prod.snd) hhist,
    lock_excludes (by decide) hrun (by decide +kernel) hused⟩

end Lock

end Dvm
