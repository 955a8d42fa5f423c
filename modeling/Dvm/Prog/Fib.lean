/-
# `fib`

The routine `fib` of `test/asm/fib.asm`, which calls itself twice, meets its contract for every
number (`fib_meets`): with `n` in `ax`, `n` free frames and `8 * n` free bytes of the stack it
returns the `n`-th Fibonacci number modulo `2 ^ 64` in `ax`, with the stack pointer where it was,
and has changed no memory but those bytes.
-/
import Mathlib.Data.Nat.Fib.Basic
import Dvm.Prog.Contract
import Dvm.Prog.Linked
import Dvm.Vm.Flags
import Dvm.Vm.Frames
import Dvm.Vm.Guests

namespace Dvm

open Bytes ByteMem Loops Eventual

/-! ## 1. Memory below the stack pointer -/

/-- An address of the `k` bytes that end `i` bytes below `sp`, by its distance from `sp`. -/
theorem inBlock_below_iff {sp x : Word} {i k : Nat} (h : i + k < 2 ^ 64) :
    InBlock (sp - BitVec.ofNat 64 (i + k)) k x ↔ i < (sp - x).toNat ∧ (sp - x).toNat ≤ i + k := by
  have hx : x - (sp - BitVec.ofNat 64 (i + k)) = BitVec.ofNat 64 (i + k) - (sp - x) := by
    bv_omega
  rw [InBlock, hx, BitVec.toNat_sub, BitVec.toNat_ofNat, Nat.mod_eq_of_lt h]
  have hlt := (sp - x).isLt
  generalize (sp - x).toNat = d at *
  rcases Nat.lt_or_ge (i + k) d with hd | hd
  · rw [Nat.mod_eq_of_lt (by omega)]
    omega
  · rw [show 2 ^ 64 - d + (i + k) = (i + k - d) + 2 ^ 64 by omega, Nat.add_mod_right,
      Nat.mod_eq_of_lt (by omega)]
    omega

/-- The same memory but for the `n` bytes below `sp`. -/
def SameButBelow (sp : Word) (n : Nat) (m m' : Mem) : Prop :=
  SameOutside (sp - BitVec.ofNat 64 n) n m m'

section Below

variable {sp : Word} {i j k n : Nat} {m m₁ m₂ : Mem}

theorem SameButBelow.refl (sp : Word) (n : Nat) (m : Mem) : SameButBelow sp n m m :=
  fun _ _ => rfl

theorem below_iff (hn : n < 2 ^ 64) {x : Word} :
    InBlock (sp - BitVec.ofNat 64 n) n x ↔ 0 < (sp - x).toNat ∧ (sp - x).toNat ≤ n := by
  have h := @inBlock_below_iff sp x 0 n (by omega)
  rwa [Nat.zero_add] at h

/-- The distances from an address below `sp`. -/
theorem toNat_sub_below (hi : i < 2 ^ 64) (x : Word) :
    (sp - BitVec.ofNat 64 i - x).toNat
      = if i ≤ (sp - x).toNat then (sp - x).toNat - i else 2 ^ 64 + (sp - x).toNat - i := by
  have hx : sp - BitVec.ofNat 64 i - x = sp - x - BitVec.ofNat 64 i := by
    bv_omega
  have hlt := (sp - x).isLt
  rw [hx, BitVec.toNat_sub, BitVec.toNat_ofNat, Nat.mod_eq_of_lt hi]
  generalize (sp - x).toNat = d at *
  split
  · rw [show 2 ^ 64 - i + d = (d - i) + 2 ^ 64 by omega, Nat.add_mod_right,
      Nat.mod_eq_of_lt (by omega)]
  · rw [Nat.mod_eq_of_lt (by omega)]
    omega

/-- A word stored in these bytes. -/
theorem SameButBelow.store (h : SameButBelow sp n m m₁) (hi : i + 8 ≤ n) (hn : n < 2 ^ 64)
    (v : Word) : SameButBelow sp n m (store 8 m₁ (sp - BitVec.ofNat 64 (i + 8)) v) := by
  intro x hx
  rw [store_frame, h x hx]
  rw [below_iff hn] at hx
  rw [inBlock_below_iff (by omega)]
  omega

/-- What is done to the bytes below a lower stack pointer. -/
theorem SameButBelow.nested (h : SameButBelow sp n m m₁)
    (h' : SameButBelow (sp - BitVec.ofNat 64 i) k m₁ m₂) (hi : i + k ≤ n) (hn : n < 2 ^ 64) :
    SameButBelow sp n m m₂ := by
  intro x hx
  rw [h' x, h x hx]
  have hdist := @toNat_sub_below sp i (by omega) x
  have hlt := (sp - x).isLt
  rw [below_iff hn] at hx
  rw [below_iff (by omega), hdist]
  split <;> omega

/-- A word above the lower stack pointer is not touched. -/
theorem SameButBelow.load (h' : SameButBelow (sp - BitVec.ofNat 64 i) k m₁ m₂) (hj : j + 8 ≤ i)
    (hi : i + k < 2 ^ 64) :
    load 8 m₂ (sp - BitVec.ofNat 64 (j + 8)) = load 8 m₁ (sp - BitVec.ofNat 64 (j + 8)) := by
  refine load_untouched fun x hx => h' x ?_
  have hdist := @toNat_sub_below sp i (by omega) x
  rw [inBlock_below_iff (by omega)] at hx
  rw [below_iff (by omega), hdist]
  split <;> omega

theorem below_push (sp : Word) (i : Nat) :
    sp - BitVec.ofNat 64 i - 8 = sp - BitVec.ofNat 64 (i + 8) := by
  rw [BitVec.ofNat_add]
  bv_omega

theorem below_pop (sp : Word) (i : Nat) :
    sp - BitVec.ofNat 64 (i + 8) + 8 = sp - BitVec.ofNat 64 i := by
  rw [BitVec.ofNat_add]
  bv_omega

end Below

/-! ## 2. The routine -/

/-- The listing has this code from instruction `k` on. -/
def ListsAt (prog : List (SymInstr Nat)) (k : Nat) (code : List (SymInstr Nat)) : Prop :=
  ∀ i j, code[i]? = some j → prog[k + i]? = some j

theorem movRI_straight : Op.movRI.flow = .straight := rfl

theorem movMR_straight : Op.movMR.flow = .straight := rfl

theorem halt_straight : Op.halt.flow = .straight := rfl

/-- The routine as it is listed from instruction `k` on. -/
def fibCode (k die : Nat) : List (SymInstr Nat) :=
  [.plain .movRI { d := regBx, imm := 1 } movRI_straight,
   .plain .cmp { d := regAx, s := regBx } rfl,
   .jump .jle (k + 17) rfl,
   .plain .push { d := regAx } rfl,
   .plain .movRI { d := regBx, imm := 1 } movRI_straight,
   .plain .sub { d := regAx, s := regBx } rfl,
   .call k die,
   .plain .push { d := regAx } rfl,
   .plain .pop { d := regEx } rfl,
   .plain .pop { d := regAx } rfl,
   .plain .movRI { d := regBx, imm := 2 } movRI_straight,
   .plain .sub { d := regAx, s := regBx } rfl,
   .plain .push { d := regEx } rfl,
   .call k die,
   .plain .pop { d := regBx } rfl,
   .plain .add { d := regAx, s := regBx } rfl,
   .ret,
   .ret]

/-- `n` in `ax`, the result in `ax`; `bx`, `ex`, the flags and the stack are used. -/
def fibContract (n : Nat) : Contract where
  depth := max 1 n
  requires t _ := t.gpr regAx = BitVec.ofNat 64 n
  keeps t m m' := SameButBelow t.sp (8 * n) m m'
  returns t _ t' _ := t'.gpr regAx = BitVec.ofNat 64 (Nat.fib n) ∧
    (∀ r, r ≠ regAx → r ≠ regBx → r ≠ regEx → t'.gpr r = t.gpr r) ∧
    t' = t.withRegs t'.gpr t'.fl t.sp
  throws _ _ _ _ := False

section Fib

variable {prog : List (SymInstr Nat)} {place : Nat → Word} {k die n j : Nat} {f : Nat × Nat}
  {fs : List (Nat × Nat)} {fits : (f :: fs).length ≤ frameDepth} {t : VMThread} {g : Reg → Word}
  {fl x : Word} {m₀ m : Mem} {Q : ListConfig → Prop}

/-- The registers that the routine does not use are as in `g`. -/
def FibFrame (g g' : Reg → Word) : Prop := ∀ r, r ≠ regAx → r ≠ regBx → r ≠ regEx → g' r = g r

theorem FibFrame.refl (g : Reg → Word) : FibFrame g g := fun _ _ _ _ => rfl

theorem FibFrame.trans {g' g'' : Reg → Word} (h : FibFrame g g') (h' : FibFrame g' g'') :
    FibFrame g g'' :=
  fun r hax hbx hex => (h' r hax hbx hex).trans (h r hax hbx hex)

theorem FibFrame.set {g' : Reg → Word} (h : FibFrame g g') {d : Reg} (v : Word)
    (hd : d = regAx ∨ d = regBx ∨ d = regEx) : FibFrame g (regSet g' d v) := by
  intro r hax hbx hex
  rw [regSet_apply, if_neg (by rcases hd with rfl | rfl | rfl <;> assumption), h r hax hbx hex]

theorem fib_inside (h : SameButBelow t.sp (8 * n) m₀ m) {s : ListState} (hs : s.frames = f :: fs) :
    (fibContract n).Inside t m₀ fs (s, m) := by
  refine ⟨?_, h⟩
  show s.frames.length ≤ fs.length + max 1 n
  rw [hs, List.length_cons]
  omega

/-- The test of the base case. -/
theorem fib_test (hcode : ListsAt prog k (fibCode k die)) (hn : n < 2 ^ 63)
    (hax : g regAx = BitVec.ofNat 64 n) (hm : SameButBelow t.sp (8 * n) m₀ m)
    (hbase : n ≤ 1 → ∀ fl', Until (ListGo prog place) ((fibContract n).Inside t m₀ fs) Q
      (⟨k + 17, f :: fs, t.withRegs (regSet g regBx 1) fl' t.sp, fits⟩, m))
    (hcalls : 2 ≤ n → ∀ fl', Until (ListGo prog place) ((fibContract n).Inside t m₀ fs) Q
      (⟨k + 3, f :: fs, t.withRegs (regSet g regBx 1) fl' t.sp, fits⟩, m)) :
    Until (ListGo prog place) ((fibContract n).Inside t m₀ fs) Q
      (⟨k, f :: fs, t.withRegs g fl t.sp, fits⟩, m) := by
  have hcmp : (BitVec.ofNat 64 n).toInt ≤ (1 : Word).toInt ↔ n ≤ 1 := by
    rw [BitVec.toInt_eq_toNat_of_lt (by rw [BitVec.toNat_ofNat]; omega), BitVec.toNat_ofNat,
      Nat.mod_eq_of_lt (by omega)]
    show (n : Int) ≤ 1 ↔ n ≤ 1
    omega
  have htaken : Op.jle.taken (cmpFlags (BitVec.ofNat 64 n) 1) = true ↔ n ≤ 1 :=
    (taken_cmpFlags .jle _ _).trans hcmp
  refine until_plain (hcode 0 _ rfl) (fun _ => exec_movRI) (fib_inside hm rfl) ?_
  refine until_plain (hcode 1 _ rfl) (fun _ => exec_cmp (congrArg (cmpFlags · 1) hax))
    (fib_inside hm rfl) ?_
  refine until_jump (hcode 2 _ rfl) (fib_inside hm rfl) (fun hjump => hbase (htaken.mp hjump) _)
    fun hpass => hcalls ?_ _
  have hnot := mt htaken.mpr (Bool.eq_false_iff.mp hpass)
  omega

/-- Up to the first call: `n` is on the stack, and one less is handed over. -/
theorem fib_first (hcode : ListsAt prog k (fibCode k die)) (hn : 8 * (j + 2) < 2 ^ 64)
    (hax : g regAx = BitVec.ofNat 64 (j + 2)) (hm : SameButBelow t.sp (8 * (j + 2)) m₀ m)
    (h : ∀ g' m', FibFrame g g' → g' regAx = BitVec.ofNat 64 (j + 1) →
      SameButBelow t.sp (8 * (j + 2)) m₀ m' →
      load 8 m' (t.sp - BitVec.ofNat 64 8) = BitVec.ofNat 64 (j + 2) →
      Until (ListGo prog place) ((fibContract (j + 2)).Inside t m₀ fs) Q
        (⟨k + 6, f :: fs, t.withRegs g' fl (t.sp - BitVec.ofNat 64 8), fits⟩, m')) :
    Until (ListGo prog place) ((fibContract (j + 2)).Inside t m₀ fs) Q
      (⟨k + 3, f :: fs, t.withRegs g fl t.sp, fits⟩, m) := by
  have hm' := hm.store (i := 0) (by omega) hn (BitVec.ofNat 64 (j + 2))
  have hless : BitVec.ofNat 64 (j + 2) - 1 = BitVec.ofNat 64 (j + 1) := by
    rw [BitVec.ofNat_add j 2, BitVec.ofNat_add j 1]
    bv_omega
  refine until_plain (hcode 3 _ rfl) (fun _ => exec_push hax rfl) (fib_inside hm rfl) ?_
  refine until_plain (hcode 4 _ rfl) (fun _ => exec_movRI) (fib_inside hm' rfl) ?_
  refine until_plain (hcode 5 _ rfl) (fun _ => exec_sub ((congrArg (· - 1) hax).trans hless))
    (fib_inside hm' rfl) ?_
  exact h _ _ (((FibFrame.refl g).set _ (.inr (.inl rfl))).set _ (.inl rfl)) rfl hm'
    (load_store_word _ _ _)

/-- Between the calls: the result of the first replaces `n` on the stack, and two less than `n`
is handed over. -/
theorem fib_between (hcode : ListsAt prog k (fibCode k die)) (hn : 8 * (j + 2) < 2 ^ 64)
    (hax : g regAx = x) (hm : SameButBelow t.sp (8 * (j + 2)) m₀ m)
    (hslot : load 8 m (t.sp - BitVec.ofNat 64 8) = BitVec.ofNat 64 (j + 2))
    (h : ∀ g' m', FibFrame g g' → g' regAx = BitVec.ofNat 64 j →
      SameButBelow t.sp (8 * (j + 2)) m₀ m' → load 8 m' (t.sp - BitVec.ofNat 64 8) = x →
      Until (ListGo prog place) ((fibContract (j + 2)).Inside t m₀ fs) Q
        (⟨k + 13, f :: fs, t.withRegs g' fl (t.sp - BitVec.ofNat 64 8), fits⟩, m')) :
    Until (ListGo prog place) ((fibContract (j + 2)).Inside t m₀ fs) Q
      (⟨k + 7, f :: fs, t.withRegs g fl (t.sp - BitVec.ofNat 64 8), fits⟩, m) := by
  have hm' := hm.store (i := 8) (by omega) hn x
  have hm'' := hm'.store (i := 0) (by omega) hn x
  have hless : BitVec.ofNat 64 (j + 2) - 2 = BitVec.ofNat 64 j := by
    rw [BitVec.ofNat_add j 2]
    bv_omega
  have hkept : load 8 (store 8 m (t.sp - BitVec.ofNat 64 (8 + 8)) x) (t.sp - BitVec.ofNat 64 8)
      = BitVec.ofNat 64 (j + 2) := by
    refine (load_untouched fun y hy => store_frame ?_).trans hslot
    have hy' := (below_iff (by omega)).mp hy
    rw [inBlock_below_iff (by omega)]
    omega
  refine until_plain (hcode 7 _ rfl) (fun _ => exec_push hax (below_push _ 8))
    (fib_inside hm rfl) ?_
  refine until_plain (hcode 8 _ rfl) (fun _ => exec_pop (load_store_word _ _ _) (below_pop _ 8))
    (fib_inside hm' rfl) ?_
  refine until_plain (hcode 9 _ rfl) (fun _ => exec_pop hkept (below_pop _ 0))
    (fib_inside hm' rfl) ?_
  refine until_plain (hcode 10 _ rfl) (fun _ => exec_movRI) (fib_inside hm' rfl) ?_
  refine until_plain (hcode 11 _ rfl) (fun _ => exec_sub hless) (fib_inside hm' rfl) ?_
  refine until_plain (hcode 12 _ rfl) (fun _ => exec_push rfl (below_push _ 0))
    (fib_inside hm' rfl) ?_
  exact h _ _ ((((FibFrame.refl g).set _ (.inr (.inr rfl))).set _ (.inl rfl)).set _
    (.inr (.inl rfl))|>.set _ (.inl rfl)) rfl hm'' (load_store_word _ _ _)

/-- Behind the second call: the sum, and back to the caller. -/
theorem fib_last (hcode : ListsAt prog k (fibCode k die)) {y : Word} (hax : g regAx = x)
    (hm : SameButBelow t.sp (8 * (j + 2)) m₀ m)
    (hslot : load 8 m (t.sp - BitVec.ofNat 64 8) = y)
    (h : ∀ g', FibFrame g g' → g' regAx = x + y →
      Until (ListGo prog place) ((fibContract (j + 2)).Inside t m₀ fs) Q
        (⟨f.1, fs, t.withRegs g' fl t.sp, Nat.le_of_succ_le fits⟩, m)) :
    Until (ListGo prog place) ((fibContract (j + 2)).Inside t m₀ fs) Q
      (⟨k + 14, f :: fs, t.withRegs g fl (t.sp - BitVec.ofNat 64 8), fits⟩, m) := by
  have hsp : t.sp - BitVec.ofNat 64 8 + 8 = t.sp := by
    bv_omega
  have hsum : regSet g regBx y regAx + regSet g regBx y regBx = x + y := congrArg (· + y) hax
  refine until_plain (hcode 14 _ rfl) (fun _ => exec_pop hslot hsp) (fib_inside hm rfl) ?_
  refine until_plain (hcode 15 _ rfl) (fun _ => exec_add hsum) (fib_inside hm rfl) ?_
  refine until_leave (hcode 16 _ rfl) (.inl ⟨rfl, rfl⟩) (fib_inside hm rfl) ?_
  exact h _ (((FibFrame.refl g).set _ (.inr (.inl rfl))).set _ (.inl rfl)) rfl

/-- A call of the routine for a smaller number, with a word on the stack. -/
theorem fib_call {i pc : Nat} (hC : Meets prog place k (fibContract i))
    (hcall : prog[pc]? = some (.call k die)) (hi : i ≤ j + 1)
    (hroom : fs.length + (j + 2) ≤ frameDepth) (hax : g regAx = BitVec.ofNat 64 i)
    (hm : SameButBelow t.sp (8 * (j + 2)) m₀ m)
    (h : ∀ g' fl' m', FibFrame g g' → g' regAx = BitVec.ofNat 64 (Nat.fib i) →
      SameButBelow t.sp (8 * (j + 2)) m₀ m' →
      load 8 m' (t.sp - BitVec.ofNat 64 8) = load 8 m (t.sp - BitVec.ofNat 64 8) →
      Until (ListGo prog place) ((fibContract (j + 2)).Inside t m₀ fs) Q
        (⟨pc + 1, f :: fs, t.withRegs g' fl' (t.sp - BitVec.ofNat 64 8), fits⟩, m')) :
    Until (ListGo prog place) ((fibContract (j + 2)).Inside t m₀ fs) Q
      (⟨pc, f :: fs, t.withRegs g fl (t.sp - BitVec.ofNat 64 8), fits⟩, m) := by
  have hn : 8 * (j + 2) < 2 ^ 64 := by
    unfold frameDepth shadowDepth at hroom
    omega
  have hdepth : (f :: fs).length + max 1 i ≤ frameDepth := by
    rw [List.length_cons]
    omega
  refine until_call hcall hC (Nat.le_max_left 1 i) hdepth hax (fib_inside hm rfl) ?_ ?_
  · rintro ⟨s, m'⟩ ⟨hlen, hkeep⟩
    refine ⟨?_, hm.nested hkeep (by omega) hn⟩
    show s.frames.length ≤ fs.length + max 1 (j + 2)
    have hlen' : s.frames.length ≤ (f :: fs).length + max 1 i := hlen
    rw [List.length_cons] at hlen'
    omega
  · rintro ⟨⟨pc', frames, u, fits'⟩, m'⟩ ⟨rfl, hkeep, ⟨rfl, hax', hframe, hu⟩ | ⟨-, hthrow⟩⟩
    · have hkeep' : SameButBelow (t.sp - BitVec.ofNat 64 8) (8 * i) m m' := hkeep
      have hu' : u = t.withRegs u.gpr u.fl (t.sp - BitVec.ofNat 64 8) := hu
      rw [hu']
      exact h _ _ _ hframe hax' (hm.nested hkeep' (by omega) hn)
        (hkeep'.load (j := 0) (by omega) (by omega))
    · exact hthrow.elim

theorem fib_meets (hcode : ListsAt prog k (fibCode k die)) (n : Nat) :
    Meets prog place k (fibContract n) := by
  refine meets_rec Nat.lt_wfRel.wf (fun n ih => ?_) n
  intro f fs t m fits hroom hax
  have hdepth : fs.length + max 1 n ≤ 1024 := hroom
  have hm := SameButBelow.refl t.sp (8 * n) m
  refine fib_test (g := t.gpr) hcode (by omega) hax hm ?_ ?_
  · intro hn fl'
    refine until_leave (hcode 17 _ rfl) (.inl ⟨rfl, rfl⟩) (fib_inside hm rfl)
      (.here ⟨rfl, hm, .inl ⟨rfl, ?_⟩⟩)
    refine ⟨?_, (FibFrame.refl _).set _ (.inr (.inl rfl)), rfl⟩
    have hfib : Nat.fib n = n := by
      rcases Nat.le_one_iff_eq_zero_or_eq_one.mp hn with rfl | rfl <;> rfl
    rw [hfib]
    exact hax
  · intro hn fl'
    obtain ⟨j, rfl⟩ : ∃ j, n = j + 2 := ⟨n - 2, by omega⟩
    have hroom' : fs.length + (j + 2) ≤ frameDepth := by
      unfold frameDepth shadowDepth
      omega
    refine fib_first hcode (by omega) hax hm fun g₁ m₁ hg₁ hax₁ hm₁ hslot₁ => ?_
    refine fib_call (ih (j + 1) (Nat.lt_succ_self _)) (hcode 6 _ rfl) (Nat.le_refl _) hroom' hax₁
      hm₁ fun g₂ fl₂ m₂ hg₂ hax₂ hm₂ hslot₂ => ?_
    refine fib_between hcode (by omega) hax₂ hm₂ (hslot₂.trans hslot₁)
      fun g₃ m₃ hg₃ hax₃ hm₃ hslot₃ => ?_
    refine fib_call (ih j (by show j < j + 2; omega)) (hcode 13 _ rfl) (Nat.le_succ j) hroom' hax₃
      hm₃ fun g₄ fl₄ m₄ hg₄ hax₄ hm₄ hslot₄ => ?_
    refine fib_last hcode hax₄ hm₄ (hslot₄.trans hslot₃) fun g₅ hg₅ hax₅ => .here ?_
    have hframe : FibFrame t.gpr g₅ :=
      ((FibFrame.refl t.gpr).set 1 (.inr (.inl rfl))).trans hg₁ |>.trans hg₂ |>.trans hg₃
        |>.trans hg₄ |>.trans hg₅
    refine ⟨rfl, hm₄, .inl ⟨rfl, ?_, hframe, rfl⟩⟩
    show g₅ regAx = BitVec.ofNat 64 (Nat.fib (j + 2))
    rw [hax₅, Nat.fib_add_two, BitVec.ofNat_add]

end Fib

/-! ## 3. In the interpreter -/

/-- A call of the routine, wherever its listing lies in memory and whatever else that holds: if the
frames and the stack suffice for `n`, the interpreter comes to the instruction behind the call, with
the Fibonacci number in `ax`. -/
theorem fib_runs {a : Word} {prog : List (SymInstr Nat)} {text : List Byte} {k die err n : Nat}
    {s : ListState} {m : Mem} (hlaid : LaidOut a prog text) (hcode : ListsAt prog k (fibCode k die))
    (hcall : prog[s.pc]? = some (.call k err)) (hax : s.regs.gpr regAx = BitVec.ofNat 64 n)
    (hroom : s.frames.length + max 1 n ≤ frameDepth) (ht : TextAt a text m)
    (hapart : ∀ x, InBlock (s.regs.sp - BitVec.ofNat 64 (8 * n)) (8 * n) x →
      ¬ InBlock a text.length x) :
    Until VmGo (fun v => TextAt a text v.2)
      (fun v => ∃ g fl,
        v.1 = ((s.goto (s.pc + 1)).conc (instrPlace a prog)).withRegs g fl s.regs.sp ∧
        g regAx = BitVec.ofNat 64 (Nat.fib n) ∧ FibFrame s.regs.gpr g ∧
        SameButBelow s.regs.sp (8 * n) m v.2)
      (s.conc (instrPlace a prog), m) := by
  have hfits := hlaid.fits
  have hkeeps : ∀ m', SameButBelow s.regs.sp (8 * n) m m' → TextAt a text m' := by
    intro m' hm
    exact ht.congr (by omega) fun x hx => hm x fun hstack => hapart x hstack hx
  have hrun := hlaid.calls (fib_meets hcode n) (Nat.le_max_left 1 n) hcall hroom hax ht hkeeps
  refine hrun.mono (fun _ h => h) ?_
  rintro _ ⟨⟨⟨pc, frames, u, fits⟩, m'⟩, rfl, rfl, hm, ⟨rfl, hax', hframe, hu⟩ | ⟨-, hthrow⟩⟩
  · refine ⟨u.gpr, u.fl, ?_, hax', hframe, hm⟩
    have hu' : u = s.regs.withRegs u.gpr u.fl s.regs.sp := hu
    rw [hu']
    rfl
  · exact hthrow.elim

/-- The arrow in a comment of the source. -/
def arrow : List Byte := [0xe2, 0x86, 0x92]

/-- `test/asm/fib.asm`. -/
def fibAsm : List Byte := lit "; fib.asm " ++ dash ++ asmText
  [" fib(10) = 55 via call/ret",
   "; result = 55",
   "",
   ".data",
   "result: dq 0",
   "",
   ".text",
   "    mov  ax, 10",
   "    call fib, die",
   "    mov  bx, result",
   "    mov  [bx], ax",
   "    halt",
   "",
   "die:",
   "    halt",
   "",
   "; fib(n): n in ax, result in ax"] ++ lit "; base: n<=1 " ++ arrow ++ asmText
  [" return n",
   "fib:",
   "    mov  bx, 1",
   "    cmp  ax, bx",
   "    jle  fib_base",
   "",
   "    push ax              ; save n",
   "    mov  bx, 1",
   "    sub  ax, bx          ; ax = n-1",
   "    call fib, die        ; ax = fib(n-1)",
   "    push ax              ; save fib(n-1)",
   "",
   "    pop  ex              ; ex = fib(n-1)",
   "    pop  ax              ; ax = n",
   "    mov  bx, 2",
   "    sub  ax, bx          ; ax = n-2",
   "    push ex              ; re-save fib(n-1)",
   "    call fib, die        ; ax = fib(n-2)",
   "",
   "    pop  bx              ; bx = fib(n-1)",
   "    add  ax, bx          ; ax = fib(n-1) + fib(n-2)",
   "    ret",
   "",
   "fib_base:",
   "    ret"]

/-- The listing of `fibAsm` before the routine; its data lie at `result`. -/
def fibMain (result : Word) : List (SymInstr Nat) :=
  [.plain .movRI { d := regAx, imm := 10 } movRI_straight,
   .call 6 5,
   .plain .movRI { d := regBx, imm := result } movRI_straight,
   .plain .movMR { d := regBx, s := regAx } movMR_straight,
   .plain .halt {} halt_straight,
   .plain .halt {} halt_straight]

def fibListing (result : Word) : List (SymInstr Nat) := fibMain result ++ fibCode 6 5

theorem sourceListing_fibAsm :
    sourceListing sampleMaps zeroEnv fibAsm = some (fibListing sampleMaps.data) := by
  decide +kernel

theorem listsAt_fibListing (result : Word) : ListsAt (fibListing result) 6 (fibCode 6 5) := by
  intro i j hj
  rw [fibListing, List.getElem?_append_right (Nat.le_add_right 6 i)]
  show (fibCode 6 5)[6 + i - 6]? = some j
  rwa [Nat.add_sub_cancel_left]

/-- The call of `fibAsm`, behind `mov ax, 10`. -/
def fibCall (t : VMThread) : ListState := ⟨1, [], t.setReg regAx 10, Nat.zero_le _⟩

theorem fibAsm_runs : ∃ ctx ld m' t, asmCompile zeroEnv fibAsm = .ok ctx ∧
    dvmLoad sampleMaps (fun _ => 0) (asmToProg ctx) = .ok (ld, m') ∧ cmdRun 0x8000 ld = some t ∧
    Until VmGo (fun v => TextAt sampleMaps.code (readBytes m' sampleMaps.code 108) v.2)
      (fun v => v.1.gpr regAx = 55)
      ((fibCall t).conc (instrPlace sampleMaps.code (fibListing sampleMaps.data)), m') := by
  obtain ⟨ctx, hasm, hok, hlen⟩ : ∃ ctx, asmCompile zeroEnv fibAsm = .ok ctx ∧
      ((dvmLoad sampleMaps (fun _ => 0) (asmToProg ctx)).isOk = true ∧
        ctx.text.bytes.length = 108) :=
    exists_ok_of_decide (by decide +kernel)
  obtain ⟨⟨ld, m'⟩, hload⟩ := exists_ok_of_isOk hok
  have hgap : (sourceNames zeroEnv fibAsm).NoGap := NameTable.noGap_of_all (by decide +kernel)
  have hlaid : LaidOut sampleMaps.code (fibListing sampleMaps.data)
      (readBytes m' sampleMaps.code ctx.text.bytes.length) :=
    Assembly.laidOut (u := ⟨zeroEnv, fibAsm, ctx, hasm⟩) sourceListing_fibAsm hload hgap
  rw [hlen] at hlaid
  obtain ⟨t, hrun⟩ := exists_cmdRun 0x8000 hload
  have hsp : t.sp = 0x108000 := by
    obtain ⟨code, -, rfl⟩ := Option.map_eq_some_iff.mp hrun
    rfl
  have hlen' : (readBytes m' sampleMaps.code 108).length = 108 := length_readBytes _ _ _
  refine ⟨ctx, ld, m', t, hasm, hload, hrun, ?_⟩
  refine (fib_runs (s := fibCall t) (n := 10) hlaid (listsAt_fibListing _) rfl rfl
    (show 0 + max 1 10 ≤ frameDepth by decide) (textAt_readBytes m' _ _) ?_).mono
    (fun _ h => h) ?_
  · intro x hx hx'
    have hsp' : (fibCall t).regs.sp = 0x108000 := hsp
    have hcode : sampleMaps.code = 0x3000 := rfl
    rw [hlen', hcode] at hx'
    rw [hsp'] at hx
    unfold InBlock at hx hx'
    bv_omega
  · rintro _ ⟨g, fl, hv, hg, -, -⟩
    rw [hv]
    exact hg

end Dvm
