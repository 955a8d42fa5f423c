/-
# A flat byte-addressed memory

A 64-bit address space as a total function from addresses to bytes, with the two block
operations a C program performs on it: reading `n` consecutive bytes and storing a byte
string.  A store is a `patch` of every block it lies in (`readBytes_writeBytes`).  Addresses wrap
around modulo `2 ^ 64`, as pointers do.
-/
import Dvm.Base.Bytes

namespace ByteMem

open Bytes

/-- A machine word, also the type of addresses. -/
abbrev Word := BitVec 64

/-- The contents of memory. -/
abbrev Mem := Word → Byte

/-- The `n` bytes from address `a` on. -/
def readBytes (m : Mem) (a : Word) : Nat → List Byte
  | 0 => []
  | n + 1 => m a :: readBytes m (a + 1) n

/-- Memory after storing `bs` from address `a` on. -/
def writeBytes (m : Mem) (a : Word) (bs : List Byte) : Mem :=
  fun x => bs[(x - a).toNat]?.getD (m x)

@[simp] theorem length_readBytes (m : Mem) (a : Word) (n : Nat) :
    (readBytes m a n).length = n := by
  induction n generalizing a with
  | zero => rfl
  | succ n ih => simp [readBytes, ih]

theorem getElem?_readBytes (m : Mem) (a : Word) {n i : Nat} (hi : i < n) :
    (readBytes m a n)[i]? = some (m (a + BitVec.ofNat 64 i)) := by
  induction n generalizing a i with
  | zero => omega
  | succ n ih =>
    cases i with
    | zero => simp [readBytes]
    | succ i =>
      simp only [readBytes, List.getElem?_cons_succ]
      rw [ih (a + 1) (by omega)]
      congr 2
      rw [BitVec.ofNat_add]
      ac_rfl

/-- A block within a block that is read. -/
theorem readBytes_sub (m : Mem) (a : Word) {n p k : Nat} (h : p + k ≤ n) :
    readBytes m (a + BitVec.ofNat 64 p) k = field (readBytes m a n) p k := by
  apply List.ext_getElem?
  intro i
  rcases Nat.lt_or_ge i k with hi | hi
  · rw [getElem?_readBytes m _ hi, getElem?_field hi, getElem?_readBytes m a (by omega),
      BitVec.ofNat_add, BitVec.add_assoc]
  · rw [List.getElem?_eq_none (by simpa using hi),
      List.getElem?_eq_none (by simp [field]; omega)]

/-! ## Stores -/

/-- The addresses of an `n`-byte block at `a`. -/
def InBlock (a : Word) (n : Nat) (x : Word) : Prop := (x - a).toNat < n

instance InBlock.decidable (a : Word) (n : Nat) (x : Word) : Decidable (InBlock a n x) :=
  inferInstanceAs (Decidable (_ < _))

/-- Neither block is empty, and one of them begins in the other. -/
def BlocksMeet (a : Word) (n : Nat) (b : Word) (k : Nat) : Prop :=
  0 < n ∧ 0 < k ∧ (InBlock a n b ∨ InBlock b k a)

instance BlocksMeet.decidable (a : Word) (n : Nat) (b : Word) (k : Nat) :
    Decidable (BlocksMeet a n b k) := inferInstanceAs (Decidable (_ ∧ _))

/-- Two blocks with an address in common meet. -/
theorem BlocksMeet.of_inBlock {a b x : Word} {n k : Nat} (ha : InBlock a n x)
    (hb : InBlock b k x) : BlocksMeet a n b k := by
  unfold InBlock at ha hb
  refine ⟨Nat.zero_lt_of_lt ha, Nat.zero_lt_of_lt hb, ?_⟩
  unfold InBlock
  rcases Nat.le_total (x - b).toNat (x - a).toNat with hle | hle
  · left
    have hsub : b - a = (x - a) - (x - b) := by bv_omega
    rw [hsub, BitVec.toNat_sub_of_le (BitVec.le_def.mpr hle)]
    omega
  · right
    have hsub : a - b = (x - b) - (x - a) := by bv_omega
    rw [hsub, BitVec.toNat_sub_of_le (BitVec.le_def.mpr hle)]
    omega

theorem inBlock_add (a : Word) {n k : Nat} (h : k < n) : InBlock a n (a + BitVec.ofNat 64 k) := by
  rw [InBlock, BitVec.add_comm, BitVec.add_sub_cancel, BitVec.toNat_ofNat]
  exact Nat.lt_of_le_of_lt (Nat.mod_le _ _) h

/-- A store changes no byte outside its block. -/
theorem writeBytes_of_not_inBlock {a x : Word} {bs : List Byte} (m : Mem)
    (h : ¬ InBlock a bs.length x) : writeBytes m a bs x = m x := by
  rw [writeBytes, List.getElem?_eq_none (Nat.le_of_not_lt h)]
  rfl

/-- How far address `i` of a block lies behind its address `p`. -/
theorem toNat_add_sub_add (a : Word) {i p : Nat} (hi : i < 2 ^ 64) (hp : p < 2 ^ 64) :
    (a + BitVec.ofNat 64 i - (a + BitVec.ofNat 64 p)).toNat
      = if p ≤ i then i - p else 2 ^ 64 - (p - i) := by
  have hsub : a + BitVec.ofNat 64 i - (a + BitVec.ofNat 64 p)
      = BitVec.ofNat 64 i - BitVec.ofNat 64 p := by
    rw [BitVec.add_comm a, ← BitVec.sub_sub, BitVec.add_sub_cancel]
  rw [hsub, BitVec.toNat_sub, BitVec.toNat_ofNat, BitVec.toNat_ofNat, Nat.mod_eq_of_lt hi,
    Nat.mod_eq_of_lt hp]
  split <;> omega

/-- An address in a block that lies `p` behind `a`. -/
theorem inBlock_offset {a x : Word} {p k : Nat} (h : p + k < 2 ^ 64)
    (hx : InBlock (a + BitVec.ofNat 64 p) k x) : p ≤ (x - a).toNat ∧ (x - a).toNat < p + k := by
  unfold InBlock at hx
  have hsplit : x - a = (x - (a + BitVec.ofNat 64 p)) + BitVec.ofNat 64 p := by
    rw [← BitVec.sub_sub, BitVec.sub_add_cancel]
  rw [hsplit, BitVec.toNat_add, BitVec.toNat_ofNat, Nat.mod_eq_of_lt (by omega : p < 2 ^ 64),
    Nat.mod_eq_of_lt (by omega)]
  omega

/-- A block within a block. -/
theorem inBlock_of_sub {a x : Word} {p k n : Nat} (h : p + k ≤ n) (hn : n < 2 ^ 64)
    (hx : InBlock (a + BitVec.ofNat 64 p) k x) : InBlock a n x := by
  have hoff := (inBlock_offset (by omega) hx).2
  unfold InBlock
  omega

/-- Two blocks of which one ends before the other begins. -/
theorem not_inBlock_of_sep {a x : Word} {p k q l : Nat} (hp : p + k < 2 ^ 64)
    (hq : q + l < 2 ^ 64) (hsep : p + k ≤ q ∨ q + l ≤ p)
    (hx : InBlock (a + BitVec.ofNat 64 p) k x) : ¬ InBlock (a + BitVec.ofNat 64 q) l x := by
  intro hx'
  have hoff := inBlock_offset hp hx
  have hoff' := inBlock_offset hq hx'
  omega

/-- Stores to blocks that do not overlap can be exchanged. -/
theorem writeBytes_comm {a b : Word} {v w : List Byte} (m : Mem)
    (h : ∀ x, InBlock a v.length x → ¬ InBlock b w.length x) :
    writeBytes (writeBytes m a v) b w = writeBytes (writeBytes m b w) a v := by
  funext x
  rcases Decidable.em (InBlock a v.length x) with ha | ha
  · rw [writeBytes_of_not_inBlock _ (h x ha)]
    unfold InBlock at ha
    rw [writeBytes, writeBytes, List.getElem?_eq_getElem ha, Option.getD_some, Option.getD_some]
  · rw [writeBytes_of_not_inBlock _ ha]
    show w[(x - b).toNat]?.getD (writeBytes m a v x) = w[(x - b).toNat]?.getD (m x)
    rw [writeBytes_of_not_inBlock _ ha]

/-- Memories with the same bytes in a block read the same there. -/
theorem readBytes_congr {m m' : Mem} {a : Word} {n : Nat} (hn : n < 2 ^ 64)
    (h : ∀ x, InBlock a n x → m x = m' x) : readBytes m a n = readBytes m' a n := by
  apply List.ext_getElem?
  intro i
  rcases Nat.lt_or_ge i n with hi | hi
  · rw [getElem?_readBytes m a hi, getElem?_readBytes m' a hi, h]
    unfold InBlock
    rw [BitVec.add_comm, BitVec.add_sub_cancel, BitVec.toNat_ofNat, Nat.mod_eq_of_lt (by omega)]
    exact hi
  · rw [List.getElem?_eq_none (by simpa using hi), List.getElem?_eq_none (by simpa using hi)]

/-- A store inside a block is a patch of what the block reads. -/
theorem readBytes_writeBytes {m : Mem} {a : Word} {n p : Nat} {v : List Byte}
    (h : p + v.length ≤ n) (hn : n < 2 ^ 64) :
    readBytes (writeBytes m (a + BitVec.ofNat 64 p) v) a n = patch (readBytes m a n) p v := by
  have hfit : p + v.length ≤ (readBytes m a n).length := by rwa [length_readBytes]
  apply List.ext_getElem?
  intro i
  rcases Nat.lt_or_ge i n with hi | hi
  · rw [getElem?_readBytes _ a hi, writeBytes, toNat_add_sub_add a (by omega) (by omega)]
    by_cases hmem : p ≤ i ∧ i < p + v.length
    · obtain ⟨d, rfl⟩ : ∃ d, i = p + d := ⟨i - p, by omega⟩
      rw [getElem?_patch_of_mem hfit (by omega), if_pos hmem.1, Nat.add_sub_cancel_left,
        List.getElem?_eq_getElem (by omega)]
      rfl
    · rw [getElem?_patch_of_disjoint hfit (by omega), getElem?_readBytes m a hi,
        List.getElem?_eq_none (by split <;> omega)]
      rfl
  · rw [List.getElem?_eq_none (by simpa using hi),
      List.getElem?_eq_none (by rw [length_patch hfit]; simpa using hi)]

/-- Whatever is stored, a block holds the stored bytes where they lie in it, and its own. -/
theorem readBytes_writeBytes_meet (m : Mem) (a p : Word) (n : Nat) (v : List Byte) :
    readBytes (writeBytes m a v) p n
      = (readBytes m p n).mapIdx fun k b => v[(p - a + BitVec.ofNat 64 k).toNat]?.getD b := by
  apply List.ext_getElem?
  intro i
  rw [List.getElem?_mapIdx]
  rcases Nat.lt_or_ge i n with hi | hi
  · have hsub : p + BitVec.ofNat 64 i - a = p - a + BitVec.ofNat 64 i := by
      rw [BitVec.sub_eq_add_neg, BitVec.sub_eq_add_neg, BitVec.add_assoc, BitVec.add_assoc,
        BitVec.add_comm (-a)]
    rw [getElem?_readBytes _ p hi, getElem?_readBytes m p hi, writeBytes, hsub]
    rfl
  · have hnone : ∀ m : Mem, (readBytes m p n)[i]? = none := fun m =>
      List.getElem?_eq_none ((length_readBytes m p n).symm ▸ hi)
    rw [hnone, hnone]
    rfl

/-- A whole block that was stored is read back. -/
theorem readBytes_writeBytes_self (m : Mem) (a : Word) {bs : List Byte}
    (h : bs.length < 2 ^ 64) : readBytes (writeBytes m a bs) a bs.length = bs := by
  have hfit : 0 + bs.length ≤ (readBytes m a bs.length).length := by simp
  have hpatch := readBytes_writeBytes (m := m) (a := a) (n := bs.length) (p := 0) (v := bs)
    (by omega) h
  rw [BitVec.add_zero] at hpatch
  rw [hpatch, patch]
  simp

end ByteMem
