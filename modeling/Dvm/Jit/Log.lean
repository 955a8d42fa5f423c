/-
# The code buffer as a log

An emission asks `jit_buf_alloc` for room and stores its bytes there.  A buffer that is too small is
copied to one of twice its capacity, and nobody looks whether that is enough: from a capacity below
8 on, an emission of several bytes can end behind it.

`JitBufMem` is the buffer as it lies in memory, growth and copying included; the `JitBuf` that the
block compiler's results are about is what is seen of it (`store_views`).  It is a log within its
capacity after each emission exactly if one doubling makes room for each (`alwaysLog_iff`), which
is so whatever is emitted if the buffer begins with 8 bytes or more (`always_alwaysLog_iff`).
-/
import Mathlib.Data.List.Induction
import Dvm.Jit.Emit

namespace Dvm

open Bytes ByteMem

/-! ## 1. The buffer in memory -/

/-- `memcpy` of `bs` to position `p`. -/
def storeAt (mem : Nat → Byte) (p : Nat) (bs : List Byte) : Nat → Byte :=
  fun q => if q < p then mem q else bs.getD (q - p) (mem q)

structure JitBufMem where
  /-- Memory from `buf` on. -/
  mem : Nat → Byte
  len : Nat
  cap : Nat

/-- The bytes in use. -/
def JitBufMem.used (j : JitBufMem) : List Byte := (List.range j.len).map j.mem

def JitBufMem.new (cap : Nat) : JitBufMem where
  mem := fun _ => 0
  len := 0
  cap := cap

/-- The branch of `jit_buf_alloc` that maps a new buffer. -/
def JitBufMem.grow (j : JitBufMem) : JitBufMem :=
  { j with mem := storeAt (fun _ => 0) 0 j.used, cap := j.cap * 2 }

/-- `jit_buf_alloc`, with the position it returns. -/
def JitBufMem.alloc (j : JitBufMem) (need : Nat) : JitBufMem × Nat :=
  let j := if j.len + need > j.cap then j.grow else j
  ({ j with len := j.len + need }, j.len)

def JitBufMem.store (j : JitBufMem) (bs : List Byte) : JitBufMem :=
  let a := j.alloc bs.length
  { a.1 with mem := storeAt a.1.mem a.2 bs }

/-- A call of a primitive emitter. -/
inductive Emission where
  | u8 (v : Byte)
  | u16 (v : BitVec 16)
  | u32 (v : BitVec 32)
  | i32 (v : Int32)
  | u64 (v : Word)

def Emission.code : Emission → JitCode
  | u8 v => jitU8 v
  | u16 v => jitU16 v
  | u32 v => jitU32 v
  | i32 v => jitI32 v
  | u64 v => jitU64 v

def Emission.bytes (e : Emission) : List Byte := e.code.flatten

def JitBufMem.emit (j : JitBufMem) (e : Emission) : JitBufMem := e.code.foldl JitBufMem.store j

/-- The buffer of a capacity after some emissions. -/
def bufAfter (cap : Nat) (es : List Emission) : JitBufMem := es.foldl JitBufMem.emit (.new cap)

/-- The buffer holds the emissions `es`, within its capacity. -/
structure IsLog (es : List Emission) (j : JitBufMem) : Prop where
  room : j.len ≤ j.cap
  len : j.len = (es.map fun e => e.bytes.length).sum
  bytes : j.used = es.flatMap Emission.bytes

/-! ## 2. Storing -/

theorem map_storeAt (mem : Nat → Byte) (n : Nat) (bs : List Byte) :
    (List.range (n + bs.length)).map (storeAt mem n bs) = (List.range n).map mem ++ bs := by
  rw [List.range_add, List.map_append, List.map_map]
  congr 1
  · refine List.map_congr_left fun q hq => ?_
    rw [storeAt, if_pos (List.mem_range.mp hq)]
  · refine List.ext_getElem (by simp) fun i h _ => ?_
    have hi : i < bs.length := by simpa using h
    simp [storeAt, List.getElem?_eq_getElem hi]

theorem used_grow (j : JitBufMem) : j.grow.used = j.used := by
  have hlen : j.used.length = j.len := by simp [JitBufMem.used]
  have hcopy := map_storeAt (fun _ => 0) 0 j.used
  rw [Nat.zero_add, hlen] at hcopy
  exact hcopy

/-- The buffer that has room, or is made to. -/
theorem store_eq (j : JitBufMem) (bs : List Byte) :
    ∃ k : JitBufMem, k.used = j.used ∧ k.len = j.len ∧
      k.cap = (if j.len + bs.length > j.cap then j.cap * 2 else j.cap) ∧
      j.store bs = { k with len := k.len + bs.length, mem := storeAt k.mem k.len bs } := by
  by_cases h : j.len + bs.length > j.cap
  · exact ⟨j.grow, used_grow j, rfl, by rw [if_pos h]; rfl,
      by simp only [JitBufMem.store, JitBufMem.alloc, if_pos h]⟩
  · exact ⟨j, rfl, rfl, by rw [if_neg h],
      by simp only [JitBufMem.store, JitBufMem.alloc, if_neg h]⟩

/-- What an emitter stores stands behind what was there. -/
theorem used_store (j : JitBufMem) (bs : List Byte) : (j.store bs).used = j.used ++ bs := by
  obtain ⟨k, hused, -, -, hk⟩ := store_eq j bs
  rw [hk, ← hused]
  exact map_storeAt k.mem k.len bs

theorem len_store (j : JitBufMem) (bs : List Byte) : (j.store bs).len = j.len + bs.length := by
  obtain ⟨k, -, hlen, -, hk⟩ := store_eq j bs
  rw [hk, hlen]

theorem cap_store (j : JitBufMem) (bs : List Byte) :
    (j.store bs).cap = if j.len + bs.length > j.cap then j.cap * 2 else j.cap := by
  obtain ⟨k, -, -, hcap, hk⟩ := store_eq j bs
  rw [hk, hcap]

/-- The block compiler's buffer sees the bytes in use and the capacity. -/
def JitBufMem.Views (j : JitBufMem) (b : JitBuf) : Prop := j.used = b.bytes ∧ j.cap = b.cap

theorem JitBufMem.Views.len_eq {j : JitBufMem} {b : JitBuf} (h : j.Views b) : j.len = b.len := by
  rw [JitBuf.len, ← h.1]
  simp [JitBufMem.used]

theorem new_views (env : JitEnv) (cap : Nat) : (JitBufMem.new cap).Views (jitBufNew env cap) :=
  ⟨rfl, rfl⟩

theorem store_views (env : JitEnv) {j : JitBufMem} {b : JitBuf} (h : j.Views b) (bs : List Byte) :
    (j.store bs).Views (jitStore env b bs) := by
  refine ⟨?_, ?_⟩
  · have hbytes := emit_bytes env b [bs]
    rw [jitEmit_cons, jitEmit_nil, List.flatten_singleton] at hbytes
    rw [used_store, hbytes, h.1]
  · rw [cap_store, h.len_eq, h.2, jitStore, jitBufAlloc]
    split <;> rfl

/-! ## 3. Emissions -/

/-- Each emitter asks for room once. -/
theorem code_eq (e : Emission) : e.code = [e.bytes] := by
  cases e <;> simp [Emission.bytes, Emission.code, jitU8, jitU16, jitU32, jitI32, jitU64]

theorem emit_eq (j : JitBufMem) (e : Emission) : j.emit e = j.store e.bytes := by
  rw [JitBufMem.emit, code_eq]
  rfl

theorem length_bytes_le (e : Emission) : e.bytes.length ≤ 8 := by
  cases e <;> simp [Emission.bytes, Emission.code, jitU8, jitU16, jitU32, jitI32, jitU64]

@[simp] theorem bufAfter_snoc (cap : Nat) (es : List Emission) (e : Emission) :
    bufAfter cap (es ++ [e]) = (bufAfter cap es).emit e := by
  simp [bufAfter]

theorem used_bufAfter (cap : Nat) (es : List Emission) :
    (bufAfter cap es).used = es.flatMap Emission.bytes := by
  induction es using List.reverseRecOn with
  | nil => rfl
  | append_singleton es e ih =>
    rw [bufAfter_snoc, emit_eq, used_store, ih, List.flatMap_append, List.flatMap_singleton]

theorem len_bufAfter (cap : Nat) (es : List Emission) :
    (bufAfter cap es).len = (es.map fun e => e.bytes.length).sum := by
  induction es using List.reverseRecOn with
  | nil => rfl
  | append_singleton es e ih =>
    rw [bufAfter_snoc, emit_eq, len_store, ih, List.map_append, List.sum_append,
      List.map_singleton, List.sum_singleton]

/-- The bytes are always there; only the capacity can be exceeded. -/
theorem isLog_bufAfter_iff (cap : Nat) (es : List Emission) :
    IsLog es (bufAfter cap es) ↔ (bufAfter cap es).len ≤ (bufAfter cap es).cap :=
  ⟨IsLog.room, fun h => ⟨h, len_bufAfter cap es, used_bufAfter cap es⟩⟩

/-- An emission stays within the capacity if one doubling makes room for it. -/
theorem room_emit_iff (j : JitBufMem) (e : Emission) :
    (j.emit e).len ≤ (j.emit e).cap ↔ j.len + e.bytes.length ≤ 2 * j.cap := by
  rw [emit_eq, len_store, cap_store]
  split <;> omega

/-! ## 4. Sequences of emissions -/

/-- After each of the emissions the buffer is a log of them. -/
def AlwaysLog (cap : Nat) (es : List Emission) : Prop :=
  ∀ n ≤ es.length, IsLog (es.take n) (bufAfter cap (es.take n))

/-- Each emission has room in twice the capacity before it. -/
def RoomInTwice (cap : Nat) (es : List Emission) : Prop :=
  ∀ n e, es[n]? = some e →
    (bufAfter cap (es.take n)).len + e.bytes.length ≤ 2 * (bufAfter cap (es.take n)).cap

theorem bufAfter_take_succ {cap n : Nat} {es : List Emission} {e : Emission}
    (he : es[n]? = some e) :
    bufAfter cap (es.take (n + 1)) = (bufAfter cap (es.take n)).emit e := by
  rw [List.take_add_one, he, Option.toList_some, bufAfter_snoc]

/-- A log after an emission had room for it. -/
theorem AlwaysLog.roomInTwice {cap : Nat} {es : List Emission} (h : AlwaysLog cap es) :
    RoomInTwice cap es := by
  intro n e he
  have hn : n < es.length := (List.getElem?_eq_some_iff.mp he).1
  have hafter := (h (n + 1) hn).room
  rwa [bufAfter_take_succ he, room_emit_iff] at hafter

/-- The code buffer is an append-only log within its capacity after each of the emissions, exactly
if each of them has room in twice the capacity that the buffer has before it.  `jit_buf_alloc`
doubles the capacity once and does not look whether that is enough. -/
theorem alwaysLog_iff (cap : Nat) (es : List Emission) :
    AlwaysLog cap es ↔ RoomInTwice cap es := by
  refine ⟨AlwaysLog.roomInTwice, fun h n hn => ?_⟩
  rw [isLog_bufAfter_iff]
  cases n with
  | zero => exact Nat.zero_le _
  | succ n =>
    obtain ⟨e, he⟩ : ∃ e, es[n]? = some e := ⟨_, List.getElem?_eq_getElem hn⟩
    rw [bufAfter_take_succ he, room_emit_iff]
    exact h n e he

/-- From a capacity of 4 a first byte leaves no room for a quadword. -/
theorem log_exceeds_capacity : ¬ ∀ (cap : Nat) (es : List Emission), 1 ≤ cap →
    AlwaysLog cap es := by
  intro hall
  have hlog := hall 4 [.u8 0, .u64 0] (by omega) 2 (Nat.le_refl _)
  exact absurd hlog.room (by decide)

theorem cap_bytes {cap k : Nat} (h : k ≤ cap) :
    (bufAfter cap (List.replicate k (.u8 0))).len = k ∧
      (bufAfter cap (List.replicate k (.u8 0))).cap = cap := by
  induction k with
  | zero => exact ⟨rfl, rfl⟩
  | succ k ih =>
    obtain ⟨hlen, hcap⟩ := ih (by omega)
    have hone : (Emission.u8 0).bytes.length = 1 := rfl
    rw [List.replicate_succ', bufAfter_snoc, emit_eq, len_store, cap_store, hlen, hcap, hone]
    exact ⟨rfl, if_neg (by omega)⟩

/-- A buffer is a log whatever is emitted exactly if it begins with room for a quadword. -/
theorem always_alwaysLog_iff (cap : Nat) : (∀ es, AlwaysLog cap es) ↔ 8 ≤ cap := by
  constructor
  · intro h
    have hroom := (h (List.replicate cap (.u8 0) ++ [.u64 0])).roomInTwice cap (.u64 0) (by simp)
    obtain ⟨hlen, hcap⟩ := cap_bytes (Nat.le_refl cap)
    have hquad : (Emission.u64 0).bytes.length = 8 := rfl
    rw [List.take_left' (by simp), hlen, hcap, hquad] at hroom
    omega
  · intro hcap es
    -- the capacity only grows
    have hgrow : ∀ es, 8 ≤ (bufAfter cap es).cap ∧
        (bufAfter cap es).len ≤ (bufAfter cap es).cap := by
      intro es
      induction es using List.reverseRecOn with
      | nil => exact ⟨hcap, Nat.zero_le _⟩
      | append_singleton es e ih =>
        have hlen := length_bytes_le e
        rw [bufAfter_snoc, room_emit_iff]
        refine ⟨?_, by omega⟩
        rw [emit_eq, cap_store]
        split <;> omega
    exact fun n _ => (isLog_bufAfter_iff cap _).mpr (hgrow _).2

end Dvm
