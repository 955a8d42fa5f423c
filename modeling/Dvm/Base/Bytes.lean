/-
# Byte strings: little-endian fields and patches

Two facts about finite byte strings carry everything that is written to a file, a section
buffer or memory in this development.

* **Encoding.**  `le n v` is the `n`-byte little-endian encoding of the number `v`, and
  `ofLe` reads it back, up to reduction modulo `256 ^ n` (`ofLe_le`), so a field that was
  written with enough bytes is read unchanged.
* **Patching.**  `patch bs p v` overwrites the bytes of `bs` from position `p` on by `v`, and
  `field bs p n` cuts the `n` bytes at `p` out.  A patch is read back where it was made
  (`field_patch_same`) and nowhere else (`field_patch_disjoint`); `patchAll` makes several.
-/
import Mathlib.Data.List.Basic
import Mathlib.Tactic.Ring
import Mathlib.Tactic.Linarith

/-- One byte. -/
abbrev Byte := BitVec 8

namespace Bytes

/-! ## 1. Little-endian numbers -/

/-- The `n`-byte little-endian encoding of `v`; what does not fit is cut off. -/
def le : Nat → Nat → List Byte
  | 0, _ => []
  | n + 1, v => BitVec.ofNat 8 v :: le n (v / 256)

/-- The number a little-endian byte string denotes. -/
def ofLe : List Byte → Nat
  | [] => 0
  | b :: bs => b.toNat + 256 * ofLe bs

@[simp] theorem length_le (n v : Nat) : (le n v).length = n := by
  induction n generalizing v with
  | zero => rfl
  | succ n ih => simp [le, ih]

/-- Reading an encoding back gives the number modulo the size of the field. -/
theorem ofLe_le (n v : Nat) : ofLe (le n v) = v % 256 ^ n := by
  induction n generalizing v with
  | zero => simp [le, ofLe, Nat.mod_one]
  | succ n ih =>
    have hb : (BitVec.ofNat 8 v).toNat = v % 256 := BitVec.toNat_ofNat v 8
    rw [le, ofLe, ih, hb, pow_succ, Nat.mul_comm (256 ^ n) 256, Nat.mod_mul]

/-- A number that fits its field survives the round trip. -/
theorem ofLe_le_of_lt {n v : Nat} (h : v < 256 ^ n) : ofLe (le n v) = v := by
  rw [ofLe_le, Nat.mod_eq_of_lt h]

theorem ofLe_lt (bs : List Byte) : ofLe bs < 256 ^ bs.length := by
  induction bs with
  | nil => exact Nat.one_pos
  | cons b bs ih =>
    have hb : b.toNat < 256 := b.isLt
    rw [ofLe, List.length_cons, pow_succ]
    omega

/-- A byte string is the encoding of the number it denotes. -/
theorem le_ofLe (bs : List Byte) : le bs.length (ofLe bs) = bs := by
  induction bs with
  | nil => rfl
  | cons b bs ih =>
    have hb : b.toNat < 256 := b.isLt
    have hdiv : (b.toNat + 256 * ofLe bs) / 256 = ofLe bs := by omega
    have hhead : BitVec.ofNat 8 (b.toNat + 256 * ofLe bs) = b := by
      apply BitVec.eq_of_toNat_eq
      rw [BitVec.toNat_ofNat]
      omega
    rw [List.length_cons, ofLe, le, hdiv, ih, hhead]

/-! ## 2. Fields and patches -/

/-- The `n` bytes at position `p`. -/
def field (bs : List Byte) (p n : Nat) : List Byte := (bs.drop p).take n

/-- `memcpy` of `v` to position `p` of a buffer. -/
def patch (bs : List Byte) (p : Nat) (v : List Byte) : List Byte :=
  bs.take p ++ v ++ bs.drop (p + v.length)

theorem length_patch {bs : List Byte} {p : Nat} {v : List Byte}
    (h : p + v.length ≤ bs.length) : (patch bs p v).length = bs.length := by
  simp only [patch, List.length_append, List.length_take, List.length_drop]
  omega

/-- A byte outside the patched range keeps its value. -/
theorem getElem?_patch_of_disjoint {bs : List Byte} {p : Nat} {v : List Byte} {i : Nat}
    (h : p + v.length ≤ bs.length) (hi : i < p ∨ p + v.length ≤ i) :
    (patch bs p v)[i]? = bs[i]? := by
  have hlen : (bs.take p).length = p := by rw [List.length_take]; omega
  rcases hi with hi | hi
  · rw [patch, List.append_assoc, List.getElem?_append_left (by omega),
      List.getElem?_take_of_lt hi]
  · rw [patch, List.getElem?_append_right (by rw [List.length_append]; omega),
      List.length_append, hlen, List.getElem?_drop]
    congr 1
    omega

/-- A byte inside the patched range is the patch's. -/
theorem getElem?_patch_of_mem {bs : List Byte} {p : Nat} {v : List Byte} {i : Nat}
    (h : p + v.length ≤ bs.length) (hi : i < v.length) :
    (patch bs p v)[p + i]? = v[i]? := by
  have hlen : (bs.take p).length = p := by rw [List.length_take]; omega
  rw [patch, List.append_assoc, List.getElem?_append_right (by omega), hlen,
    Nat.add_sub_cancel_left, List.getElem?_append_left hi]

/-- A patch that begins inside a byte string can end behind it. -/
theorem length_le_patch {bs : List Byte} {p : Nat} {v : List Byte} (h : p ≤ bs.length) :
    bs.length ≤ (patch bs p v).length := by
  simp only [patch, List.length_append, List.length_take, List.length_drop]
  omega

theorem getElem?_patch_before {bs : List Byte} {p : Nat} {v : List Byte} {i : Nat}
    (h : p ≤ bs.length) (hi : i < p) : (patch bs p v)[i]? = bs[i]? := by
  have hlen : (bs.take p).length = p := by rw [List.length_take]; omega
  rw [patch, List.append_assoc, List.getElem?_append_left (by omega),
    List.getElem?_take_of_lt hi]

theorem field_patch_self {bs : List Byte} {p : Nat} {v : List Byte} (h : p ≤ bs.length) :
    field (patch bs p v) p v.length = v := by
  have hlen : (bs.take p).length = p := by rw [List.length_take]; omega
  rw [field, patch, List.append_assoc, List.drop_left' hlen, List.take_left' rfl]

theorem getElem?_field {bs : List Byte} {p n i : Nat} (hi : i < n) :
    (field bs p n)[i]? = bs[p + i]? := by
  rw [field, List.getElem?_take_of_lt hi, List.getElem?_drop]

/-- Two byte strings with the same bytes in a range have the same field there. -/
theorem field_congr {bs bs' : List Byte} {p n : Nat}
    (h : ∀ i, i < n → bs[p + i]? = bs'[p + i]?) : field bs p n = field bs' p n := by
  apply List.ext_getElem?
  intro i
  rcases Nat.lt_or_ge i n with hi | hi
  · rw [getElem?_field hi, getElem?_field hi, h i hi]
  · rw [List.getElem?_eq_none (by simp [field]; omega),
      List.getElem?_eq_none (by simp [field]; omega)]

/-- A patch is what one reads at its own place. -/
theorem field_patch_same {bs : List Byte} {p : Nat} {v : List Byte}
    (h : p + v.length ≤ bs.length) : field (patch bs p v) p v.length = v := by
  apply List.ext_getElem?
  intro i
  rcases Nat.lt_or_ge i v.length with hi | hi
  · rw [getElem?_field hi, getElem?_patch_of_mem h hi]
  · rw [List.getElem?_eq_none (by simp [field]; omega), List.getElem?_eq_none hi]

/-- A patch leaves every field alone that it does not overlap. -/
theorem field_patch_disjoint {bs : List Byte} {p q n : Nat} {v : List Byte}
    (h : p + v.length ≤ bs.length) (hd : q + n ≤ p ∨ p + v.length ≤ q) :
    field (patch bs p v) q n = field bs q n :=
  field_congr fun i hi => getElem?_patch_of_disjoint h (by omega)

/-- A patch inside a field patches the field. -/
theorem field_patch_within {bs : List Byte} {p n q : Nat} {v : List Byte} (h : p + n ≤ bs.length)
    (hq : q + v.length ≤ n) : field (patch bs (p + q) v) p n = patch (field bs p n) q v := by
  have hlen : (field bs p n).length = n := by
    rw [field, List.length_take, List.length_drop]
    omega
  have hfit : q + v.length ≤ (field bs p n).length := by omega
  apply List.ext_getElem?
  intro i
  rcases Nat.lt_or_ge i n with hi | hi
  · rw [getElem?_field hi]
    by_cases hin : q ≤ i ∧ i < q + v.length
    · obtain ⟨k, rfl⟩ : ∃ k, i = q + k := ⟨i - q, by omega⟩
      rw [← Nat.add_assoc, getElem?_patch_of_mem (by omega) (by omega),
        getElem?_patch_of_mem hfit (by omega)]
    · rw [getElem?_patch_of_disjoint (by omega) (by omega),
        getElem?_patch_of_disjoint hfit (by omega), getElem?_field hi]
  · rw [List.getElem?_eq_none (by simp [field]; omega),
      List.getElem?_eq_none (by rw [length_patch hfit]; omega)]

/-- A patch of the length of what it overwrites. -/
theorem patch_append (a b c : List Byte) {v : List Byte} (h : v.length = b.length) :
    patch (a ++ b ++ c) a.length v = a ++ v ++ c := by
  rw [patch, h, ← List.length_append, List.drop_left, List.append_assoc a b c, List.take_left]

/-- Appending behind a field does not change it. -/
theorem field_append_left {bs tail : List Byte} {p n : Nat} (h : p + n ≤ bs.length) :
    field (bs ++ tail) p n = field bs p n :=
  field_congr fun i hi => List.getElem?_append_left (by omega)

/-- A field behind a prefix is the field of the rest. -/
theorem field_append_right (pre bs : List Byte) (p n : Nat) :
    field (pre ++ bs) (pre.length + p) n = field bs p n := by
  have hpre : pre.drop (pre.length + p) = [] := List.drop_eq_nil_of_le (by omega)
  rw [field, field, List.drop_append, hpre, Nat.add_sub_cancel_left, List.nil_append]

/-- A field of a field. -/
theorem field_field {bs : List Byte} {p n q k : Nat} (h : q + k ≤ n) :
    field (field bs p n) q k = field bs (p + q) k := by
  apply List.ext_getElem?
  intro i
  rcases Nat.lt_or_ge i k with hi | hi
  · rw [getElem?_field hi, getElem?_field (by omega), getElem?_field hi, Nat.add_assoc]
  · rw [List.getElem?_eq_none (by simp [field]; omega),
      List.getElem?_eq_none (by simp [field]; omega)]

/-- The field that was just appended. -/
theorem field_append_self (bs v : List Byte) : field (bs ++ v) bs.length v.length = v := by
  simp [field]

/-! ## 3. Several patches -/

/-- The patches `ps` of positions and bytes, one after the other. -/
def patchAll (bs : List Byte) (ps : List (Nat × List Byte)) : List Byte :=
  ps.foldl (fun c x => patch c x.1 x.2) bs

variable {bs : List Byte} {ps : List (Nat × List Byte)}

theorem length_patchAll (h : ∀ x ∈ ps, x.1 + x.2.length ≤ bs.length) :
    (patchAll bs ps).length = bs.length := by
  induction ps generalizing bs with
  | nil => rfl
  | cons x ps ih =>
    obtain ⟨hx, hps⟩ := List.forall_mem_cons.mp h
    have hlen := length_patch hx
    exact (ih (by simpa only [hlen] using hps)).trans hlen

/-- Patches that do not overlap a field leave it alone. -/
theorem field_patchAll_disjoint {p n : Nat} (h : ∀ x ∈ ps, x.1 + x.2.length ≤ bs.length)
    (hd : ∀ x ∈ ps, x.1 + x.2.length ≤ p ∨ p + n ≤ x.1) :
    field (patchAll bs ps) p n = field bs p n := by
  induction ps generalizing bs with
  | nil => rfl
  | cons x ps ih =>
    obtain ⟨hx, hps⟩ := List.forall_mem_cons.mp h
    obtain ⟨hdx, hds⟩ := List.forall_mem_cons.mp hd
    have hlen := length_patch hx
    exact (ih (by simpa only [hlen] using hps) hds).trans (field_patch_disjoint hx hdx.symm)

/-- A field that every patch leaves alone or overwrites by the same `v` holds `v` in the end, if
it did before or some patch writes it. -/
theorem field_patchAll {p : Nat} {v : List Byte} (h : ∀ x ∈ ps, x.1 + x.2.length ≤ bs.length)
    (hd : ∀ x ∈ ps, x = (p, v) ∨ x.1 + x.2.length ≤ p ∨ p + v.length ≤ x.1)
    (hv : field bs p v.length = v ∨ (p, v) ∈ ps) :
    field (patchAll bs ps) p v.length = v := by
  induction ps generalizing bs with
  | nil => exact hv.resolve_right (by simp)
  | cons x ps ih =>
    obtain ⟨hx, hps⟩ := List.forall_mem_cons.mp h
    obtain ⟨hdx, hds⟩ := List.forall_mem_cons.mp hd
    have hlen := length_patch hx
    refine ih (by simpa only [hlen] using hps) hds ?_
    rcases hdx with rfl | hdx
    · exact .inl (field_patch_same hx)
    · rcases hv with hv | hv
      · exact .inl ((field_patch_disjoint hx hdx.symm).trans hv)
      · rcases List.mem_cons.mp hv with rfl | hv
        · exact .inl (field_patch_same hx)
        · exact .inr hv

end Bytes
