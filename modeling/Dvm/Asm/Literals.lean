/-
# Numbers as they are written

A number is written in decimal, or in hexadecimal behind `0x`; it can also be the name of an
`.equ` constant (`denoted`).  `parse_imm` finds the number that is written, saturated at 64 bits
(`parseImm_denoted`), in the first 63 characters (`literal_take`).
-/
import Dvm.Asm.MemText

namespace Dvm

/-! ## 1. Digits -/

/-- The value of a string of digits. -/
def digitsValue (base : Nat) (ds : CStr) : Nat :=
  ds.foldl (fun v d => v * base + (digitVal d).getD 0) 0

/-- From another value on. -/
theorem foldl_digits (base v : Nat) (ds : CStr) :
    ds.foldl (fun v d => v * base + (digitVal d).getD 0) v
      = v * base ^ ds.length + digitsValue base ds := by
  induction ds generalizing v with
  | nil => simp [digitsValue]
  | cons d ds ih =>
    rw [digitsValue, List.foldl_cons, List.foldl_cons, ih, ih (0 * base + _), List.length_cons,
      pow_succ]
    ring

theorem digitsValue_append (base : Nat) (ds es : CStr) :
    digitsValue base (ds ++ es) = digitsValue base ds * base ^ es.length + digitsValue base es := by
  rw [digitsValue, List.foldl_append, foldl_digits]
  rfl

/-! ## 2. Literals -/

/-- The base of a number, and its digits. -/
def literalDigits (w : CStr) : Nat × CStr := if isHex w then (16, w.drop 2) else (10, w)

/-- The number that is written. -/
def literal (w : CStr) : Option Nat :=
  let (base, ds) := literalDigits w
  if ds ≠ [] ∧ ds.all (isDigitIn base) then some (digitsValue base ds) else none

/-- The number that a word stands for: a constant, or a number. -/
def denoted (equs : List AsmEqu) (w : CStr) : Option Nat :=
  match equFind equs w with
  | some e => some e.value.toNat
  | none => literal w

theorem literal_eq_some_iff {w : CStr} {n : Nat} :
    literal w = some n ↔ (literalDigits w).2 ≠ [] ∧
      (∀ d ∈ (literalDigits w).2, isDigitIn (literalDigits w).1 d = true) ∧
      digitsValue (literalDigits w).1 (literalDigits w).2 = n := by
  rw [literal, Option.ite_none_right_eq_some, Option.some.injEq, List.all_eq_true, and_assoc]

/-- A digit is no white space and no sign. -/
theorem digit_plain {base : Nat} {d : Byte} (h : isDigitIn base d = true) :
    isSpace d = false ∧ d ≠ ch '-' ∧ d ≠ ch '+' := by
  have hall : ∀ d : Byte, (digitVal d).isSome = true →
      isSpace d = false ∧ d ≠ ch '-' ∧ d ≠ ch '+' := by decide
  refine hall d ?_
  cases hd : digitVal d with
  | none =>
    rw [isDigitIn, hd] at h
    cases h
  | some v => rfl

/-! ## 3. What `strtoull` reads -/

/-- Behind no white space and no sign. -/
theorem numeral_unsigned {base : Nat} {c : Byte} {s : CStr}
    (hc : isSpace c = false ∧ c ≠ ch '-' ∧ c ≠ ch '+') :
    numeral base (c :: s) = unsignedNumeral base false (c :: s) (c :: s) := by
  have hdrop : (c :: s).dropWhile isSpace = c :: s := by
    rw [List.dropWhile_cons, hc.1]
    rfl
  have hneg : ((c :: s).head? = some (ch '-')) = False := by simp [hc.2.1]
  have hskip : skipSign (c :: s) = c :: s := by simp [skipSign, hc.2.1, hc.2.2]
  rw [numeral_eq, hdrop, hskip]
  simp only [hneg, decide_false]

/-- Digits only. -/
theorem unsignedNumeral_digits {base : Nat} {q s ds : CStr} {b : Nat}
    (hq : basePrefix base q = (b, ds)) (hne : ds ≠ []) (hds : ∀ d ∈ ds, isDigitIn b d = true) :
    unsignedNumeral base false q s = ⟨false, digitsValue b ds, []⟩ := by
  have hdigits : prefixDigits base q = ds := by
    rw [prefixDigits, hq, List.takeWhile_eq_self_iff]
    exact hds
  rw [unsignedNumeral, hdigits, if_neg hne, hq, List.drop_length]
  rfl

theorem numeral_literal {w : CStr} {n : Nat} (h : literal w = some n) :
    numeral (if isHex w then 16 else 10) w = ⟨false, n, []⟩ := by
  obtain ⟨hne, hds, rfl⟩ := literal_eq_some_iff.mp h
  cases hhex : isHex w with
  | false =>
    rw [literalDigits, hhex] at hne hds ⊢
    obtain ⟨c, s, rfl⟩ := List.exists_cons_of_ne_nil hne
    have hbase : basePrefix 10 (c :: s) = (10, c :: s) := by
      unfold basePrefix
      split
      · next heq =>
        rw [if_neg fun hprefix => absurd hprefix.1 (by decide), if_neg (by decide), heq]
      · next heq => rw [if_neg (by decide), heq]
      · next heq => cases heq
    exact (numeral_unsigned (digit_plain (hds c (.head _)))).trans
      (unsignedNumeral_digits hbase hne hds)
  | true =>
    rw [literalDigits, hhex] at hne hds ⊢
    match w with
    | [] => cases hhex
    | [_] => cases hhex
    | z :: x :: ds =>
      obtain ⟨d, ds, rfl⟩ := List.exists_cons_of_ne_nil hne
      rw [isHex, Bool.and_eq_true, Bool.or_eq_true] at hhex
      simp only [decide_eq_true_eq] at hhex
      obtain ⟨rfl, hx⟩ := hhex
      have hbase : basePrefix 16 (ch '0' :: x :: d :: ds) = (16, d :: ds) :=
        if_pos ⟨.inr rfl, rfl, hx, hds d (.head _)⟩
      exact (numeral_unsigned (by decide)).trans (unsignedNumeral_digits hbase hne hds)

/-- `parse_imm` finds what is written, saturated. -/
theorem parseImm_denoted {equs : List AsmEqu} {w : CStr} {n : Nat} (h : denoted equs w = some n) :
    (parseImm equs w).1.toNat = min n (2 ^ 64 - 1) ∧ (parseImm equs w).2 = true := by
  unfold denoted at h
  unfold parseImm
  cases hequ : equFind equs w with
  | some e =>
    rw [hequ, Option.some.injEq] at h
    subst h
    exact ⟨(Nat.min_eq_left (Nat.le_sub_one_of_lt e.value.isLt)).symm, rfl⟩
  | none =>
    rw [hequ] at h
    have hnum := numeral_literal h
    simp only [strtoull, hnum, Bool.false_eq_true, if_false, List.isEmpty_nil, and_true]
    split
    · next hbig =>
      rw [Nat.min_eq_right (by omega)]
      rfl
    · next hsmall =>
      rw [Nat.min_eq_left (by omega), BitVec.toNat_ofNat, Nat.mod_eq_of_lt (by omega)]

/-! ## 4. Numbers that are cut off -/

theorem isHex_take {k : Nat} (hk : 2 ≤ k) (w : CStr) : isHex (w.take k) = isHex w := by
  obtain ⟨k, rfl⟩ := Nat.exists_eq_add_of_le' hk
  match w with
  | [] => rfl
  | [_] => rfl
  | _ :: _ :: _ => rfl

/-- The digits of a number that is cut off behind the prefix. -/
theorem literalDigits_take {w : CStr} {k : Nat} (hk : 2 < k) (hlong : k < w.length) :
    ∃ j, 0 < j ∧ j < (literalDigits w).2.length ∧
      literalDigits (w.take k) = ((literalDigits w).1, (literalDigits w).2.take j) := by
  unfold literalDigits
  rw [isHex_take (Nat.le_of_lt hk)]
  cases isHex w with
  | false => exact ⟨k, by omega, hlong, rfl⟩
  | true =>
    refine ⟨k - 2, by omega, ?_, ?_⟩
    · rw [if_pos rfl, List.length_drop]
      omega
    · rw [if_pos rfl, if_pos rfl, List.drop_take]

theorem one_lt_base (w : CStr) : 1 < (literalDigits w).1 := by
  unfold literalDigits
  split
  · exact (by decide : 1 < 16)
  · exact (by decide : 1 < 10)

/-- Where a number is cut off behind the prefix, a smaller one remains, unless it is 0. -/
theorem literal_take {w : CStr} {n k : Nat} (h : literal w = some n) (hk : 2 < k)
    (hlong : k < w.length) : ∃ v, literal (w.take k) = some v ∧ v ≤ n ∧ (v = n → n = 0) := by
  obtain ⟨-, hds, rfl⟩ := literal_eq_some_iff.mp h
  obtain ⟨j, hpos, hj, hcut⟩ := literalDigits_take hk hlong
  generalize hbase : (literalDigits w).1 = base at *
  generalize (literalDigits w).2 = ds at *
  refine ⟨digitsValue base (ds.take j), literal_eq_some_iff.mpr ⟨?_, ?_, ?_⟩, ?_⟩
  · rw [hcut]
    exact List.ne_nil_of_length_pos (by rw [List.length_take]; omega)
  · rw [hcut]
    exact fun d hd => hds d (List.mem_of_mem_take hd)
  · rw [hcut]
  · -- at least one digit is lost
    have hsplit := digitsValue_append base (ds.take j) (ds.drop j)
    rw [List.take_append_drop] at hsplit
    have hpow : 2 ≤ base ^ (ds.drop j).length := by
      have hone : 1 < base := hbase ▸ one_lt_base w
      exact Nat.one_lt_pow (by rw [List.length_drop]; omega) hone
    have hmul := Nat.mul_le_mul_left (digitsValue base (ds.take j)) hpow
    constructor
    · omega
    · intro heq
      omega

end Dvm
