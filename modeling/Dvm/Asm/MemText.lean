/-
# Bracketed operands as they are written

A memory operand is written `[R]`, `[R+D]` or `[R-D]`, with or without white space inside the
brackets (`MemText`).  The assembler reads it as a token, and a token ends at white space and
after 63 characters (`MemText.token_eq`).  `parse_mem` finds the base register in what is left
of it unless white space stands behind the bracket (`parseMem_token`), and `parse_mem_off` the
number that `strtol` reads there (`parseMemOff_token`).
-/
import Mathlib.Data.List.TakeWhile
import Dvm.Asm.Parse

namespace Dvm

open Table

/-! ## 1. Tokens -/

/-- White space that separates tokens. -/
def IsBlank (ws : List Byte) : Prop := ∀ c ∈ ws, c = ch ' ' ∨ c = ch '\t'

theorem IsBlank.tail {c : Byte} {ws : List Byte} (h : IsBlank (c :: ws)) : IsBlank ws :=
  fun d hd => h d (List.mem_cons_of_mem _ hd)

theorem isBlank_nil : IsBlank [] := fun _ h => nomatch h

theorem isBlank_space : IsBlank [ch ' '] := fun _ hc => .inl (List.mem_singleton.mp hc)

theorem skipWs_append {ws : List Byte} (h : IsBlank ws) (p : List Byte) :
    skipWs (ws ++ p) = skipWs p := by
  induction ws with
  | nil => rfl
  | cons c ws ih =>
    rw [List.cons_append, skipWs, if_pos (h c (.head _)), ih h.tail]

theorem skipWs_of_head {c : Byte} (h : ¬ (c = ch ' ' ∨ c = ch '\t')) (p : List Byte) :
    skipWs (c :: p) = c :: p := by
  rw [skipWs, if_neg h]

/-- A token is cut off at a delimiter and at its size. -/
theorem takeTok_eq (n : Nat) (p : List Byte) :
    takeTok n p = ((p.takeWhile fun c => !isDelim c).take n,
      p.drop ((p.takeWhile fun c => !isDelim c).take n).length) := by
  induction n generalizing p with
  | zero => rfl
  | succ n ih =>
    cases p with
    | nil => rfl
    | cons c p =>
      rw [takeTok]
      cases hc : isDelim c with
      | true => simp [hc]
      | false => simp [hc, ih]

/-- Characters up to the first gap. -/
theorem takeWhile_gap {w gap : List Byte} (hw : ∀ c ∈ w, isDelim c = false) (hgap : IsBlank gap)
    (p : List Byte) :
    ((w ++ (gap ++ p)).takeWhile fun c => !isDelim c)
      = w ++ if gap = [] then p.takeWhile fun c => !isDelim c else [] := by
  rw [List.takeWhile_append_of_pos (by simpa using hw)]
  cases gap with
  | nil => simp
  | cons c gap =>
    have hc : isDelim c = true := by
      rcases hgap c (.head _) with rfl | rfl <;> decide
    simp [hc]

/-! ## 2. Bracketed operands -/

/-- `+D` or `-D` inside the brackets. -/
structure DispText where
  minus : Bool
  gapBefore : List Byte := []
  num : CStr
  gapAfter : List Byte := []
  word : ∀ c ∈ num, isDelim c = false ∧ c ≠ ch ']'
  nonempty : num ≠ []
  gaps : IsBlank gapBefore ∧ IsBlank gapAfter

def DispText.sign (d : DispText) : Byte := if d.minus then ch '-' else ch '+'

def DispText.text (d : DispText) : CStr :=
  d.sign :: (d.gapBefore ++ (d.num ++ d.gapAfter))

/-- A bracketed operand: the word at the place of the base register, and what is added to or
subtracted from it. -/
structure MemText where
  gapBefore : List Byte := []
  base : CStr
  gapAfter : List Byte := []
  disp : Option DispText := none
  word : ∀ c ∈ base, isDelim c = false ∧ c ≠ ch ']' ∧ c ≠ ch '+' ∧ c ≠ ch '-'
  nonempty : base ≠ []
  gaps : IsBlank gapBefore ∧ IsBlank gapAfter

/-- What follows the base. -/
def MemText.tail (m : MemText) : CStr := (m.disp.elim [] DispText.text) ++ [ch ']']

def MemText.text (m : MemText) : CStr :=
  ch '[' :: (m.gapBefore ++ (m.base ++ (m.gapAfter ++ m.tail)))

/-- What of the displacement stands before the first gap, with the sign. -/
def DispText.solid (d : DispText) : CStr :=
  d.sign :: if d.gapBefore = [] then d.num ++ if d.gapAfter = [] then [ch ']'] else [] else []

/-- What stands behind the base before the first gap. -/
def MemText.solidTail (m : MemText) : CStr :=
  if m.gapAfter = [] then m.disp.elim [ch ']'] DispText.solid else []

/-- What stands before the first gap. -/
def MemText.solid (m : MemText) : CStr :=
  ch '[' :: if m.gapBefore = [] then m.base ++ m.solidTail else []

/-- The token that the assembler reads. -/
def MemText.token (m : MemText) : CStr := m.solid.take (asmLabelLen - 1)

/-- The signed value of a number or of a constant. -/
def numValue (equs : List AsmEqu) (num : CStr) : Option Int :=
  match equFind equs num with
  | some e => some e.value.toInt
  | none =>
    let n := numeral (if isHex num then 16 else 10) num
    if n.rest = [] then some (if n.neg then -n.mag else n.mag) else none

/-- The displacement that is written, 0 if there is none. -/
def MemText.value (equs : List AsmEqu) (m : MemText) : Option Int :=
  match m.disp with
  | none => some 0
  | some d => (numValue equs d.num).map fun v => if d.minus then -v else v

/-- The number that `strtol` finds where the displacement should stand: it stops at the end of
the token. -/
def MemText.readOff (m : MemText) : BitVec 32 :=
  match m.disp with
  | none => 0
  | some d =>
    if m.gapAfter = [] ∧ d.gapBefore = [] then
      let v := strtol32 (d.num.take (asmLabelLen - 3 - m.base.length))
      if d.minus then -v else v
    else 0

/-- The first character behind the operand ends a token. -/
def EndsToken (rest : List Byte) : Prop := isDelim (rest.headD 0) = true

theorem takeWhile_endsToken {rest : List Byte} (h : EndsToken rest) :
    (rest.takeWhile fun c => !isDelim c) = [] := by
  cases rest with
  | nil => rfl
  | cons c rest =>
    have hc : isDelim c = true := h
    simp [hc]

theorem DispText.sign_not_delim (d : DispText) : isDelim d.sign = false := by
  unfold DispText.sign
  split <;> decide

theorem MemText.takeWhile_tail (m : MemText) {rest : List Byte} (hrest : EndsToken rest) :
    ((m.tail ++ rest).takeWhile fun c => !isDelim c) = m.disp.elim [ch ']'] DispText.solid := by
  have hclose : ((ch ']' :: rest).takeWhile fun c => !isDelim c) = [ch ']'] := by
    rw [List.takeWhile_cons_of_pos (by decide), takeWhile_endsToken hrest]
  unfold MemText.tail
  cases m.disp with
  | none => exact hclose
  | some d =>
    have hsign := d.sign_not_delim
    have hnum := takeWhile_gap (fun c hc => (d.word c hc).1) d.gaps.2 (ch ']' :: rest)
    have hall := takeWhile_gap (w := [d.sign]) (by simpa using hsign) d.gaps.1
      (d.num ++ (d.gapAfter ++ ch ']' :: rest))
    rw [hnum, hclose] at hall
    simpa [DispText.text, DispText.solid] using hall

theorem MemText.takeWhile_text (m : MemText) {rest : List Byte} (hrest : EndsToken rest) :
    ((m.text ++ rest).takeWhile fun c => !isDelim c) = m.solid := by
  have hbase := takeWhile_gap (fun c hc => (m.word c hc).1) m.gaps.2 (m.tail ++ rest)
  have hall := takeWhile_gap (w := [ch '[']) (by decide) m.gaps.1
    (m.base ++ (m.gapAfter ++ (m.tail ++ rest)))
  rw [hbase, m.takeWhile_tail hrest] at hall
  simpa [MemText.text, MemText.solid, MemText.solidTail] using hall

/-- The token of a bracketed operand, and what is left. -/
theorem MemText.token_eq (m : MemText) {ws rest : List Byte} (hws : IsBlank ws)
    (hrest : EndsToken rest) :
    readTok asmLabelLen (ws ++ (m.text ++ rest))
      = (m.token, (m.text ++ rest).drop m.token.length) := by
  have hskip : skipWs (m.text ++ rest) = m.text ++ rest :=
    skipWs_of_head (by decide) _
  rw [readTok, skipWs_append hws, hskip, takeTok_eq, m.takeWhile_text hrest]
  rfl

/-! ## 3. Numbers in front of the bracket -/

/-- `strtol` stops before the bracket. -/
theorem isDigitIn_close (base : Nat) : isDigitIn base (ch ']') = false := rfl

theorem dropWhile_isSpace_close (s : CStr) :
    (s ++ [ch ']']).dropWhile isSpace = s.dropWhile isSpace ++ [ch ']'] := by
  induction s with
  | nil => rfl
  | cons c s ih =>
    cases hc : isSpace c with
    | true => simp [hc, ih]
    | false => simp [hc]

theorem takeWhile_isDigitIn_close (base : Nat) (s : CStr) :
    (s ++ [ch ']']).takeWhile (isDigitIn base) = s.takeWhile (isDigitIn base) := by
  induction s with
  | nil => simp [isDigitIn_close]
  | cons c s ih =>
    cases hc : isDigitIn base c with
    | true => simp [hc, ih]
    | false => simp [hc]

theorem basePrefix_close (base : Nat) {s : CStr} (hs : s ≠ []) :
    basePrefix base (s ++ [ch ']'])
      = ((basePrefix base s).1, (basePrefix base s).2 ++ [ch ']']) := by
  match s with
  | [] => exact absurd rfl hs
  | [z] => simp only [List.cons_append, List.nil_append, basePrefix]; split <;> rfl
  | [z, x] =>
    simp only [List.cons_append, List.nil_append, basePrefix, isDigitIn_close]
    split
    · next h => exact absurd h.2.2.2 (by decide)
    · split <;> rfl
  | z :: x :: d :: rest =>
    simp only [List.cons_append, basePrefix]
    split
    · rfl
    · split <;> rfl

/-- The digits behind a base prefix. -/
def prefixDigits (base : Nat) (s : CStr) : CStr :=
  (basePrefix base s).2.takeWhile (isDigitIn (basePrefix base s).1)

theorem prefixDigits_close (base : Nat) (s : CStr) :
    prefixDigits base (s ++ [ch ']']) = prefixDigits base s ∧
      (prefixDigits base s ≠ [] → (basePrefix base (s ++ [ch ']'])).1 = (basePrefix base s).1) := by
  cases s with
  | nil =>
    refine ⟨?_, fun h => absurd rfl h⟩
    simp only [prefixDigits, List.nil_append, basePrefix]
    split <;> rfl
  | cons c s =>
    have h := basePrefix_close base (List.cons_ne_nil c s)
    refine ⟨?_, fun _ => by rw [h]⟩
    rw [prefixDigits, h]
    exact takeWhile_isDigitIn_close _ _

/-- The number behind the sign. -/
def unsignedNumeral (base : Nat) (neg : Bool) (q s : CStr) : Numeral :=
  if prefixDigits base q = [] then ⟨false, 0, s⟩
  else ⟨neg, (prefixDigits base q).foldl
      (fun v d => v * (basePrefix base q).1 + (digitVal d).getD 0) 0,
    (basePrefix base q).2.drop (prefixDigits base q).length⟩

/-- Behind the sign. -/
def skipSign (p : CStr) : CStr :=
  if p.head? = some (ch '-') ∨ p.head? = some (ch '+') then p.tail else p

theorem numeral_eq (base : Nat) (s : CStr) :
    numeral base s = unsignedNumeral base ((s.dropWhile isSpace).head? = some (ch '-'))
      (skipSign (s.dropWhile isSpace)) s := rfl

theorem skipSign_close (p : CStr) : skipSign (p ++ [ch ']']) = skipSign p ++ [ch ']'] := by
  cases p with
  | nil => rfl
  | cons c p =>
    unfold skipSign
    rw [List.cons_append, List.head?_cons, List.head?_cons, List.tail_cons, List.tail_cons]
    split <;> rfl

theorem unsignedNumeral_close (base : Nat) (neg : Bool) (q s s' : CStr) :
    (unsignedNumeral base neg (q ++ [ch ']']) s).neg = (unsignedNumeral base neg q s').neg ∧
      (unsignedNumeral base neg (q ++ [ch ']']) s).mag = (unsignedNumeral base neg q s').mag := by
  obtain ⟨hd, hb⟩ := prefixDigits_close base q
  unfold unsignedNumeral
  rw [hd]
  split
  · exact ⟨rfl, rfl⟩
  · next hne => exact ⟨rfl, by rw [hb hne]⟩

/-- The sign and the magnitude of a number with the bracket behind it. -/
theorem numeral_close (base : Nat) (s : CStr) :
    (numeral base (s ++ [ch ']'])).neg = (numeral base s).neg ∧
      (numeral base (s ++ [ch ']'])).mag = (numeral base s).mag := by
  have hhead : ∀ p : CStr, (p ++ [ch ']']).head? = some (ch '-') ↔ p.head? = some (ch '-') := by
    intro p
    cases p with
    | nil => decide
    | cons c p => exact Iff.rfl
  rw [numeral_eq, numeral_eq, dropWhile_isSpace_close, skipSign_close]
  simp only [hhead]
  exact unsignedNumeral_close base _ _ _ _

theorem strtol32_close (s : CStr) : strtol32 (s ++ [ch ']']) = strtol32 s := by
  obtain ⟨hneg, hmag⟩ := numeral_close 0 s
  simp only [strtol32, hneg, hmag]

/-! ## 4. The base register -/

theorem mem_regNames {s : CStr} {r : Reg} (h : parseReg s = some r) : (s, r) ∈ regNames :=
  mem_of_lookup h

/-- The name of a register has two letters. -/
theorem length_of_parseReg {s : CStr} {r : Reg} (h : parseReg s = some r) : s.length = 2 := by
  have hnames : ∀ x ∈ regNames, x.1.length = 2 := by decide
  exact hnames _ (mem_regNames h)

theorem no_sign_of_parseReg {s : CStr} {r : Reg} (h : parseReg s = some r) :
    ∀ c ∈ s, c ≠ ch '+' ∧ c ≠ ch '-' := by
  have hnames : ∀ x ∈ regNames, ch '+' ∉ x.1 ∧ ch '-' ∉ x.1 := by decide
  obtain ⟨hplus, hminus⟩ := hnames _ (mem_regNames h)
  exact fun c hc => ⟨ne_of_mem_of_not_mem hc hplus, ne_of_mem_of_not_mem hc hminus⟩

/-- Where words of more than `k` characters are not known, cutting off more makes no difference. -/
theorem parse_take {f : CStr → Option Reg} {k n : Nat} (hf : ∀ s r, f s = some r → s.length ≤ k)
    (hn : k < n) (s : CStr) : f (s.take n) = f s := by
  have hnone : ∀ t, k < t.length → f t = none := by
    intro t ht
    cases h : f t with
    | none => rfl
    | some r => exact absurd (hf t r h) (Nat.not_le.mpr ht)
  rcases Nat.lt_or_ge n s.length with hlong | hshort
  · rw [hnone s (hn.trans hlong), hnone _ (by rw [List.length_take]; omega)]
  · rw [List.take_of_length_le hshort]

/-- A longer word is no register, and does not become one when it is cut off. -/
theorem parseReg_take {n : Nat} (hn : 2 < n) (s : CStr) : parseReg (s.take n) = parseReg s :=
  parse_take (fun _ _ h => (length_of_parseReg h).le) hn s

theorem parseFpreg_take {n : Nat} (hn : 3 < n) (s : CStr) :
    parseFpreg (s.take n) = parseFpreg s := by
  refine parse_take (fun t r h => ?_) hn s
  unfold parseFpreg at h
  split at h
  · exact Nat.le_refl 3
  · cases h

/-- What stands behind the base in a token. -/
theorem MemText.solidTail_stops (m : MemText) : m.solidTail = [] ∨
    ∃ c rest, m.solidTail = c :: rest ∧ (c = ch ']' ∨ c = ch '+' ∨ c = ch '-') := by
  unfold MemText.solidTail
  split
  · cases m.disp with
    | none => exact .inr ⟨_, _, rfl, .inl rfl⟩
    | some d =>
      refine .inr ⟨d.sign, _, rfl, .inr ?_⟩
      unfold DispText.sign
      split
      · exact .inr rfl
      · exact .inl rfl
  · exact .inl rfl

theorem MemText.takeWhile_solid (m : MemText) :
    (m.base ++ m.solidTail).takeWhile
        (fun c => (decide (c ≠ ch '+' ∧ c ≠ ch '-')) = true ∧ (decide (c ≠ ch ']')) = true)
      = m.base := by
  have hword : ∀ c ∈ m.base, c ≠ ch ']' ∧ c ≠ ch '+' ∧ c ≠ ch '-' := fun c hc => (m.word c hc).2
  rw [List.takeWhile_append_of_pos (by simpa [and_comm, and_assoc] using hword)]
  rcases m.solidTail_stops with h | ⟨c, rest, h, rfl | rfl | rfl⟩
  all_goals
    rw [h]
    simp

theorem MemText.token_of_gapBefore {m : MemText} (h : m.gapBefore ≠ []) :
    m.token = [ch '['] := by
  rw [token, solid, if_neg h]
  rfl

theorem MemText.token_of_solid {m : MemText} (h : m.gapBefore = []) :
    m.token = ch '[' :: (m.base ++ m.solidTail).take (asmLabelLen - 2) := by
  rw [token, solid, if_pos h]
  rfl

/-- `parse_mem` finds the base, unless white space stands before it. -/
theorem MemText.parseMem_token (m : MemText) :
    parseMem m.token = if m.gapBefore = [] then parseReg m.base else none := by
  split
  · next hgap =>
    rw [token_of_solid hgap, parseMem, if_neg (by simp)]
    generalize hinner : (((m.base ++ m.solidTail).take (asmLabelLen - 2)).takeWhile
      (· ≠ ch ']')).take 31 = inner
    -- up to a sign, it is the base
    have hbase : (inner.takeWhile fun c => c ≠ ch '+' ∧ c ≠ ch '-').take 7 = m.base.take 7 := by
      rw [← hinner, ← List.take_takeWhile, ← List.take_takeWhile, ← List.take_takeWhile,
        List.takeWhile_takeWhile, m.takeWhile_solid, List.take_take, List.take_take]
      rfl
    dsimp only
    rw [hbase, parseReg_take (by decide)]
    cases hreg : parseReg inner with
    | none => exact Option.none_or
    | some r =>
      have hall : (inner.takeWhile fun c => c ≠ ch '+' ∧ c ≠ ch '-') = inner := by
        rw [List.takeWhile_eq_self_iff]
        intro c hc
        exact decide_eq_true (no_sign_of_parseReg hreg c hc)
      rw [hall] at hbase
      rw [Option.some_or, ← hreg, ← parseReg_take (by decide : 2 < 7) inner, hbase,
        parseReg_take (by decide)]
  · next hgap =>
    rw [token_of_gapBefore hgap]
    decide

/-! ## 5. The displacement -/

/-- Whatever of the bracket is still in the token. -/
theorem strtol32_take_close (s close : CStr) (hclose : close = [] ∨ close = [ch ']']) (n : Nat) :
    strtol32 ((s ++ close).take n) = strtol32 (s.take n) := by
  rw [List.take_append]
  rcases hclose with rfl | rfl
  · rw [List.take_nil, List.append_nil]
  · cases n - s.length with
    | zero => rw [List.take_zero, List.append_nil]
    | succ k =>
      have hone : ([ch ']'] : CStr).take (k + 1) = [ch ']'] := by simp
      rw [hone, strtol32_close]

/-- What `parse_mem_off` looks at. -/
def fromSign (s : CStr) : CStr := s.dropWhile fun c => c ≠ ch '+' ∧ c ≠ ch '-' ∧ c ≠ ch ']'

theorem parseMemOff_none {s : CStr} (h : fromSign s = [] ∨ ∃ rest, fromSign s = ch ']' :: rest) :
    parseMemOff (ch '[' :: s) = 0 := by
  unfold fromSign at h
  rw [parseMemOff, if_neg (by simp)]
  rcases h with h | ⟨rest, h⟩
  · rw [h]
  · rw [h]
    exact if_pos rfl

theorem parseMemOff_sign {s digits : CStr} {d : DispText} (h : fromSign s = d.sign :: digits) :
    parseMemOff (ch '[' :: s) = if d.minus then -strtol32 digits else strtol32 digits := by
  unfold fromSign at h
  rw [parseMemOff, if_neg (by simp), h]
  unfold DispText.sign
  cases d.minus <;> rfl

/-- Behind the base. -/
theorem MemText.fromSign_solid (m : MemText) (n : Nat) :
    fromSign ((m.base ++ m.solidTail).take n) = m.solidTail.take (n - m.base.length) := by
  have hword : ∀ c ∈ m.base.take n,
      (decide (c ≠ ch '+' ∧ c ≠ ch '-' ∧ c ≠ ch ']')) = true := by
    intro c hc
    obtain ⟨-, hclose, hplus, hminus⟩ := m.word c (List.mem_of_mem_take hc)
    exact decide_eq_true ⟨hplus, hminus, hclose⟩
  rw [fromSign, List.take_append, List.dropWhile_append_of_pos hword]
  generalize n - m.base.length = k
  rcases m.solidTail_stops with h | ⟨c, rest, h, hc⟩
  · rw [h, List.take_nil, List.dropWhile_nil]
  · rw [h]
    cases k with
    | zero => rfl
    | succ k =>
      rw [List.take_succ_cons, List.dropWhile_cons_of_neg]
      rcases hc with rfl | rfl | rfl <;> decide

/-- Nothing is read as 0. -/
theorem DispText.signed_nil (d : DispText) :
    (if d.minus then -strtol32 [] else strtol32 []) = 0 := by
  cases d.minus <;> rfl

/-- The offset that is read at the token, a tail `sign digits` being cut off somewhere. -/
theorem MemText.parseMemOff_tail {m : MemText} {d : DispText} {digits : CStr}
    (h : m.solidTail = d.sign :: digits) :
    parseMemOff (ch '[' :: (m.base ++ m.solidTail).take (asmLabelLen - 2))
      = if d.minus then -strtol32 (digits.take (asmLabelLen - 3 - m.base.length))
        else strtol32 (digits.take (asmLabelLen - 3 - m.base.length)) := by
  have hstart := m.fromSign_solid (asmLabelLen - 2)
  have hk : asmLabelLen - 3 - m.base.length = asmLabelLen - 2 - m.base.length - 1 := by
    unfold asmLabelLen
    omega
  rw [hk]
  rw [h] at hstart ⊢
  cases hcut : asmLabelLen - 2 - m.base.length with
  | zero =>
    rw [hcut, List.take_zero] at hstart
    rw [parseMemOff_none (.inl hstart), Nat.zero_sub, List.take_zero, d.signed_nil]
  | succ k =>
    rw [hcut, List.take_succ_cons] at hstart
    exact parseMemOff_sign hstart

/-- `parse_mem_off` finds what `strtol` reads behind the sign, up to the end of the token. -/
theorem MemText.parseMemOff_token {m : MemText} (h : m.gapBefore = []) :
    parseMemOff m.token = m.readOff := by
  have hnone : m.solidTail = [] ∨ m.solidTail = [ch ']'] →
      parseMemOff (ch '[' :: (m.base ++ m.solidTail).take (asmLabelLen - 2)) = 0 := by
    intro htail
    refine parseMemOff_none ?_
    rw [m.fromSign_solid]
    rcases htail with htail | htail
    · exact .inl (by rw [htail, List.take_nil])
    · rw [htail]
      cases asmLabelLen - 2 - m.base.length with
      | zero => exact .inl rfl
      | succ k => exact .inr ⟨_, rfl⟩
  rw [token_of_solid h]
  unfold readOff
  by_cases hafter : m.gapAfter = []
  · cases hdisp : m.disp with
    | none => exact hnone (.inr (by rw [solidTail, if_pos hafter, hdisp]; rfl))
    | some d =>
      have htail : m.solidTail = d.solid := by rw [solidTail, if_pos hafter, hdisp]; rfl
      rw [parseMemOff_tail htail]
      dsimp only
      by_cases hbefore : d.gapBefore = []
      · have hclose : (if d.gapAfter = [] then [ch ']'] else []) = [] ∨
            (if d.gapAfter = [] then [ch ']'] else []) = [ch ']'] := by
          split
          · exact .inr rfl
          · exact .inl rfl
        have hread : m.gapAfter = [] ∧ d.gapBefore = [] := ⟨hafter, hbefore⟩
        rw [if_pos hbefore, if_pos hread, strtol32_take_close _ _ hclose]
      · have hread : ¬ (m.gapAfter = [] ∧ d.gapBefore = []) := fun hgaps => hbefore hgaps.2
        rw [if_neg hbefore, if_neg hread, List.take_nil, d.signed_nil]
  · rw [hnone (.inl (by rw [solidTail, if_neg hafter]))]
    cases m.disp with
    | none => rfl
    | some d => exact (if_neg fun hgaps => hafter hgaps.1).symm

/-! ## 6. What is left of an operand -/

theorem IsBlank.ne_comma {ws : List Byte} (h : IsBlank ws) : ∀ c ∈ ws, c ≠ ch ',' := by
  intro c hc
  rcases h c hc with rfl | rfl <;> decide

theorem ne_comma_of_not_delim {c : Byte} (h : isDelim c = false) : c ≠ ch ',' := by
  rintro rfl
  exact absurd h (by decide)

theorem DispText.ne_comma (d : DispText) : ∀ c ∈ d.text, c ≠ ch ',' := by
  intro c hc
  simp only [text, List.mem_cons, List.mem_append] at hc
  rcases hc with rfl | hc | hc | hc
  · exact ne_comma_of_not_delim d.sign_not_delim
  · exact d.gaps.1.ne_comma c hc
  · exact ne_comma_of_not_delim (d.word c hc).1
  · exact d.gaps.2.ne_comma c hc

/-- There is no comma in an operand. -/
theorem MemText.ne_comma (m : MemText) : ∀ c ∈ m.text, c ≠ ch ',' := by
  intro c hc
  simp only [text, tail, List.mem_cons, List.mem_append, List.not_mem_nil, or_false] at hc
  rcases hc with rfl | hc | hc | hc | hc | rfl
  · decide
  · exact m.gaps.1.ne_comma c hc
  · exact ne_comma_of_not_delim (m.word c hc).1
  · exact m.gaps.2.ne_comma c hc
  · cases hdisp : m.disp with
    | none =>
      rw [hdisp] at hc
      cases hc
    | some d =>
      rw [hdisp] at hc
      exact d.ne_comma c hc
  · decide

/-- The bracket is what is left last. -/
theorem MemText.close_mem_drop (m : MemText) {n : Nat} (h : m.text.drop n ≠ []) :
    ch ']' ∈ m.text.drop n := by
  have hclose : m.text = (ch '[' :: (m.gapBefore ++ (m.base ++ (m.gapAfter ++
      m.disp.elim [] DispText.text)))) ++ [ch ']'] := by
    simp [text, tail]
  have hlast : (m.text.drop n).getLast? = some (ch ']') := by
    rw [List.getLast?_drop, if_neg (Nat.not_le.mpr (List.length_lt_of_drop_ne_nil h)), hclose,
      List.getLast?_concat]
  exact List.mem_of_getLast? hlast

theorem MemText.length_token_le (m : MemText) : m.token.length ≤ m.text.length := by
  have h := @MemText.takeWhile_text m [] rfl
  rw [List.append_nil] at h
  rw [token, ← h]
  exact (List.length_take_le' _ _).trans (List.takeWhile_prefix _).length_le

end Dvm
