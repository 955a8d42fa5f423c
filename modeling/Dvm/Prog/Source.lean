/-
# The listing of a source

`symOf` reads back which instruction the emissions of a code line are, with its labels by name,
and `resolveInstr` replaces the names by what they lead to.  Where a text holds the values of
all emissions of a list of lines, it is the layout of the listing that the lines resolve to
(`laidOut_of_values`).
-/
import Dvm.Asm.LineText
import Dvm.Prog.Layout

namespace Dvm

open Bytes ByteMem Layout

/-! ## 1. Instructions by name -/

/-- The bytes of an emission that is no reference. -/
def Emit.text : Emit → List Byte
  | .bytes bs => bs
  | _ => []

/-- The instruction with opcode `op` and the given operands. -/
def symOperands (op : Op) (es : List Emit) : Option (SymInstr CStr) :=
  match es with
  | [.codeRef dest] => if h : op.flow = .jump then some (.jump op dest h) else none
  | [.codeRef ok, .codeRef err] => if op = .call then some (.call ok err) else none
  | [.bytes [b], .codeRef err] => if op = .callr then some (.callr (fetchRegs b).1 err) else none
  | [.bytes [b], .dataRef label] =>
    if op = .movRI then some (.addr (fetchRegs b).1 label) else none
  | _ =>
    if op = .ret then some .ret
    else if op = .throw then some .throw
    else if h : op.flow = .straight then
      some (.plain op (op.shape.fetch (es.flatMap Emit.text)) h)
    else none

/-- The instruction that is emitted. -/
def symOf (es : List Emit) : Option (SymInstr CStr) :=
  match es with
  | .bytes [b] :: es => (Op.ofCode b).bind fun op => symOperands op es
  | _ => none

/-- What a name leads to: an instruction, or an address. -/
inductive Target where
  | code (k : Nat)
  | data (a : Word)
  deriving DecidableEq, Repr

/-- The instruction that a name leads to. -/
def codeTarget (names : CStr → Option Target) (name : CStr) : Option Nat :=
  match names name with
  | some (.code k) => some k
  | _ => none

/-- `mov d, label`, the label resolved. -/
def resolveAddr (d : Reg) : Target → SymInstr Nat
  | .code k => .addr d k
  | .data a => .plain .movRI { d := d, imm := a } rfl

def resolveInstr (names : CStr → Option Target) : SymInstr CStr → Option (SymInstr Nat)
  | .plain op o h => some (.plain op o h)
  | .jump op dest h => (codeTarget names dest).map fun k => .jump op k h
  | .call ok err =>
    (codeTarget names ok).bind fun k => (codeTarget names err).map fun j => .call k j
  | .callr d err => (codeTarget names err).map fun k => .callr d k
  | .ret => some .ret
  | .throw => some .throw
  | .addr d label => (names label).map (resolveAddr d)

/-- The instruction of a line, resolved. -/
def resolveLine (names : CStr → Option Target) (es : List Emit) : Option (SymInstr Nat) :=
  (symOf es).bind (resolveInstr names)

/-! ## 2. Values -/

/-- The bytes that stand for an emission when instructions begin at `starts`, from `a` on. -/
def Emit.value (a : Word) (starts : Nat → Nat) (names : CStr → Option Target) : Emit → List Byte
  | .bytes bs => bs
  | .codeRef name => ((codeTarget names name).map fun k => le 4 (starts k)).getD []
  | .dataRef name =>
    match names name with
    | some (.code k) => le 8 (a + BitVec.ofNat 64 (starts k)).toNat
    | some (.data w) => le 8 w.toNat
    | none => []
  | .stop _ => []

theorem fetchLe_le_ofNat (n : Nat) : fetchLe 32 (le 4 n) = BitVec.ofNat 32 n := by
  rw [fetchLe, ofLe_le]
  apply BitVec.eq_of_toNat_eq
  rw [BitVec.toNat_ofNat, BitVec.toNat_ofNat, show 256 ^ 4 = 2 ^ 32 from rfl, Nat.mod_mod]

theorem fetchLe_le_toNat (v : BitVec 64) : fetchLe 64 (le 8 v.toNat) = v := by
  rw [fetchLe, ofLe_le_of_lt v.isLt, BitVec.ofNat_toNat, BitVec.setWidth_eq]

theorem field_self (bs : List Byte) (n : Nat) (h : bs.length = n) : field bs 0 n = bs := by
  rw [field, List.drop_zero, ← h, List.take_length]

theorem field_le_le (m n : Nat) :
    field (le 4 m ++ le 4 n) 0 4 = le 4 m ∧ field (le 4 m ++ le 4 n) 4 4 = le 4 n := by
  constructor
  · exact (field_append_left (by simp)).trans (field_self (le 4 m) 4 (length_le 4 m))
  · have hright := field_append_self (le 4 m) (le 4 n)
    rwa [length_le, length_le] at hright

section Fetch

variable {a : Word} {starts : Nat → Nat} {names : CStr → Option Target}

/-- Where all emissions are bytes, the operands are read back from these. -/
theorem symOperands_plain (a : Word) (starts : Nat → Nat) (names : CStr → Option Target) {op : Op}
    {es : List Emit} (hbytes : ∀ e ∈ es, ∃ bs, e = .bytes bs) {i : SymInstr CStr}
    (hi : symOperands op es = some i) :
    (op = .ret ∧ i = .ret) ∨ (op = .throw ∧ i = .throw) ∨
      ∃ h : op.flow = .straight,
        i = .plain op (op.shape.fetch (es.flatMap (Emit.value a starts names))) h := by
  have hvalue : es.flatMap Emit.text = es.flatMap (Emit.value a starts names) := by
    refine List.flatMap_congr fun e he => ?_
    obtain ⟨bs, rfl⟩ := hbytes e he
    rfl
  unfold symOperands at hi
  split at hi
  · obtain ⟨bs, hbs⟩ := hbytes _ (List.mem_cons_self)
    cases hbs
  · obtain ⟨bs, hbs⟩ := hbytes _ (List.mem_cons_self)
    cases hbs
  · obtain ⟨bs, hbs⟩ := hbytes _ (List.mem_cons_of_mem _ List.mem_cons_self)
    cases hbs
  · obtain ⟨bs, hbs⟩ := hbytes _ (List.mem_cons_of_mem _ List.mem_cons_self)
    cases hbs
  · split at hi
    · next hret => exact .inl ⟨hret, (Option.some.inj hi).symm⟩
    · split at hi
      · next hthrow => exact .inr (.inl ⟨hthrow, (Option.some.inj hi).symm⟩)
      · split at hi
        · next h => exact .inr (.inr ⟨h, by rw [← hvalue]; exact (Option.some.inj hi).symm⟩)
        · cases hi

theorem symOf_emitOp (op : Op) (es : List Emit) :
    symOf (emitOp op :: es) = symOperands op es := by
  rw [emitOp, symOf, Op.ofCode_code, Option.bind_some]

/-- A line without references. -/
theorem resolveLine_plain {op : Op} {es : List Emit} (hbytes : ∀ e ∈ es, ∃ bs, e = .bytes bs)
    (hbare : op.shape = .bare ∨ op ≠ .ret ∧ op ≠ .throw) {j : SymInstr Nat}
    (hj : resolveLine names (emitOp op :: es) = some j) :
    j.encode a starts = (op, op.shape.fetch (es.flatMap (Emit.value a starts names))) := by
  rw [resolveLine, symOf_emitOp, Option.bind_eq_some_iff] at hj
  obtain ⟨i, hi, hj⟩ := hj
  rcases symOperands_plain a starts names hbytes hi with
    ⟨rfl, rfl⟩ | ⟨rfl, rfl⟩ | ⟨h, rfl⟩
  · obtain rfl := Option.some.inj hj
    rfl
  · obtain rfl := Option.some.inj hj
    rfl
  · obtain rfl := Option.some.inj hj
    rfl

theorem fetch_callr (d s : Reg) (n : Nat) :
    Shape.regsOff32.fetch (regByte d s :: le 4 n)
      = { d := d, s := s, off := BitVec.ofNat 32 n } := by
  have hoff : field (regByte d s :: le 4 n) 1 4 = le 4 n := field_self _ 4 (length_le 4 n)
  rw [Shape.fetch, List.headD_cons, fetchRegs_regByte, hoff, fetchLe_le_ofNat]

theorem fetch_movRI (d s : Reg) (v : Word) :
    Shape.regsImm64.fetch (regByte d s :: le 8 v.toNat) = { d := d, s := s, imm := v } := by
  have himm : field (regByte d s :: le 8 v.toNat) 1 8 = le 8 v.toNat :=
    field_self _ 8 (length_le 8 _)
  rw [Shape.fetch, List.headD_cons, fetchRegs_regByte, himm, fetchLe_le_toNat]

theorem fetch_jump (n : Nat) : Shape.off32.fetch (le 4 n) = { off := BitVec.ofNat 32 n } := by
  rw [Shape.fetch, field_self _ 4 (length_le 4 n), fetchLe_le_ofNat]

theorem fetch_call (m n : Nat) :
    Shape.okErr.fetch (le 4 m ++ le 4 n)
      = { off := BitVec.ofNat 32 m, err := BitVec.ofNat 32 n } := by
  rw [Shape.fetch, (field_le_le m n).1, (field_le_le m n).2, fetchLe_le_ofNat, fetchLe_le_ofNat]

theorem codeTarget_eq_some {name : CStr} {k : Nat} (h : codeTarget names name = some k) :
    names name = some (.code k) := by
  unfold codeTarget at h
  split at h
  · next k' hk =>
    rw [hk, Option.some.inj h]
  · cases h

/-! The lines with references, one equation each. -/

theorem resolveLine_data (d : Reg) (label : CStr) :
    resolveLine names [emitOp .movRI, emitRegs d 0, .dataRef label]
      = (names label).map (resolveAddr d) := by
  have hsym : symOperands .movRI [emitRegs d 0, .dataRef label] = some (.addr d label) := by
    rw [symOperands.eq_def]
    simp [emitRegs, fetchRegs_regByte]
  rw [resolveLine, symOf_emitOp, hsym, Option.bind_some, resolveInstr]

theorem flow_of_off32 {op : Op} (h : op.shape = .off32) : op.flow = .jump := by
  cases op
  all_goals first
    | rfl
    | cases h

theorem resolveLine_jump {op : Op} (hs : op.shape = .off32) (dest : CStr) :
    resolveLine names [emitOp op, .codeRef dest]
      = (codeTarget names dest).map fun k => .jump op k (flow_of_off32 hs) := by
  rw [resolveLine, symOf_emitOp, symOperands, dif_pos (flow_of_off32 hs), Option.bind_some,
    resolveInstr]

theorem resolveLine_call (ok err : CStr) :
    resolveLine names [emitOp .call, .codeRef ok, .codeRef err]
      = (codeTarget names ok).bind fun k => (codeTarget names err).map fun j => .call k j := by
  rw [resolveLine, symOf_emitOp, symOperands, if_pos rfl, Option.bind_some, resolveInstr]

theorem resolveLine_callr (d : Reg) (err : CStr) :
    resolveLine names [emitOp .callr, emitRegs d 0, .codeRef err]
      = (codeTarget names err).map fun k => .callr d k := by
  have hsym : symOperands .callr [emitRegs d 0, .codeRef err] = some (.callr d err) := by
    rw [symOperands.eq_def]
    simp [emitRegs, fetchRegs_regByte]
  rw [resolveLine, symOf_emitOp, hsym, Option.bind_some, resolveInstr]

/-- The resolved instruction of a line has the operands that the values of the line's emissions
are fetched as. -/
theorem Encodes.resolve {op : Op} {es : List Emit} (h : Encodes op es) {j : SymInstr Nat}
    (hj : resolveLine names es = some j) :
    j.encode a starts = (op, op.shape.fetch (es.tail.flatMap (Emit.value a starts names))) := by
  have hne : ∀ {sh : Shape}, op.shape = sh → sh ≠ .bare →
      op.shape = .bare ∨ op ≠ .ret ∧ op ≠ .throw := by
    rintro sh rfl hsh
    refine .inr ⟨?_, ?_⟩
    · rintro rfl
      exact hsh rfl
    · rintro rfl
      exact hsh rfl
  cases h with
  | bare hs => exact resolveLine_plain (by simp) (.inl hs) hj
  | regs d s hs => exact resolveLine_plain (by simp [emitRegs]) (hne hs (by decide)) hj
  | imm64 d v hs =>
    exact resolveLine_plain (by simp [emitRegs, emitU64]) (hne hs (by decide)) hj
  | imm16 v hs => exact resolveLine_plain (by simp) (hne hs (by decide)) hj
  | off32 d s v hs =>
    exact resolveLine_plain (by simp [emitRegs, emitI32]) (hne hs (by decide)) hj
  | data d name =>
    rw [resolveLine_data, Option.map_eq_some_iff] at hj
    obtain ⟨t, ht, rfl⟩ := hj
    simp only [List.tail_cons, emitRegs, List.flatMap_cons, List.flatMap_nil, Emit.value, ht,
      List.append_nil, List.singleton_append]
    cases t with
    | code k => exact Prod.ext rfl (fetch_movRI d 0 _).symm
    | data w => exact Prod.ext rfl (fetch_movRI d 0 _).symm
  | jump name hs =>
    rw [resolveLine_jump hs, Option.map_eq_some_iff] at hj
    obtain ⟨k, hk, rfl⟩ := hj
    simp only [List.tail_cons, List.flatMap_cons, List.flatMap_nil, Emit.value, hk,
      Option.map_some, Option.getD_some, List.append_nil, hs, fetch_jump]
    rfl
  | call ok err =>
    rw [resolveLine_call, Option.bind_eq_some_iff] at hj
    obtain ⟨k, hk, hj⟩ := hj
    obtain ⟨l, hl, rfl⟩ := Option.map_eq_some_iff.mp hj
    simp only [List.tail_cons, List.flatMap_cons, List.flatMap_nil, Emit.value, hk, hl,
      Option.map_some, Option.getD_some, List.append_nil]
    exact Prod.ext rfl (fetch_call _ _).symm
  | callr d err =>
    rw [resolveLine_callr, Option.map_eq_some_iff] at hj
    obtain ⟨k, hk, rfl⟩ := hj
    simp only [List.tail_cons, emitRegs, List.flatMap_cons, List.flatMap_nil, Emit.value, hk,
      Option.map_some, Option.getD_some, List.append_nil, List.singleton_append]
    exact Prod.ext rfl (fetch_callr d 0 _).symm

/-- The names in a line that resolves lead somewhere, those of code references to an
instruction. -/
theorem Encodes.targets {op : Op} {es : List Emit} (h : Encodes op es) {j : SymInstr Nat}
    (hj : resolveLine names es = some j) :
    (∀ name, .codeRef name ∈ es → ∃ k, names name = some (.code k)) ∧
      ∀ name, .dataRef name ∈ es → ∃ t, names name = some t := by
  cases h with
  | data d label =>
    rw [resolveLine_data, Option.map_eq_some_iff] at hj
    obtain ⟨t, ht, -⟩ := hj
    exact ⟨by simp [emitOp, emitRegs], by simpa [emitOp, emitRegs] using ⟨t, ht⟩⟩
  | jump dest hs =>
    rw [resolveLine_jump hs, Option.map_eq_some_iff] at hj
    obtain ⟨k, hk, -⟩ := hj
    exact ⟨by simpa [emitOp] using ⟨k, codeTarget_eq_some hk⟩, by simp [emitOp]⟩
  | call ok err =>
    rw [resolveLine_call, Option.bind_eq_some_iff] at hj
    obtain ⟨k, hk, hj⟩ := hj
    obtain ⟨l, hl, -⟩ := Option.map_eq_some_iff.mp hj
    refine ⟨?_, by simp [emitOp]⟩
    simp only [emitOp, List.mem_cons, reduceCtorEq, Emit.codeRef.injEq, List.not_mem_nil,
      or_false, false_or]
    rintro name (rfl | rfl)
    · exact ⟨k, codeTarget_eq_some hk⟩
    · exact ⟨l, codeTarget_eq_some hl⟩
  | callr d err =>
    rw [resolveLine_callr, Option.map_eq_some_iff] at hj
    obtain ⟨k, hk, -⟩ := hj
    exact ⟨by simpa [emitOp, emitRegs] using ⟨k, codeTarget_eq_some hk⟩,
      by simp [emitOp, emitRegs]⟩
  | bare _ => exact ⟨by simp [emitOp], by simp [emitOp]⟩
  | regs _ _ _ => exact ⟨by simp [emitOp, emitRegs], by simp [emitOp, emitRegs]⟩
  | imm64 _ _ _ =>
    exact ⟨by simp [emitOp, emitRegs, emitU64], by simp [emitOp, emitRegs, emitU64]⟩
  | imm16 _ _ => exact ⟨by simp [emitOp], by simp [emitOp]⟩
  | off32 _ _ _ _ =>
    exact ⟨by simp [emitOp, emitRegs, emitI32], by simp [emitOp, emitRegs, emitI32]⟩

end Fetch

/-! ## 3. Layout -/

theorem field_add (bs : List Byte) (p m n : Nat) :
    field bs p (m + n) = field bs p m ++ field bs (p + m) n := by
  rw [field, field, field, List.take_add, List.drop_drop]

/-- Fields that lie one behind the other. -/
theorem field_values {text : List Byte} {v : Emit → List Byte} {es : List Emit} {p : Nat}
    (h : ∀ f e, At Emit.size es f e → field text (p + f) e.size = v e) :
    field text p (total Emit.size es) = es.flatMap v := by
  induction es generalizing p with
  | nil => rfl
  | cons e es ih =>
    have hhead := h 0 e (at_cons_iff.mpr (.inl ⟨rfl, rfl⟩))
    rw [Nat.add_zero] at hhead
    rw [total_cons, field_add, hhead, List.flatMap_cons, ih]
    intro f e' hat
    rw [Nat.add_assoc]
    exact h _ e' (at_cons_iff.mpr (.inr ⟨f, rfl, hat⟩))

theorem Encodes.cons {op : Op} {es : List Emit} (h : Encodes op es) :
    ∃ es', es = emitOp op :: es' := by
  cases h <;> exact ⟨_, rfl⟩

/-- Instructions that stand where they begin are what is decoded. -/
theorem decodes_of_getElem? {bs : List Byte} {is : List (Op × Operands)} {p : Nat}
    (h : ∀ k i, is[k]? = some i → decode bs (p + instrStart is k) = some i)
    (hlen : p + instrStart is is.length = bs.length) : Decodes bs p is := by
  induction is generalizing p with
  | nil =>
    obtain rfl : p = bs.length := hlen
    exact .done
  | cons i is ih =>
    refine .instr (h 0 i rfl) (ih (fun k i' hi' => ?_) ?_)
    · have hnext := h (k + 1) i' hi'
      rwa [instrStart_cons, ← Nat.add_assoc] at hnext
    · rwa [List.length_cons, instrStart_cons, ← Nat.add_assoc] at hlen

/-- A line, and what its names lead to. -/
abbrev ScopedLine := (CStr → Option Target) × List Emit

/-- The line is the instruction. -/
def ResolvesTo (l : ScopedLine) (j : SymInstr Nat) : Prop :=
  (∃ op, Encodes op l.2) ∧ resolveLine l.1 l.2 = some j

theorem ResolvesTo.encodes {l : ScopedLine} {j : SymInstr Nat} (h : ResolvesTo l j) :
    Encodes j.op l.2 := by
  obtain ⟨⟨op, henc⟩, hres⟩ := h
  have hop : (j.encode 0 id).1 = op := congrArg Prod.fst (henc.resolve hres)
  rw [SymInstr.encode_fst] at hop
  exact hop ▸ henc

/-- The names in a line that resolves lead somewhere. -/
theorem ResolvesTo.targets {l : ScopedLine} {j : SymInstr Nat} (h : ResolvesTo l j) :
    (∀ name, .codeRef name ∈ l.2 → ∃ k, l.1 name = some (.code k)) ∧
      ∀ name, .dataRef name ∈ l.2 → ∃ t, l.1 name = some t :=
  h.encodes.targets h.2

/-- Its emissions have values. -/
theorem ResolvesTo.length_value {l : ScopedLine} {j : SymInstr Nat} (h : ResolvesTo l j)
    {a : Word} {starts : Nat → Nat} {e : Emit} (he : e ∈ l.2) :
    (e.value a starts l.1).length = e.size := by
  cases e with
  | bytes bs => rfl
  | codeRef name =>
    obtain ⟨k, hk⟩ := h.targets.1 name he
    rw [Emit.value, codeTarget, hk]
    exact length_le 4 _
  | dataRef name =>
    obtain ⟨t, ht⟩ := h.targets.2 name he
    cases t <;> rw [Emit.value, ht] <;> exact length_le 8 _
  | stop why => rfl

/-- All lines resolve. -/
theorem forall₂_of_mapM {α β : Type} {f : α → Option β} {xs : List α} {ys : List β}
    (h : xs.mapM f = some ys) : List.Forall₂ (fun x y => f x = some y) xs ys := by
  induction xs generalizing ys with
  | nil =>
    obtain rfl := Option.some.inj h
    exact .nil
  | cons x xs ih =>
    rw [List.mapM_cons, Option.bind_eq_bind, Option.bind_eq_some_iff] at h
    obtain ⟨y, hy, h⟩ := h
    rw [Option.bind_eq_bind, Option.bind_eq_some_iff] at h
    obtain ⟨ys', hys, h⟩ := h
    obtain rfl := Option.some.inj h
    exact .cons hy (ih hys)

section Lines

variable {lines : List ScopedLine} {prog : List (SymInstr Nat)}

/-- The instruction of a line. -/
theorem ResolvesTo.of_line (h : List.Forall₂ ResolvesTo lines prog) {k : Nat} {l : ScopedLine}
    (hl : lines[k]? = some l) : ∃ j, prog[k]? = some j ∧ ResolvesTo l j := by
  obtain ⟨hlt, rfl⟩ := List.getElem?_eq_some_iff.mp hl
  have hlt' : k < prog.length := h.length_eq ▸ hlt
  exact ⟨_, List.getElem?_eq_getElem hlt', (List.forall₂_iff_get.mp h).2 k hlt hlt'⟩

theorem total_lines (h : List.Forall₂ ResolvesTo lines prog) :
    total Emit.size (lines.flatMap Prod.snd) = listStart prog prog.length := by
  induction h with
  | nil => rfl
  | @cons l j lines prog hl _ ih =>
    rw [List.flatMap_cons, total_append, ih, hl.encodes.size, listStart, listStart,
      List.take_length, List.take_length, List.map_cons, List.sum_cons]

/-- A text that holds the values of all emissions is the layout of the listing. -/
theorem laidOut_of_values {a : Word} {text : List Byte} (h : List.Forall₂ ResolvesTo lines prog)
    (hlen : text.length = total Emit.size (lines.flatMap Prod.snd)) (hfits : text.length < 2 ^ 32)
    (hvalues : ∀ k l f e, lines[k]? = some l → At Emit.size l.2 f e →
      field text (listStart prog k + f) e.size = e.value a (listStart prog) l.1) :
    LaidOut a prog text := by
  refine ⟨decodes_of_getElem? (fun k i hi => ?_) ?_, hfits⟩
  · rw [encodeProg, List.getElem?_map, Option.map_eq_some_iff] at hi
    obtain ⟨j, hj, rfl⟩ := hi
    obtain ⟨l, hl⟩ : ∃ l, lines[k]? = some l := by
      have hlt := (List.getElem?_eq_some_iff.mp hj).1
      exact ⟨_, List.getElem?_eq_getElem (by rw [h.length_eq]; exact hlt)⟩
    have hres : ResolvesTo l j := by
      obtain ⟨j', hj', hres⟩ := ResolvesTo.of_line h hl
      exact Option.some.inj (hj.symm.trans hj') ▸ hres
    have henc := hres.encodes
    have hvals := hvalues k l
    obtain ⟨es, hes⟩ := henc.cons
    have hcode : field text (listStart prog k) 1 = [j.op.code] := by
      have hhead := hvals 0 (emitOp j.op) hl (by rw [hes]; exact at_cons_iff.mpr (.inl ⟨rfl, rfl⟩))
      rwa [Nat.add_zero, size_emitOp] at hhead
    have hops : field text (listStart prog k + 1) j.op.shape.size
        = l.2.tail.flatMap (Emit.value a (listStart prog) l.1) := by
      have hsize := henc.size
      rw [hes, total_cons, size_emitOp, Op.size, Nat.add_left_cancel_iff] at hsize
      rw [← hsize, hes, List.tail_cons]
      refine field_values fun f e hat => ?_
      rw [Nat.add_assoc]
      exact hvals _ e hl (by rw [hes]; exact at_cons_iff.mpr (.inr ⟨f, rfl, hat⟩))
    have hfit : listStart prog k + j.op.size ≤ text.length := by
      rw [hlen, total_lines h, ← listStart_succ hj]
      exact listStart_le prog (k + 1)
    rw [Nat.zero_add, instrStart_encodeProg,
      decode_eq_some (getElem?_of_field_singleton hcode) hfit, hops, henc.resolve hres.2]
  · rw [Nat.zero_add, encodeProg, List.length_map, ← encodeProg, instrStart_encodeProg, hlen,
      total_lines h]

end Lines

end Dvm
