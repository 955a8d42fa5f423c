/-
# The interpreter decodes what was assembled

The text of an accepted source, decoded by the interpreter's fetch rules, is one instruction for
each code line, in their order; code labels, patches and relocations stand at instruction
boundaries and operand fields of that decoding (`asmCompile_framed`).
-/
import Mathlib.Data.List.Forall2
import Dvm.Asm.Accepted

namespace Dvm

open Bytes Layout Loops

/-! ## 1. Decoding the code lines -/

/-- The code line `c` has become the instruction `i`. -/
def Becomes (c : CStr × List Emit) (i : Op × Operands) : Prop :=
  i.1 ∈ mnemonicOps c.1 ∧ Encodes i.1 c.2

/-- The bytes of the text are those of the emissions. -/
def BytesLaid (text : List Byte) (es : List Emit) : Prop :=
  text.length = total Emit.size es ∧
    ∀ p bs, At Emit.size es p (.bytes bs) → field text p bs.length = bs

/-- The bytes at `p` are those of the emissions. -/
def LaidAt (text : List Byte) (p : Nat) (es : List Emit) : Prop :=
  p + total Emit.size es ≤ text.length ∧
    ∀ q bs, At Emit.size es q (.bytes bs) → field text (p + q) bs.length = bs

/-- A part of the emissions. -/
theorem BytesLaid.laidAt {text : List Byte} {before es after : List Emit}
    (h : BytesLaid text (before ++ es ++ after)) : LaidAt text (total Emit.size before) es := by
  obtain ⟨hlen, hbytes⟩ := h
  rw [List.append_assoc] at hbytes
  refine ⟨?_, fun q bs hat => hbytes _ _ ?_⟩
  · rw [hlen, total_append, total_append]
    omega
  · exact at_append_iff.mpr (.inr ⟨q, rfl, at_append_iff.mpr (.inl hat)⟩)

theorem getElem?_of_field_singleton {bs : List Byte} {p : Nat} {b : Byte}
    (h : field bs p 1 = [b]) : bs[p]? = some b := by
  have hb : (field bs p 1)[0]? = bs[p + 0]? := getElem?_field Nat.one_pos
  rw [h] at hb
  exact hb.symm

/-- The instruction that stands at `p`. -/
theorem LaidAt.decode {text : List Byte} {p : Nat} {op : Op} {es : List Emit}
    (h : LaidAt text p es) (hes : Encodes op es) :
    decode text p = some (op, op.shape.fetch (field text (p + 1) op.shape.size)) := by
  have hfit := h.1
  rw [hes.size] at hfit
  exact decode_eq_some (getElem?_of_field_singleton (h.2 0 _ hes.head)) hfit

theorem decodes_lines {text : List Byte} {before : List Emit} {cs : List (CStr × List Emit)}
    (hcs : ∀ c ∈ cs, Encoded c) (h : BytesLaid text (before ++ (cs.map Prod.snd).flatten)) :
    ∃ is, Decodes text (total Emit.size before) is ∧ List.Forall₂ Becomes cs is := by
  induction cs generalizing before with
  | nil =>
    refine ⟨[], ?_, .nil⟩
    have hlen : text.length = total Emit.size before := by simpa using h.1
    rw [← hlen]
    exact .done
  | cons c cs ih =>
    obtain ⟨⟨op, hop, hes⟩, hcs'⟩ := List.forall_mem_cons.mp hcs
    rw [List.map_cons, List.flatten_cons, ← List.append_assoc] at h
    obtain ⟨is, his, hall⟩ := ih hcs' h
    refine ⟨(op, _) :: is, .instr (h.laidAt.decode hes) ?_, .cons ⟨hop, hes⟩ hall⟩
    rwa [total_append, hes.size] at his

/-! ## 2. Positions -/

section Positions

variable {cs : List (CStr × List Emit)} {is : List (Op × Operands)}

theorem groupStart_eq_instrStart (h : List.Forall₂ Becomes cs is) (k : Nat) :
    groupStart Emit.size (cs.map Prod.snd) k = instrStart is k := by
  induction h generalizing k with
  | nil => simp [groupStart, instrStart]
  | @cons c i cs is hc _ ih =>
    cases k with
    | zero => rfl
    | succ k =>
      rw [List.map_cons, groupStart_cons_succ, ih, hc.2.size]
      simp [instrStart]

/-- The instruction of a line. -/
theorem instr_of_line (h : List.Forall₂ Becomes cs is) {k : Nat} {c : CStr × List Emit}
    (hk : cs[k]? = some c) : ∃ i, is[k]? = some i ∧ Becomes c i := by
  induction h generalizing k with
  | nil => cases hk
  | cons hc _ ih =>
    cases k with
    | zero =>
      cases hk
      exact ⟨_, rfl, hc⟩
    | succ k => exact ih hk

/-- The line of an instruction. -/
theorem line_of_instr (h : List.Forall₂ Becomes cs is) {k : Nat} {i : Op × Operands}
    (hk : is[k]? = some i) : ∃ c, cs[k]? = some c ∧ Becomes c i := by
  have hlt : k < cs.length := by
    rw [h.length_eq]
    exact (List.getElem?_eq_some_iff.mp hk).1
  obtain ⟨i', hi', hc⟩ := instr_of_line h (List.getElem?_eq_getElem hlt)
  rw [hk, Option.some.injEq] at hi'
  exact ⟨_, List.getElem?_eq_getElem hlt, hi' ▸ hc⟩

/-- An emission of the text, its line and its instruction. -/
theorem instr_of_at (h : List.Forall₂ Becomes cs is) {p : Nat} {e : Emit}
    (hat : At Emit.size (cs.map Prod.snd).flatten p e) :
    ∃ k c i f, is[k]? = some i ∧ Becomes c i ∧ p = instrStart is k + f ∧ At Emit.size c.2 f e := by
  obtain ⟨k, es, f, hk, rfl, hf⟩ := hat.of_flatten
  rw [List.getElem?_map, Option.map_eq_some_iff] at hk
  obtain ⟨c, hc, rfl⟩ := hk
  obtain ⟨i, hi, hbec⟩ := instr_of_line h hc
  exact ⟨k, c, i, f, hi, hbec, by rw [groupStart_eq_instrStart h], hf⟩

/-- An emission of a line, in the text. -/
theorem at_of_line (h : List.Forall₂ Becomes cs is) {k f : Nat} {c : CStr × List Emit} {e : Emit}
    (hk : cs[k]? = some c) (hf : At Emit.size c.2 f e) :
    At Emit.size (cs.map Prod.snd).flatten (instrStart is k + f) e := by
  rw [← groupStart_eq_instrStart h]
  exact hf.flatten (by rw [List.getElem?_map, hk]; rfl)

/-- Position `f` of instruction `k` is position `p` of the text. -/
def FieldAt (is : List (Op × Operands)) (k : Nat) (i : Op × Operands) (f p : Nat) : Prop :=
  is[k]? = some i ∧ p = instrStart is k + f

/-- A code reference is one of the code offsets of an instruction. -/
theorem fieldAt_codeRef (h : List.Forall₂ Becomes cs is) {p : Nat} {name : CStr}
    (hat : At Emit.size (cs.map Prod.snd).flatten p (.codeRef name)) :
    ∃ k i f, FieldAt is k i f p ∧ f ∈ i.1.codeFields := by
  obtain ⟨k, c, i, f, hi, hbec, hp, hf⟩ := instr_of_at h hat
  exact ⟨k, i, f, ⟨hi, hp⟩, hbec.2.codeRef hf⟩

/-- A data reference is the immediate of a `MOV_RI`. -/
theorem fieldAt_dataRef (h : List.Forall₂ Becomes cs is) {p : Nat} {name : CStr}
    (hat : At Emit.size (cs.map Prod.snd).flatten p (.dataRef name)) :
    ∃ k i, FieldAt is k i movImmField p ∧ i.1 = .movRI := by
  obtain ⟨k, c, i, f, hi, hbec, hp, hf⟩ := instr_of_at h hat
  obtain ⟨hop, rfl⟩ := hbec.2.dataRef hf
  exact ⟨k, i, ⟨hi, hp⟩, hop⟩

end Positions

/-! ## 3. Framing -/

/-- The instructions `is` are what the interpreter decodes, one for each code line, and
everything the assembler refers to by position stands where an instruction has it. -/
structure Framed (cs : List (CStr × List Emit)) (ctx : AsmCtx) (is : List (Op × Operands)) :
    Prop where
  decodes : Decodes ctx.text.bytes 0 is
  lines : List.Forall₂ (fun c i => i.1.code.toNat < opCount ∧ i.1 ∈ mnemonicOps c.1) cs is
  labels : ∀ l ∈ ctx.labels, 0 ≤ l.offset → l.sec = dvmSecCode →
    ∃ k, k ≤ is.length ∧ l.offset = (instrStart is k : Nat)
  patches : ∀ q ∈ ctx.patches, q.is64 = false →
    ∃ k i f, FieldAt is k i f q.patchAt ∧ f ∈ i.1.codeFields
  rels : ∀ r ∈ ctx.rels, ∃ k i f, FieldAt is k i f r.codeOffset.toNat ∧
    ((r.kind = dvmRelData ∧ i.1 = .movRI ∧ f = movImmField) ∨
      (r.kind = dvmRelCode ∧ f ∈ i.1.codeFields))

theorem Accepted.framed {cs : List (CStr × List Emit)} {ctx : AsmCtx}
    (h : Accepted (cs.map Prod.snd) ctx) (hcs : ∀ c ∈ cs, Encoded c) :
    ∃ is, Framed cs ctx is ∧ List.Forall₂ Becomes cs is := by
  have hlaid : BytesLaid ctx.text.bytes ([] ++ (cs.map Prod.snd).flatten) :=
    ⟨h.length, fun p bs hat => h.items p _ hat⟩
  obtain ⟨is, hdec, hall⟩ := decodes_lines hcs hlaid
  refine ⟨is, ⟨hdec, hall.imp fun c i hc => ⟨i.1.code_lt, hc.1⟩, ?_, ?_, ?_⟩, hall⟩
  · intro l hl hoff hsec
    obtain ⟨p, ⟨k, hk, rfl⟩, heq⟩ := (h.labels.placed l hl).2 hoff hsec
    rw [List.length_map, hall.length_eq] at hk
    exact ⟨k, hk, by rw [heq, groupStart_eq_instrStart hall]⟩
  · intro q hq h32
    have hat := h.patches q hq
    rw [AsmPatch.ref, h32] at hat
    exact fieldAt_codeRef hall hat
  · intro r hr
    obtain ⟨p, e, hat, hpos, l, -, -, href⟩ := h.rels r hr
    rw [hpos, h.position hat]
    rcases href with ⟨rfl, hk⟩ | ⟨rfl, hk⟩
    · obtain ⟨k, i, f, hf, hmem⟩ := fieldAt_codeRef hall hat
      exact ⟨k, i, f, hf, .inr ⟨hk, hmem⟩⟩
    · obtain ⟨k, i, hf, hop⟩ := fieldAt_dataRef hall hat
      exact ⟨k, i, movImmField, hf, .inl ⟨hk, hop, rfl⟩⟩

/-- The interpreter decodes the text of an accepted source as the instructions of its code
lines. -/
theorem asmCompile_framed {env : AsmEnv} {src : List Byte} {ctx : AsmCtx}
    (h : asmCompile env src = .ok ctx) : ∃ is, Framed (codeLines env src) ctx is := by
  obtain ⟨hacc, hcs⟩ := asmCompile_accepted h
  obtain ⟨is, hframed, -⟩ := hacc.framed hcs
  exact ⟨is, hframed⟩

/-- A source with every kind of reference: forward, backward, to an extern, and to data. -/
def referencesSource : List Byte :=
  lit "extern f\nstart: mov ax, buf\ncall f, end\njmp start\nend: halt\n.data\nbuf: dw 7\n"

/-- It is accepted and decoded as its four instructions. -/
theorem referencesSource_framed :
    ∃ ctx is, asmCompile zeroEnv referencesSource = .ok ctx ∧ is.length = 4 ∧
      Framed (codeLines zeroEnv referencesSource) ctx is := by
  obtain ⟨ctx, h⟩ : ∃ ctx, asmCompile zeroEnv referencesSource = .ok ctx :=
    exists_ok_of_isOk (by decide)
  obtain ⟨is, hframed⟩ := asmCompile_framed h
  have hlines : (codeLines zeroEnv referencesSource).length = 4 := by decide
  exact ⟨ctx, is, h, hframed.lines.length_eq.symm.trans hlines, hframed⟩

end Dvm
