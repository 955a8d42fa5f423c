/-
# Relocations and the symbol table

Relocations hold indices into the assembler's label table, `asm_to_prog` writes a symbol table
that leaves out the labels that were announced but not defined.  The two numberings agree
exactly if no such label stands before one that a relocation refers to
(`relsNamed_iff`); which labels these are the source says (`Dvm.Asm.Names`).
-/
import Dvm.Asm.Names

namespace Dvm

open Bytes Table Layout Loops

/-! ## 1. What the operands name -/

/-- The operand at text position `p` is written as the label `name`. -/
def Names (es : List Emit) (p : Nat) (name : CStr) : Prop :=
  At Emit.size es p (.codeRef name) ∨ At Emit.size es p (.dataRef name)

/-- The symbol has the label's name, and its final section and offset. -/
def IsSymOf (l : AsmLabel) (s : DvmSym) : Prop :=
  s.name = l.name ∧ s.sec = (if l.flags = dvmSymExtern then dvmSecNone else l.sec) ∧
    s.offset = (if 0 ≤ l.offset then BitVec.ofInt 32 l.offset else 0)

/-- The symbol of every relocation is that of the label its operand names. -/
def RelsNamed (es : List Emit) (ctx : AsmCtx) : Prop :=
  ∀ r ∈ (asmToProg ctx).rels, ∃ name, Names es r.codeOffset.toNat name ∧
    ∃ l ∈ ctx.labels, l.name = name ∧
      ∃ s, (asmToProg ctx).syms[r.symIndex.toNat]? = some s ∧ IsSymOf l s

/-- No name that is announced and never defined is mentioned before one with a relocation. -/
def NameTable.NoGap (t : NameTable) : Prop :=
  ∀ (i p : Nat) (name : CStr), t.names[i]? = some name → (p, name) ∈ t.relocated →
    ∀ (j : Nat) (name' : CStr), j < i → t.names[j]? = some name' → t.status name' ≠ .announced

/-- An operand names one label. -/
theorem Names.unique {es : List Emit} {p : Nat} {name name' : CStr} (h : Names es p name)
    (h' : Names es p name') : name = name' := by
  have hsep : ∀ {e e' : Emit}, At Emit.size es p e → At Emit.size es p e' → 0 < e.size →
      0 < e'.size → e = e' := by
    intro e e' he he' hpos hpos'
    rcases he.sep he' with ⟨-, heq⟩ | hsep | hsep
    · exact heq
    · omega
    · omega
  rcases h with h | h <;> rcases h' with h' | h'
  · exact Emit.codeRef.inj (hsep h h' (by simp) (by simp))
  · cases hsep h h' (by simp) (by simp)
  · cases hsep h h' (by simp) (by simp)
  · exact Emit.dataRef.inj (hsep h h' (by simp) (by simp))

/-! ## 2. The symbol table -/

section Symbols

variable {gs : List (List Emit)} {ctx : AsmCtx} {t : NameTable}

theorem Accepted.syms (h : Accepted gs ctx) :
    (asmToProg ctx).syms = (ctx.labels.filter fun l => l.Exported).map AsmLabel.toSym := by
  have hfilter := List.length_filter_le (fun l : AsmLabel => decide l.Exported) ctx.labels
  have hfew := h.labels.few
  unfold asmMaxLabels at hfew
  refine List.take_of_length_le ?_
  rw [List.length_map, dvmMaxSyms]
  omega

/-- A relocation, the operand it is for and the label of its index. -/
theorem Accepted.relNames (h : Accepted gs ctx) {r : DvmRel} (hr : r ∈ ctx.rels) :
    ∃ l, ctx.labels[r.symIndex.toNat]? = some l ∧ l.Exported ∧
      Names gs.flatten r.codeOffset.toNat l.name := by
  obtain ⟨p, e, hat, hpos, l, hi, hexp, href⟩ := h.rels r hr
  have hp : r.codeOffset.toNat = p := hpos ▸ h.position hat
  refine ⟨l, hi, hexp, ?_⟩
  rw [hp]
  rcases href with ⟨rfl, -⟩ | ⟨rfl, -⟩
  · exact .inl hat
  · exact .inr hat

/-- The symbol at a relocation's index has the name of the operand exactly if all labels before
it are in the symbol table. -/
theorem Accepted.sym_named_iff (h : Accepted gs ctx) {i : Nat} {l : AsmLabel}
    (hi : ctx.labels[i]? = some l) (hexp : l.Exported) :
    (∃ s, (asmToProg ctx).syms[i]? = some s ∧ s.name = l.name) ↔
      ∀ j m, j < i → ctx.labels[j]? = some m → m.Exported := by
  have hiff := @filter_keeps_index_iff _ _ AsmLabel.name _ (fun l => decide l.Exported) i l
    h.labels.nodup hi (decide_eq_true hexp)
  simp only [decide_eq_true_eq] at hiff
  rw [h.syms, ← hiff]
  constructor
  · rintro ⟨s, hs, hname⟩
    rw [List.getElem?_map, Option.map_eq_some_iff] at hs
    obtain ⟨m, hm, rfl⟩ := hs
    exact ⟨m, hm, hname⟩
  · rintro ⟨m, hm, hname⟩
    exact ⟨m.toSym, by rw [List.getElem?_map, hm]; rfl, hname⟩

theorem Abstracts.status_of_label (ht : Abstracts t ctx) (hn : (ctx.labels.map AsmLabel.name).Nodup)
    {i : Nat} {l : AsmLabel} (hi : ctx.labels[i]? = some l) : t.status l.name = l.status := by
  rw [← ht.status]
  exact statusIn_of_find (find_of_nodup hn hi)

theorem Abstracts.names_getElem? (ht : Abstracts t ctx) {i : Nat} {name : CStr} :
    t.names[i]? = some name ↔ ∃ l, ctx.labels[i]? = some l ∧ l.name = name := by
  rw [← ht.names, List.getElem?_map, Option.map_eq_some_iff]

/-- The references with a relocation are those that the relocations are for. -/
theorem Abstracts.mem_relocated_iff (ht : Abstracts t ctx) {p : Nat} {name : CStr} :
    (p, name) ∈ t.relocated ↔
      ∃ r ∈ ctx.rels, r.codeOffset.toNat = p ∧ t.names[r.symIndex.toNat]? = some name := by
  have hmem : (p, some name) ∈ t.relocated.map (fun x => (x.1, some x.2)) ↔
      (p, name) ∈ t.relocated := by simp
  rw [← hmem, ← ht.rels]
  simp

theorem Accepted.relsNamed_iff_noGap (h : Accepted gs ctx) (ht : Abstracts t ctx) :
    RelsNamed gs.flatten ctx ↔ t.NoGap := by
  constructor
  · intro hnamed i p name hi hrel j name' hj hj'
    obtain ⟨r, hr, -, hri⟩ := ht.mem_relocated_iff.mp hrel
    -- names do not repeat, so `i` is the relocation's index
    have hnodup : t.names.Nodup := ht.names ▸ h.labels.nodup
    have hlt := (List.getElem?_eq_some_iff.mp hri).1
    have hidx : r.symIndex.toNat = i := (List.getElem?_inj hlt hnodup).mp (hri.trans hi.symm)
    obtain ⟨l, hl, hexp, hop⟩ := h.relNames hr
    obtain ⟨written, hop', l', -, rfl, s, hs, hsym⟩ := hnamed r hr
    have hall := (h.sym_named_iff hl hexp).mp ⟨s, hs, hsym.1.trans (hop'.unique hop)⟩
    obtain ⟨m, hm, rfl⟩ := ht.names_getElem?.mp hj'
    rw [ht.status_of_label h.labels.nodup hm]
    exact AsmLabel.exported_iff.mp (hall j m (hidx ▸ hj) hm)
  · intro hgap r hr
    obtain ⟨l, hl, hexp, hop⟩ := h.relNames hr
    have hname : t.names[r.symIndex.toNat]? = some l.name := ht.names_getElem?.mpr ⟨l, hl, rfl⟩
    have hrel := ht.mem_relocated_iff.mpr ⟨r, hr, rfl, hname⟩
    have hall : ∀ j m, j < r.symIndex.toNat → ctx.labels[j]? = some m → m.Exported := by
      intro j m hj hm
      have hst := hgap _ _ _ hname hrel j m.name hj (ht.names_getElem?.mpr ⟨m, hm, rfl⟩)
      rw [ht.status_of_label h.labels.nodup hm] at hst
      exact AsmLabel.exported_iff.mpr hst
    refine ⟨l.name, hop, l, List.mem_of_getElem? hl, rfl, l.toSym, ?_, rfl, rfl, rfl⟩
    obtain ⟨s, hs, hsname⟩ := (h.sym_named_iff hl hexp).mpr hall
    rw [h.syms, List.getElem?_map, Option.map_eq_some_iff] at hs
    obtain ⟨m, hm, rfl⟩ := hs
    have hml : m = l := List.inj_on_of_nodup_map h.labels.nodup
      (List.mem_filter.mp (List.mem_of_getElem? hm)).1 (List.mem_of_getElem? hl) hsname
    rw [h.syms, List.getElem?_map, hm, hml]
    rfl

end Symbols

end Dvm
