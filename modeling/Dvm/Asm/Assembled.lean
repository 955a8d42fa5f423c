/-
# The assembler's invariant

`Assembled starts es ctx` relates the context to the emissions `es` that were carried out: the
text section is laid out as they say, every patch and every relocation belongs to a label
reference among them, and the label table is in order.  `starts` are the positions at which
code labels may stand; while a line is carried out they do not change.
-/
import Dvm.Asm.Listing

namespace Dvm

open Bytes Table Layout Loops

/-! ## 1. The label table -/

/-- A label and what becomes of it: once defined it keeps its place. -/
def AsmLabel.Grows (l l' : AsmLabel) : Prop :=
  0 ≤ l.offset → l'.offset = l.offset ∧ l'.sec = l.sec ∧
    (l.flags ≠ dvmSymExtern → l'.flags ≠ dvmSymExtern)

theorem AsmLabel.Grows.refl (l : AsmLabel) : l.Grows l := fun _ => ⟨rfl, rfl, id⟩

theorem AsmLabel.IsCodeDef.grows {l l' : AsmLabel} (h : l.IsCodeDef) (hg : l.Grows l') :
    l'.IsCodeDef ∧ l'.offset = l.offset := by
  obtain ⟨hoff, hsec, hx⟩ := h
  obtain ⟨ho, hs, hf⟩ := hg hoff
  exact ⟨⟨ho ▸ hoff, hs.trans hsec, hf hx⟩, ho⟩

/-- An extern is undefined; a defined code label stands at one of `starts`. -/
def AsmLabel.Placed (starts : Nat → Prop) (l : AsmLabel) : Prop :=
  (l.flags = dvmSymExtern → l.offset < 0) ∧
    (0 ≤ l.offset → l.sec = dvmSecCode → ∃ p, starts p ∧ l.offset = (p : Nat))

theorem AsmLabel.Placed.mono {starts starts' : Nat → Prop} {l : AsmLabel}
    (h : l.Placed starts) (hs : ∀ p, starts p → starts' p) : l.Placed starts' := by
  refine ⟨h.1, ?_⟩
  intro hoff hsec
  obtain ⟨p, hp, heq⟩ := h.2 hoff hsec
  exact ⟨p, hs p hp, heq⟩

theorem AsmLabel.placed_of_neg {starts : Nat → Prop} {l : AsmLabel} (h : l.offset < 0) :
    l.Placed starts :=
  ⟨fun _ => h, fun hoff => absurd h (Int.not_lt.mpr hoff)⟩

/-- The label table is in order. -/
structure LabelsOk (starts : Nat → Prop) (labels : List AsmLabel) : Prop where
  nodup : (labels.map AsmLabel.name).Nodup
  few : labels.length ≤ asmMaxLabels
  placed : ∀ l ∈ labels, l.Placed starts

theorem LabelsOk.mono {starts starts' : Nat → Prop} {labels : List AsmLabel}
    (h : LabelsOk starts labels) (hs : ∀ p, starts p → starts' p) : LabelsOk starts' labels :=
  ⟨h.nodup, h.few, fun l hl => (h.placed l hl).mono hs⟩

theorem LabelsOk.set {starts : Nat → Prop} {labels : List AsmLabel} (h : LabelsOk starts labels)
    {i : Nat} {l l' : AsmLabel} (hi : labels[i]? = some l) (hname : l'.name = l.name)
    (hl' : l'.Placed starts) : LabelsOk starts (labels.set i l') where
  nodup := by rw [map_key_set hi hname]; exact h.nodup
  few := by rw [List.length_set]; exact h.few
  placed := by
    intro m hm
    rcases List.mem_or_eq_of_mem_set hm with hm | rfl
    · exact h.placed m hm
    · exact hl'

theorem LabelsOk.add {starts : Nat → Prop} {labels : List AsmLabel} (h : LabelsOk starts labels)
    {l : AsmLabel} (hnew : labelFind labels l.name = none) (hlen : labels.length < asmMaxLabels)
    (hl : l.Placed starts) : LabelsOk starts (labels ++ [l]) where
  nodup := nodup_append_new h.nodup hnew
  few := by rw [List.length_append]; exact hlen
  placed := by
    intro m hm
    rcases List.mem_append.mp hm with hm | hm
    · exact h.placed m hm
    · cases List.mem_singleton.mp hm
      exact hl

/-- The names of the table keep their places, and defined labels theirs. -/
abbrev LabelsGrow : List AsmLabel → List AsmLabel → Prop := Evolves AsmLabel.name AsmLabel.Grows

theorem Relabeled.keeps {starts : Nat → Prop} {new : AsmLabel → Prop}
    {labels labels' : List AsmLabel}
    (h : Relabeled new labels labels') (hnew : ∀ l, new l → l.Placed starts)
    (hok : LabelsOk starts labels) : LabelsOk starts labels' ∧ LabelsGrow labels labels' := by
  cases h with
  | same => exact ⟨hok, .refl AsmLabel.Grows.refl _⟩
  | @global i l hi =>
    have hl := hok.placed l (List.mem_of_getElem? hi)
    have hglobal : dvmSymGlobal ≠ dvmSymExtern := by decide
    refine ⟨hok.set hi rfl ⟨fun hx => absurd hx hglobal, hl.2⟩, ?_⟩
    exact .set AsmLabel.Grows.refl hi rfl fun _ => ⟨rfl, rfl, fun _ => hglobal⟩
  | @set i l l' hi hundef hname hl' =>
    have hneg : l.offset < 0 :=
      hundef.elim (hok.placed l (List.mem_of_getElem? hi)).1 id
    refine ⟨hok.set hi hname (hnew l' hl'), ?_⟩
    exact .set AsmLabel.Grows.refl hi hname fun hoff => absurd hneg (Int.not_lt.mpr hoff)
  | @add l hf hlen hl => exact ⟨hok.add hf hlen (hnew l hl), .append AsmLabel.Grows.refl _ _⟩

/-! ## 2. The invariant -/

/-- There is a patch for the reference to `name` at `p`. -/
def AsmCtx.HasPatch (ctx : AsmCtx) (name : CStr) (p : Nat) (is64 : Bool) : Prop :=
  ∃ line, ⟨name, p, is64, line⟩ ∈ ctx.patches

/-- What the text holds at `p`, where `e` was emitted.  The offset of a code label is there
already, or a patch will put it there. -/
def Emit.Holds (ctx : AsmCtx) (p : Nat) (e : Emit) : Prop :=
  match e with
  | .bytes bs => field ctx.text.bytes p bs.length = bs
  | .codeRef name =>
    (∃ l ∈ ctx.labels, l.name = name ∧ l.IsCodeDef ∧
        field ctx.text.bytes p 4 = offsetBytes l.offset) ∨
      (ctx.HasPatch name p false ∧ field ctx.text.bytes p 4 = offsetBytes 0)
  | .dataRef _ => field ctx.text.bytes p 8 = le 8 0
  | .stop _ => False

/-- The reference a patch is for. -/
def AsmPatch.ref (q : AsmPatch) : Emit := if q.is64 then .dataRef q.name else .codeRef q.name

/-- The relocation is for the reference `e` at `p`: its index is that of the label named there,
and of a label that is not defined yet there is a patch, too. -/
def RelFor (ctx : AsmCtx) (r : DvmRel) (p : Nat) (e : Emit) : Prop :=
  r.codeOffset = BitVec.ofNat 32 p ∧ ∃ l, ctx.labels[r.symIndex.toNat]? = some l ∧
    ((e = .codeRef l.name ∧ r.kind = dvmRelCode ∧ ctx.HasPatch l.name p false) ∨
      (e = .dataRef l.name ∧ r.kind = dvmRelData ∧ (0 ≤ l.offset ∨ ctx.HasPatch l.name p true)))

structure Assembled (starts : Nat → Prop) (es : List Emit) (ctx : AsmCtx) : Prop where
  length : ctx.text.bytes.length = total Emit.size es
  labels : LabelsOk starts ctx.labels
  items : ∀ p e, At Emit.size es p e → e.Holds ctx p
  patches : ∀ q ∈ ctx.patches, At Emit.size es q.patchAt q.ref
  rels : ∀ r ∈ ctx.rels, ∃ p e, At Emit.size es p e ∧ RelFor ctx r p e

theorem assembled_init {starts : Nat → Prop} : Assembled starts [] {} where
  length := rfl
  labels := ⟨List.nodup_nil, Nat.zero_le _, by simp⟩
  items := fun _ _ h => absurd h not_at_nil
  patches := by simp
  rels := by simp

/-! ## 3. Later contexts -/

/-- What stays when more is assembled. -/
structure Extends (ctx ctx' : AsmCtx) : Prop where
  text : ∃ bs, ctx'.text.bytes = ctx.text.bytes ++ bs
  labels : LabelsGrow ctx.labels ctx'.labels
  patches : ∀ q ∈ ctx.patches, q ∈ ctx'.patches

theorem Extends.field {ctx ctx' : AsmCtx} (h : Extends ctx ctx') {p n : Nat}
    (hp : p + n ≤ ctx.text.bytes.length) :
    field ctx'.text.bytes p n = field ctx.text.bytes p n := by
  obtain ⟨bs, hbs⟩ := h.text
  rw [hbs, field_append_left hp]

theorem Extends.hasPatch {ctx ctx' : AsmCtx} (h : Extends ctx ctx') {name : CStr} {p : Nat}
    {is64 : Bool} (hp : ctx.HasPatch name p is64) : ctx'.HasPatch name p is64 := by
  obtain ⟨line, hq⟩ := hp
  exact ⟨line, h.patches _ hq⟩

theorem Emit.Holds.mono {ctx ctx' : AsmCtx} {p : Nat} {e : Emit} (h : e.Holds ctx p)
    (hx : Extends ctx ctx') (hp : p + e.size ≤ ctx.text.bytes.length) : e.Holds ctx' p := by
  cases e with
  | bytes bs => exact (hx.field hp).trans h
  | codeRef name =>
    rcases h with ⟨l, hl, hname, hdef, hf⟩ | ⟨hpatch, hf⟩
    · obtain ⟨i, hi⟩ := List.getElem?_of_mem hl
      obtain ⟨l', hi', hname', hg⟩ := hx.labels i l hi
      obtain ⟨hdef', hoff⟩ := hdef.grows hg
      refine .inl ⟨l', List.mem_of_getElem? hi', hname'.trans hname, hdef', ?_⟩
      exact (hx.field hp).trans (hoff.symm ▸ hf)
    · exact .inr ⟨hx.hasPatch hpatch, (hx.field hp).trans hf⟩
  | dataRef name => exact (hx.field hp).trans h
  | stop why => exact h

theorem RelFor.mono {ctx ctx' : AsmCtx} {r : DvmRel} {p : Nat} {e : Emit} (h : RelFor ctx r p e)
    (hx : Extends ctx ctx') : RelFor ctx' r p e := by
  obtain ⟨hpos, l, hi, hl⟩ := h
  obtain ⟨l', hi', hname, hg⟩ := hx.labels _ l hi
  refine ⟨hpos, l', hi', ?_⟩
  rw [hname]
  rcases hl with ⟨he, hk, hp⟩ | ⟨he, hk, hdef⟩
  · exact .inl ⟨he, hk, hx.hasPatch hp⟩
  · refine .inr ⟨he, hk, hdef.imp (fun hoff => ?_) hx.hasPatch⟩
    rw [(hg hoff).1]
    exact hoff

/-! ## 4. Emissions keep the invariant -/

section Emission

variable {starts : Nat → Prop} {ctx ctx' : AsmCtx} {e : Emit}

theorem Emitted.extends (h : Emitted ctx e ctx') : Extends ctx ctx' := by
  have hrefl : LabelsGrow ctx.labels ctx.labels := .refl AsmLabel.Grows.refl _
  have happ : ∀ q, ∀ q' ∈ ctx.patches, q' ∈ ctx.patches ++ [q] :=
    fun q q' hq => List.mem_append_left _ hq
  cases h with
  | bytes hb => exact ⟨⟨_, hb⟩, hrefl, fun _ hq => hq⟩
  | codeDef _ _ hb => exact ⟨⟨_, hb⟩, hrefl, fun _ hq => hq⟩
  | codePatch _ hb => exact ⟨⟨_, hb⟩, hrefl, happ _⟩
  | codeRel _ _ hb => exact ⟨⟨_, hb⟩, hrefl, happ _⟩
  | dataDef _ _ hb => exact ⟨⟨_, hb⟩, hrefl, fun _ hq => hq⟩
  | dataPatch _ hb => exact ⟨⟨_, hb⟩, hrefl, happ _⟩
  | dataNew _ _ hb => exact ⟨⟨_, hb⟩, .append AsmLabel.Grows.refl _ _, happ _⟩

theorem Emitted.length (h : Emitted ctx e ctx') :
    ctx'.text.bytes.length = ctx.text.bytes.length + e.size := by
  have hadds : ∀ {b : Buf} {bs : List Byte}, ctx.text.Adds b bs →
      b.bytes.length = ctx.text.bytes.length + bs.length := by
    intro b bs hb
    rw [Buf.Adds] at hb
    rw [hb, List.length_append]
  cases h with
  | bytes hb => exact hadds hb
  | codeDef _ _ hb => exact hadds hb
  | codePatch _ hb => exact hadds hb
  | codeRel _ _ hb => exact hadds hb
  | dataDef _ _ hb => exact hadds hb
  | dataPatch _ hb => exact hadds hb
  | dataNew _ _ hb => exact hadds hb

theorem Emitted.labelsOk (h : Emitted ctx e ctx') (hok : LabelsOk starts ctx.labels) :
    LabelsOk starts ctx'.labels := by
  cases h with
  | dataNew hnone hlen _ =>
    exact hok.add hnone hlen (AsmLabel.placed_of_neg (show (-1 : Int) < 0 by decide))
  | _ => exact hok

/-- The field that was just added. -/
theorem Buf.Adds.field {b b' : Buf} {bs : List Byte} (h : b.Adds b' bs) :
    field b'.bytes b.bytes.length bs.length = bs := by
  rw [Buf.Adds] at h
  rw [h, field_append_self]

theorem Emitted.holds (h : Emitted ctx e ctx') : e.Holds ctx' ctx.text.bytes.length := by
  cases h with
  | bytes hb => exact hb.field
  | codeDef hf hdef hb =>
    exact .inl ⟨_, List.mem_of_getElem? (getElem?_of_find hf), key_of_find hf, hdef, hb.field⟩
  | codePatch _ hb => exact .inr ⟨⟨_, List.mem_append_right _ (.head _)⟩, hb.field⟩
  | codeRel _ _ hb => exact .inr ⟨⟨_, List.mem_append_right _ (.head _)⟩, hb.field⟩
  | dataDef _ _ hb => exact hb.field
  | dataPatch _ hb => exact hb.field
  | dataNew _ _ hb => exact hb.field

theorem Emitted.patches (h : Emitted ctx e ctx') :
    ∀ q ∈ ctx'.patches, q ∈ ctx.patches ∨ (q.patchAt = ctx.text.bytes.length ∧ q.ref = e) := by
  have happ : ∀ {q' q : AsmPatch}, q ∈ ctx.patches ++ [q'] → q'.ref = e →
      q'.patchAt = ctx.text.bytes.length →
      q ∈ ctx.patches ∨ (q.patchAt = ctx.text.bytes.length ∧ q.ref = e) := by
    intro q' q hq he hp
    rcases List.mem_append.mp hq with hq | hq
    · exact .inl hq
    · cases List.mem_singleton.mp hq
      exact .inr ⟨hp, he⟩
  intro q hq
  cases h with
  | bytes _ => exact .inl hq
  | codeDef _ _ _ => exact .inl hq
  | codePatch _ _ => exact happ hq rfl rfl
  | codeRel _ _ _ => exact happ hq rfl rfl
  | dataDef _ _ _ => exact .inl hq
  | dataPatch _ _ => exact happ hq rfl rfl
  | dataNew _ _ _ => exact happ hq rfl rfl

/-- The index of an entry survives being stored in 32 bits. -/
theorem LabelsOk.index {labels : List AsmLabel} (h : LabelsOk starts labels) {i : Nat}
    (hi : i < labels.length) : (BitVec.ofNat 32 i).toNat = i := by
  have hfew := h.few
  rw [BitVec.toNat_ofNat, Nat.mod_eq_of_lt]
  unfold asmMaxLabels at hfew
  omega

theorem Emitted.rels (h : Emitted ctx e ctx') (hok : LabelsOk starts ctx'.labels) :
    ∀ r ∈ ctx'.rels, r ∈ ctx.rels ∨ RelFor ctx' r ctx.text.bytes.length e := by
  have happ : ∀ {r' r : DvmRel}, r ∈ ctx.rels ++ [r'] → RelFor ctx' r' ctx.text.bytes.length e →
      r ∈ ctx.rels ∨ RelFor ctx' r ctx.text.bytes.length e := by
    intro r' r hr hfor
    rcases List.mem_append.mp hr with hr | hr
    · exact .inl hr
    · cases List.mem_singleton.mp hr
      exact .inr hfor
  intro r hr
  cases h with
  | bytes _ => exact .inl hr
  | codeDef _ _ _ => exact .inl hr
  | codePatch _ _ => exact .inl hr
  | @codeRel name line i l b hf _ _ =>
    have hname : l.name = name := key_of_find hf
    refine happ hr ⟨rfl, l, ?_, .inl ⟨?_, rfl, line, ?_⟩⟩
    · rw [hok.index (lt_length_of_find hf)]
      exact getElem?_of_find hf
    · rw [hname]
    · rw [hname]
      exact List.mem_append_right _ (.head _)
  | @dataDef name i l b hf hoff _ =>
    have hname : l.name = name := key_of_find hf
    refine happ hr ⟨rfl, l, ?_, .inr ⟨?_, rfl, .inl hoff⟩⟩
    · rw [hok.index (lt_length_of_find hf)]
      exact getElem?_of_find hf
    · rw [hname]
  | @dataPatch name line i l b hf _ =>
    have hname : l.name = name := key_of_find hf
    refine happ hr ⟨rfl, l, ?_, .inr ⟨?_, rfl, .inr ⟨line, ?_⟩⟩⟩
    · rw [hok.index (lt_length_of_find hf)]
      exact getElem?_of_find hf
    · rw [hname]
    · rw [hname]
      exact List.mem_append_right _ (.head _)
  | @dataNew name line b _ _ _ =>
    have hpatch : AsmPatch.mk name ctx.text.bytes.length true line ∈
        ctx.patches ++ [⟨name, ctx.text.bytes.length, true, line⟩] :=
      List.mem_append_right _ (.head _)
    refine happ hr ⟨rfl, ⟨name, dvmSymExtern, dvmSecNone, -1⟩, ?_,
      .inr ⟨rfl, rfl, .inr ⟨line, hpatch⟩⟩⟩
    rw [hok.index (by simp)]
    exact List.getElem?_concat_length

variable {es : List Emit}

theorem Assembled.emit (h : Assembled starts es ctx) (he : Emitted ctx e ctx') :
    Assembled starts (es ++ [e]) ctx' where
  length := by rw [he.length, h.length, total_append, total_cons, total_nil, Nat.add_zero]
  labels := he.labelsOk h.labels
  items := by
    intro p e' hat
    rcases at_snoc_iff.mp hat with hat | ⟨rfl, rfl⟩
    · exact (h.items p e' hat).mono he.extends (hat.end_le.trans_eq h.length.symm)
    · rw [← h.length]
      exact he.holds
  patches := by
    intro q hq
    rcases he.patches q hq with hq | ⟨hp, href⟩
    · exact at_snoc_iff.mpr (.inl (h.patches q hq))
    · exact at_snoc_iff.mpr (.inr ⟨hp.trans h.length, href⟩)
  rels := by
    intro r hr
    rcases he.rels (he.labelsOk h.labels) r hr with hr | hfor
    · obtain ⟨p, e', hat, hfor⟩ := h.rels r hr
      exact ⟨p, e', at_snoc_iff.mpr (.inl hat), hfor.mono he.extends⟩
    · exact ⟨_, e, at_snoc_iff.mpr (.inr ⟨h.length, rfl⟩), hfor⟩

/-- A whole instruction. -/
theorem Assembled.emits {line : Nat} {es' : List Emit} (h : Assembled starts es ctx)
    (hes : es'.foldlM (doEmit line) ctx = .ok ctx') : Assembled starts (es ++ es') ctx' := by
  induction es' generalizing es ctx with
  | nil =>
    cases hes
    rwa [List.append_nil]
  | cons e es' ih =>
    obtain ⟨c₁, h₁, h₂⟩ := foldlM_cons_ok_iff.mp hes
    have hstep := ih (h.emit (doEmit_ok h₁)) h₂
    rwa [List.append_assoc, List.singleton_append] at hstep

/-- Changes of the label table keep it as well, if new labels stand at one of `starts`. -/
theorem Assembled.relabel {new : AsmLabel → Prop} {labels : List AsmLabel}
    (h : Assembled starts es ctx) (hl : Relabeled new ctx.labels labels)
    (hnew : ∀ l, new l → l.Placed starts) :
    Assembled starts es { ctx with labels := labels } := by
  obtain ⟨hok, hgrow⟩ := hl.keeps hnew h.labels
  have hx : Extends ctx { ctx with labels := labels } :=
    ⟨⟨[], (List.append_nil _).symm⟩, hgrow, fun _ hq => hq⟩
  refine ⟨h.length, hok, fun p e hat => ?_, h.patches, fun r hr => ?_⟩
  · exact (h.items p e hat).mono hx (hat.end_le.trans_eq h.length.symm)
  · obtain ⟨p, e, hat, hfor⟩ := h.rels r hr
    exact ⟨p, e, hat, hfor.mono hx⟩

end Emission

end Dvm
