/-
# What linking and loading leave alone

Linking puts the sections of all objects one behind the other and moves the relocations along,
loading copies the sections and stores one field for each relocation.  So what is loaded should
differ from the concatenated objects in the operands with a relocation only
(`ChangesFieldsOnly`).

The operands of all objects lie apart (`linkedRel_apart`), but the linker keeps the position of
a relocation in 32 bits: behind 4 GiB of linked code it comes out at another place, and
`changesFieldsOnly_iff` says that nothing else can go wrong.
-/
import Mathlib.Tactic.NormNum.Basic
import Dvm.Asm.Refs
import Dvm.LinkLoad
import Dvm.Link.Linkable

namespace Dvm

open Bytes ByteMem Table Layout Concat Loops

/-! ## 1. The fields -/

/-- What is loaded from `out` are the sections of all sources, changed in the operands with a
relocation only. -/
structure ChangesFieldsOnly (us : List Assembly) (maps : LoadMaps) (m : Mem) (out : DvmProg)
    (ld : DvmLoaded) (m' : Mem) : Prop where
  cnst : readBytes m' maps.cnst out.cnst.length = (objects us).flatMap DvmProg.cnst
  data : readBytes m' maps.data out.data.length = (objects us).flatMap DvmProg.data
  /-- Every relocation stays at its operand. -/
  fields : ∀ i j u r, LinkedRel us i j u r → ∃ r', out.rels[relPos (objects us) i j]? = some r' ∧
    r'.codeOffset.toNat = fieldPos us i r ∧ r'.width = r.width
  /-- A byte outside the operands is the one that was assembled. -/
  code : ∀ x, (∀ i j u r, LinkedRel us i j u r →
      x < fieldPos us i r ∨ fieldPos us i r + r.width ≤ x) →
    (readBytes m' maps.code out.code.length)[x]? = ((objects us).flatMap DvmProg.code)[x]?
  inside : ∀ i j u r, LinkedRel us i j u r →
    fieldPos us i r + r.width ≤ ((objects us).flatMap DvmProg.code).length
  apart : ∀ i j u r i' j' u' r', LinkedRel us i j u r → LinkedRel us i' j' u' r' →
    (i = i' ∧ j = j') ∨ fieldPos us i r + r.width ≤ fieldPos us i' r' ∨
      fieldPos us i' r' + r'.width ≤ fieldPos us i r
  /-- The relocations can be carried out in any order. -/
  order : ∀ rels : List DvmRel, rels.Perm out.rels →
    dvmLoad maps m { out with rels := rels } = .ok (ld, m')

/-- The relocations of a source are listed in the order of its text. -/
theorem Assembly.rels_sorted (u : Assembly) :
    u.ctx.rels.Pairwise fun r r' => r.codeOffset.toNat < r'.codeOffset.toNat :=
  u.abstracts.rels_sorted (NameTable.later_reads {} _)

section Fields

variable {us : List Assembly} {i j i' j' : Nat} {u u' : Assembly} {r r' : DvmRel}

/-- The operands of two relocations do not overlap. -/
theorem linkedRel_apart (h : LinkedRel us i j u r) (h' : LinkedRel us i' j' u' r') :
    (i = i' ∧ j = j') ∨ fieldPos us i r + r.width ≤ fieldPos us i' r' ∨
      fieldPos us i' r' + r'.width ≤ fieldPos us i r := by
  obtain ⟨e, l, hat, hwidth, -⟩ := u.operand (List.mem_of_getElem? h.rel)
  obtain ⟨e', l', hat', hwidth', -⟩ := u'.operand (List.mem_of_getElem? h'.rel)
  unfold fieldPos
  rw [hwidth, hwidth']
  rcases emits_sep h.source h'.source hat hat' with ⟨rfl, hpos, -⟩ | hsep
  · have hu := h.source
    rw [h'.source, Option.some.injEq] at hu
    subst hu
    have hsort := List.pairwise_iff_getElem.mp u'.rels_sorted
    obtain ⟨hj, hget⟩ := List.getElem?_eq_some_iff.mp h.rel
    obtain ⟨hj', hget'⟩ := List.getElem?_eq_some_iff.mp h'.rel
    rcases Nat.lt_trichotomy j j' with hlt | rfl | hlt
    · have hless := hsort j j' hj hj' hlt
      rw [hget, hget'] at hless
      omega
    · exact .inl ⟨rfl, rfl⟩
    · have hless := hsort j' j hj' hj hlt
      rw [hget, hget'] at hless
      omega
  · exact .inr hsep

end Fields

/-! ## 2. Linked relocations -/

section Linked

variable {us : List Assembly} {entrySym : Option CStr} {out : DvmProg}

theorem dvmLink_sections {objs : List DvmProg} (h : dvmLink objs entrySym = .ok out) :
    out.cnst = objs.flatMap DvmProg.cnst ∧ out.data = objs.flatMap DvmProg.data := by
  obtain ⟨ms, defMaps, maps, rels, -, -, -, rfl⟩ := dvmLink_ok_iff.mp h
  exact ⟨rfl, rfl⟩

variable {maps : LoadMaps} {m m' : Mem} {ld : DvmLoaded}

/-- What is loaded while every operand with a relocation lies in the first 4 GiB. -/
theorem changesFieldsOnly_of_lt (hlink : dvmLink (objects us) entrySym = .ok out)
    (hload : dvmLoad maps m out = .ok (ld, m')) (hmaps : maps.Apart out)
    (hlt : ∀ i j u r, LinkedRel us i j u r → fieldPos us i r < 2 ^ 32) :
    ChangesFieldsOnly us maps m out ld m' := by
  have hin := patchesInside_dvmLink hlink
  have hcode := (dvmLink_ok hlink).2.1
  obtain ⟨hcnst, hdata⟩ := dvmLink_sections hlink
  have hfields : ∀ i j u r, LinkedRel us i j u r →
      ∃ r', out.rels[relPos (objects us) i j]? = some r' ∧
        r'.codeOffset.toNat = fieldPos us i r ∧ r'.width = r.width := by
    intro i j u r h
    obtain ⟨r', hr', hpos, hwidth⟩ := h.output hlink
    exact ⟨r', hr', hpos.trans (Nat.mod_eq_of_lt (hlt i j u r h)), hwidth⟩
  have hmem : ∀ r' ∈ out.rels, ∃ i j u r, LinkedRel us i j u r ∧
      out.rels[relPos (objects us) i j]? = some r' ∧ r'.codeOffset.toNat = fieldPos us i r ∧
        r'.width = r.width := by
    intro r' hr'
    obtain ⟨i, j, u, r, h, hget⟩ := linkedRel_of_mem hlink hr'
    obtain ⟨r'', hget', hpos, hwidth⟩ := hfields i j u r h
    rw [hget, Option.some.injEq] at hget'
    subst hget'
    exact ⟨i, j, u, r, h, hget, hpos, hwidth⟩
  refine ⟨?_, ?_, hfields, ?_, fun i j u r h => h.inside, ?_, ?_⟩
  · rw [dvmLoad_cnst hload hin hmaps, hcnst]
  · rw [dvmLoad_data hload hin hmaps, hdata]
  · intro x hx
    rw [dvmLoad_code hload hin hmaps.code_fits, ← hcode]
    have hfield := field_patchAll_disjoint (p := x) (n := 1) (relStores_fit hin maps) ?_
    · have hbyte := congrArg (fun bs : List Byte => bs[0]?) hfield
      simpa only [getElem?_field Nat.one_pos, Nat.add_zero] using hbyte
    · intro y hy
      obtain ⟨r', hr', rfl⟩ := List.mem_map.mp hy
      obtain ⟨i, j, u, r, h, -, hpos, hwidth⟩ := hmem r' hr'
      have hlen := length_relBytes_le maps out r'
      have hsep := hx i j u r h
      simp only
      omega
  · intro i j u r i' j' u' r' h h'
    exact linkedRel_apart h h'
  · intro rels hperm
    refine dvmLoad_perm hload hin hmaps.code_fits ?_ hperm
    intro r₁ h₁ r₂ h₂
    obtain ⟨i, j, u, r, h, hget, hpos, hwidth⟩ := hmem r₁ h₁
    obtain ⟨i', j', u', r', h', hget', hpos', hwidth'⟩ := hmem r₂ h₂
    rw [hpos, hwidth, hpos', hwidth']
    refine (linkedRel_apart h h').imp ?_ id
    rintro ⟨rfl, rfl⟩
    exact Option.some.inj (hget.symm.trans hget')

end Linked

/-- Linking and loading change only operands with a relocation, exactly if all of these begin in
the first 4 GiB of the linked code. -/
theorem changesFieldsOnly_iff {us : List Assembly} {entrySym : Option CStr} {out : DvmProg}
    {maps : LoadMaps} {m m' : Mem} {ld : DvmLoaded}
    (hlink : dvmLink (objects us) entrySym = .ok out)
    (hload : dvmLoad maps m out = .ok (ld, m')) (hmaps : maps.Apart out) :
    ChangesFieldsOnly us maps m out ld m' ↔
      ∀ i j u r, LinkedRel us i j u r → fieldPos us i r < 2 ^ 32 := by
  constructor
  · intro h i j u r hrel
    obtain ⟨r', -, hpos, -⟩ := h.fields i j u r hrel
    exact hpos ▸ r'.codeOffset.isLt
  · exact changesFieldsOnly_of_lt hlink hload hmaps

/-! ## 3. Code behind other code -/

/-- `n` lines with one byte of code each. -/
def halts (n : Nat) : List Byte := (List.replicate n (lit "halt\n")).flatten

theorem splitLines_halts (n : Nat) : splitLines (halts n) = List.replicate n (lit "halt") := by
  induction n with
  | zero => rfl
  | succ n ih =>
    have hline : splitLines (lit "halt\n" ++ halts n) = lit "halt" :: splitLines (halts n) := rfl
    rw [List.replicate_succ, ← ih, ← hline, halts, List.replicate_succ, List.flatten_cons, halts]

theorem parseLine_halt (strtod : Strtod) (equs : List AsmEqu) (line : Nat) (tail : List Byte) :
    parseLine strtod equs dvmSecCode line (lit "halt" ++ 0 :: tail)
      = [.code (lit "halt") [emitOp .halt]] := rfl

/-- One such line. -/
theorem asmLine_halt (env : AsmEnv) {st : AsmState} (hsec : st.cursec = dvmSecCode)
    (hroom : st.ctx.text.bytes.length < dvmBufMax) :
    ∃ st' text, asmLine env st (lit "halt") = .ok st' ∧ st'.cursec = dvmSecCode ∧
      text.bytes = st.ctx.text.bytes ++ [Op.halt.code] ∧
      st'.ctx = { st.ctx with text := text } := by
  have hfit : (st.ctx.text.bytes ++ [Op.halt.code]).length ≤ dvmBufMax := by
    rw [List.length_append]
    exact hroom
  have hput : st.ctx.putText [Op.halt.code] = .ok { st.ctx with text := ⟨_, hfit⟩ } := by
    rw [AsmCtx.putText, bufPut, dif_pos hfit]
  let st₁ : AsmState :=
    { st with lineno := st.lineno + 1, lineBuf := lit "halt" ++ 0 :: st.lineBuf.drop 5 }
  have hstmt : doStmt st₁ (.code (lit "halt") [emitOp .halt])
      = .ok { st₁ with ctx := { st.ctx with text := ⟨_, hfit⟩ } } := by
    have hctx : doStmtCtx st₁ (.code (lit "halt") [emitOp .halt])
        = .ok { st.ctx with text := ⟨_, hfit⟩ } := by
      show [emitOp .halt].foldlM (doEmit st₁.lineno) st.ctx = _
      exact foldlM_cons_ok_iff.mpr ⟨_, hput, rfl⟩
    unfold doStmt
    rw [hctx]
  have hparse : parseLine env.strtod st.ctx.equs st.cursec (st.lineno + 1)
      (lit "halt" ++ 0 :: st.lineBuf.drop 5) = [.code (lit "halt") [emitOp .halt]] := by
    rw [hsec]
    exact parseLine_halt _ _ _ _
  refine ⟨{ st₁ with ctx := { st.ctx with text := ⟨_, hfit⟩ } }, ⟨_, hfit⟩, ?_, hsec, rfl, rfl⟩
  show (parseLine env.strtod st.ctx.equs st.cursec (st.lineno + 1)
    (lit "halt" ++ 0 :: st.lineBuf.drop 5)).foldlM doStmt st₁ = _
  rw [hparse]
  exact foldlM_cons_ok_iff.mpr ⟨_, hstmt, rfl⟩

theorem foldlM_asmLine_halts (env : AsmEnv) (n : Nat) {st : AsmState}
    (hsec : st.cursec = dvmSecCode) (hroom : st.ctx.text.bytes.length + n ≤ dvmBufMax) :
    ∃ st' text, (List.replicate n (lit "halt")).foldlM (asmLine env) st = .ok st' ∧
      text.bytes = st.ctx.text.bytes ++ List.replicate n Op.halt.code ∧
      st'.ctx = { st.ctx with text := text } := by
  induction n generalizing st with
  | zero => exact ⟨st, st.ctx.text, rfl, by simp, rfl⟩
  | succ n ih =>
    obtain ⟨st₁, text₁, hline, hsec₁, htext₁, hctx₁⟩ := asmLine_halt env hsec (by omega)
    have hlen : text₁.bytes.length = st.ctx.text.bytes.length + 1 := by
      rw [htext₁, List.length_append]
      rfl
    obtain ⟨st₂, text₂, hlines, htext₂, hctx₂⟩ := ih hsec₁ (by rw [hctx₁, hlen]; omega)
    refine ⟨st₂, text₂, foldlM_cons_ok_iff.mpr ⟨st₁, hline, hlines⟩, ?_, ?_⟩
    · rw [htext₂, hctx₁, htext₁, List.append_assoc]
      rfl
    · rw [hctx₂, hctx₁]

/-- The lines are accepted while they fit the text section. -/
theorem exists_halts {n : Nat} (h : n ≤ dvmBufMax) :
    ∃ u : Assembly, u.src = halts n ∧ u.obj = { code := List.replicate n Op.halt.code } := by
  obtain ⟨st, text, hfold, htext, hctx⟩ :=
    @foldlM_asmLine_halts zeroEnv n (.init zeroEnv) rfl ((Nat.zero_add n).trans_le h)
  have hok : asmCompile zeroEnv (halts n) = .ok { text := text } := by
    rw [asmCompile, splitLines_halts, hfold]
    show patchesResolve st.ctx = _
    rw [hctx]
    rfl
  refine ⟨⟨zeroEnv, halts n, _, hok⟩, rfl, ?_⟩
  have hcode : text.bytes = List.replicate n Op.halt.code := htext
  show asmToProg { text := text } = _
  rw [asmToProg, hcode]
  rfl

/-- An operand with a relocation to a label of the same source. -/
def ownAddress : List Byte := lit "here: mov ax, here\n"

/-- Its object. -/
def ownAddressObj : DvmProg where
  code := [1, 0, 0, 0, 0, 0, 0, 0, 0, 0]
  syms := [⟨lit "here", dvmSymLocal, dvmSecCode, 0⟩]
  rels := [⟨2, 0, dvmRelData⟩]

theorem exists_ownAddress : ∃ v : Assembly, v.src = ownAddress ∧ v.obj = ownAddressObj := by
  obtain ⟨ctx, hok, hobj⟩ : ∃ ctx, asmCompile zeroEnv ownAddress = .ok ctx ∧
      asmToProg ctx = ownAddressObj := exists_ok_of_decide (by decide)
  exact ⟨⟨zeroEnv, ownAddress, ctx, hok⟩, rfl, hobj⟩

section Behind

variable {u v : Assembly} {n N : Nat}

/-- The objects: many without symbols and relocations, then one with a relocation. -/
def behind (u v : Assembly) (N : Nat) : List Assembly := List.replicate N u ++ [v]

theorem mem_behind {o : DvmProg} (h : o ∈ objects (behind u v N)) : o = u.obj ∨ o = v.obj := by
  rw [objects, behind, List.map_append, List.map_replicate, List.mem_append] at h
  exact h.imp List.eq_of_mem_replicate List.mem_singleton.mp

theorem flatMap_behind {β : Type} {g : DvmProg → List β} (h : g u.obj = []) :
    (objects (behind u v N)).flatMap g = g v.obj := by
  have hnil : (List.replicate N u.obj).flatMap g = [] := by
    refine List.flatMap_eq_nil_iff.mpr ?_
    intro o ho
    rw [List.eq_of_mem_replicate ho, h]
  rw [objects, behind, List.map_append, List.map_replicate, List.flatMap_append, hnil,
    List.nil_append, List.map_singleton, List.flatMap_singleton]

theorem length_code_front (hu : u.obj.code.length = n) :
    ((List.replicate N u.obj).flatMap DvmProg.code).length = N * n := by
  rw [List.length_flatMap, List.map_replicate, hu, List.sum_replicate_nat]

theorem codeBase_behind (hu : u.obj.code.length = n) : codeBase (behind u v N) N = N * n := by
  have htake : (objects (behind u v N)).take N = List.replicate N u.obj := by
    rw [objects, behind, List.map_append, List.map_replicate,
      List.take_left' List.length_replicate]
  show start DvmProg.code (objects (behind u v N)) N = N * n
  rw [start, htake, length_code_front hu]

theorem linkable_behind (hu : u.obj = { code := List.replicate n Op.halt.code })
    (hv : v.obj = ownAddressObj) : Linkable (objects (behind u v N)) := by
  have hsyms : (objects (behind u v N)).flatMap DvmProg.syms = ownAddressObj.syms := by
    rw [flatMap_behind (by rw [hu]), hv]
  have hrels : (objects (behind u v N)).flatMap DvmProg.rels = ownAddressObj.rels := by
    rw [flatMap_behind (by rw [hu]), hv]
  refine ⟨?_, ?_, ?_, ?_, ?_⟩
  · rw [hsyms]
    decide
  · intro o ho s hs hx
    rcases mem_behind ho with rfl | rfl
    · rw [hu] at hs
      cases hs
    · rw [hv] at hs
      obtain rfl := List.mem_singleton.mp hs
      cases hx
  · intro o ho r hr
    rcases mem_behind ho with rfl | rfl
    · rw [hu] at hr
      cases hr
    · rw [hv] at hr ⊢
      obtain rfl := List.mem_singleton.mp hr
      decide
  · rw [DefsFit, hsyms]
    decide
  · rw [hrels]
    decide

theorem length_code_behind (hu : u.obj = { code := List.replicate n Op.halt.code })
    (hv : v.obj = ownAddressObj) {out : DvmProg}
    (hlink : dvmLink (objects (behind u v N)) none = .ok out) : out.code.length = N * n + 10 := by
  have hlen : u.obj.code.length = n := by rw [hu, List.length_replicate]
  rw [(dvmLink_ok hlink).2.1, objects, behind, List.map_append, List.map_replicate,
    List.flatMap_append, List.length_append, length_code_front hlen, List.map_singleton,
    List.flatMap_singleton, hv]
  rfl

/-- They are linked and loaded. -/
theorem load_behind (hu : u.obj = { code := List.replicate n Op.halt.code })
    (hv : v.obj = ownAddressObj) (hlen : N * n + 10 < 2 ^ 64) :
    ∃ out ld m', dvmLink (objects (behind u v N)) none = .ok out ∧
      dvmLoad sampleMaps (fun _ => 0) out = .ok (ld, m') ∧ sampleMaps.Apart out := by
  have hsecs : ∀ o ∈ objects (behind u v N), ∀ s ∈ o.syms, s = ownAddressObj.syms[0] := by
    intro o ho s hs
    rcases mem_behind ho with rfl | rfl
    · rw [hu] at hs
      cases hs
    · rw [hv] at hs
      exact List.mem_singleton.mp hs
  obtain ⟨out, hlink⟩ : ∃ out, dvmLink (objects (behind u v N)) none = .ok out := by
    refine (dvmLink_ok_iff_acceptable ?_).mpr (linkable_behind hu hv).acceptable
    intro o ho s hs hdef
    rw [hsecs o ho s hs]
    decide
  have hcode := length_code_behind hu hv hlink
  obtain ⟨hcnst, hdata⟩ := dvmLink_sections hlink
  rw [flatMap_behind (by rw [hu]), hv] at hcnst hdata
  have hne : out.code ≠ [] := List.ne_nil_of_length_pos (by omega)
  refine ⟨out, _, _, hlink, dvmLoad_ok_iff.mpr ⟨hne, ?_, rfl, rfl⟩, ?_⟩
  · intro r hr
    obtain ⟨t, ht⟩ := sym_of_mem_rels hlink hr
    obtain ⟨i, o, s, hi, hs, -, rfl⟩ := mem_syms_dvmLink hlink (List.mem_of_getElem? ht)
    rw [hsecs o (List.mem_of_getElem? hi) s hs] at ht
    exact ⟨_, ht, show dvmSymLocal ≠ dvmSymExtern by decide, .inr (.inr ⟨rfl, hne⟩)⟩
  · have hempty : ∀ {a x : Word}, ¬ InBlock a ([] : List Byte).length x :=
      fun h => Nat.not_lt_zero _ h
    have hcnst' : out.cnst = [] := hcnst
    have hdata' : out.data = [] := hdata
    refine ⟨?_, ?_, ?_, ?_, ?_, ?_⟩
    · rw [hcnst']
      decide
    · rw [hdata']
      decide
    · omega
    · rw [hcnst']
      exact fun x hx => absurd hx hempty
    · rw [hcnst']
      exact fun x hx => absurd hx hempty
    · rw [hdata']
      exact fun x hx => absurd hx hempty

theorem linkedRel_behind (hv : v.obj = ownAddressObj) :
    LinkedRel (behind u v N) N 0 v ⟨2, 0, dvmRelData⟩ where
  source := by
    rw [behind, List.getElem?_append_right (by simp), List.length_replicate, Nat.sub_self]
    rfl
  rel := by
    show v.obj.rels[0]? = _
    rw [hv]
    rfl

end Behind

/-- Behind one byte of code. -/
theorem changesFieldsOnly_ownAddress :
    ∃ u v : Assembly, u.src = halts 1 ∧ v.src = ownAddress ∧ ∃ out ld m',
      dvmLink (objects (behind u v 1)) none = .ok out ∧
      dvmLoad sampleMaps (fun _ => 0) out = .ok (ld, m') ∧
      ChangesFieldsOnly (behind u v 1) sampleMaps (fun _ => 0) out ld m' := by
  obtain ⟨u, husrc, hu⟩ := exists_halts (show 1 ≤ dvmBufMax by decide)
  obtain ⟨v, hvsrc, hv⟩ := exists_ownAddress
  obtain ⟨out, ld, m', hlink, hload, hmaps⟩ := load_behind (N := 1) hu hv (by decide)
  refine ⟨u, v, husrc, hvsrc, out, ld, m', hlink, hload,
    (changesFieldsOnly_iff hlink hload hmaps).mpr ?_⟩
  intro i j w r h
  refine h.fieldPos_lt hlink ?_
  rw [length_code_behind hu hv hlink]
  decide

/-- Behind 4 GiB of code the operand gets no address, and two bytes behind the beginning of the
code a field is overwritten instead. -/
theorem not_changesFieldsOnly_farBehind :
    ∃ u v : Assembly, u.src = halts (2 ^ 18) ∧ v.src = ownAddress ∧ ∃ out ld m',
      dvmLink (objects (behind u v (2 ^ 14))) none = .ok out ∧
      dvmLoad sampleMaps (fun _ => 0) out = .ok (ld, m') ∧ sampleMaps.Apart out ∧
      ¬ ChangesFieldsOnly (behind u v (2 ^ 14)) sampleMaps (fun _ => 0) out ld m' := by
  obtain ⟨u, husrc, hu⟩ := exists_halts (show 2 ^ 18 ≤ dvmBufMax by decide)
  obtain ⟨v, hvsrc, hv⟩ := exists_ownAddress
  obtain ⟨out, ld, m', hlink, hload, hmaps⟩ := load_behind (N := 2 ^ 14) hu hv (by norm_num)
  refine ⟨u, v, husrc, hvsrc, out, ld, m', hlink, hload, hmaps, ?_⟩
  intro h
  obtain ⟨r', -, hpos, -⟩ := h.fields _ _ _ _ (linkedRel_behind hv)
  have hlt := r'.codeOffset.isLt
  have hbase : codeBase (behind u v (2 ^ 14)) (2 ^ 14) = 2 ^ 14 * 2 ^ 18 :=
    codeBase_behind (by rw [hu]; exact List.length_replicate)
  rw [hpos, fieldPos, hbase] at hlt
  norm_num at hlt

end Dvm
