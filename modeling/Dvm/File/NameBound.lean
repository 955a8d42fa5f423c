/-
# Which streams make `dvm_read` leave a name array

A symbol record starts with a length byte, and `dvm_read` stores that many bytes in
`char name[64]` and a NUL behind them.  The layout says the length is at most 63; nothing in
the reader checks it.

`nameStores` lists the indices stored to, `NameReadAt` says that the reader gets as far as the
name of symbol `k`, and `StaysInside` is what the layout promises of a stream.  The streams
that break it are those with a `LongName`: behind a well formed beginning comes a record whose
length byte exceeds 63, followed by enough bytes to fill the array and store one more.
-/
import Dvm.File.Format

namespace Dvm

open Bytes FileRead

/-! ## 1. The stores of one name -/

/-- The indices of the name array that `fread(s->name, 1, nl, f)` and `s->name[nl] = 0` store
to, where `q` is left of the stream.  The NUL is stored after a full read only. -/
def nameStores (nl : Byte) (q : List Byte) : List Nat :=
  List.range (min nl.toNat q.length) ++ if nl.toNat ≤ q.length then [nl.toNat] else []

/-- The length byte is beyond the array, and `q` has the bytes to get there. -/
def Overruns (nl : Byte) (q : List Byte) : Prop :=
  dvmSymName ≤ nl.toNat ∧ min nl.toNat (dvmSymName + 1) ≤ q.length

instance Overruns.decidable (nl : Byte) (q : List Byte) : Decidable (Overruns nl q) :=
  inferInstanceAs (Decidable (_ ∧ _))

theorem overruns_iff {nl : Byte} {q : List Byte} :
    Overruns nl q ↔ ∃ i ∈ nameStores nl q, dvmSymName ≤ i := by
  unfold Overruns nameStores
  simp only [dvmSymName]
  constructor
  · rintro ⟨hnl, hq⟩
    by_cases hfull : nl.toNat ≤ q.length
    · rw [if_pos hfull]
      exact ⟨nl.toNat, by simp, hnl⟩
    · refine ⟨64, List.mem_append_left _ (List.mem_range.mpr ?_), Nat.le_refl 64⟩
      omega
  · rintro ⟨i, hi, hle⟩
    rcases List.mem_append.mp hi with hi | hi
    · have := List.mem_range.mp hi
      omega
    · split at hi
      · have := List.mem_singleton.mp hi
        omega
      · cases hi

/-- Whatever follows the bytes of a name, an overrun stays one. -/
theorem Overruns.append {nl : Byte} {q : List Byte} (h : Overruns nl q) (more : List Byte) :
    Overruns nl (q ++ more) := by
  obtain ⟨hnl, hq⟩ := h
  refine ⟨hnl, ?_⟩
  rw [List.length_append]
  omega

/-- The checks of the reader, in the source's order, over the number of bytes it gets. -/
theorem frName_run (nl : Byte) (s : Input DvmProg) :
    frName nl s =
      (if dvmSymName < min nl.toNat s.file.length then throw .overrun
        else if min nl.toNat s.file.length ≠ nl.toNat then throw .short
        else if dvmSymName ≤ nl.toNat then throw .overrun
        else pure ((s.file.take nl.toNat).takeWhile (· ≠ 0)) : ReadM CStr)
      { s with file := s.file.drop nl.toNat } := by
  rw [← List.length_take]
  rfl

/-- The reader leaves the array if one of its stores does. -/
theorem frName_overrun {nl : Byte} {s : Input DvmProg} (h : Overruns nl s.file) :
    ∃ s', frName nl s = .error .overrun s' := by
  have hsize : dvmSymName = 64 := rfl
  obtain ⟨hnl, hq⟩ := h
  refine ⟨{ s with file := s.file.drop nl.toNat }, ?_⟩
  rw [frName_run]
  by_cases hmore : dvmSymName < min nl.toNat s.file.length
  · rw [if_pos hmore]
    rfl
  · have hfull : min nl.toNat s.file.length = nl.toNat := by omega
    rw [if_neg hmore, if_neg (not_not.mpr hfull), if_pos hnl]
    rfl

theorem overruns_of_frName {nl : Byte} {s s' : Input DvmProg}
    (h : frName nl s = .error .overrun s') : Overruns nl s.file := by
  have hsize : dvmSymName = 64 := rfl
  unfold Overruns
  rw [frName_run] at h
  split at h
  · omega
  split at h
  · cases h
  split at h
  · omega
  · cases h

/-- A length byte beyond the array is otherwise met with a short read. -/
theorem frName_short {nl : Byte} {s : Input DvmProg} (hnl : dvmSymName ≤ nl.toNat)
    (h : ¬ Overruns nl s.file) : ∃ s', frName nl s = .error .short s' := by
  have hsize : dvmSymName = 64 := rfl
  have hq : ¬ min nl.toNat (dvmSymName + 1) ≤ s.file.length := fun hq => h ⟨hnl, hq⟩
  refine ⟨{ s with file := s.file.drop nl.toNat }, ?_⟩
  rw [frName_run, if_neg (by omega), if_pos (by omega)]
  rfl

/-! ## 2. Where the reader meets a name -/

/-- The part of a symbol record before its name: flags, section, offset, length byte. -/
def frSymFields : ReadM (Byte × DvmSection × BitVec 32 × Byte) := do
  let flags ← frU8
  let sec ← frU8
  let offset ← frU32
  let nl ← frU8
  pure (flags, sec, offset, nl)

theorem frSym_eq :
    frSym = frSymFields >>= fun x => frName x.2.2.2 >>= fun name =>
      fill fun p => { p with syms := p.syms ++ [⟨name, x.1, x.2.1, x.2.2.1⟩] } := by
  simp only [frSym, frSymFields, bind_assoc, pure_bind]

/-- The bytes of those fields. -/
def fieldsBytes (flags : Byte) (sec : DvmSection) (offset : BitVec 32) (nl : Byte) : List Byte :=
  fwU8 flags ++ (fwU8 sec ++ (fwU32 offset ++ fwU8 nl))

theorem frSymFields_ok_iff {s s' : Input DvmProg} {flags nl : Byte} {sec : DvmSection}
    {offset : BitVec 32} :
    frSymFields s = .ok (flags, sec, offset, nl) s' ↔
      s.file = fieldsBytes flags sec offset nl ++ s'.file ∧ s'.out = s.out := by
  simp only [frSymFields, bind_ok_iff, frU8_ok_iff, frU32_ok_iff]
  constructor
  · rintro ⟨_, s₁, ⟨hflags, ho₁⟩, _, s₂, ⟨hsec, ho₂⟩, _, s₃, ⟨hoffset, ho₃⟩, _, s₄, ⟨hnl, ho₄⟩, h⟩
    cases h
    refine ⟨?_, by rw [ho₄, ho₃, ho₂, ho₁]⟩
    simp only [fieldsBytes, hflags, hsec, hoffset, hnl, List.append_assoc]
  · rintro ⟨hfile, hout⟩
    simp only [fieldsBytes, List.append_assoc] at hfile
    exact ⟨flags, ⟨_, s.out⟩, ⟨hfile, rfl⟩, sec, ⟨_, s.out⟩, ⟨rfl, rfl⟩, offset, ⟨_, s.out⟩,
      ⟨rfl, rfl⟩, nl, s', ⟨rfl, hout⟩, rfl⟩

/-- Reading `f`, the reader comes to the name of symbol `k` with length byte `nl`, and `q` is
left of the stream. -/
def NameReadAt (f : List Byte) (k : Nat) (nl : Byte) (q : List Byte) : Prop :=
  ∃ n s₁ s₂ flags sec offset s₃, frHead ⟨f, {}⟩ = .ok n s₁ ∧ k < n ∧
    times frSym k s₁ = .ok () s₂ ∧ frSymFields s₂ = .ok (flags, sec, offset, nl) s₃ ∧ s₃.file = q

/-- In terms of the bytes: a head, `k` whole records, and the fields of a further one. -/
theorem nameReadAt_iff {f : List Byte} {k : Nat} {nl : Byte} {q : List Byte} :
    NameReadAt f k nl q ↔
      ∃ (head : FileHead) (rs : List SymRecord) (flags : Byte) (sec : DvmSection)
        (offset : BitVec 32), rs.length = k ∧ k < head.nsyms ∧
          f = head.bytes ++ (rs.flatMap SymRecord.bytes ++
            (fieldsBytes flags sec offset nl ++ q)) := by
  simp only [NameReadAt, frHead_ok_iff, frSyms_ok_iff, frSymFields_ok_iff]
  constructor
  · rintro ⟨n, s₁, s₂, flags, sec, offset, s₃, ⟨head, rfl, hf₁, -⟩, hk, ⟨rs, hlen, hf₂, -⟩,
      ⟨hf₃, -⟩, hq⟩
    exact ⟨head, rs, flags, sec, offset, hlen, hk, by rw [hf₁, hf₂, hf₃, hq]⟩
  · rintro ⟨head, rs, flags, sec, offset, hlen, hk, hf⟩
    exact ⟨_, ⟨_, _⟩, ⟨_, _⟩, flags, sec, offset, ⟨q, _⟩, ⟨head, rfl, hf, rfl⟩, hk,
      ⟨rs, hlen, rfl, rfl⟩, ⟨rfl, rfl⟩, rfl⟩

/-- Behind a well formed beginning the stream has a record whose length byte is beyond the name
array, and the bytes to get there. -/
def LongName (f : List Byte) : Prop :=
  ∃ (head : FileHead) (rs : List SymRecord) (flags : Byte) (sec : DvmSection)
    (offset : BitVec 32) (nl : Byte) (q : List Byte), rs.length < head.nsyms ∧
      f = head.bytes ++ (rs.flatMap SymRecord.bytes ++ (fieldsBytes flags sec offset nl ++ q)) ∧
      Overruns nl q

theorem longName_iff {f : List Byte} :
    LongName f ↔ ∃ k nl q, NameReadAt f k nl q ∧ Overruns nl q := by
  simp only [nameReadAt_iff]
  constructor
  · rintro ⟨head, rs, flags, sec, offset, nl, q, hlt, hf, hover⟩
    exact ⟨rs.length, nl, q, ⟨head, rs, flags, sec, offset, rfl, hlt, hf⟩, hover⟩
  · rintro ⟨k, nl, q, ⟨head, rs, flags, sec, offset, rfl, hlt, hf⟩, hover⟩
    exact ⟨head, rs, flags, sec, offset, nl, q, hlt, hf, hover⟩

/-- A stream with a long name keeps it, whatever is appended. -/
theorem LongName.append {f : List Byte} (h : LongName f) (more : List Byte) :
    LongName (f ++ more) := by
  obtain ⟨head, rs, flags, sec, offset, nl, q, hlt, rfl, hover⟩ := h
  refine ⟨head, rs, flags, sec, offset, nl, q ++ more, hlt, ?_, hover.append more⟩
  simp only [List.append_assoc]

/-! ## 3. The reader stops with an overrun exactly there -/

section Stops

/-- The errors other than an overrun: `dvm_read` returns 0. -/
def ReadStop.isFail (e : ReadStop) : Prop := e ≠ .overrun

theorem isFail_short : ReadStop.isFail .short := nofun

theorem failsIn_frU8 : FailsIn ReadStop.isFail frU8 :=
  (failsIn_freadExact isFail_short 1).bind fun _ => failsIn_pure _

theorem failsIn_frU32 : FailsIn ReadStop.isFail frU32 :=
  (failsIn_freadExact isFail_short 4).bind fun _ => failsIn_pure _

theorem failsIn_frExpectTag (want : List Byte) : FailsIn ReadStop.isFail (frExpectTag want) :=
  (failsIn_freadExact isFail_short 4).bind fun _ => failsIn_require nofun _

theorem failsIn_frSection : FailsIn ReadStop.isFail frSection := by
  refine failsIn_frU32.bind fun sz => ?_
  split
  · exact failsIn_pure _
  · exact failsIn_freadExact isFail_short _

theorem failsIn_frTagged (tag : List Byte) (put : DvmProg → List Byte → DvmProg) :
    FailsIn ReadStop.isFail (frTagged tag put) :=
  (failsIn_frExpectTag tag).bind fun _ => failsIn_frSection.bind fun _ => failsIn_fill _

theorem failsIn_frCount (tag : List Byte) (bound : Nat) :
    FailsIn ReadStop.isFail (frCount tag bound) :=
  (failsIn_frExpectTag tag).bind fun _ => failsIn_frU32.bind fun _ =>
    (failsIn_require isFail_short _).bind fun _ => failsIn_pure _

theorem failsIn_frHead : FailsIn ReadStop.isFail frHead := by
  refine (failsIn_freadExact nofun 4).bind fun _ => (failsIn_require nofun _).bind fun _ => ?_
  refine (failsIn_frExpectTag _).bind fun _ => failsIn_frU32.bind fun _ => ?_
  refine (failsIn_fill _).bind fun _ => (failsIn_frTagged _ _).bind fun _ => ?_
  exact (failsIn_frTagged _ _).bind fun _ => (failsIn_frTagged _ _).bind fun _ =>
    failsIn_frCount _ _

theorem failsIn_frRels : FailsIn ReadStop.isFail frRels := by
  refine (failsIn_frCount _ _).bind fun n => ?_
  refine (FailsIn.times ?_ n).bind fun _ => failsIn_frExpectTag _
  exact failsIn_frU32.bind fun _ => failsIn_frU32.bind fun _ => failsIn_frU8.bind fun _ =>
    failsIn_fill _

theorem failsIn_frSymFields : FailsIn ReadStop.isFail frSymFields :=
  failsIn_frU8.bind fun _ => failsIn_frU8.bind fun _ => failsIn_frU32.bind fun _ =>
    failsIn_frU8.bind fun _ => failsIn_pure _

/-- Only the name of a symbol can overrun in a pass of the symbol loop. -/
theorem frSym_overrun_iff {s s' : Input DvmProg} :
    frSym s = .error .overrun s' ↔ ∃ flags sec offset nl s₁,
      frSymFields s = .ok (flags, sec, offset, nl) s₁ ∧ frName nl s₁ = .error .overrun s' := by
  rw [frSym_eq, bind_error_iff]
  constructor
  · rintro (h | ⟨⟨flags, sec, offset, nl⟩, s₁, hfields, h⟩)
    · exact absurd rfl (failsIn_frSymFields s _ s' h)
    · rcases bind_error_iff.mp h with h | ⟨name, s₂, -, h⟩
      · exact ⟨flags, sec, offset, nl, s₁, hfields, h⟩
      · cases h
  · rintro ⟨flags, sec, offset, nl, s₁, hfields, h⟩
    exact .inr ⟨_, s₁, hfields, bind_error_iff.mpr (.inl h)⟩

/-- An error of the symbol loop is an error of `dvm_read`. -/
theorem dvmRead_error_of_name {f : List Byte} {k : Nat} {nl : Byte} {q : List Byte}
    (h : NameReadAt f k nl q) {e : ReadStop}
    (he : ∀ s : Input DvmProg, s.file = q → ∃ s', frName nl s = .error e s') :
    ∃ s', dvmRead f = .error e s' := by
  obtain ⟨n, s₁, s₂, flags, sec, offset, s₃, hhead, hk, hrecords, hfields, hq⟩ := h
  obtain ⟨s', hname⟩ := he s₃ hq
  refine ⟨s', ?_⟩
  rw [dvmRead, dvmReadBody_eq]
  refine bind_error_iff.mpr (.inr ⟨n, s₁, hhead, bind_error_iff.mpr (.inl ?_)⟩)
  refine times_error_iff.mpr ⟨k, s₂, hk, hrecords, ?_⟩
  rw [frSym_eq]
  exact bind_error_iff.mpr (.inr ⟨_, s₃, hfields, bind_error_iff.mpr (.inl hname)⟩)

theorem dvmRead_overrun_iff {f : List Byte} :
    (∃ s', dvmRead f = .error .overrun s') ↔ LongName f := by
  constructor
  · rintro ⟨s', h⟩
    rw [dvmRead, dvmReadBody_eq] at h
    rcases bind_error_iff.mp h with h | ⟨n, s₁, hhead, h⟩
    · exact absurd rfl (failsIn_frHead _ _ s' h)
    rcases bind_error_iff.mp h with h | ⟨⟨⟩, s₂, -, h⟩
    · obtain ⟨k, s₂, hk, hrecords, h⟩ := times_error_iff.mp h
      obtain ⟨flags, sec, offset, nl, s₃, hfields, hname⟩ := frSym_overrun_iff.mp h
      exact longName_iff.mpr ⟨k, nl, s₃.file,
        ⟨n, s₁, s₂, flags, sec, offset, s₃, hhead, hk, hrecords, hfields, rfl⟩,
        overruns_of_frName hname⟩
    · exact absurd rfl (failsIn_frRels _ _ s' h)
  · intro h
    obtain ⟨k, nl, q, hread, hover⟩ := longName_iff.mp h
    exact dvmRead_error_of_name hread fun s hs => frName_overrun (hs ▸ hover)

end Stops

/-! ## 4. What the layout promises -/

/-- What the layout promises of a stream: every byte of a symbol's name, the NUL included, is
stored in its own array; the names of an accepted program have at most 63 bytes; and a longer
name is rejected. -/
structure StaysInside (f : List Byte) : Prop where
  stores : ∀ k nl q, NameReadAt f k nl q → ∀ i ∈ nameStores nl q, i < dvmSymName
  names : ∀ s', dvmRead f = .ok () s' → ∀ s ∈ s'.out.syms, s.name.length ≤ 63
  rejects : ∀ k nl q, NameReadAt f k nl q → 63 < nl.toNat →
    ∃ msg s', dvmRead f = .error (.fail msg) s'

/-- The names of an accepted program are short: its records keep the bound. -/
theorem length_name_le {f : List Byte} {s' : Input DvmProg} (h : dvmRead f = .ok () s')
    {s : DvmSym} (hs : s ∈ s'.out.syms) : s.name.length ≤ 63 := by
  obtain ⟨file, -, hout⟩ := dvmRead_ok_iff.mp h
  rw [hout] at hs
  obtain ⟨r, -, rfl⟩ := List.mem_map.mp hs
  have hle : (r.name.takeWhile (· ≠ 0)).length ≤ r.name.length :=
    (List.takeWhile_prefix _).length_le
  have hfits : r.name.length < 64 := r.fits
  show (r.name.takeWhile (· ≠ 0)).length ≤ 63
  omega

theorem LongName.not_staysInside {f : List Byte} (h : LongName f) : ¬ StaysInside f := by
  intro hin
  obtain ⟨k, nl, q, hread, hover⟩ := longName_iff.mp h
  obtain ⟨i, hi, hle⟩ := overruns_iff.mp hover
  exact Nat.not_lt.mpr hle (hin.stores k nl q hread i hi)

/-- `dvm_read` stays inside the name arrays on exactly the streams without a long name. -/
theorem staysInside_iff (f : List Byte) : StaysInside f ↔ ¬ LongName f := by
  refine ⟨fun hin h => h.not_staysInside hin,
    fun h => ⟨?_, fun _ => fun h _ => length_name_le h, ?_⟩⟩
  · intro k nl q hread i hi
    by_contra hle
    exact h (longName_iff.mpr ⟨k, nl, q, hread, overruns_iff.mpr ⟨i, hi, Nat.le_of_not_lt hle⟩⟩)
  · intro k nl q hread hnl
    refine ⟨_, dvmRead_error_of_name hread fun s hs => frName_short hnl ?_⟩
    intro hover
    exact h (longName_iff.mpr ⟨k, nl, q, hread, hs ▸ hover⟩)

/-- The writer's own output for a name of 64 bytes: the NUL goes to `flags`. -/
theorem not_staysInside_sample :
    ¬ StaysInside (dvmWrite { syms := [⟨List.replicate 64 0x61, 1, 2, 0⟩] }) := by
  refine LongName.not_staysInside ⟨⟨0, [], [], [], 1, ?_, ?_, ?_, ?_⟩, [], 1, 2, 0, 64,
    List.replicate 64 0x61 ++ relsBytes [], ?_, ?_, ?_⟩
  all_goals decide

end Dvm
