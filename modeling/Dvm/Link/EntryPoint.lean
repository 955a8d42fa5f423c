/-
# The entry point of a linked program

`dvm_link` looks the candidates for the entry point up in the merged symbol table and takes the
first whose entry lies in the code section.  The names it is to choose among are the exported
ones: `EntryAmong` goes through the priority list and looks at the `GLOBAL`s of the inputs only.

The merged table is a different thing in three ways.  It holds the `LOCAL`s of every object,
and the search does not look at an entry's flags; it has a last entry, behind which a `GLOBAL`
is dropped; and its offsets have 32 bits.  Besides, with an explicit name there are no further
candidates.  `Strays` lists the ways in which the search can leave the priority list because of
that, each with the offset it ends at, and `entrySelected_iff` says that nothing else goes wrong.
-/
import Dvm.Link.Accept

namespace Dvm

open Table Loops

/-! ## 1. The names exported as code -/

/-- Some object defines `n` as a `GLOBAL` in the code section, and `off` is its offset after
the object's code has been moved to its base. -/
def Exports (objs : List DvmProg) (n : CStr) (off : Nat) : Prop :=
  ∃ i o s, objs[i]? = some o ∧ s ∈ o.syms ∧ s.IsGlobal ∧ s.name = n ∧ s.sec = dvmSecCode ∧
    off = rebased objs i s

def Exported (objs : List DvmProg) (n : CStr) : Prop := ∃ off, Exports objs n off

/-- `off` is the offset of the first name that is exported, and 0 only if none is. -/
def EntryAmong (objs : List DvmProg) : List CStr → Nat → Prop
  | [], off => off = 0
  | n :: rest, off => Exports objs n off ∨ (¬ Exported objs n ∧ EntryAmong objs rest off)

/-- The explicit name if there is one, then `_start`, then `main`. -/
def entryPriority (entrySym : Option CStr) : List CStr :=
  entrySym.toList ++ [lit "_start", lit "main"]

/-- The entry point is the one the priority list asks for. -/
def EntrySelected (objs : List DvmProg) (entrySym : Option CStr) (out : DvmProg) : Prop :=
  EntryAmong objs (entryPriority entrySym) out.entryOffset.toNat

/-- Names that are not exported are passed over. -/
theorem entryAmong_append {objs : List DvmProg} {pre rest : List CStr} {off : Nat}
    (h : ∀ p ∈ pre, ¬ Exported objs p) (hrest : EntryAmong objs rest off) :
    EntryAmong objs (pre ++ rest) off := by
  induction pre with
  | nil => exact hrest
  | cons p pre ih => exact .inr ⟨h p (.head _), ih fun q hq => h q (.tail _ hq)⟩

theorem entryAmong_zero {objs : List DvmProg} {ns : List CStr}
    (h : ∀ n ∈ ns, ¬ Exported objs n) : EntryAmong objs ns 0 := by
  rw [← List.append_nil ns]
  exact entryAmong_append h rfl

/-! ## 2. The entry the search looks at -/

/-- The entry of a name, if it found room in the table and lies in the code section. -/
def codeEntry (objs : List DvmProg) (n : CStr) : Option DvmSym :=
  if n ∈ storedNames (linkSyms objs) then
    (nameEntry (linkSyms objs) n).filter fun s => s.sec = dvmSecCode
  else none

theorem codeEntry_eq_some_iff {objs : List DvmProg} {n : CStr} {s : DvmSym} :
    codeEntry objs n = some s ↔ n ∈ storedNames (linkSyms objs) ∧
      nameEntry (linkSyms objs) n = some s ∧ s.sec = dvmSecCode := by
  unfold codeEntry
  split
  · next h => simp [h, Option.filter_eq_some_iff]
  · next h => simp [h]

/-- A search of the linker's table is one for `nameEntry`, among the names that found room. -/
theorem msymsFind_snd {ss : List DvmSym} {ms : MergedSyms}
    (hms : ms.syms = (places ss).take dvmMaxSyms) (n : CStr) :
    (msymsFind ms n).map Prod.snd = if n ∈ storedNames ss then nameEntry ss n else none := by
  rw [msymsFind, hms]
  split
  · next h =>
    obtain ⟨q, a, hf⟩ := mem_storedNames_iff.mp h
    have hwhole := find_take n (places ss) dvmMaxSyms ▸ hf
    rw [Option.filter_eq_some_iff] at hwhole
    rw [hf, nameEntry_of_find hwhole.1]
    rfl
  · next h =>
    cases hf : find DvmSym.name n ((places ss).take dvmMaxSyms) with
    | none => rfl
    | some x => exact absurd (mem_storedNames_iff.mpr ⟨x.1, x.2, hf⟩) h

/-- The candidate loop ends at the first candidate with a code entry. -/
theorem resolveEntry_eq {objs : List DvmProg} {ms : MergedSyms}
    (hms : ms.syms = (places (linkSyms objs)).take dvmMaxSyms) (cands : List CStr) :
    resolveEntry ms cands = (cands.findSome? (codeEntry objs)).map DvmSym.offset := by
  induction cands with
  | nil => rfl
  | cons n rest ih =>
    have hcode : codeEntry objs n
        = ((msymsFind ms n).map Prod.snd).filter fun s => s.sec = dvmSecCode := by
      rw [msymsFind_snd hms, codeEntry]
      split
      · rfl
      · rfl
    rw [resolveEntry, List.findSome?_cons, hcode, ih]
    cases hf : msymsFind ms n with
    | none => simp
    | some x =>
      by_cases hsec : x.2.sec = dvmSecCode
      · simp [Option.filter, hsec]
      · simp [Option.filter, hsec]

/-! ## 3. How the search strays -/

section Linked

variable {objs : List DvmProg} {entrySym : Option CStr} {out : DvmProg}

/-- The entry point is that of the first candidate with a code entry, or 0. -/
theorem dvmLink_entry (h : dvmLink objs entrySym = .ok out) :
    out.entryOffset = (((entryCandidates entrySym).findSome? (codeEntry objs)).map
        DvmSym.offset).getD 0 := by
  obtain ⟨ms, defMaps, maps, rels, h₃, -, -, rfl⟩ := dvmLink_ok_iff.mp h
  rw [← resolveEntry_eq (definePass_ok h₃).1]
  rfl

/-- A code entry that is a `GLOBAL` exports its name, at its own offset unless that has wrapped
around. -/
theorem exports_of_codeEntry {n : CStr} {s : DvmSym} (hn : codeEntry objs n = some s)
    (hs : s.IsGlobal) :
    ∃ off, Exports objs n off ∧ (off < 2 ^ 32 → s.offset.toNat = off) := by
  obtain ⟨-, hent, hsec⟩ := codeEntry_eq_some_iff.mp hn
  obtain ⟨hname, hmem, -, -⟩ := nameEntry_eq_some hent
  obtain ⟨i, o, d, hi, hd, rfl⟩ := mem_linkSyms.mp hmem
  exact ⟨rebased objs i d, ⟨i, o, d, hi, hd, hs, hname, hsec, rfl⟩, toNat_adjust_eq_iff.mpr⟩

/-- The search passes the candidates `pre` and ends at the code entry `s`. -/
def EndsAt (objs : List DvmProg) (entrySym : Option CStr) (pre : List CStr) (s : DvmSym) :
    Prop :=
  ∃ n rest, entryCandidates entrySym = pre ++ n :: rest ∧ codeEntry objs n = some s ∧
    ∀ p ∈ pre, codeEntry objs p = none

/-- The ways in which the search leaves the priority list, with the offset it ends at. -/
inductive Strays (objs : List DvmProg) (entrySym : Option CStr) : Nat → Prop
  /-- The entry is that of a `LOCAL`. -/
  | hidden {pre : List CStr} {s : DvmSym} :
      EndsAt objs entrySym pre s → ¬ s.IsGlobal → Strays objs entrySym s.offset.toNat
  /-- An exported name was passed, its `GLOBAL` having found no room in the table. -/
  | dropped {pre : List CStr} {s : DvmSym} :
      EndsAt objs entrySym pre s → (∃ p ∈ pre, Exported objs p) →
      Strays objs entrySym s.offset.toNat
  /-- The entry is that of a `GLOBAL` behind the first 4 GiB of the linked code. -/
  | wrapped {pre : List CStr} {s : DvmSym} {off : Nat} :
      EndsAt objs entrySym pre s → Exports objs s.name off → 2 ^ 32 ≤ off →
      Strays objs entrySym s.offset.toNat
  /-- No candidate has a code entry, but a name of the priority list is exported. -/
  | missed :
      (∀ n ∈ entryCandidates entrySym, codeEntry objs n = none) →
      (∃ n ∈ entryPriority entrySym, Exported objs n) → Strays objs entrySym 0

/-- The candidates come first in the priority list. -/
theorem entryPriority_eq (entrySym : Option CStr) :
    ∃ rest, entryPriority entrySym = entryCandidates entrySym ++ rest := by
  cases entrySym with
  | none => exact ⟨[], rfl⟩
  | some n => exact ⟨_, rfl⟩

/-- The search ends at one entry only. -/
theorem EndsAt.findSome {pre : List CStr} {s : DvmSym} (h : EndsAt objs entrySym pre s) :
    (entryCandidates entrySym).findSome? (codeEntry objs) = some s := by
  obtain ⟨n, rest, hc, hn, hpre⟩ := h
  exact List.findSome?_eq_some_iff.mpr ⟨pre, n, rest, hc, hn, hpre⟩

theorem EndsAt.entryOffset (h : dvmLink objs entrySym = .ok out) {pre : List CStr} {s : DvmSym}
    (hs : EndsAt objs entrySym pre s) : out.entryOffset = s.offset := by
  rw [dvmLink_entry h, hs.findSome]
  rfl

/-- A search that strays ends where the entry point is. -/
theorem Strays.entryOffset (h : dvmLink objs entrySym = .ok out) {off : Nat}
    (hs : Strays objs entrySym off) : out.entryOffset.toNat = off := by
  cases hs with
  | hidden hs _ => rw [hs.entryOffset h]
  | dropped hs _ => rw [hs.entryOffset h]
  | wrapped hs _ _ => rw [hs.entryOffset h]
  | missed hnone _ =>
    rw [dvmLink_entry h, List.findSome?_eq_none_iff.mpr hnone]
    rfl

/-- A search that does not stray selects the entry point. -/
theorem entrySelected_or_strays (h : dvmLink objs entrySym = .ok out) :
    EntrySelected objs entrySym out ∨ Strays objs entrySym out.entryOffset.toNat := by
  obtain ⟨rest, hprio⟩ := entryPriority_eq entrySym
  cases hf : (entryCandidates entrySym).findSome? (codeEntry objs) with
  | none =>
    have hnone := List.findSome?_eq_none_iff.mp hf
    have hzero : out.entryOffset.toNat = 0 := by
      rw [dvmLink_entry h, hf]
      rfl
    rw [EntrySelected, hzero]
    by_cases hex : ∃ n ∈ entryPriority entrySym, Exported objs n
    · exact .inr (.missed hnone hex)
    · exact .inl (entryAmong_zero fun n hn hexp => hex ⟨n, hn, hexp⟩)
  | some s =>
    obtain ⟨pre, n, post, hc, hn, hpre⟩ := List.findSome?_eq_some_iff.mp hf
    have hends : EndsAt objs entrySym pre s := ⟨n, post, hc, hn, hpre⟩
    rw [EntrySelected, hends.entryOffset h]
    by_cases hs : s.IsGlobal
    · by_cases hex : ∃ p ∈ pre, Exported objs p
      · exact .inr (.dropped hends hex)
      obtain ⟨off, hexp, hoff⟩ := exports_of_codeEntry hn hs
      rcases Nat.lt_or_ge off (2 ^ 32) with hlt | hge
      · left
        rw [hprio, hc, List.append_assoc, hoff hlt]
        exact entryAmong_append (fun p hp hexp => hex ⟨p, hp, hexp⟩) (.inl hexp)
      · have hname : s.name = n :=
          (nameEntry_eq_some (codeEntry_eq_some_iff.mp hn).2.1).1
        exact .inr (.wrapped hends (hname ▸ hexp) hge)
    · exact .inr (.hidden hends hs)

/-- The entry point is the one the priority list asks for exactly if every way the search
strays happens to end there. -/
theorem entrySelected_iff (h : dvmLink objs entrySym = .ok out) :
    EntrySelected objs entrySym out ↔
      ∀ off, Strays objs entrySym off → EntryAmong objs (entryPriority entrySym) off := by
  constructor
  · intro hsel off hs
    rw [← hs.entryOffset h]
    exact hsel
  · intro hall
    exact (entrySelected_or_strays h).elim id (hall _)

end Linked

/-! ## 4. A `_start` that is not exported -/

/-- The label `_start`, for the use of this object only. -/
def startObj : DvmProg where
  code := [0x2f]
  syms := [⟨lit "_start", dvmSymLocal, dvmSecCode, 0⟩]

/-- An object with an exported entry point. -/
def exportObj (n : CStr) : DvmProg where
  code := [0x2f]
  syms := [⟨n, dvmSymGlobal, dvmSecCode, 0⟩]

/-- The `GLOBAL` of another object takes the entry of the `LOCAL` over. -/
theorem entrySelected_startObj : ∃ out,
    dvmLink [startObj, exportObj (lit "_start")] none = .ok out ∧ out.entryOffset = 1 ∧
      EntrySelected [startObj, exportObj (lit "_start")] none out := by
  refine ⟨_, rfl, rfl, (entrySelected_iff rfl).mpr fun off hs => ?_⟩
  have hstart : codeEntry [startObj, exportObj (lit "_start")] (lit "_start")
      = some ⟨lit "_start", dvmSymGlobal, dvmSecCode, 1⟩ := by decide
  have hfound : (entryCandidates none).findSome? (codeEntry [startObj, exportObj (lit "_start")])
      = some ⟨lit "_start", dvmSymGlobal, dvmSecCode, 1⟩ := by
    rw [entryCandidates, List.findSome?_cons, hstart]
  cases hs with
  | hidden hends hlocal =>
    cases hends.findSome.symm.trans hfound
    exact absurd rfl hlocal
  | dropped hends hex =>
    -- no candidate stands in front of the one found
    obtain ⟨n, rest, hc, hn, hpre⟩ := hends
    obtain ⟨p, hp, -⟩ := hex
    obtain ⟨q, pre, rfl⟩ := List.exists_cons_of_ne_nil (List.ne_nil_of_mem hp)
    obtain rfl : lit "_start" = q := (List.cons.inj hc).1
    cases (hpre _ (.head _)).symm.trans hstart
  | wrapped _ hexp hge =>
    obtain ⟨i, o, d, hi, hd, -, -, -, rfl⟩ := hexp
    have hall : ∀ i < 2, ∀ o ∈ [startObj, exportObj (lit "_start")], ∀ d ∈ o.syms,
        rebased [startObj, exportObj (lit "_start")] i d < 2 ^ 32 := by decide
    have hlt := hall i (List.getElem?_eq_some_iff.mp hi).1 o (List.mem_of_getElem? hi) d hd
    omega
  | missed hnone _ => cases (hnone _ (.head _)).symm.trans hstart

/-- With another entry point in the other object, the program is entered at the `LOCAL`. -/
theorem startObj_hides_main : ∃ out,
    dvmLink [startObj, exportObj (lit "main")] none = .ok out ∧ out.code ≠ [] ∧
      out.entryOffset = 0 ∧ Exports [startObj, exportObj (lit "main")] (lit "main") 1 ∧
      ¬ EntrySelected [startObj, exportObj (lit "main")] none out := by
  have hexp : ∀ n off, Exports [startObj, exportObj (lit "main")] n off ↔
      n = lit "main" ∧ off = 1 := by
    intro n off
    constructor
    · rintro ⟨i, o, s, hi, hs, hglob, rfl, -, rfl⟩
      match i, hi with
      | 0, hi =>
        cases hi
        obtain rfl := List.mem_singleton.mp hs
        exact absurd hglob (by decide)
      | 1, hi =>
        cases hi
        obtain rfl := List.mem_singleton.mp hs
        exact ⟨rfl, rfl⟩
    · rintro ⟨rfl, rfl⟩
      exact ⟨1, _, _, rfl, .head _, rfl, rfl, rfl, rfl⟩
  refine ⟨_, rfl, by decide, rfl, (hexp _ _).mpr ⟨rfl, rfl⟩, ?_⟩
  rintro (hstart | ⟨-, hmain | ⟨hno, -⟩⟩)
  · exact absurd ((hexp _ _).mp hstart).1 (by decide)
  · exact absurd ((hexp _ _).mp hmain).2 (by decide)
  · exact hno ⟨1, (hexp _ _).mpr ⟨rfl, rfl⟩⟩

end Dvm
