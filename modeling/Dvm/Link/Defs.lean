/-
# The linker

`dvm_link` of `linker.c`, pass by pass.  Objects are visited in the order given, symbols and
relocations in table order.

The merged symbol table holds at most `DVM_MAX_SYMS` entries, which `MergedSyms` carries as a
field.  `msymsAdd` on a full table returns the source's `-1`, here `none`; a `sym_map` entry
that is still `-1` is `none` as well.  Section sizes are `size_t` sums; allocation is taken to
succeed.
-/
import Dvm.Base.Table
import Dvm.Base.Loops
import Dvm.Fmt

namespace Dvm

open Table Loops

/-! ## 1. Sections and bases -/

/-- The `cnst_base`, `data_base` and `code_base` of an object. -/
structure ObjBases where
  cnst : Nat := 0
  data : Nat := 0
  code : Nat := 0
  deriving DecidableEq, Repr

/-- The bases of the object after `o`. -/
def ObjBases.advance (b : ObjBases) (o : DvmProg) : ObjBases :=
  ⟨b.cnst + o.cnst.length, b.data + o.data.length, b.code + o.code.length⟩

/-- Pass 2: every object with its bases. -/
def withBases : ObjBases → List DvmProg → List (ObjBases × DvmProg)
  | _, [] => []
  | b, o :: os => (b, o) :: withBases (b.advance o) os

/-- The base of a section; `default: break` leaves the offset as it is. -/
def ObjBases.ofSec (b : ObjBases) (sec : DvmSection) : Nat :=
  if sec = dvmSecCnst then b.cnst
  else if sec = dvmSecData then b.data
  else if sec = dvmSecCode then b.code
  else 0

/-- The adjusted symbol `adj` of pass 3. -/
def adjust (b : ObjBases) (s : DvmSym) : DvmSym :=
  { s with offset := s.offset + BitVec.ofNat 32 (b.ofSec s.sec) }

/-- An object's symbols, adjusted by its bases. -/
def adjustedSyms (x : ObjBases × DvmProg) : List DvmSym := x.2.syms.map (adjust x.1)

/-! ## 2. The merged symbol table -/

/-- The error messages of `dvm_link`. -/
inductive LinkError where
  | duplicateGlobal (name : CStr)
  | unresolvedExtern (name : CStr)
  | relocTableFull
  | unmappedSym (r : DvmRel)
  deriving DecidableEq, Repr

structure MergedSyms where
  syms : List DvmSym
  fits : syms.length ≤ dvmMaxSyms

def MergedSyms.empty : MergedSyms := ⟨[], Nat.zero_le _⟩

def msymsFind (ms : MergedSyms) (name : CStr) : Option (Nat × DvmSym) :=
  find DvmSym.name name ms.syms

/-- Append.  On a full table: print a message, store nothing, return -1. -/
def msymsAdd (ms : MergedSyms) (s : DvmSym) : MergedSyms × Option Nat :=
  if h : ms.syms.length < dvmMaxSyms then
    (⟨ms.syms ++ [s], by rw [List.length_append]; exact h⟩, some ms.syms.length)
  else (ms, none)

/-- `ms.syms[i] = s`. -/
def msymsSet (ms : MergedSyms) (i : Nat) (s : DvmSym) : MergedSyms :=
  ⟨ms.syms.set i s, by rw [List.length_set]; exact ms.fits⟩

@[simp] theorem msymsSet_syms (ms : MergedSyms) (i : Nat) (s : DvmSym) :
    (msymsSet ms i s).syms = ms.syms.set i s := rfl

/-! ## 3. The passes -/

/-- The `sym_map` of one object: the merged index for each of its symbols. -/
abbrev SymMap := List (Option Nat)

/-- Pass 3 for one adjusted symbol: the merged table after it, and its `sym_map` entry.
Externs wait for pass 4. -/
def defineSym (ms : MergedSyms) (adj : DvmSym) : Except LinkError (MergedSyms × Option Nat) :=
  if adj.flags = dvmSymExtern then .ok (ms, none)
  else if adj.flags = dvmSymGlobal then
    match msymsFind ms adj.name with
    | some (existing, e) =>
      if e.flags = dvmSymGlobal ∧ e.sec ≠ dvmSecNone then .error (.duplicateGlobal adj.name)
      else .ok (msymsSet ms existing adj, some existing)
    | none => .ok (msymsAdd ms adj)
  else .ok (msymsAdd ms adj)

/-- Pass 3. -/
def definePass (objs : List (ObjBases × DvmProg)) : Except LinkError (MergedSyms × List SymMap) :=
  scan (fun ms x => scan defineSym ms (adjustedSyms x)) MergedSyms.empty objs

/-- Pass 4 for one symbol and its `sym_map` entry. -/
def resolveSym (ms : MergedSyms) (x : DvmSym × Option Nat) : Except LinkError (Option Nat) :=
  if x.1.flags ≠ dvmSymExtern then .ok x.2
  else match msymsFind ms x.1.name with
    | some (resolved, t) =>
      if t.sec = dvmSecNone then .error (.unresolvedExtern x.1.name) else .ok (some resolved)
    | none => .error (.unresolvedExtern x.1.name)

/-- Pass 4. -/
def resolvePass (ms : MergedSyms) (objs : List (DvmProg × SymMap)) :
    Except LinkError (List SymMap) :=
  each (fun x => each (resolveSym ms) (x.1.syms.zip x.2)) objs

/-- `(r->sym_index < nsyms) ? sym_map[r->sym_index] : -1`; the map is as long as the object's
symbol table. -/
def newSym (map : SymMap) (r : DvmRel) : Option Nat := (map[r.symIndex.toNat]?).join

/-- An output relocation. -/
def remap (b : ObjBases) (k : Nat) (r : DvmRel) : DvmRel :=
  ⟨r.codeOffset + BitVec.ofNat 32 b.code, BitVec.ofNat 32 k, r.kind⟩

/-- Pass 5 for one relocation; `rels` is the output table so far. -/
def remapRel (b : ObjBases) (map : SymMap) (rels : List DvmRel) (r : DvmRel) :
    Except LinkError (List DvmRel) :=
  if dvmMaxRels ≤ rels.length then .error .relocTableFull
  else match newSym map r with
    | none => .error (.unmappedSym r)
    | some k => .ok (rels ++ [remap b k r])

/-- Pass 5. -/
def remapPass (objs : List ((ObjBases × DvmProg) × SymMap)) : Except LinkError (List DvmRel) :=
  objs.foldlM (fun rels x => x.1.2.rels.foldlM (remapRel x.1.1 x.2) rels) []

/-! ## 4. `dvm_link` -/

/-- The candidates for the entry point: the explicit one alone, or the defaults. -/
def entryCandidates (entrySym : Option CStr) : List CStr :=
  match entrySym with
  | some name => [name]
  | none => [lit "_start", lit "main"]

/-- The offset of the first candidate whose table entry lies in the code section. -/
def resolveEntry (ms : MergedSyms) : List CStr → Option (BitVec 32)
  | [] => none
  | cand :: rest =>
    match msymsFind ms cand with
    | some (_, t) => if t.sec = dvmSecCode then some t.offset else resolveEntry ms rest
    | none => resolveEntry ms rest

/-- The output program; without a candidate a non-empty code section is entered at 0. -/
def linkOutput (objs : List DvmProg) (entrySym : Option CStr) (ms : MergedSyms)
    (rels : List DvmRel) : DvmProg :=
  let code := objs.flatMap DvmProg.code
  let entry := resolveEntry ms (entryCandidates entrySym)
  { cnst := objs.flatMap DvmProg.cnst
    data := objs.flatMap DvmProg.data
    code := code
    syms := ms.syms
    rels := rels
    entryOffset := entry.getD 0
    hasEntry := entry.isSome || decide (0 < code.length) }

def dvmLink (objs : List DvmProg) (entrySym : Option CStr) : Except LinkError DvmProg :=
  match definePass (withBases {} objs) with
  | .error e => .error e
  | .ok (ms, defMaps) =>
    match resolvePass ms (objs.zip defMaps) with
    | .error e => .error e
    | .ok maps =>
      match remapPass ((withBases {} objs).zip maps) with
      | .error e => .error e
      | .ok rels => .ok (linkOutput objs entrySym ms rels)

end Dvm
