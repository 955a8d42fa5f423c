/-
# What loading a file leaves behind

`dvm_load_file` reads a file into buffers from the heap, copies them into memory it maps, and
frees the buffers.  Here the live heap buffers and the live mappings are explicit sets, beside
the reader of `Dvm.Io` and the loader of `Dvm.Load`, which know nothing of either: `dvmReadHeap`
is the reader with its allocations (`views_dvmReadHeap`), and `dvmLoadMapped` the loader with
its mappings (`dvmLoadMapped_fst`).

A read that fails once a section has been read leaves the buffers of the sections so far, since
`dvm_load_file` then returns without `dvm_prog_free`; and a program without code leaves the
mappings of its other sections, since `dvm_load` then returns without `dvm_unload`, as it does
not where a relocation fails.  Nothing else is left (`cleansUp_iff`), whatever becomes of the
symbol table behind a name that does not fit its array: `dvmLoadFileOn` goes on there, as
`dvmReadOn` does, where `dvmLoadFile` stops.

What `malloc` and `calloc` return is a parameter, as are the addresses of `dvm_mmap`; `malloc`
may fail, `dvm_mmap` aborts where `mmap` does.  The `FILE` is closed on every path.
-/
import Mathlib.Data.Finset.SDiff
import Mathlib.Data.Finset.Option
import Dvm.File.LongName
import Dvm.Load

namespace Dvm

open Bytes ByteMem FileRead

/-! ## 1. Live objects -/

/-- A mapping: where it starts and how long it is. -/
abbrev Region := Word × Nat

/-- The live heap buffers and mappings of the process. -/
structure World where
  heap : Finset Word
  maps : Finset Region

/-- The pointers `cnst`, `data` and `code` of a `DvmProg`; `none` is NULL. -/
structure SecPtrs where
  cnst : Option Word := none
  data : Option Word := none
  code : Option Word := none

/-- `free`, which ignores NULL. -/
def free (heap : Finset Word) (p : Option Word) : Finset Word := heap \ p.toFinset

def dvmProgFree (p : SecPtrs) (heap : Finset Word) : Finset Word :=
  free (free (free heap p.cnst) p.data) p.code

/-- The region that a pointer and a length stand for. -/
def regionOf (p : Option Word) (len : Nat) : Finset Region :=
  p.toFinset.image fun a => (a, len)

/-- `dvm_unload`, of the regions that are mapped. -/
def dvmUnload (l : DvmLoaded) (maps : Finset Region) : Finset Region :=
  ((maps \ regionOf l.cnst l.cnstLen) \ regionOf l.data l.dataLen) \ regionOf l.code l.codeLen

/-- The regions of a loaded program. -/
def DvmLoaded.regions (l : DvmLoaded) : Finset Region :=
  regionOf l.cnst l.cnstLen ∪ regionOf l.data l.dataLen ∪ regionOf l.code l.codeLen

/-- What the allocators return is new: no live buffer, not the buffer of another section, and no
start of a live mapping. -/
structure Fresh (bufs : SecPtrs) (maps : LoadMaps) (w : World) : Prop where
  bufs_new : Disjoint w.heap (bufs.cnst.toFinset ∪ bufs.data.toFinset ∪ bufs.code.toFinset)
  cnst_data : Disjoint bufs.cnst.toFinset bufs.data.toFinset
  cnst_code : Disjoint bufs.cnst.toFinset bufs.code.toFinset
  data_code : Disjoint bufs.data.toFinset bufs.code.toFinset
  maps_new : ∀ n, (maps.cnst, n) ∉ w.maps ∧ (maps.data, n) ∉ w.maps ∧ (maps.code, n) ∉ w.maps

/-! ## 2. Reading -/

/-- The `DvmProg` being filled, its section pointers, and the live heap buffers. -/
structure Reading where
  prog : DvmProg := {}
  ptrs : SecPtrs := {}
  heap : Finset Word

abbrev HeapM := FileM ReadStop Reading

def Reading.setProg (p : DvmProg) (r : Reading) : Reading := { r with prog := p }

/-- A reader that does not allocate. -/
def onProg {α : Type} (x : ReadM α) : HeapM α := onPart Reading.prog Reading.setProg x

/-- `fr_section`; `buf` is what `malloc` or `calloc` returns.  NULL is returned to the caller
of the source, who gives up. -/
def frSectionHeap (buf : Option Word) : HeapM (List Byte) := do
  let sz ← onProg frU32
  match buf with
  | none => throw .short
  | some b =>
    fill fun r => { r with heap := insert b r.heap }
    if sz = 0 then pure []
    else
      let got ← fread sz.toNat
      if got.length = sz.toNat then pure got
      else
        fill fun r => { r with heap := free r.heap buf }
        throw .short

/-- A tagged section, assigned to the record with its pointer. -/
def frTaggedHeap (tag : List Byte) (buf : Option Word) (put : DvmProg → List Byte → DvmProg)
    (putPtr : SecPtrs → Option Word → SecPtrs) : HeapM Unit := do
  onProg (frExpectTag tag)
  let d ← frSectionHeap buf
  fill fun r => { r with prog := put r.prog d, ptrs := putPtr r.ptrs buf }

/-- `dvm_read` up to the sections. -/
def frStart : ReadM Unit := do
  let magic ← freadExact (.fail "dvm: bad magic") 4
  require (.fail "dvm: bad magic") (magic = dvmMagic)
  frExpectTag dvmTagEntr
  let entry ← frU32
  fill fun p => { p with entryOffset := entry, hasEntry := true }

/-- `dvm_read` behind the sections. -/
def frTables : ReadM Unit := do
  let n ← frCount dvmTagSyms dvmMaxSyms
  times frSym n
  frRels

/-- The same, going on behind a name that is too long. -/
def frTablesOn (spill : Spill) : ReadM Unit := do
  let n ← frCount dvmTagSyms dvmMaxSyms
  times (frSymOn spill) n
  frRels

/-- `dvm_read`, with a reader of the tables. -/
def dvmReadHeapWith (tables : ReadM Unit) (bufs : SecPtrs) : HeapM Unit := do
  onProg frStart
  frTaggedHeap dvmTagCnst bufs.cnst (fun p d => { p with cnst := d }) fun q b =>
    { q with cnst := b }
  frTaggedHeap dvmTagData bufs.data (fun p d => { p with data := d }) fun q b =>
    { q with data := b }
  frTaggedHeap dvmTagCode bufs.code (fun p d => { p with code := d }) fun q b =>
    { q with code := b }
  onProg tables

/-- `dvm_read` up to a name that is too long. -/
def dvmReadHeap (bufs : SecPtrs) : HeapM Unit := dvmReadHeapWith frTables bufs

/-- `dvm_read`. -/
def dvmReadHeapOn (spill : Spill) (bufs : SecPtrs) : HeapM Unit :=
  dvmReadHeapWith (frTablesOn spill) bufs

/-! ## 3. Loading -/

/-- `dvm_mmap` for a section; an empty one is not mapped. -/
def mapSection (maps : Finset Region) (a : Word) (bs : List Byte) : Finset Region :=
  maps ∪ regionOf (mapped a bs) bs.length

/-- `dvm_load`, with the mappings that are live. -/
def dvmLoadMapped (maps : LoadMaps) (m : Mem) (p : DvmProg) (live : Finset Region) :
    Except LoadError (DvmLoaded × Mem) × Finset Region :=
  let live := mapSection (mapSection live maps.cnst p.cnst) maps.data p.data
  if p.code.length = 0 then (.error .emptyCode, live)
  else
    let live := mapSection live maps.code p.code
    match p.rels.foldlM (applyRel maps p) (copySections maps m p) with
    | .error e => (.error e, dvmUnload (loadedProg maps p) live)
    | .ok m' => (.ok (loadedProg maps p, m'), live)

/-- How `dvm_load_file` ends. -/
inductive FileResult where
  /-- It returns 0. -/
  | failed
  /-- It returns 1. -/
  | loaded (l : DvmLoaded) (m : Mem)
  /-- A name has left its array. -/
  | overrun

/-- `dvm_load_file` on the contents `f` of a file, with a reader for it. -/
def dvmLoadFileWith (read : HeapM Unit) (maps : LoadMaps) (m : Mem) (w : World) (f : List Byte) :
    FileResult × World :=
  match read ⟨f, { heap := w.heap }⟩ with
  | .error .overrun s => (.overrun, { w with heap := s.out.heap })
  | .error (.fail _) s => (.failed, { w with heap := s.out.heap })
  | .ok () s =>
    let (res, live) := dvmLoadMapped maps m s.out.prog w.maps
    let w' : World := ⟨dvmProgFree s.out.ptrs s.out.heap, live⟩
    match res with
    | .error _ => (.failed, w')
    | .ok (l, m') => (.loaded l m', w')

/-- `dvm_load_file` up to a name that is too long. -/
def dvmLoadFile (bufs : SecPtrs) : LoadMaps → Mem → World → List Byte → FileResult × World :=
  dvmLoadFileWith (dvmReadHeap bufs)

/-- `dvm_load_file`. -/
def dvmLoadFileOn (spill : Spill) (bufs : SecPtrs) :
    LoadMaps → Mem → World → List Byte → FileResult × World :=
  dvmLoadFileWith (dvmReadHeapOn spill bufs)

/-- When it returns 0, the live objects are those from before; when it returns 1, there are in
addition the mappings of the sections that are not empty. -/
structure CleansUp (spill : Spill) (bufs : SecPtrs) (maps : LoadMaps) (m : Mem) (w : World)
    (f : List Byte) : Prop where
  failed : ∀ w', dvmLoadFileOn spill bufs maps m w f = (.failed, w') → w' = w
  loaded : ∀ l m' w', dvmLoadFileOn spill bufs maps m w f = (.loaded l m', w') →
    w'.heap = w.heap ∧ w'.maps = w.maps ∪ l.regions ∧
      (l.cnst.isSome ↔ l.cnstLen ≠ 0) ∧ (l.data.isSome ↔ l.dataLen ≠ 0) ∧
      (l.code.isSome ↔ l.codeLen ≠ 0)

/-! ## 4. The reader with its buffers -/

/-- Every section gets a buffer. -/
def SecPtrs.Given (bufs : SecPtrs) : Prop :=
  bufs.cnst.isSome ∧ bufs.data.isSome ∧ bufs.code.isSome

theorem dvmReadBody_split :
    dvmReadBody = (do
      frStart
      frTagged dvmTagCnst fun p d => { p with cnst := d }
      frTagged dvmTagData fun p d => { p with data := d }
      frTagged dvmTagCode fun p d => { p with code := d }
      frTables) := by
  simp only [dvmReadBody_eq, frHead, frStart, frTables, bind_assoc]

theorem dvmReadOn_split (spill : Spill) :
    (frHead >>= fun n => times (frSymOn spill) n >>= fun _ => frRels) = (do
      frStart
      frTagged dvmTagCnst fun p d => { p with cnst := d }
      frTagged dvmTagData fun p d => { p with data := d }
      frTagged dvmTagCode fun p d => { p with code := d }
      frTablesOn spill) := by
  simp only [frHead, frStart, frTablesOn, bind_assoc]

section Views

theorem views_onProg {α : Type} (x : ReadM α) : Views Reading.prog (onProg x) x :=
  views_onPart (fun _ _ => rfl) x

theorem views_frSectionHeap (b : Word) :
    Views Reading.prog (frSectionHeap (some b)) frSection := by
  refine (views_onProg frU32).bind fun sz => ?_
  refine Views.fill_left (f := fun r : Reading => { r with heap := insert b r.heap })
    (fun _ => rfl) ?_
  split
  · exact views_pure []
  · refine (views_fread sz.toNat).bind fun got => ?_
    split
    · exact views_pure got
    · exact Views.fill_left (f := fun r : Reading => { r with heap := free r.heap (some b) })
        (fun _ => rfl) (views_throw _)

theorem views_frTaggedHeap (tag : List Byte) (b : Word) (put : DvmProg → List Byte → DvmProg)
    (putPtr : SecPtrs → Option Word → SecPtrs) :
    Views Reading.prog (frTaggedHeap tag (some b) put putPtr) (frTagged tag put) :=
  (views_onProg _).bind fun _ => (views_frSectionHeap b).bind fun _ => views_fill fun _ => rfl

/-- With a buffer for every section, the reader is the one that does not allocate. -/
theorem views_dvmReadHeapWith (tables : ReadM Unit) {bufs : SecPtrs} (h : bufs.Given) :
    Views Reading.prog (dvmReadHeapWith tables bufs) (do
      frStart
      frTagged dvmTagCnst fun p d => { p with cnst := d }
      frTagged dvmTagData fun p d => { p with data := d }
      frTagged dvmTagCode fun p d => { p with code := d }
      tables) := by
  obtain ⟨cnst, data, code⟩ := bufs
  obtain ⟨hc, hd, hk⟩ := h
  obtain ⟨c, rfl⟩ := Option.isSome_iff_exists.mp hc
  obtain ⟨d, rfl⟩ := Option.isSome_iff_exists.mp hd
  obtain ⟨k, rfl⟩ := Option.isSome_iff_exists.mp hk
  exact (views_onProg _).bind fun _ => (views_frTaggedHeap _ c _ _).bind fun _ =>
    (views_frTaggedHeap _ d _ _).bind fun _ => (views_frTaggedHeap _ k _ _).bind fun _ =>
      views_onProg _

theorem views_dvmReadHeap {bufs : SecPtrs} (h : bufs.Given) :
    Views Reading.prog (dvmReadHeap bufs) dvmReadBody := by
  rw [dvmReadBody_split]
  exact views_dvmReadHeapWith frTables h

theorem views_dvmReadHeapOn (spill : Spill) {bufs : SecPtrs} (h : bufs.Given) :
    Views Reading.prog (dvmReadHeapOn spill bufs)
      (frHead >>= fun n => times (frSymOn spill) n >>= fun _ => frRels) := by
  rw [dvmReadOn_split]
  exact views_dvmReadHeapWith (frTablesOn spill) h

end Views

section Buffers

/-- The pointers assigned and the buffers live. -/
def Reading.Has (ptrs : SecPtrs) (heap : Finset Word) (r : Reading) : Prop :=
  r.ptrs = ptrs ∧ r.heap = heap

variable {ptrs : SecPtrs} {heap : Finset Word} {buf : Option Word}

theorem triple_onProg {α : Type} (x : ReadM α) :
    Triple (Reading.Has ptrs heap) (onProg x) (Reading.Has ptrs heap)
      (Reading.Has ptrs heap) := by
  have hkeep : ∀ p r, Reading.Has ptrs heap r → (Reading.setProg p r).Has ptrs heap :=
    fun _ _ h => h
  exact triple_onPart hkeep x

/-- A section takes a buffer, which is freed where the section is cut short. -/
theorem triple_frSectionHeap (hnew : Disjoint heap buf.toFinset) :
    Triple (Reading.Has ptrs heap) (frSectionHeap buf)
      (Reading.Has ptrs (heap ∪ buf.toFinset)) (Reading.Has ptrs heap) := by
  refine (triple_onProg frU32).bind fun sz => ?_
  cases buf with
  | none => exact triple_throw (fun _ h => h) _
  | some b =>
    have halloc : ∀ r : Reading, r.Has ptrs heap →
        { r with heap := insert b r.heap }.Has ptrs (heap ∪ (some b).toFinset) := by
      rintro r ⟨hptrs, hheap⟩
      refine ⟨hptrs, ?_⟩
      rw [hheap, Option.toFinset_some, Finset.union_comm]
      rfl
    refine (triple_fill halloc).bind fun _ => ?_
    split
    · exact triple_pure (fun _ h => h) []
    · refine (triple_fread sz.toNat).bind fun got => ?_
      split
      · exact triple_pure (fun _ h => h) got
      · have hfree : ∀ r : Reading, r.Has ptrs (heap ∪ (some b).toFinset) →
            { r with heap := free r.heap (some b) }.Has ptrs heap := by
          rintro r ⟨hptrs, hheap⟩
          refine ⟨hptrs, ?_⟩
          rw [free, hheap, Finset.union_sdiff_cancel_right hnew]
        exact (triple_fill hfree).bind fun _ => triple_throw (fun _ h => h) _

theorem triple_frTaggedHeap (hnew : Disjoint heap buf.toFinset) (tag : List Byte)
    (put : DvmProg → List Byte → DvmProg) (putPtr : SecPtrs → Option Word → SecPtrs) :
    Triple (Reading.Has ptrs heap) (frTaggedHeap tag buf put putPtr)
      (Reading.Has (putPtr ptrs buf) (heap ∪ buf.toFinset)) (Reading.Has ptrs heap) := by
  refine (triple_onProg _).bind fun _ => (triple_frSectionHeap hnew).bind fun _ => ?_
  refine triple_fill ?_
  rintro r ⟨hptrs, hheap⟩
  exact ⟨by rw [hptrs], hheap⟩

end Buffers

/-! ## 5. How the read ends -/

/-- The beginning of the file, up to the constants, is well formed. -/
def FirstSection (f : List Byte) : Prop :=
  ∃ (entry : BitVec 32) (d rest : List Byte), d.length < 2 ^ 32 ∧
    f = dvmMagic ++ (dvmTagEntr ++ (fwU32 entry ++ (fwSec dvmTagCnst d ++ rest)))

/-- The file is one of the format, with names of any length, whatever follows it. -/
def Readable (f : List Byte) : Prop := ∃ (file : RawFile) (rest : List Byte), f = file.bytes ++ rest

section Read

variable {bufs : SecPtrs} {f : List Byte} {heap : Finset Word} {s' : Input Reading}

/-- `dvm_read` up to the constants. -/
def frFirst (bufs : SecPtrs) : HeapM Unit := do
  onProg frStart
  frTaggedHeap dvmTagCnst bufs.cnst (fun p d => { p with cnst := d }) fun q b =>
    { q with cnst := b }

/-- `dvm_read` behind the constants. -/
def frRest (tables : ReadM Unit) (bufs : SecPtrs) : HeapM Unit := do
  frTaggedHeap dvmTagData bufs.data (fun p d => { p with data := d }) fun q b =>
    { q with data := b }
  frTaggedHeap dvmTagCode bufs.code (fun p d => { p with code := d }) fun q b =>
    { q with code := b }
  onProg tables

theorem dvmReadHeapWith_split (tables : ReadM Unit) (bufs : SecPtrs) :
    dvmReadHeapWith tables bufs = frFirst bufs >>= fun _ => frRest tables bufs := by
  simp only [dvmReadHeapWith, frFirst, frRest, bind_assoc]

theorem failsIn_frStart : FailsIn ReadStop.isFail frStart :=
  (failsIn_freadExact nofun 4).bind fun _ => (failsIn_require nofun _).bind fun _ =>
    (failsIn_frExpectTag _).bind fun _ => failsIn_frU32.bind fun _ => failsIn_fill _

theorem failsIn_frSectionHeap (buf : Option Word) :
    FailsIn ReadStop.isFail (frSectionHeap buf) := by
  refine FailsIn.bind failsIn_frU32.onPart fun sz => ?_
  cases buf with
  | none => exact failsIn_throw isFail_short
  | some b =>
    refine (failsIn_fill _).bind fun _ => ?_
    split
    · exact failsIn_pure []
    · refine (failsIn_fread _).bind fun got => ?_
      split
      · exact failsIn_pure got
      · exact (failsIn_fill _).bind fun _ => failsIn_throw isFail_short

theorem failsIn_frTaggedHeap (tag : List Byte) (buf : Option Word)
    (put : DvmProg → List Byte → DvmProg) (putPtr : SecPtrs → Option Word → SecPtrs) :
    FailsIn ReadStop.isFail (frTaggedHeap tag buf put putPtr) :=
  FailsIn.bind (failsIn_frExpectTag tag).onPart fun _ =>
    (failsIn_frSectionHeap buf).bind fun _ => failsIn_fill _

/-- Without a buffer the section is not read. -/
theorem stops_frTaggedHeap (tag : List Byte) (put : DvmProg → List Byte → DvmProg)
    (putPtr : SecPtrs → Option Word → SecPtrs) :
    Stops ReadStop.isFail (frTaggedHeap tag none put putPtr) := by
  have hsection : Stops ReadStop.isFail (frSectionHeap none) :=
    FailsIn.stops failsIn_frU32.onPart fun _ => stops_throw isFail_short
  exact FailsIn.stops (failsIn_frExpectTag tag).onPart fun _ => hsection.bind _

theorem stops_dvmReadHeapWith (tables : ReadM Unit) (h : ¬ bufs.Given) :
    Stops ReadStop.isFail (dvmReadHeapWith tables bufs) := by
  obtain ⟨cnst, data, code⟩ := bufs
  refine FailsIn.stops failsIn_frStart.onPart fun _ => ?_
  cases cnst with
  | none => exact (stops_frTaggedHeap _ _ _).bind _
  | some c =>
    refine (failsIn_frTaggedHeap _ _ _ _).stops fun _ => ?_
    cases data with
    | none => exact (stops_frTaggedHeap _ _ _).bind _
    | some d =>
      refine (failsIn_frTaggedHeap _ _ _ _).stops fun _ => ?_
      cases code with
      | none => exact (stops_frTaggedHeap _ _ _).bind _
      | some k => exact absurd ⟨rfl, rfl, rfl⟩ h

/-- A read that succeeds has read a file of the format, into buffers of its own. -/
theorem dvmReadHeap_ok (h : dvmReadHeap bufs ⟨f, { heap := heap }⟩ = .ok () s') :
    bufs.Given ∧ ∃ file : DvmFile, f = file.bytes ++ s'.file ∧ s'.out.prog = file.prog := by
  have hgiven : bufs.Given := by
    by_contra hno
    exact (stops_dvmReadHeapWith _ hno).not_ok h
  have hread : dvmRead f = .ok () ⟨s'.file, s'.out.prog⟩ :=
    (views_dvmReadHeap hgiven).ok_iff.mpr ⟨s', h, rfl⟩
  exact ⟨hgiven, dvmRead_ok_iff.mp hread⟩

variable {spill : Spill}

theorem dvmReadHeapOn_ok (h : dvmReadHeapOn spill bufs ⟨f, { heap := heap }⟩ = .ok () s') :
    bufs.Given ∧ ∃ file : RawFile, f = file.bytes ++ s'.file ∧ s'.out.prog = file.prog spill := by
  have hgiven : bufs.Given := by
    by_contra hno
    exact (stops_dvmReadHeapWith _ hno).not_ok h
  have hread : dvmReadOn spill f = .ok () ⟨s'.file, s'.out.prog⟩ :=
    (views_dvmReadHeapOn spill hgiven).ok_iff.mpr ⟨s', h, rfl⟩
  exact ⟨hgiven, dvmReadOn_ok_iff.mp hread⟩

theorem exists_dvmReadHeapOn_ok (spill : Spill) (hgiven : bufs.Given) (hf : Readable f)
    (heap : Finset Word) : ∃ s', dvmReadHeapOn spill bufs ⟨f, { heap := heap }⟩ = .ok () s' := by
  obtain ⟨file, rest, rfl⟩ := hf
  obtain ⟨s', hs', -⟩ := ((views_dvmReadHeapOn spill hgiven).ok_iff
    (s := ⟨file.bytes ++ rest, { heap := heap }⟩)).mp (dvmReadOn_bytes spill file rest)
  exact ⟨s', hs'⟩

/-- It fails by returning 0 only. -/
theorem failsIn_dvmReadHeapOn : FailsIn ReadStop.isFail (dvmReadHeapOn spill bufs) := by
  have htables : FailsIn ReadStop.isFail (frTablesOn spill) :=
    (failsIn_frCount _ _).bind fun n => ((failsIn_frSymOn spill).times n).bind fun _ =>
      failsIn_frRels
  exact FailsIn.bind failsIn_frStart.onPart fun _ => (failsIn_frTaggedHeap _ _ _ _).bind fun _ =>
    (failsIn_frTaggedHeap _ _ _ _).bind fun _ => (failsIn_frTaggedHeap _ _ _ _).bind fun _ =>
      htables.onPart

theorem frFirst_ok_iff :
    (∃ s', frFirst bufs ⟨f, { heap := heap }⟩ = .ok () s') ↔
      bufs.cnst.isSome ∧ FirstSection f := by
  cases hb : bufs.cnst with
  | none =>
    have hstops : Stops ReadStop.isFail (frFirst bufs) := by
      rw [frFirst, hb]
      exact FailsIn.stops failsIn_frStart.onPart fun _ => stops_frTaggedHeap _ _ _
    exact iff_of_false (fun ⟨_, h⟩ => hstops.not_ok h) fun h => by cases h.1
  | some b =>
    have hviews : Views Reading.prog (frFirst bufs)
        (frStart >>= fun _ => frTagged dvmTagCnst fun p d => { p with cnst := d }) := by
      rw [frFirst, hb]
      exact (views_onProg _).bind fun _ => views_frTaggedHeap _ b _ _
    have hok (t : Input DvmProg) := hviews.ok_iff (s := ⟨f, { heap := heap }⟩) (a := ()) (t := t)
    simp only [frStart, bind_ok_iff, freadExact_ok_iff, require_ok_iff,
      frExpectTag_ok_iff length_dvmTagEntr, frU32_ok_iff, fill_ok_iff,
      frTagged_ok_iff length_dvmTagCnst] at hok
    constructor
    · rintro ⟨s', h⟩
      obtain ⟨-, s₁, ⟨magic, s₂, ⟨-, hmagic, -⟩, -, s₃, ⟨rfl, rfl⟩, -, s₄, ⟨hentr, -⟩, entry, s₅,
        ⟨hentry, -⟩, hf₅, -⟩, d, hd, hsec, -⟩ := (hok _).mpr ⟨s', h, rfl⟩
      refine ⟨rfl, entry, d, s'.file, hd, ?_⟩
      rw [hmagic, hentr, hentry, ← hf₅, hsec]
    · rintro ⟨-, entry, d, rest, hd, rfl⟩
      let s₁ : Input DvmProg :=
        ⟨fwSec dvmTagCnst d ++ rest, { entryOffset := entry, hasEntry := true }⟩
      have hread := (hok ⟨rest, { s₁.out with cnst := d }⟩).mp
        ⟨(), s₁, ⟨dvmMagic, ⟨_, {}⟩, ⟨rfl, rfl, rfl⟩, (), _, ⟨rfl, rfl⟩, (), ⟨_, {}⟩, ⟨rfl, rfl⟩,
          entry, ⟨_, {}⟩, ⟨rfl, rfl⟩, rfl, rfl⟩, d, hd, rfl, rfl⟩
      obtain ⟨s', hs', -⟩ := hread
      exact ⟨s', hs'⟩

/-! ## 6. The buffers -/

/-- Three sets added and taken away again. -/
theorem union_sdiff_sdiff_sdiff {α : Type} [DecidableEq α] {s t u v : Finset α}
    (h : Disjoint s (t ∪ u ∪ v)) : (((s ∪ t ∪ u ∪ v) \ t) \ u) \ v = s := by
  have hunion : s ∪ t ∪ u ∪ v = s ∪ (t ∪ u ∪ v) := by simp only [Finset.union_assoc]
  rw [sdiff_sdiff_left, sdiff_sdiff_left, Finset.sup_eq_union, Finset.sup_eq_union, hunion,
    ← Finset.union_assoc t]
  exact Finset.union_sdiff_cancel_right h

variable {w : World} {maps : LoadMaps}

/-- The buffers of all sections. -/
def SecPtrs.all (bufs : SecPtrs) : Finset Word :=
  bufs.cnst.toFinset ∪ bufs.data.toFinset ∪ bufs.code.toFinset

theorem Fresh.cnst_new (h : Fresh bufs maps w) : Disjoint w.heap bufs.cnst.toFinset :=
  (Finset.disjoint_union_right.mp (Finset.disjoint_union_right.mp h.bufs_new).1).1

theorem Fresh.data_new (h : Fresh bufs maps w) :
    Disjoint (w.heap ∪ bufs.cnst.toFinset) bufs.data.toFinset :=
  Finset.disjoint_union_left.mpr
    ⟨(Finset.disjoint_union_right.mp (Finset.disjoint_union_right.mp h.bufs_new).1).2, h.cnst_data⟩

theorem Fresh.code_new (h : Fresh bufs maps w) :
    Disjoint (w.heap ∪ bufs.cnst.toFinset ∪ bufs.data.toFinset) bufs.code.toFinset :=
  Finset.disjoint_union_left.mpr ⟨Finset.disjoint_union_left.mpr
    ⟨(Finset.disjoint_union_right.mp h.bufs_new).2, h.cnst_code⟩, h.data_code⟩

theorem triple_frFirst (h : Fresh bufs maps w) :
    Triple (Reading.Has {} w.heap) (frFirst bufs)
      (Reading.Has { cnst := bufs.cnst } (w.heap ∪ bufs.cnst.toFinset))
      (Reading.Has {} w.heap) :=
  (triple_onProg _).bind fun _ => triple_frTaggedHeap h.cnst_new _ _ _

/-- Behind the constants, their buffer stays. -/
theorem triple_frRest (tables : ReadM Unit) (h : Fresh bufs maps w) :
    Triple (Reading.Has { cnst := bufs.cnst } (w.heap ∪ bufs.cnst.toFinset)) (frRest tables bufs)
      (Reading.Has bufs (w.heap ∪ bufs.cnst.toFinset ∪ bufs.data.toFinset ∪ bufs.code.toFinset))
      (fun r => bufs.cnst.toFinset ⊆ r.heap) := by
  refine ((triple_frTaggedHeap h.data_new _ _ _).weaken ?_).bind fun _ =>
    ((triple_frTaggedHeap h.code_new _ _ _).weaken ?_).bind fun _ =>
      (triple_onProg _).weaken ?_
  · rintro r ⟨-, hheap⟩
    rw [hheap]
    exact Finset.subset_union_right
  · rintro r ⟨-, hheap⟩
    rw [hheap]
    exact Finset.subset_union_right.trans Finset.subset_union_left
  · rintro r ⟨-, hheap⟩
    rw [hheap]
    exact Finset.subset_union_right.trans (Finset.subset_union_left.trans Finset.subset_union_left)

/-- A read that succeeds has the buffers of all sections, and `dvm_prog_free` frees them. -/
theorem dvmProgFree_of_ok (h : Fresh bufs maps w) {tables : ReadM Unit}
    (hok : dvmReadHeapWith tables bufs ⟨f, { heap := w.heap }⟩ = .ok () s') :
    dvmProgFree s'.out.ptrs s'.out.heap = w.heap := by
  rw [dvmReadHeapWith_split] at hok
  obtain ⟨⟨⟩, s₁, h₁, h₂⟩ := bind_ok_iff.mp hok
  have hfirst := (triple_frFirst h).ok ⟨rfl, rfl⟩ h₁
  obtain ⟨hptrs, hheap⟩ := (triple_frRest tables h).ok hfirst h₂
  rw [hptrs, hheap]
  exact union_sdiff_sdiff_sdiff h.bufs_new

/-- A read that fails has freed its buffers exactly if it failed before the constants were
read. -/
theorem heap_of_error (h : Fresh bufs maps w) {tables : ReadM Unit} {e : ReadStop}
    (herr : dvmReadHeapWith tables bufs ⟨f, { heap := w.heap }⟩ = .error e s') :
    s'.out.heap = w.heap ↔ ¬ (bufs.cnst.isSome ∧ FirstSection f) := by
  rw [← @frFirst_ok_iff bufs f w.heap]
  rw [dvmReadHeapWith_split] at herr
  have hstart : Reading.Has {} w.heap { heap := w.heap } := ⟨rfl, rfl⟩
  rcases bind_error_iff.mp herr with h₁ | ⟨⟨⟩, s₁, h₁, h₂⟩
  · refine iff_of_true ((triple_frFirst h).error hstart h₁).2 ?_
    rintro ⟨s₂, h₂⟩
    cases h₁.symm.trans h₂
  · refine iff_of_false (fun heq => ?_) fun hno => hno ⟨s₁, h₁⟩
    have hsub := (triple_frRest tables h).error ((triple_frFirst h).ok hstart h₁) h₂
    obtain ⟨b, hb⟩ := Option.isSome_iff_exists.mp (frFirst_ok_iff.mp ⟨s₁, h₁⟩).1
    have hmem : b ∈ bufs.cnst.toFinset := by simp [hb]
    exact Finset.disjoint_left.mp h.cnst_new (heq ▸ hsub hmem) hmem

/-! ## 7. The mappings -/

theorem dvmLoadMapped_fst (maps : LoadMaps) (m : Mem) (p : DvmProg) (live : Finset Region) :
    (dvmLoadMapped maps m p live).1 = dvmLoad maps m p := by
  unfold dvmLoadMapped dvmLoad
  split
  · rfl
  · cases p.rels.foldlM (applyRel maps p) (copySections maps m p) with
    | error e => rfl
    | ok m' => rfl

theorem regionOf_mapped_eq_empty_iff {a : Word} {bs : List Byte} :
    regionOf (mapped a bs) bs.length = ∅ ↔ bs = [] := by
  cases bs with
  | nil => exact iff_of_true rfl rfl
  | cons b bs => simp [regionOf, mapped]

theorem disjoint_regionOf_mapped {live : Finset Region} {a : Word} (h : ∀ n, (a, n) ∉ live)
    (bs : List Byte) : Disjoint live (regionOf (mapped a bs) bs.length) := by
  rw [Finset.disjoint_right]
  intro r hr
  obtain ⟨a', ha', rfl⟩ := Finset.mem_image.mp hr
  rw [Option.mem_toFinset, mapped] at ha'
  split at ha'
  · cases ha'
  · cases ha'
    exact h _

/-- The mappings of a program's sections are new. -/
theorem Fresh.regions_new (h : Fresh bufs maps w) (p : DvmProg) :
    Disjoint w.maps (loadedProg maps p).regions := by
  refine Finset.disjoint_union_right.mpr ⟨Finset.disjoint_union_right.mpr ⟨?_, ?_⟩, ?_⟩
  · exact disjoint_regionOf_mapped (fun n => (h.maps_new n).1) p.cnst
  · exact disjoint_regionOf_mapped (fun n => (h.maps_new n).2.1) p.data
  · exact disjoint_regionOf_mapped (fun n => (h.maps_new n).2.2) p.code

/-- A load that fails leaves no mapping, unless it fails for want of code. -/
theorem maps_of_error (h : Fresh bufs maps w) {m : Mem} {p : DvmProg} {e : LoadError}
    (herr : dvmLoad maps m p = .error e) :
    (dvmLoadMapped maps m p w.maps).2 = w.maps ↔ ¬ (p.code = [] ∧ (p.cnst ≠ [] ∨ p.data ≠ [])) := by
  have hnew := h.regions_new p
  by_cases hc : p.code = []
  · have hlive : (dvmLoadMapped maps m p w.maps).2 = w.maps ∪
        (regionOf (mapped maps.cnst p.cnst) p.cnst.length ∪
          regionOf (mapped maps.data p.data) p.data.length) := by
      rw [dvmLoadMapped, if_pos (by rw [hc]; rfl), ← Finset.union_assoc]
      rfl
    have hdisj := (Finset.disjoint_union_right.mp hnew).1
    rw [hlive, Finset.union_eq_left]
    constructor
    · rintro hsub ⟨-, hne⟩
      have hempty := (Finset.disjoint_of_subset_left hsub hdisj).eq_bot_of_self
      rw [Finset.bot_eq_empty, Finset.union_eq_empty, regionOf_mapped_eq_empty_iff,
        regionOf_mapped_eq_empty_iff] at hempty
      exact hne.elim (fun hne => hne hempty.1) fun hne => hne hempty.2
    · intro hno
      have hboth : p.cnst = [] ∧ p.data = [] := by
        refine ⟨?_, ?_⟩ <;> by_contra hne
        · exact hno ⟨hc, .inl hne⟩
        · exact hno ⟨hc, .inr hne⟩
      rw [regionOf_mapped_eq_empty_iff.mpr hboth.1, regionOf_mapped_eq_empty_iff.mpr hboth.2]
      exact Finset.empty_subset _
  · refine iff_of_true ?_ fun hno => hc hno.1
    have hlen : ¬ p.code.length = 0 := by simpa using hc
    rw [dvmLoad, if_neg hlen] at herr
    rw [dvmLoadMapped, if_neg hlen]
    cases hf : p.rels.foldlM (applyRel maps p) (copySections maps m p) with
    | ok m' =>
      rw [hf] at herr
      cases herr
    | error e' => exact union_sdiff_sdiff_sdiff hnew

/-- A load that succeeds leaves the mappings of the loaded program. -/
theorem maps_of_ok {m m' : Mem} {p : DvmProg} {l : DvmLoaded} {live : Finset Region}
    (hok : dvmLoad maps m p = .ok (l, m')) :
    (dvmLoadMapped maps m p live).2 = live ∪ l.regions := by
  obtain ⟨hc, -, rfl, -⟩ := dvmLoad_ok_iff.mp hok
  have hlen : ¬ p.code.length = 0 := by simpa using hc
  rw [dvmLoad, if_neg hlen] at hok
  rw [dvmLoadMapped, if_neg hlen, DvmLoaded.regions, ← Finset.union_assoc, ← Finset.union_assoc]
  cases hf : p.rels.foldlM (applyRel maps p) (copySections maps m p) with
  | ok m' => rfl
  | error e' =>
    rw [hf] at hok
    cases hok

theorem mapped_isSome_iff (a : Word) (bs : List Byte) :
    (mapped a bs).isSome ↔ bs.length ≠ 0 := by
  cases bs with
  | nil => simp [mapped]
  | cons b bs => simp [mapped]

/-! ## 8. What is left behind -/

/-- The read fails after it has read the constants. -/
def LeavesBuffers (bufs : SecPtrs) (f : List Byte) : Prop :=
  (bufs.cnst.isSome ∧ FirstSection f) ∧ ¬ (bufs.Given ∧ Readable f)

/-- The file is read, and has constants or data, but no code. -/
def LeavesMaps (bufs : SecPtrs) (f : List Byte) : Prop :=
  bufs.Given ∧ ∃ (file : RawFile) (rest : List Byte), f = file.bytes ++ rest ∧
    file.head.code = [] ∧ (file.head.cnst ≠ [] ∨ file.head.data ≠ [])

/-- The end of `dvm_load_file` behind a read that succeeds. -/
theorem dvmLoadFileOn_of_ok (h : Fresh bufs maps w) (m : Mem)
    (hok : dvmReadHeapOn spill bufs ⟨f, { heap := w.heap }⟩ = .ok () s') :
    dvmLoadFileOn spill bufs maps m w f =
      (match dvmLoad maps m s'.out.prog with
        | .error _ => .failed
        | .ok (l, m') => .loaded l m',
      ⟨w.heap, (dvmLoadMapped maps m s'.out.prog w.maps).2⟩) := by
  rw [dvmLoadFileOn, dvmLoadFileWith, hok, ← dvmLoadMapped_fst maps m s'.out.prog w.maps,
    ← dvmProgFree_of_ok h hok]
  dsimp only
  cases dvmLoadMapped maps m s'.out.prog w.maps with
  | mk res live =>
    cases res with
    | error e => rfl
    | ok x => rfl

/-- Its end behind a read that fails. -/
theorem dvmLoadFileOn_of_error (m : Mem) {e : ReadStop}
    (herr : dvmReadHeapOn spill bufs ⟨f, { heap := w.heap }⟩ = .error e s') :
    dvmLoadFileOn spill bufs maps m w f = (.failed, ⟨s'.out.heap, w.maps⟩) := by
  rw [dvmLoadFileOn, dvmLoadFileWith, herr]
  cases e with
  | overrun => exact absurd rfl (failsIn_dvmReadHeapOn _ _ _ herr)
  | fail msg => rfl

/-- The bytes of a file determine the program that is read. -/
theorem prog_eq_of_bytes {file file' : RawFile} {rest rest' : List Byte}
    (h : f = file.bytes ++ rest) (h' : f = file'.bytes ++ rest') (spill : Spill) :
    file'.prog spill = file.prog spill := by
  have hread : dvmReadOn spill f = .ok () ⟨rest, file.prog spill⟩ :=
    dvmReadOn_ok_iff.mpr ⟨file, h, rfl⟩
  have hread' : dvmReadOn spill f = .ok () ⟨rest', file'.prog spill⟩ :=
    dvmReadOn_ok_iff.mpr ⟨file', h', rfl⟩
  have hsame := hread'.symm.trans hread
  simp only [EStateM.Result.ok.injEq, Input.mk.injEq, true_and] at hsame
  exact hsame.2

/-- A file that is read leaves mappings exactly if its program has constants or data, but no
code. -/
theorem leavesMaps_iff (hok : dvmReadHeapOn spill bufs ⟨f, { heap := heap }⟩ = .ok () s') :
    LeavesMaps bufs f ↔
      s'.out.prog.code = [] ∧ (s'.out.prog.cnst ≠ [] ∨ s'.out.prog.data ≠ []) := by
  obtain ⟨hgiven, file, hf, hprog⟩ := dvmReadHeapOn_ok hok
  rw [hprog]
  constructor
  · rintro ⟨-, file', rest, hf', hleft⟩
    rw [← prog_eq_of_bytes hf hf' spill]
    exact hleft
  · exact fun hleft => ⟨hgiven, file, s'.file, hf, hleft⟩

theorem cleansUp_iff_of_failed {m : Mem} {w' : World}
    (hrun : dvmLoadFileOn spill bufs maps m w f = (.failed, w')) :
    CleansUp spill bufs maps m w f ↔ w' = w := by
  refine ⟨fun h => h.failed w' hrun, fun heq => ⟨fun w₁ h₁ => ?_, fun l m' w₁ h₁ => ?_⟩⟩
  · cases hrun.symm.trans h₁
    exact heq
  · cases hrun.symm.trans h₁

/-- A read that fails is cleaned up exactly if it fails before the constants were read. -/
theorem cleansUp_iff_of_error (h : Fresh bufs maps w) (m : Mem) {e : ReadStop}
    (herr : dvmReadHeapOn spill bufs ⟨f, { heap := w.heap }⟩ = .error e s') :
    CleansUp spill bufs maps m w f ↔ ¬ (bufs.cnst.isSome ∧ FirstSection f) := by
  rw [cleansUp_iff_of_failed (dvmLoadFileOn_of_error m herr), ← heap_of_error h herr]
  exact ⟨fun heq => congrArg World.heap heq, fun heq => by rw [heq]⟩

/-- `dvm_load_file` cleans up after itself on exactly the files that leave neither buffers nor
mappings. -/
theorem cleansUp_iff (spill : Spill) (h : Fresh bufs maps w) (m : Mem) (f : List Byte) :
    CleansUp spill bufs maps m w f ↔ ¬ (LeavesBuffers bufs f ∨ LeavesMaps bufs f) := by
  cases hread : dvmReadHeapOn spill bufs ⟨f, { heap := w.heap }⟩ with
  | ok u s' =>
    obtain ⟨hgiven, file, hf, -⟩ := dvmReadHeapOn_ok hread
    have hbuffers : ¬ LeavesBuffers bufs f := fun hb => hb.2 ⟨hgiven, file, s'.file, hf⟩
    have hrun := dvmLoadFileOn_of_ok h m hread
    rw [or_iff_right hbuffers, leavesMaps_iff hread]
    cases hload : dvmLoad maps m s'.out.prog with
    | error e =>
      rw [hload] at hrun
      rw [cleansUp_iff_of_failed hrun, ← maps_of_error h hload]
      exact ⟨fun heq => congrArg World.maps heq, fun heq => by rw [heq]⟩
    | ok x =>
      obtain ⟨l, m'⟩ := x
      obtain ⟨hc, -, rfl, -⟩ := dvmLoad_ok_iff.mp hload
      rw [hload] at hrun
      refine iff_of_true ⟨fun w' h' => ?_, fun l' m₁ w' h' => ?_⟩ fun hleft => hc hleft.1
      · cases hrun.symm.trans h'
      · cases hrun.symm.trans h'
        exact ⟨rfl, maps_of_ok hload, mapped_isSome_iff _ _, mapped_isSome_iff _ _,
          mapped_isSome_iff _ _⟩
  | error e s' =>
    have hrest : ¬ (bufs.Given ∧ Readable f) := by
      rintro ⟨hgiven, hf⟩
      obtain ⟨s₁, h₁⟩ := exists_dvmReadHeapOn_ok spill hgiven hf w.heap
      cases hread.symm.trans h₁
    have hmaps : ¬ LeavesMaps bufs f := fun ⟨hgiven, file, rest, hf, _⟩ =>
      hrest ⟨hgiven, file, rest, hf⟩
    rw [or_iff_left hmaps, cleansUp_iff_of_error h m hread, LeavesBuffers, and_iff_left hrest]

end Read

/-! ## 9. Four files -/

/-- The address of a buffer for each section. -/
def fileBufs : SecPtrs := ⟨some 0x10, some 0x20, some 0x30⟩

def fileMaps : LoadMaps := ⟨0x1000, 0x2000, 0x3000⟩

def fileMem : Mem := fun _ => 0

/-- Nothing is live but one buffer. -/
def fileWorld : World := ⟨{0x40}, ∅⟩

theorem fresh_fileWorld : Fresh fileBufs fileMaps fileWorld :=
  ⟨by decide, by decide, by decide, by decide, fun _ =>
    ⟨Finset.notMem_empty _, Finset.notMem_empty _, Finset.notMem_empty _⟩⟩

/-- A program with a constant and one instruction. -/
def constantFile : RawFile where
  head := ⟨0, [7], [], [0x2f], 0, by decide, by decide, by decide, by decide⟩
  syms := []
  rels := []
  symsCount := rfl
  relsFit := by decide

theorem cleansUp_constantFile :
    CleansUp nulInFlags fileBufs fileMaps fileMem fileWorld constantFile.bytes := by
  have hf : constantFile.bytes = constantFile.bytes ++ [] := (List.append_nil _).symm
  have hgiven : fileBufs.Given := ⟨rfl, rfl, rfl⟩
  refine (cleansUp_iff nulInFlags fresh_fileWorld fileMem _).mpr ?_
  rintro (hbuffers | ⟨-, file, rest, hfile, hcode, -⟩)
  · exact hbuffers.2 ⟨hgiven, constantFile, [], hf⟩
  · have hsame := congrArg DvmProg.code (prog_eq_of_bytes hf hfile nulInFlags)
    rw [show (file.prog nulInFlags).code = [] from hcode] at hsame
    cases hsame

/-- A file that ends behind its constants. -/
def truncatedFile : List Byte :=
  dvmMagic ++ (dvmTagEntr ++ (fwU32 0 ++ fwSec dvmTagCnst [7]))

/-- A file that ends behind a name of 64 bytes. -/
def longNameCut : List Byte :=
  dvmMagic ++ (dvmTagEntr ++ (fwU32 0 ++ (fwSec dvmTagCnst [7] ++ (fwSec dvmTagData [] ++
    (fwSec dvmTagCode [0x2f] ++ (dvmTagSyms ++ (fwU32 1 ++ (fieldsBytes 1 2 0 64 ++
      List.replicate 64 0x61))))))))

/-- A program with a constant and no instruction. -/
def codelessFile : RawFile where
  head := ⟨0, [7], [], [], 0, by decide, by decide, by decide, by decide⟩
  syms := []
  rels := []
  symsCount := rfl
  relsFit := by decide

/-- The buffer of the constants of the first, the buffers of the second, and the mapping of the
constants of the third stay. -/
theorem loadFile_leaves : Fresh fileBufs fileMaps fileWorld ∧
    (dvmLoadFileOn nulInFlags fileBufs fileMaps fileMem fileWorld truncatedFile
        = (.failed, ⟨{0x10, 0x40}, ∅⟩) ∧
      ¬ CleansUp nulInFlags fileBufs fileMaps fileMem fileWorld truncatedFile) ∧
    ¬ CleansUp nulInFlags fileBufs fileMaps fileMem fileWorld longNameCut ∧
    (dvmLoadFileOn nulInFlags fileBufs fileMaps fileMem fileWorld codelessFile.bytes
        = (.failed, ⟨{0x40}, {(0x1000, 1)}⟩) ∧
      ¬ CleansUp nulInFlags fileBufs fileMaps fileMem fileWorld codelessFile.bytes) := by
  refine ⟨fresh_fileWorld, ?_, ?_, ?_⟩
  · have hrun : dvmLoadFileOn nulInFlags fileBufs fileMaps fileMem fileWorld truncatedFile
        = (.failed, ⟨insert 0x10 {0x40}, ∅⟩) := rfl
    exact ⟨hrun, fun h => absurd (congrArg World.heap (h.failed _ hrun)) (by decide)⟩
  · have hcut : (match dvmReadOn nulInFlags longNameCut with
        | .ok _ _ => true
        | .error _ _ => false) = false := by decide +kernel
    intro h
    cases hread : dvmReadHeapOn nulInFlags fileBufs ⟨longNameCut, { heap := fileWorld.heap }⟩ with
    | ok u s' =>
      obtain ⟨-, file, hfile, -⟩ := dvmReadHeapOn_ok hread
      rw [hfile, dvmReadOn_bytes] at hcut
      cases hcut
    | error e s' =>
      exact (cleansUp_iff_of_error fresh_fileWorld fileMem hread).mp h
        ⟨rfl, 0, [7], _, by decide, rfl⟩
  · have hf : codelessFile.bytes = codelessFile.bytes ++ [] := (List.append_nil _).symm
    have hread : Readable codelessFile.bytes := ⟨codelessFile, [], hf⟩
    have hgiven : fileBufs.Given := ⟨rfl, rfl, rfl⟩
    obtain ⟨s', hs'⟩ := exists_dvmReadHeapOn_ok nulInFlags hgiven hread fileWorld.heap
    obtain ⟨-, file, hfile, hprog⟩ := dvmReadHeapOn_ok hs'
    have hempty : s'.out.prog = codelessFile.prog nulInFlags :=
      hprog.trans (prog_eq_of_bytes hf hfile nulInFlags)
    have hcode : (codelessFile.prog nulInFlags).code.length = 0 := rfl
    have hmaps : mapSection (mapSection fileWorld.maps fileMaps.cnst
        (codelessFile.prog nulInFlags).cnst) fileMaps.data (codelessFile.prog nulInFlags).data
          = {(0x1000, 1)} := by decide
    have hrun := dvmLoadFileOn_of_ok fresh_fileWorld fileMem hs'
    rw [hempty, dvmLoad, if_pos hcode, dvmLoadMapped, if_pos hcode, hmaps] at hrun
    exact ⟨hrun, fun h => absurd (congrArg World.maps (h.failed _ hrun)) (by decide)⟩

end Dvm
