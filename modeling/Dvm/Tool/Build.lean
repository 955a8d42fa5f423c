/-
# From sources to a run, through files

A build is a run of commands in which every input of a `dvm link` was last written as the object
of an accepted source.  Other commands may stand between, and the disk may refuse or cut off what
it likes, with or without saying so: what the last command wrote there is what a reader accepts,
or it accepts nothing (`files_after_run`).  So `dvm run` does what the listing of the sources does,
if it loads anything at all (`build_runs`).

Assemblies that do not name one another's files can be done in any order (`calls_any_order`).
-/
import Dvm.Tool.Fits

namespace Dvm

open Bytes ByteMem FileRead Files Loops Runs

/-! ## 1. What a call writes -/

section Calls

variable {c : ToolCall} {fs fs' : HostFiles} {es : List ToolEvent} {path : CStr} {p : DvmProg}

theorem toolMain_of_does (h : ToolDoes c fs (some (path, p))) :
    toolMain c.env fs c.argv = .writes path p := by
  unfold ToolDoes at h
  split at h
  · cases h
  · next hmain =>
    cases h
    exact hmain
  · cases h
  · cases h

theorem does_of_toolMain {c : ToolCall} {fs : HostFiles} {path : CStr} {p : DvmProg}
    (h : toolMain c.env fs c.argv = .writes path p) : ToolDoes c fs (some (path, p)) := by
  rw [ToolDoes, h]

/-- What `dvm asm` writes is the object of its source. -/
theorem source_of_cmdAsm {env : AsmEnv} {argv : List CStr}
    (h : cmdAsm env fs argv = .writes path p) :
    ∃ srcPath rest src, argv = srcPath :: rest ∧ readFile fs srcPath = some src ∧
      path = rest.headD (lit "out.dvm") ∧
        ∃ u : Assembly, u.env = env ∧ u.src = src ∧ p = u.obj := by
  unfold cmdAsm at h
  split at h
  · cases h
  · next srcPath rest =>
    split at h
    · cases h
    · next src hsrc =>
      split at h
      · cases h
      · cases h
      · next ctx hctx =>
        obtain ⟨rfl, rfl⟩ := ToolEnd.writes.inj h
        exact ⟨srcPath, rest, src, rfl, hsrc, rfl, ⟨env, src, ctx, hctx⟩, rfl, rfl, rfl⟩

/-- What `dvm link` writes is the link of the programs it read. -/
theorem objects_of_cmdLink {argv : List CStr} (h : cmdLink fs argv = .writes path p) :
    ∃ a objs, linkArgs {} argv = some a ∧ path = a.outPath ∧
      List.Forall₂ (fun x o => dvmReadFile fs x = .ok o) a.inputs objs ∧
      dvmLink objs a.entrySym = .ok p := by
  unfold cmdLink at h
  split at h
  · cases h
  · next a ha =>
    split at h
    · cases h
    · unfold dvmLinkFiles at h
      split at h
      · cases h
      · cases h
      · next objs hobjs =>
        split at h
        · cases h
        · next linked hlink =>
          obtain ⟨rfl, rfl⟩ := ToolEnd.writes.inj h
          exact ⟨a, objs, ha, rfl, each_ok_iff_forall₂.mp hobjs, hlink⟩

/-- Only `dvm asm` and `dvm link` write. -/
theorem writer_of_toolMain {env : AsmEnv} {argv : List CStr}
    (h : toolMain env fs argv = .writes path p) :
    ∃ prog rest, (argv = prog :: lit "asm" :: rest ∧ cmdAsm env fs rest = .writes path p) ∨
      (argv = prog :: lit "link" :: rest ∧ cmdLink fs rest = .writes path p) := by
  unfold toolMain at h
  split at h
  · next prog cmd arg rest =>
    split at h
    · next hcmd => exact ⟨prog, arg :: rest, .inl ⟨by rw [hcmd], h⟩⟩
    · split at h
      · next hcmd => exact ⟨prog, arg :: rest, .inr ⟨by rw [hcmd], h⟩⟩
      · split at h
        · cases h
        · split at h
          · unfold cmdDump at h
            split at h <;> cases h
          · cases h
  · cases h

/-- What a call asks to be written fits the format, unless its sections are too long. -/
theorem fitsFormat_of_does (h : ToolDoes c fs (some (path, p))) (hfits : SizesFit p) :
    p.FitsFormat := by
  obtain ⟨prog, rest, ⟨-, hasm⟩ | ⟨-, hlink⟩⟩ := writer_of_toolMain (toolMain_of_does h)
  · obtain ⟨-, -, -, -, -, -, u, -, -, rfl⟩ := source_of_cmdAsm hasm
    exact u.fitsFormat
  · obtain ⟨a, objs, -, -, hread, hlink⟩ := objects_of_cmdLink hlink
    refine fitsFormat_of_link hlink (fun o ho => ?_) hfits
    obtain ⟨hlen, hall⟩ := List.forall₂_iff_get.mp hread
    obtain ⟨i, hi, rfl⟩ := List.getElem_of_mem ho
    obtain ⟨f, -, hf⟩ := dvmReadFile_ok_iff.mp (hall i (hlen ▸ hi) hi)
    exact fitsFormat_of_readProg hf

end Calls

/-! ## 2. The files after a run -/

/-- After any run of commands, whatever the disk does: a file that nothing was written to is as it
was; one that a program was written to last is a beginning of that program's file, and is accepted
by the reader only if it is the whole of it, as that program.  A command that overruns a buffer is
no step of a run (`ToolDoes`). -/
theorem files_after_run {fs fs' : HostFiles} {es : List ToolEvent} (run : ToolRun fs es fs')
    (path : CStr) :
    (lastPut path es = none → fs' path = fs path) ∧
      ∀ p, lastPut path es = some p → SizesFit p →
        ∃ f, fs' path = some f ∧ f <+: dvmWrite p ∧
          ∀ q, readProg f = some q ↔ f = dvmWrite p ∧ q = p.asRead := by
  refine ⟨Run.of_unwritten run, fun p hlast hfits => ?_⟩
  obtain ⟨n, hfile⟩ := Run.of_last run hlast
  obtain ⟨c, fs₁, hdoes⟩ := Run.does_of_last run hlast
  have hformat := fitsFormat_of_does hdoes hfits
  refine ⟨_, hfile, List.take_prefix _ _, fun q => ⟨sealed_format.of_take hformat, ?_⟩⟩
  rintro ⟨hall, rfl⟩
  rw [hall]
  exact sealed_format.whole p hformat

/-! ## 3. Calls in another order -/

/-- The file a call may open for writing. -/
def toolOutput (argv : List CStr) : Option CStr :=
  match argv with
  | _ :: cmd :: arg :: rest =>
    if cmd = lit "asm" then some (rest.headD (lit "out.dvm"))
    else if cmd = lit "link" then (linkArgs {} (arg :: rest)).map LinkArgs.outPath
    else none
  | _ => none

/-- Neither call names a file that the other one writes. -/
structure CallsApart (c c' : ToolCall) : Prop where
  left : ∀ path, toolOutput c.argv = some path → path ∉ toolInputs c'.argv
  right : ∀ path, toolOutput c'.argv = some path → path ∉ toolInputs c.argv
  outs : ∀ path, toolOutput c.argv = some path → toolOutput c'.argv ≠ some path

theorem toolOutput_of_does {c : ToolCall} {fs : HostFiles} {path : CStr} {p : DvmProg}
    (h : ToolDoes c fs (some (path, p))) : toolOutput c.argv = some path := by
  obtain ⟨prog, rest, ⟨hargv, hasm⟩ | ⟨hargv, hlink⟩⟩ := writer_of_toolMain (toolMain_of_does h)
  · obtain ⟨srcPath, outs, src, rfl, -, rfl, -⟩ := source_of_cmdAsm hasm
    rw [hargv, toolOutput, if_pos rfl]
  · obtain ⟨a, objs, ha, rfl, -⟩ := objects_of_cmdLink hlink
    have hne : lit "link" ≠ lit "asm" := by decide
    rw [hargv]
    cases rest with
    | nil => cases hlink
    | cons arg rest =>
      rw [toolOutput, if_neg hne, if_pos rfl, ha]
      rfl

/-- Calls of which none names a file that another one writes lead to the same files, with the
same answers of the disk, in any order. -/
theorem calls_any_order {fs fs' : HostFiles} {es es' : List ToolEvent} (run : ToolRun fs es fs')
    (hapart : es.Pairwise fun e e' => CallsApart e.cmd e'.cmd) (hperm : es.Perm es') :
    ToolRun fs es' fs' := by
  refine Run.perm looksAt_toolInputs hperm ?_ run
  have hout : ∀ e ∈ es, ∀ path, e.Out path → toolOutput e.cmd.argv = some path := by
    rintro e he path ⟨p, hasks⟩
    obtain ⟨fs₁, hdoes⟩ := Run.does_of_mem run he
    exact toolOutput_of_does (hasks ▸ hdoes)
  refine hapart.imp_of_mem fun {e e'} he he' h => ⟨?_, ?_, ?_⟩
  · exact fun path ho => h.left path (hout e he path ho)
  · exact fun path ho => h.right path (hout e' he' path ho)
  · exact fun path ho ho' => h.outs path (hout e he path ho) (hout e' he' path ho')

/-! ## 4. Linking what was read -/

/-- The linker does not look at `has_entry`. -/
theorem dvmLink_asRead (objs : List DvmProg) (entrySym : Option CStr) :
    dvmLink (objs.map DvmProg.asRead) entrySym = dvmLink objs entrySym := by
  have hbases : ∀ (os : List DvmProg) (b : ObjBases),
      withBases b (os.map DvmProg.asRead) = (withBases b os).map (Prod.map id DvmProg.asRead) := by
    intro os
    induction os with
    | nil => exact fun b => rfl
    | cons o os ih => exact fun b => congrArg _ (ih (b.advance o))
  have hdefine : definePass (withBases {} (objs.map DvmProg.asRead))
      = definePass (withBases {} objs) := by
    rw [hbases, definePass, scan_map]
    rfl
  have hresolve : ∀ ms maps, resolvePass ms ((objs.map DvmProg.asRead).zip maps)
      = resolvePass ms (objs.zip maps) := by
    intro ms maps
    rw [List.zip_map_left, resolvePass, each_map]
    rfl
  have hremap : ∀ maps : List SymMap,
      remapPass ((withBases {} (objs.map DvmProg.asRead)).zip maps)
        = remapPass ((withBases {} objs).zip maps) := by
    intro maps
    rw [hbases, List.zip_map_left, remapPass, List.foldlM_map]
    rfl
  have hout : ∀ ms rels, linkOutput (objs.map DvmProg.asRead) entrySym ms rels
      = linkOutput objs entrySym ms rels := by
    intro ms rels
    simp only [linkOutput, List.flatMap_map]
    rfl
  simp only [dvmLink, hdefine, hresolve, hremap, hout]

/-- Neither does the loader. -/
theorem dvmLoad_asRead (maps : LoadMaps) (m : Mem) (p : DvmProg) :
    dvmLoad maps m p.asRead = dvmLoad maps m p := rfl

/-- The argument loop does not leave the array of the inputs. -/
theorem length_inputs {a b : LinkArgs} {argv : List CStr} (h : linkArgs a argv = some b)
    (ha : a.inputs.length ≤ maxInputs) : b.inputs.length ≤ maxInputs := by
  have hadd : ∀ (xs : List CStr) (x : CStr), xs.length < maxInputs →
      (xs ++ [x]).length ≤ maxInputs := by
    intro xs x hlt
    rw [List.length_append]
    exact hlt
  fun_induction linkArgs a argv with
  | case1 a => exact Option.some.inj h ▸ ha
  | case2 a x _ => exact Option.some.inj h ▸ ha
  | case3 a x _ hlt => exact Option.some.inj h ▸ hadd _ x hlt
  | case4 => cases h
  | case5 a y rest ih => exact ih h ha
  | case6 a y rest _ ih => exact ih h ha
  | case7 a x y rest _ _ hlt ih => exact ih h (hadd _ x hlt)
  | case8 => cases h

/-! ## 5. Builds -/

/-- In a run `before ++ link :: after`, the link is one of the objects of the sources `us`, and its
output is left alone afterwards. -/
structure Builds (before : List ToolEvent) (link : ToolEvent) (after : List ToolEvent)
    (us : List Assembly) (args : LinkArgs) : Prop where
  call : ∃ prog rest, link.cmd.argv = prog :: lit "link" :: rest ∧ linkArgs {} rest = some args
  inputs : List.Forall₂ (fun path u => lastPut path before = some (Assembly.obj u)) args.inputs us
  wrote : ∃ p, link.puts args.outPath = some p
  kept : lastPut args.outPath after = none

theorem length_flatMap_le {α β : Type} {g : α → List β} {n : Nat} {as : List α}
    (h : ∀ a ∈ as, (g a).length ≤ n) : (as.flatMap g).length ≤ as.length * n := by
  induction as with
  | nil => exact Nat.zero_le _
  | cons a as ih =>
    obtain ⟨ha, has⟩ := List.forall_mem_cons.mp h
    have hrest := ih has
    rw [List.flatMap_cons, List.length_append, List.length_cons, Nat.succ_mul]
    omega

theorem Assembly.sizesFit (u : Assembly) : SizesFit u.obj :=
  ⟨u.fitsFormat.code, u.fitsFormat.cnst, u.fitsFormat.data⟩

/-- The sections of at most 64 objects can be written one behind the other. -/
theorem sizesFit_of_few {us : List Assembly} {entrySym : Option CStr} {out : DvmProg}
    (hlink : dvmLink (objects us) entrySym = .ok out) (hfew : us.length ≤ maxInputs) :
    SizesFit out := by
  obtain ⟨ms, defMaps, maps, rels, -, -, -, rfl⟩ := dvmLink_ok_iff.mp hlink
  have hlen : (objects us).length ≤ maxInputs := (List.length_map _).trans_le hfew
  have hsum : ∀ g : DvmProg → List Byte, (∀ u : Assembly, (g u.obj).length ≤ dvmBufMax) →
      ((objects us).flatMap g).length < 2 ^ 32 := by
    intro g hg
    have hall : ∀ o ∈ objects us, (g o).length ≤ dvmBufMax := by
      intro o ho
      obtain ⟨u, -, rfl⟩ := List.mem_map.mp ho
      exact hg u
    have hmul := (length_flatMap_le hall).trans (Nat.mul_le_mul_right dvmBufMax hlen)
    exact hmul.trans_lt (by decide)
  exact ⟨hsum _ fun u => u.ctx.text.fits, hsum _ fun u => u.ctx.cnst.fits,
    hsum _ fun u => u.ctx.data.fits⟩

section Build

variable {fs fs' : HostFiles} {before after : List ToolEvent} {link : ToolEvent}
  {us : List Assembly} {args : LinkArgs}

/-- What the link read are the objects: an object that was cut off would not have been read. -/
theorem objects_of_read {paths : List CStr} {objs : List DvmProg} (run : ToolRun fs before fs')
    (hlast : List.Forall₂ (fun path u => lastPut path before = some (Assembly.obj u)) paths us)
    (hread : List.Forall₂ (fun path o => dvmReadFile fs' path = .ok o) paths objs) :
    objs = (objects us).map DvmProg.asRead := by
  induction hlast generalizing objs with
  | nil =>
    obtain rfl := List.forall₂_nil_left_iff.mp hread
    rfl
  | @cons path u paths us hu _ ih =>
    obtain ⟨o, os, ho, hos, rfl⟩ := List.forall₂_cons_left_iff.mp hread
    obtain ⟨f, hfile, hprog⟩ := dvmReadFile_ok_iff.mp ho
    have hwhole := sealed_format.read_last run hu u.fitsFormat hfile hprog
    rw [hwhole.2, ih hos]
    rfl

/-- A build writes the link of the objects. -/
theorem Builds.linked (h : Builds before link after us args)
    (run : ToolRun fs (before ++ link :: after) fs') :
    ∃ out, dvmLink (objects us) args.entrySym = .ok out ∧ SizesFit out ∧
      lastPut args.outPath (before ++ link :: after) = some out := by
  obtain ⟨fs₁, hbefore, hrest⟩ := run.split
  obtain ⟨fs₂, hstep, -⟩ := hrest.head
  obtain ⟨out, hput⟩ := h.wrote
  obtain ⟨prog, rest, hargv, hargs⟩ := h.call
  have hmain := toolMain_of_does (asks_of_puts hput ▸ hstep.1)
  have hcall : cmdLink fs₁ rest = .writes args.outPath out := by
    obtain ⟨prog', rest', ⟨hasm, -⟩ | ⟨hlink, hwrites⟩⟩ := writer_of_toolMain hmain
    · have hne : lit "link" ≠ lit "asm" := by decide
      rw [hargv] at hasm
      injection hasm with _ htail
      injection htail with hcmd
      exact absurd hcmd hne
    · rw [hargv] at hlink
      injection hlink with _ htail
      injection htail with _ hrest
      rwa [hrest]
  obtain ⟨a, objs, ha, -, hread, hlink⟩ := objects_of_cmdLink hcall
  obtain rfl : args = a := Option.some.inj (hargs.symm.trans ha)
  rw [objects_of_read hbefore h.inputs hread, dvmLink_asRead] at hlink
  have hfew : us.length ≤ maxInputs :=
    h.inputs.length_eq ▸ length_inputs hargs (Nat.zero_le _)
  refine ⟨out, hlink, sizesFit_of_few hlink hfew, ?_⟩
  have hlast : lastPut args.outPath (link :: after) = some out := by
    rw [lastPut, h.kept, hput]
    rfl
  rw [lastPut_append, hlast]
  rfl

/-- `dvm run` loads what the reader returns. -/
theorem load_of_cmdRunFile {bufs : SecPtrs} {maps : LoadMaps} {m m' : Mem} {w : World}
    {vmStack : Word} {path : CStr} {t : VMThread}
    (h : cmdRunFile bufs maps m w vmStack fs path = some (t, m')) :
    ∃ f p ld, fs path = some f ∧ readProg f = some p ∧ dvmLoad maps m p = .ok (ld, m') ∧
      cmdRun vmStack ld = some t := by
  unfold cmdRunFile at h
  split at h
  · cases h
  · next f hf =>
    split at h
    · next ld m₁ hres =>
      obtain ⟨t', ht', heq⟩ := Option.map_eq_some_iff.mp h
      obtain ⟨rfl, rfl⟩ := Prod.mk.inj heq
      unfold dvmLoadFile dvmLoadFileWith at hres
      split at hres
      · cases hres
      · cases hres
      · next s hread =>
        obtain ⟨-, file, hbytes, hprog⟩ := dvmReadHeap_ok hread
        have hload : (dvmLoadMapped maps m s.out.prog w.maps).1 = .ok (ld, m₁) := by
          dsimp only at hres
          split at hres
          · cases hres
          · next hok =>
            obtain ⟨rfl, rfl⟩ := FileResult.loaded.inj hres
            exact hok
        rw [dvmLoadMapped_fst, hprog] at hload
        refine ⟨f, file.prog, ld, hf, readProg_eq_some_iff.mpr ⟨s.file, ?_⟩, hload, ht'⟩
        exact dvmRead_ok_iff.mpr ⟨file, hbytes, rfl⟩
    · cases h

/-- A build, and then `dvm run` of its output.  If the file is loaded, then whatever the disk did
in the build and whatever else was called, it is the link of the sources' objects that was loaded
and is started; and if that link loses no reference and is entered at its beginning, the run does
what the listing of the sources does. -/
theorem build_runs {bufs : SecPtrs} {maps : LoadMaps} {m m' : Mem} {w : World} {vmStack : Word}
    {t : VMThread}
    (run : ToolRun fs (before ++ link :: after) fs') (hbuild : Builds before link after us args)
    (hload : cmdRunFile bufs maps m w vmStack fs' args.outPath = some (t, m')) :
    ∃ out ld, dvmLink (objects us) args.entrySym = .ok out ∧
      fs' args.outPath = some (dvmWrite out) ∧
      dvmLoad maps m out = .ok (ld, m') ∧ cmdRun vmStack ld = some t ∧
      ∀ prog : List (SymInstr Nat), linkedListing us maps = some prog → RefsKept us out →
        out.entryOffset = 0 →
          t = (listInit t).conc (instrPlace maps.code prog) ∧ RunsListing maps.code prog
            (readBytes m' maps.code out.code.length) (listInit t) m' := by
  obtain ⟨out, hlink, hfits, hlast⟩ := hbuild.linked run
  obtain ⟨f, p, ld, hfile, hprog, hok, hstart⟩ := load_of_cmdRunFile hload
  obtain ⟨c, fs₁, hdoes⟩ := Run.does_of_last run hlast
  obtain ⟨rfl, rfl⟩ :=
    sealed_format.read_last run hlast (fitsFormat_of_does hdoes hfits) hfile hprog
  rw [dvmLoad_asRead] at hok
  refine ⟨out, ld, hlink, hfile, hok, hstart, fun prog hlist hkept hentry => ?_⟩
  have hlaid := linked_laidOut hlink hfits hkept hlist hok
  exact ⟨listInit_of_cmdRun prog hok hentry hstart,
    hlaid.runsListing (textAt_readBytes m' _ _) _⟩

end Build

/-! ## 6. A build that goes through -/

/-- A source file, the file of its object, and the source as it is accepted. -/
structure BuildFile where
  srcPath : CStr
  objPath : CStr
  source : Assembly

/-- `dvm asm src obj`, on a disk that takes everything. -/
def asmCall (x : BuildFile) : ToolEvent where
  cmd := ⟨x.source.env, [lit "dvm", lit "asm", x.srcPath, x.objPath]⟩
  asks := some (x.objPath, x.source.obj)
  disk := .took (dvmWrite x.source.obj).length true

/-- `dvm link` of the objects, with `-o`. -/
def linkCall (xs : List BuildFile) (outPath : CStr) (out : DvmProg) : ToolEvent where
  cmd := ⟨zeroEnv, lit "dvm" :: lit "link" :: (xs.map BuildFile.objPath ++ [lit "-o", outPath])⟩
  asks := some (outPath, out)
  disk := .took (dvmWrite out).length true

/-- The names of a build: no object file is a source file or the file of another object, and none
is called like an option. -/
structure BuildNames (xs : List BuildFile) : Prop where
  some : xs ≠ []
  few : xs.length ≤ maxInputs
  outs : (xs.map BuildFile.objPath).Nodup
  apart : ∀ x ∈ xs, ∀ y ∈ xs, x.objPath ≠ y.srcPath
  plain : ∀ x ∈ xs, (LinkItem.input x.objPath).Plain

/-- The sources are in their files. -/
def SourcesAt (fs : HostFiles) (xs : List BuildFile) : Prop :=
  ∀ x ∈ xs, fs x.srcPath = some x.source.src ∧ x.source.src ≠ []

theorem toolMain_asm {fs : HostFiles} {x : BuildFile} (hfile : fs x.srcPath = some x.source.src)
    (hne : x.source.src ≠ []) :
    toolMain x.source.env fs [lit "dvm", lit "asm", x.srcPath, x.objPath]
      = .writes x.objPath x.source.obj := by
  have hread : readFile fs x.srcPath = some x.source.src := by
    rw [readFile, hfile, Option.filter_some, decide_eq_true hne]
    rfl
  rw [toolMain, if_pos rfl, cmdAsm, hread]
  dsimp only
  rw [x.source.ok]
  rfl

theorem toolMain_link {env : AsmEnv} {fs : HostFiles} {prog : CStr} {argv : List CStr}
    {a : LinkArgs} {objs : List DvmProg} {out : DvmProg} (hargs : linkArgs {} argv = some a)
    (hinputs : a.inputs ≠ [])
    (hread : List.Forall₂ (fun path o => dvmReadFile fs path = .ok o) a.inputs objs)
    (hlink : dvmLink objs a.entrySym = .ok out) :
    toolMain env fs (prog :: lit "link" :: argv) = .writes a.outPath out := by
  have hne : lit "link" ≠ lit "asm" := by decide
  cases argv with
  | nil =>
    obtain rfl := Option.some.inj hargs
    exact absurd rfl hinputs
  | cons arg rest =>
    rw [toolMain, if_neg hne, if_pos rfl, cmdLink, hargs]
    dsimp only
    rw [if_neg hinputs, dvmLinkFiles, each_ok_iff_forall₂.mpr hread]
    dsimp only
    rw [hlink]

theorem linkArgs_linkCall {xs : List BuildFile} (h : BuildNames xs) (outPath : CStr) :
    linkArgs {} (xs.map BuildFile.objPath ++ [lit "-o", outPath])
      = some { outPath := outPath, inputs := xs.map BuildFile.objPath } := by
  let items := xs.map (fun x => LinkItem.input x.objPath) ++ [LinkItem.out outPath]
  have htext : items.flatMap LinkItem.text
      = xs.map BuildFile.objPath ++ [lit "-o", outPath] := by
    rw [List.flatMap_append, List.flatMap_map]
    congr 1
    exact (List.map_eq_flatMap ..).symm
  have hinputs : linkInputs items = xs.map BuildFile.objPath := by
    rw [linkInputs, List.filterMap_append, List.filterMap_map]
    exact (List.append_nil _).trans (congrFun List.filterMap_eq_map xs)
  have hplain : ∀ i ∈ items, i.Plain := by
    intro i hi
    rcases List.mem_append.mp hi with hi | hi
    · obtain ⟨x, hx, rfl⟩ := List.mem_map.mp hi
      exact h.plain x hx
    · obtain rfl := List.mem_singleton.mp hi
      trivial
  have hgive : ∀ (ys : List BuildFile) (a : LinkArgs),
      (ys.map fun x => LinkItem.input x.objPath).foldl LinkArgs.give a
        = { a with inputs := a.inputs ++ ys.map BuildFile.objPath } := by
    intro ys
    induction ys with
    | nil =>
      intro a
      show a = { a with inputs := a.inputs ++ [] }
      rw [List.append_nil]
    | cons y ys ih =>
      intro a
      rw [List.map_cons, List.foldl_cons, ih]
      simp [LinkArgs.give]
  have hfew : (linkInputs items).length ≤ maxInputs := by
    rw [hinputs, List.length_map]
    exact h.few
  have hparse := linkArgs_items hplain (a := {}) (Nat.zero_le _)
  rw [htext, if_pos (by simpa using hfew), List.foldl_append, hgive] at hparse
  exact hparse

theorem lastPut_asmCalls_of_not_mem {path : CStr} {xs : List BuildFile}
    (h : path ∉ xs.map BuildFile.objPath) : lastPut path (xs.map asmCall) = none := by
  induction xs with
  | nil => rfl
  | cons x xs ih =>
    rw [List.map_cons, List.mem_cons, not_or] at h
    rw [List.map_cons, lastPut, ih h.2]
    exact if_neg (Ne.symm h.1)

theorem lastPut_asmCalls {xs : List BuildFile} (h : (xs.map BuildFile.objPath).Nodup)
    {x : BuildFile} (hx : x ∈ xs) : lastPut x.objPath (xs.map asmCall) = some x.source.obj := by
  induction xs with
  | nil => cases hx
  | cons y ys ih =>
    rw [List.map_cons, List.nodup_cons] at h
    rw [List.map_cons, lastPut]
    rcases List.mem_cons.mp hx with rfl | hx
    · rw [lastPut_asmCalls_of_not_mem h.1]
      exact if_pos rfl
    · rw [ih h.2 hx]
      rfl

/-- The objects are written one after the other, by induction over them. -/
theorem run_asmCalls {xs : List BuildFile} {fs : HostFiles} (hsrc : SourcesAt fs xs)
    (houts : (xs.map BuildFile.objPath).Nodup)
    (hapart : ∀ x ∈ xs, ∀ y ∈ xs, x.objPath ≠ y.srcPath) :
    ∃ fs', ToolRun fs (xs.map asmCall) fs' ∧
      ∀ x ∈ xs, fs' x.objPath = some (dvmWrite x.source.obj) := by
  induction xs generalizing fs with
  | nil => exact ⟨fs, .start, List.forall_mem_nil _⟩
  | cons x xs ih =>
    obtain ⟨hx, hne⟩ := hsrc x (List.mem_cons_self ..)
    rw [List.map_cons, List.nodup_cons] at houts
    have hafter : (asmCall x).apply dvmWrite fs
        = Function.update fs x.objPath (some (dvmWrite x.source.obj)) := by
      rw [Event.apply_took rfl rfl, List.take_length]
    have hstep : ToolStep fs (asmCall x) ((asmCall x).apply dvmWrite fs) :=
      ⟨does_of_toolMain (toolMain_asm hx hne), rfl⟩
    have hsrc' : SourcesAt ((asmCall x).apply dvmWrite fs) xs := by
      intro y hy
      obtain ⟨hfile, hne'⟩ := hsrc y (List.mem_cons_of_mem _ hy)
      have hkeep := hapart x (List.mem_cons_self ..) y (List.mem_cons_of_mem _ hy)
      rw [hafter, Function.update_of_ne hkeep.symm]
      exact ⟨hfile, hne'⟩
    obtain ⟨fs', hrun, hwhole⟩ := ih hsrc' houts.2 fun y hy z hz =>
      hapart y (List.mem_cons_of_mem _ hy) z (List.mem_cons_of_mem _ hz)
    refine ⟨fs', (Run.single hstep).trans hrun, List.forall_mem_cons.mpr ⟨?_, hwhole⟩⟩
    rw [Run.of_unwritten hrun (lastPut_asmCalls_of_not_mem houts.1), hafter,
      Function.update_self]

/-- On a disk that takes everything, sources that are accepted and objects that can be linked are
built. -/
theorem exists_build {fs : HostFiles} {xs : List BuildFile} {out : DvmProg} (outPath : CStr)
    (hnames : BuildNames xs) (hsrc : SourcesAt fs xs)
    (hlink : dvmLink (objects (xs.map BuildFile.source)) none = .ok out) :
    ∃ fs', ToolRun fs (xs.map asmCall ++ [linkCall xs outPath out]) fs' ∧
      Builds (xs.map asmCall) (linkCall xs outPath out) [] (xs.map BuildFile.source)
        { outPath := outPath, inputs := xs.map BuildFile.objPath } ∧
      fs' outPath = some (dvmWrite out) := by
  obtain ⟨fs₁, hrun, hwhole⟩ := run_asmCalls hsrc hnames.outs hnames.apart
  have hargs := linkArgs_linkCall hnames outPath
  have hread : List.Forall₂ (fun path o => dvmReadFile fs₁ path = .ok o)
      (xs.map BuildFile.objPath) ((objects (xs.map BuildFile.source)).map DvmProg.asRead) := by
    rw [objects, List.map_map, List.map_map, List.forall₂_map_left_iff, List.forall₂_map_right_iff,
      List.forall₂_same]
    intro x hx
    exact dvmReadFile_ok_iff.mpr ⟨_, hwhole x hx, sealed_format.whole _ x.source.fitsFormat⟩
  have hinputs : xs.map BuildFile.objPath ≠ [] := by
    rw [Ne, List.map_eq_nil_iff]
    exact hnames.some
  have hmain : toolMain zeroEnv fs₁ (lit "dvm" :: lit "link" ::
      (xs.map BuildFile.objPath ++ [lit "-o", outPath])) = .writes outPath out :=
    toolMain_link hargs hinputs hread ((dvmLink_asRead _ _).trans hlink)
  refine ⟨_, hrun.next ⟨does_of_toolMain hmain, rfl⟩, ⟨?_, ?_, ?_, rfl⟩, ?_⟩
  · exact ⟨lit "dvm", _, rfl, hargs⟩
  · rw [List.forall₂_map_left_iff, List.forall₂_map_right_iff, List.forall₂_same]
    exact fun x hx => lastPut_asmCalls hnames.outs hx
  · exact ⟨out, if_pos rfl⟩
  · rw [Event.apply_took rfl rfl, List.take_length, Function.update_self]

/-- What was built is loaded, if the program can be. -/
theorem cmdRunFile_of_load {bufs : SecPtrs} {maps : LoadMaps} {m m' : Mem} {w : World}
    {vmStack : Word} {fs : HostFiles} {path : CStr} {p : DvmProg} {ld : DvmLoaded} {t : VMThread}
    (hbufs : bufs.Given) (hfits : p.FitsFormat) (hfile : fs path = some (dvmWrite p))
    (hload : dvmLoad maps m p = .ok (ld, m')) (hrun : cmdRun vmStack ld = some t) :
    cmdRunFile bufs maps m w vmStack fs path = some (t, m') := by
  obtain ⟨rest, hread⟩ := readProg_eq_some_iff.mp (sealed_format.whole p hfits)
  obtain ⟨s, hs, hout⟩ :=
    ((views_dvmReadHeap hbufs).ok_iff (s := ⟨dvmWrite p, { heap := w.heap }⟩)).mp hread
  have hprog : s.out.prog = p.asRead := (congrArg Input.out hout).symm
  have hmapped : (dvmLoadMapped maps m s.out.prog w.maps).1 = .ok (ld, m') := by
    rw [dvmLoadMapped_fst, hprog, dvmLoad_asRead, hload]
  have hres : (dvmLoadFile bufs maps m w (dvmWrite p)).1 = .loaded ld m' := by
    rw [dvmLoadFile, dvmLoadFileWith, hs]
    dsimp only
    rw [hmapped]
  rw [cmdRunFile, hfile]
  dsimp only
  rw [hres]
  dsimp only
  rw [hrun]
  rfl

/-! ## 7. The two sources of `test/asm`, built -/

/-- The files of the build. -/
def entryFiles : List BuildFile :=
  [⟨lit "entry_main.asm", lit "entry_main.dvm",
      Assembly.of zeroEnv entryMainAsm entryMainAsm_accepted⟩,
    ⟨lit "entry_lib.asm", lit "entry_lib.dvm",
      Assembly.of zeroEnv entryLibAsm entryLibAsm_accepted⟩]

/-- The directory before the build. -/
def entryDirectory : HostFiles := fun path =>
  if path = lit "entry_main.asm" then some entryMainAsm
  else if path = lit "entry_lib.asm" then some entryLibAsm
  else none

theorem entryFiles_names : BuildNames entryFiles where
  some := List.cons_ne_nil _ _
  few := by decide
  outs := by decide
  apart := by decide
  plain := by
    rintro x (_ | ⟨_, _ | ⟨_, ⟨⟩⟩⟩)
    · exact ⟨by decide, by decide⟩
    · exact ⟨by decide, by decide⟩

theorem entryDirectory_sources : SourcesAt entryDirectory entryFiles := by
  rintro x (_ | ⟨_, _ | ⟨_, ⟨⟩⟩⟩)
  · exact ⟨rfl, by decide⟩
  · exact ⟨rfl, by decide⟩

/-- The object files do not stand in each other's way. -/
theorem asmCalls_apart {xs : List BuildFile} (houts : (xs.map BuildFile.objPath).Nodup)
    (hapart : ∀ x ∈ xs, ∀ y ∈ xs, x.objPath ≠ y.srcPath) :
    (xs.map asmCall).Pairwise fun e e' => CallsApart e.cmd e'.cmd := by
  have hout : ∀ x, toolOutput (asmCall x).cmd.argv = some x.objPath := by
    intro x
    rw [asmCall, toolOutput, if_pos rfl]
    rfl
  have hin : ∀ x, toolInputs (asmCall x).cmd.argv = [x.srcPath] := by
    intro x
    rw [asmCall, toolInputs, if_neg (by decide)]
  refine List.pairwise_map.mpr ((List.pairwise_map.mp houts).imp_of_mem fun hx hy hne => ?_)
  refine ⟨fun path h => ?_, fun path h => ?_, fun path h h' => ?_⟩
  · obtain rfl := Option.some.inj ((hout _).symm.trans h)
    rw [hin, List.mem_singleton]
    exact hapart _ hx _ hy
  · obtain rfl := Option.some.inj ((hout _).symm.trans h)
    rw [hin, List.mem_singleton]
    exact hapart _ hy _ hx
  · exact hne (Option.some.inj ((hout _).symm.trans (h.trans (h'.symm.trans (hout _)))))

/-- The two sources assembled the other way round. -/
theorem entryFiles_reversed : ∃ fs', ToolRun entryDirectory (entryFiles.map asmCall) fs' ∧
    ToolRun entryDirectory (entryFiles.map asmCall).reverse fs' := by
  obtain ⟨fs', hrun, -⟩ :=
    run_asmCalls entryDirectory_sources entryFiles_names.outs entryFiles_names.apart
  exact ⟨fs', hrun, calls_any_order hrun
    (asmCalls_apart entryFiles_names.outs entryFiles_names.apart) (List.reverse_perm _).symm⟩

/-- The object of the library, of which the disk takes ten bytes and reports success. -/
def cutCall : ToolEvent where
  cmd := ⟨zeroEnv, [lit "dvm", lit "asm", lit "entry_lib.asm", lit "entry_lib.dvm"]⟩
  asks := some (lit "entry_lib.dvm", (Assembly.of zeroEnv entryLibAsm entryLibAsm_accepted).obj)
  disk := .took 10 true

theorem cutCall_unreadable : ∃ fs' f, ToolRun entryDirectory [cutCall] fs' ∧
    fs' (lit "entry_lib.dvm") = some f ∧ readProg f = none := by
  have hmain : toolMain cutCall.cmd.env entryDirectory cutCall.cmd.argv
      = .writes (lit "entry_lib.dvm") (Assembly.of zeroEnv entryLibAsm entryLibAsm_accepted).obj :=
    toolMain_asm (x := ⟨lit "entry_lib.asm", lit "entry_lib.dvm",
      Assembly.of zeroEnv entryLibAsm entryLibAsm_accepted⟩) rfl (by decide)
  have hrun : ToolRun entryDirectory [cutCall] (cutCall.apply dvmWrite entryDirectory) :=
    Run.single ⟨does_of_toolMain hmain, rfl⟩
  have hfits : SizesFit (Assembly.of zeroEnv entryLibAsm entryLibAsm_accepted).obj :=
    (Assembly.of zeroEnv entryLibAsm entryLibAsm_accepted).sizesFit
  obtain ⟨f, hfile, -, hread⟩ := (files_after_run hrun (lit "entry_lib.dvm")).2 _ rfl hfits
  refine ⟨_, f, hrun, hfile, Option.eq_none_iff_forall_ne_some.mpr fun q hq => ?_⟩
  have hcut : f.length ≤ 10 := by
    rw [Event.apply_took rfl rfl, Function.update_self] at hfile
    exact Option.some.inj hfile ▸ List.length_take_le _ _
  have hmagic : dvmMagic.length = 4 := rfl
  have hend : dvmTagEnd.length = 4 := rfl
  have hentr : dvmTagEntr.length = 4 := rfl
  rw [((hread q).mp hq).1, dvmWrite] at hcut
  simp only [List.length_append] at hcut
  omega

theorem entryFiles_run : ∃ fs' out prog ld m' t,
    fs' (lit "out.dvm") = some (dvmWrite out) ∧ prog.length = 11 ∧
      cmdRunFile fileBufs sampleMaps (fun _ => 0) fileWorld 0x8000 fs' (lit "out.dvm")
        = some (t, m') ∧
      dvmLoad sampleMaps (fun _ => 0) out = .ok (ld, m') ∧ cmdRun 0x8000 ld = some t ∧
      RunsListing sampleMaps.code prog (readBytes m' sampleMaps.code out.code.length)
        (listInit t) m' := by
  obtain ⟨out, hlink, hfits, hentry, ld, m', hload⟩ := entrySources_linked
  obtain ⟨prog, hlist, hprog⟩ := entrySources_listing
  obtain ⟨t, hrun⟩ := exists_cmdRun 0x8000 hload
  obtain ⟨fs', hcalls, hbuild, hfile⟩ :=
    exists_build (lit "out.dvm") entryFiles_names entryDirectory_sources hlink
  have hformat : out.FitsFormat := by
    refine fitsFormat_of_link hlink (fun o ho => ?_) hfits
    obtain ⟨u, -, rfl⟩ := List.mem_map.mp ho
    exact u.fitsFormat
  have hstart : cmdRunFile fileBufs sampleMaps (fun _ => 0) fileWorld 0x8000 fs' (lit "out.dvm")
      = some (t, m') := cmdRunFile_of_load ⟨rfl, rfl, rfl⟩ hformat hfile hload hrun
  obtain ⟨out', ld', hlink', hfile', hload', hrun', hruns⟩ := build_runs hcalls hbuild hstart
  obtain rfl : out = out' := Except.ok.inj (hlink.symm.trans hlink')
  exact ⟨fs', out, prog, ld', m', t, hfile, hprog, hstart, hload', hrun',
    (hruns prog hlist (entrySources_kept hlink) hentry).2⟩

end Dvm
