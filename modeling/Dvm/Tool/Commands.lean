/-
# The commands of the tool

`dvm asm`, `dvm link`, `dvm run` and `dvm dump`, as `main.c` reads their command lines, on the
files that there are.  A command that may change a file ends in a call of `dvm_write_file`, and
its status is then what that reports; `ToolEnd` says how a command ends otherwise.

`dvm_write_file` opens its file before it writes, and looks at what the writes return but not at
what `fclose` does, so a disk can take a part of a file and report success (`Files.Disk`).
-/
import Dvm.Base.Files
import Dvm.Asm.Compile
import Dvm.Link.Defs
import Dvm.LoadFile
import Dvm.Vm.Entry

namespace Dvm

open Bytes ByteMem FileRead Files Loops Runs

/-- The files of the host, by path. -/
abbrev HostFiles := Store CStr Byte

/-! ## 1. Files that are read -/

/-- `read_file`.  Of an empty file `fread` returns 0, which is taken for an error. -/
def readFile (fs : HostFiles) (path : CStr) : Option (List Byte) :=
  (fs path).filter fun f => f ≠ []

/-- `dvm_read_file`; the message about a file that cannot be opened is the host's. -/
def dvmReadFile (fs : HostFiles) (path : CStr) : Except ReadStop DvmProg :=
  match fs path with
  | none => .error .short
  | some f =>
    match dvmRead f with
    | .ok () s => .ok s.out
    | .error e _ => .error e

/-! ## 2. The commands -/

/-- How a command ends. -/
inductive ToolEnd where
  /-- With a status, and without having opened a file for writing. -/
  | exits (status : Nat)
  /-- In `dvm_write_file`. -/
  | writes (path : CStr) (prog : DvmProg)
  /-- In `cmd_run`. -/
  | runs (path : CStr)
  /-- It stores outside an array. -/
  | overrun

/-- `cmd_asm`.  The assembler may return 0 or exit; the status is 1 either way. -/
def cmdAsm (env : AsmEnv) (fs : HostFiles) (argv : List CStr) : ToolEnd :=
  match argv with
  | [] => .exits 1
  | srcPath :: rest =>
    match readFile fs srcPath with
    | none => .exits 1
    | some src =>
      match asmCompile env src with
      | .error .overrun => .overrun
      | .error _ => .exits 1
      | .ok ctx => .writes (rest.headD (lit "out.dvm")) (asmToProg ctx)

/-- The locals that the argument loop of `cmd_link` fills. -/
structure LinkArgs where
  outPath : CStr := lit "out.dvm"
  entrySym : Option CStr := none
  inputs : List CStr := []
  deriving DecidableEq

/-- The elements of the array `inputs`. -/
def maxInputs : Nat := 64

/-- The argument loop of `cmd_link`; `none` is a store behind the array of the inputs.  An option
at the end, without its argument, is passed over. -/
def linkArgs (a : LinkArgs) : List CStr → Option LinkArgs
  | [] => some a
  | [x] =>
    if x = lit "-o" ∨ x = lit "--entry" then some a
    else if a.inputs.length < maxInputs then some { a with inputs := a.inputs ++ [x] } else none
  | x :: y :: rest =>
    if x = lit "-o" then linkArgs { a with outPath := y } rest
    else if x = lit "--entry" then linkArgs { a with entrySym := some y } rest
    else if a.inputs.length < maxInputs then
      linkArgs { a with inputs := a.inputs ++ [x] } (y :: rest)
    else none

/-- `dvm_link_files`: all inputs are read before the output is opened. -/
def dvmLinkFiles (fs : HostFiles) (objPaths : List CStr) (outPath : CStr)
    (entrySym : Option CStr) : ToolEnd :=
  match each (dvmReadFile fs) objPaths with
  | .error .overrun => .overrun
  | .error _ => .exits 1
  | .ok objs =>
    match dvmLink objs entrySym with
    | .error _ => .exits 1
    | .ok linked => .writes outPath linked

/-- `cmd_link`. -/
def cmdLink (fs : HostFiles) (argv : List CStr) : ToolEnd :=
  match linkArgs {} argv with
  | none => .overrun
  | some a => if a.inputs = [] then .exits 1 else dvmLinkFiles fs a.inputs a.outPath a.entrySym

/-- `cmd_dump`, without what it prints. -/
def cmdDump (fs : HostFiles) (path : CStr) : ToolEnd :=
  match dvmReadFile fs path with
  | .error .overrun => .overrun
  | .error _ => .exits 1
  | .ok _ => .exits 0

/-- `main`.  `usage` exits with status 1. -/
def toolMain (env : AsmEnv) (fs : HostFiles) (argv : List CStr) : ToolEnd :=
  match argv with
  | _ :: cmd :: arg :: rest =>
    if cmd = lit "asm" then cmdAsm env fs (arg :: rest)
    else if cmd = lit "link" then cmdLink fs (arg :: rest)
    else if cmd = lit "run" then .runs arg
    else if cmd = lit "dump" then cmdDump fs arg
    else .exits 1
  | _ => .exits 1

/-- `cmd_run` up to `vm_run`: the thread it starts and the memory that thread finds.  `none` if
the file is not there or is not loaded. -/
def cmdRunFile (bufs : SecPtrs) (maps : LoadMaps) (m : Mem) (w : World) (vmStack : Word)
    (fs : HostFiles) (path : CStr) : Option (VMThread × Mem) :=
  match fs path with
  | none => none
  | some f =>
    match (dvmLoadFile bufs maps m w f).1 with
    | .loaded l m' => (cmdRun vmStack l).map fun t => (t, m')
    | _ => none

/-! ## 3. The command line of `dvm link` -/

/-- What stands on the command line of `dvm link`. -/
inductive LinkItem where
  | input (path : CStr)
  | out (path : CStr)
  | entry (sym : CStr)

def LinkItem.text : LinkItem → List CStr
  | .input path => [path]
  | .out path => [lit "-o", path]
  | .entry sym => [lit "--entry", sym]

/-- An input is not taken for an option. -/
def LinkItem.Plain : LinkItem → Prop
  | .input path => path ≠ lit "-o" ∧ path ≠ lit "--entry"
  | _ => True

def LinkArgs.give (a : LinkArgs) : LinkItem → LinkArgs
  | .input path => { a with inputs := a.inputs ++ [path] }
  | .out path => { a with outPath := path }
  | .entry sym => { a with entrySym := some sym }

def LinkItem.path : LinkItem → Option CStr
  | .input path => some path
  | _ => none

/-- The inputs among the items. -/
def linkInputs (items : List LinkItem) : List CStr := items.filterMap LinkItem.path

theorem linkArgs_out (a : LinkArgs) (path : CStr) (rest : List CStr) :
    linkArgs a (lit "-o" :: path :: rest) = linkArgs { a with outPath := path } rest := by
  rw [linkArgs, if_pos rfl]

theorem linkArgs_entry (a : LinkArgs) (sym : CStr) (rest : List CStr) :
    linkArgs a (lit "--entry" :: sym :: rest) = linkArgs { a with entrySym := some sym } rest := by
  have hne : lit "--entry" ≠ lit "-o" := by decide
  rw [linkArgs, if_neg hne, if_pos rfl]

theorem linkArgs_input (a : LinkArgs) {path : CStr} (h : (LinkItem.input path).Plain)
    (rest : List CStr) : linkArgs a (path :: rest) =
      if a.inputs.length < maxInputs then linkArgs { a with inputs := a.inputs ++ [path] } rest
      else none := by
  have hnone : ¬ (path = lit "-o" ∨ path = lit "--entry") := not_or.mpr h
  cases rest with
  | nil => exact if_neg hnone
  | cons x rest => rw [linkArgs, if_neg h.1, if_neg h.2]

/-- The items in any order: the inputs in theirs, of the options the last ones; or more inputs
than the array holds. -/
theorem linkArgs_items {items : List LinkItem} (h : ∀ i ∈ items, i.Plain) {a : LinkArgs}
    (ha : a.inputs.length ≤ maxInputs) :
    linkArgs a (items.flatMap LinkItem.text) =
      if a.inputs.length + (linkInputs items).length ≤ maxInputs then
        some (items.foldl LinkArgs.give a)
      else none := by
  induction items generalizing a with
  | nil => exact (if_pos ha).symm
  | cons i items ih =>
    obtain ⟨hi, hitems⟩ := List.forall_mem_cons.mp h
    rw [List.flatMap_cons, List.foldl_cons]
    cases i with
    | out path =>
      exact (linkArgs_out a path _).trans (ih hitems ha)
    | entry sym =>
      exact (linkArgs_entry a sym _).trans (ih hitems ha)
    | input path =>
      refine (linkArgs_input a hi (items.flatMap LinkItem.text)).trans ?_
      have hlen : (linkInputs (.input path :: items)).length = (linkInputs items).length + 1 := rfl
      have hadd : (a.inputs ++ [path]).length = a.inputs.length + 1 := List.length_append
      split
      · next hlt =>
        rw [ih hitems (hadd.trans_le hlt), hadd, hlen, Nat.add_right_comm, Nat.add_assoc]
        rfl
      · next hge => rw [if_neg (by omega)]

/-! ## 4. Commands one after the other -/

/-- A call of the tool: its arguments, and what the assembler finds in its environment. -/
structure ToolCall where
  env : AsmEnv
  argv : List CStr

/-- What a call asks the disk for.  A command that stores outside an array does nothing that can
be relied on; of `dvm run`, what happens to the files is up to the guest. -/
def ToolDoes (c : ToolCall) (fs : HostFiles) (asks : Option (CStr × DvmProg)) : Prop :=
  match toolMain c.env fs c.argv with
  | .exits _ => asks = none
  | .writes path prog => asks = some (path, prog)
  | .runs _ => False
  | .overrun => False

abbrev ToolEvent := Files.Event ToolCall CStr DvmProg

abbrev ToolStep : HostFiles → ToolEvent → HostFiles → Prop := Files.Step ToolDoes dvmWrite

/-- Calls of the tool one after the other, `dvm run` apart. -/
abbrev ToolRun := Run ToolStep

/-- The files a call opens for reading. -/
def toolInputs (argv : List CStr) : List CStr :=
  match argv with
  | _ :: cmd :: arg :: rest =>
    if cmd = lit "link" then ((linkArgs {} (arg :: rest)).map LinkArgs.inputs).getD [] else [arg]
  | _ => []

def ToolCall.reads (c : ToolCall) (path : CStr) : Prop := path ∈ toolInputs c.argv

/-- A call looks at no other files. -/
theorem looksAt_toolInputs : LooksAt ToolDoes ToolCall.reads := by
  have hread : ∀ {fs fs' : HostFiles} {path : CStr}, fs path = fs' path →
      dvmReadFile fs path = dvmReadFile fs' path := by
    intro fs fs' path h
    rw [dvmReadFile, dvmReadFile, h]
  intro c fs fs' asks hsame hdoes
  have hmain : toolMain c.env fs' c.argv = toolMain c.env fs c.argv := by
    obtain ⟨env, argv⟩ := c
    match argv, hsame with
    | [], _ => rfl
    | [_], _ => rfl
    | [_, _], _ => rfl
    | _ :: cmd :: arg :: rest, hsame =>
      simp only [ToolCall.reads, toolInputs] at hsame
      unfold toolMain
      by_cases hlink : cmd = lit "link"
      · have hne : lit "link" ≠ lit "asm" := by decide
        subst hlink
        simp only [if_neg hne, if_true] at hsame ⊢
        unfold cmdLink
        cases ha : linkArgs {} (arg :: rest) with
        | none => rfl
        | some a =>
          rw [ha] at hsame
          have hmap : each (dvmReadFile fs') a.inputs = each (dvmReadFile fs) a.inputs :=
            each_congr fun path hpath => (hread (hsame path hpath)).symm
          simp only [dvmLinkFiles, hmap]
      · have harg : fs arg = fs' arg := by
          simp only [if_neg hlink] at hsame
          exact hsame arg (List.mem_singleton_self arg)
        simp only [if_neg hlink, cmdAsm, readFile, cmdDump, hread harg, harg]
  rwa [ToolDoes, hmain]

end Dvm
