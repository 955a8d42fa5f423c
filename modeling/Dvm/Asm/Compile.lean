/-
# `asm_compile`

The line loop: the source is cut into lines of at most 510 characters, each line is copied to
the line buffer over what the lines before left there, read, and carried out; at the end the
patches are resolved.
-/
import Dvm.Base.Loops
import Dvm.Asm.Parse

namespace Dvm

open Loops

/-- What the assembler takes from its environment: the C library's `strtod`, and what the
512 bytes of the line buffer hold before they are written. -/
structure AsmEnv where
  strtod : Strtod
  lineBuf : List Byte

/-- The environment of the examples: they have no doubles, and the line buffer holds zeros at
first. -/
def zeroEnv : AsmEnv := ⟨fun _ => 0, List.replicate 512 0⟩

/-- The characters one line holds. -/
def lineMax : Nat := 510

/-- The source from inside a line, whose first characters are `line`. -/
def splitLine (line : List Byte) : List Byte → List (List Byte)
  | [] => [line]
  | c :: rest =>
    if c = 0 then [line]
    else if c = ch '\n' then line :: (if rest.headD 0 = 0 then [] else splitLine [] rest)
    else if line.length < lineMax then splitLine (line ++ [c]) rest
    else line :: splitLine [c] rest

/-- The lines of a source, which ends at its NUL. -/
def splitLines (src : List Byte) : List (List Byte) :=
  if src.headD 0 = 0 then [] else splitLine [] src

/-- One line. -/
def asmLine (env : AsmEnv) (st : AsmState) (line : List Byte) : Except AsmStop AsmState :=
  let lineno := st.lineno + 1
  let buf := line ++ 0 :: st.lineBuf.drop (line.length + 1)
  (parseLine env.strtod st.ctx.equs st.cursec lineno buf).foldlM doStmt
    { st with lineno := lineno, lineBuf := buf }

def AsmState.init (env : AsmEnv) : AsmState := ⟨{}, dvmSecCode, 0, env.lineBuf⟩

/-- The context before the first line. -/
abbrev AsmCtx.init : AsmCtx := {}

def asmCompile (env : AsmEnv) (src : List Byte) : Except AsmStop AsmCtx :=
  match (splitLines src).foldlM (asmLine env) (.init env) with
  | .error e => .error e
  | .ok st => patchesResolve st.ctx

end Dvm
