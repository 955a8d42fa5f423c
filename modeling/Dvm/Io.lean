/-
# Writing and reading `.dvm` files

`dvmWrite` and `dvmRead` are the two hand-written walks of `dvm_io.c` over the tagged layout of
`dvm_fmt.h`.  The writer is modelled on a stream that takes every byte, the reader on one with
arbitrary contents; `malloc` is taken to succeed.

The reader keeps the record as far as it was filled when it gives up, as the source does.  A
symbol name is read into `char name[64]` with a length byte from the file.  Where the bytes
stored, the NUL included, do not fit that array the C program has no defined behaviour, and
the model stops with `overrun`.

What the reader accepts is in `Dvm.File.Format`.
-/
import Dvm.Base.FileRead
import Dvm.Fmt

namespace Dvm

open Bytes FileRead

/-! ## 1. Write -/

def dvmMagic : List Byte := [0x64, 0x76, 0x6d, 0x40]
def dvmTagCnst : List Byte := lit "CNST"
def dvmTagData : List Byte := lit "DATA"
def dvmTagCode : List Byte := lit "CODE"
def dvmTagEntr : List Byte := lit "ENTR"
def dvmTagSyms : List Byte := lit "SYMS"
def dvmTagRels : List Byte := lit "RELS"
def dvmTagEnd : List Byte := lit "END" ++ [0]

def fwU8 (v : Byte) : List Byte := [v]
def fwU32 (v : BitVec 32) : List Byte := le 4 v.toNat

/-- Tag, length as a `uint32_t`, contents. -/
def fwSec (tag d : List Byte) : List Byte := tag ++ (fwU32 (BitVec.ofNat 32 d.length) ++ d)

/-- One symbol record; `nl` is `(uint8_t)strlen(s->name)`. -/
def fwSym (s : DvmSym) : List Byte :=
  let nl : Byte := BitVec.ofNat 8 s.name.length
  fwU8 s.flags ++ (fwU8 s.sec ++ (fwU32 s.offset ++ (fwU8 nl ++ s.name.take nl.toNat)))

/-- One relocation record. -/
def fwRel (r : DvmRel) : List Byte :=
  fwU32 r.codeOffset ++ (fwU32 r.symIndex ++ fwU8 r.kind)

/-- The bytes `dvm_write` writes for a program. -/
def dvmWrite (p : DvmProg) : List Byte :=
  dvmMagic ++ (dvmTagEntr ++ (fwU32 p.entryOffset ++
    (fwSec dvmTagCnst p.cnst ++ (fwSec dvmTagData p.data ++ (fwSec dvmTagCode p.code ++
      (dvmTagSyms ++ (fwU32 (BitVec.ofNat 32 p.syms.length) ++ (p.syms.flatMap fwSym ++
        (dvmTagRels ++ (fwU32 (BitVec.ofNat 32 p.rels.length) ++ (p.rels.flatMap fwRel ++
          dvmTagEnd)))))))))))

/-! ## 2. Read -/

/-- How `dvm_read` can end without success. -/
inductive ReadStop where
  /-- It returns 0. -/
  | fail (msg : String)
  /-- It stores past the end of a symbol's name array. -/
  | overrun
  deriving DecidableEq, Repr

/-- A short read: return 0 without a message. -/
def ReadStop.short : ReadStop := .fail ""

abbrev ReadM := FileM ReadStop DvmProg

def frU8 : ReadM Byte := do
  let got ← freadExact .short 1
  pure (BitVec.ofNat 8 (ofLe got))

def frU32 : ReadM (BitVec 32) := do
  let got ← freadExact .short 4
  pure (BitVec.ofNat 32 (ofLe got))

def frExpectTag (want : List Byte) : ReadM Unit := do
  let got ← freadExact .short 4
  require (.fail "dvm: expected tag") (got = want)

def frSection : ReadM (List Byte) := do
  let sz ← frU32
  if sz = 0 then pure [] else freadExact .short sz.toNat

/-- The name of a symbol: `fread` stores what it gets, then `name[nl] = 0`. -/
def frName (nl : Byte) : ReadM CStr := do
  let got ← fread nl.toNat
  if dvmSymName < got.length then throw .overrun
  else if got.length ≠ nl.toNat then throw .short
  else if dvmSymName ≤ nl.toNat then throw .overrun
  else pure (got.takeWhile (· ≠ 0))

def frSym : ReadM Unit := do
  let flags ← frU8
  let sec ← frU8
  let offset ← frU32
  let nl ← frU8
  let name ← frName nl
  fill fun p => { p with syms := p.syms ++ [⟨name, flags, sec, offset⟩] }

def frRel : ReadM Unit := do
  let codeOffset ← frU32
  let symIndex ← frU32
  let kind ← frU8
  fill fun p => { p with rels := p.rels ++ [⟨codeOffset, symIndex, kind⟩] }

/-- The body of `dvm_read` after `memset(prog, 0, sizeof(*prog))`. -/
def dvmReadBody : ReadM Unit := do
  let magic ← freadExact (.fail "dvm: bad magic") 4
  require (.fail "dvm: bad magic") (magic = dvmMagic)
  frExpectTag dvmTagEntr
  let entry ← frU32
  fill fun p => { p with entryOffset := entry, hasEntry := true }
  frExpectTag dvmTagCnst
  let cnst ← frSection
  fill fun p => { p with cnst := cnst }
  frExpectTag dvmTagData
  let data ← frSection
  fill fun p => { p with data := data }
  frExpectTag dvmTagCode
  let code ← frSection
  fill fun p => { p with code := code }
  frExpectTag dvmTagSyms
  let nsyms ← frU32
  require .short (nsyms.toNat ≤ dvmMaxSyms)
  times frSym nsyms.toNat
  frExpectTag dvmTagRels
  let nrels ← frU32
  require .short (nrels.toNat ≤ dvmMaxRels)
  times frRel nrels.toNat
  frExpectTag dvmTagEnd

/-- `dvm_read` on a stream: success or the reason of failure, with the bytes left over and the
program as far as it was filled. -/
def dvmRead (f : List Byte) : EStateM.Result ReadStop (Input DvmProg) Unit :=
  dvmReadBody ⟨f, {}⟩

end Dvm
