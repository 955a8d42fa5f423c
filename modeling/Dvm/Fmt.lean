/-
# The `.dvm` format: constants and in-memory types

The declarations of `dvm_fmt.h`.  A `char[64]` symbol name is represented by the C string it
holds (the bytes before its NUL): every reader of a name (`strcmp`, `strlen`, `snprintf`) looks
no further.  A table with a count (`syms`/`nsyms`, `rels`/`nrels`) is a list, a section pointer
with its length is the byte string it points at.  Flags, sections and relocation kinds stay
bytes, because a file may hold any byte there.
-/
import Dvm.Base.Bytes

namespace Dvm

/-- A C string: the bytes before the terminating NUL. -/
abbrev CStr := List Byte

instance CStr.lawfulBEq : LawfulBEq CStr := inferInstance

/-- A string literal of the source. -/
def lit (s : String) : CStr := s.toList.map fun c => BitVec.ofNat 8 c.toNat

/-! ## Section ids, symbol flags, relocation kinds -/

/-- `DvmSection`, a packed enum: one byte. -/
abbrev DvmSection := Byte

def dvmSecCnst : DvmSection := 0
def dvmSecData : DvmSection := 1
def dvmSecCode : DvmSection := 2
/-- Undefined or extern. -/
def dvmSecNone : DvmSection := 0xFF

/-- Visible only within its object. -/
def dvmSymLocal : Byte := 0x00
/-- Exported; visible to the linker. -/
def dvmSymGlobal : Byte := 0x01
/-- Imported; must be resolved by the linker. -/
def dvmSymExtern : Byte := 0x02

/-- Patch 8 bytes: pointer to the symbol's section plus offset. -/
def dvmRelData : Byte := 0
/-- Patch 4 bytes: absolute code offset of the symbol. -/
def dvmRelCode : Byte := 1

def dvmMaxSyms : Nat := 1024
def dvmMaxRels : Nat := 2048
/-- Size of a symbol's name array, the NUL included. -/
def dvmSymName : Nat := 64

/-! ## Symbols, relocations, programs -/

structure DvmSym where
  name : CStr
  flags : Byte
  sec : DvmSection
  offset : BitVec 32
  deriving DecidableEq, Repr

structure DvmRel where
  codeOffset : BitVec 32
  symIndex : BitVec 32
  kind : Byte
  deriving DecidableEq, Repr

structure DvmProg where
  cnst : List Byte := []
  data : List Byte := []
  code : List Byte := []
  syms : List DvmSym := []
  rels : List DvmRel := []
  entryOffset : BitVec 32 := 0
  hasEntry : Bool := false
  deriving DecidableEq, Repr

/-- The number of bytes a relocation patches: 4 for `DVM_REL_CODE`, 8 for every other kind. -/
def DvmRel.width (r : DvmRel) : Nat := if r.kind = dvmRelCode then 4 else 8

end Dvm
