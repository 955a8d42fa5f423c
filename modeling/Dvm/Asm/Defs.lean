/-
# The assembler's state

The section buffers, the label table, patches and relocations of `asm.c`, and what the parts of
a source line do to them.  A line is first read into a list of `Stmt`s (`Dvm.Asm.Parse`), in
the order of their effects; an instruction is a list of `Emit`s, one for each `buf_` call or
label reference.

The C code stores into a section buffer without looking at its size.  `Buf` carries the bound,
and a store that does not fit is `overrun`.
-/
import Dvm.Base.Table
import Dvm.Asm.Lex

namespace Dvm

open Bytes Table

/-! ## 1. Buffers, labels, patches -/

def dvmBufMax : Nat := 256 * 1024
def asmMaxLabels : Nat := 512
def asmMaxPatches : Nat := 1024
def asmMaxEqus : Nat := 256
/-- Size of a name or token array, the NUL included. -/
def asmLabelLen : Nat := 64

structure Buf where
  bytes : List Byte := []
  fits : bytes.length ≤ dvmBufMax := by decide

/-- `buf_u8` to `buf_u64`, on the bytes of the value. -/
def bufPut (b : Buf) (bs : List Byte) : Except AsmStop Buf :=
  if h : (b.bytes ++ bs).length ≤ dvmBufMax then .ok ⟨b.bytes ++ bs, h⟩ else .error .overrun

structure AsmLabel where
  name : CStr
  flags : Byte
  sec : DvmSection
  /-- -1 while undefined. -/
  offset : Int
  deriving DecidableEq, Repr

structure AsmPatch where
  name : CStr
  patchAt : Nat
  is64 : Bool
  line : Nat
  deriving DecidableEq, Repr

structure AsmCtx where
  text : Buf := {}
  data : Buf := {}
  cnst : Buf := {}
  labels : List AsmLabel := []
  patches : List AsmPatch := []
  equs : List AsmEqu := []
  rels : List DvmRel := []

/-- `sec_buf`. -/
def AsmCtx.secBuf (ctx : AsmCtx) (sec : DvmSection) : Buf :=
  if sec = dvmSecCnst then ctx.cnst else if sec = dvmSecData then ctx.data else ctx.text

/-- `asm_label_find`, with the label's index. -/
def labelFind (labels : List AsmLabel) (name : CStr) : Option (Nat × AsmLabel) :=
  find AsmLabel.name name labels

/-- `label_define`: the label table after it. -/
def labelDefine (labels : List AsmLabel) (name : CStr) (flags : Byte) (sec : DvmSection)
    (off : Int) : Except AsmStop (List AsmLabel) :=
  match labelFind labels name with
  | some (i, l) =>
    if l.flags = dvmSymExtern ∧ flags ≠ dvmSymExtern then
      .ok (labels.set i { l with flags := flags, sec := sec, offset := off })
    else if l.offset < 0 then
      .ok (labels.set i { l with flags := flags, sec := sec, offset := off })
    else .ok labels
  | none =>
    if asmMaxLabels ≤ labels.length then .error (.exit .labelTableFull)
    else .ok (labels ++ [⟨name, flags, sec, off⟩])

/-- `sym_index`: the index, and the label table with a placeholder for a new name. -/
def symIndex (labels : List AsmLabel) (name : CStr) : Except AsmStop (Nat × List AsmLabel) :=
  match labelFind labels name with
  | some (i, _) => .ok (i, labels)
  | none =>
    match labelDefine labels name dvmSymExtern dvmSecNone (-1) with
    | .error e => .error e
    | .ok labels' => .ok (labels.length, labels')

/-! ## 2. Label references -/

/-- The four bytes of a label's offset. -/
def offsetBytes (off : Int) : List Byte := le 4 (BitVec.ofInt 32 off).toNat

/-- A code label that is already defined here. -/
def AsmLabel.IsCodeDef (l : AsmLabel) : Prop :=
  0 ≤ l.offset ∧ l.sec = dvmSecCode ∧ l.flags ≠ dvmSymExtern

instance (l : AsmLabel) : Decidable l.IsCodeDef := inferInstanceAs (Decidable (_ ∧ _ ∧ _))

def AsmCtx.putText (ctx : AsmCtx) (bs : List Byte) : Except AsmStop AsmCtx :=
  match bufPut ctx.text bs with
  | .error e => .error e
  | .ok b => .ok { ctx with text := b }

def AsmCtx.addPatch (ctx : AsmCtx) (p : AsmPatch) : Except AsmStop AsmCtx :=
  if asmMaxPatches ≤ ctx.patches.length then .error (.exit .patchTableFull)
  else .ok { ctx with patches := ctx.patches ++ [p] }

/-- A new relocation of `name` at text offset `pos`. -/
def AsmCtx.addRel (ctx : AsmCtx) (pos : Nat) (name : CStr) (kind : Byte) : Except AsmStop AsmCtx :=
  if dvmMaxRels ≤ ctx.rels.length then .error (.exit .relocTableFull)
  else match symIndex ctx.labels name with
    | .error e => .error e
    | .ok (k, labels) =>
      let r : DvmRel := ⟨BitVec.ofNat 32 pos, BitVec.ofNat 32 k, kind⟩
      .ok { ctx with labels := labels, rels := ctx.rels ++ [r] }

/-- `label_ref_code`. -/
def labelRefCode (ctx : AsmCtx) (name : CStr) (line : Nat) : Except AsmStop AsmCtx :=
  let l := (labelFind ctx.labels name).map Prod.snd
  match l.filter fun l => l.IsCodeDef with
  | some l => ctx.putText (offsetBytes l.offset)
  | none => do
    let pos := ctx.text.bytes.length
    let ctx ← ctx.addPatch ⟨name, pos, false, line⟩
    let ctx ← ctx.putText (offsetBytes 0)
    -- `l` still holds what was found before the patch
    if l.any fun l => l.flags = dvmSymExtern then ctx.addRel pos name dvmRelCode else pure ctx

/-- `label_ref_data`. -/
def labelRefData (ctx : AsmCtx) (name : CStr) (line : Nat) : Except AsmStop AsmCtx := do
  let pos := ctx.text.bytes.length
  let ctx ← ctx.addRel pos name dvmRelData
  let l := (labelFind ctx.labels name).map Prod.snd
  let ctx ← if l.all fun l => l.offset < 0 then ctx.addPatch ⟨name, pos, true, line⟩ else pure ctx
  ctx.putText (le 8 0)

/-! ## 3. The parts of a line -/

/-- What an instruction puts into the text section. -/
inductive Emit where
  | bytes (bs : List Byte)
  | codeRef (name : CStr)
  | dataRef (name : CStr)
  | stop (why : AsmStop)
  deriving DecidableEq

/-- One effect of a source line. -/
inductive Stmt where
  /-- `cursec = sec`. -/
  | sect (sec : DvmSection)
  | equ (name : CStr) (value : BitVec 64)
  | globalDir (name : CStr)
  | externDir (name : CStr)
  | label (name : CStr)
  /-- Bytes for the current data section. -/
  | data (bs : List Byte)
  | code (mnem : CStr) (es : List Emit)
  | stop (why : AsmStop)
  deriving DecidableEq

/-- The locals of `asm_compile` beside the context. -/
structure AsmState where
  ctx : AsmCtx
  cursec : DvmSection
  lineno : Nat
  lineBuf : List Byte

def doEmit (line : Nat) (ctx : AsmCtx) (e : Emit) : Except AsmStop AsmCtx :=
  match e with
  | .bytes bs => ctx.putText bs
  | .codeRef name => labelRefCode ctx name line
  | .dataRef name => labelRefData ctx name line
  | .stop why => .error why

/-- A `global` line. -/
def globalLabel (labels : List AsmLabel) (name : CStr) (cursec : DvmSection) :
    Except AsmStop (List AsmLabel) :=
  match labelFind labels name with
  | some (i, l) => .ok (labels.set i { l with flags := dvmSymGlobal })
  | none => labelDefine labels name dvmSymGlobal cursec (-1)

/-- A label definition; a previous `global` is kept. -/
def defineLabel (ctx : AsmCtx) (name : CStr) (cursec : DvmSection) :
    Except AsmStop (List AsmLabel) :=
  let l := (labelFind ctx.labels name).map Prod.snd
  let flags := if l.any fun l => l.flags = dvmSymGlobal then dvmSymGlobal else dvmSymLocal
  labelDefine ctx.labels name flags cursec (ctx.secBuf cursec).bytes.length

/-- Put bytes into the current data section. -/
def putData (ctx : AsmCtx) (cursec : DvmSection) (bs : List Byte) : Except AsmStop AsmCtx :=
  match bufPut (ctx.secBuf cursec) bs with
  | .error e => .error e
  | .ok b =>
    .ok (if cursec = dvmSecCnst then { ctx with cnst := b }
      else if cursec = dvmSecData then { ctx with data := b } else { ctx with text := b })

def AsmCtx.withLabels (ctx : AsmCtx) (ls : Except AsmStop (List AsmLabel)) :
    Except AsmStop AsmCtx :=
  match ls with
  | .error e => .error e
  | .ok labels => .ok { ctx with labels := labels }

/-- The effect on the context. -/
def doStmtCtx (st : AsmState) (s : Stmt) : Except AsmStop AsmCtx :=
  match s with
  | .sect _ => .ok st.ctx
  | .equ name v => .ok { st.ctx with equs := st.ctx.equs ++ [⟨name, v⟩] }
  | .globalDir name => st.ctx.withLabels (globalLabel st.ctx.labels name st.cursec)
  | .externDir name =>
    st.ctx.withLabels (labelDefine st.ctx.labels name dvmSymExtern dvmSecNone (-1))
  | .label name => st.ctx.withLabels (defineLabel st.ctx name st.cursec)
  | .data bs => putData st.ctx st.cursec bs
  | .code _ es => es.foldlM (doEmit st.lineno) st.ctx
  | .stop why => .error why

def doStmt (st : AsmState) (s : Stmt) : Except AsmStop AsmState :=
  match doStmtCtx st s with
  | .error e => .error e
  | .ok ctx =>
    .ok { st with
      ctx := ctx
      cursec := match s with
        | .sect sec => sec
        | _ => st.cursec }

/-! ## 4. The end of the source -/

/-- Overwrite the bytes of a buffer from `p` on, inside it. -/
def bufPatch (b : Buf) (p : Nat) (v : List Byte) : Except AsmStop Buf :=
  if h : p + v.length ≤ b.bytes.length then
    .ok ⟨patch b.bytes p v, (length_patch h).trans_le b.fits⟩
  else .error .overrun

/-- One patch: the text after it, and the error it reports. -/
def patchResolve (labels : List AsmLabel) (text : Buf) (p : AsmPatch) :
    Except AsmStop (Buf × Option AsmError) :=
  match labelFind labels p.name with
  | none => .ok (text, some (.undefinedLabel p.name p.line))
  | some (_, l) =>
    if p.is64 then
      if l.flags ≠ dvmSymExtern ∧ l.offset < 0 then
        .ok (text, some (.undefinedDataLabel p.name p.line))
      else .ok (text, none)
    else if l.flags = dvmSymExtern then .ok (text, none)
    else if l.sec ≠ dvmSecCode ∨ l.offset < 0 then
      .ok (text, some (.nonCodeLabel p.name p.line))
    else match bufPatch text p.patchAt (offsetBytes l.offset) with
      | .error e => .error e
      | .ok text => .ok (text, none)

/-- The loop of `patches_resolve`: all patches, the text after them and the errors reported. -/
def patchesLoop (labels : List AsmLabel) :
    Buf → List AsmPatch → Except AsmStop (Buf × List AsmError)
  | text, [] => .ok (text, [])
  | text, p :: ps =>
    match patchResolve labels text p with
    | .error e => .error e
    | .ok (text, err) =>
      match patchesLoop labels text ps with
      | .error e => .error e
      | .ok (text, errs) => .ok (text, err.toList ++ errs)

/-- `patches_resolve`; it returns 0 if any error was reported. -/
def patchesResolve (ctx : AsmCtx) : Except AsmStop AsmCtx :=
  match patchesLoop ctx.labels ctx.text ctx.patches with
  | .error e => .error e
  | .ok (text, []) => .ok { ctx with text := text }
  | .ok (_, err :: _) => .error (.fail err)

/-! ## 5. `asm_to_prog` -/

/-- The labels `asm_to_prog` puts into the symbol table. -/
def AsmLabel.Exported (l : AsmLabel) : Prop := 0 ≤ l.offset ∨ l.flags = dvmSymExtern

instance (l : AsmLabel) : Decidable l.Exported := inferInstanceAs (Decidable (_ ∨ _))

/-- The symbol of a label. -/
def AsmLabel.toSym (l : AsmLabel) : DvmSym where
  name := l.name
  flags := l.flags
  sec := if l.flags = dvmSymExtern then dvmSecNone else l.sec
  offset := if 0 ≤ l.offset then BitVec.ofInt 32 l.offset else 0

def asmToProg (ctx : AsmCtx) : DvmProg where
  cnst := ctx.cnst.bytes
  data := ctx.data.bytes
  code := ctx.text.bytes
  syms := ((ctx.labels.filter fun l => l.Exported).map AsmLabel.toSym).take dvmMaxSyms
  rels := ctx.rels

end Dvm
