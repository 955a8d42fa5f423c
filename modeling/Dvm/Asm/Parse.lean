/-
# Reading a source line

The body of the loop of `asm_compile`, from the filled line buffer to the list of effects of
the line.  Code instructions come in families that differ in an opcode or two; `Form` names the
families, `codeForms` is the source's chain of mnemonic tests.

Reading needs the `.equ` table and the current section, and neither the label table nor the
buffers.  Where the source gives up after it has put something out already, the list ends in
`stop`.
-/
import Dvm.Asm.Defs

namespace Dvm

open Bytes

/-! ## 1. Pieces of an instruction -/

/-- `RB(d, s)`. -/
def regByte (d s : Reg) : Byte := BitVec.ofNat 8 (d.val * 16 + s.val)

def emitOp (op : Op) : Emit := .bytes [op.code]
def emitRegs (d s : Reg) : Emit := .bytes [regByte d s]
def emitI32 (v : BitVec 32) : Emit := .bytes (le 4 v.toNat)
def emitU64 (v : BitVec 64) : Emit := .bytes (le 8 v.toNat)

/-- `REQ_REG`. -/
def reqReg (line : Nat) (s : CStr) (k : Reg → List Emit) : List Emit :=
  match parseReg s with
  | some r => k r
  | none => [.stop (.exit (.expectedReg line s))]

/-- `REQ_FPREG`. -/
def reqFpreg (line : Nat) (s : CStr) (k : Reg → List Emit) : List Emit :=
  match parseFpreg s with
  | some r => k r
  | none => [.stop (.exit (.expectedFpReg line s))]

/-- `parse_mem`, and what happens if it fails. -/
def reqMem (s : CStr) (why : AsmStop) (k : Reg → List Emit) : List Emit :=
  match parseMem s with
  | some r => k r
  | none => [.stop why]

/-- One operand. -/
def operand (p : List Byte) : CStr := (readTok asmLabelLen p).1

/-- Two operands with a comma between them. -/
def operands₂ (line : Nat) (p : List Byte) (k : CStr → CStr → List Emit) : List Emit :=
  let (a, p) := readTok asmLabelLen p
  match expectComma p line with
  | .error why => [.stop why]
  | .ok p => k a (operand p)

/-! ## 2. The families of instructions -/

/-- How an instruction is written and encoded. -/
inductive Form where
  | mov
  | sizedStore (op opOff : Op)
  | sizedLoad (op8 op16 op32 op8Off op16Off op32Off : Op)
  | alu2 (op : Op)
  | alu1 (op : Op)
  | jmp1 (op : Op)
  | enter
  | bare (op : Op)
  | call
  | falu2 (op : Op)
  | fmovi | fmovm | fmovs
  | itof | ftoi
  | callr
  | lea
  deriving DecidableEq

/-- A memory access, with the offset only if it is not 0. -/
def emitMem (op opOff : Op) (d s : Reg) (off : BitVec 32) : List Emit :=
  if off ≠ 0 then [emitOp opOff, emitRegs d s, emitI32 off] else [emitOp op, emitRegs d s]

/-- The three operands of `movzx` and `movsx`: register, size, memory. -/
def sizedLoadOperands (line : Nat) (p : List Byte) (k : CStr → CStr → CStr → List Emit) :
    List Emit :=
  let (a, p) := readTok asmLabelLen p
  match expectComma p line with
  | .error why => [.stop why]
  | .ok p =>
    let (size, p) := readTok 16 p
    k a size (operand p)

/-- `strtod(b, NULL)`, as the bits of the double: the C library's. -/
abbrev Strtod := CStr → BitVec 64

def parseForm (strtod : Strtod) (equs : List AsmEqu) (line : Nat) (form : Form) (p : List Byte) :
    List Emit :=
  match form with
  | .mov => operands₂ line p fun a b =>
    match parseMem a, parseMem b with
    | some md, _ => reqReg line b fun rs => emitMem .movMR .movMROff md rs (parseMemOff a)
    | none, some ms => reqReg line a fun rd => emitMem .movRM .movRMOff rd ms (parseMemOff b)
    | none, none => reqReg line a fun rd =>
      match parseReg b with
      | some rs => [emitOp .movRR, emitRegs rd rs]
      | none =>
        if isLabelRef equs b then [emitOp .movRI, emitRegs rd 0, .dataRef b]
        else
          let (v, ok) := parseImm equs b
          if ok then [emitOp .movRI, emitRegs rd 0, emitU64 v]
          else [.stop (.fail (.badImmediate line b))]
  | .sizedStore op opOff => operands₂ line p fun a b =>
    reqReg line b fun rs => reqMem a (.fail (.expectedMem line a)) fun rd =>
      emitMem op opOff rd rs (parseMemOff a)
  | .sizedLoad op8 op16 op32 op8Off op16Off op32Off =>
    sizedLoadOperands line p fun a size b =>
      reqReg line a fun rd => reqMem b (.fail (.expectedMemSource line)) fun rs =>
        if size = lit "byte" then emitMem op8 op8Off rd rs (parseMemOff b)
        else if size = lit "word" then emitMem op16 op16Off rd rs (parseMemOff b)
        else if size = lit "dword" then emitMem op32 op32Off rd rs (parseMemOff b)
        else [.stop (.fail (.expectedSize line))]
  | .alu2 op => operands₂ line p fun a b =>
    emitOp op :: reqReg line a fun rd => reqReg line b fun rs => [emitRegs rd rs]
  | .alu1 op => emitOp op :: reqReg line (operand p) fun rd => [emitRegs rd 0]
  | .jmp1 op => [emitOp op, .codeRef (operand p)]
  | .enter => [emitOp .enter, .bytes (le 2 (parseImm equs (operand p)).1.toNat)]
  | .bare op => [emitOp op]
  | .call => operands₂ line p fun ok err => [emitOp .call, .codeRef ok, .codeRef err]
  | .falu2 op => operands₂ line p fun a b =>
    emitOp op :: reqFpreg line a fun rd => reqFpreg line b fun rs => [emitRegs rd rs]
  | .fmovi => operands₂ line p fun a b =>
    emitOp .fmovRI :: reqFpreg line a fun rd => [emitRegs rd 0, emitU64 (strtod b)]
  | .fmovm => operands₂ line p fun a b =>
    reqMem b (.exit (.fmovmSource line)) fun rs =>
      emitOp .fmovRM :: reqFpreg line a fun rd => [emitRegs rd rs]
  | .fmovs => operands₂ line p fun a b =>
    reqMem a (.exit (.fmovsDest line)) fun rd =>
      emitOp .fmovMR :: reqFpreg line b fun rs => [emitRegs rd rs]
  | .itof => operands₂ line p fun a b =>
    emitOp .itof :: reqFpreg line a fun rd => reqReg line b fun rs => [emitRegs rd rs]
  | .ftoi => operands₂ line p fun a b =>
    emitOp .ftoi :: reqReg line a fun rd => reqFpreg line b fun rs => [emitRegs rd rs]
  | .callr => operands₂ line p fun a err =>
    reqReg line a fun rd => [emitOp .callr, emitRegs rd 0, .codeRef err]
  | .lea => operands₂ line p fun a b =>
    reqReg line a fun rd => reqMem b (.fail (.leaOperand line)) fun _ =>
      [emitOp .lea, emitRegs rd 0, emitI32 (parseMemOff b)]

/-- The mnemonics of code instructions, in the order in which they are tried. -/
def codeForms : List (CStr × Form) :=
  [(lit "mov", .mov),
   (lit "movb", .sizedStore .movMR8 .movMR8Off),
   (lit "movw", .sizedStore .movMR16 .movMR16Off),
   (lit "movd", .sizedStore .movMR32 .movMR32Off),
   (lit "movzx", .sizedLoad .movzxRM8 .movzxRM16 .movzxRM32
      .movzxRM8Off .movzxRM16Off .movzxRM32Off),
   (lit "movsx", .sizedLoad .movsxRM8 .movsxRM16 .movsxRM32
      .movsxRM8Off .movsxRM16Off .movsxRM32Off),
   (lit "add", .alu2 .add), (lit "sub", .alu2 .sub),
   (lit "mul", .alu2 .mul), (lit "imul", .alu2 .imul),
   (lit "div", .alu2 .div), (lit "idiv", .alu2 .idiv), (lit "mod", .alu2 .mod),
   (lit "and", .alu2 .and), (lit "or", .alu2 .or), (lit "xor", .alu2 .xor),
   (lit "shl", .alu2 .shl), (lit "shr", .alu2 .shr), (lit "sar", .alu2 .sar),
   (lit "cmp", .alu2 .cmp), (lit "test", .alu2 .test),
   (lit "neg", .alu1 .neg), (lit "not", .alu1 .not),
   (lit "push", .alu1 .push), (lit "pop", .alu1 .pop),
   (lit "jmp", .jmp1 .jmp), (lit "je", .jmp1 .je), (lit "jne", .jmp1 .jne),
   (lit "jl", .jmp1 .jl), (lit "jle", .jmp1 .jle),
   (lit "jg", .jmp1 .jg), (lit "jge", .jmp1 .jge),
   (lit "enter", .enter),
   (lit "leave", .bare .leave), (lit "ret", .bare .ret), (lit "throw", .bare .throw),
   (lit "halt", .bare .halt), (lit "syscall", .bare .syscall),
   (lit "call", .call),
   (lit "fadd", .falu2 .fadd), (lit "fsub", .falu2 .fsub),
   (lit "fmul", .falu2 .fmul), (lit "fdiv", .falu2 .fdiv),
   (lit "fcmp", .falu2 .fcmp), (lit "fmov", .falu2 .fmovRR),
   (lit "fmovi", .fmovi), (lit "fmovm", .fmovm), (lit "fmovs", .fmovs),
   (lit "itof", .itof), (lit "ftoi", .ftoi),
   (lit "callr", .callr),
   (lit "alloca", .bare .alloca),
   (lit "lea", .lea),
   (lit "trunc8", .alu1 .trunc8), (lit "trunc16", .alu1 .trunc16), (lit "trunc32", .alu1 .trunc32)]

/-- A code instruction. -/
def parseCode (strtod : Strtod) (equs : List AsmEqu) (line : Nat) (mnem : CStr) (p : List Byte) :
    List Stmt :=
  match codeForms.lookup mnem with
  | some form => [.code mnem (parseForm strtod equs line form p)]
  | none => [.stop (.fail (.unknownMnemonic line mnem))]

/-! ## 3. The other lines -/

/-- A data pseudo-op; only `db` looks at whether its number was one. -/
def parseData (equs : List AsmEqu) (line : Nat) (mnem : CStr) (p : List Byte) : List Stmt :=
  let (v, ok) := parseImm equs (operand p)
  if mnem = lit "db" then
    if ok then [.data (le 1 v.toNat)] else [.stop (.fail (.badDb line))]
  else if mnem = lit "dw" then [.data (le 2 v.toNat)]
  else if mnem = lit "dd" then [.data (le 4 v.toNat)]
  else if mnem = lit "dq" then [.data (le 8 v.toNat)]
  else if mnem = lit "ds" ∨ mnem = lit "dsz" then
    match parseString line (skipWs p) with
    | .error why => [.stop why]
    | .ok bs => [.data (if mnem = lit "dsz" then bs ++ [0] else bs)]
  else [.stop (.fail (.invalidPseudoOp line mnem))]

/-- A line that starts with a dot. -/
def parseDirective (equs : List AsmEqu) (line : Nat) (p : List Byte) : List Stmt :=
  let (dir, p) := readTok asmLabelLen p
  if dir = lit ".text" then [.sect dvmSecCode]
  else if dir = lit ".data" then [.sect dvmSecData]
  else if dir = lit ".cnst" ∨ dir = lit ".rodata" then [.sect dvmSecCnst]
  else if dir = lit ".equ" then
    let (name, p) := readTok asmLabelLen p
    match expectComma p line with
    | .error why => [.stop why]
    | .ok p =>
      let val := operand p
      if asmMaxEqus ≤ equs.length then [.stop (.fail .tooManyEqus)]
      else
        let (v, ok) := parseImm equs val
        if ok then [.equ name v] else [.stop (.fail (.badEqu line val))]
  else [.stop (.fail (.unknownDirective line dir))]

/-- Nothing, or a comment. -/
def isBlank (p : List Byte) : Bool :=
  match p with
  | [] => true
  | c :: _ => c = 0 || c = ch ';'

/-- The mnemonic `mnem` in the current section. -/
def parseInstr (strtod : Strtod) (equs : List AsmEqu) (cursec : DvmSection) (line : Nat)
    (mnem : CStr) (p : List Byte) : List Stmt :=
  if cursec ≠ dvmSecCode then parseData equs line mnem p else parseCode strtod equs line mnem p

/-- A line, from the start of the line buffer. -/
def parseLine (strtod : Strtod) (equs : List AsmEqu) (cursec : DvmSection) (line : Nat)
    (buf : List Byte) : List Stmt :=
  let p := skipWs buf
  if isBlank p then []
  else if p.head? = some (ch '.') then parseDirective equs line p
  else
    let (tok, after) := readTok asmLabelLen p
    let after := skipWs after
    if tok = lit "global" then [.globalDir (operand after)]
    else if tok = lit "extern" then [.externDir (operand after)]
    else if after.head? = some (ch ':') then
      let p := skipWs after.tail
      if isBlank p then [.label tok]
      else
        let (mnem, after) := readTok asmLabelLen p
        .label tok :: parseInstr strtod equs cursec line mnem (skipWs after)
    else parseInstr strtod equs cursec line tok after

end Dvm
