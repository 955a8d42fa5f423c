/-
# Tokens, numbers and operands of the assembler

The tokenizer and the operand parsers of `asm.c`.  A `char *` into the line buffer is the rest
of that buffer; a token is a C string without its NUL.  The name arrays of the assembler hold
as many characters as a token has at most, so copying a token into one keeps all of it.

`strtol` and `strtoull` are the C library's: white space, a sign, a base prefix, digits, and
the rest of the string, with saturation.
-/
import Dvm.Vm.Thread
import Dvm.Fmt

namespace Dvm

/-- A character of the source. -/
def ch (c : Char) : Byte := BitVec.ofNat 8 c.toNat

/-! ## 1. How `asm_compile` ends without success -/

/-- The messages of the assembler, with the line, token or label they print. -/
inductive AsmError where
  | labelTableFull | patchTableFull | relocTableFull | tooManyEqus
  | expectedComma (line : Nat)
  | expectedReg (line : Nat) (tok : CStr)
  | expectedFpReg (line : Nat) (tok : CStr)
  | expectedString (line : Nat)
  | stringTooLong (line : Nat)
  | badEqu (line : Nat) (tok : CStr)
  | unknownDirective (line : Nat) (tok : CStr)
  | badDb (line : Nat)
  | invalidPseudoOp (line : Nat) (mnem : CStr)
  | badImmediate (line : Nat) (tok : CStr)
  | expectedMem (line : Nat) (tok : CStr)
  | expectedMemSource (line : Nat)
  | expectedSize (line : Nat)
  | fmovmSource (line : Nat)
  | fmovsDest (line : Nat)
  | leaOperand (line : Nat)
  | unknownMnemonic (line : Nat) (mnem : CStr)
  | undefinedLabel (name : CStr) (line : Nat)
  | undefinedDataLabel (name : CStr) (line : Nat)
  | nonCodeLabel (name : CStr) (line : Nat)
  deriving DecidableEq, Repr

inductive AsmStop where
  /-- `asm_compile` returns 0. -/
  | fail (why : AsmError)
  /-- `exit(1)`. -/
  | exit (why : AsmError)
  /-- It accesses memory past the end of a buffer. -/
  | overrun
  deriving DecidableEq, Repr

/-! ## 2. Tokens -/

def skipWs : List Byte → List Byte
  | [] => []
  | c :: p => if c = ch ' ' ∨ c = ch '\t' then skipWs p else c :: p

/-- The characters a token ends before, the NUL included. -/
def isDelim (c : Byte) : Bool :=
  c = 0 || c = ch ',' || c = ch ' ' || c = ch '\t' || c = ch '\n' || c = ch ';' || c = ch ':'

/-- At most `n` characters up to a delimiter, and what follows them. -/
def takeTok : Nat → List Byte → CStr × List Byte
  | 0, p => ([], p)
  | _ + 1, [] => ([], [])
  | n + 1, c :: p =>
    if isDelim c then ([], c :: p)
    else let (tok, rest) := takeTok n p; (c :: tok, rest)

/-- `read_tok` with an output array of `max` characters. -/
def readTok (max : Nat) (p : List Byte) : CStr × List Byte := takeTok (max - 1) (skipWs p)

def expectComma (p : List Byte) (line : Nat) : Except AsmStop (List Byte) :=
  match skipWs p with
  | c :: rest => if c = ch ',' then .ok rest else .error (.exit (.expectedComma line))
  | [] => .error (.exit (.expectedComma line))

/-! ## 3. Numbers -/

def isSpace (c : Byte) : Bool := c = 32 || (9 ≤ c && c ≤ 13)

def isDigit (c : Byte) : Bool := ch '0' ≤ c && c ≤ ch '9'

/-- The value of a digit in some base up to 36. -/
def digitVal (c : Byte) : Option Nat :=
  if isDigit c then some (c.toNat - 48)
  else if ch 'a' ≤ c ∧ c ≤ ch 'z' then some (c.toNat - 87)
  else if ch 'A' ≤ c ∧ c ≤ ch 'Z' then some (c.toNat - 55)
  else none

def isDigitIn (base : Nat) (c : Byte) : Bool := (digitVal c).any (· < base)

/-- What the `strto` functions find: a sign, a magnitude, and the rest behind the digits. -/
structure Numeral where
  neg : Bool
  mag : Nat
  rest : CStr

/-- The base and the digits behind a prefix; a prefix counts only if a digit follows it. -/
def basePrefix (base : Nat) (s : CStr) : Nat × CStr :=
  match s with
  | z :: x :: d :: rest =>
    if (base = 0 ∨ base = 16) ∧ z = ch '0' ∧ (x = ch 'x' ∨ x = ch 'X') ∧ isDigitIn 16 d then
      (16, d :: rest)
    else if base = 0 then (if z = ch '0' then 8 else 10, s) else (base, s)
  | z :: _ => if base = 0 then (if z = ch '0' then 8 else 10, s) else (base, s)
  | [] => (base, s)

def numeral (base : Nat) (s : CStr) : Numeral :=
  let p := s.dropWhile isSpace
  let neg := p.head? = some (ch '-')
  let p := if neg ∨ p.head? = some (ch '+') then p.tail else p
  let (base, p) := basePrefix base p
  let ds := p.takeWhile (isDigitIn base)
  if ds = [] then ⟨false, 0, s⟩
  else ⟨neg, ds.foldl (fun v d => v * base + (digitVal d).getD 0) 0, p.drop ds.length⟩

/-- `strtol(s, &end, 0)` as an `int32_t`. -/
def strtol32 (s : CStr) : BitVec 32 :=
  let n := numeral 0 s
  let v : Int := if n.neg then -n.mag else n.mag
  BitVec.ofInt 32 (max (-2 ^ 63) (min (2 ^ 63 - 1) v))

/-- `strtoull(s, &end, base)`, with what `end` points at. -/
def strtoull (base : Nat) (s : CStr) : BitVec 64 × CStr :=
  let n := numeral base s
  let v : BitVec 64 :=
    if 2 ^ 64 ≤ n.mag then -1 else if n.neg then -(BitVec.ofNat 64 n.mag) else BitVec.ofNat 64 n.mag
  (v, n.rest)

/-! ## 4. Operands -/

def regNames : List (CStr × Reg) :=
  [(lit "ax", regAx), (lit "cx", regCx), (lit "di", regDi), (lit "ex", regEx),
   (lit "bx", regBx), (lit "dx", regDx), (lit "si", regSi), (lit "fx", regFx)]

def parseReg (s : CStr) : Option Reg := regNames.lookup s

def parseFpreg (s : CStr) : Option Reg :=
  match s with
  | [f, p, d] =>
    if f = ch 'f' ∧ p = ch 'p' ∧ ch '0' ≤ d ∧ d ≤ ch '7' then
      some ⟨(d.toNat - 48) % 8, Nat.mod_lt _ (by decide)⟩
    else none
  | _ => none

/-- The base register of `[reg]`, `[reg+off]` or `[reg-off]`. -/
def parseMem (s : CStr) : Option Reg :=
  match s with
  | [] => none
  | c :: rest =>
    if c ≠ ch '[' then none
    else
      let inner := (rest.takeWhile (· ≠ ch ']')).take 31
      (parseReg inner).or
        (parseReg ((inner.takeWhile fun c => c ≠ ch '+' ∧ c ≠ ch '-').take 7))

/-- The offset of `[reg+off]` or `[reg-off]`, 0 if there is none. -/
def parseMemOff (s : CStr) : BitVec 32 :=
  match s with
  | [] => 0
  | c :: rest =>
    if c ≠ ch '[' then 0
    else match rest.dropWhile fun c => c ≠ ch '+' ∧ c ≠ ch '-' ∧ c ≠ ch ']' with
      | [] => 0
      | sign :: digits =>
        if sign = ch ']' then 0
        else if sign = ch '+' then strtol32 digits
        else -strtol32 digits

structure AsmEqu where
  name : CStr
  value : BitVec 64
  deriving DecidableEq, Repr

def equFind (equs : List AsmEqu) (name : CStr) : Option AsmEqu :=
  equs.find? fun e => e.name = name

def isHex (s : CStr) : Bool :=
  match s with
  | z :: x :: _ => z = ch '0' && (x = ch 'x' || x = ch 'X')
  | _ => false

/-- `parse_imm`: the value, and `*ok`. -/
def parseImm (equs : List AsmEqu) (s : CStr) : BitVec 64 × Bool :=
  match equFind equs s with
  | some e => (e.value, true)
  | none =>
    let (v, rest) := strtoull (if isHex s then 16 else 10) s
    (v, rest.isEmpty)

/-- Whether a token looks like a label name. -/
def isLabelRef (equs : List AsmEqu) (s : CStr) : Bool :=
  match s with
  | [] => false
  | c :: _ =>
    !isHex s && !isDigit c && (parseReg s).isNone && (parseFpreg s).isNone &&
      (parseMem s).isNone && (equFind equs s).isNone

/-- The character an escape stands for. -/
def unescape (c : Byte) : Byte :=
  if c = ch 'n' then ch '\n'
  else if c = ch 't' then ch '\t'
  else if c = ch 'r' then ch '\r'
  else if c = ch '0' then 0
  else c

/-- `sizeof(sbuf)`. -/
def stringMax : Nat := 256

/-- The loop of `parse_string`, `n` characters being stored.  Behind the line's NUL, which an
escape can skip, it goes on in the rest of the line buffer. -/
def stringChars (line : Nat) : Nat → List Byte → Except AsmStop (List Byte)
  | _, [] => .error .overrun
  | n, c :: p =>
    if c = 0 ∨ c = ch '"' then .ok []
    else if stringMax - 1 ≤ n then .error (.exit (.stringTooLong line))
    else if c = ch '\\' then
      match p with
      | [] => .error .overrun
      | e :: p =>
        match stringChars line (n + 1) p with
        | .error e => .error e
        | .ok out => .ok (unescape e :: out)
    else match stringChars line (n + 1) p with
      | .error e => .error e
      | .ok out => .ok (c :: out)

def parseString (line : Nat) (p : List Byte) : Except AsmStop (List Byte) :=
  match p with
  | c :: p => if c = ch '"' then stringChars line 0 p else .error (.exit (.expectedString line))
  | [] => .error (.exit (.expectedString line))

end Dvm
