import Fuzzball.DecisionTreeStore
import Fuzzball.FormulaManager

/-!
# Marshalled expressions

`encode_exp` and `decode_exp` of `frag_marshal.ml`: expressions as strings, in
prefix form.  Variables are written as numbers and looked up by them; the
printable form is left out, and so is the table of weak references, in which a
variable is found that equals the one it is asked for.
-/

namespace Fuzzball.FragMarshal

open Vine DecisionTree

inductive MarshalExn
  | store (x : StoreExn)
  | notFound
  /-- No exception of the source: the calls that may be nested are used up. -/
  | exhausted
  deriving DecidableEq, Repr

structure MarshalState where
  varNumToName : ℤ → Option OString
  weirdCount : ℤ

def failure (message : String) : MarshalExn := .store (.exn (.failure message))

/-- The code of a character. -/
def byte (c : Char) : UInt8 := UInt8.ofNat c.toNat

/-! ## Numbers -/

/-- `Char.chr (n land 0xff)` -/
def lowByte (n : ℤ) : UInt8 := UInt8.ofNat (n % 256).toNat

/-- What `push_short` pushes; `lsr` shifts the 63 bits of an `int`. -/
def shortCode (s : ℤ) : OString :=
  [lowByte (s % 2 ^ 63 / 2 ^ 8), lowByte s]

def wordCode (i : I64) : OString :=
  shortCode (I64.toOCamlInt (i.sshiftRight 16)) ++
    shortCode (I64.toOCamlInt (i &&& 0xffff))

/-- What `push_int64` pushes. -/
def int64Code (i : I64) : OString :=
  let n := i.toInt
  if 0 ≤ n ∧ n < 10 then [lowByte (48 + n)]
  else if 10 ≤ n ∧ n < 36 then [lowByte (97 + n - 10)]
  else if n = -1 then [byte '-']
  else if 0 ≤ n ∧ n < 256 then [byte 'C', lowByte n]
  else if -128 ≤ n ∧ n < 0 then [byte 'D', lowByte (-n)]
  else if 0xffffff00 ≤ n ∧ n ≤ 0xffffffff then [byte 'E', lowByte n]
  else if 0 ≤ n ∧ n < 65536 then byte 'S' :: shortCode n
  else if -32768 ≤ n ∧ n < 0 then byte 'T' :: shortCode (-n)
  else if 0 ≤ n ∧ n < 0x100000000 then byte 'I' :: wordCode i
  else if 2147483648 ≤ n ∧ n < 0 then byte 'J' :: wordCode (-i)
  else
    byte 'L' :: (wordCode (i.sshiftRight 32) ++ wordCode (i &&& 0xffffffff))

/-- A place in the string is given by the string from there on. -/
abbrev Decode := Except MarshalExn

/-- `s.[i]` -/
def charAt : OString → Decode (OString × UInt8)
  | [] => throw (.store (.exn (.invalidArgument "index out of bounds")))
  | c :: i => pure (i, c)

def parseShort (i : OString) : Decode (OString × ℤ) := do
  let (i1, hb) ← charAt i
  let (i2, lb) ← charAt i1
  pure (i2, ((hb.toNat <<< 8 ||| lb.toNat : ℕ) : ℤ))

def parseWord (i : OString) : Decode (OString × I64) := do
  let (i2, hs) ← parseShort i
  let (i3, ls) ← parseShort i2
  pure (i3, I64.ofInt hs <<< 16 ||| I64.ofInt ls)

def parseInt64 (i : OString) : Decode (OString × I64) := do
  let (i2, c) ← charAt i
  if byte '0' ≤ c ∧ c ≤ byte '9' then
    pure (i2, I64.ofInt (c.toNat - 48))
  else if byte 'a' ≤ c ∧ c ≤ byte 'z' then
    pure (i2, I64.ofInt (c.toNat - 97 + 10))
  else
    match Char.ofNat c.toNat with
    | '-' => pure (i2, -1)
    | 'C' => do
      let (i3, b) ← charAt i2
      pure (i3, I64.ofInt b.toNat)
    | 'D' => do
      let (i3, b) ← charAt i2
      pure (i3, I64.ofInt (-b.toNat))
    | 'E' => do
      let (i3, b) ← charAt i2
      pure (i3, 0xffffff00 ||| I64.ofInt b.toNat)
    | 'S' => do
      let (i3, s) ← parseShort i2
      pure (i3, I64.ofInt s)
    | 'T' => do
      let (i3, s) ← parseShort i2
      pure (i3, I64.ofInt (-s))
    | 'I' => parseWord i2
    | 'J' => do
      let (i3, n) ← parseWord i2
      pure (i3, -n)
    | 'L' => do
      let (i3, hw) ← parseWord i2
      let (i4, lw) ← parseWord i3
      pure (i4, hw <<< 32 ||| lw)
    | _ => throw (failure "Unexpected character in parse_int64")

/-! ## Strings, types and variables -/

/-- What the encoder changes: the characters and the variables so far, each
the last first, and the tables. -/
structure EncodeState where
  chars : OString
  vars : List Var
  global : MarshalState

abbrev Encode (α : Type) := Stateful MarshalExn EncodeState α

def lift {α : Type} (x : OCaml α) : Encode α :=
  match x with
  | .ok a => pure a
  | .error e => throw (.store (.exn e))

/-- Every character is pushed. -/
def push (s : OString) : Encode Unit :=
  modify fun st => { st with chars := s.reverse ++ st.chars }

def assertAt (o : AssertOptions) (assertion : Bool) (sawAt : String) :
    Stateful MarshalExn MarshalState Unit := do
  let st ← get
  let (r, w) := gAssert o assertion 100 sawAt st.weirdCount
  set { st with weirdCount := w }
  match r with
  | .ok _ => pure ()
  | .error e => throw (.store e)

/-- `Char.chr` -/
def chr (n : ℕ) : OCaml UInt8 :=
  if n < 256 then pure (UInt8.ofNat n) else throw (.invalidArgument "Char.chr")

def pushString (o : AssertOptions) (s : OString) : Encode Unit := do
  let st ← get
  let (r, global) := (assertAt o (s.length < 250)
    "Frag_marshal.encode_exp_flags").run st.global
  set { st with global := global }
  match r with
  | .error e => throw e
  | .ok _ =>
    push [← lift (chr s.length)]
    push s

def regTypeCode : Typ → OCaml UInt8
  | .reg1 => pure (byte 'b')
  | .reg8 => pure (byte 'c')
  | .reg16 => pure (byte 's')
  | .reg32 => pure (byte 'i')
  | .reg64 => pure (byte 'l')
  | _ => throw (.failure "Unexpected reg_type in encode_exp")

/-- What `push_type` pushes. -/
def typeCode : Typ → OCaml OString
  | .tMem .reg32 .little => pure [byte 'M']
  | .array eltTy size => do
    pure (byte 'A' :: (← regTypeCode eltTy) :: int64Code size)
  | .reg1 => pure [byte 'b']
  | .reg8 => pure [byte 'c']
  | .reg16 => pure [byte 's']
  | .reg32 => pure [byte 'i']
  | .reg64 => pure [byte 'l']
  | _ => throw (.failure "Unexpected variable type in encode_exp")

def pushVar (v : Var) : Encode Unit := do
  push (← lift (typeCode v.typ))
  push (int64Code (I64.ofInt v.id))
  modify fun st => { st with
    global := { st.global with
      varNumToName := Function.update st.global.varNumToName v.id
        (some v.name) }
    vars := v :: st.vars }

def parseString (i : OString) : Decode (OString × OString) := do
  let (i2, len) ← charAt i
  if len.toNat ≤ i2.length then pure (i2.drop len.toNat, i2.take len.toNat)
  else throw (.store (.exn (.invalidArgument "String.sub")))

def parseType : OString → Decode (OString × Typ)
  | [] => throw (.store (.exn (.invalidArgument "index out of bounds")))
  | c :: i =>
    match Char.ofNat c.toNat with
    | 'b' => pure (i, .reg1)
    | 'c' => pure (i, .reg8)
    | 's' => pure (i, .reg16)
    | 'i' => pure (i, .reg32)
    | 'l' => pure (i, .reg64)
    | 'M' => pure (i, .tMem .reg32 .little)
    | 'A' => do
      let (i2, eltTy) ← parseType i
      let (i3, size) ← parseInt64 i2
      pure (i3, .array eltTy size)
    | _ => throw (failure "Bad type in parse_var")

section Names

variable (varNumToName : ℤ → Option OString)

def parseVar (i : OString) : Decode (OString × Var) := do
  let (i2, ty) ← parseType i
  let (i3, n64) ← parseInt64 i2
  let n := I64.toOCamlInt n64
  match varNumToName n with
  | some name => pure (i3, ⟨n, name, ty⟩)
  | none => throw .notFound

end Names

/-! ## Operators -/

def binopChar : BinopType → Char
  | .plus => '+'
  | .minus => '-'
  | .times => '*'
  | .divide => '/'
  | .sdivide => '$'
  | .mod => '%'
  | .smod => '#'
  | .lshift => '['
  | .rshift => ']'
  | .arshift => '}'
  | .bitand => '&'
  | .bitor => '|'
  | .xor => '^'
  | .concat => '@'
  | .eq => '='
  | .neq => '\\'
  | .lt => '<'
  | .le => ','
  | .slt => '>'
  | .sle => '.'

def binopOf : Char → Option BinopType
  | '+' => some .plus
  | '-' => some .minus
  | '*' => some .times
  | '/' => some .divide
  | '$' => some .sdivide
  | '%' => some .mod
  | '#' => some .smod
  | '[' => some .lshift
  | ']' => some .rshift
  | '}' => some .arshift
  | '&' => some .bitand
  | '|' => some .bitor
  | '^' => some .xor
  | '@' => some .concat
  | '=' => some .eq
  | '\\' => some .neq
  | '<' => some .lt
  | ',' => some .le
  | '>' => some .slt
  | '.' => some .sle
  | _ => none

def fbinopChar : FBinopType → Char
  | .fplus => '+'
  | .fminus => '-'
  | .ftimes => '*'
  | .fdivide => '/'
  | .feq => '='
  | .fneq => '\\'
  | .flt => '<'
  | .fle => ','

def fbinopOf : Char → Option FBinopType
  | '+' => some .fplus
  | '-' => some .fminus
  | '*' => some .ftimes
  | '/' => some .fdivide
  | '=' => some .feq
  | '\\' => some .fneq
  | '<' => some .flt
  | ',' => some .fle
  | _ => none

def unopChar : UnopType → Char
  | .neg => '~'
  | .not => '!'

def unopOf : Char → Option UnopType
  | '~' => some .neg
  | '!' => some .not
  | _ => none

def roundModeChar : RoundMode → Char
  | .nearest => 'e'
  | .nearestAwayZero => 'a'
  | .positive => 'P'
  | .negative => 'N'
  | .zero => 'Z'

def decodeRoundMode : Char → Decode RoundMode
  | 'e' => pure .nearest
  | 'a' => pure .nearestAwayZero
  | 'P' => pure .positive
  | 'N' => pure .negative
  | 'Z' => pure .zero
  | _ => throw (failure "Unexpected char in decode_round_mode")

def castChar : CastType → Typ → OCaml Char
  | .castUnsigned, .reg8 => pure 'U'
  | .castUnsigned, .reg16 => pure 'V'
  | .castUnsigned, .reg32 => pure 'W'
  | .castUnsigned, .reg64 => pure 'X'
  | .castSigned, .reg8 => pure 'Q'
  | .castSigned, .reg16 => pure 'R'
  | .castSigned, .reg32 => pure 'S'
  | .castSigned, .reg64 => pure 'T'
  | .castLow, .reg1 => pure 'l'
  | .castLow, .reg8 => pure 'm'
  | .castLow, .reg16 => pure 'n'
  | .castLow, .reg32 => pure 'o'
  | .castHigh, .reg1 => pure 'h'
  | .castHigh, .reg8 => pure 'i'
  | .castHigh, .reg16 => pure 'j'
  | .castHigh, .reg32 => pure 'k'
  | _, _ => throw (.failure "Unexpected cast type in encode_exp")

def castOf : Char → Decode (CastType × Typ)
  | 'U' => pure (.castUnsigned, .reg8)
  | 'V' => pure (.castUnsigned, .reg16)
  | 'W' => pure (.castUnsigned, .reg32)
  | 'X' => pure (.castUnsigned, .reg64)
  | 'Q' => pure (.castSigned, .reg8)
  | 'R' => pure (.castSigned, .reg16)
  | 'S' => pure (.castSigned, .reg32)
  | 'T' => pure (.castSigned, .reg64)
  | 'l' => pure (.castLow, .reg1)
  | 'm' => pure (.castLow, .reg8)
  | 'n' => pure (.castLow, .reg16)
  | 'o' => pure (.castLow, .reg32)
  | 'h' => pure (.castHigh, .reg1)
  | 'i' => pure (.castHigh, .reg8)
  | 'j' => pure (.castHigh, .reg16)
  | 'k' => pure (.castHigh, .reg32)
  | _ => throw (failure "Unknown cast type in decode_exp")

def fcastChar : FCastType → Char
  | .castSFloat => 'S'
  | .castUFloat => 'U'
  | .castSFix => 's'
  | .castUFix => 'u'
  | .castFWiden => 'W'
  | .castFNarrow => 'N'

def fcastOf : Char → Decode FCastType
  | 'S' => pure .castSFloat
  | 'U' => pure .castUFloat
  | 's' => pure .castSFix
  | 'u' => pure .castUFix
  | 'W' => pure .castFWiden
  | 'N' => pure .castFNarrow
  | _ => throw (failure "Unexpected FP cast type in decode_exp")

def fcastTypeChar : Typ → OCaml Char
  | .reg16 => pure 's'
  | .reg32 => pure 'i'
  | .reg64 => pure 'l'
  | _ => throw (.failure "Unsupported FP cast dest type in encode_exp")

def fcastTypeOf : Char → Decode Typ
  | 's' => pure .reg16
  | 'i' => pure .reg32
  | 'l' => pure .reg64
  | _ => throw (failure "Unexpected FP cast dest. type in decode_exp")

/-- What a constant pushes. -/
def constCode : Typ → I64 → OCaml OString
  | .reg1, c =>
    if c = 0 then pure [byte 'F']
    else if c = 1 then pure [byte 'T']
    else throw (.failure
      "Unsupported weird-type integer constant in encode_exp")
  | .reg8, c => pure (byte '8' :: int64Code c)
  | .reg16, c => pure (byte '1' :: int64Code c)
  | .reg32, c => pure (byte '3' :: int64Code c)
  | .reg64, c => pure (byte '6' :: int64Code c)
  | _, _ =>
    throw (.failure "Unsupported weird-type integer constant in encode_exp")

def memChar : Typ → OCaml Char
  | .reg8 => pure 'm'
  | .reg16 => pure 'n'
  | .reg32 => pure 'M'
  | .reg64 => pure 'N'
  | _ => throw (.failure "Unsupported weird-type memory lval in encode_exp")

/-! ## The compressed forms -/

/-- `e + 1 < e`, the carry of an increment. -/
def carryOf (e : Exp) : Exp :=
  .binOp .lt (.binOp .plus e (.int .reg32 1)) e

def isCarry (op : BinopType) (e1 e2 : Exp) : Bool :=
  match op, e1 with
  | .lt, .binOp .plus e (.int .reg32 c) => c = 1 ∧ e = e2
  | _, _ => false

def shifted (e : Exp) (c : I64) : Exp := .binOp .rshift e (.int .reg32 c)

/-- The shifts of an expression that the first is combined with. -/
def parityTail (e : Exp) : Exp :=
  .binOp .xor (shifted e 7) <| .binOp .xor (shifted e 6) <|
    .binOp .xor (shifted e 5) <| .binOp .xor (shifted e 4) <|
      .binOp .xor (shifted e 3) <| .binOp .xor (shifted e 2) (shifted e 1)

def parityOf (e : Exp) : Exp := .binOp .xor e (parityTail e)

/-- What is shifted by the constant. -/
def shiftedBy (c : I64) : Exp → Option Exp
  | .binOp .rshift e (.int .reg32 c') => if c' = c then some e else none
  | _ => none

/-- What is shifted by the constants, one after the other. -/
def shiftedByAll : List I64 → Exp → Option (List Exp)
  | [], _ => none
  | [c], e => (shiftedBy c e).map fun x => [x]
  | c :: cs, .binOp .xor e1 e2 => do
    pure ((← shiftedBy c e1) :: (← shiftedByAll cs e2))
  | _, _ => none

/-- The guard compares the first with the second to the seventh, with the
seventh twice, and with the eighth not at all. -/
def isParity (op : BinopType) (e1 tail : Exp) : Bool :=
  match op, shiftedByAll [7, 6, 5, 4, 3, 2, 1] tail with
  | .xor, some [e2, e3, e4, e5, e6, e7, _] =>
    e1 = e2 ∧ e1 = e3 ∧ e1 = e4 ∧ e1 = e5 ∧ e1 = e6 ∧ e1 = e7 ∧ e1 = e7
  | _, _ => false

/-! ## Encoding -/

/-- `loop` -/
def loop (o : AssertOptions) : Exp → Encode Unit
  | .binOp op e1 e2 =>
    if isCarry op e1 e2 then do
      push [byte 'O']
      -- the operand of the sum, which is the same
      loop o e2
    else if isParity op e1 e2 then do
      push [byte 'P']
      loop o e1
    else do
      push [byte (binopChar op)]
      loop o e1
      loop o e2
  | .fbinOp op rm e1 e2 => do
    push [byte 'f', byte (fbinopChar op), byte (roundModeChar rm)]
    loop o e1
    loop o e2
  | .unOp op e1 => do
    push [byte (unopChar op)]
    loop o e1
  | .funOp .fneg rm e1 => do
    push [byte 'f', byte '~', byte (roundModeChar rm)]
    loop o e1
  | .constant (.int t c) => do push (← lift (constCode t c))
  | .constant (.str s) => do
    push [byte 'S']
    pushString o s
  | .temp v => do
    push [byte 't']
    pushVar v
  | .mem v e1 t => do
    push [byte (← lift (memChar t))]
    pushVar v
    loop o e1
  | .name s => do
    push [byte 'l']
    pushString o s
  | .cast ct t e1 => do
    let tyChar ← lift (castChar ct t)
    push [byte 'C', byte tyChar]
    loop o e1
  | .fcast ct rm t e1 => do
    push [byte 'f', byte 'C', byte (roundModeChar rm), byte (fcastChar ct)]
    push [byte (← lift (fcastTypeChar t))]
    loop o e1
  | .ite ce te fe => do
    push [byte '?']
    loop o ce
    loop o te
    loop o fe
  | .unknown s => do
    push [byte 'U']
    pushString o s
  | .letTemp _ _ _ | .letMem _ _ _ _ _ =>
    throw (failure "Unexpected expr type in encode_exp")

def encodeExp (o : AssertOptions) (e : Exp) :
    Stateful MarshalExn MarshalState (OString × List Var) := do
  let (r, st) := (loop o e).run ⟨[], [], ← get⟩
  set st.global
  match r with
  | .ok _ => pure (st.chars.reverse, st.vars)
  | .error x => throw x

/-! ## Decoding -/

def parseRoundMode (i : OString) : Decode (OString × RoundMode) := do
  let (i2, c) ← charAt i
  pure (i2, ← decodeRoundMode (Char.ofNat c.toNat))

def parseConst (ty : Typ) (i : OString) : Decode (OString × Exp) := do
  let (i2, c) ← parseInt64 i
  pure (i2, .int ty c)

section Parse

variable (parse : OString → Decode (OString × Exp))

def parseBinop (op : BinopType) (i : OString) : Decode (OString × Exp) := do
  let (i2, e1) ← parse i
  let (i3, e2) ← parse i2
  pure (i3, .binOp op e1 e2)

def parseFbinop (op : FBinopType) (i : OString) : Decode (OString × Exp) := do
  let (i2, rm) ← parseRoundMode i
  let (i3, e1) ← parse i2
  let (i4, e2) ← parse i3
  pure (i4, .fbinOp op rm e1 e2)

def parseUnop (op : UnopType) (i : OString) : Decode (OString × Exp) := do
  let (i2, e1) ← parse i
  pure (i2, .unOp op e1)

def parseFunop (op : FUnopType) (i : OString) : Decode (OString × Exp) := do
  let (i2, rm) ← parseRoundMode i
  let (i3, e1) ← parse i2
  pure (i3, .funOp op rm e1)

def parseMem (varNumToName : ℤ → Option OString) (ty : Typ) (i : OString) :
    Decode (OString × Exp) := do
  let (i2, v) ← parseVar varNumToName i
  let (i3, e1) ← parse i2
  pure (i3, .mem v e1 ty)

def parseFloat (i : OString) : Decode (OString × Exp) := do
  let (i2, c) ← charAt i
  match fbinopOf (Char.ofNat c.toNat), Char.ofNat c.toNat with
  | some op, _ => parseFbinop parse op i2
  | none, '~' => parseFunop parse .fneg i2
  | none, 'C' => do
    let (i3, rm) ← parseRoundMode i2
    let (i4, c1) ← charAt i3
    let op ← fcastOf (Char.ofNat c1.toNat)
    let (i5, c2) ← charAt i4
    let ty ← fcastTypeOf (Char.ofNat c2.toNat)
    let (i6, e) ← parse i5
    pure (i6, .fcast op rm ty e)
  | none, _ => throw (failure "Unknown FP op type in decode_exp")

end Parse

/-- `parse`, with a bound on the calls that are nested.  A call takes at least
one character. -/
def parse (varNumToName : ℤ → Option OString) :
    ℕ → OString → Decode (OString × Exp)
  | 0, _ => throw .exhausted
  | n + 1, i => do
    let parse := parse varNumToName n
    let (i', c) ← charAt i
    let c := Char.ofNat c.toNat
    match binopOf c, unopOf c, c with
    | some op, _, _ => parseBinop parse op i'
    | none, some op, _ => parseUnop parse op i'
    | none, none, 'F' => pure (i', .int .reg1 0)
    | none, none, 'T' => pure (i', .int .reg1 1)
    | none, none, '8' => parseConst .reg8 i'
    | none, none, '1' => parseConst .reg16 i'
    | none, none, '3' => parseConst .reg32 i'
    | none, none, '6' => parseConst .reg64 i'
    | none, none, 'S' => do
      let (i2, s) ← parseString i'
      pure (i2, .constant (.str s))
    | none, none, 't' => do
      let (i2, v) ← parseVar varNumToName i'
      pure (i2, .temp v)
    | none, none, 'm' => parseMem parse varNumToName .reg8 i'
    | none, none, 'n' => parseMem parse varNumToName .reg16 i'
    | none, none, 'M' => parseMem parse varNumToName .reg32 i'
    | none, none, 'N' => parseMem parse varNumToName .reg64 i'
    | none, none, 'l' => do
      let (i2, s) ← parseString i'
      pure (i2, .name s)
    | none, none, 'C' => do
      let (i2, tyChar) ← charAt i'
      let (ct, ty) ← castOf (Char.ofNat tyChar.toNat)
      let (i3, e1) ← parse i2
      pure (i3, .cast ct ty e1)
    | none, none, 'f' => parseFloat parse i'
    | none, none, '?' => do
      let (i2, e1) ← parse i'
      let (i3, e2) ← parse i2
      let (i4, e3) ← parse i3
      pure (i4, .ite e1 e2 e3)
    | none, none, 'U' => do
      let (i2, s) ← parseString i'
      pure (i2, .unknown s)
    | none, none, 'O' => do
      let (i2, e1) ← parse i'
      pure (i2, carryOf e1)
    | none, none, 'P' => do
      let (i2, e1) ← parse i'
      pure (i2, parityOf e1)
    | none, none, _ => throw (failure "Unhandled character in decode_exp")

def decodeExp (o : AssertOptions) (s : OString) :
    Stateful MarshalExn MarshalState Exp := do
  match parse (← get).varNumToName (s.length + 1) s with
  | .error x => throw x
  | .ok (i2, e) =>
    assertAt o i2.isEmpty "Frag_marshal.decode_exp"
    pure e

end Fuzzball.FragMarshal
