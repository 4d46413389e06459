import Fuzzball.VineTypecheck

/-!
# Constant folding

`vine_opt.ml`: the conversions between values and 64-bit integers, and
`constant_fold`.  The function is one `match` with guards; each of its cases is
a rule here, a function that answers `none` where its pattern or its guard
fails, and the rules are tried in the order of the source.  Cases that differ
only in a type, a mask or an operator share one parametrised rule.
-/

namespace Fuzzball.Vine

/-! ## Values as 64-bit integers -/

def fixU8 (x : I64) : I64 := x &&& 0xff
def fixU16 (x : I64) : I64 := x &&& 0xffff
def fixU32 (x : I64) : I64 := x &&& 0xffffffff

def fixS8 (x : I64) : I64 := (x <<< 56).sshiftRight 56
def fixS16 (x : I64) : I64 := (x <<< 48).sshiftRight 48
def fixS32 (x : I64) : I64 := (x <<< 32).sshiftRight 32

/-- `to64`: drop the high bits.  The shifts are by less than 64. -/
def to64 : Value → OCaml I64
  | .int t i => do
      let bits := 64 - (← bitsOfWidth t)
      pure ((i <<< bits) >>> bits)
  | .str _ => throw (.invalidArgument "to64 is only for integers")

/-- `tos64`: sign extend to 64 bits. -/
def tos64 : Value → OCaml I64
  | .int t i => do
      let bits := 64 - (← bitsOfWidth t)
      pure ((i <<< bits).sshiftRight bits)
  | .str _ => throw (.invalidArgument "tos64 is only for integers")

/-- Shifting by more than `max` bits is the same as shifting by `max` bits. -/
def toshift (max : ℕ) (v : Value) : OCaml ℕ := do
  let i ← to64 v
  if i.sle (BitVec.ofNat 64 max) && (0 : I64).sle i then pure i.toNat
  else pure max

/-- `to_val`: cast an `int64` to a value. -/
def toVal (t : Typ) (v : I64) : OCaml Exp := do
  let mask := (-1 : I64) >>> (64 - (← bitsOfWidth t))
  pure (.int t (mask &&& v))

def bvConcat (wild : WildShift) (t : Typ) (v1 v2 : I64) : OCaml I64 := do
  pure (v2 ||| I64.shiftLeft wild v1 (← bitsOfWidth t))

def flipBool : Exp → Exp
  | .unOp .not e => e
  | e => .unOp .not e

/-! ## Operations on constants -/

/-- `bop` on two integer constants, the first of type `t`. -/
def foldBinop
    (wild : WildShift) (bop : BinopType) (t : Typ) (v1 v2 : Value) :
    OCaml Exp := do
  match bop with
  | .plus => toVal t ((← to64 v1) + (← to64 v2))
  | .minus => toVal t ((← to64 v1) - (← to64 v2))
  | .times => toVal t ((← to64 v1) * (← to64 v2))
  | .bitand => toVal t ((← to64 v1) &&& (← to64 v2))
  | .bitor => toVal t ((← to64 v1) ||| (← to64 v2))
  | .xor => toVal t ((← to64 v1) ^^^ (← to64 v2))
  | .eq => pure (expBool ((← to64 v1) == (← to64 v2)))
  | .neq => pure (expBool ((← to64 v1) != (← to64 v2)))
  | .lshift =>
    toVal t (I64.shiftLeft wild (← to64 v1) (← toshift (← bitsOfWidth t) v2))
  | .rshift =>
    toVal t (I64.shiftRightLogical wild (← to64 v1)
      (← toshift (← bitsOfWidth t) v2))
  | .arshift =>
    toVal t (I64.shiftRight wild (← tos64 v1) (← toshift (← bitsOfWidth t) v2))
  | .divide => toVal t (← I64.udiv (← tos64 v1) (← tos64 v2))
  | .sdivide => toVal t (← I64.div (← tos64 v1) (← tos64 v2))
  | .mod => toVal t (← I64.urem (← tos64 v1) (← tos64 v2))
  | .smod => toVal t (← I64.rem (← tos64 v1) (← tos64 v2))
  | .concat =>
    let v ← bvConcat wild t (← to64 v1) (← to64 v2)
    toVal (← doubleWidth t) v
  | .slt => pure (expBool ((← tos64 v1).slt (← tos64 v2)))
  | .sle => pure (expBool ((← tos64 v1).sle (← tos64 v2)))
  | .lt => pure (expBool (I64.ucompare (← to64 v1) (← to64 v2) < 0))
  | .le => pure (expBool (I64.ucompare (← to64 v1) (← to64 v2) ≤ 0))

def foldUnop (op : UnopType) (t : Typ) (v : Value) : OCaml Exp := do
  match op with
  | .neg => toVal t (-(← to64 v))
  | .not => toVal t (~~~(← to64 v))

/-- The cast `ct` to `t2` of an integer constant of type `t`. -/
def foldCast
    (wild : WildShift) (ct : CastType) (t2 t : Typ) (v : Value) :
    OCaml Exp := do
  let bits1 ← bitsOfWidth t
  let bits ← bitsOfWidth t2
  match ct with
  | .castUnsigned => toVal t2 (← to64 v)
  | .castSigned => toVal t2 (← tos64 v)
  | .castHigh =>
    toVal t2 (I64.shiftRight wild
      ((← to64 v) &&& I64.shiftLeft wild (-1) (bits1 - bits : ℤ))
      (bits1 - bits : ℤ))
  | .castLow => toVal t2 ((← to64 v) &&& ~~~I64.shiftLeft wild (-1) bits)

/-! ## Rules -/

/-- One case of the `match`: the expression it returns, or `none` where the
case does not apply. -/
abbrev Rule := Exp → OCaml (Option Exp)

def rewriteIf (guard : Prop) [Decidable guard] (e : Exp) :
    OCaml (Option Exp) :=
  pure (if guard then some e else none)

/-- Rewrite to `e'` when `e` has the type `t`. -/
def rewriteIfType (e : Exp) (t : Typ) (e' : Exp) : OCaml (Option Exp) := do
  rewriteIf ((← inferType none e) = t) e'

/-! ### Constants -/

def constantBinop (wild : WildShift) : Rule
  | .binOp bop (.constant v1) (.constant v2) =>
    match v1, v2 with
    | .int t _, .int _ _ => some <$> foldBinop wild bop t v1 v2
    | _, _ => throw (.failure "Constant folding failed for BinOp")
  | _ => pure none

def constantUnop : Rule
  | .unOp op (.constant v) =>
    match v with
    | .int t _ => some <$> foldUnop op t v
    | .str _ => throw (.failure "Constant folding failed for UnOp")
  | _ => pure none

/-- The result of a floating-point operation on constants is not modelled. -/
def constantFBinop : Rule
  | .fbinOp _ _ (.constant v1) (.constant v2) =>
    match v1, v2 with
    | .int .reg32 _, .int .reg32 _ => throw .floatingPoint
    | .int .reg64 _, .int .reg64 _ => throw .floatingPoint
    | _, _ => throw (.failure "Constant folding failed for FBinOp")
  | _ => pure none

def constantFUnop : Rule
  | .funOp _ _ (.constant v) =>
    match v with
    | .int .reg32 _ => throw .floatingPoint
    | .int .reg64 _ => throw .floatingPoint
    | _ => throw (.failure "Constant folding failed for FUnOp")
  | _ => pure none

def constantCast (wild : WildShift) : Rule
  | .cast ct t2 (.constant v) =>
    match v with
    | .int t _ => some <$> foldCast wild ct t2 t v
    | .str _ => throw (.failure "Constant folding failed for Cast")
  | _ => pure none

def constantFCast : Rule
  | .fcast ct _ t2 (.constant v) =>
    match ct, t2, v with
    | .castSFloat, .reg32, .int _ _ | .castSFloat, .reg64, .int _ _
    | .castUFloat, .reg32, .int _ _ | .castUFloat, .reg64, .int _ _
    | .castSFix, _, .int .reg32 _ | .castSFix, _, .int .reg64 _
    | .castUFix, _, .int .reg32 _ | .castUFix, _, .int .reg64 _
    | .castFWiden, .reg64, .int .reg32 _
    | .castFNarrow, .reg32, .int .reg64 _ => throw .floatingPoint
    | _, _, _ => throw (.failure "Constant folding failed for FCast")
  | _ => pure none

/-! ### Identity and absorbing elements -/

def andZero : Rule
  | .binOp .bitand _ (.int t c) => rewriteIf (c = 0) (.int t c)
  | _ => pure none

def andOnes : Rule
  | .binOp .bitand x (.constant v) => do rewriteIf ((← tos64 v) = -1) x
  | _ => pure none

def orOnes : Rule
  | .binOp .bitor _ (.constant v) => do
      rewriteIf ((← tos64 v) = -1) (.constant v)
  | _ => pure none

/-- `x op c` is `x`. -/
def rightIdentity (op : BinopType) (c : I64) : Rule
  | .binOp op' x (.int _ c') => rewriteIf (op' = op ∧ c' = c) x
  | _ => pure none

def modOne : Rule
  | .binOp op _ (.int ty c) =>
    rewriteIf ((op = .mod ∨ op = .smod) ∧ c = 1) (.int ty 0)
  | _ => pure none

def notPredecessor : Rule
  | .unOp .not (.binOp .plus e1 (.int _ c)) =>
    rewriteIf (c = -1) (.unOp .neg e1)
  | _ => pure none

/-- `op (op x)` is `x`. -/
def involution (op : UnopType) : Rule
  | .unOp op' (.unOp op'' x) => rewriteIf (op' = op ∧ op'' = op) x
  | _ => pure none

/-! ### Casts -/

/-- No redundant double casts. -/
def doubleCast : Rule
  | .cast ct2 w2 (.cast ct1 _ e1) => rewriteIf (ct1 = ct2) (.cast ct1 w2 e1)
  | _ => pure none

/-- Widening cast followed by narrowing cast with same type. -/
def narrowToOrigin (ct : CastType) : Rule
  | .cast .castLow t2 (.cast ct' _ e) =>
    if ct' = ct then rewriteIfType e t2 e else pure none
  | _ => pure none

/-- Redundant widening inside narrowing. -/
def narrowBelowOrigin : Rule
  | .cast .castLow t2 (.cast ct _ e) =>
    if ct = .castSigned ∨ ct = .castUnsigned then do
      let w2 ← bitsOfWidth t2
      let wE ← bitsOfWidth (← inferType none e)
      rewriteIf (w2 < wE) (.cast .castLow t2 e)
    else pure none
  | _ => pure none

/-- Widening followed by narrowing equivalent to narrower widening. -/
def narrowAboveOrigin : Rule
  | .cast .castLow t1 (.cast ct _ e) =>
    if ct = .castSigned ∨ ct = .castUnsigned then do
      let w3 ← bitsOfWidth (← inferType none e)
      let w1 ← bitsOfWidth t1
      rewriteIf (w3 ≤ w1) (.cast ct t1 e)
    else pure none
  | _ => pure none

/-- High cast selects only the zero bits from an unsigned cast. -/
def highOfUnsigned : Rule
  | .cast .castHigh t1 (.cast .castUnsigned t2 e3) => do
      let w3 ← bitsOfWidth (← inferType none e3)
      let w2 ← bitsOfWidth t2
      let w1 ← bitsOfWidth t1
      rewriteIf ((w1 : ℤ) ≤ w2 - w3) (.int t1 0)
  | _ => pure none

/-- High bit preserved by `CAST_SIGNED`. -/
def signOfSigned : Rule
  | .cast .castHigh .reg1 (.cast .castSigned _ e1) =>
    pure (some (.cast .castHigh .reg1 e1))
  | _ => pure none

/-- U widen then S widen same as single U widen. -/
def signedOfUnsigned : Rule
  | .cast .castSigned t1 (.cast .castUnsigned t2 e3) => do
      let w3 ← bitsOfWidth (← inferType none e3)
      let w2 ← bitsOfWidth t2
      rewriteIf (w3 < w2) (.cast .castUnsigned t1 e3)
  | _ => pure none

/-- Boolean to integer to boolean conversion with `== 0`. -/
def extendEqZero : Rule
  | .binOp .eq (.cast ct _ e) (.int _ c) =>
    if (ct = .castSigned ∨ ct = .castUnsigned) ∧ c = 0 then
      rewriteIfType e .reg1 (flipBool e)
    else pure none
  | _ => pure none

/-! ### Casts and masks -/

/-- Cast followed by AND operation that cancels effect of cast. -/
def maskOfExtend (ct : CastType) (t : Typ) (mask : I64) : Rule
  | .binOp .bitand (.cast ct' .reg32 e) (.int .reg32 c) =>
    if ct' = ct ∧ c = mask then
      rewriteIfType e t (.cast .castUnsigned .reg32 e)
    else pure none
  | _ => pure none

/-- Cast followed by left shift followed by unnecessary AND operation. -/
def maskOfShiftedByte (amt mask : I64) : Rule
  | .binOp .bitand
      (.binOp .lshift (.cast .castUnsigned .reg32 e) (.int .reg8 s))
      (.int .reg32 c) =>
    if s = amt ∧ c = mask then
      rewriteIfType e .reg8
        (.binOp .lshift (.cast .castUnsigned .reg32 e) (.int .reg32 amt))
    else pure none
  | _ => pure none

/-- Redundant cast and AND. -/
def lowOfMask (t : Typ) (mask : I64) : Rule
  | .cast .castLow t' (.binOp .bitand e (.int _ c)) =>
    rewriteIf (t' = t ∧ c = mask) (.cast .castLow t e)
  | _ => pure none

/-- Low cast gets only 0 due to left shift. -/
def lowOfShift : Rule
  | .cast .castLow cty (.binOp .lshift _ (.int _ amt)) => do
      let bits ← bitsOfWidth cty
      rewriteIf ((BitVec.ofNat 64 bits).sle amt) (.int cty 0)
  | _ => pure none

/-- A different way a mask can be redundant with a cast. -/
def maskCoversExtend (wide : List Typ) (t : Typ) (low : I64) : Rule
  | .binOp .bitand (.cast .castUnsigned t' e) (.int _ mask) =>
    if t' ∈ wide then do
      rewriteIf ((← inferType none e) = t ∧ mask &&& low = low)
        (.cast .castUnsigned t' e)
    else pure none
  | _ => pure none

/-- A more complex way of writing sign extension. -/
def signExtendByShifts (wide narrow : Typ) (s1 s2 : I64) : Rule
  | .binOp .bitor (.cast .castUnsigned t e1)
      (.binOp .lshift
        (.cast .castUnsigned t' (.binOp .arshift e2 (.int _ c1)))
        (.int _ c2)) =>
    if (t = wide ∧ t' = wide ∧ c1 = s1 ∧ c2 = s2) ∧ e1 = e2 then
      rewriteIfType e1 narrow (.cast .castSigned wide e1)
    else pure none
  | _ => pure none

/-- A combination of casts equivalent to sign extension. -/
def signExtendByMask : Rule
  | .binOp .bitor (.cast .castUnsigned .reg32 e1)
      (.binOp .bitand (.cast .castSigned .reg32 e1') (.int .reg32 c)) =>
    rewriteIf (c = 0xffffff00 ∧ e1 = e1') (.cast .castSigned .reg32 e1')
  | _ => pure none

/-- Low bits ORed inside a mask that discards them. -/
def maskDiscardsByte : Rule
  | .binOp .bitand (.binOp .bitor (.cast .castUnsigned .reg32 e1) e2)
      (.int .reg32 c) =>
    if c = 0xffffff00 then
      rewriteIfType e1 .reg8 (.binOp .bitand e2 (.int .reg32 0xffffff00))
    else pure none
  | _ => pure none

/-- Impossible equalities with extension casts. -/
def impossibleEq
    (ct : CastType) (wide : List Typ) (t : Typ) (fix : I64 → I64) : Rule
  | .binOp .eq (.cast ct' t' e1) (.int _ c) =>
    if ct' = ct ∧ t' ∈ wide then do
      rewriteIf ((← inferType none e1) = t ∧ c ≠ fix c) expFalse
    else pure none
  | _ => pure none

def trivialCast : Rule
  | .cast _ ty e => rewriteIfType e ty e
  | _ => pure none

/-! ### Variables and conditionals -/

def lookup (ctx : LValue → Option Exp) : Rule
  | .temp v => pure (some ((ctx (.temp v)).getD (.temp v)))
  | .mem v addr t => pure (some ((ctx (.mem v addr t)).getD (.mem v addr t)))
  | _ => pure none

def iteConstant : Rule
  | .ite (.int _ v) e1 e2 => pure (some (if v ≠ 0 then e1 else e2))
  | _ => pure none

def iteSame : Rule
  | .ite _ e1 e1' => rewriteIf (e1 = e1') e1
  | _ => pure none

def iteNot : Rule
  | .ite (.unOp .not c) x y => pure (some (.ite c y x))
  | _ => pure none

def iteTrueFalse : Rule
  | .ite cond (.int .reg1 a) (.int .reg1 b) => rewriteIf (a = 1 ∧ b = 0) cond
  | _ => pure none

def iteFalseTrue : Rule
  | .ite cond (.int .reg1 a) (.int .reg1 b) =>
    rewriteIf (a = 0 ∧ b = 1) (.unOp .not cond)
  | _ => pure none

def iteTrueOr : Rule
  | .ite cond (.int .reg1 a) cond2 =>
    rewriteIf (a = 1) (.binOp .bitor cond cond2)
  | _ => pure none

def iteAndFalse : Rule
  | .ite cond cond2 (.int .reg1 b) =>
    rewriteIf (b = 0) (.binOp .bitand cond cond2)
  | _ => pure none

def castIte : Rule
  | .cast ct ty (.ite cond e1 e2) =>
    pure (some (.ite cond (.cast ct ty e1) (.cast ct ty e2)))
  | _ => pure none

def binopIte : Rule
  | .binOp op (.ite cond e1 e2) (.constant k) =>
    rewriteIf (op ≠ .plus)
      (.ite cond (.binOp op e1 (.constant k)) (.binOp op e2 (.constant k)))
  | _ => pure none

/-! ### Concatenation -/

def lowOfConcat (t : Typ) : Rule
  | .cast .castLow t' (.binOp .concat _ el) =>
    if t' = t then rewriteIfType el t el else pure none
  | _ => pure none

def highOfConcat (t : Typ) : Rule
  | .cast .castHigh t' (.binOp .concat eh _) =>
    if t' = t then rewriteIfType eh t eh else pure none
  | _ => pure none

def lowBitOfConcat : Rule
  | .cast .castLow .reg1 (.binOp .concat _ el) =>
    pure (some (.cast .castLow .reg1 el))
  | _ => pure none

def highBitOfConcat : Rule
  | .cast .castHigh .reg1 (.binOp .concat eh _) =>
    pure (some (.cast .castHigh .reg1 eh))
  | _ => pure none

def zeroConcat (t wide : Typ) : Rule
  | .binOp .concat (.int t' c) x =>
    rewriteIf (t' = t ∧ c = 0) (.cast .castUnsigned wide x)
  | _ => pure none

/-! ### An operand repeated -/

def idempotent : Rule
  | .binOp op x y => rewriteIf ((op = .bitor ∨ op = .bitand) ∧ x = y) x
  | _ => pure none

def reflexive : Rule
  | .binOp op x y =>
    rewriteIf ((op = .eq ∨ op = .le ∨ op = .sle) ∧ x = y) expTrue
  | _ => pure none

def irreflexive : Rule
  | .binOp op x y =>
    rewriteIf ((op = .neq ∨ op = .lt ∨ op = .slt) ∧ x = y) expFalse
  | _ => pure none

/-! ### Shifts, products and quotients -/

/-- Repeated shifts of the same type. -/
def shiftOfShift (op : BinopType) : Rule
  | .binOp op1 (.binOp op2 x (.int ty1 s1)) (.int ty2 s2) =>
    rewriteIf ((op1 = op ∧ op2 = op) ∧ ty1 = ty2 ∧ (0 : I64).sle s1 ∧
        (0 : I64).sle s2)
      (.binOp op x (.int ty1 (s1 + s2)))
  | _ => pure none

/-- Common compiler optimization of `x /u 10`. -/
def divideByTen : Rule
  | .binOp .rshift
      (.cast .castHigh .reg32
        (.binOp .times (.cast .castUnsigned .reg64 x) (.int _ k)))
      (.int _ s) =>
    if k = 0xcccccccd ∧ s = 3 then
      rewriteIfType x .reg32 (.binOp .divide x (.int .reg32 10))
    else pure none
  | _ => pure none

/-- Left shift combined with multiplication. -/
def shiftOfProduct (wild : WildShift) : Rule
  | .binOp .lshift (.binOp .times x (.int ty factor)) (.int _ shift) => do
      let factor2 := I64.shiftLeft wild factor (I64.toOCamlInt shift)
      rewriteIf (.int ty factor2 = (← toVal ty factor2))
        (.binOp .times x (.int ty factor2))
  | _ => pure none

/-- Modulo as the remainder after integer division. -/
def moduloRight : Rule
  | .binOp .plus x1 (.unOp .neg (.binOp .times (.binOp .divide x2 k1) k2)) =>
    rewriteIf (x1 = x2 ∧ k1 = k2) (.binOp .mod x1 k1)
  | _ => pure none

def moduloLeft : Rule
  | .binOp .plus (.unOp .neg (.binOp .times (.binOp .divide x2 k1) k2)) x1 =>
    rewriteIf (x1 = x2 ∧ k1 = k2) (.binOp .mod x1 k1)
  | _ => pure none

def moduloSum : Rule
  | .binOp .plus (.unOp .neg (.binOp .times (.binOp .divide x2 k1) k2))
      (.binOp .plus x1 y) =>
    rewriteIf (x1 = x2 ∧ k1 = k2) (.binOp .plus (.binOp .mod x1 k1) y)
  | _ => pure none

/-- `byte & 0xffffff00 = 0`. -/
def maskClearsByte : Rule
  | .binOp .bitand (.cast .castUnsigned .reg32 e) (.int .reg32 c) =>
    if c = 0xffffff00 then rewriteIfType e .reg8 (.int .reg32 0)
    else pure none
  | _ => pure none

/-- A shift by at least the register size gives zero. -/
def shiftOut (t : Typ) (size : I64) : Rule
  | .binOp op e (.int _ amt) =>
    if op = .lshift ∨ op = .rshift then do
      rewriteIf ((← inferType none e) = t ∧ size.sle amt) (.int t 0)
    else pure none
  | _ => pure none

/-- `byte >> amt = 0` when `amt >= 8`, within a larger word. -/
def shiftOutByte (wide : Typ) : Rule
  | .binOp .rshift (.cast .castUnsigned t e) (.int _ amt) =>
    if t = wide then do
      rewriteIf ((← inferType none e) = .reg8 ∧ (8 : I64).sle amt)
        (.int wide 0)
    else pure none
  | _ => pure none

/-- `(c ? k : k + 1) = (k + (int)c)`. -/
def maskedChoice : Rule
  | .binOp .bitor
      (.binOp .bitand (.cast .castSigned .reg32 c1) (.int .reg32 k1))
      (.binOp .bitand (.unOp .not (.cast .castSigned .reg32 c2))
        (.int .reg32 k2)) =>
    rewriteIf (c1 = c2 ∧ k2 = k1 + 1)
      (.binOp .plus (.int .reg32 k1) (.cast .castUnsigned .reg32 c1))
  | _ => pure none

/-! ### Sums -/

/-- The zero of the type of `x`. -/
def zeroOf (x : Exp) : OCaml (Option Exp) := do
  pure (some (.int (← inferType none x) 0))

/-- `x + -x = 0`. -/
def plusNeg : Rule
  | .binOp .plus x (.unOp .neg y) => if x = y then zeroOf x else pure none
  | _ => pure none

/-- `-x + x = 0`. -/
def negPlus : Rule
  | .binOp .plus (.unOp .neg x) y => if x = y then zeroOf x else pure none
  | _ => pure none

/-- `x + x = x << 1`. -/
def plusSelf : Rule
  | .binOp .plus x y =>
    rewriteIf (x = y) (.binOp .lshift x (.int .reg8 1))
  | _ => pure none

/-- `x + (x << s) = factor * x`. -/
def plusShifted (s factor : I64) : Rule
  | .binOp .plus x (.binOp .lshift y (.int _ c)) =>
    if c = s ∧ x = y then do
      pure (some (.binOp .times (.int (← inferType none x) factor) x))
    else pure none
  | _ => pure none

/-- `x + -x + y = y`. -/
def plusNegPlus : Rule
  | .binOp .plus x (.binOp .plus (.unOp .neg y) z) => rewriteIf (x = y) z
  | _ => pure none

/-! ### Boolean algebra -/

/-- `x & !x = 0`. -/
def andNot : Rule
  | .binOp .bitand x (.unOp .not y) => if x = y then zeroOf x else pure none
  | _ => pure none

/-- `(x & y) | (x & !y) == x`. -/
def splitByMask : Rule
  | .binOp .bitor (.binOp .bitand x1 y1) (.binOp .bitand x2 (.unOp .not y2)) =>
    rewriteIf (x1 = x2 ∧ y1 = y2) x1
  | _ => pure none

/-- `x | (!x & y) == x | y`. -/
def orNotAnd : Rule
  | .binOp .bitor x1 (.binOp .bitand (.unOp .not x2) y) =>
    rewriteIf (x1 = x2) (.binOp .bitor x1 y)
  | _ => pure none

/-- `x ^ x = 0`. -/
def xorSelf : Rule
  | .binOp .xor x y => if x = y then zeroOf x else pure none
  | _ => pure none

/-- `x ^ x ^ y = y`. -/
def xorCancel : Rule
  | .binOp .xor x (.binOp .xor y z) => rewriteIf (x = y) z
  | _ => pure none

/-! ### Comparisons with zero -/

/-- `x + c = 0 -> x = -c`, for `c` constant. -/
def plusEqZero (fold : Exp → OCaml Exp) : Rule
  | .binOp .eq (.binOp .plus x (.constant c)) (.int _ z) =>
    if z = 0 then do
      pure (some (.binOp .eq x (← fold (.unOp .neg (.constant c)))))
    else pure none
  | _ => pure none

/-- `a + -b = 0 ==> a == b`. -/
def differenceEqZero : Rule
  | .binOp .eq (.binOp .plus a (.unOp .neg b)) (.int _ z) =>
    rewriteIf (z = 0) (.binOp .eq a b)
  | _ => pure none

/-- `a ^ b = 0 ==> a == b`. -/
def xorEqZero : Rule
  | .binOp .eq (.binOp .xor a b) (.int _ z) =>
    rewriteIf (z = 0) (.binOp .eq a b)
  | _ => pure none

/-- `a < b | a == b ==> a <= b`. -/
def lessOrEqual (strict weak : BinopType) : Rule
  | .binOp .bitor (.binOp op a1 b1) (.binOp .eq a2 b2) =>
    rewriteIf (op = strict ∧ a1 = a2 ∧ b1 = b2) (.binOp weak a1 b1)
  | _ => pure none

/-- `(a | c) == 0 ==> false`, if `c` is a non-zero constant. -/
def orEqZero : Rule
  | .binOp .eq (.binOp .bitor _ (.int _ c)) (.int _ z) =>
    rewriteIf (z = 0 ∧ c ≠ 0) expFalse
  | _ => pure none

/-- `((a | c) << 32) == 0`, if `c` is a non-low32-zero constant. -/
def shiftedOrZero (op : BinopType) (result : Exp) : Rule
  | .binOp op' (.binOp .lshift (.binOp .bitor _ (.int _ c)) (.int _ s))
      (.int _ z) =>
    rewriteIf ((op' = op ∧ s = 32 ∧ z = 0) ∧ 0xffffffff &&& c ≠ 0) result
  | _ => pure none

/-! ## The fold -/

/-- The answer of the first rule that applies. -/
def firstMatch : List Rule → Rule
  | [], _ => pure none
  | r :: rs, e => do
      match ← r e with
      | some e' => pure (some e')
      | none => firstMatch rs e

/-- The cases for operations on constants. -/
def constantRules (wild : WildShift) : List Rule :=
  [constantBinop wild, constantUnop, constantFBinop, constantFUnop,
    constantCast wild, constantFCast]

/-- The cases "some identities". -/
def identityRules : List Rule :=
  [andZero, andOnes, rightIdentity .bitor 0, orOnes, rightIdentity .xor 0,
    rightIdentity .plus 0, rightIdentity .lshift 0, rightIdentity .rshift 0,
    rightIdentity .arshift 0, rightIdentity .times 1, rightIdentity .divide 1,
    rightIdentity .sdivide 1, modOne, notPredecessor, involution .neg,
    involution .not]

def castRules : List Rule :=
  [doubleCast, narrowToOrigin .castUnsigned, narrowToOrigin .castSigned,
    narrowBelowOrigin, narrowAboveOrigin, highOfUnsigned, signOfSigned,
    signedOfUnsigned, extendEqZero]

def maskRules : List Rule :=
  [maskOfExtend .castUnsigned .reg8 0xff,
    maskOfExtend .castUnsigned .reg16 0xffff,
    maskOfExtend .castSigned .reg8 0xff,
    maskOfExtend .castSigned .reg16 0xffff,
    maskOfShiftedByte 0x8 0xff00,
    maskOfShiftedByte 0x10 0xff0000,
    maskOfShiftedByte 0x18 0xff000000,
    lowOfMask .reg8 0xff,
    lowOfMask .reg16 0xffff,
    lowOfMask .reg32 0xffffffff,
    lowOfShift,
    maskCoversExtend [.reg16, .reg32, .reg64] .reg8 0xff,
    maskCoversExtend [.reg32, .reg64] .reg16 0xffff,
    maskCoversExtend [.reg64] .reg32 0xffffffff,
    signExtendByShifts .reg64 .reg32 31 32,
    signExtendByShifts .reg32 .reg16 15 16,
    signExtendByShifts .reg16 .reg8 7 8,
    signExtendByMask,
    maskDiscardsByte]

def impossibleEqRules : List Rule :=
  [impossibleEq .castUnsigned [.reg16, .reg32, .reg64] .reg8 fixU8,
    impossibleEq .castSigned [.reg16] .reg8 (fun c => fixU16 (fixS8 c)),
    impossibleEq .castSigned [.reg32] .reg8 (fun c => fixU32 (fixS8 c)),
    impossibleEq .castSigned [.reg64] .reg8 fixS8,
    impossibleEq .castUnsigned [.reg32, .reg64] .reg16 fixU16,
    impossibleEq .castSigned [.reg32] .reg16 (fun c => fixU32 (fixS16 c)),
    impossibleEq .castSigned [.reg64] .reg16 fixS16,
    impossibleEq .castUnsigned [.reg64] .reg32 fixU32,
    impossibleEq .castSigned [.reg64] .reg32 fixS32]

def iteRules (ctx : LValue → Option Exp) : List Rule :=
  [trivialCast, lookup ctx, iteConstant, iteSame, iteNot, iteTrueFalse,
    iteFalseTrue, iteTrueOr, iteAndFalse, castIte, binopIte]

def concatRules : List Rule :=
  [lowOfConcat .reg8, lowOfConcat .reg16, lowOfConcat .reg32,
    highOfConcat .reg8, highOfConcat .reg16, highOfConcat .reg32,
    lowBitOfConcat, highBitOfConcat, zeroConcat .reg8 .reg16,
    zeroConcat .reg16 .reg32, zeroConcat .reg32 .reg64]

def shiftRules (wild : WildShift) : List Rule :=
  [idempotent, reflexive, irreflexive, shiftOfShift .lshift,
    shiftOfShift .rshift, shiftOfShift .arshift, divideByTen,
    shiftOfProduct wild, moduloRight, moduloLeft, moduloSum, maskClearsByte,
    shiftOut .reg8 8, shiftOut .reg16 16, shiftOut .reg32 32,
    shiftOut .reg64 64, shiftOutByte .reg32, shiftOutByte .reg64,
    maskedChoice]

def algebraRules (fold : Exp → OCaml Exp) : List Rule :=
  [plusNeg, negPlus, plusSelf, plusShifted 1 3, plusShifted 2 5, plusNegPlus,
    andNot, splitByMask, orNotAnd, xorSelf, xorCancel, plusEqZero fold,
    differenceEqZero, xorEqZero, lessOrEqual .lt .le, lessOrEqual .slt .sle,
    orEqZero, shiftedOrZero .eq expFalse, shiftedOrZero .neq expTrue]

def rules
    (wild : WildShift) (ctx : LValue → Option Exp) (fold : Exp → OCaml Exp) :
    List Rule :=
  constantRules wild ++ identityRules ++ castRules ++ maskRules ++
    impossibleEqRules ++ iteRules ctx ++ concatRules ++ shiftRules wild ++
    algebraRules fold

/-- One unfolding of `constant_fold`, with `fold` for its recursive calls. -/
def constantFoldStep
    (wild : WildShift) (ctx : LValue → Option Exp) (fold : Exp → OCaml Exp)
    (e : Exp) : OCaml Exp := do
  match e with
  | .binOp .minus e1 e2 => fold (.binOp .plus e1 (← fold (.unOp .neg e2)))
  | _ => pure ((← firstMatch (rules wild ctx fold) e).getD e)

/-- `constant_fold`.  It calls itself on negations and sums only, and on those
it makes no further call. -/
def constantFold (wild : WildShift) (ctx : LValue → Option Exp) (e : Exp) :
    OCaml Exp :=
  constantFoldStep wild ctx
    (constantFoldStep wild ctx fun _ => throw .assertFailure) e

end Fuzzball.Vine
