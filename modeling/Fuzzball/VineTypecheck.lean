import Fuzzball.VineSyntax

/-!
# Type inference for Vine expressions

`vine_typecheck.ml` without the table of label names, which the checker only
threads through.  A context `gamma` maps variable numbers to declared types;
`none` is the context that declares nothing and checks no declaration.
-/

namespace Fuzzball.Vine

def tint (t : Typ) : Bool :=
  match unwindType t with
  | .reg1 | .reg8 | .reg16 | .reg32 | .reg64 => true
  | _ => false

def tintConcatable (t : Typ) : Bool :=
  match unwindType t with
  | .reg8 | .reg16 | .reg32 => true
  | _ => false

def tfloat (t : Typ) : Bool :=
  match unwindType t with
  | .reg32 | .reg64 => true
  | _ => false

def tfcastInt (t : Typ) : Bool :=
  match unwindType t with
  | .reg16 | .reg32 | .reg64 => true
  | _ => false

def tcompat (t1 t2 : Typ) : Bool :=
  unwindType t1 = unwindType t2

/-- The declared types, by variable number. -/
abbrev Gamma := Option (ℤ → Option Typ)

def gammaExtend (gamma : Gamma) (v : Var) (t : Typ) : Gamma :=
  gamma.map fun g => Function.update g v.id (some t)

def gammaFind (gamma : Gamma) (v : Var) : OCaml (Option Typ) :=
  match gamma with
  | none => pure none
  | some g =>
    match g v.id with
    | some t => pure (some t)
    | none => do throw (.typeError ((← varToString v) ++ " not declared"))

def gammaCheck (gamma : Gamma) (v : Var) (t : Typ) : OCaml Typ := do
  match ← gammaFind gamma v with
  | none => pure t
  | some t' =>
    if t ≠ t' then
      throw (.typeError ("type mismatch: " ++ (← varToString v) ++ ":" ++
        (← typeToString t') ++ " but declared as " ++ (← typeToString t)))
    else pure t

/-- `typecheck_value`.  A value outside the range of its type only draws a
warning. -/
def typecheckValue : Value → OCaml Typ
  | .int t _ => do
      let _ ← bitsOfWidth t
      pure t
  | .str _ => pure .tString

/-- The types of a memory access once the variable has type `vt` and the
index type `et`. -/
def typecheckAccess (v : Var) (vt et t : Typ) : OCaml Typ :=
  match vt with
  | .array t1 _ =>
    if tint et then
      if t1 = t then pure t1
      else do
        throw (.typeError ("Array elements declared type " ++
          (← typeToString t1) ++ ", but used here as " ++
          (← typeToString t) ++ "."))
    else throw (.typeError "Array index not an integer")
  | .tMem ti _ =>
    if ti = et then pure t
    else do
      throw (.typeError ((← varToString v) ++ " index type mismatch"))
  | _ => do throw (.typeError ((← varToString v) ++ " index type mismatch"))

/-- The type of a binary operation from the types of its operands. -/
def typecheckBinop (bop : BinopType) (t1 t2 : Typ) : OCaml Typ := do
  let incompatible : OCaml Typ := do
    throw (.typeError (binopToString bop ++ " incompatible with operands (" ++
      (← typeToString t1) ++ " and " ++ (← typeToString t2) ++ ")"))
  match bop with
  | .plus | .minus | .times | .divide | .sdivide | .mod | .smod | .bitand
  | .bitor | .xor =>
    if tcompat t1 t2 && tint t1 then pure t1 else incompatible
  | .lshift | .rshift | .arshift =>
    if tint t1 && tint t2 then pure t1 else incompatible
  | .eq | .neq => if tcompat t1 t2 then pure .reg1 else incompatible
  | .lt | .le | .slt | .sle =>
    if tint t1 && tcompat t1 t2 then pure .reg1 else incompatible
  | .concat =>
    if tintConcatable t1 && tcompat t1 t2 then doubleWidth t1
    else incompatible

/-- The type of a floating-point operation from the types of its operands. -/
def typecheckFBinop (bop : FBinopType) (t1 t2 : Typ) : OCaml Typ := do
  let incompatible : OCaml Typ := do
    throw (.typeError (fbinopToString bop ++ " incompatible with operands (" ++
      (← typeToString t1) ++ " and " ++ (← typeToString t2) ++ ")"))
  match bop with
  | .fplus | .fminus | .ftimes | .fdivide =>
    if tcompat t1 t2 && tfloat t1 then pure t1 else incompatible
  | .feq | .fneq | .flt | .fle =>
    if tfloat t1 && tcompat t1 t2 then pure .reg1 else incompatible

/-- The type of a cast to `t` of an operand of type `t1`. -/
def typecheckCast (ct : CastType) (t t1 : Typ) : OCaml Typ := do
  let castbits ← bitsOfWidth t
  let ebits ← match t1 with
    | .reg1 => pure 1
    | .reg8 => pure 8
    | .reg16 => pure 16
    | .reg32 => pure 32
    | .reg64 => pure 64
    | _ => throw (.typeError "nonsensical cast")
  let valid := match ct with
    | .castUnsigned | .castSigned => decide (castbits ≥ ebits)
    | .castHigh | .castLow => decide (castbits ≤ ebits)
  if valid then pure t else throw (.typeError "nonsensical cast")

/-- The type of a floating-point cast to `t2` of an operand of type `t1`. -/
def typecheckFCast (ct : FCastType) (t2 t1 : Typ) : OCaml Typ := do
  let toBits ← bitsOfWidth t2
  let fromBits ← match t1 with
    | .reg32 => pure 32
    | .reg64 => pure 64
    | _ => throw (.typeError "unsupported destination type in FP cast")
  let valid := match ct with
    | .castSFix | .castUFix => tfloat t1 && tfcastInt t2
    | .castSFloat | .castUFloat => tfcastInt t1 && tfloat t2
    | .castFWiden => tfloat t1 && tfloat t2 && decide (toBits > fromBits)
    | .castFNarrow => tfloat t1 && tfloat t2 && decide (toBits < fromBits)
  if valid then pure t2 else throw (.typeError "unsupported FP cast")

/-- The check of the condition of an `Ite`. -/
def typecheckCond (condT : Typ) : OCaml Unit :=
  if condT ≠ .reg1 then do
    throw (.typeError ("Condition in ? : should be of type REG_1, not " ++
      (← typeToString condT)))
  else pure ()

/-- The type of an `Ite` from the types of its branches. -/
def typecheckBranches (trueT falseT : Typ) : OCaml Typ :=
  if !tcompat trueT falseT then do
    throw (.typeError ("Second and third args to ? : must have " ++
      "compatible type, not " ++ (← typeToString trueT) ++ " and " ++
      (← typeToString falseT)))
  else pure trueT

def typecheckExp (gamma : Gamma) : Exp → OCaml Typ
  | .constant v => typecheckValue v
  | .temp v => gammaCheck gamma v v.typ
  | .mem v addr t => do
      let vt ← gammaCheck gamma v v.typ
      let et ← typecheckExp gamma addr
      typecheckAccess v vt et t
  | .unOp _ e1 => do
      let t ← typecheckExp gamma e1
      if tint t then pure t
      else throw (.typeError "unop requires integer type")
  | .funOp _ _ e1 => do
      let t ← typecheckExp gamma e1
      if tfloat t then pure t
      else throw (.typeError "FP unop requires FP type")
  | .binOp bop e1 e2 => do
      let t1 ← typecheckExp gamma e1
      let t2 ← typecheckExp gamma e2
      typecheckBinop bop t1 t2
  | .fbinOp bop _ e1 e2 => do
      let t1 ← typecheckExp gamma e1
      let t2 ← typecheckExp gamma e2
      typecheckFBinop bop t1 t2
  | .ite cond e1 e2 => do
      let condT ← typecheckExp gamma cond
      typecheckCond condT
      let trueT ← typecheckExp gamma e1
      let falseT ← typecheckExp gamma e2
      typecheckBranches trueT falseT
  | .unknown s => throw (.typeError ("Cannot typecheck unknown: " ++ s.toText))
  | .cast ct t e1 => do
      let t1 ← typecheckExp gamma e1
      typecheckCast ct t t1
  | .fcast ct _ t2 e1 => do
      let t1 ← typecheckExp gamma e1
      typecheckFCast ct t2 t1
  | .name _ => pure addrT
  | .letTemp v e1 e2 => do
      let e1t ← typecheckExp gamma e1
      -- the variable is declared with its own type, so its check succeeds
      let lvt ← gammaCheck (gammaExtend gamma v v.typ) v v.typ
      if !tcompat lvt e1t then throw (.typeError "Invalid let declaration")
      else typecheckExp (gammaExtend (gammaExtend gamma v v.typ) v e1t) e2
  | .letMem v addr t e1 e2 => do
      let e1t ← typecheckExp gamma e1
      let vt ← gammaCheck gamma v v.typ
      let et ← typecheckExp gamma addr
      let lvt ← typecheckAccess v vt et t
      if !tcompat lvt e1t then throw (.typeError "Invalid let declaration")
      else typecheckExp gamma e2

def inferType (gamma : Gamma) (e : Exp) : OCaml Typ :=
  typecheckExp gamma e

end Fuzzball.Vine
