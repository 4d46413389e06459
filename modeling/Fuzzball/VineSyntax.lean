import Fuzzball.OCaml

/-!
# Syntax of the Vine intermediate representation

The types and expressions of `vine.ml`.  The two forms of `lvalue` are spread
over the constructors that hold one: `temp` and `mem` are `Lval(Temp _)` and
`Lval(Mem _)`, `letTemp` and `letMem` are `Let(Temp _, _, _)` and
`Let(Mem _, _, _)`.  The function type `TFun`, which no expression has, is
left out.  Definitions keep the names of the source, in camel case.
-/

namespace Fuzzball.Vine

inductive Endian
  | little
  | big
  deriving DecidableEq, Repr

/-- The IR type of a Vine expression. -/
inductive Typ
  | reg1
  | reg8
  | reg16
  | reg32
  | reg64
  | tString
  | tMem (index : Typ) (endian : Endian)
  | array (elt : Typ) (size : I64)
  | tAttr (t : Typ) (attrs : List OString)
  deriving DecidableEq, Repr

/-- A variable: the number identifies it, the name is for the reader. -/
structure Var where
  id : ℤ
  name : OString
  typ : Typ
  deriving DecidableEq, Repr

inductive CastType
  | castUnsigned
  | castSigned
  | castHigh
  | castLow
  deriving DecidableEq, Repr

inductive FCastType
  | castSFloat
  | castUFloat
  | castSFix
  | castUFix
  | castFWiden
  | castFNarrow
  deriving DecidableEq, Repr

inductive BinopType
  | plus
  | minus
  | times
  | divide
  | sdivide
  | mod
  | smod
  | lshift
  | rshift
  | arshift
  | bitand
  | bitor
  | xor
  | eq
  | neq
  | lt
  | le
  | slt
  | sle
  | concat
  deriving DecidableEq, Repr

inductive FBinopType
  | fplus
  | fminus
  | ftimes
  | fdivide
  | feq
  | fneq
  | flt
  | fle
  deriving DecidableEq, Repr

inductive UnopType
  | neg
  | not
  deriving DecidableEq, Repr

inductive FUnopType
  | fneg
  deriving DecidableEq, Repr

inductive RoundMode
  | nearest
  | nearestAwayZero
  | positive
  | negative
  | zero
  deriving DecidableEq, Repr

inductive Value
  | int (t : Typ) (i : I64)
  | str (s : OString)
  deriving DecidableEq, Repr

inductive Exp
  | binOp (op : BinopType) (e1 e2 : Exp)
  | fbinOp (op : FBinopType) (rm : RoundMode) (e1 e2 : Exp)
  | unOp (op : UnopType) (e1 : Exp)
  | funOp (op : FUnopType) (rm : RoundMode) (e1 : Exp)
  | constant (v : Value)
  | temp (v : Var)
  | mem (v : Var) (addr : Exp) (t : Typ)
  | name (l : OString)
  | cast (ct : CastType) (t : Typ) (e1 : Exp)
  | fcast (ct : FCastType) (rm : RoundMode) (t : Typ) (e1 : Exp)
  | unknown (s : OString)
  | letTemp (v : Var) (e1 e2 : Exp)
  | letMem (v : Var) (addr : Exp) (t : Typ) (e1 e2 : Exp)
  | ite (cond e1 e2 : Exp)
  deriving DecidableEq, Repr

/-- `Constant(Int(t, i))`. -/
@[match_pattern] abbrev Exp.int (t : Typ) (i : I64) : Exp :=
  .constant (.int t i)

/-- The `lvalue`s, as `lookup` contexts see them. -/
inductive LValue
  | temp (v : Var)
  | mem (v : Var) (addr : Exp) (t : Typ)
  deriving DecidableEq, Repr

/-- `Lval lv`. -/
def LValue.toExp : LValue → Exp
  | .temp v => .temp v
  | .mem v addr t => .mem v addr t

def expTrue : Exp := .int .reg1 1
def expFalse : Exp := .int .reg1 0
def expBool (c : Bool) : Exp := .int .reg1 (if c then 1 else 0)

/-- `addr_t`, the type of a label. -/
def addrT : Typ := .reg32

def bitsOfWidth : Typ → OCaml ℕ
  | .reg1 => pure 1
  | .reg8 => pure 8
  | .reg16 => pure 16
  | .reg32 => pure 32
  | .reg64 => pure 64
  | .tAttr t _ => bitsOfWidth t
  | _ => throw (.invalidArgument "unknown width")

def doubleWidth : Typ → OCaml Typ
  | .reg1 => throw (.failure "Can't double_width REG_1")
  | .reg8 => pure .reg16
  | .reg16 => pure .reg32
  | .reg32 => pure .reg64
  | .reg64 => throw (.failure "Can't double_width REG_64")
  | .tAttr t _ => doubleWidth t
  | _ => throw (.invalidArgument "unknown width in double_width")

/-- `unwind_type`: the type under its attributes. -/
def unwindType : Typ → Typ
  | .tAttr t _ => unwindType t
  | t => t

/-- The integer register types. -/
def Typ.IsReg : Typ → Prop
  | .reg1 | .reg8 | .reg16 | .reg32 | .reg64 => True
  | _ => False

instance : DecidablePred Typ.IsReg := fun t => by
  cases t <;> unfold Typ.IsReg <;> infer_instance

/-- The number of bits of a register type, and zero for any other type. -/
def Typ.width : Typ → ℕ
  | .reg1 => 1
  | .reg8 => 8
  | .reg16 => 16
  | .reg32 => 32
  | .reg64 => 64
  | _ => 0

@[simp] theorem Typ.width_reg1 : Typ.reg1.width = 1 := rfl
@[simp] theorem Typ.width_reg8 : Typ.reg8.width = 8 := rfl
@[simp] theorem Typ.width_reg16 : Typ.reg16.width = 16 := rfl
@[simp] theorem Typ.width_reg32 : Typ.reg32.width = 32 := rfl
@[simp] theorem Typ.width_reg64 : Typ.reg64.width = 64 := rfl

theorem Typ.IsReg.bitsOfWidth_eq {t : Typ} (ht : t.IsReg) :
    bitsOfWidth t = .ok t.width := by
  cases t <;> simp [Typ.IsReg] at ht <;> rfl

theorem Typ.IsReg.unwindType_eq {t : Typ} (ht : t.IsReg) : unwindType t = t := by
  cases t <;> simp [Typ.IsReg] at ht <;> rfl

theorem Typ.IsReg.width_pos {t : Typ} (ht : t.IsReg) : 0 < t.width := by
  cases t <;> simp [Typ.IsReg] at ht <;> decide

theorem Typ.width_le (t : Typ) : t.width ≤ 64 := by
  cases t <;> simp [Typ.width]

/-! ## Printed forms used in error messages -/

def binopToString : BinopType → String
  | .plus => "+"
  | .minus => "-"
  | .times => "*"
  | .divide => "/"
  | .sdivide => "/$"
  | .mod => "%"
  | .smod => "%$"
  | .lshift => "<<"
  | .rshift => ">>"
  | .arshift => "@>>"
  | .bitand => "&"
  | .bitor => "|"
  | .xor => "^"
  | .eq => "=="
  | .neq => "<>"
  | .lt => "<"
  | .le => "<="
  | .slt => "<$"
  | .sle => "<=$"
  | .concat => "@"

def fbinopToString : FBinopType → String
  | .fplus => "+."
  | .fminus => "-."
  | .ftimes => "*."
  | .fdivide => "/."
  | .feq => "==."
  | .fneq => "<>."
  | .flt => "<."
  | .fle => "<=."

/-- `type_to_string`, that is `format_typ`. -/
def typeToString : Typ → OCaml String
  | .reg1 => pure "reg1_t"
  | .reg8 => pure "reg8_t"
  | .reg16 => pure "reg16_t"
  | .reg32 => pure "reg32_t"
  | .reg64 => pure "reg64_t"
  | .tString => pure "string_t"
  | .tMem .reg32 .little => pure "mem32l_t"
  | .tMem .reg64 .little => pure "mem64l_t"
  | .tMem _ _ => throw (.failure "Unsupported memory type")
  | .array elt size => do
      pure ((← typeToString elt) ++ "[" ++ toString size.toInt ++ "]")
  | .tAttr t attrs => do
      pure ((← typeToString t) ++ "_attr_(" ++
        String.intercalate ", " (attrs.map OString.toText) ++ ")")

/-- `var_to_string`, that is `format_var` with the type. -/
def varToString (v : Var) : OCaml String := do
  pure (v.name.toText ++ ":" ++ (← typeToString v.typ))

end Fuzzball.Vine
