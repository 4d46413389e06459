import Fuzzball.FlagCode
import Fuzzball.Multiply128

/-!
# Status flags of the 64-bit translation

`x64_modify_flags` of `irtoir-x64.cpp`: the search for the assignments to the
flag thunk in a block, the operands picked out of them, the expressions for
the six flags and the statements that are inserted.
-/

namespace Fuzzball.Asmir

open Vine X86

/-! ## Blocks -/

/-- The statements that the search tells apart. -/
inductive BlockStmt
  | varDecl (v : Var)
  | move (lhs rhs : Exp)
  | cjmp (cond tTarget fTarget : Exp)
  | label (label : OString)
  | other
  deriving DecidableEq, Repr

/-- How the translation ends when it does not return: an index outside a
vector, an assertion, a panic, or a null expression. -/
inductive Abort
  | outOfRange
  | assertion
  | panic
  | nullExpression
  deriving DecidableEq, Repr

/-- `ir->at(i)`. -/
def atIndex (ir : List BlockStmt) (i : ℕ) : Except Abort BlockStmt :=
  match ir[i]? with
  | some s => .ok s
  | none => .error .outOfRange

def BlockStmt.isMove : BlockStmt → Bool
  | .move _ _ => true
  | _ => false

def BlockStmt.isLabel : BlockStmt → Bool
  | .label _ => true
  | _ => false

def BlockStmt.isCJmp : BlockStmt → Bool
  | .cjmp _ _ _ => true
  | _ => false

/-- What `match_ite` writes through its pointers. -/
structure IteMatch where
  cond : Exp
  exp_t : Exp
  exp_f : Exp
  res : Exp
  deriving DecidableEq, Repr

/-- The pattern with two temporaries between the choice and its target. -/
def matchIteTemps : BlockStmt → BlockStmt → BlockStmt → Option IteMatch
  | .move (.temp temp0l) (.ite cond exp_t exp_f),
      .move (.temp temp1l) (.temp temp1r), .move (.temp temp2l) (.temp temp2r) =>
    if temp0l.name ≠ temp1r.name ∨ temp1l.name ≠ temp2r.name then none
    else some ⟨cond, exp_t, exp_f, .temp temp2l⟩
  | _, _, _ => none

/-- The pattern with a conditional jump around the second of two moves. -/
def matchIteCJmp : BlockStmt → BlockStmt → BlockStmt → BlockStmt → BlockStmt →
    Option IteMatch
  | .move (.temp temp0) exp_t, .cjmp cond (.name tName) (.name fName),
      .label label2, .move (.temp temp3) exp_f, .label label4 =>
    if temp0.name ≠ temp3.name ∨ fName ≠ label2 ∨ tName ≠ label4 then none
    else some ⟨cond, exp_t, exp_f, .temp temp0⟩
  | _, _, _, _, _ => none

/-- The pattern with a sign-extended condition as a mask. -/
def matchIteBits : BlockStmt → BlockStmt → Option IteMatch
  | .move (.temp wc1) (.cast .castSigned _ cond),
      .move (.temp res) (.binOp .bitor (.binOp .bitand exp_t (.temp wc2))
        (.binOp .bitand exp_f (.unOp .not (.temp wc3)))) =>
    if wc1.name ≠ wc2.name ∨ wc1.name ≠ wc3.name then none
    else some ⟨cond, exp_t, exp_f, .temp res⟩
  | _, _ => none

/-- `match_ite`: an index below zero is a large unsigned number there. -/
def matchIte (ir : List BlockStmt) (i : ℤ) :
    Except Abort (Option IteMatch) :=
  if i < 0 ∨ (ir.length : ℤ) ≤ i then .ok none
  else
    let i := i.toNat
    match ir[i]? with
    | some (.move lhs (.ite cond exp_t exp_f)) =>
      match lhs with
      | .temp _ => .ok (some ⟨cond, exp_t, exp_f, lhs⟩)
      | _ => .ok none
    | some (.move lhs rhs) =>
      let s := BlockStmt.move lhs rhs
      match decide (2 ≤ i), ir[i - 2]?, ir[i - 1]? with
      | true, some (.move lhs0 rhs0), some (.move lhs1 rhs1) =>
        .ok (matchIteTemps (.move lhs0 rhs0) (.move lhs1 rhs1) s)
      | _, _, _ => do
        let s3 ← atIndex ir (i + 3)
        let cjmp ← if !s3.isMove then pure none else do
          let s2 ← atIndex ir (i + 2)
          if !s2.isLabel then pure none else do
            let s4 ← atIndex ir (i + 4)
            if !s4.isLabel then pure none else do
              let s1 ← atIndex ir (i + 1)
              if !s1.isCJmp then pure none
              else pure (some (matchIteCJmp s s1 s2 s3 s4))
        match cjmp with
        | some result => pure result
        | none => do
          let s1 ← atIndex ir (i + 1)
          if s1.isMove then pure (matchIteBits s s1) else pure none
    | _ => .ok none

/-- `emit_ite`. -/
def emitIte (type : Typ) (cond exp_t exp_f : Exp) : Emit Exp :=
  mkTempDef type (exIte cond exp_t exp_f)

namespace X64

/-! ## Finding the thunk -/

/-- The indices of the assignments to the thunk; `none` for an index of -1. -/
structure ThunkIndex where
  op : Option ℕ := none
  dep1 : Option ℕ := none
  dep2 : Option ℕ := none
  ndep : Option ℕ := none
  mux0x : Option ℕ := none
  nop : Option ℕ := none
  /-- The name of a temporary that holds the old `R_CC_OP`. -/
  ccOpCopy : Option OString := none
  deriving DecidableEq, Repr

def rCcOp : OString := OString.ofAscii "R_CC_OP"
def rCcDep1 : OString := OString.ofAscii "R_CC_DEP1"
def rCcDep2 : OString := OString.ofAscii "R_CC_DEP2"
def rCcNdep : OString := OString.ofAscii "R_CC_NDEP"

/-- Whether statement `i` is a move to a temporary with the name of `rhs`. -/
def movesTo (ir : List BlockStmt) (i : ℕ) (rhs : Exp) : Bool :=
  match ir[i]?, rhs with
  | some (.move (.temp prev) _), .temp rhsTemp => prev.name == rhsTemp.name
  | _, _ => false

/-- Whether `rhs` is the temporary that holds the old `R_CC_OP`. -/
def isOpCopy (ccOpCopy : Option OString) (rhs : Exp) : Bool :=
  match ccOpCopy, rhs with
  | some copy, .temp rhsTemp => rhsTemp.name == copy
  | _, _ => false

/-- An assignment to `R_CC_OP` at index `i`. -/
def getThunkOp (ir : List BlockStmt) (st : ThunkIndex) (i : ℕ) (rhs : Exp) :
    Except Abort ThunkIndex := do
  let st := { st with op := some i }
  let back ← matchIte ir ((i : ℤ) - 3)
  if back.isSome then
    if 3 ≤ i && movesTo ir (i - 1) rhs then
      pure { st with op := some (i - 2), mux0x := some (i - 3) }
    else pure st
  else
    let here ← matchIte ir i
    if here.isSome then pure { st with op := some i }
    else if isOpCopy st.ccOpCopy rhs then pure { st with nop := some i }
    else pure st

/-- One round of the loop of `get_thunk_index`. -/
def getThunkStep (ir : List BlockStmt) (st : ThunkIndex) (i : ℕ) :
    Except Abort ThunkIndex :=
  match ir[i]? with
  | some (.move (.temp temp) rhs) =>
    if temp.name = rCcOp then getThunkOp ir st i rhs
    else if temp.name = rCcDep1 then pure { st with dep1 := some i }
    else if temp.name = rCcDep2 then pure { st with dep2 := some i }
    else if temp.name = rCcNdep then pure { st with ndep := some i }
    else match rhs with
      | .temp rhsTemp =>
        if rhsTemp.name = rCcOp then pure { st with ccOpCopy := some temp.name }
        else pure st
      | _ => pure st
  | _ => pure st

def getThunkIndex (ir : List BlockStmt) : Except Abort ThunkIndex :=
  (List.range ir.length).foldlM (getThunkStep ir) {}

/-! ## Picking the operands -/

/-- The operation and the operands, the condition under which the flags are
set, and the index of the statement that the new ones go before. -/
structure Thunk where
  op : ℤ
  dep1 : Exp
  dep2 : Exp
  ndep : Option Exp
  cond : Option Exp
  insertLoc : ℕ
  deriving DecidableEq, Repr

/-- The conversion of a constant to an `int`. -/
def toInt32 (val : I64) : ℤ := (val.setWidth 32).toInt

/-- The operation of the statement at `op_st`, and the condition of the
functional case. -/
def findOp (ir : List BlockStmt) (opSt : ℕ) :
    Except Abort (Option (ℤ × Option Exp)) := do
  match ← atIndex ir opSt with
  | .move _ (.int _ val) => pure (some (toInt32 val, none))
  | .move _ _ =>
    match ← matchIte ir opSt with
    | some m =>
      match m.exp_t with
      | .int _ val => pure (some (toInt32 val, some m.cond))
      | _ => pure none
    | none => pure none
  | _ => pure none

/-- The right-hand side of a move. -/
def moveRhs (ir : List BlockStmt) (i : ℕ) : Except Abort Exp := do
  match ← atIndex ir i with
  | .move _ rhs => pure rhs
  | _ => throw .assertion

/-- A match that an assertion demands. -/
def assertIte (ir : List BlockStmt) (i : ℤ) : Except Abort IteMatch := do
  match ← matchIte ir i with
  | some m => pure m
  | none => throw .assertion

/-- `ndep_st` and the other indices, the largest of them. -/
def insertLoc (opSt dep1St dep2St : ℕ) (ndepSt : Option ℕ) : ℕ :=
  max (max opSt dep1St) (max dep2St (ndepSt.getD 0))

/-- Up to the formulas; `none` where the function returns. -/
def selectThunk (ir : List BlockStmt) : Except Abort (Option Thunk) := do
  let st ← getThunkIndex ir
  let some opSt := st.op | pure none
  let found ← findOp ir opSt
  if st.nop.isSome then pure none
  else
    let some (op, iteCond) := found | throw .assertion
    let some dep1St := st.dep1 | throw .assertion
    let some dep2St := st.dep2 | throw .assertion
    let loc := insertLoc opSt dep1St dep2St st.ndep
    match st.mux0x, iteCond with
    | none, none =>
      -- unconditional
      let dep1 ← moveRhs ir dep1St
      let dep2 ← moveRhs ir dep2St
      let ndep ← st.ndep.mapM (moveRhs ir)
      pure (some ⟨op, dep1, dep2, ndep, none, loc⟩)
    | _, some cond =>
      -- functional; `CC_NDEP` is read at the index of `CC_DEP2`
      let dep1 ← assertIte ir dep1St
      let dep2 ← assertIte ir dep2St
      let ndep ← st.ndep.mapM fun _ => do
        let m ← assertIte ir dep2St
        pure m.exp_t
      pure (some ⟨op, dep1.exp_t, dep2.exp_t, ndep, some cond, loc⟩)
    | some mux0xSt, none =>
      -- several statements
      let dep1 ← assertIte ir ((dep1St : ℤ) - 3)
      let dep2 ← assertIte ir ((dep2St : ℤ) - 3)
      let ndep ← st.ndep.mapM fun (ndepSt : ℕ) => do
        let m ← assertIte ir ((ndepSt : ℤ) - 3)
        pure m.exp_f
      let m ← assertIte ir mux0xSt
      pure (some ⟨op, dep1.exp_f, dep2.exp_f, ndep, some m.cond, loc⟩)

/-! ## Operations -/

/-- The operations, in the order of their codes. -/
inductive Kind
  | add
  | sub
  | adc
  | sbb
  | logic
  | inc
  | dec
  | shl
  | shr
  | rol
  | ror
  | umul
  | smul
  deriving DecidableEq, Repr

def kinds : List Kind :=
  [.add, .sub, .adc, .sbb, .logic, .inc, .dec, .shl, .shr, .rol, .ror, .umul,
    .smul]

/-- The widths of an operation: `B`, `W`, `L` and `Q`. -/
def types : List Typ := [.reg8, .reg16, .reg32, .reg64]

inductive CcOp
  | copy
  | arith (kind : Kind) (type : Typ)
  /-- `ANDN`, `BLSI`, `BLSMSK` and `BLSR`: known, but without formulas. -/
  | unsupported
  deriving DecidableEq, Repr

/-- The codes from `CC_OP_ADDB` on, in the order of the enumeration. -/
def arithOps : List CcOp :=
  kinds.flatMap fun kind => types.map fun type => .arith kind type

/-- The enumeration of `CC_OP` codes. -/
def ccOps : List CcOp :=
  .copy :: arithOps ++ List.replicate 8 .unsupported

def ccOp (op : ℤ) : Except Abort CcOp :=
  match op with
  | .ofNat code =>
    match ccOps[code]? with
    | some ccOp => .ok ccOp
    | none => .error .panic
  | .negSucc _ => .error .panic

/-! ## Formulas -/

/-- `_ex_get_bit`. -/
def exGetBit (e : Exp) (which : BitVec 32) : Exp :=
  exLCast (exShr e (exConst which)) .reg1

def parity8 (e : Exp) : Exp :=
  exNot (exLCast (exXor8 (exShr e (exConst 7)) (exShr e (exConst 6))
    (exShr e (exConst 5)) (exShr e (exConst 4)) (exShr e (exConst 3))
    (exShr e (exConst 2)) (exShr e (exConst 1)) e) .reg1)

def narrow64 (e : Exp) (type : Typ) : Exp :=
  if type = .reg64 then e else exLCast e type

def signBitOf (e : Exp) (type : Typ) : Exp := exHCast (narrow64 e type) .reg1

/-- The expressions for the six flags; `none` for a null pointer. -/
abbrev FlagExps := Flag → Option Exp

def flagExps (cf pf af zf sf of : Option Exp) : FlagExps
  | .cf => cf
  | .pf => pf
  | .af => af
  | .zf => zf
  | .sf => sf
  | .of => of

/-- `Constant::f`. -/
def constantF : Exp := .int .reg1 0

def copyFlags (dep1 : Exp) : FlagExps :=
  flagExps (exGetBit dep1 0) (exGetBit dep1 2) (exGetBit dep1 4)
    (exGetBit dep1 6) (exGetBit dep1 7) (exGetBit dep1 11)

def addFlags (type : Typ) (dep1 dep2 : Exp) : Emit FlagExps := do
  let result_w ← mkTempDef .reg64 (exAdd dep1 dep2)
  let result ← mkTempDef type (narrow64 result_w type)
  let sign_bit ← mkTempDef .reg1 (exHCast result .reg1)
  let cf := exLt result (narrow64 dep1 type)
  let pf := parity8 result
  let af := exGetBit (exXor3 result_w dep1 dep2) 4
  let zf := exEq result (exConstOf type 0)
  let sf := sign_bit
  let of := exAnd (exXor sign_bit (signBitOf dep1 type))
    (exXor sign_bit (signBitOf dep2 type))
  pure (flagExps cf pf af zf sf of)

def subFlags (type : Typ) (dep1 dep2 : Exp) : Emit FlagExps := do
  let result_w ← mkTempDef .reg64 (exSub dep1 dep2)
  let result ← mkTempDef type (narrow64 result_w type)
  let cf := exLt dep1 dep2
  let pf := parity8 result
  let af := exGetBit (exXor3 result_w dep1 dep2) 4
  let zf := exEq result (exConstOf type 0)
  let sf := exHCast result .reg1
  let of := exXor sf (exSlt (narrow64 dep1 type) (narrow64 dep2 type))
  pure (flagExps cf pf af zf sf of)

def adcFlags (type : Typ) (dep1 dep2 ndep : Exp) : Emit FlagExps := do
  let arg2_w ← mkTempDef .reg64 (exXor dep2 ndep)
  let result_w ← mkTempDef .reg64 (exAdd (exAdd dep1 arg2_w) ndep)
  let result ← mkTempDef type (narrow64 result_w type)
  let arg1 ← mkTempDef type (narrow64 dep1 type)
  let arg1_sign ← mkTempDef .reg1 (exHCast arg1 .reg1)
  let res_sign ← mkTempDef .reg1 (exHCast result .reg1)
  let cf := exIte (exLCast ndep .reg1) (exLe result arg1) (exLt result arg1)
  let pf := parity8 result
  let zf := exEq result (exConstOf type 0)
  let af := exGetBit (exXor3 result_w dep1 dep2) 4
  let sf := res_sign
  let of := exAnd (exEq arg1_sign (signBitOf dep2 type))
    (exNeq arg1_sign res_sign)
  pure (flagExps cf pf af zf sf of)

def sbbFlags (type : Typ) (dep1 dep2 ndep : Exp) : Emit FlagExps := do
  let arg1 ← mkTempDef type (narrow64 dep1 type)
  let arg2_w ← mkTempDef .reg64 (exXor dep2 ndep)
  let arg2 ← mkTempDef type (narrow64 arg2_w type)
  let result_w ← mkTempDef .reg64 (exSub (exSub dep1 arg2_w) ndep)
  let result ← mkTempDef type (narrow64 result_w type)
  let res_sign ← mkTempDef .reg1 (exHCast result .reg1)
  let cf_in ← mkTempDef .reg1 (exLCast ndep .reg1)
  let cf := exIte cf_in (exLe arg1 arg2) (exLt arg1 arg2)
  let pf := parity8 result
  let zf := exEq result (exConstOf type 0)
  let af := exGetBit (exXor3 result_w dep1 dep2) 4
  let sf := res_sign
  let of := exXor res_sign
    (exIte cf_in (exSle arg1 arg2) (exSlt arg1 arg2))
  pure (flagExps cf pf af zf sf of)

def logicFlags (type : Typ) (dep1 : Exp) : Emit FlagExps := do
  let cf := constantF
  let of := constantF
  let af := constantF
  let zf := exEq dep1 (exConstOf .reg64 0)
  let sf := signBitOf dep1 type
  let pf := parity8 dep1
  pure (flagExps cf pf af zf sf of)

/-- The smallest signed value of the type. -/
def tmin : Typ → Exp
  | .reg8 => exConstOf .reg8 0x80
  | .reg16 => exConstOf .reg16 0x8000
  | .reg32 => exConstOf .reg32 0x80000000
  | type => exConstOf type 0x8000000000000000

/-- The largest signed value of the type. -/
def tmax : Typ → Exp
  | .reg8 => exConstOf .reg8 0x7f
  | .reg16 => exConstOf .reg16 0x7fff
  | .reg32 => exConstOf .reg32 0x7fffffff
  | type => exConstOf type 0x7fffffffffffffff

def incFlags (type : Typ) (dep1 : Exp) : Emit FlagExps := do
  let result ← mkTempDef type (narrow64 dep1 type)
  let arg := exSub result (exConstOf type 1)
  let pf := parity8 result
  let zf := exEq result (exConstOf type 0)
  let af := exGetBit (exXor result arg) 4
  let sf := exHCast result .reg1
  let of := exEq result (tmin type)
  pure (flagExps none pf af zf sf of)

def decFlags (type : Typ) (dep1 : Exp) : Emit FlagExps := do
  let result ← mkTempDef type (narrow64 dep1 type)
  let arg := exAdd result (exConstOf type 1)
  let pf := parity8 result
  let zf := exEq result (exConstOf type 0)
  let af := exGetBit (exXor result arg) 4
  let sf := exHCast result .reg1
  let of := exEq result (tmax type)
  pure (flagExps none pf af zf sf of)

def shlFlags (type : Typ) (dep1 dep2 : Exp) : Emit FlagExps := do
  let result ← mkTempDef type (narrow64 dep1 type)
  let subshift ← mkTempDef type (narrow64 dep2 type)
  let cf := exHCast subshift .reg1
  let pf := parity8 result
  let zf := exEq result (exConstOf type 0)
  let af := constantF
  let sf := exHCast result .reg1
  let of := exHCast (exXor result subshift) .reg1
  pure (flagExps cf pf af zf sf of)

def shrFlags (type : Typ) (dep1 dep2 : Exp) : Emit FlagExps := do
  let result ← mkTempDef type (narrow64 dep1 type)
  let subshift ← mkTempDef type (narrow64 dep2 type)
  let cf := exLCast subshift .reg1
  let pf := parity8 result
  let zf := exEq result (exConstOf type 0)
  let af := constantF
  let sf := exHCast result .reg1
  let of := exHCast (exXor result subshift) .reg1
  pure (flagExps cf pf af zf sf of)

def rolFlags (type : Typ) (dep1 : Exp) : Emit FlagExps := do
  let result ← mkTempDef type (narrow64 dep1 type)
  let last_moved_bit ← mkTempDef .reg1 (exLCast result .reg1)
  let cf := last_moved_bit
  let of := exXor last_moved_bit (exHCast result .reg1)
  pure (flagExps cf none none none none of)

def rorFlags (type : Typ) (dep1 : Exp) : Emit FlagExps := do
  let result ← mkTempDef type (narrow64 dep1 type)
  let last_moved_bit ← mkTempDef .reg1 (exHCast result .reg1)
  let cf := last_moved_bit
  let penult_bit := exHCast (exShl result (exConst 1)) .reg1
  let of := exXor last_moved_bit penult_bit
  pure (flagExps cf none none none none of)

/-- `double_type`. -/
def doubleType : Typ → Typ
  | .reg8 => .reg16
  | .reg16 => .reg32
  | _ => .reg64

/-- The flags of a product, of which only two are defined. -/
def productFlags (type : Typ) (oflow low : Exp) : FlagExps :=
  let zf := exEq low (exConstOf type 0)
  let sf := exHCast low .reg1
  let pf := parity8 low
  flagExps oflow pf constantF zf sf oflow

/-- `UMULB`, `UMULW` and `UMULL`. -/
def umulNarrowFlags (type : Typ) (dep1 dep2 : Exp) : Emit FlagExps := do
  let double_type := doubleType type
  let result ← mkTempDef double_type
    (exMul (narrow64 dep1 double_type) (narrow64 dep2 double_type))
  let oflow ← mkTempDef .reg1 (exNeq (exHCast result type) (exConstOf type 0))
  let low ← mkTempDef type (exLCast result type)
  pure (productFlags type oflow low)

def umulqFlags (dep1 dep2 : Exp) : Emit FlagExps := do
  let result ← translateMullU64 dep1 dep2
  let (high_e, low_e) := splitVector result
  let high ← mkTemp .reg64
  let low ← mkTemp .reg64
  push (.move high high_e)
  push (.move low low_e)
  let oflow ← mkTempDef .reg1 (exNeq (.temp high) (exConstOf .reg64 0))
  pure (productFlags .reg64 oflow (.temp low))

/-- `SMULB`, `SMULW` and `SMULL`. -/
def smulNarrowFlags (type : Typ) (dep1 dep2 : Exp) : Emit FlagExps := do
  let double_type := doubleType type
  let arg1 := exSCast (narrow64 dep1 type) double_type
  let arg2 := exSCast (narrow64 dep2 type) double_type
  let result ← mkTempDef double_type (exMul arg1 arg2)
  let low ← mkTempDef type (exLCast result type)
  let sx := exSCast (exHCast low .reg1) type
  let oflow ← mkTempDef .reg1 (exNeq (exHCast result type) sx)
  pure (productFlags type oflow low)

def smulqFlags (dep1 dep2 : Exp) : Emit FlagExps := do
  let result ← translateMullS64 dep1 dep2
  let (high_e, low_e) := splitVector result
  let high ← mkTemp .reg64
  let low ← mkTemp .reg64
  push (.move high high_e)
  push (.move low low_e)
  let sx := exSCast (exHCast (.temp low) .reg1) .reg64
  let oflow ← mkTempDef .reg1 (exNeq (.temp high) sx)
  pure (productFlags .reg64 oflow (.temp low))

/-- The formulas of an operation; `none` where they need an `ndep_expr` that
is null. -/
def arithFlags (kind : Kind) (type : Typ) (dep1 dep2 : Exp)
    (ndep : Option Exp) : Option (Emit FlagExps) :=
  match kind with
  | .add => some (addFlags type dep1 dep2)
  | .sub => some (subFlags type dep1 dep2)
  | .adc => ndep.map (adcFlags type dep1 dep2)
  | .sbb => ndep.map (sbbFlags type dep1 dep2)
  | .logic => some (logicFlags type dep1)
  | .inc => some (incFlags type dep1)
  | .dec => some (decFlags type dep1)
  | .shl => some (shlFlags type dep1 dep2)
  | .shr => some (shrFlags type dep1 dep2)
  | .rol => some (rolFlags type dep1)
  | .ror => some (rorFlags type dep1)
  | .umul => some (if type = .reg64 then umulqFlags dep1 dep2
      else umulNarrowFlags type dep1 dep2)
  | .smul => some (if type = .reg64 then smulqFlags dep1 dep2
      else smulNarrowFlags type dep1 dep2)

/-! ## Insertion -/

/-- The assignment of one flag, where there is an expression for it. -/
def assignFlag (cond : Option Exp) (f : Flag) (e : Option Exp) : Emit Unit :=
  match e, cond with
  | none, _ => pure ()
  | some e, none => setFlag f e
  | some e, some c => do
    let ite ← emitIte .reg1 c e (.temp (flagReg f))
    setFlag f ite

def assignFlags (cond : Option Exp) (flags : FlagExps) : Emit Unit :=
  [Flag.cf, .pf, .af, .zf, .sf, .of].forM fun f => assignFlag cond f (flags f)

/-- New statements and the index of the one that they go before. -/
structure Insertion where
  loc : ℕ
  stmts : List Stmt
  deriving DecidableEq, Repr

/-- `x64_modify_flags`, from `temp_counter`; `none` where it leaves the block
as it is. -/
def x64ModifyFlags (ir : List BlockStmt) (n : ℕ) :
    Except Abort (Option Insertion) := do
  let some thunk ← selectThunk ir | pure none
  let insert (formulas : Emit FlagExps) : Except Abort (Option Insertion) :=
    let code := (formulas >>= assignFlags thunk.cond) n
    pure (some ⟨thunk.insertLoc, code.stmts⟩)
  match ← ccOp thunk.op with
  | .copy => insert (pure (copyFlags thunk.dep1))
  | .unsupported => pure none
  | .arith kind type =>
    match arithFlags kind type thunk.dep1 thunk.dep2 thunk.ndep with
    | some formulas => insert formulas
    | none => throw .nullExpression

end X64

end Fuzzball.Asmir
