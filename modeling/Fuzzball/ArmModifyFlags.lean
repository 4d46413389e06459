import Fuzzball.ArmFlags
import Fuzzball.X64Flags

/-!
# Condition flags of the ARM translation

`arm_modify_flags` of `irtoir-arm.cpp`: the search for the assignments to the
flag thunk in a block, the operands picked out of them, the expressions for
the four flags and the statements that take the place of the thunk.
-/

namespace Fuzzball.Asmir.Arm

open Vine Armv7
open X64 (ThunkIndex movesTo isOpCopy toInt32 moveRhs assertIte exGetBit
  rCcOp rCcDep1 rCcDep2 rCcNdep)

/-! ## Finding the thunk -/

/-- An assignment to `R_CC_OP` at index `i`. -/
def getThunkOp (ir : List BlockStmt) (st : ThunkIndex) (i : ℕ) (rhs : Exp) :
    Except Abort ThunkIndex := do
  let st := { st with op := some i }
  let back3 ← matchIte ir ((i : ℤ) - 3)
  if back3.isSome then
    if 3 ≤ i && movesTo ir (i - 1) rhs then
      pure { st with op := some (i - 2), mux0x := some (i - 3) }
    else pure st
  else
    let back2 ← if 2 ≤ i then matchIte ir ((i : ℤ) - 2) else pure none
    if back2.isSome then
      -- a choice, a copy of it, and the assignment of the copy
      if movesTo ir (i - 1) rhs then
        pure { st with op := some (i - 2), mux0x := some (i - 2) }
      else pure st
    else
      let here ← matchIte ir i
      if here.isSome then pure { st with op := some i }
      else if isOpCopy st.ccOpCopy rhs then pure { st with nop := some i }
      else pure st

/-- One round of the loop of `get_thunk_index`. -/
def getThunkStep (ir : List BlockStmt) (st : ThunkIndex) (i : ℕ) :
    Except Abort ThunkIndex :=
  match ir[i]? with
  | some (.move (.temp temp) rhs) =>
    if temp.name = rCcOp then getThunkOp ir st i rhs
    else if temp.name = rCcDep1 then pure { st with dep1 := some i }
    else if temp.name = rCcDep2 then pure { st with dep2 := some i }
    else if temp.name = rCcNdep then pure { st with ndep := some i }
    else match rhs with
      | .temp rhsTemp =>
        if rhsTemp.name = rCcOp then pure { st with ccOpCopy := some temp.name }
        else pure st
      | _ => pure st
  | _ => pure st

def getThunkIndex (ir : List BlockStmt) : Except Abort ThunkIndex :=
  (List.range ir.length).foldlM (getThunkStep ir) {}

/-! ## Picking the operands -/

/-- The operation of a choice by masks. -/
def opOfMask : Exp → Option ℤ
  | .binOp .bitor _ (.binOp .bitand (.int _ val) _) => some (toInt32 val)
  | _ => none

/-- The operation of the statement at `op_st`. -/
def findOp (ir : List BlockStmt) (opSt : ℕ) : Except Abort (Option ℤ) := do
  match ← atIndex ir opSt with
  | .move _ (.int _ val) => pure (some (toInt32 val))
  | .move _ rhs =>
    match ← matchIte ir opSt with
    | some m =>
      match m.exp_t with
      | .int _ val => pure (some (toInt32 val))
      | _ => pure none
    | none => pure (opOfMask rhs)
  | _ => pure none

/-- The operand assigned at `i`. -/
def operand (ir : List BlockStmt) (mux0xSt : Option ℕ) (i : ℕ) :
    Except Abort Exp :=
  match mux0xSt with
  | none => moveRhs ir i
  | some _ => do
    let m ← assertIte ir ((i : ℤ) - 2)
    pure m.exp_t

/-! ## Formulas -/

def flagReg : Flag → Var
  | .nf => ⟨-1, OString.ofAscii "R_NF", .reg1⟩
  | .zf => ⟨-2, OString.ofAscii "R_ZF", .reg1⟩
  | .cf => ⟨-3, OString.ofAscii "R_CF", .reg1⟩
  | .vf => ⟨-4, OString.ofAscii "R_VF", .reg1⟩

/-- The expressions for the four flags. -/
abbrev FlagExps := Flag → Exp

def flagExps (nf zf cf vf : Exp) : FlagExps
  | .nf => nf
  | .zf => zf
  | .cf => cf
  | .vf => vf

def copyFlags (dep1 : Exp) : Emit FlagExps :=
  pure (flagExps (exGetBit dep1 31) (exGetBit dep1 30) (exGetBit dep1 29)
    (exGetBit dep1 28))

def addFlags (dep1 dep2 : Exp) : Emit FlagExps := do
  let result ← mkTempDef .reg32 (exAdd dep1 dep2)
  let sign_bit ← mkTempDef .reg1 (exHCast result .reg1)
  let nf := sign_bit
  let zf := exEq result (exConst 0)
  let cf := exLt result dep1
  let vf := exAnd (exXor sign_bit (exHCast dep1 .reg1))
    (exXor sign_bit (exHCast dep2 .reg1))
  pure (flagExps nf zf cf vf)

def subFlags (dep1 dep2 : Exp) : Emit FlagExps := do
  let result ← mkTempDef .reg32 (exSub dep1 dep2)
  let sign_bit ← mkTempDef .reg1 (exHCast result .reg1)
  let nf := sign_bit
  let zf := exEq result (exConst 0)
  let cf := exGe dep1 dep2
  let vf := exAnd (exXor (exHCast dep1 .reg1) (exHCast dep2 .reg1))
    (exXor sign_bit (exHCast dep1 .reg1))
  pure (flagExps nf zf cf vf)

def adcFlags (dep1 dep2 ndep : Exp) : Emit FlagExps := do
  let result ← mkTempDef .reg32 (exAdd (exAdd dep1 dep2) ndep)
  let sign_bit ← mkTempDef .reg1 (exHCast result .reg1)
  let nf := sign_bit
  let zf := exEq result (exConst 0)
  let cf ← emitIte .reg1 (exLCast ndep .reg1) (exLe result dep1)
    (exLt result dep1)
  let vf := exAnd (exXor sign_bit (exHCast dep1 .reg1))
    (exXor sign_bit (exHCast dep2 .reg1))
  pure (flagExps nf zf cf vf)

/-- `ex_gt` is `ex_lt` with its operands swapped. -/
abbrev exGt (arg1 arg2 : Exp) : Exp := exLt arg2 arg1

def sbbFlags (dep1 dep2 ndep : Exp) : Emit FlagExps := do
  let result ← mkTempDef .reg32
    (exSub (exSub dep1 dep2) (exXor ndep (exConst 1)))
  let sign_bit ← mkTempDef .reg1 (exHCast result .reg1)
  let nf := sign_bit
  let zf := exEq result (exConst 0)
  let cf ← emitIte .reg1 (exLCast ndep .reg1) (exGe dep1 dep2)
    (exGt dep1 dep2)
  let vf := exAnd (exXor (exHCast dep1 .reg1) (exHCast dep2 .reg1))
    (exXor sign_bit (exHCast dep1 .reg1))
  pure (flagExps nf zf cf vf)

def logicFlags (dep1 dep2 ndep : Exp) : Emit FlagExps :=
  pure (flagExps (exHCast dep1 .reg1) (exEq dep1 (exConst 0))
    (exLCast dep2 .reg1) (exLCast ndep .reg1))

def mulFlags (dep1 ndep : Exp) : Emit FlagExps :=
  pure (flagExps (exHCast dep1 .reg1) (exEq dep1 (exConst 0))
    (exGetBit ndep 1) (exLCast ndep .reg1))

def mullFlags (dep1 dep2 ndep : Exp) : Emit FlagExps :=
  pure (flagExps (exHCast dep2 .reg1) (exEq (exOr dep1 dep2) (exConst 0))
    (exGetBit ndep 1) (exLCast ndep .reg1))

/-- The codes of the operations. -/
def ccOps : List CcOp :=
  [.copy, .add, .sub, .adc, .sbb, .logic, .mul, .mull]

def ccOp (op : ℤ) : Except Abort CcOp :=
  match op with
  | .ofNat code =>
    match ccOps[code]? with
    | some ccOp => .ok ccOp
    | none => .error .panic
  | .negSucc _ => .error .panic

def formulas (dep1 dep2 ndep : Exp) : CcOp → Emit FlagExps
  | .copy => copyFlags dep1
  | .add => addFlags dep1 dep2
  | .sub => subFlags dep1 dep2
  | .adc => adcFlags dep1 dep2 ndep
  | .sbb => sbbFlags dep1 dep2 ndep
  | .logic => logicFlags dep1 dep2 ndep
  | .mul => mulFlags dep1 ndep
  | .mull => mullFlags dep1 dep2 ndep

/-! ## Replacing the thunk -/

/-- The assignment of one flag. -/
def assignFlag (cond : Option Exp) (f : Flag) (e : Exp) : Emit Unit :=
  match cond with
  | none => push (.move (flagReg f) e)
  | some c => do
    let ite ← emitIte .reg1 c e (.temp (flagReg f))
    push (.move (flagReg f) ite)

def assignFlags (cond : Option Exp) (flags : FlagExps) : Emit Unit :=
  [Flag.nf, .zf, .cf, .vf].forM fun f => assignFlag cond f (flags f)

def Stmt.toBlock : Stmt → BlockStmt
  | .varDecl v => .varDecl v
  | .move lhs rhs => .move (.temp lhs) rhs

/-- `ir->erase` of the statements from `start` up to `last`, and `ir->insert`
of new ones in their place. -/
def replace (ir : List BlockStmt) (start last : ℕ) (new : List Stmt) :
    List BlockStmt :=
  ir.take start ++ new.map Stmt.toBlock ++ ir.drop (last + 1)

/-- The statements for the thunk found, from `temp_counter`. -/
def replaceThunk (ir : List BlockStmt) (opSt dep1St dep2St ndepSt : ℕ)
    (mux0xSt : Option ℕ) (flags : Emit FlagExps) (n : ℕ) :
    Except Abort (List BlockStmt) := do
  let code (cond : Option Exp) : List Stmt :=
    ((flags >>= assignFlags cond) n).stmts
  if dep1St = opSt + 1 ∧ dep2St = opSt + 2 ∧ ndepSt = opSt + 3 then
    pure (replace ir opSt ndepSt (code none))
  else
    match mux0xSt with
    | some mux0xSt =>
      if (ndepSt : ℤ) - (mux0xSt - 1) + 1 = 4 * 4 then
        if mux0xSt = 0 then throw .assertion
        let m ← assertIte ir mux0xSt
        pure (replace ir (mux0xSt - 1) ndepSt (code (some m.cond)))
      else throw .panic
    | none => throw .panic

/-- `arm_modify_flags`: the block after it, from `temp_counter`. -/
def armModifyFlags (ir : List BlockStmt) (n : ℕ) :
    Except Abort (List BlockStmt) := do
  let st ← getThunkIndex ir
  let some opSt := st.op | pure ir
  let found ← findOp ir opSt
  if st.nop.isSome then pure ir
  else
    let some op := found | throw .assertion
    let some dep1St := st.dep1 | throw .assertion
    let some dep2St := st.dep2 | throw .assertion
    let some ndepSt := st.ndep | throw .assertion
    let dep1 ← operand ir st.mux0x dep1St
    let dep2 ← operand ir st.mux0x dep2St
    let ndep ← operand ir st.mux0x ndepSt
    let op ← ccOp op
    replaceThunk ir opSt dep1St dep2St ndepSt st.mux0x
      (formulas dep1 dep2 ndep op) n

end Fuzzball.Asmir.Arm
