import Fuzzball.FlagCode

/-!
# Status flags of the 32-bit translation

The functions `mod_eflags_*` of `irtoir-i386.cpp`.  Operands and results of
every width are kept in 32-bit variables.
-/

namespace Fuzzball.Asmir

open Vine X86

/-! ## The source -/

namespace I386

def maskOverflow (e : Exp) : Typ → Exp
  | .reg8 => exAnd e (exConst 0xff)
  | .reg16 => exAnd e (exConst 0xffff)
  | _ => e

def narrow32 (e : Exp) (type : Typ) : Exp :=
  if type = .reg32 then e else exLCast e type

/-- `CALC_COND_PF`. -/
def calcCondPF (PF8 : Exp) : Exp :=
  exNot (exLCast (exXor8 (exShr PF8 (exConst 7)) (exShr PF8 (exConst 6))
    (exShr PF8 (exConst 5)) (exShr PF8 (exConst 4)) (exShr PF8 (exConst 3))
    (exShr PF8 (exConst 2)) (exShr PF8 (exConst 1)) PF8) .reg1)

/-- `c_TYPE_SIZE_LESS_1`. -/
def typeSizeLess1 (type : Typ) : Exp := exConst (BitVec.ofNat 32 (type.width - 1))

/-- `c_N1`. -/
def cN1 : Exp := exConstOf .reg32 (-1)

/-- `condAF` of the operations that have operands. -/
def condAF (res arg1 arg2 : Exp) : Exp :=
  exEq (exConst 0x10) (exAnd (exConst 0x10) (exXor3 res arg1 arg2))

def condZF (res : Exp) : Exp := exEq res (exConst 0)

/-- Whether bit `i` of a 32-bit expression is set. -/
def condBit (e i : Exp) : Exp :=
  exEq (exConst 1) (exAnd (exConst 1) (exShr e i))

def modEflagsAdd (type : Typ) (arg1 arg2 : Exp) : Emit Unit := do
  let res ← mkTempDef .reg32 (maskOverflow (exAdd arg1 arg2) type)
  setFlag .cf (exLt res arg1)
  let PF8 ← mkTempDef .reg8 (exLCast res .reg8)
  setFlag .pf (calcCondPF PF8)
  setFlag .af (condAF res arg1 arg2)
  setFlag .zf (condZF res)
  setFlag .sf (condBit res (typeSizeLess1 type))
  setFlag .of (condBit (exAnd (exXor3 arg1 arg2 cN1) (exXor arg1 res))
    (typeSizeLess1 type))

def modEflagsSub (type : Typ) (arg1 arg2 : Exp) : Emit Unit := do
  let res ← mkTempDef .reg32 (maskOverflow (exSub arg1 arg2) type)
  setFlag .cf (exLt arg1 arg2)
  let PF8 ← mkTempDef .reg8 (exLCast res .reg8)
  setFlag .pf (calcCondPF PF8)
  setFlag .af (condAF res arg1 arg2)
  setFlag .zf (condZF res)
  let condSF := exHCast (narrow32 res type) .reg1
  setFlag .sf condSF
  setFlag .of
    (exXor condSF (exSlt (narrow32 arg1 type) (narrow32 arg2 type)))

def cfMask : BitVec 32 := 1
def cfPos : BitVec 32 := 0

def modEflagsAdc (type : Typ) (arg1 arg2 arg3 : Exp) : Emit Unit := do
  let arg3 := exAnd arg3 (exConst cfMask)
  let arg2 := exXor arg2 arg3
  let res ← mkTempDef .reg32
    (maskOverflow (exAdd (exAdd arg1 arg2) arg3) type)
  setFlag .cf
    (exOr (exAnd (exEq arg3 (exConst 1)) (exLe res arg1))
      (exAnd (exEq arg3 (exConst 0)) (exLt res arg1)))
  let PF8 ← mkTempDef .reg8 (exLCast res .reg8)
  setFlag .pf (calcCondPF PF8)
  setFlag .af (condAF res arg1 arg2)
  setFlag .zf (condZF res)
  setFlag .sf (condBit res (typeSizeLess1 type))
  setFlag .of (condBit (exAnd (exXor3 arg1 arg2 cN1) (exXor arg1 res))
    (typeSizeLess1 type))

def modEflagsSbb (type : Typ) (arg1 arg2 arg3 : Exp) : Emit Unit := do
  let arg3 := exAnd arg3 (exConst cfMask)
  let arg2 := exXor arg2 arg3
  let res ← mkTempDef .reg32
    (maskOverflow (exSub (exSub arg1 arg2) arg3) type)
  setFlag .cf
    (exOr (exAnd (exEq arg3 (exConst 0)) (exLt arg1 arg2))
      (exAnd (exNot (exEq arg3 (exConst 0))) (exLe arg1 arg2)))
  let PF8 ← mkTempDef .reg8 (exLCast res .reg8)
  setFlag .pf (calcCondPF PF8)
  setFlag .af (condAF res arg1 arg2)
  setFlag .zf (condZF res)
  setFlag .sf (condBit res (typeSizeLess1 type))
  setFlag .of (condBit (exAnd (exXor arg1 arg2) (exXor arg1 res))
    (typeSizeLess1 type))

/-- `Constant::f`. -/
def constantF : Exp := .int .reg1 0

/-- `Constant::t`. -/
def constantT : Exp := .int .reg1 1

def modEflagsLogic (type : Typ) (arg1 _arg2 : Exp) : Emit Unit := do
  let res := arg1
  setFlag .cf constantF
  let PF8 ← mkTempDef .reg8 (exLCast res .reg8)
  setFlag .pf (calcCondPF PF8)
  setFlag .af constantF
  setFlag .zf (condZF res)
  setFlag .sf (condBit res (typeSizeLess1 type))
  setFlag .of constantF

/-- `c_DATA_MASK`. -/
def dataMask : Typ → Exp
  | .reg8 => exConst 0xff
  | .reg16 => exConst 0xffff
  | _ => exConst 0xffffffff

/-- `c_SIGN_MASK`: an `int` that is extended to the 64 bits of a constant. -/
def signMask (type : Typ) : Exp :=
  exConstOf .reg32 ((1#32 <<< (type.width - 1)).signExtend 64)

def modEflagsInc (type : Typ) (arg1 _arg2 _arg3 : Exp) : Emit Unit := do
  let res := arg1
  let argL := exSub res (exConst 1)
  let argR := exConst 1
  -- the carry stays as it is
  let PF8 ← mkTempDef .reg8 (exLCast res .reg8)
  setFlag .pf (calcCondPF PF8)
  setFlag .af (condAF res argL argR)
  setFlag .zf (condZF res)
  setFlag .sf (condBit res (typeSizeLess1 type))
  setFlag .of (exEq (exAnd res (dataMask type)) (signMask type))

def modEflagsDec (type : Typ) (arg1 _arg2 arg3 : Exp) : Emit Unit := do
  let res := arg1
  let argL := exAdd res (exConst 1)
  let argR := exConst 1
  setFlag .cf
    (exAnd (exLCast (exShr arg3 (exConst cfPos)) .reg1) constantT)
  let PF8 ← mkTempDef .reg8 (exLCast res .reg8)
  setFlag .pf (calcCondPF PF8)
  setFlag .af (condAF res argL argR)
  setFlag .zf (condZF res)
  setFlag .sf (condBit res (typeSizeLess1 type))
  setFlag .of (exEq (exAnd res (dataMask type))
    (exSub (signMask type) (exConst 1)))

def modEflagsShl (type : Typ) (arg1 arg2 : Exp) : Emit Unit := do
  -- `maskOverflow` has the masks of the two narrow types
  let res := maskOverflow arg1 type
  setFlag .cf
    (exAnd (exLCast (exShr arg2 (typeSizeLess1 type)) .reg1) constantT)
  let PF8 ← mkTempDef .reg8 (exLCast res .reg8)
  setFlag .pf (calcCondPF PF8)
  setFlag .af constantF
  setFlag .zf (condZF res)
  setFlag .sf (condBit res (typeSizeLess1 type))
  setFlag .of (exAnd (exLCast
    (exShr (exXor arg1 arg2) (typeSizeLess1 type)) .reg1) constantT)

def modEflagsShr (type : Typ) (arg1 arg2 : Exp) : Emit Unit := do
  let res := arg1
  setFlag .cf (exLCast arg2 .reg1)
  let PF8 ← mkTempDef .reg8 (exLCast res .reg8)
  setFlag .pf (calcCondPF PF8)
  setFlag .af constantF
  setFlag .zf (condZF res)
  setFlag .sf (condBit res (typeSizeLess1 type))
  setFlag .of (exAnd (exLCast
    (exShr (exXor arg1 arg2) (typeSizeLess1 type)) .reg1) constantT)

def modEflagsRol (type : Typ) (arg1 _arg2 _arg3 : Exp) : Emit Unit := do
  setFlag .cf (exLCast arg1 .reg1)
  setFlag .of (exXor (.temp (flagReg .cf))
    (exLCast (exShr arg1 (exConst (BitVec.ofNat 32 (type.width - 1)))) .reg1))

def modEflagsRor (type : Typ) (arg1 _arg2 _arg3 : Exp) : Emit Unit := do
  setFlag .cf (exLCast (exShr arg1 (typeSizeLess1 type)) .reg1)
  setFlag .of (exXor (.temp (flagReg .cf))
    (exLCast (exShr arg1 (exConst (BitVec.ofNat 32 (type.width - 2)))) .reg1))

/-- The type of a product: `res_type`. -/
def productType : Typ → Typ
  | .reg8 => .reg16
  | .reg16 => .reg32
  | _ => .reg64

def modEflagsUmul (type : Typ) (arg1 arg2 : Exp) : Emit Unit := do
  let resType := productType type
  let res ← mkTemp resType
  let lo ← mkTemp type
  let hi ← mkTemp type
  push (.move res (exMul (exUCast (exLCast arg1 type) resType)
    (exUCast (exLCast arg2 type) resType)))
  push (.move lo (exLCast (.temp res) type))
  push (.move hi (exHCast (.temp res) type))
  setFlag .cf (exNeq (.temp hi) (exConstOf type 0))
  let PF8 ← mkTempDef .reg8 (exLCast (.temp res) .reg8)
  setFlag .pf (calcCondPF PF8)
  setFlag .af constantF
  setFlag .zf (exEq (.temp lo) (exConstOf type 0))
  setFlag .sf (exLCast (exShr (.temp lo) (typeSizeLess1 type)) .reg1)
  setFlag .of (.temp (flagReg .cf))

def modEflagsSmul (type : Typ) (arg1 arg2 : Exp) : Emit Unit := do
  let resType := productType type
  let res ← mkTemp resType
  let lo ← mkTemp type
  let hi ← mkTemp type
  push (.move res (exMul (exSCast (exLCast arg1 type) resType)
    (exSCast (exLCast arg2 type) resType)))
  push (.move lo (exLCast (.temp res) type))
  push (.move hi (exHCast (.temp res) type))
  setFlag .cf (exNeq (.temp hi) (exSar (.temp lo) (typeSizeLess1 type)))
  let PF8 ← mkTempDef .reg8 (exLCast (.temp res) .reg8)
  setFlag .pf (calcCondPF PF8)
  setFlag .af constantF
  setFlag .zf (exEq (.temp lo) (exConstOf type 0))
  setFlag .sf (exLCast (exShr (.temp lo) (typeSizeLess1 type)) .reg1)
  setFlag .of (.temp (flagReg .cf))

/-- The function that `i386_modify_flags` applies to the thunk of an
operation.  VEX has one thunk for the two right shifts. -/
def modEflags {w : ℕ} (op : Operation w) (type : Typ) (arg1 arg2 arg3 : Exp) :
    Emit Unit :=
  match op with
  | .add _ _ => modEflagsAdd type arg1 arg2
  | .sub _ _ => modEflagsSub type arg1 arg2
  | .adc _ _ => modEflagsAdc type arg1 arg2 arg3
  | .sbb _ _ => modEflagsSbb type arg1 arg2 arg3
  | .logic _ => modEflagsLogic type arg1 arg2
  | .inc _ => modEflagsInc type arg1 arg2 arg3
  | .dec _ => modEflagsDec type arg1 arg2 arg3
  | .shl _ _ => modEflagsShl type arg1 arg2
  | .shr _ _ | .sar _ _ => modEflagsShr type arg1 arg2
  | .rol _ _ => modEflagsRol type arg1 arg2 arg3
  | .ror _ _ => modEflagsRor type arg1 arg2 arg3
  | .umul _ _ => modEflagsUmul type arg1 arg2
  | .smul _ _ => modEflagsSmul type arg1 arg2

end I386

end Fuzzball.Asmir
