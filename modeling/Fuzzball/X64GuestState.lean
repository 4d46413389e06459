import Fuzzball.ByteStore
import Fuzzball.X64Flags

/-!
# Guest registers of the 64-bit translation

The translation of `Put`, `Get`, `PutI` and `GetI` in `irtoir-x64.cpp`.  VEX
accesses the guest state by offsets; the translation has a named variable for
each register and looks the offsets up in tables.  Where an operation is not
supported it yields an `Unknown`, a `Special` or an abort.
-/

namespace Fuzzball.Asmir.X64

open Vine

/-! ## Registers -/

/-- The registers of 64 bits that are fields of their own. -/
inductive Whole
  | rax | rbx | rcx | rdx | rsp | rbp | rsi | rdi
  | r8 | r9 | r10 | r11 | r12 | r13 | r14 | r15
  | rip | ccOp | ccDep1 | ccDep2 | ccNdep | dflag | idflag | acflag
  | fc3210 | fpround | sseround | nraddr | fsConst | gsConst
  deriving DecidableEq, Repr

/-- The fields of `VexGuestAMD64State`. -/
inductive Field
  | whole (r : Whole)
  | ymm (n : Fin 17)
  | fpregs
  | fptags
  | ftop
  | emnote
  deriving DecidableEq, Repr

/-- The size of a field in bytes. -/
def Field.size : Field → ℕ
  | .whole _ => 8
  | .ymm _ => 32
  | .fpregs => 64
  | .fptags => 8
  | .ftop => 4
  | .emnote => 4

/-- Where the fields of the guest state are: they do not overlap. -/
structure GuestLayout where
  offset : Field → ℕ
  apart : ∀ f g, f ≠ g →
    offset f + f.size ≤ offset g ∨ offset g + g.size ≤ offset f

/-- The variables for the guest state. -/
inductive Reg
  | whole (r : Whole)
  | ymm (n : Fin 16) (lane : Fin 4)
  | fpreg (i : Fin 8)
  | fptag (i : Fin 8)
  | ftop
  | emnote
  deriving DecidableEq, Repr

/-- The name and a number of a register. -/
def Whole.info : Whole → String × ℤ
  | .rax => ("RAX", -1) | .rbx => ("RBX", -2) | .rcx => ("RCX", -3)
  | .rdx => ("RDX", -4) | .rsp => ("RSP", -5) | .rbp => ("RBP", -6)
  | .rsi => ("RSI", -7) | .rdi => ("RDI", -8) | .r8 => ("R8", -9)
  | .r9 => ("R9", -10) | .r10 => ("R10", -11) | .r11 => ("R11", -12)
  | .r12 => ("R12", -13) | .r13 => ("R13", -14) | .r14 => ("R14", -15)
  | .r15 => ("R15", -16) | .rip => ("RIP", -17) | .ccOp => ("CC_OP", -18)
  | .ccDep1 => ("CC_DEP1", -19) | .ccDep2 => ("CC_DEP2", -20)
  | .ccNdep => ("CC_NDEP", -21) | .dflag => ("DFLAG", -22)
  | .idflag => ("IDFLAG", -23) | .acflag => ("ACFLAG", -24)
  | .fc3210 => ("FC3210", -25) | .fpround => ("FPROUND", -26)
  | .sseround => ("SSEROUND", -27) | .nraddr => ("NRADDR", -28)
  | .fsConst => ("FS_BASE", -29) | .gsConst => ("GS_BASE", -30)

def Reg.info : Reg → String × ℤ
  | .whole r => r.info
  | .ymm n lane => ("YMM" ++ toString n.val ++ "_" ++ toString lane.val,
      -(100 + 4 * (n.val : ℤ) + lane.val))
  | .fpreg i => ("FPREG" ++ toString i.val, -(200 + (i.val : ℤ)))
  | .fptag i => ("FPTAG" ++ toString i.val, -(300 + (i.val : ℤ)))
  | .ftop => ("FTOP", -31)
  | .emnote => ("EMNOTE", -32)

def Reg.typ : Reg → Typ
  | .fptag _ => .reg8
  | .ftop | .emnote => .reg32
  | _ => .reg64

/-- `mk_reg`. -/
def Reg.var (r : Reg) : Var :=
  ⟨r.info.2, OString.ofAscii ("R_" ++ r.info.1), r.typ⟩

/-! ## VEX code -/

/-- The types of VEX; `other` for those that no register has. -/
inductive IRType
  | i8
  | i16
  | i32
  | i64
  | i128
  | f32
  | f64
  | v128
  | other
  deriving DecidableEq, Repr

/-- The type of a VEX temporary, by its number. -/
abbrev TypeEnv := ℕ → IRType

/-- `IRType_to_reg_type`. -/
def IRType.regType : IRType → Typ
  | .i8 => .reg8
  | .i16 => .reg16
  | .i32 | .f32 => .reg32
  | _ => .reg64

/-- The operands of flat code; a constant of 128 bits has a bit for each
byte. -/
inductive Atom
  | rdTmp (tmp : ℕ)
  | const (type : IRType) (value : I64)
  | v128 (bits : BitVec 16)
  deriving DecidableEq, Repr

/-- `typeOfIRExpr` -/
def Atom.type (tyenv : TypeEnv) : Atom → IRType
  | .rdTmp tmp => tyenv tmp
  | .const type _ => type
  | .v128 _ => .v128

/-- `IRRegArray` -/
structure RegArray where
  base : ℕ
  elemTy : IRType
  nElems : ℕ
  deriving DecidableEq, Repr

/-- The statements of VEX that access the guest state. -/
inductive VexOp
  | put (offset : ℕ) (data : Atom)
  | get (tmp : ℕ) (offset : ℕ) (type : IRType)
  | putI (descr : RegArray) (ix : Atom) (bias : ℤ) (data : Atom)
  | getI (tmp : ℕ) (descr : RegArray) (ix : Atom) (bias : ℤ)
  deriving DecidableEq, Repr

/-- What the translation yields where it does not support an operation. -/
inductive Refusal
  | unknown
  | special
  | assertion
  | panic
  deriving DecidableEq, Repr

/-- An expression, or the two lanes of a vector. -/
inductive IRValue
  | exp (e : Exp)
  | vector (high low : Exp)
  deriving DecidableEq, Repr

/-! ## Temporaries and constants -/

/-- `mk_temp` of a VEX temporary. -/
def vexTemp (tyenv : TypeEnv) (tmp : ℕ) : Var :=
  ⟨-(1000 + 3 * (tmp : ℤ)), OString.ofAscii ("T" ++ toString tmp),
    (tyenv tmp).regType⟩

/-- `mk_temps128` -/
def vexTempHigh (tmp : ℕ) : Var :=
  ⟨-(1001 + 3 * (tmp : ℤ)), OString.ofAscii ("T" ++ toString tmp ++ "h"),
    .reg64⟩

def vexTempLow (tmp : ℕ) : Var :=
  ⟨-(1002 + 3 * (tmp : ℤ)), OString.ofAscii ("T" ++ toString tmp ++ "l"),
    .reg64⟩

def IRType.Is128 (type : IRType) : Bool := type == .i128 || type == .v128

/-- `expand_lane_const` -/
def expandLaneConst (bits : BitVec 8) : I64 :=
  let byte (i : ℕ) (mask : I64) : I64 := if bits.getLsbD i then mask else 0
  byte 0 0xff ||| byte 1 0xff00 ||| byte 2 0xff0000 ||| byte 3 0xff000000 |||
    byte 4 0xff00000000 ||| byte 5 0xff0000000000 |||
    byte 6 0xff000000000000 ||| byte 7 0xff00000000000000

/-- `translate_expr` on an atom. -/
def translateAtom (tyenv : TypeEnv) : Atom → IRValue
  | .rdTmp tmp =>
    if (tyenv tmp).Is128 then
      .vector (.temp (vexTempHigh tmp)) (.temp (vexTempLow tmp))
    else .exp (.temp (vexTemp tyenv tmp))
  | .const type value => .exp (.int type.regType value)
  | .v128 bits =>
    .vector (exConst64 (expandLaneConst ((bits >>> 8).setWidth 8)))
      (exConst64 (expandLaneConst (bits.setWidth 8)))

/-- `mk_assign_tmp` -/
def assignTmp (tyenv : TypeEnv) (tmp : ℕ) (rhs : IRValue) :
    Except Refusal (List Stmt) :=
  if (tyenv tmp).Is128 then
    match rhs with
    | .vector high low =>
      .ok [.move (vexTempHigh tmp) high, .move (vexTempLow tmp) low]
    | .exp _ => .error .assertion
  else
    match rhs with
    | .exp e => .ok [.move (vexTemp tyenv tmp) e]
    | .vector _ _ => .error .assertion

/-! ## Tables -/

section Tables

-- the literals of lanes share one proof
local instance four_neZero : NeZero 4 := ⟨by decide⟩

variable (L : GuestLayout)

/-- The general registers. -/
def gprs : List Whole :=
  [.rax, .rbx, .rcx, .rdx, .rsp, .rbp, .rsi, .rdi, .r8, .r9, .r10, .r11,
    .r12, .r13, .r14, .r15]

def specialRegs : List Whole :=
  [.rip, .ccOp, .ccDep1, .ccDep2, .ccNdep, .dflag, .idflag, .acflag,
    .fc3210, .fpround, .sseround, .nraddr, .fsConst, .gsConst]

def wholeCases : List (ℕ × Reg) :=
  (gprs ++ specialRegs).map fun r => (L.offset (.whole r), .whole r)

def ymmOffset (n : Fin 16) : ℕ := L.offset (.ymm n.castSucc)

/-- `reg_offset_to_name`: of a vector register the two low lanes. -/
def regOffsetToName (offset : ℕ) : Except Refusal Reg :=
  let cases := wholeCases L ++
    (List.finRange 16).map (fun n => (ymmOffset L n, .ymm n 0)) ++
    (List.finRange 16).map (fun n => (ymmOffset L n + 8, .ymm n 1)) ++
    (List.finRange 8).map (fun i => (L.offset .fpregs + i.val * 8, .fpreg i))
  match cases.lookup offset with
  | some r => .ok r
  | none => .error .panic

/-- The sub-registers of 8 bits, and whether they are the low byte. -/
def cases8 : List (ℕ × Whole × Bool) :=
  gprs.map (fun r => (L.offset (.whole r), r, true)) ++
    [Whole.rax, .rbx, .rcx, .rdx].map
      (fun r => (L.offset (.whole r) + 1, r, false))

def cases16 : List (ℕ × Whole) :=
  gprs.map fun r => (L.offset (.whole r), r)

/-- `lookup_32_in_ymm`: the variable, and whether it is its high half. -/
def lookup32InYmm (offset : ℕ) : Option (Reg × Bool) :=
  let lane (delta : ℕ) (lane : Fin 4) (high : Bool) :=
    (List.finRange 16).map fun n => (ymmOffset L n + delta, Reg.ymm n lane, high)
  (lane 0 0 false ++ lane 4 0 true ++ lane 8 1 false ++ lane 12 1 true ++
    lane 16 2 false ++ lane 20 2 true ++ lane 24 3 false ++
    lane 28 3 true).lookup offset

/-- The other registers of 32 bits: halves of the general ones, and two that
have a variable of their own. -/
def cases32 : List (ℕ × Reg) :=
  gprs.map (fun r => (L.offset (.whole r), .whole r)) ++
    [(L.offset .emnote, .emnote), (L.offset .ftop, .ftop)]

/-- The vector registers of 128 bits, and whether they are the high half. -/
def cases128 : List (ℕ × Fin 16 × Bool) :=
  (List.finRange 16).map (fun n => (ymmOffset L n, n, false)) ++
    (List.finRange 16).map fun n => (ymmOffset L n + 16, n, true)

/-- `_0` and `_1`, or `_2` and `_3`. -/
def ymmHalf (n : Fin 16) (high : Bool) : Reg × Reg :=
  if high then (.ymm n 3, .ymm n 2) else (.ymm n 1, .ymm n 0)

/-- The offset is in the vector registers, up to `size` bytes from the start
of the last. -/
def inYmm (last : Fin 17) (size offset : ℕ) : Bool :=
  L.offset (.ymm 0) ≤ offset && offset < L.offset (.ymm last) + size

/-- The index of the tag register at the offset. -/
def fptagAt (offset : ℕ) : Option (Fin 8) :=
  (List.finRange 8).find? fun i => L.offset .fptags + i == offset

/-! ## Gets -/

def translateGetReg8 (offset : ℕ) : Except Refusal Exp :=
  if inYmm L 16 32 offset then .error .unknown
  else
    match fptagAt L offset with
    | some i => .ok (.temp (Reg.fptag i).var)
    | none =>
      match (cases8 L).lookup offset with
      | some (name, low) =>
        let reg := Exp.temp (Reg.whole name).var
        if low then .ok (exLCast reg .reg8)
        else .ok (exHCast (exLCast reg .reg16) .reg8)
      | none => .error .assertion

def translateGetReg16 (offset : ℕ) : Except Refusal Exp :=
  if inYmm L 16 64 offset then .error .unknown
  else
    match (cases16 L).lookup offset with
    | some name => .ok (exLCast (.temp (Reg.whole name).var) .reg16)
    | none => .error .assertion

def translateGetReg32 (offset : ℕ) : Except Refusal Exp :=
  match lookup32InYmm L offset with
  | some (reg, high) =>
    if high then .ok (exHCast (.temp reg.var) .reg32)
    else .ok (exLCast (.temp reg.var) .reg32)
  | none =>
    if inYmm L 15 64 offset then .error .unknown
    else
      match (cases32 L).lookup offset with
      | some (.whole name) =>
        .ok (exLCast (.temp (Reg.whole name).var) .reg32)
      | some reg => .ok (.temp reg.var)
      | none => .error .assertion

def translateGetReg64 (offset : ℕ) : Except Refusal Exp := do
  let name ← regOffsetToName L offset
  pure (.temp name.var)

def translateGetReg128 (offset : ℕ) : Except Refusal IRValue :=
  match (cases128 L).lookup offset with
  | some (n, high) =>
    let (name_h, name_l) := ymmHalf n high
    .ok (.vector (.temp name_h.var) (.temp name_l.var))
  | none => .error .assertion

def x64TranslateGet (type : IRType) (offset : ℕ) : Except Refusal IRValue :=
  match type with
  | .i8 => return .exp (← translateGetReg8 L offset)
  | .i16 => return .exp (← translateGetReg16 L offset)
  | .i32 | .f32 => return .exp (← translateGetReg32 L offset)
  | .i64 | .f64 => return .exp (← translateGetReg64 L offset)
  | .i128 | .v128 => translateGetReg128 L offset
  | .other => .error .panic

/-! ## Puts -/

/-- A put up to its data: the statement for an expression. -/
abbrev PutStmt := Exp → Stmt

def translatePutReg8 (offset : ℕ) : Except Refusal PutStmt :=
  if inYmm L 15 64 offset then .error .special
  else
    match fptagAt L offset with
    | some i => .ok fun data => .move (Reg.fptag i).var data
    | none =>
      match (cases8 L).lookup offset with
      | some (name, low) =>
        let reg := (Reg.whole name).var
        if low then .ok fun data =>
          let masked := exAnd (.temp reg) (exConst64 0xffffffffffffff00)
          let value := exUCast data .reg64
          .move reg (exOr masked value)
        else .ok fun data =>
          let masked := exAnd (.temp reg) (exConst64 0xffffffffffff00ff)
          let value := exShl (exUCast data .reg64) (exConst 8)
          .move reg (exOr masked value)
      | none => .error .assertion

def translatePutReg16 (offset : ℕ) : Except Refusal PutStmt :=
  if inYmm L 7 64 offset then .error .special
  else
    match (cases16 L).lookup offset with
    | some name =>
      let reg := (Reg.whole name).var
      .ok fun data =>
        let masked := exAnd (.temp reg) (exConst64 0xffffffffffff0000)
        let value := exUCast data .reg64
        .move reg (exOr masked value)
    | none => .error .assertion

/-- `assemble64` -/
def assemble64 (arg1 arg2 : Exp) : Exp :=
  exOr (exShl (exUCast arg1 .reg64) (exConst 32)) (exUCast arg2 .reg64)

/-- Half of a register gets the value, the other half stays. -/
def putHalf (reg : Reg) (high : Bool) : PutStmt := fun data =>
  let old := Exp.temp reg.var
  .move reg.var
    (if high then assemble64 data (exLCast old .reg32)
      else assemble64 (exHCast old .reg32) data)

def translatePutReg32 (offset : ℕ) : Except Refusal PutStmt :=
  match lookup32InYmm L offset with
  | some (reg, high) => .ok (putHalf reg high)
  | none =>
    if inYmm L 7 64 offset then .error .special
    else
      match (cases32 L).lookup offset with
      | some (.whole name) => .ok (putHalf (.whole name) false)
      | some reg => .ok fun data => .move reg.var data
      | none => .error .special

def translatePutReg64 (offset : ℕ) : Except Refusal PutStmt := do
  let name ← regOffsetToName L offset
  pure fun data => .move name.var data

def translatePutReg128 (offset : ℕ) (data : IRValue) :
    Except Refusal (List Stmt) :=
  match (cases128 L).lookup offset with
  | some (n, high) =>
    match data with
    | .vector high64 low64 =>
      let (name_h, name_l) := ymmHalf n high
      .ok [.move name_h.var high64, .move name_l.var low64]
    | .exp _ => .error .assertion
  | none => .error .assertion

/-- An operand that is not a vector. -/
def IRValue.toExp : IRValue → Except Refusal Exp
  | .exp e => .ok e
  | .vector _ _ => .error .assertion

/-- The statements of a put: those for `irout` and the one returned. -/
def x64TranslatePut (offset : ℕ) (type : IRType) (data : IRValue) :
    Except Refusal (List Stmt) :=
  match type with
  | .i8 => return [(← translatePutReg8 L offset) (← data.toExp)]
  | .i16 => return [(← translatePutReg16 L offset) (← data.toExp)]
  | .i32 | .f32 => return [(← translatePutReg32 L offset) (← data.toExp)]
  | .i64 | .f64 => return [(← translatePutReg64 L offset) (← data.toExp)]
  | .i128 | .v128 => translatePutReg128 L offset data
  | .other => .error .special

/-! ## Indexed accesses -/

/-- The two arrays of the x87 unit: the size and the type of an element. -/
def x87Region (descr : RegArray) : Option (ℕ × Typ) :=
  if descr.base = L.offset .fpregs ∧ descr.elemTy = .f64 ∧
      descr.nElems = 8 then some (8, .reg64)
  else if descr.base = L.offset .fptags ∧ descr.elemTy = .i8 ∧
      descr.nElems = 8 then some (1, .reg8)
  else none

def indexExp (ix_e : Exp) (bias : ℤ) (nElems : ℕ) : Exp :=
  exAnd (exAdd ix_e (exConst (BitVec.ofInt 32 bias)))
    (exConst (BitVec.ofNat 32 (nElems - 1)))

def translateGetElem (elt_size offset : ℕ) : Except Refusal Exp :=
  if elt_size = 1 then translateGetReg8 L offset
  else translateGetReg64 L offset

def translatePutElem (elt_size offset : ℕ) : Except Refusal PutStmt :=
  if elt_size = 1 then translatePutReg8 L offset
  else translatePutReg64 L offset

/-- The tree of choices. -/
def choiceTree (elt_t : Typ) (index_e : Exp) (gets : ℕ → Exp) :
    Emit Exp := do
  let cond_temp ← mkTempDef .reg32 index_e
  let sel0_temp ← mkTempDef .reg1 (exLCast cond_temp .reg1)
  let sel1_temp ← mkTempDef .reg1 (exGetBit cond_temp 1)
  let sel2_exp := exGetBit cond_temp 2
  let choice01 ← emitIte elt_t sel0_temp (gets 1) (gets 0)
  let choice23 ← emitIte elt_t sel0_temp (gets 3) (gets 2)
  let choice45 ← emitIte elt_t sel0_temp (gets 5) (gets 4)
  let choice67 ← emitIte elt_t sel0_temp (gets 7) (gets 6)
  let choice03 ← emitIte elt_t sel1_temp choice23 choice01
  let choice47 ← emitIte elt_t sel1_temp choice67 choice45
  emitIte elt_t sel2_exp choice47 choice03

def x64TranslateGetI (descr : RegArray) (ix : IRValue) (bias : ℤ) :
    Except Refusal (Emit Exp) := do
  let some (elt_size, elt_t) := x87Region L descr | throw .unknown
  let ix_e ← ix.toExp
  let gets ← (List.range descr.nElems).mapM fun i =>
    translateGetElem L elt_size (descr.base + i * elt_size)
  pure (choiceTree elt_t (indexExp ix_e bias descr.nElems)
    fun i => gets.getD i (.unknown []))

/-- The rounds of the loop of `x64_translate_puti` from `i` on: an element
keeps its value unless it is selected. -/
def putElems (elt_t : Typ) (index_temp data : Exp) :
    List (Exp × PutStmt) → ℕ → Emit Unit
  | [], _ => pure ()
  | (get, put) :: rest, i => do
    let sel := exEq index_temp (exConst (BitVec.ofNat 32 i))
    let maybe_up ← emitIte elt_t sel data get
    push (put maybe_up)
    putElems elt_t index_temp data rest (i + 1)

def x64TranslatePutI (descr : RegArray) (ix : IRValue) (bias : ℤ)
    (data : IRValue) : Except Refusal (Emit Unit) := do
  let some (elt_size, elt_t) := x87Region L descr | throw .unknown
  let data ← data.toExp
  let ix_e ← ix.toExp
  let elems ← (List.range descr.nElems).mapM fun i => do
    let offset := descr.base + i * elt_size
    let get ← translateGetElem L elt_size offset
    let put ← translatePutElem L elt_size offset
    pure (get, put)
  pure do
    let index_temp ← mkTempDef .reg32 (indexExp ix_e bias descr.nElems)
    putElems elt_t index_temp data elems 0

/-! ## Statements -/

/-- `mk_assign_tmp` of an expression that code before it computes. -/
def assignEmitted (tyenv : TypeEnv) (tmp : ℕ) (code : Emit Exp) :
    Except Refusal (Emit Unit) :=
  if (tyenv tmp).Is128 then .error .assertion
  else .ok do
    let e ← code
    push (.move (vexTemp tyenv tmp) e)

/-- `translate_stmt` on an access to the guest state. -/
def translateOp (tyenv : TypeEnv) : VexOp → Except Refusal (Emit Unit)
  | .put offset data => do
    let stmts ← x64TranslatePut L offset (data.type tyenv)
      (translateAtom tyenv data)
    pure (stmts.forM push)
  | .get tmp offset type => do
    let value ← x64TranslateGet L type offset
    let stmts ← assignTmp tyenv tmp value
    pure (stmts.forM push)
  | .putI descr ix bias data =>
    x64TranslatePutI L descr (translateAtom tyenv ix) bias
      (translateAtom tyenv data)
  | .getI tmp descr ix bias => do
    let code ← x64TranslateGetI L descr (translateAtom tyenv ix) bias
    assignEmitted tyenv tmp code

def translateOps (tyenv : TypeEnv) : List VexOp → Except Refusal (Emit Unit)
  | [] => pure (pure ())
  | op :: ops => do
    let code ← translateOp L tyenv op
    let rest ← translateOps tyenv ops
    pure (code >>= fun _ => rest)

end Tables

end Fuzzball.Asmir.X64
