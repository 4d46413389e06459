import Fuzzball.Statements
import Fuzzball.X64Flags

/-!
# Control-flow targets

`translate_exit`, `translate_jumpkind` and the names of addresses of
`irtoir.cpp`: how the side exits and the successor of a VEX block become jumps
to labels.
-/

namespace Fuzzball.Asmir

open Vine

/-! ## The source -/

inductive VexArch
  | x86
  | amd64
  | arm
  deriving DecidableEq, Repr

inductive IRConstTag
  | u1
  | u8
  | u16
  | u32
  | u64
  | other
  deriving DecidableEq, Repr

/-- A constant.  `ico` has the bytes of the union, the first one lowest; those
beyond the member of the tag are arbitrary. -/
structure IRConst where
  tag : IRConstTag
  ico : BitVec 64
  deriving DecidableEq, Repr

def IRConst.icoU32 (c : IRConst) : BitVec 32 := c.ico.setWidth 32

def IRConst.icoU64 (c : IRConst) : BitVec 64 := c.ico

/-- The jump kinds of the versions of VEX; `invalidICache` is `TInval` in the
older ones. -/
inductive IRJumpKind
  | boring
  | yield
  | call
  | ret
  | sysInt128
  | sysInt129
  | sysInt130
  | sysSysenter
  | sysSyscall
  | noDecode
  | sigTRAP
  | sigSEGV
  | invalidICache
  | clientReq
  | mapFail
  | other
  deriving DecidableEq, Repr

def addrToString (guestArch : VexArch) (dest : I64) : OString :=
  .ofAscii "pc_0x" ++
    match guestArch with
    | .amd64 => hexPadded 0 dest.toNat
    | _ => hexPadded 0 (dest.setWidth 32).toNat

def mkDestLabel (guestArch : VexArch) (dest : I64) : Statement :=
  .label (addrToString guestArch dest)

def mkDestName (guestArch : VexArch) (dest : I64) : Exp :=
  .name (addrToString guestArch dest)

def translateImark (guestArch : VexArch) (addr : I64) : Statement :=
  mkDestLabel guestArch addr

/-- The destination that `translate_exit` reads. -/
def exitDest (dst : IRConst) : Except Abort I64 :=
  if dst.tag = .u32 then .ok (dst.icoU32.setWidth 64)
  else if dst.tag = .u64 then .ok dst.icoU64
  else .error .panic

/-- `translate_exit`, on the translation `cond` of the guard. -/
def translateExit (guestArch : VexArch) (cond : Exp) (dst : IRConst)
    (jk : IRJumpKind) : Except Abort (Translate Statement) := do
  let destAddr ← exitDest dst
  if jk = .mapFail then
    .ok (pure (.assertion (exNot cond)))
  else
    .ok do
      let dest := mkDestName guestArch destAddr
      let next ← mkLabel
      pushBack (.cjmp cond dest (.name next))
      pure (.label next)

/-- `next` of a block: a constant, or another expression by its
translation. -/
inductive IRNext
  | const (con : IRConst)
  | expr (e : Exp)
  deriving DecidableEq, Repr

/-- A special statement, a label and the jump. -/
def specialJump (special : String) (dest : Exp) : Translate Statement := do
  pushBack (.special (.ofAscii special))
  let label ← mkLabel
  pushBack (.label label)
  pure (.jmp dest)

def translateJumpkind (guestArch : VexArch) (translateCallsAndReturns : Bool)
    (next : IRNext) (jumpkind : IRJumpKind) :
    Except Abort (Translate Statement) :=
  let dest :=
    match next with
    | .const con => mkDestName guestArch (con.icoU32.setWidth 64)
    | .expr e => e
  match jumpkind with
  | .boring | .yield => .ok (pure (.jmp dest))
  | .call =>
    .ok (pure (if !translateCallsAndReturns then .jmp dest
      else .call none dest []))
  | .ret =>
    .ok (pure (if !translateCallsAndReturns then .jmp dest else .ret none))
  | .sysInt128 => .ok (specialJump "int 0x80" dest)
  | .sysInt129 => .ok (specialJump "int 0x81" dest)
  | .sysInt130 => .ok (specialJump "int 0x82" dest)
  | .sysSysenter => .ok (specialJump "sysenter" dest)
  | .sysSyscall => .ok (specialJump "syscall" dest)
  | .noDecode => .ok (pure (.special (.ofAscii "VEX decode error")))
  | .sigTRAP => .ok (pure (.special (.ofAscii "trap")))
  | .sigSEGV => .ok (pure (.special (.ofAscii "SIGSEGV")))
  | .invalidICache =>
    .ok do
      pushBack (.special (.ofAscii "TInval"))
      pure (.jmp dest)
  | .clientReq =>
    .ok do
      pushBack (.special (.ofAscii "Valgrind client request"))
      pure (.jmp dest)
  | .mapFail | .other => .error .assertion

/-- A side exit, with the translation of its guard. -/
structure IRExit where
  guard : Exp
  dst : IRConst
  jk : IRJumpKind
  deriving DecidableEq, Repr

/-- The side exits and the end of a block. -/
structure IRSB where
  exits : List IRExit
  next : IRNext
  jumpkind : IRJumpKind
  deriving DecidableEq, Repr

/-- What `translate_irbb` appends for the side exits, and at the end of the
block. -/
def translateExits (guestArch : VexArch) :
    List IRExit → Except Abort (Translate Unit)
  | [] => .ok (pure ())
  | e :: exits => do
    let code ← translateExit guestArch e.guard e.dst e.jk
    let rest ← translateExits guestArch exits
    .ok do
      let st ← code
      pushBack st
      rest

def translateIrbb (guestArch : VexArch) (translateCallsAndReturns : Bool)
    (irbb : IRSB) : Except Abort (Translate Unit) := do
  let exits ← translateExits guestArch irbb.exits
  let code ← translateJumpkind guestArch translateCallsAndReturns irbb.next
    irbb.jumpkind
  .ok do
    exits
    let st ← code
    pushBack st

/-! ## What VEX names -/

/-- The tag of the constants of the guest's address width. -/
def VexArch.addressTag : VexArch → IRConstTag
  | .amd64 => .u64
  | _ => .u32

/-- The address that a constant stands for. -/
def IRConst.address (c : IRConst) : I64 :=
  if c.tag = .u32 then c.icoU32.setWidth 64 else c.icoU64

/-- Whether the end of the block is a jump or a call. -/
def IRJumpKind.transfers (translateCallsAndReturns : Bool) : IRJumpKind → Bool
  | .ret => !translateCallsAndReturns
  | .noDecode | .sigTRAP | .sigSEGV | .mapFail | .other => false
  | _ => true

/-- Where the jumps, the calls and the conditional jumps go. -/
def transferTargets : List Statement → List Exp
  | [] => []
  | .jmp target :: rest => target :: transferTargets rest
  | .cjmp _ tTarget _ :: rest => tTarget :: transferTargets rest
  | .call _ callee _ :: rest => callee :: transferTargets rest
  | _ :: rest => transferTargets rest

/-- The name of the label at an instruction. -/
def imarkName (guestArch : VexArch) (addr : I64) : Exp :=
  match translateImark guestArch addr with
  | .label lab => .name lab
  | _ => .unknown []

/-- The names of the addresses to which a block goes, in order. -/
def destNames (guestArch : VexArch) (translateCallsAndReturns : Bool)
    (irbb : IRSB) (con : IRConst) : List Exp :=
  (irbb.exits.filter (·.jk ≠ .mapFail)).map
      (fun e => imarkName guestArch e.dst.address) ++
    if irbb.jumpkind.transfers translateCallsAndReturns then
      [imarkName guestArch con.address]
    else []

/-- The emitted code jumps to the labels of the instructions that the block
names, in their order. -/
def NamesDestinations (guestArch : VexArch) (translateCallsAndReturns : Bool)
    (irbb : IRSB) (con : IRConst) : Prop :=
  ∀ code, translateIrbb guestArch translateCallsAndReturns irbb = .ok code →
    ∀ n l, transferTargets (code n l).stmts =
      destNames guestArch translateCallsAndReturns irbb con

/-! ## The names -/

@[simp] theorem imarkName_eq (guestArch : VexArch) (addr : I64) :
    imarkName guestArch addr = mkDestName guestArch addr := rfl

theorem hexPadded_injective (width : ℕ) :
    Function.Injective (hexPadded width) := by
  intro n m h
  have hvalue := congrArg hexValue h
  rw [hexValue_hexPadded, hexValue_hexPadded] at hvalue
  exact Option.some.inj hvalue

/-- On a 64-bit guest, different addresses have different names. -/
theorem mkDestName_injective : Function.Injective (mkDestName .amd64) := by
  intro a b h
  have hname : addrToString .amd64 a = addrToString .amd64 b :=
    Exp.name.inj h
  exact BitVec.eq_of_toNat_eq
    (hexPadded_injective 0 (List.append_cancel_left hname))

/-- On a 32-bit guest, the low 32 bits give an address its name. -/
theorem mkDestName_low {guestArch : VexArch} (h : guestArch ≠ .amd64)
    (a : I64) :
    mkDestName guestArch ((a.setWidth 32).setWidth 64) =
      mkDestName guestArch a := by
  have hlow : ((a.setWidth 32).setWidth 64).setWidth 32 = a.setWidth 32 := by
    rw [BitVec.setWidth_setWidth_of_le _ (by decide), BitVec.setWidth_eq]
  cases guestArch with
  | amd64 => exact absurd rfl h
  | x86 | arm => simp only [mkDestName, addrToString, hlow]

/-! ## The emitted code -/

section Emitted

variable {guestArch : VexArch} {calls : Bool}

theorem transferTargets_append (sl sl' : List Statement) :
    transferTargets (sl ++ sl') = transferTargets sl ++ transferTargets sl' := by
  induction sl with
  | nil => rfl
  | cons s sl ih => cases s <;> simp [transferTargets, ih]

/-- The code of a function, and the statement that it returns after it. -/
def withResult (x : Translated Statement) : List Statement :=
  x.stmts ++ [x.value]

theorem translateExit_targets {e : IRExit}
    (he : e.dst.tag = guestArch.addressTag) :
    ∃ code, translateExit guestArch e.guard e.dst e.jk = .ok code ∧
      ∀ n l, transferTargets (withResult (code n l)) =
        if e.jk ≠ .mapFail then [mkDestName guestArch e.dst.address] else [] := by
  have haddr : exitDest e.dst = .ok e.dst.address := by
    rw [exitDest, IRConst.address, he]
    cases guestArch <;> rfl
  rw [translateExit, haddr]
  by_cases hjk : e.jk = .mapFail
  · refine ⟨_, if_pos hjk, fun n l => ?_⟩
    simp [hjk, withResult, pure, transferTargets]
  · refine ⟨_, if_neg hjk, fun n l => ?_⟩
    simp [hjk, withResult, pure, bind, mkLabel, pushBack, transferTargets]

theorem translateExits_targets {exits : List IRExit}
    (hexits : ∀ e ∈ exits, e.dst.tag = guestArch.addressTag) :
    ∃ code, translateExits guestArch exits = .ok code ∧
      ∀ n l, transferTargets (code n l).stmts =
        (exits.filter (·.jk ≠ .mapFail)).map
          fun e => mkDestName guestArch e.dst.address := by
  induction exits with
  | nil => exact ⟨_, rfl, fun _ _ => rfl⟩
  | cons e exits ih =>
    obtain ⟨code, hcode, htargets⟩ :=
      translateExit_targets (hexits e List.mem_cons_self)
    obtain ⟨rest, hrest, hrestTargets⟩ :=
      ih fun e' he' => hexits e' (List.mem_cons_of_mem _ he')
    refine ⟨_, by rw [translateExits, hcode, hrest]; rfl, fun n l => ?_⟩
    have hstmts : ∀ r : Translated Unit,
        (code n l).stmts ++ ([(code n l).value] ++ r.stmts) =
          withResult (code n l) ++ r.stmts := by
      intro r
      rw [withResult, List.append_assoc]
    change transferTargets ((code n l).stmts ++ ([(code n l).value] ++
      (rest (code n l).temps (code n l).labels).stmts)) = _
    rw [hstmts, transferTargets_append, htargets, hrestTargets,
      List.filter_cons]
    by_cases hjk : e.jk = .mapFail <;> simp [hjk]

theorem translateJumpkind_targets {con : IRConst} {jumpkind : IRJumpKind}
    {code : Translate Statement}
    (hcode : translateJumpkind guestArch calls (.const con) jumpkind =
      .ok code) (n l : ℕ) :
    transferTargets (withResult (code n l)) =
      if jumpkind.transfers calls then
        [mkDestName guestArch (con.icoU32.setWidth 64)]
      else [] := by
  cases jumpkind with
  | mapFail | other => cases hcode
  | call | ret =>
    cases calls <;> obtain rfl := Except.ok.inj hcode <;> rfl
  | _ =>
    obtain rfl := Except.ok.inj hcode
    rfl

theorem translateJumpkind_ok {next : IRNext} {jumpkind : IRJumpKind}
    (h : jumpkind.transfers calls = true) :
    ∃ code, translateJumpkind guestArch calls next jumpkind = .ok code := by
  cases jumpkind with
  | mapFail | other => cases h
  | _ => exact ⟨_, rfl⟩

theorem translateIrbb_targets {irbb : IRSB} {con : IRConst}
    {code : Translate Unit}
    (hexits : ∀ e ∈ irbb.exits, e.dst.tag = guestArch.addressTag)
    (hnext : irbb.next = .const con)
    (hcode : translateIrbb guestArch calls irbb = .ok code) (n l : ℕ) :
    transferTargets (code n l).stmts =
      (irbb.exits.filter (·.jk ≠ .mapFail)).map
          (fun e => mkDestName guestArch e.dst.address) ++
        if irbb.jumpkind.transfers calls then
          [mkDestName guestArch (con.icoU32.setWidth 64)]
        else [] := by
  obtain ⟨exits, hexitsCode, hexitsTargets⟩ := translateExits_targets hexits
  rw [translateIrbb, hexitsCode, hnext] at hcode
  cases hjump : translateJumpkind guestArch calls (.const con)
      irbb.jumpkind with
  | error a =>
    rw [hjump] at hcode
    cases hcode
  | ok jump =>
    rw [hjump] at hcode
    obtain rfl := Except.ok.inj hcode
    have htargets := translateJumpkind_targets hjump (exits n l).temps
      (exits n l).labels
    change transferTargets ((exits n l).stmts ++
      withResult (jump (exits n l).temps (exits n l).labels)) = _
    rw [transferTargets_append, hexitsTargets, htargets]

end Emitted

/-- The emitted code goes where VEX says, except that on a 64-bit guest the
constant successor of a block loses its high 32 bits. -/
theorem translateIrbb_exact {guestArch : VexArch} {calls : Bool} {irbb : IRSB}
    {con : IRConst}
    (hexits : ∀ e ∈ irbb.exits, e.dst.tag = guestArch.addressTag)
    (hnext : irbb.next = .const con) (hcon : con.tag = guestArch.addressTag) :
    NamesDestinations guestArch calls irbb con ↔
      (irbb.jumpkind.transfers calls = true → guestArch = .amd64 →
        con.address.toNat < 2 ^ 32) := by
  constructor
  · rintro hnames htransfers rfl
    obtain ⟨exits, hexitsCode, -⟩ := translateExits_targets hexits
    obtain ⟨jump, hjump⟩ := @translateJumpkind_ok .amd64 _ irbb.next _
      htransfers
    have hcode : ∃ code, translateIrbb .amd64 calls irbb = .ok code := by
      rw [translateIrbb, hexitsCode, hjump]
      exact ⟨_, rfl⟩
    obtain ⟨code, hcode⟩ := hcode
    have htargets := translateIrbb_targets hexits hnext hcode 0 0
    rw [hnames code hcode, destNames, if_pos htransfers, if_pos htransfers]
      at htargets
    simp only [imarkName_eq] at htargets
    have hname := List.head_eq_of_cons_eq (List.append_cancel_left htargets)
    rw [mkDestName_injective hname, BitVec.toNat_setWidth,
      Nat.mod_eq_of_lt (con.icoU32.isLt.trans (by decide))]
    exact con.icoU32.isLt
  · intro hlow code hcode n l
    rw [translateIrbb_targets hexits hnext hcode, destNames]
    simp only [imarkName_eq]
    cases htransfers : irbb.jumpkind.transfers calls with
    | false => rfl
    | true =>
      have hname : mkDestName guestArch (con.icoU32.setWidth 64) =
          mkDestName guestArch con.address := by
        by_cases harch : guestArch = .amd64
        · have hlt := hlow htransfers harch
          subst harch
          have htag : con.address = con.ico := by
            rw [IRConst.address, hcon]
            rfl
          rw [htag] at hlt ⊢
          congr 1
          apply BitVec.eq_of_toNat_eq
          rw [IRConst.icoU32, BitVec.toNat_setWidth, BitVec.toNat_setWidth,
            Nat.mod_eq_of_lt hlt, Nat.mod_eq_of_lt con.ico.isLt]
        · have htag : con.address = con.icoU32.setWidth 64 := by
            rw [IRConst.address, hcon]
            cases guestArch with
            | amd64 => exact absurd rfl harch
            | x86 | arm => rfl
          rw [htag]
      rw [hname]

/-- A block that ends with a jump to an address above 4 GiB. -/
def farJump : IRSB where
  exits := []
  next := .const ⟨.u64, 0x555555555040⟩
  jumpkind := .boring

theorem translateIrbb_misses :
    ¬ NamesDestinations .amd64 false farJump ⟨.u64, 0x555555555040⟩ := by
  intro h
  have htargets := h _ rfl 0 0
  revert htargets
  decide +kernel

/-- A side exit above 4 GiB, and a successor below. -/
theorem translateIrbb_exact_near :
    let con : IRConst := ⟨.u64, 0x401000⟩
    NamesDestinations .amd64 false
        ⟨[⟨exConstOf .reg1 1, ⟨.u64, 0x555555555040⟩, .boring⟩], .const con,
          .boring⟩ con ↔
      (true = true → VexArch.amd64 = .amd64 → con.address.toNat < 2 ^ 32) :=
  translateIrbb_exact (by simp [VexArch.addressTag]) rfl rfl

end Fuzzball.Asmir
