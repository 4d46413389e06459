import Fuzzball.FragmentRuns
import Fuzzball.OCamlFormat
import Fuzzball.VineSemantics

/-!
# The machine on words

A machine whose values are words of a width, with the integer operations of
the concrete domain; the memory, the handlers of special statements and the
hooks are parameters.  Floating-point operations and unknown expressions give
zero.
-/

namespace Fuzzball.Fragment

open Vine

/-- A word, or the address of a label. -/
inductive Val
  | word (w : ℕ) (x : BitVec w)
  | address (l : OString)
  deriving DecidableEq

/-- The bits of the value, as a word of the given width. -/
def Val.bits : Val → (w : ℕ) → BitVec w
  | .word _ x, w => x.setWidth w
  | .address _, _ => 0

@[simp] theorem Val.bits_word {w : ℕ} (x : BitVec w) (v : ℕ) :
    (Val.word w x).bits v = x.setWidth v := rfl

def Val.width : Val → ℕ
  | .word w _ => w
  | .address _ => addrT.width

/-- The operations of the domain on two operands, at the width of the first
one. -/
def Val.binOp (op : BinopType) (v1 v2 : Val) : Val :=
  let w := v1.width
  let x := v1.bits w
  let y := v2.bits w
  match op with
  | .plus => .word w (x + y)
  | .minus => .word w (x - y)
  | .times => .word w (x * y)
  | .divide => .word w (x.smtUDiv y)
  | .sdivide => .word w (x.smtSDiv y)
  | .mod => .word w (x % y)
  | .smod => .word w (x.srem y)
  | .lshift => .word w (x <<< (v2.bits v2.width).toNat)
  | .rshift => .word w (x >>> (v2.bits v2.width).toNat)
  | .arshift => .word w (x.sshiftRight (v2.bits v2.width).toNat)
  | .bitand => .word w (x &&& y)
  | .bitor => .word w (x ||| y)
  | .xor => .word w (x ^^^ y)
  | .eq => .word 1 (flag 1 (x == y))
  | .neq => .word 1 (flag 1 (x != y))
  | .lt => .word 1 (flag 1 (x.ult y))
  | .le => .word 1 (flag 1 (x.ule y))
  | .slt => .word 1 (flag 1 (x.slt y))
  | .sle => .word 1 (flag 1 (x.sle y))
  | .concat => .word (w + v2.width) (x ++ v2.bits v2.width)

def Val.unOp (op : UnopType) (v : Val) : Val :=
  match op with
  | .neg => .word v.width (-v.bits v.width)
  | .not => .word v.width (~~~v.bits v.width)

def Val.cast (ct : CastType) (t : Typ) (v : Val) : Val :=
  match ct with
  | .castUnsigned | .castLow => .word t.width (v.bits t.width)
  | .castSigned => .word t.width ((v.bits v.width).signExtend t.width)
  | .castHigh => .word t.width (Bits.high t.width (v.bits v.width))

/-- The name that a computed target is printed as. -/
def Val.label : Val → OString
  | .word _ x => OString.ofAscii "pc_0x" ++ hexPadded 1 x.toNat
  | .address l => l

variable {μ : Type} [VineMemory μ]

/-- The machine on words with the given handlers, which goes to every label. -/
def wordMachine (handle : OString → State Val μ → Handled Val μ) :
    Machine Val μ where
  binOp := Val.binOp
  fbinOp _ _ v _ := .word v.width 0
  unOp := Val.unOp
  funOp _ _ v := .word v.width 0
  constant
    | .int t i => .word t.width (i.setWidth t.width)
    | .str _ => .word 0 0
  name := .address
  cast := Val.cast
  fcast _ _ t _ := .word t.width 0
  unknown _ := .word 0 0
  ite c v1 v2 := if c.bits 1 = 1 then v1 else v2
  load m t a := .word t.width ((VineMemory.load m t (a.bits 64)).setWidth _)
  store m t a v := VineMemory.store m t (a.bits 64) (v.bits 64)
  truth v := decide (v.bits 1 = 1)
  labelOf := Val.label
  labelOf_name _ := rfl
  doJump _ := true
  handleSpecial := handle
  atLabel _ s := s

/-- A register of 32 bits. -/
def regEax : Var := ⟨100, OString.ofAscii "R_EAX", .reg32⟩

/-- Another register of 32 bits. -/
def regEbx : Var := ⟨101, OString.ofAscii "R_EBX", .reg32⟩

end Fuzzball.Fragment
