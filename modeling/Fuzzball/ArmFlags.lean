import Fuzzball.X86Flags

/-!
# The condition flags of the ARM architecture

The flags after an operation, from the operands that VEX stores for it in its
flag thunk.  Sums and differences go through `AddWithCarry` of the
architecture, with the carry and the overflow told by comparing the result
with the exact sum.
-/

namespace Fuzzball.Armv7

inductive Flag
  | nf
  | zf
  | cf
  | vf
  deriving DecidableEq, Repr

abbrev Flags := Flag → Bool

variable {w : ℕ}

def flags (nf zf cf vf : Bool) : Flags
  | .nf => nf
  | .zf => zf
  | .cf => cf
  | .vf => vf

/-- `AddWithCarry`: the result. -/
def sumResult (x y : BitVec w) (c : Bool) : BitVec w :=
  BitVec.ofNat w (x.toNat + y.toNat + c.toNat)

/-- `AddWithCarry`: the flags. -/
def addWithCarry (x y : BitVec w) (c : Bool) : Flags :=
  let result := sumResult x y c
  flags result.msb (result == 0)
    (decide (result.toNat ≠ x.toNat + y.toNat + c.toNat))
    (decide (result.toInt ≠ x.toInt + y.toInt + c.toNat))

/-- The sign and the zero flag of a result, with the other two given. -/
def resultFlags (result : BitVec w) (cf vf : Bool) : Flags :=
  flags result.msb (result == 0) cf vf

/-- The operations of the thunk, in the order of their codes. -/
inductive CcOp
  | copy
  | add
  | sub
  | adc
  | sbb
  | logic
  | mul
  | mull
  deriving DecidableEq, Repr

/-- The flags of an operation, from the words of its thunk.  After a logical
operation the carry is that of the shifter, in `CC_DEP2`; multiplications
leave the carry and the overflow, which `CC_NDEP` holds. -/
def CcOp.flags (dep1 dep2 ndep : BitVec 32) : CcOp → Flags
  | .copy => Armv7.flags (dep1.getLsbD 31) (dep1.getLsbD 30)
      (dep1.getLsbD 29) (dep1.getLsbD 28)
  | .add => addWithCarry dep1 dep2 false
  | .sub => addWithCarry dep1 (~~~dep2) true
  | .adc => addWithCarry dep1 dep2 (ndep.getLsbD 0)
  | .sbb => addWithCarry dep1 (~~~dep2) (ndep.getLsbD 0)
  | .logic => resultFlags dep1 (dep2.getLsbD 0) (ndep.getLsbD 0)
  | .mul => resultFlags dep1 (ndep.getLsbD 1) (ndep.getLsbD 0)
  | .mull => resultFlags (dep2 ++ dep1) (ndep.getLsbD 1) (ndep.getLsbD 0)

/-- The operations whose `CC_NDEP` is a carry. -/
def CcOp.ReadsCarry : CcOp → Prop
  | .adc | .sbb => True
  | _ => False

/-! ## Sums -/

section Sums

variable (x y : BitVec w) (c : Bool)

theorem sumResult_eq : sumResult x y c = X86.sum x y c := by
  rcases Nat.eq_zero_or_pos w with rfl | hw
  · exact Subsingleton.elim _ _
  · apply BitVec.eq_of_toNat_eq
    rw [sumResult, BitVec.toNat_ofNat, BitVec.toNat_add, BitVec.toNat_add,
      X86.toNat_carry hw, Nat.mod_add_mod]

variable (hw : 0 < w)

include hw

theorem carryOut_eq :
    decide ((sumResult x y c).toNat ≠ x.toNat + y.toNat + c.toNat) =
      decide (2 ^ w ≤ x.toNat + y.toNat + c.toNat) := by
  have hsum := X86.toNat_sum hw x y c
  have hpos := Nat.two_pow_pos w
  rw [sumResult_eq, decide_eq_decide]
  split_ifs at hsum <;> omega

theorem overflow_eq :
    decide ((sumResult x y c).toInt ≠ x.toInt + y.toInt + c.toNat) =
      (!(x.msb ^^ y.msb) && (x.msb ^^ (sumResult x y c).msb)) := by
  rw [sumResult_eq, X86.overflow_eq hw, X86.signedOverflow, decide_eq_decide]
  have hsum := X86.toNat_sum hw x y c
  have hx := X86.toInt_of_msb hw x
  have hy := X86.toInt_of_msb hw y
  have hs := X86.toInt_of_msb hw (X86.sum x y c)
  have hle := BitVec.le_toInt (X86.sum x y c)
  have hlt := BitVec.toInt_lt (x := X86.sum x y c)
  have hlex := BitVec.le_toInt x
  have hltx := BitVec.toInt_lt (x := x)
  have hley := BitVec.le_toInt y
  have hlty := BitVec.toInt_lt (x := y)
  have hc : c.toNat ≤ 1 := by cases c <;> simp
  have hM : (2 : ℤ) ^ (w - 1) = (2 ^ (w - 1) : ℕ) := by push_cast; rfl
  rw [X86.two_pow_half hw] at hsum
  rw [hM] at hle hlt hlex hltx hley hlty ⊢
  clear hM
  generalize 2 ^ (w - 1) = M at *
  split_ifs at hsum hx hy hs <;> omega

end Sums

/-! ## Differences -/

section Differences

variable (x y : BitVec w) (c : Bool)

/-- The operand is complemented and the carry is the complement of a
borrow. -/
theorem sumResult_not :
    sumResult x (~~~y) c = X86.difference x y !c := by
  rw [sumResult_eq, X86.sum, X86.difference, BitVec.not_eq_neg_add]
  rcases Nat.eq_zero_or_pos w with rfl | hw
  · exact Subsingleton.elim _ _
  · have hone : (BitVec.ofBool true).setWidth w = 1#w := by
      apply BitVec.eq_of_toNat_eq
      simp [BitVec.toNat_ofNat]
    cases c with
    | false =>
      simp only [Bool.not_false, hone, BitVec.ofBool_false]
      simp
      ring
    | true =>
      simp only [Bool.not_true, hone, BitVec.ofBool_false]
      simp
      ring

variable (hw : 0 < w)

include hw

theorem carryOut_not :
    decide ((sumResult x (~~~y) c).toNat ≠
        x.toNat + (~~~y).toNat + c.toNat) =
      !decide (x.toNat < y.toNat + (!c).toNat) := by
  rw [carryOut_eq x (~~~y) c hw, BitVec.toNat_not, Bool.eq_iff_iff]
  have hy := y.isLt
  cases c <;> simp <;> omega

theorem overflow_not :
    decide ((sumResult x (~~~y) c).toInt ≠
        x.toInt + (~~~y).toInt + c.toNat) =
      ((x.msb ^^ y.msb) && (x.msb ^^ (sumResult x (~~~y) c).msb)) := by
  rw [overflow_eq x (~~~y) c hw, BitVec.msb_not]
  cases x.msb <;> cases y.msb <;> simp [hw]

end Differences

/-! ## The flags in terms of signs and comparisons -/

section Formulas

variable (hw : 0 < w) (x y : BitVec w) (c : Bool)

include hw

theorem addWithCarry_eq :
    addWithCarry x y c =
      let r := X86.sum x y c
      flags r.msb (r == 0) (if c then r.ule x else r.ult x)
        ((r.msb ^^ x.msb) && (r.msb ^^ y.msb)) := by
  have hcarry := (carryOut_eq x y c hw).trans (X86.carry_eq hw x y c).symm
  have hsigns : (((X86.sum x y c).msb ^^ x.msb) &&
      ((X86.sum x y c).msb ^^ y.msb)) =
      (!(x.msb ^^ y.msb) && (x.msb ^^ (X86.sum x y c).msb)) := by
    cases x.msb <;> cases y.msb <;> cases (X86.sum x y c).msb <;> rfl
  have hover := overflow_eq x y c hw
  rw [sumResult_eq] at hcarry hover
  dsimp only [addWithCarry]
  rw [sumResult_eq, hcarry, hover, hsigns]

theorem addWithCarry_not :
    addWithCarry x (~~~y) c =
      let r := X86.difference x y !c
      flags r.msb (r == 0) (if c then y.ule x else y.ult x)
        ((x.msb ^^ y.msb) && (r.msb ^^ x.msb)) := by
  have hcarry := carryOut_not x y c hw
  have hborrow : (!decide (x.toNat < y.toNat + (!c).toNat)) =
      if c then y.ule x else y.ult x := by
    rw [← X86.borrow_eq]
    cases c <;> simp [BitVec.ule, BitVec.ult, ← decide_not]
  have hover := overflow_not x y c hw
  rw [sumResult_not] at hcarry hover
  rw [Bool.xor_comm x.msb (X86.difference x y !c).msb] at hover
  dsimp only [addWithCarry]
  rw [sumResult_not, hcarry, hborrow, hover]

end Formulas

end Fuzzball.Armv7
