import Fuzzball.VineSemantics

/-!
# The status flags of the x86 architecture

What the architecture defines about the six status flags after an operation on
operands of `w` bits, and the operands that VEX stores for the operation in
its flag thunk.  A shift or a rotation by `k + 1` positions is given by `k`.
-/

namespace Fuzzball.X86

inductive Flag
  | cf
  | pf
  | af
  | zf
  | sf
  | of
  deriving DecidableEq, Repr

abbrev Flags := Flag → Bool

inductive Operation (w : ℕ)
  | add (a b : BitVec w)
  | sub (a b : BitVec w)
  | adc (a b : BitVec w)
  | sbb (a b : BitVec w)
  | logic (result : BitVec w)
  | inc (a : BitVec w)
  | dec (a : BitVec w)
  | shl (a : BitVec w) (k : ℕ)
  | shr (a : BitVec w) (k : ℕ)
  | sar (a : BitVec w) (k : ℕ)
  | rol (a : BitVec w) (k : ℕ)
  | ror (a : BitVec w) (k : ℕ)
  | umul (a b : BitVec w)
  | smul (a b : BitVec w)
  deriving DecidableEq, Repr

variable {w : ℕ}

/-! ## Defined flags -/

/-- The low byte has an even number of ones. -/
def evenParity (r : BitVec w) : Bool :=
  (List.range 8).countP r.getLsbD % 2 == 0

/-- The flags that depend on the result only. -/
def resultFlags (r : BitVec w) : Flag → Option Bool
  | .pf => some (evenParity r)
  | .zf => some (r == 0)
  | .sf => some r.msb
  | _ => none

/-- A signed value that `w` bits do not hold. -/
def signedOverflow (w : ℕ) (s : ℤ) : Bool :=
  decide (s < -2 ^ (w - 1) ∨ 2 ^ (w - 1) ≤ s)

def addFlags (a b : BitVec w) (c : Bool) : Flag → Option Bool
  | .cf => some (decide (2 ^ w ≤ a.toNat + b.toNat + c.toNat))
  | .af => some (decide (16 ≤ a.toNat % 16 + b.toNat % 16 + c.toNat))
  | .of => some (signedOverflow w (a.toInt + b.toInt + c.toNat))
  | f => resultFlags (a + b + (BitVec.ofBool c).setWidth w) f

def subFlags (a b : BitVec w) (c : Bool) : Flag → Option Bool
  | .cf => some (decide (a.toNat < b.toNat + c.toNat))
  | .af => some (decide (a.toNat % 16 < b.toNat % 16 + c.toNat))
  | .of => some (signedOverflow w (a.toInt - b.toInt - c.toNat))
  | f => resultFlags (a - b - (BitVec.ofBool c).setWidth w) f

/-- The flags of a shift with the given result: the carry is the last bit
shifted out, and the overflow is defined for a shift by one position. -/
def shiftFlags (result : BitVec w) (k : ℕ) (carry : Option Bool)
    (overflow : Bool) : Flag → Option Bool
  | .cf => carry
  | .of => if k = 0 then some overflow else none
  | f => resultFlags result f

/-- The flags of a rotation, which leaves four flags as they were. -/
def rotateFlags (old : Flags) (k : ℕ) (carry overflow : Bool) :
    Flag → Option Bool
  | .cf => some carry
  | .of => if k = 0 then some overflow else none
  | f => some (old f)

def multiplyFlags (overflow : Bool) : Flag → Option Bool
  | .cf | .of => some overflow
  | _ => none

/-- The value of a flag after the operation, and `none` where the architecture
leaves the flag undefined. -/
def Operation.flags (old : Flags) : Operation w → Flag → Option Bool
  | .add a b => addFlags a b false
  | .sub a b => subFlags a b false
  | .adc a b => addFlags a b (old .cf)
  | .sbb a b => subFlags a b (old .cf)
  | .logic r => fun
    | .cf | .of => some false
    | f => resultFlags r f
  | .inc a => fun
    | .cf => some (old .cf)
    | f => addFlags a 1 false f
  | .dec a => fun
    | .cf => some (old .cf)
    | f => subFlags a 1 false f
  | .shl a k =>
      shiftFlags (a <<< (k + 1)) k
        (if k + 1 < w then some (a.getLsbD (w - (k + 1))) else none)
        ((a <<< 1).msb ^^ a.msb)
  | .shr a k =>
      shiftFlags (a >>> (k + 1)) k
        (if k + 1 < w then some (a.getLsbD k) else none) a.msb
  | .sar a k =>
      shiftFlags (a.sshiftRight (k + 1)) k
        (some ((a.sshiftRight k).getLsbD 0)) false
  | .rol a k =>
      let r := a.rotateLeft (k + 1)
      rotateFlags old k (r.getLsbD 0) (r.msb ^^ r.getLsbD 0)
  | .ror a k =>
      let r := a.rotateRight (k + 1)
      rotateFlags old k r.msb (r.msb ^^ r.getLsbD (w - 2))
  | .umul a b => multiplyFlags (decide (2 ^ w ≤ a.toNat * b.toNat))
  | .smul a b => multiplyFlags (signedOverflow w (a.toInt * b.toInt))

/-! ## The thunk -/

/-- `CC_DEP1`, in `W` bits. -/
def Operation.dep1 (W : ℕ) : Operation w → BitVec W
  | .add a _ | .sub a _ | .adc a _ | .sbb a _ => a.setWidth W
  | .logic r => r.setWidth W
  | .inc a => (a + 1).setWidth W
  | .dec a => (a - 1).setWidth W
  | .shl a k => (a <<< (k + 1)).setWidth W
  | .shr a k => (a >>> (k + 1)).setWidth W
  | .sar a k => (a.sshiftRight (k + 1)).setWidth W
  | .rol a k => (a.rotateLeft (k + 1)).setWidth W
  | .ror a k => (a.rotateRight (k + 1)).setWidth W
  | .umul a _ | .smul a _ => a.setWidth W

/-- The old carry as VEX stores it. -/
def carryWord (W : ℕ) (old : Flags) : BitVec W :=
  (BitVec.ofBool (old .cf)).setWidth W

/-- `CC_DEP2`, in `W` bits. -/
def Operation.dep2 (W : ℕ) (old : Flags) : Operation w → BitVec W
  | .add _ b | .sub _ b | .umul _ b | .smul _ b => b.setWidth W
  | .adc _ b | .sbb _ b => b.setWidth W ^^^ carryWord W old
  | .shl a k => (a <<< k).setWidth W
  | .shr a k => (a >>> k).setWidth W
  | .sar a k => (a.sshiftRight k).setWidth W
  | _ => 0

/-- The operations whose `CC_NDEP` is the old carry. -/
def Operation.StoresCarry : Operation w → Prop
  | .adc _ _ | .sbb _ _ | .inc _ | .dec _ => True
  | _ => False

/-! ## Zero extension -/

section Extension

variable {W : ℕ}

theorem ult_setWidth (hw : w ≤ W) (x y : BitVec w) :
    (x.setWidth W).ult (y.setWidth W) = x.ult y := by
  simp only [BitVec.ult, BitVec.toNat_setWidth_of_le hw]

theorem ule_setWidth (hw : w ≤ W) (x y : BitVec w) :
    (x.setWidth W).ule (y.setWidth W) = x.ule y := by
  simp only [BitVec.ule, BitVec.toNat_setWidth_of_le hw]

theorem setWidth_beq_zero (hw : w ≤ W) (x : BitVec w) :
    (x.setWidth W == 0) = (x == 0) := by
  rw [Bool.eq_iff_iff, beq_iff_eq, beq_iff_eq, ← BitVec.toNat_inj,
    ← BitVec.toNat_inj, BitVec.toNat_setWidth_of_le hw]
  simp

theorem setWidth_beq (hw : w ≤ W) (x y : BitVec w) :
    (x.setWidth W == y.setWidth W) = (x == y) := by
  rw [Bool.eq_iff_iff, beq_iff_eq, beq_iff_eq, ← BitVec.toNat_inj,
    ← BitVec.toNat_inj, BitVec.toNat_setWidth_of_le hw,
    BitVec.toNat_setWidth_of_le hw]

/-- The last bit of a value kept in a wider one. -/
theorem getLsbD_setWidth_last (hw : 0 < w) (hW : w ≤ W) (x : BitVec w) :
    (x.setWidth W).getLsbD (w - 1) = x.msb := by
  rw [BitVec.getLsbD_setWidth, BitVec.msb_eq_getLsbD_last,
    decide_eq_true (show w - 1 < W by omega), Bool.true_and]

theorem evenParity_setWidth (hW : 8 ≤ W) (x : BitVec w) :
    evenParity (x.setWidth W) = evenParity x := by
  have hbits : ∀ i ∈ List.range 8,
      (x.setWidth W).getLsbD i = x.getLsbD i := by
    intro i hi
    have hlt : i < W := (List.mem_range.mp hi).trans_le hW
    simp [hlt]
  simp only [evenParity]
  rw [List.countP_congr fun i hi => by rw [hbits i hi]]

end Extension

/-- The parity from the eight bits. -/
theorem evenParity_eq (r : BitVec w) :
    evenParity r = !(r.getLsbD 7 ^^ r.getLsbD 6 ^^
      (r.getLsbD 5 ^^ r.getLsbD 4) ^^
      (r.getLsbD 3 ^^ r.getLsbD 2 ^^ (r.getLsbD 1 ^^ r.getLsbD 0))) := by
  simp only [evenParity, List.range, List.range.loop, List.countP_cons,
    List.countP_nil]
  cases r.getLsbD 0 <;> cases r.getLsbD 1 <;> cases r.getLsbD 2 <;>
    cases r.getLsbD 3 <;> cases r.getLsbD 4 <;> cases r.getLsbD 5 <;>
    cases r.getLsbD 6 <;> cases r.getLsbD 7 <;> rfl

/-! ## Carries and borrows -/

/-- The sum of two operands and a carry. -/
abbrev sum (a b : BitVec w) (c : Bool) : BitVec w :=
  a + b + (BitVec.ofBool c).setWidth w

/-- The difference of two operands and a borrow. -/
abbrev difference (a b : BitVec w) (c : Bool) : BitVec w :=
  a - b - (BitVec.ofBool c).setWidth w

theorem sum_false (a b : BitVec w) : sum a b false = a + b := by
  simp [sum]

theorem difference_false (a b : BitVec w) : difference a b false = a - b := by
  simp [difference]

theorem toNat_carry (hw : 0 < w) (c : Bool) :
    ((BitVec.ofBool c).setWidth w).toNat = c.toNat := by
  rw [BitVec.toNat_setWidth_of_le hw, BitVec.toNat_ofBool]

theorem toNat_sum (hw : 0 < w) (a b : BitVec w) (c : Bool) :
    (sum a b c).toNat + (if 2 ^ w ≤ a.toNat + b.toNat + c.toNat then 2 ^ w
      else 0) = a.toNat + b.toNat + c.toNat := by
  have ha := a.isLt
  have hb := b.isLt
  have hc : c.toNat ≤ 1 := by cases c <;> simp
  have hsum : (sum a b c).toNat =
      (a.toNat + b.toNat + c.toNat) % 2 ^ w := by
    rw [sum, BitVec.toNat_add, BitVec.toNat_add, toNat_carry hw,
      Nat.mod_add_mod]
  rw [hsum]
  split_ifs with h
  · rw [Nat.mod_eq_sub_mod h, Nat.mod_eq_of_lt (by omega)]
    omega
  · rw [Nat.mod_eq_of_lt (by omega), Nat.add_zero]

theorem sum_difference (a b : BitVec w) (c : Bool) :
    sum (difference a b c) b c = a := by
  unfold sum difference
  ring

theorem toNat_difference (hw : 0 < w) (a b : BitVec w) (c : Bool) :
    (difference a b c).toNat + b.toNat + c.toNat =
      a.toNat + (if a.toNat < b.toNat + c.toNat then 2 ^ w else 0) := by
  have hsum := toNat_sum hw (difference a b c) b c
  rw [sum_difference] at hsum
  have ha := a.isLt
  have hd := (difference a b c).isLt
  split_ifs at hsum ⊢ <;> omega

/-- The carry out of a sum shows in a comparison with an operand. -/
theorem carry_eq (hw : 0 < w) (a b : BitVec w) (c : Bool) :
    (if c then (sum a b c).ule a else (sum a b c).ult a) =
      decide (2 ^ w ≤ a.toNat + b.toNat + c.toNat) := by
  have hsum := toNat_sum hw a b c
  have ha := a.isLt
  have hb := b.isLt
  cases c with
  | false =>
    simp only [Bool.false_eq_true, if_false, BitVec.ult, decide_eq_decide]
    split_ifs at hsum <;> simp only [Bool.toNat_false] at * <;> omega
  | true =>
    simp only [if_true, BitVec.ule, decide_eq_decide]
    split_ifs at hsum <;> simp only [Bool.toNat_true] at * <;> omega

theorem borrow_eq (a b : BitVec w) (c : Bool) :
    (if c then a.ule b else a.ult b) =
      decide (a.toNat < b.toNat + c.toNat) := by
  cases c with
  | false => simp [BitVec.ult]
  | true =>
    simp only [if_true, BitVec.ule, decide_eq_decide, Bool.toNat_true]
    omega

/-- The carry out of the low four bits. -/
theorem auxiliaryCarry_eq (hw : 4 < w) (a b : BitVec w) (c : Bool) :
    (sum a b c ^^^ (a ^^^ b)).getLsbD 4 =
      decide (16 ≤ a.toNat % 16 + b.toNat % 16 + c.toNat) := by
  rw [BitVec.getLsbD_xor, BitVec.getLsbD_xor, sum,
    BitVec.getLsbD_add_add_bool hw]
  change _ = BitVec.carry 4 a b c
  cases a.getLsbD 4 <;> cases b.getLsbD 4 <;> simp

theorem dvd_two_pow (hw : 4 ≤ w) : 16 ∣ 2 ^ w :=
  pow_dvd_pow 2 hw

/-- The borrow into the low four bits. -/
theorem auxiliaryBorrow_eq (hw : 4 < w) (a b : BitVec w) (c : Bool) :
    (difference a b c ^^^ (a ^^^ b)).getLsbD 4 =
      decide (a.toNat % 16 < b.toNat % 16 + c.toNat) := by
  have hcarry := auxiliaryCarry_eq hw (difference a b c) b c
  rw [sum_difference] at hcarry
  have hcomm : difference a b c ^^^ (a ^^^ b) =
      a ^^^ (difference a b c ^^^ b) := by
    rw [← BitVec.xor_assoc, ← BitVec.xor_assoc,
      BitVec.xor_comm (difference a b c)]
  rw [hcomm, hcarry, decide_eq_decide]
  have hdiff := toNat_difference (by omega) a b c
  obtain ⟨q, hq⟩ := dvd_two_pow (w := w) (by omega)
  have hc : c.toNat ≤ 1 := by cases c <;> simp
  rw [hq] at hdiff
  split_ifs at hdiff <;> omega

/-! ## Signs -/

section Sign

theorem two_pow_half (hw : 0 < w) : 2 ^ w = 2 * 2 ^ (w - 1) := by
  rw [← pow_succ', Nat.sub_add_cancel hw]

/-- The signed value in terms of the sign and the unsigned value. -/
theorem toInt_of_msb (hw : 0 < w) (x : BitVec w) :
    x.toInt = x.toNat - (if x.msb then 2 * (2 ^ (w - 1) : ℕ) else 0 : ℕ) := by
  rw [BitVec.toInt_eq_msb_cond, two_pow_half hw]
  split_ifs <;> simp

/-- An addition overflows when the operands have one sign and the result has
the other. -/
theorem overflow_eq (hw : 0 < w) (a b : BitVec w) (c : Bool) :
    (!(a.msb ^^ b.msb) && (a.msb ^^ (sum a b c).msb)) =
      signedOverflow w (a.toInt + b.toInt + c.toNat) := by
  have hsum := toNat_sum hw a b c
  have ha := a.isLt
  have hb := b.isLt
  have hs := (sum a b c).isLt
  have hc : c.toNat ≤ 1 := by cases c <;> simp
  have ham := BitVec.msb_eq_decide a
  have hbm := BitVec.msb_eq_decide b
  have hsm := BitVec.msb_eq_decide (sum a b c)
  have hai := toInt_of_msb hw a
  have hbi := toInt_of_msb hw b
  have hM : (2 : ℤ) ^ (w - 1) = (2 ^ (w - 1) : ℕ) := by push_cast; rfl
  rw [two_pow_half hw] at hsum ha hb hs
  rw [signedOverflow, hM, Bool.eq_iff_iff, decide_eq_true_eq, hai, hbi]
  generalize 2 ^ (w - 1) = M at *
  cases h1 : a.msb <;> cases h2 : b.msb <;> cases h3 : (sum a b c).msb <;>
    simp only [h1, h2, h3, true_eq_decide_iff, false_eq_decide_iff, not_le]
      at ham hbm hsm <;>
    split_ifs at hsum <;> simp <;> omega

/-- A subtraction overflows when the operands have different signs and the
result has not that of the first. -/
theorem subOverflow_eq (hw : 0 < w) (a b : BitVec w) (c : Bool) :
    ((a.msb ^^ b.msb) && (a.msb ^^ (difference a b c).msb)) =
      signedOverflow w (a.toInt - b.toInt - c.toNat) := by
  have hsum := toNat_difference hw a b c
  have ha := a.isLt
  have hb := b.isLt
  have hs := (difference a b c).isLt
  have hc : c.toNat ≤ 1 := by cases c <;> simp
  have ham := BitVec.msb_eq_decide a
  have hbm := BitVec.msb_eq_decide b
  have hsm := BitVec.msb_eq_decide (difference a b c)
  have hai := toInt_of_msb hw a
  have hbi := toInt_of_msb hw b
  have hM : (2 : ℤ) ^ (w - 1) = (2 ^ (w - 1) : ℕ) := by push_cast; rfl
  rw [two_pow_half hw] at hsum ha hb hs
  rw [signedOverflow, hM, Bool.eq_iff_iff, decide_eq_true_eq, hai, hbi]
  generalize 2 ^ (w - 1) = M at *
  cases h1 : a.msb <;> cases h2 : b.msb <;>
    cases h3 : (difference a b c).msb <;>
    simp only [h1, h2, h3, true_eq_decide_iff, false_eq_decide_iff, not_le]
      at ham hbm hsm <;>
    split_ifs at hsum <;> simp <;> omega

theorem signedBorrow_eq (a b : BitVec w) (c : Bool) :
    (if c then a.sle b else a.slt b) =
      decide (a.toInt < b.toInt + c.toNat) := by
  cases c with
  | false => simp [BitVec.slt]
  | true =>
    simp only [if_true, BitVec.sle, decide_eq_decide, Bool.toNat_true]
    omega

/-- The same by a signed comparison of the operands. -/
theorem subOverflow_eq_slt (hw : 0 < w) (a b : BitVec w) (c : Bool) :
    ((difference a b c).msb ^^ (if c then a.sle b else a.slt b)) =
      signedOverflow w (a.toInt - b.toInt - c.toNat) := by
  rw [signedBorrow_eq]
  have hsum := toNat_difference hw a b c
  have ha := a.isLt
  have hb := b.isLt
  have hs := (difference a b c).isLt
  have hc : c.toNat ≤ 1 := by cases c <;> simp
  have ham := BitVec.msb_eq_decide a
  have hbm := BitVec.msb_eq_decide b
  have hsm := BitVec.msb_eq_decide (difference a b c)
  have hai := toInt_of_msb hw a
  have hbi := toInt_of_msb hw b
  have hM : (2 : ℤ) ^ (w - 1) = (2 ^ (w - 1) : ℕ) := by push_cast; rfl
  rw [two_pow_half hw] at hsum ha hb hs
  rw [signedOverflow, hM, Bool.eq_iff_iff, decide_eq_true_eq, hai, hbi]
  generalize 2 ^ (w - 1) = M at *
  cases h1 : a.msb <;> cases h2 : b.msb <;>
    cases h3 : (difference a b c).msb <;>
    simp only [h1, h2, h3, true_eq_decide_iff, false_eq_decide_iff, not_le]
      at ham hbm hsm <;>
    split_ifs at hsum <;> simp <;> omega

end Sign

/-! ## Increments and decrements -/

theorem toInt_one (hw : 1 < w) : (1 : BitVec w).toInt = 1 :=
  BitVec.toInt_one hw

theorem incOverflow_eq (hw : 1 < w) (a : BitVec w) :
    (a + 1 == BitVec.intMin w) =
      signedOverflow w (a.toInt + (1 : BitVec w).toInt + false.toNat) := by
  have hle := BitVec.le_toInt a
  have hlt := BitVec.toInt_lt (x := a)
  have hmax : (BitVec.intMax w).toInt = 2 ^ (w - 1) - 1 := BitVec.toInt_intMax
  have hsucc : BitVec.intMax w + 1 = BitVec.intMin w := BitVec.intMax_add_one
  rw [toInt_one hw, signedOverflow, Bool.eq_iff_iff, beq_iff_eq,
    decide_eq_true_eq, ← hsucc, add_left_inj, ← BitVec.toInt_inj, hmax,
    Bool.toNat_false]
  omega

theorem decOverflow_eq (hw : 1 < w) (a : BitVec w) :
    (a - 1 == BitVec.intMin w - 1) =
      signedOverflow w (a.toInt - (1 : BitVec w).toInt - false.toNat) := by
  have hle := BitVec.le_toInt a
  have hlt := BitVec.toInt_lt (x := a)
  have hmin := BitVec.toInt_intMin_of_pos (show 0 < w by omega)
  rw [toInt_one hw, signedOverflow, Bool.eq_iff_iff, beq_iff_eq,
    decide_eq_true_eq, sub_left_inj, ← BitVec.toInt_inj, hmin,
    Bool.toNat_false]
  omega

/-! ## Products -/

/-- The sign of the low half in every bit. -/
theorem sshiftRight_last (hw : 0 < w) (x : BitVec w) :
    x.sshiftRight (w - 1) = if x.msb then -1 else 0 := by
  apply BitVec.eq_of_getLsbD_eq
  intro i hi
  have hbit : (x.sshiftRight (w - 1)).getLsbD i = x.msb := by
    rw [BitVec.getLsbD_sshiftRight]
    by_cases h0 : i = 0
    · subst h0
      simp [BitVec.msb_eq_getLsbD_last, hw, hw.ne']
    · simp [hi, show ¬w - 1 + i < w by omega]
  rw [hbit]
  cases x.msb with
  | false => simp
  | true => simp [BitVec.neg_one_eq_allOnes, hi]

/-- A product that fits into its low half has the sign of that in the high
half. -/
theorem highHalf_eq (hw : 0 < w) (hi lo : BitVec w) :
    (hi != if lo.msb then -1 else 0) =
      signedOverflow w (hi.toInt * 2 ^ w + lo.toNat) := by
  have hlo := lo.isLt
  have hm := BitVec.msb_eq_decide lo
  have hM : (2 : ℤ) ^ (w - 1) = (2 ^ (w - 1) : ℕ) := by push_cast; rfl
  have hpow : (2 : ℤ) ^ w = 2 * (2 ^ (w - 1) : ℕ) := by
    exact_mod_cast two_pow_half hw
  have hpos : 0 < 2 ^ (w - 1) := by positivity
  rw [two_pow_half hw] at hlo
  rw [signedOverflow, hM, hpow, Bool.eq_iff_iff, decide_eq_true_eq, bne_iff_ne,
    ne_eq, ← BitVec.toInt_inj]
  generalize 2 ^ (w - 1) = M at *
  generalize hi.toInt = H
  cases h : lo.msb with
  | false =>
    simp only [h, false_eq_decide_iff, not_le] at hm
    simp only [Bool.false_eq_true, if_false]
    change ¬H = (0#w).toInt ↔ _
    rw [BitVec.toInt_zero]
    rcases lt_trichotomy H 0 with hH | hH | hH
    · have hle : H * (2 * M) ≤ -1 * (2 * M) :=
        Int.mul_le_mul_of_nonneg_right (by omega) (by omega)
      omega
    · subst hH
      omega
    · have hle : 1 * (2 * (M : ℤ)) ≤ H * (2 * M) :=
        Int.mul_le_mul_of_nonneg_right (by omega) (by omega)
      omega
  | true =>
    simp only [h, true_eq_decide_iff] at hm
    have hneg : (-1 : BitVec w).toInt = -1 := by
      change (-1#w).toInt = -1
      rw [BitVec.neg_one_eq_allOnes, BitVec.toInt_allOnes, if_pos hw]
    simp only [if_true, hneg]
    rcases lt_trichotomy H (-1) with hH | hH | hH
    · have hle : H * (2 * M) ≤ -2 * (2 * M) :=
        Int.mul_le_mul_of_nonneg_right (by omega) (by omega)
      omega
    · subst hH
      omega
    · have hle : 0 * (2 * (M : ℤ)) ≤ H * (2 * M) :=
        Int.mul_le_mul_of_nonneg_right (by omega) (by omega)
      omega

section Double

variable {W : ℕ}

theorem unsignedProduct_eq (a b : BitVec w) (hW : W = 2 * w) :
    (Bits.high w (a.setWidth W * b.setWidth W) != 0) =
      decide (2 ^ w ≤ a.toNat * b.toNat) := by
  have hlt : a.toNat * b.toNat < 2 ^ W := by
    rw [hW, two_mul, pow_add]
    exact Nat.mul_lt_mul'' a.isLt b.isLt
  have hprod : (a.setWidth W * b.setWidth W).toNat = a.toNat * b.toNat := by
    rw [BitVec.toNat_mul, BitVec.toNat_setWidth_of_le (by omega),
      BitVec.toNat_setWidth_of_le (by omega), Nat.mod_eq_of_lt hlt]
  rw [Bool.eq_iff_iff, bne_iff_ne, decide_eq_true_eq, ne_eq,
    ← BitVec.toNat_inj, Bits.toNat_high _ (by omega), hprod,
    show W - w = w by omega]
  change ¬_ = 0 % 2 ^ w ↔ _
  rw [Nat.zero_mod, Nat.div_eq_zero_iff]
  have hpos : 0 < 2 ^ w := by positivity
  omega

/-- The signed value of a double word from its halves. -/
theorem toInt_halves (hw : 0 < w) (hW : W = 2 * w) (p : BitVec W) :
    p.toInt = (Bits.high w p).toInt * 2 ^ w + (p.setWidth w).toNat := by
  have hhigh : (Bits.high w p).toNat = p.toNat / 2 ^ w := by
    rw [Bits.toNat_high p (by omega), show W - w = w by omega]
  have hlow : (p.setWidth w).toNat = p.toNat % 2 ^ w := BitVec.toNat_setWidth ..
  have hmsb : (Bits.high w p).msb = p.msb := by
    rw [BitVec.msb_eq_getLsbD_last, BitVec.msb_eq_getLsbD_last, Bits.high]
    simp [show w - 1 < w by omega, show W - w + (w - 1) = W - 1 by omega]
  have hdm := Nat.div_add_mod p.toNat (2 ^ w)
  rw [BitVec.toInt_eq_msb_cond, BitVec.toInt_eq_msb_cond, hmsb, hhigh, hlow]
  have hpow : (2 : ℕ) ^ W = 2 ^ w * 2 ^ w := by rw [hW, two_mul, pow_add]
  rw [hpow]
  zify at hdm
  cases p.msb with
  | false =>
    simp only [Bool.false_eq_true, if_false]
    push_cast
    linarith
  | true =>
    simp only [if_true]
    push_cast
    linarith

theorem signedProduct_eq (hw : 0 < w) (a b : BitVec w) (hW : W = 2 * w) :
    let p := a.signExtend W * b.signExtend W
    (Bits.high w p != if (p.setWidth w).msb then -1 else 0) =
      signedOverflow w (a.toInt * b.toInt) := by
  intro p
  have hp : p.toInt = a.toInt * b.toInt := by
    rw [BitVec.toInt_mul, BitVec.toInt_signExtend_of_le (by omega),
      BitVec.toInt_signExtend_of_le (by omega)]
    have hpow : ((2 ^ W : ℕ) : ℤ) = 2 * (2 * (2 ^ (w - 1) * 2 ^ (w - 1))) := by
      rw [hW, two_mul, pow_add, two_pow_half hw]
      push_cast
      ring
    have ha := BitVec.le_toInt a
    have ha' := BitVec.toInt_lt (x := a)
    have hb := BitVec.le_toInt b
    have hb' := BitVec.toInt_lt (x := b)
    have hM : (0 : ℤ) < 2 ^ (w - 1) := by positivity
    apply Int.bmod_eq_of_le
    · rw [hpow, Int.mul_ediv_cancel_left _ (by decide)]
      nlinarith
    · have hlt : a.toInt * b.toInt < 2 * (2 ^ (w - 1) * 2 ^ (w - 1)) := by
        nlinarith
      rw [hpow]
      omega
  rw [highHalf_eq hw, ← toInt_halves hw hW, hp]

end Double

end Fuzzball.X86
