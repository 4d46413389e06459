import Fuzzball.ConstantFold
import Fuzzball.VineSemantics

/-!
# Constant folding of operations on constants

Which of the operations of `constant_fold` on constants are those of bit
vectors.  A constant stores its value in the low bits of an `int64`; the upper
bits are arbitrary here, so the results hold for every way of storing it.
-/

namespace Fuzzball.Vine

/-! ## The conversions -/

theorem to64_int {t : Typ} (ht : t.IsReg) (i : I64) :
    to64 (.int t i) = .ok ((i.setWidth t.width).setWidth 64) := by
  have hle := t.width_le
  simp only [to64, ht.bitsOfWidth_eq, OCaml.ok_bind]
  congr 1
  ext j hj
  simp
  grind

theorem tos64_int {t : Typ} (ht : t.IsReg) (i : I64) :
    tos64 (.int t i) = .ok ((i.setWidth t.width).signExtend 64) := by
  have hle := t.width_le
  have hpos := ht.width_pos
  simp only [tos64, ht.bitsOfWidth_eq, OCaml.ok_bind]
  congr 1
  ext j hj
  simp only [BitVec.getElem_sshiftRight, BitVec.getElem_signExtend,
    BitVec.msb_eq_getLsbD_last, BitVec.getElem_shiftLeft,
    BitVec.getElem_setWidth, BitVec.getLsbD_shiftLeft, BitVec.getLsbD_setWidth]
  have hsum : 64 - 1 - (64 - t.width) = t.width - 1 := by omega
  by_cases hjw : j < t.width
  · simp [hjw, show 64 - t.width + j < 64 by omega, BitVec.getLsbD_eq_getElem hj]
  · simp [hjw, show ¬ 64 - t.width + j < 64 by omega, hsum,
      show ¬ 63 < 64 - t.width by omega, hpos]

theorem toVal_eq {t : Typ} (ht : t.IsReg) (v : I64) :
    toVal t v = .ok (.int t ((v.setWidth t.width).setWidth 64)) := by
  have hle := t.width_le
  simp only [toVal, ht.bitsOfWidth_eq, OCaml.ok_bind]
  congr 3
  rw [show (-1 : I64) = BitVec.allOnes 64 from rfl]
  ext j hj
  simp only [BitVec.getElem_and, BitVec.getElem_ushiftRight,
    BitVec.getLsbD_allOnes, BitVec.getElem_setWidth, BitVec.getLsbD_setWidth,
    BitVec.getLsbD_eq_getElem hj]
  congr 1
  simp only [decide_eq_decide]
  omega

/-! ## Operations on extended values -/

section Extension

variable {w : ℕ}

theorem setWidth_zeroExtend (hw : w ≤ 64) (x : BitVec w) :
    (x.setWidth 64).setWidth w = x := by
  simp [BitVec.setWidth_setWidth_of_le x hw]

theorem setWidth_signExtend (hw : w ≤ 64) (x : BitVec w) :
    (x.signExtend 64).setWidth w = x := by
  ext j hj
  simp [BitVec.getLsbD_eq_getElem (show j < 64 by omega),
    BitVec.getElem_signExtend, hj]

theorem zeroExtend_inj (hw : w ≤ 64) {x y : BitVec w} :
    x.setWidth 64 = y.setWidth 64 ↔ x = y := by
  constructor
  · intro h
    rw [← setWidth_zeroExtend hw x, h, setWidth_zeroExtend hw y]
  · rintro rfl
    rfl

theorem toInt_signExtend64 (hw : w ≤ 64) (x : BitVec w) :
    (x.signExtend 64).toInt = x.toInt :=
  BitVec.toInt_signExtend_of_le hw

theorem toInt_setWidth_of_le (hw : w ≤ 64) (x : I64) :
    (x.setWidth w).toInt = x.toInt.bmod (2 ^ w) := by
  rw [← BitVec.signExtend_eq_setWidth_of_le x hw,
    BitVec.toInt_signExtend_eq_toInt_bmod_of_le x hw]

theorem setWidth_sdiv (hw : w ≤ 64) (x y : BitVec w) :
    ((x.signExtend 64).sdiv (y.signExtend 64)).setWidth w = x.sdiv y := by
  apply BitVec.eq_of_toInt_eq
  rw [toInt_setWidth_of_le hw, BitVec.toInt_sdiv, BitVec.toInt_sdiv,
    toInt_signExtend64 hw, toInt_signExtend64 hw]
  exact Int.bmod_bmod_of_dvd (Nat.pow_dvd_pow 2 hw)

theorem setWidth_srem (hw : w ≤ 64) (x y : BitVec w) :
    ((x.signExtend 64).srem (y.signExtend 64)).setWidth w = x.srem y := by
  apply BitVec.eq_of_toInt_eq
  rw [toInt_setWidth_of_le hw, BitVec.toInt_srem,
    toInt_signExtend64 hw, toInt_signExtend64 hw, ← BitVec.toInt_srem]
  exact BitVec.toInt_bmod_cancel _

theorem smtSDiv_eq_sdiv {x y : BitVec w} (hy : y ≠ 0) :
    x.smtSDiv y = x.sdiv y := by
  have hneg : -y ≠ 0 := by simpa using hy
  rw [BitVec.smtSDiv_eq, BitVec.sdiv_eq]
  cases x.msb <;> cases y.msb <;> simp_all [BitVec.smtUDiv_eq]

theorem smtUDiv_eq_udiv {x y : BitVec w} (hy : y ≠ 0) :
    x.smtUDiv y = x / y := by
  rw [BitVec.smtUDiv_eq]
  exact if_neg hy

theorem slt_signExtend64 (hw : w ≤ 64) (x y : BitVec w) :
    (x.signExtend 64).slt (y.signExtend 64) = x.slt y := by
  simp [BitVec.slt, toInt_signExtend64 hw]

theorem sle_signExtend64 (hw : w ≤ 64) (x y : BitVec w) :
    (x.signExtend 64).sle (y.signExtend 64) = x.sle y := by
  simp [BitVec.sle, toInt_signExtend64 hw]

theorem sshiftRight_signExtend
    (hw : w ≤ 64) (x : BitVec w) (n : ℕ) :
    ((x.signExtend 64).sshiftRight n).setWidth w = x.sshiftRight n := by
  apply BitVec.eq_of_toInt_eq
  rw [toInt_setWidth_of_le hw, BitVec.toInt_sshiftRight,
    toInt_signExtend64 hw, ← BitVec.toInt_sshiftRight]
  exact BitVec.toInt_bmod_cancel _

theorem ushiftRight_zeroExtend
    (hw : w ≤ 64) (x : BitVec w) (n : ℕ) :
    (x.setWidth 64 >>> n).setWidth w = x >>> n := by
  ext j hj
  simp only [BitVec.getElem_setWidth, BitVec.getLsbD_ushiftRight,
    BitVec.getLsbD_setWidth, BitVec.getElem_ushiftRight,
    Bool.and_eq_right_iff_imp, decide_eq_true_eq]
  intro hbit
  have := BitVec.lt_of_getLsbD hbit
  omega

theorem shiftLeft_zeroExtend
    (hw : w ≤ 64) (x : BitVec w) (n : ℕ) :
    (x.setWidth 64 <<< n).setWidth w = x <<< n := by
  ext j hj
  by_cases hn : j < n
  · simp [hn]
  · simp [hn, show j < 64 by omega,
      BitVec.getLsbD_eq_getElem (show j - n < w by omega)]

theorem concat_zeroExtend
    {n : ℕ} (hn : n ≤ 64) (x y : BitVec w) :
    (y.setWidth 64 ||| x.setWidth 64 <<< w).setWidth n =
      (x ++ y).setWidth n := by
  ext j hj
  by_cases hjw : j < w
  · simp [BitVec.getLsbD_append, hjw, show j < 64 by omega]
  · simp [BitVec.getLsbD_append, hjw, show j < 64 by omega,
      BitVec.getLsbD_of_ge y j (by omega)]

theorem signExtend_ne_zero (hw : w ≤ 64) {x : BitVec w} (hx : x ≠ 0) :
    x.signExtend 64 ≠ 0 := by
  intro h
  apply hx
  rw [← setWidth_signExtend hw x, h]
  simp

theorem and_zeroExtend (hw : w ≤ 64) (x y : BitVec w) :
    (x.setWidth 64 &&& y.setWidth 64).setWidth w = x &&& y := by
  rw [BitVec.setWidth_and, setWidth_zeroExtend hw, setWidth_zeroExtend hw]

theorem or_zeroExtend (hw : w ≤ 64) (x y : BitVec w) :
    (x.setWidth 64 ||| y.setWidth 64).setWidth w = x ||| y := by
  rw [BitVec.setWidth_or, setWidth_zeroExtend hw, setWidth_zeroExtend hw]

theorem xor_zeroExtend (hw : w ≤ 64) (x y : BitVec w) :
    (x.setWidth 64 ^^^ y.setWidth 64).setWidth w = x ^^^ y := by
  rw [BitVec.setWidth_xor, setWidth_zeroExtend hw, setWidth_zeroExtend hw]

theorem beq_zeroExtend (hw : w ≤ 64) (x y : BitVec w) :
    (x.setWidth 64 == y.setWidth 64) = (x == y) := by
  rw [Bool.eq_iff_iff, beq_iff_eq, beq_iff_eq, zeroExtend_inj hw]

theorem toNat_zeroExtend (hw : w ≤ 64) (x : BitVec w) :
    (x.setWidth 64).toNat = x.toNat := by
  rw [BitVec.toNat_setWidth, Nat.mod_eq_of_lt]
  exact lt_of_lt_of_le x.isLt (Nat.pow_le_pow_right (by decide) hw)

theorem ucompare_lt_zeroExtend (hw : w ≤ 64) (x y : BitVec w) :
    decide (I64.ucompare (x.setWidth 64) (y.setWidth 64) < 0) = x.ult y := by
  rw [Bool.eq_iff_iff, decide_eq_true_eq, I64.ucompare_lt_zero_iff,
    BitVec.lt_def, toNat_zeroExtend hw, toNat_zeroExtend hw, BitVec.ult_eq_decide,
    decide_eq_true_eq]

theorem ucompare_le_zeroExtend (hw : w ≤ 64) (x y : BitVec w) :
    decide (I64.ucompare (x.setWidth 64) (y.setWidth 64) ≤ 0) = x.ule y := by
  rw [Bool.eq_iff_iff, decide_eq_true_eq, I64.ucompare_le_zero_iff,
    BitVec.le_def, toNat_zeroExtend hw, toNat_zeroExtend hw, BitVec.ule_eq_decide,
    decide_eq_true_eq]

end Extension

theorem flag_setWidth (b : Bool) :
    (flag 1 b).setWidth 64 = if b then (1 : I64) else 0 := by
  cases b <;> rfl

/-! ## The value of an operation on constants -/

/-- The value of an expression without variables, as `to_val` stores it. -/
def Exp.constantValue (e : Exp) : I64 :=
  (e.eval Valuation.zero e.width).setWidth 64

/-- The operations on integer constants. -/
def Exp.IsConstantOperation : Exp → Prop
  | .unOp _ (.int _ _) => True
  | .binOp _ (.int _ _) (.int _ _) => True
  | .cast _ _ (.int _ _) => True
  | _ => False

/-- A division has a divisor other than zero. -/
def Exp.DivisorNonzero : Exp → Prop
  | .binOp op _ (.int t i) =>
    op = .divide ∨ op = .sdivide ∨ op = .mod ∨ op = .smod →
      i.setWidth t.width ≠ 0
  | _ => True

theorem foldUnop_eq (op : UnopType) {t : Typ} (ht : t.IsReg) (i : I64) :
    foldUnop op t (.int t i) =
      .ok (.int t (Exp.unOp op (.int t i)).constantValue) := by
  have hle := t.width_le
  cases op <;>
    simp only [foldUnop, to64_int ht, toVal_eq ht, Exp.constantValue, Exp.eval,
      Exp.width, Exp.typ, OCaml.ok_bind, BitVec.setWidth_neg_of_le hle,
      BitVec.setWidth_not hle, setWidth_zeroExtend hle] <;>
    rfl

/-- The operations that need neither a division nor a shift. -/
theorem foldBinop_eq
    (wild : WildShift) (op : BinopType) {t1 t2 : Typ} (i1 i2 : I64)
    (h1 : t1.IsReg) (hadm : op.Admits t1 t2)
    (hop : op ∉ [.divide, .sdivide, .mod, .smod, .lshift, .rshift, .arshift]) :
    foldBinop wild op t1 (.int t1 i1) (.int t2 i2) =
      .ok (.int (op.result t1)
        (Exp.binOp op (.int t1 i1) (.int t2 i2)).constantValue) := by
  have hle := t1.width_le
  cases op <;> simp at hop
  case concat =>
    obtain ⟨rfl, ht⟩ := hadm
    have hdouble : doubleWidth t2 = .ok t2.double := by
      rcases ht with rfl | rfl | rfl <;> rfl
    have hlt : t2.width < 64 := by
      rcases ht with rfl | rfl | rfl <;> decide
    simp only [foldBinop, bvConcat, to64_int h1, toVal_eq h1.double,
      h1.bitsOfWidth_eq, hdouble, OCaml.ok_bind, OCaml.pure_bind_eq,
      I64.shiftLeft_of_lt wild _ hlt, concat_zeroExtend t2.double.width_le]
    rfl
  all_goals
    obtain rfl : t2 = t1 := hadm
    simp only [foldBinop, to64_int h1, tos64_int h1, toVal_eq h1,
      OCaml.ok_bind, BitVec.setWidth_add _ _ hle, BitVec.setWidth_mul _ _ hle,
      Bits.setWidth_sub hle, setWidth_zeroExtend hle, and_zeroExtend hle,
      or_zeroExtend hle, xor_zeroExtend hle, expBool,
      beq_zeroExtend hle, bne, ucompare_lt_zeroExtend hle,
      ucompare_le_zeroExtend hle, slt_signExtend64 hle, sle_signExtend64 hle,
      ← flag_setWidth]
    rfl

/-! ### Signed division -/

theorem foldBinop_sdivide_eq
    (wild : WildShift) {t : Typ} (i1 i2 : I64) (ht : t.IsReg)
    (hne : i2.setWidth t.width ≠ 0) :
    foldBinop wild .sdivide t (.int t i1) (.int t i2) =
      .ok (.int t
        (Exp.binOp .sdivide (.int t i1) (.int t i2)).constantValue) := by
  have hle := t.width_le
  have hne' := signExtend_ne_zero hle hne
  simp only [foldBinop, tos64_int ht, toVal_eq ht, OCaml.ok_bind, I64.div,
    if_neg hne', OCaml.pure_bind_eq, setWidth_sdiv hle]
  have hvalue : (Exp.binOp .sdivide (.int t i1) (.int t i2)).constantValue =
      ((i1.setWidth t.width).smtSDiv (i2.setWidth t.width)).setWidth 64 := rfl
  rw [hvalue, smtSDiv_eq_sdiv hne]

theorem foldBinop_smod_eq
    (wild : WildShift) {t : Typ} (i1 i2 : I64) (ht : t.IsReg)
    (hne : i2.setWidth t.width ≠ 0) :
    foldBinop wild .smod t (.int t i1) (.int t i2) =
      .ok (.int t (Exp.binOp .smod (.int t i1) (.int t i2)).constantValue) := by
  have hle := t.width_le
  have hne' := signExtend_ne_zero hle hne
  simp only [foldBinop, tos64_int ht, toVal_eq ht, OCaml.ok_bind, I64.rem,
    if_neg hne', OCaml.pure_bind_eq, setWidth_srem hle]
  rfl

/-! ### Unsigned division

The operands are sign extended first.  Where the top bit of the dividend is
set this adds a multiple of `2 ^ w` to it.
-/

theorem add_mul_div_mod_eq_iff
    {a b m k : ℕ} (hb : 0 < b) (hbm : b ≤ m) (ham : a < m) :
    (a + m * k) / b % m = a / b ↔ b ∣ k := by
  constructor
  · intro h
    have hq := Nat.div_add_mod ((a + m * k) / b) m
    rw [h] at hq
    have h1 := Nat.div_add_mod (a + m * k) b
    have h2 := Nat.div_add_mod a b
    have hlt1 := Nat.mod_lt (a + m * k) hb
    have hlt2 := Nat.mod_lt a hb
    generalize (a + m * k) / b / m = q at hq
    rw [← hq] at h1
    have hkey : b * (m * q) + (a + m * k) % b = m * k + a % b := by
      have := Nat.mul_add b (m * q) (a / b)
      omega
    refine ⟨q, ?_⟩
    have hcomm : b * (m * q) = m * (b * q) := by ring
    rw [hcomm] at hkey
    rcases lt_trichotomy k (b * q) with hlt | heq | hgt
    · have := Nat.mul_le_mul_left m (Nat.succ_le_of_lt hlt)
      rw [Nat.mul_succ] at this
      omega
    · exact heq
    · have := Nat.mul_le_mul_left m (Nat.succ_le_of_lt hgt)
      rw [Nat.mul_succ] at this
      omega
  · rintro ⟨q, rfl⟩
    have hrw : a + m * (b * q) = a + b * (m * q) := by ring
    rw [hrw, Nat.add_mul_div_left _ _ hb, Nat.add_mul_mod_self_left]
    exact Nat.mod_eq_of_lt (lt_of_le_of_lt (Nat.div_le_self a b) ham)

theorem add_mod_mod_eq_iff
    {a b m n : ℕ} (hb : 0 < b) (hbm : b ≤ m) :
    (a + n) % b % m = a % b ↔ b ∣ n := by
  have hlt : (a + n) % b < m := lt_of_lt_of_le (Nat.mod_lt _ hb) hbm
  rw [Nat.mod_eq_of_lt hlt]
  constructor
  · intro h
    have := (Nat.modEq_iff_dvd' (Nat.le_add_right a n)).mp (Eq.symm h)
    simpa using this
  · rintro ⟨q, rfl⟩
    exact Nat.add_mul_mod_self_left a b q

section UnsignedDivision

variable {w : ℕ}

theorem toNat_signExtend64 (hw : w ≤ 64) (x : BitVec w) :
    (x.signExtend 64).toNat =
      x.toNat + if x.msb then 2 ^ w * (2 ^ (64 - w) - 1) else 0 := by
  have hpow : 2 ^ w * 2 ^ (64 - w) = 2 ^ 64 := by
    rw [← Nat.pow_add]
    congr 1
    omega
  rw [BitVec.toNat_signExtend, toNat_zeroExtend hw, Nat.mul_sub, hpow,
    Nat.mul_one]

/-- Both operands have the top bit set: their difference is below the
divisor. -/
theorem div_add_eq {a b m n : ℕ} (ha : a < m) (hb : m ≤ 2 * b) :
    (a + n) / (b + n) = a / b := by
  have hb0 : 0 < b := by omega
  by_cases hab : a < b
  · rw [Nat.div_eq_of_lt hab, Nat.div_eq_of_lt (by omega)]
  · rw [Nat.div_eq_of_lt_le (k := 1) (by omega) (by omega),
      Nat.div_eq_of_lt_le (k := 1) (by omega) (by omega)]

/-- Sign extending the operands changes the quotient exactly when the top bit
is set in the dividend only and the divisor does not divide `2 ^ (64 - w) - 1`. -/
theorem setWidth_udiv_eq_iff
    (hw : w ≤ 64) (hpos : 0 < w) {x y : BitVec w} (hy : y ≠ 0) :
    ((x.signExtend 64) / (y.signExtend 64)).setWidth w = x / y ↔
      ¬ (x.msb = true ∧ y.msb = false ∧ ¬ y.toNat ∣ 2 ^ (64 - w) - 1) := by
  have hx := x.isLt
  have hylt := y.isLt
  have hy0 : 0 < y.toNat := by
    have : y.toNat ≠ 0 := by simpa [← BitVec.toNat_inj] using hy
    omega
  have hhalf : 2 ^ w = 2 * 2 ^ (w - 1) := by
    rw [← Nat.pow_succ', Nat.succ_eq_add_one, Nat.sub_add_cancel hpos]
  have hquot : x.toNat / y.toNat < 2 ^ w :=
    lt_of_le_of_lt (Nat.div_le_self _ _) hx
  rw [← BitVec.toNat_inj, BitVec.toNat_setWidth, BitVec.toNat_udiv,
    BitVec.toNat_udiv, toNat_signExtend64 hw, toNat_signExtend64 hw]
  generalize 2 ^ (64 - w) - 1 = k
  cases hxm : x.msb <;> cases hym : y.msb <;>
    simp only [BitVec.msb_eq_decide, decide_eq_true_eq, decide_eq_false_iff_not]
      at hxm hym <;>
    simp only [Bool.false_eq_true, if_false, if_true, Nat.add_zero,
      Nat.mod_eq_of_lt hquot, false_and, and_false, not_false_eq_true, iff_true,
      reduceCtorEq, true_and, not_not]
  · rw [Nat.div_eq_of_lt (by omega), Nat.div_eq_of_lt (by omega), Nat.zero_mod]
  · exact add_mul_div_mod_eq_iff hy0 (by omega) hx
  · rw [div_add_eq hx (by omega), Nat.mod_eq_of_lt hquot]

/-- As `setWidth_udiv_eq_iff`, for the remainder. -/
theorem setWidth_umod_eq_iff
    (hw : w ≤ 64) (hpos : 0 < w) {x y : BitVec w} (hy : y ≠ 0) :
    ((x.signExtend 64) % (y.signExtend 64)).setWidth w = x % y ↔
      ¬ (x.msb = true ∧ y.msb = false ∧
        ¬ y.toNat ∣ 2 ^ w * (2 ^ (64 - w) - 1)) := by
  have hx := x.isLt
  have hylt := y.isLt
  have hy0 : 0 < y.toNat := by
    have : y.toNat ≠ 0 := by simpa [← BitVec.toNat_inj] using hy
    omega
  have hhalf : 2 ^ w = 2 * 2 ^ (w - 1) := by
    rw [← Nat.pow_succ', Nat.succ_eq_add_one, Nat.sub_add_cancel hpos]
  have hrem : x.toNat % y.toNat < 2 ^ w :=
    lt_of_le_of_lt (Nat.mod_le _ _) hx
  rw [← BitVec.toNat_inj, BitVec.toNat_setWidth, BitVec.toNat_umod,
    BitVec.toNat_umod, toNat_signExtend64 hw, toNat_signExtend64 hw]
  generalize 2 ^ (64 - w) - 1 = k
  cases hxm : x.msb <;> cases hym : y.msb <;>
    simp only [BitVec.msb_eq_decide, decide_eq_true_eq, decide_eq_false_iff_not]
      at hxm hym <;>
    simp only [Bool.false_eq_true, if_false, if_true, Nat.add_zero,
      Nat.mod_eq_of_lt hrem, false_and, and_false, not_false_eq_true, iff_true,
      reduceCtorEq, true_and, not_not]
  · have hxy : x.toNat < y.toNat := by omega
    rw [Nat.mod_eq_of_lt hxy, Nat.mod_eq_of_lt (Nat.lt_add_right _ hxy),
      Nat.mod_eq_of_lt hx]
  · exact add_mod_mod_eq_iff hy0 (by omega)
  · have hdiv : (x.toNat + 2 ^ w * k) / (y.toNat + 2 ^ w * k) =
        x.toNat / y.toNat := div_add_eq hx (by omega)
    have h1 := Nat.div_add_mod (x.toNat + 2 ^ w * k) (y.toNat + 2 ^ w * k)
    have h2 := Nat.div_add_mod x.toNat y.toNat
    have hle : x.toNat / y.toNat ≤ 1 := by
      rw [Nat.div_le_iff_le_mul hy0]
      omega
    rw [hdiv] at h1
    interval_cases hq : x.toNat / y.toNat
    · rw [Nat.mul_zero, Nat.zero_add] at h1 h2
      rw [h1, Nat.add_mul_mod_self_left, Nat.mod_eq_of_lt hx, h2]
    · rw [Nat.mul_one] at h1 h2
      rw [show (x.toNat + 2 ^ w * k) % (y.toNat + 2 ^ w * k) =
        x.toNat % y.toNat by omega, Nat.mod_eq_of_lt hrem]

end UnsignedDivision

/-- The operand of a division `DIVIDE` or `MOD` at the width of `t` that the
sign extension changes: the top bit is set in the dividend only. -/
def SignExtended (t : Typ) (i1 i2 : I64) : Prop :=
  (i1.setWidth t.width).msb = true ∧ (i2.setWidth t.width).msb = false

theorem toVal_ok_iff {t : Typ} (ht : t.IsReg) (v : I64) (x : BitVec t.width) :
    toVal t v = .ok (.int t (x.setWidth 64)) ↔ v.setWidth t.width = x := by
  rw [toVal_eq ht, ← zeroExtend_inj t.width_le]
  simp

theorem foldBinop_divide_iff
    (wild : WildShift) {t : Typ} (i1 i2 : I64) (ht : t.IsReg)
    (hne : i2.setWidth t.width ≠ 0) :
    foldBinop wild .divide t (.int t i1) (.int t i2) =
        .ok (.int t
          (Exp.binOp .divide (.int t i1) (.int t i2)).constantValue) ↔
      ¬ (SignExtended t i1 i2 ∧
        ¬ (i2.setWidth t.width).toNat ∣ 2 ^ (64 - t.width) - 1) := by
  have hle := t.width_le
  have hne' := signExtend_ne_zero hle hne
  simp only [foldBinop, tos64_int ht, OCaml.ok_bind, I64.udiv_eq _ _ hne']
  have hvalue : (Exp.binOp .divide (.int t i1) (.int t i2)).constantValue =
      ((i1.setWidth t.width).smtUDiv (i2.setWidth t.width)).setWidth 64 := rfl
  rw [hvalue, smtUDiv_eq_udiv hne, toVal_ok_iff ht, setWidth_udiv_eq_iff hle ht.width_pos hne, SignExtended,
    and_assoc]

theorem foldBinop_mod_iff
    (wild : WildShift) {t : Typ} (i1 i2 : I64) (ht : t.IsReg)
    (hne : i2.setWidth t.width ≠ 0) :
    foldBinop wild .mod t (.int t i1) (.int t i2) =
        .ok (.int t (Exp.binOp .mod (.int t i1) (.int t i2)).constantValue) ↔
      ¬ (SignExtended t i1 i2 ∧
        ¬ (i2.setWidth t.width).toNat ∣
          2 ^ t.width * (2 ^ (64 - t.width) - 1)) := by
  have hle := t.width_le
  have hne' := signExtend_ne_zero hle hne
  simp only [foldBinop, tos64_int ht, OCaml.ok_bind, I64.urem_eq _ _ hne']
  have hvalue : (Exp.binOp .mod (.int t i1) (.int t i2)).constantValue =
      (i1.setWidth t.width % i2.setWidth t.width).setWidth 64 := rfl
  rw [hvalue, toVal_ok_iff ht, setWidth_umod_eq_iff hle ht.width_pos hne, SignExtended,
    and_assoc]

/-! ### Shifts

A shift by more than the width is a shift by the width, which `Int64` leaves
unspecified at 64 bits.
-/

theorem toshift_eq {t : Typ} (ht : t.IsReg) (i : I64) {max : ℕ} (hmax : max ≤ 64) :
    toshift max (.int t i) = .ok (min max (i.setWidth t.width).toNat) := by
  have hle := t.width_le
  have hnat := toNat_zeroExtend hle (i.setWidth t.width)
  simp only [toshift, to64_int ht, OCaml.ok_bind]
  generalize (i.setWidth t.width).setWidth 64 = x at hnat
  have hx := x.isLt
  have hcond : (x.sle (BitVec.ofNat 64 max) && (0 : I64).sle x) = true ↔
      x.toNat ≤ max := by
    have hmod : max % 2 ^ 64 = max := Nat.mod_eq_of_lt (by omega)
    have hzero : (0 : I64).toNat = 0 := rfl
    simp only [BitVec.sle, BitVec.toInt_eq_toNat_cond, BitVec.toNat_ofNat,
      Bool.and_eq_true, decide_eq_true_eq, hmod, hzero]
    omega
  by_cases h : x.toNat ≤ max
  · rw [if_pos (hcond.mpr h), ← hnat, Nat.min_eq_right h]
    rfl
  · rw [if_neg (mt hcond.mp h), ← hnat, Nat.min_eq_left (by omega)]
    rfl

section ShiftByWidth

variable {w : ℕ} (x : BitVec w) (n : ℕ)

theorem shiftLeft_min : x <<< min w n = x <<< n := by
  ext j hj
  by_cases h : n ≤ w
  · rw [Nat.min_eq_right h]
  · rw [Nat.min_eq_left (by omega)]
    simp [show j < n by omega]

theorem ushiftRight_min : x >>> min w n = x >>> n := by
  by_cases h : n ≤ w
  · rw [Nat.min_eq_right h]
  · rw [Nat.min_eq_left (by omega), BitVec.ushiftRight_eq_zero (by omega),
      BitVec.ushiftRight_eq_zero (by omega)]

theorem sshiftRight_min : x.sshiftRight (min w n) = x.sshiftRight n := by
  by_cases h : n ≤ w
  · rw [Nat.min_eq_right h]
  · rw [Nat.min_eq_left (by omega)]
    ext j hj
    simp [BitVec.getElem_sshiftRight, show ¬ n + j < w by omega]

end ShiftByWidth

theorem shift_const (v x : I64) :
    I64.shiftLeft (.const v) x 64 = v ∧ I64.shiftRight (.const v) x 64 = v ∧
      I64.shiftRightLogical (.const v) x 64 = v := by
  simp [I64.shiftLeft, I64.shiftRight, I64.shiftRightLogical, WildShift.const]

theorem foldBinop_shift_const
    {op : BinopType} (hop : op = .lshift ∨ op = .rshift ∨ op = .arshift)
    (v : I64) {t2 : Typ} (i1 i2 : I64) (ht2 : t2.IsReg)
    (hge : 64 ≤ (i2.setWidth t2.width).toNat) :
    foldBinop (.const v) op .reg64 (.int .reg64 i1) (.int t2 i2) =
      .ok (.int .reg64 v) := by
  have hreg : Typ.reg64.IsReg := trivial
  have hmin : min 64 (i2.setWidth t2.width).toNat = 64 := by omega
  rcases hop with rfl | rfl | rfl
  all_goals
    simp only [foldBinop, to64_int hreg, tos64_int hreg, hreg.bitsOfWidth_eq,
      OCaml.ok_bind, Typ.width_reg64, toshift_eq ht2 i2 (le_refl 64), hmin,
      Nat.cast_ofNat, shift_const, toVal_eq hreg, BitVec.setWidth_eq]

theorem foldBinop_shift_of_lt
    (wild : WildShift) {op : BinopType}
    (hop : op = .lshift ∨ op = .rshift ∨ op = .arshift)
    {t t2 : Typ} (i1 i2 : I64) (ht : t.IsReg) (ht2 : t2.IsReg)
    (hlt : min t.width (i2.setWidth t2.width).toNat < 64) :
    foldBinop wild op t (.int t i1) (.int t2 i2) =
      .ok (.int t (Exp.binOp op (.int t i1) (.int t2 i2)).constantValue) := by
  have hle := t.width_le
  rcases hop with rfl | rfl | rfl
  · simp only [foldBinop, to64_int ht, ht.bitsOfWidth_eq, OCaml.ok_bind,
      toshift_eq ht2 i2 hle, I64.shiftLeft_of_lt wild _ hlt, toVal_eq ht,
      shiftLeft_zeroExtend hle, shiftLeft_min]
    rfl
  · simp only [foldBinop, to64_int ht, ht.bitsOfWidth_eq, OCaml.ok_bind,
      toshift_eq ht2 i2 hle, I64.shiftRightLogical_of_lt wild _ hlt,
      toVal_eq ht, ushiftRight_zeroExtend hle, ushiftRight_min]
    rfl
  · simp only [foldBinop, tos64_int ht, ht.bitsOfWidth_eq, OCaml.ok_bind,
      toshift_eq ht2 i2 hle, I64.shiftRight_of_lt wild _ hlt, toVal_eq ht,
      sshiftRight_signExtend hle, sshiftRight_min]
    rfl

theorem foldBinop_shift_iff
    {op : BinopType} (hop : op = .lshift ∨ op = .rshift ∨ op = .arshift)
    {t t2 : Typ} (i1 i2 : I64) (ht : t.IsReg) (ht2 : t2.IsReg) :
    (∀ wild, foldBinop wild op t (.int t i1) (.int t2 i2) =
        .ok (.int t (Exp.binOp op (.int t i1) (.int t2 i2)).constantValue)) ↔
      ¬ (t = .reg64 ∧ 64 ≤ (i2.setWidth t2.width).toNat) := by
  constructor
  · rintro h ⟨rfl, hge⟩
    have hfold := h (.const ((Exp.binOp op (.int .reg64 i1)
      (.int t2 i2)).constantValue + 1))
    rw [foldBinop_shift_const hop _ i1 i2 ht2 hge] at hfold
    simp at hfold
  · intro h wild
    apply foldBinop_shift_of_lt wild hop i1 i2 ht ht2
    by_cases h64 : t = .reg64
    · have : ¬ 64 ≤ (i2.setWidth t2.width).toNat := fun hge => h ⟨h64, hge⟩
      omega
    · have : t.width < 64 := by
        cases t <;> simp_all [Typ.IsReg]
      omega

/-! ### Casts -/

theorem signExtend_setWidth
    {w w2 : ℕ} (hw : w ≤ w2) (hw2 : w2 ≤ 64) (x : BitVec w) :
    (x.signExtend 64).setWidth w2 = x.signExtend w2 := by
  apply BitVec.eq_of_toInt_eq
  rw [toInt_setWidth_of_le hw2, toInt_signExtend64 (hw.trans hw2),
    ← BitVec.toInt_signExtend_of_le hw]
  exact BitVec.toInt_bmod_cancel _

theorem lowMask_setWidth {w2 : ℕ} (hw2 : w2 ≤ 64) (x : I64) :
    (x &&& ~~~((-1 : I64) <<< w2)).setWidth w2 = x.setWidth w2 := by
  ext j hj
  simp [hj, show j < 64 by omega]

theorem highBits_setWidth
    {w w2 : ℕ} (hw2 : w2 ≤ w) (hw : w ≤ 64) (x : BitVec w) :
    ((x.setWidth 64 &&& (-1 : I64) <<< (w - w2)).sshiftRight (w - w2)).setWidth
        w2 = (x >>> (w - w2)).setWidth w2 := by
  ext j hj
  rw [show (-1 : I64) = BitVec.allOnes 64 from rfl]
  simp only [BitVec.getElem_setWidth, BitVec.getLsbD_ushiftRight,
    BitVec.getLsbD_sshiftRight, BitVec.getLsbD_and, BitVec.getLsbD_shiftLeft,
    BitVec.getLsbD_allOnes, BitVec.getLsbD_setWidth]
  simp [show j < 64 by omega, show w - w2 + j < 64 by omega]

theorem foldCast_eq
    (wild : WildShift) (ct : CastType) {t t2 : Typ} (i : I64) (ht : t.IsReg)
    (ht2 : t2.IsReg) (hadm : ct.Admits t2 t)
    (hlow : ¬ (ct = .castLow ∧ t2 = .reg64 ∧ i ≠ 0)) :
    foldCast wild ct t2 t (.int t i) =
      .ok (.int t2 (Exp.cast ct t2 (.int t i)).constantValue) := by
  have hle := t.width_le
  have hle2 := t2.width_le
  have hpos2 := ht2.width_pos
  simp only [foldCast, ht.bitsOfWidth_eq, ht2.bitsOfWidth_eq, to64_int ht,
    tos64_int ht, OCaml.ok_bind]
  cases ct with
  | castUnsigned =>
    refine (toVal_ok_iff ht2 _ _).mpr ?_
    exact BitVec.setWidth_setWidth_of_le _ hle2
  | castSigned =>
    refine (toVal_ok_iff ht2 _ _).mpr ?_
    exact signExtend_setWidth hadm hle2 _
  | castHigh =>
    have hw2 : t2.width ≤ t.width := hadm
    have hcast : (t.width - t2.width : ℤ) = ((t.width - t2.width : ℕ) : ℤ) := by
      omega
    have hlt : t.width - t2.width < 64 := by omega
    refine (toVal_ok_iff ht2 _ _).mpr ?_
    rw [hcast, I64.shiftLeft_of_lt wild _ hlt, I64.shiftRight_of_lt wild _ hlt]
    exact highBits_setWidth hw2 hle _
  | castLow =>
    refine (toVal_ok_iff ht2 _ _).mpr ?_
    by_cases h64 : t2 = .reg64
    · have hi : i = 0 := by
        by_contra hi
        exact hlow ⟨rfl, h64, hi⟩
      simp [hi, Exp.eval]
      rfl
    · have hlt : t2.width < 64 := by
        cases t2 <;> simp_all [Typ.IsReg]
      rw [I64.shiftLeft_of_lt wild _ hlt, lowMask_setWidth hle2]
      exact BitVec.setWidth_setWidth_of_le _ hle2

theorem foldCast_iff
    (ct : CastType) {t t2 : Typ} (i : I64) (ht : t.IsReg) (ht2 : t2.IsReg)
    (hadm : ct.Admits t2 t) :
    (∀ wild, foldCast wild ct t2 t (.int t i) =
        .ok (.int t2 (Exp.cast ct t2 (.int t i)).constantValue)) ↔
      ¬ (ct = .castLow ∧ t2 = .reg64 ∧ i ≠ 0) := by
  constructor
  · rintro h ⟨rfl, rfl, hi⟩
    obtain rfl : t = .reg64 := by
      cases t <;> simp_all [Typ.IsReg, CastType.Admits]
    -- a platform that answers all ones clears the value
    have hfold := h (.const (-1))
    have hvalue : (Exp.cast .castLow .reg64 (.int .reg64 i)).constantValue = i := by
      simp [Exp.constantValue, Exp.eval, Exp.width, Exp.typ]
    simp only [foldCast, ht.bitsOfWidth_eq, to64_int ht, OCaml.ok_bind,
      Typ.width_reg64, Nat.cast_ofNat, shift_const, toVal_eq ht2,
      hvalue] at hfold
    apply hi
    simpa using hfold.symm
  · intro h wild
    exact foldCast_eq wild ct i ht ht2 hadm h

/-! ## The fold of an operation on constants -/

theorem constantFoldStep_binOp
    (wild : WildShift) (ctx : LValue → Option Exp) (fold : Exp → OCaml Exp)
    {op : BinopType} (hop : op ≠ .minus) (t1 t2 : Typ) (i1 i2 : I64) :
    constantFoldStep wild ctx fold (.binOp op (.int t1 i1) (.int t2 i2)) =
      foldBinop wild op t1 (.int t1 i1) (.int t2 i2) := by
  have hstep : constantFoldStep wild ctx fold
      (.binOp op (.int t1 i1) (.int t2 i2)) =
        (fun o => o.getD (.binOp op (.int t1 i1) (.int t2 i2))) <$>
          firstMatch (rules wild ctx fold)
            (.binOp op (.int t1 i1) (.int t2 i2)) := by
    cases op <;> first | rfl | exact absurd rfl hop
  rw [hstep, rules, constantRules, List.cons_append]
  simp only [List.cons_append, firstMatch, constantBinop]
  cases foldBinop wild op t1 (.int t1 i1) (.int t2 i2) <;> rfl

theorem constantFoldStep_unOp
    (wild : WildShift) (ctx : LValue → Option Exp) (fold : Exp → OCaml Exp)
    (op : UnopType) (t : Typ) (i : I64) :
    constantFoldStep wild ctx fold (.unOp op (.int t i)) =
      foldUnop op t (.int t i) := by
  simp only [constantFoldStep, rules, constantRules, List.cons_append,
    firstMatch, constantBinop, constantUnop]
  cases foldUnop op t (.int t i) <;> rfl

theorem constantFoldStep_cast
    (wild : WildShift) (ctx : LValue → Option Exp) (fold : Exp → OCaml Exp)
    (ct : CastType) (t2 t : Typ) (i : I64) :
    constantFoldStep wild ctx fold (.cast ct t2 (.int t i)) =
      foldCast wild ct t2 t (.int t i) := by
  simp only [constantFoldStep, rules, constantRules, List.cons_append,
    firstMatch, constantBinop, constantUnop, constantFBinop, constantFUnop,
    constantCast]
  cases foldCast wild ct t2 t (.int t i) <;> rfl

theorem constantFold_minus_eq
    (wild : WildShift) (ctx : LValue → Option Exp) {t : Typ} (ht : t.IsReg)
    (i1 i2 : I64) :
    constantFold wild ctx (.binOp .minus (.int t i1) (.int t i2)) =
      .ok (.int t (Exp.binOp .minus (.int t i1) (.int t i2)).constantValue) := by
  have hle := t.width_le
  simp only [constantFold]
  rw [constantFoldStep]
  simp only [constantFoldStep_unOp, foldUnop_eq _ ht, OCaml.ok_bind]
  rw [constantFoldStep_binOp _ _ _ (by decide),
    foldBinop_eq wild .plus _ _ ht rfl (by decide)]
  congr 2
  change (i1.setWidth t.width + ((-i2.setWidth t.width).setWidth 64).setWidth
    t.width).setWidth 64 = (i1.setWidth t.width - i2.setWidth t.width).setWidth 64
  rw [setWidth_zeroExtend hle, BitVec.sub_eq_add_neg]

/-- The operations on constants that `constant_fold` gets wrong: unsigned
divisions of a dividend whose top bit is set, and those that shift an `int64`
by 64. -/
def Exp.FoldsWrong : Exp → Prop
  | .binOp op (.int t i1) (.int t2 i2) =>
    match op with
    | .divide => SignExtended t i1 i2 ∧
        ¬ (i2.setWidth t.width).toNat ∣ 2 ^ (64 - t.width) - 1
    | .mod => SignExtended t i1 i2 ∧
        ¬ (i2.setWidth t.width).toNat ∣ 2 ^ t.width * (2 ^ (64 - t.width) - 1)
    | .lshift | .rshift | .arshift =>
      t = .reg64 ∧ 64 ≤ (i2.setWidth t2.width).toNat
    | _ => False
  | .cast ct t2 (.int _ i) => ct = .castLow ∧ t2 = .reg64 ∧ i ≠ 0
  | _ => False

/-- On which operations on constants `constant_fold` returns the constant of
bit-vector arithmetic, whatever the answers of the platform are. -/
theorem constantFold_constant_iff
    (ctx : LValue → Option Exp) {e : Exp} (hconst : e.IsConstantOperation)
    (hwell : e.WellTyped) (hdiv : e.DivisorNonzero) :
    (∀ wild, constantFold wild ctx e = .ok (.int e.typ e.constantValue)) ↔
      ¬ e.FoldsWrong := by
  unfold Exp.IsConstantOperation at hconst
  split at hconst
  · rename_i op t i
    simp only [constantFold, constantFoldStep_unOp, foldUnop_eq _ hwell,
      Exp.FoldsWrong, not_false_eq_true, iff_true]
    exact fun _ => rfl
  · rename_i op t i1 t2 i2
    obtain ⟨ht, ht2, hadm⟩ := hwell
    by_cases hminus : op = .minus
    · subst hminus
      obtain rfl : t2 = t := hadm
      simp only [constantFold_minus_eq _ ctx ht, Exp.FoldsWrong,
        not_false_eq_true, iff_true]
      exact fun _ => rfl
    · simp only [constantFold, constantFoldStep_binOp _ _ _ hminus]
      cases op with
      | divide =>
        obtain rfl : t2 = t := hadm
        have hne := hdiv (.inl rfl)
        have hiff wild := foldBinop_divide_iff wild i1 i2 ht hne
        exact (forall_congr' hiff).trans ⟨fun h => h (.const 0), fun h _ => h⟩
      | mod =>
        obtain rfl : t2 = t := hadm
        have hne := hdiv (.inr (.inr (.inl rfl)))
        have hiff wild := foldBinop_mod_iff wild i1 i2 ht hne
        exact (forall_congr' hiff).trans ⟨fun h => h (.const 0), fun h _ => h⟩
      | sdivide =>
        obtain rfl : t2 = t := hadm
        have hne := hdiv (.inr (.inl rfl))
        exact ⟨fun _ => not_false,
          fun _ wild => foldBinop_sdivide_eq wild i1 i2 ht hne⟩
      | smod =>
        obtain rfl : t2 = t := hadm
        have hne := hdiv (.inr (.inr (.inr rfl)))
        exact ⟨fun _ => not_false,
          fun _ wild => foldBinop_smod_eq wild i1 i2 ht hne⟩
      | lshift => exact foldBinop_shift_iff (by simp) i1 i2 ht ht2
      | rshift => exact foldBinop_shift_iff (by simp) i1 i2 ht ht2
      | arshift => exact foldBinop_shift_iff (by simp) i1 i2 ht ht2
      | _ =>
        exact ⟨fun _ => not_false,
          fun _ wild => foldBinop_eq wild _ i1 i2 ht hadm (by decide)⟩
  · rename_i ct t2 t i
    obtain ⟨ht, ht2, hadm⟩ := hwell
    simp only [constantFold, constantFoldStep_cast]
    exact foldCast_iff ct i ht ht2 hadm
  · exact hconst.elim

/-- `0xfe:REG_8 / 3` is `0x54`. -/
theorem constantFold_constant_iff_divide :
    (∀ wild, constantFold wild (fun _ => none)
      (.binOp .divide (.int .reg8 0xfe) (.int .reg8 3)) =
        .ok (.int .reg8 0x54)) ↔
      ¬ (Exp.binOp .divide (.int .reg8 0xfe) (.int .reg8 3)).FoldsWrong :=
  constantFold_constant_iff (fun _ => none)
    (e := .binOp .divide (.int .reg8 0xfe) (.int .reg8 3))
    trivial ⟨trivial, trivial, rfl⟩ (fun _ => by decide)

/-- `0xff:REG_8 / 2` folds to `0xff`, the low byte of half of `2 ^ 64 - 1`. -/
theorem constantFold_divide_wrong :
    (Exp.binOp .divide (.int .reg8 0xff) (.int .reg8 2)).IsConstantOperation ∧
    (Exp.binOp .divide (.int .reg8 0xff) (.int .reg8 2)).WellTyped ∧
    (Exp.binOp .divide (.int .reg8 0xff) (.int .reg8 2)).DivisorNonzero ∧
    (Exp.binOp .divide (.int .reg8 0xff) (.int .reg8 2)).constantValue = 0x7f ∧
    constantFold (.const 0) (fun _ => none)
      (.binOp .divide (.int .reg8 0xff) (.int .reg8 2)) =
        .ok (.int .reg8 0xff) := by
  refine ⟨trivial, ⟨trivial, trivial, rfl⟩, fun _ => by decide, by decide, ?_⟩
  rw [constantFold, constantFoldStep_binOp _ _ _ (by decide)]
  decide

end Fuzzball.Vine
