import Mathlib.Data.BitVec
import Mathlib.Tactic

/-!
# Casts of bit vectors

Laws of zero extension, sign extension, truncation and of the selection of
high bits, among themselves and with shifts, masks and concatenation.  The
widths are arbitrary up to the inequalities that make the casts lossless.
-/

namespace Fuzzball.Bits

variable {n : ℕ}

/-- The `m` high bits. -/
def high (m : ℕ) (x : BitVec n) : BitVec m := (x >>> (n - m)).setWidth m

theorem getElem_high {m : ℕ} (x : BitVec n) {j : ℕ} (hj : j < m) :
    (high m x)[j] = x.getLsbD (n - m + j) := by
  simp [high]

theorem toNat_high {m : ℕ} (x : BitVec n) (hm : m ≤ n) :
    (high m x).toNat = x.toNat / 2 ^ (n - m) := by
  have hx : x.toNat < 2 ^ (n - m) * 2 ^ m := by
    rw [← pow_add, Nat.sub_add_cancel hm]
    exact x.isLt
  rw [high, BitVec.toNat_setWidth, BitVec.toNat_ushiftRight,
    Nat.shiftRight_eq_div_pow, Nat.mod_eq_of_lt (Nat.div_lt_of_lt_mul hx)]

theorem high_high {m k : ℕ} (hm : m ≤ n) (hk : k ≤ m) (x : BitVec n) :
    high k (high m x) = high k x := by
  ext j hj
  simp only [getElem_high _ hj]
  rw [BitVec.getLsbD_eq_getElem (show m - k + j < m by omega),
    getElem_high _ (show m - k + j < m by omega)]
  congr 1
  omega

theorem high_self (x : BitVec n) : high n x = x := by
  simp [high]

theorem signExtend_signExtend {m k : ℕ} (hm : n ≤ m) (hk : m ≤ k) (x : BitVec n) :
    (x.signExtend m).signExtend k = x.signExtend k := by
  apply BitVec.eq_of_toInt_eq
  rw [BitVec.toInt_signExtend_of_le hk, BitVec.toInt_signExtend_of_le hm,
    BitVec.toInt_signExtend_of_le (hm.trans hk)]

theorem setWidth_signExtend_of_le {m k : ℕ} (hm : n ≤ m) (hk : k ≤ n) (x : BitVec n) :
    (x.signExtend m).setWidth k = x.setWidth k := by
  ext j hj
  simp only [BitVec.getElem_setWidth, BitVec.getLsbD_signExtend,
    show j < m by omega, show j < n by omega, decide_true, Bool.true_and, if_true]

theorem setWidth_signExtend_of_ge {m k : ℕ} (hm : k ≤ m) (x : BitVec n) :
    (x.signExtend m).setWidth k = x.signExtend k := by
  ext j hj
  simp only [BitVec.getElem_setWidth, BitVec.getLsbD_signExtend,
    BitVec.getElem_signExtend, show j < m by omega, decide_true, Bool.true_and]
  split_ifs with h <;> simp [BitVec.getLsbD_eq_getElem, *]

theorem high_setWidth_eq_zero {m k : ℕ} (hk : k + n ≤ m)
    (x : BitVec n) : high k (x.setWidth m) = 0 := by
  ext j hj
  rw [getElem_high _ hj, BitVec.getLsbD_setWidth,
    BitVec.getLsbD_of_ge x _ (by omega)]
  simp

theorem high_one_signExtend {m : ℕ} (hn : 0 < n) (hm : n ≤ m) (x : BitVec n) :
    high 1 (x.signExtend m) = high 1 x := by
  ext j hj
  obtain rfl : j = 0 := by omega
  rw [getElem_high _ hj, getElem_high _ hj, BitVec.getLsbD_signExtend]
  by_cases h : m = n
  · subst h
    simp [show m - 1 < m by omega]
  · simp [show m - 1 < m by omega, show ¬ m - 1 < n by omega,
      BitVec.msb_eq_getLsbD_last]

theorem signExtend_setWidth {m k : ℕ} (hm : n < m) (x : BitVec n) :
    (x.setWidth m).signExtend k = x.setWidth k := by
  have hmsb : (x.setWidth m).msb = false := by
    rw [BitVec.msb_setWidth, BitVec.getLsbD_of_ge x _ (by omega), Bool.and_false]
  rw [BitVec.signExtend_eq_setWidth_of_msb_false hmsb]
  ext j hj
  simp only [BitVec.getElem_setWidth, BitVec.getLsbD_setWidth]
  by_cases h : j < m
  · simp [h]
  · simp [h, BitVec.getLsbD_of_ge x j (by omega)]

theorem setWidth_setWidth_of_ge {m k : ℕ} (hm : n ≤ m) (x : BitVec n) :
    (x.setWidth m).setWidth k = x.setWidth k := by
  ext j hj
  simp only [BitVec.getElem_setWidth, BitVec.getLsbD_setWidth]
  by_cases h : j < m
  · simp [h]
  · simp [h, BitVec.getLsbD_of_ge x j (by omega)]

theorem setWidth_setWidth_self {m : ℕ} (hm : n ≤ m) (x : BitVec n) :
    (x.setWidth m).setWidth n = x := by
  rw [setWidth_setWidth_of_ge hm, BitVec.setWidth_eq]

theorem setWidth_signExtend_self {m : ℕ} (hm : n ≤ m) (x : BitVec n) :
    (x.signExtend m).setWidth n = x := by
  rw [setWidth_signExtend_of_le hm le_rfl, BitVec.setWidth_eq]

/-- A zero extension is recovered from its low bits. -/
theorem zeroExtend_low {m k : ℕ} (hm : n ≤ m) (hk : n ≤ k) (x : BitVec n) :
    (((x.setWidth m).setWidth k).setWidth n).setWidth k =
      (x.setWidth m).setWidth k := by
  rw [setWidth_setWidth_of_ge hm, setWidth_setWidth_self hk]

/-- A sign extension is recovered from its low bits. -/
theorem signExtend_low {m k : ℕ} (hm : n ≤ m) (hk : m ≤ k) (x : BitVec n) :
    (((((x.signExtend m).setWidth k).setWidth n).signExtend k).setWidth
      m).setWidth k = (x.signExtend m).setWidth k := by
  rw [BitVec.setWidth_setWidth_of_le _ (hm.trans hk), setWidth_signExtend_self hm,
    setWidth_signExtend_of_ge hk]

theorem setWidth_eq_zero_iff {m : ℕ} (hm : n ≤ m) (x : BitVec n) :
    x.setWidth m = 0 ↔ x = 0 := by
  simp only [← BitVec.toNat_inj, BitVec.toNat_setWidth]
  rw [Nat.mod_eq_of_lt (lt_of_lt_of_le x.isLt (Nat.pow_le_pow_right (by decide) hm))]
  simp

theorem signExtend_eq_zero_iff {m : ℕ} (hm : n ≤ m) (x : BitVec n) :
    x.signExtend m = 0 ↔ x = 0 := by
  simp only [← BitVec.toInt_inj, BitVec.toInt_signExtend_of_le hm]
  simp

theorem getLsbD_highMask : ∀ j < 32,
    (0xffffff00 : BitVec 32).getLsbD j = decide (8 ≤ j) := by
  decide

/-- Sign extension to 32 bits from a byte or more, by a mask. -/
theorem signExtend_eq_or_highMask (hn : 8 ≤ n) (x : BitVec n) :
    x.setWidth 32 ||| (x.signExtend 32 &&& 0xffffff00) = x.signExtend 32 := by
  ext j hj
  have hmask := getLsbD_highMask j hj
  simp only [BitVec.getElem_or, BitVec.getElem_and, BitVec.getElem_setWidth,
    BitVec.getElem_signExtend, BitVec.getLsbD_eq_getElem hj] at *
  rw [hmask]
  by_cases h : j < n
  · simp only [h, dif_pos, BitVec.getLsbD_eq_getElem h]
    cases x[j] <;> simp
  · simp [h, BitVec.getLsbD_of_ge x j (by omega), show 8 ≤ j by omega]

/-! ## Concatenation -/

section Concatenation

variable {m : ℕ} (x : BitVec n) (y : BitVec m)

theorem setWidth_append_of_le {k : ℕ} (hk : k ≤ m) :
    (x ++ y).setWidth k = y.setWidth k := by
  ext j hj
  simp [BitVec.getLsbD_append, show j < m by omega]

theorem high_append_of_le {k : ℕ} (hk : k ≤ n) :
    high k (x ++ y) = high k x := by
  ext j hj
  rw [getElem_high _ hj, getElem_high _ hj, BitVec.getLsbD_append]
  rw [if_neg (by omega)]
  congr 1
  omega

theorem high_setWidth_append {d k : ℕ} (hd : d = n + m) (hk : k ≤ n) :
    high k ((x ++ y).setWidth d) = high k x := by
  subst hd
  rw [BitVec.setWidth_eq, high_append_of_le x y hk]

theorem zero_append : (0 : BitVec n) ++ y = y.setWidth (n + m) := by
  ext j hj
  by_cases h : j < m
  · simp [BitVec.getElem_append, h]
  · simp [BitVec.getElem_append, h, BitVec.getLsbD_of_ge y j (by omega)]

end Concatenation

/-! ## Masks -/

/-- A mask of low bits. -/
theorem and_lowMask (k : ℕ) (x : BitVec n) (mask : BitVec n)
    (hmask : mask.toNat = 2 ^ k - 1) : x &&& mask = (x.setWidth k).setWidth n := by
  apply BitVec.eq_of_toNat_eq
  rw [BitVec.toNat_and, hmask, Nat.and_two_pow_sub_one_eq_mod]
  simp only [BitVec.toNat_setWidth]
  rw [Nat.mod_eq_of_lt (b := 2 ^ n)]
  exact lt_of_le_of_lt (Nat.mod_le _ _) x.isLt

/-- A number of `k` bits has no bit in a mask that begins above them. -/
theorem setWidth_and_highMask {k : ℕ} (x : BitVec k) (mask : BitVec n)
    (hmask : (~~~mask).toNat = 2 ^ k - 1) : x.setWidth n &&& mask = 0 := by
  have hlow : x.setWidth n &&& ~~~mask = x.setWidth n := by
    rw [and_lowMask k _ _ hmask]
    ext j hj
    simp only [BitVec.getElem_setWidth, BitVec.getLsbD_setWidth]
    by_cases h : j < k
    · simp [h, hj]
    · simp [h, BitVec.getLsbD_of_ge x j (by omega)]
  rw [← hlow, BitVec.and_assoc, BitVec.and_comm (~~~mask), BitVec.and_not_self]
  exact BitVec.and_zero

/-- Sign extension to twice the width, from the sign bit repeated. -/
theorem signExtend_double (hn : 0 < n) {m : ℕ} (hm : m = n + n) (x : BitVec n) :
    x.signExtend m =
      x.setWidth m ||| (x.sshiftRight (n - 1)).setWidth m <<< n := by
  ext j hj
  simp only [BitVec.getElem_signExtend, BitVec.getElem_or, BitVec.getElem_setWidth,
    BitVec.getElem_shiftLeft, BitVec.getLsbD_sshiftRight]
  by_cases h : j < n
  · simp [h]
  · have hlast : n - 1 + (j - n) < n ↔ j = n := by omega
    by_cases hj' : j = n
    · subst hj'
      simp [BitVec.msb_eq_getLsbD_last, hn.ne']
    · simp [h, hlast, hj', BitVec.getLsbD_of_ge x j (by omega),
        show j - n < n by omega, BitVec.msb_eq_getLsbD_last]

theorem or_eq_zero {x y : BitVec n} (h : x ||| y = 0) : x = 0 ∧ y = 0 := by
  rw [← BitVec.toNat_inj, BitVec.toNat_or] at h
  have hzero : x.toNat ||| y.toNat = 0 := h
  rw [Nat.or_eq_zero_iff] at hzero
  exact ⟨BitVec.eq_of_toNat_eq hzero.1, BitVec.eq_of_toNat_eq hzero.2⟩

/-! ## Multiplication and division -/

theorem mul_eq_add_shiftLeft {k : ℕ} {x y : BitVec n}
    (hy : y.toNat = (2 ^ k + 1) % 2 ^ n) : y * x = x + x <<< k := by
  apply BitVec.eq_of_toNat_eq
  rw [BitVec.toNat_mul, hy, BitVec.toNat_add, BitVec.toNat_shiftLeft,
    Nat.shiftLeft_eq, Nat.mod_mul_mod, Nat.add_mod_mod]
  congr 1
  ring

theorem getLsbD_zero_add (x y : BitVec n) :
    (x + y).getLsbD 0 = (x.getLsbD 0 ^^ y.getLsbD 0) := by
  by_cases hn : 0 < n
  · rw [BitVec.getLsbD_add hn, BitVec.carry_zero, Bool.xor_false]
  · simp [BitVec.getLsbD_of_ge _ 0 (show n ≤ 0 by omega)]

theorem mul_shiftLeft (x y : BitVec n) (k : ℕ) : (x * y) <<< k = x * y <<< k := by
  apply BitVec.eq_of_toNat_eq
  simp only [BitVec.toNat_shiftLeft, BitVec.toNat_mul, Nat.shiftLeft_eq,
    Nat.mod_mul_mod, Nat.mul_mod_mod]
  congr 1
  ring

theorem shiftLeft_eq_zero {k : ℕ} (hk : n ≤ k) (x : BitVec n) : x <<< k = 0 := by
  ext j hj
  simp [show j < k by omega]

theorem shiftLeft_one_eq (x : BitVec n) : x <<< 1 = x + x := by
  apply BitVec.eq_of_toNat_eq
  rw [BitVec.toNat_shiftLeft, BitVec.toNat_add, Nat.shiftLeft_eq]
  congr 1
  ring

/-- The remainder is what the product of divisor and quotient leaves, also for
the divisor zero. -/
theorem add_neg_smtUDiv_mul (x y : BitVec n) : x + -(x.smtUDiv y * y) = x % y := by
  rw [BitVec.smtUDiv_eq]
  split_ifs with hy
  · simp [hy]
  · have hle : x.toNat / y.toNat * y.toNat ≤ x.toNat := Nat.div_mul_le_self _ _
    have hmul : (x / y * y).toNat = x.toNat / y.toNat * y.toNat := by
      rw [BitVec.toNat_mul, BitVec.toNat_udiv, Nat.mod_eq_of_lt]
      exact lt_of_le_of_lt hle x.isLt
    rw [← BitVec.sub_eq_add_neg]
    apply BitVec.eq_of_toNat_eq
    rw [BitVec.toNat_sub_of_le (by rw [BitVec.le_def, hmul]; exact hle), hmul,
      BitVec.toNat_umod]
    have := Nat.div_add_mod' x.toNat y.toNat
    omega

/-- The multiplication by which compilers divide a 32-bit number by ten. -/
theorem high_mul_shift_eq_div_ten (x : BitVec 32) :
    high 32 (x.setWidth 64 * 0xcccccccd) >>> 3 = x / 10 := by
  have hx := x.isLt
  apply BitVec.eq_of_toNat_eq
  have hten : (10 : BitVec 32).toNat = 10 := rfl
  have hmagic : (0xcccccccd : BitVec 64).toNat = 0xcccccccd := rfl
  have hwide : (x.setWidth 64).toNat = x.toNat := by
    rw [BitVec.toNat_setWidth, Nat.mod_eq_of_lt (by omega)]
  have hprod : (x.setWidth 64 * 0xcccccccd).toNat = x.toNat * 0xcccccccd := by
    rw [BitVec.toNat_mul, hwide, hmagic, Nat.mod_eq_of_lt (by omega)]
  have hhigh : (high 32 (x.setWidth 64 * 0xcccccccd)).toNat =
      x.toNat * 0xcccccccd / 2 ^ 32 := by
    rw [high, BitVec.toNat_setWidth, BitVec.toNat_ushiftRight, hprod,
      Nat.shiftRight_eq_div_pow, Nat.mod_eq_of_lt (by omega)]
  rw [BitVec.toNat_ushiftRight, hhigh, BitVec.toNat_udiv, hten,
    Nat.shiftRight_eq_div_pow, Nat.div_div_eq_div_mul]
  omega

/-! ## Shifts that change nothing -/

theorem shiftLeft_eq_self_iff {k : ℕ} (hk : 0 < k) (x : BitVec n) :
    x <<< k = x ↔ x = 0 := by
  constructor
  · intro h
    have hiter : ∀ j, x <<< (k * j) = x := by
      intro j
      induction j with
      | zero => simp
      | succ j ih => rw [Nat.mul_succ, BitVec.shiftLeft_add, ih, h]
    have hle : n ≤ k * n := Nat.le_mul_of_pos_left n hk
    rw [← hiter n]
    ext j hj
    simp [show j < k * n by omega]
  · rintro rfl
    simp

theorem ushiftRight_eq_self_iff {k : ℕ} (hk : 0 < k) (x : BitVec n) :
    x >>> k = x ↔ x = 0 := by
  constructor
  · intro h
    have hnat := congrArg BitVec.toNat h
    rw [BitVec.toNat_ushiftRight, Nat.shiftRight_eq_div_pow] at hnat
    apply BitVec.eq_of_toNat_eq
    by_contra hx
    have hpos : 0 < x.toNat := Nat.pos_of_ne_zero hx
    have := Nat.div_lt_self hpos (Nat.one_lt_two_pow hk.ne')
    omega
  · rintro rfl
    simp

theorem sshiftRight_eq_self_iff {k : ℕ} (hk : 0 < k) (x : BitVec n) :
    x.sshiftRight k = x ↔ x ∈ [0, BitVec.allOnes n] := by
  simp only [List.mem_cons, List.not_mem_nil, or_false]
  constructor
  · intro h
    have hint := congrArg BitVec.toInt h
    rw [BitVec.toInt_sshiftRight, Int.shiftRight_eq_div_pow] at hint
    have hpow : (2 : ℤ) ≤ ((2 ^ k : ℕ) : ℤ) := by
      have := Nat.one_lt_two_pow hk.ne'
      omega
    have hzero : x.toInt = 0 ∨ x.toInt = -1 := by
      generalize ((2 ^ k : ℕ) : ℤ) = d at *
      have hmod := Int.emod_add_mul_ediv x.toInt d
      have hlt := Int.emod_lt_of_pos x.toInt (by omega : 0 < d)
      have hnn := Int.emod_nonneg x.toInt (by omega : d ≠ 0)
      rw [hint] at hmod
      by_contra hne
      push Not at hne
      rcases lt_trichotomy x.toInt 0 with hneg | heq | hpos
      · nlinarith [show x.toInt ≤ -2 by omega]
      · exact hne.1 heq
      · nlinarith
    rcases hzero with hz | hz
    · left
      apply BitVec.eq_of_toInt_eq
      rw [hz]
      simp
    · right
      apply BitVec.eq_of_toInt_eq
      rw [hz]
      by_cases hn : n = 0
      · subst hn
        simp [BitVec.eq_nil x] at hz
      · rw [BitVec.toInt_allOnes, if_pos (Nat.pos_of_ne_zero hn)]
  · rintro (rfl | rfl)
    · simp
    · ext j hj
      simp [BitVec.getElem_sshiftRight, BitVec.msb_allOnes (show 0 < n by omega)]

/-- A shift to the left by `k` keeps the bits below `n - k`. -/
theorem setWidth_eq_zero_of_shiftLeft {k m : ℕ} (hkm : k + m ≤ n) {x : BitVec n}
    (h : x <<< k = 0) : x.setWidth m = 0 := by
  ext j hj
  have hbit := congrArg (fun y => y.getLsbD (j + k)) h
  simp [show j + k < n by omega] at hbit
  simpa [BitVec.getLsbD_eq_getElem (show j < n by omega)] using hbit

/-! ## Comparisons -/

theorem ule_eq_or (x y : BitVec n) : x.ule y = (x.ult y || x == y) := by
  rw [Bool.eq_iff_iff, Bool.or_eq_true, beq_iff_eq, BitVec.ule_eq_decide,
    BitVec.ult_eq_decide, decide_eq_true_eq, decide_eq_true_eq, ← BitVec.toNat_inj]
  exact le_iff_lt_or_eq

theorem sle_eq_or (x y : BitVec n) : x.sle y = (x.slt y || x == y) := by
  rw [Bool.eq_iff_iff, Bool.or_eq_true, beq_iff_eq, BitVec.sle_eq_decide,
    BitVec.slt_eq_decide, decide_eq_true_eq, decide_eq_true_eq, ← BitVec.toInt_inj]
  exact le_iff_lt_or_eq

/-! ## Subtraction -/

theorem setWidth_sub {m : ℕ} (h : m ≤ n) (x y : BitVec n) :
    (x - y).setWidth m = x.setWidth m - y.setWidth m := by
  rw [BitVec.sub_eq_add_neg, BitVec.setWidth_add _ _ h,
    BitVec.setWidth_neg_of_le h, ← BitVec.sub_eq_add_neg]

end Fuzzball.Bits
