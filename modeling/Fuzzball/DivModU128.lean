import Fuzzball.Asmir

/-!
# Division of 128 bits by 64 bits

`translate_DivModU128to64` of `irtoir.cpp`: a long division in two digits of
32 bits by a divisor that a count of leading zeros has normalised.  The
emitted code is first described by functions on bit vectors, one for a round
of the division and one for the count, and these are then shown right.
-/

namespace Fuzzball.Asmir

open Vine

/-! ## The source -/

/-- `split2x32`: the high and the low half. -/
def split2x32 (x64 : Exp) : Exp × Exp :=
  (exHCast x64 .reg32, exLCast x64 .reg32)

def divmodU128Restricted (num : Exp128) (denom : Exp) : Emit Exp128 := do
  let (n_hi, n_lo) := splitVector num
  let (d_lh, d_ll) := split2x32 denom
  let d_lh ← mkTempDef .reg64 (exUCast d_lh .reg64)
  let d_ll ← mkTempDef .reg64 (exUCast d_ll .reg64)
  -- round one
  let rem_hi := exMod n_hi d_lh
  let q_hi_0 ← mkTempDef .reg64 (exDiv n_hi d_lh)
  let m_r1 ← mkTempDef .reg64 (exMul q_hi_0 d_ll)
  let r_hi_0 ← mkTempDef .reg64
    (translate32HLto64 (exLCast rem_hi .reg32) (exHCast n_lo .reg32))
  let adjust_r1_1 ← mkTempDef .reg1 (exLt r_hi_0 m_r1)
  let q_hi_1 ← mkTempDef .reg64
    (exIte adjust_r1_1 (exSub q_hi_0 (exConst64 1)) q_hi_0)
  let r_hi_1 ← mkTempDef .reg64
    (exIte adjust_r1_1 (exAdd r_hi_0 denom) r_hi_0)
  let adjust_r1_2 ← mkTempDef .reg1
    (exAnd3 adjust_r1_1 (exGe r_hi_1 denom) (exLt r_hi_1 m_r1))
  let q_hi_2 := exIte adjust_r1_2 (exSub q_hi_1 (exConst64 1)) q_hi_1
  let r_hi_2 := exIte adjust_r1_2 (exAdd r_hi_1 denom) r_hi_1
  let r_hi_3 ← mkTempDef .reg64 (exSub r_hi_2 m_r1)
  -- round two
  let rem_lo := exMod r_hi_3 d_lh
  let q_lo_0 ← mkTempDef .reg64 (exDiv r_hi_3 d_lh)
  let m_r2 ← mkTempDef .reg64 (exMul q_lo_0 d_ll)
  let r_lo_0 ← mkTempDef .reg64
    (translate32HLto64 (exLCast rem_lo .reg32) (exLCast n_lo .reg32))
  let adjust_r2_1 ← mkTempDef .reg1 (exLt r_lo_0 m_r2)
  let q_lo_1 ← mkTempDef .reg64
    (exIte adjust_r2_1 (exSub q_lo_0 (exConst64 1)) q_lo_0)
  let r_lo_1 ← mkTempDef .reg64
    (exIte adjust_r2_1 (exAdd r_lo_0 denom) r_lo_0)
  let adjust_r2_2 ← mkTempDef .reg1
    (exAnd3 adjust_r2_1 (exGe r_lo_1 denom) (exLt r_lo_1 m_r2))
  let q_lo_2 := exIte adjust_r2_2 (exSub q_lo_1 (exConst64 1)) q_lo_1
  let r_lo_2 := exIte adjust_r2_2 (exAdd r_lo_1 denom) r_lo_1
  let r_lo_3 := exSub r_lo_2 m_r2
  let q := translate32HLto64 (exLCast q_hi_2 .reg32) (exLCast q_lo_2 .reg32)
  let r := r_lo_3
  pure (translate64HLto128 r q)

def clz64Ite (x : Exp) : Emit Exp := do
  let lead32 ← mkTempDef .reg1 (exLe x (exConst64 0xffffffff))
  let x_32 ← mkTempDef .reg32
    (exIte lead32 (exLCast x .reg32) (exHCast x .reg32))
  let lead16 ← mkTempDef .reg1 (exLe x_32 (exConst 0xffff))
  let x_16 ← mkTempDef .reg16
    (exIte lead16 (exLCast x_32 .reg16) (exHCast x_32 .reg16))
  let lead8 ← mkTempDef .reg1 (exLe x_16 (exConstOf .reg16 0xff))
  let x_8 ← mkTempDef .reg8
    (exIte lead8 (exLCast x_16 .reg8) (exHCast x_16 .reg8))
  let lead4 ← mkTempDef .reg1 (exLe x_8 (exConstOf .reg8 0x0f))
  let x_4 ← mkTempDef .reg8 (exIte lead4 x_8 (exShr x_8 (exConst 4)))
  let lead2 ← mkTempDef .reg1 (exLe x_4 (exConstOf .reg8 0x03))
  let x_2 ← mkTempDef .reg8 (exIte lead2 x_4 (exShr x_4 (exConst 2)))
  let low :=
    exIte (exGe x_2 (exConstOf .reg8 2)) (exConst 0)
      (exIte (exEq x_2 (exConstOf .reg8 0)) (exConst 2) (exConst 1))
  let count32 := exShl (exUCast lead32 .reg32) (exConst 5)
  let count16 := exShl (exUCast lead16 .reg32) (exConst 4)
  let count8 := exShl (exUCast lead8 .reg32) (exConst 3)
  let count4 := exShl (exUCast lead4 .reg32) (exConst 2)
  let count2 := exShl (exUCast lead2 .reg32) (exConst 1)
  let high_count := exOr (exOr4 count32 count16 count8 count4) count2
  let total := exAdd high_count low
  pure total

def divmodU128Ciscish (num : Exp128) (denom : Exp) : Emit Exp128 := do
  let (n_hi, n_lo) := splitVector num
  let clz ← clz64Ite denom
  let bm ← mkTempDef .reg32 clz
  let b := exSub (exConst 64) bm
  let case0 ← mkTempDef .reg1 (exEq n_hi (exConst64 0))
  let q_case0 := exDiv n_lo denom
  let r_case0 := exMod n_lo denom
  let case23 ← mkTempDef .reg1 (exGe n_hi denom)
  let d_norm ← mkTempDef .reg64 (exShl denom bm)
  let n_hi_norm_e := exOr (exShl n_hi bm)
    (exIte (exNeq bm (exConst 0)) (exShr n_lo b) (exConst64 0))
  let n_hi_norm ← mkTempDef .reg64 n_hi_norm_e
  let n_lo_norm ← mkTempDef .reg64 (exShl n_lo bm)
  let n128_norm := translate64HLto128 n_hi_norm n_lo_norm
  let qrnnd_result ← divmodU128Restricted n128_norm d_norm
  let (r_case1, q_case1) := splitVector qrnnd_result
  let r_case1_norm := exShr r_case1 bm
  let q := exIte case0 q_case0 (exIte case23 (exConst64 (-1)) q_case1)
  let r := exIte case0 r_case0 (exIte case23 (exConst64 (-1)) r_case1_norm)
  pure (translate64HLto128 r q)

def translateDivModU128to64 (arg1 : Exp128) (arg2 : Exp) : Emit Exp128 :=
  divmodU128Ciscish arg1 arg2

/-! ## One round of the division -/

/-- The corrections of a digit: the estimate `q0` of the digit is too large
when its remainder `r0` is below the product `m` of `q0` and the low half of
the divisor. -/
def divAdjust (q0 r0 m d : BitVec 64) : BitVec 64 × BitVec 64 :=
  let adjust1 := r0.ult m
  let q1 := if adjust1 then q0 - 1 else q0
  let r1 := if adjust1 then r0 + d else r0
  let adjust2 := adjust1 && (d.ule r1 && r1.ult m)
  let q2 := if adjust2 then q1 - 1 else q1
  let r2 := if adjust2 then r1 + d else r1
  (q2, r2 - m)

/-- The digit and the remainder of a round, for the remainder `n` so far, the
next 32 bits `word` of the dividend and the divisor `d`. -/
def divRound (n d : BitVec 64) (word : BitVec 32) : BitVec 64 × BitVec 64 :=
  let dh := (Bits.high 32 d).setWidth 64
  let dl := (d.setWidth 32).setWidth 64
  let q0 := n.smtUDiv dh
  divAdjust q0 ((n % dh).setWidth 32 ++ word : BitVec 64) (q0 * dl) d

theorem divAdjust_toNat
    {q0 r0 m d : BitVec 64} {N : ℕ}
    (hN : N + m.toNat = q0.toNat * d.toNat + r0.toNat)
    (hr0 : r0.toNat < d.toNat) (hd : 2 ^ 63 ≤ d.toNat) :
    (divAdjust q0 r0 m d).1.toNat = N / d.toNat ∧
      (divAdjust q0 r0 m d).2.toNat = N % d.toNat := by
  have hone : (1 : BitVec 64).toNat = 1 := rfl
  have hm := m.isLt
  have hd' := d.isLt
  have hpos : 0 < d.toNat := by omega
  suffices h : ∃ k, k ≤ q0.toNat ∧
      r0.toNat + k * d.toNat < m.toNat + d.toNat ∧
      m.toNat ≤ r0.toNat + k * d.toNat ∧
      (divAdjust q0 r0 m d).1.toNat = q0.toNat - k ∧
      (divAdjust q0 r0 m d).2.toNat = r0.toNat + k * d.toNat - m.toNat by
    obtain ⟨k, hk, hlt, hle, hq, hr⟩ := h
    have hmul : (q0.toNat - k) * d.toNat + k * d.toNat =
        q0.toNat * d.toNat := by
      rw [← Nat.add_mul, Nat.sub_add_cancel hk]
    have hdm := (Nat.div_mod_unique (a := N) (d := q0.toNat - k)
      (c := r0.toNat + k * d.toNat - m.toNat) hpos).mpr
      ⟨by rw [Nat.mul_comm d.toNat]; omega, by omega⟩
    rw [hq, hr]
    exact ⟨hdm.1.symm, hdm.2.symm⟩
  -- the number of times `d` is added back is 0, 1 or 2
  by_cases h0 : m.toNat ≤ r0.toNat
  · have h1 : r0.ult m = false := by
      simp only [BitVec.ult, decide_eq_false_iff_not]
      omega
    refine ⟨0, by omega, by omega, by omega, ?_⟩
    simp only [divAdjust, h1, Bool.false_and, Bool.false_eq_true, if_false,
      BitVec.toNat_sub]
    omega
  · have h1 : r0.ult m = true := by
      simp only [BitVec.ult, decide_eq_true_eq]
      omega
    have hq : 1 ≤ q0.toNat := by
      by_contra hq
      have hq0 : q0.toNat = 0 := by omega
      rw [hq0] at hN
      omega
    by_cases h2 : m.toNat ≤ r0.toNat + d.toNat
    · -- a sum that wraps around is below `d`
      have h3 : (d.ule (r0 + d) && (r0 + d).ult m) = false := by
        simp only [BitVec.ule, BitVec.ult, BitVec.toNat_add,
          Bool.and_eq_false_iff, decide_eq_false_iff_not]
        omega
      refine ⟨1, hq, by omega, by omega, ?_⟩
      simp only [divAdjust, h1, h3, Bool.and_false, Bool.false_eq_true,
        if_true, if_false, BitVec.toNat_sub, BitVec.toNat_add, hone]
      omega
    · have h3 : (d.ule (r0 + d) && (r0 + d).ult m) = true := by
        simp only [BitVec.ule, BitVec.ult, BitVec.toNat_add,
          Bool.and_eq_true, decide_eq_true_eq]
        omega
      have hq2 : 2 ≤ q0.toNat := by
        by_contra hq2
        have hq1 : q0.toNat = 1 := by omega
        rw [hq1] at hN
        omega
      refine ⟨2, hq2, by omega, by omega, ?_⟩
      simp only [divAdjust, h1, h3, Bool.and_true, if_true,
        BitVec.toNat_sub, BitVec.toNat_add, hone]
      omega

theorem toNat_append {n m : ℕ} (x : BitVec n) (y : BitVec m) :
    (x ++ y).toNat = x.toNat * 2 ^ m + y.toNat := by
  rw [BitVec.toNat_append, ← Nat.shiftLeft_add_eq_or_of_lt y.isLt,
    Nat.shiftLeft_eq]

/-- The estimate of a digit exceeds `2 ^ 32` by one at most. -/
theorem estimate_le
    {n dh : ℕ} (dl : ℕ) (hdh : 2 ^ 31 ≤ dh) (hdl : dl < 2 ^ 32)
    (hn : n < dh * 2 ^ 32 + dl) : n / dh ≤ 2 ^ 32 + 1 := by
  have hlt : n < dh * (2 ^ 32 + 2) := by
    rw [Nat.mul_add]
    omega
  exact Nat.le_of_lt_succ (Nat.div_lt_of_lt_mul hlt)

theorem divRound_toNat
    {n d : BitVec 64} (word : BitVec 32) (hd : 2 ^ 63 ≤ d.toNat)
    (hn : n.toNat < d.toNat) :
    (divRound n d word).1.toNat =
        (n.toNat * 2 ^ 32 + word.toNat) / d.toNat ∧
      (divRound n d word).2.toNat =
        (n.toNat * 2 ^ 32 + word.toNat) % d.toNat := by
  set dh := (Bits.high 32 d).setWidth 64 with hdh
  set dl := (d.setWidth 32).setWidth 64 with hdl
  have hh : dh.toNat = d.toNat / 2 ^ 32 := by
    rw [hdh, BitVec.toNat_setWidth, Bits.toNat_high d (by decide)]
    exact Nat.mod_eq_of_lt (by omega)
  have hl : dl.toNat = d.toNat % 2 ^ 32 := by
    rw [hdl, BitVec.toNat_setWidth, BitVec.toNat_setWidth]
    exact Nat.mod_eq_of_lt (by omega)
  have hne : dh ≠ 0#64 := by
    intro h0
    rw [h0] at hh
    simp only [BitVec.toNat_ofNat, Nat.zero_mod] at hh
    omega
  have hq0 : (n.smtUDiv dh).toNat = n.toNat / dh.toNat := by
    rw [BitVec.smtUDiv_eq, if_neg hne, BitVec.toNat_udiv]
  have hmod : n.toNat % dh.toNat < dh.toNat := Nat.mod_lt _ (by omega)
  have hr0 : ((n % dh).setWidth 32 ++ word : BitVec 64).toNat =
      n.toNat % dh.toNat * 2 ^ 32 + word.toNat := by
    rw [toNat_append, BitVec.toNat_setWidth, BitVec.toNat_umod,
      Nat.mod_eq_of_lt (by omega)]
  -- the product of estimate and low half fits into 64 bits
  have hle : n.toNat / dh.toNat ≤ 2 ^ 32 + 1 :=
    estimate_le dl.toNat (by omega) (by omega) (by omega)
  have hprod : n.toNat / dh.toNat * dl.toNat ≤ (2 ^ 32 + 1) * (2 ^ 32 - 1) :=
    Nat.mul_le_mul hle (by omega)
  have hm : (n.smtUDiv dh * dl).toNat =
      n.toNat / dh.toNat * dl.toNat := by
    rw [BitVec.toNat_mul, hq0]
    exact Nat.mod_eq_of_lt (by omega)
  apply divAdjust_toNat
  · have hdiv : dh.toNat * (n.toNat / dh.toNat) + n.toNat % dh.toNat =
        n.toNat := Nat.div_add_mod _ _
    have hsplit : d.toNat = dh.toNat * 2 ^ 32 + dl.toNat := by omega
    rw [hm, hq0, hr0, hsplit]
    calc n.toNat * 2 ^ 32 + word.toNat + n.toNat / dh.toNat * dl.toNat
        = (dh.toNat * (n.toNat / dh.toNat) + n.toNat % dh.toNat) * 2 ^ 32 +
            word.toNat + n.toNat / dh.toNat * dl.toNat := by rw [hdiv]
      _ = n.toNat / dh.toNat * (dh.toNat * 2 ^ 32 + dl.toNat) +
            (n.toNat % dh.toNat * 2 ^ 32 + word.toNat) := by ring
  · have hword := word.isLt
    rw [hr0]
    omega
  · exact hd

/-! ## Two rounds -/

/-- A round on a remainder below the divisor has a digit of 32 bits. -/
theorem digit_lt {n d w : ℕ} (hn : n < d) (hw : w < 2 ^ 32) :
    (n * 2 ^ 32 + w) / d < 2 ^ 32 := by
  apply Nat.div_lt_of_lt_mul
  have hmul : (n + 1) * 2 ^ 32 ≤ d * 2 ^ 32 := Nat.mul_le_mul_right _ hn
  omega

/-- Dividing in two rounds. -/
theorem two_rounds (n d w1 w0 : ℕ) (hd : 0 < d) :
    let q1 := (n * 2 ^ 32 + w1) / d
    let r1 := (n * 2 ^ 32 + w1) % d
    q1 * 2 ^ 32 + (r1 * 2 ^ 32 + w0) / d =
        (n * 2 ^ 64 + (w1 * 2 ^ 32 + w0)) / d ∧
      (r1 * 2 ^ 32 + w0) % d =
        (n * 2 ^ 64 + (w1 * 2 ^ 32 + w0)) % d := by
  intro q1 r1
  have h1 : d * q1 + r1 = n * 2 ^ 32 + w1 := Nat.div_add_mod _ _
  have hsplit : n * 2 ^ 64 + (w1 * 2 ^ 32 + w0) =
      (r1 * 2 ^ 32 + w0) + q1 * 2 ^ 32 * d := by
    calc n * 2 ^ 64 + (w1 * 2 ^ 32 + w0)
        = (n * 2 ^ 32 + w1) * 2 ^ 32 + w0 := by ring
      _ = (d * q1 + r1) * 2 ^ 32 + w0 := by rw [h1]
      _ = (r1 * 2 ^ 32 + w0) + q1 * 2 ^ 32 * d := by ring
  rw [hsplit, Nat.add_mul_div_right _ _ hd, Nat.add_mul_mod_self_right]
  exact ⟨Nat.add_comm _ _, rfl⟩

theorem restricted_toNat
    {nh : BitVec 64} (nl : BitVec 64) {d : BitVec 64} (hd : 2 ^ 63 ≤ d.toNat)
    (hn : nh.toNat < d.toNat) :
    let one := divRound nh d (Bits.high 32 nl)
    let two := divRound one.2 d (nl.setWidth 32)
    (one.1.setWidth 32 ++ two.1.setWidth 32 : BitVec 64).toNat =
        (nh.toNat * 2 ^ 64 + nl.toNat) / d.toNat ∧
      two.2.toNat = (nh.toNat * 2 ^ 64 + nl.toNat) % d.toNat := by
  intro one two
  have hpos : 0 < d.toNat := by omega
  have h1 := divRound_toNat (Bits.high 32 nl) hd hn
  have hlt : one.2.toNat < d.toNat := by
    rw [h1.2]
    exact Nat.mod_lt _ hpos
  have h2 := divRound_toNat (nl.setWidth 32) hd hlt
  have hd1 : one.1.toNat < 2 ^ 32 := by
    rw [h1.1]
    exact digit_lt hn (Bits.high 32 nl).isLt
  have hd2 : two.1.toNat < 2 ^ 32 := by
    rw [h2.1]
    exact digit_lt hlt (nl.setWidth 32).isLt
  have hwords : (Bits.high 32 nl).toNat * 2 ^ 32 + (nl.setWidth 32).toNat =
      nl.toNat := by
    rw [Bits.toNat_high nl (by decide), BitVec.toNat_setWidth]
    omega
  have hrounds := two_rounds nh.toNat d.toNat (Bits.high 32 nl).toNat
    (nl.setWidth 32).toNat hpos
  rw [hwords] at hrounds
  rw [toNat_append, BitVec.toNat_setWidth, BitVec.toNat_setWidth,
    Nat.mod_eq_of_lt hd1, Nat.mod_eq_of_lt hd2, h2.1, h2.2, h1.1, h1.2]
  exact hrounds

/-! ## Normalisation -/

/-- The high word of the dividend after the shift. -/
def normHigh (nh nl : BitVec 64) (bm : BitVec 32) : BitVec 64 :=
  nh <<< bm.toNat |||
    (if bm != 0 then nl >>> (64 - bm : BitVec 32).toNat else 0)

section Normalisation

variable {nh nl d : BitVec 64} {bm : BitVec 32}

theorem normDivisor_toNat (hbm : Nat.log 2 d.toNat + bm.toNat + 1 = 64) :
    (d <<< bm.toNat).toNat = d.toNat * 2 ^ bm.toNat := by
  have hlt : d.toNat < 2 ^ (Nat.log 2 d.toNat + 1) :=
    Nat.lt_pow_succ_log_self (by decide) _
  rw [BitVec.toNat_shiftLeft, Nat.shiftLeft_eq]
  apply Nat.mod_eq_of_lt
  calc d.toNat * 2 ^ bm.toNat
      < 2 ^ (Nat.log 2 d.toNat + 1) * 2 ^ bm.toNat :=
        Nat.mul_lt_mul_of_pos_right hlt (by positivity)
    _ = 2 ^ 64 := by rw [← pow_add]; congr 1; omega

theorem normDivisor_ge
    (hd : d ≠ 0) (hbm : Nat.log 2 d.toNat + bm.toNat + 1 = 64) :
    2 ^ 63 ≤ (d <<< bm.toNat).toNat := by
  have hne : d.toNat ≠ 0 := fun h => hd (BitVec.eq_of_toNat_eq h)
  rw [normDivisor_toNat hbm]
  calc 2 ^ 63 = 2 ^ Nat.log 2 d.toNat * 2 ^ bm.toNat := by
        rw [← pow_add]; congr 1; omega
    _ ≤ d.toNat * 2 ^ bm.toNat :=
        Nat.mul_le_mul_right _ (Nat.pow_log_le_self 2 hne)

/-- The shift loses no bit of the dividend. -/
theorem normDividend_toNat (nl : BitVec 64)
    (hn : nh.toNat < d.toNat)
    (hbm : Nat.log 2 d.toNat + bm.toNat + 1 = 64) :
    (normHigh nh nl bm).toNat * 2 ^ 64 + (nl <<< bm.toNat).toNat =
      (nh.toNat * 2 ^ 64 + nl.toNat) * 2 ^ bm.toNat := by
  have hhigh : (nh <<< bm.toNat).toNat = nh.toNat * 2 ^ bm.toNat := by
    rw [BitVec.toNat_shiftLeft, Nat.shiftLeft_eq]
    apply Nat.mod_eq_of_lt
    calc nh.toNat * 2 ^ bm.toNat
        < d.toNat * 2 ^ bm.toNat :=
          Nat.mul_lt_mul_of_pos_right hn (by positivity)
      _ < 2 ^ 64 := normDivisor_toNat hbm ▸ (d <<< bm.toNat).isLt
  have hcarry : (if bm != 0 then nl >>> (64 - bm : BitVec 32).toNat
      else 0).toNat = nl.toNat * 2 ^ bm.toNat / 2 ^ 64 := by
    by_cases h0 : bm = 0
    · subst h0
      exact (Nat.div_eq_of_lt (by simpa using nl.isLt)).symm
    · have hb : (64 - bm : BitVec 32).toNat = 64 - bm.toNat := by
        rw [BitVec.toNat_sub]
        change (2 ^ 32 - bm.toNat + 64) % 2 ^ 32 = _
        omega
      have hsplit : 2 ^ 64 = 2 ^ (64 - bm.toNat) * 2 ^ bm.toNat := by
        rw [← pow_add, Nat.sub_add_cancel (by omega)]
      rw [if_pos (by simpa using h0), BitVec.toNat_ushiftRight,
        Nat.shiftRight_eq_div_pow, hb, hsplit,
        Nat.mul_div_mul_right _ _ (by positivity)]
  have hlow : nl.toNat * 2 ^ bm.toNat / 2 ^ 64 < 2 ^ bm.toNat :=
    Nat.div_lt_of_lt_mul
      (Nat.mul_lt_mul_of_pos_right nl.isLt (by positivity))
  have hor : (normHigh nh nl bm).toNat =
      nh.toNat * 2 ^ bm.toNat + nl.toNat * 2 ^ bm.toNat / 2 ^ 64 := by
    rw [normHigh, BitVec.toNat_or, hhigh, hcarry, ← Nat.shiftLeft_eq,
      ← Nat.shiftLeft_add_eq_or_of_lt hlow]
  rw [hor, BitVec.toNat_shiftLeft, Nat.shiftLeft_eq]
  have hdm := Nat.div_add_mod (nl.toNat * 2 ^ bm.toNat) (2 ^ 64)
  calc (nh.toNat * 2 ^ bm.toNat + nl.toNat * 2 ^ bm.toNat / 2 ^ 64) *
        2 ^ 64 + nl.toNat * 2 ^ bm.toNat % 2 ^ 64
      = nh.toNat * 2 ^ bm.toNat * 2 ^ 64 +
          (2 ^ 64 * (nl.toNat * 2 ^ bm.toNat / 2 ^ 64) +
            nl.toNat * 2 ^ bm.toNat % 2 ^ 64) := by ring
    _ = (nh.toNat * 2 ^ 64 + nl.toNat) * 2 ^ bm.toNat := by
        rw [hdm]; ring

end Normalisation

/-! ## The count of leading zeros -/

/-- What one step of the count keeps: the value itself if it fits into the low
`m` bits, and else the bits above. -/
def upperPart (m y : ℕ) : ℕ := if y < 2 ^ m then y else y / 2 ^ m

theorem upperPart_pos {m y : ℕ} (hy : 0 < y) : 0 < upperPart m y := by
  unfold upperPart
  split_ifs with h
  · exact hy
  · exact Nat.div_pos (by omega) (by positivity)

theorem upperPart_lt {m y : ℕ} (hy : y < 2 ^ (2 * m)) :
    upperPart m y < 2 ^ m := by
  unfold upperPart
  split_ifs with h
  · exact h
  · apply Nat.div_lt_of_lt_mul
    rwa [← pow_add, ← two_mul]

/-- A count for the part that is kept gives one for the whole. -/
theorem log_upperPart
    {m y z k : ℕ} (hz : z = upperPart m y) (h : Nat.log 2 z + k + 1 = m) :
    Nat.log 2 y + ((if y < 2 ^ m then m else 0) + k) + 1 = 2 * m := by
  rw [hz, upperPart] at h
  split_ifs at h ⊢ with hy
  · omega
  · have hlog : m ≤ Nat.log 2 y := Nat.le_log_of_pow_le (by omega) (by omega)
    rw [Nat.log_div_base_pow] at h
    omega

theorem ule_mask {n m : ℕ} {c : BitVec n} (hc : c.toNat + 1 = 2 ^ m)
    (x : BitVec n) : x.ule c = decide (x.toNat < 2 ^ m) := by
  rw [BitVec.ule, decide_eq_decide]
  omega

theorem toNat_upperPart {m : ℕ} (x : BitVec (2 * m)) :
    (if decide (x.toNat < 2 ^ m) then x.setWidth m else Bits.high m x).toNat =
      upperPart m x.toNat := by
  simp only [upperPart, decide_eq_true_eq]
  split_ifs with h
  · rw [BitVec.toNat_setWidth, Nat.mod_eq_of_lt h]
  · rw [Bits.toNat_high x (by omega), show 2 * m - m = m by omega]

theorem toNat_upperPart_shift {n m : ℕ} (x : BitVec n) :
    (if decide (x.toNat < 2 ^ m) then x else x >>> m).toNat =
      upperPart m x.toNat := by
  simp only [upperPart, decide_eq_true_eq]
  split_ifs with h
  · rfl
  · rw [BitVec.toNat_ushiftRight, Nat.shiftRight_eq_div_pow]

/-- The number that the five tests and the last two bits add up to. -/
theorem count_toNat (l32 l16 l8 l4 l2 : Bool) {low : BitVec 32}
    (hlow : low.toNat ≤ 2) :
    ((((flag 1 l32).setWidth 32 <<< 5 ||| (flag 1 l16).setWidth 32 <<< 4) |||
      ((flag 1 l8).setWidth 32 <<< 3 ||| (flag 1 l4).setWidth 32 <<< 2) |||
      (flag 1 l2).setWidth 32 <<< 1) + low).toNat =
      (if l32 then 32 else 0) + ((if l16 then 16 else 0) +
        ((if l8 then 8 else 0) + ((if l4 then 4 else 0) +
          ((if l2 then 2 else 0) + low.toNat)))) := by
  obtain ⟨k, hk, rfl⟩ : ∃ k : ℕ, k ≤ 2 ∧ low = BitVec.ofNat 32 k :=
    ⟨low.toNat, hlow, (BitVec.ofNat_toNat 32 low).symm ▸ by simp⟩
  interval_cases k <;> cases l32 <;> cases l16 <;> cases l8 <;> cases l4 <;>
    cases l2 <;> rfl

variable {μ : Type} [VineMemory μ] {ρ : Valuation μ}

/-! ## The emitted code -/

section Count

variable {β : Type} {t u : Typ} {m n : ℕ} {x c k : Exp} {Q : β → Prop}
  {f : Exp → Exp → Emit β}

/-- A step of the count that takes the low or the high half. -/
theorem yields_half
    {v w : BitVec (2 * m)} (hx : Denotes ρ x t v) (hc : Denotes ρ c t w)
    (hw : w.toNat + 1 = 2 ^ m) (hu : u.width = m)
    (hf : ∀ lead y (v' : BitVec m),
      DenotesBool ρ lead (decide (v.toNat < 2 ^ m)) → Denotes ρ y u v' →
      v'.toNat = upperPart m v.toNat → Yields ρ (f lead y) Q) :
    Yields ρ (do
      let lead ← mkTempDef .reg1 (exLe x c)
      let y ← mkTempDef u (exIte lead (exLCast x u) (exHCast x u))
      f lead y) Q := by
  subst hu
  apply yields_temp (hx.le hc)
  intro lead hlead
  rw [ule_mask hw] at hlead
  apply yields_temp (hlead.ite (hx.lcast u) (hx.hcast u))
  intro y hy
  exact hf lead y _ hlead hy (toNat_upperPart v)

/-- A step of the count that shifts the high bits down. -/
theorem yields_shift
    {v w : BitVec n} {z : BitVec 32} (hx : Denotes ρ x t v)
    (hc : Denotes ρ c t w) (hk : Denotes ρ k .reg32 z)
    (hw : w.toNat + 1 = 2 ^ z.toNat)
    (hf : ∀ lead y (v' : BitVec n),
      DenotesBool ρ lead (decide (v.toNat < 2 ^ z.toNat)) →
      Denotes ρ y t v' → v'.toNat = upperPart z.toNat v.toNat →
      Yields ρ (f lead y) Q) :
    Yields ρ (do
      let lead ← mkTempDef .reg1 (exLe x c)
      let y ← mkTempDef t (exIte lead x (exShr x k))
      f lead y) Q := by
  apply yields_temp (hx.le hc)
  intro lead hlead
  rw [ule_mask hw] at hlead
  apply yields_temp (hlead.ite hx (hx.shr hk))
  intro y hy
  exact hf lead y _ hlead hy (toNat_upperPart_shift v)

end Count

/-- What the last test adds for two bits. -/
theorem log_two_bits {v : BitVec 8} (hpos : 0 < v.toNat) (hlt : v.toNat < 4) :
    Nat.log 2 v.toNat + (if (2 : BitVec 8).ule v then (0 : BitVec 32)
      else if v == 0 then 2 else 1).toNat + 1 = 2 := by
  obtain ⟨k, hk, rfl⟩ : ∃ k : ℕ, k < 4 ∧ v = BitVec.ofNat 8 k :=
    ⟨v.toNat, hlt, (BitVec.ofNat_toNat 8 v).symm ▸ by simp⟩
  interval_cases k
  · exact absurd hpos (by decide)
  all_goals decide +kernel

theorem yields_clz64Ite
    {x : Exp} {v : BitVec 64} (hx : Denotes ρ x .reg64 v) (hv : v ≠ 0) :
    Yields ρ (clz64Ite x) fun e => ∃ k : BitVec 32,
      Denotes ρ e .reg32 k ∧ Nat.log 2 v.toNat + k.toNat + 1 = 64 := by
  have hpos : 0 < v.toNat := by
    apply Nat.pos_of_ne_zero
    exact fun h0 => hv (BitVec.eq_of_toNat_eq h0)
  apply yields_half (m := 32) hx (.const64 0xffffffff) rfl rfl
  intro lead32 x_32 v32 hl32 h32 hv32
  apply yields_half (m := 16) h32 (.const32 0xffff) rfl rfl
  intro lead16 x_16 v16 hl16 h16 hv16
  apply yields_half (m := 8) h16 (.constOf .reg16 0xff) rfl rfl
  intro lead8 x_8 v8 hl8 h8 hv8
  apply yields_shift h8 (.constOf .reg8 0x0f) (.const32 4) rfl
  intro lead4 x_4 v4 hl4 h4 hv4
  apply yields_shift h4 (.constOf .reg8 0x03) (.const32 2) rfl
  intro lead2 x_2 v2 hl2 h2 hv2
  have hlow := (h2.ge (.constOf .reg8 2)).ite (.const32 0)
    ((h2.eq (.constOf .reg8 0)).ite (.const32 2) (.const32 1))
  have count := fun {e p} (he : DenotesBool ρ e p) (i : BitVec 32) =>
    (he.ucast .reg32).shl (.const32 i)
  have htotal := (((count hl32 5).or (count hl16 4)).or
    ((count hl8 3).or (count hl4 2))).or (count hl2 1) |>.add hlow
  -- every step keeps a positive number of half as many bits
  have p32 : 0 < v32.toNat := hv32 ▸ upperPart_pos hpos
  have p16 : 0 < v16.toNat := hv16 ▸ upperPart_pos p32
  have p8 : 0 < v8.toNat := hv8 ▸ upperPart_pos p16
  have p4 : 0 < v4.toNat := hv4 ▸ upperPart_pos p8
  have p2 : 0 < v2.toNat := hv2 ▸ upperPart_pos p4
  have b4 : v4.toNat < 2 ^ 4 := hv4 ▸ upperPart_lt (m := 4) v8.isLt
  have b2 : v2.toNat < 2 ^ 2 := hv2 ▸ upperPart_lt (m := 2) b4
  have g2 := log_two_bits p2 b2
  have hle : (if (2 : BitVec 8).ule v2 then (0 : BitVec 32)
      else if v2 == 0 then 2 else 1).toNat ≤ 2 := by omega
  have g4 := log_upperPart (m := 2) hv2 g2
  have g8 := log_upperPart (m := 4) hv4 g4
  have g16 := log_upperPart (m := 8) hv8 g8
  have g32 := log_upperPart (m := 16) hv16 g16
  have g64 := log_upperPart (m := 32) hv32 g32
  apply yields_pure
  refine ⟨_, htotal, ?_⟩
  refine (congrArg (fun k => Nat.log 2 v.toNat + k + 1)
    (count_toNat _ _ _ _ _ hle)).trans ?_
  simp only [decide_eq_true_eq]
  exact g64

theorem yields_divmodU128Restricted
    {n_hi n_lo denom : Exp} {nh nl d : BitVec 64}
    (hnh : Denotes ρ n_hi .reg64 nh) (hnl : Denotes ρ n_lo .reg64 nl)
    (hd : Denotes ρ denom .reg64 d) :
    let one := divRound nh d (Bits.high 32 nl)
    let two := divRound one.2 d (nl.setWidth 32)
    Yields ρ (divmodU128Restricted (.vector n_hi n_lo) denom) fun e =>
      Denotes ρ (splitVector e).1 .reg64 two.2 ∧
        Denotes ρ (splitVector e).2 .reg64
          (one.1.setWidth 32 ++ two.1.setWidth 32 : BitVec 64) := by
  intro one two
  dsimp only [divmodU128Restricted, splitVector, split2x32]
  apply yields_temp ((hd.hcast .reg32).ucast .reg64)
  intro d_lh hlh
  apply yields_temp ((hd.lcast .reg32).ucast .reg64)
  intro d_ll hll
  -- round one
  apply yields_temp (hnh.div hlh)
  intro q_hi_0 hq0
  apply yields_temp (hq0.mul hll)
  intro m_r1 hm
  apply yields_temp
    (((hnh.mod hlh).lcast .reg32).translate32HLto64 (hnl.hcast .reg32))
  intro r_hi_0 hr0
  apply yields_temp (hr0.lt hm)
  intro adjust_r1_1 ha1
  apply yields_temp (ha1.ite (hq0.sub (.const64 1)) hq0)
  intro q_hi_1 hq1
  apply yields_temp (ha1.ite (hr0.add hd) hr0)
  intro r_hi_1 hr1
  apply yields_temp (ha1.andBool ((hr1.ge hd).andBool (hr1.lt hm)))
  intro adjust_r1_2 ha2
  have hq2 := ha2.ite (hq1.sub (.const64 1)) hq1
  apply yields_temp ((ha2.ite (hr1.add hd) hr1).sub hm)
  intro r_hi_3 hr3
  -- round two
  apply yields_temp (hr3.div hlh)
  intro q_lo_0 hp0
  apply yields_temp (hp0.mul hll)
  intro m_r2 hk
  apply yields_temp
    (((hr3.mod hlh).lcast .reg32).translate32HLto64 (hnl.lcast .reg32))
  intro r_lo_0 hs0
  apply yields_temp (hs0.lt hk)
  intro adjust_r2_1 hb1
  apply yields_temp (hb1.ite (hp0.sub (.const64 1)) hp0)
  intro q_lo_1 hp1
  apply yields_temp (hb1.ite (hs0.add hd) hs0)
  intro r_lo_1 hs1
  apply yields_temp (hb1.andBool ((hs1.ge hd).andBool (hs1.lt hk)))
  intro adjust_r2_2 hb2
  have hp2 := hb2.ite (hp1.sub (.const64 1)) hp1
  have hs3 := (hb2.ite (hs1.add hd) hs1).sub hk
  exact yields_pure
    ⟨hs3, (hq2.lcast .reg32).translate32HLto64 (hp2.lcast .reg32)⟩

theorem udiv_toNat {n d : BitVec 64} (hd : d ≠ 0) :
    (n.smtUDiv d).toNat = n.toNat / d.toNat := by
  have hd' : ¬d = 0#64 := hd
  rw [BitVec.smtUDiv_eq, if_neg hd', BitVec.toNat_udiv]

/-- Dividing after normalisation, with the remainder shifted back. -/
theorem normalised_toNat
    {nh nl d : BitVec 64} {bm : BitVec 32} (hd : d ≠ 0)
    (hn : nh.toNat < d.toNat)
    (hbm : Nat.log 2 d.toNat + bm.toNat + 1 = 64) :
    let dn := d <<< bm.toNat
    let nln := nl <<< bm.toNat
    let one := divRound (normHigh nh nl bm) dn (Bits.high 32 nln)
    let two := divRound one.2 dn (nln.setWidth 32)
    (one.1.setWidth 32 ++ two.1.setWidth 32 : BitVec 64).toNat =
        (nh.toNat * 2 ^ 64 + nl.toNat) / d.toNat ∧
      (two.2 >>> bm.toNat).toNat =
        (nh.toNat * 2 ^ 64 + nl.toNat) % d.toNat := by
  intro dn nln one two
  have hdn : dn.toNat = d.toNat * 2 ^ bm.toNat := normDivisor_toNat hbm
  have hnum := normDividend_toNat nl hn hbm
  have hpos : 0 < 2 ^ bm.toNat := by positivity
  have hlt : (normHigh nh nl bm).toNat < dn.toNat := by
    have hnl := nl.isLt
    have hN : (nh.toNat * 2 ^ 64 + nl.toNat) * 2 ^ bm.toNat <
        d.toNat * 2 ^ 64 * 2 ^ bm.toNat :=
      Nat.mul_lt_mul_of_pos_right (by omega) hpos
    have hmul : d.toNat * 2 ^ 64 * 2 ^ bm.toNat = dn.toNat * 2 ^ 64 := by
      rw [hdn]
      ring
    omega
  obtain ⟨hq, hr⟩ := restricted_toNat nln
    (normDivisor_ge hd hbm) hlt
  constructor
  · rw [hq, hnum, hdn, Nat.mul_div_mul_right _ _ hpos]
  · rw [BitVec.toNat_ushiftRight, Nat.shiftRight_eq_div_pow, hr, hnum, hdn,
      Nat.mul_mod_mul_right, Nat.mul_div_cancel _ hpos]

/-- The pair that the code for a dividend and a divisor has to denote. -/
def DenotesDivMod (ρ : Valuation μ) (nh nl d : BitVec 64) (e : Exp128) : Prop :=
  ∃ q r : BitVec 64,
    Denotes ρ (splitVector e).2 .reg64 q ∧
      Denotes ρ (splitVector e).1 .reg64 r ∧
      q.toNat = (nh.toNat * 2 ^ 64 + nl.toNat) / d.toNat ∧
      r.toNat = (nh.toNat * 2 ^ 64 + nl.toNat) % d.toNat

theorem yields_divmodU128Ciscish
    {n_hi n_lo denom : Exp} {nh nl d : BitVec 64}
    (hnh : Denotes ρ n_hi .reg64 nh) (hnl : Denotes ρ n_lo .reg64 nl)
    (hd : Denotes ρ denom .reg64 d) (hd0 : d ≠ 0)
    (hlt : nh.toNat < d.toNat) :
    Yields ρ (divmodU128Ciscish (.vector n_hi n_lo) denom)
      (DenotesDivMod ρ nh nl d) := by
  dsimp only [divmodU128Ciscish, splitVector]
  apply yields_bind (yields_clz64Ite hd hd0)
  intro clz hclz
  obtain ⟨k, hk, hlog⟩ := hclz
  apply yields_temp hk
  intro bm hbm
  apply yields_temp (hnh.eq (.const64 0))
  intro case0 hcase0
  apply yields_temp (hnh.ge hd)
  intro case23 hcase23
  apply yields_temp (hd.shl hbm)
  intro d_norm hdn
  have hb := (Denotes.const32 (ρ := ρ) 64).sub hbm
  apply yields_temp ((hnh.shl hbm).or
    ((hbm.neq (.const32 0)).ite (hnl.shr hb) (.const64 0)))
  intro n_hi_norm hnhn
  apply yields_temp (hnl.shl hbm)
  intro n_lo_norm hnln
  apply yields_bind (yields_divmodU128Restricted hnhn hnln hdn)
  intro qr hqr
  have hq := hcase0.ite (hnl.div hd)
    (hcase23.ite (.const64 (-1)) hqr.2)
  have hr := hcase0.ite (hnl.mod hd)
    (hcase23.ite (.const64 (-1)) (hqr.1.shr hbm))
  apply yields_pure
  refine ⟨_, _, hq, hr, ?_⟩
  have h23 : d.ule nh = false := by
    simp only [BitVec.ule, decide_eq_false_iff_not]
    omega
  by_cases h0 : nh = 0
  · subst h0
    simp [udiv_toNat hd0]
  · have h0' : (nh == 0) = false := by simpa using h0
    simp only [h0', h23, Bool.false_eq_true, if_false]
    exact normalised_toNat hd0 hlt hlog

/-! ## Temporaries -/

theorem places_clz64Ite {n : ℕ} {x : Exp} (hx : Below n x) :
    Places n (clz64Ite x) Below := by
  have hup : ∀ k, Below (n + k) x := fun k => hx.mono (Nat.le_add_right n k)
  dsimp only [clz64Ite]
  iterate 10
    apply places_temp
    · simp [ReadsOnly, hx, hup, add_assoc, tempVar]
  exact places_pure (by simp [ReadsOnly, add_assoc, tempVar])

theorem places_divmodU128Restricted
    {n : ℕ} {num : Exp128} {denom : Exp} (hnum : Below128 n num)
    (hd : Below n denom) :
    Places n (divmodU128Restricted num denom) Below128 := by
  obtain ⟨hh, hl⟩ := hnum
  have hhup : ∀ k, Below (n + k) (splitVector num).1 :=
    fun k => hh.mono (Nat.le_add_right n k)
  have hlup : ∀ k, Below (n + k) (splitVector num).2 :=
    fun k => hl.mono (Nat.le_add_right n k)
  have hdup : ∀ k, Below (n + k) denom :=
    fun k => hd.mono (Nat.le_add_right n k)
  dsimp only [divmodU128Restricted, split2x32]
  iterate 17
    apply places_temp
    · simp [ReadsOnly, hd, hhup, hlup, hdup, add_assoc, tempVar]
  exact places_pure
    ⟨by simp [translate64HLto128, splitVector, ReadsOnly, hdup, add_assoc,
        tempVar],
      by simp [translate64HLto128, splitVector, ReadsOnly, add_assoc, tempVar]⟩

theorem places_divmodU128Ciscish
    {n : ℕ} {num : Exp128} {denom : Exp} (hnum : Below128 n num)
    (hd : Below n denom) :
    Places n (divmodU128Ciscish num denom) Below128 := by
  obtain ⟨hh, hl⟩ := hnum
  dsimp only [divmodU128Ciscish]
  apply places_bind (places_clz64Ite hd)
  intro m clz hnm hclz
  have hhup : ∀ k, Below (m + k) (splitVector num).1 :=
    fun k => hh.mono (hnm.trans (Nat.le_add_right m k))
  have hlup : ∀ k, Below (m + k) (splitVector num).2 :=
    fun k => hl.mono (hnm.trans (Nat.le_add_right m k))
  have hdup : ∀ k, Below (m + k) denom :=
    fun k => hd.mono (hnm.trans (Nat.le_add_right m k))
  apply places_temp hclz
  iterate 5
    apply places_temp
    · simp [ReadsOnly, hhup, hlup, hdup, add_assoc, tempVar]
  apply places_bind (places_divmodU128Restricted
    ⟨by simp [translate64HLto128, splitVector, ReadsOnly, add_assoc, tempVar],
      by simp [translate64HLto128, splitVector, ReadsOnly, add_assoc, tempVar]⟩
    (by simp [ReadsOnly, add_assoc, tempVar]))
  intro p qr hmp hqr
  have htemp : ∀ t k, k < 6 → Below p (.temp (tempVar t (m + k))) := by
    intro t k hk
    have hlt : m + k < p := by omega
    exact Int.ofNat_lt.mpr hlt
  have hdp : Below p denom := hd.mono (by omega)
  have hlp : Below p (splitVector num).2 := hl.mono (by omega)
  have hbm := htemp .reg32 0 (by decide)
  have hcase0 := htemp .reg1 1 (by decide)
  have hcase23 := htemp .reg1 2 (by decide)
  exact places_pure
    ⟨⟨hcase0, ⟨hlp, hdp⟩, hcase23, trivial, hqr.1, hbm⟩,
      hcase0, ⟨hlp, hdp⟩, hcase23, trivial, hqr.2⟩

/-- Wherever the quotient fits into 64 bits, the code denotes the exact
quotient and the exact remainder, and it changes only new temporaries. -/
theorem translateDivModU128to64_exact
    (n : ℕ) {n_hi n_lo denom : Exp} (hhi : Operand n .reg64 n_hi)
    (hlo : Operand n .reg64 n_lo) (hden : Operand n .reg64 denom)
    (ρ : Valuation μ) (hd : denom.eval ρ 64 ≠ 0)
    (hlt : (n_hi.eval ρ 64).toNat < (denom.eval ρ 64).toNat) :
    let code := translateDivModU128to64 (.vector n_hi n_lo) denom n
    let ρ' := exec code.stmts ρ
    DenotesDivMod ρ' (n_hi.eval ρ 64) (n_lo.eval ρ 64) (denom.eval ρ 64)
        code.value ∧
      AgreeOn (Numbered n) ρ ρ' := by
  intro code ρ'
  have hplaces : Places n
      (translateDivModU128to64 (.vector n_hi n_lo) denom) Below128 :=
    places_divmodU128Ciscish ⟨hhi.below, hlo.below⟩ hden.below
  apply hplaces.run ρ (Q := fun ρ' => DenotesDivMod ρ' (n_hi.eval ρ 64)
    (n_lo.eval ρ 64) (denom.eval ρ 64))
  intro ρ' hρ
  exact yields_divmodU128Ciscish (hhi.denotes hρ) (hlo.denotes hρ)
    (hden.denotes hρ) hd hlt

/-- `2 ^ 64 + 5` divided by 7. -/
theorem translateDivModU128to64_exact_seven :
    let code := translateDivModU128to64
      (.vector (exConst64 1) (exConst64 5)) (exConst64 7) 0
    DenotesDivMod (exec code.stmts Valuation.zero) 1 5 7 code.value :=
  have hconst : ∀ x, Operand 0 .reg64 (exConst64 x) :=
    fun _ => ⟨rfl, trivial⟩
  (translateDivModU128to64_exact 0 (hconst 1) (hconst 5) (hconst 7)
    Valuation.zero (by decide) (by decide)).1

end Fuzzball.Asmir
