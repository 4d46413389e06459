import Fuzzball.VineSemantics

/-!
# Rotation through the carry

The single-bit rotations of the x86 instructions `RCL` and `RCR`, and what many
of them do.  A value of `w` bits and the carry form a ring of `w + 1` bits, in
which the carry follows the highest bit.
-/

namespace Fuzzball.X86

open Vine

variable {w : ℕ}

def rclOnce (p : BitVec w × Bool) : BitVec w × Bool :=
  (p.1 <<< 1 ||| flag w p.2, p.1.msb)

def rcrOnce (p : BitVec w × Bool) : BitVec w × Bool :=
  (p.1 >>> 1 ||| flag w p.2 <<< (w - 1), p.1.getLsbD 0)

def rotateOnce (isLeft : Bool) (p : BitVec w × Bool) : BitVec w × Bool :=
  if isLeft then rclOnce p else rcrOnce p

/-- The overflow flag of one rotation of a value: of the result and the carry
after `RCL`, and of the value and the carry before `RCR`. -/
def rotateOverflow (isLeft : Bool) (p : BitVec w × Bool) : Bool :=
  if isLeft then (rclOnce p).1.msb ^^ (rclOnce p).2 else p.1.msb ^^ p.2

/-! ## Many rotations -/

/-- A bit of the ring. -/
def ringBit (p : BitVec w × Bool) (i : ℕ) : Bool :=
  if i = w then p.2 else p.1.getLsbD i

theorem getLsbD_flag (hw : 0 < w) (b : Bool) (i : ℕ) :
    (flag w b).getLsbD i = (decide (i = 0) && b) := by
  rw [flag, BitVec.getLsbD_setWidth, BitVec.getLsbD_ofBool]
  by_cases hi : i = 0 <;> simp [hi, hw]

theorem ringBit_carry (p : BitVec w × Bool) : ringBit p w = p.2 := if_pos rfl

theorem ringBit_of_lt (p : BitVec w × Bool) {i : ℕ} (hi : i < w) :
    ringBit p i = p.1.getLsbD i := if_neg hi.ne

theorem rclOnce_bit (hw : 0 < w) (p : BitVec w × Bool) {i : ℕ} (hi : i ≤ w) :
    ringBit (rclOnce p) i = ringBit p (if i = 0 then w else i - 1) := by
  rcases hi.eq_or_lt with rfl | hlt
  · rw [ringBit_carry, if_neg hw.ne', ringBit_of_lt p (by omega), rclOnce,
      BitVec.msb_eq_getLsbD_last]
  · rw [ringBit_of_lt _ hlt, rclOnce, BitVec.getLsbD_or,
      BitVec.getLsbD_shiftLeft, getLsbD_flag hw]
    by_cases h0 : i = 0
    · rw [if_pos h0, ringBit_carry]
      simp [h0]
    · rw [if_neg h0, ringBit_of_lt p (by omega)]
      have hpos : ¬ i < 1 := by omega
      simp only [hlt, h0, hpos, decide_true, decide_false, Bool.not_false,
        Bool.true_and, Bool.false_and, Bool.or_false]

theorem rcrOnce_bit (hw : 0 < w) (p : BitVec w × Bool) {i : ℕ} (hi : i ≤ w) :
    ringBit (rcrOnce p) i = ringBit p (if i = w then 0 else i + 1) := by
  rcases hi.eq_or_lt with rfl | hlt
  · rw [ringBit_carry, if_pos rfl, ringBit_of_lt p hw, rcrOnce]
  · rw [ringBit_of_lt _ hlt, if_neg hlt.ne, rcrOnce, BitVec.getLsbD_or,
      BitVec.getLsbD_ushiftRight, BitVec.getLsbD_shiftLeft, getLsbD_flag hw,
      Nat.add_comm 1 i]
    by_cases hlast : i + 1 = w
    · have hout : p.1.getLsbD (i + 1) = false :=
        BitVec.getLsbD_of_ge _ _ hlast.ge
      have hnot : ¬ i < w - 1 := by omega
      have hzero : i - (w - 1) = 0 := by omega
      rw [hout, hlast, ringBit_carry]
      simp only [hlt, hnot, hzero, decide_true, decide_false, Bool.not_false,
        Bool.true_and, Bool.false_or]
    · have hbelow : i < w - 1 := by omega
      rw [ringBit_of_lt p (by omega)]
      simp only [hbelow, decide_true, Bool.not_true, Bool.and_false,
        Bool.false_and, Bool.or_false]

/-- Where a bit of the ring comes from, after `k` rotations. -/
def ringSource (isLeft : Bool) (w k i : ℕ) : ℕ :=
  if isLeft then if k ≤ i then i - k else i + (w + 1) - k
  else if i + k ≤ w then i + k else i + k - (w + 1)

theorem rotate_bit (hw : 0 < w) (isLeft : Bool) (p : BitVec w × Bool)
    {k i : ℕ} (hk : k ≤ w + 1) (hi : i ≤ w) :
    ringBit ((rotateOnce isLeft)^[k] p) i =
      ringBit p (ringSource isLeft w k i) := by
  induction k generalizing i with
  | zero =>
    have hsource : ringSource isLeft w 0 i = i := by
      cases isLeft <;> simp [ringSource, hi]
    rw [hsource]
    rfl
  | succ k ih =>
    rw [Function.iterate_succ_apply']
    cases isLeft with
    | true =>
      have hprev : (if i = 0 then w else i - 1) ≤ w := by split_ifs <;> omega
      have hsource : ringSource true w k (if i = 0 then w else i - 1) =
          ringSource true w (k + 1) i := by
        simp only [ringSource, if_true]
        split_ifs <;> omega
      exact (rclOnce_bit hw _ hi).trans
        ((ih (by omega) hprev).trans (congrArg (ringBit p) hsource))
    | false =>
      have hnext : (if i = w then 0 else i + 1) ≤ w := by split_ifs <;> omega
      have hsource : ringSource false w k (if i = w then 0 else i + 1) =
          ringSource false w (k + 1) i := by
        simp only [ringSource, Bool.false_eq_true, if_false]
        split_ifs <;> omega
      exact (rcrOnce_bit hw _ hi).trans
        ((ih (by omega) hnext).trans (congrArg (ringBit p) hsource))

/-! ## The rotation by shifts -/

/-- A shift in the direction of the rotation. -/
def shiftWith {W : ℕ} (isLeft : Bool) (x : BitVec W) (k : ℕ) : BitVec W :=
  if isLeft then x <<< k else x >>> k

/-- The number of the position to which the old carry goes. -/
def carryIn (isLeft : Bool) (w k : ℕ) : ℕ := if isLeft then k - 1 else w - k

/-- The number of the bit that becomes the carry. -/
def carryOut (isLeft : Bool) (w k : ℕ) : ℕ := carryIn (!isLeft) w k

/-- The value rotated by `k`, in a register of `W` bits. -/
def rotatedValue {W : ℕ} (isLeft : Bool) (w k : ℕ) (x : BitVec W) (c : Bool) :
    BitVec W :=
  shiftWith isLeft x k ||| flag W c <<< carryIn isLeft w k |||
    shiftWith (!isLeft) x (w + 1 - k)

theorem rotatedValue_eq {W k : ℕ} (isLeft : Bool) (x : BitVec w) (c : Bool)
    (hW : w ≤ W) (hk : 0 < k) (hkw : k ≤ w) :
    (rotatedValue isLeft w k (x.setWidth W) c).setWidth w =
      ((rotateOnce isLeft)^[k] (x, c)).1 := by
  have hw : 0 < w := by omega
  apply BitVec.eq_of_getLsbD_eq
  intro i hi
  have hright : ((rotateOnce isLeft)^[k] (x, c)).1.getLsbD i =
      ringBit (x, c) (ringSource isLeft w k i) := by
    rw [← rotate_bit hw isLeft (x, c) (by omega) hi.le, ringBit,
      if_neg hi.ne]
  rw [hright]
  have hiW : i < W := by omega
  have hhigh : ∀ j, w ≤ j → x.getLsbD j = false := fun j hj =>
    BitVec.getLsbD_of_ge _ _ hj
  cases isLeft with
  | true =>
    simp only [rotatedValue, shiftWith, carryIn, if_true, Bool.not_true,
      Bool.false_eq_true, if_false, BitVec.getLsbD_setWidth,
      BitVec.getLsbD_or, BitVec.getLsbD_shiftLeft,
      BitVec.getLsbD_ushiftRight, getLsbD_flag (by omega : 0 < W), hi, hiW,
      decide_true, Bool.true_and, ringSource, ringBit]
    rcases lt_trichotomy (i + 1) k with hik | hik | hik
    · have h1 : ¬ k ≤ i := by omega
      have h2 : i + (w + 1) - k ≠ w := by omega
      have h3 : w + 1 - k + i = i + (w + 1) - k := by omega
      have h4 : i < k := by omega
      have h5 : i < k - 1 := by omega
      have h6 : w + 1 - k + i < W := by omega
      simp [h1, h2, h4, h5, h3 ▸ h6, h3]
    · have h1 : ¬ k ≤ i := by omega
      have h2 : i + (w + 1) - k = w := by omega
      have h3 : w + 1 - k + i = w := by omega
      have h4 : i < k := by omega
      have h5 : ¬ i < k - 1 := by omega
      have h6 : i - (k - 1) = 0 := by omega
      simp [h1, h2, h3, h4, h5, h6]
    · have h1 : k ≤ i := by omega
      have h2 : i - k ≠ w := by omega
      have h3 : ¬ i < k := by omega
      have h4 : i - (k - 1) ≠ 0 := by omega
      have h5 : x.getLsbD (w + 1 - k + i) = false := hhigh _ (by omega)
      have h6 : i - k < W := by omega
      simp [h1, h2, h3, h4, h5, h6]
  | false =>
    simp only [rotatedValue, shiftWith, carryIn, if_true, Bool.not_false,
      Bool.false_eq_true, if_false, BitVec.getLsbD_setWidth,
      BitVec.getLsbD_or, BitVec.getLsbD_shiftLeft,
      BitVec.getLsbD_ushiftRight, getLsbD_flag (by omega : 0 < W), hi, hiW,
      decide_true, Bool.true_and, ringSource, ringBit]
    rcases lt_trichotomy (i + k) w with hik | hik | hik
    · have h1 : i + k ≤ w := by omega
      have h2 : i + k ≠ w := by omega
      have h3 : k + i = i + k := by omega
      have h4 : i < w - k := by omega
      have h5 : i < w + 1 - k := by omega
      have h6 : i + k < W := by omega
      simp [h1, h2, h3, h4, h5, h6]
    · have h1 : i + k ≤ w := by omega
      have h3 : k + i = w := by omega
      have h4 : ¬ i < w - k := by omega
      have h5 : i < w + 1 - k := by omega
      have h6 : i - (w - k) = 0 := by omega
      simp [hik, h3, h4, h5, h6]
    · have h1 : ¬ i + k ≤ w := by omega
      have h2 : i + k - (w + 1) ≠ w := by omega
      have h3 : x.getLsbD (k + i) = false := hhigh _ (by omega)
      have h4 : i - (w - k) ≠ 0 := by omega
      have h5 : ¬ i < w + 1 - k := by omega
      have h6 : i - (w + 1 - k) = i + k - (w + 1) := by omega
      have h7 : i + k - (w + 1) < W := by omega
      simp [h1, h2, h3, h4, h5, h6, h7]

theorem carryOut_eq {k : ℕ} (isLeft : Bool) (x : BitVec w) (c : Bool)
    (hk : 0 < k) (hkw : k ≤ w) :
    ((rotateOnce isLeft)^[k] (x, c)).2 =
      x.getLsbD (carryOut isLeft w k) := by
  have hw : 0 < w := by omega
  have hbit := rotate_bit hw isLeft (x, c) (k := k) (by omega) le_rfl
  have hsource : ringSource isLeft w k w = carryOut isLeft w k := by
    cases isLeft with
    | true => exact if_pos hkw
    | false =>
      have hgt : ¬ w + k ≤ w := by omega
      simp only [ringSource, carryOut, carryIn, hgt, Bool.not_false,
        Bool.false_eq_true, if_false, if_true]
      omega
  have hne : carryOut isLeft w k ≠ w := by
    cases isLeft <;> simp [carryOut, carryIn] <;> omega
  rw [hsource, ringBit, ringBit, if_pos rfl, if_neg hne] at hbit
  exact hbit

end Fuzzball.X86
