import Fuzzball.BitVectorCasts

/-!
# Lanes of bit vectors

A packed bit vector is read as lanes of equal width, the lowest first.  Taking
a half of it and joining two halves are operations on its lanes.
-/

namespace Fuzzball.Bits

variable {n m w : ℕ}

/-- The `i`-th lane of width `w`. -/
def lane (w : ℕ) (x : BitVec n) (i : ℕ) : BitVec w :=
  x.extractLsb' (w * i) w

theorem getElem_lane (x : BitVec n) (i : ℕ) {j : ℕ} (hj : j < w) :
    (lane w x i)[j] = x.getLsbD (w * i + j) := by
  simp [lane]

theorem lane_self (x : BitVec w) : lane w x 0 = x := by
  ext j hj
  rw [getElem_lane x 0 hj, Nat.mul_zero, Nat.zero_add,
    BitVec.getLsbD_eq_getElem hj]

theorem lane_inside {i k : ℕ} (hik : i < k) {j : ℕ} (hj : j < w) :
    w * i + j < w * k := by
  calc w * i + j < w * (i + 1) := by rw [Nat.mul_add, Nat.mul_one]; omega
    _ ≤ w * k := Nat.mul_le_mul_left w hik

theorem lane_setWidth (x : BitVec n) {i k : ℕ} (hik : i < k)
    (hk : w * k ≤ m) : lane w (x.setWidth m) i = lane w x i := by
  ext j hj
  have hin := lane_inside hik hj
  rw [getElem_lane _ _ hj, getElem_lane _ _ hj, BitVec.getLsbD_setWidth]
  simp [show w * i + j < m by omega]

theorem lane_high (x : BitVec n) {i k : ℕ} (hik : i < k) (hm : m = w * k)
    {l : ℕ} (hl : n - m = w * l) :
    lane w (high m x) i = lane w x (l + i) := by
  ext j hj
  have hin := lane_inside hik hj
  rw [getElem_lane _ _ hj, getElem_lane _ _ hj,
    BitVec.getLsbD_eq_getElem (show w * i + j < m by omega), getElem_high,
    hl, Nat.mul_add, Nat.add_assoc]

section Append

variable {x : BitVec n} {y : BitVec m} {k i : ℕ}

theorem lane_append_of_lt (hm : m = w * k) (hi : i < k) :
    lane w (x ++ y) i = lane w y i := by
  ext j hj
  have hin := lane_inside hi hj
  rw [getElem_lane _ _ hj, getElem_lane _ _ hj, BitVec.getLsbD_append,
    if_pos (by omega)]

theorem lane_append_add (hm : m = w * k) :
    lane w (x ++ y) (k + i) = lane w x i := by
  ext j hj
  rw [getElem_lane _ _ hj, getElem_lane _ _ hj, BitVec.getLsbD_append,
    Nat.mul_add, if_neg (by omega)]
  congr 1
  omega

/-- The lanes of two halves, one after the other. -/
theorem lane_append {f : ℕ → BitVec w} {l : ℕ} (hm : m = w * k)
    (hlow : ∀ i < k, lane w y i = f i)
    (hhigh : ∀ i < l, lane w x i = f (k + i)) :
    ∀ i < k + l, lane w (x ++ y) i = f i := by
  intro i hi
  by_cases hik : i < k
  · rw [lane_append_of_lt hm hik, hlow i hik]
  · obtain ⟨d, rfl⟩ := Nat.exists_eq_add_of_le (Nat.le_of_not_lt hik)
    rw [lane_append_add hm, hhigh d (by omega)]

end Append

end Fuzzball.Bits
