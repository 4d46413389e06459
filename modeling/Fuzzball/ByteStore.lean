import Fuzzball.BitVectorLanes

/-!
# Byte-addressed stores

A store of bytes, in which a bit vector is kept with its lowest byte first.
The bytes of a bit vector are its lanes of width 8.
-/

namespace Fuzzball

/-! ## Lanes of operations on bit vectors -/

namespace Bits

variable {n m w : ℕ}

theorem lane_and (x y : BitVec n) (i : ℕ) :
    lane w (x &&& y) i = lane w x i &&& lane w y i := by
  ext j hj
  simp [getElem_lane _ _ hj]

theorem lane_or (x y : BitVec n) (i : ℕ) :
    lane w (x ||| y) i = lane w x i ||| lane w y i := by
  ext j hj
  simp [getElem_lane _ _ hj]

theorem lane_zero (i : ℕ) : lane w (0 : BitVec n) i = 0 := by
  ext j hj
  simp [getElem_lane _ _ hj]

/-- Nothing is beyond the end. -/
theorem lane_of_ge (x : BitVec n) {i : ℕ} (h : n ≤ w * i) :
    lane w x i = 0 := by
  ext j hj
  rw [getElem_lane _ _ hj, BitVec.getLsbD_of_ge _ _ (by omega)]
  simp

/-- A lane of a zero extension. -/
theorem lane_setWidth_of_le (x : BitVec n) (h : n ≤ m) (i : ℕ) :
    lane w (x.setWidth m) i = lane w x i := by
  ext j hj
  rw [getElem_lane _ _ hj, getElem_lane _ _ hj, BitVec.getLsbD_setWidth]
  by_cases hin : w * i + j < m
  · simp [hin]
  · rw [BitVec.getLsbD_of_ge x _ (by omega)]
    simp

theorem lane_shiftLeft_of_lt (x : BitVec n) {i k : ℕ} (h : i < k) :
    lane w (x <<< (w * k)) i = 0 := by
  ext j hj
  have hin := lane_inside h hj
  rw [getElem_lane _ _ hj, BitVec.getLsbD_shiftLeft]
  simp [hin]

theorem lane_shiftLeft_add (x : BitVec n) {i k : ℕ}
    (h : w * (k + i) + w ≤ n) : lane w (x <<< (w * k)) (k + i) = lane w x i := by
  ext j hj
  rw [getElem_lane _ _ hj, getElem_lane _ _ hj, BitVec.getLsbD_shiftLeft]
  have hsplit : w * (k + i) + j = w * k + (w * i + j) := by ring
  rw [hsplit] at *
  have hin : w * k + (w * i + j) < n := by
    have hmul : w * (k + i) = w * k + w * i := by ring
    omega
  simp [hin]

/-- A bit vector is known by its lanes. -/
theorem eq_of_lanes {x y : BitVec n} {k : ℕ} (hn : n ≤ w * k) (hw : 0 < w)
    (h : ∀ i < k, lane w x i = lane w y i) : x = y := by
  ext j hj
  have hi : j / w < k := by
    rw [Nat.div_lt_iff_lt_mul hw, Nat.mul_comm]
    omega
  have hmod := Nat.mod_lt j hw
  have hlane := congrArg (fun l => l.getLsbD (j % w)) (h (j / w) hi)
  simp only [BitVec.getLsbD_eq_getElem hmod, getElem_lane _ _ hmod,
    Nat.div_add_mod] at hlane
  rwa [BitVec.getLsbD_eq_getElem hj, BitVec.getLsbD_eq_getElem hj] at hlane

end Bits

/-! ## Stores -/

abbrev ByteStore := ℕ → BitVec 8

namespace ByteStore

open Bits

variable {w : ℕ}

/-- The low `n` bytes of the bit vector, written from the offset on. -/
def write (σ : ByteStore) (offset n : ℕ) (x : BitVec w) : ByteStore :=
  fun a => if offset ≤ a ∧ a < offset + n then lane 8 x (a - offset) else σ a

/-- The `n` bytes from the offset on. -/
def read (σ : ByteStore) : (offset n : ℕ) → BitVec (8 * n)
  | _, 0 => 0#0
  | offset, n + 1 => read σ (offset + 1) n ++ σ offset

theorem lane_read (σ : ByteStore) (offset n : ℕ) {i : ℕ} (hi : i < n) :
    lane 8 (σ.read offset n) i = σ (offset + i) := by
  induction n generalizing offset i with
  | zero => exact absurd hi (Nat.not_lt_zero i)
  | succ n ih =>
    cases i with
    | zero =>
      have h := lane_append_of_lt (x := σ.read (offset + 1) n)
        (y := σ offset) (w := 8) (k := 1) rfl Nat.zero_lt_one
      rw [lane_self] at h
      exact h
    | succ i =>
      have h := lane_append_add (x := σ.read (offset + 1) n)
        (y := σ offset) (w := 8) (k := 1) (i := i) rfl
      rw [ih (offset + 1) (by omega)] at h
      rw [show offset + (i + 1) = offset + 1 + i by omega, ← h,
        Nat.add_comm i 1]
      rfl

variable {σ : ByteStore} {offset n : ℕ} {x : BitVec w}

theorem write_apply {i : ℕ} (hi : i < n) :
    σ.write offset n x (offset + i) = lane 8 x i := by
  unfold write
  rw [if_pos (by omega), Nat.add_sub_cancel_left]

/-- The other bytes stay. -/
theorem write_of_outside {a : ℕ} (ha : a < offset ∨ offset + n ≤ a) :
    σ.write offset n x a = σ a := by
  unfold write
  rw [if_neg (by omega)]

/-- What is read is what was last written there. -/
theorem read_write (σ : ByteStore) (offset n : ℕ) (x : BitVec (8 * n)) :
    (σ.write offset n x).read offset n = x := by
  apply eq_of_lanes (w := 8) le_rfl (by decide)
  intro i hi
  rw [lane_read _ _ _ hi, write_apply hi]

/-- What is read is known by the bytes. -/
theorem read_congr {τ : ByteStore} (h : ∀ i < n, σ (offset + i) = τ (offset + i)) :
    σ.read offset n = τ.read offset n := by
  apply eq_of_lanes (w := 8) le_rfl (by decide)
  intro i hi
  rw [lane_read _ _ _ hi, lane_read _ _ _ hi, h i hi]

/-- A read of other bytes. -/
theorem read_write_of_apart {a m : ℕ}
    (h : a + m ≤ offset ∨ offset + n ≤ a) :
    (σ.write offset n x).read a m = σ.read a m := by
  apply read_congr
  intro i hi
  exact write_of_outside (by omega)

/-- Only the bytes matter. -/
theorem write_congr {v : ℕ} {y : BitVec v}
    (h : ∀ i < n, lane 8 x i = lane 8 y i) :
    σ.write offset n x = σ.write offset n y := by
  funext a
  unfold write
  split_ifs with hin
  · exact h _ (by omega)
  · rfl

/-- Writing what is there. -/
theorem write_self (h : ∀ i < n, lane 8 x i = σ (offset + i)) :
    σ.write offset n x = σ := by
  funext a
  by_cases hin : offset ≤ a ∧ a < offset + n
  · obtain ⟨i, rfl⟩ := Nat.exists_eq_add_of_le hin.1
    rw [write_apply (by omega), h i (by omega)]
  · exact write_of_outside (by omega)

/-- Two halves written one after the other. -/
theorem write_write {v k m : ℕ} {y z : BitVec v}
    (hlow : ∀ i < k, lane 8 y i = lane 8 x i)
    (hhigh : ∀ i < m, lane 8 z i = lane 8 x (k + i)) :
    (σ.write (offset + k) m z).write offset k y =
      σ.write offset (k + m) x := by
  funext a
  by_cases hin : offset ≤ a ∧ a < offset + (k + m)
  · obtain ⟨i, rfl⟩ := Nat.exists_eq_add_of_le hin.1
    rw [write_apply (by omega : i < k + m)]
    by_cases hik : i < k
    · rw [write_apply hik, hlow i hik]
    · obtain ⟨j, rfl⟩ := Nat.exists_eq_add_of_le (Nat.le_of_not_lt hik)
      rw [write_of_outside (by omega), ← Nat.add_assoc,
        write_apply (by omega : j < m), hhigh j (by omega)]
  · rw [write_of_outside (by omega), write_of_outside (by omega),
      write_of_outside (by omega)]

end ByteStore

end Fuzzball
