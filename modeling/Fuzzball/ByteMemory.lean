import Fuzzball.VineSemantics

/-!
# Memory as bytes

A memory that holds a byte at each address, with little-endian accesses of
several bytes.
-/

namespace Fuzzball.Vine

def ByteMemory : Type := I64 → BitVec 8

namespace ByteMemory

/-- The number in the `k` bytes from the address on. -/
def loadBytes (m : ByteMemory) : ℕ → I64 → ℕ
  | 0, _ => 0
  | k + 1, a => (m a).toNat + 256 * loadBytes m k (a + 1)

/-- The address is one of the `k` from `a` on. -/
def InRange (a : I64) (k : ℕ) (b : I64) : Prop := (b - a).toNat < k

instance (a : I64) (k : ℕ) (b : I64) : Decidable (InRange a k b) :=
  inferInstanceAs (Decidable (_ < _))

def storeBytes (m : ByteMemory) (a : I64) (k v : ℕ) : ByteMemory := fun b =>
  if InRange a k b then BitVec.ofNat 8 (v / 256 ^ (b - a).toNat) else m b

instance : VineMemory ByteMemory where
  load m t a := BitVec.ofNat 64 (m.loadBytes (t.width / 8) a)
  store m t a v := m.storeBytes a (t.width / 8) v.toNat

variable {m m' : ByteMemory} {a : I64} {k v : ℕ}

theorem loadBytes_lt (m : ByteMemory) (k : ℕ) (a : I64) :
    m.loadBytes k a < 256 ^ k := by
  induction k generalizing a with
  | zero => exact Nat.one_pos
  | succ k ih =>
    have hbyte : (m a).toNat < 256 := (m a).isLt
    have hrest := ih (a + 1)
    rw [loadBytes, pow_succ]
    omega

theorem add_succ (a : I64) (i : ℕ) :
    a + 1 + BitVec.ofNat 64 i = a + BitVec.ofNat 64 (i + 1) := by
  rw [BitVec.ofNat_add, BitVec.add_assoc, BitVec.add_comm 1]
  rfl

/-- Bytes that are the digits of a number. -/
theorem loadBytes_eq (h : ∀ i < k,
      (m (a + BitVec.ofNat 64 i)).toNat = v / 256 ^ i % 256) :
    m.loadBytes k a = v % 256 ^ k := by
  induction k generalizing a v with
  | zero => exact (Nat.mod_one v).symm
  | succ k ih =>
    have hfirst : (m a).toNat = v % 256 := by
      have h0 := h 0 (Nat.succ_pos k)
      simpa using h0
    have hrest : m.loadBytes k (a + 1) = v / 256 % 256 ^ k := by
      apply ih
      intro i hi
      rw [add_succ, h (i + 1) (Nat.succ_lt_succ hi), Nat.div_div_eq_div_mul,
        pow_succ']
    rw [loadBytes, hfirst, hrest, pow_succ', Nat.mod_mul]

/-- A byte of a number that is loaded. -/
theorem loadBytes_digit {i : ℕ} (hi : i < k) (m : ByteMemory) (a : I64) :
    m.loadBytes k a / 256 ^ i % 256 = (m (a + BitVec.ofNat 64 i)).toNat := by
  induction i generalizing a k with
  | zero =>
    obtain ⟨k, rfl⟩ : ∃ j, k = j + 1 := ⟨k - 1, by omega⟩
    have hbyte : (m a).toNat < 256 := (m a).isLt
    simp only [loadBytes, pow_zero, Nat.div_one, Nat.add_mul_mod_self_left,
      Nat.mod_eq_of_lt hbyte]
    simp
  | succ i ih =>
    obtain ⟨k, rfl⟩ : ∃ j, k = j + 1 := ⟨k - 1, by omega⟩
    have hbyte : (m a).toNat < 256 := (m a).isLt
    rw [← add_succ, ← ih (Nat.lt_of_succ_lt_succ hi), pow_succ',
      ← Nat.div_div_eq_div_mul, loadBytes, Nat.add_mul_div_left _ _ (by decide),
      Nat.div_eq_of_lt hbyte, Nat.zero_add]

theorem offset_toNat {i : ℕ} (hi : i < 2 ^ 64) (a : I64) :
    (a + BitVec.ofNat 64 i - a).toNat = i := by
  rw [BitVec.add_comm, BitVec.add_sub_cancel, BitVec.toNat_ofNat,
    Nat.mod_eq_of_lt hi]

theorem loadBytes_storeBytes (hk : k ≤ 2 ^ 64) (m : ByteMemory) (a : I64)
    (v : ℕ) : (m.storeBytes a k v).loadBytes k a = v % 256 ^ k := by
  apply loadBytes_eq
  intro i hi
  have hoffset := offset_toNat (hi.trans_le hk) a
  have hin : InRange a k (a + BitVec.ofNat 64 i) := by
    rw [InRange, hoffset]
    exact hi
  rw [storeBytes, if_pos hin, hoffset, BitVec.toNat_ofNat]

theorem storeBytes_of_not {b : I64} (hb : ¬ InRange a k b) :
    m.storeBytes a k v b = m b := if_neg hb

/-- Storing what is there changes nothing. -/
theorem storeBytes_loadBytes (m : ByteMemory) (a : I64) (k : ℕ) :
    m.storeBytes a k (m.loadBytes k a) = m := by
  funext b
  by_cases hb : InRange a k b
  · have hsplit : a + BitVec.ofNat 64 (b - a).toNat = b := by
      rw [BitVec.ofNat_toNat, BitVec.setWidth_eq, BitVec.add_comm,
        BitVec.sub_add_cancel]
    have hdigit := loadBytes_digit (i := (b - a).toNat) hb m a
    rw [hsplit] at hdigit
    rw [storeBytes, if_pos hb]
    apply BitVec.eq_of_toNat_eq
    rw [BitVec.toNat_ofNat]
    exact hdigit
  · exact storeBytes_of_not hb

theorem loadBytes_congr (h : ∀ b, InRange a k b → m b = m' b)
    (hk : k ≤ 2 ^ 64) : m.loadBytes k a = m'.loadBytes k a := by
  rw [← Nat.mod_eq_of_lt (loadBytes_lt m' k a)]
  apply loadBytes_eq
  intro i hi
  have hin : InRange a k (a + BitVec.ofNat 64 i) := by
    rw [InRange, offset_toNat (hi.trans_le hk)]
    exact hi
  rw [h _ hin, loadBytes_digit hi]

end ByteMemory

end Fuzzball.Vine
