import Fuzzball.VineSemantics
import Mathlib.Tactic.Linarith

/-!
# Values of expressions as numbers

The value of an integer expression at its own width, read as an unsigned and
as a two's complement number, and what the operations do to these numbers.
-/

namespace Fuzzball.Vine

variable {μ : Type*} [VineMemory μ]

def Exp.unsigned (ρ : Valuation μ) (e : Exp) : ℕ := (e.eval ρ e.width).toNat

def Exp.signed (ρ : Valuation μ) (e : Exp) : ℤ := (e.eval ρ e.width).toInt

variable {ρ : Valuation μ} {e1 e2 : Exp}

theorem Exp.unsigned_lt (ρ : Valuation μ) (e : Exp) :
    e.unsigned ρ < 2 ^ e.width := (e.eval ρ e.width).isLt

theorem Exp.width_le (e : Exp) : e.width ≤ 64 := e.typ.width_le

theorem toNat_eval (h : e2.typ = e1.typ) :
    (e2.eval ρ e1.width).toNat = e2.unsigned ρ := by
  rw [Exp.unsigned, Exp.width, Exp.width, h]

theorem toInt_eval (h : e2.typ = e1.typ) :
    (e2.eval ρ e1.width).toInt = e2.signed ρ := by
  rw [Exp.signed, Exp.width, Exp.width, h]

/-! ## Unsigned values -/

section Unsigned

theorem unsigned_int (t : Typ) (v : I64) :
    (Exp.int t v).unsigned ρ = v.toNat % 2 ^ t.width :=
  BitVec.toNat_setWidth ..

theorem unsigned_bitand (h : e2.typ = e1.typ) :
    (Exp.binOp .bitand e1 e2).unsigned ρ = e1.unsigned ρ &&& e2.unsigned ρ := by
  rw [← toNat_eval h]
  exact BitVec.toNat_and ..

theorem unsigned_bitor (h : e2.typ = e1.typ) :
    (Exp.binOp .bitor e1 e2).unsigned ρ = e1.unsigned ρ ||| e2.unsigned ρ := by
  rw [← toNat_eval h]
  exact BitVec.toNat_or ..

theorem unsigned_xor (h : e2.typ = e1.typ) :
    (Exp.binOp .xor e1 e2).unsigned ρ = e1.unsigned ρ ^^^ e2.unsigned ρ := by
  rw [← toNat_eval h]
  exact BitVec.toNat_xor ..

theorem unsigned_plus (h : e2.typ = e1.typ) :
    (Exp.binOp .plus e1 e2).unsigned ρ =
      (e1.unsigned ρ + e2.unsigned ρ) % 2 ^ e1.width := by
  rw [← toNat_eval h]
  exact BitVec.toNat_add ..

theorem unsigned_times (h : e2.typ = e1.typ) :
    (Exp.binOp .times e1 e2).unsigned ρ =
      e1.unsigned ρ * e2.unsigned ρ % 2 ^ e1.width := by
  rw [← toNat_eval h]
  exact BitVec.toNat_mul ..

theorem unsigned_mod (h : e2.typ = e1.typ) :
    (Exp.binOp .mod e1 e2).unsigned ρ = e1.unsigned ρ % e2.unsigned ρ := by
  rw [← toNat_eval h]
  exact BitVec.toNat_umod

theorem unsigned_lshift :
    (Exp.binOp .lshift e1 e2).unsigned ρ =
      e1.unsigned ρ * 2 ^ e2.unsigned ρ % 2 ^ e1.width := by
  rw [← Nat.shiftLeft_eq]
  exact BitVec.toNat_shiftLeft

theorem unsigned_rshift :
    (Exp.binOp .rshift e1 e2).unsigned ρ =
      e1.unsigned ρ / 2 ^ e2.unsigned ρ := by
  rw [← Nat.shiftRight_eq_div_pow]
  exact BitVec.toNat_ushiftRight ..

theorem unsigned_castUnsigned (t : Typ) :
    (Exp.cast .castUnsigned t e1).unsigned ρ = e1.unsigned ρ % 2 ^ t.width :=
  BitVec.toNat_setWidth ..

theorem unsigned_castLow (t : Typ) :
    (Exp.cast .castLow t e1).unsigned ρ = e1.unsigned ρ % 2 ^ t.width :=
  BitVec.toNat_setWidth ..

theorem unsigned_ite {cond : Exp} (h : e2.typ = e1.typ) :
    (Exp.ite cond e1 e2).unsigned ρ =
      if cond.eval ρ 1 = 1 then e1.unsigned ρ else e2.unsigned ρ := by
  rw [← toNat_eval h]
  exact apply_ite BitVec.toNat ..

end Unsigned

/-! ## Signed values -/

section Signed

theorem two_pow_pred (w : ℕ) (hw : 0 < w) : (2 : ℤ) ^ w = 2 * 2 ^ (w - 1) := by
  obtain ⟨n, rfl⟩ := Nat.exists_eq_add_of_le' hw
  rw [Nat.add_sub_cancel, pow_succ, mul_comm]

theorem Exp.signed_bounds (ρ : Valuation μ) (e : Exp) :
    -2 ^ (e.width - 1) ≤ e.signed ρ ∧ e.signed ρ < 2 ^ (e.width - 1) :=
  ⟨BitVec.le_toInt _, BitVec.toInt_lt⟩

/-- The signed value of a number that fits is that number. -/
theorem toInt_of_bmod {w : ℕ} (x : BitVec w) {n : ℤ}
    (hx : x.toInt = n.bmod (2 ^ w)) (hw : 0 < w) (h1 : -2 ^ (w - 1) ≤ n)
    (h2 : n < 2 ^ (w - 1)) : x.toInt = n := by
  have hpow := two_pow_pred w hw
  rw [hx]
  apply Int.bmod_eq_of_le
  · push_cast
    omega
  · push_cast
    omega

theorem signed_plus (h : e2.typ = e1.typ) :
    (Exp.binOp .plus e1 e2).signed ρ =
      (e1.signed ρ + e2.signed ρ).bmod (2 ^ e1.width) := by
  rw [← toInt_eval h]
  exact BitVec.toInt_add ..

theorem signed_times (h : e2.typ = e1.typ) :
    (Exp.binOp .times e1 e2).signed ρ =
      (e1.signed ρ * e2.signed ρ).bmod (2 ^ e1.width) := by
  rw [← toInt_eval h]
  exact BitVec.toInt_mul ..

theorem signed_smod (h : e2.typ = e1.typ) :
    (Exp.binOp .smod e1 e2).signed ρ = (e1.signed ρ).tmod (e2.signed ρ) := by
  rw [← toInt_eval h]
  exact BitVec.toInt_srem ..

theorem signed_ite {cond : Exp} (h : e2.typ = e1.typ) :
    (Exp.ite cond e1 e2).signed ρ =
      if cond.eval ρ 1 = 1 then e1.signed ρ else e2.signed ρ := by
  rw [← toInt_eval h]
  exact apply_ite BitVec.toInt ..

theorem signed_castSigned (t : Typ) (h : e1.width ≤ t.width) :
    (Exp.cast .castSigned t e1).signed ρ = e1.signed ρ :=
  BitVec.toInt_signExtend_of_le h

theorem signed_lshift :
    (Exp.binOp .lshift e1 e2).signed ρ =
      (e1.signed ρ * 2 ^ e2.unsigned ρ).bmod (2 ^ e1.width) := by
  refine (BitVec.toInt_shiftLeft).trans ?_
  rw [Exp.signed, BitVec.toInt_eq_toNat_bmod, Int.bmod_mul_bmod,
    Nat.shiftLeft_eq]
  push_cast
  rfl

theorem signed_of_lt {e : Exp} (h : 2 * e.unsigned ρ < 2 ^ e.width) :
    e.signed ρ = e.unsigned ρ := BitVec.toInt_eq_toNat_of_lt h

/-- A value that is not negative is the same number read either way. -/
theorem signed_eq_unsigned (h : 0 ≤ Exp.signed ρ e1) :
    e1.signed ρ = e1.unsigned ρ := by
  rw [Exp.signed, BitVec.toInt_eq_toNat_cond] at h ⊢
  split_ifs at h ⊢ with hlt
  · rfl
  · have hlt' : ((e1.eval ρ e1.width).toNat : ℤ) < (2 ^ e1.width : ℕ) :=
      Int.ofNat_lt.mpr (e1.eval ρ e1.width).isLt
    linarith

end Signed

end Fuzzball.Vine
