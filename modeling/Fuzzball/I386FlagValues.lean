import Fuzzball.I386Flags

/-!
# What the 32-bit flag code computes

For each operation the emitted moves, read as equations, give every flag that
the architecture defines its architectural value.
-/

namespace Fuzzball.Asmir.I386

open Vine X86

variable {μ : Type} [VineMemory μ] {ρ : Valuation μ}

/-- The widths of the 32-bit instruction set. -/
def Narrow (t : Typ) : Prop := t = .reg8 ∨ t = .reg16 ∨ t = .reg32

theorem Narrow.le {t : Typ} (ht : Narrow t) : 8 ≤ t.width ∧ t.width ≤ 32 := by
  rcases ht with rfl | rfl | rfl <;> decide

/-! ## The helpers -/

section Helpers

variable {t : Typ} {e e' a b : Exp} {x y : BitVec 32}

theorem mask_ff (x : BitVec 32) :
    x &&& 0xff = (x.setWidth 8).setWidth 32 := by
  apply BitVec.eq_of_toNat_eq
  rw [BitVec.toNat_and, BitVec.toNat_setWidth_of_le (by decide),
    BitVec.toNat_setWidth]
  exact Nat.and_two_pow_sub_one_eq_mod _ 8

theorem mask_ffff (x : BitVec 32) :
    x &&& 0xffff = (x.setWidth 16).setWidth 32 := by
  apply BitVec.eq_of_toNat_eq
  rw [BitVec.toNat_and, BitVec.toNat_setWidth_of_le (by decide),
    BitVec.toNat_setWidth]
  exact Nat.and_two_pow_sub_one_eq_mod _ 16

theorem denotes_maskOverflow (ht : Narrow t) (he : Denotes ρ e .reg32 x) :
    Denotes ρ (maskOverflow e t) .reg32
      ((x.setWidth t.width).setWidth 32) := by
  rcases ht with rfl | rfl | rfl
  · exact mask_ff x ▸ he.and (.const32 0xff)
  · exact mask_ffff x ▸ he.and (.const32 0xffff)
  · simpa [maskOverflow] using he

theorem denotes_narrow32 (ht : Narrow t) (he : Denotes ρ e .reg32 x) :
    Denotes ρ (narrow32 e t) t (x.setWidth t.width) := by
  rcases ht with rfl | rfl | rfl
  · exact he.lcast .reg8
  · exact he.lcast .reg16
  · simpa [narrow32] using he

/-- The parity of the low byte, from its eight shifts. -/
theorem denotes_calcCondPF {p : BitVec 8} (he : Denotes ρ e .reg8 p) :
    DenotesBool ρ (calcCondPF e) (evenParity p) := by
  have shift := fun i : BitVec 32 => he.shr (.const32 i)
  have h := ((((shift 7).xor (shift 6)).xor ((shift 5).xor (shift 4))).xor
    (((shift 3).xor (shift 2)).xor ((shift 1).xor he))).lcast .reg1 |>.not
  have hparity : ∀ p : BitVec 8,
      ~~~((p >>> 7 ^^^ p >>> 6 ^^^ (p >>> 5 ^^^ p >>> 4) ^^^
        (p >>> 3 ^^^ p >>> 2 ^^^ (p >>> 1 ^^^ p))).setWidth 1) =
        flag 1 (evenParity p) := by decide +kernel
  rw [DenotesBool, ← hparity p]
  exact h

/-- Bit 4 depends on the low bits of the operands only. -/
theorem denotes_condAF {w : ℕ} {r xa xb : BitVec w} {ya yb : BitVec 32}
    (hw : 4 < w) (he : Denotes ρ e .reg32 x) (ha : Denotes ρ a .reg32 ya)
    (hb : Denotes ρ b .reg32 yb) (hr : x.setWidth w = r)
    (hya : ya.setWidth w = xa) (hyb : yb.setWidth w = xb) :
    DenotesBool ρ (condAF e a b) ((r ^^^ (xa ^^^ xb)).getLsbD 4) := by
  have h := (Denotes.const32 (ρ := ρ) 0x10).eq
    ((Denotes.const32 0x10).and (he.xor (ha.xor hb)))
  have hlow : (r ^^^ (xa ^^^ xb)).getLsbD 4 =
      (x ^^^ (ya ^^^ yb)).getLsbD 4 := by
    rw [← hr, ← hya, ← hyb]
    simp [hw]
  rw [hlow, ← twoPow_beq (by decide)]
  exact h

theorem denotes_condZF (he : Denotes ρ e .reg32 x) :
    DenotesBool ρ (condZF e) (x == 0) := he.eq (.const32 0)

theorem denotes_condBit {i : ℕ} (he : Denotes ρ e .reg32 x)
    (hi : i < 2 ^ 32) :
    DenotesBool ρ (condBit e (exConst (BitVec.ofNat 32 i))) (x.getLsbD i) := by
  have h := (Denotes.const32 (ρ := ρ) 1).eq
    ((Denotes.const32 1).and (he.shr (.const32 (BitVec.ofNat 32 i))))
  have hbit := twoPow_beq (W := 32) (i := 0) (by decide) (x >>> i)
  rw [BitVec.getLsbD_ushiftRight, Nat.add_zero] at hbit
  rw [BitVec.toNat_ofNat, Nat.mod_eq_of_lt hi] at h
  rw [← hbit]
  exact h

theorem denotes_constantF : DenotesBool ρ constantF false := ⟨rfl, rfl, rfl⟩

theorem denotes_constantT : DenotesBool ρ constantT true := ⟨rfl, rfl, rfl⟩

theorem denotes_bitAt {i : ℕ} (he : Denotes ρ e .reg32 x) (hi : i < 2 ^ 32) :
    DenotesBool ρ (exLCast (exShr e (exConst (BitVec.ofNat 32 i))) .reg1)
      (x.getLsbD i) := by
  have h := denotes_bit0 (he.shr (.const32 (BitVec.ofNat 32 i)))
  rw [BitVec.toNat_ofNat, Nat.mod_eq_of_lt hi, BitVec.getLsbD_ushiftRight,
    Nat.add_zero] at h
  exact h

theorem denotes_dataMask (ht : Narrow t) (he : Denotes ρ e .reg32 x) :
    Denotes ρ (exAnd e (dataMask t)) .reg32
      ((x.setWidth t.width).setWidth 32) := by
  rcases ht with rfl | rfl | rfl
  · exact mask_ff x ▸ he.and (.const32 0xff)
  · exact mask_ffff x ▸ he.and (.const32 0xffff)
  · have h := he.and (.const32 0xffffffff)
    have hall : x &&& 0xffffffff = x := BitVec.and_allOnes
    rw [hall] at h
    simpa [dataMask] using h

theorem denotes_signMask (ht : Narrow t) :
    Denotes ρ (signMask t) .reg32 ((BitVec.intMin t.width).setWidth 32) := by
  have h := Denotes.constOf (ρ := ρ) .reg32
    ((1#32 <<< (t.width - 1)).signExtend 64)
  have hmin : ((1#32 <<< (t.width - 1)).signExtend 64).setWidth 32 =
      (BitVec.intMin t.width).setWidth 32 := by
    rcases ht with rfl | rfl | rfl <;> decide
  exact hmin ▸ h

theorem denotes_signMask_sub (ht : Narrow t) :
    Denotes ρ (exSub (signMask t) (exConst 1)) .reg32
      ((BitVec.intMin t.width - 1).setWidth 32) := by
  have h := (denotes_signMask (ρ := ρ) ht).sub (.const32 1)
  have hmin : (BitVec.intMin t.width).setWidth 32 - 1 =
      (BitVec.intMin t.width - 1).setWidth 32 := by
    rcases ht with rfl | rfl | rfl <;> decide
  exact hmin ▸ h

end Helpers

end Fuzzball.Asmir.I386
