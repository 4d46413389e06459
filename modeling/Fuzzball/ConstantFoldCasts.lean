import Fuzzball.ConstantFoldAgreement

/-!
# Soundness of the rules for identities and casts

One lemma for each case of `constant_fold` that drops an identity element, joins
casts, or drops a mask that a cast makes redundant.
-/

namespace Fuzzball.Vine

variable {μ : Type*} [VineMemory μ] (ρ : Valuation μ)

/-! ## Identity and absorbing elements -/

theorem andZero_sound : andZero.Sound ρ := by
  intro e e' hw hn h
  unfold andZero at h
  split at h
  · rename_i x t c
    obtain ⟨rfl, rfl⟩ := rewriteIf_eq_ok_iff.mp h
    obtain ⟨-, ht, rfl⟩ := hw
    refine .intro x.typ.width rfl ht rfl ?_
    simp [Exp.eval]
  · simp at h

/-- A constant whose sign extension is all ones is all ones. -/
theorem setWidth_eq_allOnes
    {w : ℕ} (hw : w ≤ 64) {c : I64} (hc : (c.setWidth w).signExtend 64 = -1) :
    c.setWidth w = BitVec.allOnes w := by
  rw [← setWidth_signExtend hw (c.setWidth w), hc,
    show (-1 : I64) = BitVec.allOnes 64 from rfl]
  ext j hj
  simp only [BitVec.getElem_setWidth, BitVec.getLsbD_allOnes,
    BitVec.getElem_allOnes, decide_eq_true_eq]
  omega

theorem setWidth_one {w : ℕ} (hw : w ≤ 64) : (1 : I64).setWidth w = 1 := by
  simp [BitVec.setWidth_ofNat_of_le hw]

theorem setWidth_neg_one {w : ℕ} (hw : w ≤ 64) : (-1 : I64).setWidth w = -1 := by
  rw [BitVec.setWidth_neg_of_le hw, setWidth_one hw]

theorem one_ne_zero_of_pos {w : ℕ} (hw : 0 < w) : (1 : BitVec w) ≠ 0 := by
  have hlt : 1 < 2 ^ w := Nat.one_lt_two_pow (by omega)
  simp [← BitVec.toNat_inj, Nat.mod_eq_of_lt hlt]

theorem andOnes_sound : andOnes.Sound ρ := by
  intro e e' hw hn h
  unfold andOnes at h
  split at h
  · rename_i x v
    obtain ⟨hx, hv, hadm⟩ := hw
    cases v with
    | str s => exact hv.elim
    | int t c =>
      obtain rfl : t = x.typ := hadm
      simp only [tos64_int hv, OCaml.ok_bind, rewriteIf_eq_ok_iff] at h
      obtain ⟨hones, rfl⟩ := h
      refine .intro x.typ.width rfl hx rfl ?_
      simp [Exp.eval, setWidth_eq_allOnes x.typ.width_le hones]
  · simp at h

theorem orOnes_sound : orOnes.Sound ρ := by
  intro e e' hw hn h
  unfold orOnes at h
  split at h
  · rename_i x v
    obtain ⟨hx, hv, hadm⟩ := hw
    cases v with
    | str s => exact hv.elim
    | int t c =>
      obtain rfl : t = x.typ := hadm
      simp only [tos64_int hv, OCaml.ok_bind, rewriteIf_eq_ok_iff] at h
      obtain ⟨hones, rfl⟩ := h
      refine .intro x.typ.width rfl hv rfl ?_
      simp [Exp.eval, setWidth_eq_allOnes x.typ.width_le hones]
  · simp at h

theorem rightIdentity_sound
    {op : BinopType} {c : I64}
    (hop : (op, c) ∈ [(BinopType.bitor, (0 : I64)), (.xor, 0), (.plus, 0),
      (.lshift, 0), (.rshift, 0), (.arshift, 0), (.times, 1), (.divide, 1),
      (.sdivide, 1)]) : (rightIdentity op c).Sound ρ := by
  intro e e' hw hn h
  unfold rightIdentity at h
  split at h
  · rename_i op' x t c'
    obtain ⟨⟨rfl, rfl⟩, rfl⟩ := rewriteIf_eq_ok_iff.mp h
    obtain ⟨hx, ht, hadm⟩ := hw
    have hone := setWidth_one x.typ.width_le
    have hne := one_ne_zero_of_pos hx.isReg.width_pos
    simp only [List.mem_cons, Prod.mk.injEq, List.not_mem_nil, or_false] at hop
    rcases hop with ⟨rfl, rfl⟩ | ⟨rfl, rfl⟩ | ⟨rfl, rfl⟩ | ⟨rfl, rfl⟩ |
      ⟨rfl, rfl⟩ | ⟨rfl, rfl⟩ | ⟨rfl, rfl⟩ | ⟨rfl, rfl⟩ | ⟨rfl, rfl⟩
    all_goals refine .intro x.typ.width rfl hx rfl ?_
    case inr.inr.inr.inr.inr.inr.inr.inl =>
      rw [Exp.eval, Exp.eval, hone, smtUDiv_eq_udiv hne]
      exact BitVec.udiv_one.symm
    case inr.inr.inr.inr.inr.inr.inr.inr =>
      rw [Exp.eval, Exp.eval, hone, smtSDiv_eq_sdiv hne]
      exact BitVec.sdiv_one.symm
    case inr.inr.inr.inr.inr.inr.inl =>
      rw [Exp.eval, Exp.eval, hone]
      exact (BitVec.mul_one _).symm
    all_goals simp [Exp.eval]
  · simp at h

theorem modOne_sound : modOne.Sound ρ := by
  intro e e' hw hn h
  unfold modOne at h
  split at h
  · rename_i op x t c
    obtain ⟨⟨hop, rfl⟩, rfl⟩ := rewriteIf_eq_ok_iff.mp h
    obtain ⟨hx, ht, hadm⟩ := hw
    have hone := setWidth_one x.typ.width_le
    rcases hop with rfl | rfl
    all_goals
      obtain rfl : t = x.typ := hadm
      refine .intro x.typ.width rfl ht rfl ?_
      rw [Exp.eval, Exp.eval, Exp.eval, hone]
    · simp
    · simp
  · simp at h

theorem notPredecessor_sound : notPredecessor.Sound ρ := by
  intro e e' hw hn h
  unfold notPredecessor at h
  split at h
  · rename_i x t c
    obtain ⟨rfl, rfl⟩ := rewriteIf_eq_ok_iff.mp h
    obtain ⟨hx, ht, rfl⟩ := hw
    refine .intro x.typ.width rfl hx rfl ?_
    rw [Exp.eval, Exp.eval, Exp.eval, Exp.eval, setWidth_neg_one x.typ.width_le,
      BitVec.not_eq_neg_add]
    generalize x.eval ρ x.typ.width = b
    change -b = -(b + -1) - 1
    ring
  · simp at h

theorem involution_sound (op : UnopType) : (involution op).Sound ρ := by
  intro e e' hw hn h
  unfold involution at h
  split at h
  · rename_i op1 op2 x
    obtain ⟨⟨rfl, rfl⟩, rfl⟩ := rewriteIf_eq_ok_iff.mp h
    refine .intro x.typ.width rfl hw rfl ?_
    cases op2 <;> simp [Exp.eval]
  · simp at h

/-! ## Casts -/

theorem CastType.Admits.trans
    {ct : CastType} {t1 t2 t3 : Typ} (h12 : ct.Admits t2 t1)
    (h23 : ct.Admits t3 t2) : ct.Admits t3 t1 := by
  cases ct
  · exact le_trans h12 h23
  · exact le_trans h12 h23
  · exact le_trans h23 h12
  · exact le_trans h23 h12

theorem doubleCast_sound : doubleCast.Sound ρ := by
  intro e e' hw hn h
  unfold doubleCast at h
  split at h
  · rename_i ct2 w2 ct1 t1 e1
    obtain ⟨rfl, rfl⟩ := rewriteIf_eq_ok_iff.mp h
    obtain ⟨⟨he, ht1, hadm1⟩, ht2, hadm2⟩ := hw
    refine .intro w2.width rfl ⟨he, ht2, hadm1.trans hadm2⟩ rfl ?_
    cases ct1 with
    | castUnsigned => exact (Bits.setWidth_setWidth_of_ge hadm1 _).symm
    | castSigned => exact (Bits.signExtend_signExtend hadm1 hadm2 _).symm
    | castHigh => exact (Bits.high_high hadm1 hadm2 _).symm
    | castLow => exact (BitVec.setWidth_setWidth_of_le _ hadm2).symm
  · simp at h

theorem narrowToOrigin_sound
    {ct : CastType} (hct : ct = .castUnsigned ∨ ct = .castSigned) :
    (narrowToOrigin ct).Sound ρ := by
  intro e e' hw hn h
  unfold narrowToOrigin at h
  split at h
  · rename_i t2 ct' t1 e1
    obtain ⟨⟨he, ht1, hadm1⟩, ht2, hadm2⟩ := hw
    rw [ite_none_eq_ok_iff, rewriteIfType_eq_ok_iff he] at h
    obtain ⟨rfl, rfl, rfl⟩ := h
    refine .intro e1.typ.width rfl he rfl ?_
    rcases hct with rfl | rfl
    · exact (Bits.setWidth_setWidth_self hadm1 _).symm
    · exact (Bits.setWidth_signExtend_self hadm1 _).symm
  · simp at h

theorem narrowBelowOrigin_sound : narrowBelowOrigin.Sound ρ := by
  intro e e' hw hn h
  unfold narrowBelowOrigin at h
  split at h
  · rename_i t2 ct t1 e1
    obtain ⟨⟨he, ht1, hadm1⟩, ht2, hadm2⟩ := hw
    simp only [ite_none_eq_ok_iff, ht2.bitsOfWidth_eq, he.inferType_eq,
      he.isReg.bitsOfWidth_eq, OCaml.ok_bind, rewriteIf_eq_ok_iff] at h
    obtain ⟨hct, hlt, rfl⟩ := h
    refine .intro t2.width rfl ⟨he, ht2, hlt.le⟩ rfl ?_
    rcases hct with rfl | rfl
    · exact (Bits.setWidth_signExtend_of_le hadm1 hlt.le _).symm
    · exact (Bits.setWidth_setWidth_of_ge hadm1 _).symm
  · simp at h

theorem narrowAboveOrigin_sound : narrowAboveOrigin.Sound ρ := by
  intro e e' hw hn h
  unfold narrowAboveOrigin at h
  split at h
  · rename_i t1 ct t2 e1
    obtain ⟨⟨he, ht2, hadm2⟩, ht1, hadm1⟩ := hw
    simp only [ite_none_eq_ok_iff, ht1.bitsOfWidth_eq, he.inferType_eq,
      he.isReg.bitsOfWidth_eq, OCaml.ok_bind, rewriteIf_eq_ok_iff] at h
    obtain ⟨hct, hle, rfl⟩ := h
    rcases hct with rfl | rfl
    · refine .intro t1.width rfl ⟨he, ht1, hle⟩ rfl ?_
      exact (Bits.setWidth_signExtend_of_ge hadm1 _).symm
    · refine .intro t1.width rfl ⟨he, ht1, hle⟩ rfl ?_
      exact (Bits.setWidth_setWidth_of_ge hadm2 _).symm
  · simp at h

theorem highOfUnsigned_sound : highOfUnsigned.Sound ρ := by
  intro e e' hw hn h
  unfold highOfUnsigned at h
  split at h
  · rename_i t1 t2 e3
    obtain ⟨⟨he, ht2, hadm2⟩, ht1, hadm1⟩ := hw
    simp only [ht1.bitsOfWidth_eq, ht2.bitsOfWidth_eq, he.inferType_eq,
      he.isReg.bitsOfWidth_eq, OCaml.ok_bind, rewriteIf_eq_ok_iff] at h
    obtain ⟨hle, rfl⟩ := h
    refine .intro t1.width rfl ht1 rfl ?_
    rw [eval_zero, eval_castHigh (n := t2.width) rfl,
      eval_castUnsigned (n := e3.typ.width) rfl]
    exact (Bits.high_setWidth_eq_zero (by omega) _).symm
  · simp at h

theorem signOfSigned_sound : signOfSigned.Sound ρ := by
  intro e e' hw hn h
  unfold signOfSigned at h
  split at h
  · rename_i t2 e1
    obtain ⟨⟨he, ht2, hadm2⟩, ht1, hadm1⟩ := hw
    obtain rfl : Exp.cast .castHigh .reg1 e1 = e' := by simpa using h
    refine .intro 1 rfl ⟨he, ht1, he.width_pos⟩ rfl ?_
    exact (Bits.high_one_signExtend he.width_pos hadm2 _).symm
  · simp at h

theorem signedOfUnsigned_sound : signedOfUnsigned.Sound ρ := by
  intro e e' hw hn h
  unfold signedOfUnsigned at h
  split at h
  · rename_i t1 t2 e3
    obtain ⟨⟨he, ht2, hadm2⟩, ht1, hadm1⟩ := hw
    simp only [ht2.bitsOfWidth_eq, he.inferType_eq,
      he.isReg.bitsOfWidth_eq, OCaml.ok_bind, rewriteIf_eq_ok_iff] at h
    obtain ⟨hlt, rfl⟩ := h
    refine .intro t1.width rfl ⟨he, ht1, le_trans hadm2 hadm1⟩ rfl ?_
    exact (Bits.signExtend_setWidth hlt _).symm
  · simp at h

theorem flipBool_spec {e : Exp} (he : e.WellTyped) (ht : e.typ = .reg1) :
    (flipBool e).WellTyped ∧ (flipBool e).typ = .reg1 ∧
      (flipBool e).eval ρ 1 = ~~~e.eval ρ 1 := by
  unfold flipBool
  split
  · exact ⟨he, ht, by simp [Exp.eval]⟩
  · exact ⟨he, ht, rfl⟩

theorem extendEqZero_sound : extendEqZero.Sound ρ := by
  intro e e' hw hn h
  unfold extendEqZero at h
  split at h
  · rename_i ct t e1 t' c
    obtain ⟨⟨he, ht, hadm⟩, ht', rfl⟩ := hw
    rw [ite_none_eq_ok_iff, rewriteIfType_eq_ok_iff he] at h
    obtain ⟨⟨hct, rfl⟩, hreg, rfl⟩ := h
    obtain ⟨hwell, htyp, hflip⟩ := flipBool_spec ρ he hreg
    refine .intro 1 rfl hwell htyp ?_
    have hbool : ∀ b : BitVec 1, ~~~b = flag 1 (b == 0) := by decide
    have hle : 1 ≤ t'.width := Typ.IsReg.width_pos ht'
    refine hflip.trans ((hbool _).trans ?_)
    rw [eval_eq (n := t'.width) rfl, eval_zero]
    congr 1
    apply beq_congr
    rcases hct with rfl | rfl
    · rw [eval_castSigned (width_of_typ hreg)]
      exact (Bits.signExtend_eq_zero_iff hle _).symm
    · rw [eval_castUnsigned (width_of_typ hreg)]
      exact (Bits.setWidth_eq_zero_iff hle _).symm
  · simp at h

/-! ## Casts and masks -/

theorem maskOfExtend_sound
    {ct : CastType} (hct : ct = .castUnsigned ∨ ct = .castSigned) {t : Typ}
    {mask : I64} (hmask : (mask.setWidth 32).toNat = 2 ^ t.width - 1) :
    (maskOfExtend ct t mask).Sound ρ := by
  intro e e' hw hn h
  unfold maskOfExtend at h
  split at h
  · rename_i ct' e1 c
    obtain ⟨⟨he, ht32, hadm⟩, -, -⟩ := hw
    rw [ite_none_eq_ok_iff, rewriteIfType_eq_ok_iff he] at h
    obtain ⟨⟨rfl, rfl⟩, rfl, rfl⟩ := h
    have hle : e1.typ.width ≤ 32 := by rcases hct with rfl | rfl <;> exact hadm
    refine .intro 32 rfl ⟨he, trivial, hle⟩ rfl ?_
    rw [eval_bitand, eval_int, Bits.and_lowMask _ _ _ hmask,
      eval_castUnsigned (n := e1.typ.width) rfl]
    congr 1
    rcases hct with rfl | rfl
    · rw [eval_castUnsigned (n := e1.typ.width) rfl,
        Bits.setWidth_setWidth_self hle]
    · rw [eval_castSigned (n := e1.typ.width) rfl,
        Bits.setWidth_signExtend_self hle]
  · simp at h

theorem maskOfShiftedByte_sound
    {amt mask : I64}
    (hmem : (amt, mask) ∈ [((0x8 : I64), (0xff00 : I64)), (0x10, 0xff0000),
      (0x18, 0xff000000)]) : (maskOfShiftedByte amt mask).Sound ρ := by
  intro e e' hw hn h
  unfold maskOfShiftedByte at h
  split at h
  · rename_i e1 s c
    obtain ⟨⟨⟨he, -, hadm⟩, -⟩, -, -⟩ := hw
    rw [ite_none_eq_ok_iff, rewriteIfType_eq_ok_iff he] at h
    obtain ⟨⟨rfl, rfl⟩, ht, rfl⟩ := h
    have hs : s.toNat < 2 ^ Typ.reg8.width ∧ s.toNat < 2 ^ Typ.reg32.width ∧
        c.setWidth 32 = (0xff : BitVec 32) <<< s.toNat := by
      simp only [List.mem_cons, Prod.mk.injEq, List.not_mem_nil, or_false] at hmem
      rcases hmem with ⟨rfl, rfl⟩ | ⟨rfl, rfl⟩ | ⟨rfl, rfl⟩ <;> decide
    refine .intro 32 rfl ⟨⟨he, trivial, hadm⟩, trivial, trivial⟩ rfl ?_
    rw [eval_bitand, eval_lshift_int hs.2.1, eval_lshift_int hs.1, eval_int,
      hs.2.2, eval_castUnsigned (width_of_typ ht), ← BitVec.shiftLeft_and_distrib,
      Bits.and_lowMask 8 _ _ rfl, Typ.width_reg8,
      Bits.setWidth_setWidth_self (n := 8) (m := 32) (by decide)]
  · simp at h

theorem lowOfMask_sound
    {t : Typ} {mask : I64} (ht : t.IsReg)
    (hmask : mask.setWidth t.width = BitVec.allOnes t.width) :
    (lowOfMask t mask).Sound ρ := by
  intro e e' hw hn h
  unfold lowOfMask at h
  split at h
  · rename_i t' e1 t1 c
    obtain ⟨⟨he, -, ht1⟩, -, hadm⟩ := hw
    obtain ⟨⟨rfl, rfl⟩, rfl⟩ := rewriteIf_eq_ok_iff.mp h
    have hle : t'.width ≤ e1.typ.width := hadm
    refine .intro t'.width rfl ⟨he, ht, hadm⟩ rfl ?_
    rw [eval_castLow (n := e1.typ.width) rfl,
      eval_castLow (a := .binOp .bitand e1 _) (n := e1.typ.width) rfl,
      eval_bitand, eval_int, BitVec.setWidth_and,
      BitVec.setWidth_setWidth_of_le c hle, hmask, BitVec.and_allOnes]
  · simp at h

/-- An unsigned number above a width is at least that width as a signed one. -/
theorem le_toNat_of_sle {b : ℕ} (hb : b ≤ 64) {amt : I64}
    (h : (BitVec.ofNat 64 b).sle amt = true) : b ≤ amt.toNat := by
  have hmod : b % 2 ^ 64 = b := Nat.mod_eq_of_lt (by omega)
  simp only [BitVec.sle, BitVec.toInt_eq_toNat_cond, BitVec.toNat_ofNat,
    decide_eq_true_eq, hmod] at h
  omega

theorem lowOfShift_sound : lowOfShift.Sound ρ := by
  intro e e' hw hn h
  unfold lowOfShift at h
  split at h
  · rename_i cty e1 t2 amt
    obtain ⟨⟨he, ht2, -⟩, hcty, hadm⟩ := hw
    obtain ⟨-, hamt⟩ := hn
    simp only [hcty.bitsOfWidth_eq, OCaml.ok_bind, rewriteIf_eq_ok_iff] at h
    obtain ⟨hsle, rfl⟩ := h
    have hle := le_toNat_of_sle cty.width_le hsle
    refine .intro cty.width rfl hcty rfl ?_
    rw [eval_zero, eval_castLow (a := .binOp .lshift e1 _) (n := e1.typ.width) rfl,
      eval_lshift_int hamt]
    ext j hj
    simp [show j < amt.toNat by omega]
  · simp at h

theorem maskCoversExtend_sound
    {wide : List Typ} {t : Typ} {low : I64}
    (hlow : ∀ t' ∈ wide, (low.setWidth t'.width).toNat = 2 ^ t.width - 1) :
    (maskCoversExtend wide t low).Sound ρ := by
  intro e e' hw hn h
  unfold maskCoversExtend at h
  split at h
  · rename_i t' e1 t2 mask
    obtain ⟨hcast, ht2, hadm⟩ := hw
    obtain ⟨he, ht', hle⟩ := hcast
    simp only [ite_none_eq_ok_iff, he.inferType_eq, OCaml.ok_bind,
      rewriteIf_eq_ok_iff] at h
    obtain ⟨hmem, ⟨rfl, hmask⟩, rfl⟩ := h
    refine .intro t'.width rfl ⟨he, ht', hle⟩ rfl ?_
    have hself : (e1.eval ρ e1.typ.width).setWidth t'.width &&&
        low.setWidth t'.width = (e1.eval ρ e1.typ.width).setWidth t'.width := by
      rw [Bits.and_lowMask _ _ _ (hlow t' hmem), Bits.setWidth_setWidth_self hle]
    rw [eval_bitand, eval_int, eval_castUnsigned (n := e1.typ.width) rfl, ← hself,
      BitVec.and_assoc, ← BitVec.setWidth_and, BitVec.and_comm low, hmask]
  · simp at h

theorem signExtendByShifts_sound
    {wide narrow : Typ} {s1 s2 : I64} (hwide : wide.IsReg)
    (hwidth : wide.width = narrow.width + narrow.width)
    (hs1 : s1.toNat + 1 = narrow.width) (hs2 : s2.toNat = narrow.width) :
    (signExtendByShifts wide narrow s1 s2).Sound ρ := by
  intro e e' hw hn h
  unfold signExtendByShifts at h
  split at h
  · rename_i t e1 t' e2 ty1 c1 ty2 c2
    obtain ⟨⟨he, -, hadm⟩, -⟩ := hw
    obtain ⟨-, ⟨-, hc1⟩, hc2⟩ := hn
    rw [ite_none_eq_ok_iff, rewriteIfType_eq_ok_iff he] at h
    obtain ⟨⟨⟨rfl, rfl, rfl, rfl⟩, rfl⟩, rfl, rfl⟩ := h
    refine .intro t'.width rfl ⟨he, hwide, hadm⟩ rfl ?_
    rw [eval_bitor, eval_lshift_int hc2, eval_castSigned (n := e1.typ.width) rfl,
      eval_castUnsigned (n := e1.typ.width) rfl,
      eval_castUnsigned (a := .binOp .arshift e1 _) (n := e1.typ.width) rfl,
      eval_arshift_int hc1, hs2, show c1.toNat = e1.typ.width - 1 by omega]
    exact Bits.signExtend_double he.width_pos hwidth _
  · simp at h

theorem maskDiscardsByte_sound : maskDiscardsByte.Sound ρ := by
  intro e e' hw hn h
  unfold maskDiscardsByte at h
  split at h
  · rename_i e1 e2 c
    obtain ⟨⟨⟨he, -, hadm⟩, he2, ht2⟩, -, -⟩ := hw
    rw [ite_none_eq_ok_iff, rewriteIfType_eq_ok_iff he] at h
    obtain ⟨rfl, ht, rfl⟩ := h
    refine .intro 32 rfl ⟨he2, trivial, ht2.symm⟩ ht2 ?_
    have hand : (e1.eval ρ 8).setWidth 32 &&& (0xffffff00 : I64).setWidth 32 = 0 :=
      Bits.setWidth_and_highMask _ _ (by decide)
    rw [eval_bitand, eval_bitand, eval_bitor, eval_int,
      eval_castUnsigned (width_of_typ ht), BitVec.and_or_distrib_right]
    rw [Typ.width_reg8, hand]
    exact BitVec.zero_or.symm
  · simp at h

theorem impossibleEq_sound
    {ct : CastType} {wide : List Typ} {t : Typ} {fix : I64 → I64}
    (hfix : ∀ t' ∈ wide, ∀ x : BitVec t.width,
      (ct = .castUnsigned ∧
        fix ((x.setWidth t'.width).setWidth 64) =
          (x.setWidth t'.width).setWidth 64) ∨
      (ct = .castSigned ∧
        fix ((x.signExtend t'.width).setWidth 64) =
          (x.signExtend t'.width).setWidth 64)) :
    (impossibleEq ct wide t fix).Sound ρ := by
  intro e e' hw hn h
  unfold impossibleEq at h
  split at h
  · rename_i ct' t' e1 t2 c
    obtain ⟨⟨he, ht', -⟩, ht2, hty⟩ := hw
    obtain rfl : t2 = t' := hty
    obtain ⟨-, hc⟩ := hn
    simp only [ite_none_eq_ok_iff, he.inferType_eq, OCaml.ok_bind,
      rewriteIf_eq_ok_iff] at h
    obtain ⟨⟨rfl, hmem⟩, ⟨rfl, hne⟩, rfl⟩ := h
    refine .intro 1 rfl trivial rfl ?_
    rw [eval_eq (n := t2.width) rfl, eval_int]
    have hstored : c = (c.setWidth t2.width).setWidth 64 := by
      apply BitVec.eq_of_toNat_eq
      rw [toNat_zeroExtend t2.width_le, toNat_setWidth_of_normal hc]
    have hvalue : (Exp.cast ct' t2 e1).eval ρ t2.width ≠ c.setWidth t2.width := by
      intro heq
      apply hne
      rw [hstored, ← heq]
      rcases hfix t2 hmem (e1.eval ρ e1.typ.width) with ⟨rfl, hx⟩ | ⟨rfl, hx⟩
      · exact hx.symm
      · exact hx.symm
    rw [beq_eq_false_iff_ne.mpr hvalue]
    rfl
  · simp at h

theorem trivialCast_sound : trivialCast.Sound ρ := by
  intro e e' hw hn h
  unfold trivialCast at h
  split at h
  · rename_i ct ty e1
    obtain ⟨he, ht, hadm⟩ := hw
    rw [rewriteIfType_eq_ok_iff he] at h
    obtain ⟨rfl, rfl⟩ := h
    refine .intro e1.typ.width rfl he rfl ?_
    cases ct with
    | castUnsigned => exact (BitVec.setWidth_eq _).symm
    | castSigned => exact (BitVec.signExtend_eq _).symm
    | castHigh => exact (Bits.high_self _).symm
    | castLow => exact (BitVec.setWidth_eq _).symm
  · simp at h

theorem fixU8_eq (x : I64) : fixU8 x = (x.setWidth 8).setWidth 64 :=
  Bits.and_lowMask 8 x 0xff rfl

theorem fixU16_eq (x : I64) : fixU16 x = (x.setWidth 16).setWidth 64 :=
  Bits.and_lowMask 16 x 0xffff rfl

theorem fixU32_eq (x : I64) : fixU32 x = (x.setWidth 32).setWidth 64 :=
  Bits.and_lowMask 32 x 0xffffffff rfl

theorem fixS8_eq (x : I64) : fixS8 x = (x.setWidth 8).signExtend 64 := by
  have h := tos64_int (t := .reg8) trivial x
  exact Except.ok.inj h

theorem fixS16_eq (x : I64) : fixS16 x = (x.setWidth 16).signExtend 64 := by
  have h := tos64_int (t := .reg16) trivial x
  exact Except.ok.inj h

theorem fixS32_eq (x : I64) : fixS32 x = (x.setWidth 32).signExtend 64 := by
  have h := tos64_int (t := .reg32) trivial x
  exact Except.ok.inj h

theorem impossibleEq_unsigned_sound
    {wide : List Typ} {t : Typ} {fix : I64 → I64}
    (hwide : ∀ t' ∈ wide, t.width ≤ t'.width)
    (hfix : ∀ c, fix c = (c.setWidth t.width).setWidth 64) :
    (impossibleEq .castUnsigned wide t fix).Sound ρ := by
  apply impossibleEq_sound
  intro t' ht' x
  refine .inl ⟨rfl, ?_⟩
  rw [hfix, Bits.zeroExtend_low (hwide t' ht') t.width_le]

theorem impossibleEq_signed_sound
    {t t' : Typ} {fix : I64 → I64} (hle : t.width ≤ t'.width)
    (hfix : ∀ c, fix c =
      (((c.setWidth t.width).signExtend 64).setWidth t'.width).setWidth 64) :
    (impossibleEq .castSigned [t'] t fix).Sound ρ := by
  apply impossibleEq_sound
  intro t'' ht'' x
  obtain rfl : t'' = t' := by simpa using ht''
  refine .inr ⟨rfl, ?_⟩
  rw [hfix, Bits.signExtend_low hle t''.width_le]

theorem impossibleEqRules_sound : ∀ r ∈ impossibleEqRules, r.Sound ρ := by
  intro r hr
  simp only [impossibleEqRules, List.mem_cons, List.not_mem_nil, or_false] at hr
  rcases hr with rfl | rfl | rfl | rfl | rfl | rfl | rfl | rfl | rfl
  · exact impossibleEq_unsigned_sound ρ (by decide) fixU8_eq
  · exact impossibleEq_signed_sound ρ (by decide) fun c => by
      rw [fixU16_eq, fixS8_eq]; rfl
  · exact impossibleEq_signed_sound ρ (by decide) fun c => by
      rw [fixU32_eq, fixS8_eq]; rfl
  · exact impossibleEq_signed_sound ρ (by decide) fun c => by
      rw [fixS8_eq]; simp
  · exact impossibleEq_unsigned_sound ρ (by decide) fixU16_eq
  · exact impossibleEq_signed_sound ρ (by decide) fun c => by
      rw [fixU32_eq, fixS16_eq]; rfl
  · exact impossibleEq_signed_sound ρ (by decide) fun c => by
      rw [fixS16_eq]; simp
  · exact impossibleEq_unsigned_sound ρ (by decide) fixU32_eq
  · exact impossibleEq_signed_sound ρ (by decide) fun c => by
      rw [fixS32_eq]; simp

/-! ## The groups of rules -/

theorem identityRules_sound : ∀ r ∈ identityRules, r.Sound ρ := by
  simp only [identityRules, List.forall_mem_cons]
  refine ⟨andZero_sound ρ, andOnes_sound ρ, rightIdentity_sound ρ (by simp),
    orOnes_sound ρ, rightIdentity_sound ρ (by simp),
    rightIdentity_sound ρ (by simp), rightIdentity_sound ρ (by simp),
    rightIdentity_sound ρ (by simp), rightIdentity_sound ρ (by simp),
    rightIdentity_sound ρ (by simp), rightIdentity_sound ρ (by simp),
    rightIdentity_sound ρ (by simp), modOne_sound ρ, notPredecessor_sound ρ,
    involution_sound ρ .neg, involution_sound ρ .not, by simp⟩

theorem castRules_sound : ∀ r ∈ castRules, r.Sound ρ := by
  simp only [castRules, List.forall_mem_cons]
  exact ⟨doubleCast_sound ρ, narrowToOrigin_sound ρ (.inl rfl),
    narrowToOrigin_sound ρ (.inr rfl), narrowBelowOrigin_sound ρ,
    narrowAboveOrigin_sound ρ, highOfUnsigned_sound ρ, signOfSigned_sound ρ,
    signedOfUnsigned_sound ρ, extendEqZero_sound ρ, by simp⟩

/-- Every rule for masks is sound where `signExtendByMask` is. -/
theorem maskRules_soundOn
    {e : Exp} (hmask : signExtendByMask.SoundOn ρ e) :
    ∀ r ∈ maskRules, r.SoundOn ρ e := by
  simp only [maskRules, List.forall_mem_cons]
  refine ⟨maskOfExtend_sound ρ (.inl rfl) (by decide) e,
    maskOfExtend_sound ρ (.inl rfl) (by decide) e,
    maskOfExtend_sound ρ (.inr rfl) (by decide) e,
    maskOfExtend_sound ρ (.inr rfl) (by decide) e,
    maskOfShiftedByte_sound ρ (by simp) e, maskOfShiftedByte_sound ρ (by simp) e,
    maskOfShiftedByte_sound ρ (by simp) e,
    lowOfMask_sound ρ (by decide) (by decide) e,
    lowOfMask_sound ρ (by decide) (by decide) e,
    lowOfMask_sound ρ (by decide) (by decide) e, lowOfShift_sound ρ e,
    maskCoversExtend_sound ρ (by decide) e, maskCoversExtend_sound ρ (by decide) e,
    maskCoversExtend_sound ρ (by decide) e,
    signExtendByShifts_sound ρ (by decide) rfl rfl rfl e,
    signExtendByShifts_sound ρ (by decide) rfl rfl rfl e,
    signExtendByShifts_sound ρ (by decide) rfl rfl rfl e, hmask,
    maskDiscardsByte_sound ρ e, by simp⟩

end Fuzzball.Vine
