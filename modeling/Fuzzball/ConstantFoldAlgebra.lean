import Fuzzball.ConstantFoldCasts

/-!
# Soundness of the rules for conditionals and arithmetic

One lemma for each case of `constant_fold` about lookups, conditionals,
concatenations, repeated operands, sums and comparisons with zero that is right
on every well-typed expression.
-/

namespace Fuzzball.Vine

variable {μ : Type*} [VineMemory μ] (ρ : Valuation μ)

/-! ## Variables and conditionals -/

/-- The lookup context returns definitions that are true in the valuation. -/
def ContextTrue (ρ : Valuation μ) (ctx : LValue → Option Exp) : Prop :=
  ∀ lv c, ctx lv = some c → lv.toExp.WellTyped → lv.toExp.Agrees ρ c

theorem Exp.Agrees.refl {e : Exp} (he : e.WellTyped) : e.Agrees ρ e :=
  ⟨he, rfl, rfl⟩

theorem lookup_sound {ctx : LValue → Option Exp} (hctx : ContextTrue ρ ctx) :
    (lookup ctx).Sound ρ := by
  intro e e' hw hn h
  unfold lookup at h
  split at h
  · rename_i v
    obtain rfl : (ctx (.temp v)).getD (.temp v) = e' := by simpa using h
    cases hv : ctx (.temp v) with
    | none => exact .refl ρ hw
    | some c => exact hctx _ c hv hw
  · rename_i v addr t
    obtain rfl : (ctx (.mem v addr t)).getD (.mem v addr t) = e' := by
      simpa using h
    cases hv : ctx (.mem v addr t) with
    | none => exact .refl ρ hw
    | some c => exact hctx _ c hv hw
  · simp at h

theorem eval_ite {c a b : Exp} {w : ℕ} :
    (Exp.ite c a b).eval ρ w =
      if c.eval ρ 1 = 1 then a.eval ρ w else b.eval ρ w := rfl

theorem bit_cases (b : BitVec 1) : b = 0 ∨ b = 1 := by
  revert b
  decide

theorem iteConstant_sound : iteConstant.Sound ρ := by
  intro e e' hw hn h
  unfold iteConstant at h
  split at h
  · rename_i t v e1 e2
    obtain ⟨-, h1, h2, hreg, hty⟩ := hw
    obtain rfl : t = .reg1 := hreg
    have hv : v.toNat < 2 := hn.1
    obtain rfl : (if v ≠ 0 then e1 else e2) = e' := by simpa using h
    have hcond : v.setWidth 1 = 1 ↔ v ≠ 0 := by
      simp only [← BitVec.toNat_inj, ne_eq, BitVec.toNat_setWidth]
      simp
      omega
    by_cases hzero : v ≠ 0
    · refine .intro e1.typ.width rfl (by rwa [if_pos hzero]) (by rw [if_pos hzero]; rfl) ?_
      rw [if_pos hzero, eval_ite, eval_int, if_pos (hcond.mpr hzero)]
    · refine .intro e1.typ.width rfl (by rwa [if_neg hzero])
        (by rw [if_neg hzero]; exact hty) ?_
      rw [if_neg hzero, eval_ite, eval_int, if_neg (mt hcond.mp hzero)]
  · simp at h

theorem iteSame_sound : iteSame.Sound ρ := by
  intro e e' hw hn h
  unfold iteSame at h
  split at h
  · rename_i c e1 e2
    obtain ⟨rfl, rfl⟩ := rewriteIf_eq_ok_iff.mp h
    refine .intro e1.typ.width rfl hw.2.1 rfl ?_
    rw [eval_ite, ite_self]
  · simp at h

theorem iteNot_sound : iteNot.Sound ρ := by
  intro e e' hw hn h
  unfold iteNot at h
  split at h
  · rename_i c x y
    obtain ⟨hc, hx, hy, hreg, hty⟩ := hw
    obtain rfl : Exp.ite c y x = e' := by simpa using h
    refine .intro x.typ.width rfl ⟨hc, hy, hx, hreg, hty.symm⟩ hty ?_
    have hnot : (Exp.unOp .not c).eval ρ 1 = ~~~c.eval ρ 1 := rfl
    rw [eval_ite, eval_ite, hnot]
    rcases bit_cases (c.eval ρ 1) with hb | hb <;> rw [hb] <;> rfl
  · simp at h

theorem iteTrueFalse_sound : iteTrueFalse.Sound ρ := by
  intro e e' hw hn h
  unfold iteTrueFalse at h
  split at h
  · rename_i c a b
    obtain ⟨⟨rfl, rfl⟩, rfl⟩ := rewriteIf_eq_ok_iff.mp h
    refine .intro 1 rfl hw.1 hw.2.2.2.1 ?_
    rw [eval_ite]
    rcases bit_cases (c.eval ρ 1) with hb | hb <;> rw [hb] <;> rfl
  · simp at h

theorem iteFalseTrue_sound : iteFalseTrue.Sound ρ := by
  intro e e' hw hn h
  unfold iteFalseTrue at h
  split at h
  · rename_i c a b
    obtain ⟨⟨rfl, rfl⟩, rfl⟩ := rewriteIf_eq_ok_iff.mp h
    refine .intro 1 rfl hw.1 hw.2.2.2.1 ?_
    have hnot : (Exp.unOp .not c).eval ρ 1 = ~~~c.eval ρ 1 := rfl
    rw [eval_ite, hnot]
    rcases bit_cases (c.eval ρ 1) with hb | hb <;> rw [hb] <;> rfl
  · simp at h

theorem iteTrueOr_sound : iteTrueOr.Sound ρ := by
  intro e e' hw hn h
  unfold iteTrueOr at h
  split at h
  · rename_i c a b
    obtain ⟨hc, -, hb, hreg, hty⟩ := hw
    obtain ⟨rfl, rfl⟩ := rewriteIf_eq_ok_iff.mp h
    refine .intro 1 rfl ⟨hc, hb, hty.trans hreg.symm⟩ hreg ?_
    rw [eval_ite, eval_bitor, eval_int]
    rcases bit_cases (c.eval ρ 1) with h1 | h1 <;>
      rcases bit_cases (b.eval ρ 1) with h2 | h2 <;> rw [h1, h2] <;> rfl
  · simp at h

theorem iteAndFalse_sound : iteAndFalse.Sound ρ := by
  intro e e' hw hn h
  unfold iteAndFalse at h
  split at h
  · rename_i c b a
    obtain ⟨hc, hb, -, hreg, hty⟩ := hw
    obtain ⟨rfl, rfl⟩ := rewriteIf_eq_ok_iff.mp h
    have hbreg : b.typ = .reg1 := hty.symm
    refine .intro 1 (width_of_typ hbreg) ⟨hc, hb, hbreg.trans hreg.symm⟩
      (hreg.trans hbreg.symm) ?_
    rw [eval_ite, eval_bitand, eval_int]
    rcases bit_cases (c.eval ρ 1) with h1 | h1 <;>
      rcases bit_cases (b.eval ρ 1) with h2 | h2 <;> rw [h1, h2] <;> rfl
  · simp at h

theorem castIte_sound : castIte.Sound ρ := by
  intro e e' hw hn h
  unfold castIte at h
  split at h
  · rename_i ct ty c a b
    obtain ⟨⟨hc, ha, hb, hreg, hty⟩, ht, hadm⟩ := hw
    obtain rfl : Exp.ite c (.cast ct ty a) (.cast ct ty b) = e' := by
      simpa using h
    refine .intro ty.width rfl ⟨hc, ⟨ha, ht, hadm⟩, ⟨hb, ht, hty ▸ hadm⟩, hreg, rfl⟩
      rfl ?_
    have hwidth : b.typ.width = a.typ.width := congrArg Typ.width hty
    rw [eval_ite]
    cases ct with
    | castUnsigned =>
      rw [eval_castUnsigned (n := a.typ.width) rfl, eval_castUnsigned hwidth,
        eval_castUnsigned (a := .ite c a b) (n := a.typ.width) rfl, eval_ite,
        apply_ite (BitVec.setWidth ty.width)]
    | castSigned =>
      rw [eval_castSigned (n := a.typ.width) rfl, eval_castSigned hwidth,
        eval_castSigned (a := .ite c a b) (n := a.typ.width) rfl, eval_ite,
        apply_ite (BitVec.signExtend ty.width)]
    | castHigh =>
      rw [eval_castHigh (n := a.typ.width) rfl, eval_castHigh hwidth,
        eval_castHigh (a := .ite c a b) (n := a.typ.width) rfl, eval_ite,
        apply_ite (Bits.high ty.width)]
    | castLow =>
      rw [eval_castLow (n := a.typ.width) rfl, eval_castLow hwidth,
        eval_castLow (a := .ite c a b) (n := a.typ.width) rfl, eval_ite,
        apply_ite (BitVec.setWidth ty.width)]
  · simp at h

/-- An operation depends on its first operand by its width and its values. -/
theorem eval_binOp_congr
    {a a' b : Exp} (op : BinopType) (hwidth : a'.width = a.width)
    (hval : ∀ w, a'.eval ρ w = a.eval ρ w) (w : ℕ) :
    (Exp.binOp op a' b).eval ρ w = (Exp.binOp op a b).eval ρ w := by
  cases op <;> simp only [Exp.eval, hval] <;> rw [hwidth]

theorem binopIte_sound : binopIte.Sound ρ := by
  intro e e' hw hn h
  unfold binopIte at h
  split at h
  · rename_i op c a b k
    obtain ⟨⟨hc, ha, hb, hreg, hty⟩, hk, hadm⟩ := hw
    obtain ⟨-, rfl⟩ := rewriteIf_eq_ok_iff.mp h
    have hres : op.result b.typ = op.result a.typ := by rw [hty]
    refine .intro (op.result a.typ).width rfl
      ⟨hc, ⟨ha, hk, hadm⟩, ⟨hb, hk, hty.symm ▸ hadm⟩, hreg, hres⟩ rfl ?_
    rw [eval_ite]
    by_cases hcond : c.eval ρ 1 = 1
    · rw [if_pos hcond]
      apply eval_binOp_congr ρ op
      · rfl
      · intro w
        rw [eval_ite, if_pos hcond]
    · rw [if_neg hcond]
      apply eval_binOp_congr ρ op
      · exact width_of_typ hty
      · intro w
        rw [eval_ite, if_neg hcond]
  · simp at h

/-! ## Concatenation -/

theorem double_width {t : Typ} (ht : t = .reg8 ∨ t = .reg16 ∨ t = .reg32) :
    t.double.width = t.width + t.width := by
  rcases ht with rfl | rfl | rfl <;> rfl

theorem lowOfConcat_sound (t : Typ) : (lowOfConcat t).Sound ρ := by
  intro e e' hw hn h
  unfold lowOfConcat at h
  split at h
  · rename_i t' a b
    obtain ⟨⟨ha, hb, hty, hreg⟩, -, hadm⟩ := hw
    rw [ite_none_eq_ok_iff, rewriteIfType_eq_ok_iff hb] at h
    obtain ⟨rfl, rfl, rfl⟩ := h
    have hle : b.typ.width ≤ a.typ.double.width := hadm
    refine .intro b.typ.width rfl hb rfl ?_
    rw [eval_castLow (a := .binOp .concat a b) (n := a.typ.double.width) rfl,
      eval_concat (n := a.typ.width) (m := b.typ.width) rfl rfl,
      BitVec.setWidth_setWidth_of_le _ hle, Bits.setWidth_append_of_le _ _ le_rfl,
      BitVec.setWidth_eq]
  · simp at h

theorem highOfConcat_sound (t : Typ) : (highOfConcat t).Sound ρ := by
  intro e e' hw hn h
  unfold highOfConcat at h
  split at h
  · rename_i t' a b
    obtain ⟨⟨ha, hb, hty, hreg⟩, -, hadm⟩ := hw
    rw [ite_none_eq_ok_iff, rewriteIfType_eq_ok_iff ha] at h
    obtain ⟨rfl, rfl, rfl⟩ := h
    have hwidth : a.typ.double.width = a.typ.width + b.typ.width := by
      rw [hty, double_width hreg]
    refine .intro a.typ.width rfl ha rfl ?_
    rw [eval_castHigh (a := .binOp .concat a b) (n := a.typ.double.width) rfl,
      eval_concat (n := a.typ.width) (m := b.typ.width) rfl rfl,
      Bits.high_setWidth_append _ _ hwidth le_rfl, Bits.high_self]
  · simp at h

theorem lowBitOfConcat_sound : lowBitOfConcat.Sound ρ := by
  intro e e' hw hn h
  unfold lowBitOfConcat at h
  split at h
  · rename_i a b
    obtain ⟨⟨ha, hb, hty, hreg⟩, ht, hadm⟩ := hw
    obtain rfl : Exp.cast .castLow .reg1 b = e' := by simpa using h
    have hle : 1 ≤ a.typ.double.width := hadm
    refine .intro 1 rfl ⟨hb, ht, hb.width_pos⟩ rfl ?_
    rw [eval_castLow (n := b.typ.width) rfl,
      eval_castLow (a := .binOp .concat a b) (n := a.typ.double.width) rfl,
      eval_concat (n := a.typ.width) (m := b.typ.width) rfl rfl,
      BitVec.setWidth_setWidth_of_le _ hle,
      Bits.setWidth_append_of_le _ _ (show 1 ≤ b.typ.width from hb.width_pos)]
  · simp at h

theorem highBitOfConcat_sound : highBitOfConcat.Sound ρ := by
  intro e e' hw hn h
  unfold highBitOfConcat at h
  split at h
  · rename_i a b
    obtain ⟨⟨ha, hb, hty, hreg⟩, ht, hadm⟩ := hw
    obtain rfl : Exp.cast .castHigh .reg1 a = e' := by simpa using h
    have hwidth : a.typ.double.width = a.typ.width + b.typ.width := by
      rw [hty, double_width hreg]
    refine .intro 1 rfl ⟨ha, ht, ha.width_pos⟩ rfl ?_
    rw [eval_castHigh (n := a.typ.width) rfl,
      eval_castHigh (a := .binOp .concat a b) (n := a.typ.double.width) rfl,
      eval_concat (n := a.typ.width) (m := b.typ.width) rfl rfl,
      Bits.high_setWidth_append _ _ hwidth ha.width_pos]
  · simp at h

theorem zeroConcat_sound (t : Typ) : (zeroConcat t t.double).Sound ρ := by
  intro e e' hw hn h
  unfold zeroConcat at h
  split at h
  · rename_i t' c x
    obtain ⟨ht, hx, hty, hreg⟩ := hw
    obtain ⟨⟨rfl, rfl⟩, rfl⟩ := rewriteIf_eq_ok_iff.mp h
    have hty' : x.typ = t' := hty
    have hreg' : t' = .reg8 ∨ t' = .reg16 ∨ t' = .reg32 := hreg
    have hwidth := double_width hreg'
    refine .intro t'.double.width rfl
      ⟨hx, Typ.IsReg.double ht, by rw [CastType.Admits, hty']; omega⟩ rfl ?_
    rw [eval_castUnsigned (width_of_typ hty'),
      eval_concat (n := t'.width) rfl (width_of_typ hty'), eval_zero,
      Bits.zero_append, Bits.setWidth_setWidth_of_ge (by omega)]
  · simp at h

/-! ## An operand repeated -/

theorem idempotent_sound : idempotent.Sound ρ := by
  intro e e' hw hn h
  unfold idempotent at h
  split at h
  · rename_i op x y
    obtain ⟨⟨hop, rfl⟩, rfl⟩ := rewriteIf_eq_ok_iff.mp h
    rcases hop with rfl | rfl
    · refine .intro x.typ.width rfl hw.1 rfl ?_
      exact BitVec.or_self.symm
    · refine .intro x.typ.width rfl hw.1 rfl ?_
      exact BitVec.and_self.symm
  · simp at h

theorem reflexive_sound : reflexive.Sound ρ := by
  intro e e' hw hn h
  unfold reflexive at h
  split at h
  · rename_i op x y
    obtain ⟨⟨hop, rfl⟩, rfl⟩ := rewriteIf_eq_ok_iff.mp h
    rcases hop with rfl | rfl | rfl <;>
      refine .intro 1 rfl trivial rfl ?_ <;>
      simp [Exp.eval, expTrue, flag, BitVec.ule, BitVec.sle]
  · simp at h

theorem irreflexive_sound : irreflexive.Sound ρ := by
  intro e e' hw hn h
  unfold irreflexive at h
  split at h
  · rename_i op x y
    obtain ⟨⟨hop, rfl⟩, rfl⟩ := rewriteIf_eq_ok_iff.mp h
    rcases hop with rfl | rfl | rfl <;>
      refine .intro 1 rfl trivial rfl ?_ <;>
      simp [Exp.eval, expFalse, flag, BitVec.ult, BitVec.slt]
  · simp at h

/-! ## Shifts, products and quotients -/

theorem divideByTen_sound : divideByTen.Sound ρ := by
  intro e e' hw hn h
  unfold divideByTen at h
  split at h
  · rename_i x t1 k t2 s
    obtain ⟨⟨⟨⟨hx, -, -⟩, -, -⟩, -, -⟩, -, -⟩ := hw
    obtain ⟨-, hs⟩ := hn
    rw [ite_none_eq_ok_iff, rewriteIfType_eq_ok_iff hx] at h
    obtain ⟨⟨rfl, rfl⟩, ht, rfl⟩ := h
    refine .intro 32 rfl ⟨hx, trivial, ht.symm⟩ ht ?_
    rw [eval_rshift_int hs, eval_castHigh (n := 64) rfl, eval_times,
      eval_castUnsigned (width_of_typ ht), Exp.eval]
    have hten : (Exp.int .reg32 10).eval ρ 32 ≠ 0 := by
      rw [eval_int]
      decide
    refine (smtUDiv_eq_udiv hten).trans ?_
    exact (Bits.high_mul_shift_eq_div_ten _).symm
  · simp at h

theorem moduloRight_sound : moduloRight.Sound ρ := by
  intro e e' hw hn h
  unfold moduloRight at h
  split at h
  · rename_i x1 x2 k1 k2
    obtain ⟨⟨rfl, rfl⟩, rfl⟩ := rewriteIf_eq_ok_iff.mp h
    obtain ⟨hx, ⟨⟨-, hk, hadm⟩, -, -⟩, -⟩ := hw
    refine .intro x1.typ.width rfl ⟨hx, hk, hadm⟩ rfl ?_
    exact (Bits.add_neg_smtUDiv_mul _ _).symm
  · simp at h

theorem moduloLeft_sound : moduloLeft.Sound ρ := by
  intro e e' hw hn h
  unfold moduloLeft at h
  split at h
  · rename_i x2 k1 k2 x1
    obtain ⟨⟨rfl, rfl⟩, rfl⟩ := rewriteIf_eq_ok_iff.mp h
    obtain ⟨⟨⟨-, hk, hadm⟩, -, -⟩, hx, -⟩ := hw
    refine .intro x1.typ.width rfl ⟨hx, hk, hadm⟩ rfl ?_
    exact (Bits.add_neg_smtUDiv_mul _ _).symm.trans (BitVec.add_comm _ _)
  · simp at h

theorem moduloSum_sound : moduloSum.Sound ρ := by
  intro e e' hw hn h
  unfold moduloSum at h
  split at h
  · rename_i x2 k1 k2 x1 y
    obtain ⟨⟨rfl, rfl⟩, rfl⟩ := rewriteIf_eq_ok_iff.mp h
    obtain ⟨⟨⟨-, hk, hadm⟩, -, -⟩, ⟨hx, hy, hxy⟩, -⟩ := hw
    refine .intro x1.typ.width rfl ⟨⟨hx, hk, hadm⟩, hy, hxy⟩ rfl ?_
    have hmod : (Exp.binOp .mod x1 k1).eval ρ x1.typ.width =
        x1.eval ρ x1.typ.width % k1.eval ρ x1.typ.width := rfl
    rw [eval_plus, hmod, ← Bits.add_neg_smtUDiv_mul,
      BitVec.add_comm (x1.eval ρ _), BitVec.add_assoc]
    rfl
  · simp at h

theorem maskClearsByte_sound : maskClearsByte.Sound ρ := by
  intro e e' hw hn h
  unfold maskClearsByte at h
  split at h
  · rename_i e1 c
    obtain ⟨⟨he, -, hadm⟩, -, -⟩ := hw
    rw [ite_none_eq_ok_iff, rewriteIfType_eq_ok_iff he] at h
    obtain ⟨rfl, ht, rfl⟩ := h
    refine .intro 32 rfl trivial rfl ?_
    rw [eval_zero, eval_bitand, eval_castUnsigned (width_of_typ ht), eval_int]
    exact (Bits.setWidth_and_highMask (k := 8) _ _ (by decide)).symm
  · simp at h

theorem shiftOut_sound
    {t : Typ} {size : I64} (hsize : size = BitVec.ofNat 64 t.width) :
    (shiftOut t size).Sound ρ := by
  intro e e' hw hn h
  unfold shiftOut at h
  split at h
  · rename_i op e1 t2 amt
    obtain ⟨he, ht2, -⟩ := hw
    obtain ⟨-, hamt⟩ := hn
    simp only [ite_none_eq_ok_iff, he.inferType_eq, OCaml.ok_bind,
      rewriteIf_eq_ok_iff] at h
    obtain ⟨hop, ⟨rfl, hsle⟩, rfl⟩ := h
    rw [hsize] at hsle
    have hle := le_toNat_of_sle e1.typ.width_le hsle
    rcases hop with rfl | rfl
    · refine .intro e1.typ.width rfl he.isReg rfl ?_
      rw [eval_zero, eval_lshift_int hamt]
      ext j hj
      simp [show j < amt.toNat by omega]
    · refine .intro e1.typ.width rfl he.isReg rfl ?_
      rw [eval_zero, eval_rshift_int hamt, BitVec.ushiftRight_eq_zero hle]
      rfl
  · simp at h

theorem shiftOutByte_sound (wide : Typ) : (shiftOutByte wide).Sound ρ := by
  intro e e' hw hn h
  unfold shiftOutByte at h
  split at h
  · rename_i t e1 t2 amt
    obtain ⟨⟨he, ht, hadm⟩, ht2, -⟩ := hw
    obtain ⟨-, hamt⟩ := hn
    simp only [ite_none_eq_ok_iff, he.inferType_eq, OCaml.ok_bind,
      rewriteIf_eq_ok_iff] at h
    obtain ⟨rfl, ⟨hreg, hsle⟩, rfl⟩ := h
    have hle : 8 ≤ amt.toNat := le_toNat_of_sle (by decide) hsle
    refine .intro t.width rfl ht rfl ?_
    rw [eval_zero, eval_rshift_int hamt, eval_castUnsigned (width_of_typ hreg)]
    ext j hj
    have hge : Typ.reg8.width ≤ amt.toNat + j := Nat.le_add_right_of_le hle
    rw [BitVec.getElem_ushiftRight, BitVec.getLsbD_setWidth,
      BitVec.getLsbD_of_ge _ _ hge, Bool.and_false]
    simp
  · simp at h

/-! ## Sums -/

theorem zeroOf_agrees
    {e x e' : Exp} (hx : x.WellTyped) (h : zeroOf x = .ok (some e'))
    (htyp : e.typ = x.typ) (hzero : e.eval ρ x.typ.width = 0) :
    e.Agrees ρ e' := by
  obtain rfl : Exp.int x.typ 0 = e' := by simpa [zeroOf, hx.inferType_eq] using h
  refine .intro x.typ.width (width_of_typ htyp) hx.isReg htyp.symm ?_
  rw [eval_zero, hzero]

theorem plusNeg_sound : plusNeg.Sound ρ := by
  intro e e' hw hn h
  unfold plusNeg at h
  split at h
  · rename_i x y
    obtain ⟨rfl, h'⟩ := ite_none_eq_ok_iff.mp h
    exact zeroOf_agrees ρ hw.1 h' rfl (add_neg_cancel _)
  · simp at h

theorem negPlus_sound : negPlus.Sound ρ := by
  intro e e' hw hn h
  unfold negPlus at h
  split at h
  · rename_i x y
    obtain ⟨rfl, h'⟩ := ite_none_eq_ok_iff.mp h
    have hx : x.WellTyped := hw.1
    exact zeroOf_agrees ρ hx h' rfl (neg_add_cancel _)
  · simp at h

theorem plusSelf_sound : plusSelf.Sound ρ := by
  intro e e' hw hn h
  unfold plusSelf at h
  split at h
  · rename_i x y
    obtain ⟨rfl, rfl⟩ := rewriteIf_eq_ok_iff.mp h
    refine .intro x.typ.width rfl ⟨hw.1, trivial, trivial⟩ rfl ?_
    rw [eval_lshift_int (by decide), eval_plus]
    exact (Bits.shiftLeft_one_eq _)
  · simp at h

theorem plusShifted_sound
    {s factor : I64} (hfactor : factor.toNat = 2 ^ s.toNat + 1)
    : (plusShifted s factor).Sound ρ := by
  intro e e' hw hn h
  unfold plusShifted at h
  split at h
  · rename_i x y t c
    obtain ⟨⟨rfl, rfl⟩, h'⟩ := ite_none_eq_ok_iff.mp h
    obtain ⟨hx, -, -⟩ := hw
    obtain ⟨-, -, hc⟩ := hn
    obtain rfl : Exp.binOp .times (.int x.typ factor) x = e' := by
      simpa [hx.inferType_eq] using h'
    refine .intro x.typ.width rfl ⟨hx.isReg, hx, rfl⟩ rfl ?_
    rw [eval_times, eval_int, eval_plus, eval_lshift_int hc]
    apply Bits.mul_eq_add_shiftLeft
    rw [BitVec.toNat_setWidth, hfactor]
  · simp at h

theorem plusNegPlus_sound : plusNegPlus.Sound ρ := by
  intro e e' hw hn h
  unfold plusNegPlus at h
  split at h
  · rename_i x y z
    obtain ⟨rfl, rfl⟩ := rewriteIf_eq_ok_iff.mp h
    obtain ⟨hx, ⟨-, hz, hxz⟩, -⟩ := hw
    refine .intro x.typ.width rfl hz hxz ?_
    exact (add_neg_cancel_left _ _).symm
  · simp at h

/-! ## Boolean algebra -/

theorem andNot_sound : andNot.Sound ρ := by
  intro e e' hw hn h
  unfold andNot at h
  split at h
  · rename_i x y
    obtain ⟨rfl, h'⟩ := ite_none_eq_ok_iff.mp h
    exact zeroOf_agrees ρ hw.1 h' rfl (BitVec.and_not_self _)
  · simp at h

theorem splitByMask_sound : splitByMask.Sound ρ := by
  intro e e' hw hn h
  unfold splitByMask at h
  split at h
  · rename_i x1 y1 x2 y2
    obtain ⟨⟨rfl, rfl⟩, rfl⟩ := rewriteIf_eq_ok_iff.mp h
    refine .intro x1.typ.width rfl hw.1.1 rfl ?_
    simp only [Exp.eval]
    rw [← BitVec.and_or_distrib_left, BitVec.or_not_self, BitVec.and_allOnes]
  · simp at h

theorem orNotAnd_sound : orNotAnd.Sound ρ := by
  intro e e' hw hn h
  unfold orNotAnd at h
  split at h
  · rename_i x1 x2 y
    obtain ⟨rfl, rfl⟩ := rewriteIf_eq_ok_iff.mp h
    obtain ⟨hx, ⟨-, hy, hxy⟩, -⟩ := hw
    refine .intro x1.typ.width rfl ⟨hx, hy, hxy⟩ rfl ?_
    simp only [Exp.eval]
    ext j hj
    cases hxj : (x1.eval ρ x1.typ.width)[j] <;> simp [hxj]
  · simp at h

theorem xorSelf_sound : xorSelf.Sound ρ := by
  intro e e' hw hn h
  unfold xorSelf at h
  split at h
  · rename_i x y
    obtain ⟨rfl, h'⟩ := ite_none_eq_ok_iff.mp h
    exact zeroOf_agrees ρ hw.1 h' rfl BitVec.xor_self
  · simp at h

theorem xorCancel_sound : xorCancel.Sound ρ := by
  intro e e' hw hn h
  unfold xorCancel at h
  split at h
  · rename_i x y z
    obtain ⟨rfl, rfl⟩ := rewriteIf_eq_ok_iff.mp h
    obtain ⟨hx, ⟨-, hz, hxz⟩, -⟩ := hw
    refine .intro x.typ.width rfl hz hxz ?_
    simp only [Exp.eval]
    rw [← BitVec.xor_assoc, BitVec.xor_self, BitVec.zero_xor]
  · simp at h

/-! ## Comparisons with zero -/

theorem plusEqZero_sound
    {fold : Exp → OCaml Exp}
    (hfold : ∀ t i, t.IsReg → fold (.unOp .neg (.int t i)) =
      .ok (.int t (Exp.unOp .neg (.int t i)).constantValue)) :
    (plusEqZero fold).Sound ρ := by
  intro e e' hw hn h
  unfold plusEqZero at h
  split at h
  · rename_i x v t z
    obtain ⟨rfl, h'⟩ := ite_none_eq_ok_iff.mp h
    obtain ⟨⟨hx, hv, hxv⟩, -, hty⟩ := hw
    cases v with
    | str s => exact hv.elim
    | int t' c =>
      obtain rfl : t' = x.typ := hxv
      obtain rfl : Exp.binOp .eq x
          (.int x.typ (Exp.unOp .neg (.int x.typ c)).constantValue) = e' := by
        simpa [hfold x.typ c hv] using h'
      refine .intro 1 rfl ⟨hx, hv, rfl⟩ rfl ?_
      rw [eval_eq (n := x.typ.width) rfl,
        eval_eq (a := .binOp .plus x _) (n := x.typ.width) rfl,
        eval_zero, eval_plus, eval_int, eval_int]
      congr 1
      apply beq_congr
      have hneg : (Exp.unOp .neg (.int x.typ c)).constantValue.setWidth
          x.typ.width = -c.setWidth x.typ.width :=
        Bits.setWidth_setWidth_self x.typ.width_le (-c.setWidth x.typ.width)
      rw [hneg]
      exact eq_neg_iff_add_eq_zero
  · simp at h

theorem differenceEqZero_sound : differenceEqZero.Sound ρ := by
  intro e e' hw hn h
  unfold differenceEqZero at h
  split at h
  · rename_i a b t z
    obtain ⟨rfl, rfl⟩ := rewriteIf_eq_ok_iff.mp h
    obtain ⟨⟨ha, hb, hty⟩, -, -⟩ := hw
    refine .intro 1 rfl ⟨ha, hb, hty⟩ rfl ?_
    rw [eval_eq (n := a.typ.width) rfl,
      eval_eq (a := .binOp .plus a _) (n := a.typ.width) rfl, eval_zero]
    congr 1
    apply beq_congr
    exact add_neg_eq_zero.symm
  · simp at h

theorem xorEqZero_sound : xorEqZero.Sound ρ := by
  intro e e' hw hn h
  unfold xorEqZero at h
  split at h
  · rename_i a b t z
    obtain ⟨rfl, rfl⟩ := rewriteIf_eq_ok_iff.mp h
    obtain ⟨⟨ha, hb, hty⟩, -, -⟩ := hw
    refine .intro 1 rfl ⟨ha, hb, hty⟩ rfl ?_
    rw [eval_eq (n := a.typ.width) rfl,
      eval_eq (a := .binOp .xor a b) (n := a.typ.width) rfl, eval_zero]
    congr 1
    apply beq_congr
    exact BitVec.xor_eq_zero_iff.symm
  · simp at h

theorem flag_or (w : ℕ) (p q : Bool) : flag w (p || q) = flag w p ||| flag w q := by
  rw [flag, flag, flag, ← BitVec.setWidth_or, BitVec.ofBool_or_ofBool]

theorem lessOrEqual_sound
    {strict weak : BinopType}
    (hop : (strict, weak) = (.lt, .le) ∨ (strict, weak) = (.slt, .sle)) :
    (lessOrEqual strict weak).Sound ρ := by
  intro e e' hw hn h
  unfold lessOrEqual at h
  split at h
  · rename_i op a1 b1 a2 b2
    obtain ⟨⟨rfl, rfl, rfl⟩, rfl⟩ := rewriteIf_eq_ok_iff.mp h
    obtain ⟨⟨ha, hb, -⟩, ⟨-, -, hty⟩, -⟩ := hw
    rcases hop with hop | hop
    · obtain ⟨rfl, rfl⟩ := Prod.mk.inj hop
      refine .intro 1 rfl ⟨ha, hb, hty⟩ rfl ?_
      rw [eval_bitor]
      refine (congrArg (flag 1) (Bits.ule_eq_or _ _)).trans (flag_or 1 _ _)
    · obtain ⟨rfl, rfl⟩ := Prod.mk.inj hop
      refine .intro 1 rfl ⟨ha, hb, hty⟩ rfl ?_
      rw [eval_bitor]
      refine (congrArg (flag 1) (Bits.sle_eq_or _ _)).trans (flag_or 1 _ _)
  · simp at h

theorem orEqZero_sound : orEqZero.Sound ρ := by
  intro e e' hw hn h
  unfold orEqZero at h
  split at h
  · rename_i a t c t2 z
    obtain ⟨⟨rfl, hne⟩, rfl⟩ := rewriteIf_eq_ok_iff.mp h
    obtain ⟨⟨ha, ht, rfl⟩, -, -⟩ := hw
    obtain ⟨⟨-, hc⟩, -⟩ := hn
    refine .intro 1 rfl trivial rfl ?_
    rw [eval_eq (a := .binOp .bitor a _) (n := a.typ.width) rfl, eval_zero,
      eval_bitor, eval_int]
    have hvalue : c.setWidth a.typ.width ≠ 0 := by
      intro hzero
      apply hne
      have hnat := congrArg BitVec.toNat hzero
      rw [toNat_setWidth_of_normal hc] at hnat
      exact BitVec.eq_of_toNat_eq hnat
    rw [beq_eq_false_iff_ne.mpr fun hor => hvalue (Bits.or_eq_zero hor).2]
    rfl
  · simp at h

/-! ## The groups of rules -/

theorem iteRules_sound
    {ctx : LValue → Option Exp} (hctx : ContextTrue ρ ctx) :
    ∀ r ∈ iteRules ctx, r.Sound ρ := by
  simp only [iteRules, List.forall_mem_cons]
  exact ⟨trivialCast_sound ρ, lookup_sound ρ hctx, iteConstant_sound ρ,
    iteSame_sound ρ, iteNot_sound ρ, iteTrueFalse_sound ρ, iteFalseTrue_sound ρ,
    iteTrueOr_sound ρ, iteAndFalse_sound ρ, castIte_sound ρ, binopIte_sound ρ,
    by simp⟩

theorem concatRules_sound : ∀ r ∈ concatRules, r.Sound ρ := by
  simp only [concatRules, List.forall_mem_cons]
  exact ⟨lowOfConcat_sound ρ .reg8, lowOfConcat_sound ρ .reg16,
    lowOfConcat_sound ρ .reg32, highOfConcat_sound ρ .reg8,
    highOfConcat_sound ρ .reg16, highOfConcat_sound ρ .reg32,
    lowBitOfConcat_sound ρ, highBitOfConcat_sound ρ, zeroConcat_sound ρ .reg8,
    zeroConcat_sound ρ .reg16, zeroConcat_sound ρ .reg32, by simp⟩

/-- Every rule for shifts is sound where those that are not always are. -/
theorem shiftRules_soundOn
    {wild : WildShift} {e : Exp}
    (hshift : ∀ op, op = .lshift ∨ op = .rshift ∨ op = .arshift →
      (shiftOfShift op).SoundOn ρ e)
    (hproduct : (shiftOfProduct wild).SoundOn ρ e)
    (hchoice : maskedChoice.SoundOn ρ e) :
    ∀ r ∈ shiftRules wild, r.SoundOn ρ e := by
  simp only [shiftRules, List.forall_mem_cons]
  exact ⟨idempotent_sound ρ e, reflexive_sound ρ e, irreflexive_sound ρ e,
    hshift .lshift (by simp), hshift .rshift (by simp), hshift .arshift (by simp),
    divideByTen_sound ρ e, hproduct, moduloRight_sound ρ e, moduloLeft_sound ρ e,
    moduloSum_sound ρ e, maskClearsByte_sound ρ e, shiftOut_sound ρ rfl e,
    shiftOut_sound ρ rfl e, shiftOut_sound ρ rfl e, shiftOut_sound ρ rfl e,
    shiftOutByte_sound ρ .reg32 e, shiftOutByte_sound ρ .reg64 e, hchoice,
    by simp⟩

/-- Every algebraic rule is sound where those that are not always are. -/
theorem algebraRules_soundOn
    {fold : Exp → OCaml Exp} {e : Exp} (hplus : (plusEqZero fold).SoundOn ρ e)
    (heq : (shiftedOrZero .eq expFalse).SoundOn ρ e)
    (hneq : (shiftedOrZero .neq expTrue).SoundOn ρ e) :
    ∀ r ∈ algebraRules fold, r.SoundOn ρ e := by
  simp only [algebraRules, List.forall_mem_cons]
  exact ⟨plusNeg_sound ρ e, negPlus_sound ρ e, plusSelf_sound ρ e,
    plusShifted_sound ρ rfl e, plusShifted_sound ρ rfl e, plusNegPlus_sound ρ e,
    andNot_sound ρ e, splitByMask_sound ρ e, orNotAnd_sound ρ e,
    xorSelf_sound ρ e, xorCancel_sound ρ e, hplus, differenceEqZero_sound ρ e,
    xorEqZero_sound ρ e, lessOrEqual_sound ρ (.inl rfl) e,
    lessOrEqual_sound ρ (.inr rfl) e, orEqZero_sound ρ e, heq, hneq, by simp⟩

end Fuzzball.Vine
