import Fuzzball.ConstantFoldAlgebra

/-!
# The rules of constant folding that are right under a condition

Five cases of `constant_fold` change the value of some well-typed expressions.
For each of them: the expressions and values it gets wrong, and that it is
right on all others.
-/

namespace Fuzzball.Vine

variable {μ : Type*} [VineMemory μ]

/-! ## What the rules get wrong -/

/-- `signExtendByMask` on a boolean that holds: bits 1 to 7 of the sign
extension come from neither operand. -/
def Exp.LosesSignBits (ρ : Valuation μ) : Exp → Prop
  | .binOp .bitor (.cast .castUnsigned .reg32 e1)
      (.binOp .bitand (.cast .castSigned .reg32 e1') (.int .reg32 c)) =>
    (c = 0xffffff00 ∧ e1 = e1') ∧ e1.typ = .reg1 ∧ e1.eval ρ 1 = 1
  | _ => False

/-- `shiftedOrZero` on an operand other than a 64-bit one, where the shift by
32 gives zero. -/
def Exp.ShiftsOutConstant : Exp → Prop
  | .binOp op (.binOp .lshift (.binOp .bitor a (.int _ c)) (.int _ s))
      (.int _ z) =>
    ((op = .eq ∨ op = .neq) ∧ s = 32 ∧ z = 0 ∧ 0xffffffff &&& c ≠ 0) ∧
      a.typ ≠ .reg64
  | _ => False

/-- `shiftOfShift` where the sum of the amounts does not fit their type, and a
shift of the operand by the truncated sum `n` leaves something. -/
def Exp.WrapsShift (ρ : Valuation μ) : Exp → Prop
  | .binOp op (.binOp op' x (.int ty1 s1)) (.int ty2 s2) =>
    (op' = op ∧ ty1 = ty2 ∧ ty1 ≠ .reg64) ∧
      2 ^ ty1.width ≤ s1.toNat + s2.toNat ∧
      let n := (s1.toNat + s2.toNat) % 2 ^ ty1.width
      match op with
      | .lshift => x.eval ρ x.width <<< n ≠ 0
      | .rshift => x.eval ρ x.width >>> n ≠ 0
      | .arshift => (x.eval ρ x.width).sshiftRight n ∉
          [0, BitVec.allOnes x.width]
      | _ => False
  | _ => False

/-- `shiftOfProduct` with an amount of 64 or more: `Int64.to_int` drops the top
bit of the amount, and the answer of `Int64.shift_left` is unspecified unless
the rest is below 64. -/
def Exp.ShiftsProductFar (ρ : Valuation μ) : Exp → Prop
  | .binOp .lshift (.binOp .times x (.int ty factor)) (.int _ shift) =>
    64 ≤ shift.toNat ∧
      if 2 ^ 63 ≤ shift.toNat ∧ shift.toNat < 2 ^ 63 + 64 then
        (factor <<< (shift.toNat - 2 ^ 63)).toNat < 2 ^ ty.width ∧
          x.eval ρ x.width *
            (factor <<< (shift.toNat - 2 ^ 63)).setWidth x.width ≠ 0
      else x.eval ρ x.width ≠ 0
  | _ => False

/-- `maskedChoice`: the choice is the other way round, `k` where `c` holds. -/
def Exp.SwapsChoice : Exp → Prop
  | .binOp .bitor
      (.binOp .bitand (.cast .castSigned .reg32 c1) (.int .reg32 k1))
      (.binOp .bitand (.unOp .not (.cast .castSigned .reg32 c2))
        (.int .reg32 k2)) => c1 = c2 ∧ k2 = k1 + 1
  | _ => False

/-- The expressions whose value `constant_fold` changes. -/
def Exp.Misfolds (ρ : Valuation μ) (e : Exp) : Prop :=
  (e.IsConstantOperation ∧ e.DivisorNonzero ∧ e.FoldsWrong) ∨
    e.LosesSignBits ρ ∨ e.ShiftsOutConstant ∨ e.WrapsShift ρ ∨
    e.ShiftsProductFar ρ ∨ e.SwapsChoice

variable (ρ : Valuation μ)

/-! ## The rules are right elsewhere -/

/-- The rule keeps the type, and it keeps the value where `good` holds and
nowhere else. -/
def Rule.ExactOn (ρ : Valuation μ) (e : Exp) (r : Rule) (good : Prop) : Prop :=
  ∀ e', e.WellTyped → e.Normal → r e = .ok (some e') →
    e'.WellTyped ∧ e'.typ = e.typ ∧
      (e'.eval ρ e.width = e.eval ρ e.width ↔ good)

theorem Rule.ExactOn.soundOn
    {e : Exp} {r : Rule} {good : Prop} (hr : r.ExactOn ρ e good) (hgood : good) :
    r.SoundOn ρ e := by
  intro e' hw hn h
  obtain ⟨hwell, htyp, hiff⟩ := hr e' hw hn h
  exact ⟨hwell, htyp, hiff.mpr hgood⟩

theorem signExtendByMask_exactOn (e : Exp) :
    signExtendByMask.ExactOn ρ e (¬ e.LosesSignBits ρ) := by
  intro e' hw hn h
  unfold signExtendByMask at h
  split at h
  · rename_i e1 e1' c
    obtain ⟨⟨rfl, rfl⟩, rfl⟩ := rewriteIf_eq_ok_iff.mp h
    obtain ⟨⟨he1, ht, hadm⟩, -⟩ := hw
    refine ⟨⟨he1, ht, hadm⟩, rfl, ?_⟩
    have hbad : (Exp.binOp .bitor (.cast .castUnsigned .reg32 e1)
        (.binOp .bitand (.cast .castSigned .reg32 e1)
          (.int .reg32 0xffffff00))).LosesSignBits ρ ↔
        e1.typ = .reg1 ∧ e1.eval ρ 1 = 1 := by
      simp [Exp.LosesSignBits]
    have heval : (Exp.binOp .bitor (.cast .castUnsigned .reg32 e1)
        (.binOp .bitand (.cast .castSigned .reg32 e1)
          (.int .reg32 0xffffff00))).eval ρ 32 =
        (e1.eval ρ e1.typ.width).setWidth 32 |||
          ((e1.eval ρ e1.typ.width).signExtend 32 &&& 0xffffff00) := rfl
    have heval' : (Exp.cast .castSigned .reg32 e1).eval ρ 32 =
        (e1.eval ρ e1.typ.width).signExtend 32 := rfl
    rw [hbad]
    change (Exp.cast .castSigned .reg32 e1).eval ρ 32 = Exp.eval _ ρ 32 ↔ _
    rw [heval, heval']
    by_cases hreg : e1.typ = .reg1
    · rw [hreg]
      have hbits : ∀ b : BitVec 1, b.signExtend 32 =
          b.setWidth 32 ||| (b.signExtend 32 &&& 0xffffff00) ↔ ¬ b = 1 := by
        decide
      simpa using hbits (e1.eval ρ 1)
    · have hle : 8 ≤ e1.typ.width := by
        have := he1.isReg
        cases hty : e1.typ <;> simp_all [Typ.IsReg]
      simp only [hreg, false_and, not_false_eq_true, iff_true]
      exact (Bits.signExtend_eq_or_highMask hle _).symm
  · simp at h

/-- The value of the comparison that `shiftedOrZero` decides. -/
theorem shiftedOr_eq_zero_iff
    {w : ℕ} (hw : w ≤ 32 ∨ w = 64) (x : BitVec w) {c : I64}
    (hc : 0xffffffff &&& c ≠ 0) :
    (x ||| c.setWidth w) <<< 32 = 0 ↔ w ≠ 64 := by
  rcases hw with hle | rfl
  · constructor
    · intro
      omega
    · intro
      ext j hj
      simp [show j < 32 by omega]
  · refine ⟨fun h => ?_, fun h => absurd rfl h⟩
    have hlow := Bits.setWidth_eq_zero_of_shiftLeft (m := 32) (by decide) h
    rw [BitVec.setWidth_or] at hlow
    have hzero : c.setWidth 32 = 0 := by
      simpa using (Bits.or_eq_zero hlow).2
    exfalso
    apply hc
    rw [BitVec.and_comm]
    exact (fixU32_eq c).trans (by rw [hzero]; rfl)

theorem shiftedOrZero_exactOn
    (e : Exp) {op : BinopType} {result : Exp}
    (hop : op = .eq ∧ result = expFalse ∨ op = .neq ∧ result = expTrue) :
    (shiftedOrZero op result).ExactOn ρ e (¬ e.ShiftsOutConstant) := by
  intro e' hw hn h
  unfold shiftedOrZero at h
  split at h
  · rename_i op' a t c t2 s t3 z
    obtain ⟨⟨⟨rfl, rfl, rfl⟩, hne⟩, rfl⟩ := rewriteIf_eq_ok_iff.mp h
    obtain ⟨⟨⟨ha, ht, rfl⟩, -, -⟩, -, hty⟩ := hw
    obtain ⟨⟨-, hs⟩, -⟩ := hn
    have hor : op' = .eq ∨ op' = .neq := by
      rcases hop with ⟨rfl, -⟩ | ⟨rfl, -⟩ <;> simp
    have hbad : (Exp.binOp op' (.binOp .lshift (.binOp .bitor a (.int a.typ c))
        (.int t2 32)) (.int t3 0)).ShiftsOutConstant ↔ a.typ ≠ .reg64 := by
      simp only [Exp.ShiftsOutConstant, hor, hne, ne_eq, not_false_eq_true,
        true_and]
    have hwidth : a.typ.width ≤ 32 ∨ a.typ.width = 64 := by
      have := ha.isReg
      cases hty : a.typ <;> simp_all [Typ.IsReg]
    have hreg : a.typ = .reg64 ↔ a.typ.width = 64 := by
      have := ha.isReg
      cases hty : a.typ <;> simp_all [Typ.IsReg]
    have hzero := shiftedOr_eq_zero_iff hwidth (a.eval ρ a.typ.width) hne
    rw [hbad, not_not, hreg]
    have hvalue : (Exp.binOp .lshift (.binOp .bitor a (.int a.typ c))
        (.int t2 32)).eval ρ a.typ.width =
          (a.eval ρ a.typ.width ||| c.setWidth a.typ.width) <<< 32 :=
      eval_lshift_int hs
    rcases hop with ⟨rfl, rfl⟩ | ⟨rfl, rfl⟩
    · refine ⟨trivial, rfl, ?_⟩
      change expFalse.eval ρ 1 = Exp.eval _ ρ 1 ↔ _
      rw [eval_eq (a := .binOp .lshift (.binOp .bitor a _) _)
        (n := a.typ.width) rfl, hvalue, eval_zero]
      by_cases h64 : a.typ.width = 64
      · rw [beq_eq_false_iff_ne.mpr (mt hzero.mp (not_not.mpr h64))]
        simp [h64, expFalse, Exp.eval, flag]
      · rw [beq_iff_eq.mpr (hzero.mpr h64)]
        simp [h64, expFalse, Exp.eval, flag]
    · refine ⟨trivial, rfl, ?_⟩
      change expTrue.eval ρ 1 = Exp.eval _ ρ 1 ↔ _
      rw [eval_neq (a := .binOp .lshift (.binOp .bitor a _) _)
        (n := a.typ.width) rfl, hvalue, eval_zero, bne]
      by_cases h64 : a.typ.width = 64
      · rw [beq_eq_false_iff_ne.mpr (mt hzero.mp (not_not.mpr h64))]
        simp [h64, expTrue, Exp.eval, flag]
      · rw [beq_iff_eq.mpr (hzero.mpr h64)]
        simp [h64, expTrue, Exp.eval, flag]
  · simp at h

/-! ## Repeated shifts -/

/-- The value at width `w` of a shift of `x` by `n`. -/
def shiftValue {w : ℕ} (op : BinopType) (x : BitVec w) (n : ℕ) : BitVec w :=
  match op with
  | .lshift => x <<< n
  | .rshift => x >>> n
  | _ => x.sshiftRight n

theorem eval_shift
    {op : BinopType} (hop : op = .lshift ∨ op = .rshift ∨ op = .arshift)
    (x : Exp) (t : Typ) (s : I64) (w : ℕ) :
    (Exp.binOp op x (.int t s)).eval ρ w =
      shiftValue op (x.eval ρ w) (s.setWidth t.width).toNat := by
  rcases hop with rfl | rfl | rfl <;> rfl

theorem shiftValue_add
    {op : BinopType} (hop : op = .lshift ∨ op = .rshift ∨ op = .arshift) {w : ℕ}
    (x : BitVec w) (m n : ℕ) :
    shiftValue op x (m + n) = shiftValue op (shiftValue op x m) n := by
  rcases hop with rfl | rfl | rfl
  · exact BitVec.shiftLeft_add x m n
  · exact BitVec.shiftRight_add x m n
  · exact BitVec.sshiftRight_add

theorem zero_sle_iff (s : I64) : (0 : I64).sle s = true ↔ s.toNat < 2 ^ 63 := by
  have hs := s.isLt
  have hzero : (0 : I64).toNat = 0 := rfl
  simp only [BitVec.sle, BitVec.toInt_eq_toNat_cond, decide_eq_true_eq, hzero]
  omega

theorem wrapsShift_iff
    {op : BinopType} (hop : op = .lshift ∨ op = .rshift ∨ op = .arshift)
    {x : Exp} {t : Typ} {s1 s2 : I64} {n d : ℕ} (ht : t ≠ .reg64) (hd : 0 < d)
    (hn : n = (s1.toNat + s2.toNat) % 2 ^ t.width)
    (hle : 2 ^ t.width ≤ s1.toNat + s2.toNat) :
    shiftValue op (shiftValue op (x.eval ρ x.width) n) d =
        shiftValue op (x.eval ρ x.width) n ↔
      ¬ (Exp.binOp op (.binOp op x (.int t s1)) (.int t s2)).WrapsShift ρ := by
  simp only [Exp.WrapsShift, ← hn, ht, hle, ne_eq, not_false_eq_true, true_and]
  rcases hop with rfl | rfl | rfl
  · simpa [shiftValue] using Bits.shiftLeft_eq_self_iff hd (x.eval ρ x.width <<< n)
  · simpa [shiftValue] using
      Bits.ushiftRight_eq_self_iff hd (x.eval ρ x.width >>> n)
  · rw [not_not]
    exact Bits.sshiftRight_eq_self_iff hd ((x.eval ρ x.width).sshiftRight n)

theorem shiftOfShift_exactOn
    (e : Exp) {op : BinopType}
    (hop : op = .lshift ∨ op = .rshift ∨ op = .arshift) :
    (shiftOfShift op).ExactOn ρ e (¬ e.WrapsShift ρ) := by
  intro e' hw hn h
  unfold shiftOfShift at h
  split at h
  · rename_i op1 op2 x t s1 ty2 s2
    obtain ⟨⟨⟨rfl, rfl⟩, rfl, hs1, hs2⟩, rfl⟩ := rewriteIf_eq_ok_iff.mp h
    obtain ⟨⟨hx, ht, hadm⟩, -, -⟩ := hw
    obtain ⟨⟨hnx, hn1⟩, hn2⟩ := hn
    have hn1 : s1.toNat < 2 ^ t.width := hn1
    have hn2 : s2.toNat < 2 ^ t.width := hn2
    rw [zero_sle_iff] at hs1 hs2
    have htyp : op2.result x.typ = x.typ := by
      rcases hop with rfl | rfl | rfl <;> rfl
    have htyp2 : op2.result (op2.result x.typ) = x.typ := by rw [htyp, htyp]
    have hamount : ((s1 + s2).setWidth t.width).toNat =
        (s1.toNat + s2.toNat) % 2 ^ t.width := by
      rw [BitVec.toNat_setWidth, BitVec.toNat_add,
        Nat.mod_eq_of_lt (a := s1.toNat + s2.toNat) (by omega)]
    refine ⟨⟨hx, ht, by rcases hop with rfl | rfl | rfl <;> trivial⟩,
      htyp.trans htyp2.symm, ?_⟩
    have hwidth : (Exp.binOp op2 (.binOp op2 x (.int t s1)) (.int t s2)).width =
        x.width := congrArg Typ.width htyp2
    rw [hwidth, eval_shift ρ hop, eval_shift ρ hop, eval_shift ρ hop, hamount,
      toNat_setWidth_of_normal hn1, toNat_setWidth_of_normal hn2,
      ← shiftValue_add hop]
    by_cases hle : 2 ^ t.width ≤ s1.toNat + s2.toNat
    · have hreg : t ≠ .reg64 := by
        rintro rfl
        rw [Typ.width_reg64] at hle
        omega
      have hlt := Nat.mod_lt (s1.toNat + s2.toNat) (Nat.two_pow_pos t.width)
      obtain ⟨d, hd⟩ := Nat.exists_eq_add_of_le
        (Nat.mod_le (s1.toNat + s2.toNat) (2 ^ t.width))
      have hd0 : 0 < d := by
        generalize (s1.toNat + s2.toNat) % 2 ^ t.width = r at *
        omega
      rw [← wrapsShift_iff ρ hop hreg hd0 rfl hle]
      conv_lhs => rhs; rw [hd]
      rw [shiftValue_add hop]
      exact eq_comm
    · rw [Nat.mod_eq_of_lt (by omega)]
      simp [Exp.WrapsShift, hle]
  · simp at h

/-! ## Shifted products -/

theorem toOCamlInt_cases (x : I64) :
    I64.toOCamlInt x =
      if 2 * (x.toNat % 2 ^ 63) < 2 ^ 63 then ((x.toNat % 2 ^ 63 : ℕ) : ℤ)
      else ((x.toNat % 2 ^ 63 : ℕ) : ℤ) - ((2 ^ 63 : ℕ) : ℤ) := by
  rw [I64.toOCamlInt, BitVec.toInt_eq_toNat_cond, BitVec.toNat_setWidth]

/-- The amount of a shift by `Int64.to_int shift`, where it is in range. -/
def productShift (shift : I64) : ℕ := shift.toNat % 2 ^ 63

theorem shiftLeft_toOCamlInt_of_lt
    (wild : WildShift) (factor : I64) {shift : I64}
    (hlt : productShift shift < 64) :
    I64.shiftLeft wild factor (I64.toOCamlInt shift) =
      factor <<< productShift shift := by
  have hint : I64.toOCamlInt shift = (productShift shift : ℤ) := by
    rw [toOCamlInt_cases, if_pos (by unfold productShift at hlt; omega)]
    rfl
  rw [hint, I64.shiftLeft_of_lt wild factor hlt]

theorem shiftLeft_toOCamlInt_of_ge
    (wild : WildShift) (factor : I64) {shift : I64}
    (hge : 64 ≤ productShift shift) :
    I64.shiftLeft wild factor (I64.toOCamlInt shift) =
      wild.left factor (I64.toOCamlInt shift) := by
  unfold productShift at hge
  have hlt : shift.toNat % 2 ^ 63 < 2 ^ 63 := Nat.mod_lt _ (by decide)
  rw [I64.shiftLeft, if_neg]
  rw [toOCamlInt_cases]
  split_ifs <;> omega

theorem toVal_self_iff {t : Typ} (ht : t.IsReg) (v : I64) :
    toVal t v = .ok (.int t v) ↔ v.toNat < 2 ^ t.width := by
  rw [toVal_eq ht]
  simp only [Except.ok.injEq, Exp.constant.injEq, Value.int.injEq, true_and,
    ← BitVec.toNat_inj, toNat_zeroExtend t.width_le, BitVec.toNat_setWidth]
  constructor
  · intro h
    rw [← h]
    exact Nat.mod_lt _ (Nat.two_pow_pos _)
  · exact Nat.mod_eq_of_lt

/-- On a product the rule answers for a factor that is stored in its width. -/
theorem shiftOfProduct_apply
    (wild : WildShift) (x : Exp) {t : Typ} (ht : t.IsReg) (t2 : Typ)
    (factor shift : I64) {factor2 : I64}
    (hfactor : I64.shiftLeft wild factor (I64.toOCamlInt shift) = factor2) :
    shiftOfProduct wild (.binOp .lshift (.binOp .times x (.int t factor))
        (.int t2 shift)) =
      .ok (if factor2.toNat < 2 ^ t.width then
        some (.binOp .times x (.int t factor2)) else none) := by
  have hiff := toVal_self_iff ht factor2
  rw [toVal_eq ht, Except.ok.injEq] at hiff
  simp only [shiftOfProduct, hfactor, toVal_eq ht, OCaml.ok_bind, rewriteIf,
    eq_comm.trans hiff]
  rfl

theorem shiftOfProduct_soundOn
    (wild : WildShift) {e : Exp} (he : ¬ e.ShiftsProductFar ρ) :
    (shiftOfProduct wild).SoundOn ρ e := by
  intro e' hw hn h
  have h0 := h
  unfold shiftOfProduct at h
  split at h
  · rename_i x t factor t2 shift
    clear h
    obtain ⟨⟨hx, ht, hadm⟩, -, -⟩ := hw
    obtain ⟨-, hshift⟩ := hn
    rw [shiftOfProduct_apply wild x ht t2 factor shift rfl] at h0
    generalize hfactor : I64.shiftLeft wild factor (I64.toOCamlInt shift) =
      factor2 at h0
    obtain ⟨hlt, rfl⟩ : factor2.toNat < 2 ^ t.width ∧
        Exp.binOp .times x (.int t factor2) = e' := by
      split_ifs at h0 with hguard
      · exact ⟨hguard, Option.some.inj (Except.ok.inj h0)⟩
      · simp at h0
    refine .intro x.typ.width rfl ⟨hx, ht, hadm⟩ rfl ?_
    rw [eval_times, eval_int, eval_lshift_int hshift, eval_times, eval_int]
    have hle := x.typ.width_le
    by_cases hfar : shift.toNat < 64
    · have hsmall : productShift shift = shift.toNat :=
        Nat.mod_eq_of_lt (by omega)
      rw [← hfactor, shiftLeft_toOCamlInt_of_lt wild factor (by omega), hsmall,
        BitVec.setWidth_shiftLeft_of_le hle]
      exact (Bits.mul_shiftLeft _ _ _).symm
    · have hzero : (x.eval ρ x.typ.width * factor.setWidth x.typ.width) <<<
          shift.toNat = 0 := Bits.shiftLeft_eq_zero (by omega) _
      rw [hzero]
      by_contra hne
      apply he
      refine ⟨by omega, ?_⟩
      split_ifs with hdrop
      · have hsmall : productShift shift = shift.toNat - 2 ^ 63 := by
          unfold productShift
          omega
        rw [shiftLeft_toOCamlInt_of_lt wild factor (by omega), hsmall] at hfactor
        rw [hfactor]
        exact ⟨hlt, hne⟩
      · intro hx0
        apply hne
        have hx0' : x.eval ρ x.typ.width = 0 := hx0
        rw [hx0']
        exact zero_mul _
  · simp at h

/-- Far shifts are wrong on a platform that answers one. -/
theorem shiftOfProduct_wrong
    {x : Exp} {t t2 : Typ} {factor shift : I64}
    (hw : (Exp.binOp .lshift (.binOp .times x (.int t factor))
      (.int t2 shift)).WellTyped)
    (hn : shift.toNat < 2 ^ t2.width)
    (hfar : (Exp.binOp .lshift (.binOp .times x (.int t factor))
      (.int t2 shift)).ShiftsProductFar ρ) :
    ∃ factor2, shiftOfProduct (.const 1) (.binOp .lshift
        (.binOp .times x (.int t factor)) (.int t2 shift)) =
          .ok (some (.binOp .times x (.int t factor2))) ∧
      (Exp.binOp .times x (.int t factor2)).eval ρ x.width ≠
        (Exp.binOp .lshift (.binOp .times x (.int t factor))
          (.int t2 shift)).eval ρ x.width := by
  obtain ⟨⟨hx, ht, hadm⟩, -, -⟩ := hw
  obtain ⟨hge, hbad⟩ := hfar
  have hle := x.typ.width_le
  have hzero : (Exp.binOp .lshift (.binOp .times x (.int t factor))
      (.int t2 shift)).eval ρ x.width = 0 := by
    rw [eval_lshift_int hn]
    exact Bits.shiftLeft_eq_zero (by unfold Exp.width; omega) _
  rw [hzero]
  split_ifs at hbad with hdrop
  · have hsmall : productShift shift = shift.toNat - 2 ^ 63 := by
      unfold productShift
      omega
    refine ⟨factor <<< (shift.toNat - 2 ^ 63), ?_, hbad.2⟩
    rw [shiftOfProduct_apply _ x ht t2 factor shift
      ((shiftLeft_toOCamlInt_of_lt _ factor (by omega)).trans (by rw [hsmall])),
      if_pos hbad.1]
  · have hlarge : 64 ≤ productShift shift := by
      have := shift.isLt
      unfold productShift
      omega
    have hone : (1 : I64).toNat < 2 ^ t.width :=
      Nat.one_lt_two_pow ht.width_pos.ne'
    have hfactor : I64.shiftLeft (.const 1) factor (I64.toOCamlInt shift) = 1 :=
      shiftLeft_toOCamlInt_of_ge (.const 1) factor hlarge
    refine ⟨1, ?_, ?_⟩
    · rw [shiftOfProduct_apply _ x ht t2 factor shift hfactor, if_pos hone]
    · rw [eval_times, eval_int, setWidth_one (w := x.width) hle]
      simpa using hbad

/-! ## The choice between a constant and its successor -/

theorem maskedChoice_exactOn (e : Exp) :
    maskedChoice.ExactOn ρ e (¬ e.SwapsChoice) := by
  intro e' hw hn h
  unfold maskedChoice at h
  split at h
  · rename_i c1 k1 c2 k2
    obtain ⟨⟨rfl, rfl⟩, rfl⟩ := rewriteIf_eq_ok_iff.mp h
    obtain ⟨⟨⟨hc, ht, hadm⟩, hk, -⟩, -⟩ := hw
    refine ⟨⟨hk, ⟨hc, ht, hadm⟩, rfl⟩, rfl, ?_⟩
    have hswap : (Exp.binOp .bitor
        (.binOp .bitand (.cast .castSigned .reg32 c1) (.int .reg32 k1))
        (.binOp .bitand (.unOp .not (.cast .castSigned .reg32 c1))
          (.int .reg32 (k1 + 1)))).SwapsChoice := ⟨rfl, rfl⟩
    simp only [hswap, not_true_eq_false, iff_false]
    change (k1.setWidth 32 + (c1.eval ρ c1.width).setWidth 32) ≠
      ((c1.eval ρ c1.width).signExtend 32 &&& k1.setWidth 32 |||
        ~~~(c1.eval ρ c1.width).signExtend 32 &&& (k1 + 1).setWidth 32)
    intro heq
    -- the lowest bits differ
    have hbit := congrArg (fun b => b.getLsbD 0) heq
    have hpos : 0 < c1.width := hc.width_pos
    have hle : 32 ≤ 64 := by decide
    simp only [Bits.getLsbD_zero_add, BitVec.setWidth_add _ _ hle,
      BitVec.getLsbD_or, BitVec.getLsbD_and, BitVec.getLsbD_not,
      BitVec.getLsbD_signExtend, BitVec.getLsbD_setWidth, hpos] at hbit
    cases k1.getLsbD 0 <;> cases hc0 : (c1.eval ρ c1.width).getLsbD 0 <;>
      simp [hc0] at hbit
  · simp at h

end Fuzzball.Vine
