import Fuzzball.AddressWidths
import Fuzzball.ConstantFoldCasts

/-!
# Signed widths of address expressions

What `narrow_bitwidth_signed` says of the two's complement value of an
expression.  Its clamp at the type of the whole expression does no harm, since
no operation makes a width smaller than it was; but it takes the unsigned
modulus and the unsigned cast for signed ones, and the product of two negative
powers of two has one bit more than it counts.
-/

namespace Fuzzball.SymRegion

open Vine MemoRecursion FormulaManager

variable {μ : Type} [VineMemory μ]

/-! ## Signed ranges -/

section Ranges

/-- `s` is an `n`-bit number with a sign bit besides. -/
def InRange (n : ℕ) (s : ℤ) : Prop := -2 ^ n ≤ s ∧ s < 2 ^ n

variable {n n1 n2 w : ℕ} {s s1 s2 : ℤ}

theorem two_pow_le (h : n1 ≤ n2) : (2 : ℤ) ^ n1 ≤ 2 ^ n2 :=
  pow_le_pow_right₀ (by norm_num) h

theorem InRange.mono (h : InRange n1 s) (hn : n1 ≤ n2) : InRange n2 s := by
  have hp := two_pow_le hn
  exact ⟨(neg_le_neg hp).trans h.1, h.2.trans_le hp⟩

theorem InRange.min (h1 : InRange n1 s) (h2 : InRange n2 s) :
    InRange (min n1 n2) s := by
  rcases min_choice n1 n2 with h | h <;> rw [h]
  · exact h1
  · exact h2

theorem InRange.add (h1 : InRange n1 s1) (h2 : InRange n2 s2) :
    InRange (1 + max n1 n2) (s1 + s2) := by
  obtain ⟨ha, hb⟩ := h1.mono (le_max_left n1 n2)
  obtain ⟨hc, hd⟩ := h2.mono (le_max_right n1 n2)
  constructor <;> rw [pow_add] <;> linarith

/-- Both factors are the least numbers of their ranges. -/
def BothNegatedPowers (s1 s2 : ℤ) : Prop :=
  (∃ a : ℕ, s1 = -2 ^ a) ∧ ∃ b : ℕ, s2 = -2 ^ b

theorem InRange.mul (h1 : InRange n1 s1) (h2 : InRange n2 s2)
    (h : ¬BothNegatedPowers s1 s2) : InRange (n1 + n2) (s1 * s2) := by
  have hpos1 : (0 : ℤ) < 2 ^ n1 := by positivity
  have hpos2 : (0 : ℤ) < 2 ^ n2 := by positivity
  obtain ⟨ha, hb⟩ := h1
  obtain ⟨hc, hd⟩ := h2
  rw [InRange, pow_add]
  by_cases h1 : s1 = -2 ^ n1
  · have h2 : -2 ^ n2 < s2 :=
      lt_of_le_of_ne hc fun heq => h ⟨⟨n1, h1⟩, n2, heq.symm⟩
    subst h1
    constructor <;> nlinarith
  · have h1 : -2 ^ n1 < s1 := lt_of_le_of_ne ha fun heq => h1 heq.symm
    rcases le_total 0 s2 with hs | hs
    · constructor <;> nlinarith
    · constructor <;> nlinarith

theorem InRange.mul_pow (h : InRange n s) (c : ℕ) :
    InRange (n + c) (s * 2 ^ c) := by
  have hpos : (0 : ℤ) < 2 ^ c := by positivity
  obtain ⟨ha, hb⟩ := h
  rw [InRange, pow_add]
  constructor <;> nlinarith

theorem inRange_toInt {x : BitVec w} (h : w ≤ n + 1) : InRange n x.toInt := by
  have hp := two_pow_le (show w - 1 ≤ n by omega)
  exact ⟨(neg_le_neg hp).trans (BitVec.le_toInt x), BitVec.toInt_lt.trans_le hp⟩

/-- Wrapping a number around does not take it out of a range. -/
theorem InRange.of_bmod {x : BitVec w} (hx : x.toInt = s.bmod (2 ^ w))
    (hw : 0 < w) (h : InRange n s) : InRange n x.toInt := by
  by_cases hn : w ≤ n + 1
  · exact inRange_toInt hn
  · have h' := h.mono (show n ≤ w - 1 by omega)
    rw [toInt_of_bmod x hx hw h'.1 h'.2]
    exact h

theorem InRange.bmod (hw : 0 < w) (h : InRange n s) :
    InRange n (s.bmod (2 ^ w)) := by
  have hx : (BitVec.ofInt w s).toInt = s.bmod (2 ^ w) :=
    BitVec.toInt_ofInt s
  rw [← hx]
  exact h.of_bmod hx hw

theorem toInt_setWidth_eq_bmod {m : ℕ} (x : BitVec w) (h : m ≤ w) :
    (x.setWidth m).toInt = x.toInt.bmod (2 ^ m) := by
  rw [BitVec.toInt_setWidth, BitVec.toInt_eq_toNat_bmod,
    Int.bmod_bmod_of_dvd (Nat.pow_dvd_pow 2 h)]

/-- A number in a range repeats its sign bit above the range. -/
theorem inRange_toInt_iff {x : BitVec w} (h : n + 1 ≤ w) :
    InRange n x.toInt ↔ (x.setWidth (n + 1)).signExtend w = x := by
  have hlow := toInt_setWidth_eq_bmod x h
  constructor
  · intro hx
    apply BitVec.eq_of_toInt_eq
    rw [BitVec.toInt_signExtend_of_le h]
    exact toInt_of_bmod _ hlow (Nat.succ_pos n) hx.1 hx.2
  · intro hx
    rw [← hx, BitVec.toInt_signExtend_of_le h]
    exact inRange_toInt le_rfl

theorem InRange.and {x y : BitVec w} (hx : InRange n x.toInt)
    (hy : InRange n y.toInt) : InRange n (x &&& y).toInt := by
  by_cases h : n + 1 ≤ w
  · rw [inRange_toInt_iff h] at hx hy ⊢
    rw [BitVec.setWidth_and, BitVec.signExtend_and, hx, hy]
  · exact inRange_toInt (by omega)

theorem InRange.or {x y : BitVec w} (hx : InRange n x.toInt)
    (hy : InRange n y.toInt) : InRange n (x ||| y).toInt := by
  by_cases h : n + 1 ≤ w
  · rw [inRange_toInt_iff h] at hx hy ⊢
    rw [BitVec.setWidth_or, BitVec.signExtend_or, hx, hy]
  · exact inRange_toInt (by omega)

theorem InRange.xor {x y : BitVec w} (hx : InRange n x.toInt)
    (hy : InRange n y.toInt) : InRange n (x ^^^ y).toInt := by
  by_cases h : n + 1 ≤ w
  · rw [inRange_toInt_iff h] at hx hy ⊢
    rw [BitVec.setWidth_xor, BitVec.signExtend_xor, hx, hy]
  · exact inRange_toInt (by omega)

theorem InRange.tmod_left (h : InRange n1 s1) : InRange n1 (s1.tmod s2) := by
  have habs : (s1.tmod s2).natAbs ≤ s1.natAbs := by
    rw [Int.natAbs_tmod]
    exact Nat.mod_le _ _
  obtain ⟨ha, hb⟩ := h
  rcases le_total 0 s1 with hs | hs
  · have hsign : 0 ≤ s1.tmod s2 := Int.tmod_nonneg s2 hs
    constructor <;> omega
  · have hsign : 0 ≤ (-s1).tmod s2 := Int.tmod_nonneg s2 (by omega)
    rw [Int.neg_tmod] at hsign
    constructor <;> omega

theorem InRange.tmod_right (h : InRange n2 s2) (h0 : s2 ≠ 0) :
    InRange n2 (s1.tmod s2) := by
  have habs : (s1.tmod s2).natAbs < s2.natAbs := by
    rw [Int.natAbs_tmod]
    exact Nat.mod_lt _ (Int.natAbs_pos.mpr h0)
  obtain ⟨ha, hb⟩ := h
  constructor <;> omega

/-- A number is in the range of its bits, read as an unsigned number. -/
theorem inRange_of_toNat {x : BitVec w} (hw : 0 < w) (h : x.toNat < 2 ^ n) :
    InRange n x.toInt := by
  have hx := x.isLt
  have hpow : 2 ^ w = 2 * 2 ^ (w - 1) := by
    rw [← pow_succ', Nat.sub_add_cancel hw]
  have hn : ((2 ^ n : ℕ) : ℤ) = 2 ^ n := by push_cast; rfl
  rw [InRange, ← hn, BitVec.toInt_eq_toNat_cond]
  split_ifs <;> omega

/-- A number is in the range of the bits of its negation. -/
theorem inRange_of_neg {x : I64} (h : (-x).toNat < 2 ^ n) :
    InRange n x.toInt := by
  have hx := x.isLt
  by_cases hn : 64 ≤ n
  · exact inRange_toInt (by omega)
  · have hpow : 2 ^ n ≤ 2 ^ 63 :=
      Nat.pow_le_pow_right (by norm_num) (by omega)
    have hcast : ((2 ^ n : ℕ) : ℤ) = 2 ^ n := by push_cast; rfl
    rw [BitVec.toNat_neg] at h
    rw [InRange, ← hcast, BitVec.toInt_eq_toNat_cond]
    split_ifs <;> omega

theorem fixS_eq {t : Typ} (ht : t.IsReg) (v : I64) :
    fixS t v = .ok ((v.setWidth t.width).signExtend 64) := by
  rw [← tos64_int ht]
  cases t with
  | reg1 | reg8 | reg16 | reg32 => rfl
  | reg64 => simp [fixS, tos64, bitsOfWidth]
  | _ => exact ht.elim

end Ranges

/-! ## The analysis -/

section Signed

/-- The operands that `narrow_bitwidth_signed` walks into. -/
def narrowSignedReads : Exp → List Exp
  | .binOp .bitand e1 e2 | .binOp .bitor e1 e2 | .binOp .xor e1 e2
  | .binOp .plus e1 e2 | .binOp .times e1 e2 | .binOp .mod e1 e2
  | .binOp .smod e1 e2 => [e1, e2]
  | .cast .castUnsigned _ e1 | .cast .castSigned _ e1 => [e1]
  | .cast .castLow t e1 => if t = .reg64 then [] else [e1]
  | .binOp .lshift e1 (.constant (.int _ _)) => [e1]
  | .ite _ te fe => [te, fe]
  | _ => []

theorem narrowSignedReads_operands (e : Exp) :
    ∀ d ∈ narrowSignedReads e, d ∈ e.operands := by
  intro d hd
  unfold narrowSignedReads at hd
  split at hd <;> simp_all [Exp.operands]

variable {defs : Definitions} {ρ : Valuation μ} {w n n1 n2 : ℕ}
  {e e1 e2 : Exp}

/-- `n` bits and a sign hold the value of `e`, or `n` is the clamp. -/
def FitsSigned (ρ : Valuation μ) (w : ℕ) (e : Exp) (n : ℕ) : Prop :=
  InRange n (e.signed ρ) ∨ w ≤ n

theorem FitsSigned.min (h1 : FitsSigned ρ w e n1) (h2 : FitsSigned ρ w e n2) :
    FitsSigned ρ w e (min n1 n2) := by
  rcases min_choice n1 n2 with h | h <;> rw [h]
  · exact h1
  · exact h2

theorem FitsSigned.map (h : FitsSigned ρ w e1 n1) (hn : n1 ≤ n)
    (hv : InRange n1 (e1.signed ρ) → InRange n (e.signed ρ)) :
    FitsSigned ρ w e n :=
  h.imp hv fun hw => hw.trans hn

theorem FitsSigned.map₂ (h1 : FitsSigned ρ w e1 n1)
    (h2 : FitsSigned ρ w e2 n2) (hn1 : n1 ≤ n) (hn2 : n2 ≤ n)
    (hv : InRange n1 (e1.signed ρ) → InRange n2 (e2.signed ρ) →
      InRange n (e.signed ρ)) : FitsSigned ρ w e n := by
  rcases h1 with h1 | hw
  · exact h2.map hn2 (hv h1)
  · exact .inr (hw.trans hn1)

def SignedBounds (ρ : Valuation μ) (w : ℕ) (e : Exp) (r : ℤ) : Prop :=
  ∃ n : ℕ, r = n ∧ n ≤ 64 ∧ FitsSigned ρ w e n

theorem SignedBounds.width : SignedBounds ρ w e e.width :=
  ⟨e.width, rfl, e.width_le, .inl (inRange_toInt (Nat.le_succ _))⟩

/-- What the body relies on at one expression. -/
structure NarrowsSignedAt (ρ : Valuation μ) (e : Exp) : Prop where
  typed : e.WellTyped
  mod : ∀ e1 e2, e = .binOp .mod e1 e2 → 0 ≤ e1.signed ρ ∧ 0 < e2.signed ρ
  smod : ∀ e1 e2, e = .binOp .smod e1 e2 → e2.signed ρ ≠ 0
  times : ∀ e1 e2, e = .binOp .times e1 e2 →
    ¬BothNegatedPowers (e1.signed ρ) (e2.signed ρ)
  cast : ∀ t e1, e = .cast .castUnsigned t e1 → e1.width < t.width →
    0 ≤ e1.signed ρ
  count : ∀ e1 t v, e = .binOp .lshift e1 (.int t v) → CountRead t v

theorem narrowBitwidthSignedBody_lshift {coin : Exp → Bool} {e0 : Exp}
    (h : ∀ t v, e2 ≠ .int t v) :
    narrowBitwidthSignedBody coin e0 (.binOp .lshift e1 e2) =
      typeBits coin e0 := by
  cases e2 with
  | constant v =>
    cases v with
    | int t i => exact absurd rfl (h t i)
    | str s => rfl
  | _ => rfl

/-- On values that are not negative the two moduli agree. -/
theorem signed_mod (h : e2.typ = e1.typ) (hw : 0 < e1.width)
    (h1 : 0 ≤ e1.signed ρ) (h2 : 0 ≤ e2.signed ρ) :
    (Exp.binOp .mod e1 e2).signed ρ = (e1.signed ρ).tmod (e2.signed ρ) := by
  have hlt := (e1.signed_bounds ρ).2
  have hle : e1.unsigned ρ % e2.unsigned ρ ≤ e1.unsigned ρ := Nat.mod_le _ _
  have hval := unsigned_mod (ρ := ρ) h
  rw [signed_eq_unsigned h1] at hlt ⊢
  rw [signed_eq_unsigned h2, signed_of_lt, hval]
  · rfl
  · have hpow : 2 ^ e1.width = 2 * 2 ^ (e1.width - 1) := by
      rw [← pow_succ', Nat.sub_add_cancel hw]
    have hlt' : e1.unsigned ρ < 2 ^ (e1.width - 1) := by exact_mod_cast hlt
    rw [hval]
    change _ < 2 ^ e1.width
    omega

/-- An extension by zeros keeps a value that is not negative. -/
theorem inRange_castUnsigned {t : Typ} (ht : 0 < t.width)
    (hneg : e1.width < t.width → 0 ≤ e1.signed ρ)
    (h : InRange n (e1.signed ρ)) :
    InRange n ((Exp.cast .castUnsigned t e1).signed ρ) := by
  by_cases hlt : e1.width < t.width
  · have hval : (Exp.cast .castUnsigned t e1).signed ρ = e1.signed ρ := by
      have hpow : 2 ^ (e1.width + 1) ≤ 2 ^ t.width :=
        Nat.pow_le_pow_right (by norm_num) hlt
      have hu := e1.unsigned_lt ρ
      have hval : (Exp.cast .castUnsigned t e1).unsigned ρ = e1.unsigned ρ := by
        rw [unsigned_castUnsigned, Nat.mod_eq_of_lt (by omega)]
      rw [signed_eq_unsigned (hneg hlt), signed_of_lt, hval]
      rw [hval]
      change _ < 2 ^ t.width
      omega
    rwa [hval]
  · exact h.of_bmod (toInt_setWidth_eq_bmod _ (not_lt.mp hlt)) ht

theorem inRange_castLow {t : Typ} (ht : 0 < t.width) (hle : t.width ≤ e1.width)
    (h : InRange n (e1.signed ρ)) :
    InRange n ((Exp.cast .castLow t e1).signed ρ) :=
  h.of_bmod (toInt_setWidth_eq_bmod _ hle) ht

section Body

variable {l : List Exp} {coin : Exp → Bool} {e0 : Exp}

theorem meetsSigned_max (h1 : e1 ∈ l) (h2 : e2 ∈ l)
    (hv : ∀ n, InRange n (e1.signed ρ) → InRange n (e2.signed ρ) →
      InRange n (e.signed ρ)) :
    (both max e1 e2).Meets (· ∈ l) (SignedBounds ρ w) (SignedBounds ρ w e) := by
  apply meets_both h1 h2
  rintro _ _ ⟨n1, rfl, hn1, hf1⟩ ⟨n2, rfl, hn2, hf2⟩
  refine ⟨max n1 n2, by push_cast; rfl, by omega, ?_⟩
  refine hf1.map₂ hf2 (le_max_left _ _) (le_max_right _ _) fun hr1 hr2 => ?_
  exact hv _ (hr1.mono (le_max_left _ _)) (hr2.mono (le_max_right _ _))

theorem meetsSigned_min (h1 : e1 ∈ l) (h2 : e2 ∈ l)
    (hv1 : ∀ n, InRange n (e1.signed ρ) → InRange n (e.signed ρ))
    (hv2 : ∀ n, InRange n (e2.signed ρ) → InRange n (e.signed ρ)) :
    (both min e1 e2).Meets (· ∈ l) (SignedBounds ρ w) (SignedBounds ρ w e) := by
  apply meets_both h1 h2
  rintro _ _ ⟨n1, rfl, hn1, hf1⟩ ⟨n2, rfl, hn2, hf2⟩
  refine ⟨min n1 n2, by push_cast; rfl, by omega, ?_⟩
  exact (hf1.map le_rfl (hv1 n1)).min (hf2.map le_rfl (hv2 n2))

theorem meetsSigned_cast {t : Typ} (h1 : e1 ∈ l) (ht : e.width = t.width)
    (hv : ∀ n, InRange n (e1.signed ρ) → InRange n (e.signed ρ)) :
    (do pure (min (t.width : ℤ) (← Body.loop e1)) : Analysis ℤ).Meets
      (· ∈ l) (SignedBounds ρ w) (SignedBounds ρ w e) := by
  apply meets_loop h1
  rintro _ ⟨n1, rfl, hn1, hf1⟩
  refine ⟨min t.width n1, by push_cast; rfl, by omega, ?_⟩
  exact .min (.inl (inRange_toInt (by omega))) (hf1.map le_rfl (hv n1))

theorem meetsSigned_clamped {x : Analysis ℤ} {g : ℤ → ℤ}
    (he0 : e0.WellTyped)
    (hx : x.Meets (· ∈ l) (SignedBounds ρ e0.width)
      fun a => ∃ n : ℕ, g a = n ∧ FitsSigned ρ e0.width e n) :
    (x >>= fun a => clampHigh coin e0 (g a)).Meets (· ∈ l)
      (SignedBounds ρ e0.width) (SignedBounds ρ e0.width e) := by
  refine hx.bind fun a ⟨n, hn, hf⟩ => meets_clampHigh coin he0 ?_
  have hle := e0.width_le
  exact ⟨min n e0.width, by rw [hn]; push_cast; rfl, by omega,
    hf.min (.inr le_rfl)⟩

end Body

theorem narrowBitwidthSignedBody_meets {coin : Exp → Bool} {e0 : Exp}
    (he0 : e0.WellTyped) (h : NarrowsSignedAt ρ e) :
    (narrowBitwidthSignedBody coin e0 e).Meets (· ∈ narrowSignedReads e)
      (SignedBounds ρ e0.width) (SignedBounds ρ e0.width e) := by
  obtain ⟨he, hmod, hsmod, htimes, hcast, hcount⟩ := h
  have hwidth : (typeBits coin e0).Meets (· ∈ narrowSignedReads e)
      (SignedBounds ρ e0.width) (SignedBounds ρ e0.width e) :=
    meets_typeBits coin he0 ⟨_, rfl, e0.width_le, .inr le_rfl⟩
  cases e with
  | binOp op e1 e2 =>
    obtain ⟨h1, -, hadm⟩ := id he
    have hpos := h1.width_pos
    cases op with
    | bitand =>
      apply meetsSigned_max (by simp [narrowSignedReads])
        (by simp [narrowSignedReads])
      intro n hr1 hr2
      rw [← toInt_eval hadm] at hr2
      exact hr1.and hr2
    | bitor =>
      apply meetsSigned_max (by simp [narrowSignedReads])
        (by simp [narrowSignedReads])
      intro n hr1 hr2
      rw [← toInt_eval hadm] at hr2
      exact hr1.or hr2
    | xor =>
      apply meetsSigned_max (by simp [narrowSignedReads])
        (by simp [narrowSignedReads])
      intro n hr1 hr2
      rw [← toInt_eval hadm] at hr2
      exact hr1.xor hr2
    | mod =>
      obtain ⟨hs1, hs2⟩ := hmod e1 e2 rfl
      have hval := signed_mod hadm hpos hs1 hs2.le
      apply meetsSigned_min (by simp [narrowSignedReads])
        (by simp [narrowSignedReads])
      · intro n hr
        rw [hval]
        exact hr.tmod_left
      · intro n hr
        rw [hval]
        exact hr.tmod_right hs2.ne'
    | smod =>
      apply meetsSigned_min (by simp [narrowSignedReads])
        (by simp [narrowSignedReads])
      · intro n hr
        rw [signed_smod hadm]
        exact hr.tmod_left
      · intro n hr
        rw [signed_smod hadm]
        exact hr.tmod_right (hsmod e1 e2 rfl)
    | plus =>
      refine meetsSigned_clamped he0 (meets_both (by simp [narrowSignedReads])
        (by simp [narrowSignedReads]) ?_)
      rintro _ _ ⟨n1, rfl, hn1, hf1⟩ ⟨n2, rfl, hn2, hf2⟩
      refine ⟨1 + max n1 n2, ?_, hf1.map₂ hf2 (by omega) (by omega) ?_⟩
      · rw [← Nat.cast_max]
        exact addInt_natCast (n := 1) (by omega)
      · intro hr1 hr2
        rw [signed_plus hadm]
        exact (hr1.add hr2).bmod hpos
    | times =>
      refine meetsSigned_clamped (g := id) he0 (meets_both
        (by simp [narrowSignedReads]) (by simp [narrowSignedReads]) ?_)
      rintro _ _ ⟨n1, rfl, hn1, hf1⟩ ⟨n2, rfl, hn2, hf2⟩
      refine ⟨n1 + n2, ?_, hf1.map₂ hf2 (by omega) (by omega) ?_⟩
      · rw [id_eq]
        exact addInt_natCast (by omega)
      · intro hr1 hr2
        rw [signed_times hadm]
        exact (hr1.mul hr2 (htimes e1 e2 rfl)).bmod hpos
    | lshift =>
      rcases count_cases e2 with ⟨t, v, rfl⟩ | hother
      · have hread := hcount e1 t v rfl
        have hlt := hread.2
        refine meetsSigned_clamped he0
          (meets_call (by simp [narrowSignedReads]) ?_)
        rintro _ ⟨n1, rfl, hn1, hf1⟩
        refine ⟨n1 + v.toNat, ?_, hf1.map (by omega) ?_⟩
        · rw [hread.toOCamlInt]
          exact addInt_natCast (by omega)
        · intro hr
          rw [signed_lshift, hread.unsigned]
          exact (hr.mul_pow v.toNat).bmod hpos
      · rw [narrowBitwidthSignedBody_lshift hother]
        exact hwidth
    | eq | neq | lt | le | slt | sle =>
      exact .width
    | minus | divide | sdivide | rshift | arshift | concat => exact hwidth
  | constant v =>
    cases v with
    | int t i =>
      obtain ⟨m1, hm1, hle1, hlt1⟩ := lt_two_pow_floorLog2 i
      obtain ⟨m2, hm2, hle2, hlt2⟩ :=
        lt_two_pow_floorLog2 (-(i.setWidth t.width).signExtend 64)
      refine Body.Meets.bind (R := (· = (i.setWidth t.width).signExtend 64))
        (.ofExcept (fixS_eq he i) rfl) ?_
      rintro _ rfl
      refine ⟨min m1 m2, by rw [hm1, hm2]; push_cast; rfl, by omega, .inl ?_⟩
      apply InRange.min
      · refine inRange_of_toNat he.width_pos ?_
        rw [← Exp.unsigned, unsigned_int]
        exact (Nat.mod_le _ _).trans_lt hlt1
      · have hr := inRange_of_neg hlt2
        rwa [BitVec.toInt_signExtend_of_le t.width_le] at hr
    | str s => exact he.elim
  | temp v => exact hwidth
  | mem v addr t =>
    have ht : t.IsReg := he.2.1
    cases t with
    | reg64 | reg1 => exact hwidth
    | reg8 | reg16 | reg32 => exact .width
    | _ => exact ht.elim
  | name l => exact hwidth
  | unOp op e1 => exact hwidth
  | cast ct t e1 =>
    obtain ⟨-, ht, hadm⟩ := id he
    have hpos := ht.width_pos
    have hv : ct ≠ .castHigh → ∀ n, InRange n (e1.signed ρ) →
        InRange n ((Exp.cast ct t e1).signed ρ) := by
      intro hct n hr
      cases ct with
      | castUnsigned => exact inRange_castUnsigned hpos (hcast t e1 rfl) hr
      | castSigned => rwa [signed_castSigned t hadm]
      | castLow => exact inRange_castLow hpos hadm hr
      | castHigh => exact absurd rfl hct
    cases ct with
    | castUnsigned | castSigned =>
      cases t with
      | reg1 | reg8 | reg16 | reg32 | reg64 =>
        exact meetsSigned_cast (by simp [narrowSignedReads]) rfl (hv (by decide))
      | _ => exact ht.elim
    | castLow =>
      cases t with
      | reg64 => exact hwidth
      | reg1 | reg8 | reg16 | reg32 =>
        exact meetsSigned_cast (by simp [narrowSignedReads]) rfl (hv (by decide))
      | _ => exact ht.elim
    | castHigh =>
      cases t with
      | reg64 => exact hwidth
      | reg1 | reg8 | reg16 | reg32 => exact .width
      | _ => exact ht.elim
  | letTemp v e1 e2 => exact hwidth
  | letMem v addr t e1 e2 => exact hwidth
  | ite cond e1 e2 =>
    obtain ⟨-, -, -, -, htyp⟩ := id he
    apply meetsSigned_max (by simp [narrowSignedReads])
      (by simp [narrowSignedReads])
    intro n h1 h2
    rw [signed_ite htyp]
    split_ifs
    · exact h1
    · exact h2
  | _ => exact he.elim

/-- What has to hold of the expressions that the analysis walks to: the count
of a left shift is read right, the operands of an unsigned modulus and of a
widening unsigned cast are not negative, and no product is one of two negated
powers of two. -/
structure NarrowsSignedSafely (defs : Definitions) (ρ : Valuation μ)
    (e : Exp) : Prop where
  count : ∀ e1 t v,
    Walks defs narrowSignedReads e (.binOp .lshift e1 (.int t v)) →
      CountRead t v
  mod : ∀ e1 e2, Walks defs narrowSignedReads e (.binOp .mod e1 e2) →
    0 ≤ e1.signed ρ ∧ 0 ≤ e2.signed ρ
  cast : ∀ t e1, Walks defs narrowSignedReads e (.cast .castUnsigned t e1) →
    e1.width < t.width → 0 ≤ e1.signed ρ
  times : ∀ e1 e2, Walks defs narrowSignedReads e (.binOp .times e1 e2) →
    ¬BothNegatedPowers (e1.signed ρ) (e2.signed ρ)

theorem signedBounds_definition {v : Var} {d : Exp} {r : ℤ}
    (hρ : defs.Holds ρ) (hd : defs.exprTemp v.id = some d)
    (ht : d.typ = v.typ) (h : SignedBounds ρ w d r) :
    SignedBounds ρ w (.temp v) r ∧
      SignedBounds ρ w (.temp v) (min v.typ.width r) := by
  obtain ⟨n, rfl, hn, hf⟩ := h
  have hfit : FitsSigned ρ w (.temp v) n := by
    rwa [FitsSigned, hρ.signed hd ht]
  have hwidth : FitsSigned ρ w (.temp v) v.typ.width :=
    .inl (inRange_toInt (Nat.le_succ _))
  refine ⟨⟨n, rfl, hn, hfit⟩, Min.min v.typ.width n, by push_cast; rfl,
    by omega, hwidth.min hfit⟩

theorem signed_ne_zero (h : e.unsigned ρ ≠ 0) : e.signed ρ ≠ 0 := by
  intro h0
  apply h
  rw [signed_eq_unsigned h0.ge] at h0
  exact_mod_cast h0

theorem narrowBitwidthSigned_bounds (coin : Exp → Bool) (hdefs : defs.Typed)
    (he : e.WellTyped) (ha : defs.Agrees e) (hρ : defs.Holds ρ)
    (hdiv : DivisorsNonzero defs narrowSignedReads ρ e)
    (hsafe : NarrowsSignedSafely defs ρ e) :
    ∃ r, (narrowBitwidthSigned coin defs e).Returns e r ∧
      SignedBounds ρ e.width e r := by
  have htyped := fun d (hd : Walks defs narrowSignedReads e d) =>
    hd.typed narrowSignedReads_operands hdefs he ha
  apply mapExprTemp_returns
    (L := fun d => NarrowsSignedAt ρ d ∧ defs.Agrees d)
    (Q := SignedBounds ρ e.width) narrowSignedReads_operands
  · intro d hd _
    exact narrowBitwidthSignedBody_meets he hd.1
  · intro v d r hv hd hr
    have ht : d.typ = v.typ := hv.2 v (by simp [Exp.vars]) d hd
    exact signedBounds_definition hρ hd ht hr
  · intro d hd
    refine ⟨⟨(htyped d hd).1, ?_, ?_, ?_, ?_, ?_⟩, (htyped d hd).2⟩
    · rintro e1 e2 rfl
      obtain ⟨h1, h2⟩ := hsafe.mod e1 e2 hd
      have hne := signed_ne_zero (hdiv .mod (by simp) e1 e2 hd)
      exact ⟨h1, lt_of_le_of_ne h2 hne.symm⟩
    · rintro e1 e2 rfl
      exact signed_ne_zero (hdiv .smod (by simp) e1 e2 hd)
    · rintro e1 e2 rfl
      exact hsafe.times e1 e2 hd
    · rintro t e1 rfl
      exact hsafe.cast t e1 hd
    · rintro e1 t v rfl
      exact hsafe.count e1 t v hd

/-- At the width of the whole expression the clamp does no harm. -/
theorem SignedBounds.sound {r : ℤ} (h : SignedBounds ρ e.width e r) :
    0 ≤ r ∧ InRange r.toNat (e.signed ρ) := by
  obtain ⟨n, rfl, -, hf⟩ := h
  refine ⟨Int.natCast_nonneg n, ?_⟩
  rw [Int.toNat_natCast]
  rcases hf with hf | hw
  · exact hf
  · exact inRange_toInt (by omega)

/-- A byte, extended by its sign, modulo ten. -/
def signedDigit : Exp :=
  .binOp .smod (.cast .castSigned .reg32 (.temp ⟨0, [], .reg8⟩))
    (.int .reg32 10)

theorem walks_signedDigit {d : Exp}
    (h : Walks .none narrowSignedReads signedDigit d) :
    d ∈ [signedDigit, .cast .castSigned .reg32 (.temp ⟨0, [], .reg8⟩),
      .temp ⟨0, [], .reg8⟩, .int .reg32 10] := by
  apply h.mem
  · simp
  · simp [signedDigit, narrowSignedReads]
  · intro v hv d hd
    cases hd

/-- The byte 255, extended by zeros to a word. -/
def wideByte : Exp := .cast .castUnsigned .reg32 (.int .reg8 0xff)

end Signed

/-! ## The analysis returns -/

section Total

variable {defs : Definitions} {coin : Exp → Bool} {e e0 : Exp}

theorem fixS_ok {t : Typ} (ht : t.IsReg) (v : I64) : ∃ s, fixS t v = .ok s := by
  cases t with
  | reg1 | reg8 | reg16 | reg32 | reg64 => exact ⟨_, rfl⟩
  | _ => exact ht.elim

theorem narrowBitwidthSignedBody_total (he0 : e0.WellTyped)
    (he : e.WellTyped) :
    Total (narrowBitwidthSignedBody coin e0 e) (narrowSignedReads e) := by
  have hconstant : ∀ t v, e = .int t v → ∀ (g : I64 → ℤ) l,
      Total (do pure (g (← Body.ofExcept (fixS t v)))) l := by
    rintro t v rfl g l
    obtain ⟨s, hs⟩ := fixS_ok he v
    have hfix : (Body.ofExcept (fixS t v) : Analysis I64).Meets (· ∈ l)
        (fun _ _ => True) fun _ => True := .ofExcept hs trivial
    exact hfix.bind fun _ _ => trivial
  unfold narrowBitwidthSignedBody
  split
  all_goals first
    | exact trivial
    | exact he.elim
    | exact hconstant _ _ rfl _ _
    | exact total_both _ (by simp [narrowSignedReads])
        (by simp [narrowSignedReads])
    | exact total_loop _ (by simp [narrowSignedReads])
    | exact total_clampHigh he0 (total_both _ (by simp [narrowSignedReads])
        (by simp [narrowSignedReads]))
    | exact total_clampHigh he0
        (meets_call (by simp [narrowSignedReads]) fun _ _ => trivial)
    | exact total_typeBits he0

theorem narrowBitwidthSigned_returns (coin : Exp → Bool) (hdefs : defs.Typed)
    (he : e.WellTyped) (ha : defs.Agrees e) :
    ∃ r, (narrowBitwidthSigned coin defs e).Returns e r := by
  obtain ⟨r, hr, -⟩ :
      ∃ r, (narrowBitwidthSigned coin defs e).Returns e r ∧ True := by
    apply mapExprTemp_returns (L := Exp.WellTyped) (Q := fun _ _ => True)
      narrowSignedReads_operands
    · intro d hd _
      exact narrowBitwidthSignedBody_total he hd
    · intros
      exact ⟨trivial, trivial⟩
    · intro d hd
      exact (hd.typed narrowSignedReads_operands hdefs he ha).1
  exact ⟨r, hr⟩

end Total

end Fuzzball.SymRegion
