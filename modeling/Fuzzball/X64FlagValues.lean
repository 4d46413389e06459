import Fuzzball.X64Flags

/-!
# What the 64-bit flag formulas denote

For each operation, on operands that VEX has extended to 64 bits, the
expressions for the flags have the values that the architecture defines, but
for the signed product of 64 bits.
-/

namespace Fuzzball.Asmir.X64

open Vine X86

variable {μ : Type} [VineMemory μ] {ρ : Valuation μ} {t : Typ}
  {dep1 dep2 ndep : Exp} {old : Flags}

/-- The widths of the 64-bit instruction set. -/
def Wide (t : Typ) : Prop := t ∈ types

theorem Wide.le (ht : Wide t) : 8 ≤ t.width ∧ t.width ≤ 64 := by
  simp only [Wide, types, List.mem_cons, List.not_mem_nil, or_false] at ht
  rcases ht with rfl | rfl | rfl | rfl <;> decide

/-! ## Formulas and flags -/

/-- The expression for a flag has the value that the flag is to get; a flag
without an expression is to stay. -/
def FormulaHolds (ρ : Valuation μ) (old : Bool) :
    Option Exp → Option Bool → Prop
  | some e, target => ∃ b, DenotesBool ρ e b ∧ ∀ b', target = some b' → b' = b
  | none, target => ∀ b', target = some b' → b' = old

theorem formulaHolds_some
    {e : Exp} {b o : Bool} (he : DenotesBool ρ e b) :
    FormulaHolds ρ o (some e) (some b) :=
  ⟨b, he, fun _ hb => (Option.some.inj hb).symm⟩

theorem formulaHolds_undefined
    {e : Exp} {b o : Bool} (he : DenotesBool ρ e b) :
    FormulaHolds ρ o (some e) none :=
  ⟨b, he, fun _ hb => nomatch hb⟩

theorem formulaHolds_kept {o : Bool} :
    FormulaHolds ρ o none (some o) :=
  fun _ hb => (Option.some.inj hb).symm

def Formulas (ρ : Valuation μ) (old : Flags) (flags : FlagExps)
    (target : Flag → Option Bool) : Prop :=
  ∀ f, FormulaHolds ρ (old f) (flags f) (target f)

theorem formulas_flagExps
    {cf pf af zf sf of : Option Exp} {target : Flag → Option Bool}
    (hcf : FormulaHolds ρ (old .cf) cf (target .cf))
    (hpf : FormulaHolds ρ (old .pf) pf (target .pf))
    (haf : FormulaHolds ρ (old .af) af (target .af))
    (hzf : FormulaHolds ρ (old .zf) zf (target .zf))
    (hsf : FormulaHolds ρ (old .sf) sf (target .sf))
    (hof : FormulaHolds ρ (old .of) of (target .of)) :
    Formulas ρ old (flagExps cf pf af zf sf of) target := by
  intro f
  cases f
  case cf => exact hcf
  case pf => exact hpf
  case af => exact haf
  case zf => exact hzf
  case sf => exact hsf
  case of => exact hof

/-! ## The helpers -/

section Helpers

variable {w : ℕ} {e a b : Exp} {x y : BitVec 64} {r : BitVec w}

theorem denotes_narrow64 (ht : Wide t) (he : Denotes ρ e .reg64 x) :
    Denotes ρ (narrow64 e t) t (x.setWidth t.width) := by
  simp only [Wide, types, List.mem_cons, List.not_mem_nil, or_false] at ht
  rcases ht with rfl | rfl | rfl | rfl
  · exact he.lcast .reg8
  · exact he.lcast .reg16
  · exact he.lcast .reg32
  · simpa [narrow64] using he

theorem Wide.low (ht : Wide t) (x : BitVec t.width) :
    (x.setWidth 64).setWidth t.width = x := by
  rw [BitVec.setWidth_setWidth_of_le _ ht.le.2, BitVec.setWidth_eq]

/-- An operand as VEX stores it, read at its own type. -/
theorem denotes_operand (ht : Wide t) {x : BitVec t.width}
    (he : Denotes ρ e .reg64 (x.setWidth 64)) :
    Denotes ρ (narrow64 e t) t x := by
  have h := denotes_narrow64 ht he
  rwa [ht.low] at h

theorem denotes_signBitOf (ht : Wide t) {x : BitVec t.width}
    (he : Denotes ρ e .reg64 (x.setWidth 64)) :
    DenotesBool ρ (signBitOf e t) x.msb :=
  denotes_highBit (denotes_operand ht he)

theorem denotes_parity8 (he : Denotes ρ e t r) :
    DenotesBool ρ (parity8 e) (evenParity r) := by
  have shift := fun i : BitVec 32 => he.shr (.const32 i)
  have h := denotes_bit0 ((((shift 7).xor (shift 6)).xor
    ((shift 5).xor (shift 4))).xor
    (((shift 3).xor (shift 2)).xor ((shift 1).xor he))) |>.notBool
  simp only [BitVec.getLsbD_xor, BitVec.getLsbD_ushiftRight] at h
  rw [evenParity_eq]
  exact h

theorem denotes_getBit {i : ℕ} (hi : i < 2 ^ 32) (he : Denotes ρ e t r) :
    DenotesBool ρ (exGetBit e (BitVec.ofNat 32 i)) (r.getLsbD i) := by
  have h := denotes_bit0 (he.shr (.const32 (BitVec.ofNat 32 i)))
  rwa [BitVec.getLsbD_ushiftRight, BitVec.toNat_ofNat, Nat.mod_eq_of_lt hi,
    Nat.add_zero] at h

end Helpers

/-! ## Sums and differences -/

section Arithmetic

variable {a b d m r : BitVec t.width} {c : Bool}

/-- The result, from which three flags are read. -/
theorem yields_result {β : Type} {Q : β → Prop} {result_w : Exp}
    {x : BitVec 64} {k : Exp → Emit β} (ht : Wide t)
    (hres : Denotes ρ result_w .reg64 x) (hr : x.setWidth t.width = r)
    (hk : ∀ result, Denotes ρ result t r → Yields ρ (k result) Q) :
    Yields ρ (mkTempDef t (narrow64 result_w t) >>= k) Q := by
  have h := denotes_narrow64 ht hres
  rw [hr] at h
  exact yields_temp h hk

theorem denotes_zero (t : Typ) : Denotes ρ (exConstOf t 0) t (0 : BitVec t.width) := by
  have h := Denotes.constOf (ρ := ρ) t 0
  have hzero : (0 : I64).setWidth t.width = 0 := BitVec.setWidth_zero ..
  rwa [hzero] at h

/-- Bit 4 depends on the low bits of the operands only. -/
theorem denotes_auxiliary (ht : Wide t) {e e1 e2 : Exp} {x : BitVec 64}
    (he : Denotes ρ e .reg64 x) (hr : x.setWidth t.width = r)
    (h1 : Denotes ρ e1 .reg64 (a.setWidth 64))
    (h2 : Denotes ρ e2 .reg64 (d.setWidth 64)) :
    DenotesBool ρ (exGetBit (exXor3 e e1 e2) 4)
      ((r ^^^ (a ^^^ d)).getLsbD 4) := by
  have hw := ht.le
  have hfour : 4 < t.width := by omega
  have h := denotes_getBit (i := 4) (by decide) (he.xor (h1.xor h2))
  have hlow : (x ^^^ (a.setWidth 64 ^^^ d.setWidth 64)).getLsbD 4 =
      (r ^^^ (a ^^^ d)).getLsbD 4 := by
    rw [← hr]
    simp [hfour]
  rw [hlow] at h
  exact h

theorem sum_low (ht : Wide t) :
    (a.setWidth 64 + b.setWidth 64).setWidth t.width = sum a b false := by
  rw [BitVec.setWidth_add _ _ ht.le.2, ht.low, ht.low, sum_false]

theorem difference_low (ht : Wide t) :
    (a.setWidth 64 - b.setWidth 64).setWidth t.width =
      difference a b false := by
  rw [Bits.setWidth_sub ht.le.2, ht.low, ht.low, difference_false]

theorem addFlags_yields (ht : Wide t)
    (h1 : Denotes ρ dep1 .reg64 (a.setWidth 64))
    (h2 : Denotes ρ dep2 .reg64 (b.setWidth 64)) :
    Yields ρ (addFlags t dep1 dep2)
      fun flags => Formulas ρ old flags (X86.addFlags a b false) := by
  have hw := ht.le
  have hpos : 0 < t.width := by omega
  have hfour : 4 < t.width := by omega
  have hsum := sum_low (a := a) (b := b) ht
  apply yields_temp (h1.add h2)
  intro result_w hres_w
  apply yields_result ht hres_w hsum
  intro result hres
  apply yields_temp (denotes_highBit hres)
  intro sign_bit hsign
  have hcf := hres.lt (denotes_operand ht h1)
  have hcarry := carry_eq hpos a b false
  rw [if_neg Bool.false_ne_true] at hcarry
  rw [hcarry] at hcf
  have haf := denotes_auxiliary ht hres_w hsum h1 h2
  rw [auxiliaryCarry_eq hfour] at haf
  have hof := (hsign.xorBool (denotes_signBitOf ht h1)).andBool
    (hsign.xorBool (denotes_signBitOf ht h2))
  have hover := overflow_eq hpos a b false
  have hsigns : (((sum a b false).msb ^^ a.msb) &&
      ((sum a b false).msb ^^ b.msb)) =
      (!(a.msb ^^ b.msb) && (a.msb ^^ (sum a b false).msb)) := by
    cases a.msb <;> cases b.msb <;> cases (sum a b false).msb <;> rfl
  rw [hsigns, hover] at hof
  apply yields_pure
  exact formulas_flagExps (formulaHolds_some hcf)
    (formulaHolds_some (denotes_parity8 hres)) (formulaHolds_some haf)
    (formulaHolds_some (hres.eq (denotes_zero t)))
    (formulaHolds_some hsign) (formulaHolds_some hof)

theorem subFlags_yields (ht : Wide t)
    (h1 : Denotes ρ dep1 .reg64 (a.setWidth 64))
    (h2 : Denotes ρ dep2 .reg64 (b.setWidth 64)) :
    Yields ρ (subFlags t dep1 dep2)
      fun flags => Formulas ρ old flags (X86.subFlags a b false) := by
  have hw := ht.le
  have hpos : 0 < t.width := by omega
  have hfour : 4 < t.width := by omega
  have hdiff := difference_low (a := a) (b := b) ht
  apply yields_temp (h1.sub h2)
  intro result_w hres_w
  apply yields_result ht hres_w hdiff
  intro result hres
  have hcf := h1.lt h2
  have hborrow := borrow_eq a b false
  rw [if_neg Bool.false_ne_true] at hborrow
  rw [ult_setWidth hw.2, hborrow] at hcf
  have haf := denotes_auxiliary ht hres_w hdiff h1 h2
  rw [auxiliaryBorrow_eq hfour] at haf
  have hsf := denotes_highBit hres
  have hof := hsf.xorBool
    ((denotes_operand ht h1).slt (denotes_operand ht h2))
  have hover := subOverflow_eq_slt hpos a b false
  rw [if_neg Bool.false_ne_true] at hover
  rw [hover] at hof
  apply yields_pure
  exact formulas_flagExps (formulaHolds_some hcf)
    (formulaHolds_some (denotes_parity8 hres)) (formulaHolds_some haf)
    (formulaHolds_some (hres.eq (denotes_zero t)))
    (formulaHolds_some hsf) (formulaHolds_some hof)

/-- The flags of an addition with carry, from the second argument `d` and the
old carry `m` that the code reads. -/
def adcValues {w : ℕ} (a d m : BitVec w) : Flag → Option Bool :=
  let r := a + (d ^^^ m) + m
  fun
  | .cf => some (if m.getLsbD 0 then r.ule a else r.ult a)
  | .af => some ((r ^^^ (a ^^^ d)).getLsbD 4)
  | .of => some ((a.msb == d.msb) && (a.msb != r.msb))
  | f => resultFlags r f

/-- The flags of a subtraction with borrow, likewise. -/
def sbbValues {w : ℕ} (a d m : BitVec w) : Flag → Option Bool :=
  let r := a - (d ^^^ m) - m
  fun
  | .cf => some (if m.getLsbD 0 then a.ule (d ^^^ m) else a.ult (d ^^^ m))
  | .af => some ((r ^^^ (a ^^^ d)).getLsbD 4)
  | .of => some (r.msb ^^
      (if m.getLsbD 0 then a.sle (d ^^^ m) else a.slt (d ^^^ m)))
  | f => resultFlags r f

theorem denotes_eqBool
    {e e' : Exp} {p q : Bool} (h : DenotesBool ρ e p)
    (h' : DenotesBool ρ e' q) : DenotesBool ρ (exEq e e') (p == q) := by
  have heq := Denotes.eq h h'
  cases p <;> cases q <;> exact heq

theorem denotes_neqBool
    {e e' : Exp} {p q : Bool} (h : DenotesBool ρ e p)
    (h' : DenotesBool ρ e' q) : DenotesBool ρ (exNeq e e') (p != q) := by
  have heq := Denotes.neq h h'
  cases p <;> cases q <;> exact heq

/-- The low bit of an operand. -/
theorem denotes_lowBit (ht : Wide t)
    (h : Denotes ρ dep1 .reg64 (m.setWidth 64)) :
    DenotesBool ρ (exLCast dep1 .reg1) (m.getLsbD 0) := by
  have hw := ht.le
  have hbit := denotes_bit0 h
  rwa [BitVec.getLsbD_setWidth, decide_eq_true (by decide), Bool.true_and]
    at hbit

theorem adcFlags_yields (old : Flag → Bool) (ht : Wide t)
    (h1 : Denotes ρ dep1 .reg64 (a.setWidth 64))
    (h2 : Denotes ρ dep2 .reg64 (d.setWidth 64))
    (h3 : Denotes ρ ndep .reg64 (m.setWidth 64)) :
    Yields ρ (adcFlags t dep1 dep2 ndep)
      fun flags => Formulas ρ old flags (adcValues a d m) := by
  have hw := ht.le.2
  have harg2 := h2.xor h3
  have hsum : (a.setWidth 64 + (d.setWidth 64 ^^^ m.setWidth 64) +
      m.setWidth 64).setWidth t.width = a + (d ^^^ m) + m := by
    rw [← BitVec.setWidth_xor, BitVec.setWidth_add _ _ hw,
      BitVec.setWidth_add _ _ hw, ht.low, ht.low, ht.low]
  apply yields_temp harg2
  intro arg2_w harg2
  apply yields_temp ((h1.add harg2).add h3)
  intro result_w hres_w
  apply yields_result ht hres_w hsum
  intro result hres
  apply yields_temp (denotes_operand ht h1)
  intro arg1 harg1
  apply yields_temp (denotes_highBit harg1)
  intro arg1_sign hsign1
  apply yields_temp (denotes_highBit hres)
  intro res_sign hsign
  have hcf := (denotes_lowBit ht h3).iteBool (hres.le harg1) (hres.lt harg1)
  have haf := denotes_auxiliary ht hres_w hsum h1 h2
  have hof := (denotes_eqBool hsign1 (denotes_signBitOf ht h2)).andBool
    (denotes_neqBool hsign1 hsign)
  apply yields_pure
  exact formulas_flagExps (formulaHolds_some hcf)
    (formulaHolds_some (denotes_parity8 hres)) (formulaHolds_some haf)
    (formulaHolds_some (hres.eq (denotes_zero t)))
    (formulaHolds_some hsign) (formulaHolds_some hof)

theorem sbbFlags_yields (old : Flag → Bool) (ht : Wide t)
    (h1 : Denotes ρ dep1 .reg64 (a.setWidth 64))
    (h2 : Denotes ρ dep2 .reg64 (d.setWidth 64))
    (h3 : Denotes ρ ndep .reg64 (m.setWidth 64)) :
    Yields ρ (sbbFlags t dep1 dep2 ndep)
      fun flags => Formulas ρ old flags (sbbValues a d m) := by
  have hw := ht.le.2
  have hxor : (d.setWidth 64 ^^^ m.setWidth 64).setWidth t.width =
      d ^^^ m := by
    rw [← BitVec.setWidth_xor, ht.low]
  have hdiff : (a.setWidth 64 - (d.setWidth 64 ^^^ m.setWidth 64) -
      m.setWidth 64).setWidth t.width = a - (d ^^^ m) - m := by
    rw [Bits.setWidth_sub hw, Bits.setWidth_sub hw, hxor, ht.low, ht.low]
  apply yields_temp (denotes_operand ht h1)
  intro arg1 harg1
  apply yields_temp (h2.xor h3)
  intro arg2_w harg2_w
  apply yields_result ht harg2_w hxor
  intro arg2 harg2
  apply yields_temp ((h1.sub harg2_w).sub h3)
  intro result_w hres_w
  apply yields_result ht hres_w hdiff
  intro result hres
  apply yields_temp (denotes_highBit hres)
  intro res_sign hsign
  apply yields_temp (denotes_lowBit ht h3)
  intro cf_in hcf_in
  have hcf := hcf_in.iteBool (harg1.le harg2) (harg1.lt harg2)
  have haf := denotes_auxiliary ht hres_w hdiff h1 h2
  have hof := hsign.xorBool
    (hcf_in.iteBool (harg1.sle harg2) (harg1.slt harg2))
  apply yields_pure
  exact formulas_flagExps (formulaHolds_some hcf)
    (formulaHolds_some (denotes_parity8 hres)) (formulaHolds_some haf)
    (formulaHolds_some (hres.eq (denotes_zero t)))
    (formulaHolds_some hsign) (formulaHolds_some hof)

/-- The old carry as an operand. -/
abbrev carryOf (w : ℕ) (c : Bool) : BitVec w := (BitVec.ofBool c).setWidth w

theorem carryOf_bit {w : ℕ} (hw : 4 < w) (c : Bool) :
    (carryOf w c).getLsbD 0 = c ∧ (carryOf w c).getLsbD 4 = false ∧
      (carryOf w c).msb = false := by
  refine ⟨?_, ?_, ?_⟩
  · cases c <;> simp [show 0 < w by omega]
  · cases c <;> simp
  · rw [BitVec.msb_eq_getLsbD_last]
    cases c <;> simp [show w - 1 ≠ 0 by omega]

theorem xor_carryOf (b m : BitVec t.width) : (b ^^^ m) ^^^ m = b := by
  rw [BitVec.xor_assoc, BitVec.xor_self, BitVec.xor_zero]

/-- With the arguments that VEX stores, the values of the architecture. -/
theorem adcValues_eq (ht : Wide t) (a b : BitVec t.width) (c : Bool) :
    adcValues a (b ^^^ carryOf t.width c) (carryOf t.width c) =
      X86.addFlags a b c := by
  have hw := ht.le
  have hpos : 0 < t.width := by omega
  have hfour : 4 < t.width := by omega
  obtain ⟨h0, h4, hm⟩ := carryOf_bit hfour c
  funext f
  simp only [adcValues, xor_carryOf]
  cases f with
  | cf => exact congrArg some (by rw [h0]; exact carry_eq hpos a b c)
  | af =>
    apply congrArg some
    rw [← auxiliaryCarry_eq hfour]
    simp only [BitVec.getLsbD_xor, h4, Bool.xor_false]
  | of =>
    apply congrArg some
    rw [← overflow_eq hpos, BitVec.msb_xor, hm, Bool.xor_false]
    cases a.msb <;> cases b.msb <;> cases (sum a b c).msb <;> rfl
  | pf | zf | sf => rfl

theorem sbbValues_eq (ht : Wide t) (a b : BitVec t.width) (c : Bool) :
    sbbValues a (b ^^^ carryOf t.width c) (carryOf t.width c) =
      X86.subFlags a b c := by
  have hw := ht.le
  have hpos : 0 < t.width := by omega
  have hfour : 4 < t.width := by omega
  obtain ⟨h0, h4, hm⟩ := carryOf_bit hfour c
  funext f
  simp only [sbbValues, xor_carryOf]
  cases f with
  | cf => exact congrArg some (by rw [h0]; exact borrow_eq a b c)
  | af =>
    apply congrArg some
    rw [← auxiliaryBorrow_eq hfour]
    simp only [BitVec.getLsbD_xor, h4, Bool.xor_false]
  | of => exact congrArg some (by rw [h0]; exact subOverflow_eq_slt hpos a b c)
  | pf | zf | sf => rfl

/-- With the second argument in place of the carry, the flags of a sum without
carry: an odd summand is not zero, so the comparison need not be strict. -/
theorem adcValues_misread (ht : Wide t) (a e : BitVec t.width) :
    adcValues a e e = X86.addFlags a e false := by
  have hw := ht.le
  have hpos : 0 < t.width := by omega
  have hfour : 4 < t.width := by omega
  have hsum : a + (e ^^^ e) + e = sum a e false := by
    rw [BitVec.xor_self, BitVec.add_zero, sum_false]
  funext f
  simp only [adcValues, hsum]
  cases f with
  | cf =>
    apply congrArg some
    rw [← carry_eq hpos, if_neg Bool.false_ne_true]
    split_ifs with hodd
    · have hne : sum a e false ≠ a := by
        intro h
        rw [sum_false, add_eq_left] at h
        rw [h] at hodd
        simp at hodd
      rw [Bool.eq_iff_iff]
      simp only [BitVec.ule, BitVec.ult, decide_eq_true_eq]
      have hne' := mt BitVec.eq_of_toNat_eq hne
      omega
    · rfl
  | af => exact congrArg some (auxiliaryCarry_eq hfour a e false)
  | of =>
    apply congrArg some
    rw [← overflow_eq hpos]
    cases a.msb <;> cases e.msb <;> cases (sum a e false).msb <;> rfl
  | pf | zf | sf => rfl

end Arithmetic

/-! ## Operations with one operand -/

section Results

variable {a b r prev : BitVec t.width} {k : ℕ}

theorem denotes_constantF : DenotesBool ρ constantF false := ⟨rfl, rfl, rfl⟩

theorem logicFlags_yields (ht : Wide t)
    (h1 : Denotes ρ dep1 .reg64 (r.setWidth 64)) :
    Yields ρ (logicFlags t dep1)
      fun flags => Formulas ρ old flags ((Operation.logic r).flags old) := by
  have hpf := denotes_parity8 h1
  have hzf := h1.eq (denotes_zero .reg64)
  rw [evenParity_setWidth (by decide)] at hpf
  have hzero : (r.setWidth 64 == (0 : BitVec 64)) = (r == 0) :=
    setWidth_beq_zero ht.le.2 r
  change DenotesBool ρ _ (r.setWidth 64 == (0 : BitVec 64)) at hzf
  rw [hzero] at hzf
  apply yields_pure
  exact formulas_flagExps (formulaHolds_some denotes_constantF)
    (formulaHolds_some hpf) (formulaHolds_undefined denotes_constantF)
    (formulaHolds_some hzf) (formulaHolds_some (denotes_signBitOf ht h1))
    (formulaHolds_some denotes_constantF)

theorem denotes_tmin (ht : Wide t) :
    Denotes ρ (tmin t) t (BitVec.intMin t.width) := by
  simp only [Wide, types, List.mem_cons, List.not_mem_nil, or_false] at ht
  rcases ht with rfl | rfl | rfl | rfl <;> exact Denotes.constOf _ _

theorem denotes_tmax (ht : Wide t) :
    Denotes ρ (tmax t) t (BitVec.intMin t.width - 1) := by
  simp only [Wide, types, List.mem_cons, List.not_mem_nil, or_false] at ht
  rcases ht with rfl | rfl | rfl | rfl <;> exact Denotes.constOf _ _

theorem denotes_one (ht : Wide t) :
    Denotes ρ (exConstOf t 1) t (1 : BitVec t.width) := by
  simp only [Wide, types, List.mem_cons, List.not_mem_nil, or_false] at ht
  rcases ht with rfl | rfl | rfl | rfl <;> exact Denotes.constOf _ _

/-- Bit 4 of the change by one. -/
theorem getLsbD_four_one {w : ℕ} (x y : BitVec w) :
    (x ^^^ (y ^^^ 1)).getLsbD 4 = (x ^^^ y).getLsbD 4 := by
  have hone : (1 : BitVec w).getLsbD 4 = false := by
    change (1#w).getLsbD 4 = false
    simp
  simp only [BitVec.getLsbD_xor, hone, Bool.xor_false]

theorem incFlags_yields (ht : Wide t)
    (h1 : Denotes ρ dep1 .reg64 ((a + 1).setWidth 64)) :
    Yields ρ (incFlags t dep1)
      fun flags => Formulas ρ old flags ((Operation.inc a).flags old) := by
  have hw := ht.le
  have hfour : 4 < t.width := by omega
  apply yields_temp (denotes_operand ht h1)
  intro result hres
  have haf := denotes_getBit (i := 4) (by decide)
    (hres.xor (hres.sub (denotes_one ht)))
  have hof := hres.eq (denotes_tmin ht)
  have hpred : a + 1 - 1 = a := add_sub_cancel_right a 1
  rw [hpred, ← getLsbD_four_one, ← sum_false,
    auxiliaryCarry_eq hfour] at haf
  rw [incOverflow_eq (by omega)] at hof
  rw [← sum_false] at hres
  apply yields_pure
  exact formulas_flagExps formulaHolds_kept
    (formulaHolds_some (denotes_parity8 hres)) (formulaHolds_some haf)
    (formulaHolds_some (hres.eq (denotes_zero t)))
    (formulaHolds_some (denotes_highBit hres)) (formulaHolds_some hof)

theorem decFlags_yields (ht : Wide t)
    (h1 : Denotes ρ dep1 .reg64 ((a - 1).setWidth 64)) :
    Yields ρ (decFlags t dep1)
      fun flags => Formulas ρ old flags ((Operation.dec a).flags old) := by
  have hw := ht.le
  have hfour : 4 < t.width := by omega
  apply yields_temp (denotes_operand ht h1)
  intro result hres
  have haf := denotes_getBit (i := 4) (by decide)
    (hres.xor (hres.add (denotes_one ht)))
  have hof := hres.eq (denotes_tmax ht)
  have hsucc : a - 1 + 1 = a := sub_add_cancel a 1
  rw [hsucc, ← getLsbD_four_one, ← difference_false,
    auxiliaryBorrow_eq hfour] at haf
  rw [decOverflow_eq (by omega)] at hof
  rw [← difference_false] at hres
  apply yields_pure
  exact formulas_flagExps formulaHolds_kept
    (formulaHolds_some (denotes_parity8 hres)) (formulaHolds_some haf)
    (formulaHolds_some (hres.eq (denotes_zero t)))
    (formulaHolds_some (denotes_highBit hres)) (formulaHolds_some hof)

/-! ## Shifts and rotations -/

theorem msb_shiftLeft_lt {w k : ℕ} (hk : k < w) (x : BitVec w) :
    (x <<< k).msb = x.getLsbD (w - (k + 1)) := by
  rw [BitVec.msb_shiftLeft, BitVec.getMsbD, decide_eq_true hk, Bool.true_and,
    show w - 1 - k = w - (k + 1) by omega]

/-- The flags of a shift from the result and the carry. -/
theorem formulas_shift
    {result cf of : Exp} {carry : Option Bool} {overflow : Bool} {c o : Bool}
    (hres : Denotes ρ result t r) (hcf : DenotesBool ρ cf c)
    (hof : DenotesBool ρ of o) (hc : ∀ b, carry = some b → b = c)
    (ho : k = 0 → overflow = o) :
    Formulas ρ old (flagExps cf (parity8 result) constantF
      (exEq result (exConstOf t 0)) (exHCast result .reg1) of)
      (shiftFlags r k carry overflow) := by
  have hcarry : FormulaHolds ρ (old .cf) (some cf) carry := ⟨c, hcf, hc⟩
  apply formulas_flagExps hcarry
    (formulaHolds_some (denotes_parity8 hres))
    (formulaHolds_undefined denotes_constantF)
    (formulaHolds_some (hres.eq (denotes_zero t)))
    (formulaHolds_some (denotes_highBit hres))
  refine ⟨o, hof, ?_⟩
  intro b hb
  change (if k = 0 then some overflow else none) = some b at hb
  split_ifs at hb with hk
  rw [← ho hk]
  exact (Option.some.inj hb).symm

theorem shlFlags_yields (ht : Wide t)
    (h1 : Denotes ρ dep1 .reg64 ((a <<< (k + 1)).setWidth 64))
    (h2 : Denotes ρ dep2 .reg64 ((a <<< k).setWidth 64)) :
    Yields ρ (shlFlags t dep1 dep2)
      fun flags => Formulas ρ old flags ((Operation.shl a k).flags old) := by
  apply yields_temp (denotes_operand ht h1)
  intro result hres
  apply yields_temp (denotes_operand ht h2)
  intro subshift hsub
  have hof := denotes_highBit (hres.xor hsub)
  rw [BitVec.msb_xor] at hof
  apply yields_pure
  apply formulas_shift hres (denotes_highBit hsub) hof
  · intro b hb
    split_ifs at hb with hk
    rw [msb_shiftLeft_lt (by omega)]
    exact (Option.some.inj hb).symm
  · rintro rfl
    simp

/-- The formulas of both right shifts. -/
theorem shrFlags_yields (ht : Wide t) {carry : Option Bool} {overflow : Bool}
    (h1 : Denotes ρ dep1 .reg64 (r.setWidth 64))
    (h2 : Denotes ρ dep2 .reg64 (prev.setWidth 64))
    (hc : ∀ b, carry = some b → b = prev.getLsbD 0)
    (ho : k = 0 → overflow = (r.msb ^^ prev.msb)) :
    Yields ρ (shrFlags t dep1 dep2) fun flags =>
      Formulas ρ old flags (shiftFlags r k carry overflow) := by
  apply yields_temp (denotes_operand ht h1)
  intro result hres
  apply yields_temp (denotes_operand ht h2)
  intro subshift hsub
  have hof := denotes_highBit (hres.xor hsub)
  rw [BitVec.msb_xor] at hof
  exact yields_pure (formulas_shift hres (denotes_bit0 hsub) hof hc ho)

theorem shrFlags_yields_shr (ht : Wide t)
    (h1 : Denotes ρ dep1 .reg64 ((a >>> (k + 1)).setWidth 64))
    (h2 : Denotes ρ dep2 .reg64 ((a >>> k).setWidth 64)) :
    Yields ρ (shrFlags t dep1 dep2)
      fun flags => Formulas ρ old flags ((Operation.shr a k).flags old) := by
  apply shrFlags_yields ht h1 h2
  · intro b hb
    split_ifs at hb with hk
    rw [BitVec.getLsbD_ushiftRight, Nat.add_zero]
    exact (Option.some.inj hb).symm
  · rintro rfl
    simp [BitVec.msb_ushiftRight]

theorem shrFlags_yields_sar (ht : Wide t)
    (h1 : Denotes ρ dep1 .reg64 ((a.sshiftRight (k + 1)).setWidth 64))
    (h2 : Denotes ρ dep2 .reg64 ((a.sshiftRight k).setWidth 64)) :
    Yields ρ (shrFlags t dep1 dep2)
      fun flags => Formulas ρ old flags ((Operation.sar a k).flags old) := by
  apply shrFlags_yields ht h1 h2
  · intro b hb
    exact (Option.some.inj hb).symm
  · intro hk
    rw [BitVec.msb_sshiftRight, BitVec.msb_sshiftRight, Bool.xor_self]

/-- The flags of a rotation. -/
theorem formulas_rotate
    {cf of : Exp} {c o : Bool} (hcf : DenotesBool ρ cf c)
    (hof : DenotesBool ρ of o) :
    Formulas ρ old (flagExps cf none none none none of)
      (rotateFlags old k c o) := by
  apply formulas_flagExps (formulaHolds_some hcf) formulaHolds_kept
    formulaHolds_kept formulaHolds_kept formulaHolds_kept
  refine ⟨o, hof, ?_⟩
  intro b hb
  change (if k = 0 then some o else none) = some b at hb
  split_ifs at hb with hk
  exact (Option.some.inj hb).symm

theorem rolFlags_yields (ht : Wide t)
    (h1 : Denotes ρ dep1 .reg64 ((a.rotateLeft (k + 1)).setWidth 64)) :
    Yields ρ (rolFlags t dep1)
      fun flags => Formulas ρ old flags ((Operation.rol a k).flags old) := by
  apply yields_temp (denotes_operand ht h1)
  intro result hres
  apply yields_temp (denotes_bit0 hres)
  intro last_moved_bit hlast
  have hof := hlast.xorBool (denotes_highBit hres)
  rw [Bool.xor_comm] at hof
  exact yields_pure (formulas_rotate hlast hof)

theorem rorFlags_yields (ht : Wide t)
    (h1 : Denotes ρ dep1 .reg64 ((a.rotateRight (k + 1)).setWidth 64)) :
    Yields ρ (rorFlags t dep1)
      fun flags => Formulas ρ old flags ((Operation.ror a k).flags old) := by
  have hw := ht.le
  apply yields_temp (denotes_operand ht h1)
  intro result hres
  apply yields_temp (denotes_highBit hres)
  intro last_moved_bit hlast
  have hpenult := denotes_highBit (hres.shl (.const32 1))
  rw [show (1 : BitVec 32).toNat = 1 from rfl, msb_shiftLeft_lt (by omega)]
    at hpenult
  exact yields_pure (formulas_rotate hlast (hlast.xorBool hpenult))

/-! ## Products -/

theorem formulas_product
    {oflow low : Exp} {x : BitVec t.width} {o : Bool}
    (hoflow : DenotesBool ρ oflow o) (hlow : Denotes ρ low t x) :
    Formulas ρ old (productFlags t oflow low) (multiplyFlags o) :=
  formulas_flagExps (formulaHolds_some hoflow)
    (formulaHolds_undefined (denotes_parity8 hlow))
    (formulaHolds_undefined denotes_constantF)
    (formulaHolds_undefined (hlow.eq (denotes_zero t)))
    (formulaHolds_undefined (denotes_highBit hlow))
    (formulaHolds_some hoflow)

theorem Wide.doubleType (ht : Wide t) (h64 : t ≠ .reg64) :
    Wide (doubleType t) ∧ (doubleType t).width = 2 * t.width := by
  simp only [Wide, types, List.mem_cons, List.not_mem_nil, or_false] at ht
  rcases ht with rfl | rfl | rfl | rfl
  · exact ⟨by simp [Wide, types, X64.doubleType], rfl⟩
  · exact ⟨by simp [Wide, types, X64.doubleType], rfl⟩
  · exact ⟨by simp [Wide, types, X64.doubleType], rfl⟩
  · exact absurd rfl h64

theorem umulNarrowFlags_yields (ht : Wide t) (h64 : t ≠ .reg64)
    (h1 : Denotes ρ dep1 .reg64 (a.setWidth 64))
    (h2 : Denotes ρ dep2 .reg64 (b.setWidth 64)) :
    Yields ρ (umulNarrowFlags t dep1 dep2)
      fun flags => Formulas ρ old flags ((Operation.umul a b).flags old) := by
  obtain ⟨hwide, hdouble⟩ := ht.doubleType h64
  have hext : ∀ x : BitVec t.width, (x.setWidth 64).setWidth
      (doubleType t).width = x.setWidth (doubleType t).width :=
    fun x => BitVec.setWidth_setWidth_of_le _ hwide.le.2
  have h1' := denotes_narrow64 hwide h1
  have h2' := denotes_narrow64 hwide h2
  rw [hext] at h1' h2'
  apply yields_temp (h1'.mul h2')
  intro result hres
  have hoflow := (hres.hcast t).neq (denotes_zero t)
  rw [unsignedProduct_eq a b hdouble] at hoflow
  apply yields_temp hoflow
  intro oflow hoflow
  apply yields_temp (hres.lcast t)
  intro low hlow
  exact yields_pure (formulas_product hoflow hlow)

/-- The sign of the low half in every bit. -/
theorem denotes_signFill {e : Exp} {x : BitVec t.width} (ht : Wide t)
    (he : Denotes ρ e t x) :
    Denotes ρ (exSCast (exHCast e .reg1) t) t
      (if x.msb then -1 else 0 : BitVec t.width) := by
  have h := (denotes_highBit he).scast t
  have hfill : ∀ b, (flag 1 b).signExtend t.width =
      (if b then -1 else 0 : BitVec t.width) := by
    simp only [Wide, types, List.mem_cons, List.not_mem_nil, or_false] at ht
    rcases ht with rfl | rfl | rfl | rfl <;> decide
  rwa [hfill] at h

theorem smulNarrowFlags_yields (ht : Wide t) (h64 : t ≠ .reg64)
    (h1 : Denotes ρ dep1 .reg64 (a.setWidth 64))
    (h2 : Denotes ρ dep2 .reg64 (b.setWidth 64)) :
    Yields ρ (smulNarrowFlags t dep1 dep2)
      fun flags => Formulas ρ old flags ((Operation.smul a b).flags old) := by
  have hw := ht.le
  obtain ⟨-, hdouble⟩ := ht.doubleType h64
  have hprod := ((denotes_operand ht h1).scast (doubleType t)).mul
    ((denotes_operand ht h2).scast (doubleType t))
  apply yields_temp hprod
  intro result hres
  apply yields_temp (hres.lcast t)
  intro low hlow
  have hoflow := (hres.hcast t).neq (denotes_signFill ht hlow)
  rw [signedProduct_eq (by omega) a b hdouble] at hoflow
  apply yields_temp hoflow
  intro oflow hoflow
  exact yields_pure (formulas_product hoflow hlow)

end Results

/-! ## Products of 64 bits -/

section Words

variable {a b : BitVec 64}

theorem mullU64_overflow (a b : BitVec 64) :
    ((mullU64 a b).1 != 0) = decide (2 ^ 64 ≤ a.toNat * b.toNat) := by
  have hprod := mullU64_toNat a b
  have hlow := (mullU64 a b).2.isLt
  rw [← hprod, Bool.eq_iff_iff, bne_iff_ne, decide_eq_true_eq, ne_eq,
    ← BitVec.toNat_inj]
  change ¬_ = 0 ↔ _
  omega

/-- The sign of the low word in the high word of an unsigned product: the
product is below `2 ^ 63`. -/
theorem mullU64_signFill (a b : BitVec 64) :
    ((mullU64 a b).1 != if (mullU64 a b).2.msb then -1 else 0) =
      decide (2 ^ 63 ≤ a.toNat * b.toNat) := by
  have hprod := mullU64_toNat a b
  have hlow := (mullU64 a b).2.isLt
  have hmsb := BitVec.msb_eq_decide (mullU64 a b).2
  have hle : a.toNat * b.toNat ≤ (2 ^ 64 - 1) * (2 ^ 64 - 1) := by
    have ha := a.isLt
    have hb := b.isLt
    exact Nat.mul_le_mul (by omega) (by omega)
  have hones : (-1 : BitVec 64).toNat = 2 ^ 64 - 1 := rfl
  have hzero : (0 : BitVec 64).toNat = 0 := rfl
  rw [← hprod] at hle
  rw [← hprod, Bool.eq_iff_iff, bne_iff_ne, decide_eq_true_eq, ne_eq,
    ← BitVec.toNat_inj]
  split_ifs with h
  · rw [h, true_eq_decide_iff] at hmsb
    omega
  · rw [Bool.not_eq_true] at h
    rw [h, false_eq_decide_iff] at hmsb
    omega

theorem umulqFlags_yields
    (h1 : Denotes ρ dep1 .reg64 a) (h2 : Denotes ρ dep2 .reg64 b) :
    Yields ρ (umulqFlags dep1 dep2) fun flags =>
      Formulas ρ old flags
        (multiplyFlags (decide (2 ^ 64 ≤ a.toNat * b.toNat))) := by
  apply yields_bind (yields_translateMullU64 h1 h2)
  intro result hres
  apply yields_mkTemp
  intro high hhigh
  apply yields_mkTemp
  intro low hlow
  apply yields_move hhigh hres.1
  intro h1
  apply yields_move hlow hres.2
  intro h2
  have hoflow := h1.neq (denotes_zero .reg64)
  have hover := mullU64_overflow a b
  change DenotesBool ρ _ ((mullU64 a b).1 != (0 : BitVec 64)) at hoflow
  rw [hover] at hoflow
  apply yields_temp hoflow
  intro oflow hoflow
  exact yields_pure (formulas_product hoflow h2)

/-- The overflow of the signed product is taken from the unsigned one. -/
theorem smulqFlags_yields
    (h1 : Denotes ρ dep1 .reg64 a) (h2 : Denotes ρ dep2 .reg64 b) :
    Yields ρ (smulqFlags dep1 dep2) fun flags =>
      Formulas ρ old flags
        (multiplyFlags (decide (2 ^ 63 ≤ a.toNat * b.toNat))) := by
  apply yields_bind (yields_translateMullS64 h1 h2)
  intro result hres
  apply yields_mkTemp
  intro high hhigh
  apply yields_mkTemp
  intro low hlow
  apply yields_move hhigh hres.1
  intro h1
  apply yields_move hlow hres.2
  intro h2
  have hwide : Wide .reg64 := by simp [Wide, types]
  have hoflow := h1.neq (denotes_signFill hwide h2)
  have hover := mullU64_signFill a b
  change DenotesBool ρ _ ((mullU64 a b).1 !=
    if (mullU64 a b).2.msb then (-1 : BitVec 64) else 0) at hoflow
  rw [hover] at hoflow
  apply yields_temp hoflow
  intro oflow hoflow
  exact yields_pure (formulas_product hoflow h2)

end Words

end Fuzzball.Asmir.X64
