import Fuzzball.ConstantFold
import Fuzzball.ExprTemps
import Mathlib.Tactic.Linarith

/-!
# Widths of address expressions

`narrow_bitwidth` and `narrow_bitwidth_signed` of `sym_region_frag_machine.ml`,
which bound the number of bits of an expression's value.  Both clamp the width
of a sum, of a product and of a left shift at the width of the expression that
the analysis began with, not at the width of the operation.
-/

namespace Fuzzball.SymRegion

open Vine MemoRecursion FormulaManager

variable {μ : Type} [VineMemory μ]

/-! ## The analyses -/

abbrev Analysis := Body Exp ℤ Exn

/-- `g (loop e1) (loop e2)`; arguments are evaluated from the right. -/
def both (g : ℤ → ℤ → ℤ) (e1 e2 : Exp) : Analysis ℤ := do
  let r2 ← Body.loop e2
  let r1 ← Body.loop e1
  pure (g r1 r2)

/-- `V.bits_of_width (Vine_typecheck.infer_type_fast e)`. -/
def typeBits (coin : Exp → Bool) (e : Exp) : Analysis ℤ :=
  .ofExcept do
    let bits ← bitsOfWidth (← inferTypeFast coin e)
    pure (bits : ℤ)

/-- `clamp_high`, at the expression `e` that the analysis began with. -/
def clampHigh (coin : Exp → Bool) (e : Exp) (a : ℤ) : Analysis ℤ := do
  pure (min a (← typeBits coin e))

def addInt (x y : ℤ) : ℤ := OCaml.wrapInt (x + y)
def subInt (x y : ℤ) : ℤ := OCaml.wrapInt (x - y)

/-- The function `f` of `narrow_bitwidth e0`. -/
def narrowBitwidthBody (coin : Exp → Bool) (e0 : Exp) : Exp → Analysis ℤ
  | .constant (.int _ v) => pure (1 + floorLog2 v)
  | .binOp .bitand e1 e2 => both min e1 e2
  | .binOp .bitor e1 e2 => both max e1 e2
  | .binOp .xor e1 e2 => both max e1 e2
  | .binOp .plus e1 e2 => do
    clampHigh coin e0 (addInt 1 (← both max e1 e2))
  | .binOp .times e1 e2 => do clampHigh coin e0 (← both addInt e1 e2)
  | .binOp .mod e1 e2 => both min e1 e2
  | .cast .castUnsigned .reg64 e1 => do pure (min 64 (← Body.loop e1))
  | .cast .castUnsigned .reg32 e1 | .cast .castLow .reg32 e1 => do
    pure (min 32 (← Body.loop e1))
  | .cast .castUnsigned .reg16 e1 | .cast .castLow .reg16 e1 => do
    pure (min 16 (← Body.loop e1))
  | .cast .castUnsigned .reg8 e1 | .cast .castLow .reg8 e1 => do
    pure (min 8 (← Body.loop e1))
  | .cast .castUnsigned .reg1 e1 | .cast .castLow .reg1 e1 => do
    pure (min 1 (← Body.loop e1))
  | .cast .castSigned .reg32 _ => pure 32
  | .cast .castSigned .reg16 _ => pure 16
  | .cast .castSigned .reg8 _ => pure 8
  | .cast .castSigned .reg1 _ => pure 1
  | .cast .castHigh .reg32 _ => pure 32
  | .cast .castHigh .reg16 _ => pure 16
  | .cast .castHigh .reg8 _ => pure 8
  | .cast .castHigh .reg1 _ => pure 1
  | .cast ct t e1 => typeBits coin (.cast ct t e1)
  | .mem _ _ .reg8 => pure 8
  | .mem _ _ .reg16 => pure 16
  | .mem _ _ .reg32 => pure 32
  | .mem v addr t => typeBits coin (.mem v addr t)
  | .temp v => typeBits coin (.temp v)
  | .binOp .eq _ _ | .binOp .neq _ _ | .binOp .lt _ _ | .binOp .le _ _
  | .binOp .slt _ _ | .binOp .sle _ _ => pure 1
  | .binOp .lshift e1 (.constant (.int _ v)) => do
    clampHigh coin e0 (addInt (← Body.loop e1) v.toOCamlInt)
  | .binOp .rshift e1 (.constant (.int _ v)) => do
    pure (max 0 (subInt (← Body.loop e1) v.toOCamlInt))
  | .ite _ te fe => both max te fe
  | .constant (.str _) =>
    .raise (.failure "Unhandled string in narrow_bitwidth")
  | .unknown _ => .raise (.failure "Unhandled unknown in narrow_bitwidth")
  | e => typeBits coin e

/-- `narrow_bitwidth`, as the recursion that it is. -/
def narrowBitwidth (coin : Exp → Bool) (defs : Definitions) (e : Exp) :
    Scheme Exp ℤ ℤ Exn :=
  mapExprTemp defs (narrowBitwidthBody coin e) fun wd res => min wd res

def fixS1 (x : I64) : I64 := (x <<< 63).sshiftRight 63

/-- `fix_s`: sign extend a typed constant to 64 bits. -/
def fixS : Typ → I64 → OCaml I64
  | .reg1, v => pure (fixS1 v)
  | .reg8, v => pure (fixS8 v)
  | .reg16, v => pure (fixS16 v)
  | .reg32, v => pure (fixS32 v)
  | .reg64, v => pure v
  | _, _ => throw (.failure "Bad type in fix_s")

/-- The function `f` of `narrow_bitwidth_signed e0`.  The type looked at where
no other case applies is also that of `e0`. -/
def narrowBitwidthSignedBody (coin : Exp → Bool) (e0 : Exp) : Exp → Analysis ℤ
  | .constant (.int t v) => do
    let s ← Body.ofExcept (fixS t v)
    pure (min (1 + floorLog2 v) (1 + floorLog2 (-s)))
  | .binOp .bitand e1 e2 => both max e1 e2
  | .binOp .bitor e1 e2 => both max e1 e2
  | .binOp .xor e1 e2 => both max e1 e2
  | .binOp .plus e1 e2 => do
    clampHigh coin e0 (addInt 1 (← both max e1 e2))
  | .binOp .times e1 e2 => do clampHigh coin e0 (← both addInt e1 e2)
  | .binOp .mod e1 e2 => both min e1 e2
  | .binOp .smod e1 e2 => both min e1 e2
  | .cast .castUnsigned .reg64 e1 | .cast .castSigned .reg64 e1 => do
    pure (min 64 (← Body.loop e1))
  | .cast .castUnsigned .reg32 e1 | .cast .castLow .reg32 e1
  | .cast .castSigned .reg32 e1 => do pure (min 32 (← Body.loop e1))
  | .cast .castUnsigned .reg16 e1 | .cast .castLow .reg16 e1
  | .cast .castSigned .reg16 e1 => do pure (min 16 (← Body.loop e1))
  | .cast .castUnsigned .reg8 e1 | .cast .castLow .reg8 e1
  | .cast .castSigned .reg8 e1 => do pure (min 8 (← Body.loop e1))
  | .cast .castUnsigned .reg1 e1 | .cast .castLow .reg1 e1
  | .cast .castSigned .reg1 e1 => do pure (min 1 (← Body.loop e1))
  | .cast _ .reg32 _ => pure 32
  | .cast _ .reg16 _ => pure 16
  | .cast _ .reg8 _ => pure 8
  | .cast _ .reg1 _ => pure 1
  | .cast _ _ _ => typeBits coin e0
  | .mem _ _ .reg8 => pure 8
  | .mem _ _ .reg16 => pure 16
  | .mem _ _ .reg32 => pure 32
  | .mem _ _ _ => typeBits coin e0
  | .temp _ => typeBits coin e0
  | .binOp .eq _ _ | .binOp .neq _ _ | .binOp .lt _ _ | .binOp .le _ _
  | .binOp .slt _ _ | .binOp .sle _ _ => pure 1
  | .binOp .lshift e1 (.constant (.int _ v)) => do
    clampHigh coin e0 (addInt (← Body.loop e1) v.toOCamlInt)
  | .ite _ te fe => both max te fe
  | .constant (.str _) =>
    .raise (.failure "Unhandled string in narrow_bitwidth_signed")
  | .unknown _ =>
    .raise (.failure "Unhandled unknown in narrow_bitwidth_signed")
  | _ => typeBits coin e0

/-- `narrow_bitwidth_signed`, as the recursion that it is. -/
def narrowBitwidthSigned (coin : Exp → Bool) (defs : Definitions) (e : Exp) :
    Scheme Exp ℤ ℤ Exn :=
  mapExprTemp defs (narrowBitwidthSignedBody coin e) fun wd res => min wd res

/-! ## Parts of the bodies -/

section Meets

variable {l : List Exp} {Q : Exp → ℤ → Prop} {R : ℤ → Prop} {e e1 e2 : Exp}

theorem meets_both {g : ℤ → ℤ → ℤ} (h1 : e1 ∈ l) (h2 : e2 ∈ l)
    (h : ∀ r1 r2, Q e1 r1 → Q e2 r2 → R (g r1 r2)) :
    (both g e1 e2).Meets (· ∈ l) Q R :=
  ⟨h2, fun r2 hr2 => ⟨h1, fun r1 hr1 => h r1 r2 hr1 hr2⟩⟩

theorem meets_loop {g : ℤ → ℤ} (h1 : e1 ∈ l) (h : ∀ r, Q e1 r → R (g r)) :
    (do pure (g (← Body.loop e1)) : Analysis ℤ).Meets (· ∈ l) Q R :=
  ⟨h1, h⟩

theorem meets_call {R : ℤ → Prop} (h1 : e1 ∈ l) (h : ∀ r, Q e1 r → R r) :
    (Body.loop e1 : Analysis ℤ).Meets (· ∈ l) Q R := .loop h1 h

variable (coin : Exp → Bool)

theorem meets_typeBits (he : e.WellTyped) (h : R e.width) :
    (typeBits coin e).Meets (· ∈ l) Q R := by
  refine Body.Meets.ofExcept (a := e.width) ?_ h
  rw [he.inferTypeFast_eq, OCaml.ok_bind, he.isReg.bitsOfWidth_eq]
  rfl

theorem meets_clampHigh {a : ℤ} (he : e.WellTyped)
    (h : R (min a e.width)) : (clampHigh coin e a).Meets (· ∈ l) Q R :=
  (meets_typeBits coin he (R := fun r => r = e.width) rfl).bind
    fun _ hr => hr ▸ h

end Meets

/-! ## The unsigned width -/

section Unsigned

/-- The operands that `narrow_bitwidth` walks into. -/
def narrowReads : Exp → List Exp
  | .binOp .bitand e1 e2 | .binOp .bitor e1 e2 | .binOp .xor e1 e2
  | .binOp .plus e1 e2 | .binOp .times e1 e2 | .binOp .mod e1 e2 => [e1, e2]
  | .cast .castUnsigned _ e1 => [e1]
  | .cast .castLow t e1 => if t = .reg64 then [] else [e1]
  | .binOp .lshift e1 (.constant (.int _ _))
  | .binOp .rshift e1 (.constant (.int _ _)) => [e1]
  | .ite _ te fe => [te, fe]
  | _ => []

theorem narrowReads_operands (e : Exp) :
    ∀ d ∈ narrowReads e, d ∈ e.operands := by
  intro d hd
  unfold narrowReads at hd
  split at hd <;> simp_all [Exp.operands]

/-- The operations whose width is clamped. -/
def IsClamped : Exp → Prop
  | .binOp .plus _ _ | .binOp .times _ _
  | .binOp .lshift _ (.constant (.int _ _)) => True
  | _ => False

/-- `Int64.to_int` reads the count of a shift as the number that it stands
for, and adding it to a width does not overflow. -/
def CountRead (t : Typ) (v : I64) : Prop :=
  v.toNat < 2 ^ t.width ∧ v.toNat + 64 < 2 ^ 62

/-- No clamped operation that the analysis walks to from `e` is wider than
`w`. -/
def ClampsBelow (defs : Definitions) (w : ℕ) (e : Exp) : Prop :=
  ∀ d, Walks defs narrowReads e d → IsClamped d → d.width ≤ w

/-- `n` bits hold the value of `e`, or the clamp at `w` was too low. -/
def Fits (defs : Definitions) (ρ : Valuation μ) (w : ℕ) (e : Exp) (n : ℕ) :
    Prop :=
  e.unsigned ρ < 2 ^ n ∨ w ≤ n ∧ ¬ClampsBelow defs w e

variable {defs : Definitions} {ρ : Valuation μ} {w n n1 n2 : ℕ}
  {e e1 e2 : Exp}

theorem ClampsBelow.operand (h : ClampsBelow defs w e)
    (h1 : e1 ∈ narrowReads e) : ClampsBelow defs w e1 :=
  fun d hd => h d (.operand h1 hd)

theorem Fits.mono (h : Fits defs ρ w e1 n1) (h1 : e1 ∈ narrowReads e)
    (hn : n1 ≤ n) (hv : e1.unsigned ρ < 2 ^ n1 → e.unsigned ρ < 2 ^ n) :
    Fits defs ρ w e n := by
  rcases h with h | ⟨hw, hc⟩
  · exact .inl (hv h)
  · exact .inr ⟨hw.trans hn, fun hc' => hc (hc'.operand h1)⟩

theorem Fits.min (h1 : Fits defs ρ w e n1) (h2 : Fits defs ρ w e n2) :
    Fits defs ρ w e (min n1 n2) := by
  rcases min_choice n1 n2 with h | h <;> rw [h]
  · exact h1
  · exact h2

/-- Both operands are bounded, so a bound on the operation from theirs
holds. -/
theorem Fits.both (h1 : Fits defs ρ w e1 n1) (h2 : Fits defs ρ w e2 n2)
    (hr1 : e1 ∈ narrowReads e) (hr2 : e2 ∈ narrowReads e) (hn1 : n1 ≤ n)
    (hn2 : n2 ≤ n) (hv : e1.unsigned ρ < 2 ^ n1 → e2.unsigned ρ < 2 ^ n2 →
      e.unsigned ρ < 2 ^ n) : Fits defs ρ w e n := by
  rcases h1 with h1 | ⟨hw, hc⟩
  · exact h2.mono hr2 hn2 (hv h1)
  · exact .inr ⟨hw.trans hn1, fun hc' => hc (hc'.operand hr1)⟩

/-- The clamp is right at the width of the operation, and elsewhere too low. -/
theorem Fits.clamp (h : Fits defs ρ w e n) (hc : IsClamped e) :
    Fits defs ρ w e (Min.min n w) := by
  by_cases hw : e.width ≤ w
  · refine h.min (.inl ((e.unsigned_lt ρ).trans_le ?_))
    exact Nat.pow_le_pow_right (by norm_num) hw
  · exact h.min (.inr ⟨le_rfl, fun hb => hw (hb e (.here e) hc)⟩)

/-- What the analysis says of an expression: a bound of at most 64 bits. -/
def Bounds (defs : Definitions) (ρ : Valuation μ) (w : ℕ) (e : Exp) (r : ℤ) :
    Prop :=
  ∃ n : ℕ, r = n ∧ n ≤ 64 ∧ Fits defs ρ w e n

theorem Bounds.of_lt (hn : n ≤ 64) (h : e.unsigned ρ < 2 ^ n) :
    Bounds defs ρ w e n := ⟨n, rfl, hn, .inl h⟩

theorem Bounds.width : Bounds defs ρ w e e.width :=
  .of_lt e.width_le (e.unsigned_lt ρ)

theorem CountRead.toOCamlInt {t : Typ} {v : I64} (h : CountRead t v) :
    v.toOCamlInt = v.toNat := I64.toOCamlInt_of_lt (by have := h.2; omega)

theorem CountRead.unsigned {t : Typ} {v : I64} (h : CountRead t v) :
    (Exp.int t v).unsigned ρ = v.toNat := by
  rw [unsigned_int, Nat.mod_eq_of_lt h.1]

theorem addInt_natCast (hn : n + n1 < 2 ^ 62) :
    addInt n n1 = (n + n1 : ℕ) := by
  rw [addInt, OCaml.wrapInt_of_lt] <;> push_cast <;> omega

/-- What the body relies on at one expression. -/
structure NarrowsAt (defs : Definitions) (ρ : Valuation μ) (w : ℕ) (e : Exp) :
    Prop where
  typed : e.WellTyped
  divisor : ∀ e1 e2, e = .binOp .mod e1 e2 → e2.unsigned ρ ≠ 0
  count : ∀ op e1 t v, op = .lshift ∨ op = .rshift →
    e = .binOp op e1 (.int t v) → CountRead t v
  clamp : ∀ e1 t v, e = .binOp .rshift e1 (.int t v) → ClampsBelow defs w e1

theorem add_lt_two_pow {a b : ℕ} (ha : a < 2 ^ n1) (hb : b < 2 ^ n2) :
    a + b < 2 ^ (1 + max n1 n2) := by
  have h1 : 2 ^ n1 ≤ 2 ^ max n1 n2 :=
    Nat.pow_le_pow_right (by norm_num) (le_max_left n1 n2)
  have h2 : 2 ^ n2 ≤ 2 ^ max n1 n2 :=
    Nat.pow_le_pow_right (by norm_num) (le_max_right n1 n2)
  rw [pow_add]
  omega

theorem div_lt_two_pow {a c : ℕ} (ha : a < 2 ^ n) :
    a / 2 ^ c < 2 ^ (n - c) := by
  apply Nat.div_lt_of_lt_mul
  rw [← pow_add]
  exact ha.trans_le (Nat.pow_le_pow_right (by norm_num) (by omega))

/-- Whether a shift is by a constant. -/
theorem count_cases (e2 : Exp) :
    (∃ t v, e2 = .int t v) ∨ ∀ t v, e2 ≠ .int t v := by
  by_cases h : ∃ t v, e2 = .int t v
  · exact .inl h
  · exact .inr fun t v heq => h ⟨t, v, heq⟩

theorem narrowBitwidthBody_shift {coin : Exp → Bool} {e0 : Exp}
    {op : BinopType} (hop : op = .lshift ∨ op = .rshift)
    (h : ∀ t v, e2 ≠ .int t v) :
    narrowBitwidthBody coin e0 (.binOp op e1 e2) =
      typeBits coin (.binOp op e1 e2) := by
  rcases hop with rfl | rfl <;> cases e2 with
  | constant v =>
    cases v with
    | int t i => exact absurd rfl (h t i)
    | str s => rfl
  | _ => rfl

section Body

variable {l : List Exp} {coin : Exp → Bool} {e0 : Exp}

theorem meets_min (h1 : e1 ∈ narrowReads e) (h2 : e2 ∈ narrowReads e)
    (hv1 : e.unsigned ρ ≤ e1.unsigned ρ) (hv2 : e.unsigned ρ ≤ e2.unsigned ρ) :
    (both min e1 e2).Meets (· ∈ narrowReads e) (Bounds defs ρ w)
      (Bounds defs ρ w e) := by
  apply meets_both h1 h2
  rintro _ _ ⟨n1, rfl, hn1, hf1⟩ ⟨n2, rfl, hn2, hf2⟩
  refine ⟨min n1 n2, by push_cast; rfl, by omega, ?_⟩
  exact (hf1.mono h1 le_rfl hv1.trans_lt).min (hf2.mono h2 le_rfl hv2.trans_lt)

theorem meets_max (h1 : e1 ∈ narrowReads e) (h2 : e2 ∈ narrowReads e)
    (hv : ∀ n, e1.unsigned ρ < 2 ^ n → e2.unsigned ρ < 2 ^ n →
      e.unsigned ρ < 2 ^ n) :
    (both max e1 e2).Meets (· ∈ narrowReads e) (Bounds defs ρ w)
      (Bounds defs ρ w e) := by
  apply meets_both h1 h2
  rintro _ _ ⟨n1, rfl, hn1, hf1⟩ ⟨n2, rfl, hn2, hf2⟩
  refine ⟨max n1 n2, by push_cast; rfl, by omega, ?_⟩
  refine hf1.both hf2 h1 h2 (le_max_left _ _) (le_max_right _ _) ?_
  intro hv1 hv2
  apply hv
  · exact hv1.trans_le (Nat.pow_le_pow_right (by norm_num) (le_max_left _ _))
  · exact hv2.trans_le (Nat.pow_le_pow_right (by norm_num) (le_max_right _ _))

theorem meets_cast {t : Typ} (h1 : e1 ∈ narrowReads e)
    (hv : e.unsigned ρ = e1.unsigned ρ % 2 ^ t.width) :
    (do pure (min (t.width : ℤ) (← Body.loop e1)) : Analysis ℤ).Meets
      (· ∈ narrowReads e) (Bounds defs ρ w) (Bounds defs ρ w e) := by
  apply meets_loop h1
  rintro _ ⟨n1, rfl, hn1, hf1⟩
  refine ⟨min t.width n1, by push_cast; rfl, by omega, ?_⟩
  apply Fits.min
  · left
    rw [hv]
    exact Nat.mod_lt _ (by positivity)
  · refine hf1.mono h1 le_rfl fun h => ?_
    rw [hv]
    exact (Nat.mod_le _ _).trans_lt h

theorem meets_clamped {x : Analysis ℤ} {g : ℤ → ℤ} (he0 : e0.WellTyped)
    (hc : IsClamped e)
    (hx : x.Meets (· ∈ l) (Bounds defs ρ e0.width)
      fun a => ∃ n : ℕ, g a = n ∧ Fits defs ρ e0.width e n) :
    (x >>= fun a => clampHigh coin e0 (g a)).Meets (· ∈ l)
      (Bounds defs ρ e0.width) (Bounds defs ρ e0.width e) := by
  refine hx.bind fun a ⟨n, hn, hf⟩ => meets_clampHigh coin he0 ?_
  have hle := e0.width_le
  exact ⟨min n e0.width, by rw [hn]; push_cast; rfl, by omega, hf.clamp hc⟩

end Body

theorem narrowBitwidthBody_meets {coin : Exp → Bool} {e0 : Exp}
    (he0 : e0.WellTyped) (h : NarrowsAt defs ρ e0.width e) :
    (narrowBitwidthBody coin e0 e).Meets (· ∈ narrowReads e)
      (Bounds defs ρ e0.width) (Bounds defs ρ e0.width e) := by
  obtain ⟨he, hdiv, hcount, hclamp⟩ := h
  have hwidth : (typeBits coin e).Meets (· ∈ narrowReads e)
      (Bounds defs ρ e0.width) (Bounds defs ρ e0.width e) :=
    meets_typeBits coin he .width
  cases e with
  | binOp op e1 e2 =>
    obtain ⟨-, -, hadm⟩ := id he
    cases op with
    | bitand =>
      apply meets_min (by simp [narrowReads]) (by simp [narrowReads])
      · rw [unsigned_bitand hadm]
        exact Nat.and_le_left
      · rw [unsigned_bitand hadm]
        exact Nat.and_le_right
    | bitor =>
      apply meets_max (by simp [narrowReads]) (by simp [narrowReads])
      intro n h1 h2
      rw [unsigned_bitor hadm]
      exact Nat.or_lt_two_pow h1 h2
    | xor =>
      apply meets_max (by simp [narrowReads]) (by simp [narrowReads])
      intro n h1 h2
      rw [unsigned_xor hadm]
      exact Nat.xor_lt_two_pow h1 h2
    | mod =>
      apply meets_min (by simp [narrowReads]) (by simp [narrowReads])
      · rw [unsigned_mod hadm]
        exact Nat.mod_le _ _
      · rw [unsigned_mod hadm]
        exact (Nat.mod_lt _ (Nat.pos_of_ne_zero (hdiv e1 e2 rfl))).le
    | plus =>
      refine meets_clamped he0 trivial (meets_both (by simp [narrowReads])
        (by simp [narrowReads]) ?_)
      rintro _ _ ⟨n1, rfl, hn1, hf1⟩ ⟨n2, rfl, hn2, hf2⟩
      refine ⟨1 + max n1 n2, ?_, hf1.both hf2 (by simp [narrowReads])
        (by simp [narrowReads]) (by omega) (by omega) ?_⟩
      · rw [← Nat.cast_max]
        exact addInt_natCast (n := 1) (by omega)
      · intro h1 h2
        rw [unsigned_plus hadm]
        exact (Nat.mod_le _ _).trans_lt (add_lt_two_pow h1 h2)
    | times =>
      refine meets_clamped (g := id) he0 trivial (meets_both
        (by simp [narrowReads]) (by simp [narrowReads]) ?_)
      rintro _ _ ⟨n1, rfl, hn1, hf1⟩ ⟨n2, rfl, hn2, hf2⟩
      refine ⟨n1 + n2, ?_, hf1.both hf2 (by simp [narrowReads])
        (by simp [narrowReads]) (by omega) (by omega) ?_⟩
      · rw [id_eq]
        exact addInt_natCast (by omega)
      · intro h1 h2
        rw [unsigned_times hadm, pow_add]
        exact (Nat.mod_le _ _).trans_lt (Nat.mul_lt_mul'' h1 h2)
    | lshift =>
      rcases count_cases e2 with ⟨t, v, rfl⟩ | hother
      · have hread := hcount .lshift e1 t v (.inl rfl) rfl
        have hlt := hread.2
        refine meets_clamped he0 trivial (meets_call (by simp [narrowReads])
          ?_)
        rintro _ ⟨n1, rfl, hn1, hf1⟩
        refine ⟨n1 + v.toNat, ?_, hf1.mono (by simp [narrowReads]) (by omega)
          ?_⟩
        · rw [hread.toOCamlInt]
          exact addInt_natCast (by omega)
        · intro h
          rw [unsigned_lshift, hread.unsigned, pow_add]
          refine (Nat.mod_le _ _).trans_lt ?_
          exact Nat.mul_lt_mul_of_pos_right h (by positivity)
      · rw [narrowBitwidthBody_shift (.inl rfl) hother]
        exact hwidth
    | rshift =>
      rcases count_cases e2 with ⟨t, v, rfl⟩ | hother
      · have hread := hcount .rshift e1 t v (.inr rfl) rfl
        have hlt := hread.2
        refine meets_loop (by simp [narrowReads]) ?_
        rintro _ ⟨n1, rfl, hn1, hf1⟩
        have hval : e1.unsigned ρ < 2 ^ n1 :=
          hf1.resolve_right fun h => h.2 (hclamp e1 t v rfl)
        refine ⟨n1 - v.toNat, ?_, by omega, .inl ?_⟩
        · rw [hread.toOCamlInt, subInt, OCaml.wrapInt_of_lt] <;> omega
        · rw [unsigned_rshift, hread.unsigned]
          exact div_lt_two_pow hval
      · rw [narrowBitwidthBody_shift (.inr rfl) hother]
        exact hwidth
    | eq | neq | lt | le | slt | sle =>
      exact .of_lt (by norm_num) ((Exp.unsigned_lt ρ _).trans_le le_rfl)
    | minus | divide | sdivide | smod | arshift | concat => exact hwidth
  | constant v =>
    cases v with
    | int t i =>
      obtain ⟨n, hn, hle, hlt⟩ := lt_two_pow_floorLog2 i
      refine ⟨n, hn, hle, .inl ?_⟩
      rw [unsigned_int]
      exact (Nat.mod_le _ _).trans_lt hlt
    | str s => exact he.elim
  | temp v => exact hwidth
  | mem v addr t =>
    have ht : t.IsReg := he.2.1
    cases t with
    | reg64 | reg1 => exact hwidth
    | reg8 | reg16 | reg32 => exact .of_lt (by norm_num) (Exp.unsigned_lt ρ _)
    | _ => exact ht.elim
  | name l => exact hwidth
  | unOp op e1 => exact hwidth
  | cast ct t e1 =>
    have ht : t.IsReg := he.2.1
    cases ct with
    | castUnsigned =>
      cases t with
      | reg1 | reg8 | reg16 | reg32 | reg64 =>
        exact meets_cast (by simp [narrowReads]) (unsigned_castUnsigned _)
      | _ => exact ht.elim
    | castLow =>
      cases t with
      | reg64 => exact hwidth
      | reg1 | reg8 | reg16 | reg32 =>
        exact meets_cast (by simp [narrowReads]) (unsigned_castLow _)
      | _ => exact ht.elim
    | castSigned | castHigh =>
      cases t with
      | reg64 => exact hwidth
      | reg1 | reg8 | reg16 | reg32 =>
        exact .of_lt (by norm_num) (Exp.unsigned_lt ρ _)
      | _ => exact ht.elim
  | letTemp v e1 e2 => exact hwidth
  | letMem v addr t e1 e2 => exact hwidth
  | ite cond e1 e2 =>
    obtain ⟨-, -, -, -, htyp⟩ := id he
    apply meets_max (by simp [narrowReads]) (by simp [narrowReads])
    intro n h1 h2
    rw [unsigned_ite htyp]
    split_ifs
    · exact h1
    · exact h2
  | _ => exact he.elim

theorem bounds_definition {v : Var} {d : Exp} {r : ℤ} (hρ : defs.Holds ρ)
    (hd : defs.exprTemp v.id = some d) (ht : d.typ = v.typ)
    (h : Bounds defs ρ w d r) :
    Bounds defs ρ w (.temp v) r ∧
      Bounds defs ρ w (.temp v) (min v.typ.width r) := by
  obtain ⟨n, rfl, hn, hf⟩ := h
  have hfit : Fits defs ρ w (.temp v) n := by
    rcases hf with hf | ⟨hw, hc⟩
    · exact .inl (hρ.unsigned hd ht ▸ hf)
    · exact .inr ⟨hw, fun hc' => hc fun e he => hc' e (.definition hd he)⟩
  have hlt : (Exp.temp v).unsigned ρ < 2 ^ v.typ.width := Exp.unsigned_lt ρ _
  refine ⟨⟨n, rfl, hn, hfit⟩, min v.typ.width n, by push_cast; rfl, by omega,
    ?_⟩
  exact .min (.inl hlt) hfit

/-- The counts of the shifts that the analysis walks to are read right, and
below a right shift no clamped operation is wider than the whole expression. -/
structure NarrowsSafely (defs : Definitions) (e : Exp) : Prop where
  count : ∀ op e1 t v, op = .lshift ∨ op = .rshift →
    Walks defs narrowReads e (.binOp op e1 (.int t v)) → CountRead t v
  clamp : ∀ e1 t v, Walks defs narrowReads e (.binOp .rshift e1 (.int t v)) →
    ClampsBelow defs e.width e1

theorem narrowBitwidth_bounds (coin : Exp → Bool) (hdefs : defs.Typed)
    (he : e.WellTyped) (ha : defs.Agrees e) (hρ : defs.Holds ρ)
    (hdiv : DivisorsNonzero defs narrowReads ρ e)
    (hsafe : NarrowsSafely defs e) :
    ∃ r, (narrowBitwidth coin defs e).Returns e r ∧
      Bounds defs ρ e.width e r := by
  have htyped := fun d (hd : Walks defs narrowReads e d) =>
    hd.typed narrowReads_operands hdefs he ha
  apply mapExprTemp_returns
    (L := fun d => NarrowsAt defs ρ e.width d ∧ defs.Agrees d)
    (Q := Bounds defs ρ e.width) narrowReads_operands
  · intro d hd _
    exact narrowBitwidthBody_meets he hd.1
  · intro v d r hv hd hr
    have ht : d.typ = v.typ := hv.2 v (by simp [Exp.vars]) d hd
    exact bounds_definition hρ hd ht hr
  · intro d hd
    refine ⟨⟨(htyped d hd).1, ?_, ?_, ?_⟩, (htyped d hd).2⟩
    · rintro e1 e2 rfl
      exact hdiv .mod (by simp) e1 e2 hd
    · rintro op e1 t v hop rfl
      exact hsafe.count op e1 t v hop hd
    · rintro e1 t v rfl
      exact hsafe.clamp e1 t v hd

/-- At the width of the whole expression the clamp does no harm. -/
theorem Bounds.sound {r : ℤ} (h : Bounds defs ρ e.width e r) :
    0 ≤ r ∧ e.unsigned ρ < 2 ^ r.toNat := by
  obtain ⟨n, rfl, -, hf⟩ := h
  refine ⟨Int.natCast_nonneg n, ?_⟩
  rw [Int.toNat_natCast]
  rcases hf with hf | ⟨hw, -⟩
  · exact hf
  · exact (e.unsigned_lt ρ).trans_le (Nat.pow_le_pow_right (by norm_num) hw)

/-- A shift of a word to the right by three. -/
def shiftedWord : Exp :=
  .binOp .rshift (.temp ⟨0, [], .reg32⟩) (.int .reg8 3)

theorem walks_shiftedWord {d : Exp}
    (h : Walks .none narrowReads shiftedWord d) :
    d ∈ [shiftedWord, .temp ⟨0, [], .reg32⟩] := by
  apply h.mem
  · simp
  · simp [shiftedWord, narrowReads]
  · intro v hv d hd
    cases hd

theorem narrowsSafely_shiftedWord : NarrowsSafely .none shiftedWord := by
  constructor
  · intro op e1 t v hop h
    have hmem := walks_shiftedWord h
    simp [shiftedWord] at hmem
    obtain ⟨-, -, rfl, rfl⟩ := hmem
    exact ⟨by decide, by decide⟩
  · intro e1 t v h d hd hc
    have hmem := walks_shiftedWord
      (.trans h (.operand (by simp [narrowReads]) hd))
    simp [shiftedWord] at hmem
    rcases hmem with rfl | rfl <;> exact hc.elim

/-- A word, extended to 64 bits. -/
def wideWord (n : ℤ) : Exp :=
  .cast .castUnsigned .reg64 (.temp ⟨n, [], .reg32⟩)

/-- The high half of the product of two words. -/
def productHigh : Exp :=
  .cast .castLow .reg32
    (.binOp .rshift (.binOp .times (wideWord 0) (wideWord 1)) (.int .reg8 32))

theorem walks_productHigh {d : Exp}
    (h : Walks .none narrowReads productHigh d) :
    d ∈ [productHigh, .binOp .rshift (.binOp .times (wideWord 0) (wideWord 1))
      (.int .reg8 32), .binOp .times (wideWord 0) (wideWord 1), wideWord 0,
      wideWord 1, .temp ⟨0, [], .reg32⟩, .temp ⟨1, [], .reg32⟩] := by
  apply h.mem
  · simp
  · simp [productHigh, wideWord, narrowReads]
  · intro v hv d hd
    cases hd

end Unsigned

/-! ## The analyses return -/

section Total

variable {defs : Definitions} {coin : Exp → Bool} {e e0 : Exp} {l : List Exp}

/-- The body returns whatever its calls return. -/
abbrev Total (x : Analysis ℤ) (l : List Exp) : Prop :=
  x.Meets (· ∈ l) (fun _ _ => True) fun _ => True

theorem total_clampHigh {x : Analysis ℤ} {g : ℤ → ℤ} (he0 : e0.WellTyped)
    (h : Total x l) : Total (x >>= fun a => clampHigh coin e0 (g a)) l :=
  Body.Meets.bind h fun _ _ => meets_clampHigh coin he0 trivial

theorem total_both (g : ℤ → ℤ → ℤ) {e1 e2 : Exp} (h1 : e1 ∈ l) (h2 : e2 ∈ l) :
    Total (both g e1 e2) l := meets_both h1 h2 fun _ _ _ _ => trivial

theorem total_loop (g : ℤ → ℤ) {e1 : Exp} (h1 : e1 ∈ l) :
    Total (do pure (g (← Body.loop e1))) l := meets_loop h1 fun _ _ => trivial

theorem total_typeBits (he : e.WellTyped) : Total (typeBits coin e) l :=
  meets_typeBits coin he trivial

theorem narrowBitwidthBody_total (he0 : e0.WellTyped) (he : e.WellTyped) :
    Total (narrowBitwidthBody coin e0 e) (narrowReads e) := by
  unfold narrowBitwidthBody
  split
  all_goals first
    | exact trivial
    | exact he.elim
    | exact total_both _ (by simp [narrowReads]) (by simp [narrowReads])
    | exact total_loop _ (by simp [narrowReads])
    | exact total_clampHigh he0
        (total_both _ (by simp [narrowReads]) (by simp [narrowReads]))
    | exact total_clampHigh he0
        (meets_call (by simp [narrowReads]) fun _ _ => trivial)
    | exact total_typeBits he

theorem narrowBitwidth_returns (coin : Exp → Bool) (hdefs : defs.Typed)
    (he : e.WellTyped) (ha : defs.Agrees e) :
    ∃ r, (narrowBitwidth coin defs e).Returns e r := by
  obtain ⟨r, hr, -⟩ : ∃ r, (narrowBitwidth coin defs e).Returns e r ∧ True := by
    apply mapExprTemp_returns (L := Exp.WellTyped) (Q := fun _ _ => True)
      narrowReads_operands
    · intro d hd _
      exact narrowBitwidthBody_total he hd
    · intros
      exact ⟨trivial, trivial⟩
    · intro d hd
      exact (hd.typed narrowReads_operands hdefs he ha).1
  exact ⟨r, hr⟩

end Total

end Fuzzball.SymRegion
