import Fuzzball.AddressZeros

/-!
# Strides of address expressions

`gcd` and `stride` of `sym_region_frag_machine.ml`: a number that is meant to
divide every value of an expression.  The greatest common divisor is taken of
numbers that may be negative, for which the loop need not end, and a divisor
of a number divides what remains of it after wrapping around only if it is a
power of two.
-/

namespace Fuzzball.SymRegion

open Vine MemoRecursion FormulaManager

variable {μ : Type} [VineMemory μ]

/-! ## The greatest common divisor -/

/-- `gcd`, on fuel; `mod` has the sign of the dividend. -/
def gcdLoop : ℕ → ℤ → ℤ → Option ℤ
  | 0, _, _ => none
  | n + 1, a, b =>
    if a = 0 then some b
    else if b = 0 then some a
    else if a > b then gcdLoop n b (a.tmod b)
    else gcdLoop n a (b.tmod a)

theorem gcdLoop_natCast (n a b : ℕ) (h : a + b < n) :
    gcdLoop n a b = some (Nat.gcd a b : ℕ) := by
  induction n generalizing a b with
  | zero => omega
  | succ n ih =>
    rw [gcdLoop]
    by_cases ha : a = 0
    · subst ha
      simp
    by_cases hb : b = 0
    · subst hb
      simp [ha]
    have ha' : (a : ℤ) ≠ 0 := by exact_mod_cast ha
    have hb' : (b : ℤ) ≠ 0 := by exact_mod_cast hb
    rw [if_neg ha', if_neg hb']
    by_cases hab : (a : ℤ) > b
    · have hmod : (a : ℤ).tmod b = (a % b : ℕ) := rfl
      have hlt := Nat.mod_lt a (Nat.pos_of_ne_zero hb)
      rw [if_pos hab, hmod, ih b (a % b) (by omega), Nat.gcd_comm a b,
        Nat.gcd_comm b (a % b), ← Nat.gcd_rec]
    · have hmod : (b : ℤ).tmod a = (b % a : ℕ) := rfl
      have hlt := Nat.mod_lt b (Nat.pos_of_ne_zero ha)
      rw [if_neg hab, hmod, ih a (b % a) (by omega), Nat.gcd_comm a (b % a),
        ← Nat.gcd_rec]

/-- The loop on a negative number that is no divisor of the other one. -/
theorem gcdLoop_diverges (n : ℕ) : gcdLoop n (-3) 2 = none := by
  induction n with
  | zero => rfl
  | succ n ih =>
    rw [gcdLoop]
    exact ih

/-! ## The analysis -/

def mulInt (x y : ℤ) : ℤ := OCaml.wrapInt (x * y)

/-- `x lsl n`; what it is for a count outside `[0, 63)` is left open. -/
def lslInt (wild : ℤ → ℤ → ℤ) (x n : ℤ) : ℤ :=
  if 0 ≤ n ∧ n < 63 then OCaml.wrapInt (x * 2 ^ n.toNat) else wild x n

/-- Why a computation has no result: an exception, or `none` where its fuel is
spent. -/
abbrev Stop := Option Exn

/-- `gcd (loop e1) (loop e2)`. -/
def gcdBoth (n : ℕ) (e1 e2 : Exp) : Body Exp ℤ Stop ℤ := do
  let r2 ← Body.loop e2
  let r1 ← Body.loop e1
  match gcdLoop n r1 r2 with
  | some r => pure r
  | none => .raise none

/-- The function `f` of `stride`, with fuel for `gcd` and `bitshift`. -/
def strideBody (wild : ℤ → ℤ → ℤ) (defs : Definitions) (n : ℕ) (e : Exp) :
    Body Exp ℤ Stop ℤ :=
  let unit : Body Exp ℤ Stop ℤ := do
    pure (lslInt wild 1 (← Body.ofExcept ((bitshift defs).eval n e)))
  match e with
  | .binOp .plus e1 e2 | .binOp .minus e1 e2 => gcdBoth n e1 e2
  | .binOp .times e1 e2 => do
    let r2 ← Body.loop e2
    let r1 ← Body.loop e1
    pure (mulInt r1 r2)
  | .binOp .lshift e1 (.constant (.int _ v)) =>
    if v.slt 0x3fffffff then do
      pure (lslInt wild (← Body.loop e1) v.toOCamlInt)
    else unit
  | .constant (.int _ k) =>
    if k.slt 0x3fffffff then pure k.toOCamlInt else unit
  | _ => unit

/-- `stride`, as the recursion that it is. -/
def stride (wild : ℤ → ℤ → ℤ) (defs : Definitions) (n : ℕ) :
    Scheme Exp ℤ ℤ Stop :=
  mapExprTemp defs (strideBody wild defs n) fun _ res => res

def StrideReturns (wild : ℤ → ℤ → ℤ) (defs : Definitions) (e : Exp) (r : ℤ) :
    Prop :=
  ∃ n, (stride wild defs n).eval n e = .ok r

section Fuel

variable {wild : ℤ → ℤ → ℤ} {defs : Definitions} {n m : ℕ}

theorem gcdLoop_succ {n : ℕ} : ∀ {a b r : ℤ}, gcdLoop n a b = some r →
    gcdLoop (n + 1) a b = some r := by
  induction n with
  | zero =>
    intro a b r h
    cases h
  | succ n ih =>
    intro a b r h
    rw [gcdLoop] at h ⊢
    split_ifs at h ⊢
    · exact h
    · exact h
    · exact ih h
    · exact ih h

theorem gcdLoop_mono (hnm : n ≤ m) {a b r : ℤ} (h : gcdLoop n a b = some r) :
    gcdLoop m a b = some r := by
  induction hnm with
  | refl => exact h
  | step _ ih => exact gcdLoop_succ ih

theorem refines_loop (e : Exp) :
    (Body.loop e : Body Exp ℤ Stop ℤ).Refines (Body.loop e) := .refl _

theorem gcdBoth_refines (hnm : n ≤ m) (e1 e2 : Exp) :
    (gcdBoth n e1 e2).Refines (gcdBoth m e1 e2) := by
  refine (refines_loop e2).bind fun r2 => (refines_loop e1).bind fun r1 => ?_
  rcases h : gcdLoop n r1 r2 with _ | r
  · trivial
  · rw [gcdLoop_mono hnm h]
    exact .refl _

theorem unit_refines (hnm : n ≤ m) (e : Exp) :
    (do pure (lslInt wild 1 (← Body.ofExcept ((bitshift defs).eval n e))) :
        Body Exp ℤ Stop ℤ).Refines
      (do pure (lslInt wild 1
        (← Body.ofExcept ((bitshift defs).eval m e)))) := by
  refine Body.Refines.bind ?_ fun r => .refl _
  rcases h : (bitshift defs).eval n e with x | r
  · trivial
  · rw [(bitshift defs).eval_mono hnm h]
    exact .refl _

theorem strideBody_refines (hnm : n ≤ m) (e : Exp) :
    (strideBody wild defs n e).Refines (strideBody wild defs m e) := by
  have hunit : Body.Refines (do pure (lslInt wild 1
      (← Body.ofExcept ((bitshift defs).eval n e)))) _ := unit_refines hnm e
  unfold strideBody
  dsimp only
  split
  · exact gcdBoth_refines hnm _ _
  · exact gcdBoth_refines hnm _ _
  · exact .refl _
  · split_ifs
    · exact .refl _
    · exact hunit
  · split_ifs
    · exact .refl _
    · exact hunit
  · exact hunit

theorem stride_refines (hnm : n ≤ m) :
    (stride wild defs n).Refines (stride wild defs m) :=
  ⟨strideBody_refines hnm, rfl, rfl, rfl⟩

theorem StrideReturns.unique {e : Exp} {r r' : ℤ}
    (h : StrideReturns wild defs e r) (h' : StrideReturns wild defs e r') :
    r = r' := by
  obtain ⟨n, hn⟩ := h
  obtain ⟨m, hm⟩ := h'
  have hle := Nat.le_max_left n m
  have hle' := Nat.le_max_right n m
  have h1 := (stride_refines hle).eval hle hn
  have h2 := (stride_refines hle').eval hle' hm
  rw [h1] at h2
  exact Except.ok.inj h2

end Fuel

/-! ## What the analysis is right about -/

/-- A constant that is its own stride, or the count of a shift that is
followed. -/
def SmallConstant (v : I64) : Prop := v.slt 0x3fffffff = true

/-- The operands that `stride` walks into. -/
def strideReads : Exp → List Exp
  | .binOp .plus e1 e2 | .binOp .minus e1 e2 | .binOp .times e1 e2 => [e1, e2]
  | .binOp .lshift e1 (.constant (.int _ v)) =>
    if v.slt 0x3fffffff then [e1] else []
  | _ => []

theorem strideReads_operands (e : Exp) :
    ∀ d ∈ strideReads e, d ∈ e.operands := by
  intro d hd
  unfold strideReads at hd
  split at hd <;> simp_all [Exp.operands]

/-- No rule but the last one, a power of two from `bitshift`, applies. -/
def IsUnit : Exp → Prop
  | .binOp .plus _ _ | .binOp .minus _ _ | .binOp .times _ _ => False
  | .binOp .lshift _ (.constant (.int _ v)) => ¬SmallConstant v
  | .constant (.int _ k) => ¬SmallConstant k
  | _ => True

/-- The stride is a power of two, by the shape of the expression. -/
inductive StridesByPower (defs : Definitions) : Exp → Prop
  | unit {e : Exp} : IsUnit e →
      (∀ v, e = .temp v → defs.exprTemp v.id = none) → StridesByPower defs e
  | constant {t : Typ} {k : I64} (j : ℕ) : k.toNat = 2 ^ j →
      StridesByPower defs (.int t k)
  | left {op : BinopType} {e1 e2 : Exp} : op = .plus ∨ op = .minus →
      StridesByPower defs e1 → StridesByPower defs (.binOp op e1 e2)
  | right {op : BinopType} {e1 e2 : Exp} : op = .plus ∨ op = .minus →
      StridesByPower defs e2 → StridesByPower defs (.binOp op e1 e2)
  | times {e1 e2 : Exp} : StridesByPower defs e1 → StridesByPower defs e2 →
      StridesByPower defs (.binOp .times e1 e2)
  | lshift {e1 : Exp} {t : Typ} {v : I64} : StridesByPower defs e1 →
      StridesByPower defs (.binOp .lshift e1 (.int t v))
  | definition {v : Var} {d : Exp} : defs.exprTemp v.id = some d →
      StridesByPower defs d → StridesByPower defs (.temp v)

/-- The stride is zero, by the shape of the expression. -/
inductive IsZero (defs : Definitions) : Exp → Prop
  | constant (t : Typ) : IsZero defs (.int t 0)
  | sum {op : BinopType} {e1 e2 : Exp} : op = .plus ∨ op = .minus →
      IsZero defs e1 → IsZero defs e2 → IsZero defs (.binOp op e1 e2)
  | timesLeft {e1 e2 : Exp} : IsZero defs e1 →
      IsZero defs (.binOp .times e1 e2)
  | timesRight {e1 e2 : Exp} : IsZero defs e2 →
      IsZero defs (.binOp .times e1 e2)
  | lshift {e1 : Exp} {t : Typ} {v : I64} : IsZero defs e1 →
      IsZero defs (.binOp .lshift e1 (.int t v))
  | definition {v : Var} {d : Exp} : defs.exprTemp v.id = some d →
      IsZero defs d → IsZero defs (.temp v)

/-- The operation at the root does not wrap around. -/
def Exact (ρ : Valuation μ) : Exp → Prop
  | .binOp .plus e1 e2 => e1.unsigned ρ + e2.unsigned ρ < 2 ^ e1.width
  | .binOp .minus e1 e2 => e2.unsigned ρ ≤ e1.unsigned ρ
  | .binOp .times e1 e2 => e1.unsigned ρ * e2.unsigned ρ < 2 ^ e1.width
  | .binOp .lshift e1 e2 => e1.unsigned ρ * 2 ^ e2.unsigned ρ < 2 ^ e1.width
  | _ => True

/-- The rule at `e` is right: constants are stored as the numbers that they
stand for, the operation does not wrap around unless the stride is a power of
two, and the budget `σ` allows for the stride without an overflow. -/
structure StridesAt (defs : Definitions) (ρ : Valuation μ) (σ : Exp → ℕ)
    (e : Exp) : Prop where
  below : σ e < 2 ^ 62
  definition : ∀ v d, e = .temp v → defs.exprTemp v.id = some d → σ d ≤ σ e
  constant : ∀ t k, e = .int t k → SmallConstant k →
    k.toNat < 2 ^ t.width ∧ k.toNat ≤ σ e
  sum : ∀ op e1 e2, op = .plus ∨ op = .minus → e = .binOp op e1 e2 →
    σ e1 ≤ σ e ∧ σ e2 ≤ σ e
  times : ∀ e1 e2, e = .binOp .times e1 e2 → σ e1 * σ e2 ≤ σ e
  lshift : ∀ e1 t v, e = .binOp .lshift e1 (.int t v) → SmallConstant v →
    v.toNat < 2 ^ t.width ∧ max 1 (σ e1) * 2 ^ v.toNat ≤ σ e
  exact : Exact ρ e ∨ StridesByPower defs e
  unit : IsUnit e → (∀ v, e = .temp v → defs.exprTemp v.id ≠ none →
      ∃ n, defs.exprTemp n = some e) →
    ∃ z : Exp → ℕ,
      (∀ d, Walks defs bitshiftReads e d → CountsZeros defs ρ z d) ∧
        2 ^ z e ≤ σ e

section Sound

variable {wild : ℤ → ℤ → ℤ} {defs : Definitions} {ρ : Valuation μ}
  {σ : Exp → ℕ} {n n1 n2 w : ℕ} {e e1 e2 : Exp}

/-- What the analysis says of an expression. -/
structure HasStride (defs : Definitions) (ρ : Valuation μ) (σ : Exp → ℕ)
    (e : Exp) (n : ℕ) : Prop where
  le : n ≤ σ e
  zero : n = 0 → IsZero defs e
  power : StridesByPower defs e → ∃ k, n = 2 ^ k
  dvd : n ∣ e.unsigned ρ

def Strides (defs : Definitions) (ρ : Valuation μ) (σ : Exp → ℕ) (e : Exp)
    (r : ℤ) : Prop :=
  ∃ n : ℕ, r = n ∧ HasStride defs ρ σ e n

/-- A divisor of a number divides what wrapping around leaves of it, if there
is nothing to wrap around or it is a power of two. -/
theorem dvd_mod {x : ℕ} (h : n ∣ x) (hw : x < 2 ^ w ∨ ∃ k, n = 2 ^ k) :
    n ∣ x % 2 ^ w := by
  rcases hw with hlt | ⟨k, rfl⟩
  · rwa [Nat.mod_eq_of_lt hlt]
  · exact two_pow_dvd_mod h

theorem unsigned_minus (h : e2.typ = e1.typ) :
    (Exp.binOp .minus e1 e2).unsigned ρ =
      (2 ^ e1.width - e2.unsigned ρ + e1.unsigned ρ) % 2 ^ e1.width := by
  rw [← toNat_eval h]
  exact BitVec.toNat_sub ..

theorem dvd_minus (h : e2.typ = e1.typ) (h1 : n ∣ e1.unsigned ρ)
    (h2 : n ∣ e2.unsigned ρ)
    (hw : e2.unsigned ρ ≤ e1.unsigned ρ ∨ ∃ k, n = 2 ^ k) :
    n ∣ (Exp.binOp .minus e1 e2).unsigned ρ := by
  have hlt1 := e1.unsigned_lt ρ
  have hlt2 : e2.unsigned ρ < 2 ^ e1.width := by
    rw [← toNat_eval h]
    exact (e2.eval ρ e1.width).isLt
  rw [unsigned_minus h]
  rcases hw with hle | ⟨k, rfl⟩
  · have heq : 2 ^ e1.width - e2.unsigned ρ + e1.unsigned ρ =
        e1.unsigned ρ - e2.unsigned ρ + 2 ^ e1.width := by omega
    rw [heq, Nat.add_mod_right, Nat.mod_eq_of_lt (by omega)]
    exact Nat.dvd_sub h1 h2
  · by_cases hk : k ≤ e1.width
    · apply two_pow_dvd_mod
      exact Nat.dvd_add (Nat.dvd_sub (Nat.pow_dvd_pow 2 hk) h2) h1
    · have hpow : 2 ^ e1.width < 2 ^ k :=
        Nat.pow_lt_pow_right (by norm_num) (not_le.mp hk)
      have hz1 := Nat.eq_zero_of_dvd_of_lt h1 (hlt1.trans hpow)
      have hz2 := Nat.eq_zero_of_dvd_of_lt h2 (hlt2.trans hpow)
      rw [hz1, hz2]
      simp

theorem exists_two_pow_of_dvd {k : ℕ} (h : n ∣ 2 ^ k) : ∃ j, n = 2 ^ j := by
  obtain ⟨j, -, hj⟩ := (Nat.dvd_prime_pow Nat.prime_two).mp h
  exact ⟨j, hj⟩

theorem StridesByPower.binOp {op : BinopType}
    (hop : op = .plus ∨ op = .minus)
    (h : StridesByPower defs (.binOp op e1 e2)) :
    StridesByPower defs e1 ∨ StridesByPower defs e2 := by
  cases h with
  | unit hunit _ => rcases hop with rfl | rfl <;> exact hunit.elim
  | left _ h => exact .inl h
  | right _ h => exact .inr h
  | times h _ => exact .inl h
  | lshift h => exact .inl h

theorem StridesByPower.binOp_times
    (h : StridesByPower defs (.binOp .times e1 e2)) :
    StridesByPower defs e1 ∧ StridesByPower defs e2 := by
  cases h with
  | unit hunit _ => exact hunit.elim
  | left hop _ => simp at hop
  | right hop _ => simp at hop
  | times h1 h2 => exact ⟨h1, h2⟩

/-- The divisor of a sum and of a difference. -/
theorem HasStride.gcd {op : BinopType} (hop : op = .plus ∨ op = .minus)
    (htyp : e2.typ = e1.typ) (hc : StridesAt defs ρ σ (.binOp op e1 e2))
    (h1 : HasStride defs ρ σ e1 n1) (h2 : HasStride defs ρ σ e2 n2) :
    HasStride defs ρ σ (.binOp op e1 e2) (Nat.gcd n1 n2) := by
  obtain ⟨hσ1, hσ2⟩ := hc.sum op e1 e2 hop rfl
  have hd1 := (Nat.gcd_dvd_left n1 n2).trans h1.dvd
  have hd2 := (Nat.gcd_dvd_right n1 n2).trans h2.dvd
  have hpower : StridesByPower defs (.binOp op e1 e2) →
      ∃ k, Nat.gcd n1 n2 = 2 ^ k := by
    intro h
    rcases h.binOp hop with h | h
    · obtain ⟨k, rfl⟩ := h1.power h
      exact exists_two_pow_of_dvd (Nat.gcd_dvd_left _ n2)
    · obtain ⟨k, rfl⟩ := h2.power h
      exact exists_two_pow_of_dvd (Nat.gcd_dvd_right n1 _)
  refine ⟨?_, ?_, hpower, ?_⟩
  · rcases Nat.eq_zero_or_pos n1 with rfl | hpos
    · rw [Nat.gcd_zero_left]
      exact h2.le.trans hσ2
    · exact (Nat.gcd_le_left n2 hpos).trans (h1.le.trans hσ1)
  · intro h0
    obtain ⟨hz1, hz2⟩ := Nat.gcd_eq_zero_iff.mp h0
    exact .sum hop (h1.zero hz1) (h2.zero hz2)
  · rcases hop with rfl | rfl
    · rw [unsigned_plus htyp]
      exact dvd_mod (Nat.dvd_add hd1 hd2) (hc.exact.imp id hpower)
    · exact dvd_minus htyp hd1 hd2 (hc.exact.imp id hpower)

theorem HasStride.mul (htyp : e2.typ = e1.typ)
    (hc : StridesAt defs ρ σ (.binOp .times e1 e2))
    (h1 : HasStride defs ρ σ e1 n1) (h2 : HasStride defs ρ σ e2 n2) :
    HasStride defs ρ σ (.binOp .times e1 e2) (n1 * n2) := by
  have hpower : StridesByPower defs (.binOp .times e1 e2) →
      ∃ k, n1 * n2 = 2 ^ k := by
    intro h
    obtain ⟨hp1, hp2⟩ := h.binOp_times
    obtain ⟨k1, rfl⟩ := h1.power hp1
    obtain ⟨k2, rfl⟩ := h2.power hp2
    exact ⟨k1 + k2, (pow_add 2 k1 k2).symm⟩
  refine ⟨?_, ?_, hpower, ?_⟩
  · exact (Nat.mul_le_mul h1.le h2.le).trans (hc.times e1 e2 rfl)
  · intro h0
    rcases Nat.mul_eq_zero.mp h0 with h0 | h0
    · exact .timesLeft (h1.zero h0)
    · exact .timesRight (h2.zero h0)
  · rw [unsigned_times htyp]
    exact dvd_mod (Nat.mul_dvd_mul h1.dvd h2.dvd) (hc.exact.imp id hpower)

theorem HasStride.shift {t : Typ} {v : I64} (hsmall : SmallConstant v)
    (hc : StridesAt defs ρ σ (.binOp .lshift e1 (.int t v)))
    (h1 : HasStride defs ρ σ e1 n1) :
    HasStride defs ρ σ (.binOp .lshift e1 (.int t v)) (n1 * 2 ^ v.toNat) := by
  obtain ⟨hfit, hle⟩ := hc.lshift e1 t v rfl hsmall
  have hpower : StridesByPower defs (.binOp .lshift e1 (.int t v)) →
      ∃ k, n1 * 2 ^ v.toNat = 2 ^ k := by
    intro h
    cases h with
    | unit hunit _ => exact absurd hsmall hunit
    | left hop _ => simp at hop
    | right hop _ => simp at hop
    | lshift h =>
      obtain ⟨k, rfl⟩ := h1.power h
      exact ⟨k + v.toNat, (pow_add 2 k v.toNat).symm⟩
  have hval : (Exp.int t v).unsigned ρ = v.toNat := by
    rw [unsigned_int, Nat.mod_eq_of_lt hfit]
  have hexact := hc.exact.imp id hpower
  rw [Exact, hval] at hexact
  refine ⟨?_, ?_, hpower, ?_⟩
  · refine le_trans (Nat.mul_le_mul_right _ ?_) hle
    exact h1.le.trans (le_max_right _ _)
  · intro h0
    rcases Nat.mul_eq_zero.mp h0 with h0 | h0
    · exact .lshift (h1.zero h0)
    · exact absurd h0 (by positivity)
  · rw [unsigned_lshift, hval]
    exact dvd_mod (Nat.mul_dvd_mul h1.dvd dvd_rfl) hexact

theorem HasStride.constant {t : Typ} {k : I64} (hsmall : SmallConstant k)
    (hc : StridesAt defs ρ σ (.int t k)) :
    HasStride defs ρ σ (.int t k) k.toNat := by
  obtain ⟨hfit, hle⟩ := hc.constant t k rfl hsmall
  refine ⟨hle, ?_, ?_, ?_⟩
  · intro h0
    obtain rfl : k = 0 := BitVec.eq_of_toNat_eq h0
    exact .constant t
  · intro h
    cases h with
    | unit hunit _ => exact absurd hsmall hunit
    | constant j hj => exact ⟨j, hj⟩
  · rw [unsigned_int, Nat.mod_eq_of_lt hfit]

theorem HasStride.unit {k : ℕ} (hle : 2 ^ k ≤ σ e)
    (hdvd : 2 ^ k ∣ e.unsigned ρ) : HasStride defs ρ σ e (2 ^ k) :=
  ⟨hle, fun h0 => absurd h0 (by positivity), fun _ => ⟨k, rfl⟩, hdvd⟩

theorem mulInt_natCast (h : n1 * n2 < 2 ^ 62) :
    mulInt n1 n2 = (n1 * n2 : ℕ) := by
  have hpos : (0 : ℤ) ≤ n1 * n2 := by positivity
  have hlt : (n1 * n2 : ℤ) < 2 ^ 62 := by exact_mod_cast h
  rw [mulInt, OCaml.wrapInt_of_lt (by linarith) hlt]
  push_cast
  rfl

theorem lslInt_natCast (h : max 1 n1 * 2 ^ n2 < 2 ^ 62) :
    lslInt wild n1 n2 = (n1 * 2 ^ n2 : ℕ) := by
  have hpow : 2 ^ n2 < 2 ^ 62 := by
    refine lt_of_le_of_lt ?_ h
    exact Nat.le_mul_of_pos_left _ (by omega)
  have hn2 : n2 < 62 := (Nat.pow_lt_pow_iff_right (by norm_num)).mp hpow
  have hlt : n1 * 2 ^ n2 < 2 ^ 62 :=
    lt_of_le_of_lt (Nat.mul_le_mul_right _ (le_max_right _ _)) h
  have hpos : (0 : ℤ) ≤ n1 * 2 ^ n2 := by positivity
  have hlt' : (n1 * 2 ^ n2 : ℤ) < 2 ^ 62 := by exact_mod_cast hlt
  rw [lslInt, if_pos ⟨by omega, by omega⟩, Int.toNat_natCast,
    OCaml.wrapInt_of_lt (by linarith) hlt']
  push_cast
  rfl

theorem meets_gcdBoth {l : List Exp} {Q : Exp → ℤ → Prop} {R : ℤ → Prop}
    (h1 : e1 ∈ l) (h2 : e2 ∈ l)
    (h : ∀ r1 r2, Q e1 r1 → Q e2 r2 →
      ∃ r, gcdLoop n r1 r2 = some r ∧ R r) :
    (gcdBoth n e1 e2).Meets (· ∈ l) Q R := by
  refine ⟨h2, fun r2 hr2 => ⟨h1, fun r1 hr1 => ?_⟩⟩
  obtain ⟨r, hr, hR⟩ := h r1 r2 hr1 hr2
  dsimp only [bind, Body.bind]
  rw [hr]
  exact hR

/-- With fuel `n`, `bitshift` gives a power of two that divides the value. -/
def UnitAt (defs : Definitions) (ρ : Valuation μ) (σ : Exp → ℕ) (n : ℕ)
    (e : Exp) : Prop :=
  ∃ k : ℕ, (bitshift defs).eval n e = .ok k ∧ 2 ^ k ≤ σ e ∧
    2 ^ k ∣ e.unsigned ρ

theorem meets_unit {l : List Exp} {Q : Exp → ℤ → Prop} (hσ : σ e < 2 ^ 62)
    (h : UnitAt defs ρ σ n e) :
    (do pure (lslInt wild 1 (← Body.ofExcept ((bitshift defs).eval n e))) :
        Body Exp ℤ Stop ℤ).Meets (· ∈ l) Q (Strides defs ρ σ e) := by
  obtain ⟨k, hk, hle, hdvd⟩ := h
  refine Body.Meets.bind (R := fun r => r = (k : ℤ)) (.ofExcept hk rfl) ?_
  rintro _ rfl
  refine ⟨2 ^ k, ?_, .unit hle hdvd⟩
  have hlsl : lslInt wild (1 : ℕ) k = (1 * 2 ^ k : ℕ) := by
    apply lslInt_natCast
    rw [max_self, one_mul]
    exact hle.trans_lt hσ
  rw [one_mul] at hlsl
  exact hlsl

theorem strideBody_meets (hn : 2 ^ 63 < n) (he : e.WellTyped)
    (hc : StridesAt defs ρ σ e) (hunit : IsUnit e → UnitAt defs ρ σ n e) :
    (strideBody wild defs n e).Meets (· ∈ strideReads e) (Strides defs ρ σ)
      (Strides defs ρ σ e) := by
  have hσ := hc.below
  have hdefault : IsUnit e → (do pure (lslInt wild 1
      (← Body.ofExcept ((bitshift defs).eval n e))) :
        Body Exp ℤ Stop ℤ).Meets (· ∈ strideReads e) (Strides defs ρ σ)
          (Strides defs ρ σ e) := fun h => meets_unit hσ (hunit h)
  cases e with
  | binOp op e1 e2 =>
    obtain ⟨-, -, hadm⟩ := id he
    cases op with
    | plus =>
      obtain ⟨hσ1, hσ2⟩ := hc.sum .plus e1 e2 (.inl rfl) rfl
      apply meets_gcdBoth (by simp [strideReads]) (by simp [strideReads])
      rintro _ _ ⟨n1, rfl, h1⟩ ⟨n2, rfl, h2⟩
      have hle1 := h1.le
      have hle2 := h2.le
      refine ⟨_, gcdLoop_natCast n n1 n2 (by omega), _, rfl, ?_⟩
      exact h1.gcd (.inl rfl) hadm hc h2
    | minus =>
      obtain ⟨hσ1, hσ2⟩ := hc.sum .minus e1 e2 (.inr rfl) rfl
      apply meets_gcdBoth (by simp [strideReads]) (by simp [strideReads])
      rintro _ _ ⟨n1, rfl, h1⟩ ⟨n2, rfl, h2⟩
      have hle1 := h1.le
      have hle2 := h2.le
      refine ⟨_, gcdLoop_natCast n n1 n2 (by omega), _, rfl, ?_⟩
      exact h1.gcd (.inr rfl) hadm hc h2
    | times =>
      refine ⟨by simp [strideReads], ?_⟩
      rintro _ ⟨n2, rfl, h2⟩
      refine ⟨by simp [strideReads], ?_⟩
      rintro _ ⟨n1, rfl, h1⟩
      have h := h1.mul hadm hc h2
      exact ⟨n1 * n2, mulInt_natCast (h.le.trans_lt hσ), h⟩
    | lshift =>
      rcases count_cases e2 with ⟨t, v, rfl⟩ | hother
      · by_cases hsmall : SmallConstant v
        · obtain ⟨-, hle⟩ := hc.lshift e1 t v rfl hsmall
          have hbody : strideBody wild defs n (.binOp .lshift e1 (.int t v)) =
              (do pure (lslInt wild (← Body.loop e1) v.toOCamlInt)) :=
            if_pos hsmall
          rw [hbody]
          have hreads : strideReads (.binOp .lshift e1 (.int t v)) = [e1] :=
            if_pos hsmall
          refine ⟨hreads ▸ List.mem_singleton_self e1, ?_⟩
          rintro _ ⟨n1, rfl, h1⟩
          have hmax : max 1 n1 * 2 ^ v.toNat < 2 ^ 62 := by
            refine lt_of_le_of_lt (Nat.mul_le_mul_right _ ?_) (hle.trans_lt hσ)
            exact max_le_max le_rfl h1.le
          refine ⟨n1 * 2 ^ v.toNat, ?_, h1.shift hsmall hc⟩
          have hv : v.toNat < 2 ^ 62 := by
            have hpow : 2 ^ v.toNat < 2 ^ 62 :=
              lt_of_le_of_lt (Nat.le_mul_of_pos_left _ (by omega)) hmax
            have := (Nat.pow_lt_pow_iff_right (by norm_num)).mp hpow
            omega
          rw [I64.toOCamlInt_of_lt hv]
          exact lslInt_natCast hmax
        · have hbody : strideBody wild defs n (.binOp .lshift e1 (.int t v)) =
              (do pure (lslInt wild 1 (← Body.ofExcept
                ((bitshift defs).eval n (.binOp .lshift e1 (.int t v)))))) :=
            if_neg hsmall
          rw [hbody]
          exact hdefault hsmall
      · cases e2 with
        | constant v =>
          cases v with
          | int t i => exact absurd rfl (hother t i)
          | str s => exact hdefault trivial
        | _ => exact hdefault trivial
    | _ => exact hdefault trivial
  | constant v =>
    cases v with
    | int t k =>
      by_cases hsmall : SmallConstant k
      · have hbody : strideBody wild defs n (.int t k) = pure k.toOCamlInt :=
          if_pos hsmall
        obtain ⟨-, hle⟩ := hc.constant t k rfl hsmall
        rw [hbody, I64.toOCamlInt_of_lt (hle.trans_lt hσ)]
        exact ⟨k.toNat, rfl, .constant hsmall hc⟩
      · have hbody : strideBody wild defs n (.int t k) =
            (do pure (lslInt wild 1 (← Body.ofExcept
              ((bitshift defs).eval n (.int t k))))) := if_neg hsmall
        rw [hbody]
        exact hdefault hsmall
    | str s => exact he.elim
  | _ => exact hdefault trivial

theorem HasStride.temp {v : Var} {d : Exp} (hρ : defs.Holds ρ)
    (hd : defs.exprTemp v.id = some d) (ht : d.typ = v.typ)
    (hσ : σ d ≤ σ (.temp v)) (h : HasStride defs ρ σ d n) :
    HasStride defs ρ σ (.temp v) n := by
  refine ⟨h.le.trans hσ, fun h0 => .definition hd (h.zero h0), ?_, ?_⟩
  · intro hp
    cases hp with
    | unit _ hnone => simp [hnone v rfl] at hd
    | definition hd' hp =>
      rw [hd, Option.some.injEq] at hd'
      exact h.power (hd' ▸ hp)
  · rw [hρ.unsigned hd ht]
    exact h.dvd

theorem stride_runs {wild : ℤ → ℤ → ℤ} (h : (stride wild defs n).Runs e)
    (ht : e.WellTyped) (v : Var) (hv : e = .temp v)
    (hd : defs.exprTemp v.id ≠ none) : ∃ m, defs.exprTemp m = some e := by
  rcases h with h | h
  · subst hv
    have hreg : v.typ.IsReg := ht
    rw [stride, mapExprTemp] at h
    simp only [hreg, if_true, Option.bind_some] at h
    exact absurd h hd
  · exact h

/-- Fuel for every call of `bitshift`. -/
theorem exists_fuel {F : Exp → ℕ → Prop} (l : List Exp)
    (hmono : ∀ d n m, n ≤ m → F d n → F d m) :
    ∃ n, 2 ^ 63 < n ∧ ∀ d ∈ l, (∃ m, F d m) → F d n := by
  induction l with
  | nil => exact ⟨2 ^ 63 + 1, by omega, by simp⟩
  | cons d l ih =>
    obtain ⟨n, hn, hl⟩ := ih
    by_cases hd : ∃ m, F d m
    · obtain ⟨m, hm⟩ := hd
      refine ⟨max n m, by omega, fun c hc hex => ?_⟩
      rcases List.mem_cons.mp hc with rfl | hc
      · exact hmono c m _ (le_max_right n m) hm
      · exact hmono c n _ (le_max_left n m) (hl c hc hex)
    · refine ⟨n, hn, fun c hc hex => ?_⟩
      rcases List.mem_cons.mp hc with rfl | hc
      · exact absurd hex hd
      · exact hl c hc hex

theorem stride_divides (wild : ℤ → ℤ → ℤ) (hdefs : defs.Typed)
    (he : e.WellTyped) (ha : defs.Agrees e) (hρ : defs.Holds ρ)
    (hat : ∀ d, Walks defs strideReads e d → StridesAt defs ρ σ d) :
    ∃ r, StrideReturns wild defs e r ∧ Strides defs ρ σ e r := by
  have htyped := fun d (hd : Walks defs strideReads e d) =>
    hd.typed strideReads_operands hdefs he ha
  obtain ⟨l, hl⟩ : ∃ l : List Exp, ∀ d, Walks defs strideReads e d → d ∈ l :=
    exists_walked strideReads_operands e
  obtain ⟨n, hn, hfuel⟩ := exists_fuel (F := fun d n => UnitAt defs ρ σ n d) l
    (fun d n m hnm ⟨k, hk, h⟩ => ⟨k, (bitshift defs).eval_mono hnm hk, h⟩)
  obtain ⟨r, ⟨m, hm⟩, hr⟩ : ∃ r, (stride wild defs n).Returns e r ∧
      Strides defs ρ σ e r := by
    apply mapExprTemp_returns
      (L := fun d => d.WellTyped ∧ defs.Agrees d ∧ StridesAt defs ρ σ d ∧ d ∈ l)
      (Q := Strides defs ρ σ) strideReads_operands
    · intro d ⟨hd, had, hc, hdl⟩ hruns
      refine strideBody_meets hn hd hc fun hunit => hfuel d hdl ?_
      obtain ⟨z, hz, hle⟩ := hc.unit hunit (stride_runs hruns hd)
      have hlt : 2 ^ z d < 2 ^ 62 := hle.trans_lt hc.below
      have hz62 : z d < 62 := (Nat.pow_lt_pow_iff_right (by norm_num)).mp hlt
      obtain ⟨_, ⟨m, hm⟩, k, rfl, hk, hdvd⟩ :=
        bitshift_zeros hdefs hd had hρ hz (by omega)
      refine ⟨m, k, hm, le_trans ?_ hle, hdvd⟩
      exact Nat.pow_le_pow_right (by norm_num) hk
    · rintro v d _ ⟨-, hav, hc, -⟩ hd ⟨k, rfl, hk⟩
      have ht : d.typ = v.typ := hav v (by simp [Exp.vars]) d hd
      have h := hk.temp hρ hd ht (hc.definition v d rfl hd)
      exact ⟨⟨k, rfl, h⟩, k, rfl, h⟩
    · intro d hd
      exact ⟨(htyped d hd).1, (htyped d hd).2, hat d hd, hl d hd⟩
  have hle := Nat.le_max_left n m
  have hle' := Nat.le_max_right n m
  exact ⟨r, ⟨max n m, (stride_refines hle).eval hle' hm⟩, hr⟩

/-- An index times four, plus twelve. -/
def arrayOffset : Exp :=
  .binOp .plus (.binOp .lshift (.temp ⟨0, [], .reg32⟩) (.int .reg8 2))
    (.int .reg32 12)

/-- A budget of twelve, and of one for the index. -/
def arrayOffsetBudget (d : Exp) : ℕ :=
  if d = .temp ⟨0, [], .reg32⟩ then 1 else 12

theorem walks_arrayOffset {d : Exp}
    (h : Walks .none strideReads arrayOffset d) :
    d ∈ [arrayOffset, .binOp .lshift (.temp ⟨0, [], .reg32⟩) (.int .reg8 2),
      .int .reg32 12, .temp ⟨0, [], .reg32⟩] := by
  apply h.mem
  · simp
  · decide
  · intro v hv d hd
    cases hd

theorem stridesByPower_arrayOffset : StridesByPower .none arrayOffset :=
  .left (.inl rfl) (.lshift (.unit trivial fun _ _ => rfl))

theorem countsZeros_index {d : Exp}
    (h : Walks .none bitshiftReads (.temp ⟨0, [], .reg32⟩) d) :
    CountsZeros .none Valuation.zero (fun _ => 0) d := by
  have hmem := h.mem (s := [.temp ⟨0, [], .reg32⟩]) (by simp) (by decide)
    (fun _ _ _ hd => by cases hd)
  obtain rfl := List.mem_singleton.mp hmem
  constructor <;> intros <;> simp_all

theorem stridesAt_arrayOffset {d : Exp}
    (h : Walks .none strideReads arrayOffset d) :
    StridesAt .none Valuation.zero arrayOffsetBudget d := by
  have hmem := walks_arrayOffset h
  simp only [List.mem_cons, List.not_mem_nil, or_false] at hmem
  constructor
  · rcases hmem with rfl | rfl | rfl | rfl <;> decide
  · intro v d' _ hd
    cases hd
  · rcases hmem with rfl | rfl | rfl | rfl <;>
      simp [arrayOffset, arrayOffsetBudget, Typ.width]
  · intro op e1 e2 hop heq
    rcases hmem with rfl | rfl | rfl | rfl <;> simp [arrayOffset] at heq
    · obtain ⟨-, rfl, rfl⟩ := heq
      decide
    · obtain ⟨rfl, -⟩ := heq
      simp at hop
  · rcases hmem with rfl | rfl | rfl | rfl <;> simp [arrayOffset]
  · rcases hmem with rfl | rfl | rfl | rfl <;>
      simp [arrayOffset, arrayOffsetBudget, Typ.width]
  · rcases hmem with rfl | rfl | rfl | rfl
    · exact .inr stridesByPower_arrayOffset
    · exact .inr (.lshift (.unit trivial fun _ _ => rfl))
    · exact .inl trivial
    · exact .inl trivial
  · intro hunit _
    rcases hmem with rfl | rfl | rfl | rfl
    · exact hunit.elim
    · exact absurd rfl hunit
    · exact absurd rfl hunit
    · exact ⟨fun _ => 0, fun _ => countsZeros_index, by decide⟩

/-- A word times three. -/
def threefold : Exp :=
  .binOp .times (.temp ⟨0, [], .reg32⟩) (.int .reg32 3)

/-- The sum of minus three and two, as 64-bit constants. -/
def negativeOffset : Exp := .binOp .plus (.int .reg64 (-3)) (.int .reg64 2)

/-- No fuel is enough: the divisor of minus three and two is looked for
forever. -/
theorem stride_diverges (wild : ℤ → ℤ → ℤ) (r : ℤ) :
    ¬StrideReturns wild .none negativeOffset r := by
  rintro ⟨n, hn⟩
  have hn' := (stride wild .none n).eval_mono (Nat.le_add_right n 2) hn
  have hrun : (stride wild .none n).eval (n + 2) negativeOffset =
      (Body.run ((stride wild .none n).recurse (n + 1))
        (match gcdLoop n (-3) 2 with
          | some r => (pure r : Body Exp ℤ Stop ℤ)
          | none => .raise none) fun _ => none).map Prod.fst := rfl
  rw [hrun, gcdLoop_diverges] at hn'
  cases hn'

end Sound

end Fuzzball.SymRegion
