import Fuzzball.Asmir

/-!
# Multiplication of 64 bits to 128 bits

`translate_MullU64` and `translate_MullS64` of `irtoir.cpp`.  The product is
the sum of four partial products of 32-bit halves, with the carries into the
high word counted by comparisons.
-/

namespace Fuzzball.Asmir

open Vine

/-! ## The source -/

def translateMullU64 (arg1 arg2 : Exp) : Emit Exp128 := do
  let x1 ← mkTempDef .reg64 (exUCast (exHCast arg1 .reg32) .reg64)
  let x0 ← mkTempDef .reg64 (exUCast (exLCast arg1 .reg32) .reg64)
  let y1 ← mkTempDef .reg64 (exUCast (exHCast arg2 .reg32) .reg64)
  let y0 ← mkTempDef .reg64 (exUCast (exLCast arg2 .reg32) .reg64)
  let p11 ← mkTempDef .reg64 (exMul x1 y1)
  let p10 ← mkTempDef .reg64 (exMul x1 y0)
  let p01 ← mkTempDef .reg64 (exMul x0 y1)
  let p00 ← mkTempDef .reg64 (exMul x0 y0)
  let s0_a ← mkTempDef .reg64 (exAdd p00 (exShl p01 (exConst 32)))
  let c0_a := exUCast (exLt s0_a p00) .reg64
  let s0_b ← mkTempDef .reg64 (exAdd s0_a (exShl p10 (exConst 32)))
  let c0_b := exUCast (exLt s0_b s0_a) .reg64
  let s1 := exAdd (exAdd p11 (exAdd c0_a c0_b))
    (exAdd (exShr p01 (exConst 32)) (exShr p10 (exConst 32)))
  pure (translate64HLto128 s1 s0_b)

/-- `mk_temps128_def`. -/
def mkTemps128Def (val : Exp128) : Emit Exp128 := do
  let t_high ← mkTemp .reg64
  let t_low ← mkTemp .reg64
  let (v_high, v_low) := splitVector val
  push (.move t_high v_high)
  push (.move t_low v_low)
  pure (.vector (.temp t_high) (.temp t_low))

def translateNeg128 (arg : Exp128) : Emit Exp128 := do
  let (arg_high, arg_low) := splitVector arg
  let not_high := exNot arg_high
  let not_low := exNot arg_low
  let inc_low ← mkTempDef .reg64 (exAdd not_low (exConst64 1))
  let inc_high :=
    exAdd not_high (exUCast (exEq inc_low (exConst64 0)) .reg64)
  pure (translate64HLto128 inc_high inc_low)

def vecIte (cond : Exp) (exp_t exp_f : Exp128) : Exp128 :=
  let (t_high, t_low) := splitVector exp_t
  let (f_high, f_low) := splitVector exp_f
  .vector (exIte cond t_high f_high) (exIte cond t_low f_low)

def translateMullS64 (arg1 arg2 : Exp) : Emit Exp128 := do
  -- the comparisons with zero are unsigned
  let neg1 ← mkTempDef .reg1 (exLt arg1 (exConst64 0))
  let neg2 ← mkTempDef .reg1 (exLt arg2 (exConst64 0))
  let abs1 := exIte neg1 (exNeg arg1) arg1
  let abs2 := exIte neg2 (exNeg arg2) arg2
  let absprod ← translateMullU64 abs1 abs2
  let absprod ← mkTemps128Def absprod
  let negprod ← mkTempDef .reg1 (exXor neg1 neg2)
  let neg ← translateNeg128 absprod
  pure (vecIte negprod neg absprod)

/-! ## The product of two words -/

/-- A half of a word, as a word. -/
abbrev highWord (x : BitVec 64) : BitVec 64 := (Bits.high 32 x).setWidth 64
abbrev lowWord (x : BitVec 64) : BitVec 64 := (x.setWidth 32).setWidth 64

/-- A carry as a word. -/
abbrev carryBit (b : Bool) : BitVec 64 := (flag 1 b).setWidth 64

/-- The high and the low word that the code computes. -/
def mullU64 (x y : BitVec 64) : BitVec 64 × BitVec 64 :=
  let p11 := highWord x * highWord y
  let p10 := highWord x * lowWord y
  let p01 := lowWord x * highWord y
  let p00 := lowWord x * lowWord y
  let s0_a := p00 + p01 <<< 32
  let s0_b := s0_a + p10 <<< 32
  (p11 + (carryBit (s0_a.ult p00) + carryBit (s0_b.ult s0_a)) +
    (p01 >>> 32 + p10 >>> 32), s0_b)

theorem toNat_carryBit (b : Bool) : (carryBit b).toNat = b.toNat := by
  cases b <;> rfl

theorem toNat_highWord (x : BitVec 64) :
    (highWord x).toNat = x.toNat / 2 ^ 32 := by
  rw [BitVec.toNat_setWidth_of_le (by decide),
    Bits.toNat_high _ (by decide)]

theorem toNat_lowWord (x : BitVec 64) :
    (lowWord x).toNat = x.toNat % 2 ^ 32 := by
  rw [BitVec.toNat_setWidth_of_le (by decide), BitVec.toNat_setWidth]

/-- The product of two half words fits into a word. -/
theorem toNat_mul_half {x y : BitVec 64} (hx : x.toNat < 2 ^ 32)
    (hy : y.toNat < 2 ^ 32) : (x * y).toNat = x.toNat * y.toNat := by
  have hlt : x.toNat * y.toNat < 2 ^ 32 * 2 ^ 32 := Nat.mul_lt_mul'' hx hy
  rw [BitVec.toNat_mul, Nat.mod_eq_of_lt (by simpa using hlt)]

/-- A sum with a word shifted up by half, and its carry. -/
theorem toNat_add_shift (s p : BitVec 64) :
    (s + p <<< 32).toNat + 2 ^ 64 * ((s + p <<< 32).ult s).toNat =
      s.toNat + p.toNat % 2 ^ 32 * 2 ^ 32 := by
  have hs := s.isLt
  have hshift : (p <<< 32).toNat = p.toNat % 2 ^ 32 * 2 ^ 32 := by
    rw [BitVec.toNat_shiftLeft, Nat.shiftLeft_eq]
    omega
  have hadd : (s + p <<< 32).toNat =
      (s.toNat + p.toNat % 2 ^ 32 * 2 ^ 32) % 2 ^ 64 := by
    rw [BitVec.toNat_add, hshift]
  rw [BitVec.ult, hadd]
  by_cases h : s.toNat + p.toNat % 2 ^ 32 * 2 ^ 32 < 2 ^ 64
  · rw [Nat.mod_eq_of_lt h, decide_eq_false (by omega), Bool.toNat_false]
    omega
  · rw [decide_eq_true (by omega), Bool.toNat_true]
    omega

/-- The sum of the words that go into the high word. -/
theorem toNat_highSum (p q r : BitVec 64) (c d : Bool)
    (h : p.toNat + c.toNat + d.toNat + q.toNat / 2 ^ 32 + r.toNat / 2 ^ 32 <
      2 ^ 64) :
    (p + (carryBit c + carryBit d) + (q >>> 32 + r >>> 32)).toNat =
      p.toNat + c.toNat + d.toNat + q.toNat / 2 ^ 32 + r.toNat / 2 ^ 32 := by
  simp only [BitVec.toNat_add, BitVec.toNat_ushiftRight, toNat_carryBit,
    Nat.shiftRight_eq_div_pow]
  omega

theorem mullU64_toNat (x y : BitVec 64) :
    (mullU64 x y).1.toNat * 2 ^ 64 + (mullU64 x y).2.toNat =
      x.toNat * y.toNat := by
  have hx1 := toNat_highWord x
  have hx0 := toNat_lowWord x
  have hy1 := toNat_highWord y
  have hy0 := toNat_lowWord y
  have hx := x.isLt
  have hy := y.isLt
  have hhalf : ∀ z : BitVec 64,
      (highWord z).toNat < 2 ^ 32 ∧ (lowWord z).toNat < 2 ^ 32 := by
    intro z
    have hz := z.isLt
    rw [toNat_highWord, toNat_lowWord]
    omega
  have h11 := toNat_mul_half (hhalf x).1 (hhalf y).1
  have h10 := toNat_mul_half (hhalf x).1 (hhalf y).2
  have h01 := toNat_mul_half (hhalf x).2 (hhalf y).1
  have h00 := toNat_mul_half (hhalf x).2 (hhalf y).2
  have hprod : x.toNat * y.toNat =
      (highWord x * highWord y).toNat * 2 ^ 64 +
        ((highWord x * lowWord y).toNat + (lowWord x * highWord y).toNat) *
          2 ^ 32 + (lowWord x * lowWord y).toNat := by
    have hxs : x.toNat = (highWord x).toNat * 2 ^ 32 + (lowWord x).toNat := by
      omega
    have hys : y.toNat = (highWord y).toNat * 2 ^ 32 + (lowWord y).toNat := by
      omega
    rw [h11, h10, h01, h00]
    nth_rewrite 1 [hxs, hys]
    ring
  have hlt : x.toNat * y.toNat < 2 ^ 64 * 2 ^ 64 := Nat.mul_lt_mul'' hx hy
  have ha := toNat_add_shift (lowWord x * lowWord y) (lowWord x * highWord y)
  have hb := toNat_add_shift
    (lowWord x * lowWord y + (lowWord x * highWord y) <<< 32)
    (highWord x * lowWord y)
  have hsum := toNat_highSum (highWord x * highWord y) (lowWord x * highWord y)
    (highWord x * lowWord y)
    ((lowWord x * lowWord y + (lowWord x * highWord y) <<< 32).ult
      (lowWord x * lowWord y))
    ((lowWord x * lowWord y + (lowWord x * highWord y) <<< 32 +
      (highWord x * lowWord y) <<< 32).ult
      (lowWord x * lowWord y + (lowWord x * highWord y) <<< 32)) (by omega)
  rw [hprod]
  dsimp only [mullU64]
  rw [hsum]
  omega

/-! ## What the code denotes -/

variable {μ : Type} [VineMemory μ] {ρ : Valuation μ} {β : Type}
  {Q : β → Prop} {arg1 arg2 : Exp} {x y : BitVec 64} {n : ℕ}

/-- The two lanes have the given values. -/
def Denotes128 (ρ : Valuation μ) (e : Exp128) (high low : BitVec 64) : Prop :=
  Denotes ρ (splitVector e).1 .reg64 high ∧
    Denotes ρ (splitVector e).2 .reg64 low

theorem yields_translateMullU64
    (h1 : Denotes ρ arg1 .reg64 x) (h2 : Denotes ρ arg2 .reg64 y) :
    Yields ρ (translateMullU64 arg1 arg2) fun e =>
      Denotes128 ρ e (mullU64 x y).1 (mullU64 x y).2 := by
  apply yields_temp ((h1.hcast .reg32).ucast .reg64)
  intro x1 hx1
  apply yields_temp ((h1.lcast .reg32).ucast .reg64)
  intro x0 hx0
  apply yields_temp ((h2.hcast .reg32).ucast .reg64)
  intro y1 hy1
  apply yields_temp ((h2.lcast .reg32).ucast .reg64)
  intro y0 hy0
  apply yields_temp (hx1.mul hy1)
  intro p11 h11
  apply yields_temp (hx1.mul hy0)
  intro p10 h10
  apply yields_temp (hx0.mul hy1)
  intro p01 h01
  apply yields_temp (hx0.mul hy0)
  intro p00 h00
  apply yields_temp (h00.add (h01.shl (.const32 32)))
  intro s0_a hsa
  apply yields_temp (hsa.add (h10.shl (.const32 32)))
  intro s0_b hsb
  have hcarries := ((hsa.lt h00).ucast .reg64).add ((hsb.lt hsa).ucast .reg64)
  have hs1 := (h11.add hcarries).add
    ((h01.shr (.const32 32)).add (h10.shr (.const32 32)))
  exact yields_pure ⟨hs1, hsb⟩

theorem yields_mkTemps128Def
    {val : Exp128} {high low : BitVec 64} {f : Exp128 → Emit β}
    (hval : Denotes128 ρ val high low)
    (hf : ∀ e, Denotes128 ρ e high low → Yields ρ (f e) Q) :
    Yields ρ (mkTemps128Def val >>= f) Q := by
  refine yields_bind (P := fun e => Denotes128 ρ e high low) ?_ hf
  apply yields_mkTemp
  intro t_high hhigh
  apply yields_mkTemp
  intro t_low hlow
  apply yields_move hhigh hval.1
  intro h1
  apply yields_move hlow hval.2
  intro h2
  exact yields_pure ⟨h1, h2⟩

/-- Negation of a double word. -/
def neg128 (high low : BitVec 64) : BitVec 64 × BitVec 64 :=
  (~~~high + carryBit (~~~low + 1 == 0), ~~~low + 1)

theorem yields_translateNeg128
    {arg : Exp128} {high low : BitVec 64} (harg : Denotes128 ρ arg high low) :
    Yields ρ (translateNeg128 arg) fun e =>
      Denotes128 ρ e (neg128 high low).1 (neg128 high low).2 := by
  apply yields_temp (harg.2.not.add (.const64 1))
  intro inc_low hlow
  exact yields_pure
    ⟨harg.1.not.add ((hlow.eq (.const64 0)).ucast .reg64), hlow⟩

theorem denotes_vecIte
    {c : Exp} {p : Bool} {e e' : Exp128} {high low high' low' : BitVec 64}
    (hc : DenotesBool ρ c p) (he : Denotes128 ρ e high low)
    (he' : Denotes128 ρ e' high' low') :
    Denotes128 ρ (vecIte c e e') (if p then high else high')
      (if p then low else low') :=
  ⟨hc.ite he.1 he'.1, hc.ite he.2 he'.2⟩

/-- No word is below zero without a sign, so neither operand is negated and
the code computes the unsigned product. -/
theorem yields_translateMullS64
    (h1 : Denotes ρ arg1 .reg64 x) (h2 : Denotes ρ arg2 .reg64 y) :
    Yields ρ (translateMullS64 arg1 arg2) fun e =>
      Denotes128 ρ e (mullU64 x y).1 (mullU64 x y).2 := by
  have hult : ∀ z : BitVec 64, z.ult 0 = false := fun z => by
    simp [BitVec.ult]
  have hneg1 := h1.lt (.const64 0)
  have hneg2 := h2.lt (.const64 0)
  rw [hult] at hneg1 hneg2
  apply yields_temp hneg1
  intro neg1 hneg1
  apply yields_temp hneg2
  intro neg2 hneg2
  have habs1 := hneg1.ite h1.neg h1
  have habs2 := hneg2.ite h2.neg h2
  rw [if_neg Bool.false_ne_true] at habs1 habs2
  apply yields_bind (yields_translateMullU64 habs1 habs2)
  intro absprod habs
  apply yields_mkTemps128Def habs
  intro absprod habs
  apply yields_temp (hneg1.xorBool hneg2)
  intro negprod hnegprod
  apply yields_bind (yields_translateNeg128 habs)
  intro neg hneg
  have hres := denotes_vecIte hnegprod hneg habs
  rw [Bool.xor_false, if_neg Bool.false_ne_true,
    if_neg Bool.false_ne_true] at hres
  exact yields_pure hres

/-! ## Temporaries -/

theorem places_translateMullU64
    (h1 : Below n arg1) (h2 : Below n arg2) :
    Places n (translateMullU64 arg1 arg2) Below128 := by
  have h1up : ∀ k, Below (n + k) arg1 :=
    fun k => h1.mono (Nat.le_add_right n k)
  have h2up : ∀ k, Below (n + k) arg2 :=
    fun k => h2.mono (Nat.le_add_right n k)
  dsimp only [translateMullU64]
  iterate 10
    apply places_temp
    · simp [ReadsOnly, h1, h1up, h2up, add_assoc, tempVar]
  exact places_pure
    ⟨by simp [translate64HLto128, splitVector, ReadsOnly, add_assoc, tempVar],
      by simp [translate64HLto128, splitVector, ReadsOnly, tempVar]⟩

/-- Two temporaries that are declared before either is assigned. -/
theorem places_temps
    {t u : Typ} {a b : Exp} {f : Var → Var → Emit β} {P : ℕ → β → Prop}
    (ha : Below n a) (hb : Below n b)
    (hf : Places (n + 2) (f (tempVar t n) (tempVar u (n + 1))) P) :
    Places n (do
      let v ← mkTemp t
      let w ← mkTemp u
      push (.move v a)
      push (.move w b)
      f v w) P :=
  ⟨⟨rfl, ha, rfl, Below.mono hb (Nat.le_succ n), hf.1⟩, hf.2⟩

theorem places_mkTemps128Def {val : Exp128} (hval : Below128 n val) :
    Places n (mkTemps128Def val) Below128 := by
  apply places_temps hval.1 hval.2
  exact places_pure
    ⟨by simp [splitVector, ReadsOnly, tempVar],
      by simp [splitVector, ReadsOnly, tempVar]⟩

theorem places_translateNeg128 {arg : Exp128} (harg : Below128 n arg) :
    Places n (translateNeg128 arg) Below128 := by
  have hhigh : Below (n + 1) (splitVector arg).1 :=
    Below.mono harg.1 (Nat.le_succ n)
  have hlow : Below (n + 1) (.temp (tempVar .reg64 n)) :=
    Int.ofNat_lt.mpr (Nat.lt_add_one n)
  apply places_temp
  · exact ⟨harg.2, trivial⟩
  exact places_pure ⟨⟨hhigh, hlow, trivial⟩, hlow⟩

theorem below_vecIte
    {c : Exp} {e e' : Exp128} (hc : Below n c) (he : Below128 n e)
    (he' : Below128 n e') : Below128 n (vecIte c e e') :=
  ⟨⟨hc, he.1, he'.1⟩, hc, he.2, he'.2⟩

theorem places_translateMullS64
    (h1 : Below n arg1) (h2 : Below n arg2) :
    Places n (translateMullS64 arg1 arg2) Below128 := by
  have h1up : ∀ k, Below (n + k) arg1 :=
    fun k => h1.mono (Nat.le_add_right n k)
  have h2up : ∀ k, Below (n + k) arg2 :=
    fun k => h2.mono (Nat.le_add_right n k)
  have htemp : ∀ {m k : ℕ} (t : Typ), k < m →
      Below m (.temp (tempVar t k)) :=
    fun t hk => Int.ofNat_lt.mpr hk
  dsimp only [translateMullS64]
  apply places_temp
  · simp [ReadsOnly, h1]
  apply places_temp
  · simp [ReadsOnly, h2up]
  apply places_bind
  · apply places_translateMullU64
    · simp [ReadsOnly, h1up, add_assoc, tempVar]
    · simp [ReadsOnly, h2up, add_assoc, tempVar]
  intro m absprod hm habs
  apply places_bind (places_mkTemps128Def habs)
  intro m' absprod hm' habs
  apply places_temp
  · exact ⟨htemp .reg1 (by omega), htemp .reg1 (by omega)⟩
  have habs' : Below128 (m' + 1) absprod :=
    ⟨Below.mono habs.1 (by omega), Below.mono habs.2 (by omega)⟩
  apply places_bind (places_translateNeg128 habs')
  intro k neg hk hneg
  apply places_pure
  apply below_vecIte (htemp .reg1 (by omega)) hneg
  exact ⟨Below.mono habs'.1 hk, Below.mono habs'.2 hk⟩

/-! ## The words of the product -/

/-- The expression denotes the two words of `p`. -/
def DenotesWords (ρ : Valuation μ) (e : Exp128) (p : BitVec 128) : Prop :=
  Denotes128 ρ e (Bits.high 64 p) (p.setWidth 64)

theorem denotes128_iff {e : Exp128} {high low high' low' : BitVec 64}
    (h : Denotes128 ρ e high low) :
    Denotes128 ρ e high' low' ↔ high' = high ∧ low' = low := by
  constructor
  · intro h'
    exact ⟨h'.1.eval.symm.trans h.1.eval, h'.2.eval.symm.trans h.2.eval⟩
  · intro ⟨hhigh, hlow⟩
    rw [hhigh, hlow]
    exact h

theorem words_eq_iff (p : BitVec 128) (high low : BitVec 64) :
    Bits.high 64 p = high ∧ p.setWidth 64 = low ↔
      p.toNat = high.toNat * 2 ^ 64 + low.toNat := by
  have hp := p.isLt
  have hlow := low.isLt
  rw [← BitVec.toNat_inj, ← BitVec.toNat_inj, Bits.toNat_high _ (by decide),
    BitVec.toNat_setWidth]
  omega

theorem words_unsigned (x y : BitVec 64) :
    Bits.high 64 (x.setWidth 128 * y.setWidth 128) = (mullU64 x y).1 ∧
      (x.setWidth 128 * y.setWidth 128).setWidth 64 = (mullU64 x y).2 := by
  have hx := x.isLt
  have hy := y.isLt
  have hlt : x.toNat * y.toNat < 2 ^ 64 * 2 ^ 64 := Nat.mul_lt_mul'' hx hy
  rw [words_eq_iff, mullU64_toNat, BitVec.toNat_mul,
    BitVec.toNat_setWidth_of_le (by decide),
    BitVec.toNat_setWidth_of_le (by decide)]
  exact Nat.mod_eq_of_lt hlt

/-- The code denotes the exact product, and it changes only new temporaries. -/
theorem translateMullU64_exact
    (n : ℕ) {arg1 arg2 : Exp} (h1 : Operand n .reg64 arg1)
    (h2 : Operand n .reg64 arg2) (ρ : Valuation μ) :
    let code := translateMullU64 arg1 arg2 n
    let ρ' := exec code.stmts ρ
    DenotesWords ρ' code.value
        ((arg1.eval ρ 64).setWidth 128 * (arg2.eval ρ 64).setWidth 128) ∧
      AgreeOn (Numbered n) ρ ρ' := by
  intro code ρ'
  apply (places_translateMullU64 h1.below h2.below).run ρ
    (Q := fun ρ' e => DenotesWords ρ' e
      ((arg1.eval ρ 64).setWidth 128 * (arg2.eval ρ 64).setWidth 128))
  intro ρ' hρ
  apply (yields_translateMullU64 (h1.denotes hρ) (h2.denotes hρ)).imp
  intro e he
  exact (denotes128_iff he).mpr (words_unsigned _ _)

/-- The square of `2 ^ 64 - 1`. -/
theorem translateMullU64_exact_max :
    let code := translateMullU64 (exConst64 (-1)) (exConst64 (-1)) 0
    DenotesWords (exec code.stmts Valuation.zero) code.value
      0xfffffffffffffffe0000000000000001 :=
  have hconst : ∀ x, Operand 0 .reg64 (exConst64 x) :=
    fun _ => ⟨rfl, trivial⟩
  (translateMullU64_exact 0 (hconst (-1)) (hconst (-1)) Valuation.zero).1

/-! ## The sign -/

/-- A word with its sign, modulo `2 ^ 128`. -/
theorem signExtend_eq_sub (x : BitVec 64) :
    x.signExtend 128 =
      x.setWidth 128 - if x.msb then BitVec.twoPow 128 64 else 0 := by
  have hx := x.isLt
  cases hm : x.msb with
  | false =>
    rw [BitVec.signExtend_eq_setWidth_of_msb_false hm, if_neg (by decide)]
    exact (sub_zero _).symm
  | true =>
    rw [if_pos rfl, ← BitVec.toNat_inj, BitVec.toNat_signExtend, hm,
      BitVec.toNat_sub, BitVec.toNat_twoPow_of_lt (by decide),
      BitVec.toNat_setWidth_of_le (by decide)]
    simp only [if_true]
    omega

theorem mul_twoPow_eq_zero_iff (z : BitVec 128) :
    z * BitVec.twoPow 128 64 = 0 ↔ z.setWidth 64 = 0 := by
  have hz := z.isLt
  rw [← BitVec.toNat_inj, ← BitVec.toNat_inj, BitVec.toNat_mul,
    BitVec.toNat_setWidth, BitVec.toNat_twoPow_of_lt (by decide)]
  change z.toNat * 2 ^ 64 % 2 ^ 128 = 0 ↔ z.toNat % 2 ^ 64 = 0
  omega

/-- Where the signs do not matter. -/
def SameProduct (x y : BitVec 64) : Prop :=
  (x.msb = false ∧ y.msb = false) ∨ x = 0 ∨ y = 0 ∨
    (x = BitVec.intMin 64 ∧ y = BitVec.intMin 64)

theorem sub_mul_eq_iff (X Y : BitVec 128) {y : BitVec 64}
    (hY : Y.setWidth 64 = y) :
    (X - BitVec.twoPow 128 64) * Y = X * Y ↔ y = 0 := by
  rw [sub_mul, sub_eq_self, mul_comm, mul_twoPow_eq_zero_iff, hY]

theorem sub_mul_sub_eq_iff (x y : BitVec 64) (hx : x.msb = true)
    (hy : y.msb = true) :
    (x.setWidth 128 - BitVec.twoPow 128 64) *
        (y.setWidth 128 - BitVec.twoPow 128 64) =
      x.setWidth 128 * y.setWidth 128 ↔
      x = BitVec.intMin 64 ∧ y = BitVec.intMin 64 := by
  have hexpand : ∀ X Y S : BitVec 128,
      (X - S) * (Y - S) = X * Y - ((X + Y) * S - S * S) := by
    intro X Y S
    ring
  have hsquare : BitVec.twoPow 128 64 * BitVec.twoPow 128 64 = 0 := by
    decide
  rw [hexpand, hsquare, sub_zero, sub_eq_self, mul_twoPow_eq_zero_iff,
    BitVec.setWidth_add _ _ (by decide), Bits.setWidth_setWidth_self (by decide),
    Bits.setWidth_setWidth_self (by decide)]
  -- two words of at least `2 ^ 63` add up to `2 ^ 64`
  have hx' := BitVec.le_toNat_of_msb_true hx
  have hy' := BitVec.le_toNat_of_msb_true hy
  have hxlt := x.isLt
  have hylt := y.isLt
  rw [← BitVec.toNat_inj, ← BitVec.toNat_inj, ← BitVec.toNat_inj,
    BitVec.toNat_add]
  change (x.toNat + y.toNat) % 2 ^ 64 = 0 ↔
    x.toNat = 2 ^ 63 ∧ y.toNat = 2 ^ 63
  omega

theorem signedProduct_eq_iff (x y : BitVec 64) :
    x.signExtend 128 * y.signExtend 128 = x.setWidth 128 * y.setWidth 128 ↔
      SameProduct x y := by
  have hself : ∀ z : BitVec 64, (z.setWidth 128).setWidth 64 = z :=
    Bits.setWidth_setWidth_self (by decide)
  have hzero : ∀ z : BitVec 64, z.msb = true → z ≠ 0 := by
    intro z hz h
    rw [h] at hz
    exact absurd hz (by decide)
  have hmin : ∀ z : BitVec 64, z.msb = false → z ≠ BitVec.intMin 64 := by
    intro z hz h
    rw [h] at hz
    exact absurd hz (by decide)
  unfold SameProduct
  rw [signExtend_eq_sub, signExtend_eq_sub]
  cases hx : x.msb <;> cases hy : y.msb
  · simp
  · rw [if_neg Bool.false_ne_true, if_pos rfl, sub_zero, mul_comm,
      mul_comm (x.setWidth 128), sub_mul_eq_iff _ _ (hself x)]
    have hy0 := hzero y hy
    have hx0 := hmin x hx
    grind
  · rw [if_neg Bool.false_ne_true, if_pos rfl, sub_zero,
      sub_mul_eq_iff _ _ (hself y)]
    have hx0 := hzero x hx
    have hy0 := hmin y hy
    grind
  · rw [if_pos rfl, sub_mul_sub_eq_iff x y hx hy]
    have hx0 := hzero x hx
    have hy0 := hzero y hy
    grind

/-- The code computes the unsigned product. -/
theorem translateMullS64_unsigned
    (n : ℕ) {arg1 arg2 : Exp} (h1 : Operand n .reg64 arg1)
    (h2 : Operand n .reg64 arg2) (ρ : Valuation μ) :
    let code := translateMullS64 arg1 arg2 n
    let ρ' := exec code.stmts ρ
    DenotesWords ρ' code.value
        ((arg1.eval ρ 64).setWidth 128 * (arg2.eval ρ 64).setWidth 128) ∧
      AgreeOn (Numbered n) ρ ρ' := by
  intro code ρ'
  apply (places_translateMullS64 h1.below h2.below).run ρ
    (Q := fun ρ' e => DenotesWords ρ' e
      ((arg1.eval ρ 64).setWidth 128 * (arg2.eval ρ 64).setWidth 128))
  intro ρ' hρ
  apply (yields_translateMullS64 (h1.denotes hρ) (h2.denotes hρ)).imp
  intro e he
  exact (denotes128_iff he).mpr (words_unsigned _ _)

theorem denotesWords_iff {e : Exp128} {p q : BitVec 128}
    (h : DenotesWords ρ e q) : DenotesWords ρ e p ↔ p = q := by
  have hq := (words_eq_iff q _ _).mp ⟨rfl, rfl⟩
  rw [DenotesWords, denotes128_iff h, words_eq_iff, ← hq, BitVec.toNat_inj]

/-- The code denotes the signed product just where it is the unsigned one, and
it changes only new temporaries. -/
theorem translateMullS64_exact
    (n : ℕ) {arg1 arg2 : Exp} (h1 : Operand n .reg64 arg1)
    (h2 : Operand n .reg64 arg2) (ρ : Valuation μ) :
    let code := translateMullS64 arg1 arg2 n
    let ρ' := exec code.stmts ρ
    (DenotesWords ρ' code.value
        ((arg1.eval ρ 64).signExtend 128 * (arg2.eval ρ 64).signExtend 128) ↔
      SameProduct (arg1.eval ρ 64) (arg2.eval ρ 64)) ∧
      AgreeOn (Numbered n) ρ ρ' := by
  intro code ρ'
  obtain ⟨hwords, hagree⟩ := translateMullS64_unsigned n h1 h2 ρ
  exact ⟨(denotesWords_iff hwords).trans (signedProduct_eq_iff _ _), hagree⟩

/-- `-1` times `1`. -/
theorem translateMullS64_misses :
    let code := translateMullS64 (exConst64 (-1)) (exConst64 1) 0
    ¬DenotesWords (exec code.stmts Valuation.zero) code.value
      ((-1 : BitVec 64).signExtend 128 * (1 : BitVec 64).signExtend 128) := by
  have hconst : ∀ x, Operand 0 .reg64 (exConst64 x) :=
    fun _ => ⟨rfl, trivial⟩
  intro code hwords
  have hunsigned :=
    (translateMullS64_unsigned 0 (hconst (-1)) (hconst 1) Valuation.zero).1
  exact absurd ((denotesWords_iff hunsigned).mp hwords) (by decide)

/-- The square of the minimum. -/
theorem translateMullS64_exact_min :
    let code := translateMullS64 (exConst64 (BitVec.intMin 64))
      (exConst64 (BitVec.intMin 64)) 0
    DenotesWords (exec code.stmts Valuation.zero) code.value
      ((BitVec.intMin 64).signExtend 128 * (BitVec.intMin 64).signExtend 128) :=
  have hconst : ∀ x, Operand 0 .reg64 (exConst64 x) :=
    fun _ => ⟨rfl, trivial⟩
  (translateMullS64_exact 0 (hconst _) (hconst _) Valuation.zero).1.mpr
    (.inr (.inr (.inr ⟨rfl, rfl⟩)))

end Fuzzball.Asmir
