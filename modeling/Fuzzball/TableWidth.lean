import Fuzzball.AddressSignedWidths
import Fuzzball.AddressTerms
import Mathlib.Data.Nat.Size

/-!
# Widths of table offsets

`decide_wd` of `sym_region_frag_machine.ml` and what it asks the solver.  The
width of an offset is the one that `narrow_bitwidth` finds or, if that is too
large for a table, one that is found by queries.  The queries measure by how
much the offset exceeds its least signed value; the offset itself may be wider.
-/

namespace Fuzzball.SymRegion

open Vine MemoRecursion FormulaManager

variable {μ : Type} [VineMemory μ] {H : Type} [DecidableEq H]

/-! ## Queries -/

/-- An exception, or `none` where the fuel is spent. -/
abbrev Queried := Except (Option Exn)

/-- What the machine provides: options, the temporaries, and the answers of
`query_valid` under the path condition.  A failed `g_assert` raises if it is
`strict`. -/
structure WidthQueries where
  optArch : Arch
  optTableLimit : ℤ
  strict : Bool
  coin : Exp → Bool
  defs : Definitions
  queryValid : Exp → Bool
  wildShift : I64 → ℤ → I64

namespace WidthQueries

variable (q : WidthQueries)

abbrev regAddr : Typ := q.optArch.regAddr

/-- `Int64.shift_right_logical`, unspecified outside of [0, 64). -/
def shiftRightLogical (x : I64) (n : ℤ) : I64 :=
  if 0 ≤ n ∧ n < 64 then x >>> n.toNat else q.wildShift x n

def minvalLoop (e : Exp) (ty : Typ) : ℕ → I64 → I64 → Queried I64
  | 0, _, _ => .error none
  | n + 1, min, max =>
    if max.slt min then .error (some .assertFailure)
    else if min = max then .ok min
    else
      let mid := (min + max + 1).sshiftRight 1
      if q.queryValid (.binOp .sle (.int ty mid) e) then
        minvalLoop e ty n mid max
      else minvalLoop e ty n min (mid - 1)

def queryMinval (n : ℕ) (e : Exp) (ty : Typ) : Queried I64 := do
  let wd := min 62 (← (narrowBitwidthSigned q.coin q.defs e).eval n e)
  let maxLimit := q.shiftRightLogical (-1) (64 - wd)
  let minLimit := -maxLimit - 1
  q.minvalLoop e ty n minLimit maxLimit

/-- The mask that `query_bitwidth` compares with at `mid`. -/
def midMask (mid : ℕ) : I64 := if mid = 0 then 0 else (-1 : I64) >>> (64 - mid)

def InBounds (newE : Exp) (ty : Typ) (mid : ℕ) : Prop :=
  q.queryValid (.binOp .le newE (.int ty (midMask mid))) = true

instance (newE : Exp) (ty : Typ) : DecidablePred (q.InBounds newE ty) :=
  fun _ => inferInstanceAs (Decidable (_ = true))

/-- The loop of `query_bitwidth`; `min` never exceeds `max`, which a
`g_assert` checks. -/
def bitwidthLoop (newE : Exp) (ty : Typ) (min max : ℕ) : ℕ :=
  if min < max then
    let mid := (min + max) / 2
    if q.InBounds newE ty mid then bitwidthLoop newE ty min mid
    else bitwidthLoop newE ty (mid + 1) max
  else min
termination_by max - min

def queryBitwidth (n : ℕ) (e : Exp) (ty : Typ) : Queried ℕ := do
  let wdMin ← q.queryMinval n e ty
  let newE := .binOp .minus e (.int ty wdMin)
  pure (q.bitwidthLoop newE ty 0 ty.width)

/-! ## The decision -/

def computeWd (n : ℕ) (fastWd : ℤ) (offExp : Exp) : Queried (Option I64) :=
  if q.optTableLimit = 0 then pure none
  else if fastWd > q.optTableLimit then do
    let slowWd ← q.queryBitwidth n offExp q.regAddr
    if q.strict ∧ ¬(slowWd : ℤ) ≤ fastWd then
      throw (some (.failure "Too many errors"))
    else if (slowWd : ℤ) > q.optTableLimit then pure none
    else pure (some (BitVec.ofNat 64 slowWd))
  else pure (some (BitVec.ofInt 64 fastWd))

/-- `bitwidth_cache`, by the expression and the history of the path. -/
abbrev BitwidthCache (H : Type) := Exp × H → Option (Option I64)

def decideWd (n : ℕ) (offExp : Exp) (histStr : H) (cache : BitwidthCache H) :
    Queried (Option I64 × BitwidthCache H) := do
  let fastWd ← (narrowBitwidth q.coin q.defs offExp).eval n offExp
  if fastWd = 0 then pure (none, cache)
  else
    match cache (offExp, histStr) with
    | some wd => pure (if wd = some 0 then none else wd, cache)
    | none => do
      let wd ← q.computeWd n fastWd offExp
      pure (if wd = some 0 then none else wd,
        Function.update cache (offExp, histStr) (some wd))

/-! ## What the loops find -/

section Loops

variable {q} {newE e : Exp} {ty : Typ}

/-- The search ends at a bound that is valid next to one that is not. -/
theorem bitwidthLoop_spec {lo hi : ℕ} (hle : lo ≤ hi) :
    lo ≤ q.bitwidthLoop newE ty lo hi ∧ q.bitwidthLoop newE ty lo hi ≤ hi ∧
    (q.bitwidthLoop newE ty lo hi = hi ∨
      q.InBounds newE ty (q.bitwidthLoop newE ty lo hi)) ∧
    (q.bitwidthLoop newE ty lo hi = lo ∨
      ¬q.InBounds newE ty (q.bitwidthLoop newE ty lo hi - 1)) := by
  induction lo, hi using bitwidthLoop.induct q newE ty with
  | case1 lo hi hlt mid hmid ih =>
    have hval : mid = (lo + hi) / 2 := rfl
    rw [bitwidthLoop, if_pos hlt, if_pos hmid]
    obtain ⟨h1, h2, h3, h4⟩ := ih (by omega)
    refine ⟨h1, h2.trans (by omega), .inr ?_, h4⟩
    rcases h3 with h3 | h3
    · rw [h3]
      exact hmid
    · exact h3
  | case2 lo hi hlt mid hmid ih =>
    have hval : mid = (lo + hi) / 2 := rfl
    rw [bitwidthLoop, if_pos hlt, if_neg hmid]
    obtain ⟨h1, h2, h3, h4⟩ := ih (by omega)
    refine ⟨le_trans (by omega) h1, h2, h3, .inr ?_⟩
    rcases h4 with h4 | h4
    · rw [h4, Nat.add_sub_cancel]
      exact hmid
    · exact h4
  | case3 lo hi hlt =>
    obtain rfl : lo = hi := by omega
    rw [bitwidthLoop, if_neg hlt]
    exact ⟨le_rfl, le_rfl, .inl rfl, .inl rfl⟩

theorem toInt_mid {a b : I64} (ha : InRange 62 a.toInt)
    (hb : InRange 62 b.toInt) :
    ((a + b + 1).sshiftRight 1).toInt = (a.toInt + b.toInt + 1) / 2 := by
  obtain ⟨ha1, ha2⟩ := ha
  obtain ⟨hb1, hb2⟩ := hb
  have hone : (1 : I64).toInt = 1 := by decide
  have hsum : (a + b + 1).toInt = a.toInt + b.toInt + 1 := by
    rw [BitVec.toInt_add, BitVec.toInt_add, Int.bmod_add_bmod, hone]
    apply Int.bmod_eq_of_le <;> norm_num at * <;> omega
  rw [BitVec.toInt_sshiftRight, hsum, Int.shiftRight_eq_div_pow]
  norm_num

theorem toInt_pred {a b : I64} (h : b.toInt < a.toInt) :
    (a - 1).toInt = a.toInt - 1 := by
  have hone : (1 : I64).toInt = 1 := by decide
  have ha := BitVec.toInt_lt (x := a)
  have hb := BitVec.le_toInt (x := b)
  rw [BitVec.toInt_sub, hone]
  apply Int.bmod_eq_of_le <;> norm_num at * <;> omega

/-- `query_minval` asks whether the value is at least `m`. -/
def AtLeast (q : WidthQueries) (e : Exp) (ty : Typ) (m : I64) : Prop :=
  q.queryValid (.binOp .sle (.int ty m) e) = true

theorem minvalLoop_spec : ∀ (n : ℕ) {a b : I64}, InRange 62 a.toInt →
    InRange 62 b.toInt → a.toInt ≤ b.toInt → b.toInt - a.toInt < 2 ^ n →
    ∃ m, q.minvalLoop e ty (n + 1) a b = .ok m ∧ a.toInt ≤ m.toInt ∧
      m.toInt ≤ b.toInt ∧ (m = a ∨ q.AtLeast e ty m) ∧
      (m = b ∨ ¬q.AtLeast e ty (m + 1)) := by
  intro n
  induction n with
  | zero =>
    intro a b ha hb hle hn
    obtain rfl : a = b := BitVec.eq_of_toInt_eq (by omega)
    have hslt : a.slt a = false := by simp [BitVec.slt]
    refine ⟨a, ?_, le_rfl, le_rfl, .inl rfl, .inl rfl⟩
    rw [minvalLoop, hslt, if_neg Bool.false_ne_true, if_pos rfl]
  | succ n ih =>
    intro a b ha hb hle hn
    have hslt : b.slt a = false := by
      rw [BitVec.slt, decide_eq_false_iff_not]
      omega
    rw [minvalLoop, hslt, if_neg Bool.false_ne_true]
    by_cases heq : a = b
    · subst heq
      exact ⟨a, if_pos rfl, le_rfl, le_rfl, .inl rfl, .inl rfl⟩
    have hlt : a.toInt < b.toInt :=
      lt_of_le_of_ne hle fun h => heq (BitVec.eq_of_toInt_eq h)
    have hmid := toInt_mid ha hb
    rw [if_neg heq]
    obtain ⟨ha1, ha2⟩ := ha
    obtain ⟨hb1, hb2⟩ := hb
    rw [pow_succ] at hn
    by_cases hvalid : q.AtLeast e ty ((a + b + 1).sshiftRight 1)
    · obtain ⟨m, hm, h1, h2, h3, h4⟩ := ih (a := (a + b + 1).sshiftRight 1)
        (b := b) ⟨by omega, by omega⟩ ⟨hb1, hb2⟩ (by omega) (by omega)
      refine ⟨m, ?_, by omega, h2, .inr ?_, h4⟩
      · exact (if_pos hvalid).trans hm
      · rcases h3 with rfl | h3
        · exact hvalid
        · exact h3
    · have hpred := toInt_pred (a := (a + b + 1).sshiftRight 1) (b := a)
        (by omega)
      obtain ⟨m, hm, h1, h2, h3, h4⟩ := ih (a := a)
        (b := (a + b + 1).sshiftRight 1 - 1) ⟨ha1, ha2⟩ ⟨by omega, by omega⟩
        (by omega) (by omega)
      refine ⟨m, ?_, h1, by omega, h3, .inr ?_⟩
      · exact (if_neg hvalid).trans hm
      · rcases h4 with rfl | h4
        · rwa [sub_add_cancel]
        · exact h4

end Loops

/-! ## What is measured -/

section Measured

variable {q} {e : Exp} {PC : Valuation μ → Prop} {m : I64}

/-- The solver is right about the path condition. -/
def Solves (q : WidthQueries) (PC : Valuation μ → Prop) : Prop :=
  ∀ c : Exp, c.WellTyped → c.typ = .reg1 →
    (q.queryValid c = true ↔ ∀ ρ, PC ρ → c.eval ρ 1 = 1)

theorem toNat_midMask {k : ℕ} (hk : k ≤ 64) :
    (midMask k).toNat = 2 ^ k - 1 := by
  unfold midMask
  split_ifs with h0
  · subst h0
    rfl
  · have hpow : (2 : ℕ) ^ 64 = 2 ^ (64 - k) * 2 ^ k := by
      rw [← pow_add, Nat.sub_add_cancel hk]
    have hones : (-1 : I64).toNat = 2 ^ 64 - 1 := by decide
    have hpos : 0 < 2 ^ (64 - k) * 2 ^ k := by positivity
    have hdiv := Nat.mul_sub_div 0 (2 ^ (64 - k)) (2 ^ k) hpos
    rw [BitVec.toNat_ushiftRight, hones, Nat.shiftRight_eq_div_pow, hpow]
    simpa using hdiv

/-- The offset less a constant. -/
abbrev offsetFrom (q : WidthQueries) (e : Exp) (m : I64) : Exp :=
  .binOp .minus e (.int q.regAddr m)

theorem Arch.regAddr_isReg (a : Arch) : a.regAddr.IsReg := by
  cases a <;> trivial

theorem offsetFrom_wellTyped (he : e.WellTyped) (ht : e.typ = q.regAddr)
    (m : I64) : (q.offsetFrom e m).WellTyped :=
  ⟨he, Arch.regAddr_isReg q.optArch, ht.symm⟩

/-- A query of `query_bitwidth` is valid if the values fit. -/
theorem inBounds_iff (hsolves : q.Solves PC) {d : Exp} (hd : d.WellTyped)
    (ht : d.typ = q.regAddr) {k : ℕ} (hk : k ≤ q.regAddr.width) :
    q.InBounds d q.regAddr k ↔ ∀ ρ, PC ρ → d.unsigned ρ < 2 ^ k := by
  have hreg : q.regAddr.IsReg := Arch.regAddr_isReg q.optArch
  have hk64 : k ≤ 64 := hk.trans q.regAddr.width_le
  have hw : d.width = q.regAddr.width := width_of_typ ht
  have hmask : ((midMask k).setWidth d.width).toNat = 2 ^ k - 1 := by
    have hpow : 2 ^ k ≤ 2 ^ d.width :=
      Nat.pow_le_pow_right (by norm_num) (hw ▸ hk)
    have hpos : 0 < 2 ^ k := by positivity
    rw [BitVec.toNat_setWidth, toNat_midMask hk64, Nat.mod_eq_of_lt (by omega)]
  have htyped : (Exp.binOp .le d (.int q.regAddr (midMask k))).WellTyped :=
    ⟨hd, hreg, ht.symm⟩
  rw [InBounds, hsolves _ htyped rfl]
  refine forall₂_congr fun ρ _ => ?_
  have hpos : 0 < 2 ^ k := by positivity
  have heval : (Exp.binOp .le d (.int q.regAddr (midMask k))).eval ρ 1 =
      flag 1 (decide (d.unsigned ρ ≤ 2 ^ k - 1)) := by
    rw [← hmask]
    rfl
  rw [heval]
  by_cases hle : d.unsigned ρ ≤ 2 ^ k - 1
  · simp only [hle, decide_true]
    exact iff_of_true (by decide) (by omega)
  · simp only [hle, decide_false]
    exact iff_of_false (by decide) (by omega)

/-- `query_bitwidth` finds the least power of two that is above the offset
less the constant. -/
theorem bitwidthLoop_least (hsolves : q.Solves PC) (he : e.WellTyped)
    (ht : e.typ = q.regAddr) (m : I64) {k : ℕ}
    (hk : k = q.bitwidthLoop (q.offsetFrom e m) q.regAddr 0 q.regAddr.width) :
    (∀ ρ, PC ρ → (q.offsetFrom e m).unsigned ρ < 2 ^ k) ∧
    (k = 0 ∨ ∃ ρ, PC ρ ∧ 2 ^ (k - 1) ≤ (q.offsetFrom e m).unsigned ρ) := by
  have hd := offsetFrom_wellTyped he ht m
  have hdt : (q.offsetFrom e m).typ = q.regAddr := ht
  obtain ⟨-, hle, hvalid, hleast⟩ :=
    @bitwidthLoop_spec q (q.offsetFrom e m) q.regAddr 0 q.regAddr.width
      (Nat.zero_le _)
  rw [← hk] at hle hvalid hleast
  constructor
  · rcases hvalid with hvalid | hvalid
    · intro ρ _
      have hlt := Exp.unsigned_lt ρ (q.offsetFrom e m)
      rwa [width_of_typ hdt, ← hvalid] at hlt
    · exact (inBounds_iff hsolves hd hdt hle).mp hvalid
  · refine hleast.imp_right fun hnot => ?_
    rw [inBounds_iff hsolves hd hdt (by omega)] at hnot
    push Not at hnot
    exact hnot

/-- No value of the offset has more bits than the largest value of the offset
less the constant. -/
def Covers (q : WidthQueries) (PC : Valuation μ → Prop) (e : Exp) (m : I64) :
    Prop :=
  ∀ ρ, PC ρ → ∃ ρ', PC ρ' ∧
    (e.unsigned ρ).size ≤ ((q.offsetFrom e m).unsigned ρ').size

theorem covers_iff (hsolves : q.Solves PC) (he : e.WellTyped)
    (ht : e.typ = q.regAddr) (m : I64) {k : ℕ}
    (hk : k = q.bitwidthLoop (q.offsetFrom e m) q.regAddr 0 q.regAddr.width) :
    (∀ ρ, PC ρ → e.unsigned ρ < 2 ^ k) ↔ q.Covers PC e m := by
  obtain ⟨hbound, hleast⟩ := bitwidthLoop_least hsolves he ht m hk
  constructor
  · intro h ρ hρ
    have hsize := Nat.size_le.mpr (h ρ hρ)
    rcases hleast with rfl | ⟨ρ', hρ', hlow⟩
    · exact ⟨ρ, hρ, hsize.trans (Nat.zero_le _)⟩
    · have hlt := Nat.lt_size.mpr hlow
      exact ⟨ρ', hρ', by omega⟩
  · intro h ρ hρ
    obtain ⟨ρ', hρ', hsize⟩ := h ρ hρ
    exact Nat.size_le.mp (hsize.trans (Nat.size_le.mpr (hbound ρ' hρ')))

end Measured

/-! ## The width that is decided -/

section Decided

variable {q} {e : Exp} {PC : Valuation μ → Prop} {m : I64} {n : ℕ}

theorem bind_eq_ok {α β : Type} {x : Queried α} {f : α → Queried β} {b : β} :
    (x >>= f) = .ok b ↔ ∃ a, x = .ok a ∧ f a = .ok b := by
  cases x with
  | ok a =>
    constructor
    · exact fun h => ⟨a, rfl, h⟩
    · rintro ⟨a', h, h'⟩
      cases h
      exact h'
  | error y =>
    constructor
    · intro h
      cases h
    · rintro ⟨a', h, -⟩
      cases h

/-- `narrow_bitwidth` returns `r`. -/
def Narrows (q : WidthQueries) (e : Exp) (r : ℤ) : Prop :=
  (narrowBitwidth q.coin q.defs e).Returns e r

/-- `query_minval` returns `m`. -/
def MinvalIs (q : WidthQueries) (e : Exp) (m : I64) : Prop :=
  ∃ n, q.queryMinval n e q.regAddr = .ok m

theorem minvalLoop_mono {e : Exp} {ty : Typ} {k : ℕ} (h : n ≤ k) :
    ∀ a b m, q.minvalLoop e ty n a b = .ok m →
      q.minvalLoop e ty k a b = .ok m := by
  induction n generalizing k with
  | zero =>
    intro a b m hm
    cases hm
  | succ n ih =>
    obtain ⟨k, rfl⟩ := Nat.exists_eq_add_of_le' (Nat.le_of_add_left_le h)
    have ih := ih (Nat.le_of_succ_le_succ h)
    intro a b m hm
    rw [minvalLoop] at hm ⊢
    split_ifs at hm ⊢ with h1 h2
    · exact hm
    · dsimp only at hm ⊢
      split_ifs at hm ⊢ with h3
      · exact ih _ _ m hm
      · exact ih _ _ m hm

theorem queryMinval_mono {k : ℕ} (h : n ≤ k)
    (hm : q.queryMinval n e q.regAddr = .ok m) :
    q.queryMinval k e q.regAddr = .ok m := by
  unfold queryMinval at hm ⊢
  obtain ⟨r, hr, hm⟩ := bind_eq_ok.mp hm
  exact bind_eq_ok.mpr
    ⟨r, Scheme.eval_mono _ h hr, minvalLoop_mono h _ _ m hm⟩

theorem MinvalIs.unique {m' : I64} (h : q.MinvalIs e m)
    (h' : q.MinvalIs e m') : m = m' := by
  obtain ⟨n, hn⟩ := h
  obtain ⟨k, hk⟩ := h'
  have h1 := queryMinval_mono (Nat.le_max_left n k) hn
  rw [queryMinval_mono (Nat.le_max_right n k) hk] at h1
  exact (Except.ok.inj h1).symm

theorem computeWd_cases {r : ℤ} {wd : I64}
    (h : q.computeWd n r e = .ok (some wd)) :
    (r ≤ q.optTableLimit ∧ wd = BitVec.ofInt 64 r) ∨
    (q.optTableLimit < r ∧ ∃ m, q.MinvalIs e m ∧ wd = BitVec.ofNat 64
      (q.bitwidthLoop (q.offsetFrom e m) q.regAddr 0 q.regAddr.width)) := by
  unfold computeWd at h
  by_cases hzero : q.optTableLimit = 0
  · rw [if_pos hzero] at h
    cases h
  rw [if_neg hzero] at h
  by_cases hfast : r > q.optTableLimit
  · rw [if_pos hfast] at h
    obtain ⟨k, hk, h⟩ := bind_eq_ok.mp h
    obtain ⟨m, hm, hk⟩ := bind_eq_ok.mp hk
    cases hk
    refine .inr ⟨hfast, m, ⟨n, hm⟩, ?_⟩
    split_ifs at h with hstrict hbig
    · cases h
    · exact (Option.some.inj (Except.ok.inj h)).symm
  · rw [if_neg hfast] at h
    cases h
    exact .inl ⟨not_lt.mp hfast, rfl⟩

/-- What is cached for the expression was computed on this path. -/
def CacheFor (q : WidthQueries) (e : Exp) (histStr : H)
    (cache : BitwidthCache H) : Prop :=
  ∀ wd, cache (e, histStr) = some wd → ∃ n r,
    (narrowBitwidth q.coin q.defs e).eval n e = .ok r ∧
      q.computeWd n r e = .ok wd

theorem decideWd_computes {histStr : H} {cache cache' : BitwidthCache H}
    {wd : I64} (hcache : q.CacheFor e histStr cache)
    (h : q.decideWd n e histStr cache = .ok (some wd, cache')) :
    ∃ n r, (narrowBitwidth q.coin q.defs e).eval n e = .ok r ∧
      q.computeWd n r e = .ok (some wd) := by
  have hkept : ∀ o : Option I64, (if o = some 0 then none else o) = some wd →
      o = some wd := by
    intro o ho
    split_ifs at ho
    exact ho
  unfold decideWd at h
  obtain ⟨r, hr, h⟩ := bind_eq_ok.mp h
  split_ifs at h with hzero
  · cases h
  · rcases hentry : cache (e, histStr) with _ | o
    · rw [hentry] at h
      obtain ⟨o, ho, h⟩ := bind_eq_ok.mp h
      have heq := (Prod.mk.inj (Except.ok.inj h)).1
      rw [hkept o heq] at ho
      exact ⟨n, r, hr, ho⟩
    · rw [hentry] at h
      have heq := (Prod.mk.inj (Except.ok.inj h)).1
      obtain ⟨k, r', hr', hk⟩ := hcache o hentry
      rw [hkept o heq] at hk
      exact ⟨k, r', hr', hk⟩

/-- The width that `narrow_bitwidth` finds is right where it is used, and
where queries are made the offset is no wider than what they measure. -/
structure MeasuresOffset (q : WidthQueries) (PC : Valuation μ → Prop)
    (e : Exp) : Prop where
  narrow : ∀ r, q.Narrows e r → r ≤ q.optTableLimit →
    NarrowsSafely q.defs e ∧
      ∀ ρ, PC ρ → DivisorsNonzero q.defs narrowReads ρ e
  covers : ∀ r, q.Narrows e r → q.optTableLimit < r →
    ∀ m, q.MinvalIs e m → q.Covers PC e m

end Decided

/-! ## Four values of an offset -/

section Window

/-- An offset that is a register. -/
def offsetWord : Exp := .temp ⟨0, [], .reg64⟩

def offsetValue (ρ : Valuation Unit) : I64 := ρ.temp ⟨0, [], .reg64⟩

/-- The offset is one of four values. -/
def Window (lo : ℕ) (ρ : Valuation Unit) : Prop :=
  lo ≤ (offsetValue ρ).toNat ∧ (offsetValue ρ).toNat < lo + 4

open Classical in
/-- A solver that is right about the window. -/
noncomputable def windowQueries (lo : ℕ) : WidthQueries where
  optArch := .x64
  optTableLimit := 10
  strict := true
  coin _ := true
  defs := .none
  queryValid c := decide (∀ ρ, Window lo ρ → c.eval ρ 1 = 1)
  wildShift x _ := x

theorem windowQueries_solves (lo : ℕ) :
    (windowQueries lo).Solves (Window lo) := by
  classical
  intro c _ _
  exact decide_eq_true_iff

/-- The valuation in which the offset is `x`. -/
def offsetAt (x : I64) : Valuation Unit where
  temp _ := x
  mem _ := ()
  label _ := 0

theorem window_offsetAt {lo x : ℕ} (hlo : lo < 2 ^ 61) (h1 : lo ≤ x)
    (h2 : x < lo + 4) : Window lo (offsetAt (BitVec.ofNat 64 x)) := by
  have hx : (offsetValue (offsetAt (BitVec.ofNat 64 x))).toNat = x := by
    change (BitVec.ofNat 64 x).toNat = x
    rw [BitVec.toNat_ofNat, Nat.mod_eq_of_lt (by omega)]
  exact ⟨by omega, by omega⟩

theorem atLeast_iff {lo : ℕ} (hlo : lo < 2 ^ 61) (m : I64) :
    (windowQueries lo).AtLeast offsetWord .reg64 m ↔ m.toInt ≤ lo := by
  have heval : ∀ ρ : Valuation Unit,
      (Exp.binOp .sle (.int .reg64 m) offsetWord).eval ρ 1 = 1 ↔
        m.toInt ≤ (offsetValue ρ).toInt := by
    intro ρ
    have hflag : (Exp.binOp .sle (.int .reg64 m) offsetWord).eval ρ 1 =
        flag 1 (m.sle (offsetValue ρ)) := by
      simp [Exp.eval, offsetWord, offsetValue, Exp.width, Exp.typ, Typ.width]
    rw [hflag, BitVec.sle]
    by_cases h : m.toInt ≤ (offsetValue ρ).toInt
    · simp only [h, decide_true, iff_true]
      decide
    · simp only [h, decide_false, iff_false]
      decide
  have hsmall : ∀ ρ, Window lo ρ →
      (offsetValue ρ).toInt = (offsetValue ρ).toNat := by
    rintro ρ ⟨h1, h2⟩
    exact BitVec.toInt_eq_toNat_of_lt (by omega)
  have htyped : (Exp.binOp .sle (.int .reg64 m) offsetWord).WellTyped :=
    ⟨trivial, trivial, rfl⟩
  rw [AtLeast, windowQueries_solves lo _ htyped rfl]
  constructor
  · intro h
    have hlow := window_offsetAt hlo (le_refl lo) (by omega)
    have hall := h _ hlow
    rw [heval, hsmall _ hlow] at hall
    have hx : (offsetValue (offsetAt (BitVec.ofNat 64 lo))).toNat = lo := by
      change (BitVec.ofNat 64 lo).toNat = lo
      rw [BitVec.toNat_ofNat, Nat.mod_eq_of_lt (by omega)]
    rwa [hx] at hall
  · intro h ρ hρ
    rw [heval, hsmall ρ hρ]
    obtain ⟨h1, h2⟩ := hρ
    omega

theorem queryMinval_window {lo : ℕ} (hlo' : lo < 2 ^ 61) :
    (windowQueries lo).queryMinval 70 offsetWord .reg64 =
      .ok (BitVec.ofNat 64 lo) := by
  have hbits : (narrowBitwidthSigned (fun _ => true) .none offsetWord).eval 70
      offsetWord = .ok 64 := rfl
  have hlow : (0xc000000000000000 : I64).toInt = -2 ^ 62 := by decide
  have hhigh : (0x3fffffffffffffff : I64).toInt = 2 ^ 62 - 1 := by decide
  have hone : (1 : I64).toInt = 1 := by decide
  have hlo : (BitVec.ofNat 64 lo).toInt = lo := by
    rw [BitVec.toInt_eq_toNat_of_lt] <;> rw [BitVec.toNat_ofNat,
      Nat.mod_eq_of_lt (by omega)]
    omega
  obtain ⟨m, hm, h1, h2, h3, h4⟩ := @minvalLoop_spec (windowQueries lo)
    offsetWord .reg64 69 0xc000000000000000 0x3fffffffffffffff
    (by rw [hlow]; constructor <;> norm_num)
    (by rw [hhigh]; constructor <;> norm_num)
    (by rw [hlow, hhigh]; norm_num) (by rw [hlow, hhigh]; norm_num)
  have hle : m.toInt ≤ lo := by
    rcases h3 with rfl | h3
    · rw [hlow]
      omega
    · exact (atLeast_iff hlo' m).mp h3
  have hge : lo ≤ m.toInt := by
    rcases h4 with rfl | h4
    · rw [hhigh]
      omega
    · rw [atLeast_iff hlo', BitVec.toInt_add, hone, Int.bmod_eq_of_le] at h4 <;>
        omega
  obtain rfl : m = BitVec.ofNat 64 lo :=
    BitVec.eq_of_toInt_eq (by rw [hlo]; omega)
  have hlimit : (windowQueries lo).shiftRightLogical (-1) (64 - min 62 64) =
      0x3fffffffffffffff := by
    rw [shiftRightLogical, if_pos (by decide)]
    decide
  refine bind_eq_ok.mpr ⟨64, hbits, ?_⟩
  dsimp only
  rw [hlimit]
  exact hm

theorem unsigned_offsetFrom {lo : ℕ} (hlo : lo < 2 ^ 61)
    {ρ : Valuation Unit} (hρ : Window lo ρ) :
    ((windowQueries lo).offsetFrom offsetWord (BitVec.ofNat 64 lo)).unsigned
      ρ = (offsetValue ρ).toNat - lo := by
  obtain ⟨h1, h2⟩ := hρ
  have heval : ((windowQueries lo).offsetFrom offsetWord
      (BitVec.ofNat 64 lo)).unsigned ρ =
      (offsetValue ρ - BitVec.ofNat 64 lo).toNat := by
    change ((offsetValue ρ).setWidth 64 -
      (BitVec.ofNat 64 lo).setWidth 64).toNat = _
    rw [BitVec.setWidth_eq, BitVec.setWidth_eq]
  have hsub : (BitVec.ofNat 64 lo).toNat = lo := by
    rw [BitVec.toNat_ofNat, Nat.mod_eq_of_lt (by omega)]
  rw [heval, BitVec.toNat_sub_of_le, hsub]
  rwa [BitVec.le_def, hsub]

theorem queryBitwidth_window {lo : ℕ} (hlo : lo < 2 ^ 61) :
    (windowQueries lo).queryBitwidth 70 offsetWord .reg64 = .ok 2 := by
  refine bind_eq_ok.mpr ⟨_, queryMinval_window hlo, ?_⟩
  obtain ⟨hbound, hleast⟩ := bitwidthLoop_least (windowQueries_solves lo)
    (e := offsetWord) trivial rfl (BitVec.ofNat 64 lo) rfl
  have hhigh := @window_offsetAt lo (lo + 3) hlo (by omega) (by omega)
  have hx : (offsetValue (offsetAt (BitVec.ofNat 64 (lo + 3)))).toNat =
      lo + 3 := by
    change (BitVec.ofNat 64 (lo + 3)).toNat = lo + 3
    rw [BitVec.toNat_ofNat, Nat.mod_eq_of_lt (by omega)]
  have h3 := hbound _ hhigh
  rw [unsigned_offsetFrom hlo hhigh, hx, Nat.add_sub_cancel_left] at h3
  refine congrArg Except.ok ?_
  change (windowQueries lo).bitwidthLoop ((windowQueries lo).offsetFrom
    offsetWord (BitVec.ofNat 64 lo)) (windowQueries lo).regAddr 0
    (windowQueries lo).regAddr.width = 2
  generalize (windowQueries lo).bitwidthLoop _ _ _ _ = k at h3 hleast ⊢
  have hge : 2 ≤ k := by
    by_contra hlt
    have hpow : 2 ^ k ≤ 2 ^ 1 :=
      Nat.pow_le_pow_right (by norm_num) (by omega)
    omega
  have hle : k - 1 < 2 := by
    rcases hleast with rfl | ⟨ρ, hρ, hlow⟩
    · norm_num
    · obtain ⟨-, h2⟩ := id hρ
      rw [unsigned_offsetFrom hlo hρ] at hlow
      apply (Nat.pow_lt_pow_iff_right (by norm_num : 1 < 2)).mp
      omega
  omega

/-- The cache with the width of the offset. -/
def windowCache : BitwidthCache Unit :=
  Function.update (fun _ => none) (offsetWord, ()) (some (some 2))

theorem narrows_window (lo : ℕ) : (windowQueries lo).Narrows offsetWord 64 :=
  ⟨70, rfl⟩

theorem decideWd_window {lo : ℕ} (hlo : lo < 2 ^ 61) :
    (windowQueries lo).decideWd 70 offsetWord () (fun _ => none) =
      .ok (some 2, windowCache) := by
  have hlimit : (windowQueries lo).optTableLimit = 10 := rfl
  have hwd : (windowQueries lo).computeWd 70 64 offsetWord = .ok (some 2) := by
    rw [computeWd, hlimit, if_neg (by decide), if_pos (by decide)]
    exact bind_eq_ok.mpr ⟨2, queryBitwidth_window hlo, rfl⟩
  refine bind_eq_ok.mpr ⟨64, rfl, ?_⟩
  rw [if_neg (by decide)]
  exact bind_eq_ok.mpr ⟨some 2, hwd, rfl⟩

/-- At zero the offset is what the queries measure. -/
theorem measuresOffset_window :
    (windowQueries 0).MeasuresOffset (Window 0) offsetWord := by
  constructor
  · intro r hr hle
    obtain rfl : r = 64 := hr.unique (narrows_window 0)
    exact absurd hle (by decide : ¬(64 : ℤ) ≤ 10)
  · intro r _ _ m hm ρ hρ
    obtain rfl : m = BitVec.ofNat 64 0 :=
      hm.unique ⟨70, queryMinval_window (by norm_num)⟩
    refine ⟨ρ, hρ, le_of_eq (congrArg Nat.size ?_)⟩
    rw [unsigned_offsetFrom (by norm_num) hρ, Nat.sub_zero]
    change ((offsetValue ρ).setWidth 64).toNat = _
    rw [BitVec.setWidth_eq]

end Window

end WidthQueries

end Fuzzball.SymRegion
