import Fuzzball.InfluenceBounds
import Fuzzball.TableWidth

/-!
# Greatest and least values by queries

`query_maxval` and `query_minval` of `sym_region_frag_machine.ml`.  Both search
between limits taken from a bound on the width; the constants that are asked
about are truncated to the type of the expression, and the midpoint of
`query_maxval` is a signed quotient of a sum that can overflow.
-/

namespace Fuzzball.SymRegion

open Vine MemoRecursion FormulaManager
open Influence (IsBound)

variable {μ : Type} [VineMemory μ]

namespace WidthQueries

variable (q : WidthQueries)

/-! ## The greatest value -/

/-- The size is reduced faster to start. -/
def maxvalMid (min max : I64) : I64 :=
  if min = 0 ∧ (0x1000 : I64).slt max then max.sdiv 256 else (min + max).sdiv 2

def maxvalLoop (e : Exp) (ty : Typ) : ℕ → I64 → I64 → Queried I64
  | 0, _, _ => .error none
  | n + 1, min, max =>
    if q.strict ∧ max.slt min then
      .error (some (.failure "Too many errors"))
    else if min = max then .ok min
    else
      let mid := maxvalMid min max
      if q.queryValid (.binOp .le e (.int ty mid)) then
        maxvalLoop e ty n min mid
      else maxvalLoop e ty n (mid + 1) max

def queryMaxval (n : ℕ) (e : Exp) (ty : Typ) : Queried I64 := do
  let wd := min 63 (← (narrowBitwidth q.coin q.defs e).eval n e)
  let maxLimit := q.shiftRightLogical (-1) (64 - wd)
  if maxLimit = -1 then .error (some .assertFailure)
  else q.maxvalLoop e ty n 0 maxLimit

/-- The machine on a processor on which a shift by 64 bits does `wild`. -/
def onProcessor (wild : I64 → ℤ → I64) : WidthQueries :=
  { q with wildShift := wild }

/-- `query_maxval` returns the greatest value on every processor. -/
def MaxvalExact (PC : Valuation μ → Prop) (e : Exp) : Prop :=
  ∀ wild, ∃ n m, (q.onProcessor wild).queryMaxval n e e.typ = .ok m ∧
    IsBound PC e false true m.toNat

/-- `query_minval` returns the least value on every processor. -/
def MinvalExact (PC : Valuation μ → Prop) (e : Exp) : Prop :=
  ∀ wild, ∃ n m, (q.onProcessor wild).queryMinval n e e.typ = .ok m ∧
    IsBound PC e true false m.toInt

/-! ## Midpoints -/

section Midpoints

variable {a b : I64}

theorem toNat_sdiv_small {x d : I64} (hx : x.toNat < 2 ^ 63)
    (hd : d.toNat < 2 ^ 63) : (x.sdiv d).toNat = x.toNat / d.toNat := by
  have hmx : x.msb = false := BitVec.msb_eq_false_iff_two_mul_lt.mpr (by omega)
  have hmd : d.msb = false := BitVec.msb_eq_false_iff_two_mul_lt.mpr (by omega)
  rw [BitVec.toNat_sdiv, hmx, hmd]
  exact BitVec.toNat_udiv

theorem toNat_maxvalMid (h : a.toNat + b.toNat < 2 ^ 63) :
    (maxvalMid a b).toNat =
      if a.toNat = 0 ∧ 4096 < b.toNat then b.toNat / 256
      else (a.toNat + b.toNat) / 2 := by
  have hzero : a = 0 ↔ a.toNat = 0 := BitVec.toNat_inj.symm
  have hslt : (0x1000 : I64).slt b = true ↔ 4096 < b.toNat := by
    have hlow : (0x1000 : I64).toInt = 4096 := by decide
    rw [BitVec.slt_iff_toInt_lt, BitVec.toInt_eq_toNat_of_lt (x := b)
      (by omega)]
    omega
  have hsum : (a + b).toNat = a.toNat + b.toNat := by
    rw [BitVec.toNat_add, Nat.mod_eq_of_lt (by omega)]
  unfold maxvalMid
  simp only [hzero, hslt]
  split_ifs
  · exact toNat_sdiv_small (by omega) (by decide)
  · rw [toNat_sdiv_small (by omega) (by decide), hsum]
    rfl

theorem toNat_succ {x : I64} (h : x.toNat < 2 ^ 64 - 1) :
    (x + 1).toNat = x.toNat + 1 := by
  have hone : (1 : I64).toNat = 1 := rfl
  rw [BitVec.toNat_add, hone, Nat.mod_eq_of_lt (by omega)]

theorem not_slt_of_le (hb : b.toNat < 2 ^ 63) (h : a.toNat ≤ b.toNat) :
    ¬b.slt a = true := by
  rw [BitVec.slt_iff_toInt_lt, BitVec.toInt_eq_toNat_of_lt (by omega),
    BitVec.toInt_eq_toNat_of_lt (by omega)]
  omega

end Midpoints

/-! ## The search for the greatest value -/

section Greatest

variable {q} {e : Exp} {ty : Typ} {a b m : I64} {n : ℕ}

/-- `query_maxval` asks whether the value is at most `m`. -/
def AtMost (q : WidthQueries) (e : Exp) (ty : Typ) (m : I64) : Prop :=
  q.queryValid (.binOp .le e (.int ty m)) = true

theorem maxvalLoop_mono {k : ℕ} (h : n ≤ k) : ∀ a b m,
    q.maxvalLoop e ty n a b = .ok m → q.maxvalLoop e ty k a b = .ok m := by
  induction n generalizing k with
  | zero =>
    intro a b m hm
    cases hm
  | succ n ih =>
    obtain ⟨k, rfl⟩ := Nat.exists_eq_add_of_le' (Nat.le_of_add_left_le h)
    have ih := ih (Nat.le_of_succ_le_succ h)
    intro a b m hm
    rw [maxvalLoop] at hm ⊢
    split_ifs at hm ⊢ with h1 h2
    · exact hm
    · dsimp only at hm ⊢
      split_ifs at hm ⊢ with h3
      · exact ih _ _ m hm
      · exact ih _ _ m hm

/-- The search between `a` and `b` ends with `m`. -/
def Finds (q : WidthQueries) (e : Exp) (ty : Typ) (a b m : I64) : Prop :=
  ∃ n, q.maxvalLoop e ty n a b = .ok m

theorem Finds.unique {m' : I64} (h : q.Finds e ty a b m)
    (h' : q.Finds e ty a b m') : m = m' := by
  obtain ⟨n, hn⟩ := h
  obtain ⟨k, hk⟩ := h'
  have h1 := maxvalLoop_mono (Nat.le_max_left n k) _ _ _ hn
  rw [maxvalLoop_mono (Nat.le_max_right n k) _ _ _ hk] at h1
  exact (Except.ok.inj h1).symm

theorem Finds.lower (hb : b.toNat < 2 ^ 63) (hlt : a.toNat < b.toNat)
    (hvalid : q.AtMost e ty (maxvalMid a b))
    (h : q.Finds e ty a (maxvalMid a b) m) : q.Finds e ty a b m := by
  obtain ⟨n, hn⟩ := h
  refine ⟨n + 1, ?_⟩
  rw [maxvalLoop, if_neg fun h => not_slt_of_le hb hlt.le h.2,
    if_neg fun h => hlt.ne (congrArg _ h)]
  exact (if_pos hvalid).trans hn

theorem Finds.upper (hb : b.toNat < 2 ^ 63) (hlt : a.toNat < b.toNat)
    (hvalid : ¬q.AtMost e ty (maxvalMid a b))
    (h : q.Finds e ty (maxvalMid a b + 1) b m) : q.Finds e ty a b m := by
  obtain ⟨n, hn⟩ := h
  refine ⟨n + 1, ?_⟩
  rw [maxvalLoop, if_neg fun h => not_slt_of_le hb hlt.le h.2,
    if_neg fun h => hlt.ne (congrArg _ h)]
  exact (if_neg hvalid).trans hn

/-- Without overflow the search ends at a bound that is valid next to one that
is not. -/
theorem finds_spec : ∀ (d : ℕ) {a b : I64}, a.toNat ≤ b.toNat →
    b.toNat < 2 ^ 62 → b.toNat - a.toNat ≤ d →
    ∃ m, q.Finds e ty a b m ∧ a.toNat ≤ m.toNat ∧ m.toNat ≤ b.toNat ∧
      (m = b ∨ q.AtMost e ty m) ∧ (m = a ∨ ¬q.AtMost e ty (m - 1)) := by
  intro d
  induction d with
  | zero =>
    intro a b hle hb hd
    obtain rfl : a = b := BitVec.eq_of_toNat_eq (by omega)
    refine ⟨a, ⟨1, ?_⟩, le_rfl, le_rfl, .inl rfl, .inl rfl⟩
    rw [maxvalLoop, if_neg fun h => not_slt_of_le (by omega) le_rfl h.2,
      if_pos rfl]
  | succ d ih =>
    intro a b hle hb hd
    by_cases heq : a.toNat = b.toNat
    · exact ih hle hb (by omega)
    have hlt : a.toNat < b.toNat := by omega
    have hmid := toNat_maxvalMid (a := a) (b := b) (by omega)
    have hbounds : a.toNat ≤ (maxvalMid a b).toNat ∧
        (maxvalMid a b).toNat < b.toNat := by
      rw [hmid]
      split_ifs with h <;> omega
    by_cases hvalid : q.AtMost e ty (maxvalMid a b)
    · obtain ⟨m, hm, h1, h2, h3, h4⟩ :=
        ih (a := a) (b := maxvalMid a b) hbounds.1 (by omega) (by omega)
      refine ⟨m, hm.lower (by omega) hlt hvalid, h1, by omega, .inr ?_, h4⟩
      rcases h3 with rfl | h3
      · exact hvalid
      · exact h3
    · have hsucc := toNat_succ (x := maxvalMid a b) (by omega)
      obtain ⟨m, hm, h1, h2, h3, h4⟩ :=
        ih (a := maxvalMid a b + 1) (b := b) (by omega) hb (by omega)
      refine ⟨m, hm.upper (by omega) hlt hvalid, by omega, h2, h3, .inr ?_⟩
      rcases h4 with rfl | h4
      · rwa [add_sub_cancel_right]
      · exact h4

end Greatest

/-! ## What is found -/

section Found

variable {q} {PC : Valuation μ → Prop} {e : Exp} {a b m : I64} {B j w : ℕ}

/-- All values are below a power of two. -/
def Below (PC : Valuation μ → Prop) (e : Exp) (k : ℕ) : Prop :=
  ∀ ρ, PC ρ → e.unsigned ρ < 2 ^ k

theorem below_iff (hB : IsBound PC e false true B) (k : ℕ) :
    Below PC e k ↔ B < 2 ^ k := by
  constructor
  · intro h
    obtain ⟨ρ, hρ, hval⟩ := hB.attained
    have hval : ((e.unsigned ρ : ℕ) : ℤ) = B := hval
    have hlt := h ρ hρ
    omega
  · intro h ρ hρ
    have hle : ((e.unsigned ρ : ℕ) : ℤ) ≤ B := hB.extreme ρ hρ
    omega

theorem lt_two_pow (hB : IsBound PC e false true B) : B < 2 ^ e.width := by
  obtain ⟨ρ, -, hval⟩ := hB.attained
  have hval : ((e.unsigned ρ : ℕ) : ℤ) = B := hval
  have hlt := e.unsigned_lt ρ
  omega

/-- A query compares with the constant truncated to the width. -/
theorem atMost_iff (hsolves : q.Solves PC) (he : e.WellTyped)
    (hB : IsBound PC e false true B) (m : I64) :
    q.AtMost e e.typ m ↔ B ≤ m.toNat % 2 ^ e.width := by
  have hreg : e.typ.IsReg := he.isReg
  have htyped : (Exp.binOp .le e (.int e.typ m)).WellTyped := ⟨he, hreg, rfl⟩
  have heval : ∀ ρ : Valuation μ,
      (Exp.binOp .le e (.int e.typ m)).eval ρ 1 = 1 ↔
        e.unsigned ρ ≤ m.toNat % 2 ^ e.width := by
    intro ρ
    have hint : (Exp.int e.typ m).unsigned ρ = m.toNat % 2 ^ e.width :=
      unsigned_int e.typ m
    rw [← hint]
    change flag 1 (decide _) = 1 ↔ _
    rw [Influence.flag_eq_one_iff, decide_eq_true_eq]
    rfl
  rw [AtMost, hsolves _ htyped rfl]
  constructor
  · intro h
    obtain ⟨ρ, hρ, hval⟩ := hB.attained
    have hval : ((e.unsigned ρ : ℕ) : ℤ) = B := hval
    have hle := (heval ρ).mp (h ρ hρ)
    omega
  · intro h ρ hρ
    have hle : ((e.unsigned ρ : ℕ) : ℤ) ≤ B := hB.extreme ρ hρ
    exact (heval ρ).mpr (by omega)

/-- Where no constant is truncated the search is right if the upper limit
is. -/
theorem finds_narrow (hsolves : q.Solves PC) (he : e.WellTyped)
    (hB : IsBound PC e false true B) (hle : a.toNat ≤ b.toNat)
    (hb : b.toNat < 2 ^ 62) (hw : b.toNat < 2 ^ e.width) (ha : a.toNat ≤ B) :
    ∃ m, q.Finds e e.typ a b m ∧ a.toNat ≤ m.toNat ∧
      (m.toNat = B ↔ B ≤ b.toNat) := by
  obtain ⟨m, hm, h1, h2, h3, h4⟩ := @finds_spec q e e.typ _ a b hle hb le_rfl
  rw [atMost_iff hsolves he hB, Nat.mod_eq_of_lt (by omega)] at h3
  have hge : m.toNat ≤ B := by
    rcases h4 with rfl | h4
    · exact ha
    · by_cases hzero : m = 0
      · subst hzero
        exact Nat.zero_le _
      have hpos : 1 ≤ m.toNat := Nat.one_le_iff_ne_zero.mpr fun h =>
        hzero (BitVec.eq_of_toNat_eq h)
      have hpred : (m - 1).toNat = m.toNat - 1 :=
        BitVec.toNat_sub_of_le (BitVec.le_def.mpr hpos)
      rw [atMost_iff hsolves he hB, hpred, Nat.mod_eq_of_lt (by omega)] at h4
      omega
  refine ⟨m, hm, h1, fun h => by omega, fun h => ?_⟩
  rcases h3 with rfl | h3 <;> omega

/-- The constant with `j` ones. -/
def ones (j : ℕ) : I64 := BitVec.ofNat 64 (2 ^ j - 1)

theorem toNat_ones (hj : j ≤ 64) : (ones j).toNat = 2 ^ j - 1 := by
  have hpow : 2 ^ j ≤ 2 ^ 64 := Nat.pow_le_pow_right (by norm_num) hj
  have hpos : 0 < 2 ^ j := by positivity
  rw [ones, BitVec.toNat_ofNat, Nat.mod_eq_of_lt (by omega)]

/-- The limit from which the search goes on if the first query is valid. -/
def nextCap (j : ℕ) : ℕ := if 13 ≤ j then j - 8 else j - 1

theorem maxvalMid_ones (h0 : 0 < j) (hj : j ≤ 63) :
    maxvalMid 0 (ones j) = ones (nextCap j) := by
  have hpow : 2 ^ j ≤ 2 ^ 63 := Nat.pow_le_pow_right (by norm_num) hj
  have hpos : 0 < 2 ^ j := by positivity
  have hones := @toNat_ones j (by omega)
  have hnext := @toNat_ones (nextCap j) (by unfold nextCap; split <;> omega)
  have hzero : (0 : I64).toNat = 0 := rfl
  apply BitVec.eq_of_toNat_eq
  rw [toNat_maxvalMid (by omega), hnext, hones, hzero]
  unfold nextCap
  by_cases hbig : 13 ≤ j
  · have hlarge : 2 ^ 13 ≤ 2 ^ j := Nat.pow_le_pow_right (by norm_num) hbig
    have hsplit : 2 ^ j = 2 ^ (j - 8) * 2 ^ 8 := by
      rw [← pow_add, Nat.sub_add_cancel (by omega)]
    rw [if_pos hbig, if_pos ⟨rfl, by omega⟩]
    omega
  · have hsmall : 2 ^ j ≤ 2 ^ 12 :=
      Nat.pow_le_pow_right (by norm_num) (by omega)
    have hsplit : 2 ^ j = 2 ^ (j - 1) * 2 := by
      rw [← pow_succ, Nat.sub_add_cancel h0]
    rw [if_neg hbig, if_neg (by omega)]
    omega

/-- The last limit above the width that the search comes to from `wd`. -/
def lastCap (w wd : ℕ) : ℕ := w + 1 + (wd - w - 1) % 8

theorem two_pow_lt {i k : ℕ} (h : i < k) : (2 : ℕ) ^ i < 2 ^ k :=
  Nat.pow_lt_pow_right (by norm_num) h

theorem finds_ones_lower (hj : j ≤ 63) (h0 : 0 < j)
    (hvalid : q.AtMost e e.typ (ones (nextCap j)))
    (h : q.Finds e e.typ 0 (ones (nextCap j)) m) :
    q.Finds e e.typ 0 (ones j) m := by
  have hmid := maxvalMid_ones h0 hj
  have hones := @toNat_ones j (by omega)
  have hpow := two_pow_lt (show j < 64 by omega)
  have hpos := two_pow_lt h0
  have hzero : (0 : I64).toNat = 0 := rfl
  rw [← hmid] at h hvalid
  have hhalf : 2 ^ j ≤ 2 ^ 63 := Nat.pow_le_pow_right (by norm_num) hj
  exact h.lower (by omega) (by omega) hvalid

/-- The first query of a search that cannot succeed. -/
theorem finds_ones_upper (hj : j ≤ 63) (h0 : 0 < j)
    (hvalid : ¬q.AtMost e e.typ (ones (nextCap j)))
    (h : q.Finds e e.typ (ones (nextCap j) + 1) (ones j) m) :
    q.Finds e e.typ 0 (ones j) m := by
  have hmid := maxvalMid_ones h0 hj
  have hones := @toNat_ones j (by omega)
  have hpos := two_pow_lt h0
  have hzero : (0 : I64).toNat = 0 := rfl
  rw [← hmid] at h hvalid
  have hhalf : 2 ^ j ≤ 2 ^ 63 := Nat.pow_le_pow_right (by norm_num) hj
  exact h.upper (by omega) (by omega) hvalid

theorem atMost_ones (hsolves : q.Solves PC) (he : e.WellTyped)
    (hB : IsBound PC e false true B) (hj : j ≤ 64) :
    q.AtMost e e.typ (ones j) ↔ e.width ≤ j ∨ B < 2 ^ j := by
  have hBw := lt_two_pow hB
  have hpos : 0 < 2 ^ j := by positivity
  rw [atMost_iff hsolves he hB, toNat_ones hj]
  by_cases hle : e.width ≤ j
  · have hsplit : 2 ^ j - 1 = (2 ^ e.width - 1) +
        2 ^ e.width * (2 ^ (j - e.width) - 1) := by
      have hpow : 2 ^ j = 2 ^ e.width * 2 ^ (j - e.width) := by
        rw [← pow_add, Nat.add_sub_cancel' hle]
      have hone : 0 < 2 ^ (j - e.width) := by positivity
      rw [Nat.mul_sub, ← hpow, mul_one]
      have hmono : 2 ^ e.width ≤ 2 ^ j :=
        Nat.pow_le_pow_right (by norm_num) hle
      omega
    rw [hsplit, Nat.add_mul_mod_self_left, Nat.mod_eq_of_lt (by omega)]
    exact iff_of_true (by omega) (.inl hle)
  · have hlt := two_pow_lt (not_le.mp hle)
    rw [Nat.mod_eq_of_lt (by omega)]
    omega

/-- After a query between the width and the value the search goes on above
the value. -/
theorem finds_above (hsolves : q.Solves PC) (he : e.WellTyped)
    (hB : IsBound PC e false true B) {c : ℕ} (hc : 0 < c) (hj : j ≤ 61)
    (hcw : c < e.width) (hwj : e.width < j) (hBc : 2 ^ c ≤ B) :
    ∃ m, q.Finds e e.typ (ones c + 1) (ones j) m ∧ B < m.toNat := by
  have hBw := lt_two_pow hB
  have hones := @toNat_ones j (by omega)
  have honesc := @toNat_ones c (by omega)
  have hcj := two_pow_lt (hcw.trans hwj)
  have hpos : 0 < 2 ^ c := by positivity
  have hmono : 2 ^ e.width ≤ 2 ^ (j - 1) :=
    Nat.pow_le_pow_right (by norm_num) (by omega)
  have hj61 : 2 ^ j ≤ 2 ^ 61 := Nat.pow_le_pow_right (by norm_num) hj
  have hsucc : (ones c + 1).toNat = 2 ^ c := by
    rw [toNat_succ (by omega), honesc]
    omega
  have hmid : (maxvalMid (ones c + 1) (ones j)).toNat =
      2 ^ (c - 1) - 1 + 2 ^ (j - 1) := by
    have hsplit : 2 ^ c = 2 ^ (c - 1) * 2 := by
      rw [← pow_succ, Nat.sub_add_cancel hc]
    have hsplit' : 2 ^ j = 2 ^ (j - 1) * 2 := by
      rw [← pow_succ, Nat.sub_add_cancel (by omega)]
    rw [toNat_maxvalMid (by omega), if_neg (by omega), hsucc, hones]
    omega
  have hinvalid : ¬q.AtMost e e.typ (maxvalMid (ones c + 1) (ones j)) := by
    have hpow : 2 ^ (j - 1) = 2 ^ e.width * 2 ^ (j - 1 - e.width) := by
      rw [← pow_add, Nat.add_sub_cancel' (by omega)]
    have hlt := two_pow_lt (show c - 1 < e.width by omega)
    have hle : 2 ^ (c - 1) ≤ 2 ^ c :=
      Nat.pow_le_pow_right (by norm_num) (by omega)
    rw [atMost_iff hsolves he hB, hmid, hpow, Nat.add_mul_mod_self_left,
      Nat.mod_eq_of_lt (by omega)]
    omega
  have hlt := two_pow_lt (show c - 1 < j - 1 by omega)
  have hdouble : 2 ^ j = 2 ^ (j - 1) * 2 := by
    rw [← pow_succ, Nat.sub_add_cancel (by omega)]
  have hnext := toNat_succ (x := maxvalMid (ones c + 1) (ones j)) (by omega)
  obtain ⟨m, hm, hge, -⟩ := @finds_spec q e e.typ _
    (maxvalMid (ones c + 1) (ones j) + 1) (ones j) (by omega) (by omega) le_rfl
  exact ⟨m, hm.upper (by omega) (by omega) hinvalid, by omega⟩

/-- Below the width the search is right if the limit is large enough. -/
theorem finds_within (hsolves : q.Solves PC) (he : e.WellTyped)
    (hB : IsBound PC e false true B) (hj : j ≤ 62) (hw : j ≤ e.width) :
    ∃ m, q.Finds e e.typ 0 (ones j) m ∧ (m.toNat = B ↔ B < 2 ^ j) := by
  have hones := @toNat_ones j (by omega)
  have hpos : 0 < 2 ^ j := by positivity
  have hmono : 2 ^ j ≤ 2 ^ e.width := Nat.pow_le_pow_right (by norm_num) hw
  have h62 : 2 ^ j ≤ 2 ^ 62 := Nat.pow_le_pow_right (by norm_num) hj
  obtain ⟨m, hm, -, hiff⟩ := finds_narrow (q := q) (a := 0) (b := ones j)
    hsolves he hB (Nat.zero_le _) (by omega) (by omega) (Nat.zero_le _)
  exact ⟨m, hm, hiff.trans (by omega)⟩

/-- From a limit above the width the search is right unless it jumps over the
width and the value. -/
theorem finds_wide (hsolves : q.Solves PC) (he : e.WellTyped)
    (hB : IsBound PC e false true B) (hw : e.width ≤ 32) (j : ℕ) :
    e.width < j → j ≤ 63 → ∃ m, q.Finds e e.typ 0 (ones j) m ∧
      (m.toNat = B ↔ lastCap e.width j ≤ 12 ∨
        B < 2 ^ (lastCap e.width j - 8)) := by
  induction j using Nat.strong_induction_on with
  | _ j ih =>
  intro hj hj63
  have hBw := lt_two_pow hB
  have hpos := he.width_pos
  have hvalid := atMost_ones (q := q) hsolves he hB
    (show nextCap j ≤ 64 by unfold nextCap; split <;> omega)
  have hcap : nextCap j = if 13 ≤ j then j - 8 else j - 1 := rfl
  rcases lt_trichotomy e.width (nextCap j) with hlt | heq | hgt
  · obtain ⟨m, hm, hiff⟩ := ih (nextCap j) (by split at hcap <;> omega) hlt
      (by split at hcap <;> omega)
    refine ⟨m, finds_ones_lower hj63 (by omega) (hvalid.mpr (.inl hlt.le)) hm,
      hiff.trans ?_⟩
    by_cases hbig : 13 ≤ j
    · have hsame : lastCap e.width (nextCap j) = lastCap e.width j := by
        rw [hcap, if_pos hbig] at hlt ⊢
        unfold lastCap
        omega
      rw [hsame]
    · have hsmall : lastCap e.width (nextCap j) ≤ 12 ∧
          lastCap e.width j ≤ 12 := by
        rw [if_neg hbig] at hcap
        unfold lastCap
        omega
      exact iff_of_true (.inl hsmall.1) (.inl hsmall.2)
  · obtain ⟨m, hm, hiff⟩ := finds_within (q := q) hsolves he hB
      (j := nextCap j) (by omega) heq.ge
    refine ⟨m, finds_ones_lower hj63 (by omega) (hvalid.mpr (.inl heq.le)) hm,
      iff_of_true (hiff.mpr (heq ▸ hBw)) ?_⟩
    by_cases hbig : 13 ≤ j
    · have hlast : lastCap e.width j - 8 = e.width := by
        rw [if_pos hbig] at hcap
        unfold lastCap
        omega
      rw [hlast]
      exact .inr hBw
    · left
      rw [if_neg hbig] at hcap
      unfold lastCap
      omega
  · have hbig : 13 ≤ j := by split at hcap <;> omega
    rw [if_pos hbig] at hcap
    have hlast : lastCap e.width j = j := by
      unfold lastCap
      omega
    rw [hlast, ← hcap]
    by_cases hBc : B < 2 ^ nextCap j
    · obtain ⟨m, hm, hiff⟩ := finds_within (q := q) hsolves he hB
        (j := nextCap j) (by omega) hgt.le
      exact ⟨m, finds_ones_lower hj63 (by omega) (hvalid.mpr (.inr hBc)) hm,
        iff_of_true (hiff.mpr hBc) (.inr hBc)⟩
    · obtain ⟨m, hm, hlt⟩ := finds_above (q := q) hsolves he hB
        (j := j) (c := nextCap j) (by omega) (by omega) hgt hj (by omega)
      have hnot : ¬q.AtMost e e.typ (ones (nextCap j)) := by
        rw [hvalid]
        omega
      exact ⟨m, finds_ones_upper hj63 (by omega) hnot hm,
        iff_of_false (by omega) (by omega)⟩

end Found

/-! ## A search without end -/

section Endless

variable {q} {PC : Valuation μ → Prop} {e : Exp} {a b m : I64} {B : ℕ}

theorem tdiv_two (s : ℤ) :
    (0 ≤ s ∧ s = 2 * s.tdiv 2 ∨ 0 ≤ s ∧ s = 2 * s.tdiv 2 + 1) ∨
      (s < 0 ∧ s = 2 * s.tdiv 2 ∨ s < 0 ∧ s = 2 * s.tdiv 2 - 1) := by
  rcases Int.le_total 0 s with h | h
  · rw [Int.tdiv_eq_ediv_of_nonneg h]
    omega
  · obtain ⟨t, rfl⟩ : ∃ t, s = -t := ⟨-s, by omega⟩
    rw [Int.neg_tdiv, Int.tdiv_eq_ediv_of_nonneg (by omega)]
    omega

/-- The midpoint of numbers that are not both at the start. -/
theorem toInt_maxvalMid (ha : a ≠ 0) :
    (maxvalMid a b).toInt = ((a + b).toInt).tdiv 2 := by
  have hlt := BitVec.toInt_lt (x := a + b)
  have hle := BitVec.le_toInt (x := a + b)
  have hhalf := tdiv_two (a + b).toInt
  have htwo : (2 : I64).toInt = 2 := by decide
  rw [maxvalMid, if_neg fun h => ha h.1, BitVec.toInt_sdiv, htwo]
  apply Int.bmod_eq_of_le <;> norm_num at * <;> omega

/-- The search is between numbers of which the second is negative, or goes up
to the greatest `int64`. -/
def Astray (B : ℕ) (a b : I64) : Prop :=
  a.toNat ≤ B ∧ (0 < a.toInt ∧ b.toInt < 0 ∧ B ≤ b.toNat ∨
    b.toNat = 2 ^ 63 - 1 ∧ a ≠ b ∧ a ≠ 0)

theorem Astray.ne (h : Astray B a b) : a ≠ b ∧ a ≠ 0 := by
  obtain ⟨-, ⟨ha, hb, -⟩ | ⟨-, hne, h0⟩⟩ := h
  · constructor
    · rintro rfl
      omega
    · rintro rfl
      exact absurd ha (by decide)
  · exact ⟨hne, h0⟩

/-- A number read without and with its sign. -/
theorem toNat_cases (x : I64) :
    0 ≤ x.toInt ∧ (x.toNat : ℤ) = x.toInt ∧ x.toInt < 2 ^ 63 ∨
      x.toInt < 0 ∧ (x.toNat : ℤ) = x.toInt + 2 ^ 64 ∧ -2 ^ 63 ≤ x.toInt := by
  have hx := x.isLt
  rw [BitVec.toInt_eq_toNat_cond]
  split_ifs <;> omega

theorem Astray.lower (h : Astray B a b)
    (hvalid : B ≤ (maxvalMid a b).toNat) : Astray B a (maxvalMid a b) := by
  have hmid := toInt_maxvalMid (b := b) h.ne.2
  have hsum := BitVec.toNat_add a b
  have hhalf := tdiv_two (a + b).toInt
  have hra := toNat_cases a
  have hrb := toNat_cases b
  have hrs := toNat_cases (a + b)
  have hrm := toNat_cases (maxvalMid a b)
  rw [← hmid] at hhalf
  obtain ⟨haB, ⟨ha, hb, -⟩ | ⟨hb, hne, h0⟩⟩ := h
  · have hneg : (maxvalMid a b).toInt < 0 := by omega
    exact ⟨haB, .inl ⟨ha, hneg, hvalid⟩⟩
  · have ha0 : a.toNat ≠ 0 := fun h => h0 (BitVec.eq_of_toNat_eq h)
    have hneg : 0 < a.toInt ∧ (maxvalMid a b).toInt < 0 := by omega
    exact ⟨haB, .inl ⟨hneg.1, hneg.2, hvalid⟩⟩

theorem Astray.upper (hB : B < 2 ^ 64) (h : Astray B a b)
    (hvalid : (maxvalMid a b).toNat < B) :
    Astray B (maxvalMid a b + 1) b := by
  have hmid := toInt_maxvalMid (b := b) h.ne.2
  have hsum := BitVec.toNat_add a b
  have hhalf := tdiv_two (a + b).toInt
  have hra := toNat_cases a
  have hrb := toNat_cases b
  have hrs := toNat_cases (a + b)
  have hrm := toNat_cases (maxvalMid a b)
  have hrn := toNat_cases (maxvalMid a b + 1)
  have hsucc := toNat_succ (x := maxvalMid a b) (by omega)
  rw [← hmid] at hhalf
  obtain ⟨haB, ⟨ha, hb, hBb⟩ | ⟨hb, hne, h0⟩⟩ := h
  · have hpos : 0 < (maxvalMid a b + 1).toInt := by omega
    exact ⟨by omega, .inl ⟨hpos, hb, hBb⟩⟩
  · have ha0 : a.toNat ≠ 0 := fun h => h0 (BitVec.eq_of_toNat_eq h)
    have han : a.toNat ≠ b.toNat := fun h => hne (BitVec.eq_of_toNat_eq h)
    have hnext : (maxvalMid a b + 1).toNat ≠ b.toNat := by omega
    refine ⟨by omega, .inr ⟨hb, fun h => hnext (congrArg _ h), ?_⟩⟩
    intro hzero
    have h0' : (maxvalMid a b + 1).toNat = 0 := congrArg _ hzero
    omega

/-- The search never ends. -/
theorem Astray.endless (hsolves : q.Solves PC) (he : e.WellTyped)
    (hB : IsBound PC e false true B) (hw : e.width = 64) (n : ℕ) :
    ∀ {a b : I64}, Astray B a b → q.maxvalLoop e e.typ n a b ≠ .ok m := by
  have hBw := lt_two_pow hB
  have hvalid : ∀ m, q.AtMost e e.typ m ↔ B ≤ m.toNat := by
    intro m
    rw [atMost_iff hsolves he hB, hw, Nat.mod_eq_of_lt m.isLt]
  rw [hw] at hBw
  induction n with
  | zero =>
    intro a b _ h
    cases h
  | succ n ih =>
    intro a b h hm
    rw [maxvalLoop] at hm
    split_ifs at hm with hstrict heq
    · exact h.ne.1 heq
    · dsimp only at hm
      split_ifs at hm with hq
      · exact ih (h.lower ((hvalid _).mp hq)) hm
      · exact ih (h.upper hBw (not_le.mp fun hle => hq ((hvalid _).mpr hle))) hm

/-- A value of `2 ^ 55` or more is not found from the greatest `int64`. -/
theorem not_finds_top (hsolves : q.Solves PC) (he : e.WellTyped)
    (hB : IsBound PC e false true B) (hw : e.width = 64) (hlarge : 2 ^ 55 ≤ B) :
    ¬q.Finds e e.typ 0 (ones 63) m := by
  have hinvalid : ¬q.AtMost e e.typ (maxvalMid 0 (ones 63)) := by
    rw [maxvalMid_ones (by norm_num) le_rfl, nextCap, if_pos (by norm_num),
      atMost_ones hsolves he hB (by norm_num)]
    omega
  have hstart : Astray B (maxvalMid 0 (ones 63) + 1) (ones 63) := by
    rw [maxvalMid_ones (by norm_num) le_rfl]
    exact ⟨hlarge, .inr ⟨rfl, by decide, by decide⟩⟩
  rintro ⟨n, hn⟩
  cases n with
  | zero => cases hn
  | succ n =>
    have hle : ¬(ones 63).slt 0 = true := by decide
    have hne : (0 : I64) ≠ ones 63 := by decide
    rw [maxvalLoop, if_neg fun h => hle h.2, if_neg hne] at hn
    exact hstart.endless hsolves he hB hw n ((if_neg hinvalid).symm.trans hn)

end Endless

/-! ## When the greatest value is returned -/

section MaxvalResult

variable {q} {PC : Valuation μ → Prop} {e : Exp} {m : I64} {n : ℕ} {r : ℤ}

/-- The limit from which the search starts, `r` being the width that
`narrow_bitwidth` finds. -/
def capBits (limit r : ℤ) : ℕ := (min limit r).toNat

/-- Where `query_maxval` is right: the first limit is above all values and, if
it is wider than the type, no later one is both narrower and too small. -/
def MaxvalFits (PC : Valuation μ → Prop) (e : Exp) (r : ℤ) : Prop :=
  0 < r ∧
    if capBits 63 r ≤ e.width then
      Below PC e (capBits 63 r) ∧ (capBits 63 r = 63 → Below PC e 55)
    else lastCap e.width (capBits 63 r) ≤ 12 ∨
      Below PC e (lastCap e.width (capBits 63 r) - 8)

theorem shiftRightLogical_ones {k : ℕ} (h0 : 0 < k) (hk : k ≤ 64) :
    q.shiftRightLogical (-1) (64 - k) = ones k := by
  have hcast : (64 - k : ℤ).toNat = 64 - k := by omega
  have hmask := toNat_midMask hk
  rw [midMask, if_neg (by omega)] at hmask
  rw [shiftRightLogical, if_pos (by omega), hcast]
  apply BitVec.eq_of_toNat_eq
  rw [hmask, toNat_ones hk]

theorem ones_ne {k : ℕ} (hk : k ≤ 63) : ones k ≠ -1 := by
  intro h
  have hval := congrArg BitVec.toNat h
  have hones : (-1 : I64).toNat = 2 ^ 64 - 1 := by decide
  have hlt := two_pow_lt (show k < 64 by omega)
  rw [toNat_ones (by omega), hones] at hval
  omega

theorem queryMaxval_iff {ty : Typ} (hr : q.Narrows e r) (hpos : 0 < r) :
    (∃ n, q.queryMaxval n e ty = .ok m) ↔
      q.Finds e ty 0 (ones (capBits 63 r)) m := by
  have hwd : min 63 r = (capBits 63 r : ℤ) := by
    unfold capBits
    omega
  have hlimit : q.shiftRightLogical (-1) (64 - min 63 r) =
      ones (capBits 63 r) := by
    rw [hwd]
    exact shiftRightLogical_ones (by omega) (by omega)
  have hne := @ones_ne (capBits 63 r) (by omega)
  constructor
  · rintro ⟨n, hn⟩
    obtain ⟨r', hr', hn⟩ := bind_eq_ok.mp hn
    obtain rfl : r = r' := hr.unique ⟨n, hr'⟩
    dsimp only at hn
    rw [hlimit, if_neg hne] at hn
    exact ⟨n, hn⟩
  · rintro ⟨n, hn⟩
    obtain ⟨k, hk⟩ := hr
    refine ⟨max k n, bind_eq_ok.mpr
      ⟨r, Scheme.eval_mono _ (le_max_left k n) hk, ?_⟩⟩
    dsimp only
    rw [hlimit, if_neg hne]
    exact maxvalLoop_mono (le_max_right k n) _ _ _ hn

theorem width_sixtyFour (he : e.WellTyped) (h : 33 ≤ e.width) :
    e.width = 64 := by
  have hreg := he.isReg
  unfold Exp.width at h ⊢
  cases ht : e.typ <;> rw [ht] at h hreg <;> first
    | rfl
    | exact absurd h (by decide)
    | exact absurd hreg id

theorem finds_isBound_iff (hsolves : q.Solves PC) (he : e.WellTyped)
    (hPC : ∃ ρ, PC ρ) {k : ℕ} (h0 : 0 < k) (hk : k ≤ 63) :
    (∃ m, q.Finds e e.typ 0 (ones k) m ∧ IsBound PC e false true m.toNat) ↔
      if k ≤ e.width then Below PC e k ∧ (k = 63 → Below PC e 55)
      else lastCap e.width k ≤ 12 ∨ Below PC e (lastCap e.width k - 8) := by
  obtain ⟨B', hB'⟩ := Influence.exists_isBound hPC e false true
  obtain ⟨B, rfl⟩ : ∃ B : ℕ, B' = B := Int.eq_ofNat_of_zero_le hB'.within.1
  have hbound : ∀ {m : I64}, IsBound PC e false true m.toNat ↔ m.toNat = B := by
    intro m
    constructor
    · intro h
      exact Int.ofNat_inj.mp (h.unique hB')
    · intro h
      rwa [h]
  have hfound : ∀ {m : I64}, q.Finds e e.typ 0 (ones k) m →
      ((∃ m, q.Finds e e.typ 0 (ones k) m ∧ IsBound PC e false true m.toNat) ↔
        m.toNat = B) := by
    intro m hm
    constructor
    · rintro ⟨m', hm', hexact⟩
      rw [hm.unique hm']
      exact hbound.mp hexact
    · intro h
      exact ⟨m, hm, hbound.mpr h⟩
  simp only [below_iff hB']
  split_ifs with hw
  · by_cases htop : k = 63
    · subst htop
      have h64 := width_sixtyFour he (by omega)
      by_cases hsmall : B < 2 ^ 55
      · obtain ⟨m, hm, hiff⟩ := finds_within (q := q) (j := 55) hsolves he hB'
          (by norm_num) (by omega)
        have hvalid := (atMost_ones (q := q) (j := 55) hsolves he hB'
          (by norm_num)).mpr (.inr hsmall)
        rw [hfound (finds_ones_lower (j := 63) le_rfl h0 hvalid hm)]
        exact iff_of_true (hiff.mpr hsmall) ⟨by omega, fun _ => hsmall⟩
      · refine iff_of_false ?_ fun h => hsmall (h.2 rfl)
        rintro ⟨m, hm, -⟩
        exact not_finds_top hsolves he hB' h64 (not_lt.mp hsmall) hm
    · obtain ⟨m, hm, hiff⟩ := finds_within (q := q) (j := k) hsolves he hB'
        (by omega) hw
      rw [hfound hm, hiff]
      exact ⟨fun h => ⟨h, fun h63 => absurd h63 htop⟩, fun h => h.1⟩
  · have hnarrow : e.width ≤ 32 := by
      by_contra h
      have h64 := width_sixtyFour he (by omega)
      omega
    obtain ⟨m, hm, hiff⟩ := finds_wide (q := q) hsolves he hB' hnarrow k
      (by omega) hk
    rw [hfound hm, hiff]

theorem queryMaxval_exact (hsolves : q.Solves PC) (he : e.WellTyped)
    (hPC : ∃ ρ, PC ρ) (hr : q.Narrows e r) (hpos : 0 < r) :
    (∃ n m, q.queryMaxval n e e.typ = .ok m ∧
      IsBound PC e false true m.toNat) ↔ MaxvalFits PC e r := by
  have hiff := finds_isBound_iff (q := q) (k := capBits 63 r) hsolves he hPC
    (by unfold capBits; omega) (by unfold capBits; omega)
  rw [MaxvalFits, and_iff_right hpos, ← hiff]
  constructor
  · rintro ⟨n, m, hm, hexact⟩
    exact ⟨m, (queryMaxval_iff hr hpos).mp ⟨n, hm⟩, hexact⟩
  · rintro ⟨m, hm, hexact⟩
    obtain ⟨n, hn⟩ := (queryMaxval_iff hr hpos).mpr hm
    exact ⟨n, m, hn, hexact⟩

/-- Without a width the first shift is not specified; on a processor that
ignores it the search fails. -/
theorem queryMaxval_noWidth {ty : Typ} (hr : q.Narrows e r) (hpos : r ≤ 0) :
    (q.onProcessor fun x _ => x).queryMaxval n e ty ≠ .ok m := by
  intro hm
  obtain ⟨r', hr', hm⟩ := bind_eq_ok.mp hm
  obtain rfl : r = r' := hr.unique ⟨n, hr'⟩
  have hlimit : (q.onProcessor fun x _ => x).shiftRightLogical (-1)
      (64 - min 63 r) = -1 := if_neg (by omega)
  dsimp only at hm
  rw [hlimit, if_pos rfl] at hm
  cases hm

theorem maxvalExact_iff (hsolves : q.Solves PC) (he : e.WellTyped)
    (hPC : ∃ ρ, PC ρ) :
    q.MaxvalExact PC e ↔ ∃ r, q.Narrows e r ∧ MaxvalFits PC e r := by
  constructor
  · intro h
    obtain ⟨n, m, hm, hexact⟩ := h fun x _ => x
    obtain ⟨r, hr, -⟩ := bind_eq_ok.mp hm
    have hr : q.Narrows e r := ⟨n, hr⟩
    refine ⟨r, hr, ?_⟩
    have hpos : 0 < r := by
      by_contra hneg
      exact queryMaxval_noWidth hr (not_lt.mp hneg) hm
    exact (queryMaxval_exact (q := q.onProcessor fun x _ => x) hsolves he hPC hr
      hpos).mp ⟨n, m, hm, hexact⟩
  · rintro ⟨r, hr, hfits⟩ wild
    exact (queryMaxval_exact (q := q.onProcessor wild) hsolves he hPC hr
      hfits.1).mpr hfits

end MaxvalResult

/-! ## The search for the least value -/

section Least

variable {q} {PC : Valuation μ → Prop} {e : Exp} {ty : Typ} {a b m : I64}
  {A : ℤ} {k : ℕ}

/-- The search of `query_minval` between `a` and `b` ends with `m`. -/
def FindsLeast (q : WidthQueries) (e : Exp) (ty : Typ) (a b m : I64) : Prop :=
  ∃ n, q.minvalLoop e ty n a b = .ok m

theorem FindsLeast.unique {m' : I64} (h : q.FindsLeast e ty a b m)
    (h' : q.FindsLeast e ty a b m') : m = m' := by
  obtain ⟨n, hn⟩ := h
  obtain ⟨k, hk⟩ := h'
  have h1 := minvalLoop_mono (Nat.le_max_left n k) _ _ _ hn
  rw [minvalLoop_mono (Nat.le_max_right n k) _ _ _ hk] at h1
  exact (Except.ok.inj h1).symm

abbrev minvalMid (a b : I64) : I64 := (a + b + 1).sshiftRight 1

theorem FindsLeast.upper (hlt : a.toInt < b.toInt)
    (hvalid : q.AtLeast e ty (minvalMid a b))
    (h : q.FindsLeast e ty (minvalMid a b) b m) : q.FindsLeast e ty a b m := by
  obtain ⟨n, hn⟩ := h
  have hle : ¬b.slt a = true := by
    rw [BitVec.slt_iff_toInt_lt]
    omega
  refine ⟨n + 1, ?_⟩
  rw [minvalLoop, if_neg hle, if_neg fun h => hlt.ne (congrArg _ h)]
  exact (if_pos hvalid).trans hn

theorem FindsLeast.lower (hlt : a.toInt < b.toInt)
    (hvalid : ¬q.AtLeast e ty (minvalMid a b))
    (h : q.FindsLeast e ty a (minvalMid a b - 1) m) :
    q.FindsLeast e ty a b m := by
  obtain ⟨n, hn⟩ := h
  have hle : ¬b.slt a = true := by
    rw [BitVec.slt_iff_toInt_lt]
    omega
  refine ⟨n + 1, ?_⟩
  rw [minvalLoop, if_neg hle, if_neg fun h => hlt.ne (congrArg _ h)]
  exact (if_neg hvalid).trans hn

theorem findsLeast_spec (ha : InRange 62 a.toInt) (hb : InRange 62 b.toInt)
    (hle : a.toInt ≤ b.toInt) :
    ∃ m, q.FindsLeast e ty a b m ∧ a.toInt ≤ m.toInt ∧ m.toInt ≤ b.toInt ∧
      (m = a ∨ q.AtLeast e ty m) ∧ (m = b ∨ ¬q.AtLeast e ty (m + 1)) := by
  obtain ⟨ha1, ha2⟩ := ha
  obtain ⟨hb1, hb2⟩ := hb
  obtain ⟨m, hm, h⟩ := @minvalLoop_spec q e ty 64 a b ⟨ha1, ha2⟩ ⟨hb1, hb2⟩ hle
    (by omega)
  exact ⟨m, ⟨_, hm⟩, h⟩

/-- A query compares with the constant truncated to the width. -/
theorem atLeast_bound_iff (hsolves : q.Solves PC) (he : e.WellTyped)
    (hA : IsBound PC e true false A) (m : I64) :
    q.AtLeast e e.typ m ↔ m.toInt.bmod (2 ^ e.width) ≤ A := by
  have htyped : (Exp.binOp .sle (.int e.typ m) e).WellTyped :=
    ⟨he.isReg, he, rfl⟩
  have heval : ∀ ρ : Valuation μ,
      (Exp.binOp .sle (.int e.typ m) e).eval ρ 1 = 1 ↔
        m.toInt.bmod (2 ^ e.width) ≤ e.signed ρ := by
    intro ρ
    rw [← toInt_setWidth_eq_bmod m e.width_le]
    change flag 1 (decide _) = 1 ↔ _
    rw [Influence.flag_eq_one_iff, decide_eq_true_eq]
    rfl
  rw [AtLeast, hsolves _ htyped rfl]
  constructor
  · intro h
    obtain ⟨ρ, hρ, hval⟩ := hA.attained
    have hval : e.signed ρ = A := hval
    exact hval ▸ (heval ρ).mp (h ρ hρ)
  · intro h ρ hρ
    have hle : A ≤ e.signed ρ := hA.extreme ρ hρ
    exact (heval ρ).mpr (h.trans hle)

theorem bmod_of_lt {w : ℕ} (hw : 0 < w) {s : ℤ} (hlo : -2 ^ (w - 1) ≤ s)
    (hhi : s < 2 ^ (w - 1)) : s.bmod (2 ^ w) = s := by
  have hx : (BitVec.ofInt w s).toInt = s.bmod (2 ^ w) := BitVec.toInt_ofInt s
  rw [← hx]
  exact toInt_of_bmod _ hx hw hlo hhi

theorem toInt_one_add (h : m.toInt < 2 ^ 62) :
    (m + 1).toInt = m.toInt + 1 := by
  have hone : (1 : I64).toInt = 1 := by decide
  have hle := BitVec.le_toInt (x := m)
  rw [BitVec.toInt_add, hone]
  apply Int.bmod_eq_of_le <;> norm_num at * <;> omega

/-- Where no constant is truncated the search is right if the limits are. -/
theorem findsLeast_narrow (hsolves : q.Solves PC) (he : e.WellTyped)
    (hA : IsBound PC e true false A) (ha : InRange 62 a.toInt)
    (hb : InRange 62 b.toInt) (hle : a.toInt ≤ b.toInt)
    (hlo : -2 ^ (e.width - 1) ≤ a.toInt) (hhi : b.toInt < 2 ^ (e.width - 1)) :
    ∃ m, q.FindsLeast e e.typ a b m ∧
      (m.toInt = A ↔ a.toInt ≤ A ∧ A ≤ b.toInt) := by
  obtain ⟨m, hm, h1, h2, h3, h4⟩ := @findsLeast_spec q e e.typ a b ha hb hle
  have hpos := he.width_pos
  refine ⟨m, hm, fun h => by omega, ?_⟩
  rintro ⟨haA, hAb⟩
  rw [atLeast_bound_iff hsolves he hA,
    bmod_of_lt hpos (by omega) (by omega)] at h3
  have hlow : m.toInt ≤ A := by
    rcases h3 with rfl | h3
    · exact haA
    · exact h3
  have hhigh : A ≤ m.toInt := by
    rcases h4 with rfl | h4
    · exact hAb
    · by_cases heq : m.toInt = b.toInt
      · omega
      · have hsucc := toInt_one_add (m := m) (lt_of_le_of_lt h2 hb.2)
        rw [atLeast_bound_iff hsolves he hA, hsucc,
          bmod_of_lt hpos (by omega) (by omega)] at h4
        omega
  omega

/-- The limits between which `query_minval` searches. -/
structure Limits (k : ℕ) (a b : I64) : Prop where
  small : k ≤ 62
  low : a.toInt = -2 ^ k
  high : b.toInt = 2 ^ k - 1

theorem signed_bounds (hA : IsBound PC e true false A) :
    -2 ^ (e.width - 1) ≤ A ∧ A < 2 ^ (e.width - 1) := hA.within

/-- A query half way to a limit of the width or more. -/
theorem atLeast_half (hsolves : q.Solves PC) (he : e.WellTyped)
    (hA : IsBound PC e true false A) (hk : e.width ≤ k)
    (hm : m.toInt = 2 ^ (k - 1) ∨ m.toInt = -2 ^ (k - 1)) :
    q.AtLeast e e.typ m ↔ k = e.width ∨ 0 ≤ A := by
  have hpos := he.width_pos
  obtain ⟨hlow, -⟩ := signed_bounds hA
  rw [atLeast_bound_iff hsolves he hA]
  rcases hk.eq_or_lt with rfl | hlt
  · have hhalf : m.toInt.bmod (2 ^ e.width) = -2 ^ (e.width - 1) := by
      have hneg : (-2 ^ (e.width - 1) : ℤ).bmod (2 ^ e.width) =
          -2 ^ (e.width - 1) :=
        bmod_of_lt hpos le_rfl (by
          have h : (0 : ℤ) < 2 ^ (e.width - 1) := by positivity
          omega)
      rcases hm with hm | hm
      · have hsplit : (2 : ℤ) ^ (e.width - 1) =
            -2 ^ (e.width - 1) + ((2 ^ e.width : ℕ) : ℤ) * 1 := by
          have hpow : (2 : ℤ) ^ e.width = 2 ^ (e.width - 1) * 2 := by
            rw [← pow_succ, Nat.sub_add_cancel hpos]
          push_cast
          omega
        have hwrap := Int.add_mul_bmod_self_left (-2 ^ (e.width - 1))
          (2 ^ e.width) 1
        rw [← hsplit] at hwrap
        rw [hm, hwrap, hneg]
      · rw [hm, hneg]
    rw [hhalf]
    exact iff_of_true hlow (.inl rfl)
  · have hdvd : ((2 ^ e.width : ℕ) : ℤ) ∣ 2 ^ (k - 1) := by
      push_cast
      exact pow_dvd_pow 2 (by omega)
    have hzero : m.toInt.bmod (2 ^ e.width) = 0 := by
      apply Int.bmod_eq_zero_of_dvd
      rcases hm with hm | hm <;> rw [hm]
      · exact hdvd
      · exact (Int.dvd_neg).mpr hdvd
    rw [hzero]
    constructor
    · exact .inr
    · rintro (h | h)
      · omega
      · exact h

/-- The limits below the width. -/
theorem findsLeast_below (hsolves : q.Solves PC) (he : e.WellTyped)
    (hA : IsBound PC e true false A) (hlim : Limits k a b)
    (hk : k < e.width) :
    ∃ m, q.FindsLeast e e.typ a b m ∧
      (m.toInt = A ↔ -2 ^ k ≤ A ∧ A < 2 ^ k) := by
  obtain ⟨hsmall, hlow, hhigh⟩ := hlim
  have hpow := two_pow_le (show k ≤ e.width - 1 by omega)
  have h62 := two_pow_le hsmall
  have hpos : (0 : ℤ) < 2 ^ k := by positivity
  obtain ⟨m, hm, hiff⟩ := findsLeast_narrow (q := q) (a := a) (b := b) hsolves
    he hA ⟨by omega, by omega⟩ ⟨by omega, by omega⟩ (by omega) (by omega)
    (by omega)
  exact ⟨m, hm, hiff.trans (by omega)⟩

theorem toInt_minvalMid (ha : InRange 62 a.toInt) (hb : InRange 62 b.toInt) :
    (minvalMid a b).toInt = (a.toInt + b.toInt + 1) / 2 := toInt_mid ha hb

theorem Limits.powers (h : Limits k a b) (hk : 0 < k) :
    (0 : ℤ) < 2 ^ (k - 1) ∧ (2 : ℤ) ^ k = 2 ^ (k - 1) * 2 ∧
      (2 : ℤ) ^ k ≤ 2 ^ 62 := by
  refine ⟨by positivity, ?_, two_pow_le h.small⟩
  rw [← pow_succ, Nat.sub_add_cancel hk]

/-- The first midpoint, and those of the two halves. -/
theorem Limits.mids (h : Limits k a b) (hk : 0 < k) :
    (minvalMid a b).toInt = 0 ∧
      (minvalMid (minvalMid a b) b).toInt = 2 ^ (k - 1) ∧
      (minvalMid a b - 1).toInt = -1 ∧
      (minvalMid a (minvalMid a b - 1)).toInt = -2 ^ (k - 1) := by
  obtain ⟨hhalf, hsplit, h62⟩ := h.powers hk
  obtain ⟨-, hlow, hhigh⟩ := h
  have hmid : (minvalMid a b).toInt = 0 := by
    rw [toInt_minvalMid ⟨by omega, by omega⟩ ⟨by omega, by omega⟩]
    omega
  have hpred : (minvalMid a b - 1).toInt = -1 := by
    rw [toInt_pred (b := a) (by omega), hmid]
    rfl
  refine ⟨hmid, ?_, hpred, ?_⟩
  · rw [toInt_minvalMid ⟨by omega, by omega⟩ ⟨by omega, by omega⟩]
    omega
  · rw [toInt_minvalMid ⟨by omega, by omega⟩ ⟨by omega, by omega⟩]
    omega

theorem atLeast_zero (hsolves : q.Solves PC) (he : e.WellTyped)
    (hA : IsBound PC e true false A) (hm : m.toInt = 0) :
    q.AtLeast e e.typ m ↔ 0 ≤ A := by
  rw [atLeast_bound_iff hsolves he hA, hm, Int.zero_bmod]

/-- Of values that are not negative the search misses the least. -/
theorem findsLeast_nonneg (hsolves : q.Solves PC) (he : e.WellTyped)
    (hA : IsBound PC e true false A) (hlim : Limits k a b)
    (hk : e.width ≤ k) (hA0 : 0 ≤ A) :
    ∃ m, q.FindsLeast e e.typ a b m ∧ m.toInt ≠ A := by
  have hpos := he.width_pos
  obtain ⟨hhalf, hsplit, h62⟩ := hlim.powers (by omega)
  obtain ⟨hmid, hmid', -⟩ := hlim.mids (by omega)
  obtain ⟨hsmall, hlow, hhigh⟩ := hlim
  obtain ⟨-, hAhigh⟩ := signed_bounds hA
  have hpow := two_pow_le (show e.width - 1 ≤ k - 1 by omega)
  have hvalid := (atLeast_zero (q := q) hsolves he hA hmid).mpr hA0
  have hvalid' : q.AtLeast e e.typ (minvalMid (minvalMid a b) b) :=
    (atLeast_half hsolves he hA hk (.inl hmid')).mpr (.inr hA0)
  obtain ⟨m, hm, hge, -⟩ := @findsLeast_spec q e e.typ
    (minvalMid (minvalMid a b) b) b ⟨by omega, by omega⟩ ⟨by omega, by omega⟩
    (by omega)
  exact ⟨m, (hm.upper (by omega) hvalid').upper (by omega) hvalid, by omega⟩

/-- The constants above the sign bit are negative at the width, so that of
values that are not negative the upper limit is returned. -/
theorem findsLeast_limit (hsolves : q.Solves PC) (he : e.WellTyped)
    (hA : IsBound PC e true false A) (hlim : Limits k a b)
    (hk : k = e.width) (hA0 : 0 ≤ A) : q.FindsLeast e e.typ a b b := by
  have hpos := he.width_pos
  obtain ⟨hhalf, hsplit, h62⟩ := hlim.powers (by omega)
  obtain ⟨hmid, hmid', -⟩ := hlim.mids (by omega)
  obtain ⟨hsmall, hlow, hhigh⟩ := hlim
  have hvalid : ∀ m : I64, 2 ^ (k - 1) ≤ m.toInt → m.toInt < 2 ^ k →
      q.AtLeast e e.typ m := by
    intro m h1 h2
    have hwrap : m.toInt = (m.toInt - 2 ^ k) + ((2 ^ k : ℕ) : ℤ) * 1 := by
      push_cast
      omega
    rw [atLeast_bound_iff hsolves he hA, ← hk, hwrap,
      Int.add_mul_bmod_self_left, bmod_of_lt (hk ▸ hpos) (by omega) (by omega)]
    omega
  have hzero := (atLeast_zero (q := q) hsolves he hA hmid).mpr hA0
  obtain ⟨m, hm, hge, hle, -, hlast⟩ := @findsLeast_spec q e e.typ
    (minvalMid (minvalMid a b) b) b ⟨by omega, by omega⟩ ⟨by omega, by omega⟩
    (by omega)
  have hmb : m = b := by
    rcases hlast with h | h
    · exact h
    · by_contra hne
      have hlt : m.toInt ≠ b.toInt := fun heq => hne (BitVec.eq_of_toInt_eq heq)
      have hsucc := toInt_one_add (m := m) (by omega)
      exact h (hvalid _ (by omega) (by omega))
  subst hmb
  exact (hm.upper (by omega) (hvalid _ (by omega) (by omega))).upper (by omega)
    hzero

/-- Of values some of which are negative the search finds the least if it
starts at the width. -/
theorem findsLeast_neg (hsolves : q.Solves PC) (he : e.WellTyped)
    (hA : IsBound PC e true false A) (hlim : Limits k a b)
    (hk : e.width ≤ k) (hA0 : A < 0) :
    ∃ m, q.FindsLeast e e.typ a b m ∧ (m.toInt = A ↔ k = e.width) := by
  have hpos := he.width_pos
  obtain ⟨hhalf, hsplit, h62⟩ := hlim.powers (by omega)
  obtain ⟨hmid, -, hpred, hmid'⟩ := hlim.mids (by omega)
  obtain ⟨hsmall, hlow, hhigh⟩ := hlim
  obtain ⟨hAlow, -⟩ := signed_bounds hA
  have hpow := two_pow_le (show e.width - 1 ≤ k - 1 by omega)
  have hinvalid : ¬q.AtLeast e e.typ (minvalMid a b) := by
    rw [atLeast_zero hsolves he hA hmid]
    omega
  have hvalid' := atLeast_half hsolves he hA hk (.inr hmid')
  by_cases heq : k = e.width
  · obtain ⟨m, hm, hiff⟩ := findsLeast_narrow (q := q)
      (a := minvalMid a (minvalMid a b - 1)) (b := minvalMid a b - 1) hsolves he
      hA ⟨by omega, by omega⟩ ⟨by omega, by omega⟩ (by omega)
      (by rw [hmid', heq]) (by rw [hpred]; omega)
    rw [← heq] at hAlow
    exact ⟨m, (hm.upper (by omega) (hvalid'.mpr (.inl heq))).lower (by omega)
      hinvalid, iff_of_true (hiff.mpr (by omega)) heq⟩
  · have hnot : ¬q.AtLeast e e.typ (minvalMid a (minvalMid a b - 1)) := by
      rw [hvalid']
      omega
    have hpred' := toInt_pred (a := minvalMid a (minvalMid a b - 1))
      (b := a) (by omega)
    obtain ⟨m, hm, -, hle, -⟩ := @findsLeast_spec q e e.typ a
      (minvalMid a (minvalMid a b - 1) - 1) ⟨by omega, by omega⟩
      ⟨by omega, by omega⟩ (by omega)
    exact ⟨m, (hm.lower (by omega) hnot).lower (by omega) hinvalid,
      iff_of_false (by omega) heq⟩

end Least

/-! ## When the least value is returned -/

section MinvalResult

variable {q} {PC : Valuation μ → Prop} {e : Exp} {m : I64} {n : ℕ} {r : ℤ}

/-- `narrow_bitwidth_signed` returns `r`. -/
def NarrowsSigned (q : WidthQueries) (e : Exp) (r : ℤ) : Prop :=
  (narrowBitwidthSigned q.coin q.defs e).Returns e r

/-- Where `query_minval` is right: the limits are narrower than the type and
the least value is between them, or they are as wide and the least value is
negative. -/
def MinvalFits (PC : Valuation μ → Prop) (e : Exp) (r : ℤ) : Prop :=
  0 < r ∧
    (capBits 62 r < e.width ∧
      (∀ ρ, PC ρ → -2 ^ capBits 62 r ≤ e.signed ρ) ∧
      (∃ ρ, PC ρ ∧ e.signed ρ < 2 ^ capBits 62 r) ∨
    capBits 62 r = e.width ∧ ∃ ρ, PC ρ ∧ e.signed ρ < 0)

theorem le_least_iff {A : ℤ} (hA : IsBound PC e true false A) (c : ℤ) :
    (∀ ρ, PC ρ → c ≤ e.signed ρ) ↔ c ≤ A := by
  constructor
  · intro h
    obtain ⟨ρ, hρ, hval⟩ := hA.attained
    have hval : e.signed ρ = A := hval
    exact hval ▸ h ρ hρ
  · intro h ρ hρ
    have hle : A ≤ e.signed ρ := hA.extreme ρ hρ
    exact h.trans hle

theorem least_lt_iff {A : ℤ} (hA : IsBound PC e true false A) (c : ℤ) :
    (∃ ρ, PC ρ ∧ e.signed ρ < c) ↔ A < c := by
  rw [← not_le, ← le_least_iff hA]
  push Not
  rfl

theorem limits_ones {k : ℕ} (hk : k ≤ 62) :
    Limits k (-ones k - 1) (ones k) := by
  have hones := @toNat_ones k (by omega)
  have hlt := two_pow_lt (show k < 63 by omega)
  have hpos' : 0 < 2 ^ k := by positivity
  have hpow := two_pow_le hk
  have hpos : (0 : ℤ) < 2 ^ k := by positivity
  have hhigh : (ones k).toInt = 2 ^ k - 1 := by
    rw [BitVec.toInt_eq_toNat_of_lt (by omega), hones, Int.ofNat_sub hpos']
    push_cast
    rfl
  have hneg : (-ones k).toInt = -(2 ^ k - 1) := by
    rw [BitVec.toInt_neg, hhigh]
    apply Int.bmod_eq_of_le <;> norm_num <;> omega
  have hmin : (0x8000000000000000 : I64).toInt = -2 ^ 63 := by decide
  have hlow : (-ones k - 1).toInt = -2 ^ k := by
    rw [toInt_pred (b := 0x8000000000000000) (by omega), hneg]
    omega
  exact ⟨hk, hlow, hhigh⟩

theorem queryMinval_iff {ty : Typ} (hr : q.NarrowsSigned e r) (hpos : 0 < r) :
    (∃ n, q.queryMinval n e ty = .ok m) ↔ q.FindsLeast e ty
      (-ones (capBits 62 r) - 1) (ones (capBits 62 r)) m := by
  have hwd : min 62 r = (capBits 62 r : ℤ) := by
    unfold capBits
    omega
  have hlimit : q.shiftRightLogical (-1) (64 - min 62 r) =
      ones (capBits 62 r) := by
    rw [hwd]
    exact shiftRightLogical_ones (by omega) (by omega)
  constructor
  · rintro ⟨n, hn⟩
    obtain ⟨r', hr', hn⟩ := bind_eq_ok.mp hn
    obtain rfl : r = r' := hr.unique ⟨n, hr'⟩
    dsimp only at hn
    rw [hlimit] at hn
    exact ⟨n, hn⟩
  · rintro ⟨n, hn⟩
    obtain ⟨k, hk⟩ := hr
    refine ⟨max k n, bind_eq_ok.mpr
      ⟨r, Scheme.eval_mono _ (le_max_left k n) hk, ?_⟩⟩
    dsimp only
    rw [hlimit]
    exact minvalLoop_mono (le_max_right k n) _ _ _ hn

/-- What the search returns from the limits of a width. -/
theorem findsLeast_limits {A : ℤ} {k : ℕ} {a b : I64} (hsolves : q.Solves PC)
    (he : e.WellTyped) (hA : IsBound PC e true false A) (hlim : Limits k a b) :
    ∃ m, q.FindsLeast e e.typ a b m ∧ (m.toInt = A ↔
      k < e.width ∧ -2 ^ k ≤ A ∧ A < 2 ^ k ∨ k = e.width ∧ A < 0) := by
  rcases lt_or_ge k e.width with hlt | hge
  · obtain ⟨m, hm, hiff⟩ := findsLeast_below (q := q) hsolves he hA hlim hlt
    refine ⟨m, hm, hiff.trans ⟨fun h => .inl ⟨hlt, h⟩, ?_⟩⟩
    rintro (h | h)
    · exact h.2
    · omega
  · rcases le_or_gt 0 A with hA0 | hA0
    · obtain ⟨m, hm, hne⟩ :=
        findsLeast_nonneg (q := q) hsolves he hA hlim hge hA0
      exact ⟨m, hm, iff_of_false hne (by omega)⟩
    · obtain ⟨m, hm, hiff⟩ :=
        findsLeast_neg (q := q) hsolves he hA hlim hge hA0
      exact ⟨m, hm, hiff.trans (by omega)⟩

theorem queryMinval_exact (hsolves : q.Solves PC) (he : e.WellTyped)
    (hPC : ∃ ρ, PC ρ) (hr : q.NarrowsSigned e r) (hpos : 0 < r) :
    (∃ n m, q.queryMinval n e e.typ = .ok m ∧
      IsBound PC e true false m.toInt) ↔ MinvalFits PC e r := by
  obtain ⟨A, hA⟩ := Influence.exists_isBound hPC e true false
  have hbound : ∀ {m : I64}, IsBound PC e true false m.toInt ↔ m.toInt = A := by
    intro m
    constructor
    · intro h
      exact h.unique hA
    · intro h
      rwa [h]
  obtain ⟨m, hm, hiff⟩ := findsLeast_limits (q := q) hsolves he hA
    (@limits_ones (capBits 62 r) (by unfold capBits; omega))
  rw [MinvalFits, and_iff_right hpos, le_least_iff hA, least_lt_iff hA,
    least_lt_iff hA, ← hiff]
  constructor
  · rintro ⟨n, m', hm', hexact⟩
    rw [hm.unique ((queryMinval_iff hr hpos).mp ⟨n, hm'⟩)]
    exact hbound.mp hexact
  · intro h
    obtain ⟨n, hn⟩ := (queryMinval_iff hr hpos).mpr hm
    exact ⟨n, m, hn, hbound.mpr h⟩

theorem queryMinval_noWidth {ty : Typ} (hr : q.NarrowsSigned e r)
    (hpos : r ≤ 0) :
    (q.onProcessor fun x _ => x).queryMinval n e ty ≠ .ok m := by
  intro hm
  obtain ⟨r', hr', hm⟩ := bind_eq_ok.mp hm
  obtain rfl : r = r' := hr.unique ⟨n, hr'⟩
  have hlimit : (q.onProcessor fun x _ => x).shiftRightLogical (-1)
      (64 - min 62 r) = -1 := if_neg (by omega)
  have hslt : (-1 : I64).slt (-(-1) - 1) = true := by decide
  dsimp only at hm
  rw [hlimit] at hm
  cases n with
  | zero => cases hm
  | succ n =>
    rw [minvalLoop, if_pos hslt] at hm
    cases hm

theorem minvalExact_iff (hsolves : q.Solves PC) (he : e.WellTyped)
    (hPC : ∃ ρ, PC ρ) :
    q.MinvalExact PC e ↔ ∃ r, q.NarrowsSigned e r ∧ MinvalFits PC e r := by
  constructor
  · intro h
    obtain ⟨n, m, hm, hexact⟩ := h fun x _ => x
    obtain ⟨r, hr, -⟩ := bind_eq_ok.mp hm
    have hr : q.NarrowsSigned e r := ⟨n, hr⟩
    refine ⟨r, hr, ?_⟩
    have hpos : 0 < r := by
      by_contra hneg
      exact queryMinval_noWidth hr (not_lt.mp hneg) hm
    exact (queryMinval_exact (q := q.onProcessor fun x _ => x) hsolves he hPC hr
      hpos).mp ⟨n, m, hm, hexact⟩
  · rintro ⟨r, hr, hfits⟩ wild
    exact (queryMinval_exact (q := q.onProcessor wild) hsolves he hPC hr
      hfits.1).mpr hfits

end MinvalResult

/-! ## Paths with a single valuation -/

section Single

/-- A solver for the path that only `ρ` takes. -/
def singleQueries (ρ : Valuation Unit) : WidthQueries where
  optArch := .x64
  optTableLimit := 10
  strict := false
  coin _ := true
  defs := .none
  queryValid c := decide (c.eval ρ 1 = 1)
  wildShift x _ := x

theorem singleQueries_solves (ρ : Valuation Unit) :
    (singleQueries ρ).Solves (· = ρ) := by
  intro c _ _
  rw [singleQueries, decide_eq_true_iff]
  constructor
  · rintro h ρ rfl
    exact h
  · exact fun h => h ρ rfl

/-- A register of a type. -/
def register (t : Typ) : Exp := .temp ⟨0, [], t⟩

/-- The register is `x`. -/
def registerIs (x : I64) : Valuation Unit where
  temp _ := x
  mem _ := ()
  label _ := 0

theorem isBound_single (ρ : Valuation Unit) (e : Exp) (isSigned isMax : Bool) :
    IsBound (· = ρ) e isSigned isMax
      (Influence.number isSigned (e.eval ρ e.width)) := by
  constructor
  · exact ⟨ρ, rfl, rfl⟩
  · rintro ρ rfl
    split_ifs <;> exact le_rfl

theorem queryMinval_five : ∃ n, (singleQueries (registerIs 5)).queryMinval n
    (register .reg8) .reg8 = .ok 0xff := by
  have hr : (singleQueries (registerIs 5)).NarrowsSigned (register .reg8) 8 :=
    ⟨70, rfl⟩
  have hlim := @limits_ones 8 (by norm_num)
  have hvalue : Influence.number true
      ((register .reg8).eval (registerIs 5) (register .reg8).width) = 5 := rfl
  rw [queryMinval_iff hr (by norm_num)]
  exact findsLeast_limit (singleQueries_solves _) trivial
    (isBound_single (registerIs 5) (register .reg8) true false) hlim rfl
    (by rw [hvalue]; norm_num)

end Single

end WidthQueries

end Fuzzball.SymRegion
