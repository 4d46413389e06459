import Fuzzball.ConstantFoldConstants
import Fuzzball.VineValues

/-!
# Bounds by binary search

`find_bound` of `exec_influence.ml` asks the solver for the least or the
greatest value of an expression, signed or unsigned.  The bounds of the search
are `int64`; a signed lower bound starts sign extended, and all that follow are
zero extended.
-/

namespace Fuzzball.Influence

open Vine

variable {μ : Type} [VineMemory μ]

/-! ## The search -/

def sx (ty : Typ) (v : I64) : I64 :=
  (v <<< (64 - ty.width)).sshiftRight (64 - ty.width)

def zx (ty : Typ) (v : I64) : I64 :=
  (v <<< (64 - ty.width)) >>> (64 - ty.width)

/-- An exception, or `none` where the fuel is spent. -/
abbrev Searched := Except (Option Exn)

/-- A failed `g_assert` raises if it is `strict`; `checkValid` are the answers
of `check_valid` for the expression in question. -/
structure BoundQueries where
  strict : Bool
  checkValid : Exp → Bool

def halfRounded (isMax : Bool) (x : I64) : I64 :=
  let half := x >>> 1
  if x &&& 1 = 0 then half else half + (if isMax then 0 else 1)

namespace BoundQueries

variable (q : BoundQueries)

def gAssert (cond : Bool) : Searched Unit :=
  if q.strict && !cond then .error (some (.failure "Too many errors"))
  else .ok ()

def midpoint (isSigned isMax : Bool) (ty : Typ) (a b : I64) :
    Searched I64 :=
  if isSigned then do
    let a' := sx ty a
    let b' := sx ty b
    let mid := a' + halfRounded isMax (b' - a')
    q.gAssert (a'.sle mid)
    q.gAssert (mid.sle b')
    pure (zx ty mid)
  else do
    let mid := a + halfRounded isMax (b - a)
    q.gAssert (I64.ucompare a mid ≤ 0)
    q.gAssert (I64.ucompare mid b ≤ 0)
    pure mid

def boundLoop (target_e : Exp) (isSigned isMax : Bool) :
    ℕ → I64 → I64 → Searched I64
  | 0, _, _ => .error none
  | n + 1, min, max => do
    let ty := target_e.typ
    let le_op := if isSigned then .sle else .le
    q.gAssert (isSigned || I64.ucompare min max ≤ 0)
    if min = max then pure min
    else
      let mid ← q.midpoint isSigned isMax ty min max
      let mid_e := Exp.int ty mid
      if isMax then
        if q.checkValid (.binOp le_op target_e mid_e) then
          boundLoop target_e isSigned isMax n min mid
        else boundLoop target_e isSigned isMax n (zx ty (mid + 1)) max
      else
        if q.checkValid (.binOp le_op mid_e target_e) then
          boundLoop target_e isSigned isMax n mid max
        else boundLoop target_e isSigned isMax n min (zx ty (mid - 1))

/-- The bounds that the search starts with. -/
def limits (wild : WildShift) (isSigned : Bool) (ty : Typ) : I64 × I64 :=
  let wd : ℤ := ty.width
  if isSigned then
    (sx ty (I64.shiftLeft wild 1 (wd - 1)),
      I64.shiftRightLogical wild (-1) (64 - wd + 1))
  else (0, I64.shiftRightLogical wild (-1) (64 - wd))

def findBound (wild : WildShift) (n : ℕ) (target_e : Exp)
    (isSigned isMax : Bool) : Searched I64 :=
  let (min_limit, max_limit) := limits wild isSigned target_e.typ
  q.boundLoop target_e isSigned isMax n min_limit max_limit

end BoundQueries

/-! ## Numbers and their representations -/

section Numbers

variable {ty : Typ} {isSigned : Bool} {A B : ℤ}

theorem zx_eq (ht : ty.IsReg) (v : I64) :
    zx ty v = (v.setWidth ty.width).setWidth 64 := by
  have h := to64_int ht v
  simp only [to64, ht.bitsOfWidth_eq, OCaml.ok_bind] at h
  exact Except.ok.inj h

theorem sx_eq (ht : ty.IsReg) (v : I64) :
    sx ty v = (v.setWidth ty.width).signExtend 64 := by
  have h := tos64_int ht v
  simp only [tos64, ht.bitsOfWidth_eq, OCaml.ok_bind] at h
  exact Except.ok.inj h

/-- A number of the type, signed or unsigned. -/
def Within (isSigned : Bool) (w : ℕ) (A : ℤ) : Prop :=
  if isSigned then -2 ^ (w - 1) ≤ A ∧ A < 2 ^ (w - 1) else 0 ≤ A ∧ A < 2 ^ w

/-- The number as a zero-extended `int64`. -/
def image (w : ℕ) (A : ℤ) : I64 := (BitVec.ofInt w A).setWidth 64

/-- What the midpoint is computed from. -/
def widened (isSigned : Bool) (ty : Typ) (x : I64) : I64 :=
  if isSigned then sx ty x else x

theorem ofInt_setWidth {w : ℕ} (hw : w ≤ 64) (A : ℤ) :
    (BitVec.ofInt 64 A).setWidth w = BitVec.ofInt w A := by
  apply BitVec.eq_of_toInt_eq
  rw [BitVec.toInt_setWidth, BitVec.toInt_ofInt, BitVec.toNat_ofInt]
  have hdvd : ((2 ^ w : ℕ) : ℤ) ∣ ((2 ^ 64 : ℕ) : ℤ) := by
    exact_mod_cast pow_dvd_pow 2 hw
  have hpos : (0 : ℤ) ≤ A % ((2 ^ 64 : ℕ) : ℤ) :=
    Int.emod_nonneg _ (by norm_num)
  rw [Int.toNat_of_nonneg hpos, Int.bmod_def, Int.bmod_def,
    Int.emod_emod_of_dvd _ hdvd]

theorem ofInt_signExtend {w : ℕ} (hpos : 0 < w) (hw : w ≤ 64)
    (h : Within true w A) :
    (BitVec.ofInt w A).signExtend 64 = BitVec.ofInt 64 A := by
  have hbig : (2 : ℤ) ^ (w - 1) ≤ 2 ^ 63 :=
    pow_le_pow_right₀ (by norm_num) (by omega)
  obtain ⟨hlow, hhigh⟩ := h
  apply BitVec.eq_of_toInt_eq
  rw [BitVec.toInt_signExtend_of_le hw, BitVec.toInt_ofInt_eq_self hpos hlow
    hhigh, BitVec.toInt_ofInt_eq_self (by norm_num) (by norm_num; omega)
    (by norm_num; omega)]

theorem ofInt_zeroExtend {w : ℕ} (hw : w ≤ 64) (h : Within false w A) :
    (BitVec.ofInt w A).setWidth 64 = BitVec.ofInt 64 A := by
  have hbig : (2 : ℤ) ^ w ≤ 2 ^ 64 := pow_le_pow_right₀ (by norm_num) hw
  obtain ⟨hlow, hhigh⟩ : 0 ≤ A ∧ A < 2 ^ w := h
  obtain ⟨n, rfl⟩ := Int.eq_ofNat_of_zero_le hlow
  have hn : n < 2 ^ w := by exact_mod_cast hhigh
  have hn64 : n < 2 ^ 64 := by exact_mod_cast hhigh.trans_le hbig
  apply BitVec.eq_of_toNat_eq
  rw [BitVec.ofInt_natCast, BitVec.ofInt_natCast, BitVec.toNat_setWidth,
    BitVec.toNat_ofNat, BitVec.toNat_ofNat, Nat.mod_eq_of_lt hn]

theorem setWidth_image {w : ℕ} (hw : w ≤ 64) (A : ℤ) :
    (image w A).setWidth w = BitVec.ofInt w A := by
  rw [image, BitVec.setWidth_setWidth_of_le _ hw, BitVec.setWidth_eq]

theorem zx_ofInt (ht : ty.IsReg) (A : ℤ) :
    zx ty (BitVec.ofInt 64 A) = image ty.width A := by
  rw [zx_eq ht, ofInt_setWidth ty.width_le, image]

theorem widened_image (ht : ty.IsReg) (h : Within isSigned ty.width A) :
    widened isSigned ty (image ty.width A) = BitVec.ofInt 64 A := by
  cases isSigned with
  | false => exact ofInt_zeroExtend ty.width_le h
  | true =>
    change sx ty _ = _
    rw [sx_eq ht, setWidth_image ty.width_le,
      ofInt_signExtend ht.width_pos ty.width_le h]

theorem widened_ofInt (ht : ty.IsReg) (h : Within isSigned ty.width A) :
    widened isSigned ty (BitVec.ofInt 64 A) = BitVec.ofInt 64 A := by
  cases isSigned with
  | false => rfl
  | true =>
    change sx ty _ = _
    rw [sx_eq ht, ofInt_setWidth ty.width_le,
      ofInt_signExtend ht.width_pos ty.width_le h]

/-- Half of a distance: rounded down towards the minimum, or up. -/
def half (isMax : Bool) (D : ℤ) : ℤ := if isMax then D / 2 else (D + 1) / 2

theorem half_bounds {D : ℤ} (isMax : Bool) (h : 0 ≤ D) :
    0 ≤ half isMax D ∧ half isMax D ≤ D := by
  cases isMax <;> simp only [half, Bool.false_eq_true, if_true, if_false] <;>
    omega

theorem halfRounded_ofInt {D : ℤ} (isMax : Bool) (h0 : 0 ≤ D)
    (h : D < 2 ^ 64) :
    halfRounded isMax (BitVec.ofInt 64 D) =
      BitVec.ofInt 64 (half isMax D) := by
  obtain ⟨n, rfl⟩ := Int.eq_ofNat_of_zero_le h0
  have hn : n < 2 ^ 64 := by exact_mod_cast h
  have hx : (BitVec.ofInt 64 n).toNat = n := by
    rw [BitVec.ofInt_natCast, BitVec.toNat_ofNat, Nat.mod_eq_of_lt hn]
  have hhalf : BitVec.ofInt 64 n >>> 1 = BitVec.ofInt 64 ((n / 2 : ℕ) : ℤ) := by
    apply BitVec.eq_of_toNat_eq
    rw [BitVec.toNat_ushiftRight, hx, BitVec.ofInt_natCast,
      BitVec.toNat_ofNat, Nat.shiftRight_eq_div_pow, pow_one,
      Nat.mod_eq_of_lt (by omega)]
  have hodd : (BitVec.ofInt 64 n &&& 1 : I64) = 0 ↔ n % 2 = 0 := by
    rw [← BitVec.toNat_inj, BitVec.toNat_and, hx]
    change n &&& 1 = 0 ↔ _
    rw [Nat.and_one_is_mod]
  have hzero : BitVec.ofInt 64 ((n / 2 : ℕ) : ℤ) + 0 =
      BitVec.ofInt 64 ((n / 2 : ℕ) : ℤ) := BitVec.add_zero _
  have hone : BitVec.ofInt 64 ((n / 2 : ℕ) : ℤ) + 1 =
      BitVec.ofInt 64 ((n / 2 : ℕ) + 1 : ℤ) := by
    rw [BitVec.ofInt_add]
    rfl
  unfold halfRounded half
  simp only [hhalf, hodd]
  cases isMax with
  | true =>
    simp only [if_true, hzero, ite_self]
    congr 1
  | false =>
    simp only [Bool.false_eq_true, if_false, hone]
    split_ifs with heven <;> congr 1 <;> push_cast <;> omega

end Numbers

section Midpoint

variable {q : BoundQueries} {ty : Typ} {isSigned isMax : Bool} {A B : ℤ}
  {x y : I64} {w : ℕ}

theorem Searched.ok_bind {α β : Type} (a : α) (f : α → Searched β) :
    (Except.ok a >>= f) = f a := rfl

theorem gAssert_ok {c : Bool} (h : c = true) : q.gAssert c = .ok () := by
  simp [BoundQueries.gAssert, h]

theorem sle_ofInt (hA : -2 ^ 63 ≤ A) (hB : B < 2 ^ 63) (hAB : A ≤ B) :
    (BitVec.ofInt 64 A).sle (BitVec.ofInt 64 B) = true := by
  rw [BitVec.sle, BitVec.toInt_ofInt_eq_self (by norm_num)
      (by norm_num; omega) (by norm_num; omega),
    BitVec.toInt_ofInt_eq_self (by norm_num) (by norm_num; omega)
      (by norm_num; omega)]
  exact decide_eq_true hAB

theorem ucompare_ofInt (hA : 0 ≤ A) (hB : B < 2 ^ 64) (hAB : A ≤ B) :
    decide (I64.ucompare (BitVec.ofInt 64 A) (BitVec.ofInt 64 B) ≤ 0) =
      true := by
  obtain ⟨n, rfl⟩ := Int.eq_ofNat_of_zero_le hA
  obtain ⟨m, rfl⟩ := Int.eq_ofNat_of_zero_le (hA.trans hAB)
  have hm : m < 2 ^ 64 := by exact_mod_cast hB
  have hnm : n ≤ m := by exact_mod_cast hAB
  rw [decide_eq_true_eq, I64.ucompare_le_zero_iff, BitVec.ofInt_natCast,
    BitVec.ofInt_natCast, BitVec.le_def, BitVec.toNat_ofNat,
    BitVec.toNat_ofNat, Nat.mod_eq_of_lt hm, Nat.mod_eq_of_lt (by omega)]
  exact hnm

theorem Within.bounds (hw : w ≤ 64) (h : Within isSigned w A) :
    if isSigned then -2 ^ 63 ≤ A ∧ A < 2 ^ 63 else 0 ≤ A ∧ A < 2 ^ 64 := by
  cases isSigned with
  | false =>
    have hbig : (2 : ℤ) ^ w ≤ 2 ^ 64 := pow_le_pow_right₀ (by norm_num) hw
    exact ⟨h.1, h.2.trans_le hbig⟩
  | true =>
    have hbig : (2 : ℤ) ^ (w - 1) ≤ 2 ^ 63 :=
      pow_le_pow_right₀ (by norm_num) (by omega)
    exact ⟨(neg_le_neg hbig).trans h.1, h.2.trans_le hbig⟩

/-- The midpoint of two numbers in order is between them, whatever
representation the numbers have. -/
theorem midpoint_eq (ht : ty.IsReg)
    (hx : widened isSigned ty x = BitVec.ofInt 64 A)
    (hy : widened isSigned ty y = BitVec.ofInt 64 B)
    (hA : Within isSigned ty.width A) (hB : Within isSigned ty.width B)
    (hAB : A ≤ B) :
    q.midpoint isSigned isMax ty x y =
      .ok (image ty.width (A + half isMax (B - A))) := by
  obtain ⟨h0, hle⟩ := half_bounds isMax (D := B - A) (by omega)
  have hA' := hA.bounds ty.width_le
  have hB' := hB.bounds ty.width_le
  have hdistance : B - A < 2 ^ 64 := by
    cases isSigned <;> simp only [Bool.false_eq_true, if_true, if_false]
      at hA' hB' <;> omega
  have hmid : BitVec.ofInt 64 A + halfRounded isMax
      (BitVec.ofInt 64 B - BitVec.ofInt 64 A) =
      BitVec.ofInt 64 (A + half isMax (B - A)) := by
    have hsub : BitVec.ofInt 64 B - BitVec.ofInt 64 A =
        BitVec.ofInt 64 (B - A) := by
      have hsum : BitVec.ofInt 64 B =
          BitVec.ofInt 64 (B - A) + BitVec.ofInt 64 A := by
        rw [← BitVec.ofInt_add, sub_add_cancel]
      rw [hsum, BitVec.add_sub_cancel]
    rw [hsub, halfRounded_ofInt isMax (by omega) hdistance, ← BitVec.ofInt_add]
  cases isSigned with
  | true =>
    obtain ⟨hA1, -⟩ : -2 ^ 63 ≤ A ∧ A < 2 ^ 63 := hA'
    obtain ⟨-, hB2⟩ : -2 ^ 63 ≤ B ∧ B < 2 ^ 63 := hB'
    have hx' : sx ty x = BitVec.ofInt 64 A := hx
    have hy' : sx ty y = BitVec.ofInt 64 B := hy
    have hlow := sle_ofInt (A := A) (B := A + half isMax (B - A)) hA1
      (by omega) (by omega)
    have hhigh := sle_ofInt (A := A + half isMax (B - A)) (B := B) (by omega)
      hB2 (by omega)
    rw [BoundQueries.midpoint, if_pos rfl, hx', hy']
    dsimp only
    rw [hmid, gAssert_ok hlow, gAssert_ok hhigh, ← zx_ofInt ht]
    rfl
  | false =>
    obtain ⟨hA1, -⟩ : 0 ≤ A ∧ A < 2 ^ 64 := hA'
    obtain ⟨-, hB2⟩ : 0 ≤ B ∧ B < 2 ^ 64 := hB'
    have hx' : x = BitVec.ofInt 64 A := hx
    have hy' : y = BitVec.ofInt 64 B := hy
    have hlow := ucompare_ofInt (A := A) (B := A + half isMax (B - A)) hA1
      (by omega) (by omega)
    have hhigh := ucompare_ofInt (A := A + half isMax (B - A)) (B := B)
      (by omega) hB2 (by omega)
    have hwithin : Within false ty.width (A + half isMax (B - A)) :=
      ⟨by omega, lt_of_le_of_lt (by omega) hB.2⟩
    rw [BoundQueries.midpoint, if_neg Bool.false_ne_true, hx', hy']
    dsimp only
    rw [hmid, gAssert_ok hlow, gAssert_ok hhigh, image,
      ofInt_zeroExtend ty.width_le hwithin]
    rfl

end Midpoint

/-! ## The oracle and the bound -/

/-- A bit vector read as a signed or unsigned number. -/
def number (isSigned : Bool) {w : ℕ} (x : BitVec w) : ℤ :=
  if isSigned then x.toInt else x.toNat

/-- The solver is right about what is feasible. -/
def BoundQueries.Solves (q : BoundQueries) (PC : Valuation μ → Prop) : Prop :=
  ∀ c : Exp, c.WellTyped → c.typ = .reg1 →
    (q.checkValid c = true ↔ ∀ ρ, PC ρ → c.eval ρ 1 = 1)

/-- The greatest or the least number that is feasible. -/
structure IsBound (PC : Valuation μ → Prop) (e : Exp) (isSigned isMax : Bool)
    (b : ℤ) : Prop where
  attained : ∃ ρ, PC ρ ∧ number isSigned (e.eval ρ e.width) = b
  extreme : ∀ ρ, PC ρ →
    if isMax then number isSigned (e.eval ρ e.width) ≤ b
    else b ≤ number isSigned (e.eval ρ e.width)

section Oracle

variable {q : BoundQueries} {PC : Valuation μ → Prop} {e : Exp}
  {isSigned isMax : Bool} {b M : ℤ} {w : ℕ}

theorem within_number (isSigned : Bool) (x : BitVec w) :
    Within isSigned w (number isSigned x) := by
  cases isSigned with
  | false =>
    have hlt : (x.toNat : ℤ) < 2 ^ w := by exact_mod_cast x.isLt
    exact ⟨Int.natCast_nonneg _, hlt⟩
  | true => exact ⟨BitVec.le_toInt (x := x), BitVec.toInt_lt (x := x)⟩

theorem number_ofInt (hw : 0 < w) (h : Within isSigned w M) :
    number isSigned (BitVec.ofInt w M) = M := by
  cases isSigned with
  | false =>
    obtain ⟨h0, hlt⟩ : 0 ≤ M ∧ M < 2 ^ w := h
    change ((BitVec.ofInt w M).toNat : ℤ) = M
    rw [BitVec.toNat_ofInt, Int.toNat_of_nonneg
      (Int.emod_nonneg _ (by positivity)), Int.emod_eq_of_lt h0 (by
        push_cast
        exact hlt)]
  | true => exact BitVec.toInt_ofInt_eq_self hw h.1 h.2

/-- Among finitely many feasible numbers there is a bound. -/
theorem exists_isBound (hPC : ∃ ρ, PC ρ) (e : Exp)
    (isSigned isMax : Bool) : ∃ b, IsBound PC e isSigned isMax b := by
  obtain ⟨ρ, hρ⟩ := hPC
  have hwithin : ∀ ρ : Valuation μ, Within isSigned e.width
      (number isSigned (e.eval ρ e.width)) :=
    fun ρ => within_number isSigned _
  have hbounds : ∃ lo hi : ℤ, ∀ ρ : Valuation μ,
      lo ≤ number isSigned (e.eval ρ e.width) ∧
        number isSigned (e.eval ρ e.width) ≤ hi := by
    cases isSigned with
    | false =>
      exact ⟨0, 2 ^ e.width, fun ρ => ⟨(hwithin ρ).1, (hwithin ρ).2.le⟩⟩
    | true =>
      exact ⟨-2 ^ (e.width - 1), 2 ^ (e.width - 1),
        fun ρ => ⟨(hwithin ρ).1, (hwithin ρ).2.le⟩⟩
  obtain ⟨lo, hi, hbounds⟩ := hbounds
  cases isMax with
  | true =>
    obtain ⟨b, hb, hmax⟩ := Int.exists_greatest_of_bdd
      (P := fun b => ∃ ρ, PC ρ ∧ number isSigned (e.eval ρ e.width) = b)
      ⟨hi, by
        rintro z ⟨ρ, -, rfl⟩
        exact (hbounds ρ).2⟩ ⟨_, ρ, hρ, rfl⟩
    exact ⟨b, hb, fun ρ hρ => hmax _ ⟨ρ, hρ, rfl⟩⟩
  | false =>
    obtain ⟨b, hb, hmin⟩ := Int.exists_least_of_bdd
      (P := fun b => ∃ ρ, PC ρ ∧ number isSigned (e.eval ρ e.width) = b)
      ⟨lo, by
        rintro z ⟨ρ, -, rfl⟩
        exact (hbounds ρ).1⟩ ⟨_, ρ, hρ, rfl⟩
    exact ⟨b, hb, fun ρ hρ => hmin _ ⟨ρ, hρ, rfl⟩⟩

theorem IsBound.unique {b' : ℤ} (h : IsBound PC e isSigned isMax b)
    (h' : IsBound PC e isSigned isMax b') : b = b' := by
  obtain ⟨ρ, hρ, hb⟩ := h.attained
  obtain ⟨ρ', hρ', hb'⟩ := h'.attained
  have hle := h'.extreme ρ hρ
  have hge := h.extreme ρ' hρ'
  rw [hb] at hle
  rw [hb'] at hge
  cases isMax <;> simp only [Bool.false_eq_true, if_true, if_false] at hle hge
    <;> omega

theorem IsBound.within (h : IsBound PC e isSigned isMax b) :
    Within isSigned e.width b := by
  obtain ⟨ρ, -, rfl⟩ := h.attained
  exact within_number isSigned _

/-- The comparison of the search. -/
abbrev leOp (isSigned : Bool) : BinopType := if isSigned then .sle else .le

theorem flag_eq_one_iff {c : Bool} : flag 1 c = 1 ↔ c = true := by
  cases c <;> decide

theorem eval_le_mid (he : e.WellTyped) (hM : Within isSigned e.width M)
    (ρ : Valuation μ) :
    (Exp.binOp (leOp isSigned) e (.int e.typ (image e.width M))).eval ρ 1 = 1 ↔
      number isSigned (e.eval ρ e.width) ≤ M := by
  have hmid : ((Exp.int e.typ (image e.width M)).eval ρ e.width) =
      BitVec.ofInt e.width M := setWidth_image e.width_le M
  have hnumber := number_ofInt he.width_pos hM
  cases isSigned with
  | false =>
    change flag 1 ((e.eval ρ e.width).ule _) = 1 ↔ _
    rw [hmid, flag_eq_one_iff, BitVec.ule, decide_eq_true_eq]
    change ((BitVec.ofInt e.width M).toNat : ℤ) = M at hnumber
    change _ ↔ ((e.eval ρ e.width).toNat : ℤ) ≤ M
    omega
  | true =>
    change flag 1 ((e.eval ρ e.width).sle _) = 1 ↔ _
    rw [hmid, flag_eq_one_iff, BitVec.sle, decide_eq_true_eq]
    change (BitVec.ofInt e.width M).toInt = M at hnumber
    rw [hnumber]
    rfl

theorem eval_mid_le (he : e.WellTyped) (hM : Within isSigned e.width M)
    (ρ : Valuation μ) :
    (Exp.binOp (leOp isSigned) (.int e.typ (image e.width M)) e).eval ρ 1 = 1 ↔
      M ≤ number isSigned (e.eval ρ e.width) := by
  have hmid : ((Exp.int e.typ (image e.width M)).eval ρ e.width) =
      BitVec.ofInt e.width M := setWidth_image e.width_le M
  have hnumber := number_ofInt he.width_pos hM
  cases isSigned with
  | false =>
    change flag 1 (BitVec.ule (Exp.eval _ ρ e.width) (e.eval ρ e.width)) = 1 ↔ _
    rw [hmid, flag_eq_one_iff, BitVec.ule, decide_eq_true_eq]
    change ((BitVec.ofInt e.width M).toNat : ℤ) = M at hnumber
    change _ ↔ M ≤ ((e.eval ρ e.width).toNat : ℤ)
    omega
  | true =>
    change flag 1 (BitVec.sle (Exp.eval _ ρ e.width) (e.eval ρ e.width)) = 1 ↔ _
    rw [hmid, flag_eq_one_iff, BitVec.sle, decide_eq_true_eq]
    change (BitVec.ofInt e.width M).toInt = M at hnumber
    rw [hnumber]
    rfl

theorem wellTyped_le {e1 e2 : Exp} (h1 : e1.WellTyped) (h2 : e2.WellTyped)
    (h : e2.typ = e1.typ) (isSigned : Bool) :
    (Exp.binOp (leOp isSigned) e1 e2).WellTyped := by
  cases isSigned <;> exact ⟨h1, h2, h⟩

/-- A query for the maximum. -/
theorem checkValid_max (hsolves : q.Solves PC) (he : e.WellTyped)
    (hb : IsBound PC e isSigned true b) (hM : Within isSigned e.width M) :
    q.checkValid (.binOp (leOp isSigned) e (.int e.typ (image e.width M))) =
      true ↔ b ≤ M := by
  have htyp : (Exp.binOp (leOp isSigned) e
      (.int e.typ (image e.width M))).typ = .reg1 := by
    cases isSigned <;> rfl
  have hint : (Exp.int e.typ (image e.width M)).WellTyped := he.isReg
  rw [hsolves _ (wellTyped_le he hint rfl isSigned) htyp]
  simp only [eval_le_mid he hM]
  constructor
  · intro h
    obtain ⟨ρ, hρ, rfl⟩ := hb.attained
    exact h ρ hρ
  · intro h ρ hρ
    exact (hb.extreme ρ hρ).trans h

/-- A query for the minimum. -/
theorem checkValid_min (hsolves : q.Solves PC) (he : e.WellTyped)
    (hb : IsBound PC e isSigned false b) (hM : Within isSigned e.width M) :
    q.checkValid (.binOp (leOp isSigned) (.int e.typ (image e.width M)) e) =
      true ↔ M ≤ b := by
  have htyp : (Exp.binOp (leOp isSigned) (.int e.typ (image e.width M))
      e).typ = .reg1 := by
    cases isSigned <;> rfl
  have hint : (Exp.int e.typ (image e.width M)).WellTyped := he.isReg
  rw [hsolves _ (wellTyped_le hint he rfl isSigned) htyp]
  simp only [eval_mid_le he hM]
  constructor
  · intro h
    obtain ⟨ρ, hρ, rfl⟩ := hb.attained
    exact h ρ hρ
  · intro h ρ hρ
    exact h.trans (hb.extreme ρ hρ)

end Oracle

/-! ## The loop -/

section Loop

variable {q : BoundQueries} {PC : Valuation μ → Prop} {e : Exp}
  {isSigned isMax : Bool} {ty : Typ} {A B b : ℤ} {x y : I64} {n w : ℕ}

theorem Within.between {M : ℤ} (hA : Within isSigned w A)
    (hB : Within isSigned w B) (hAM : A ≤ M) (hMB : M ≤ B) :
    Within isSigned w M := by
  cases isSigned with
  | true => exact ⟨hA.1.trans hAM, hMB.trans_lt hB.2⟩
  | false => exact ⟨hA.1.trans hAM, hMB.trans_lt hB.2⟩

theorem ofInt_injective (hA : Within isSigned w A) (hB : Within isSigned w B)
    (hw : w ≤ 64) (h : BitVec.ofInt 64 A = BitVec.ofInt 64 B) : A = B := by
  have hA' := hA.bounds hw
  have hB' := hB.bounds hw
  have hmod := congrArg BitVec.toNat h
  rw [BitVec.toNat_ofInt, BitVec.toNat_ofInt] at hmod
  cases isSigned <;> simp only [Bool.false_eq_true, if_true, if_false]
    at hA' hB' <;> omega

/-- Equal representations are of one number, whatever the two forms. -/
theorem eq_of_widened (hw : ty.width ≤ 64) (hA : Within isSigned ty.width A)
    (hB : Within isSigned ty.width B)
    (hx : widened isSigned ty x = BitVec.ofInt 64 A)
    (hy : widened isSigned ty y = BitVec.ofInt 64 B) (h : x = y) : A = B := by
  apply ofInt_injective hA hB hw
  rw [← hx, ← hy, h]

theorem zx_image_add (ht : ty.IsReg) (M k : ℤ) :
    zx ty (image ty.width M + BitVec.ofInt 64 k) = image ty.width (M + k) := by
  rw [zx_eq ht, BitVec.setWidth_add _ _ ty.width_le,
    setWidth_image ty.width_le, ofInt_setWidth ty.width_le, ← BitVec.ofInt_add,
    image]

theorem zx_succ (ht : ty.IsReg) (M : ℤ) :
    zx ty (image ty.width M + 1) = image ty.width (M + 1) :=
  zx_image_add ht M 1

theorem zx_pred (ht : ty.IsReg) (M : ℤ) :
    zx ty (image ty.width M - 1) = image ty.width (M - 1) := by
  have h := zx_image_add ht M (-1)
  rw [show BitVec.ofInt 64 (-1) = -(1 : I64) by decide,
    ← BitVec.sub_eq_add_neg, ← sub_eq_add_neg] at h
  exact h

/-- The assertion at the head of the loop. -/
theorem gAssert_order (hw : ty.width ≤ 64) (hA : Within isSigned ty.width A)
    (hB : Within isSigned ty.width B) (hAB : A ≤ B)
    (hx : widened isSigned ty x = BitVec.ofInt 64 A)
    (hy : widened isSigned ty y = BitVec.ofInt 64 B) :
    q.gAssert (isSigned || I64.ucompare x y ≤ 0) = .ok () := by
  apply gAssert_ok
  cases isSigned with
  | true => rfl
  | false =>
    have hx' : x = BitVec.ofInt 64 A := hx
    have hy' : y = BitVec.ofInt 64 B := hy
    rw [Bool.false_or, hx', hy']
    exact ucompare_ofInt (hA.bounds hw).1 (hB.bounds hw).2 hAB

/-- A round of the search for the maximum in an interval of several numbers,
or of one number in two forms. -/
theorem boundLoop_max_round (he : e.WellTyped) (hsolves : q.Solves PC)
    (hb : IsBound PC e isSigned true b) (hA : Within isSigned e.width A)
    (hB : Within isSigned e.width B) (hAB : A ≤ B)
    (hx : widened isSigned e.typ x = BitVec.ofInt 64 A)
    (hne : x ≠ image e.width B) :
    q.boundLoop e isSigned true (n + 1) x (image e.width B) =
      if b ≤ A + (B - A) / 2 then
        q.boundLoop e isSigned true n x (image e.width (A + (B - A) / 2))
      else
        q.boundLoop e isSigned true n
          (image e.width (A + (B - A) / 2 + 1)) (image e.width B) := by
  have hy := widened_image he.isReg hB
  have hM : Within isSigned e.width (A + (B - A) / 2) :=
    hA.between hB (by omega) (by omega)
  have hmid : q.midpoint isSigned true e.typ x (image e.width B) =
      .ok (image e.width (A + (B - A) / 2)) :=
    midpoint_eq he.isReg hx hy hA hB hAB
  have hassert : q.gAssert (isSigned ||
      I64.ucompare x (image e.width B) ≤ 0) = .ok () :=
    gAssert_order e.width_le hA hB hAB hx hy
  rw [BoundQueries.boundLoop, hassert]
  simp only [Searched.ok_bind, if_neg hne]
  rw [hmid]
  simp only [Searched.ok_bind, if_true]
  have hsucc : zx e.typ (image e.width (A + (B - A) / 2) + 1) =
      image e.width (A + (B - A) / 2 + 1) := zx_succ he.isReg _
  rw [hsucc]
  simp only [checkValid_max hsolves he hb hM]

theorem boundLoop_min_round (he : e.WellTyped) (hsolves : q.Solves PC)
    (hb : IsBound PC e isSigned false b) (hA : Within isSigned e.width A)
    (hB : Within isSigned e.width B) (hAB : A ≤ B)
    (hx : widened isSigned e.typ x = BitVec.ofInt 64 A)
    (hne : x ≠ image e.width B) :
    q.boundLoop e isSigned false (n + 1) x (image e.width B) =
      if A + (B - A + 1) / 2 ≤ b then
        q.boundLoop e isSigned false n (image e.width (A + (B - A + 1) / 2))
          (image e.width B)
      else
        q.boundLoop e isSigned false n x
          (image e.width (A + (B - A + 1) / 2 - 1)) := by
  have hy := widened_image he.isReg hB
  have hM : Within isSigned e.width (A + (B - A + 1) / 2) :=
    hA.between hB (by omega) (by omega)
  have hmid : q.midpoint isSigned false e.typ x (image e.width B) =
      .ok (image e.width (A + (B - A + 1) / 2)) :=
    midpoint_eq he.isReg hx hy hA hB hAB
  have hassert : q.gAssert (isSigned ||
      I64.ucompare x (image e.width B) ≤ 0) = .ok () :=
    gAssert_order e.width_le hA hB hAB hx hy
  rw [BoundQueries.boundLoop, hassert]
  simp only [Searched.ok_bind, if_neg hne]
  rw [hmid]
  simp only [Searched.ok_bind, Bool.false_eq_true, if_false]
  have hpred : zx e.typ (image e.width (A + (B - A + 1) / 2) - 1) =
      image e.width (A + (B - A + 1) / 2 - 1) := zx_pred he.isReg _
  rw [hpred]
  simp only [checkValid_min hsolves he hb hM]

theorem boundLoop_equal (hc : q.gAssert (isSigned || I64.ucompare x x ≤ 0) =
    .ok ()) : q.boundLoop e isSigned isMax (n + 1) x x = .ok x := by
  rw [BoundQueries.boundLoop, hc]
  simp only [Searched.ok_bind, if_true]
  rfl

/-- Ends in the same form are ends of an interval of one number. -/
theorem boundLoop_same (hA : Within isSigned e.width A)
    (hB : Within isSigned e.width B) (hAb : A ≤ b) (hbB : b ≤ B)
    (hx : widened isSigned e.typ x = BitVec.ofInt 64 A)
    (hy : widened isSigned e.typ (image e.width B) = BitVec.ofInt 64 B)
    (heq : x = image e.width B) :
    q.boundLoop e isSigned isMax (n + 1) x (image e.width B) =
      .ok (image e.width b) := by
  obtain rfl := eq_of_widened e.width_le hA hB hx hy heq
  obtain rfl : A = b := by omega
  rw [heq]
  exact boundLoop_equal (gAssert_order e.width_le hA hA le_rfl hy hy)

/-- The search for the maximum ends if its lower end is in the form of the
upper one, or is not itself the maximum. -/
theorem boundLoop_max (he : e.WellTyped) (hsolves : q.Solves PC)
    (hb : IsBound PC e isSigned true b) (hA : Within isSigned e.width A)
    (hB : Within isSigned e.width B) (hAb : A ≤ b) (hbB : b ≤ B)
    (hx : widened isSigned e.typ x = BitVec.ofInt 64 A)
    (hform : x = image e.width A ∨ A < b) (hlength : B - A < 2 ^ n) :
    q.boundLoop e isSigned true (n + 1) x (image e.width B) =
      .ok (image e.width b) := by
  induction n generalizing x A B with
  | zero =>
    have hAB : A = B := by
      rw [pow_zero] at hlength
      omega
    subst hAB
    have heq : x = image e.width A := by
      rcases hform with h | h
      · exact h
      · omega
    exact boundLoop_same hA hA hAb hbB hx (widened_image he.isReg hA) heq
  | succ n ih =>
    have hAB : A ≤ B := hAb.trans hbB
    by_cases heq : x = image e.width B
    · exact boundLoop_same hA hB hAb hbB hx (widened_image he.isReg hB) heq
    · have hlt : A < B := by
        rcases hform with h | h
        · apply lt_of_le_of_ne hAB
          rintro rfl
          exact heq h
        · omega
      rw [pow_succ] at hlength
      rw [boundLoop_max_round he hsolves hb hA hB hAB hx heq]
      split_ifs with hvalid
      · exact ih hA (hA.between hB (by omega) (by omega)) hAb hvalid hx hform
          (by omega)
      · have hM : Within isSigned e.width (A + (B - A) / 2 + 1) :=
          hA.between hB (by omega) (by omega)
        exact ih hM hB (by omega) hbB (widened_image he.isReg hM) (.inl rfl)
          (by omega)

/-- The search for the minimum spends a round on the form of its lower end. -/
theorem boundLoop_min (he : e.WellTyped) (hsolves : q.Solves PC)
    (hb : IsBound PC e isSigned false b) (hA : Within isSigned e.width A)
    (hB : Within isSigned e.width B) (hAb : A ≤ b) (hbB : b ≤ B)
    (hx : widened isSigned e.typ x = BitVec.ofInt 64 A)
    (hlength : B - A < 2 ^ n) :
    q.boundLoop e isSigned false (n + 2) x (image e.width B) =
      .ok (image e.width b) := by
  induction n generalizing x A B with
  | zero =>
    have hAB : A = B := by
      rw [pow_zero] at hlength
      omega
    subst hAB
    have hy := widened_image he.isReg hA
    by_cases heq : x = image e.width A
    · exact boundLoop_same hA hA hAb hbB hx hy heq
    · have hhalf : A + (A - A + 1) / 2 = A := by omega
      rw [boundLoop_min_round he hsolves hb hA hA le_rfl hx heq, hhalf,
        if_pos hAb]
      exact boundLoop_same hA hA hAb hbB hy hy rfl
  | succ n ih =>
    have hAB : A ≤ B := hAb.trans hbB
    by_cases heq : x = image e.width B
    · exact boundLoop_same hA hB hAb hbB hx (widened_image he.isReg hB) heq
    · have hM : Within isSigned e.width (A + (B - A + 1) / 2) :=
        hA.between hB (by omega) (by omega)
      rw [pow_succ] at hlength
      rw [boundLoop_min_round he hsolves hb hA hB hAB hx heq]
      split_ifs with hvalid
      · exact ih hM hB hvalid hbB (widened_image he.isReg hM) (by omega)
      · exact ih hA (hA.between hB (by omega) (by omega)) hAb (by omega) hx
          (by omega)

/-- With the minimum of the type as the only number, the two ends keep their
different forms. -/
theorem boundLoop_stuck (he : e.WellTyped) (hsolves : q.Solves PC)
    (hb : IsBound PC e true true A) (hA : Within true e.width A)
    (hB : Within true e.width B) (hAB : A ≤ B)
    (hx : widened true e.typ x = BitVec.ofInt 64 A)
    (hform : ∀ C, x ≠ image e.width C) :
    q.boundLoop e true true n x (image e.width B) = .error none := by
  induction n generalizing B with
  | zero => rfl
  | succ n ih =>
    rw [boundLoop_max_round he hsolves hb hA hB hAB hx (hform B),
      if_pos (by omega)]
    exact ih (hA.between hB (by omega) (by omega)) (by omega)

end Loop

/-! ## The limits -/

section Limits

variable {wild : WildShift} {ty : Typ}

def lowest (isSigned : Bool) (w : ℕ) : ℤ := if isSigned then -2 ^ (w - 1) else 0

def highest (isSigned : Bool) (w : ℕ) : ℤ :=
  if isSigned then 2 ^ (w - 1) - 1 else 2 ^ w - 1

theorem within_lowest (isSigned : Bool) (w : ℕ) :
    Within isSigned w (lowest isSigned w) := by
  cases isSigned with
  | false => exact ⟨le_rfl, by positivity⟩
  | true =>
    have hpos : (0 : ℤ) < 2 ^ (w - 1) := by positivity
    exact ⟨le_rfl, (neg_neg_of_pos hpos).trans hpos⟩

theorem within_highest (isSigned : Bool) (w : ℕ) :
    Within isSigned w (highest isSigned w) := by
  cases isSigned with
  | false =>
    have hpos : (0 : ℤ) < 2 ^ w := by positivity
    exact ⟨by rw [highest, if_neg Bool.false_ne_true]; omega,
      by rw [highest, if_neg Bool.false_ne_true]; omega⟩
  | true =>
    have hpos : (0 : ℤ) < 2 ^ (w - 1) := by positivity
    exact ⟨by rw [highest, if_pos rfl]; omega,
      by rw [highest, if_pos rfl]; omega⟩

theorem Within.between_limits {isSigned : Bool} {w : ℕ} {A : ℤ}
    (h : Within isSigned w A) :
    lowest isSigned w ≤ A ∧ A ≤ highest isSigned w := by
  cases isSigned with
  | false => exact ⟨h.1, Int.le_sub_one_of_lt h.2⟩
  | true => exact ⟨h.1, Int.le_sub_one_of_lt h.2⟩

theorem ones_shifted {n : ℤ} (h0 : 0 ≤ n) (h : n < 64) :
    I64.shiftRightLogical wild (-1) n = (-1 : I64) >>> n.toNat :=
  if_pos ⟨h0, h⟩

theorem one_shifted {n : ℤ} (h0 : 0 ≤ n) (h : n < 64) :
    I64.shiftLeft wild 1 n = (1 : I64) <<< n.toNat :=
  if_pos ⟨h0, h⟩

/-- The lower limit is sign extended, the upper one zero extended. -/
theorem limits_eq (ht : ty.IsReg) {isSigned : Bool}
    (h : isSigned = true → ty ≠ .reg1) :
    BoundQueries.limits wild isSigned ty =
      (BitVec.ofInt 64 (lowest isSigned ty.width),
        image ty.width (highest isSigned ty.width)) := by
  have hpos := ht.width_pos
  have hle := ty.width_le
  cases isSigned with
  | false =>
    unfold BoundQueries.limits
    dsimp only
    rw [if_neg Bool.false_ne_true, ones_shifted (by omega) (by omega)]
    cases ty with
    | reg1 | reg8 | reg16 | reg32 | reg64 => decide
    | _ => exact absurd ht (by simp [Typ.IsReg])
  | true =>
    unfold BoundQueries.limits
    dsimp only
    rw [if_pos rfl, one_shifted (by omega) (by omega)]
    cases ty with
    | reg1 => exact absurd rfl (h rfl)
    | reg8 | reg16 | reg32 | reg64 =>
      rw [ones_shifted (by decide) (by decide)]
      decide
    | _ => exact absurd ht (by simp [Typ.IsReg])

end Limits

/-! ## The exact bound -/

section Exact

variable {q : BoundQueries} {PC : Valuation μ → Prop} {e : Exp}
  {isSigned isMax : Bool} {b : ℤ}

/-- The limit itself, in its sign-extended form, is in the way of nothing but a
search for the maximum that ends there. -/
theorem findBound_eq (wild : WildShift) (hsolves : q.Solves PC)
    (he : e.WellTyped) (hb : IsBound PC e isSigned isMax b)
    (hwide : isSigned = true → e.typ ≠ .reg1)
    (hform : isMax = true →
      BitVec.ofInt 64 (lowest isSigned e.width) =
        image e.width (lowest isSigned e.width) ∨
      lowest isSigned e.width < b) :
    q.findBound wild 66 e isSigned isMax = .ok (image e.width b) := by
  have hlow := within_lowest isSigned e.width
  have hhigh := within_highest isSigned e.width
  have hlimits : BoundQueries.limits wild isSigned e.typ =
      (BitVec.ofInt 64 (lowest isSigned e.width),
        image e.width (highest isSigned e.width)) :=
    limits_eq he.isReg hwide
  obtain ⟨hle, hge⟩ := hb.within.between_limits
  have hx : widened isSigned e.typ
      (BitVec.ofInt 64 (lowest isSigned e.width)) =
      BitVec.ofInt 64 (lowest isSigned e.width) :=
    widened_ofInt he.isReg hlow
  have hlength : highest isSigned e.width - lowest isSigned e.width <
      2 ^ 64 := by
    have hlow' := hlow.bounds e.width_le
    have hhigh' := hhigh.bounds e.width_le
    cases isSigned <;> simp only [Bool.false_eq_true, if_true, if_false]
      at hlow' hhigh' <;> omega
  unfold BoundQueries.findBound
  rw [hlimits]
  cases isMax with
  | true =>
    exact boundLoop_max (n := 65) he hsolves hb hlow hhigh hle hge hx
      (hform rfl) (by omega)
  | false =>
    exact boundLoop_min (n := 64) he hsolves hb hlow hhigh hle hge hx hlength

theorem ofInt_ne_image {w : ℕ} (hw : w < 64) {A : ℤ} (hneg : A < 0)
    (hA : -2 ^ 63 ≤ A) (C : ℤ) : BitVec.ofInt 64 A ≠ image w C := by
  intro h
  have himage : (image w C).toNat < 2 ^ 63 := by
    rw [image, BitVec.toNat_setWidth_of_le hw.le]
    exact (BitVec.ofInt w C).isLt.trans_le
      (Nat.pow_le_pow_right (by norm_num) (by omega))
  rw [← h, BitVec.toNat_ofInt] at himage
  omega

theorem findBound_stuck (wild : WildShift) (hsolves : q.Solves PC)
    (he : e.WellTyped) (hb : IsBound PC e true true (-2 ^ (e.width - 1)))
    (hwide : e.typ ≠ .reg1) (hnarrow : e.width < 64) (n : ℕ) :
    q.findBound wild n e true true = .error none := by
  have hlimits : BoundQueries.limits wild true e.typ =
      (BitVec.ofInt 64 (lowest true e.width),
        image e.width (highest true e.width)) :=
    limits_eq he.isReg fun _ => hwide
  have hlow : Within true e.width (-2 ^ (e.width - 1)) := hb.within
  have hneg : -(2 : ℤ) ^ (e.width - 1) < 0 := by
    rw [neg_lt_zero]
    positivity
  have hbig : -(2 : ℤ) ^ 63 ≤ -2 ^ (e.width - 1) := (hlow.bounds e.width_le).1
  unfold BoundQueries.findBound
  rw [hlimits]
  exact boundLoop_stuck he hsolves hb hlow (within_highest true e.width)
    (within_highest true e.width).1 (widened_ofInt he.isReg hlow)
    (ofInt_ne_image hnarrow hneg hbig)

/-! ### One signed bit -/

theorem gAssert_cases (q : BoundQueries) (c : Bool) :
    q.gAssert c = .ok () ∨ ∃ ex, q.gAssert c = .error ex := by
  unfold BoundQueries.gAssert
  split_ifs with h
  · exact .inr ⟨_, rfl⟩
  · exact .inl rfl

theorem midpoint_cases (q : BoundQueries) (isMax : Bool) (ty : Typ)
    (x y : I64) :
    q.midpoint true isMax ty x y =
      .ok (zx ty (sx ty x + halfRounded isMax (sx ty y - sx ty x))) ∨
    ∃ ex, q.midpoint true isMax ty x y = .error ex := by
  unfold BoundQueries.midpoint
  rw [if_pos rfl]
  dsimp only
  rcases gAssert_cases q ((sx ty x).sle
    (sx ty x + halfRounded isMax (sx ty y - sx ty x))) with hlow | ⟨ex, hlow⟩
  · rcases gAssert_cases q ((sx ty x + halfRounded isMax
      (sx ty y - sx ty x)).sle (sx ty y)) with hhigh | ⟨ex, hhigh⟩
    · rw [hlow, hhigh]
      exact .inl rfl
    · rw [hlow, hhigh]
      exact .inr ⟨ex, rfl⟩
  · rw [hlow]
    exact .inr ⟨ex, rfl⟩

/-- For one bit the shift for the upper limit is by 64.  From the limit 5 the
search for a maximum leads to no end, whatever the solver answers. -/
theorem boundLoop_max_bit (htyp : e.typ = .reg1) {x y : I64}
    (hx : x = -1 ∨ x = 0) (hy : y = 5 ∨ y = 1) (n : ℕ) (r : I64) :
    q.boundLoop e true true n x y ≠ .ok r := by
  induction n generalizing x y with
  | zero =>
    intro h
    cases h
  | succ n ih =>
    have hne : x ≠ y := by
      rcases hx with rfl | rfl <;> rcases hy with rfl | rfl <;> decide
    have hmid : zx .reg1 (sx .reg1 x + halfRounded true
        (sx .reg1 y - sx .reg1 x)) = 1 := by
      rcases hx with rfl | rfl <;> rcases hy with rfl | rfl <;> decide
    have hassert : q.gAssert (true || decide (I64.ucompare x y ≤ 0)) = .ok () :=
      gAssert_ok rfl
    rw [BoundQueries.boundLoop, hassert, htyp]
    simp only [Searched.ok_bind, if_neg hne, if_true]
    rcases midpoint_cases q true .reg1 x y with h | ⟨ex, h⟩
    · rw [h, hmid]
      simp only [Searched.ok_bind]
      split_ifs
      · exact ih hx (.inr rfl)
      · exact ih (.inr (by decide)) hy
    · rw [h]
      intro hr
      cases hr

theorem boundLoop_min_bit (htyp : e.typ = .reg1)
    (hvalid : q.checkValid (.binOp .sle (.int .reg1 1) e) = true) {x : I64}
    (hx : x = -1 ∨ x = 1) (n : ℕ) (r : I64) :
    q.boundLoop e true false n x 5 ≠ .ok r := by
  induction n generalizing x with
  | zero =>
    intro h
    cases h
  | succ n ih =>
    have hne : x ≠ 5 := by
      rcases hx with rfl | rfl <;> decide
    have hmid : zx .reg1 (sx .reg1 x + halfRounded false
        (sx .reg1 5 - sx .reg1 x)) = 1 := by
      rcases hx with rfl | rfl <;> decide
    have hassert : q.gAssert (true || decide (I64.ucompare x 5 ≤ 0)) = .ok () :=
      gAssert_ok rfl
    rw [BoundQueries.boundLoop, hassert, htyp]
    simp only [Searched.ok_bind, if_neg hne, if_true, Bool.false_eq_true,
      if_false]
    rcases midpoint_cases q false .reg1 x 5 with h | ⟨ex, h⟩
    · rw [h, hmid]
      simp only [Searched.ok_bind, hvalid, if_true]
      exact ih (.inr rfl)
    · rw [h]
      intro hr
      cases hr

theorem findBound_bit (hsolves : q.Solves PC) (he : e.WellTyped)
    (hb : IsBound PC e true isMax b) (htyp : e.typ = .reg1) (n : ℕ) (r : I64) :
    q.findBound (.const 5) n e true isMax ≠ .ok r := by
  unfold BoundQueries.findBound
  rw [htyp]
  change q.boundLoop e true isMax n (-1) 5 ≠ _
  cases isMax with
  | true => exact boundLoop_max_bit htyp (.inl rfl) (.inl rfl) n r
  | false =>
    have hwidth : e.width = 1 := by
      rw [Exp.width, htyp]
      rfl
    have hM : Within true e.width (-1) := by
      rw [hwidth]
      exact ⟨by norm_num, by norm_num⟩
    have hvalid := (checkValid_min hsolves he hb hM).mpr (by
      have h := hb.within.1
      rw [hwidth] at h
      norm_num at h
      exact h)
    rw [hwidth, htyp] at hvalid
    exact boundLoop_min_bit htyp hvalid (.inl rfl) n r

end Exact

section Claim

variable {q : BoundQueries} {PC : Valuation μ → Prop} {e : Exp}
  {isSigned isMax : Bool}

/-- The search ends with the exact bound, except for one signed bit and for a
signed maximum below 64 bits that is the minimum of the type. -/
theorem findBound_exact_iff (hsolves : q.Solves PC) (he : e.WellTyped)
    (hPC : ∃ ρ, PC ρ) :
    (∀ wild, ∃ n r, q.findBound wild n e isSigned isMax = .ok r ∧
      IsBound PC e isSigned isMax (number isSigned (r.setWidth e.width))) ↔
    (isSigned = true → e.typ ≠ .reg1 ∧
      ¬(isMax = true ∧ e.width < 64 ∧
        ∀ ρ, PC ρ → (e.eval ρ e.width).toInt = -2 ^ (e.width - 1))) := by
  obtain ⟨b, hb⟩ := exists_isBound hPC e isSigned isMax
  constructor
  · intro h hsigned
    subst hsigned
    have hwide : e.typ ≠ .reg1 := by
      intro htyp
      obtain ⟨n, r, hr, -⟩ := h (.const 5)
      exact findBound_bit hsolves he hb htyp n r hr
    constructor
    · exact hwide
    · intro ⟨hmax, hnarrow, hall⟩
      subst hmax
      have hleast : IsBound PC e true true (-2 ^ (e.width - 1)) := by
        obtain ⟨ρ, hρ⟩ := hPC
        exact ⟨⟨ρ, hρ, hall ρ hρ⟩, fun ρ hρ => (hall ρ hρ).le⟩
      obtain ⟨n, r, hr, -⟩ := h (.const 5)
      rw [findBound_stuck _ hsolves he hleast hwide hnarrow n] at hr
      cases hr
  · intro h wild
    have hform : isMax = true →
        BitVec.ofInt 64 (lowest isSigned e.width) =
          image e.width (lowest isSigned e.width) ∨
        lowest isSigned e.width < b := by
      intro hmax
      subst hmax
      cases isSigned with
      | false =>
        exact .inl (ofInt_zeroExtend e.width_le (within_lowest false _)).symm
      | true =>
        by_cases hnarrow : e.width < 64
        · right
          apply lt_of_le_of_ne hb.within.between_limits.1
          intro heq
          apply (h rfl).2
          refine ⟨rfl, hnarrow, ?_⟩
          intro ρ hρ
          apply le_antisymm
          · exact (hb.extreme ρ hρ).trans_eq heq.symm
          · exact (within_number true (e.eval ρ e.width)).1
        · have hfull : e.width = 64 := le_antisymm e.width_le (by omega)
          left
          rw [hfull, image, BitVec.setWidth_eq]
    have hfound := findBound_eq wild hsolves he hb (fun hs => (h hs).1) hform
    refine ⟨66, image e.width b, hfound, ?_⟩
    rw [setWidth_image e.width_le, number_ofInt he.width_pos hb.within]
    exact hb

end Claim

/-! ## A byte with the sign bit -/

section SignByte

def signByte : Exp := .temp ⟨0, [], .reg8⟩

/-- The only value is the minimum of a signed byte. -/
def OnlySign (ρ : Valuation Unit) : Prop := signByte.eval ρ 8 = 0x80

open Classical in
noncomputable def signQueries : BoundQueries where
  strict := true
  checkValid c := decide (∀ ρ, OnlySign ρ → c.eval ρ 1 = 1)

theorem signQueries_solves : signQueries.Solves OnlySign := by
  classical
  intro c _ _
  exact decide_eq_true_iff

def signValuation : Valuation Unit where
  temp _ := 0x80
  mem _ := ()
  label _ := 0

theorem onlySign_signValuation : OnlySign signValuation := rfl

theorem signByte_wellTyped : signByte.WellTyped := trivial

theorem findBound_exact_sign :
    signQueries.Solves OnlySign ∧ signByte.WellTyped ∧ (∃ ρ, OnlySign ρ) ∧
    ∀ wild, ∃ n r, signQueries.findBound wild n signByte true false = .ok r ∧
      IsBound OnlySign signByte true false (number true (r.setWidth 8)) :=
  ⟨signQueries_solves, signByte_wellTyped,
    ⟨signValuation, onlySign_signValuation⟩,
    (findBound_exact_iff signQueries_solves signByte_wellTyped
      ⟨signValuation, onlySign_signValuation⟩).mpr
      fun _ => ⟨by decide, fun h => absurd h.1 (by decide)⟩⟩

/-- No number of rounds suffices. -/
theorem findBound_sign_endless :
    signQueries.Solves OnlySign ∧ signByte.WellTyped ∧ (∃ ρ, OnlySign ρ) ∧
    ∀ wild n r, signQueries.findBound wild n signByte true true ≠ .ok r := by
  refine ⟨signQueries_solves, signByte_wellTyped,
    ⟨signValuation, onlySign_signValuation⟩, ?_⟩
  intro wild n r hr
  have hall : ∀ ρ, OnlySign ρ → (signByte.eval ρ 8).toInt = -2 ^ 7 := by
    intro ρ hρ
    rw [hρ]
    decide
  have hb : IsBound OnlySign signByte true true (-2 ^ 7) :=
    ⟨⟨signValuation, onlySign_signValuation, hall _ onlySign_signValuation⟩,
      fun ρ hρ => (hall ρ hρ).le⟩
  have hstuck := findBound_stuck wild signQueries_solves signByte_wellTyped hb
    (by decide) (by decide) n
  rw [hstuck] at hr
  cases hr

end SignByte

end Fuzzball.Influence
