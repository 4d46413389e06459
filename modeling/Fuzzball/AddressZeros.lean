import Fuzzball.AddressWidths

/-!
# Low zeros of address expressions

`ctz` and `bitshift` of `sym_region_frag_machine.ml`: how many low bits of an
expression's value are zero.  The rule for casts takes a high cast for one that
keeps the low bits.  The numbers of zeros are not bounded by a width, so what
the analysis can count at an expression is given by a budget.
-/

namespace Fuzzball.SymRegion

open Vine MemoRecursion FormulaManager

variable {μ : Type} [VineMemory μ]

/-! ## Counting the zeros of a constant -/

/-- The loop of `ctz`, which halves the number of bits to look at in each
round; seven rounds are enough. -/
def ctzLoop : ℕ → I64 → OCaml ℤ
  | 0, _ => throw (.failure "Unexpected else case in ctz")
  | n + 1, i =>
    if i = 0 then pure 64
    else if i &&& 1 = 1 then pure 0
    else if i &&& 0xffffffff = 0 then do
      pure (32 + (← ctzLoop n (i.sshiftRight 32)))
    else if i &&& 0xffff = 0 then do
      pure (16 + (← ctzLoop n (i.sshiftRight 16)))
    else if i &&& 0xff = 0 then do pure (8 + (← ctzLoop n (i.sshiftRight 8)))
    else if i &&& 0xf = 0 then do pure (4 + (← ctzLoop n (i.sshiftRight 4)))
    else if i &&& 3 = 0 then do pure (2 + (← ctzLoop n (i.sshiftRight 2)))
    else if i &&& 1 = 0 then do pure (1 + (← ctzLoop n (i.sshiftRight 1)))
    else throw (.failure "Unexpected else case in ctz")

def ctz (i : I64) : OCaml ℤ := ctzLoop 7 i

section Ctz

/-- `n` rounds count the zeros of a number with one of its low `b` bits set. -/
def CountsIn (n b : ℕ) : Prop :=
  ∀ m, n ≤ m → ∀ i : I64, i.toNat % 2 ^ b ≠ 0 →
    ∃ k : ℕ, ctzLoop m i = .ok k ∧ k < b ∧ 2 ^ k ∣ i.toNat

theorem and_mask_eq_zero_iff (i mask : I64) (b : ℕ)
    (hmask : mask.toNat = 2 ^ b - 1) :
    i &&& mask = 0 ↔ i.toNat % 2 ^ b = 0 := by
  rw [← BitVec.toNat_inj, BitVec.toNat_and, hmask,
    Nat.and_two_pow_sub_one_eq_mod]
  rfl

theorem toNat_sshiftRight_mod (i : I64) {b k : ℕ} (h : k + b ≤ 64) :
    (i.sshiftRight k).toNat % 2 ^ b = i.toNat / 2 ^ k % 2 ^ b := by
  have hbits : (i.sshiftRight k).setWidth b = (i >>> k).setWidth b := by
    ext j hj
    simp only [BitVec.getElem_setWidth, BitVec.getLsbD_sshiftRight,
      BitVec.getLsbD_ushiftRight]
    simp [show k + j < 64 by omega, show j < 64 by omega]
  have hnat := congrArg BitVec.toNat hbits
  rwa [BitVec.toNat_setWidth, BitVec.toNat_setWidth, BitVec.toNat_ushiftRight,
    Nat.shiftRight_eq_div_pow] at hnat

theorem CountsIn.round {n b : ℕ} (h : CountsIn n b) (hb : b + b ≤ 64) {m : ℕ}
    (hm : n ≤ m) {i : I64} (hlow : i.toNat % 2 ^ b = 0)
    (hne : i.toNat % 2 ^ (b + b) ≠ 0) :
    ∃ k : ℕ, ctzLoop m (i.sshiftRight b) = .ok k ∧ b + k < b + b ∧
      2 ^ (b + k) ∣ i.toNat := by
  have hdvd : 2 ^ b ∣ i.toNat := Nat.dvd_of_mod_eq_zero hlow
  have hmul : i.toNat = 2 ^ b * (i.toNat / 2 ^ b) :=
    (Nat.mul_div_cancel' hdvd).symm
  have hshift := toNat_sshiftRight_mod i hb
  have hne' : (i.sshiftRight b).toNat % 2 ^ b ≠ 0 := by
    rw [hshift]
    intro h0
    apply hne
    rw [hmul, pow_add, Nat.mul_mod_mul_left, h0, Nat.mul_zero]
  obtain ⟨k, hk, hkb, hkd⟩ := h m hm _ hne'
  refine ⟨k, hk, by omega, ?_⟩
  rw [hmul, pow_add]
  apply Nat.mul_dvd_mul_left
  have hkd' : 2 ^ k ∣ (i.sshiftRight b).toNat % 2 ^ b :=
    (Nat.dvd_mod_iff (Nat.pow_dvd_pow 2 hkb.le)).mpr hkd
  rw [hshift] at hkd'
  exact (Nat.dvd_mod_iff (Nat.pow_dvd_pow 2 hkb.le)).mp hkd'

theorem countsIn_one : CountsIn 1 1 := by
  intro m hm i hi
  obtain ⟨m, rfl⟩ := Nat.exists_eq_add_of_le' hm
  have hodd : i &&& 1 = 1 := by
    have hnat : (i &&& 1).toNat = (1 : I64).toNat := by
      rw [BitVec.toNat_and]
      change i.toNat &&& (2 ^ 1 - 1) = 1
      rw [Nat.and_two_pow_sub_one_eq_mod]
      omega
    exact BitVec.eq_of_toNat_eq hnat
  have h0 : i ≠ 0 := by
    rintro rfl
    simp at hi
  refine ⟨0, ?_, by norm_num, one_dvd _⟩
  rw [ctzLoop, if_neg h0, if_pos hodd]
  rfl

/-- The last round that a number with zeros in its low `b` bits needs. -/
theorem CountsIn.next {n b : ℕ} (h : CountsIn n b) (hb : b + b ≤ 64)
    (hround : ∀ m (i : I64), i.toNat % 2 ^ b = 0 → i.toNat % 2 ^ (b + b) ≠ 0 →
      ctzLoop (m + 1) i =
        (do pure ((b : ℤ) + (← ctzLoop m (i.sshiftRight b))) : OCaml ℤ)) :
    CountsIn (n + 1) (b + b) := by
  intro m hm i hi
  obtain ⟨m, rfl⟩ := Nat.exists_eq_add_of_le' (Nat.le_of_add_left_le hm)
  by_cases hlow : i.toNat % 2 ^ b = 0
  · obtain ⟨k, hk, hkb, hkd⟩ := h.round hb (Nat.le_of_succ_le_succ hm) hlow hi
    refine ⟨b + k, ?_, hkb, hkd⟩
    rw [hround m i hlow hi, hk]
    rfl
  · obtain ⟨k, hk, hkb, hkd⟩ := h (m + 1) (Nat.le_of_succ_le hm) i hlow
    exact ⟨k, hk, by omega, hkd⟩

/-- The branch that the loop takes at a number with zeros in its low bits. -/
theorem ctzLoop_succ (m : ℕ) {i : I64} (h0 : i ≠ 0) (h1 : i.toNat % 2 ^ 1 = 0) :
    ctzLoop (m + 1) i =
      if i.toNat % 2 ^ 32 = 0 then do
        pure (32 + (← ctzLoop m (i.sshiftRight 32)))
      else if i.toNat % 2 ^ 16 = 0 then do
        pure (16 + (← ctzLoop m (i.sshiftRight 16)))
      else if i.toNat % 2 ^ 8 = 0 then do
        pure (8 + (← ctzLoop m (i.sshiftRight 8)))
      else if i.toNat % 2 ^ 4 = 0 then do
        pure (4 + (← ctzLoop m (i.sshiftRight 4)))
      else if i.toNat % 2 ^ 2 = 0 then do
        pure (2 + (← ctzLoop m (i.sshiftRight 2)))
      else (do pure (1 + (← ctzLoop m (i.sshiftRight 1)))) := by
  have heven : i &&& 1 = 0 := (and_mask_eq_zero_iff i 1 1 rfl).mpr h1
  have hodd : i &&& 1 ≠ 1 := by
    rw [heven]
    decide
  rw [ctzLoop, if_neg h0, if_neg hodd]
  simp only [and_mask_eq_zero_iff i 0xffffffff 32 rfl,
    and_mask_eq_zero_iff i 0xffff 16 rfl, and_mask_eq_zero_iff i 0xff 8 rfl,
    and_mask_eq_zero_iff i 0xf 4 rfl, and_mask_eq_zero_iff i 3 2 rfl,
    if_pos heven]

theorem mod_two_pow_eq_zero {n a b : ℕ} (hab : a ≤ b) (h : n % 2 ^ b = 0) :
    n % 2 ^ a = 0 := Nat.mod_eq_zero_of_dvd
  ((Nat.pow_dvd_pow 2 hab).trans (Nat.dvd_of_mod_eq_zero h))

/-- `ctz` returns the number of low zeros that a number has at most. -/
theorem ctz_spec (i : I64) :
    ∃ k : ℕ, ctz i = .ok k ∧ k ≤ 64 ∧ 2 ^ k ∣ i.toNat := by
  have hne : ∀ {i : I64} {b : ℕ}, i.toNat % 2 ^ b ≠ 0 → i ≠ 0 := by
    rintro _ _ h rfl
    exact h (Nat.zero_mod _)
  have h2 : CountsIn 2 2 := countsIn_one.next (by norm_num) fun m i h h' => by
    rw [ctzLoop_succ m (hne h') h,
      if_neg fun h => h' (mod_two_pow_eq_zero (by norm_num) h),
      if_neg fun h => h' (mod_two_pow_eq_zero (by norm_num) h),
      if_neg fun h => h' (mod_two_pow_eq_zero (by norm_num) h),
      if_neg fun h => h' (mod_two_pow_eq_zero (by norm_num) h), if_neg h']
    rfl
  have h4 : CountsIn 3 4 := h2.next (by norm_num) fun m i h h' => by
    rw [ctzLoop_succ m (hne h') (mod_two_pow_eq_zero (by norm_num) h),
      if_neg fun h => h' (mod_two_pow_eq_zero (by norm_num) h),
      if_neg fun h => h' (mod_two_pow_eq_zero (by norm_num) h),
      if_neg fun h => h' (mod_two_pow_eq_zero (by norm_num) h), if_neg h',
      if_pos h]
    rfl
  have h8 : CountsIn 4 8 := h4.next (by norm_num) fun m i h h' => by
    rw [ctzLoop_succ m (hne h') (mod_two_pow_eq_zero (by norm_num) h),
      if_neg fun h => h' (mod_two_pow_eq_zero (by norm_num) h),
      if_neg fun h => h' (mod_two_pow_eq_zero (by norm_num) h), if_neg h',
      if_pos h]
    rfl
  have h16 : CountsIn 5 16 := h8.next (by norm_num) fun m i h h' => by
    rw [ctzLoop_succ m (hne h') (mod_two_pow_eq_zero (by norm_num) h),
      if_neg fun h => h' (mod_two_pow_eq_zero (by norm_num) h), if_neg h',
      if_pos h]
    rfl
  have h32 : CountsIn 6 32 := h16.next (by norm_num) fun m i h h' => by
    rw [ctzLoop_succ m (hne h') (mod_two_pow_eq_zero (by norm_num) h),
      if_neg h', if_pos h]
    rfl
  have h64 : CountsIn 7 64 := h32.next (by norm_num) fun m i h h' => by
    rw [ctzLoop_succ m (hne h') (mod_two_pow_eq_zero (by norm_num) h),
      if_pos h]
    rfl
  by_cases hi : i = 0
  · subst hi
    exact ⟨64, rfl, le_rfl, dvd_zero _⟩
  · have hmod : i.toNat % 2 ^ 64 ≠ 0 := by
      rw [Nat.mod_eq_of_lt i.isLt]
      exact fun h => hi (BitVec.eq_of_toNat_eq h)
    obtain ⟨k, hk, hlt, hdvd⟩ := h64 7 le_rfl i hmod
    exact ⟨k, hk, hlt.le, hdvd⟩

end Ctz

/-! ## The analysis -/

/-- The function `f` of `bitshift`. -/
def bitshiftBody : Exp → Analysis ℤ
  | .constant (.int _ v) => .ofExcept (ctz v)
  | .binOp .bitand e1 e2 => both max e1 e2
  | .binOp .bitor e1 e2 => both min e1 e2
  | .binOp .lshift e1 (.constant (.int _ v)) => do
    pure (addInt (← Body.loop e1) v.toOCamlInt)
  | .binOp .times e1 e2 => both addInt e1 e2
  | .binOp .plus e1 e2 => both min e1 e2
  | .cast _ .reg32 e1 => do pure (min 32 (← Body.loop e1))
  | .cast _ .reg16 e1 => do pure (min 16 (← Body.loop e1))
  | .cast _ .reg8 e1 => do pure (min 8 (← Body.loop e1))
  | .cast _ .reg1 e1 => do pure (min 1 (← Body.loop e1))
  | .ite _ te fe => both min te fe
  | _ => pure 0

/-- `bitshift`, as the recursion that it is. -/
def bitshift (defs : Definitions) : Scheme Exp ℤ ℤ Exn :=
  mapExprTemp defs bitshiftBody fun wd res => min wd res

/-- The operands that `bitshift` walks into. -/
def bitshiftReads : Exp → List Exp
  | .binOp .bitand e1 e2 | .binOp .bitor e1 e2 | .binOp .times e1 e2
  | .binOp .plus e1 e2 => [e1, e2]
  | .binOp .lshift e1 (.constant (.int _ _)) => [e1]
  | .cast _ t e1 => if t = .reg64 then [] else [e1]
  | .ite _ te fe => [te, fe]
  | _ => []

theorem bitshiftReads_operands (e : Exp) :
    ∀ d ∈ bitshiftReads e, d ∈ e.operands := by
  intro d hd
  unfold bitshiftReads at hd
  split at hd <;> simp_all [Exp.operands]

section Zeros

variable {defs : Definitions} {ρ : Valuation μ} {n n1 n2 w : ℕ}
  {e e1 e2 : Exp}

theorem two_pow_dvd_mod {x : ℕ} (h : 2 ^ n ∣ x) : 2 ^ n ∣ x % 2 ^ w := by
  by_cases hn : n ≤ w
  · exact (Nat.dvd_mod_iff (Nat.pow_dvd_pow 2 hn)).mpr h
  · have hw : 2 ^ w ∣ x := (Nat.pow_dvd_pow 2 (not_le.mp hn).le).trans h
    rw [Nat.mod_eq_zero_of_dvd hw]
    exact dvd_zero _

theorem two_pow_dvd_and_left {x y : ℕ} (h : 2 ^ n ∣ x) : 2 ^ n ∣ x &&& y := by
  apply Nat.dvd_of_mod_eq_zero
  rw [Nat.and_mod_two_pow, Nat.mod_eq_zero_of_dvd h, Nat.zero_and]

theorem two_pow_dvd_or {x y : ℕ} (hx : 2 ^ n ∣ x) (hy : 2 ^ n ∣ y) :
    2 ^ n ∣ x ||| y := by
  apply Nat.dvd_of_mod_eq_zero
  rw [Nat.or_mod_two_pow, Nat.mod_eq_zero_of_dvd hx, Nat.mod_eq_zero_of_dvd hy]
  rfl

/-- An extension by the sign keeps the low zeros. -/
theorem two_pow_dvd_signExtend {m : ℕ} (x : BitVec w) (hwm : w ≤ m)
    (h : 2 ^ n ∣ x.toNat) : 2 ^ n ∣ (x.signExtend m).toNat := by
  by_cases hx : x = 0
  · subst hx
    rw [BitVec.toNat_signExtend]
    simp
  · have hpos : 0 < x.toNat :=
      Nat.pos_of_ne_zero fun h0 => hx (BitVec.eq_of_toNat_eq h0)
    have hn : n < w := by
      by_contra hwn
      have hle := Nat.le_of_dvd hpos h
      have hpow := Nat.pow_le_pow_right (show 0 < 2 by norm_num) (not_lt.mp hwn)
      have hlt := x.isLt
      omega
    rw [BitVec.toNat_signExtend, BitVec.toNat_setWidth]
    apply Nat.dvd_add (two_pow_dvd_mod h)
    split_ifs
    · exact Nat.dvd_sub (Nat.pow_dvd_pow 2 (hn.le.trans hwm))
        (Nat.pow_dvd_pow 2 hn.le)
    · exact dvd_zero _

/-- The budget `z` allows for the zeros that the rule at `e` counts, and a high
cast keeps as many as it allows for. -/
structure CountsZeros (defs : Definitions) (ρ : Valuation μ) (z : Exp → ℕ)
    (e : Exp) : Prop where
  operand : ∀ d ∈ bitshiftReads e, z d ≤ z e
  definition : ∀ v d, e = .temp v → defs.exprTemp v.id = some d → z d ≤ z e
  constant : ∀ t v, e = .int t v → ∀ k ≤ 64, 2 ^ k ∣ v.toNat → k ≤ z e
  lshift : ∀ e1 t v, e = .binOp .lshift e1 (.int t v) →
    v.toNat < 2 ^ t.width ∧ z e1 + v.toNat ≤ z e
  times : ∀ e1 e2, e = .binOp .times e1 e2 → z e1 + z e2 ≤ z e
  high : ∀ t e1, e = .cast .castHigh t e1 → t ≠ .reg64 →
    2 ^ min t.width (z e1) ∣ e.unsigned ρ

/-- `n` low bits are zero, and the budget allows for them. -/
def Zeros (ρ : Valuation μ) (z : Exp → ℕ) (e : Exp) (r : ℤ) : Prop :=
  ∃ n : ℕ, r = n ∧ n ≤ z e ∧ 2 ^ n ∣ e.unsigned ρ

variable {z : Exp → ℕ}

theorem Zeros.zero : Zeros ρ z e 0 := ⟨0, rfl, Nat.zero_le _, one_dvd _⟩

theorem meetsZeros_min (h1 : e1 ∈ bitshiftReads e) (h2 : e2 ∈ bitshiftReads e)
    (hz : ∀ d ∈ bitshiftReads e, z d ≤ z e)
    (hv : ∀ n, 2 ^ n ∣ e1.unsigned ρ → 2 ^ n ∣ e2.unsigned ρ →
      2 ^ n ∣ e.unsigned ρ) :
    (both min e1 e2).Meets (· ∈ bitshiftReads e) (Zeros ρ z)
      (Zeros ρ z e) := by
  apply meets_both h1 h2
  rintro _ _ ⟨n1, rfl, hn1, hd1⟩ ⟨n2, rfl, hn2, hd2⟩
  have hle := hz e1 h1
  refine ⟨min n1 n2, by push_cast; rfl, by omega, hv _ ?_ ?_⟩
  · exact (Nat.pow_dvd_pow 2 (min_le_left _ _)).trans hd1
  · exact (Nat.pow_dvd_pow 2 (min_le_right _ _)).trans hd2

theorem meetsZeros_cast {t : Typ} (h1 : e1 ∈ bitshiftReads e)
    (hz : z e1 ≤ z e)
    (hv : ∀ n ≤ z e1, 2 ^ n ∣ e1.unsigned ρ →
      2 ^ min t.width n ∣ e.unsigned ρ) :
    (do pure (min (t.width : ℤ) (← Body.loop e1)) : Analysis ℤ).Meets
      (· ∈ bitshiftReads e) (Zeros ρ z) (Zeros ρ z e) := by
  apply meets_loop h1
  rintro _ ⟨n1, rfl, hn1, hd1⟩
  exact ⟨min t.width n1, by push_cast; rfl, by omega, hv n1 hn1 hd1⟩

theorem bitshiftBody_lshift (h : ∀ t v, e2 ≠ .int t v) :
    bitshiftBody (.binOp .lshift e1 e2) = pure 0 := by
  cases e2 with
  | constant v =>
    cases v with
    | int t i => exact absurd rfl (h t i)
    | str s => rfl
  | _ => rfl

theorem bitshiftBody_meets (he : e.WellTyped) (hc : CountsZeros defs ρ z e)
    (hlt : z e < 2 ^ 62) :
    (bitshiftBody e).Meets (· ∈ bitshiftReads e) (Zeros ρ z) (Zeros ρ z e) := by
  have hz := hc.operand
  cases e with
  | binOp op e1 e2 =>
    obtain ⟨-, -, hadm⟩ := id he
    cases op with
    | bitand =>
      apply meets_both (by simp [bitshiftReads]) (by simp [bitshiftReads])
      rintro _ _ ⟨n1, rfl, hn1, hd1⟩ ⟨n2, rfl, hn2, hd2⟩
      have hz1 := hz e1 (by simp [bitshiftReads])
      have hz2 := hz e2 (by simp [bitshiftReads])
      refine ⟨max n1 n2, by push_cast; rfl, by omega, ?_⟩
      rw [unsigned_bitand hadm]
      rcases max_choice n1 n2 with h | h <;> rw [h]
      · exact two_pow_dvd_and_left hd1
      · rw [Nat.and_comm]
        exact two_pow_dvd_and_left hd2
    | bitor =>
      apply meetsZeros_min (by simp [bitshiftReads])
        (by simp [bitshiftReads]) hz
      intro n h1 h2
      rw [unsigned_bitor hadm]
      exact two_pow_dvd_or h1 h2
    | plus =>
      apply meetsZeros_min (by simp [bitshiftReads])
        (by simp [bitshiftReads]) hz
      intro n h1 h2
      rw [unsigned_plus hadm]
      exact two_pow_dvd_mod (Nat.dvd_add h1 h2)
    | times =>
      have hsum := hc.times e1 e2 rfl
      apply meets_both (by simp [bitshiftReads]) (by simp [bitshiftReads])
      rintro _ _ ⟨n1, rfl, hn1, hd1⟩ ⟨n2, rfl, hn2, hd2⟩
      refine ⟨n1 + n2, addInt_natCast (by omega), by omega, ?_⟩
      rw [unsigned_times hadm]
      apply two_pow_dvd_mod
      rw [pow_add]
      exact Nat.mul_dvd_mul hd1 hd2
    | lshift =>
      rcases count_cases e2 with ⟨t, v, rfl⟩ | hother
      · obtain ⟨hfit, hsum⟩ := hc.lshift e1 t v rfl
        refine meets_loop (by simp [bitshiftReads]) ?_
        rintro _ ⟨n1, rfl, hn1, hd1⟩
        refine ⟨n1 + v.toNat, ?_, by omega, ?_⟩
        · rw [I64.toOCamlInt_of_lt (by omega)]
          exact addInt_natCast (by omega)
        · rw [unsigned_lshift, unsigned_int, Nat.mod_eq_of_lt hfit]
          apply two_pow_dvd_mod
          rw [pow_add]
          exact Nat.mul_dvd_mul hd1 dvd_rfl
      · rw [bitshiftBody_lshift hother]
        exact .zero
    | _ => exact Zeros.zero
  | constant v =>
    cases v with
    | int t i =>
      obtain ⟨k, hk, hle, hdvd⟩ := ctz_spec i
      refine Body.Meets.ofExcept hk ⟨k, rfl, hc.constant t i rfl k hle hdvd, ?_⟩
      rw [unsigned_int]
      exact two_pow_dvd_mod hdvd
    | str s => exact he.elim
  | cast ct t e1 =>
    obtain ⟨-, ht, hadm⟩ := id he
    have hv : t ≠ .reg64 → ∀ n ≤ z e1, 2 ^ n ∣ e1.unsigned ρ →
        2 ^ min t.width n ∣ (Exp.cast ct t e1).unsigned ρ := by
      intro hne n hn hd
      have hmin := (Nat.pow_dvd_pow 2 (min_le_right t.width n)).trans hd
      cases ct with
      | castUnsigned =>
        rw [unsigned_castUnsigned]
        exact two_pow_dvd_mod hmin
      | castLow =>
        rw [unsigned_castLow]
        exact two_pow_dvd_mod hmin
      | castSigned => exact two_pow_dvd_signExtend _ hadm hmin
      | castHigh =>
        refine (Nat.pow_dvd_pow 2 ?_).trans (hc.high t e1 rfl hne)
        omega
    cases t with
    | reg64 => exact Zeros.zero
    | reg1 | reg8 | reg16 | reg32 =>
      exact meetsZeros_cast (by simp [bitshiftReads])
        (hz e1 (by simp [bitshiftReads])) (hv nofun)
    | _ => exact ht.elim
  | ite cond e1 e2 =>
    obtain ⟨-, -, -, -, htyp⟩ := id he
    apply meetsZeros_min (by simp [bitshiftReads]) (by simp [bitshiftReads]) hz
    intro n h1 h2
    rw [unsigned_ite htyp]
    split_ifs
    · exact h1
    · exact h2
  | _ => exact Zeros.zero

theorem zeros_definition {v : Var} {d : Exp} {r : ℤ} (hρ : defs.Holds ρ)
    (hd : defs.exprTemp v.id = some d) (ht : d.typ = v.typ)
    (hz : z d ≤ z (.temp v)) (h : Zeros ρ z d r) :
    Zeros ρ z (.temp v) r ∧ Zeros ρ z (.temp v) (min v.typ.width r) := by
  obtain ⟨n, rfl, hn, hdvd⟩ := h
  rw [← hρ.unsigned hd ht] at hdvd
  refine ⟨⟨n, rfl, hn.trans hz, hdvd⟩, min v.typ.width n, by push_cast; rfl,
    by omega, ?_⟩
  exact (Nat.pow_dvd_pow 2 (min_le_right _ _)).trans hdvd

theorem CountsZeros.le {d : Exp}
    (hz : ∀ d, Walks defs bitshiftReads e d → CountsZeros defs ρ z d)
    (h : Walks defs bitshiftReads e d) : z d ≤ z e := by
  induction h with
  | here => exact le_rfl
  | operand hd h ih =>
    refine (ih fun d' hd' => hz d' (.operand hd hd')).trans ?_
    exact (hz _ (.here _)).operand _ hd
  | definition hd h ih =>
    refine (ih fun d' hd' => hz d' (.definition hd hd')).trans ?_
    exact (hz _ (.here _)).definition _ _ rfl hd

theorem bitshift_zeros (hdefs : defs.Typed) (he : e.WellTyped)
    (ha : defs.Agrees e) (hρ : defs.Holds ρ)
    (hz : ∀ d, Walks defs bitshiftReads e d → CountsZeros defs ρ z d)
    (hlt : z e < 2 ^ 62) :
    ∃ r, (bitshift defs).Returns e r ∧ Zeros ρ z e r := by
  have htyped := fun d (hd : Walks defs bitshiftReads e d) =>
    hd.typed bitshiftReads_operands hdefs he ha
  apply mapExprTemp_returns
    (L := fun d => d.WellTyped ∧ defs.Agrees d ∧ CountsZeros defs ρ z d ∧
      z d < 2 ^ 62) (Q := Zeros ρ z) bitshiftReads_operands
  · intro d hd _
    exact bitshiftBody_meets hd.1 hd.2.2.1 hd.2.2.2
  · intro v d r hv hd hr
    have ht : d.typ = v.typ := hv.2.1 v (by simp [Exp.vars]) d hd
    exact zeros_definition hρ hd ht (hv.2.2.1.definition v d rfl hd) hr
  · intro d hd
    obtain ⟨h1, h2⟩ := htyped d hd
    exact ⟨h1, h2, hz d hd, (CountsZeros.le hz hd).trans_lt hlt⟩

/-- The low byte of an index times four. -/
def scaledIndex : Exp :=
  .cast .castLow .reg8
    (.binOp .lshift (.temp ⟨0, [], .reg32⟩) (.int .reg8 2))

theorem walks_scaledIndex {d : Exp}
    (h : Walks .none bitshiftReads scaledIndex d) :
    d ∈ [scaledIndex, .binOp .lshift (.temp ⟨0, [], .reg32⟩) (.int .reg8 2),
      .temp ⟨0, [], .reg32⟩] := by
  apply h.mem
  · simp
  · simp [scaledIndex, bitshiftReads]
  · intro v hv d hd
    cases hd

/-- A budget of two zeros, except for the index itself. -/
def scaledIndexZeros (d : Exp) : ℕ :=
  if d = .temp ⟨0, [], .reg32⟩ then 0 else 2

theorem countsZeros_scaledIndex {d : Exp}
    (h : Walks .none bitshiftReads scaledIndex d) :
    CountsZeros .none Valuation.zero scaledIndexZeros d := by
  have hmem := walks_scaledIndex h
  simp only [List.mem_cons, List.not_mem_nil, or_false] at hmem
  constructor
  · rcases hmem with rfl | rfl | rfl <;> decide
  · intro v d' _ hd
    cases hd
  · rcases hmem with rfl | rfl | rfl <;> simp [scaledIndex]
  · rcases hmem with rfl | rfl | rfl <;>
      simp [scaledIndex, scaledIndexZeros, Typ.width]
  · rcases hmem with rfl | rfl | rfl <;> simp [scaledIndex]
  · rcases hmem with rfl | rfl | rfl <;> simp [scaledIndex]

/-- The high byte of 256. -/
def highByte : Exp := .cast .castHigh .reg8 (.int .reg16 0x100)

end Zeros

end Fuzzball.SymRegion
