import Fuzzball.ExprTemps

/-!
# Random values for missing memory

The generators that `on_missing_random` of `sym_path_frag_machine.ml` installs.
The random source is the sequence of the answers of `random_case_split`; a
recursion that has no end has no result with any fuel.
-/

namespace Fuzzball.MissingRandom

abbrev RandomSource := ℕ → Bool

/-- A value with the source that is left, an exception, or `none` when the fuel
is spent. -/
abbrev Generator (α : Type) := StateT RandomSource (Except (Option Exn)) α

def randomCaseSplit : Generator Bool := fun src =>
  .ok (src 0, fun i => src (i + 1))

/-- The recursive call is `random_int width`, from which one is subtracted. -/
def randomInt : ℕ → ℤ → Generator ℤ
  | 0, _ => throw none
  | n + 1, width =>
    if width = 0 then pure 0
    else do
      let b ← randomCaseSplit
      let v ← randomInt n width
      pure (OCaml.wrapInt (2 * (v - 1) + if b then 1 else 0))

def randomInt64 : ℕ → ℤ → Generator I64
  | 0, _ => throw none
  | n + 1, width =>
    if width = 0 then pure 0
    else do
      let b ← randomCaseSplit
      let v ← randomInt64 n (width - 1)
      pure (2 * v + if b then 1 else 0)

/-- The function given to `on_missing`. -/
def missingRandom (n : ℕ) (size : ℤ) : Generator I64 :=
  if size = 8 ∨ size = 16 then I64.ofInt <$> randomInt n size
  else if size = 32 ∨ size = 64 then randomInt64 n size
  else throw (some (.failure "Bad size in on_missing_random"))

/-! ## Numbers of random bits -/

/-- The number of the first `w` bits, the lowest one first. -/
def bitsNumber : ℕ → RandomSource → ℕ
  | 0, _ => 0
  | w + 1, src => 2 * bitsNumber w (fun i => src (i + 1)) + (src 0).toNat

theorem bitsNumber_lt (w : ℕ) (src : RandomSource) :
    bitsNumber w src < 2 ^ w := by
  induction w generalizing src with
  | zero => exact Nat.one_pos
  | succ w ih =>
    have hrest := ih fun i => src (i + 1)
    have hbit := Bool.toNat_lt (src 0)
    rw [bitsNumber, pow_succ]
    omega

/-- Every number comes from its own bits. -/
theorem bitsNumber_testBit (w x : ℕ) (h : x < 2 ^ w) :
    bitsNumber w x.testBit = x := by
  induction w generalizing x with
  | zero =>
    rw [pow_zero] at h
    exact (Nat.lt_one_iff.mp h).symm
  | succ w ih =>
    rw [pow_succ] at h
    have hrest := ih (x / 2) (by omega)
    have hshift : (fun i => x.testBit (i + 1)) = (x / 2).testBit := by
      funext i
      exact Nat.testBit_succ x i
    have hbit : (x.testBit 0).toNat = x % 2 := by
      rw [Nat.testBit_zero]
      rcases Nat.mod_two_eq_zero_or_one x with hx | hx <;> simp [hx]
    rw [bitsNumber, hshift, hrest, hbit]
    omega

/-- With fuel for its rounds the recursion returns the number of the bits that
it draws. -/
theorem randomInt64_eq (w : ℕ) (src : RandomSource) :
    randomInt64 (w + 1) w src =
      .ok (BitVec.ofNat 64 (bitsNumber w src), fun i => src (i + w)) := by
  induction w generalizing src with
  | zero => rfl
  | succ w ih =>
    have hne : ((w + 1 : ℕ) : ℤ) ≠ 0 := by omega
    have hpred : ((w + 1 : ℕ) : ℤ) - 1 = w := by omega
    have hrest := ih fun i => src (i + 1)
    rw [randomInt64, if_neg hne, hpred]
    change (randomInt64 (w + 1) w fun i => src (i + 1)).bind _ = _
    rw [hrest, bitsNumber]
    refine congrArg Except.ok (Prod.ext ?_ ?_)
    · cases src 0
      · exact BitVec.eq_of_toNat_eq (by simp)
      · exact BitVec.eq_of_toNat_eq (by simp [Nat.add_mod])
    · funext i
      exact congrArg src (by omega)

/-- A call of `random_int` at a width that is not zero calls itself at the same
width. -/
theorem randomInt_diverges (n : ℕ) {width : ℤ} (h : width ≠ 0)
    (src : RandomSource) : randomInt n width src = .error none := by
  induction n generalizing src with
  | zero => rfl
  | succ n ih =>
    have hrest := ih fun i => src (i + 1)
    rw [randomInt, if_neg h]
    change (randomInt n width fun i => src (i + 1)).bind _ = _
    rw [hrest]
    rfl

/-! ## The generators -/

/-- From every source a value of `w` bits is returned, and every such value is
returned from some source. -/
structure Generates (w : ℕ) : Prop where
  returns : ∀ src, ∃ n v src', missingRandom n w src = .ok (v, src') ∧
    v.toNat < 2 ^ w
  attains : ∀ x < 2 ^ w, ∃ src n v src',
    missingRandom n w src = .ok (v, src') ∧ v.toNat = x

theorem generates_of_wide {w : ℕ} (hw : w = 32 ∨ w = 64) : Generates w := by
  have hsize : ¬((w : ℤ) = 8 ∨ (w : ℤ) = 16) := by omega
  have hwide : (w : ℤ) = 32 ∨ (w : ℤ) = 64 := by omega
  have hrun : ∀ src, missingRandom (w + 1) w src =
      .ok (BitVec.ofNat 64 (bitsNumber w src), fun i => src (i + w)) := by
    intro src
    rw [missingRandom, if_neg hsize, if_pos hwide, randomInt64_eq]
  have hvalue : ∀ src,
      (BitVec.ofNat 64 (bitsNumber w src)).toNat = bitsNumber w src := by
    intro src
    have hlt := bitsNumber_lt w src
    have hle : 2 ^ w ≤ 2 ^ 64 := Nat.pow_le_pow_right (by norm_num) (by omega)
    rw [BitVec.toNat_ofNat, Nat.mod_eq_of_lt (hlt.trans_le hle)]
  constructor
  · intro src
    refine ⟨w + 1, _, _, hrun src, ?_⟩
    rw [hvalue]
    exact bitsNumber_lt w src
  · intro x hx
    refine ⟨x.testBit, w + 1, _, _, hrun _, ?_⟩
    rw [hvalue, bitsNumber_testBit w x hx]

/-- The generators are those of 32 and of 64 bits; the narrower ones never
return. -/
theorem generates_iff (w : ℕ) : Generates w ↔ w = 32 ∨ w = 64 := by
  constructor
  · rintro ⟨hreturns, -⟩
    obtain ⟨n, v, src', hrun, -⟩ := hreturns fun _ => false
    unfold missingRandom at hrun
    split_ifs at hrun with hnarrow hwide
    · have hne : (w : ℤ) ≠ 0 := by omega
      change (randomInt n w fun _ => false).bind _ = _ at hrun
      rw [randomInt_diverges n hne] at hrun
      cases hrun
    · omega
    · cases hrun
  · exact generates_of_wide

/-- A missing byte is computed for ever. -/
theorem missing_byte_endless :
    (∀ n src, missingRandom n 8 src = .error none) ∧ ¬Generates 8 := by
  have hnone : ∀ n src, missingRandom n 8 src = .error none := by
    intro n src
    have hne : (8 : ℤ) ≠ 0 := by norm_num
    rw [missingRandom, if_pos (.inl rfl)]
    change (randomInt n 8 src).bind _ = _
    rw [randomInt_diverges n hne]
    rfl
  refine ⟨hnone, ?_⟩
  rintro ⟨hreturns, -⟩
  obtain ⟨n, v, src', hrun, -⟩ := hreturns fun _ => false
  cases (hnone n _).symm.trans hrun

end Fuzzball.MissingRandom
