import Mathlib.Data.BitVec
import Mathlib.Tactic

/-!
# The OCaml values the sources compute with

Machine integers, byte strings and exceptions of the host language.  An
`int64` is a 64-bit vector; `Int64.add`, `sub`, `mul`, `neg`, `logand`,
`logor`, `logxor` and `lognot` are the operators of `BitVec 64`.  A shift by a
count outside `[0, 63]` is left unspecified by the OCaml manual, so every
function that shifts takes a `WildShift`, the answers of the platform it runs
on, and results about such a function quantify over it.
-/

namespace Fuzzball

/-- An OCaml string: a sequence of bytes. -/
abbrev OString := List UInt8

/-- The bytes of an ASCII literal. -/
def OString.ofAscii (s : String) : OString :=
  s.toList.map fun c => UInt8.ofNat c.toNat

/-- A byte string as text, one character for each byte. -/
def OString.toText (s : OString) : String :=
  String.ofList (s.map fun b => Char.ofNat b.toNat)

/-- The exceptions the modelled functions raise. -/
inductive Exn
  | failure (message : String)
  | invalidArgument (message : String)
  | typeError (message : String)
  | divisionByZero
  | assertFailure
  | floatingPoint
  deriving DecidableEq, Repr

/-- The result of an OCaml function that may raise. -/
abbrev OCaml := Except Exn

/-! ## Results of lists -/

section Results

variable {ε α β : Type}

theorem of_bind_eq_ok {x : Except ε α} {f : α → Except ε β} {b : β}
    (h : x >>= f = .ok b) : ∃ a, x = .ok a ∧ f a = .ok b := by
  cases x with
  | error r => cases h
  | ok a => exact ⟨a, rfl, h⟩

theorem forall₂_of_mapM {f : α → Except ε β} {l : List α} {ys : List β}
    (h : l.mapM f = .ok ys) : List.Forall₂ (fun x y => f x = .ok y) l ys := by
  induction l generalizing ys with
  | nil =>
    obtain rfl := Except.ok.inj h
    exact .nil
  | cons x l ih =>
    rw [List.mapM_cons] at h
    obtain ⟨y, hy, h⟩ := of_bind_eq_ok h
    obtain ⟨ys', hys, h⟩ := of_bind_eq_ok h
    obtain rfl := Except.ok.inj h
    exact .cons hy (ih hys)

/-- What holds of the elements in their order. -/
theorem getElem_of_mapM_range {f : ℕ → Except ε β} {n : ℕ} {ys : List β}
    (h : (List.range n).mapM f = .ok ys) :
    ys.length = n ∧ ∀ (i : ℕ) (hi : i < ys.length), f i = .ok ys[i] := by
  have hall := List.forall₂_iff_get.mp (forall₂_of_mapM h)
  have hlen : ys.length = n := by
    rw [← hall.1, List.length_range]
  refine ⟨hlen, ?_⟩
  intro i hi
  have hget := hall.2 i (by simpa [hlen] using hi) hi
  simpa using hget

end Results

namespace OCaml

variable {α β : Type}

@[simp] theorem pure_eq_ok_iff {a b : α} :
    (pure a : OCaml α) = .ok b ↔ a = b := by
  simp [pure, Except.pure]

@[simp] theorem throw_ne_ok (x : Exn) (b : α) :
    (throw x : OCaml α) ≠ .ok b := by
  simp [throw, throwThe, MonadExceptOf.throw]

@[simp] theorem bind_eq_ok_iff {x : OCaml α} {f : α → OCaml β} {b : β} :
    x >>= f = .ok b ↔ ∃ a, x = .ok a ∧ f a = .ok b := by
  cases x <;> simp [bind, Except.bind]

@[simp] theorem map_eq_ok_iff {x : OCaml α} {f : α → β} {b : β} :
    f <$> x = .ok b ↔ ∃ a, x = .ok a ∧ f a = b := by
  cases x <;> simp [Functor.map, Except.map]

@[simp] theorem guard_eq_ok_iff {c : Prop} [Decidable c] {a b : α} {x : Exn} :
    (if c then pure a else throw x : OCaml α) = .ok b ↔ c ∧ a = b := by
  split_ifs with h <;> simp [h]

@[simp] theorem ok_bind (a : α) (f : α → OCaml β) :
    ((.ok a : OCaml α) >>= f) = f a := rfl

@[simp] theorem pure_bind_eq (a : α) (f : α → OCaml β) :
    ((pure a : OCaml α) >>= f) = f a := rfl

end OCaml

/-- The boxed 64-bit integers of OCaml. -/
abbrev I64 := BitVec 64

/-- What `Int64.shift_left`, `Int64.shift_right` and
`Int64.shift_right_logical` return for a count outside `[0, 63]`. -/
structure WildShift where
  left : I64 → ℤ → I64
  right : I64 → ℤ → I64
  logical : I64 → ℤ → I64

/-- A platform that answers `v` to every shift out of range. -/
def WildShift.const (v : I64) : WildShift :=
  ⟨fun _ _ => v, fun _ _ => v, fun _ _ => v⟩

namespace I64

/-- `Int64.shift_left`. -/
def shiftLeft (wild : WildShift) (x : I64) (n : ℤ) : I64 :=
  if 0 ≤ n ∧ n < 64 then x <<< n.toNat else wild.left x n

/-- `Int64.shift_right`, which copies the sign bit. -/
def shiftRight (wild : WildShift) (x : I64) (n : ℤ) : I64 :=
  if 0 ≤ n ∧ n < 64 then x.sshiftRight n.toNat else wild.right x n

/-- `Int64.shift_right_logical`. -/
def shiftRightLogical (wild : WildShift) (x : I64) (n : ℤ) : I64 :=
  if 0 ≤ n ∧ n < 64 then x >>> n.toNat else wild.logical x n

/-- `Int64.of_int`. -/
def ofInt (n : ℤ) : I64 := BitVec.ofInt 64 n

/-- `Int64.to_int`: an OCaml `int` has 63 bits, the top bit is lost. -/
def toOCamlInt (x : I64) : ℤ := (x.setWidth 63).toInt

/-- `Int64.div`, rounding towards zero. -/
def div (x y : I64) : OCaml I64 :=
  if y = 0 then throw .divisionByZero else pure (x.sdiv y)

/-- `Int64.rem`, with the sign of the dividend. -/
def rem (x y : I64) : OCaml I64 :=
  if y = 0 then throw .divisionByZero else pure (x.srem y)

/-- `Vine_util.int64_ucompare`. -/
def ucompare (x y : I64) : ℤ :=
  if x.slt 0 && !y.slt 0 then 1
  else if !x.slt 0 && y.slt 0 then -1
  else if x.slt y then -1
  else if x = y then 0
  else 1

/-- `Vine_util.int64_udiv`.  The shifts by one are in range. -/
def udiv (x y : I64) : OCaml I64 :=
  if y.slt 0 then
    pure (if ucompare x y < 0 then 0 else 1)
  else if x.slt 0 then do
    let half ← div (x >>> 1) y
    let allButLastBit := half <<< 1
    pure (if ucompare (x - allButLastBit * y) y ≥ 0 then allButLastBit + 1
      else allButLastBit)
  else div x y

/-- `Vine_util.int64_urem`. -/
def urem (x y : I64) : OCaml I64 := do
  let q ← udiv x y
  pure (x - y * q)

/-! ## Shifts by a count in range -/

theorem shiftLeft_of_lt (wild : WildShift) (x : I64) {n : ℕ} (hn : n < 64) :
    shiftLeft wild x n = x <<< n := by
  simp [shiftLeft, hn]

theorem shiftRight_of_lt (wild : WildShift) (x : I64) {n : ℕ} (hn : n < 64) :
    shiftRight wild x n = x.sshiftRight n := by
  simp [shiftRight, hn]

theorem shiftRightLogical_of_lt (wild : WildShift) (x : I64) {n : ℕ}
    (hn : n < 64) : shiftRightLogical wild x n = x >>> n := by
  simp [shiftRightLogical, hn]

/-! ## The comparison and the division of unsigned 64-bit numbers -/

theorem slt_zero_iff (x : I64) : x.slt 0 = true ↔ 2 ^ 63 ≤ x.toNat := by
  simp only [BitVec.slt, BitVec.toInt_eq_toNat_cond, decide_eq_true_eq]
  have := x.isLt
  simp
  omega

theorem slt_iff (x y : I64) :
    x.slt y = true ↔
      (x.toNat + 2 ^ 63) % 2 ^ 64 < (y.toNat + 2 ^ 63) % 2 ^ 64 := by
  simp only [BitVec.slt, BitVec.toInt_eq_toNat_cond, decide_eq_true_eq]
  have := x.isLt
  have := y.isLt
  omega

theorem ucompare_lt_zero_iff (x y : I64) : ucompare x y < 0 ↔ x < y := by
  have hx := x.isLt
  have hy := y.isLt
  unfold ucompare
  simp only [Bool.and_eq_true, Bool.not_eq_true', ← Bool.not_eq_true,
    slt_zero_iff]
  simp only [slt_iff, ← BitVec.toNat_inj, BitVec.lt_def]
  split_ifs <;> omega

theorem ucompare_le_zero_iff (x y : I64) : ucompare x y ≤ 0 ↔ x ≤ y := by
  have hx := x.isLt
  have hy := y.isLt
  unfold ucompare
  simp only [Bool.and_eq_true, Bool.not_eq_true', ← Bool.not_eq_true,
    slt_zero_iff]
  simp only [slt_iff, ← BitVec.toNat_inj, BitVec.le_def]
  split_ifs <;> omega

theorem sdiv_eq_udiv (x y : I64)
    (hx : x.toNat < 2 ^ 63) (hy : y.toNat < 2 ^ 63) : x.sdiv y = x / y := by
  have hx' : x.msb = false := by simp [BitVec.msb_eq_decide]; omega
  have hy' : y.msb = false := by simp [BitVec.msb_eq_decide]; omega
  simp [BitVec.sdiv_eq, hx', hy']

/-- Halving the dividend first loses at most one unit of the quotient. -/
theorem udiv_step (x y : ℕ) (hy : 0 < y) :
    x / y =
      if y ≤ x - 2 * (x / 2 / y) * y then 2 * (x / 2 / y) + 1
      else 2 * (x / 2 / y) := by
  have hmod := Nat.div_add_mod (x / 2) y
  have hlt := Nat.mod_lt (x / 2) hy
  generalize x / 2 / y = q at *
  have hq : 2 * q * y = 2 * (y * q) := by ring
  have hsucc : (2 * q + 1) * y = 2 * (y * q) + y := by ring
  rw [hq]
  split_ifs with h
  · rw [Nat.div_eq_iff hy, hsucc]
    omega
  · rw [Nat.div_eq_iff hy, hq]
    omega

theorem udiv_eq (x y : I64) (hy : y ≠ 0) : udiv x y = .ok (x / y) := by
  have hx := x.isLt
  have hylt := y.isLt
  have hy0 : y.toNat ≠ 0 := by simpa [← BitVec.toNat_inj] using hy
  unfold udiv
  by_cases hyneg : y.slt 0
  · rw [if_pos hyneg]
    rw [slt_zero_iff] at hyneg
    simp only [ucompare_lt_zero_iff, BitVec.lt_def, pure, Except.pure]
    congr 1
    apply BitVec.eq_of_toNat_eq
    rw [BitVec.toNat_udiv]
    split_ifs with h
    · simp [Nat.div_eq_of_lt h]
    · rw [Nat.div_eq_of_lt_le (k := 1) (by omega) (by omega)]
      rfl
  · rw [if_neg hyneg]
    rw [slt_zero_iff] at hyneg
    by_cases hxneg : x.slt 0
    · rw [if_pos hxneg]
      have hhalf : (x >>> 1).toNat = x.toNat / 2 := by
        simp [Nat.shiftRight_eq_div_pow]
      have hsdiv : (x >>> 1).sdiv y = (x >>> 1) / y :=
        sdiv_eq_udiv _ _ (by rw [hhalf]; omega) (by omega)
      simp only [div, if_neg hy, hsdiv, bind, Except.bind, pure, Except.pure,
        ge_iff_le, ← not_lt, ucompare_lt_zero_iff, BitVec.lt_def]
      congr 1
      apply BitVec.eq_of_toNat_eq
      have hq : (x >>> 1 / y).toNat = x.toNat / 2 / y.toNat := by
        rw [BitVec.toNat_udiv, hhalf]
      have hqle : x.toNat / 2 / y.toNat * y.toNat ≤ x.toNat / 2 :=
        Nat.div_mul_le_self _ _
      rw [BitVec.toNat_udiv, udiv_step x.toNat y.toNat (by omega)]
      generalize x.toNat / 2 / y.toNat = q at *
      have hqle' : q ≤ q * y.toNat := Nat.le_mul_of_pos_right _ (by omega)
      have hcomm : 2 * q * y.toNat = 2 * (q * y.toNat) := by ring
      have hall : ((x >>> 1 / y) <<< 1).toNat = 2 * q := by
        rw [BitVec.toNat_shiftLeft, hq, Nat.shiftLeft_eq]
        omega
      have hmul : ((x >>> 1 / y) <<< 1 * y).toNat = 2 * q * y.toNat := by
        rw [BitVec.toNat_mul, hall, Nat.mod_eq_of_lt]
        omega
      have hsub : (x - (x >>> 1 / y) <<< 1 * y).toNat =
          x.toNat - 2 * q * y.toNat := by
        rw [BitVec.toNat_sub_of_le, hmul]
        rw [BitVec.le_def, hmul]
        omega
      rw [hsub]
      simp only [not_lt]
      split_ifs with h
      · rw [BitVec.toNat_add, hall]
        simp
        omega
      · exact hall
    · rw [if_neg hxneg]
      rw [slt_zero_iff] at hxneg
      rw [div, if_neg hy, sdiv_eq_udiv x y (by omega) (by omega)]
      rfl

theorem urem_eq (x y : I64) (hy : y ≠ 0) : urem x y = .ok (x % y) := by
  have hdivmod : x.toNat = y.toNat * (x.toNat / y.toNat) + x.toNat % y.toNat :=
    (Nat.div_add_mod _ _).symm
  have hmul : (y * (x / y)).toNat = y.toNat * (x.toNat / y.toNat) := by
    rw [BitVec.toNat_mul, BitVec.toNat_udiv, Nat.mod_eq_of_lt]
    have hx := x.isLt
    omega
  simp only [urem, udiv_eq x y hy, bind, Except.bind, pure, Except.pure]
  congr 1
  apply BitVec.eq_of_toNat_eq
  rw [BitVec.toNat_sub_of_le (by rw [BitVec.le_def, hmul]; omega), hmul,
    BitVec.toNat_umod]
  omega

/-- Quotient and remainder of the unsigned numbers, whatever the signs of the
`int64`s that represent them. -/
theorem udiv_urem_unsigned (x y : I64) (hy : y ≠ 0) :
    ∃ q r, udiv x y = .ok q ∧ urem x y = .ok r ∧
      x.toNat = q.toNat * y.toNat + r.toNat ∧ r.toNat < y.toNat := by
  refine ⟨x / y, x % y, udiv_eq x y hy, urem_eq x y hy, ?_, ?_⟩
  · rw [BitVec.toNat_udiv, BitVec.toNat_umod, Nat.div_add_mod']
  · rw [BitVec.toNat_umod]
    have hpos : y.toNat ≠ 0 := fun h => hy (BitVec.eq_of_toNat_eq h)
    exact Nat.mod_lt _ (Nat.pos_of_ne_zero hpos)

/-- The greatest number divided by one above the middle. -/
theorem udiv_urem_unsigned_top :
    ∃ q r, udiv (-1) 0x8000000000000001 = .ok q ∧
      urem (-1) 0x8000000000000001 = .ok r ∧
      (-1 : I64).toNat = q.toNat * (0x8000000000000001 : I64).toNat + r.toNat ∧
      r.toNat < (0x8000000000000001 : I64).toNat :=
  udiv_urem_unsigned (-1) 0x8000000000000001 (by decide)

theorem div_zero (x : I64) : div x 0 = .error .divisionByZero := rfl

theorem rem_zero (x : I64) : rem x 0 = .error .divisionByZero := rfl

theorem udiv_zero (x : I64) : udiv x 0 = .error .divisionByZero := by
  rw [udiv, if_neg (by decide)]
  by_cases hx : x.slt 0
  · rw [if_pos hx]
    rfl
  · rw [if_neg hx]
    rfl

theorem urem_zero (x : I64) : urem x 0 = .error .divisionByZero := by
  rw [urem, udiv_zero]
  rfl

end I64
end Fuzzball
