import Fuzzball.OCaml

/-!
# Numerals in formatted strings

The hexadecimal and decimal conversions of `Printf.sprintf`, and the reading
of a hexadecimal numeral.
-/

namespace Fuzzball

def hexDigit (n : ℕ) : UInt8 :=
  if n < 10 then UInt8.ofNat (48 + n) else UInt8.ofNat (87 + n)

/-- The last `width` hexadecimal digits of a number. -/
def hexFixed : ℕ → ℕ → OString
  | 0, _ => []
  | width + 1, n => hexFixed width (n / 16) ++ [hexDigit (n % 16)]

/-- The conversion `%0wx`: at least `width` digits, and all that the number
has. -/
def hexPadded (width n : ℕ) : OString :=
  hexFixed (max width (max 1 (Nat.digits 16 n).length)) n

/-- The value of a hexadecimal digit in lower or upper case. -/
def hexDigitValue (c : UInt8) : Option ℕ :=
  let n := c.toNat
  if 48 ≤ n ∧ n ≤ 57 then some (n - 48)
  else if 97 ≤ n ∧ n ≤ 102 then some (n - 87)
  else if 65 ≤ n ∧ n ≤ 70 then some (n - 55)
  else none

/-- The digits of a numeral read after a value already found; underscores
between the digits are skipped. -/
def hexValueFrom : ℕ → OString → Option ℕ
  | n, [] => some n
  | n, c :: cs =>
    if c = 95 then hexValueFrom n cs
    else
      match hexDigitValue c with
      | none => none
      | some d => hexValueFrom (16 * n + d) cs

def hexValue : OString → Option ℕ
  | [] => none
  | c :: cs =>
    match hexDigitValue c with
    | none => none
    | some d => hexValueFrom d cs

/-- `String.sub`. -/
def OString.sub (s : OString) (start len : ℕ) : OCaml OString :=
  if start + len ≤ s.length then pure ((s.drop start).take len)
  else throw (.invalidArgument "String.sub / Bytes.sub")

/-- `int_of_string ("0x" ^ s)`, for a numeral that fits in an `int`. -/
def intOfHexString (s : OString) : OCaml ℤ :=
  match hexValue s with
  | none => throw (.failure "int_of_string")
  | some n => if n < 2 ^ 63 then pure n else throw (.failure "int_of_string")

/-- `Int64.of_string ("0x" ^ s)`. -/
def int64OfHexString (s : OString) : OCaml I64 :=
  match hexValue s with
  | none => throw (.failure "Int64.of_string")
  | some n =>
    if n < 2 ^ 64 then pure (BitVec.ofNat 64 n)
    else throw (.failure "Int64.of_string")

def decimal (z : ℤ) : OString := OString.ofAscii (toString z)

/-! ## Reading what was printed -/

theorem hexDigit_toNat {n : ℕ} (h : n < 16) :
    (hexDigit n).toNat = if n < 10 then 48 + n else 87 + n := by
  unfold hexDigit
  split_ifs <;> simp <;> omega

theorem hexDigit_ne_underscore {n : ℕ} (h : n < 16) : hexDigit n ≠ 95 := by
  intro heq
  have hn := congrArg UInt8.toNat heq
  rw [hexDigit_toNat h] at hn
  have h95 : (95 : UInt8).toNat = 95 := rfl
  rw [h95] at hn
  split_ifs at hn <;> omega

theorem hexDigitValue_hexDigit {n : ℕ} (h : n < 16) :
    hexDigitValue (hexDigit n) = some n := by
  unfold hexDigitValue
  rw [hexDigit_toNat h]
  by_cases hten : n < 10
  · have h1 : 48 ≤ 48 + n ∧ 48 + n ≤ 57 := by omega
    simp only [hten, if_true, h1, and_self]
    congr 1
    omega
  · have h1 : ¬ (48 ≤ 87 + n ∧ 87 + n ≤ 57) := by omega
    have h2 : 97 ≤ 87 + n ∧ 87 + n ≤ 102 := by omega
    simp only [hten, if_false, h1, h2, and_self, if_true]
    congr 1
    omega

@[simp] theorem length_hexFixed (width n : ℕ) :
    (hexFixed width n).length = width := by
  induction width generalizing n with
  | zero => rfl
  | succ width ih => simp [hexFixed, ih]

theorem hexValueFrom_append (n : ℕ) (s t : OString) :
    hexValueFrom n (s ++ t) = (hexValueFrom n s).bind (hexValueFrom · t) := by
  induction s generalizing n with
  | nil => rfl
  | cons c cs ih =>
    simp only [List.cons_append, hexValueFrom]
    split_ifs
    · exact ih n
    · cases hexDigitValue c with
      | none => rfl
      | some d => exact ih (16 * n + d)

theorem hexValueFrom_hexFixed (width m n : ℕ) :
    hexValueFrom m (hexFixed width n) =
      some (m * 16 ^ width + n % 16 ^ width) := by
  induction width generalizing n with
  | zero => simp [hexFixed, hexValueFrom, Nat.mod_one]
  | succ width ih =>
    have hdigit : n % 16 < 16 := Nat.mod_lt n (by norm_num)
    have hmod : n % 16 ^ (width + 1) =
        16 * (n / 16 % 16 ^ width) + n % 16 := by
      rw [pow_succ', Nat.mod_mul]
      ring
    simp only [hexFixed, hexValueFrom_append, ih, Option.bind_some,
      hexValueFrom, if_neg (hexDigit_ne_underscore hdigit),
      hexDigitValue_hexDigit hdigit, hmod]
    congr 1
    ring

/-- The first digit is read on its own, with nothing before it. -/
theorem hexFixed_succ_eq_cons (width n : ℕ) :
    hexFixed (width + 1) n =
      hexDigit (n / 16 ^ width % 16) :: hexFixed width n := by
  induction width generalizing n with
  | zero => simp [hexFixed]
  | succ width ih =>
    rw [hexFixed, ih (n / 16), hexFixed, List.cons_append, Nat.div_div_eq_div_mul,
      ← pow_succ']

theorem hexValue_hexFixed {width : ℕ} (hwidth : 0 < width) (n : ℕ) :
    hexValue (hexFixed width n) = some (n % 16 ^ width) := by
  obtain ⟨width, rfl⟩ := Nat.exists_eq_add_one_of_ne_zero hwidth.ne'
  have hdigit : n / 16 ^ width % 16 < 16 := Nat.mod_lt _ (by norm_num)
  have hmod : n % 16 ^ (width + 1) =
      n / 16 ^ width % 16 * 16 ^ width + n % 16 ^ width := by
    rw [pow_succ, Nat.mod_mul]
    ring
  rw [hexFixed_succ_eq_cons, hexValue, hexDigitValue_hexDigit hdigit]
  dsimp only
  rw [hexValueFrom_hexFixed, hmod]

theorem hexPadded_eq_hexFixed {width n : ℕ} (hwidth : 0 < width)
    (h : n < 16 ^ width) : hexPadded width n = hexFixed width n := by
  have hdigits : (Nat.digits 16 n).length ≤ width :=
    (Nat.digits_length_le_iff (by norm_num) n).mpr h
  unfold hexPadded
  rw [max_eq_left (by omega)]

theorem length_hexPadded {width n : ℕ} (hwidth : 0 < width)
    (h : n < 16 ^ width) : (hexPadded width n).length = width := by
  rw [hexPadded_eq_hexFixed hwidth h, length_hexFixed]

theorem hexValue_hexPadded (width n : ℕ) :
    hexValue (hexPadded width n) = some n := by
  have hdigits : n < 16 ^ (Nat.digits 16 n).length :=
    Nat.lt_base_pow_length_digits (by norm_num)
  unfold hexPadded
  rw [hexValue_hexFixed (by omega)]
  congr 1
  refine Nat.mod_eq_of_lt (lt_of_lt_of_le hdigits ?_)
  exact Nat.pow_le_pow_right (by norm_num) (by omega)

/-! ## Decimal numerals -/

theorem OString.ofAscii_append (s t : String) :
    OString.ofAscii (s ++ t) = OString.ofAscii s ++ OString.ofAscii t := by
  simp [OString.ofAscii, String.toList_append]

theorem char_of_byte {c : Char} (h : c.isDigit) :
    Char.ofNat (UInt8.ofNat c.toNat).toNat = c := by
  have hle : c.toNat ≤ 57 := (Char.isDigit_iff_toNat.mp h).2
  rw [UInt8.toNat_ofNat', Nat.mod_eq_of_lt (by omega), Char.ofNat_toNat]

/-- Different numbers are printed differently. -/
theorem ofAscii_toString_injective :
    Function.Injective fun n : ℕ => OString.ofAscii (toString n) := by
  have hback : ∀ n : ℕ, (OString.ofAscii (toString n)).map
      (fun b => Char.ofNat b.toNat) = Nat.toDigits 10 n := by
    intro n
    rw [Nat.toString_eq_repr, OString.ofAscii, Nat.toList_repr, List.map_map]
    refine (List.map_congr_left fun c hc => ?_).trans (List.map_id _)
    exact char_of_byte
      (Nat.isDigit_of_mem_toDigits (by decide) (by decide) hc)
  intro n m h
  have hdigits : Nat.toDigits 10 n = Nat.toDigits 10 m := by
    rw [← hback n, ← hback m]
    exact congrArg _ h
  rw [← Nat.ofDigitChars_ten_toDigits (n := n), hdigits,
    Nat.ofDigitChars_ten_toDigits]

end Fuzzball
