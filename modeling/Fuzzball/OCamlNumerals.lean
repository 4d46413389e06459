import Fuzzball.OCamlFormat

/-!
# Numerals that are read

`int_of_string` and `Int64.of_string`: a sign, the prefix of a base, and digits
with underscores between them; and `int64_u_of_string` of `vine_util.ml`, which
reads a decimal numeral in two pieces.
-/

namespace Fuzzball

/-- The digits of a numeral read after a value already found. -/
def digitsFrom (base : ℕ) : ℕ → OString → Option ℕ
  | n, [] => some n
  | n, c :: cs =>
    if c = 95 then digitsFrom base n cs
    else
      match hexDigitValue c with
      | none => none
      | some d => if d < base then digitsFrom base (base * n + d) cs else none

/-- The first character is a digit. -/
def digitsValue (base : ℕ) : OString → Option ℕ
  | [] => none
  | c :: cs => if c = 95 then none else digitsFrom base 0 (c :: cs)

/-- How a numeral without its sign is read. -/
structure Radix where
  base : ℕ
  signed : Bool
  digits : OString

/-- The prefixes `0x`, `0o`, `0b` and `0u`, in either case. -/
def radix (s : OString) : Radix :=
  match s with
  | z :: c :: rest =>
    if z ≠ 48 then ⟨10, true, s⟩
    else if c = 120 ∨ c = 88 then ⟨16, false, rest⟩
    else if c = 111 ∨ c = 79 then ⟨8, false, rest⟩
    else if c = 98 ∨ c = 66 then ⟨2, false, rest⟩
    else if c = 117 ∨ c = 85 then ⟨10, false, rest⟩
    else ⟨10, true, s⟩
  | _ => ⟨10, true, s⟩

/-- The largest magnitude that is read; a prefix makes a numeral unsigned. -/
def magnitudeLimit (bits : ℕ) (negative signed : Bool) : ℕ :=
  if !signed then 2 ^ bits - 1
  else if negative then 2 ^ (bits - 1)
  else 2 ^ (bits - 1) - 1

def magnitude (bits : ℕ) (negative : Bool) (s : OString) : Option ℕ :=
  let r := radix s
  match digitsValue r.base r.digits with
  | none => none
  | some n => if n ≤ magnitudeLimit bits negative r.signed then some n else none

def numeral (bits : ℕ) (s : OString) : Option ℤ :=
  match s with
  | c :: rest =>
    if c = 45 then (magnitude bits true rest).map fun n => -(n : ℤ)
    else if c = 43 then (magnitude bits false rest).map fun n => (n : ℤ)
    else (magnitude bits false s).map fun n => (n : ℤ)
  | [] => none

/-- `Int64.of_string` -/
def int64OfString (s : OString) : OCaml I64 :=
  match numeral 64 s with
  | some n => pure (BitVec.ofInt 64 n)
  | none => throw (.failure "Int64.of_string")

/-- `int_of_string`, with the 63 bits of an `int`. -/
def intOfString (s : OString) : OCaml ℤ :=
  match numeral 63 s with
  | some n => pure (n.bmod (2 ^ 63))
  | none => throw (.failure "int_of_string")

def int64UOfString (s : OString) : OCaml I64 :=
  let len := s.length
  if len ≤ 18 then int64OfString s
  else if 3 ≤ len ∧ (s.take 2 = OString.ofAscii "0x" ∨
      s.take 2 = OString.ofAscii "0b" ∨ s.take 2 = OString.ofAscii "0o") then
    int64OfString s
  else do
    let low_s ← s.sub (len - 18) 18
    let high_s ← s.sub 0 (len - 18)
    let low_v ← int64OfString low_s
    let high_v ← int64OfString high_s
    pure (low_v + high_v * 1000000000000000000)

/-! ## Numerals of a fixed length -/

/-- The last `width` digits of a number. -/
def digitsFixed (base : ℕ) : ℕ → ℕ → OString
  | 0, _ => []
  | width + 1, n => digitsFixed base width (n / base) ++ [hexDigit (n % base)]

@[simp] theorem length_digitsFixed (base width n : ℕ) :
    (digitsFixed base width n).length = width := by
  induction width generalizing n with
  | zero => rfl
  | succ width ih => rw [digitsFixed, List.length_append, ih]; rfl

theorem digitsFrom_append (base n : ℕ) (s t : OString) :
    digitsFrom base n (s ++ t) =
      (digitsFrom base n s).bind fun m => digitsFrom base m t := by
  induction s generalizing n with
  | nil => rfl
  | cons c cs ih =>
    rw [List.cons_append, digitsFrom, digitsFrom]
    split_ifs
    · exact ih n
    · cases hexDigitValue c with
      | none => rfl
      | some d =>
        dsimp only
        split_ifs
        · exact ih _
        · rfl

theorem digitsFrom_digit {base d : ℕ} (hd : d < base) (hbase : base ≤ 16)
    (n : ℕ) : digitsFrom base n [hexDigit d] = some (base * n + d) := by
  have hd16 : d < 16 := by omega
  rw [digitsFrom, if_neg (hexDigit_ne_underscore hd16),
    hexDigitValue_hexDigit hd16]
  dsimp only
  rw [if_pos hd, digitsFrom]

theorem digitsFrom_fixed {base : ℕ} (hpos : 0 < base) (hbase : base ≤ 16)
    (width m n : ℕ) :
    digitsFrom base m (digitsFixed base width n) =
      some (m * base ^ width + n % base ^ width) := by
  induction width generalizing n with
  | zero =>
    rw [digitsFixed, digitsFrom, pow_zero, Nat.mod_one, Nat.mul_one]
    rfl
  | succ width ih =>
    have hmod : n % base ^ (width + 1) =
        base * (n / base % base ^ width) + n % base := by
      rw [pow_succ', Nat.mod_mul]
      ring
    rw [digitsFixed, digitsFrom_append, ih, Option.bind_some,
      digitsFrom_digit (Nat.mod_lt n hpos) hbase, hmod]
    congr 1
    ring

/-- Every character of a numeral of a fixed length is a digit. -/
theorem mem_digitsFixed {base : ℕ} (hpos : 0 < base) {width n : ℕ} {c : UInt8}
    (hc : c ∈ digitsFixed base width n) : ∃ d < base, c = hexDigit d := by
  induction width generalizing n with
  | zero => exact absurd hc List.not_mem_nil
  | succ width ih =>
    rw [digitsFixed, List.mem_append, List.mem_singleton] at hc
    obtain hc | rfl := hc
    · exact ih hc
    · exact ⟨n % base, Nat.mod_lt n hpos, rfl⟩

theorem digitsValue_fixed {base width : ℕ} (hpos : 0 < base)
    (hbase : base ≤ 16) (hwidth : 0 < width) (n : ℕ) :
    digitsValue base (digitsFixed base width n) = some (n % base ^ width) := by
  have hvalue := digitsFrom_fixed hpos hbase width 0 n
  cases hs : digitsFixed base width n with
  | nil =>
    have hlen := length_digitsFixed base width n
    rw [hs] at hlen
    simp at hlen
    omega
  | cons c cs =>
    have hc : c ∈ digitsFixed base width n := by
      rw [hs]
      exact List.mem_cons_self
    obtain ⟨d, hd, rfl⟩ := mem_digitsFixed hpos hc
    rw [digitsValue, if_neg (hexDigit_ne_underscore (by omega)), ← hs, hvalue,
      Nat.zero_mul, Nat.zero_add]

/-- A numeral with a prefix is read as an unsigned number. -/
theorem numeral_prefixed {bits base n : ℕ} {p : UInt8} {digits : OString}
    (hradix : radix (48 :: p :: digits) = ⟨base, false, digits⟩)
    (h : digitsValue base digits = some n) (hn : n < 2 ^ bits) :
    numeral bits (48 :: p :: digits) = some (n : ℤ) := by
  have hle : n ≤ magnitudeLimit bits false false := Nat.le_sub_one_of_lt hn
  have hmagnitude : magnitude bits false (48 :: p :: digits) = some n := by
    unfold magnitude
    rw [hradix]
    dsimp only
    rw [h]
    exact if_pos hle
  rw [numeral, if_neg (by decide), if_neg (by decide), hmagnitude]
  rfl

/-- `Int64.of_string ("0x" ^ digits)` -/
theorem int64OfString_hex {digits : OString} {n : ℕ}
    (h : digitsValue 16 digits = some n) (hn : n < 2 ^ 64) :
    int64OfString (48 :: 120 :: digits) = pure (BitVec.ofNat 64 n) := by
  rw [int64OfString, numeral_prefixed rfl h hn]
  rfl

/-- `Int64.of_string ("0b" ^ digits)` -/
theorem int64OfString_binary {digits : OString} {n : ℕ}
    (h : digitsValue 2 digits = some n) (hn : n < 2 ^ 64) :
    int64OfString (48 :: 98 :: digits) = pure (BitVec.ofNat 64 n) := by
  rw [int64OfString, numeral_prefixed rfl h hn]
  rfl

/-! ## Decimal numerals -/

/-- The characters of a numeral as a byte string. -/
def bytesOf (cs : List Char) : OString := cs.map fun c => UInt8.ofNat c.toNat

theorem toNat_byte_of_isDigit {c : Char} (h : c.isDigit) :
    (UInt8.ofNat c.toNat).toNat = c.toNat ∧ 48 ≤ c.toNat ∧ c.toNat ≤ 57 := by
  have hbounds : 48 ≤ c.toNat ∧ c.toNat ≤ 57 := Char.isDigit_iff_toNat.mp h
  refine ⟨?_, hbounds⟩
  rw [UInt8.toNat_ofNat', Nat.mod_eq_of_lt]
  omega

theorem digitsFrom_bytesOf {cs : List Char} (h : ∀ c ∈ cs, c.isDigit) (n : ℕ) :
    digitsFrom 10 n (bytesOf cs) = some (Nat.ofDigitChars 10 cs n) := by
  induction cs generalizing n with
  | nil => rfl
  | cons c cs ih =>
    obtain ⟨hbyte, hlow, hhigh⟩ :=
      toNat_byte_of_isDigit (h c List.mem_cons_self)
    have hne : UInt8.ofNat c.toNat ≠ 95 := by
      intro heq
      have hnat := congrArg UInt8.toNat heq
      rw [hbyte] at hnat
      have h95 : (95 : UInt8).toNat = 95 := rfl
      omega
    have hvalue : hexDigitValue (UInt8.ofNat c.toNat) =
        some (c.toNat - 48) := by
      unfold hexDigitValue
      rw [hbyte]
      exact if_pos ⟨hlow, hhigh⟩
    change digitsFrom 10 n (UInt8.ofNat c.toNat :: bytesOf cs) = _
    rw [digitsFrom, if_neg hne, hvalue]
    dsimp only
    rw [if_pos (by omega), ih fun c hc => h c (List.mem_cons_of_mem _ hc),
      Nat.ofDigitChars_cons]
    rfl

theorem ofDigitChars_lt {cs : List Char} (h : ∀ c ∈ cs, c.isDigit) (n : ℕ) :
    Nat.ofDigitChars 10 cs n < (n + 1) * 10 ^ cs.length := by
  induction cs generalizing n with
  | nil =>
    rw [Nat.ofDigitChars_nil, List.length_nil, pow_zero]
    omega
  | cons c cs ih =>
    obtain ⟨-, hlow, hhigh⟩ := toNat_byte_of_isDigit (h c List.mem_cons_self)
    have hrest := ih (fun c hc => h c (List.mem_cons_of_mem _ hc))
      (10 * n + (c.toNat - '0'.toNat))
    have hzero : '0'.toNat = 48 := rfl
    have hdigit : 10 * n + (c.toNat - '0'.toNat) + 1 ≤ 10 * (n + 1) := by omega
    rw [Nat.ofDigitChars_cons, List.length_cons, pow_succ]
    calc Nat.ofDigitChars 10 cs (10 * n + (c.toNat - '0'.toNat))
        < (10 * n + (c.toNat - '0'.toNat) + 1) * 10 ^ cs.length := hrest
      _ ≤ 10 * (n + 1) * 10 ^ cs.length := Nat.mul_le_mul_right _ hdigit
      _ = (n + 1) * (10 ^ cs.length * 10) := by ring

theorem mem_bytesOf {cs : List Char} (h : ∀ c ∈ cs, c.isDigit) {b : UInt8}
    (hb : b ∈ bytesOf cs) : 48 ≤ b.toNat ∧ b.toNat ≤ 57 := by
  obtain ⟨c, hc, rfl⟩ := List.mem_map.mp hb
  obtain ⟨hbyte, hbounds⟩ := toNat_byte_of_isDigit (h c hc)
  rwa [hbyte]

theorem radix_of_digits {s : OString}
    (h : ∀ b ∈ s, 48 ≤ b.toNat ∧ b.toNat ≤ 57) : radix s = ⟨10, true, s⟩ := by
  unfold radix
  split
  · rename_i z c rest
    have hc := h c (List.mem_cons_of_mem _ List.mem_cons_self)
    have hne (d : UInt8) (hd : 57 < d.toNat) : c ≠ d := by
      rintro rfl
      omega
    rw [if_neg (not_or.mpr ⟨hne _ (by decide), hne _ (by decide)⟩),
      if_neg (not_or.mpr ⟨hne _ (by decide), hne _ (by decide)⟩),
      if_neg (not_or.mpr ⟨hne _ (by decide), hne _ (by decide)⟩),
      if_neg (not_or.mpr ⟨hne _ (by decide), hne _ (by decide)⟩), ite_self]
  · rfl

/-- A decimal numeral is read as a signed number. -/
theorem int64OfString_bytesOf {cs : List Char} (hne : cs ≠ [])
    (h : ∀ c ∈ cs, c.isDigit) :
    int64OfString (bytesOf cs) =
      if Nat.ofDigitChars 10 cs 0 < 2 ^ 63 then
        pure (BitVec.ofNat 64 (Nat.ofDigitChars 10 cs 0))
      else throw (.failure "Int64.of_string") := by
  have hbytes : ∀ b ∈ bytesOf cs, 48 ≤ b.toNat ∧ b.toNat ≤ 57 :=
    fun b hb => mem_bytesOf h hb
  have hvalue := digitsFrom_bytesOf h 0
  have hradix := radix_of_digits hbytes
  cases hs : bytesOf cs with
  | nil => exact absurd (List.map_eq_nil_iff.mp hs) hne
  | cons b rest =>
    have hb := hbytes b (hs ▸ List.mem_cons_self)
    have hother (d : UInt8) (hd : d.toNat < 48 ∨ 57 < d.toNat) : b ≠ d := by
      rintro rfl
      omega
    rw [hs] at hvalue hradix
    have hdigits : digitsValue 10 (b :: rest) =
        some (Nat.ofDigitChars 10 cs 0) := by
      rw [digitsValue, if_neg (hother 95 (Or.inr (by decide))), hvalue]
    have hmagnitude : magnitude 64 false (b :: rest) =
        if Nat.ofDigitChars 10 cs 0 < 2 ^ 63 then
          some (Nat.ofDigitChars 10 cs 0) else none := by
      unfold magnitude
      rw [hradix]
      dsimp only
      rw [hdigits]
      exact if_congr (Nat.le_sub_one_iff_lt (by norm_num)) rfl rfl
    rw [int64OfString, numeral, if_neg (hother 45 (Or.inl (by decide))),
      if_neg (hother 43 (Or.inl (by decide))), hmagnitude]
    split_ifs
    · rfl
    · rfl

theorem decimal_eq_bytesOf (v : ℕ) :
    decimal v = bytesOf (Nat.toDigits 10 v) := by
  change OString.ofAscii (toString v) = _
  rw [Nat.toString_eq_repr, OString.ofAscii, Nat.toList_repr]
  rfl

theorem isDigit_of_mem_toDigits (v : ℕ) : ∀ c ∈ Nat.toDigits 10 v, c.isDigit :=
  fun _ hc => Nat.isDigit_of_mem_toDigits (by decide) (by decide) hc

theorem int64OfString_decimal (v : ℕ) :
    int64OfString (decimal v) =
      if v < 2 ^ 63 then pure (BitVec.ofNat 64 v)
      else throw (.failure "Int64.of_string") := by
  have hne : Nat.toDigits 10 v ≠ [] := Nat.toDigits_ne_nil
  rw [decimal_eq_bytesOf, int64OfString_bytesOf hne (isDigit_of_mem_toDigits v),
    Nat.ofDigitChars_ten_toDigits]

/-- No prefix stands before decimal digits. -/
theorem take_ne_prefix {s : OString}
    (h : ∀ b ∈ s, 48 ≤ b.toNat ∧ b.toNat ≤ 57) {p : UInt8} (hp : 57 < p.toNat) :
    s.take 2 ≠ [48, p] := by
  intro htake
  have hmem : p ∈ s.take 2 := by
    rw [htake]
    exact List.mem_cons_of_mem _ List.mem_cons_self
  have hbounds := h p (List.mem_of_mem_take hmem)
  omega

/-- A long decimal numeral is read in two pieces. -/
theorem int64UOfString_long {v : ℕ} (hv : v < 2 ^ 64) {cs hi lo : List Char}
    (hcs : cs = hi ++ lo) (hdig : ∀ c ∈ cs, c.isDigit)
    (hvalue : Nat.ofDigitChars 10 cs 0 = v) (hhi : hi ≠ [])
    (hlo : lo.length = 18) :
    int64UOfString (bytesOf cs) = pure (BitVec.ofNat 64 v) := by
  subst hcs
  have hhidig : ∀ c ∈ hi, c.isDigit :=
    fun c hc => hdig c (List.mem_append_left _ hc)
  have hlodig : ∀ c ∈ lo, c.isDigit :=
    fun c hc => hdig c (List.mem_append_right _ hc)
  have hbytes : ∀ b ∈ bytesOf (hi ++ lo), 48 ≤ b.toNat ∧ b.toNat ≤ 57 :=
    fun b hb => mem_bytesOf hdig hb
  have hsplit : bytesOf (hi ++ lo) = bytesOf hi ++ bytesOf lo := List.map_append
  have hlenlo : (bytesOf lo).length = 18 := (List.length_map _).trans hlo
  have hlenhi : 0 < (bytesOf hi).length := by
    rw [bytesOf, List.length_map]
    exact List.length_pos_of_ne_nil hhi
  have hlen : (bytesOf (hi ++ lo)).length = (bytesOf hi).length + 18 := by
    rw [hsplit, List.length_append, hlenlo]
  have hlowlt := ofDigitChars_lt hlodig 0
  rw [hlo, Nat.zero_add, Nat.one_mul] at hlowlt
  have hsum : v = 10 ^ 18 * Nat.ofDigitChars 10 hi 0 +
      Nat.ofDigitChars 10 lo 0 := by
    rw [← hvalue, Nat.ofDigitChars_append,
      Nat.ofDigitChars_eq_ofDigitChars_zero, hlo]
  have hlow : (bytesOf (hi ++ lo)).sub ((bytesOf (hi ++ lo)).length - 18) 18 =
      pure (bytesOf lo) := by
    rw [OString.sub, if_pos (by omega), hlen, Nat.add_sub_cancel, hsplit,
      List.drop_left, List.take_of_length_le hlenlo.le]
  have hhigh : (bytesOf (hi ++ lo)).sub 0 ((bytesOf (hi ++ lo)).length - 18) =
      pure (bytesOf hi) := by
    rw [OString.sub, if_pos (by omega), hlen, Nat.add_sub_cancel, hsplit,
      List.drop_zero, List.take_left]
  have hprefix : ¬(3 ≤ (bytesOf (hi ++ lo)).length ∧
      ((bytesOf (hi ++ lo)).take 2 = OString.ofAscii "0x" ∨
        (bytesOf (hi ++ lo)).take 2 = OString.ofAscii "0b" ∨
        (bytesOf (hi ++ lo)).take 2 = OString.ofAscii "0o")) := by
    rintro ⟨-, h | h | h⟩
    · exact take_ne_prefix hbytes (p := 120) (by decide) h
    · exact take_ne_prefix hbytes (p := 98) (by decide) h
    · exact take_ne_prefix hbytes (p := 111) (by decide) h
  have hlone : lo ≠ [] := by
    rintro rfl
    cases hlo
  unfold int64UOfString
  dsimp only
  rw [if_neg (by omega), if_neg hprefix, hlow, hhigh, pure_bind, pure_bind,
    int64OfString_bytesOf hlone hlodig, int64OfString_bytesOf hhi hhidig,
    if_pos (by omega), if_pos (by omega), pure_bind, pure_bind]
  refine congrArg pure (BitVec.eq_of_toNat_eq ?_)
  have hmul : (1000000000000000000 : I64).toNat = 10 ^ 18 := rfl
  rw [BitVec.toNat_add, BitVec.toNat_mul, BitVec.toNat_ofNat,
    BitVec.toNat_ofNat, BitVec.toNat_ofNat, hmul]
  omega

/-- Every unsigned decimal numeral is read as its bit pattern. -/
theorem int64UOfString_decimal {v : ℕ} (hv : v < 2 ^ 64) :
    int64UOfString (decimal v) = pure (BitVec.ofNat 64 v) := by
  have hdig := isDigit_of_mem_toDigits v
  have hvalue : Nat.ofDigitChars 10 (Nat.toDigits 10 v) 0 = v :=
    Nat.ofDigitChars_ten_toDigits
  have hlen : (decimal v).length = (Nat.toDigits 10 v).length := by
    rw [decimal_eq_bytesOf, bytesOf, List.length_map]
  by_cases hshort : (decimal v).length ≤ 18
  · have hlt := ofDigitChars_lt hdig 0
    rw [hvalue, Nat.zero_add, Nat.one_mul] at hlt
    have hsmall : v < 10 ^ 18 := hlt.trans_le
      (Nat.pow_le_pow_right (by norm_num) (hlen ▸ hshort))
    unfold int64UOfString
    rw [if_pos hshort, int64OfString_decimal, if_pos (by omega)]
  · have hsplit := List.take_append_drop
      ((Nat.toDigits 10 v).length - 18) (Nat.toDigits 10 v)
    rw [decimal_eq_bytesOf]
    refine int64UOfString_long hv hsplit.symm hdig hvalue ?_ ?_
    · intro hnil
      have htake := congrArg List.length hnil
      rw [List.length_take, List.length_nil] at htake
      omega
    · rw [List.length_drop]
      omega

end Fuzzball
