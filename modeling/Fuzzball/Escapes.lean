import Fuzzball.OCamlNumerals

/-!
# Escaped strings

`escaped` and `unescaped` of `exec_utils.ml`.  Both fill a string made in
advance from its start on; what is filled so far is kept as a list, and a write
after its end raises.
-/

namespace Fuzzball.ExecUtils

/-! ## The encoder -/

def asciiIsPrintable (c : UInt8) : Bool := decide (0x20 ≤ c ∧ c ≤ 0x7e)

def hexChr (i : ℕ) : UInt8 :=
  if i < 10 then UInt8.ofNat (0x30 + i) else UInt8.ofNat (0x61 + i - 10)

def backslash : UInt8 := 0x5c

/-- What the encoder writes for one character. -/
def escapeChar (c : UInt8) : OString :=
  if c = 0x0a then [backslash, 0x6e]
  else if c = 0x09 then [backslash, 0x74]
  else if c = 0x0d then [backslash, 0x72]
  else if c = 0x08 then [backslash, 0x62]
  else if c = 0x22 then [backslash, 0x22]
  else if c = backslash then [backslash, backslash]
  else if asciiIsPrintable c then [c]
  else [backslash, 0x78, hexChr (c.toNat >>> 4), hexChr (c.toNat &&& 0xf)]

/-- `s'.[j] <- c`, with the `j` characters before it. -/
def put (length : ℕ) (filled : OString) (c : UInt8) : OCaml OString :=
  if filled.length < length then pure (filled ++ [c])
  else throw (.invalidArgument "index out of bounds")

def putAll (length : ℕ) (filled : OString) (cs : OString) : OCaml OString :=
  cs.foldlM (put length) filled

/-- The loop of `escaped` on the characters from the `i`-th on. -/
def escapedLoop (length : ℕ) : OString → OString → OCaml OString
  | [], filled => pure filled
  | c :: rest, filled => do
    let filled ← putAll length filled (escapeChar c)
    escapedLoop length rest filled

def escaped (str : OString) : OCaml OString :=
  escapedLoop (4 * str.length) str []

/-! ## The decoder -/

/-- The escapes of two characters. -/
def singleEscape (c : UInt8) : Option UInt8 :=
  if c = 0x6e then some 0x0a
  else if c = 0x72 then some 0x0d
  else if c = 0x74 then some 0x09
  else if c = 0x62 then some 0x08
  else if c = backslash then some backslash
  else if c = 0x27 then some 0x27
  else if c = 0x22 then some 0x22
  else if c = 0x20 then some 0x20
  else none

/-- `Char.chr` -/
def charChr (n : ℤ) : OCaml UInt8 :=
  if 0 ≤ n ∧ n ≤ 255 then pure (UInt8.ofNat n.toNat)
  else throw (.invalidArgument "Char.chr")

/-- The character of an escape of four characters, given the last three. -/
def longEscape (c d e : UInt8) : OCaml UInt8 :=
  if c = 0x78 then do
    let n ← intOfString (OString.ofAscii "0x" ++ [d, e])
    charChr n
  else if 0x30 ≤ c ∧ c ≤ 0x39 then do
    let n ← intOfString [c, d, e]
    charChr n
  else throw (.failure "Unexpected escape in string unescape")

/-- The loop of `unescaped` on the characters from the `i`-th on. -/
def unescapedLoop (length : ℕ) : OString → OString → OCaml OString
  | [], filled => pure filled
  | [c], filled => put length filled c
  | c :: d :: rest, filled =>
    if c = backslash then
      match singleEscape d with
      | some b => do
        let filled ← put length filled b
        unescapedLoop length rest filled
      | none =>
        match rest with
        | e :: f :: rest => do
          let b ← longEscape d e f
          let filled ← put length filled b
          unescapedLoop length rest filled
        | _ => throw (.failure "Unexpected escape in string unescape")
    else do
      let filled ← put length filled c
      unescapedLoop length (d :: rest) filled

def unescaped (str : OString) : OCaml OString :=
  unescapedLoop str.length str []

/-! ## Writing -/

theorem put_of_lt {length : ℕ} {filled : OString} (h : filled.length < length)
    (c : UInt8) : put length filled c = pure (filled ++ [c]) := if_pos h

theorem putAll_of_le {length : ℕ} {filled cs : OString}
    (h : filled.length + cs.length ≤ length) :
    putAll length filled cs = pure (filled ++ cs) := by
  induction cs generalizing filled with
  | nil =>
    rw [List.append_nil]
    rfl
  | cons c cs ih =>
    rw [List.length_cons] at h
    have hnext : (filled ++ [c]).length + cs.length ≤ length := by
      rw [List.length_append, List.length_singleton]
      omega
    rw [putAll, List.foldlM_cons, put_of_lt (by omega), pure_bind]
    exact (ih hnext).trans (by rw [List.append_assoc]; rfl)

theorem length_escapeChar (c : UInt8) :
    1 ≤ (escapeChar c).length ∧ (escapeChar c).length ≤ 4 := by
  unfold escapeChar
  split_ifs <;> simp

/-- The string made in advance is long enough. -/
theorem escapedLoop_eq {length : ℕ} (s : OString) {filled : OString}
    (h : filled.length + 4 * s.length ≤ length) :
    escapedLoop length s filled = pure (filled ++ s.flatMap escapeChar) := by
  induction s generalizing filled with
  | nil =>
    rw [List.flatMap_nil, List.append_nil]
    rfl
  | cons c s ih =>
    have hlen := (length_escapeChar c).2
    rw [List.length_cons] at h
    have hnext : (filled ++ escapeChar c).length + 4 * s.length ≤ length := by
      rw [List.length_append]
      omega
    rw [escapedLoop, putAll_of_le (by omega), pure_bind, ih hnext,
      List.flatMap_cons, List.append_assoc]

theorem escaped_eq (s : OString) : escaped s = pure (s.flatMap escapeChar) :=
  escapedLoop_eq s (by rw [List.length_nil, Nat.zero_add])

theorem length_le_flatMap (s : OString) :
    s.length ≤ (s.flatMap escapeChar).length := by
  induction s with
  | nil => exact le_rfl
  | cons c s ih =>
    have hlen := (length_escapeChar c).1
    rw [List.flatMap_cons, List.length_append, List.length_cons]
    omega

/-! ## Reading what was written -/

section Reading

variable {length : ℕ} {filled rest : OString} {c d : UInt8}

theorem unescapedLoop_plain (hc : c ≠ backslash)
    (h : filled.length < length) :
    unescapedLoop length (c :: rest) filled =
      unescapedLoop length rest (filled ++ [c]) := by
  cases rest with
  | nil => exact put_of_lt h c
  | cons d rest =>
    rw [unescapedLoop.eq_def]
    dsimp only
    rw [if_neg hc, put_of_lt h, pure_bind]

theorem unescapedLoop_single {b : UInt8} (hd : singleEscape d = some b)
    (h : filled.length < length) :
    unescapedLoop length (backslash :: d :: rest) filled =
      unescapedLoop length rest (filled ++ [b]) := by
  rw [unescapedLoop.eq_def]
  dsimp only
  rw [if_pos rfl, hd]
  dsimp only
  rw [put_of_lt h, pure_bind]

theorem hexChr_eq (i : ℕ) : hexChr i = hexDigit i := by
  have hsum : 0x61 + i - 10 = 87 + i := by omega
  rw [hexChr, hexDigit, hsum]

theorem longEscape_hex (c : UInt8) :
    longEscape 0x78 (hexChr (c.toNat >>> 4)) (hexChr (c.toNat &&& 0xf)) =
      pure c := by
  have hc := c.toNat_lt
  have hlow : c.toNat &&& 0xf = c.toNat % 16 :=
    Nat.and_two_pow_sub_one_eq_mod c.toNat 4
  have hhigh : c.toNat >>> 4 = c.toNat / 16 % 16 := by
    rw [Nat.shiftRight_eq_div_pow]
    omega
  have hdigits : [hexDigit (c.toNat / 16 % 16), hexDigit (c.toNat % 16)] =
      digitsFixed 16 2 c.toNat := rfl
  have hvalue : digitsValue 16 (digitsFixed 16 2 c.toNat) = some c.toNat := by
    rw [digitsValue_fixed (by norm_num) le_rfl (by norm_num),
      Nat.mod_eq_of_lt (by omega)]
  have hread : intOfString (OString.ofAscii "0x" ++
      digitsFixed 16 2 c.toNat) = pure (c.toNat : ℤ) := by
    have hnumeral : numeral 63 (48 :: 120 :: digitsFixed 16 2 c.toNat) =
        some (c.toNat : ℤ) := numeral_prefixed rfl hvalue (by omega)
    change intOfString (48 :: 120 :: digitsFixed 16 2 c.toNat) = _
    rw [intOfString, hnumeral]
    refine congrArg pure (Int.bmod_eq_of_le ?_ ?_)
    · norm_num
    · norm_num
      omega
  rw [longEscape, if_pos rfl, hexChr_eq, hexChr_eq, hlow, hhigh, hdigits, hread,
    pure_bind, charChr, if_pos (by omega), Int.toNat_natCast,
    UInt8.ofNat_toNat]

theorem unescapedLoop_hex (h : filled.length < length) :
    unescapedLoop length (backslash :: 0x78 :: hexChr (c.toNat >>> 4) ::
      hexChr (c.toNat &&& 0xf) :: rest) filled =
      unescapedLoop length rest (filled ++ [c]) := by
  have hx : singleEscape 0x78 = none := rfl
  rw [unescapedLoop, if_pos rfl, hx]
  dsimp only
  rw [longEscape_hex, pure_bind, put_of_lt h, pure_bind]

/-- One character is read back. -/
theorem unescapedLoop_escapeChar (c : UInt8) (h : filled.length < length) :
    unescapedLoop length (escapeChar c ++ rest) filled =
      unescapedLoop length rest (filled ++ [c]) := by
  unfold escapeChar
  split_ifs with hn ht hr hb hquote hslash hprintable
  · rw [hn]
    exact unescapedLoop_single rfl h
  · rw [ht]
    exact unescapedLoop_single rfl h
  · rw [hr]
    exact unescapedLoop_single rfl h
  · rw [hb]
    exact unescapedLoop_single rfl h
  · rw [hquote]
    exact unescapedLoop_single rfl h
  · rw [hslash]
    exact unescapedLoop_single rfl h
  · exact unescapedLoop_plain hslash h
  · exact unescapedLoop_hex h

theorem unescapedLoop_flatMap (s : OString)
    (h : filled.length + s.length ≤ length) :
    unescapedLoop length (s.flatMap escapeChar) filled =
      pure (filled ++ s) := by
  induction s generalizing filled with
  | nil =>
    rw [List.flatMap_nil, List.append_nil]
    rfl
  | cons c s ih =>
    rw [List.length_cons] at h
    have hnext : (filled ++ [c]).length + s.length ≤ length := by
      rw [List.length_append, List.length_singleton]
      omega
    rw [List.flatMap_cons, unescapedLoop_escapeChar c (by omega), ih hnext,
      List.append_assoc]
    rfl

end Reading

/-- Both return, and the decoder gives the string back. -/
theorem unescaped_escaped (s : OString) :
    escaped s >>= unescaped = pure s := by
  rw [escaped_eq, pure_bind, unescaped, unescapedLoop_flatMap]
  · rfl
  · rw [List.length_nil, Nat.zero_add]
    exact length_le_flatMap s

end Fuzzball.ExecUtils
