import Fuzzball.OCamlNumerals
import Fuzzball.SmtNames

/-!
# Values in the answers of the solvers

The functions of `solvers_common.ml` that read an assignment from the lines a
solver prints.  Each notation of a number is read as its bit pattern, but CVC4's
decimal numerals are read as signed, and of Z3's binary numerals only those of
one bit are known.
-/

namespace Fuzzball.SmtLib

/-! ## Strings -/

inductive ParseExn
  | raised (e : Exn)
  | notFound
  deriving DecidableEq

abbrev Parsing := Except ParseExn

def ofOCaml {α : Type} (r : OCaml α) : Parsing α := r.mapError .raised

/-- `String.sub`, whose arguments may be negative. -/
def stringSub (s : OString) (start len : ℤ) : Parsing OString :=
  if 0 ≤ start ∧ 0 ≤ len ∧ start + len ≤ s.length then
    pure ((s.drop start.toNat).take len.toNat)
  else throw (.raised (.invalidArgument "String.sub / Bytes.sub"))

/-- `String.index` -/
def stringIndex (s : OString) (c : UInt8) : Parsing ℤ :=
  match s.idxOf? c with
  | some i => pure i
  | none => throw .notFound

/-- `g_assert`; a failed assertion raises in a `strict` run. -/
def gAssert (strict cond : Bool) : Parsing Unit :=
  if strict && !cond then throw (.raised (.failure "Too many errors"))
  else pure ()

abbrev ascii := OString.ofAscii

/-- `String.length s > n && String.sub s 0 n = p` -/
def longWith (n : ℕ) (p : String) (s : OString) : Bool :=
  decide (n < s.length ∧ s.take n = ascii p)

/-! ## The parsers -/

inductive ExternalSolverType
  | stpCvc
  | stpSmtlib2
  deriving DecidableEq

inductive MaybeCeResult
  | noCeHere
  | endOfCe
  | assignment (varname : OString) (value : I64) (isFinal : Bool)
  deriving DecidableEq

/-- The numeral in the right-hand side of an assertion of STP. -/
def stpNumeral (rhs : OString) : Parsing OString :=
  if 6 ≤ rhs.length ∧ rhs.take 5 = ascii " 0hex" then
    pure (ascii "0x" ++ rhs.drop 5)
  else if 4 ≤ rhs.length ∧ rhs.take 3 = ascii " 0x" then
    pure (ascii "0x" ++ rhs.drop 3)
  else if 4 ≤ rhs.length ∧ rhs.take 3 = ascii " 0b" then
    pure (ascii "0b" ++ rhs.drop 3)
  else if rhs = ascii ">FALSE" then pure (ascii "0")
  else if rhs = ascii ">TRUE" then pure (ascii "1")
  else throw (.raised (.failure "Failed to parse value in counterexample"))

def parseStpCe (strict : Bool) (e_s_t : ExternalSolverType) (line : OString) :
    Parsing MaybeCeResult :=
  if line = ascii "sat" then do
    gAssert strict (e_s_t = .stpSmtlib2)
    pure .endOfCe
  else if line = ascii "Invalid." then do
    gAssert strict (e_s_t = .stpCvc)
    pure .endOfCe
  else do
    let first ← stringSub line 0 8
    gAssert strict (first = ascii "ASSERT( ")
    let last ← stringSub line (line.length - 3) 3
    gAssert strict (last = ascii " );")
    let trimmed ← stringSub line 8 (line.length - 11)
    let eq_loc ← stringIndex trimmed 61
    let lhs ← stringSub trimmed 0 eq_loc
    let rhs ← stringSub trimmed (eq_loc + 1) (trimmed.length - eq_loc - 1)
    let lhs_last ← stringSub lhs (lhs.length - 1) 1
    gAssert strict (lhs_last = ascii " " ∨ lhs_last = ascii "<")
    let lhs_second ← stringSub lhs (lhs.length - 2) 1
    let lhs_rtrim : ℤ := if lhs_second = ascii " " then 2 else 1
    let rhs_last ← stringSub rhs (rhs.length - 1) 1
    let rhs_rtrim : ℤ := if rhs_last = ascii " " then 1 else 0
    let varname_raw ← stringSub lhs 0 (lhs.length - lhs_rtrim)
    let varname := match e_s_t with
      | .stpSmtlib2 => smtlibRenameVar varname_raw
      | .stpCvc => varname_raw
    let rhs' ← stringSub rhs 0 (rhs.length - rhs_rtrim)
    let numeral ← stpNumeral rhs'
    let value ← ofOCaml (int64OfString numeral)
    pure (.assignment varname value false)

/-- The numeral of a value of CVC4. -/
def cvc4Numeral (trimmed3 : OString) : Parsing OString := do
  if (← stringSub trimmed3 0 4) = ascii "true" then pure (ascii "1")
  else if (← stringSub trimmed3 0 5) = ascii "false" then pure (ascii "0")
  else
    let trimmed4 ← stringSub trimmed3 5 (trimmed3.length - 5)
    let val_end ← stringIndex trimmed4 32
    stringSub trimmed4 0 val_end

/-- The assertion on the start of a value. -/
def cvc4ValueStart (trimmed3 : OString) : Parsing Bool := do
  if (← stringSub trimmed3 0 4) = ascii "true" then pure true
  else
    let start ← stringSub trimmed3 0 5
    pure (start = ascii "false" ∨ start = ascii "(_ bv")

def cvc4TypeStart (trimmed2 : OString) : Parsing Bool := do
  if (← stringSub trimmed2 0 4) = ascii "Bool" then pure true
  else
    let start ← stringSub trimmed2 0 10
    pure (start = ascii "(_ BitVec ")

def parseCvc4Ce (strict : Bool) (line : OString) : Parsing MaybeCeResult :=
  if line = ascii ")" then pure .endOfCe
  else if line = ascii "(model" then pure .noCeHere
  else do
    let first ← stringSub line 0 12
    gAssert strict (first = ascii "(define-fun ")
    let last ← stringSub line (line.length - 1) 1
    gAssert strict (last = ascii ")")
    let trimmed1 ← stringSub line 12 (line.length - 13)
    let var_end ← stringIndex trimmed1 32
    let varname ← stringSub trimmed1 0 var_end
    let trimmed2 ←
      stringSub trimmed1 (var_end + 4) (trimmed1.length - (var_end + 4))
    let start ← stringSub trimmed2 0 6
    if start = ascii "(Array" then pure .noCeHere
    else
      gAssert strict (← cvc4TypeStart trimmed2)
      let type ← stringSub trimmed2 0 4
      let trimmed3 ←
        if type = ascii "Bool" then
          stringSub trimmed2 5 (trimmed2.length - 5)
        else do
          let type_end ← stringIndex trimmed2 41
          stringSub trimmed2 (type_end + 2) (trimmed2.length - (type_end + 2))
      gAssert strict (← cvc4ValueStart trimmed3)
      let numeral ← cvc4Numeral trimmed3
      let value ← ofOCaml (int64OfString numeral)
      pure (.assignment (smtlibRenameVar varname) value false)

def parseBtorCe (line : OString) : Parsing MaybeCeResult := do
  let sp ← stringIndex line 32
  let varname_raw ← stringSub line 0 sp
  let bits ← stringSub line (sp + 1) (line.length - sp - 1)
  let value ← ofOCaml (int64OfString (ascii "0b" ++ bits))
  pure (.assignment (smtlibRenameVar varname_raw) value false)

/-- A result and the variable whose value is to come. -/
abbrev Stateful := Parsing (MaybeCeResult × Option OString)

/-- The value of Z3 without its indentation and the last parenthesis; there is
none for the values that are skipped. -/
def z3Value (trim : OString) : Parsing (Option I64) :=
  if trim = ascii "false" then pure (some 0)
  else if trim = ascii "true" then pure (some 1)
  else if trim = ascii "#b0" then pure (some 0)
  else if trim = ascii "#b1" then pure (some 1)
  else if longWith 2 "#x" trim then do
    let v ← ofOCaml (int64OfString (ascii "0x" ++ trim.drop 2))
    pure (some v)
  else if longWith 4 "(fp " trim then pure none
  else if longWith 6 "(_ +oo" trim || longWith 6 "(_ -oo" trim ||
      longWith 6 "(_ NaN" trim then pure none
  else if longWith 8 "(_ +zero" trim || longWith 8 "(_ -zero" trim then
    pure none
  else if longWith 11 "(_ as-array" trim then pure none
  else throw (.raised (.failure "Unhandled value case in parse_z3_ce_lines"))

/-- The lines of Z3 that are skipped. -/
def z3Skipped (s : OString) : Bool :=
  longWith 4 "  ;;" s ||
  longWith 27 "  (declare-fun RoundingMode" s ||
  longWith 26 "  (forall ((x RoundingMode" s ||
  longWith 30 "  (forall ((x (_ FloatingPoint" s ||
  longWith 28 "  (declare-fun FloatingPoint" s ||
  longWith 32 "          (or (= x FloatingPoint" s ||
  longWith 32 "              (= x FloatingPoint" s ||
  longWith 8 "    (ite" s ||
  longWith 8 "      #x" s || longWith 8 "      #b" s

def parseZ3CeLine (strict : Bool) (s : OString) : Option OString → Stateful
  | none =>
    if s = ascii "(model " then pure (.noCeHere, none)
    else if s = ascii ")" then pure (.endOfCe, none)
    else if longWith 14 "  (define-fun " s then do
      let trim1 ← stringSub s 14 (s.length - 14)
      let var_end ← stringIndex trim1 32
      let varname ← stringSub trim1 0 var_end
      pure (.noCeHere, some (smtlibRenameVar varname))
    else if longWith 7 "(error " s then do
      let last ← stringSub s (s.length - 24) 24
      if last = ascii "model is not available\")" then pure (.noCeHere, none)
      else
        throw (.raised (.failure "Unexpected error in parse_z3_ce_lines"))
    else if z3Skipped s then pure (.noCeHere, none)
    else throw (.raised (.failure "Unhandled loop case in parse_z3_ce_line"))
  | some varname => do
    gAssert strict (longWith 4 "    " s)
    let last ← stringSub s (s.length - 1) 1
    if last ≠ ascii ")" then pure (.noCeHere, none)
    else
      let trim ← stringSub s 4 (s.length - 5)
      match ← z3Value trim with
      | none => pure (.noCeHere, none)
      | some v => pure (.assignment varname v false, none)

/-- The values of MathSAT that are skipped. -/
def mathsatSkipped (s : OString) : Bool :=
  decide (9 < s.length) &&
    (longWith 5 " (fp " s || longWith 8 " (_ +oo " s ||
      longWith 8 " (_ -oo " s || longWith 8 " (_ NaN " s ||
      longWith 9 " (_ +zero" s || longWith 9 " (_ -zero" s ||
      longWith 8 " (store " s)

/-- The case of a value, with the reference `final`. -/
def mathsatValue (s varname : OString) (final : Bool) : Stateful :=
  if longWith 6 " (_ bv" s then do
    let s2 ← stringSub s 6 (s.length - 6)
    let num_end ← stringIndex s2 32
    let num_str ← stringSub s2 0 num_end
    let v ← ofOCaml (int64UOfString num_str)
    pure (.assignment varname v final, none)
  else if s = ascii " true" ∨ s = ascii " true)" ∨ s = ascii " true) )" then
    pure (.assignment varname 1 final, none)
  else if s = ascii " false" ∨ s = ascii " false)" ∨
      s = ascii " false) )" then
    pure (.assignment varname 0 final, none)
  else if mathsatSkipped s then pure (.noCeHere, none)
  else
    throw (.raised (.failure "Unhandled loop case in parse_mathsat_ce_line"))

def parseMathsatCeLine (s : OString) : Option OString → Stateful
  | none =>
    if 4 < s.length ∧ (s.take 3 = ascii "  (" ∨ s.take 3 = ascii "( (") then do
      let rest ← stringSub s 3 (s.length - 3)
      if 32 ∈ rest then do
        let space_pos ← stringIndex rest 32
        let pre_space ← stringSub rest 0 space_pos
        let from_space ← stringSub rest space_pos (rest.length - space_pos)
        let last ← stringSub from_space (from_space.length - 3) 3
        mathsatValue from_space (smtlibRenameVar pre_space) (last = ascii ") )")
      else pure (.noCeHere, some (smtlibRenameVar rest))
    else if s = ascii ")" then pure (.noCeHere, none)
    else if s = ascii ") )" then pure (.endOfCe, none)
    else if s = ascii "(  )" then pure (.endOfCe, none)
    else
      throw (.raised (.failure "Unhandled loop case in parse_mathsat_ce_line"))
  | some varname => mathsatValue s varname false

/-! ## Parts of strings -/

theorem stringSub_parts {s p m q : OString} {start len : ℤ}
    (hs : s = p ++ (m ++ q)) (hstart : start = p.length)
    (hlen : len = m.length) : stringSub s start len = pure m := by
  subst hs hstart hlen
  rw [stringSub, if_pos]
  · rw [Int.toNat_natCast, Int.toNat_natCast, List.drop_left, List.take_left]
  · refine ⟨by omega, by omega, ?_⟩
    rw [List.length_append, List.length_append]
    omega

theorem stringSub_prefix {s p q : OString} {len : ℤ} (hs : s = p ++ q)
    (hlen : len = p.length) : stringSub s 0 len = pure p :=
  stringSub_parts (p := []) hs rfl hlen

/-- The part between `a` characters and the end, given by the whole length. -/
theorem stringSub_middle {s p m q : OString} {a k : ℤ} (hs : s = p ++ (m ++ q))
    (ha : a = p.length) (hk : k = p.length + q.length) :
    stringSub s a (s.length - k) = pure m := by
  refine stringSub_parts hs ha ?_
  rw [hs, hk, List.length_append, List.length_append]
  omega

theorem stringSub_rest {s p q : OString} {a : ℤ} (hs : s = p ++ q)
    (ha : a = p.length) : stringSub s a (s.length - a) = pure q := by
  refine stringSub_middle (q := []) (hs.trans (by rw [List.append_nil])) ha ?_
  rw [ha]
  rfl

/-- The part that starts `k` characters before the end. -/
theorem stringSub_before {s p m q : OString} {k len : ℤ}
    (hs : s = p ++ (m ++ q)) (hk : k = m.length + q.length)
    (hlen : len = m.length) : stringSub s (s.length - k) len = pure m := by
  refine stringSub_parts hs ?_ hlen
  rw [hs, hk, List.length_append, List.length_append]
  omega

theorem stringSub_last {s p q : OString} {k : ℤ} (hs : s = p ++ q)
    (hk : k = q.length) : stringSub s (s.length - k) k = pure q := by
  refine stringSub_before (q := []) (hs.trans (by rw [List.append_nil])) ?_ hk
  rw [hk]
  rfl

theorem stringSub_init {s p q : OString} {k : ℤ} (hs : s = p ++ q)
    (hk : k = q.length) : stringSub s 0 (s.length - k) = pure p := by
  refine stringSub_middle (p := []) hs rfl ?_
  rw [hk]
  exact (Int.zero_add _).symm

theorem stringIndex_append {s p q : OString} {c : UInt8} (hs : s = p ++ c :: q)
    (hc : c ∉ p) : stringIndex s c = pure (p.length : ℤ) := by
  subst hs
  have hidx : (p ++ c :: q).idxOf? c = some p.length := by
    induction p with
    | nil => simp [List.idxOf?_cons]
    | cons a p ih =>
      rw [List.mem_cons, not_or] at hc
      obtain ⟨ha, hp⟩ := hc
      rw [List.cons_append, List.idxOf?_cons, ih hp, if_neg]
      · rfl
      · simpa using fun h => ha h.symm
  rw [stringIndex, hidx]

/-! ## What the solvers print -/

/-- The symbol of a variable in an answer. -/
structure SymbolText where
  name : OString
  nonempty : name ≠ []
  noSpace : 32 ∉ name
  noEquals : 61 ∉ name

inductive StpPrefix
  | hex0
  | hex
  | binary

/-- The hexadecimal digits of a number of `w` bits. -/
def hexText (w v : ℕ) : OString := digitsFixed 16 ((w + 3) / 4) v

def bitsText (w v : ℕ) : OString := digitsFixed 2 w v

def StpPrefix.text (w v : ℕ) : StpPrefix → OString
  | .hex0 => ascii "0hex" ++ hexText w v
  | .hex => ascii "0x" ++ hexText w v
  | .binary => ascii "0b" ++ bitsText w v

/-- One space, or two. -/
def spaces : Bool → OString
  | false => [32]
  | true => [32, 32]

/-- An assertion of STP. -/
def stpLine (name : OString) (left right : Bool) (text : OString) : OString :=
  ascii "ASSERT( " ++
    (name ++ spaces left ++ 61 :: (32 :: text ++ (spaces right).tail) ++
      ascii " );")

/-- `(_ bvN w)` -/
def bvText (w v : ℕ) : OString :=
  ascii "(_ bv" ++ (decimal v ++ 32 :: (decimal w ++ ascii ")"))

/-- The type and the value of a definition of CVC4. -/
def cvc4Typed (w v : ℕ) : OString :=
  ascii "(_ BitVec " ++ (decimal w ++ 41 :: 32 :: bvText w v)

def cvc4Line (name : OString) (w v : ℕ) : OString :=
  ascii "(define-fun " ++ (name ++ 32 :: (ascii "() " ++ cvc4Typed w v) ++
    ascii ")")

def btorLine (name : OString) (w v : ℕ) : OString := name ++ 32 :: bitsText w v

def z3First (name : OString) (w : ℕ) : OString :=
  ascii "  (define-fun " ++
    (name ++ ascii " () (_ BitVec " ++ decimal w ++ [41])

def z3Second (text : OString) : OString :=
  ascii "    " ++ (text ++ ascii ")")

def mathsatSecond (w v : ℕ) (closing : OString) : OString :=
  32 :: (bvText w v ++ closing)

/-! ## STP -/

theorem ofOCaml_pure {α : Type} (a : α) :
    ofOCaml (pure a : OCaml α) = pure a := rfl

theorem pow_le_of_width {w : ℕ} : 2 ^ w ≤ 16 ^ ((w + 3) / 4) := by
  have hpow : (16 : ℕ) ^ ((w + 3) / 4) = 2 ^ (4 * ((w + 3) / 4)) := by
    rw [pow_mul]
    norm_num
  rw [hpow]
  exact Nat.pow_le_pow_right (by norm_num) (by omega)

theorem digitsValue_hexText {w v : ℕ} (hw : 0 < w) (hv : v < 2 ^ w) :
    digitsValue 16 (hexText w v) = some v := by
  rw [hexText, digitsValue_fixed (by norm_num) (by norm_num) (by omega),
    Nat.mod_eq_of_lt (hv.trans_le pow_le_of_width)]

theorem digitsValue_bitsText {w v : ℕ} (hw : 0 < w) (hv : v < 2 ^ w) :
    digitsValue 2 (bitsText w v) = some v := by
  rw [bitsText, digitsValue_fixed (by norm_num) (by norm_num) hw,
    Nat.mod_eq_of_lt hv]

theorem hexText_int64 {w v : ℕ} (hw : 0 < w) (hw64 : w ≤ 64) (hv : v < 2 ^ w) :
    int64OfString (ascii "0x" ++ hexText w v) = pure (BitVec.ofNat 64 v) :=
  int64OfString_hex (digitsValue_hexText hw hv)
    (hv.trans_le (Nat.pow_le_pow_right (by norm_num) hw64))

theorem bitsText_int64 {w v : ℕ} (hw : 0 < w) (hw64 : w ≤ 64)
    (hv : v < 2 ^ w) :
    int64OfString (ascii "0b" ++ bitsText w v) = pure (BitVec.ofNat 64 v) :=
  int64OfString_binary (digitsValue_bitsText hw hv)
    (hv.trans_le (Nat.pow_le_pow_right (by norm_num) hw64))

theorem length_hexText (w v : ℕ) : (hexText w v).length = (w + 3) / 4 :=
  length_digitsFixed ..

theorem length_bitsText (w v : ℕ) : (bitsText w v).length = w :=
  length_digitsFixed ..

theorem third_eq {a b c a' b' c' : UInt8} {s t : OString} {n : ℕ}
    (h : (a :: b :: c :: s).take (n + 3) = a' :: b' :: c' :: t) : c = c' :=
  Option.some.inj (congrArg (fun l : OString => l[2]?) h)

/-- The prefixes of the two solvers stand for those of the host language. -/
theorem stpNumeral_text {w v : ℕ} (hw : 0 < w) (p : StpPrefix) :
    stpNumeral (32 :: p.text w v) =
      pure (match p with
        | .hex0 => ascii "0x" ++ hexText w v
        | .hex => ascii "0x" ++ hexText w v
        | .binary => ascii "0b" ++ bitsText w v) := by
  cases p with
  | hex0 =>
    have hlen := length_hexText w v
    rw [stpNumeral, if_pos]
    · rfl
    · refine ⟨?_, rfl⟩
      change 6 ≤ (hexText w v).length + 5
      omega
  | hex =>
    have hlen := length_hexText w v
    rw [stpNumeral, if_neg, if_pos]
    · rfl
    · refine ⟨?_, rfl⟩
      change 4 ≤ (hexText w v).length + 3
      omega
    · rintro ⟨-, h⟩
      exact absurd (third_eq h) (by decide)
  | binary =>
    have hlen := length_bitsText w v
    rw [stpNumeral, if_neg, if_neg, if_pos]
    · rfl
    · refine ⟨?_, rfl⟩
      change 4 ≤ (bitsText w v).length + 3
      omega
    · rintro ⟨-, h⟩
      exact absurd (third_eq h) (by decide)
    · rintro ⟨-, h⟩
      exact absurd (third_eq h) (by decide)

/-- A text ends with a digit. -/
theorem exists_last_digit (w v : ℕ) (hw : 0 < w) (p : StpPrefix) :
    ∃ init d, d < 16 ∧ 32 :: p.text w v = init ++ [hexDigit d] := by
  have hlast (base width : ℕ) (hpos : 0 < base) (hwidth : 0 < width) (n : ℕ) :
      ∃ init, ∃ d < base, digitsFixed base width n = init ++ [hexDigit d] := by
    obtain ⟨k, rfl⟩ := Nat.exists_eq_add_one_of_ne_zero hwidth.ne'
    exact ⟨_, n % base, Nat.mod_lt n hpos, rfl⟩
  have hhex : ∃ init, ∃ d < 16, hexText w v = init ++ [hexDigit d] :=
    hlast 16 _ (by norm_num) (by omega) v
  obtain ⟨hinit, hd, hlt, hhex⟩ := hhex
  cases p with
  | hex0 =>
    refine ⟨ascii " 0hex" ++ hinit, hd, hlt, ?_⟩
    rw [StpPrefix.text, hhex, List.append_assoc]
    rfl
  | hex =>
    refine ⟨ascii " 0x" ++ hinit, hd, hlt, ?_⟩
    rw [StpPrefix.text, hhex, List.append_assoc]
    rfl
  | binary =>
    obtain ⟨init, d, hdlt, hbits⟩ := hlast 2 w (by norm_num) hw v
    refine ⟨ascii " 0b" ++ init, d, by omega, ?_⟩
    rw [StpPrefix.text, bitsText, hbits, List.append_assoc]
    rfl

theorem hexDigit_ne_space {d : ℕ} (hd : d < 16) : hexDigit d ≠ 32 := by
  intro h
  have hnat := congrArg UInt8.toNat h
  rw [hexDigit_toNat hd] at hnat
  have h32 : (32 : UInt8).toNat = 32 := rfl
  split_ifs at hnat <;> omega

/-- The name of a variable as each mode of STP gives it back. -/
def ExternalSolverType.varname (e_s_t : ExternalSolverType) (name : OString) :
    OString :=
  match e_s_t with
  | .stpSmtlib2 => smtlibRenameVar name
  | .stpCvc => name

theorem gAssert_true (strict : Bool) : gAssert strict true = pure () := by
  rw [gAssert, Bool.not_true, Bool.and_false]
  rfl

/-- The trimming of the left-hand side leaves the name. -/
theorem lhs_trim (x : SymbolText) (left : Bool) {lhs : OString}
    (hlhs : lhs = x.name ++ spaces left) :
    ∃ c, stringSub lhs (lhs.length - 2) 1 = pure c ∧
      (if c = ascii " " then (2 : ℤ) else 1) = (spaces left).length := by
  cases left with
  | true => exact ⟨[32], stringSub_before (q := [32]) hlhs rfl rfl, rfl⟩
  | false =>
    obtain ⟨init, z, hname⟩ := (List.eq_nil_or_concat x.name).resolve_left
      x.nonempty
    rw [List.concat_eq_append] at hname
    have hz : z ≠ 32 := by
      rintro rfl
      refine x.noSpace ?_
      rw [hname]
      exact List.mem_append_right _ (List.mem_singleton_self _)
    rw [hname, List.append_assoc] at hlhs
    exact ⟨[z], stringSub_before (q := [32]) hlhs rfl rfl,
      if_neg fun h => hz (List.head_eq_of_cons_eq h)⟩

/-- The trimming of the right-hand side leaves the value. -/
theorem rhs_trim {rhs value init : OString} {d : ℕ} (hd : d < 16)
    (hvalue : value = init ++ [hexDigit d]) (right : Bool)
    (hrhs : rhs = value ++ (spaces right).tail) :
    ∃ c, stringSub rhs (rhs.length - 1) 1 = pure c ∧
      (if c = ascii " " then (1 : ℤ) else 0) = (spaces right).tail.length := by
  cases right with
  | true => exact ⟨[32], stringSub_last hrhs rfl, rfl⟩
  | false =>
    have hne := hexDigit_ne_space hd
    have hlast : rhs = init ++ [hexDigit d] := by
      rw [hrhs, hvalue]
      exact List.append_nil _
    exact ⟨[hexDigit d], stringSub_last hlast rfl,
      if_neg fun h => hne (List.head_eq_of_cons_eq h)⟩

/-- An assertion of a value that ends in a digit. -/
theorem parseStpCe_parts (strict : Bool) (e_s_t : ExternalSolverType)
    (x : SymbolText) (left right : Bool) {line lhs rhs value init : OString}
    {d : ℕ} {n : I64} {numeral : OString} (hd : d < 16)
    (hvalue : value = init ++ [hexDigit d])
    (hlhs : lhs = x.name ++ spaces left)
    (hrhs : rhs = value ++ (spaces right).tail)
    (hline : line = ascii "ASSERT( " ++ ((lhs ++ 61 :: rhs) ++ ascii " );"))
    (hnumeral : stpNumeral value = pure numeral)
    (hn : int64OfString numeral = pure n) :
    parseStpCe strict e_s_t line =
      pure (.assignment (e_s_t.varname x.name) n false) := by
  obtain ⟨lhsSecond, hlhsSecond, hlhsTrim⟩ := lhs_trim x left hlhs
  obtain ⟨rhsLast, hrhsLast, hrhsTrim⟩ := rhs_trim hd hvalue right hrhs
  have hnoEquals : 61 ∉ lhs := by
    rw [hlhs, List.mem_append, not_or]
    refine ⟨x.noEquals, ?_⟩
    cases left <;> decide
  have hsat : line ≠ ascii "sat" := by
    rw [hline]
    intro h
    exact absurd (Option.some.inj (congrArg List.head? h)) (by decide)
  have hinvalid : line ≠ ascii "Invalid." := by
    rw [hline]
    intro h
    exact absurd (Option.some.inj (congrArg List.head? h)) (by decide)
  have hfirst : stringSub line 0 8 = pure (ascii "ASSERT( ") :=
    stringSub_prefix hline rfl
  have hlast : stringSub line (line.length - 3) 3 = pure (ascii " );") :=
    stringSub_last (hline.trans (List.append_assoc ..).symm) rfl
  have htrimmed : stringSub line 8 (line.length - 11) =
      pure (lhs ++ 61 :: rhs) := stringSub_middle hline rfl rfl
  have hindex : stringIndex (lhs ++ 61 :: rhs) 61 = pure (lhs.length : ℤ) :=
    stringIndex_append rfl hnoEquals
  have hlhsSub : stringSub (lhs ++ 61 :: rhs) 0 lhs.length = pure lhs :=
    stringSub_prefix rfl rfl
  have hrhsSub : stringSub (lhs ++ 61 :: rhs) (lhs.length + 1)
      ((lhs ++ 61 :: rhs).length - lhs.length - 1) = pure rhs := by
    rw [Int.sub_sub]
    refine stringSub_rest (p := lhs ++ [61]) ?_ ?_
    · rw [List.append_assoc]
      rfl
    · rw [List.length_append]
      rfl
  have hlhsLast : stringSub lhs (lhs.length - 1) 1 = pure (ascii " ") := by
    cases left with
    | false => exact stringSub_last hlhs rfl
    | true =>
      exact stringSub_last (p := x.name ++ [32])
        (hlhs.trans (List.append_assoc x.name [32] [32]).symm) rfl
  have hname : stringSub lhs 0 (lhs.length - (spaces left).length) =
      pure x.name := stringSub_init hlhs rfl
  have hvalueSub : stringSub rhs 0
      (rhs.length - (spaces right).tail.length) = pure value :=
    stringSub_init hrhs rfl
  rw [parseStpCe, if_neg hsat, if_neg hinvalid, hfirst, hlast, htrimmed]
  simp only [pure_bind, decide_true, true_or, gAssert_true, hindex, hlhsSub,
    hrhsSub, hlhsLast, hlhsSecond, hlhsTrim, hrhsLast, hrhsTrim, hname,
    hvalueSub, hnumeral, hn, ofOCaml_pure]
  cases e_s_t <;> rfl

theorem parseStpCe_line (strict : Bool) (e_s_t : ExternalSolverType)
    (x : SymbolText) (left right : Bool) {w v : ℕ} (hw : 0 < w) (hw64 : w ≤ 64)
    (hv : v < 2 ^ w) (p : StpPrefix) :
    parseStpCe strict e_s_t (stpLine x.name left right (p.text w v)) =
      pure (.assignment (e_s_t.varname x.name) (BitVec.ofNat 64 v) false) := by
  obtain ⟨init, d, hd, htext⟩ := exists_last_digit w v hw p
  refine parseStpCe_parts strict e_s_t x left right hd htext rfl rfl rfl
    (stpNumeral_text hw p) ?_
  cases p with
  | hex0 => exact hexText_int64 hw hw64 hv
  | hex => exact hexText_int64 hw hw64 hv
  | binary => exact bitsText_int64 hw hw64 hv

/-! ## CVC4 -/

theorem not_mem_decimal {v : ℕ} {c : UInt8} (hc : c.toNat < 48) :
    c ∉ decimal v := by
  intro hmem
  rw [decimal_eq_bytesOf] at hmem
  have hbounds := mem_bytesOf (isDigit_of_mem_toDigits v) hmem
  omega

theorem cvc4Numeral_bvText (w v : ℕ) :
    cvc4Numeral (bvText w v) = pure (decimal v) := by
  have hfour : stringSub (bvText w v) 0 4 = pure (ascii "(_ b") :=
    stringSub_prefix (q := 118 :: (decimal v ++ 32 :: (decimal w ++ ascii ")")))
      rfl rfl
  have hfive : stringSub (bvText w v) 0 5 = pure (ascii "(_ bv") :=
    stringSub_prefix rfl rfl
  have hrest : stringSub (bvText w v) 5 ((bvText w v).length - 5) =
      pure (decimal v ++ 32 :: (decimal w ++ ascii ")")) :=
    stringSub_rest (p := ascii "(_ bv") rfl rfl
  have hindex : stringIndex (decimal v ++ 32 :: (decimal w ++ ascii ")")) 32 =
      pure ((decimal v).length : ℤ) :=
    stringIndex_append rfl (not_mem_decimal (by decide))
  have hnumeral : stringSub (decimal v ++ 32 :: (decimal w ++ ascii ")")) 0
      (decimal v).length = pure (decimal v) := stringSub_prefix rfl rfl
  rw [cvc4Numeral, hfour, hfive, hrest]
  simp only [pure_bind, hindex, hnumeral]
  rfl

theorem cvc4ValueStart_bvText (w v : ℕ) :
    cvc4ValueStart (bvText w v) = pure true := by
  have hfour : stringSub (bvText w v) 0 4 = pure (ascii "(_ b") :=
    stringSub_prefix (q := 118 :: (decimal v ++ 32 :: (decimal w ++ ascii ")")))
      rfl rfl
  have hfive : stringSub (bvText w v) 0 5 = pure (ascii "(_ bv") :=
    stringSub_prefix rfl rfl
  rw [cvc4ValueStart, hfour, hfive]
  rfl

theorem cvc4TypeStart_typed (w v : ℕ) :
    cvc4TypeStart (cvc4Typed w v) = pure true := by
  have hfour : stringSub (cvc4Typed w v) 0 4 = pure (ascii "(_ B") :=
    stringSub_prefix
      (q := ascii "itVec " ++ (decimal w ++ 41 :: 32 :: bvText w v)) rfl rfl
  have hten : stringSub (cvc4Typed w v) 0 10 = pure (ascii "(_ BitVec ") :=
    stringSub_prefix rfl rfl
  rw [cvc4TypeStart, hfour, hten]
  rfl

theorem parseCvc4Ce_line (strict : Bool) (x : SymbolText) (w v : ℕ) :
    parseCvc4Ce strict (cvc4Line x.name w v) = (do
      let value ← ofOCaml (int64OfString (decimal v))
      pure (.assignment (smtlibRenameVar x.name) value false)) := by
  have hline : cvc4Line x.name w v = ascii "(define-fun " ++
      ((x.name ++ 32 :: (ascii "() " ++ cvc4Typed w v)) ++ ascii ")") := rfl
  have hclose : cvc4Line x.name w v ≠ ascii ")" := by
    intro h
    exact absurd (Option.some.inj (congrArg List.head? h)) (by decide)
  have hmodel : ascii "(model" ≠ cvc4Line x.name w v := by
    intro h
    exact absurd (Option.some.inj (congrArg (fun l : OString => l[1]?) h))
      (by decide)
  have hfirst : stringSub (cvc4Line x.name w v) 0 12 =
      pure (ascii "(define-fun ") := stringSub_prefix hline rfl
  have hlast : stringSub (cvc4Line x.name w v)
      ((cvc4Line x.name w v).length - 1) 1 = pure (ascii ")") :=
    stringSub_last (hline.trans (List.append_assoc ..).symm) rfl
  have htrimmed1 : stringSub (cvc4Line x.name w v) 12
      ((cvc4Line x.name w v).length - 13) =
      pure (x.name ++ 32 :: (ascii "() " ++ cvc4Typed w v)) :=
    stringSub_middle hline rfl rfl
  have hvarEnd : stringIndex (x.name ++ 32 :: (ascii "() " ++ cvc4Typed w v))
      32 = pure (x.name.length : ℤ) := stringIndex_append rfl x.noSpace
  have hvarname : stringSub (x.name ++ 32 :: (ascii "() " ++ cvc4Typed w v)) 0
      x.name.length = pure x.name := stringSub_prefix rfl rfl
  have htrimmed2 : stringSub (x.name ++ 32 :: (ascii "() " ++ cvc4Typed w v))
      (x.name.length + 4)
      ((x.name ++ 32 :: (ascii "() " ++ cvc4Typed w v)).length -
        (x.name.length + 4)) = pure (cvc4Typed w v) := by
    refine stringSub_rest (p := x.name ++ ascii " () ") ?_ ?_
    · rw [List.append_assoc]
      rfl
    · rw [List.length_append]
      rfl
  have hsix : stringSub (cvc4Typed w v) 0 6 = pure (ascii "(_ Bit") :=
    stringSub_prefix
      (q := ascii "Vec " ++ (decimal w ++ 41 :: 32 :: bvText w v)) rfl rfl
  have hfour : stringSub (cvc4Typed w v) 0 4 = pure (ascii "(_ B") :=
    stringSub_prefix
      (q := ascii "itVec " ++ (decimal w ++ 41 :: 32 :: bvText w v)) rfl rfl
  have htyped : cvc4Typed w v =
      (ascii "(_ BitVec " ++ decimal w) ++ 41 :: (32 :: bvText w v) :=
    (List.append_assoc ..).symm
  have hnoClose : 41 ∉ ascii "(_ BitVec " ++ decimal w := by
    rw [List.mem_append, not_or]
    exact ⟨by decide, not_mem_decimal (by decide)⟩
  have htypeEnd := stringIndex_append htyped hnoClose
  have htrimmed3 : stringSub (cvc4Typed w v)
      ((ascii "(_ BitVec " ++ decimal w).length + 2)
      ((cvc4Typed w v).length -
        ((ascii "(_ BitVec " ++ decimal w).length + 2)) =
      pure (bvText w v) := by
    refine stringSub_rest (p := ascii "(_ BitVec " ++ decimal w ++ [41, 32])
      ?_ ?_
    · rw [htyped, List.append_assoc _ [41, 32]]
      rfl
    · simp only [List.length_append, Nat.cast_add]
      rfl
  have harray : ascii "(Array" ≠ ascii "(_ Bit" := by decide
  have hbool : ¬ascii "(_ B" = ascii "Bool" := by decide
  rw [parseCvc4Ce, if_neg hclose, if_neg hmodel.symm, hfirst, hlast, htrimmed1]
  simp only [pure_bind, decide_true, gAssert_true, hvarEnd, hvarname, htrimmed2,
    hsix, if_neg harray.symm, cvc4TypeStart_typed, hfour, if_neg hbool, htypeEnd,
    htrimmed3, cvc4ValueStart_bvText, cvc4Numeral_bvText]

/-! ## Boolector -/

theorem parseBtorCe_line (x : SymbolText) {w v : ℕ} (hw : 0 < w)
    (hw64 : w ≤ 64) (hv : v < 2 ^ w) :
    parseBtorCe (btorLine x.name w v) =
      pure (.assignment (smtlibRenameVar x.name) (BitVec.ofNat 64 v)
        false) := by
  have hindex : stringIndex (btorLine x.name w v) 32 =
      pure (x.name.length : ℤ) := stringIndex_append rfl x.noSpace
  have hname : stringSub (btorLine x.name w v) 0 x.name.length = pure x.name :=
    stringSub_prefix rfl rfl
  have hbits : stringSub (btorLine x.name w v) (x.name.length + 1)
      ((btorLine x.name w v).length - x.name.length - 1) =
      pure (bitsText w v) := by
    rw [Int.sub_sub]
    refine stringSub_rest (p := x.name ++ [32]) ?_ ?_
    · rw [List.append_assoc]
      rfl
    · rw [List.length_append]
      rfl
  rw [parseBtorCe, hindex]
  simp only [pure_bind, hname, hbits, bitsText_int64 hw hw64 hv, ofOCaml_pure]

/-! ## Z3 -/

theorem parseZ3CeLine_first (strict : Bool) (x : SymbolText) (w : ℕ) :
    parseZ3CeLine strict (z3First x.name w) none =
      pure (.noCeHere, some (smtlibRenameVar x.name)) := by
  have hmodel : z3First x.name w ≠ ascii "(model " := by
    intro h
    exact absurd (Option.some.inj (congrArg List.head? h)) (by decide)
  have hclose : z3First x.name w ≠ ascii ")" := by
    intro h
    exact absurd (Option.some.inj (congrArg List.head? h)) (by decide)
  have hlong : longWith 14 "  (define-fun " (z3First x.name w) = true := by
    refine decide_eq_true ⟨?_, List.take_left' rfl⟩
    rw [z3First, List.length_append, List.length_append, List.length_append]
    have hascii : (ascii "  (define-fun ").length = 14 := rfl
    have hclose : ([41] : OString).length = 1 := rfl
    omega
  have htrim : stringSub (z3First x.name w) 14
      ((z3First x.name w).length - 14) =
      pure (x.name ++
        32 :: (ascii "() (_ BitVec " ++ (decimal w ++ [41]))) := by
    refine stringSub_rest (p := ascii "  (define-fun ") ?_ rfl
    rw [z3First, List.append_assoc, List.append_assoc]
    rfl
  have hindex : stringIndex
      (x.name ++ 32 :: (ascii "() (_ BitVec " ++ (decimal w ++ [41]))) 32 =
      pure (x.name.length : ℤ) := stringIndex_append rfl x.noSpace
  have hname : stringSub
      (x.name ++ 32 :: (ascii "() (_ BitVec " ++ (decimal w ++ [41]))) 0
      x.name.length = pure x.name := stringSub_prefix rfl rfl
  rw [parseZ3CeLine, if_neg hmodel, if_neg hclose, if_pos hlong, htrim]
  simp only [pure_bind, hindex, hname]

/-- A second line is read as its value is. -/
theorem parseZ3CeLine_second (strict : Bool) (varname text : OString) :
    parseZ3CeLine strict (z3Second text) (some varname) = (do
      match ← z3Value text with
      | none => pure (.noCeHere, none)
      | some v => pure (.assignment varname v false, none)) := by
  have hlong : longWith 4 "    " (z3Second text) = true := by
    refine decide_eq_true ⟨?_, List.take_left' rfl⟩
    rw [z3Second, List.length_append, List.length_append]
    have hascii : (ascii "    ").length = 4 := rfl
    have hclose : (ascii ")").length = 1 := rfl
    omega
  have hlast : stringSub (z3Second text) ((z3Second text).length - 1) 1 =
      pure (ascii ")") :=
    stringSub_last (List.append_assoc (ascii "    ") text _).symm rfl
  have htrim : stringSub (z3Second text) 4 ((z3Second text).length - 5) =
      pure text := stringSub_middle rfl rfl rfl
  rw [parseZ3CeLine, hlong, gAssert_true, hlast]
  simp only [pure_bind, ne_eq, not_true, if_false, htrim]

theorem longWith_of_head {n : ℕ} {p : String} {s : OString} (hn : 0 < n)
    (h : s.head? ≠ (ascii p).head?) : longWith n p s = false := by
  refine decide_eq_false ?_
  rintro ⟨-, htake⟩
  refine h ?_
  rw [← htake, List.head?_take, if_neg hn.ne']

theorem z3Value_hex {w v : ℕ} (hw : 0 < w) (hw64 : w ≤ 64) (hv : v < 2 ^ w) :
    z3Value (ascii "#x" ++ hexText w v) = pure (some (BitVec.ofNat 64 v)) := by
  have hhead (p : OString) (hp : p.head? ≠ some 35) :
      ascii "#x" ++ hexText w v ≠ p := fun h => hp (h ▸ rfl)
  have hsecond (p : OString) (hp : p[1]? ≠ some 120) :
      ascii "#x" ++ hexText w v ≠ p := fun h => hp (h ▸ rfl)
  have hlong : longWith 2 "#x" (ascii "#x" ++ hexText w v) = true := by
    refine decide_eq_true ⟨?_, List.take_left' rfl⟩
    have hlen := length_hexText w v
    change 2 < (hexText w v).length + 2
    omega
  rw [z3Value, if_neg (hhead _ (by decide)), if_neg (hhead _ (by decide)),
    if_neg (hsecond _ (by decide)), if_neg (hsecond _ (by decide)),
    if_pos hlong]
  have hdrop : (ascii "#x" ++ hexText w v).drop 2 = hexText w v := rfl
  rw [hdrop, hexText_int64 hw hw64 hv]
  rfl

theorem z3Value_binary {w v : ℕ} (hw : 0 < w) (hv : v < 2 ^ w) :
    z3Value (ascii "#b" ++ bitsText w v) =
      if w = 1 then pure (some (BitVec.ofNat 64 v))
      else throw (.raised
        (.failure "Unhandled value case in parse_z3_ce_lines")) := by
  split_ifs with hone
  · subst hone
    interval_cases v
    · rfl
    · rfl
  · have hlen := length_bitsText w v
    have hhead (p : OString) (hp : p.head? ≠ some 35) :
        ascii "#b" ++ bitsText w v ≠ p := fun h => hp (h ▸ rfl)
    have hlength (p : OString) (hp : p.length = 3) :
        ascii "#b" ++ bitsText w v ≠ p := by
      rintro rfl
      change (bitsText w v).length + 2 = 3 at hp
      omega
    have hx : ¬longWith 2 "#x" (ascii "#b" ++ bitsText w v) = true := by
      intro h
      have htake := (of_decide_eq_true h).2
      exact absurd (Option.some.inj
        (congrArg (fun l : OString => l[1]?) htake)) (by decide)
    have hother (n : ℕ) (p : String) (hn : 0 < n)
        (hp : (ascii p).head? ≠ some 35) :
        longWith n p (ascii "#b" ++ bitsText w v) = false :=
      longWith_of_head hn hp.symm
    rw [z3Value, if_neg (hhead _ (by decide)), if_neg (hhead _ (by decide)),
      if_neg (hlength _ rfl), if_neg (hlength _ rfl), if_neg hx]
    rw [hother 4 _ (by decide) (by decide), hother 6 _ (by decide) (by decide),
      hother 6 _ (by decide) (by decide), hother 6 _ (by decide) (by decide),
      hother 8 _ (by decide) (by decide), hother 8 _ (by decide) (by decide),
      hother 11 _ (by decide) (by decide)]
    rfl

/-! ## MathSAT -/

theorem mathsatValue_bvText (varname closing : OString) (final : Bool)
    {w v : ℕ} (hw64 : w ≤ 64) (hv : v < 2 ^ w) :
    mathsatValue (mathsatSecond w v closing) varname final =
      pure (.assignment varname (BitVec.ofNat 64 v) final, none) := by
  have hparts : mathsatSecond w v closing = ascii " (_ bv" ++
      (decimal v ++ 32 :: ((decimal w ++ ascii ")") ++ closing)) := by
    rw [mathsatSecond, bvText, List.append_assoc, List.append_assoc]
    rfl
  have hlong : longWith 6 " (_ bv" (mathsatSecond w v closing) = true := by
    rw [hparts]
    refine decide_eq_true ⟨?_, List.take_left' rfl⟩
    rw [List.length_append, List.length_append, List.length_cons]
    have hascii : (ascii " (_ bv").length = 6 := rfl
    omega
  have hs2 : stringSub (mathsatSecond w v closing) 6
      ((mathsatSecond w v closing).length - 6) =
      pure (decimal v ++ 32 :: ((decimal w ++ ascii ")") ++ closing)) :=
    stringSub_rest hparts rfl
  have hindex : stringIndex
      (decimal v ++ 32 :: ((decimal w ++ ascii ")") ++ closing)) 32 =
      pure ((decimal v).length : ℤ) :=
    stringIndex_append rfl (not_mem_decimal (by decide))
  have hnum : stringSub
      (decimal v ++ 32 :: ((decimal w ++ ascii ")") ++ closing)) 0
      (decimal v).length = pure (decimal v) := stringSub_prefix rfl rfl
  have hv64 : v < 2 ^ 64 :=
    hv.trans_le (Nat.pow_le_pow_right (by norm_num) hw64)
  rw [mathsatValue, if_pos hlong, hs2]
  simp only [pure_bind, hindex, hnum, int64UOfString_decimal hv64,
    ofOCaml_pure]

/-- The two ways in which an assignment of MathSAT is opened. -/
def mathsatOpening : Bool → OString
  | false => ascii "  ("
  | true => ascii "( ("

theorem mathsatOpening_length (first : Bool) :
    (mathsatOpening first).length = 3 := by
  cases first <;> rfl

theorem mathsatOpening_cond (first : Bool) {rest : OString}
    (hrest : 1 < rest.length) :
    4 < (mathsatOpening first ++ rest).length ∧
      ((mathsatOpening first ++ rest).take 3 = ascii "  (" ∨
        (mathsatOpening first ++ rest).take 3 = ascii "( (") := by
  have hlen := mathsatOpening_length first
  rw [List.length_append, List.take_left' hlen]
  refine ⟨by omega, ?_⟩
  cases first
  · exact Or.inl rfl
  · exact Or.inr rfl

/-- The name alone on its line is read if it is not a single character. -/
theorem parseMathsatCeLine_first (x : SymbolText) (first : Bool) :
    parseMathsatCeLine (mathsatOpening first ++ x.name) none =
      if 1 < x.name.length then
        pure (.noCeHere, some (smtlibRenameVar x.name))
      else throw (.raised
        (.failure "Unhandled loop case in parse_mathsat_ce_line")) := by
  have hlen := mathsatOpening_length first
  split_ifs with hname
  · have hrest : stringSub (mathsatOpening first ++ x.name) 3
        ((mathsatOpening first ++ x.name).length - 3) = pure x.name :=
      stringSub_rest rfl (by rw [hlen]; rfl)
    rw [parseMathsatCeLine, if_pos (mathsatOpening_cond first hname), hrest]
    simp only [pure_bind, if_neg x.noSpace]
  · have hpos := List.length_pos_of_ne_nil x.nonempty
    have hlength : (mathsatOpening first ++ x.name).length = 4 := by
      rw [List.length_append]
      omega
    have hclose : mathsatOpening first ++ x.name ≠ ascii ")" := by
      intro h
      rw [h] at hlength
      cases hlength
    have hlast : mathsatOpening first ++ x.name ≠ ascii ") )" := by
      intro h
      rw [h] at hlength
      cases hlength
    have hempty : mathsatOpening first ++ x.name ≠ ascii "(  )" := by
      intro h
      have htake := congrArg (List.take 3) h
      rw [List.take_left' hlen] at htake
      cases first
      · exact absurd htake (by decide)
      · exact absurd htake (by decide)
    rw [parseMathsatCeLine, if_neg (by omega), if_neg hclose, if_neg hlast,
      if_neg hempty]

theorem parseMathsatCeLine_line (x : SymbolText) (first : Bool)
    (closing : OString) {w v : ℕ} (hw64 : w ≤ 64) (hv : v < 2 ^ w) :
    ∃ final, parseMathsatCeLine
        (mathsatOpening first ++ (x.name ++ mathsatSecond w v closing)) none =
      pure (.assignment (smtlibRenameVar x.name) (BitVec.ofNat 64 v) final,
        none) := by
  have hlen := mathsatOpening_length first
  have hpos := List.length_pos_of_ne_nil x.nonempty
  have hsecond : 3 ≤ (mathsatSecond w v closing).length := by
    rw [mathsatSecond, List.length_cons, bvText, List.length_append,
      List.length_append]
    have hascii : (ascii "(_ bv").length = 5 := rfl
    omega
  have hlong : 1 < (x.name ++ mathsatSecond w v closing).length := by
    rw [List.length_append]
    omega
  have hrest : stringSub
      (mathsatOpening first ++ (x.name ++ mathsatSecond w v closing)) 3
      ((mathsatOpening first ++ (x.name ++ mathsatSecond w v closing)).length -
        3) = pure (x.name ++ mathsatSecond w v closing) :=
    stringSub_rest rfl (by rw [hlen]; rfl)
  have hspace : 32 ∈ x.name ++ mathsatSecond w v closing :=
    List.mem_append_right _ List.mem_cons_self
  have hindex : stringIndex (x.name ++ mathsatSecond w v closing) 32 =
      pure (x.name.length : ℤ) := stringIndex_append rfl x.noSpace
  have hname : stringSub (x.name ++ mathsatSecond w v closing) 0
      x.name.length = pure x.name := stringSub_prefix rfl rfl
  have hfrom : stringSub (x.name ++ mathsatSecond w v closing) x.name.length
      ((x.name ++ mathsatSecond w v closing).length - x.name.length) =
      pure (mathsatSecond w v closing) := stringSub_rest rfl rfl
  have hlast : ∃ last, stringSub (mathsatSecond w v closing)
      ((mathsatSecond w v closing).length - 3) 3 = pure last :=
    ⟨_, if_pos ⟨by omega, by omega, by omega⟩⟩
  obtain ⟨last, hlast⟩ := hlast
  refine ⟨decide (last = ascii ") )"), ?_⟩
  rw [parseMathsatCeLine, if_pos (mathsatOpening_cond first hlong), hrest]
  simp only [pure_bind, if_pos hspace, hindex, hname, hfrom, hlast,
    mathsatValue_bvText _ _ _ hw64 hv]

/-! ## All notations -/

/-- The notations of the solvers, with the spaces, parentheses and line breaks
that may differ. -/
inductive NumberFormat
  | stp (e_s_t : ExternalSolverType) (p : StpPrefix) (left right : Bool)
  | cvc4
  | boolector
  | z3Hex
  | z3Binary
  | mathsat (first : Bool) (closing : OString)
  | mathsatLine (first : Bool) (closing : OString)

namespace NumberFormat

/-- Two lines of a model of Z3. -/
def parseZ3 (strict : Bool) (x : SymbolText) (w : ℕ) (text : OString) :
    Parsing MaybeCeResult := do
  let (_, v) ← parseZ3CeLine strict (z3First x.name w) none
  let (result, _) ← parseZ3CeLine strict (z3Second text) v
  pure result

/-- What is read of a `w`-bit number in its notation. -/
def parse (strict : Bool) (x : SymbolText) (w v : ℕ) :
    NumberFormat → Parsing MaybeCeResult
  | stp e_s_t p left right =>
    parseStpCe strict e_s_t (stpLine x.name left right (p.text w v))
  | cvc4 => parseCvc4Ce strict (cvc4Line x.name w v)
  | boolector => parseBtorCe (btorLine x.name w v)
  | z3Hex => parseZ3 strict x w (ascii "#x" ++ hexText w v)
  | z3Binary => parseZ3 strict x w (ascii "#b" ++ bitsText w v)
  | mathsat first closing => do
    let (_, name) ← parseMathsatCeLine (mathsatOpening first ++ x.name) none
    let (result, _) ← parseMathsatCeLine (mathsatSecond w v closing) name
    pure result
  | mathsatLine first closing => do
    let (result, _) ← parseMathsatCeLine
      (mathsatOpening first ++ (x.name ++ mathsatSecond w v closing)) none
    pure result

def varname (x : SymbolText) : NumberFormat → OString
  | stp e_s_t _ _ _ => e_s_t.varname x.name
  | _ => smtlibRenameVar x.name

/-- The assignment that is read has the bit pattern of the number. -/
def Exact (strict : Bool) (x : SymbolText) (w v : ℕ) (f : NumberFormat) :
    Prop :=
  ∃ final, f.parse strict x w v =
    .ok (.assignment (f.varname x) (BitVec.ofNat 64 v) final)

/-- Where a notation is read exactly. -/
def Reads (x : SymbolText) (w v : ℕ) : NumberFormat → Prop
  | cvc4 => v < 2 ^ 63
  | z3Binary => w = 1
  | mathsat _ _ => 1 < x.name.length
  | _ => True

theorem parseZ3_eq (strict : Bool) (x : SymbolText) (w : ℕ) (text : OString) :
    parseZ3 strict x w text = (do
      match ← z3Value text with
      | none => pure .noCeHere
      | some v => pure (.assignment (smtlibRenameVar x.name) v false)) := by
  rw [parseZ3, parseZ3CeLine_first]
  simp only [pure_bind, parseZ3CeLine_second]
  cases z3Value text with
  | error e => rfl
  | ok v => cases v <;> rfl

theorem exact_iff_reads (strict : Bool) (x : SymbolText) (f : NumberFormat)
    {w v : ℕ} (hw : 0 < w) (hw64 : w ≤ 64) (hv : v < 2 ^ w) :
    f.Exact strict x w v ↔ f.Reads x w v := by
  cases f with
  | stp e_s_t p left right =>
    exact iff_of_true
      ⟨false, parseStpCe_line strict e_s_t x left right hw hw64 hv p⟩ trivial
  | cvc4 =>
    rw [Exact, parse, parseCvc4Ce_line, int64OfString_decimal, Reads]
    split_ifs with hlt
    · exact iff_of_true ⟨false, rfl⟩ hlt
    · refine iff_of_false ?_ hlt
      rintro ⟨final, h⟩
      cases h
  | boolector =>
    exact iff_of_true ⟨false, parseBtorCe_line x hw hw64 hv⟩ trivial
  | z3Hex =>
    refine iff_of_true ⟨false, ?_⟩ trivial
    rw [parse, parseZ3_eq, z3Value_hex hw hw64 hv]
    rfl
  | z3Binary =>
    rw [Exact, parse, parseZ3_eq, z3Value_binary hw hv, Reads]
    split_ifs with hone
    · exact iff_of_true ⟨false, rfl⟩ hone
    · refine iff_of_false ?_ hone
      rintro ⟨final, h⟩
      cases h
  | mathsat first closing =>
    rw [Exact, parse, parseMathsatCeLine_first, Reads]
    split_ifs with hname
    · have hsecond : parseMathsatCeLine (mathsatSecond w v closing)
          (some (smtlibRenameVar x.name)) =
          pure (.assignment (smtlibRenameVar x.name) (BitVec.ofNat 64 v) false,
            none) := mathsatValue_bvText _ _ _ hw64 hv
      refine iff_of_true ⟨false, ?_⟩ hname
      simp only [pure_bind, hsecond]
      rfl
    · refine iff_of_false ?_ hname
      rintro ⟨final, h⟩
      cases h
  | mathsatLine first closing =>
    obtain ⟨final, hline⟩ := parseMathsatCeLine_line x first closing hw64 hv
    refine iff_of_true ⟨final, ?_⟩ trivial
    rw [parse, hline]
    rfl

/-- A variable of a program. -/
def inputByte : SymbolText where
  name := ascii "input_b0_0"
  nonempty := by decide
  noSpace := by decide
  noEquals := by decide

/-- The largest number of 64 bits is read of MathSAT. -/
theorem exact_iff_reads_mathsat :
    (mathsat false (ascii ")")).Exact true inputByte 64 (2 ^ 64 - 1) ↔
      (mathsat false (ascii ")")).Reads inputByte 64 (2 ^ 64 - 1) :=
  exact_iff_reads true inputByte _ (by decide) le_rfl (by decide)

/-- The same number is not read of CVC4. -/
theorem cvc4_not_exact :
    cvc4.parse true inputByte 64 (2 ^ 64 - 1) =
        .error (.raised (.failure "Int64.of_string")) ∧
      ¬cvc4.Exact true inputByte 64 (2 ^ 64 - 1) := by
  have hparse : cvc4.parse true inputByte 64 (2 ^ 64 - 1) =
      .error (.raised (.failure "Int64.of_string")) := by
    rw [parse, parseCvc4Ce_line, int64OfString_decimal, if_neg (by norm_num)]
    rfl
  refine ⟨hparse, ?_⟩
  rintro ⟨final, h⟩
  rw [hparse] at h
  cases h

end NumberFormat

end Fuzzball.SmtLib
