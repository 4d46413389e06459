import Fuzzball.SmtTranslate

/-!
# What the operators of a query mean

The value of an expression as a value of SMT-LIB, where `REG_1` is `Bool`, and
the meaning of the operators and casts of the translation on such values.
-/

namespace Fuzzball.SmtLib

open Vine

/-- A value of a register type as a value of the sort `type2s` gives it. -/
def encode (t : Typ) {w : ℕ} (x : BitVec w) : Smt.Value :=
  if t = .reg1 then .bool (x.getLsbD 0) else .bits t.width (x.setWidth t.width)

theorem encode_reg1 {w : ℕ} (x : BitVec w) :
    encode .reg1 x = .bool (x.getLsbD 0) := rfl

theorem encode_bits {t : Typ} (ht : t ≠ .reg1) (x : BitVec t.width) :
    encode t x = .bits t.width x := by
  rw [encode, if_neg ht, BitVec.setWidth_eq]

theorem encode_sameSort (t : Typ) {w : ℕ} (x y : BitVec w) :
    (encode t x).sameSort (encode t y) = true := by
  by_cases ht : t = .reg1
  · rw [ht]
    rfl
  · rw [encode, encode, if_neg ht, if_neg ht]
    exact decide_eq_true rfl

theorem bits_congr {w w' : ℕ} {x : BitVec w} {y : BitVec w'} (hw : w = w')
    (hx : x.setWidth w' = y) : Smt.Value.bits w x = .bits w' y := by
  subst hw
  rw [← hx, BitVec.setWidth_eq]

section Values

variable {μ : Type*} [VineMemory μ] {ρ : Valuation μ} {e e1 e2 : Exp} {t : Typ}

/-- The value of an expression in SMT-LIB. -/
def smtValue (ρ : Valuation μ) (e : Exp) : Smt.Value :=
  encode e.typ (e.eval ρ e.width)

theorem smtValue_reg1 (h : e.typ = .reg1) :
    smtValue ρ e = .bool ((e.eval ρ 1).getLsbD 0) := by
  rw [smtValue, Exp.width, h]
  rfl

theorem smtValue_bits (h : e.typ = t) (ht : t ≠ .reg1) :
    smtValue ρ e = .bits t.width (e.eval ρ t.width) := by
  rw [smtValue, Exp.width, h]
  exact encode_bits ht _

theorem smtValue_of_eval {x : BitVec t.width} (h : e.typ = t)
    (hx : e.eval ρ t.width = x) : smtValue ρ e = encode t x := by
  rw [smtValue, Exp.width, h, hx]

end Values

/-! ## Single bits -/

section Bits

variable {w : ℕ}

theorem getLsbD_flag_one (b : Bool) : (flag 1 b).getLsbD 0 = b := by
  cases b <;> rfl

theorem eq_one_iff (x : BitVec 1) : x = 1 ↔ x.getLsbD 0 = true := by
  revert x
  decide

theorem beq_ofBool (b : Bool) (x : BitVec 1) :
    (BitVec.ofBool b == x) = (b == x.getLsbD 0) := by
  revert b x
  decide

theorem one_beq (x : BitVec 1) : (1 == x) = x.getLsbD 0 := by
  revert x
  decide

theorem signExtend_bit (x : BitVec 1) :
    x.signExtend w = if x.getLsbD 0 then BitVec.allOnes w else 0 := by
  ext j hj
  rw [BitVec.getElem_signExtend]
  by_cases hj1 : j < 1
  · obtain rfl : j = 0 := by omega
    cases h : x.getLsbD 0 <;> simp_all [BitVec.getLsbD_eq_getElem]
  · cases h : x.getLsbD 0 <;> simp_all [BitVec.msb_eq_getLsbD_last]

theorem setWidth_bit (x : BitVec 1) :
    x.setWidth w = if x.getLsbD 0 then 1 else 0 := by
  have hx : x = if x.getLsbD 0 then 1 else 0 := by
    revert x
    decide
  cases h : x.getLsbD 0
  · rw [h] at hx
    rw [hx]
    exact BitVec.setWidth_zero w 1
  · rw [h] at hx
    rw [hx]
    apply BitVec.eq_of_toNat_eq
    simp

theorem getLsbD_setWidth_ushiftRight (x : BitVec w) (k : ℕ) :
    ((x >>> k).setWidth 1).getLsbD 0 = x.getLsbD k := by
  simp

end Bits

/-! ## Operators -/

section Operators

variable {env : Smt.Env OString} {a b : Query}

/-- The operations on bits that the rows for `REG_1` compute. -/
def boolMeaning : BinopType → Bool → Bool → Bool
  | .plus, x, y | .xor, x, y | .neq, x, y => x ^^ y
  | .times, x, y | .bitand, x, y => x && y
  | .bitor, x, y => x || y
  | .lt, x, y => !x && y
  | .le, x, y => !x || y
  | .slt, x, y => x && !y
  | .sle, x, y => x || !y
  | _, x, y => !(x ^^ y)

/-- The operators whose second operand is resized. -/
def Resizes : BinopType → Prop
  | .lshift | .rshift | .arshift => True
  | _ => False

instance : DecidablePred Resizes := fun op => by
  cases op <;> unfold Resizes <;> infer_instance

theorem denote_boolBinop {op : BinopType} {x y : Bool} (hop : ¬ Resizes op)
    (hcat : op ≠ .concat) (ha : a.denote env = some (.bool x))
    (hb : b.denote env = some (.bool y)) :
    (boolBinop op a b).denote env = some (.bool (boolMeaning op x y)) := by
  cases op <;> first
    | exact absurd trivial hop
    | exact absurd rfl hcat
    | simp only [boolBinop, Smt.Term.denote, ha, hb, Option.bind_eq_bind,
        Option.bind_some, Smt.Value.bools, Smt.Value.not, Smt.BoolOp.apply,
        boolMeaning]

/-- The operations of one width, as functions of SMT-LIB. -/
def bvMeaning {w : ℕ} : BinopType → BitVec w → BitVec w → Smt.Value
  | .plus, x, y => .bits w (x + y)
  | .minus, x, y => .bits w (x - y)
  | .times, x, y => .bits w (x * y)
  | .divide, x, y => .bits w (x.smtUDiv y)
  | .sdivide, x, y => .bits w (x.smtSDiv y)
  | .mod, x, y => .bits w (x % y)
  | .smod, x, y => .bits w (x.srem y)
  | .bitand, x, y => .bits w (x &&& y)
  | .bitor, x, y => .bits w (x ||| y)
  | .xor, x, y => .bits w (x ^^^ y)
  | .eq, x, y => .bool (x == y)
  | .neq, x, y => .bool (x != y)
  | .lt, x, y => .bool (x.ult y)
  | .le, x, y => .bool (x.ule y)
  | .slt, x, y => .bool (x.slt y)
  | .sle, x, y => .bool (x.sle y)
  | .lshift, x, y => .bits w (x <<< y.toNat)
  | .rshift, x, y => .bits w (x >>> y.toNat)
  | .arshift, x, y => .bits w (x.sshiftRight y.toNat)
  | .concat, x, y => .bits (w + w) (x ++ y)

theorem denote_bitsBinop (op : BinopType) {w : ℕ} {x y : BitVec w}
    (ha : a.denote env = some (.bits w x))
    (hb : b.denote env = some (.bits w y)) :
    (bitsBinop op a b).denote env = some (bvMeaning op x y) := by
  cases op <;>
    simp only [bitsBinop, Smt.Term.denote, ha, hb, Option.bind_eq_bind,
      Option.bind_some, Smt.Value.zip_bits, Smt.Value.eq_bits, Smt.Value.not,
      Smt.Value.concat, Smt.BvOp.apply, Smt.BvRel.apply, bvMeaning, bne]

/-- A shift of a Boolean has no value. -/
theorem denote_shift_bool {op : BinopType} {x : Bool} (hop : Resizes op)
    (ha : a.denote env = some (.bool x)) :
    (boolBinop op a b).denote env = none := by
  cases op <;> first
    | exact hop.elim
    | simp only [boolBinop, Smt.Term.denote, ha, Option.bind_eq_bind,
        Option.bind_some, Smt.Value.zip_bool, Option.bind_fun_none]

end Operators

/-! ## Casts -/

section Casts

variable {env : Smt.Env OString} {a : Query} {t t1 : Typ}

def castMeaning (ct : CastType) {w1 : ℕ} (w : ℕ) (x : BitVec w1) : BitVec w :=
  match ct with
  | .castUnsigned | .castLow => x.setWidth w
  | .castSigned => x.signExtend w
  | .castHigh => Bits.high w x

theorem castMeaning_self (ct : CastType) {w : ℕ} (x : BitVec w) :
    castMeaning ct w x = x := by
  cases ct with
  | castUnsigned | castLow => exact BitVec.setWidth_eq x
  | castSigned => exact BitVec.signExtend_eq x
  | castHigh => exact Bits.high_self x

/-- A choice between two numerals by a bit. -/
theorem denote_ite_numeral {x : BitVec 1} (ht : t ≠ .reg1)
    (ha : a.denote env = some (encode .reg1 x)) (y z : BitVec t.width) :
    (Smt.Term.ite a (.numeral t.width y) (.numeral t.width z)).denote env =
      some (encode t (if x.getLsbD 0 then y else z)) := by
  have hsort : (Smt.Value.bits t.width y).sameSort (.bits t.width z) = true :=
    decide_eq_true rfl
  simp only [Smt.Term.denote, ha, encode_reg1, Option.bind_eq_bind,
    Option.bind_some, Smt.Value.ite_of_sameSort _ hsort]
  rw [encode_bits ht]
  split_ifs <;> rfl

theorem denote_extract {w m j : ℕ} {x : BitVec w} (hm : 0 < m)
    (hw : j + m ≤ w) (ha : a.denote env = some (.bits w x)) :
    (Smt.Term.extract (j + m - 1 : ℤ) j a).denote env =
      some (.bits m ((x >>> j).setWidth m)) := by
  simp only [Smt.Term.denote, ha, Option.bind_eq_bind, Option.bind_some,
    Smt.Value.extract_bits x hm hw]

/-- A bit of a vector compared with a digit. -/
theorem denote_bit {w j : ℕ} {x : BitVec w} (b : Bool) (hj : j < w)
    (ha : a.denote env = some (.bits w x)) :
    (Smt.Term.eq (.numeral 1 (BitVec.ofBool b)) (.extract j j a)).denote env =
      some (.bool (b == x.getLsbD j)) := by
  simp only [Smt.Term.denote, ha, Option.bind_eq_bind, Option.bind_some,
    Smt.Value.extract_bit x hj, Smt.Value.eq_bits, beq_ofBool,
    getLsbD_setWidth_ushiftRight]

theorem denote_translateCast {ct : CastType} {x : BitVec t1.width}
    (ht : t.IsReg) (ht1 : t1.IsReg) (hadm : ct.Admits t t1)
    (ha : a.denote env = some (encode t1 x)) :
    (translateCast ct t t1 t.width t1.width a).denote env =
      some (encode t (castMeaning ct t.width x)) := by
  by_cases heq : t1 = t
  · subst heq
    unfold translateCast
    rw [if_pos rfl, ha, castMeaning_self]
  unfold translateCast
  rw [if_neg heq]
  cases ct with
  | castSigned =>
    by_cases h1 : t1 = .reg1
    · subst h1
      have hx : castMeaning .castSigned t.width x = _ := signExtend_bit x
      rw [hx]
      exact denote_ite_numeral (Ne.symm heq) ha _ _
    · have hle : t1.width ≤ t.width := hadm
      have hreg : t ≠ .reg1 := by
        rintro rfl
        cases t1 <;> simp_all [Typ.width, Typ.IsReg]
      rw [encode_bits h1] at ha
      simp only [if_neg h1, Smt.Term.denote, ha, Option.bind_eq_bind,
        Option.bind_some, Smt.Value.signExtend]
      rw [encode_bits hreg, castMeaning,
        bits_congr (Nat.add_sub_cancel' hle)
          (Bits.setWidth_signExtend_of_ge (by omega) x)]
  | castUnsigned =>
    by_cases h1 : t1 = .reg1
    · subst h1
      have hx : castMeaning .castUnsigned t.width x = _ := setWidth_bit x
      rw [hx]
      exact denote_ite_numeral (Ne.symm heq) ha _ _
    · have hle : t1.width ≤ t.width := hadm
      have hreg : t ≠ .reg1 := by
        rintro rfl
        cases t1 <;> simp_all [Typ.width, Typ.IsReg]
      rw [encode_bits h1] at ha
      simp only [if_neg h1, makeZeros, Smt.Term.denote, ha, Option.bind_eq_bind,
        Option.bind_some, Smt.Value.concat]
      rw [encode_bits hreg, castMeaning]
      have hw : t.width - t1.width + t1.width = t.width :=
        Nat.sub_add_cancel hle
      rw [bits_congr hw]
      rw [Bits.zero_append, Bits.setWidth_setWidth_of_ge (by omega)]
  | castLow =>
    have hle : t.width ≤ t1.width := hadm
    have h1 : t1 ≠ .reg1 := by
      rintro rfl
      cases t <;> simp_all [Typ.width, Typ.IsReg]
    rw [encode_bits h1] at ha
    by_cases hreg : t = .reg1
    · subst hreg
      have hbit := denote_bit true ht1.width_pos ha
      simpa [castMeaning, encode_reg1] using hbit
    · have hext := denote_extract (j := 0) ht.width_pos (by omega) ha
      simpa [castMeaning, encode_bits hreg, hreg] using hext
  | castHigh =>
    have hle : t.width ≤ t1.width := hadm
    have h1 : t1 ≠ .reg1 := by
      rintro rfl
      cases t <;> simp_all [Typ.width, Typ.IsReg]
    rw [encode_bits h1] at ha
    obtain ⟨j, hj⟩ := Nat.exists_eq_add_of_le' hle
    have hlow : (t1.width - t.width : ℤ) = (j : ℤ) := by omega
    have hhigh : (t1.width - 1 : ℤ) = j + t.width - 1 := by omega
    have hsub : t1.width - t.width = j := by omega
    simp only [hlow, hhigh, castMeaning, Bits.high, hsub]
    by_cases hreg : t = .reg1
    · subst hreg
      have hbit := denote_bit true (show j < t1.width by
        rw [hj]
        exact Nat.lt_succ_self j) ha
      simpa [encode_reg1] using hbit
    · have hext := denote_extract ht.width_pos hj.ge ha
      simpa [encode_bits hreg, hreg] using hext

end Casts

end Fuzzball.SmtLib
