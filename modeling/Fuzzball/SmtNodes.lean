import Fuzzball.SmtMeaning

/-!
# The translation of single operations

An expression is looked at together with all its parts, each in the scope of
the `let`s around it.  This file takes the operations one by one: when the
operands keep their values in the query, does the operation?
-/

namespace Fuzzball.SmtLib

open Vine

variable {μ : Type*} [VineMemory μ]

/-! ## Scopes -/

/-- The values of the variables, and what the symbols stand for. -/
structure Scope (μ : Type*) where
  values : Valuation μ
  env : Smt.Env OString

/-- The scope of the body of a `let`. -/
def Scope.bind (vs : List Var) (s : Scope μ) (v : Var) (e : Exp) : Scope μ where
  values := s.values.setTemp v ((e.eval s.values e.width).setWidth 64)
  env := s.env.bind (trVar vs v) (smtValue s.values e)

/-- A property of an expression and of its parts, each in its scope.  Nothing
is in the scope of a `let` of memory, which is not printed. -/
def Everywhere (vs : List Var) (P : Exp → Scope μ → Prop) :
    Exp → Scope μ → Prop
  | .binOp op e1 e2, s =>
    P (.binOp op e1 e2) s ∧ Everywhere vs P e1 s ∧ Everywhere vs P e2 s
  | .unOp op e1, s => P (.unOp op e1) s ∧ Everywhere vs P e1 s
  | .mem v addr t, s => P (.mem v addr t) s ∧ Everywhere vs P addr s
  | .cast ct t e1, s => P (.cast ct t e1) s ∧ Everywhere vs P e1 s
  | .letTemp v e1 e2, s =>
    P (.letTemp v e1 e2) s ∧ Everywhere vs P e1 s ∧
      Everywhere vs P e2 (s.bind vs v e1)
  | .letMem v addr t e1 e2, s =>
    P (.letMem v addr t e1 e2) s ∧ Everywhere vs P addr s ∧
      Everywhere vs P e1 s
  | .ite cond e1 e2, s =>
    P (.ite cond e1 e2) s ∧ Everywhere vs P cond s ∧ Everywhere vs P e1 s ∧
      Everywhere vs P e2 s
  | e, s => P e s

/-- The term that is printed has the value of the expression. -/
def Translated (coin : Exp → Bool) (vs : List Var) (e : Exp) (s : Scope μ) :
    Prop :=
  ∃ q, translateExp coin vs e = .ok q ∧
    q.denote s.env = some (smtValue s.values e)

def DivisorNonzero : Exp → Scope μ → Prop
  | .binOp .divide _ e2, s | .binOp .sdivide _ e2, s | .binOp .mod _ e2, s
  | .binOp .smod _ e2, s => e2.eval s.values e2.width ≠ 0
  | _, _ => True

/-! ## Exceptions -/

def ReadsBit (x : Exp) (k : I64) : Prop := x.typ ≠ .reg1 ∧ k.toNat < x.width

def shiftBy {w : ℕ} : BinopType → BitVec w → ℕ → BitVec w
  | .lshift, x, n => x <<< n
  | .rshift, x, n => x >>> n
  | _, x, n => x.sshiftRight n

/-- The shift is of bits, and gives the same by the low bits of the amount. -/
def ShiftsAlike (op : BinopType) (e1 e2 : Exp) (s : Scope μ) : Prop :=
  e1.typ ≠ .reg1 ∧
    shiftBy op (e1.eval s.values e1.width) (e2.eval s.values e2.width).toNat =
      shiftBy op (e1.eval s.values e1.width)
        ((e2.eval s.values e2.width).toNat % 2 ^ e1.width)

/-- The access is printed as one to an array whose element, at the index cut
to the width of the array's indices, is the one that the memory holds. -/
def ReadsArray (vs : List Var) (v : Var) (addr : Exp) (t : Typ) (s : Scope μ) :
    Prop :=
  addr.typ ≠ .reg1 ∧ ∃ elt size, v.typ = .array elt size ∧
    ∃ m : ℕ, ceilLog2 size = m ∧ 0 < m ∧ m ≤ addr.width ∧
      ∃ a, s.env (trVar vs v) = some (.array m a) ∧
        a ((addr.eval s.values addr.width).setWidth m) =
          smtValue s.values (.mem v addr t)

/-- The expression, once its parts are translated with their meaning, is so
too. -/
def Readable (vs : List Var) : Exp → Scope μ → Prop
  | .temp v, s => s.env (trVar vs v) = some (smtValue s.values (.temp v))
  | .mem v addr t, s => ReadsArray vs v addr t s
  | .name _, _ => False
  | .letMem _ _ _ _ _, _ => False
  | .unOp op e1, _ =>
    match negatedBitRead? op e1 with
    | some (x, k) => ReadsBit x k
    | none => op = .neg → e1.typ ≠ .reg1
  | .cast ct t e1, _ =>
    match bitRead? (.cast ct t e1) with
    | some (x, k) => ReadsBit x k
    | none => True
  | .binOp op e1 e2, s =>
    match op with
    | .minus => e1.typ ≠ .reg1
    | .mod | .smod => e1.typ = .reg1 → e1.eval s.values 1 = 0
    | .lshift | .rshift | .arshift => ShiftsAlike op e1 e2 s
    | _ => True
  | _, _ => True

/-! ## Parts -/

section Parts

variable {vs : List Var} {P : Exp → Scope μ → Prop} {e : Exp} {s : Scope μ}

theorem Everywhere.here (h : Everywhere vs P e s) : P e s := by
  cases e <;> first | exact h.1 | exact h

theorem Pieces.everywhere {t : Typ} {l : List (I64 × Exp)} (hl : Pieces t e l)
    (h : Everywhere vs P e s) : ∀ x ∈ l.map Prod.snd, Everywhere vs P x s := by
  induction hl with
  | cast x =>
    intro y hy
    rw [List.mem_singleton.mp hy]
    exact h.2
  | shift x ty k =>
    intro y hy
    rw [List.mem_singleton.mp hy]
    exact h.2.1.2
  | or _ _ iha ihb =>
    intro y hy
    rw [List.map_append, List.mem_append] at hy
    exact hy.elim (iha h.2.1 y) (ihb h.2.2 y)

theorem Pieces.wellTyped {t : Typ} {l : List (I64 × Exp)} (hl : Pieces t e l)
    (h : e.WellTyped) : ∀ x ∈ l.map Prod.snd, x.WellTyped := by
  induction hl with
  | cast x =>
    intro y hy
    rw [List.mem_singleton.mp hy]
    exact h.1
  | shift x ty k =>
    intro y hy
    rw [List.mem_singleton.mp hy]
    exact h.1.1
  | or _ _ iha ihb =>
    intro y hy
    rw [List.map_append, List.mem_append] at hy
    exact hy.elim (iha h.1 y) (ihb h.2.1 y)

theorem Pieces.typ_eq {t : Typ} {l : List (I64 × Exp)} (hl : Pieces t e l) :
    e.typ = t := by
  induction hl with
  | cast x => rfl
  | shift x ty k => rfl
  | or _ _ iha _ => exact iha

end Parts

section Nodes

variable {coin : Exp → Bool} {vs : List Var} {s : Scope μ}

/-! ## Constants, variables and accesses -/

theorem translated_of_ok {e : Exp} {q : Query}
    (h : translateExp coin vs e = .ok q)
    (hq : q.denote s.env = some (smtValue s.values e)) :
    Translated coin vs e s :=
  ⟨q, h, hq⟩

theorem translated_iff_of_ok {e : Exp} {q : Query}
    (h : translateExp coin vs e = .ok q) : Translated coin vs e s ↔
      q.denote s.env = some (smtValue s.values e) := by
  constructor
  · rintro ⟨q', hq', hval⟩
    rw [h] at hq'
    cases hq'
    exact hval
  · exact translated_of_ok h

theorem not_translated_of_error {e : Exp} {r : Exn}
    (h : translateExp coin vs e = .error r) : ¬ Translated coin vs e s := by
  rintro ⟨q, hq, -⟩
  rw [h] at hq
  cases hq

theorem translated_int {t : Typ} {i : I64} (ht : t.IsReg)
    (hi : i.toNat < 2 ^ t.width) : Translated coin vs (.int t i) s := by
  by_cases h1 : t = .reg1
  · subst h1
    have hq : translateExp coin vs (.int .reg1 i) =
        .ok (.bool (boolOfConst i)) := by
      rw [translateExp, translateInt, if_pos rfl]
      rfl
    refine translated_of_ok hq ?_
    rw [smtValue_reg1 rfl]
    have hbit :
        ((Exp.int .reg1 i).eval s.values 1).getLsbD 0 = boolOfConst i := by
      have hcases : i = 0 ∨ i = 1 := by
        simp only [Typ.width_reg1, pow_one] at hi
        bv_omega
      rw [Exp.eval]
      rcases hcases with rfl | rfl <;> decide
    rw [hbit]
    rfl
  · have hq : translateExp coin vs (.int t i) =
        .ok (.numeral t.width (i.setWidth t.width)) := by
      rw [translateExp, translateInt, if_neg h1]
      cases t <;> first | exact ht.elim | exact absurd rfl h1 | rfl
    refine translated_of_ok hq ?_
    have hval : smtValue s.values (.int t i) = .bits t.width _ :=
      smtValue_bits rfl h1
    rw [hval]
    rfl

theorem translated_temp_iff (v : Var) :
    Translated coin vs (.temp v) s ↔ Readable vs (.temp v) s := by
  have hq : translateExp coin vs (.temp v) = .ok (.symbol (trVar vs v)) := by
    rw [translateExp]
    rfl
  exact translated_iff_of_ok hq

/-- The bit that is read out of a translated operand. -/
theorem denote_bitIs {x : Exp} {k : I64} {q : Query} (b : Bool)
    (hk : k.toNat < 256) (hq : q.denote s.env = some (smtValue s.values x))
    (hread : ReadsBit x k) :
    (bitIs b k q).denote s.env =
      some (.bool (b == (x.eval s.values x.width).getLsbD k.toNat)) := by
  obtain ⟨hx, hlt⟩ := hread
  rw [smtValue_bits rfl hx] at hq
  rw [bitIs, I64.toOCamlInt_of_lt (by omega)]
  exact denote_bit b hlt hq

theorem denote_bitIs_none {x : Exp} {k : I64} {q : Query} (b : Bool)
    (hk : k.toNat < 256) (hq : q.denote s.env = some (smtValue s.values x))
    (hread : ¬ ReadsBit x k) : (bitIs b k q).denote s.env = none := by
  rw [bitIs, I64.toOCamlInt_of_lt (by omega)]
  by_cases hx : x.typ = .reg1
  · rw [smtValue_reg1 hx] at hq
    simp only [Smt.Term.denote, hq, Option.bind_eq_bind, Option.bind_some,
      Smt.Value.extract, Option.bind_none]
  · have hge : x.width ≤ k.toNat := by
      by_contra hlt
      exact hread ⟨hx, not_le.mp hlt⟩
    have hout : ¬ ((0 : ℤ) ≤ k.toNat ∧ (k.toNat : ℤ) ≤ k.toNat ∧
        (k.toNat : ℤ) < x.typ.width) := by
      rw [Exp.width] at hge
      omega
    rw [smtValue_bits rfl hx] at hq
    simp only [Smt.Term.denote, hq, Option.bind_eq_bind, Option.bind_some,
      Smt.Value.extract]
    rw [if_neg hout, Option.bind_none]

/-- The value of a read of bit `k`. -/
theorem getLsbD_bitRead {x : Exp} {k : I64} (hk : k.toNat < 256)
    (hlt : k.toNat < x.width) :
    ((Exp.cast .castLow .reg1 (.binOp .arshift x (.int .reg8 k))).eval s.values
      1).getLsbD 0 = (x.eval s.values x.width).getLsbD k.toNat := by
  have hamount : ((Exp.int .reg8 k).eval s.values 8).toNat = k.toNat := by
    rw [Exp.eval, BitVec.toNat_setWidth]
    exact Nat.mod_eq_of_lt hk
  have hval : (Exp.cast .castLow .reg1
      (.binOp .arshift x (.int .reg8 k))).eval s.values 1 =
      ((x.eval s.values x.width).sshiftRight
        ((Exp.int .reg8 k).eval s.values 8).toNat).setWidth 1 := rfl
  rw [hval, hamount, BitVec.getLsbD_setWidth, BitVec.getLsbD_sshiftRight]
  have hpos : x.width ≠ 0 := by omega
  simp [hlt, hpos]

theorem bitRead?_eq_some {e x : Exp} {k : I64} (h : bitRead? e = some (x, k)) :
    e = .cast .castLow .reg1 (.binOp .arshift x (.int .reg8 k)) := by
  unfold bitRead? at h
  split at h
  · cases h
    rfl
  · cases h

/-! ## Unary operations -/

theorem translated_not_bit_iff {x : Exp} {k : I64} {e1 : Exp}
    (hbit : bitRead? e1 = some (x, k)) (hn : e1.Normal)
    (hx : Translated coin vs x s) :
    Translated coin vs (.unOp .not e1) s ↔ ReadsBit x k := by
  obtain ⟨q, hq, hval⟩ := hx
  have hok : translateExp coin vs (.unOp .not e1) = .ok (bitIs false k q) := by
    have hneg : negatedBitRead? .not e1 = some (x, k) := hbit
    rw [translateExp_negatedBitRead hneg, hq]
    rfl
  obtain rfl := bitRead?_eq_some hbit
  have hk : k.toNat < 256 := hn.2
  rw [translated_iff_of_ok hok]
  constructor
  · intro h
    by_contra hread
    rw [denote_bitIs_none false hk hval hread] at h
    cases h
  · intro hread
    rw [denote_bitIs false hk hval hread, smtValue_reg1 rfl]
    have hnot : ∀ y : BitVec 1, (~~~y).getLsbD 0 = (false == y.getLsbD 0) := by
      decide
    rw [Exp.eval, hnot, getLsbD_bitRead hk hread.2]

theorem translated_unOp_iff {op : UnopType} {e1 : Exp} (hw : e1.WellTyped)
    (hbit : negatedBitRead? op e1 = none) (h1 : Translated coin vs e1 s) :
    Translated coin vs (.unOp op e1) s ↔ (op = .neg → e1.typ ≠ .reg1) := by
  obtain ⟨q, hq, hval⟩ := h1
  have hok : translateExp coin vs (.unOp op e1) =
      .ok (translateUnop op e1.typ q) := by
    rw [translateExp_unOp hbit, hw.inferTypeFast_eq coin, OCaml.ok_bind, hq]
    rfl
  rw [translated_iff_of_ok hok]
  by_cases ht : e1.typ = .reg1
  · rw [smtValue_reg1 ht] at hval
    rw [smtValue_reg1 (show (Exp.unOp op e1).typ = .reg1 from ht)]
    unfold translateUnop
    rw [if_pos ht]
    simp only [Smt.Term.denote, hval, Option.bind_eq_bind, Option.bind_some,
      Smt.Value.not, ht, ne_eq, not_true_eq_false, imp_false]
    cases op <;> simp [Exp.eval]
  · rw [smtValue_bits rfl ht] at hval
    rw [smtValue_bits (show (Exp.unOp op e1).typ = e1.typ from rfl) ht]
    unfold translateUnop
    rw [if_neg ht]
    cases op <;>
      simp [Smt.Term.denote, hval, Smt.Value.map, ht, Exp.eval]

/-! ## Casts -/

theorem translated_bitRead_iff {x e : Exp} {k : I64}
    (hbit : bitRead? e = some (x, k)) (hn : e.Normal)
    (hx : Translated coin vs x s) : Translated coin vs e s ↔ ReadsBit x k := by
  obtain ⟨q, hq, hval⟩ := hx
  obtain rfl := bitRead?_eq_some hbit
  have hok : translateExp coin vs
      (.cast .castLow .reg1 (.binOp .arshift x (.int .reg8 k))) =
      .ok (bitIs true k q) := by
    rw [translateExp_bitRead hbit, hq]
    rfl
  have hk : k.toNat < 256 := hn.2
  rw [translated_iff_of_ok hok]
  constructor
  · intro h
    by_contra hread
    rw [denote_bitIs_none true hk hval hread] at h
    cases h
  · intro hread
    rw [denote_bitIs true hk hval hread, smtValue_reg1 rfl,
      getLsbD_bitRead hk hread.2, Bool.true_beq]

theorem translated_cast {ct : CastType} {t : Typ} {e1 : Exp}
    (hw : (Exp.cast ct t e1).WellTyped)
    (hbit : bitRead? (.cast ct t e1) = none) (h1 : Translated coin vs e1 s) :
    Translated coin vs (.cast ct t e1) s := by
  obtain ⟨q, hq, hval⟩ := h1
  obtain ⟨hw1, ht, hadm⟩ := hw
  have hok : translateExp coin vs (.cast ct t e1) =
      .ok (translateCast ct t e1.typ t.width e1.typ.width q) := by
    rw [translateExp_cast hbit, hw1.inferTypeFast_eq coin, OCaml.ok_bind,
      ht.bitsOfWidth_eq, OCaml.ok_bind, hw1.isReg.bitsOfWidth_eq, OCaml.ok_bind,
      hq]
    rfl
  refine translated_of_ok hok ?_
  rw [denote_translateCast ht hw1.isReg hadm hval]
  cases ct <;> rfl

/-! ## Binary operations -/

theorem shiftAmount_of_not {op : BinopType} (hop : ¬ Resizes op) (e1 e2 : Exp) :
    shiftAmount op e1 e2 = .ok e2 := by
  cases op <;> first | exact absurd trivial hop | rfl

theorem translateExp_binOp {op : BinopType} {e1 e2 e2' : Exp}
    (hw1 : e1.WellTyped) (hform : specialForm coin op e1 e2 = .ok none)
    (hamount : shiftAmount op e1 e2 = .ok e2') {q1 q2 : Query}
    (h1 : translateExp coin vs e1 = .ok q1)
    (h2 : translateExp coin vs e2' = .ok q2) :
    translateExp coin vs (.binOp op e1 e2) =
      .ok (translateBinop op e1.typ q1 q2) := by
  rw [translateExp_operator hform, hw1.inferTypeFast_eq coin, OCaml.ok_bind,
    hamount, OCaml.ok_bind, h1, OCaml.ok_bind, h2]
  rfl

/-- What the rows for `REG_1` compute is right but for the difference and,
where the dividend is one, the remainder. -/
theorem boolMeaning_eq_iff {op : BinopType} (hop : ¬ Resizes op)
    (hcat : op ≠ .concat) {e1 e2 : Exp} (h1 : e1.typ = .reg1)
    (h2 : e2.typ = .reg1) (hdiv : DivisorNonzero (.binOp op e1 e2) s) :
    boolMeaning op ((e1.eval s.values 1).getLsbD 0)
        ((e2.eval s.values 1).getLsbD 0) =
      ((Exp.binOp op e1 e2).eval s.values 1).getLsbD 0 ↔
      Readable vs (.binOp op e1 e2) s := by
  have hw1 : e1.width = 1 := by rw [Exp.width, h1, Typ.width_reg1]
  have hw2 : e2.width = 1 := by rw [Exp.width, h2, Typ.width_reg1]
  have hy : ∀ y : BitVec 1, y ≠ 0 → y = 1 := by decide
  cases op with
  | lshift | rshift | arshift => exact absurd trivial hop
  | concat => exact absurd rfl hcat
  | plus | times | bitand | bitor | xor =>
    simp only [Exp.eval, boolMeaning, Readable, iff_true]
    generalize e1.eval s.values 1 = x
    generalize e2.eval s.values 1 = y
    revert x y
    decide
  | minus =>
    simp only [Exp.eval, boolMeaning, Readable, h1, ne_eq, not_true_eq_false,
      iff_false]
    generalize e1.eval s.values 1 = x
    generalize e2.eval s.values 1 = y
    revert x y
    decide
  | divide | sdivide =>
    simp only [DivisorNonzero] at hdiv
    rw [hw2] at hdiv
    simp only [Exp.eval, boolMeaning, Readable, iff_true, hy _ hdiv]
    generalize e1.eval s.values 1 = x
    revert x
    decide
  | mod | smod =>
    simp only [DivisorNonzero] at hdiv
    rw [hw2] at hdiv
    simp only [Exp.eval, boolMeaning, Readable, hy _ hdiv, h1, forall_const]
    generalize e1.eval s.values 1 = x
    revert x
    decide
  | eq | neq | lt | le | slt | sle =>
    simp only [Exp.eval, boolMeaning, Readable, iff_true, getLsbD_flag_one]
    rw [hw1]
    generalize e1.eval s.values 1 = x
    generalize e2.eval s.values 1 = y
    revert x y
    decide

theorem translated_bool_iff {op : BinopType} (hop : ¬ Resizes op)
    (hcat : op ≠ .concat) {e1 e2 : Exp}
    (hw : (Exp.binOp op e1 e2).WellTyped)
    (hform : specialForm coin op e1 e2 = .ok none) (h1 : e1.typ = .reg1)
    (hdiv : DivisorNonzero (.binOp op e1 e2) s) (ht1 : Translated coin vs e1 s)
    (ht2 : Translated coin vs e2 s) :
    Translated coin vs (.binOp op e1 e2) s ↔
      Readable vs (.binOp op e1 e2) s := by
  obtain ⟨q1, hq1, hval1⟩ := ht1
  obtain ⟨q2, hq2, hval2⟩ := ht2
  have h2 : e2.typ = .reg1 := by
    obtain ⟨-, -, hadm⟩ := hw
    rw [← h1]
    cases op <;> first | exact hadm | exact absurd trivial hop | exact hadm.1
  have htyp : (Exp.binOp op e1 e2).typ = .reg1 := by
    rw [Exp.typ, h1]
    cases op <;> rfl
  rw [smtValue_reg1 h1] at hval1
  rw [smtValue_reg1 h2] at hval2
  rw [translated_iff_of_ok (translateExp_binOp hw.1 hform
    (shiftAmount_of_not hop e1 e2) hq1 hq2), smtValue_reg1 htyp, translateBinop,
    if_pos h1, denote_boolBinop hop hcat hval1 hval2, Option.some.injEq,
    Smt.Value.bool.injEq]
  exact boolMeaning_eq_iff hop hcat h1 h2 hdiv

theorem smtValue_binOp_bits {op : BinopType} (hop : ¬ Resizes op)
    {e1 e2 : Exp} (hw : (Exp.binOp op e1 e2).WellTyped) (h1 : e1.typ ≠ .reg1) :
    smtValue s.values (.binOp op e1 e2) =
      bvMeaning op (e1.eval s.values e1.typ.width)
        (e2.eval s.values e1.typ.width) := by
  have harith : (Exp.binOp op e1 e2).typ = e1.typ →
      smtValue s.values (.binOp op e1 e2) =
        .bits e1.typ.width ((Exp.binOp op e1 e2).eval s.values e1.typ.width) :=
    fun htyp => smtValue_bits htyp h1
  have hbool : (Exp.binOp op e1 e2).typ = .reg1 →
      smtValue s.values (.binOp op e1 e2) =
        .bool (((Exp.binOp op e1 e2).eval s.values 1).getLsbD 0) :=
    smtValue_reg1
  cases op with
  | lshift | rshift | arshift => exact absurd trivial hop
  | plus | minus | times | divide | sdivide | mod | smod | bitand | bitor
  | xor =>
    rw [harith rfl]
    rfl
  | eq | neq | lt | le | slt | sle =>
    rw [hbool rfl]
    simp only [Exp.eval, getLsbD_flag_one]
    rfl
  | concat =>
    obtain ⟨-, -, htyp, hreg⟩ := hw
    have hval : ∀ t : Typ, t ≠ .reg1 → e1.typ.double = t →
        smtValue s.values (.binOp .concat e1 e2) = .bits t.width
          ((e1.eval s.values e1.typ.width ++
            e2.eval s.values e1.typ.width).setWidth t.width) := by
      intro t ht hdouble
      have hcat : (Exp.binOp .concat e1 e2).typ = t := hdouble
      rw [smtValue_bits hcat ht, Exp.eval, Exp.width, Exp.width, htyp]
    rw [bvMeaning]
    rcases hreg with h | h | h
    · rw [hval .reg16 (by decide) (by rw [h]; rfl)]
      exact (bits_congr (by rw [h]; rfl) rfl).symm
    · rw [hval .reg32 (by decide) (by rw [h]; rfl)]
      exact (bits_congr (by rw [h]; rfl) rfl).symm
    · rw [hval .reg64 (by decide) (by rw [h]; rfl)]
      exact (bits_congr (by rw [h]; rfl) rfl).symm

theorem translated_bits {op : BinopType} (hop : ¬ Resizes op) {e1 e2 : Exp}
    (hw : (Exp.binOp op e1 e2).WellTyped)
    (hform : specialForm coin op e1 e2 = .ok none) (h1 : e1.typ ≠ .reg1)
    (ht1 : Translated coin vs e1 s) (ht2 : Translated coin vs e2 s) :
    Translated coin vs (.binOp op e1 e2) s := by
  obtain ⟨q1, hq1, hval1⟩ := ht1
  obtain ⟨q2, hq2, hval2⟩ := ht2
  have h2 : e2.typ = e1.typ := by
    obtain ⟨-, -, hadm⟩ := hw
    cases op <;> first | exact hadm | exact absurd trivial hop | exact hadm.1
  rw [smtValue_bits rfl h1] at hval1
  rw [smtValue_bits h2 h1] at hval2
  refine translated_of_ok (translateExp_binOp hw.1 hform
    (shiftAmount_of_not hop e1 e2) hq1 hq2) ?_
  rw [translateBinop, if_neg h1, denote_bitsBinop op hval1 hval2,
    smtValue_binOp_bits hop hw h1]

/-! ## Shifts -/

theorem shiftAmount_eq {op : BinopType} (hop : Resizes op) {e1 e2 : Exp}
    (hw1 : e1.WellTyped) (hw2 : e2.WellTyped) :
    shiftAmount op e1 e2 =
      .ok (if e2.typ.width < e1.typ.width then .cast .castUnsigned e1.typ e2
        else if e1.typ.width < e2.typ.width then .cast .castLow e1.typ e2
        else e2) := by
  have h : shiftAmount .lshift e1 e2 =
      .ok (if e2.typ.width < e1.typ.width then .cast .castUnsigned e1.typ e2
        else if e1.typ.width < e2.typ.width then .cast .castLow e1.typ e2
        else e2) := by
    rw [shiftAmount, hw1.inferType_eq, OCaml.ok_bind, hw2.inferType_eq,
      OCaml.ok_bind, hw1.isReg.bitsOfWidth_eq, OCaml.ok_bind,
      hw2.isReg.bitsOfWidth_eq, OCaml.ok_bind]
    simp only [gt_iff_lt]
    split_ifs <;> rfl
  cases op <;> first | exact hop.elim | exact h

theorem typ_eq_of_width {t t' : Typ} (ht : t.IsReg) (ht' : t'.IsReg)
    (h : t.width = t'.width) : t = t' := by
  cases t <;> cases t' <;> simp_all [Typ.IsReg, Typ.width]

/-- The amount that a shift of bits is printed with. -/
theorem translated_amount {op : BinopType} (hop : Resizes op) {e1 e2 : Exp}
    (hw1 : e1.WellTyped) (hw2 : e2.WellTyped) (h1 : e1.typ ≠ .reg1)
    (ht2 : Translated coin vs e2 s) :
    ∃ e2', shiftAmount op e1 e2 = .ok e2' ∧ ∃ q2,
      translateExp coin vs e2' = .ok q2 ∧ q2.denote s.env =
        some (.bits e1.typ.width
          ((e2.eval s.values e2.width).setWidth e1.typ.width)) := by
  refine ⟨_, shiftAmount_eq hop hw1 hw2, ?_⟩
  have hcast : ∀ ct : CastType, ct = .castUnsigned ∨ ct = .castLow →
      ct.Admits e1.typ e2.typ → ∃ q2,
      translateExp coin vs (.cast ct e1.typ e2) = .ok q2 ∧ q2.denote s.env =
        some (.bits e1.typ.width
          ((e2.eval s.values e2.width).setWidth e1.typ.width)) := by
    intro ct hct hadm
    have hbit : bitRead? (.cast ct e1.typ e2) = none := by
      cases hread : bitRead? (.cast ct e1.typ e2) with
      | none => rfl
      | some p =>
        have heq := bitRead?_eq_some (x := p.1) (k := p.2) hread
        exact absurd (Exp.cast.inj heq).2.1 h1
    have hwc : (Exp.cast ct e1.typ e2).WellTyped := ⟨hw2, hw1.isReg, hadm⟩
    obtain ⟨q, hq, hval⟩ := translated_cast hwc hbit ht2
    refine ⟨q, hq, ?_⟩
    rw [hval, smtValue_bits (show (Exp.cast ct e1.typ e2).typ = e1.typ from rfl)
      h1]
    rcases hct with rfl | rfl <;> rfl
  split_ifs with hlt hgt
  · exact hcast .castUnsigned (.inl rfl) hlt.le
  · exact hcast .castLow (.inr rfl) hgt.le
  · have htyp : e2.typ = e1.typ :=
      typ_eq_of_width hw2.isReg hw1.isReg (by omega)
    obtain ⟨q2, hq2, hval2⟩ := ht2
    refine ⟨q2, hq2, ?_⟩
    rw [hval2, smtValue_bits htyp h1, Exp.width, htyp, BitVec.setWidth_eq]

theorem bvMeaning_shift {op : BinopType} (hop : Resizes op) {w : ℕ}
    (x y : BitVec w) : bvMeaning op x y = .bits w (shiftBy op x y.toNat) := by
  cases op <;> first | exact hop.elim | rfl

theorem smtValue_shift {op : BinopType} (hop : Resizes op) {e1 e2 : Exp}
    (h1 : e1.typ ≠ .reg1) :
    smtValue s.values (.binOp op e1 e2) = .bits e1.typ.width
      (shiftBy op (e1.eval s.values e1.typ.width)
        (e2.eval s.values e2.width).toNat) := by
  have htyp : (Exp.binOp op e1 e2).typ = e1.typ := by
    cases op <;> first | exact hop.elim | rfl
  rw [smtValue_bits htyp h1]
  cases op <;> first | exact hop.elim | rfl

theorem bits_inj {w : ℕ} {x y : BitVec w}
    (h : Smt.Value.bits w x = .bits w y) : x = y := by
  cases h
  rfl

theorem translated_shift_iff {op : BinopType} (hop : Resizes op) {e1 e2 : Exp}
    (hw1 : e1.WellTyped) (hw2 : e2.WellTyped)
    (hform : specialForm coin op e1 e2 = .ok none)
    (ht1 : Translated coin vs e1 s) (ht2 : Translated coin vs e2 s) :
    Translated coin vs (.binOp op e1 e2) s ↔ ShiftsAlike op e1 e2 s := by
  obtain ⟨q1, hq1, hval1⟩ := ht1
  by_cases h1 : e1.typ = .reg1
  · -- a shift of a Boolean is not well sorted, whatever the amount
    have hno : ¬ Translated coin vs (.binOp op e1 e2) s := by
      cases hq2 : translateExp coin vs
          (if e2.typ.width < e1.typ.width then .cast .castUnsigned e1.typ e2
            else if e1.typ.width < e2.typ.width then .cast .castLow e1.typ e2
            else e2) with
      | error r =>
        apply not_translated_of_error (r := r)
        rw [translateExp_operator hform, hw1.inferTypeFast_eq coin,
          OCaml.ok_bind, shiftAmount_eq hop hw1 hw2, OCaml.ok_bind, hq1,
          OCaml.ok_bind, hq2]
        rfl
      | ok q2 =>
        rw [translated_iff_of_ok (translateExp_binOp hw1 hform
          (shiftAmount_eq hop hw1 hw2) hq1 hq2), translateBinop, if_pos h1]
        rw [smtValue_reg1 h1] at hval1
        rw [denote_shift_bool hop hval1]
        intro h
        cases h
    exact iff_of_false hno fun h => h.1 h1
  · obtain ⟨e2', hamount, q2, hq2, hval2⟩ :=
      translated_amount hop hw1 hw2 h1 ht2
    rw [smtValue_bits rfl h1] at hval1
    rw [translated_iff_of_ok (translateExp_binOp hw1 hform hamount hq1 hq2),
      translateBinop, if_neg h1, denote_bitsBinop op hval1 hval2,
      bvMeaning_shift hop, smtValue_shift hop h1, BitVec.toNat_setWidth,
      Option.some.injEq]
    constructor
    · intro h
      exact ⟨h1, (bits_inj h).symm⟩
    · intro h
      exact congrArg _ h.2.symm

end Nodes

end Fuzzball.SmtLib
