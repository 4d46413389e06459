import Fuzzball.ConstantFoldAlgebra
import Fuzzball.ConstantFoldMore
import Fuzzball.ExprTemps
import Fuzzball.MemoRecursion

/-!
# Rewriting of expressions

`simplify_rec` of `frag_simplify.ml`.  Where an expression has one of a dozen
shapes it is rewritten, and what the rewriting leaves is simplified in its
place; any other expression is built up again from its simplified operands
by `constant_fold_more`, which is a parameter here.

Two of the shapes read bit 7 and bit 31 of an operand by way of its low byte
and its low word.  The width of the operand is not looked at.
-/

namespace Fuzzball.FragSimplify

open Vine MemoRecursion

variable {μ : Type*} [VineMemory μ]

/-! ## Casts of bitwise operations -/

/-- `push_down`, with its inner loop. -/
def pushDown : Exp → Exp
  | .cast ct ty (.binOp op e1 e2) =>
    if (ct = .castLow ∨ ct = .castHigh) ∧
        (op = .bitand ∨ op = .bitor ∨ op = .xor) then
      .binOp op (.cast ct ty (pushDown e1)) (.cast ct ty (pushDown e2))
    else .cast ct ty (.binOp op e1 e2)
  | e => e

/-! ## The shapes that are rewritten -/

/-- What becomes of a shape: a result, or an expression to be simplified and
what is built around it. -/
inductive Plan
  | done (e : Exp)
  | under (wrap : Exp → Exp) (e : Exp)

def planIfType (e : Exp) (t : Typ) (p : Plan) : OCaml (Option Plan) := do
  pure (if (← inferType none e) = t then some p else none)

def planIf (g : Prop) [Decidable g] (p : Plan) : OCaml (Option Plan) :=
  pure (if g then some p else none)

abbrev Shape := Exp → OCaml (Option Plan)

/-- The comparison of a zero-extended byte with a word, decided where the
word is no byte. -/
def byteAgainstWord (k : I64) (always : I64) (wrap : Exp → Exp) (e8 : Exp) :
    Plan :=
  if k &&& 0xffffff00 = 0 then .under wrap e8 else .done (.int .reg1 always)

def byteEqWord : Shape
  | .binOp .eq (.cast .castUnsigned .reg32 e8) (.int .reg32 k) =>
    planIfType e8 .reg8 (byteAgainstWord k 0
      (fun e8 => .binOp .eq e8 (.int .reg8 (k &&& 0xff))) e8)
  | _ => pure none

def byteLtWord : Shape
  | .binOp .lt (.cast .castUnsigned .reg32 e8) (.int .reg32 k) =>
    planIfType e8 .reg8 (byteAgainstWord k 1
      (fun e8 => .binOp .lt e8 (.int .reg8 (k &&& 0xff))) e8)
  | _ => pure none

def wordLtByte : Shape
  | .binOp .lt (.int .reg32 k) (.cast .castUnsigned .reg32 e8) =>
    planIfType e8 .reg8 (byteAgainstWord k 0
      (fun e8 => .binOp .lt (.int .reg8 (k &&& 0xff)) e8) e8)
  | _ => pure none

/-- Byte addition disguised as word addition, with a mask. -/
def maskedByteSum : Shape
  | .binOp .bitand
      (.binOp .plus (.cast .castUnsigned .reg32 e8) (.int .reg32 k))
      (.int .reg32 mask) =>
    if mask = 0xff then
      planIfType e8 .reg8 (.under (.cast .castUnsigned .reg32)
        (.binOp .plus e8 (.int .reg8 (k &&& 0xff))))
    else pure none
  | _ => pure none

/-- Byte addition disguised as word addition, with a cast. -/
def lowByteSum : Shape
  | .cast .castLow .reg8
      (.binOp .plus (.cast .castUnsigned .reg32 e8) (.int .reg32 k)) =>
    planIfType e8 .reg8 (.under id
      (.binOp .plus e8 (.int .reg8 (k &&& 0xff))))
  | _ => pure none

/-- Bit extraction using word operators. -/
def maskedBit : Shape
  | .binOp .eq (.int .reg32 k) (.binOp .bitand e (.int .reg32 mask)) =>
    planIf (k = 1 ∧ mask = 1) (.under id (.cast .castLow .reg1 e))
  | _ => pure none

/-- Bit `k` is the high bit of the low part of type `t`. -/
def shiftedBit (k : I64) (t : Typ) : Shape
  | .cast .castLow .reg1 (.binOp .rshift e (.constant (.int _ c))) =>
    planIf (c = k) (.under (.cast .castHigh .reg1) (.cast .castLow t e))
  | _ => pure none

/-- `x < y || x == y => x <= y`. -/
def lessOrSame : Shape
  | .binOp .bitor (.binOp .lt x1 y1) (.binOp .eq x2 y2) =>
    planIf (x1 = x2 ∧ y1 = y2) (.done (.binOp .le x1 y1))
  | _ => pure none

/-- Half-open range inclusion with the remaining endpoint. -/
def rangeBelow : Shape
  | .binOp .bitor
      (.binOp .lt (.binOp .plus e1 (.int .reg8 k1)) (.int .reg8 k2))
      (.binOp .eq e2 (.int .reg8 k3)) =>
    planIf (e1 = e2 ∧ 0xff &&& (k2 - k1) = k3) (.under id
      (.binOp .le (.binOp .plus e1 (.int .reg8 k1)) (.int .reg8 k2)))
  | _ => pure none

def rangeAbove : Shape
  | .binOp .bitor
      (.binOp .lt (.int .reg8 k2) (.binOp .plus e1 (.int .reg8 k1)))
      (.binOp .eq e2 (.int .reg8 k3)) =>
    planIf (e1 = e2 ∧ 0xff &&& (k2 - k1) = k3) (.under id
      (.binOp .le (.int .reg8 k2) (.binOp .plus e1 (.int .reg8 k1))))
  | _ => pure none

/-- `-x = k <=> x = -k`. -/
def negEq : Shape
  | .binOp .eq (.unOp .neg e) (.constant k) =>
    pure (some (.under id (.binOp .eq e (.unOp .neg (.constant k)))))
  | _ => pure none

/-- `x + k1 = k2 <=> x = (k2 - k1)`. -/
def sumEq : Shape
  | .binOp .eq (.binOp .plus e1 (.constant k1)) (.constant k2) =>
    pure (some (.under id
      (.binOp .eq e1 (.binOp .minus (.constant k2) (.constant k1)))))
  | _ => pure none

/-- The shapes in the order in which they are tried. -/
def shapes : List Shape :=
  [byteEqWord, byteLtWord, wordLtByte, maskedByteSum, lowByteSum, maskedBit,
    shiftedBit 7 .reg8, shiftedBit 31 .reg32, lessOrSame, rangeBelow,
    rangeAbove, negEq, sumEq]

def firstPlan : List Shape → Shape
  | [], _ => pure none
  | shape :: rest, e => do
    match ← shape e with
    | some p => pure (some p)
    | none => firstPlan rest e

/-! ## The recursion -/

variable (constantFoldMore : Exp → OCaml Exp)

/-- The expression built up again from its simplified operands. -/
def rebuild : Exp → Body Exp Exp Exn Exp
  | .binOp op e1 e2 => do
    let e2' ← Body.loop e2
    let e1' ← Body.loop e1
    Body.ofExcept (constantFoldMore (.binOp op e1' e2'))
  | .unOp op e => do
    let e' ← Body.loop e
    Body.ofExcept (constantFoldMore (.unOp op e'))
  | .cast op ty e => do
    let e' ← Body.loop e
    Body.ofExcept (constantFoldMore (.cast op ty e'))
  | .fbinOp op rm e1 e2 => do
    let e2' ← Body.loop e2
    let e1' ← Body.loop e1
    Body.ofExcept (constantFoldMore (.fbinOp op rm e1' e2'))
  | .funOp op rm e => do
    let e' ← Body.loop e
    Body.ofExcept (constantFoldMore (.funOp op rm e'))
  | .fcast op rm ty e => do
    let e' ← Body.loop e
    Body.ofExcept (constantFoldMore (.fcast op rm ty e'))
  | .mem v e ty => do
    let e' ← Body.loop e
    pure (.mem v e' ty)
  | .ite ce te fe => do
    let fe' ← Body.loop fe
    let te' ← Body.loop te
    let ce' ← Body.loop ce
    Body.ofExcept (constantFoldMore (.ite ce' te' fe'))
  | e => pure e

def simplifyBody (e : Exp) : Body Exp Exp Exn Exp := do
  match ← Body.ofExcept (firstPlan shapes (pushDown e)) with
  | some (.done e') => pure e'
  | some (.under wrap d) => do
    let d' ← Body.loop d
    pure (wrap d')
  | none => rebuild constantFoldMore (pushDown e)

/-- `simplify_rec`; no result is kept for later. -/
def simplifyRec : Scheme Exp Unit Exp Exn where
  body := simplifyBody constantFoldMore
  key _ := none
  definition _ := none
  combine _ r := r

/-! ## The expressions that are visited -/

def rebuiltOperands : Exp → List Exp
  | .letTemp _ _ _ | .letMem _ _ _ _ _ => []
  | e => e.operands

/-- The expressions a simplification of `e` calls for. -/
def calls (e : Exp) : List Exp :=
  match firstPlan shapes (pushDown e) with
  | .ok (some (.under _ d)) => [d]
  | .ok none => rebuiltOperands (pushDown e)
  | _ => []

def Visits : Exp → Exp → Prop := Relation.ReflTransGen fun e d => d ∈ calls e

/-- Where bit `k` of an operand is read as the high bit of its low part of
type `t`, that part lies in the operand and the amount is stored in its
width. -/
def ReadsInside (k : I64) (t : Typ) : Exp → Prop
  | .cast .castLow .reg1 (.binOp .rshift x (.constant (.int tc c))) =>
    c = k → t.width ≤ x.width ∧ k.toNat < 2 ^ tc.width
  | _ => True

structure BitsInside (e : Exp) : Prop where
  low : ReadsInside 7 .reg8 e
  word : ReadsInside 31 .reg32 e

/-! ## Work -/

/-- A measure of the work left: it goes down at every call. -/
def work : Exp → ℕ
  | .binOp .eq e1 e2 => 3 * work e1 + 2 * work e2 + 1
  | .binOp _ e1 e2 => work e1 + work e2 + 1
  | .fbinOp _ _ e1 e2 => work e1 + work e2 + 1
  | .unOp _ e1 => work e1 + 1
  | .funOp _ _ e1 => work e1 + 1
  | .cast _ _ e1 => 2 * work e1
  | .fcast _ _ _ e1 => work e1 + 1
  | .mem _ addr _ => work addr + 1
  | .ite cond e1 e2 => work cond + work e1 + work e2 + 1
  | _ => 1

theorem work_pos (e : Exp) : 0 < work e := by
  induction e with
  | binOp op e1 e2 _ _ => cases op <;> simp [work]
  | cast ct t e1 ih =>
    rw [work]
    omega
  | _ => simp [work]

theorem work_rebuiltOperands {e d : Exp} (h : d ∈ rebuiltOperands e) :
    work d < work e := by
  cases e with
  | binOp op e1 e2 =>
    have h1 := work_pos e1
    have h2 := work_pos e2
    simp only [rebuiltOperands, Exp.operands, List.mem_cons,
      List.not_mem_nil, or_false] at h
    rcases h with rfl | rfl <;> cases op <;> simp only [work] <;> omega
  | ite cond e1 e2 =>
    simp only [rebuiltOperands, Exp.operands, List.mem_cons,
      List.not_mem_nil, or_false] at h
    rcases h with rfl | rfl | rfl <;> simp only [work] <;> omega
  | fbinOp op rm e1 e2 =>
    simp only [rebuiltOperands, Exp.operands, List.mem_cons,
      List.not_mem_nil, or_false] at h
    rcases h with rfl | rfl <;> simp only [work] <;> omega
  | cast ct t e1 =>
    obtain rfl : d = e1 := List.mem_singleton.mp h
    have hpos := work_pos d
    simp only [work]
    omega
  | unOp op e1 | funOp op rm e1 | fcast ct rm t e1 | mem v e1 t =>
    obtain rfl : d = e1 := List.mem_singleton.mp h
    simp only [work]
    omega
  | _ => cases h

theorem work_pushDown (e : Exp) : work (pushDown e) ≤ work e := by
  induction e using pushDown.induct with
  | case1 ct ty op e1 e2 h ih1 ih2 =>
    rw [pushDown, if_pos h]
    rcases h.2 with rfl | rfl | rfl <;> simp only [work] <;> omega
  | case2 ct ty op e1 e2 h => rw [pushDown, if_neg h]
  | case3 e h =>
    rw [pushDown]
    exact h

/-! ## Agreement of what is built up again -/

section Agreement

variable {ρ : Valuation μ} {a a' b b' c c' e e' : Exp}

theorem Agrees.trans (h : e.Agrees ρ a) (h' : a.Agrees ρ b) : e.Agrees ρ b := by
  refine ⟨h'.wellTyped, h'.typ_eq.trans h.typ_eq, ?_⟩
  have hwidth : a.width = e.width := width_of_typ h.typ_eq
  rw [← h.eval_eq, ← hwidth]
  exact h'.eval_eq

theorem Agrees.width (h : a.Agrees ρ a') : a'.width = a.width :=
  width_of_typ h.typ_eq

theorem Agrees.eval_at {t : Typ} (h : a.Agrees ρ a') (ht : a.typ = t) :
    a'.eval ρ t.width = a.eval ρ t.width := by
  rw [← width_of_typ ht]
  exact h.eval_eq

theorem binOp_agrees (op : BinopType) (he : (Exp.binOp op a b).WellTyped)
    (ha : a.Agrees ρ a') (hb : b.Agrees ρ b') :
    (Exp.binOp op a b).Agrees ρ (.binOp op a' b') := by
  obtain ⟨-, -, hadm⟩ := he
  refine ⟨⟨ha.wellTyped, hb.wellTyped, ?_⟩, ?_, ?_⟩
  · rw [ha.typ_eq, hb.typ_eq]
    exact hadm
  · rw [Exp.typ, Exp.typ, ha.typ_eq]
  cases op with
  | eq | neq | lt | le | slt | sle =>
    have hvalue : b'.eval ρ a.width = b.eval ρ a.width :=
      Agrees.eval_at hb hadm
    simp only [Exp.eval]
    rw [Agrees.width ha, ha.eval_eq, hvalue]
  | concat =>
    simp only [Exp.eval]
    rw [Agrees.width ha, ha.eval_eq, Agrees.width hb, hb.eval_eq]
  | lshift | rshift | arshift =>
    change Exp.eval _ ρ a.width = Exp.eval _ ρ a.width
    simp only [Exp.eval]
    rw [ha.eval_eq, Agrees.width hb, hb.eval_eq]
  | _ =>
    change Exp.eval _ ρ a.width = Exp.eval _ ρ a.width
    have hvalue : b'.eval ρ a.width = b.eval ρ a.width :=
      Agrees.eval_at hb hadm
    simp only [Exp.eval, ha.eval_eq, hvalue]

theorem unOp_agrees (op : UnopType) (ha : a.Agrees ρ a') :
    (Exp.unOp op a).Agrees ρ (.unOp op a') := by
  refine ⟨ha.wellTyped, ha.typ_eq, ?_⟩
  change Exp.eval _ ρ a.width = Exp.eval _ ρ a.width
  cases op <;> simp only [Exp.eval, ha.eval_eq]

theorem cast_agrees {ct : CastType} {t : Typ}
    (he : (Exp.cast ct t a).WellTyped) (ha : a.Agrees ρ a') :
    (Exp.cast ct t a).Agrees ρ (.cast ct t a') := by
  obtain ⟨-, ht, hadm⟩ := he
  refine ⟨⟨ha.wellTyped, ht, ha.typ_eq ▸ hadm⟩, rfl, ?_⟩
  cases ct <;>
  · simp only [Exp.eval]
    rw [Agrees.width ha, ha.eval_eq]

theorem mem_agrees {v : Var} {t : Typ} (he : (Exp.mem v a t).WellTyped)
    (ha : a.Agrees ρ a') : (Exp.mem v a t).Agrees ρ (.mem v a' t) := by
  obtain ⟨-, ht, hindex⟩ := he
  refine ⟨⟨ha.wellTyped, ht, ha.typ_eq ▸ hindex⟩, rfl, ?_⟩
  simp only [Exp.eval]
  rw [Agrees.width ha, ha.eval_eq]

theorem ite_agrees (he : (Exp.ite c a b).WellTyped) (hc : c.Agrees ρ c')
    (ha : a.Agrees ρ a') (hb : b.Agrees ρ b') :
    (Exp.ite c a b).Agrees ρ (.ite c' a' b') := by
  obtain ⟨-, -, -, hreg, htyp⟩ := he
  refine ⟨⟨hc.wellTyped, ha.wellTyped, hb.wellTyped, ?_, ?_⟩, ha.typ_eq, ?_⟩
  · rw [hc.typ_eq, hreg]
  · rw [hb.typ_eq, ha.typ_eq, htyp]
  · have hcond : c'.eval ρ 1 = c.eval ρ 1 := Agrees.eval_at hc hreg
    have ha' : a'.eval ρ a.width = a.eval ρ a.width := ha.eval_eq
    have hb' : b'.eval ρ a.width = b.eval ρ a.width := Agrees.eval_at hb htyp
    change Exp.eval _ ρ a.width = Exp.eval _ ρ a.width
    simp only [Exp.eval, hcond, ha', hb']

/-! ## Casts of bitwise operations keep the value -/

/-- A cast to fewer bits goes to the operands of a bitwise operation. -/
theorem pushedCast_agrees {ct : CastType} {op : BinopType} {t : Typ}
    (hct : ct = .castLow ∨ ct = .castHigh)
    (hop : op = .bitand ∨ op = .bitor ∨ op = .xor)
    (he : (Exp.cast ct t (.binOp op a b)).WellTyped) :
    (Exp.cast ct t (.binOp op a b)).Agrees ρ
      (.binOp op (.cast ct t a) (.cast ct t b)) := by
  obtain ⟨⟨ha, hb, hadm⟩, ht, hle⟩ := he
  have htyp : b.typ = a.typ := by
    rcases hop with rfl | rfl | rfl <;> exact hadm
  have hres : op.result a.typ = a.typ := by
    rcases hop with rfl | rfl | rfl <;> rfl
  have hle : ct.Admits t a.typ := by simpa only [Exp.typ, hres] using hle
  refine .intro t.width rfl
    ⟨⟨ha, ht, hle⟩, ⟨hb, ht, htyp.symm ▸ hle⟩, ?_⟩ ?_ ?_
  · rcases hop with rfl | rfl | rfl <;> rfl
  · rcases hop with rfl | rfl | rfl <;> rfl
  · have hwb : b.width = a.width := width_of_typ htyp
    have hw : (Exp.binOp op a b).width = a.width := width_of_typ hres
    have hac : op.IsAC := by rcases hop with rfl | rfl | rfl <;> decide
    rcases hct with rfl | rfl
    · rw [hac.eval, eval_castLow (n := a.width) rfl, eval_castLow hwb,
        eval_castLow hw, hac.eval]
      rcases hop with rfl | rfl | rfl
      · exact BitVec.setWidth_and.symm
      · exact BitVec.setWidth_or.symm
      · exact BitVec.setWidth_xor.symm
    · rw [hac.eval, eval_castHigh (n := a.width) rfl, eval_castHigh hwb,
        eval_castHigh hw, hac.eval]
      rcases hop with rfl | rfl | rfl
      · simp only [Bits.high, BinopType.acEval,
          BitVec.ushiftRight_and_distrib, BitVec.setWidth_and]
      · simp only [Bits.high, BinopType.acEval,
          BitVec.ushiftRight_or_distrib, BitVec.setWidth_or]
      · simp only [Bits.high, BinopType.acEval,
          BitVec.ushiftRight_xor_distrib, BitVec.setWidth_xor]

theorem pushDown_agrees (he : e.WellTyped) : e.Agrees ρ (pushDown e) := by
  induction e using pushDown.induct with
  | case1 ct ty op e1 e2 h ih1 ih2 =>
    rw [pushDown, if_pos h]
    have hpush := pushedCast_agrees (ρ := ρ) h.1 h.2 he
    obtain ⟨h1, h2, -⟩ := hpush.wellTyped
    apply Agrees.trans hpush
    exact binOp_agrees op hpush.wellTyped (cast_agrees h1 (ih1 h1.1))
      (cast_agrees h2 (ih2 h2.1))
  | case2 ct ty op e1 e2 h =>
    rw [pushDown, if_neg h]
    exact .refl ρ he
  | case3 e h =>
    rw [pushDown]
    · exact .refl ρ he
    · exact h

end Agreement

/-! ## Bytes, words and bits -/

section Bits

open Bits

variable {n : ℕ}

theorem and_bytesAbove (k : I64) :
    k &&& 0xffffff00 = 0 ↔ (k.setWidth 32).toNat < 2 ^ 8 := by
  have hmask : ∀ j < 64, (0xffffff00 : I64).getLsbD j =
      decide (8 ≤ j ∧ j < 32) := by decide
  constructor
  · intro h
    apply Nat.lt_pow_two_of_testBit
    intro j hj
    rw [BitVec.testBit_toNat, BitVec.getLsbD_setWidth]
    by_cases hlt : j < 32
    · have hbit : (k &&& 0xffffff00).getLsbD j = (0 : I64).getLsbD j :=
        congrArg (fun x => x.getLsbD j) h
      rw [BitVec.getLsbD_and, hmask j (by omega)] at hbit
      simpa [hj, hlt] using hbit
    · simp [hlt]
  · intro h
    apply BitVec.eq_of_getLsbD_eq
    intro j hj
    rw [BitVec.getLsbD_and, hmask j hj]
    by_cases hin : 8 ≤ j ∧ j < 32
    · have hlow : (k.setWidth 32).toNat < 2 ^ j :=
        h.trans_le (Nat.pow_le_pow_right (by norm_num) hin.1)
      have hbit := Nat.testBit_lt_two_pow hlow
      rw [BitVec.testBit_toNat, BitVec.getLsbD_setWidth] at hbit
      simpa [hin] using hbit
    · simp [hin]

theorem setWidth_byte (k : I64) : (k &&& 0xff).setWidth 8 = k.setWidth 8 := by
  rw [and_lowMask 8 k 0xff rfl, setWidth_setWidth_self (by norm_num)]

theorem toNat_byte {k : I64} (hk : k &&& 0xffffff00 = 0) :
    (k.setWidth 8).toNat = (k.setWidth 32).toNat := by
  have hlt := (and_bytesAbove k).mp hk
  simp only [BitVec.toNat_setWidth] at hlt ⊢
  omega

theorem word_eq_byte {k : I64} (hk : k &&& 0xffffff00 = 0) :
    k.setWidth 32 = (k.setWidth 8).setWidth 32 := by
  have hbyte := (k.setWidth 8).isLt
  apply BitVec.eq_of_toNat_eq
  rw [← toNat_byte hk, BitVec.toNat_setWidth 32 (k.setWidth 8)]
  omega

theorem beq_setWidth (x y : BitVec 8) :
    (x.setWidth 32 == y.setWidth 32) = (x == y) := by
  apply beq_congr
  constructor
  · intro h
    simpa [setWidth_setWidth_self] using congrArg (BitVec.setWidth 8) h
  · rintro rfl
    rfl

theorem ult_setWidth (x y : BitVec 8) :
    (x.setWidth 32).ult (y.setWidth 32) = x.ult y := by
  have hx := x.isLt
  have hy := y.isLt
  simp only [BitVec.ult_eq_decide, BitVec.toNat_setWidth]
  congr 2 <;> omega

/-- A word with a bit above its byte is greater than every byte. -/
theorem byte_lt_word {k : I64} (hk : k &&& 0xffffff00 ≠ 0) (x : BitVec 8) :
    (x.setWidth 32).toNat < (k.setWidth 32).toNat := by
  have hle := mt (and_bytesAbove k).mpr hk
  rw [BitVec.toNat_setWidth_of_le (by norm_num)]
  have hx := x.isLt
  omega

theorem setWidth_add_byte (x : BitVec 8) (k : I64) :
    (x.setWidth 32 + k.setWidth 32).setWidth 8 = x + k.setWidth 8 := by
  rw [BitVec.setWidth_add _ _ (by norm_num),
    setWidth_setWidth_self (by norm_num),
    BitVec.setWidth_setWidth_of_le _ (by norm_num)]

/-- A bit is the high bit of the part that ends in it. -/
theorem low_ushiftRight_eq_high (m : ℕ) (x : BitVec n) :
    (x >>> m).setWidth 1 = high 1 (x.setWidth (m + 1)) := by
  ext j hj
  obtain rfl : j = 0 := by omega
  rw [getElem_high _ hj]
  simp

theorem beq_one_and (x : BitVec 32) :
    flag 1 ((1 : BitVec 32) == x &&& 1) = x.setWidth 1 := by
  rw [and_lowMask 1 x 1 rfl]
  generalize x.setWidth 1 = b
  rcases bit_cases b with rfl | rfl <;> rfl

end Bits

/-! ## The shapes keep the value -/

/-- The rewriting of `e` keeps its value when the expression left to be
simplified does, and there is less work left. -/
def Plan.Sound (ρ : Valuation μ) (e : Exp) : Plan → Prop
  | .done e' => e.Agrees ρ e'
  | .under wrap d =>
    d.WellTyped ∧ work d < work e ∧ ∀ r, d.Agrees ρ r → e.Agrees ρ (wrap r)

def Plans (ρ : Valuation μ) (e : Exp) (x : OCaml (Option Plan)) : Prop :=
  ∃ o, x = .ok o ∧ ∀ p, o = some p → p.Sound ρ e

section Shapes

variable {ρ : Valuation μ} {e e8 : Exp} {p : Plan}

theorem plans_none : Plans ρ e (pure none) := ⟨none, rfl, by simp⟩

theorem plans_planIf {g : Prop} [Decidable g] (h : g → p.Sound ρ e) :
    Plans ρ e (planIf g p) := by
  refine ⟨_, rfl, ?_⟩
  intro p' hp'
  split_ifs at hp' with hg
  cases hp'
  exact h hg

theorem plans_planIfType {t : Typ} (h8 : e8.WellTyped)
    (h : e8.typ = t → p.Sound ρ e) : Plans ρ e (planIfType e8 t p) := by
  rw [planIfType, h8.inferType_eq]
  exact plans_planIf h

theorem byteAgainstWord_sound {k always : I64} {wrap : Exp → Exp}
    (he : e.typ = .reg1) (h8 : e8.WellTyped) (hwork : work e8 < work e)
    (hbyte : k &&& 0xffffff00 = 0 → ∀ r, e8.Agrees ρ r → e.Agrees ρ (wrap r))
    (hword : k &&& 0xffffff00 ≠ 0 → e.eval ρ 1 = always.setWidth 1) :
    (byteAgainstWord k always wrap e8).Sound ρ e := by
  unfold byteAgainstWord
  split_ifs with hk
  · exact ⟨h8, hwork, hbyte hk⟩
  · exact .intro 1 (width_of_typ he) trivial he.symm (hword hk).symm

theorem eval_lt {a b : Exp} {n w : ℕ} (hn : a.width = n) :
    (Exp.binOp .lt a b).eval ρ w =
      flag w ((a.eval ρ n).ult (b.eval ρ n)) := by
  subst hn
  rfl

theorem eval_le {a b : Exp} {n w : ℕ} (hn : a.width = n) :
    (Exp.binOp .le a b).eval ρ w =
      flag w ((a.eval ρ n).ule (b.eval ρ n)) := by
  subst hn
  rfl

theorem byteEqWord_plans (he : e.WellTyped) : Plans ρ e (byteEqWord e) := by
  unfold byteEqWord
  split
  · rename_i e8 k
    obtain ⟨⟨h8, -, -⟩, -, -⟩ := he
    refine plans_planIfType h8 fun ht => ?_
    have hw8 : e8.width = 8 := width_of_typ ht
    have heval : ∀ w, (Exp.binOp .eq (.cast .castUnsigned .reg32 e8)
        (.int .reg32 k)).eval ρ w =
        flag w ((e8.eval ρ 8).setWidth 32 == k.setWidth 32) := by
      intro w
      rw [eval_eq (n := 32) rfl, eval_castUnsigned hw8, eval_int]
    apply byteAgainstWord_sound rfl h8
    · have hpos := work_pos e8
      simp only [work]
      omega
    · intro hk r hr
      have hrt : r.typ = .reg8 := hr.typ_eq.trans ht
      have hvalue : r.eval ρ 8 = e8.eval ρ 8 := Agrees.eval_at hr ht
      refine .intro 1 rfl ⟨hr.wellTyped, trivial, hrt.symm⟩ rfl ?_
      rw [eval_eq (n := 8) (width_of_typ hrt), heval, hvalue, eval_int,
        setWidth_byte, word_eq_byte hk, beq_setWidth]
    · intro hk
      have hne : (e8.eval ρ 8).setWidth 32 ≠ k.setWidth 32 := by
        intro h
        have hlt := byte_lt_word hk (e8.eval ρ 8)
        rw [h] at hlt
        exact lt_irrefl _ hlt
      rw [heval, beq_eq_false_iff_ne.mpr hne]
      rfl
  · exact plans_none

theorem byteLtWord_plans (he : e.WellTyped) : Plans ρ e (byteLtWord e) := by
  unfold byteLtWord
  split
  · rename_i e8 k
    obtain ⟨⟨h8, -, -⟩, -, -⟩ := he
    refine plans_planIfType h8 fun ht => ?_
    have hw8 : e8.width = 8 := width_of_typ ht
    have heval : ∀ w, (Exp.binOp .lt (.cast .castUnsigned .reg32 e8)
        (.int .reg32 k)).eval ρ w =
        flag w (((e8.eval ρ 8).setWidth 32).ult (k.setWidth 32)) := by
      intro w
      rw [eval_lt (n := 32) rfl, eval_castUnsigned hw8, eval_int]
    apply byteAgainstWord_sound rfl h8
    · have hpos := work_pos e8
      simp only [work]
      omega
    · intro hk r hr
      have hrt : r.typ = .reg8 := hr.typ_eq.trans ht
      have hvalue : r.eval ρ 8 = e8.eval ρ 8 := Agrees.eval_at hr ht
      refine .intro 1 rfl ⟨hr.wellTyped, trivial, hrt.symm⟩ rfl ?_
      rw [eval_lt (n := 8) (width_of_typ hrt), heval, hvalue, eval_int,
        setWidth_byte, word_eq_byte hk, ult_setWidth]
    · intro hk
      rw [heval, BitVec.ult_eq_decide,
        decide_eq_true (byte_lt_word hk (e8.eval ρ 8))]
      rfl
  · exact plans_none

theorem wordLtByte_plans (he : e.WellTyped) : Plans ρ e (wordLtByte e) := by
  unfold wordLtByte
  split
  · rename_i k e8
    obtain ⟨-, ⟨h8, -, -⟩, -⟩ := he
    refine plans_planIfType h8 fun ht => ?_
    have hw8 : e8.width = 8 := width_of_typ ht
    have heval : ∀ w, (Exp.binOp .lt (.int .reg32 k)
        (.cast .castUnsigned .reg32 e8)).eval ρ w =
        flag w ((k.setWidth 32).ult ((e8.eval ρ 8).setWidth 32)) := by
      intro w
      rw [eval_lt (n := 32) rfl, eval_castUnsigned hw8, eval_int]
    apply byteAgainstWord_sound rfl h8
    · have hpos := work_pos e8
      simp only [work]
      omega
    · intro hk r hr
      have hrt : r.typ = .reg8 := hr.typ_eq.trans ht
      have hvalue : r.eval ρ 8 = e8.eval ρ 8 := Agrees.eval_at hr ht
      refine .intro 1 rfl ⟨trivial, hr.wellTyped, hrt⟩ rfl ?_
      rw [eval_lt (n := 8) rfl, heval, hvalue, eval_int, setWidth_byte,
        word_eq_byte hk, ult_setWidth]
    · intro hk
      rw [heval, BitVec.ult_eq_decide,
        decide_eq_false (byte_lt_word hk (e8.eval ρ 8)).not_gt]
      rfl
  · exact plans_none

theorem eval_byteSum {k : I64} {r : Exp} (ht : e8.typ = .reg8)
    (hr : (Exp.binOp .plus e8 (.int .reg8 (k &&& 0xff))).Agrees ρ r) :
    r.eval ρ 8 = e8.eval ρ 8 + k.setWidth 8 := by
  have hvalue : r.eval ρ 8 =
      (Exp.binOp .plus e8 (.int .reg8 (k &&& 0xff))).eval ρ 8 :=
    Agrees.eval_at hr (t := .reg8) ht
  rw [hvalue, eval_plus, eval_int, setWidth_byte]

theorem maskedByteSum_plans (he : e.WellTyped) :
    Plans ρ e (maskedByteSum e) := by
  unfold maskedByteSum
  split
  · rename_i e8 k mask
    obtain ⟨⟨⟨h8, -, -⟩, -, -⟩, -, -⟩ := he
    split_ifs with hmask
    · subst hmask
      refine plans_planIfType h8 fun ht => ⟨⟨h8, trivial, ht.symm⟩, ?_, ?_⟩
      · have hpos := work_pos e8
        simp only [work]
        omega
      · intro r hr
        have hrt : r.typ = .reg8 := hr.typ_eq.trans ht
        refine .intro 32 rfl ⟨hr.wellTyped, trivial, ?_⟩ rfl ?_
        · rw [hrt]
          exact (by decide : (8 : ℕ) ≤ 32)
        · rw [eval_castUnsigned (n := 8) (width_of_typ hrt),
            eval_byteSum ht hr, eval_bitand, eval_plus,
            eval_castUnsigned (n := 8) (width_of_typ ht), eval_int, eval_int,
            Bits.and_lowMask 8 _ _ rfl, setWidth_add_byte]
    · exact plans_none
  · exact plans_none

theorem lowByteSum_plans (he : e.WellTyped) : Plans ρ e (lowByteSum e) := by
  unfold lowByteSum
  split
  · rename_i e8 k
    obtain ⟨⟨⟨h8, -, -⟩, -, -⟩, -, -⟩ := he
    refine plans_planIfType h8 fun ht => ⟨⟨h8, trivial, ht.symm⟩, ?_, ?_⟩
    · have hpos := work_pos e8
      simp only [work]
      omega
    · intro r hr
      have hrt : r.typ = .reg8 := hr.typ_eq.trans ht
      refine .intro 8 rfl hr.wellTyped hrt ?_
      rw [id, eval_byteSum ht hr, eval_castLow (n := 32) rfl, eval_plus,
        eval_castUnsigned (n := 8) (width_of_typ ht), eval_int,
        setWidth_add_byte]
  · exact plans_none

theorem maskedBit_plans (he : e.WellTyped) : Plans ρ e (maskedBit e) := by
  unfold maskedBit
  split
  · rename_i k x mask
    obtain ⟨-, ⟨hx, -, hmask⟩, hadm⟩ := he
    have ht : x.typ = .reg32 := hadm
    have hw : x.width = 32 := width_of_typ ht
    refine plans_planIf ?_
    rintro ⟨rfl, rfl⟩
    refine ⟨⟨hx, trivial, ?_⟩, ?_, ?_⟩
    · rw [ht]
      exact (by decide : (1 : ℕ) ≤ 32)
    · simp only [work]
      omega
    · intro r hr
      have hvalue : r.eval ρ 1 = (x.eval ρ 32).setWidth 1 := by
        rw [← eval_castLow (t := .reg1) hw]
        exact hr.eval_eq
      refine .intro 1 rfl hr.wellTyped hr.typ_eq ?_
      rw [id, hvalue, eval_eq (n := 32) rfl, eval_bitand, eval_int]
      exact (beq_one_and _).symm
  · exact plans_none

theorem shiftedBit_plans {m : ℕ} {k : I64} {t : Typ} (ht : t.IsReg)
    (hk : k.toNat = m) (hm : t.width = m + 1) (he : e.WellTyped)
    (hinside : ReadsInside k t e) : Plans ρ e (shiftedBit k t e) := by
  unfold shiftedBit
  split
  · rename_i x tc c
    obtain ⟨⟨hx, -, -⟩, -, -⟩ := he
    refine plans_planIf ?_
    rintro rfl
    obtain ⟨hwide, hstored⟩ := hinside rfl
    refine ⟨⟨hx, ht, hwide⟩, ?_, ?_⟩
    · simp only [work]
      omega
    · intro r hr
      have hrt : r.typ = t := hr.typ_eq
      have hvalue : r.eval ρ (m + 1) = (x.eval ρ x.width).setWidth (m + 1) := by
        rw [← hm]
        exact hr.eval_eq
      refine .intro 1 rfl ⟨hr.wellTyped, trivial, ?_⟩ rfl ?_
      · rw [hrt]
        exact ht.width_pos
      · rw [eval_castHigh (n := m + 1) ((width_of_typ hrt).trans hm), hvalue,
          eval_castLow (a := .binOp .rshift x (.int tc c)) (n := x.width) rfl,
          eval_rshift_int hstored, hk, low_ushiftRight_eq_high]
  · exact plans_none

theorem lessOrSame_plans (he : e.WellTyped) : Plans ρ e (lessOrSame e) := by
  unfold lessOrSame
  split
  · rename_i x1 y1 x2 y2
    obtain ⟨hlt, -, -⟩ := he
    refine plans_planIf ?_
    rintro ⟨rfl, rfl⟩
    refine .intro 1 rfl hlt rfl ?_
    rw [eval_bitor, eval_lt rfl, eval_eq rfl, eval_le rfl, Bits.ule_eq_or,
      flag_or]
  · exact plans_none

/-- An endpoint of a range of bytes is shifted along with the range. -/
theorem eval_endpoint {x : Exp} {k1 k2 : I64} (ht : x.typ = .reg8) (w : ℕ) :
    (Exp.binOp .eq x (.int .reg8 (0xff &&& (k2 - k1)))).eval ρ w =
      flag w ((x.eval ρ 8 + k1.setWidth 8) == k2.setWidth 8) := by
  rw [eval_eq (n := 8) (width_of_typ ht), eval_int, BitVec.and_comm,
    setWidth_byte, Bits.setWidth_sub (by norm_num)]
  congr 1
  apply beq_congr
  exact eq_sub_iff_add_eq

theorem rangeBelow_plans (he : e.WellTyped) : Plans ρ e (rangeBelow e) := by
  unfold rangeBelow
  split
  · rename_i x k1 k2 x2 k3
    obtain ⟨⟨⟨hx, -, htyp⟩, -, -⟩, -, -⟩ := he
    have ht : x.typ = .reg8 := htyp.symm
    refine plans_planIf ?_
    rintro ⟨rfl, rfl⟩
    refine ⟨⟨⟨hx, trivial, htyp⟩, trivial, htyp⟩, ?_, ?_⟩
    · simp only [work]
      omega
    · intro r hr
      have hsum : (Exp.binOp .plus x (.int .reg8 k1)).width = 8 :=
        width_of_typ ht
      refine .intro 1 rfl hr.wellTyped hr.typ_eq ?_
      calc r.eval ρ 1
          = flag 1 ((x.eval ρ 8 + k1.setWidth 8).ule (k2.setWidth 8)) := by
            rw [show r.eval ρ 1 = _ from hr.eval_eq, eval_le hsum, eval_plus,
              eval_int, eval_int]
            rfl
        _ = _ := by
            rw [Bits.ule_eq_or, flag_or, eval_bitor, eval_endpoint ht,
              eval_lt hsum, eval_plus, eval_int, eval_int]
  · exact plans_none

theorem rangeAbove_plans (he : e.WellTyped) : Plans ρ e (rangeAbove e) := by
  unfold rangeAbove
  split
  · rename_i k2 x k1 x2 k3
    obtain ⟨⟨-, ⟨hx, -, htyp⟩, -⟩, -, -⟩ := he
    have ht : x.typ = .reg8 := htyp.symm
    refine plans_planIf ?_
    rintro ⟨rfl, rfl⟩
    refine ⟨⟨trivial, ⟨hx, trivial, htyp⟩, ht⟩, ?_, ?_⟩
    · simp only [work]
      omega
    · intro r hr
      refine .intro 1 rfl hr.wellTyped hr.typ_eq ?_
      calc r.eval ρ 1
          = flag 1 ((k2.setWidth 8).ule (x.eval ρ 8 + k1.setWidth 8)) := by
            rw [show r.eval ρ 1 = _ from hr.eval_eq, eval_le (n := 8) rfl,
              eval_plus, eval_int, eval_int]
            rfl
        _ = _ := by
            rw [Bits.ule_eq_or, flag_or, eval_bitor, eval_endpoint ht,
              eval_lt (n := 8) rfl, eval_plus, eval_int, eval_int]
            congr 2
            exact beq_congr eq_comm
  · exact plans_none

theorem negEq_plans (he : e.WellTyped) : Plans ρ e (negEq e) := by
  unfold negEq
  split
  · rename_i x k
    obtain ⟨hx, hk, htyp⟩ := he
    refine ⟨_, rfl, ?_⟩
    rintro _ ⟨⟩
    refine ⟨⟨hx, hk, htyp⟩, ?_, ?_⟩
    · simp only [work]
      omega
    · intro r hr
      refine .intro 1 rfl hr.wellTyped hr.typ_eq ?_
      calc r.eval ρ 1
          = flag 1 (x.eval ρ x.width ==
              -(Exp.constant k).eval ρ x.width) := by
            rw [show r.eval ρ 1 = _ from hr.eval_eq, eval_eq rfl]
            rfl
        _ = flag 1 (-x.eval ρ x.width ==
              (Exp.constant k).eval ρ x.width) := by
            congr 1
            exact beq_congr neg_eq_iff_eq_neg.symm
        _ = _ := rfl
  · exact plans_none

theorem sumEq_plans (he : e.WellTyped) : Plans ρ e (sumEq e) := by
  unfold sumEq
  split
  · rename_i x k1 k2
    obtain ⟨⟨hx, h1, htyp1⟩, h2, htyp2⟩ := he
    have htyp1 : (Exp.constant k1).typ = x.typ := htyp1
    have htyp2 : (Exp.constant k2).typ = x.typ := htyp2
    refine ⟨_, rfl, ?_⟩
    rintro _ ⟨⟩
    refine ⟨⟨hx, ⟨h2, h1, htyp1.trans htyp2.symm⟩, htyp2⟩, ?_, ?_⟩
    · simp only [work]
      omega
    · intro r hr
      refine .intro 1 rfl hr.wellTyped hr.typ_eq ?_
      calc r.eval ρ 1
          = flag 1 (x.eval ρ x.width == (Exp.constant k2).eval ρ x.width -
              (Exp.constant k1).eval ρ x.width) := by
            rw [show r.eval ρ 1 = _ from hr.eval_eq, eval_eq rfl]
            rfl
        _ = flag 1 (x.eval ρ x.width + (Exp.constant k1).eval ρ x.width ==
              (Exp.constant k2).eval ρ x.width) := by
            congr 1
            exact beq_congr eq_sub_iff_add_eq
        _ = _ := rfl
  · exact plans_none

theorem shapes_plans (he : e.WellTyped) (hbits : BitsInside e) :
    ∀ shape ∈ shapes, Plans ρ e (shape e) := by
  simp only [shapes, List.forall_mem_cons]
  exact ⟨byteEqWord_plans he, byteLtWord_plans he, wordLtByte_plans he,
    maskedByteSum_plans he, lowByteSum_plans he, maskedBit_plans he,
    shiftedBit_plans (m := 7) trivial rfl rfl he hbits.low,
    shiftedBit_plans (m := 31) trivial rfl rfl he hbits.word,
    lessOrSame_plans he, rangeBelow_plans he, rangeAbove_plans he,
    negEq_plans he, sumEq_plans he, by simp⟩

theorem firstPlan_plans {l : List Shape}
    (h : ∀ shape ∈ l, Plans ρ e (shape e)) :
    Plans ρ e (firstPlan l e) := by
  induction l with
  | nil => exact plans_none
  | cons shape l ih =>
    obtain ⟨o, ho, hsound⟩ := h shape List.mem_cons_self
    rw [firstPlan, ho, OCaml.ok_bind]
    cases o with
    | none => exact ih fun s hs => h s (List.mem_cons_of_mem shape hs)
    | some p => exact ⟨some p, rfl, hsound⟩

end Shapes

/-! ## The whole rewriting -/

section Whole

variable {ρ : Valuation μ} {constantFoldMore} {e e' d : Exp}

theorem ReadsInside.pushDown {k : I64} {t : Typ} (h : ReadsInside k t e) :
    ReadsInside k t (pushDown e) := by
  induction e using pushDown.induct with
  | case1 ct ty op e1 e2 hpush _ _ =>
    rw [FragSimplify.pushDown, if_pos hpush]
    trivial
  | case2 ct ty op e1 e2 hpush =>
    rw [FragSimplify.pushDown, if_neg hpush]
    exact h
  | case3 e hother =>
    rw [FragSimplify.pushDown]
    · exact h
    · exact hother

/-- The expressions on which every visit reads its bits inside an operand. -/
structure Simplifies (e : Exp) : Prop where
  typed : e.WellTyped
  visits : ∀ d, Visits e d → BitsInside d

theorem Simplifies.called (h : Simplifies e) (hd : d ∈ calls e)
    (htyped : d.WellTyped) : Simplifies d :=
  ⟨htyped, fun x hx => h.visits x (.head hd hx)⟩

/-- What a visit relies on of the calls it makes. -/
abbrev Builds (ρ : Valuation μ) (e : Exp) {α : Type} (R : α → Prop)
    (x : Body Exp Exp Exn α) : Prop :=
  x.Meets (fun d => d ∈ calls e ∧ Simplifies d) (fun d r => d.Agrees ρ r) R

theorem builds_fold (hfold : PreservesValues ρ constantFoldMore)
    (htotal : ∀ e, e.WellTyped → ∃ e', constantFoldMore e = .ok e')
    {x : Exp} (hd : e.Agrees ρ d) :
    Builds ρ x (e.Agrees ρ) (Body.ofExcept (constantFoldMore d)) := by
  obtain ⟨r, hr⟩ := htotal d hd.wellTyped
  exact .ofExcept hr (Agrees.trans hd (hfold d r hd.wellTyped hr))

theorem builds_rebuild (hfold : PreservesValues ρ constantFoldMore)
    (htotal : ∀ e, e.WellTyped → ∃ e', constantFoldMore e = .ok e')
    {x : Exp} (he : e.WellTyped)
    (hcalls : ∀ d ∈ rebuiltOperands e, d.WellTyped →
      d ∈ calls x ∧ Simplifies d) :
    Builds ρ x (e.Agrees ρ) (rebuild constantFoldMore e) := by
  cases e with
  | binOp op e1 e2 =>
    have h1 := hcalls e1 (by simp [rebuiltOperands, Exp.operands]) he.1
    have h2 := hcalls e2 (by simp [rebuiltOperands, Exp.operands]) he.2.1
    refine ⟨h2, fun r2 hr2 => ⟨h1, fun r1 hr1 => ?_⟩⟩
    exact builds_fold hfold htotal (binOp_agrees op he hr1 hr2)
  | unOp op e1 =>
    have h1 := hcalls e1 (by simp [rebuiltOperands, Exp.operands]) he
    refine ⟨h1, fun r1 hr1 => ?_⟩
    exact builds_fold hfold htotal (unOp_agrees op hr1)
  | cast ct t e1 =>
    have h1 := hcalls e1 (by simp [rebuiltOperands, Exp.operands]) he.1
    refine ⟨h1, fun r1 hr1 => ?_⟩
    exact builds_fold hfold htotal (cast_agrees he hr1)
  | mem v e1 t =>
    have h1 := hcalls e1 (by simp [rebuiltOperands, Exp.operands]) he.1
    refine ⟨h1, fun r1 hr1 => ?_⟩
    exact .pure (mem_agrees he hr1)
  | ite cond e1 e2 =>
    have hc := hcalls cond (by simp [rebuiltOperands, Exp.operands]) he.1
    have h1 := hcalls e1 (by simp [rebuiltOperands, Exp.operands]) he.2.1
    have h2 := hcalls e2 (by simp [rebuiltOperands, Exp.operands]) he.2.2.1
    refine ⟨h2, fun r2 hr2 => ⟨h1, fun r1 hr1 => ⟨hc, fun r hr => ?_⟩⟩⟩
    exact builds_fold hfold htotal (ite_agrees he hr hr1 hr2)
  | constant v => exact .pure (.refl ρ he)
  | temp v => exact .pure (.refl ρ he)
  | name l => exact .pure (.refl ρ he)
  | letTemp v e1 e2 => exact .pure (.refl ρ he)
  | letMem v addr t e1 e2 => exact .pure (.refl ρ he)
  | _ => exact he.elim

theorem simplifyBody_builds (hfold : PreservesValues ρ constantFoldMore)
    (htotal : ∀ e, e.WellTyped → ∃ e', constantFoldMore e = .ok e')
    (he : Simplifies e) :
    Builds ρ e (e.Agrees ρ) (simplifyBody constantFoldMore e) := by
  have hpush : e.Agrees ρ (pushDown e) := pushDown_agrees he.typed
  have hbits : BitsInside (pushDown e) := by
    obtain ⟨hlow, hword⟩ := he.visits e .refl
    exact ⟨hlow.pushDown, hword.pushDown⟩
  obtain ⟨o, ho, hsound⟩ :=
    firstPlan_plans (shapes_plans hpush.wellTyped hbits) (ρ := ρ)
  have hplan : Builds ρ e (· = o)
      (Body.ofExcept (firstPlan shapes (pushDown e))) := .ofExcept ho rfl
  refine hplan.bind ?_
  rintro o rfl
  cases o with
  | none =>
    refine (builds_rebuild hfold htotal hpush.wellTyped ?_).mono (fun d hd => hd)
      fun r hr => Agrees.trans hpush hr
    intro d hd htyped
    have hcall : d ∈ calls e := by
      rw [calls, ho]
      exact hd
    exact ⟨hcall, he.called hcall htyped⟩
  | some p =>
    cases p with
    | done e' => exact .pure (Agrees.trans hpush (hsound _ rfl))
    | under wrap d =>
      obtain ⟨htyped, -, hwrap⟩ := hsound _ rfl
      have hcall : d ∈ calls e := by
        rw [calls, ho]
        exact List.mem_singleton_self d
      refine ⟨⟨hcall, he.called hcall htyped⟩, fun r hr => ?_⟩
      exact .pure (Agrees.trans hpush (hwrap r hr))

theorem typed_rebuiltOperands (he : e.WellTyped)
    (hd : d ∈ rebuiltOperands e) : d.WellTyped := by
  cases e with
  | binOp op e1 e2 =>
    simp only [rebuiltOperands, Exp.operands, List.mem_cons,
      List.not_mem_nil, or_false] at hd
    rcases hd with rfl | rfl
    · exact he.1
    · exact he.2.1
  | ite cond e1 e2 =>
    simp only [rebuiltOperands, Exp.operands, List.mem_cons,
      List.not_mem_nil, or_false] at hd
    rcases hd with rfl | rfl | rfl
    · exact he.1
    · exact he.2.1
    · exact he.2.2.1
  | unOp op e1 =>
    obtain rfl : d = e1 := List.mem_singleton.mp hd
    exact he
  | cast ct t e1 | mem v e1 t =>
    obtain rfl : d = e1 := List.mem_singleton.mp hd
    exact he.1
  | fbinOp op rm e1 e2 | funOp op rm e1 | fcast ct rm t e1 => exact he.elim
  | _ => cases hd

/-- A call is on an expression with less work, which simplifies as well. -/
theorem Simplifies.call (he : Simplifies e) (hd : d ∈ calls e) :
    work d < work e ∧ Simplifies d := by
  have hpush : e.Agrees Valuation.zero (pushDown e) := pushDown_agrees he.typed
  obtain ⟨hlow, hword⟩ := he.visits e .refl
  obtain ⟨o, ho, hsound⟩ := firstPlan_plans
    (shapes_plans hpush.wellTyped ⟨hlow.pushDown, hword.pushDown⟩)
    (ρ := Valuation.zero)
  have hle := work_pushDown e
  have hcalls := hd
  rw [calls, ho] at hd
  cases o with
  | none =>
    exact ⟨(work_rebuiltOperands hd).trans_le hle,
      he.called hcalls (typed_rebuiltOperands hpush.wellTyped hd)⟩
  | some p =>
    cases p with
    | done e' => cases hd
    | under wrap d' =>
      obtain rfl : d = d' := List.mem_singleton.mp hd
      obtain ⟨htyped, hwork, -⟩ := hsound _ rfl
      exact ⟨hwork.trans_le hle, he.called hcalls htyped⟩

theorem Simplifies.acc (he : Simplifies e) :
    Acc (fun d e => d ∈ calls e) e := by
  induction hn : work e using Nat.strong_induction_on generalizing e with
  | _ n ih =>
    subst hn
    refine Acc.intro e fun d hd => ?_
    obtain ⟨hlt, hd'⟩ := he.call hd
    exact ih (work d) hlt hd' rfl

/-- The rewriting ends. -/
theorem simplifyRec_returns (hfold : PreservesValues ρ constantFoldMore)
    (htotal : ∀ e, e.WellTyped → ∃ e', constantFoldMore e = .ok e')
    (he : Simplifies e) :
    ∃ e', (simplifyRec constantFoldMore).Returns e e' ∧ e.Agrees ρ e' := by
  have hproves : (simplifyRec constantFoldMore).Proves calls Simplifies
      (fun e e' => e.Agrees ρ e') := by
    refine ⟨fun e he _ => simplifyBody_builds hfold htotal he,
      fun e he => he, ?_⟩
    intro e d r _ hd
    cases hd
  exact hproves.returns he he.acc

/-- The fold where it returns, and the expression itself where it raises. -/
def orKeep (constantFoldMore : Exp → OCaml Exp) (e : Exp) : OCaml Exp :=
  match constantFoldMore e with
  | .ok e' => .ok e'
  | .error _ => .ok e

theorem orKeep_preserves (hfold : PreservesValues ρ constantFoldMore) :
    PreservesValues ρ (orKeep constantFoldMore) := by
  intro e e' he h
  unfold orKeep at h
  split at h
  · next r hr =>
    cases h
    exact hfold e _ he hr
  · cases h
    exact .refl ρ he

theorem orKeep_returns (e : Exp) :
    ∃ e', orKeep constantFoldMore e = .ok e' := by
  unfold orKeep
  split
  · exact ⟨_, rfl⟩
  · exact ⟨_, rfl⟩

theorem refines_fold (e : Exp) :
    (Body.ofExcept (constantFoldMore e) : Body Exp Exp Exn Exp).Refines
      (Body.ofExcept (orKeep constantFoldMore e)) := by
  unfold orKeep
  rcases constantFoldMore e with x | e'
  · trivial
  · rfl

theorem refines_rebuild (e : Exp) : (rebuild constantFoldMore e).Refines
    (rebuild (orKeep constantFoldMore) e) := by
  cases e with
  | binOp op e1 e2 | fbinOp op rm e1 e2 =>
    exact ⟨_, rfl, fun r2 => ⟨_, rfl, fun r1 => refines_fold _⟩⟩
  | unOp op e1 | cast ct t e1 | funOp op rm e1 | fcast ct rm t e1 =>
    exact ⟨_, rfl, fun r1 => refines_fold _⟩
  | ite cond e1 e2 =>
    exact ⟨_, rfl, fun r2 => ⟨_, rfl, fun r1 => ⟨_, rfl, fun r =>
      refines_fold _⟩⟩⟩
  | mem v e1 t => exact .refl _
  | _ => exact .refl _

theorem refines_orKeep : (simplifyRec constantFoldMore).Refines
    (simplifyRec (orKeep constantFoldMore)) := by
  refine ⟨fun e => ?_, rfl, rfl, rfl⟩
  refine Body.Refines.bind (.refl _) fun o => ?_
  cases o with
  | none => exact refines_rebuild _
  | some p => cases p <;> exact .refl _

/-- The rewriting keeps the type and the value of an expression on which
every visit that reads bit 7 or bit 31 reads it inside its operand, and it
returns if the fold does. -/
theorem simplifyRec_preserves (hfold : PreservesValues ρ constantFoldMore)
    (he : e.WellTyped) (hbits : ∀ d, Visits e d → BitsInside d) :
    (∀ n e', (simplifyRec constantFoldMore).eval n e = .ok e' →
      e.Agrees ρ e') ∧
    ((∀ e, e.WellTyped → ∃ e', constantFoldMore e = .ok e') →
      ∃ n e', (simplifyRec constantFoldMore).eval n e = .ok e') := by
  constructor
  · intro n e' h
    obtain ⟨r, hr, hagrees⟩ := simplifyRec_returns (orKeep_preserves hfold)
      (fun e _ => orKeep_returns e) ⟨he, hbits⟩
    obtain rfl : e' = r :=
      Scheme.Returns.unique ⟨n, refines_orKeep.eval le_rfl h⟩ hr
    exact hagrees
  · intro htotal
    obtain ⟨r, ⟨n, hn⟩, -⟩ := simplifyRec_returns hfold htotal ⟨he, hbits⟩
    exact ⟨n, r, hn⟩

/-- Bit 7 of a word. -/
def bitOfWord : Exp :=
  .cast .castLow .reg1 (.binOp .rshift (.temp ⟨0, [], .reg32⟩) (.int .reg8 7))

theorem Visits.mem {l : List Exp} (he : e ∈ l)
    (hclosed : ∀ d ∈ l, ∀ x ∈ calls d, x ∈ l) (h : Visits e d) : d ∈ l := by
  induction h with
  | refl => exact he
  | tail _ hcall ih => exact hclosed _ ih _ hcall

theorem simplifyRec_preserves_bitOfWord :
    (∀ n e', (simplifyRec pure).eval n bitOfWord = .ok e' →
      bitOfWord.Agrees Valuation.zero e') ∧
    ((∀ e, e.WellTyped → ∃ e', (pure e : OCaml Exp) = .ok e') →
      ∃ n e', (simplifyRec pure).eval n bitOfWord = .ok e') := by
  apply simplifyRec_preserves (preservesValues_pure _)
  · exact ⟨⟨trivial, trivial, trivial⟩, trivial, (by decide : 1 ≤ 32)⟩
  · intro d hd
    have hmem : d ∈ [bitOfWord, .cast .castLow .reg8 (.temp ⟨0, [], .reg32⟩),
        .temp ⟨0, [], .reg32⟩] := by
      apply hd.mem List.mem_cons_self
      decide
    fin_cases hmem
    · exact ⟨fun _ => by decide, fun h => absurd h (by decide)⟩
    · exact ⟨trivial, trivial⟩
    · exact ⟨trivial, trivial⟩

/-- The bit above a halfword, read off its low word. -/
def bitAboveHalfword : Exp :=
  .cast .castLow .reg1 (.binOp .rshift (.temp ⟨0, [], .reg16⟩) (.int .reg8 31))

theorem simplifyRec_bitAboveHalfword :
    bitAboveHalfword.WellTyped ∧ PreservesValues Valuation.zero pure ∧
    ∃ e', (simplifyRec pure).eval 3 bitAboveHalfword = .ok e' ∧
      inferType none e' ≠ .ok .reg1 ∧
      ¬bitAboveHalfword.Agrees Valuation.zero e' := by
  refine ⟨⟨⟨trivial, trivial, trivial⟩, trivial, (by decide : 1 ≤ 16)⟩,
    preservesValues_pure _, _, rfl, by decide, fun h => ?_⟩
  have hwide : 32 ≤ 16 := h.wellTyped.1.2.2
  exact absurd hwide (by decide)

end Whole

end Fuzzball.FragSimplify
