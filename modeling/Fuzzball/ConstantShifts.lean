import Fuzzball.ConcreteDomain
import Fuzzball.ConstantFoldSound

/-!
# Shifts of constants

Where `constant_fold` and the concrete domain shift an `int64`, by which
amounts they do it, and what comes of it.
-/

namespace Fuzzball.Vine

variable {μ : Type*} [VineMemory μ] {ρ : Valuation μ}

/-- The amounts for which the shifts of `Int64` are specified. -/
def Specified (n : ℤ) : Prop := 0 ≤ n ∧ n < 64

def BinopType.IsShift (op : BinopType) : Prop :=
  op = .lshift ∨ op = .rshift ∨ op = .arshift

/-! ## The amounts -/

/-- The amounts of the shifts in one step of `constant_fold`, without those of
`to64`, `tos64` and `to_val`, which are 64 less a width. -/
def Exp.foldAmounts : Exp → OCaml (List ℤ)
  | .binOp op (.int t _) (.int t2 i2) =>
    match op with
    | .lshift | .rshift | .arshift => do
      let k ← toshift (← bitsOfWidth t) (.int t2 i2)
      pure [(k : ℤ)]
    | .concat => do
      let bits ← bitsOfWidth t
      pure [(bits : ℤ)]
    | _ => pure []
  | .binOp .lshift (.binOp .times _ (.int _ _)) (.int _ shift) =>
    pure [I64.toOCamlInt shift]
  | .cast ct t2 (.int t _) => do
    let bits1 ← bitsOfWidth t
    let bits ← bitsOfWidth t2
    match ct with
    | .castHigh => pure [(bits1 - bits : ℤ), (bits1 - bits : ℤ)]
    | .castLow => pure [(bits : ℤ)]
    | _ => pure []
  | _ => pure []

/-- The expressions for which one of the amounts is out of range. -/
def Exp.ShiftsFar : Exp → Prop
  | .binOp op (.int t _) (.int t2 i2) =>
    op.IsShift ∧ t = .reg64 ∧ 64 ≤ (i2.setWidth t2.width).toNat
  | .binOp .lshift (.binOp .times _ (.int _ _)) (.int _ shift) =>
    64 ≤ productShift shift
  | .cast .castLow t2 (.int _ _) => t2 = .reg64
  | _ => False

/-- No shift of the step is out of range. -/
def Exp.ShiftsSpecified (e : Exp) : Prop :=
  ∃ ns, e.foldAmounts = .ok ns ∧ ∀ n ∈ ns, Specified n

section Amounts

variable {t : Typ}

theorem conversion_specified (ht : t.IsReg) : Specified (64 - t.width) := by
  have hpos := ht.width_pos
  have hle := t.width_le
  constructor <;> omega

theorem specified_natCast (n : ℕ) : Specified n ↔ n < 64 := by
  constructor
  · intro h
    exact_mod_cast h.2
  · intro h
    exact ⟨Int.natCast_nonneg n, by exact_mod_cast h⟩

theorem width_lt_iff (ht : t.IsReg) : t.width < 64 ↔ t ≠ .reg64 := by
  cases t <;> simp_all [Typ.IsReg]

theorem shiftsSpecified_of_amounts {e : Exp} {ns : List ℤ}
    (h : e.foldAmounts = .ok ns) :
    e.ShiftsSpecified ↔ ∀ n ∈ ns, Specified n := by
  constructor
  · rintro ⟨ns', h', hall⟩
    rw [h] at h'
    cases h'
    exact hall
  · intro hall
    exact ⟨ns, h, hall⟩

theorem toOCamlInt_specified_iff (shift : I64) :
    Specified (I64.toOCamlInt shift) ↔ productShift shift < 64 := by
  have hlt : shift.toNat % 2 ^ 63 < 2 ^ 63 := Nat.mod_lt _ (by decide)
  rw [toOCamlInt_cases, Specified, productShift]
  split_ifs <;> omega

theorem shiftsSpecified_shift {op : BinopType} (hop : op.IsShift)
    {t2 : Typ} {i1 i2 : I64} (ht : t.IsReg) (ht2 : t2.IsReg) :
    (Exp.binOp op (.int t i1) (.int t2 i2)).ShiftsSpecified ↔
      ¬(t = .reg64 ∧ 64 ≤ (i2.setWidth t2.width).toNat) := by
  have hamounts : (Exp.binOp op (.int t i1) (.int t2 i2)).foldAmounts =
      .ok [((min t.width (i2.setWidth t2.width).toNat : ℕ) : ℤ)] := by
    rcases hop with rfl | rfl | rfl <;>
      simp only [Exp.foldAmounts, ht.bitsOfWidth_eq, OCaml.ok_bind,
        toshift_eq ht2 i2 t.width_le] <;> rfl
  have hfull := width_lt_iff ht
  rw [shiftsSpecified_of_amounts hamounts, List.forall_mem_singleton,
    specified_natCast, min_lt_iff, hfull, not_and_or, not_le]

theorem shiftsSpecified_cast {ct : CastType} {t2 : Typ} {i : I64}
    (ht : t.IsReg) (ht2 : t2.IsReg) (hadm : ct.Admits t2 t) :
    (Exp.cast ct t2 (.int t i)).ShiftsSpecified ↔
      ¬(ct = .castLow ∧ t2 = .reg64) := by
  have hle := t.width_le
  have hpos := ht2.width_pos
  cases ct with
  | castHigh =>
    have hw : t2.width ≤ t.width := hadm
    have hamounts : (Exp.cast .castHigh t2 (.int t i)).foldAmounts =
        .ok [(t.width - t2.width : ℤ), (t.width - t2.width : ℤ)] := by
      simp only [Exp.foldAmounts, ht.bitsOfWidth_eq, ht2.bitsOfWidth_eq,
        OCaml.ok_bind]
      rfl
    rw [shiftsSpecified_of_amounts hamounts]
    have hin : Specified (t.width - t2.width : ℤ) := by
      constructor <;> omega
    simp [hin]
  | castLow =>
    have hamounts : (Exp.cast .castLow t2 (.int t i)).foldAmounts =
        .ok [(t2.width : ℤ)] := by
      simp only [Exp.foldAmounts, ht.bitsOfWidth_eq, ht2.bitsOfWidth_eq,
        OCaml.ok_bind]
      rfl
    rw [shiftsSpecified_of_amounts hamounts, List.forall_mem_singleton,
      specified_natCast, width_lt_iff ht2]
    simp
  | castUnsigned | castSigned =>
    have hnone : ∀ n ∈ ([] : List ℤ), Specified n := by simp
    refine (shiftsSpecified_of_amounts ?_).trans (iff_of_true hnone (by simp))
    simp only [Exp.foldAmounts, ht.bitsOfWidth_eq, ht2.bitsOfWidth_eq,
      OCaml.ok_bind]
    rfl

theorem shiftsSpecified_none {e : Exp} (h : e.foldAmounts = .ok []) :
    e.ShiftsSpecified := by
  rw [shiftsSpecified_of_amounts h]
  intro n hn
  cases hn

/-- Which steps shift within the range. -/
theorem shiftsSpecified_iff {e : Exp} (he : e.WellTyped) :
    e.ShiftsSpecified ↔ ¬e.ShiftsFar := by
  unfold Exp.ShiftsFar
  split
  · rename_i op t i1 t2 i2
    obtain ⟨ht, ht2, hadm⟩ := he
    by_cases hop : op.IsShift
    · rw [shiftsSpecified_shift hop ht ht2]
      simp [hop]
    · simp only [hop, false_and, not_false_eq_true, iff_true]
      cases op with
      | lshift | rshift | arshift =>
        exact absurd (by simp [BinopType.IsShift]) hop
      | concat =>
        have hamounts : (Exp.binOp .concat (.int t i1)
            (.int t2 i2)).foldAmounts = .ok [(t.width : ℤ)] := by
          simp only [Exp.foldAmounts, ht.bitsOfWidth_eq, OCaml.ok_bind]
          rfl
        rw [shiftsSpecified_of_amounts hamounts, List.forall_mem_singleton,
          specified_natCast]
        obtain ⟨-, rfl | rfl | rfl⟩ := hadm <;> decide
      | _ => exact shiftsSpecified_none rfl
  · rename_i x t factor t2 shift
    have hamounts : (Exp.binOp .lshift (.binOp .times x (.int t factor))
        (.int t2 shift)).foldAmounts = .ok [I64.toOCamlInt shift] := rfl
    rw [shiftsSpecified_of_amounts hamounts, List.forall_mem_singleton,
      toOCamlInt_specified_iff, not_le]
  · rename_i t2 t i
    obtain ⟨ht, ht2, hadm⟩ := he
    rw [shiftsSpecified_cast ht ht2 hadm]
    simp
  · rename_i hconst hproduct hlow
    simp only [not_false_eq_true, iff_true]
    by_cases hcast : ∃ ct t2 t i, e = .cast ct t2 (.int t i)
    · obtain ⟨ct, t2, t, i, rfl⟩ := hcast
      obtain ⟨ht, ht2, hadm⟩ := he
      rw [shiftsSpecified_cast ht ht2 hadm]
      rintro ⟨rfl, -⟩
      exact hlow t2 t i rfl
    · apply shiftsSpecified_none
      unfold Exp.foldAmounts
      split
      · exact absurd rfl (hconst _ _ _ _ _)
      · exact absurd rfl (hproduct _ _ _ _ _)
      · exact absurd ⟨_, _, _, _, rfl⟩ hcast
      · rfl

end Amounts

/-! ## The folded value -/

/-- The shifts by a constant that are folded to something else: a constant of
64 bits by 64 or more, two shifts by amounts whose sum wraps, and a product by
64 or more. -/
def Exp.ShiftsWrong (ρ : Valuation μ) (e : Exp) : Prop :=
  e.FoldsWrong ∨ e.WrapsShift ρ ∨ e.ShiftsProductFar ρ

/-- Whatever the platform answers, the folded expression has the type and the
value of the expression. -/
def Exp.FoldsExactly (ρ : Valuation μ) (ctx : LValue → Option Exp) (e : Exp)
    (t : Typ) : Prop :=
  ∀ wild e', constantFold wild ctx e = .ok e' →
    inferType none e' = .ok t ∧ e'.eval ρ t.width = e.eval ρ t.width

section Folded

variable {op : BinopType} {e1 : Exp} {t2 t : Typ} {s : I64}
  {ctx : LValue → Option Exp}

/-- Of the expressions that are misfolded the shifts are these. -/
theorem misfolds_shift_iff (hop : op.IsShift) :
    (Exp.binOp op e1 (.int t2 s)).Misfolds ρ ↔
      (Exp.binOp op e1 (.int t2 s)).ShiftsWrong ρ := by
  have hdiv : (Exp.binOp op e1 (.int t2 s)).DivisorNonzero := by
    intro h
    rcases hop with rfl | rfl | rfl <;> simp at h
  have hconst : (Exp.binOp op e1 (.int t2 s)).FoldsWrong →
      (Exp.binOp op e1 (.int t2 s)).IsConstantOperation := by
    intro h
    unfold Exp.FoldsWrong at h
    split at h
    · rename_i heq
      cases heq
      trivial
    · rename_i heq
      cases heq
    · exact h.elim
  have hlose : ¬(Exp.binOp op e1 (.int t2 s)).LosesSignBits ρ := by
    rcases hop with rfl | rfl | rfl <;> exact id
  have hout : ¬(Exp.binOp op e1 (.int t2 s)).ShiftsOutConstant := by
    intro h
    unfold Exp.ShiftsOutConstant at h
    split at h
    · rename_i heq
      cases heq
      rcases hop with rfl | rfl | rfl <;> simp at h
    · exact h
  have hswap : ¬(Exp.binOp op e1 (.int t2 s)).SwapsChoice := by
    rcases hop with rfl | rfl | rfl <;> exact id
  unfold Exp.Misfolds Exp.ShiftsWrong
  tauto

theorem foldsExactly_shift_iff (hop : op.IsShift) (hctx : ContextTrue ρ ctx)
    (hint : (Exp.binOp op e1 (.int t2 s)).IsInteger)
    (hn : (Exp.binOp op e1 (.int t2 s)).Normal)
    (ht : inferType none (.binOp op e1 (.int t2 s)) = .ok t) :
    (Exp.binOp op e1 (.int t2 s)).FoldsExactly ρ ctx t ↔
      ¬(Exp.binOp op e1 (.int t2 s)).ShiftsWrong ρ := by
  have hiff := constantFold_preserves_iff hint hn ht hctx
  rwa [misfolds_shift_iff hop] at hiff

/-- A constant shifted by a constant. -/
theorem constantFold_shift_iff (hop : op.IsShift) (ht : t.IsReg)
    (ht2 : t2.IsReg) (x : I64) :
    (∀ wild, constantFold wild ctx (.binOp op (.int t x) (.int t2 s)) =
      .ok (.int t ((shiftValue op (x.setWidth t.width)
        (s.setWidth t2.width).toNat).setWidth 64))) ↔
      ¬(t = .reg64 ∧ 64 ≤ (s.setWidth t2.width).toNat) := by
  have hminus : op ≠ .minus := by
    rcases hop with rfl | rfl | rfl <;> decide
  have hvalue : (Exp.binOp op (.int t x) (.int t2 s)).constantValue =
      (shiftValue op (x.setWidth t.width) (s.setWidth t2.width).toNat).setWidth
        64 := by
    rcases hop with rfl | rfl | rfl <;> rfl
  simp only [constantFold, constantFoldStep_binOp _ _ _ hminus]
  rw [← hvalue]
  exact foldBinop_shift_iff hop x s ht ht2

end Folded

/-! ## The concrete domain -/

/-- Nothing but the fill is left, so that further shifts change nothing. -/
def ShiftedOut (op : BinopType) {w : ℕ} (x : BitVec w) : Prop :=
  match op with
  | .arshift => x ∈ [0, BitVec.allOnes w]
  | _ => x = 0

section Concrete

variable {op : BinopType} {t t2 : Typ} {v v2 : I64} {w m n : ℕ}

theorem shiftValue_eq_self_iff (hop : op.IsShift) (hn : 0 < n) (x : BitVec w) :
    shiftValue op x n = x ↔ ShiftedOut op x := by
  rcases hop with rfl | rfl | rfl
  · exact Bits.shiftLeft_eq_self_iff hn x
  · exact Bits.ushiftRight_eq_self_iff hn x
  · exact Bits.sshiftRight_eq_self_iff hn x

theorem shiftValue_eq_iff (hop : op.IsShift) (x : BitVec w) (h : m < n) :
    shiftValue op x n = shiftValue op x m ↔
      ShiftedOut op (shiftValue op x m) := by
  obtain ⟨d, rfl⟩ := Nat.exists_eq_add_of_lt h
  rw [Nat.add_assoc, shiftValue_add hop,
    shiftValue_eq_self_iff hop (Nat.succ_pos d)]

/-- Two amounts come to the same if they are equal, or if the smaller leaves
nothing to shift. -/
theorem shiftValue_amounts_iff (hop : op.IsShift) (x : BitVec w) :
    shiftValue op x m = shiftValue op x n ↔
      m = n ∨ ShiftedOut op (shiftValue op x (min m n)) := by
  rcases lt_trichotomy m n with h | rfl | h
  · rw [min_eq_left h.le, eq_comm, shiftValue_eq_iff hop x h]
    simp [h.ne]
  · simp
  · rw [min_eq_right h.le, shiftValue_eq_iff hop x h]
    simp [h.ne']

/-- The concrete shift is by less than 64, and it is that of the bit vector. -/
def ShiftsExactly (op : BinopType) (t t2 : Typ) (v v2 : I64) : Prop :=
  Specified (ConcreteDomain.amount v2) ∧
    ∀ wild, ∃ f, ConcreteDomain.shiftFunc wild op t = some f ∧
      (f v v2).setWidth t.width =
        shiftValue op (v.setWidth t.width) (v2.setWidth t2.width).toNat

theorem shiftsExactly_iff (hop : op.IsShift) (ht : t.IsReg) :
    ShiftsExactly op t t2 v v2 ↔
      v2.toNat % 256 < 64 ∧
        (v2.toNat % 256 = (v2.setWidth t2.width).toNat ∨
          ShiftedOut op (shiftValue op (v.setWidth t.width)
            (min (v2.toNat % 256) (v2.setWidth t2.width).toNat))) := by
  rw [ShiftsExactly, ConcreteDomain.amount_eq, specified_natCast]
  apply and_congr_right
  intro hlt
  rw [← shiftValue_amounts_iff hop]
  have hfunc := fun wild => ConcreteDomain.shiftFunc_of_lt (v := v) wild hop ht
    hlt
  constructor
  · intro h
    obtain ⟨f, hf, hvalue⟩ := h (.const 0)
    obtain ⟨g, hg, hlow⟩ := hfunc (.const 0)
    rw [hf] at hg
    cases hg
    rw [← hlow, hvalue]
  · intro h wild
    obtain ⟨f, hf, hvalue⟩ := hfunc wild
    exact ⟨f, hf, hvalue.trans h⟩

end Concrete

/-! ## The three paths -/

/-- Where the shifts of constants stay within the range of `Int64`, and where
they are those of bit vectors: the amounts in a step of `constant_fold`, a
constant shifted by a constant, any expression shifted by a constant, and the
shifts of the concrete domain.  Those of the conversions are in range. -/
theorem shifts_exact_iff {ctx : LValue → Option Exp}
    (hctx : ContextTrue ρ ctx) {op : BinopType} (hop : op.IsShift) :
    (∀ t : Typ, t.IsReg → Specified (64 - t.width)) ∧
    (∀ e : Exp, e.WellTyped → (e.ShiftsSpecified ↔ ¬e.ShiftsFar)) ∧
    (∀ (t t2 : Typ) (x s : I64), t.IsReg → t2.IsReg →
      ((∀ wild, constantFold wild ctx (.binOp op (.int t x) (.int t2 s)) =
        .ok (.int t ((shiftValue op (x.setWidth t.width)
          (s.setWidth t2.width).toNat).setWidth 64))) ↔
        ¬(t = .reg64 ∧ 64 ≤ (s.setWidth t2.width).toNat))) ∧
    (∀ (e1 : Exp) (t2 t : Typ) (s : I64),
      (Exp.binOp op e1 (.int t2 s)).IsInteger →
      (Exp.binOp op e1 (.int t2 s)).Normal →
      inferType none (.binOp op e1 (.int t2 s)) = .ok t →
      ((Exp.binOp op e1 (.int t2 s)).FoldsExactly ρ ctx t ↔
        ¬(Exp.binOp op e1 (.int t2 s)).ShiftsWrong ρ)) ∧
    (∀ (t t2 : Typ) (v v2 : I64), t.IsReg → t2.IsReg →
      (ShiftsExactly op t t2 v v2 ↔
        v2.toNat % 256 < 64 ∧
          (v2.toNat % 256 = (v2.setWidth t2.width).toNat ∨
            ShiftedOut op (shiftValue op (v.setWidth t.width)
              (min (v2.toNat % 256) (v2.setWidth t2.width).toNat))))) :=
  ⟨fun _ ht => conversion_specified ht,
    fun _ he => shiftsSpecified_iff he,
    fun _ _ x _ ht ht2 => constantFold_shift_iff hop ht ht2 x,
    fun _ _ _ _ hint hn ht => foldsExactly_shift_iff hop hctx hint hn ht,
    fun _ _ _ _ ht _ => shiftsExactly_iff hop ht⟩

theorem contextTrue_none (ρ : Valuation μ) :
    ContextTrue ρ fun _ => none := by
  intro lv c h
  cases h

/-- `0x80:REG_8 >> 9` is zero on both paths. -/
theorem shifts_exact_byte :
    (∀ wild, constantFold wild (fun _ => none)
      (.binOp .rshift (.int .reg8 0x80) (.int .reg8 9)) =
        .ok (.int .reg8 0)) ∧
    ShiftsExactly .rshift .reg8 .reg8 0x80 9 := by
  have hop : BinopType.IsShift .rshift := .inr (.inl rfl)
  obtain ⟨-, -, hfold, -, hconcrete⟩ :=
    shifts_exact_iff (contextTrue_none Valuation.zero) hop
  exact ⟨(hfold .reg8 .reg8 0x80 9 trivial trivial).mpr (by decide),
    (hconcrete .reg8 .reg8 0x80 9 trivial trivial).mpr
      ⟨by decide, .inl (by decide)⟩⟩

/-- A platform that takes the amount of a shift modulo 64. -/
def maskingShift : WildShift where
  left x n := x <<< (n % 64).toNat
  right x n := x.sshiftRight (n % 64).toNat
  logical x n := x >>> (n % 64).toNat

/-- There one of 64 bits shifted left by 64 stays one. -/
theorem shift_by_64_keeps_one :
    (Exp.binOp .lshift (.int .reg64 1) (.int .reg8 64)).foldAmounts =
      .ok [64] ∧
    ConcreteDomain.amount 64 = 64 ∧ ¬Specified 64 ∧
    constantFold maskingShift (fun _ => none)
      (.binOp .lshift (.int .reg64 1) (.int .reg8 64)) =
        .ok (.int .reg64 1) ∧
    ConcreteDomain.lshift64 maskingShift 1 64 = 1 ∧
    (Exp.binOp .lshift (.int .reg64 1) (.int .reg8 64)).eval
      Valuation.zero 64 = 0 := by
  refine ⟨by decide, by decide, fun h => absurd h.2 (by decide), ?_,
    by decide, by decide⟩
  rw [constantFold, constantFoldStep_binOp _ _ _ (by decide)]
  decide

end Fuzzball.Vine
