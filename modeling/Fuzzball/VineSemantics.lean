import Fuzzball.VineTypecheck
import Fuzzball.BitVectorCasts

/-!
# Meaning of integer Vine expressions

The value of an expression of register type is a bit vector of that width.
`Exp.eval` takes the width as an argument: it is meant to be used at the width
of the expression, where every operand of an arithmetic operation is evaluated
at the same width, and it evaluates the operands of comparisons, casts,
concatenations and the amounts of shifts at their own width.
-/

namespace Fuzzball.Vine

/-! ## Types -/

/-- The type of a concatenation of two values of the given type. -/
def Typ.double : Typ → Typ
  | .reg8 => .reg16
  | .reg16 => .reg32
  | .reg32 => .reg64
  | t => t

/-- The type of a binary operation on a first operand of type `t1`. -/
def BinopType.result : BinopType → Typ → Typ
  | .eq, _ | .neq, _ | .lt, _ | .le, _ | .slt, _ | .sle, _ => .reg1
  | .concat, t1 => t1.double
  | _, t1 => t1

/-- The operand types a binary operation accepts. -/
def BinopType.Admits : BinopType → Typ → Typ → Prop
  | .lshift, _, _ | .rshift, _, _ | .arshift, _, _ => True
  | .concat, t1, t2 => t2 = t1 ∧ (t1 = .reg8 ∨ t1 = .reg16 ∨ t1 = .reg32)
  | _, t1, t2 => t2 = t1

/-- The widths a cast goes between. -/
def CastType.Admits : CastType → Typ → Typ → Prop
  | .castUnsigned, t, t1 | .castSigned, t, t1 => t1.width ≤ t.width
  | .castHigh, t, t1 | .castLow, t, t1 => t.width ≤ t1.width

/-- A memory or array type whose elements of type `t` an index of type `ti`
reaches. -/
def Typ.Indexes : Typ → Typ → Typ → Prop
  | .array t1 _, _, t => t1 = t
  | .tMem t1 _, ti, _ => t1 = ti
  | _, _, _ => False

/-- The type of a well-typed expression, read off its syntax. -/
def Exp.typ : Exp → Typ
  | .binOp op e1 _ => op.result e1.typ
  | .unOp _ e1 => e1.typ
  | .constant (.int t _) => t
  | .temp v => v.typ
  | .mem _ _ t => t
  | .name _ => addrT
  | .cast _ t _ => t
  | .letTemp _ _ e2 => e2.typ
  | .letMem _ _ _ _ e2 => e2.typ
  | .ite _ e1 _ => e1.typ
  | _ => .tString

def Exp.width (e : Exp) : ℕ := e.typ.width

/-- The well-typed expressions over the integer registers, without
floating-point operations, strings and unknowns. -/
def Exp.WellTyped : Exp → Prop
  | .binOp op e1 e2 => e1.WellTyped ∧ e2.WellTyped ∧ op.Admits e1.typ e2.typ
  | .unOp _ e1 => e1.WellTyped
  | .constant (.int t _) => t.IsReg
  | .temp v => v.typ.IsReg
  | .mem v addr t => addr.WellTyped ∧ t.IsReg ∧ v.typ.Indexes addr.typ t
  | .name _ => True
  | .cast ct t e1 => e1.WellTyped ∧ t.IsReg ∧ ct.Admits t e1.typ
  | .letTemp v e1 e2 => e1.WellTyped ∧ e2.WellTyped ∧ v.typ = e1.typ
  | .letMem v addr t e1 e2 =>
      addr.WellTyped ∧ e1.WellTyped ∧ e2.WellTyped ∧ t = e1.typ ∧
        v.typ.Indexes addr.typ t
  | .ite cond e1 e2 =>
      cond.WellTyped ∧ e1.WellTyped ∧ e2.WellTyped ∧ cond.typ = .reg1 ∧
        e2.typ = e1.typ
  | _ => False

/-- Every constant is stored as an unsigned number of its width. -/
def Exp.Normal : Exp → Prop
  | .binOp _ e1 e2 => e1.Normal ∧ e2.Normal
  | .unOp _ e1 => e1.Normal
  | .constant (.int t i) => i.toNat < 2 ^ t.width
  | .mem _ addr _ => addr.Normal
  | .cast _ _ e1 => e1.Normal
  | .letTemp _ e1 e2 => e1.Normal ∧ e2.Normal
  | .letMem _ addr _ e1 e2 => addr.Normal ∧ e1.Normal ∧ e2.Normal
  | .ite cond e1 e2 => cond.Normal ∧ e1.Normal ∧ e2.Normal
  | _ => True

/-! ## Values -/

/-- The contents of a memory variable: what it holds at an address, read as
the given type, and what it becomes by a store. -/
class VineMemory (μ : Type*) where
  load : μ → Typ → I64 → I64
  store : μ → Typ → I64 → I64 → μ

/-- The values of the variables and the addresses of the labels. -/
structure Valuation (μ : Type*) where
  temp : Var → I64
  mem : Var → μ
  label : OString → I64

variable {μ : Type*}

def Valuation.setTemp (ρ : Valuation μ) (v : Var) (x : I64) : Valuation μ :=
  { ρ with temp := Function.update ρ.temp v x }

def Valuation.setMem (ρ : Valuation μ) (v : Var) (m : μ) : Valuation μ :=
  { ρ with mem := Function.update ρ.mem v m }

instance : VineMemory Unit where
  load _ _ _ := 0
  store _ _ _ _ := ()

/-- A valuation to evaluate expressions without variables in. -/
def Valuation.zero : Valuation Unit where
  temp _ := 0
  mem _ := ()
  label _ := 0

/-- A truth value as a register. -/
def flag (w : ℕ) (b : Bool) : BitVec w := (BitVec.ofBool b).setWidth w

/-- The value of an expression at width `w`.  Division is that of SMT-LIB,
total also where the divisor is zero. -/
def Exp.eval [VineMemory μ] : Exp → Valuation μ → (w : ℕ) → BitVec w
  | .binOp op e1 e2, ρ, w =>
    match op with
    | .plus => e1.eval ρ w + e2.eval ρ w
    | .minus => e1.eval ρ w - e2.eval ρ w
    | .times => e1.eval ρ w * e2.eval ρ w
    | .divide => (e1.eval ρ w).smtUDiv (e2.eval ρ w)
    | .sdivide => (e1.eval ρ w).smtSDiv (e2.eval ρ w)
    | .mod => e1.eval ρ w % e2.eval ρ w
    | .smod => (e1.eval ρ w).srem (e2.eval ρ w)
    | .lshift => e1.eval ρ w <<< (e2.eval ρ e2.width).toNat
    | .rshift => e1.eval ρ w >>> (e2.eval ρ e2.width).toNat
    | .arshift => (e1.eval ρ w).sshiftRight (e2.eval ρ e2.width).toNat
    | .bitand => e1.eval ρ w &&& e2.eval ρ w
    | .bitor => e1.eval ρ w ||| e2.eval ρ w
    | .xor => e1.eval ρ w ^^^ e2.eval ρ w
    | .eq => flag w (e1.eval ρ e1.width == e2.eval ρ e1.width)
    | .neq => flag w (e1.eval ρ e1.width != e2.eval ρ e1.width)
    | .lt => flag w ((e1.eval ρ e1.width).ult (e2.eval ρ e1.width))
    | .le => flag w ((e1.eval ρ e1.width).ule (e2.eval ρ e1.width))
    | .slt => flag w ((e1.eval ρ e1.width).slt (e2.eval ρ e1.width))
    | .sle => flag w ((e1.eval ρ e1.width).sle (e2.eval ρ e1.width))
    | .concat => (e1.eval ρ e1.width ++ e2.eval ρ e2.width).setWidth w
  | .unOp .neg e1, ρ, w => -e1.eval ρ w
  | .unOp .not e1, ρ, w => ~~~e1.eval ρ w
  | .constant (.int _ i), _, w => i.setWidth w
  | .temp v, ρ, w => (ρ.temp v).setWidth w
  | .mem v addr t, ρ, w =>
    (VineMemory.load (ρ.mem v) t ((addr.eval ρ addr.width).setWidth 64)).setWidth w
  | .name l, ρ, w => (ρ.label l).setWidth w
  | .cast ct _ e1, ρ, w =>
    match ct with
    | .castUnsigned | .castLow => (e1.eval ρ e1.width).setWidth w
    | .castSigned => (e1.eval ρ e1.width).signExtend w
    | .castHigh => Bits.high w (e1.eval ρ e1.width)
  | .letTemp v e1 e2, ρ, w =>
    e2.eval (ρ.setTemp v ((e1.eval ρ e1.width).setWidth 64)) w
  | .letMem v addr t e1 e2, ρ, w =>
    e2.eval (ρ.setMem v (VineMemory.store (ρ.mem v) t
      ((addr.eval ρ addr.width).setWidth 64)
      ((e1.eval ρ e1.width).setWidth 64))) w
  | .ite cond e1 e2, ρ, w =>
    if cond.eval ρ 1 = 1 then e1.eval ρ w else e2.eval ρ w
  | _, _, _ => 0

/-! ## Well-typed expressions and the type checker -/

/-- The types a variable of an integer expression has: a register, or a
memory or an array that holds registers. -/
def Typ.IsCell : Typ → Prop
  | .tMem ti _ => ti.IsReg
  | .array t _ => t.IsReg
  | t => t.IsReg

/-- The syntax of integer expressions: every type is a register type, and
there are no floating-point operations, strings and unknowns. -/
def Exp.IsInteger : Exp → Prop
  | .binOp _ e1 e2 => e1.IsInteger ∧ e2.IsInteger
  | .unOp _ e1 => e1.IsInteger
  | .constant (.int t _) => t.IsReg
  | .temp v => v.typ.IsReg
  | .mem v addr t => v.typ.IsCell ∧ addr.IsInteger ∧ t.IsReg
  | .name _ => True
  | .cast _ t e1 => t.IsReg ∧ e1.IsInteger
  | .letTemp v e1 e2 => v.typ.IsReg ∧ e1.IsInteger ∧ e2.IsInteger
  | .letMem v addr t e1 e2 =>
      v.typ.IsCell ∧ addr.IsInteger ∧ t.IsReg ∧ e1.IsInteger ∧ e2.IsInteger
  | .ite cond e1 e2 => cond.IsInteger ∧ e1.IsInteger ∧ e2.IsInteger
  | _ => False

theorem Typ.IsReg.double {t : Typ} (ht : t.IsReg) : t.double.IsReg := by
  cases t <;> simp_all [Typ.IsReg, Typ.double]

theorem BinopType.result_isReg
    (op : BinopType) {t : Typ} (ht : t.IsReg) : (op.result t).IsReg := by
  cases op <;> first | exact ht | exact ht.double | trivial

theorem Exp.WellTyped.isReg {e : Exp} (he : e.WellTyped) : e.typ.IsReg := by
  induction e with
  | binOp op e1 e2 ih1 _ => exact op.result_isReg (ih1 he.1)
  | unOp op e1 ih => exact ih he
  | constant v =>
    cases v with
    | int t i => exact he
    | str s => exact he.elim
  | temp v => exact he
  | mem v addr t _ => exact he.2.1
  | name l => trivial
  | cast ct t e1 _ => exact he.2.1
  | letTemp v e1 e2 _ ih => exact ih he.2.1
  | letMem v addr t e1 e2 _ _ ih => exact ih he.2.2.1
  | ite cond e1 e2 _ ih _ => exact ih he.2.1
  | _ => exact he.elim

theorem Exp.WellTyped.width_pos {e : Exp} (he : e.WellTyped) : 0 < e.width :=
  he.isReg.width_pos

theorem tint_of_isReg {t : Typ} (ht : t.IsReg) : tint t = true := by
  cases t <;> first | rfl | exact ht.elim

theorem tcompat_iff {t1 t2 : Typ} (h1 : t1.IsReg) (h2 : t2.IsReg) :
    tcompat t1 t2 = true ↔ t2 = t1 := by
  simp only [tcompat, h1.unwindType_eq, h2.unwindType_eq, decide_eq_true_eq]
  exact eq_comm

theorem typecheckBinop_ok_iff
    (op : BinopType) {t1 t2 t : Typ} (h1 : t1.IsReg) (h2 : t2.IsReg) :
    typecheckBinop op t1 t2 = .ok t ↔ op.Admits t1 t2 ∧ op.result t1 = t := by
  have hcompat := tcompat_iff h1 h2
  by_cases heq : t2 = t1
  · subst heq
    cases op <;>
      simp [typecheckBinop, hcompat, tint_of_isReg h1, BinopType.Admits,
        BinopType.result]
    cases t2 <;> simp_all [tintConcatable, unwindType, doubleWidth, Typ.double,
      Typ.IsReg]
  · have hne : tcompat t1 t2 = false := by simpa [heq] using hcompat.not
    cases op <;>
      simp [typecheckBinop, hne, tint_of_isReg h1, tint_of_isReg h2,
        BinopType.Admits, BinopType.result, heq]

theorem typecheckCast_ok_iff
    (ct : CastType) {t t1 t' : Typ} (ht : t.IsReg) (h1 : t1.IsReg) :
    typecheckCast ct t t1 = .ok t' ↔ ct.Admits t t1 ∧ t = t' := by
  cases t1 <;> first
    | exact h1.elim
    | cases ct <;>
        simp [typecheckCast, ht.bitsOfWidth_eq, CastType.Admits]

theorem typecheckAccess_ok_iff
    (v : Var) {vt et t t' : Typ} (het : et.IsReg) :
    typecheckAccess v vt et t = .ok t' ↔ vt.Indexes et t ∧ t = t' := by
  cases vt with
  | array t1 size =>
    simp only [typecheckAccess, tint_of_isReg het, Typ.Indexes, if_true]
    split_ifs with h <;> simp [h]
  | tMem ti endian =>
    simp only [typecheckAccess, Typ.Indexes]
    split_ifs with h <;> simp [h]
  | _ => simp [typecheckAccess, Typ.Indexes]

theorem typecheckCond_ok_iff
    {t : Typ} : typecheckCond t = .ok () ↔ t = .reg1 := by
  unfold typecheckCond
  by_cases h : t = .reg1
  · simp [h]
  · simp [h]

theorem typecheckBranches_ok_iff
    {t1 t2 t : Typ} (h1 : t1.IsReg) (h2 : t2.IsReg) :
    typecheckBranches t1 t2 = .ok t ↔ t2 = t1 ∧ t1 = t := by
  rw [← tcompat_iff h1 h2]
  unfold typecheckBranches
  cases hc : tcompat t1 t2 <;> simp

theorem gammaCheck_none (v : Var) (t : Typ) : gammaCheck none v t = .ok t := rfl

/-- The type checker infers the type that the syntax shows. -/
theorem Exp.WellTyped.inferType_eq
    {e : Exp} (he : e.WellTyped) : inferType none e = .ok e.typ := by
  unfold inferType
  induction e with
  | binOp op e1 e2 ih1 ih2 =>
    obtain ⟨h1, h2, hadm⟩ := he
    rw [typecheckExp, ih1 h1, ih2 h2, OCaml.ok_bind, OCaml.ok_bind]
    exact (typecheckBinop_ok_iff op h1.isReg h2.isReg).mpr ⟨hadm, rfl⟩
  | unOp op e1 ih =>
    have h1 : e1.WellTyped := he
    rw [typecheckExp, ih h1, OCaml.ok_bind, if_pos (tint_of_isReg h1.isReg)]
    rfl
  | constant v =>
    cases v with
    | int t i =>
      have ht : t.IsReg := he
      rw [typecheckExp, typecheckValue, ht.bitsOfWidth_eq]
      rfl
    | str s => exact he.elim
  | temp v => rfl
  | mem v addr t ih =>
    obtain ⟨h1, ht, hindex⟩ := he
    rw [typecheckExp, gammaCheck_none, ih h1, OCaml.ok_bind, OCaml.ok_bind]
    exact (typecheckAccess_ok_iff v h1.isReg).mpr ⟨hindex, rfl⟩
  | name l => rfl
  | cast ct t e1 ih =>
    obtain ⟨h1, ht, hadm⟩ := he
    rw [typecheckExp, ih h1, OCaml.ok_bind]
    exact (typecheckCast_ok_iff ct ht h1.isReg).mpr ⟨hadm, rfl⟩
  | letTemp v e1 e2 ih1 ih2 =>
    obtain ⟨h1, h2, hv⟩ := he
    have hc : tcompat v.typ e1.typ = true :=
      (tcompat_iff (hv ▸ h1.isReg) h1.isReg).mpr hv.symm
    rw [typecheckExp, ih1 h1, OCaml.ok_bind]
    simpa [gammaExtend, gammaCheck_none, hc, Exp.typ] using ih2 h2
  | letMem v addr t e1 e2 iha ih1 ih2 =>
    obtain ⟨ha, h1, h2, ht, hindex⟩ := he
    have hacc : typecheckAccess v v.typ addr.typ t = .ok t :=
      (typecheckAccess_ok_iff v ha.isReg).mpr ⟨hindex, rfl⟩
    have hc : tcompat t e1.typ = true :=
      (tcompat_iff (ht ▸ h1.isReg) h1.isReg).mpr ht.symm
    rw [typecheckExp, ih1 h1, OCaml.ok_bind, iha ha]
    simpa [gammaCheck_none, hacc, hc, Exp.typ] using ih2 h2
  | ite cond e1 e2 ihc ih1 ih2 =>
    obtain ⟨hcond, h1, h2, hreg, ht⟩ := he
    rw [typecheckExp, ihc hcond, OCaml.ok_bind, hreg, ih1 h1, ih2 h2]
    exact (typecheckBranches_ok_iff h1.isReg h2.isReg).mpr ⟨ht, rfl⟩
  | _ => exact he.elim

/-- On integer expressions the type checker accepts only well-typed ones. -/
theorem Exp.wellTyped_of_inferType
    {e : Exp} (he : e.IsInteger) {t : Typ} (ht : inferType none e = .ok t) :
    e.WellTyped := by
  unfold inferType at ht
  induction e generalizing t with
  | binOp op e1 e2 ih1 ih2 =>
    simp only [typecheckExp, OCaml.bind_eq_ok_iff] at ht
    obtain ⟨t1, ht1, t2, ht2, hop⟩ := ht
    have h1 := ih1 he.1 ht1
    have h2 := ih2 he.2 ht2
    obtain rfl : e1.typ = t1 := Except.ok.inj (h1.inferType_eq.symm.trans ht1)
    obtain rfl : e2.typ = t2 := Except.ok.inj (h2.inferType_eq.symm.trans ht2)
    exact ⟨h1, h2, ((typecheckBinop_ok_iff op h1.isReg h2.isReg).mp hop).1⟩
  | unOp op e1 ih =>
    simp only [typecheckExp, OCaml.bind_eq_ok_iff] at ht
    obtain ⟨t1, ht1, -⟩ := ht
    exact ih he ht1
  | constant v =>
    cases v with
    | int t' i => exact he
    | str s => exact he.elim
  | temp v => exact he
  | mem v addr t' ih =>
    simp only [typecheckExp, gammaCheck_none, OCaml.ok_bind,
      OCaml.bind_eq_ok_iff] at ht
    obtain ⟨et, hta, hacc⟩ := ht
    have ha := ih he.2.1 hta
    obtain rfl : addr.typ = et := Except.ok.inj (ha.inferType_eq.symm.trans hta)
    exact ⟨ha, he.2.2, ((typecheckAccess_ok_iff v ha.isReg).mp hacc).1⟩
  | name l => trivial
  | cast ct t' e1 ih =>
    simp only [typecheckExp, OCaml.bind_eq_ok_iff] at ht
    obtain ⟨t1, ht1, hcast⟩ := ht
    have h1 := ih he.2 ht1
    obtain rfl : e1.typ = t1 := Except.ok.inj (h1.inferType_eq.symm.trans ht1)
    exact ⟨h1, he.1, ((typecheckCast_ok_iff ct he.1 h1.isReg).mp hcast).1⟩
  | letTemp v e1 e2 ih1 ih2 =>
    simp only [typecheckExp, gammaExtend, Option.map_none, gammaCheck_none,
      OCaml.ok_bind, OCaml.bind_eq_ok_iff] at ht
    obtain ⟨t1, ht1, hrest⟩ := ht
    have h1 := ih1 he.2.1 ht1
    obtain rfl : e1.typ = t1 := Except.ok.inj (h1.inferType_eq.symm.trans ht1)
    by_cases hc : tcompat v.typ e1.typ = true
    · rw [hc] at hrest
      exact ⟨h1, ih2 he.2.2 hrest, ((tcompat_iff he.1 h1.isReg).mp hc).symm⟩
    · simp [hc] at hrest
  | letMem v addr t' e1 e2 iha ih1 ih2 =>
    obtain ⟨_, haddr, hreg, he1, he2⟩ := he
    simp only [typecheckExp, gammaCheck_none, OCaml.ok_bind,
      OCaml.bind_eq_ok_iff] at ht
    obtain ⟨t1, ht1, et, hta, lvt, hacc, hrest⟩ := ht
    have h1 := ih1 he1 ht1
    have ha := iha haddr hta
    obtain rfl : e1.typ = t1 := Except.ok.inj (h1.inferType_eq.symm.trans ht1)
    obtain rfl : addr.typ = et := Except.ok.inj (ha.inferType_eq.symm.trans hta)
    obtain ⟨hindex, rfl⟩ := (typecheckAccess_ok_iff v ha.isReg).mp hacc
    by_cases hc : tcompat t' e1.typ = true
    · rw [hc] at hrest
      exact ⟨ha, h1, ih2 he2 hrest, ((tcompat_iff hreg h1.isReg).mp hc).symm,
        hindex⟩
    · simp [hc] at hrest
  | ite cond e1 e2 ihc ih1 ih2 =>
    obtain ⟨hcond, he1, he2⟩ := he
    simp only [typecheckExp, OCaml.bind_eq_ok_iff] at ht
    obtain ⟨tc, htc, u, hu, t1, ht1, t2, ht2, hbr⟩ := ht
    have hwc := ihc hcond htc
    have h1 := ih1 he1 ht1
    have h2 := ih2 he2 ht2
    obtain rfl : cond.typ = tc :=
      Except.ok.inj (hwc.inferType_eq.symm.trans htc)
    obtain rfl : e1.typ = t1 := Except.ok.inj (h1.inferType_eq.symm.trans ht1)
    obtain rfl : e2.typ = t2 := Except.ok.inj (h2.inferType_eq.symm.trans ht2)
    exact ⟨hwc, h1, h2, typecheckCond_ok_iff.mp hu,
      ((typecheckBranches_ok_iff h1.isReg h2.isReg).mp hbr).1⟩
  | _ => exact he.elim

/-- The type checker accepts exactly the well-typed integer expressions, and
infers the type that their syntax shows. -/
theorem Exp.inferType_ok_iff
    {e : Exp} (he : e.IsInteger) {t : Typ} :
    inferType none e = .ok t ↔ e.WellTyped ∧ e.typ = t := by
  constructor
  · intro ht
    have hw := Exp.wellTyped_of_inferType he ht
    exact ⟨hw, Except.ok.inj (hw.inferType_eq.symm.trans ht)⟩
  · rintro ⟨hw, rfl⟩
    exact hw.inferType_eq

end Fuzzball.Vine
