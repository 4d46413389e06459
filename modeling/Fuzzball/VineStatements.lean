import Fuzzball.VineSyntax

/-!
# Statements of the Vine intermediate representation

The statements of `vine.ml`, and how often a variable occurs in an expression.
-/

namespace Fuzzball.Vine

/-- Extra information about a statement. -/
inductive Attribute
  | pos (file : OString) (line : ℤ)
  | aCall
  | aReturn
  deriving DecidableEq, Repr

inductive Stmt
  | jmp (target : Exp)
  | cjmp (cond target1 target2 : Exp)
  | move (lhs : LValue) (rhs : Exp)
  | special (str : OString)
  | label (l : OString)
  | expStmt (e : Exp)
  | comment (str : OString)
  | block (dl : List Var) (sl : List Stmt)
  | function (l : OString) (retTyp : Option Typ) (args : List Var)
      (external : Bool) (body : Option Stmt)
  | ret (e : Option Exp)
  | call (lhs : Option LValue) (callee : Exp) (args : List Exp)
  | attr (st : Stmt) (a : Attribute)
  | assertion (e : Exp)
  | halt (e : Exp)
  deriving Repr

/-! ## Occurrences of a variable -/

/-- `count_uses_e`, with `count_uses_lv` in the cases that hold an lvalue. -/
def countUsesE (var : Var) : Exp → ℕ
  | .binOp _ e1 e2 => countUsesE var e1 + countUsesE var e2
  | .fbinOp _ _ e1 e2 => countUsesE var e1 + countUsesE var e2
  | .unOp _ e => countUsesE var e
  | .funOp _ _ e => countUsesE var e
  | .cast _ _ e => countUsesE var e
  | .fcast _ _ _ e => countUsesE var e
  | .temp v => if v = var then 1 else 0
  | .mem v e _ => (if v = var then 1 else 0) + countUsesE var e
  | .letTemp v e1 e2 =>
      (if v = var then 1 else 0) + countUsesE var e1 + countUsesE var e2
  | .letMem v e _ e1 e2 =>
      ((if v = var then 1 else 0) + countUsesE var e) + countUsesE var e1 +
        countUsesE var e2
  | .ite ce te fe => countUsesE var ce + countUsesE var te + countUsesE var fe
  | .unknown _ | .name _ | .constant _ => 0

def countUsesLv (var : Var) : LValue → ℕ
  | .temp v => if v = var then 1 else 0
  | .mem v e _ => (if v = var then 1 else 0) + countUsesE var e

theorem countUsesE_toExp (var : Var) (lv : LValue) :
    countUsesE var lv.toExp = countUsesLv var lv := by
  cases lv <;> rfl

/-- The variable occurs in the expression. -/
def Exp.Uses (e : Exp) (var : Var) : Prop := countUsesE var e ≠ 0

instance (e : Exp) (var : Var) : Decidable (e.Uses var) :=
  inferInstanceAs (Decidable (_ ≠ _))

section Uses

attribute [local simp] countUsesE

variable {var v : Var} {e e1 e2 e3 : Exp} {t : Typ}

@[simp] theorem Exp.uses_binOp {op : BinopType} :
    (Exp.binOp op e1 e2).Uses var ↔ e1.Uses var ∨ e2.Uses var := by
  simp only [Exp.Uses, countUsesE]
  omega

@[simp] theorem Exp.uses_fbinOp {op : FBinopType} {rm : RoundMode} :
    (Exp.fbinOp op rm e1 e2).Uses var ↔ e1.Uses var ∨ e2.Uses var := by
  simp only [Exp.Uses, countUsesE]
  omega

@[simp] theorem Exp.uses_unOp {op : UnopType} :
    (Exp.unOp op e).Uses var ↔ e.Uses var := Iff.rfl

@[simp] theorem Exp.uses_funOp {op : FUnopType} {rm : RoundMode} :
    (Exp.funOp op rm e).Uses var ↔ e.Uses var := Iff.rfl

@[simp] theorem Exp.uses_cast {ct : CastType} :
    (Exp.cast ct t e).Uses var ↔ e.Uses var := Iff.rfl

@[simp] theorem Exp.uses_fcast {ct : FCastType} {rm : RoundMode} :
    (Exp.fcast ct rm t e).Uses var ↔ e.Uses var := Iff.rfl

@[simp] theorem Exp.uses_temp : (Exp.temp v).Uses var ↔ v = var := by
  simp [Exp.Uses, countUsesE]

@[simp] theorem Exp.uses_mem :
    (Exp.mem v e t).Uses var ↔ v = var ∨ e.Uses var := by
  by_cases h : v = var <;> simp [Exp.Uses, countUsesE, h]

@[simp] theorem Exp.uses_letTemp :
    (Exp.letTemp v e1 e2).Uses var ↔ v = var ∨ e1.Uses var ∨ e2.Uses var := by
  by_cases h : v = var
  · simp [Exp.Uses, countUsesE, h]
  · simp only [Exp.Uses, countUsesE, h, if_false, false_or]
    omega

@[simp] theorem Exp.uses_letMem :
    (Exp.letMem v e t e1 e2).Uses var ↔
      v = var ∨ e.Uses var ∨ e1.Uses var ∨ e2.Uses var := by
  by_cases h : v = var
  · simp [Exp.Uses, countUsesE, h]
  · simp only [Exp.Uses, countUsesE, h, if_false, false_or]
    omega

@[simp] theorem Exp.uses_ite :
    (Exp.ite e1 e2 e3).Uses var ↔ e1.Uses var ∨ e2.Uses var ∨ e3.Uses var := by
  simp only [Exp.Uses, countUsesE]
  omega

@[simp] theorem Exp.not_uses_constant {c : Value} :
    ¬(Exp.constant c).Uses var := by
  simp [Exp.Uses, countUsesE]

@[simp] theorem Exp.not_uses_name {l : OString} :
    ¬(Exp.name l).Uses var := by
  simp [Exp.Uses, countUsesE]

@[simp] theorem Exp.not_uses_unknown {s : OString} :
    ¬(Exp.unknown s).Uses var := by
  simp [Exp.Uses, countUsesE]

end Uses

end Fuzzball.Vine
