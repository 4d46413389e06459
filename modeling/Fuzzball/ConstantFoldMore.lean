import Fuzzball.ConstantFoldAgreement
import Mathlib.Data.List.Perm.Basic
import Mathlib.Data.List.Sort

/-!
# Folding of flattened operations

`constant_fold_more` of `vine_opt.ml`: the operands of a nest of one
associative and commutative operation are sorted and folded up again, and an
equality is decided where both sides are constants or the same expression.
The comparison of constants looks at how they are stored, not at what they
stand for.
-/

namespace Fuzzball.Vine

variable {μ : Type*} [VineMemory μ]

/-! ## The fold -/

def flattenBinop (op : BinopType) : Exp → List Exp
  | .binOp o e1 e2 =>
    if o = op then flattenBinop op e1 ++ flattenBinop op e2
    else [.binOp o e1 e2]
  | e => [e]

/-- `exp_eq`: `some false` is meant for expressions that are never equal. -/
def expEq : Exp → Exp → Option Bool
  | .constant v1, .constant v2 => some (decide (v1 = v2))
  | e1, e2 => if e1 = e2 then some true else none

/-- `sort_fun`, over the comparison of the language. -/
def sortFun (compare : Exp → Exp → Ordering) : Exp → Exp → Ordering
  | .constant v, .constant v' => compare (.constant v) (.constant v')
  | .constant _, _ => .lt
  | _, .constant _ => .gt
  | a, b => compare a b

def constantFoldMore (compare : Exp → Exp → Ordering)
    (constantFold : Exp → OCaml Exp) : Exp → OCaml Exp
  | .binOp bop e1 e2 =>
    match bop with
    | .plus | .times | .bitand | .bitor | .xor =>
      let l := flattenBinop bop (.binOp bop e1 e2)
      match l.mergeSort fun a b => (sortFun compare a b).isLE with
      | x :: xs => xs.foldlM (fun x y => constantFold (.binOp bop y x)) x
      | [] => throw (.failure "flatten_binop returned [].")
    | .eq =>
      match expEq e1 e2 with
      | some b => pure (expBool b)
      | none => constantFold (.binOp bop e1 e2)
    | .neq =>
      match expEq e1 e2 with
      | some b => pure (expBool !b)
      | none => constantFold (.binOp bop e1 e2)
    | bop => constantFold (.binOp bop e1 e2)
  | e => constantFold e

/-! ## Associative and commutative operations -/

/-- The operations that are flattened. -/
def BinopType.IsAC (op : BinopType) : Prop :=
  op ∈ [BinopType.plus, .times, .bitand, .bitor, .xor]

instance : DecidablePred BinopType.IsAC := fun _ =>
  inferInstanceAs (Decidable (_ ∈ _))

/-- What a flattened operation computes. -/
def BinopType.acEval (w : ℕ) : BinopType → BitVec w → BitVec w → BitVec w
  | .plus => (· + ·)
  | .times => (· * ·)
  | .bitand => (· &&& ·)
  | .bitor => (· ||| ·)
  | _ => (· ^^^ ·)

/-- Its neutral element. -/
def BinopType.acUnit (w : ℕ) : BinopType → BitVec w
  | .times => 1
  | .bitand => BitVec.allOnes w
  | _ => 0

namespace BinopType.IsAC

variable {op : BinopType} {w : ℕ}

theorem cases (hop : op.IsAC) :
    op = .plus ∨ op = .times ∨ op = .bitand ∨ op = .bitor ∨ op = .xor := by
  simpa [IsAC] using hop

theorem comm (hop : op.IsAC) : Std.Commutative (op.acEval w) := by
  constructor
  intro a b
  rcases hop.cases with rfl | rfl | rfl | rfl | rfl
  · exact BitVec.add_comm a b
  · exact BitVec.mul_comm a b
  · exact BitVec.and_comm a b
  · exact BitVec.or_comm a b
  · exact BitVec.xor_comm a b

theorem assoc (hop : op.IsAC) : Std.Associative (op.acEval w) := by
  constructor
  intro a b c
  rcases hop.cases with rfl | rfl | rfl | rfl | rfl
  · exact BitVec.add_assoc a b c
  · exact BitVec.mul_assoc a b c
  · exact BitVec.and_assoc a b c
  · exact BitVec.or_assoc a b c
  · exact BitVec.xor_assoc a b c

theorem unit_left (hop : op.IsAC) (a : BitVec w) :
    op.acEval w (op.acUnit w) a = a := by
  rcases hop.cases with rfl | rfl | rfl | rfl | rfl
  · exact BitVec.zero_add a
  · exact BitVec.one_mul a
  · exact BitVec.allOnes_and
  · exact BitVec.zero_or
  · exact BitVec.zero_xor

theorem admits (hop : op.IsAC) {t1 t2 : Typ} : op.Admits t1 t2 ↔ t2 = t1 := by
  rcases hop.cases with rfl | rfl | rfl | rfl | rfl <;> rfl

theorem typ (hop : op.IsAC) (e1 e2 : Exp) :
    (Exp.binOp op e1 e2).typ = e1.typ := by
  rcases hop.cases with rfl | rfl | rfl | rfl | rfl <;> rfl

theorem eval (hop : op.IsAC) (ρ : Valuation μ) (e1 e2 : Exp) :
    (Exp.binOp op e1 e2).eval ρ w =
      op.acEval w (e1.eval ρ w) (e2.eval ρ w) := by
  rcases hop.cases with rfl | rfl | rfl | rfl | rfl <;> rfl

end BinopType.IsAC

/-! ## Values of lists of operands -/

section Operands

variable {op : BinopType} {w : ℕ} {ρ : Valuation μ}

/-- The operation on the values of the operands. -/
def acValue (op : BinopType) (ρ : Valuation μ) (w : ℕ) (l : List Exp) :
    BitVec w :=
  (l.map (·.eval ρ w)).foldl (op.acEval w) (op.acUnit w)

theorem acValue_cons (hop : op.IsAC) (e : Exp) (l : List Exp) :
    acValue op ρ w (e :: l) = op.acEval w (e.eval ρ w) (acValue op ρ w l) := by
  have hassoc : Std.Associative (op.acEval w) := hop.assoc
  have hcomm : Std.Commutative (op.acEval w) := hop.comm
  calc acValue op ρ w (e :: l)
      = (l.map (·.eval ρ w)).foldl (op.acEval w)
          (op.acEval w (op.acUnit w) (e.eval ρ w)) := rfl
    _ = (l.map (·.eval ρ w)).foldl (op.acEval w)
          (op.acEval w (e.eval ρ w) (op.acUnit w)) := by
        rw [hcomm.comm (op.acUnit w)]
    _ = op.acEval w (e.eval ρ w) (acValue op ρ w l) := List.foldl_assoc

theorem acValue_append (hop : op.IsAC) (l1 l2 : List Exp) :
    acValue op ρ w (l1 ++ l2) =
      op.acEval w (acValue op ρ w l1) (acValue op ρ w l2) := by
  induction l1 with
  | nil => exact (hop.unit_left _).symm
  | cons e l1 ih =>
    rw [List.cons_append, acValue_cons hop, ih, acValue_cons hop,
      hop.assoc.assoc]

theorem acValue_perm (hop : op.IsAC) {l1 l2 : List Exp} (h : l1.Perm l2) :
    acValue op ρ w l1 = acValue op ρ w l2 := by
  have hassoc : Std.Associative (op.acEval w) := hop.assoc
  have hcomm : Std.Commutative (op.acEval w) := hop.comm
  exact (h.map _).foldl_op_eq

theorem acValue_singleton (hop : op.IsAC) (e : Exp) :
    acValue op ρ w [e] = e.eval ρ w := hop.unit_left _

theorem flattenBinop_ne_nil (op : BinopType) (e : Exp) :
    flattenBinop op e ≠ [] := by
  induction e with
  | binOp o e1 e2 ih1 _ =>
    rw [flattenBinop]
    split_ifs
    · simp [ih1]
    · simp
  | _ => simp [flattenBinop]

theorem acValue_flattenBinop (hop : op.IsAC) (e : Exp) :
    acValue op ρ w (flattenBinop op e) = e.eval ρ w := by
  induction e with
  | binOp o e1 e2 ih1 ih2 =>
    rw [flattenBinop]
    split_ifs with ho
    · subst ho
      rw [acValue_append hop, ih1, ih2, hop.eval]
    · exact acValue_singleton hop _
  | _ => exact acValue_singleton hop _

theorem typed_flattenBinop (hop : op.IsAC) {e : Exp} (he : e.WellTyped) :
    ∀ d ∈ flattenBinop op e, d.WellTyped ∧ d.typ = e.typ := by
  have hself : ∀ e : Exp, e.WellTyped →
      ∀ d ∈ [e], d.WellTyped ∧ d.typ = e.typ := by
    intro e he d hd
    rw [List.mem_singleton.mp hd]
    exact ⟨he, rfl⟩
  induction e with
  | binOp o e1 e2 ih1 ih2 =>
    rw [flattenBinop]
    split_ifs with ho
    · subst ho
      obtain ⟨h1, h2, hadm⟩ := he
      have htyp : e2.typ = e1.typ := hop.admits.mp hadm
      intro d hd
      rw [hop.typ]
      rcases List.mem_append.mp hd with hd | hd
      · exact ih1 h1 d hd
      · rw [← htyp]
        exact ih2 h2 d hd
    · exact hself _ he
  | _ => exact hself _ he

end Operands

/-! ## Where the fold is right -/

section Exact

variable {ρ : Valuation μ} {compare : Exp → Exp → Ordering}
  {constantFold : Exp → OCaml Exp} {e e1 e2 e' : Exp}

/-- The function keeps the type and the value of what it rewrites. -/
def PreservesValues (ρ : Valuation μ) (f : Exp → OCaml Exp) : Prop :=
  ∀ e e', e.WellTyped → f e = .ok e' → e.Agrees ρ e'

/-- An equality of two constants that are stored as different numbers and
stand for the same one. -/
def Exp.ComparesAliases : Exp → Prop
  | .binOp .eq (.constant (.int t i)) (.constant (.int _ j))
  | .binOp .neq (.constant (.int t i)) (.constant (.int _ j)) =>
    i ≠ j ∧ i.setWidth t.width = j.setWidth t.width
  | _ => False

theorem foldlM_agrees {op : BinopType} (hop : op.IsAC)
    (hfold : PreservesValues ρ constantFold) {t : Typ} :
    ∀ (xs : List Exp) (x e' : Exp), x.WellTyped → x.typ = t →
      (∀ d ∈ xs, d.WellTyped ∧ d.typ = t) →
      xs.foldlM (fun x y => constantFold (.binOp op y x)) x = .ok e' →
      e'.WellTyped ∧ e'.typ = t ∧
        e'.eval ρ t.width = acValue op ρ t.width (x :: xs) := by
  intro xs
  induction xs with
  | nil =>
    intro x e' hx hxt _ h
    cases h
    exact ⟨hx, hxt, (acValue_singleton hop x).symm⟩
  | cons y xs ih =>
    intro x e' hx hxt hxs h
    obtain ⟨hy, hyt⟩ := hxs y List.mem_cons_self
    rw [List.foldlM_cons] at h
    rcases hz : constantFold (.binOp op y x) with err | z
    · rw [hz] at h
      cases h
    rw [hz] at h
    have hyx : (Exp.binOp op y x).WellTyped :=
      ⟨hy, hx, hop.admits.mpr (hxt.trans hyt.symm)⟩
    have hagrees := hfold _ _ hyx hz
    have hzt : z.typ = t := by rw [hagrees.typ_eq, hop.typ, hyt]
    obtain ⟨hwell, htyp, hval⟩ := ih z e' hagrees.wellTyped hzt
      (fun d hd => hxs d (List.mem_cons_of_mem y hd)) h
    have hzval : z.eval ρ t.width =
        op.acEval t.width (y.eval ρ t.width) (x.eval ρ t.width) := by
      rw [← hop.eval, ← hyt, ← hop.typ y x]
      exact hagrees.eval_eq
    refine ⟨hwell, htyp, ?_⟩
    calc e'.eval ρ t.width
        = acValue op ρ t.width (y :: x :: xs) := by
          rw [hval, acValue_cons hop, hzval, hop.assoc.assoc,
            ← acValue_cons hop, ← acValue_cons hop]
      _ = acValue op ρ t.width (x :: y :: xs) :=
          acValue_perm hop (.swap x y xs)

theorem foldlM_returns {op : BinopType} (hop : op.IsAC)
    (hfold : PreservesValues ρ constantFold)
    (htotal : ∀ e, e.WellTyped → ∃ e', constantFold e = .ok e') {t : Typ} :
    ∀ (xs : List Exp) (x : Exp), x.WellTyped → x.typ = t →
      (∀ d ∈ xs, d.WellTyped ∧ d.typ = t) →
      ∃ e', xs.foldlM (fun x y => constantFold (.binOp op y x)) x = .ok e' := by
  intro xs
  induction xs with
  | nil => exact fun x _ _ _ => ⟨x, rfl⟩
  | cons y xs ih =>
    intro x hx hxt hxs
    obtain ⟨hy, hyt⟩ := hxs y List.mem_cons_self
    have hyx : (Exp.binOp op y x).WellTyped :=
      ⟨hy, hx, hop.admits.mpr (hxt.trans hyt.symm)⟩
    obtain ⟨z, hz⟩ := htotal _ hyx
    have hagrees := hfold _ _ hyx hz
    have hzt : z.typ = t := by rw [hagrees.typ_eq, hop.typ, hyt]
    rw [List.foldlM_cons, hz]
    exact ih z hagrees.wellTyped hzt fun d hd =>
      hxs d (List.mem_cons_of_mem y hd)

/-- The operands in the order in which they are folded. -/
def sortedOperands (compare : Exp → Exp → Ordering) (op : BinopType)
    (e : Exp) : List Exp :=
  (flattenBinop op e).mergeSort fun a b => (sortFun compare a b).isLE

theorem sortedOperands_perm (compare : Exp → Exp → Ordering) (op : BinopType)
    (e : Exp) : (sortedOperands compare op e).Perm (flattenBinop op e) :=
  List.mergeSort_perm _ _

theorem sortedOperands_cons (compare : Exp → Exp → Ordering) (op : BinopType)
    (e : Exp) : ∃ x xs, sortedOperands compare op e = x :: xs := by
  apply List.exists_cons_of_ne_nil
  intro hnil
  have hperm := sortedOperands_perm compare op e
  rw [hnil] at hperm
  exact flattenBinop_ne_nil op e hperm.nil_eq.symm

theorem constantFoldMore_ac {op : BinopType} (hop : op.IsAC) {x : Exp}
    {xs : List Exp}
    (h : sortedOperands compare op (.binOp op e1 e2) = x :: xs) :
    constantFoldMore compare constantFold (.binOp op e1 e2) =
      xs.foldlM (fun x y => constantFold (.binOp op y x)) x := by
  unfold sortedOperands at h
  rcases hop.cases with rfl | rfl | rfl | rfl | rfl <;>
    simp only [constantFoldMore, h]

theorem constantFoldMore_ac_agrees {op : BinopType} (hop : op.IsAC)
    (hfold : PreservesValues ρ constantFold)
    (he : (Exp.binOp op e1 e2).WellTyped)
    (h : constantFoldMore compare constantFold (.binOp op e1 e2) = .ok e') :
    (Exp.binOp op e1 e2).Agrees ρ e' := by
  obtain ⟨x, xs, hl⟩ := sortedOperands_cons compare op (.binOp op e1 e2)
  have hperm := sortedOperands_perm compare op (.binOp op e1 e2)
  rw [hl] at hperm
  have htyped := typed_flattenBinop hop he
  obtain ⟨hx, hxt⟩ := htyped x (hperm.subset List.mem_cons_self)
  rw [constantFoldMore_ac hop hl] at h
  obtain ⟨hwell, htyp, hval⟩ := foldlM_agrees hop hfold xs x e' hx hxt
    (fun d hd => htyped d (hperm.subset (List.mem_cons_of_mem x hd))) h
  refine ⟨hwell, htyp, ?_⟩
  rw [Exp.width, hval, acValue_perm hop hperm, acValue_flattenBinop hop]

theorem constantFoldMore_ac_returns {op : BinopType} (hop : op.IsAC)
    (hfold : PreservesValues ρ constantFold)
    (htotal : ∀ e, e.WellTyped → ∃ e', constantFold e = .ok e')
    (he : (Exp.binOp op e1 e2).WellTyped) :
    ∃ e', constantFoldMore compare constantFold (.binOp op e1 e2) =
      .ok e' := by
  obtain ⟨x, xs, hl⟩ := sortedOperands_cons compare op (.binOp op e1 e2)
  have hperm := sortedOperands_perm compare op (.binOp op e1 e2)
  rw [hl] at hperm
  have htyped := typed_flattenBinop hop he
  obtain ⟨hx, hxt⟩ := htyped x (hperm.subset List.mem_cons_self)
  rw [constantFoldMore_ac hop hl]
  exact foldlM_returns hop hfold htotal xs x hx hxt
    fun d hd => htyped d (hperm.subset (List.mem_cons_of_mem x hd))

/-- An equality that is decided has the value it is given, or the sides are
constants that stand for the same number. -/
theorem expEq_iff {op : BinopType} (hop : op = .eq ∨ op = .neq) {b : Bool}
    (he : (Exp.binOp op e1 e2).WellTyped) (h : expEq e1 e2 = some b) :
    (e1.eval ρ e1.width == e2.eval ρ e1.width) = b ↔
      ¬(Exp.binOp op e1 e2).ComparesAliases := by
  unfold expEq at h
  split at h
  · next v1 v2 =>
    obtain ⟨h1, h2, hadm⟩ := he
    cases v1 with
    | str s => exact h1.elim
    | int t i =>
      cases v2 with
      | str s => exact h2.elim
      | int t' j =>
        have htyp : t' = t := by rcases hop with rfl | rfl <;> exact hadm
        subst htyp
        have halias : (Exp.binOp op (.int t' i) (.int t' j)).ComparesAliases ↔
            i ≠ j ∧ i.setWidth t'.width = j.setWidth t'.width := by
          rcases hop with rfl | rfl <;> rfl
        have hb : decide (Value.int t' i = Value.int t' j) = b :=
          Option.some.inj h
        have heval : ((Exp.int t' i).eval ρ (Exp.int t' i).width ==
            (Exp.int t' j).eval ρ (Exp.int t' i).width) =
            decide (i.setWidth t'.width = j.setWidth t'.width) := rfl
        rw [halias, heval, ← hb]
        by_cases hij : i = j
        · simp [hij]
        · simp [hij]
  · next hne =>
    split_ifs at h with heq
    cases h
    subst heq
    have hnot : ¬(Exp.binOp op e1 e1).ComparesAliases := by
      intro hal
      unfold Exp.ComparesAliases at hal
      split at hal
      · next heq =>
        cases heq
        exact hne _ _ rfl rfl
      · next heq =>
        cases heq
        exact hne _ _ rfl rfl
      · exact hal
    simp [hnot]

theorem expBool_agrees (op : BinopType) (b c : Bool)
    (htyp : (Exp.binOp op e1 e2).typ = .reg1)
    (heval : (Exp.binOp op e1 e2).eval ρ 1 = flag 1 c) :
    (Exp.binOp op e1 e2).Agrees ρ (expBool b) ↔ c = b := by
  have hval : (expBool b).eval ρ 1 = flag 1 b := by
    cases b <;> rfl
  have hwidth : (Exp.binOp op e1 e2).width = 1 := by rw [Exp.width, htyp]; rfl
  constructor
  · intro h
    have heq := h.eval_eq
    rw [hwidth, heval, hval] at heq
    revert heq
    cases b <;> cases c <;> decide
  · rintro rfl
    exact .intro 1 hwidth trivial htyp.symm (by rw [heval, hval])

theorem constantFoldMore_eq_agrees_iff {op : BinopType}
    (hop : op = .eq ∨ op = .neq) (hfold : PreservesValues ρ constantFold)
    (he : (Exp.binOp op e1 e2).WellTyped)
    (h : constantFoldMore compare constantFold (.binOp op e1 e2) = .ok e') :
    (Exp.binOp op e1 e2).Agrees ρ e' ↔
      ¬(Exp.binOp op e1 e2).ComparesAliases := by
  rcases hb : expEq e1 e2 with _ | b
  · have hkeeps : (Exp.binOp op e1 e2).Agrees ρ e' := by
      apply hfold _ _ he
      rcases hop with rfl | rfl <;> simpa only [constantFoldMore, hb] using h
    refine iff_of_true hkeeps fun hal => ?_
    unfold Exp.ComparesAliases at hal
    split at hal
    · next heq =>
      cases heq
      cases hb
    · next heq =>
      cases heq
      cases hb
    · exact hal
  · rw [← expEq_iff hop he hb (ρ := ρ)]
    rcases hop with rfl | rfl
    · simp only [constantFoldMore, hb] at h
      cases h
      exact expBool_agrees .eq b _ rfl rfl
    · simp only [constantFoldMore, hb] at h
      cases h
      rw [expBool_agrees .neq (!b) (e1.eval ρ e1.width != e2.eval ρ e1.width)
        rfl rfl, bne, Bool.not_inj_iff]

theorem Exp.ComparesAliases.binOp (h : e.ComparesAliases) :
    ∃ op e1 e2, e = .binOp op e1 e2 ∧ (op = .eq ∨ op = .neq) := by
  unfold Exp.ComparesAliases at h
  split at h
  · exact ⟨_, _, _, rfl, .inl rfl⟩
  · exact ⟨_, _, _, rfl, .inr rfl⟩
  · exact h.elim

theorem constantFoldMore_other
    (h : ∀ op e1 e2, e = .binOp op e1 e2 →
      ¬op.IsAC ∧ ¬(op = .eq ∨ op = .neq)) :
    constantFoldMore compare constantFold e = constantFold e := by
  cases e with
  | binOp op e1 e2 =>
    obtain ⟨hac, heq⟩ := h op e1 e2 rfl
    cases op with
    | plus | times | bitand | bitor | xor => exact absurd (by decide) hac
    | eq | neq => simp at heq
    | _ => rfl
  | _ => rfl

/-- The fold of a flattened operation keeps the type and the value of every
well-typed expression, except of an equality of constants that are stored as
different numbers and stand for the same one. -/
theorem constantFoldMore_agrees_iff (compare : Exp → Exp → Ordering)
    (hfold : PreservesValues ρ constantFold) (he : e.WellTyped) :
    (∀ e', constantFoldMore compare constantFold e = .ok e' →
      (e.Agrees ρ e' ↔ ¬e.ComparesAliases)) ∧
    ((∀ e, e.WellTyped → ∃ e', constantFold e = .ok e') →
      ∃ e', constantFoldMore compare constantFold e = .ok e') := by
  by_cases hac : ∃ op e1 e2, e = .binOp op e1 e2 ∧ op.IsAC
  · obtain ⟨op, e1, e2, rfl, hop⟩ := hac
    have hnot : ¬(Exp.binOp op e1 e2).ComparesAliases := by
      intro hal
      obtain ⟨op', e1', e2', heq, hop'⟩ := hal.binOp
      cases heq
      rcases hop' with rfl | rfl <;> exact absurd hop (by decide)
    exact ⟨fun e' h =>
      iff_of_true (constantFoldMore_ac_agrees hop hfold he h) hnot,
      fun htotal => constantFoldMore_ac_returns hop hfold htotal he⟩
  by_cases heq : ∃ op e1 e2, e = .binOp op e1 e2 ∧ (op = .eq ∨ op = .neq)
  · obtain ⟨op, e1, e2, rfl, hop⟩ := heq
    refine ⟨fun e' h => constantFoldMore_eq_agrees_iff hop hfold he h,
      fun htotal => ?_⟩
    rcases hb : expEq e1 e2 with _ | b
    · obtain ⟨e', he'⟩ := htotal _ he
      refine ⟨e', ?_⟩
      rcases hop with rfl | rfl <;> simpa only [constantFoldMore, hb] using he'
    · rcases hop with rfl | rfl <;> simp only [constantFoldMore, hb] <;>
        exact ⟨_, rfl⟩
  · have hother : constantFoldMore compare constantFold e = constantFold e := by
      apply constantFoldMore_other
      intro op e1 e2 h
      exact ⟨fun hop => hac ⟨op, e1, e2, h, hop⟩,
        fun hop => heq ⟨op, e1, e2, h, hop⟩⟩
    rw [hother]
    refine ⟨fun e' h => iff_of_true (hfold e e' he h) fun hal => ?_,
      fun htotal => htotal e he⟩
    exact heq hal.binOp

/-- The sum of a register, a constant and another register. -/
def threeAddends : Exp :=
  .binOp .plus (.binOp .plus (.temp ⟨0, [], .reg32⟩) (.int .reg32 4))
    (.temp ⟨1, [], .reg32⟩)

theorem preservesValues_pure (ρ : Valuation μ) : PreservesValues ρ pure := by
  intro e e' he h
  cases h
  exact ⟨he, rfl, rfl⟩

theorem constantFoldMore_agrees_iff_threeAddends :
    (∀ e', constantFoldMore (fun _ _ => .eq) pure threeAddends = .ok e' →
      (threeAddends.Agrees Valuation.zero e' ↔
        ¬threeAddends.ComparesAliases)) ∧
    ((∀ e, e.WellTyped → ∃ e', (pure e : OCaml Exp) = .ok e') →
      ∃ e', constantFoldMore (fun _ _ => .eq) pure threeAddends = .ok e') := by
  apply constantFoldMore_agrees_iff _ (preservesValues_pure _)
  simp [threeAddends, Exp.WellTyped, BinopType.Admits, Exp.typ,
    BinopType.result, Typ.IsReg]

/-- A byte of ones is compared with minus one. -/
def byteOfOnes : Exp := .binOp .eq (.int .reg8 (-1)) (.int .reg8 0xff)

theorem constantFoldMore_byteOfOnes :
    byteOfOnes.WellTyped ∧
    constantFoldMore (fun _ _ => .eq) pure byteOfOnes = .ok (expBool false) ∧
    ¬byteOfOnes.Agrees Valuation.zero (expBool false) := by
  refine ⟨?_, by decide, fun h => absurd h.eval_eq (by decide)⟩
  simp [byteOfOnes, Exp.WellTyped, BinopType.Admits, Exp.typ, Typ.IsReg]

end Exact

end Fuzzball.Vine
