import Fuzzball.ConstantFoldConstants

/-!
# Agreement of an expression with what it is folded to

Constants are assumed to be stored in their width.  A rule is sound on an
expression when what it rewrites the expression to has the same type and the
same value.
-/

namespace Fuzzball.Vine

variable {μ : Type*} [VineMemory μ]

/-- `e'` is well typed, has the type of `e`, and has its value. -/
structure Exp.Agrees (ρ : Valuation μ) (e e' : Exp) : Prop where
  wellTyped : e'.WellTyped
  typ_eq : e'.typ = e.typ
  eval_eq : e'.eval ρ e.width = e.eval ρ e.width

/-- If the rule rewrites the expression, it keeps its type and value. -/
def Rule.SoundOn (ρ : Valuation μ) (e : Exp) (r : Rule) : Prop :=
  ∀ e', e.WellTyped → e.Normal → r e = .ok (some e') → e.Agrees ρ e'

/-- The rule keeps the type and the value of every expression it rewrites. -/
def Rule.Sound (ρ : Valuation μ) (r : Rule) : Prop := ∀ e, r.SoundOn ρ e

theorem Exp.Agrees.intro
    {ρ : Valuation μ} {e e' : Exp} (n : ℕ) (hn : e.width = n)
    (hwell : e'.WellTyped) (htyp : e'.typ = e.typ)
    (heval : e'.eval ρ n = e.eval ρ n) : e.Agrees ρ e' := by
  subst hn
  exact ⟨hwell, htyp, heval⟩

@[simp] theorem rewriteIf_eq_ok_iff {g : Prop} [Decidable g] {e e' : Exp} :
    rewriteIf g e = .ok (some e') ↔ g ∧ e = e' := by
  unfold rewriteIf
  split_ifs with h <;> simp [h]

theorem rewriteIfType_eq_ok_iff {e e1 e' : Exp} {t : Typ} (he : e.WellTyped) :
    rewriteIfType e t e1 = .ok (some e') ↔ e.typ = t ∧ e1 = e' := by
  simp [rewriteIfType, he.inferType_eq]

@[simp] theorem none_ne_ok_some {e : Exp} :
    (pure none : OCaml (Option Exp)) ≠ .ok (some e) := by
  simp

theorem ite_none_eq_ok_iff
    {g : Prop} [Decidable g] {x : OCaml (Option Exp)} {e : Exp} :
    (if g then x else pure none) = .ok (some e) ↔ g ∧ x = .ok (some e) := by
  split_ifs with h <;> simp [h]

variable (ρ : Valuation μ)

/-! ## Evaluation with the widths of the operands given -/

section Widths

variable {ρ} {a b : Exp} {n w : ℕ}

theorem eval_castUnsigned {t : Typ} (hn : a.width = n) :
    (Exp.cast .castUnsigned t a).eval ρ w = (a.eval ρ n).setWidth w := by
  subst hn
  rfl

theorem eval_castLow {t : Typ} (hn : a.width = n) :
    (Exp.cast .castLow t a).eval ρ w = (a.eval ρ n).setWidth w := by
  subst hn
  rfl

theorem eval_castSigned {t : Typ} (hn : a.width = n) :
    (Exp.cast .castSigned t a).eval ρ w = (a.eval ρ n).signExtend w := by
  subst hn
  rfl

theorem eval_castHigh {t : Typ} (hn : a.width = n) :
    (Exp.cast .castHigh t a).eval ρ w = Bits.high w (a.eval ρ n) := by
  subst hn
  rfl

theorem eval_eq (hn : a.width = n) :
    (Exp.binOp .eq a b).eval ρ w = flag w (a.eval ρ n == b.eval ρ n) := by
  subst hn
  rfl

theorem eval_neq (hn : a.width = n) :
    (Exp.binOp .neq a b).eval ρ w = flag w (a.eval ρ n != b.eval ρ n) := by
  subst hn
  rfl

theorem eval_concat {m : ℕ} (hn : a.width = n) (hm : b.width = m) :
    (Exp.binOp .concat a b).eval ρ w =
      (a.eval ρ n ++ b.eval ρ m).setWidth w := by
  subst hn hm
  rfl

theorem eval_bitand :
    (Exp.binOp .bitand a b).eval ρ w = a.eval ρ w &&& b.eval ρ w := rfl

theorem eval_bitor :
    (Exp.binOp .bitor a b).eval ρ w = a.eval ρ w ||| b.eval ρ w := rfl

theorem eval_plus :
    (Exp.binOp .plus a b).eval ρ w = a.eval ρ w + b.eval ρ w := rfl

theorem eval_times :
    (Exp.binOp .times a b).eval ρ w = a.eval ρ w * b.eval ρ w := rfl

theorem eval_int (t : Typ) (i : I64) : (Exp.int t i).eval ρ w = i.setWidth w :=
  rfl

theorem eval_zero (t : Typ) : (Exp.int t 0).eval ρ w = 0 :=
  BitVec.setWidth_zero _ _

/-- A constant stored in its width has the value that is stored. -/
theorem toNat_setWidth_of_normal {t : Typ} {i : I64} (hi : i.toNat < 2 ^ t.width) :
    (i.setWidth t.width).toNat = i.toNat := by
  rw [BitVec.toNat_setWidth, Nat.mod_eq_of_lt hi]

theorem eval_lshift_int {t : Typ} {i : I64} (hi : i.toNat < 2 ^ t.width) :
    (Exp.binOp .lshift a (.int t i)).eval ρ w = a.eval ρ w <<< i.toNat := by
  rw [← toNat_setWidth_of_normal hi]
  rfl

theorem eval_rshift_int {t : Typ} {i : I64} (hi : i.toNat < 2 ^ t.width) :
    (Exp.binOp .rshift a (.int t i)).eval ρ w = a.eval ρ w >>> i.toNat := by
  rw [← toNat_setWidth_of_normal hi]
  rfl

theorem eval_arshift_int {t : Typ} {i : I64} (hi : i.toNat < 2 ^ t.width) :
    (Exp.binOp .arshift a (.int t i)).eval ρ w =
      (a.eval ρ w).sshiftRight i.toNat := by
  rw [← toNat_setWidth_of_normal hi]
  rfl

theorem width_of_typ {t : Typ} (ht : a.typ = t) : a.width = t.width :=
  congrArg Typ.width ht

theorem beq_congr {α β : Type} [BEq α] [LawfulBEq α] [BEq β] [LawfulBEq β]
    {x y : α} {u v : β} (h : x = y ↔ u = v) : (x == y) = (u == v) := by
  rw [Bool.eq_iff_iff, beq_iff_eq, beq_iff_eq, h]

end Widths

/-! ## The first rule that applies -/

theorem firstMatch_agrees
    {rs : List Rule} {e e' : Exp} (hrs : ∀ r ∈ rs, r.SoundOn ρ e)
    (hw : e.WellTyped) (hn : e.Normal)
    (h : firstMatch rs e = .ok (some e')) : e.Agrees ρ e' := by
  induction rs with
  | nil => simp [firstMatch] at h
  | cons r rs ih =>
    rw [firstMatch, OCaml.bind_eq_ok_iff] at h
    obtain ⟨o, hr, h⟩ := h
    cases o with
    | none => exact ih (fun r' hr' => hrs r' (List.mem_cons_of_mem _ hr')) h
    | some e'' =>
      obtain rfl : e'' = e' := by simpa using h
      exact hrs r List.mem_cons_self e'' hw hn hr

end Fuzzball.Vine
