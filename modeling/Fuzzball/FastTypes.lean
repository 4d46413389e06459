import Fuzzball.ExprTemps
import Fuzzball.VineTypecheck

/-!
# The fast type inference

`infer_type_fast` and `typecheck_exp` of `vine_typecheck.ml` on expressions
without attribute types: where the checker finds a type, the inference finds
the same, whichever operands it looks at.
-/

namespace Fuzzball.Vine

/-! ## Types without attributes -/

def Typ.NoAttr : Typ → Prop
  | .tAttr _ _ => False
  | .tMem index _ => index.NoAttr
  | .array elt _ => elt.NoAttr
  | _ => True

/-- No type in the expression has attributes. -/
def Exp.NoAttr : Exp → Prop
  | .constant (.int t _) => t.NoAttr
  | .constant (.str _) => True
  | .temp v => v.typ.NoAttr
  | .mem v addr t => v.typ.NoAttr ∧ addr.NoAttr ∧ t.NoAttr
  | .binOp _ e1 e2 => e1.NoAttr ∧ e2.NoAttr
  | .fbinOp _ _ e1 e2 => e1.NoAttr ∧ e2.NoAttr
  | .unOp _ e1 => e1.NoAttr
  | .funOp _ _ e1 => e1.NoAttr
  | .cast _ t e1 => t.NoAttr ∧ e1.NoAttr
  | .fcast _ _ t e1 => t.NoAttr ∧ e1.NoAttr
  | .letTemp v e1 e2 => v.typ.NoAttr ∧ e1.NoAttr ∧ e2.NoAttr
  | .letMem v addr t e1 e2 =>
    v.typ.NoAttr ∧ addr.NoAttr ∧ t.NoAttr ∧ e1.NoAttr ∧ e2.NoAttr
  | .ite cond e1 e2 => cond.NoAttr ∧ e1.NoAttr ∧ e2.NoAttr
  | .name _ | .unknown _ => True

theorem Typ.NoAttr.unwindType_eq {t : Typ} (h : t.NoAttr) : unwindType t = t := by
  cases t with
  | tAttr => exact h.elim
  | _ => rfl

theorem Typ.NoAttr.tcompat_iff {t1 t2 : Typ} (h1 : t1.NoAttr) (h2 : t2.NoAttr) :
    tcompat t1 t2 = true ↔ t1 = t2 := by
  rw [tcompat, h1.unwindType_eq, h2.unwindType_eq, decide_eq_true_eq]

/-- The width of a type that has one is doubled to a plain type. -/
theorem doubleWidth_noAttr {t t' : Typ} (h : doubleWidth t = .ok t') :
    t'.NoAttr := by
  induction t with
  | tAttr t _ ih => exact ih h
  | reg8 | reg16 | reg32 =>
    cases h
    trivial
  | _ => cases h

theorem gammaCheck_eq {gamma : Gamma} {v : Var} {t t' : Typ}
    (h : gammaCheck gamma v t = .ok t') : t' = t := by
  unfold gammaCheck at h
  cases hfind : gammaFind gamma v with
  | error x =>
    rw [hfind] at h
    cases h
  | ok o =>
    rw [hfind, OCaml.ok_bind] at h
    cases o with
    | none =>
      cases h
      rfl
    | some s =>
      dsimp only at h
      split_ifs at h with hne
      · simp at h
      · cases h
        rfl

/-! ## Agreement -/

/-- The type that a check computes is plain, and the fast inference finds it
too. -/
def Infers (coin : Exp → Bool) (e : Exp) (t : Typ) : Prop :=
  t.NoAttr ∧ inferTypeFast coin e = .ok t

section Agreement

variable {coin : Exp → Bool} {e1 e2 : Exp} {t1 t2 t : Typ}

/-- Operands of one type may be looked at in any order. -/
theorem Infers.coin_eq (h1 : Infers coin e1 t) (h2 : Infers coin e2 t)
    (b : Bool) : (if b then inferTypeFast coin e1 else inferTypeFast coin e2) =
      .ok t := by
  cases b
  · exact h2.2
  · exact h1.2

theorem typecheckBinop_infers {op : BinopType} (h1 : Infers coin e1 t1)
    (h2 : Infers coin e2 t2) (h : typecheckBinop op t1 t2 = .ok t) :
    Infers coin (.binOp op e1 e2) t := by
  have hcompat : tcompat t1 t2 = true → Infers coin e2 t1 := by
    intro hc
    rwa [← (h1.1.tcompat_iff h2.1).mp hc] at h2
  cases op with
  | plus | minus | times | divide | sdivide | mod | smod | bitand | bitor
  | xor =>
    dsimp only [typecheckBinop] at h
    split_ifs at h with hc
    · cases h
      rw [Bool.and_eq_true] at hc
      exact ⟨h1.1, h1.coin_eq (hcompat hc.1) _⟩
    · simp at h
  | lshift | rshift | arshift =>
    dsimp only [typecheckBinop] at h
    split_ifs at h
    · cases h
      exact h1
    · simp at h
  | eq | neq | lt | le | slt | sle =>
    dsimp only [typecheckBinop] at h
    split_ifs at h
    · cases h
      exact ⟨trivial, rfl⟩
    · simp at h
  | concat =>
    dsimp only [typecheckBinop] at h
    split_ifs at h with hc
    · rw [Bool.and_eq_true] at hc
      refine ⟨doubleWidth_noAttr h, ?_⟩
      rw [inferTypeFast]
      split_ifs
      · rw [h1.2, OCaml.ok_bind]
        exact h
      · rw [(hcompat hc.2).2, OCaml.ok_bind]
        exact h
    · simp at h

theorem typecheckFBinop_infers {op : FBinopType} {rm : RoundMode}
    (h1 : Infers coin e1 t1) (h2 : Infers coin e2 t2)
    (h : typecheckFBinop op t1 t2 = .ok t) :
    Infers coin (.fbinOp op rm e1 e2) t := by
  cases op with
  | fplus | fminus | ftimes | fdivide =>
    dsimp only [typecheckFBinop] at h
    split_ifs at h with hc
    · cases h
      rw [Bool.and_eq_true] at hc
      rw [← (h1.1.tcompat_iff h2.1).mp hc.1] at h2
      exact ⟨h1.1, h1.coin_eq h2 _⟩
    · simp at h
  | feq | fneq | flt | fle =>
    dsimp only [typecheckFBinop] at h
    split_ifs at h
    · cases h
      exact ⟨trivial, rfl⟩
    · simp at h

theorem typecheckAccess_eq {v : Var} {vt et : Typ}
    (h : typecheckAccess v vt et t1 = .ok t) : t = t1 := by
  unfold typecheckAccess at h
  cases vt with
  | array elt size =>
    dsimp only at h
    split_ifs at h with hint helt
    · cases h
      exact helt
    · simp at h
  | tMem index endian =>
    dsimp only at h
    split_ifs at h
    · cases h
      rfl
    · simp at h
  | _ => simp at h

theorem typecheckCast_eq {ct : CastType} (h : typecheckCast ct t1 t2 = .ok t) :
    t = t1 := by
  unfold typecheckCast at h
  rw [OCaml.bind_eq_ok_iff] at h
  obtain ⟨castbits, -, h⟩ := h
  cases t2 <;> simp at h <;> exact h.2.symm

theorem typecheckFCast_eq {ct : FCastType}
    (h : typecheckFCast ct t1 t2 = .ok t) : t = t1 := by
  unfold typecheckFCast at h
  rw [OCaml.bind_eq_ok_iff] at h
  obtain ⟨toBits, -, h⟩ := h
  cases t2 <;> simp at h <;> exact h.2.symm

theorem typecheckBranches_eq (h1 : Infers coin e1 t1) (h2 : Infers coin e2 t2)
    (h : typecheckBranches t1 t2 = .ok t) (cond : Exp) :
    Infers coin (.ite cond e1 e2) t := by
  unfold typecheckBranches at h
  split_ifs at h with hc
  · simp at h
  · cases h
    rw [Bool.not_eq_true', Bool.not_eq_false] at hc
    rw [← (h1.1.tcompat_iff h2.1).mp hc] at h2
    exact ⟨h1.1, h1.coin_eq h2 _⟩

end Agreement

theorem typecheckExp_infers (coin : Exp → Bool) (e : Exp) :
    ∀ {gamma : Gamma} {t : Typ}, e.NoAttr → typecheckExp gamma e = .ok t →
      Infers coin e t := by
  induction e with
  | constant v =>
    intro gamma t ha h
    cases v with
    | int ty i =>
      rw [typecheckExp, typecheckValue, OCaml.bind_eq_ok_iff] at h
      obtain ⟨bits, -, h⟩ := h
      cases h
      exact ⟨ha, rfl⟩
    | str s =>
      cases h
      exact ⟨trivial, rfl⟩
  | temp v =>
    intro gamma t ha h
    obtain rfl := gammaCheck_eq h
    exact ⟨ha, rfl⟩
  | mem v addr ty _ =>
    intro gamma t ha h
    rw [typecheckExp, OCaml.bind_eq_ok_iff] at h
    obtain ⟨vt, -, h⟩ := h
    rw [OCaml.bind_eq_ok_iff] at h
    obtain ⟨et, -, h⟩ := h
    obtain rfl := typecheckAccess_eq h
    exact ⟨ha.2.2, rfl⟩
  | unOp op e1 ih =>
    intro gamma t ha h
    rw [typecheckExp, OCaml.bind_eq_ok_iff] at h
    obtain ⟨t1, h1, h⟩ := h
    split_ifs at h
    cases h
    exact ih ha h1
  | funOp op rm e1 ih =>
    intro gamma t ha h
    rw [typecheckExp, OCaml.bind_eq_ok_iff] at h
    obtain ⟨t1, h1, h⟩ := h
    split_ifs at h
    cases h
    exact ih ha h1
  | binOp op e1 e2 ih1 ih2 =>
    intro gamma t ha h
    rw [typecheckExp, OCaml.bind_eq_ok_iff] at h
    obtain ⟨t1, h1, h⟩ := h
    rw [OCaml.bind_eq_ok_iff] at h
    obtain ⟨t2, h2, h⟩ := h
    exact typecheckBinop_infers (ih1 ha.1 h1) (ih2 ha.2 h2) h
  | fbinOp op rm e1 e2 ih1 ih2 =>
    intro gamma t ha h
    rw [typecheckExp, OCaml.bind_eq_ok_iff] at h
    obtain ⟨t1, h1, h⟩ := h
    rw [OCaml.bind_eq_ok_iff] at h
    obtain ⟨t2, h2, h⟩ := h
    exact typecheckFBinop_infers (ih1 ha.1 h1) (ih2 ha.2 h2) h
  | cast ct ty e1 _ =>
    intro gamma t ha h
    rw [typecheckExp, OCaml.bind_eq_ok_iff] at h
    obtain ⟨t1, -, h⟩ := h
    obtain rfl := typecheckCast_eq h
    exact ⟨ha.1, rfl⟩
  | fcast ct rm ty e1 _ =>
    intro gamma t ha h
    rw [typecheckExp, OCaml.bind_eq_ok_iff] at h
    obtain ⟨t1, -, h⟩ := h
    obtain rfl := typecheckFCast_eq h
    exact ⟨ha.1, rfl⟩
  | name l =>
    intro gamma t _ h
    cases h
    exact ⟨trivial, rfl⟩
  | unknown s =>
    intro gamma t _ h
    simp [typecheckExp] at h
  | letTemp v e1 e2 _ ih2 =>
    intro gamma t ha h
    rw [typecheckExp, OCaml.bind_eq_ok_iff] at h
    obtain ⟨e1t, -, h⟩ := h
    rw [OCaml.bind_eq_ok_iff] at h
    obtain ⟨lvt, -, h⟩ := h
    split_ifs at h
    exact ih2 ha.2.2 h
  | letMem v addr ty e1 e2 _ _ ih2 =>
    intro gamma t ha h
    rw [typecheckExp, OCaml.bind_eq_ok_iff] at h
    obtain ⟨e1t, -, h⟩ := h
    rw [OCaml.bind_eq_ok_iff] at h
    obtain ⟨vt, -, h⟩ := h
    rw [OCaml.bind_eq_ok_iff] at h
    obtain ⟨et, -, h⟩ := h
    rw [OCaml.bind_eq_ok_iff] at h
    obtain ⟨lvt, -, h⟩ := h
    split_ifs at h
    exact ih2 ha.2.2.2.2 h
  | ite cond e1 e2 _ ih1 ih2 =>
    intro gamma t ha h
    rw [typecheckExp, OCaml.bind_eq_ok_iff] at h
    obtain ⟨condT, -, h⟩ := h
    rw [OCaml.bind_eq_ok_iff] at h
    obtain ⟨_, -, h⟩ := h
    rw [OCaml.bind_eq_ok_iff] at h
    obtain ⟨trueT, h1, h⟩ := h
    rw [OCaml.bind_eq_ok_iff] at h
    obtain ⟨falseT, h2, h⟩ := h
    exact typecheckBranches_eq (ih1 ha.2.1 h1) (ih2 ha.2.2 h2) h cond

/-- On an expression that the checker accepts, the fast inference returns the
type that the checker computes. -/
theorem inferTypeFast_agrees {gamma : Gamma} {e : Exp} {t : Typ}
    (ha : e.NoAttr) (h : typecheckExp gamma e = .ok t) (coin : Exp → Bool) :
    inferTypeFast coin e = .ok t :=
  (typecheckExp_infers coin e ha h).2

/-- A variable bound in the expression, joined with a constant. -/
theorem inferTypeFast_agrees_concat :
    inferTypeFast (fun _ => true) (.letTemp ⟨1, [], .reg8⟩ (.int .reg8 7)
      (.binOp .concat (.temp ⟨1, [], .reg8⟩) (.int .reg8 3))) = .ok .reg16 := by
  refine inferTypeFast_agrees ?_
    (show typecheckExp (some fun _ => none) _ = .ok .reg16 from rfl) _
  exact ⟨trivial, trivial, trivial, trivial⟩

end Fuzzball.Vine
