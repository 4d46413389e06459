import Fuzzball.DeadAssigns
import Fuzzball.RemoveUnused

/-!
# Propagating copies and constants

`copy_const_prop` of `frag_simplify.ml` goes forwards through a fragment with a
table of variables and the expressions they are known to equal.  Jumps and
labels empty the table, assignments and stores drop the entries they touch.
Nothing happens to the table at a special statement.
-/

namespace Fuzzball.FragSimplify

open Vine Fragment Simulation

/-- The table `map`. -/
abbrev CopyMap := Var → Option Exp

/-- `g_assert`, where `strict` tells that a failed assertion raises. -/
def gAssert (strict cond : Bool) : OCaml Unit :=
  if strict && !cond then
    throw (.failure
      "Too many errors\n.Last Straw: Frag_simplify.copy_const_prop")
  else pure ()

/-- `replace_uses_e` -/
def replaceUsesE (strict : Bool) (map : CopyMap) : Exp → OCaml Exp
  | .binOp op e1 e2 => do
      pure (.binOp op (← replaceUsesE strict map e1)
        (← replaceUsesE strict map e2))
  | .fbinOp op rm e1 e2 => do
      pure (.fbinOp op rm (← replaceUsesE strict map e1)
        (← replaceUsesE strict map e2))
  | .unOp op e => do pure (.unOp op (← replaceUsesE strict map e))
  | .funOp op rm e => do pure (.funOp op rm (← replaceUsesE strict map e))
  | .cast op ty e => do pure (.cast op ty (← replaceUsesE strict map e))
  | .fcast op rm ty e => do
      pure (.fcast op rm ty (← replaceUsesE strict map e))
  | .temp v => pure ((map v).getD (.temp v))
  | .mem v idx ty => do pure (.mem v (← replaceUsesE strict map idx) ty)
  | .letTemp v e1 e2 => do
      gAssert strict (map v).isNone
      pure (.letTemp v (← replaceUsesE strict map e1)
        (← replaceUsesE strict map e2))
  | .letMem v idx memTy e1 e2 => do
      gAssert strict (map v).isNone
      pure (.letMem v (← replaceUsesE strict map idx) memTy
        (← replaceUsesE strict map e1) (← replaceUsesE strict map e2))
  | .ite ce te fe => do
      pure (.ite (← replaceUsesE strict map ce) (← replaceUsesE strict map te)
        (← replaceUsesE strict map fe))
  | .unknown str => pure (.unknown str)
  | .name l => pure (.name l)
  | .constant c => pure (.constant c)

/-- `replace_uses` -/
def replaceUses (strict : Bool) (map : CopyMap) : Stmt → OCaml Stmt
  | .cjmp e1 l1 l2 => do
      pure (.cjmp (← replaceUsesE strict map e1) (← replaceUsesE strict map l1)
        (← replaceUsesE strict map l2))
  | .jmp lab => do pure (.jmp (← replaceUsesE strict map lab))
  | .move (.temp var) e => do
      pure (.move (.temp var) (← replaceUsesE strict map e))
  | .move (.mem var idx ty) e => do
      pure (.move (.mem var (← replaceUsesE strict map idx) ty)
        (← replaceUsesE strict map e))
  | .expStmt e => do pure (.expStmt (← replaceUsesE strict map e))
  | .assertion e => do pure (.assertion (← replaceUsesE strict map e))
  | st => pure st

/-- `invalidate_uses` -/
def invalidateUses (map : CopyMap) (badVar : Var) : CopyMap := fun lhs =>
  (map lhs).filter fun rhs => countUsesE badVar rhs = 0

/-- The entries that the statement drops. -/
def invalidate (st' : Stmt) (map : CopyMap) : CopyMap :=
  match st' with
  | .move (.temp lhsV) _ =>
      Function.update (invalidateUses map lhsV) lhsV none
  | .move (.mem var _ _) _ => invalidateUses map var
  | _ => map

/-- The table `use_counts`, read by `find_or_zero`. -/
def useCounts (dl : List Var) (sl : List Stmt) : Var → ℕ := fun v =>
  if v ∈ dl then countUsesSl sl v else 0

/-- The entries that the statement makes. -/
def record (dl : List Var) (counts : Var → ℕ) (st' : Stmt) (map : CopyMap) :
    CopyMap :=
  match st' with
  | .cjmp _ _ _ | .jmp _ | .label _ => fun _ => none
  | .move (.temp lhsV) (.temp rhsV) =>
      let map := Function.update map lhsV (some (.temp rhsV))
      if rhsV ∈ dl then Function.update map rhsV (some (.temp lhsV)) else map
  | .move (.temp lhsV) rhs =>
      if counts lhsV = 1 then Function.update map lhsV (some rhs)
      else
        match rhs with
        | .constant c => Function.update map lhsV (some (.constant c))
        | _ => map
  | _ => map

/-- `loop` of `copy_const_prop` -/
def copyLoop (strict : Bool) (dl : List Var) (counts : Var → ℕ) :
    CopyMap → List Stmt → OCaml (List Stmt)
  | _, [] => pure []
  | map, st :: rest => do
      let st' ← replaceUses strict map st
      let map := record dl counts st' (invalidate st' map)
      pure (st' :: (← copyLoop strict dl counts map rest))

def copyConstProp (strict : Bool) (dl : List Var) (sl : List Stmt) :
    OCaml (List Var × List Stmt) := do
  pure (dl, ← copyLoop strict dl (useCounts dl sl) (fun _ => none) sl)

/-! ## Stale entries -/

/-- Running the statement as it stands may change the variable or the value of
the expression. -/
def Disturbs : Stmt → Var → Exp → Prop
  | .move (.temp w) _, v, e => v = w ∨ Reads w e
  | .move (.mem _ _ _) _, _, e => Loads e
  | .special _, _, _ => True
  | .label _, _, _ => True
  | .attr st _, v, e => Disturbs st v e
  | _, _, _ => False

/-- The variables whose entries need not hold after the statement, from those
before it: all of them after a special statement, and after a move recorded
for a variable that its right side mentions, that variable. -/
def staleAfter (dl : List Var) (map : CopyMap) (stale : Var → Prop)
    (st' : Stmt) : Var → Prop :=
  match st' with
  | .cjmp _ _ _ | .jmp _ | .label _ => fun _ => False
  | .move (.temp lhsV) rhs => fun v =>
      if v = lhsV then Reads lhsV rhs ∧ ∀ w, rhs ≠ .temp w
      else stale v ∧ ¬(rhs = .temp v ∧ v ∈ dl)
  | .move (.mem _ _ _) _ => fun v => stale v ∨ ∃ e, map v = some e ∧ Loads e
  | .special _ => fun _ => True
  | .attr st _ => fun v => stale v ∨ ∃ e, map v = some e ∧ Disturbs st v e
  | _ => stale

/-- The expressions that the pass rewrites. -/
def rewritten : Stmt → List Exp
  | .cjmp e1 l1 l2 => [e1, l1, l2]
  | .jmp lab => [lab]
  | .move (.temp _) e => [e]
  | .move (.mem _ idx _) e => [idx, e]
  | .expStmt e => [e]
  | .assertion e => [e]
  | _ => []

/-- No `let` binds a variable, or a memory, that a value put into its body
depends on. -/
def NoCapture (strict : Bool) (map : CopyMap) : Exp → Prop
  | .binOp _ e1 e2 => NoCapture strict map e1 ∧ NoCapture strict map e2
  | .fbinOp _ _ e1 e2 => NoCapture strict map e1 ∧ NoCapture strict map e2
  | .unOp _ e => NoCapture strict map e
  | .funOp _ _ e => NoCapture strict map e
  | .cast _ _ e => NoCapture strict map e
  | .fcast _ _ _ e => NoCapture strict map e
  | .mem _ idx _ => NoCapture strict map idx
  | .letTemp v e1 e2 =>
      (strict = true → map v = none) ∧ NoCapture strict map e1 ∧
        NoCapture strict map e2 ∧
        ∀ w e, Reads w e2 → map w = some e → w ≠ v ∧ ¬Reads v e
  | .letMem v idx _ e1 e2 =>
      (strict = true → map v = none) ∧ NoCapture strict map idx ∧
        NoCapture strict map e1 ∧ NoCapture strict map e2 ∧
        ∀ w e, Reads w e2 → map w = some e → ¬Loads e
  | .ite ce te fe =>
      NoCapture strict map ce ∧ NoCapture strict map te ∧
        NoCapture strict map fe
  | _ => True

/-- At the statement, the pass puts no stale entry and no captured value into
an expression. -/
def Sound (strict : Bool) (map : CopyMap) (stale : Var → Prop) (st : Stmt) :
    Prop :=
  ∀ e ∈ rewritten st, NoCapture strict map e ∧
    ∀ v, Reads v e → map v ≠ none → ¬stale v

/-- The pass meets `Sound` at each statement in turn. -/
def SoundAlong (strict : Bool) (dl : List Var) (counts : Var → ℕ) :
    CopyMap → (Var → Prop) → List Stmt → Prop
  | _, _, [] => True
  | map, stale, st :: rest =>
      Sound strict map stale st ∧ ∀ st', replaceUses strict map st = .ok st' →
        SoundAlong strict dl counts
          (record dl counts st' (invalidate st' map))
          (staleAfter dl (invalidate st' map) stale st') rest

/-! ## Rewritten expressions -/

section Eval

variable {D μ : Type} (M : Machine D μ) {strict : Bool} {map : CopyMap}

/-- The entries for the variables that the expression reads hold. -/
def HoldsFor (map : CopyMap) (s : State D μ) (e : Exp) : Prop :=
  ∀ v e', Reads v e → map v = some e' → M.eval e' s = s.temp v

/-- Entries that hold are put in without a change of the value. -/
theorem eval_replaceUsesE {e : Exp} (hcap : NoCapture strict map e) :
    ∃ e', replaceUsesE strict map e = .ok e' ∧
      ∀ s, HoldsFor M map s e → M.eval e' s = M.eval e s := by
  induction e with
  | binOp op e1 e2 ih1 ih2 =>
    obtain ⟨e1', h1, heval1⟩ := ih1 hcap.1
    obtain ⟨e2', h2, heval2⟩ := ih2 hcap.2
    refine ⟨.binOp op e1' e2', by rw [replaceUsesE, h1, h2]; rfl, ?_⟩
    intro s hs
    rw [Machine.eval, Machine.eval, heval1 s fun v e' hr => hs v e' (.inl hr),
      heval2 s fun v e' hr => hs v e' (.inr hr)]
  | fbinOp op rm e1 e2 ih1 ih2 =>
    obtain ⟨e1', h1, heval1⟩ := ih1 hcap.1
    obtain ⟨e2', h2, heval2⟩ := ih2 hcap.2
    refine ⟨.fbinOp op rm e1' e2', by rw [replaceUsesE, h1, h2]; rfl, ?_⟩
    intro s hs
    rw [Machine.eval, Machine.eval, heval1 s fun v e' hr => hs v e' (.inl hr),
      heval2 s fun v e' hr => hs v e' (.inr hr)]
  | unOp op e ih =>
    obtain ⟨e', h, heval⟩ := ih hcap
    refine ⟨.unOp op e', by rw [replaceUsesE, h]; rfl, fun s hs => ?_⟩
    rw [Machine.eval, Machine.eval, heval s hs]
  | funOp op rm e ih =>
    obtain ⟨e', h, heval⟩ := ih hcap
    refine ⟨.funOp op rm e', by rw [replaceUsesE, h]; rfl, fun s hs => ?_⟩
    rw [Machine.eval, Machine.eval, heval s hs]
  | cast op t e ih =>
    obtain ⟨e', h, heval⟩ := ih hcap
    refine ⟨.cast op t e', by rw [replaceUsesE, h]; rfl, fun s hs => ?_⟩
    rw [Machine.eval, Machine.eval, heval s hs]
  | fcast op rm t e ih =>
    obtain ⟨e', h, heval⟩ := ih hcap
    refine ⟨.fcast op rm t e', by rw [replaceUsesE, h]; rfl, fun s hs => ?_⟩
    rw [Machine.eval, Machine.eval, heval s hs]
  | constant c => exact ⟨_, rfl, fun _ _ => rfl⟩
  | name l => exact ⟨_, rfl, fun _ _ => rfl⟩
  | unknown str => exact ⟨_, rfl, fun _ _ => rfl⟩
  | temp v =>
    refine ⟨_, rfl, fun s hs => ?_⟩
    cases hv : map v with
    | none => rfl
    | some e' => exact hs v e' rfl hv
  | mem v idx t ih =>
    obtain ⟨idx', h, heval⟩ := ih hcap
    refine ⟨.mem v idx' t, by rw [replaceUsesE, h]; rfl, fun s hs => ?_⟩
    rw [Machine.eval, Machine.eval, heval s fun w e' hr => hs w e' (.inr hr)]
  | letTemp v e1 e2 ih1 ih2 =>
    obtain ⟨hv, hcap1, hcap2, hbody⟩ := hcap
    obtain ⟨e1', h1, heval1⟩ := ih1 hcap1
    obtain ⟨e2', h2, heval2⟩ := ih2 hcap2
    have hassert : gAssert strict (map v).isNone = .ok () := by
      cases strict with
      | false => rfl
      | true => rw [hv rfl]; rfl
    refine ⟨.letTemp v e1' e2', by
      rw [replaceUsesE, hassert, h1, h2]; rfl, ?_⟩
    intro s hs
    rw [Machine.eval, Machine.eval, heval1 s fun w e' hr => hs w e' (.inl hr)]
    apply heval2
    intro w e' hr hw
    obtain ⟨hne, hread⟩ := hbody w e' hr hw
    rw [M.eval_setTemp hread, State.setTemp_temp_of_ne hne]
    exact hs w e' (.inr ⟨Ne.symm hne, hr⟩) hw
  | letMem v idx t e1 e2 ih ih1 ih2 =>
    obtain ⟨hv, hcap, hcap1, hcap2, hbody⟩ := hcap
    obtain ⟨idx', h, heval⟩ := ih hcap
    obtain ⟨e1', h1, heval1⟩ := ih1 hcap1
    obtain ⟨e2', h2, heval2⟩ := ih2 hcap2
    have hassert : gAssert strict (map v).isNone = .ok () := by
      cases strict with
      | false => rfl
      | true => rw [hv rfl]; rfl
    refine ⟨.letMem v idx' t e1' e2', by
      rw [replaceUsesE, hassert, h, h1, h2]; rfl, ?_⟩
    intro s hs
    rw [Machine.eval, Machine.eval,
      heval s fun w e' hr => hs w e' (.inr (.inl hr)),
      heval1 s fun w e' hr => hs w e' (.inr (.inr (.inl hr)))]
    apply heval2
    intro w e' hr hw
    rw [M.eval_setMem (hbody w e' hr hw)]
    exact hs w e' (.inr (.inr (.inr hr))) hw
  | ite ce te fe ihc iht ihf =>
    obtain ⟨ce', hc, hevalc⟩ := ihc hcap.1
    obtain ⟨te', ht, hevalt⟩ := iht hcap.2.1
    obtain ⟨fe', hf, hevalf⟩ := ihf hcap.2.2
    refine ⟨.ite ce' te' fe', by rw [replaceUsesE, hc, ht, hf]; rfl, ?_⟩
    intro s hs
    rw [Machine.eval, Machine.eval,
      hevalc s fun v e' hr => hs v e' (.inl hr),
      hevalt s fun v e' hr => hs v e' (.inr (.inl hr)),
      hevalf s fun v e' hr => hs v e' (.inr (.inr hr))]

/-- The entries that are not stale hold. -/
def Valid (map : CopyMap) (stale : Var → Prop) (s : State D μ) : Prop :=
  ∀ v e, map v = some e → ¬stale v → M.eval e s = s.temp v

/-- The rewritten statement is of the same kind, and makes the same step. -/
structure Rewrites (map : CopyMap) (stale : Var → Prop) (st st' : Stmt) :
    Prop where
  step {frag rest : List Stmt} {s : State D μ} (h : Valid M map stale s) :
    M.step frag (st' :: rest, s) = M.step frag (st :: rest, s)
  label (l : OString) : st' = .label l ↔ st = .label l

theorem rewrites_of_sound {stale : Var → Prop} {st : Stmt}
    (h : Sound strict map stale st) :
    ∃ st', replaceUses strict map st = .ok st' ∧
      Rewrites M map stale st st' := by
  have hexp : ∀ e ∈ rewritten st, ∃ e', replaceUsesE strict map e = .ok e' ∧
      ∀ s, Valid M map stale s → M.eval e' s = M.eval e s := by
    intro e he
    obtain ⟨hcap, hstale⟩ := h e he
    obtain ⟨e', he', heval⟩ := eval_replaceUsesE M hcap
    refine ⟨e', he', fun s hs => heval s ?_⟩
    intro v e₁ hr hv
    exact hs v e₁ hv (hstale v hr (by rw [hv]; simp))
  cases st with
  | jmp l =>
    obtain ⟨l', hl', heval⟩ := hexp l (by simp [rewritten])
    refine ⟨.jmp l', by rw [replaceUses, hl']; rfl, fun hs => ?_, by simp⟩
    simp only [Machine.step, M.evalLabelExp_eq, heval _ hs]
  | cjmp e l1 l2 =>
    obtain ⟨e', he', heval⟩ := hexp e (by simp [rewritten])
    obtain ⟨l1', hl1', heval1⟩ := hexp l1 (by simp [rewritten])
    obtain ⟨l2', hl2', heval2⟩ := hexp l2 (by simp [rewritten])
    refine ⟨.cjmp e' l1' l2', by rw [replaceUses, he', hl1', hl2']; rfl,
      fun hs => ?_, by simp⟩
    simp only [Machine.step, M.evalLabelExp_eq, heval _ hs, heval1 _ hs,
      heval2 _ hs]
  | move lv e =>
    cases lv with
    | temp v =>
      obtain ⟨e', he', heval⟩ := hexp e (by simp [rewritten])
      refine ⟨.move (.temp v) e', by rw [replaceUses, he']; rfl,
        fun hs => ?_, by simp⟩
      simp only [Machine.step, Machine.assign, heval _ hs]
    | mem m idx t =>
      obtain ⟨idx', hidx', hevalidx⟩ := hexp idx (by simp [rewritten])
      obtain ⟨e', he', heval⟩ := hexp e (by simp [rewritten])
      refine ⟨.move (.mem m idx' t) e', by
        rw [replaceUses, hidx', he']; rfl, fun hs => ?_, by simp⟩
      simp only [Machine.step, Machine.assign, heval _ hs, hevalidx _ hs]
  | expStmt e =>
    obtain ⟨e', he', -⟩ := hexp e (by simp [rewritten])
    exact ⟨.expStmt e', by rw [replaceUses, he']; rfl, fun _ => rfl, by simp⟩
  | assertion e =>
    obtain ⟨e', he', heval⟩ := hexp e (by simp [rewritten])
    refine ⟨.assertion e', by rw [replaceUses, he']; rfl, fun hs => ?_,
      by simp⟩
    simp only [Machine.step, heval _ hs]
  | _ => exact ⟨_, rfl, fun _ => rfl, fun _ => Iff.rfl⟩

theorem valid_none (s : State D μ) (stale : Var → Prop) :
    Valid M (fun _ => none) stale s := by
  intro v e hv
  cases hv

/-- Moving the value of the right side keeps the entries that neither it nor
its variable occurs in, and makes the new ones true. -/
theorem valid_move {dl : List Var} {counts : Var → ℕ} {stale : Var → Prop}
    {s : State D μ} (h : Valid M map stale s) (lhsV : Var) (rhs : Exp) :
    Valid M
      (record dl counts (.move (.temp lhsV) rhs)
        (invalidate (.move (.temp lhsV) rhs) map))
      (staleAfter dl (invalidate (.move (.temp lhsV) rhs) map) stale
        (.move (.temp lhsV) rhs))
      (s.setTemp lhsV (M.eval rhs s)) := by
  -- an old entry
  have hold : ∀ v e, invalidate (.move (.temp lhsV) rhs) map v = some e →
      ¬stale v → v ≠ lhsV →
      M.eval e (s.setTemp lhsV (M.eval rhs s)) =
        (s.setTemp lhsV (M.eval rhs s)).temp v := by
    intro v e hv hstale hne
    simp only [invalidate, Function.update_of_ne hne, invalidateUses,
      Option.filter_eq_some_iff, decide_eq_true_eq] at hv
    obtain ⟨hmap, huse⟩ := hv
    rw [M.eval_setTemp fun hr => uses_of_reads hr huse,
      State.setTemp_temp_of_ne hne]
    exact h v e hmap hstale
  have hself : invalidate (.move (.temp lhsV) rhs) map lhsV = none := by
    simp [invalidate]
  intro v e hv hstale
  by_cases hrhs : ∃ w, rhs = .temp w
  · -- a copy: both variables have the value
    obtain ⟨w, rfl⟩ := hrhs
    have hcopy : ∀ u, u = lhsV ∨ u = w →
        (s.setTemp lhsV (M.eval (.temp w) s)).temp u = s.temp w := by
      intro u hu
      by_cases hul : u = lhsV
      · subst hul
        exact State.setTemp_temp_self ..
      · rw [State.setTemp_temp_of_ne hul, hu.resolve_left hul]
    have hcases : (v = lhsV ∧ e = .temp w) ∨
        (v = w ∧ e = .temp lhsV) ∨
        (v ≠ lhsV ∧ ¬(w = v ∧ v ∈ dl) ∧
          invalidate (.move (.temp lhsV) (.temp w)) map v = some e) := by
      simp only [record] at hv
      split_ifs at hv with hw
      · by_cases hvw : v = w
        · subst hvw
          rw [Function.update_self] at hv
          exact .inr (.inl ⟨rfl, (Option.some.inj hv).symm⟩)
        · rw [Function.update_of_ne hvw] at hv
          by_cases hvl : v = lhsV
          · subst hvl
            rw [Function.update_self] at hv
            exact .inl ⟨rfl, (Option.some.inj hv).symm⟩
          · rw [Function.update_of_ne hvl] at hv
            exact .inr (.inr ⟨hvl, fun hc => hvw hc.1.symm, hv⟩)
      · by_cases hvl : v = lhsV
        · subst hvl
          rw [Function.update_self] at hv
          exact .inl ⟨rfl, (Option.some.inj hv).symm⟩
        · rw [Function.update_of_ne hvl] at hv
          exact .inr (.inr ⟨hvl, fun hc => hw (hc.1 ▸ hc.2), hv⟩)
    rcases hcases with ⟨rfl, rfl⟩ | ⟨rfl, rfl⟩ | ⟨hvl, hcopied, hv⟩
    · rw [Machine.eval, hcopy _ (.inl rfl), hcopy _ (.inr rfl)]
    · rw [Machine.eval, hcopy _ (.inl rfl), hcopy _ (.inr rfl)]
    · apply hold v e hv _ hvl
      intro hst
      apply hstale
      simp only [staleAfter, if_neg hvl]
      refine ⟨hst, ?_⟩
      rintro ⟨heq, hmem⟩
      exact hcopied ⟨by injection heq, hmem⟩
  · have hne : ∀ w, rhs ≠ .temp w := fun w hw => hrhs ⟨w, hw⟩
    have hcases : (v = lhsV ∧ e = rhs) ∨
        (v ≠ lhsV ∧ invalidate (.move (.temp lhsV) rhs) map v = some e) := by
      by_cases hvl : v = lhsV
      · subst hvl
        refine .inl ⟨rfl, ?_⟩
        cases rhs with
        | temp w => exact absurd rfl (hne w)
        | constant c =>
          simp only [record] at hv
          split_ifs at hv
          · rw [Function.update_self] at hv
            exact (Option.some.inj hv).symm
          · rw [Function.update_self] at hv
            exact (Option.some.inj hv).symm
        | _ =>
          simp only [record] at hv
          split_ifs at hv
          · rw [Function.update_self] at hv
            exact (Option.some.inj hv).symm
          · rw [hself] at hv
            cases hv
      · refine .inr ⟨hvl, ?_⟩
        cases rhs with
        | temp w => exact absurd rfl (hne w)
        | constant c =>
          simp only [record] at hv
          split_ifs at hv
          · rwa [Function.update_of_ne hvl] at hv
          · rwa [Function.update_of_ne hvl] at hv
        | _ =>
          simp only [record] at hv
          split_ifs at hv
          · rwa [Function.update_of_ne hvl] at hv
          · exact hv
    rcases hcases with ⟨rfl, rfl⟩ | ⟨hvl, hv⟩
    · have hread : ¬Reads v e := by
        intro hr
        apply hstale
        simp only [staleAfter, if_true]
        exact ⟨hr, hne⟩
      rw [M.eval_setTemp hread, State.setTemp_temp_self]
    · apply hold v e hv _ hvl
      intro hst
      apply hstale
      simp only [staleAfter, if_neg hvl]
      exact ⟨hst, fun hc => hne v hc.1⟩

/-- A statement that does not disturb an entry keeps it. -/
theorem eval_of_not_disturbs {frag rest : List Stmt} {st : Stmt}
    {s s₁ : State D μ} (hstep : M.step frag (st :: rest, s) = .go (rest, s₁))
    {v : Var} {e : Exp} (hdist : ¬Disturbs st v e)
    (h : M.eval e s = s.temp v) : M.eval e s₁ = s₁.temp v := by
  have hjump : ∀ {lab : OString}, M.jump frag lab s = .go (rest, s₁) →
      s₁ = s := by
    intro lab hj
    unfold Machine.jump at hj
    split_ifs at hj with hdo
    cases hlab : findLabel lab frag with
    | none =>
      rw [hlab] at hj
      cases hj
    | some sl =>
      rw [hlab] at hj
      injection hj with hj
      exact (congrArg Prod.snd hj).symm
  have hsame : s₁ = s → M.eval e s₁ = s₁.temp v := by
    rintro rfl
    exact h
  cases st with
  | jmp l => exact hsame (hjump hstep)
  | cjmp c l1 l2 =>
    simp only [Machine.step] at hstep
    split_ifs at hstep
    · exact hsame (hjump hstep)
    · exact hsame (hjump hstep)
  | move lv rhs =>
    simp only [Machine.step] at hstep
    injection hstep with hstep
    obtain rfl : M.assign lv rhs s = s₁ := congrArg Prod.snd hstep
    cases lv with
    | temp w =>
      rw [Disturbs, not_or] at hdist
      simp only [Machine.assign]
      rw [M.eval_setTemp hdist.2, State.setTemp_temp_of_ne hdist.1, h]
    | mem m idx t =>
      simp only [Machine.assign]
      rw [M.eval_setMem hdist]
      exact h
  | special str => exact absurd trivial hdist
  | label l => exact absurd trivial hdist
  | expStmt x =>
    injection hstep with hstep
    exact hsame (congrArg Prod.snd hstep).symm
  | comment str =>
    injection hstep with hstep
    exact hsame (congrArg Prod.snd hstep).symm
  | attr st a =>
    injection hstep with hstep
    have hlen := congrArg (fun c => c.1.length) hstep
    simp at hlen
  | assertion x =>
    simp only [Machine.step] at hstep
    split_ifs at hstep
    injection hstep with hstep
    exact hsame (congrArg Prod.snd hstep).symm
  | _ => simp [Machine.step] at hstep

/-- The entries that are not stale hold after the statement. -/
theorem valid_step {dl : List Var} {counts : Var → ℕ} {stale : Var → Prop}
    {frag rest : List Stmt} {st : Stmt} {s s₁ : State D μ}
    (h : Valid M map stale s)
    (hstep : M.step frag (st :: rest, s) = .go (rest, s₁)) :
    Valid M (record dl counts st (invalidate st map))
      (staleAfter dl (invalidate st map) stale st) s₁ := by
  have hkeep : (∀ v e, map v = some e → ¬stale v → ¬Disturbs st v e) →
      Valid M map stale s₁ := by
    intro hd v e hv hstale
    exact eval_of_not_disturbs M hstep (hd v e hv hstale) (h v e hv hstale)
  cases st with
  | jmp l => exact valid_none M s₁ _
  | cjmp c l1 l2 => exact valid_none M s₁ _
  | label l => exact valid_none M s₁ _
  | move lv rhs =>
    cases lv with
    | temp w =>
      injection hstep with hstep
      obtain rfl : M.assign (.temp w) rhs s = s₁ := congrArg Prod.snd hstep
      exact valid_move M h w rhs
    | mem m idx t =>
      intro v e hv hstale
      simp only [record] at hv
      have hload : ¬Loads e := fun hl => hstale (.inr ⟨e, hv, hl⟩)
      simp only [invalidate, invalidateUses, Option.filter_eq_some_iff] at hv
      exact eval_of_not_disturbs M hstep hload
        (h v e hv.1 fun hs => hstale (.inl hs))
  | special str =>
    intro v e _ hstale
    exact absurd trivial hstale
  | attr st a =>
    injection hstep with hstep
    have hlen := congrArg (fun c => c.1.length) hstep
    simp at hlen
  | _ => exact hkeep fun _ _ _ _ => id

end Eval

/-! ## Runs -/

section Runs

variable {D μ : Type} {M : Machine D μ} {strict : Bool} {dl : List Var}
  {counts : Var → ℕ} {map : CopyMap} {stale : Var → Prop}

theorem copyLoop_cons {st : Stmt} {rest sl' : List Stmt} :
    copyLoop strict dl counts map (st :: rest) = .ok sl' ↔
      ∃ st' rest', replaceUses strict map st = .ok st' ∧
        copyLoop strict dl counts (record dl counts st' (invalidate st' map))
          rest = .ok rest' ∧ sl' = st' :: rest' := by
  simp only [copyLoop, OCaml.bind_eq_ok_iff, OCaml.pure_eq_ok_iff]
  constructor
  · rintro ⟨st', hst, rest', hrest, rfl⟩
    exact ⟨st', rest', hst, hrest, rfl⟩
  · rintro ⟨st', rest', hst, hrest, rfl⟩
    exact ⟨st', hst, rest', hrest, rfl⟩

/-- The configurations of the two runs: at a statement of the pass, or inside
an attribute, at a statement that the pass has left alone. -/
inductive CopyConfig (M : Machine D μ) (strict : Bool) (dl : List Var)
    (counts : Var → ℕ) : Config D μ → Config D μ → Prop
  | main {map : CopyMap} {stale : Var → Prop} {sl sl' : List Stmt}
      {s : State D μ} (hloop : copyLoop strict dl counts map sl = .ok sl')
      (hsound : SoundAlong strict dl counts map stale sl)
      (hvalid : Valid M map stale s) :
      CopyConfig M strict dl counts (sl, s) (sl', s)
  | inner {map : CopyMap} {stale : Var → Prop} {st : Stmt}
      {rest rest' : List Stmt} {s : State D μ}
      (hloop : copyLoop strict dl counts map rest = .ok rest')
      (hsound : SoundAlong strict dl counts map stale rest)
      (hvalid : Valid M map stale s)
      (hdist : ∀ v e, map v = some e → Disturbs st v e → stale v) :
      CopyConfig M strict dl counts (st :: rest, s) (st :: rest', s)

theorem copyLoop_ok (M : Machine D μ) {sl : List Stmt}
    (h : SoundAlong strict dl counts map stale sl) :
    ∃ sl', copyLoop strict dl counts map sl = .ok sl' := by
  induction sl generalizing map stale with
  | nil => exact ⟨[], rfl⟩
  | cons st rest ih =>
    obtain ⟨st', hst, -⟩ := rewrites_of_sound M h.1
    obtain ⟨rest', hrest⟩ := ih (h.2 st' hst)
    exact ⟨_, copyLoop_cons.mpr ⟨st', rest', hst, hrest, rfl⟩⟩

/-- The table is empty behind a label, however control comes to it. -/
theorem CopyConfig.findLabel {sl sl' : List Stmt}
    (hloop : copyLoop strict dl counts map sl = .ok sl')
    (hsound : SoundAlong strict dl counts map stale sl) (lab : OString)
    (s : State D μ) :
    Option.Rel (fun r r' => CopyConfig M strict dl counts (r, s) (r', s))
      (Fragment.findLabel lab sl) (Fragment.findLabel lab sl') := by
  induction sl generalizing map stale sl' with
  | nil =>
    obtain rfl : [] = sl' := by simpa [copyLoop] using hloop
    exact .none
  | cons st rest ih =>
    obtain ⟨st', rest', hst, hrest, rfl⟩ := copyLoop_cons.mp hloop
    have ih := ih hrest (hsound.2 st' hst)
    obtain ⟨st₁, hst₁, hrew⟩ := rewrites_of_sound M hsound.1
    obtain rfl : st₁ = st' := Except.ok.inj (hst₁.symm.trans hst)
    by_cases hlab : ∃ l, st = .label l
    · obtain ⟨l, rfl⟩ := hlab
      obtain rfl := (hrew.label l).mpr rfl
      simp only [Fragment.findLabel]
      split_ifs
      · have hloop' : copyLoop strict dl counts (fun _ => none)
            (.label l :: rest) = .ok (.label l :: rest') :=
          copyLoop_cons.mpr ⟨_, rest', rfl, hrest, rfl⟩
        have hsound' : SoundAlong strict dl counts (fun _ => none)
            (fun _ => False) (.label l :: rest) := by
          refine ⟨by simp [Sound, rewritten], fun st₂ hst₂ => ?_⟩
          obtain rfl : .label l = st₂ := Except.ok.inj hst₂
          exact hsound.2 _ hst
        exact .some (.main hloop' hsound' (valid_none M s _))
      · exact ih
    · have hst' : ∀ l, st₁ ≠ .label l :=
        fun l hl => hlab ⟨l, (hrew.label l).mp hl⟩
      rw [findLabel_cons_of_ne (fun l hl => hlab ⟨l, hl⟩),
        findLabel_cons_of_ne hst']
      exact ih

theorem CopyConfig.simulates {frag frag' : List Stmt} {map₀ : CopyMap}
    {stale₀ : Var → Prop}
    (hres : copyLoop strict dl counts map₀ frag = .ok frag')
    (hfrag : SoundAlong strict dl counts map₀ stale₀ frag) :
    Simulates (M.step frag) (M.step frag') (CopyConfig M strict dl counts)
      (Result.AgreeOff ∅) Config.left Config.left := by
  have hlab := fun lab s =>
    CopyConfig.findLabel (M := M) hres hfrag lab s
  intro c c' hrel
  cases hrel with
  | @main map stale sl sl' s hloop hsound hvalid =>
    cases sl with
    | nil =>
      obtain rfl : [] = sl' := by simpa [copyLoop] using hloop
      exact .both (.stop (.finished (State.AgreeOff.refl ∅ s)))
    | cons st rest =>
      obtain ⟨st', rest', hst, hrest, rfl⟩ := copyLoop_cons.mp hloop
      obtain ⟨st₁, hst₁, hrew⟩ := rewrites_of_sound M hsound.1
      obtain rfl : st₁ = st' := Except.ok.inj (hst₁.symm.trans hst)
      apply Matched.both
      rw [← hrew.step hvalid]
      apply Machine.step_rel_self
      · intro s₁ hs₁
        exact .main hrest (hsound.2 _ hst) (valid_step M hvalid hs₁)
      · rintro inner a rfl
        refine .inner hrest (hsound.2 _ hst) ?_ ?_
        · intro v e hv hstale
          exact hvalid v e hv fun hs => hstale (.inl hs)
        · intro v e hv hdist
          exact .inr ⟨e, hv, hdist⟩
      · exact hlab
  | @inner map stale st rest rest' s hloop hsound hvalid hdist =>
    apply Matched.both
    apply Machine.step_rel_self
    · intro s₁ hs₁
      refine .main hloop hsound fun v e hv hstale => ?_
      exact eval_of_not_disturbs M hs₁ (fun hd => hstale (hdist v e hv hd))
        (hvalid v e hv hstale)
    · rintro inner a rfl
      exact .inner hloop hsound hvalid hdist
    · exact hlab

end Runs

/-- Where the pass puts no stale entry and no captured value into an
expression, it returns, and both fragments run alike in every state. -/
theorem copyConstProp_preserves (strict : Bool) (dl : List Var)
    (sl : List Stmt)
    (h : SoundAlong strict dl (useCounts dl sl) (fun _ => none)
      (fun _ => False) sl) :
    ∃ sl', copyConstProp strict dl sl = .ok (dl, sl') ∧
      ∀ (D μ : Type) (M : Machine D μ) (s : State D μ),
        M.SameRuns ∅ sl sl' s := by
  obtain ⟨sl', hloop⟩ :=
    copyLoop_ok (wordMachine (μ := Unit) fun _ _ => .fails) h
  refine ⟨sl', by rw [copyConstProp, hloop]; rfl, fun D μ M s => ?_⟩
  exact Machine.sameRuns_of_simulates (CopyConfig.simulates hloop h)
    (.main hloop h (valid_none M s _))

/-- A fragment in which a constant is put in: `T0 := 1; R_EBX := T0`. -/
theorem copyConstProp_preserves_constant :
    ∃ sl', copyConstProp true [tempT0]
          [.move (.temp tempT0) (.int .reg32 1),
            .move (.temp regEbx) (.temp tempT0)] = .ok ([tempT0], sl') ∧
      ∀ (D μ : Type) (M : Machine D μ) (s : State D μ),
        M.SameRuns ∅ [.move (.temp tempT0) (.int .reg32 1),
          .move (.temp regEbx) (.temp tempT0)] sl' s := by
  apply copyConstProp_preserves
  refine ⟨?_, ?_⟩
  · intro e he
    obtain rfl : e = .int .reg32 1 := by simpa [rewritten] using he
    exact ⟨trivial, fun v hr => hr.elim⟩
  · intro st' hst'
    obtain rfl : .move (.temp tempT0) (.int .reg32 1) = st' :=
      Except.ok.inj hst'
    refine ⟨?_, fun _ _ => trivial⟩
    intro e he
    obtain rfl : e = .temp tempT0 := by simpa [rewritten] using he
    refine ⟨trivial, ?_⟩
    rintro v rfl -
    simp [staleAfter, Reads]

/-- `T0 := R_EAX; special cpuid; R_EBX := T0` -/
def copyAcrossSpecial : List Stmt :=
  [.move (.temp tempT0) (.temp regEax), .special (OString.ofAscii "cpuid"),
    .move (.temp regEbx) (.temp tempT0)]

/-- Handlers that set `R_EAX`, as the one for `cpuid` does. -/
def setsEax (_ : OString) (s : State Val Unit) : Handled Val Unit :=
  .continues (s.setTemp regEax (.word 32 1))

/-- The copy of the register is put behind the special statement that writes
the register: `R_EBX` ends with the new value. -/
theorem copyConstProp_stale :
    ∃ sl', copyConstProp true [tempT0] copyAcrossSpecial =
        .ok ([tempT0], sl') ∧
      ¬∀ s, (wordMachine setsEax).SameRuns ∅ copyAcrossSpecial sl' s := by
  refine ⟨[.move (.temp tempT0) (.temp regEax),
    .special (OString.ofAscii "cpuid"),
    .move (.temp regEbx) (.temp regEax)], rfl, fun h => ?_⟩
  obtain ⟨hrun, -⟩ := h ⟨fun _ => .word 32 0, ()⟩
  obtain ⟨r', hr', hagree⟩ := hrun _ ⟨4, rfl⟩
  obtain rfl := Finishes.unique ⟨4, rfl⟩ hr'
  cases hagree with
  | finished hs =>
    have hebx := hs.temp regEbx (Set.notMem_empty _)
    exact absurd hebx (by decide)

end Fuzzball.FragSimplify
