import Fuzzball.FragmentWords

/-!
# Lets turned into moves

`lets_to_moves` of `frag_simplify.ml`: the lets of an expression become moves
in front of the statement, with their binders declared for the whole fragment.
A binder keeps its name, so it must not be seen by a read that it is not the
binder of.
-/

namespace Fuzzball.FragSimplify

open Vine Fragment Simulation

/-! ## The pass -/

/-- `expr_loop`: the bindings, and the expression without its lets. -/
def exprLoop : Exp → OCaml (List (Var × Exp) × Exp)
  | .binOp op e1 e2 => do
    let (bl1, e1') ← exprLoop e1
    let (bl2, e2') ← exprLoop e2
    pure (bl1 ++ bl2, .binOp op e1' e2')
  | .fbinOp op rm e1 e2 => do
    let (bl1, e1') ← exprLoop e1
    let (bl2, e2') ← exprLoop e2
    pure (bl1 ++ bl2, .fbinOp op rm e1' e2')
  | .unOp op e1 => do
    let (bl1, e1') ← exprLoop e1
    pure (bl1, .unOp op e1')
  | .funOp op rm e1 => do
    let (bl1, e1') ← exprLoop e1
    pure (bl1, .funOp op rm e1')
  | .constant v => pure ([], .constant v)
  | .temp v => pure ([], .temp v)
  | .mem v e1 ty => do
    let (bl1, e1') ← exprLoop e1
    pure (bl1, .mem v e1' ty)
  | .name l => pure ([], .name l)
  | .cast ct ty e1 => do
    let (bl1, e1') ← exprLoop e1
    pure (bl1, .cast ct ty e1')
  | .fcast ct rm ty e1 => do
    let (bl1, e1') ← exprLoop e1
    pure (bl1, .fcast ct rm ty e1')
  | .unknown str => pure ([], .unknown str)
  | .letTemp v e1 e2 => do
    let (bl1, e1') ← exprLoop e1
    let (bl2, e2') ← exprLoop e2
    pure (bl1 ++ [(v, e1')] ++ bl2, e2')
  | .letMem _ _ _ _ _ =>
    throw (.failure "Let mem unhandled in lets_to_moves")
  | .ite ce te fe => do
    let (bl1, ce') ← exprLoop ce
    let (bl2, te') ← exprLoop te
    let (bl3, fe') ← exprLoop fe
    pure (bl1 ++ bl2 ++ bl3, .ite ce' te' fe')

def unhandled (kind : String) : Exn :=
  .failure ("Unhandled stmt type " ++ kind ++ " in lets_to_moves")

/-- The moves of the bindings. -/
def moves (bl : List (Var × Exp)) : List Stmt :=
  bl.map fun b => .move (.temp b.1) b.2

mutual

/-- The `match` in `stmt_loop`.  The statements of a block stay as they are,
with the binders in them declared twice. -/
def stmtBindings : Stmt → OCaml (List (Var × Exp) × Stmt)
  | .jmp e1 => do
    let (bl1, e1') ← exprLoop e1
    pure (bl1, .jmp e1')
  | .cjmp e1 e2 e3 => do
    let (bl1, e1') ← exprLoop e1
    let (bl2, e2') ← exprLoop e2
    let (bl3, e3') ← exprLoop e3
    pure (bl1 ++ bl2 ++ bl3, .cjmp e1' e2' e3')
  | .move (.temp v) e1 => do
    let (bl1, e1') ← exprLoop e1
    pure (bl1, .move (.temp v) e1')
  | .move (.mem v e1 ty) e2 => do
    let (bl1, e1') ← exprLoop e1
    let (bl2, e2') ← exprLoop e2
    pure (bl1 ++ bl2, .move (.mem v e1' ty) e2')
  | .special str => pure ([], .special str)
  | .label l => pure ([], .label l)
  | .expStmt e1 => do
    let (bl1, e1') ← exprLoop e1
    pure (bl1, .expStmt e1')
  | .comment str => pure ([], .comment str)
  | .block dl1 sl1 => do
    let (dl1', _) ← letsLoop sl1
    pure ([], .block (dl1 ++ dl1') sl1)
  | .assertion e1 => do
    let (bl1, e1') ← exprLoop e1
    pure (bl1, .assertion e1')
  | .function _ _ _ _ _ => throw (unhandled "Function")
  | .ret _ => throw (unhandled "Return")
  | .call _ _ _ => throw (unhandled "Call")
  | .attr _ _ => throw (unhandled "Attr")
  | .halt _ => throw (unhandled "Halt")

def letsLoop : List Stmt → OCaml (List Var × List Stmt)
  | st :: rest => do
    let (bl, st') ← stmtBindings st
    let (dl2, sl2) ← letsLoop rest
    pure (bl.map Prod.fst ++ dl2, moves bl ++ st' :: sl2)
  | [] => pure ([], [])

end

def letsToMoves (dl : List Var) (sl : List Stmt) :
    OCaml (List Var × List Stmt) := do
  let (dl', sl') ← letsLoop sl
  pure (dl ++ dl', sl')

/-! ## Binders -/

/-- The expression that is left. -/
def withoutLets : Exp → Exp
  | .binOp op e1 e2 => .binOp op (withoutLets e1) (withoutLets e2)
  | .fbinOp op rm e1 e2 => .fbinOp op rm (withoutLets e1) (withoutLets e2)
  | .unOp op e1 => .unOp op (withoutLets e1)
  | .funOp op rm e1 => .funOp op rm (withoutLets e1)
  | .mem v e1 ty => .mem v (withoutLets e1) ty
  | .cast ct ty e1 => .cast ct ty (withoutLets e1)
  | .fcast ct rm ty e1 => .fcast ct rm ty (withoutLets e1)
  | .letTemp _ _ e2 => withoutLets e2
  | .ite ce te fe => .ite (withoutLets ce) (withoutLets te) (withoutLets fe)
  | e => e

/-- The variables that the lets of an expression bind, in their order. -/
def binders : Exp → List Var
  | .binOp _ e1 e2 | .fbinOp _ _ e1 e2 => binders e1 ++ binders e2
  | .unOp _ e1 | .funOp _ _ e1 | .mem _ e1 _ | .cast _ _ e1
  | .fcast _ _ _ e1 => binders e1
  | .letTemp v e1 e2 => binders e1 ++ [v] ++ binders e2
  | .ite ce te fe => binders ce ++ binders te ++ binders fe
  | _ => []

/-- A let of the expression binds memory. -/
def BindsMemory : Exp → Prop
  | .binOp _ e1 e2 | .fbinOp _ _ e1 e2 | .letTemp _ e1 e2 =>
    BindsMemory e1 ∨ BindsMemory e2
  | .unOp _ e1 | .funOp _ _ e1 | .mem _ e1 _ | .cast _ _ e1
  | .fcast _ _ _ e1 => BindsMemory e1
  | .letMem _ _ _ _ _ => True
  | .ite ce te fe => BindsMemory ce ∨ BindsMemory te ∨ BindsMemory fe
  | _ => False

/-- Neither of two expressions that are evaluated side by side sees a binder of
the other one: what is bound in the first one is not read in the second one,
and what is bound in the second one is not read in what is left of the first
one. -/
structure Apart (e1 e2 : Exp) : Prop where
  right : ∀ v ∈ binders e1, ¬Reads v e2
  left : ∀ v ∈ binders e2, ¬Reads v (withoutLets e1)

/-- Every read of a variable sees its binder when the lets are moved to the
front. -/
def KeepsScopes : Exp → Prop
  | .binOp _ e1 e2 | .fbinOp _ _ e1 e2 =>
    KeepsScopes e1 ∧ KeepsScopes e2 ∧ Apart e1 e2
  | .unOp _ e1 | .funOp _ _ e1 | .mem _ e1 _ | .cast _ _ e1
  | .fcast _ _ _ e1 => KeepsScopes e1
  | .letTemp v e1 e2 =>
    KeepsScopes e1 ∧ KeepsScopes e2 ∧
      ∀ u ∈ binders e1, u ≠ v → ¬Reads u e2
  | .ite ce te fe =>
    KeepsScopes ce ∧ KeepsScopes te ∧ KeepsScopes fe ∧
      Apart ce te ∧ Apart ce fe ∧ Apart te fe
  | _ => True

/-! ## What the pass makes of an expression -/

section Shape

variable {e e' : Exp} {bl : List (Var × Exp)}

theorem exprLoop_ok {e : Exp} (h : ¬BindsMemory e) :
    ∃ bl, exprLoop e = .ok (bl, withoutLets e) ∧
      bl.map Prod.fst = binders e := by
  induction e with
  | binOp op e1 e2 ih1 ih2 | fbinOp op rm e1 e2 ih1 ih2 =>
    obtain ⟨bl1, h1, hb1⟩ := ih1 fun hb => h (.inl hb)
    obtain ⟨bl2, h2, hb2⟩ := ih2 fun hb => h (.inr hb)
    refine ⟨bl1 ++ bl2, ?_, by rw [List.map_append, hb1, hb2]; rfl⟩
    rw [exprLoop, h1, h2]
    rfl
  | unOp op e1 ih | funOp op rm e1 ih | mem v e1 ty ih | cast ct ty e1 ih
  | fcast ct rm ty e1 ih =>
    obtain ⟨bl1, h1, hb1⟩ := ih h
    refine ⟨bl1, ?_, hb1⟩
    rw [exprLoop, h1]
    rfl
  | letTemp v e1 e2 ih1 ih2 =>
    obtain ⟨bl1, h1, hb1⟩ := ih1 fun hb => h (.inl hb)
    obtain ⟨bl2, h2, hb2⟩ := ih2 fun hb => h (.inr hb)
    refine ⟨bl1 ++ [(v, withoutLets e1)] ++ bl2, ?_, ?_⟩
    · rw [exprLoop, h1, h2]
      rfl
    · rw [List.map_append, List.map_append, hb1, hb2]
      rfl
  | letMem v addr t e1 e2 => exact absurd trivial h
  | ite ce te fe ihc iht ihf =>
    obtain ⟨bl1, h1, hb1⟩ := ihc fun hb => h (.inl hb)
    obtain ⟨bl2, h2, hb2⟩ := iht fun hb => h (.inr (.inl hb))
    obtain ⟨bl3, h3, hb3⟩ := ihf fun hb => h (.inr (.inr hb))
    refine ⟨bl1 ++ bl2 ++ bl3, ?_, ?_⟩
    · rw [exprLoop, h1, h2, h3]
      rfl
    · rw [List.map_append, List.map_append, hb1, hb2, hb3]
      rfl
  | _ => exact ⟨[], rfl, rfl⟩

theorem exprLoop_error {e : Exp} (h : BindsMemory e) :
    exprLoop e = .error (.failure "Let mem unhandled in lets_to_moves") := by
  induction e with
  | binOp op e1 e2 ih1 ih2 | fbinOp op rm e1 e2 ih1 ih2
  | letTemp v e1 e2 ih1 ih2 =>
    by_cases h1 : BindsMemory e1
    · rw [exprLoop, ih1 h1]
      rfl
    · obtain ⟨bl1, hok, -⟩ := exprLoop_ok h1
      rw [exprLoop, hok, ih2 (h.resolve_left h1)]
      rfl
  | unOp op e1 ih | funOp op rm e1 ih | mem v e1 ty ih | cast ct ty e1 ih
  | fcast ct rm ty e1 ih =>
    rw [exprLoop, ih h]
    rfl
  | letMem v addr t e1 e2 => rfl
  | ite ce te fe ihc iht ihf =>
    by_cases hc : BindsMemory ce
    · rw [exprLoop, ihc hc]
      rfl
    obtain ⟨bl1, hok1, -⟩ := exprLoop_ok hc
    by_cases ht : BindsMemory te
    · rw [exprLoop, hok1, iht ht]
      rfl
    obtain ⟨bl2, hok2, -⟩ := exprLoop_ok ht
    rw [exprLoop, hok1, hok2, ihf ((h.resolve_left hc).resolve_left ht)]
    rfl
  | _ => exact h.elim

end Shape

/-! ## Values after the moves -/

section Values

variable {D μ : Type} {M : Machine D μ} {s s' : State D μ} {e e1 e2 : Exp}
  {bl bl1 bl2 : List (Var × Exp)} {A : Set Var}

/-- The state after the moves of the bindings. -/
def afterMoves (M : Machine D μ) (bl : List (Var × Exp)) (s : State D μ) :
    State D μ :=
  bl.foldl (fun s b => M.assign (.temp b.1) b.2 s) s

theorem afterMoves_append (s : State D μ) :
    afterMoves M (bl1 ++ bl2) s = afterMoves M bl2 (afterMoves M bl1 s) :=
  List.foldl_append

theorem afterMoves_agree (bl : List (Var × Exp)) (s : State D μ) :
    (afterMoves M bl s).AgreeOff {v | v ∈ bl.map Prod.fst} s := by
  induction bl generalizing s with
  | nil => exact .refl _ s
  | cons b bl ih =>
    have hrest : (afterMoves M bl (M.assign (.temp b.1) b.2 s)).AgreeOff
        {v | v ∈ (b :: bl).map Prod.fst} (M.assign (.temp b.1) b.2 s) :=
      (ih _).mono fun v hv => List.mem_cons_of_mem _ hv
    have hfirst : (s.setTemp b.1 (M.eval b.2 s)).AgreeOff
        {v | v ∈ (b :: bl).map Prod.fst} s :=
      (State.AgreeOff.refl _ s).setTemp_left List.mem_cons_self _
    exact ⟨fun v hv => (hrest.temp v hv).trans (hfirst.temp v hv),
      hrest.mem.trans hfirst.mem⟩

theorem eval_afterMoves (h : ∀ v ∈ bl.map Prod.fst, ¬Reads v e)
    (s : State D μ) : M.eval e (afterMoves M bl s) = M.eval e s :=
  (afterMoves_agree bl s).eval M h

/-- What is left has the value of the expression, after the moves. -/
def KeepsValue (M : Machine D μ) (e : Exp) (bl : List (Var × Exp)) : Prop :=
  ∀ s, M.eval (withoutLets e) (afterMoves M bl s) = M.eval e s

/-- Two expressions side by side. -/
theorem KeepsValue.apart (h1 : KeepsValue M e1 bl1) (h2 : KeepsValue M e2 bl2)
    (hb1 : bl1.map Prod.fst = binders e1)
    (hb2 : bl2.map Prod.fst = binders e2) (h : Apart e1 e2) (s : State D μ) :
    M.eval (withoutLets e1) (afterMoves M (bl1 ++ bl2) s) = M.eval e1 s ∧
      M.eval (withoutLets e2) (afterMoves M (bl1 ++ bl2) s) =
        M.eval e2 s := by
  rw [afterMoves_append]
  constructor
  · rw [eval_afterMoves fun v hv => h.left v (hb2 ▸ hv), h1]
  · rw [h2, eval_afterMoves fun v hv => h.right v (hb1 ▸ hv)]

/-- Three expressions side by side. -/
theorem KeepsValue.apart₃ {e3 : Exp} {bl3 : List (Var × Exp)}
    (h1 : KeepsValue M e1 bl1) (h2 : KeepsValue M e2 bl2)
    (h3 : KeepsValue M e3 bl3)
    (hb1 : bl1.map Prod.fst = binders e1)
    (hb2 : bl2.map Prod.fst = binders e2)
    (hb3 : bl3.map Prod.fst = binders e3) (h12 : Apart e1 e2)
    (h13 : Apart e1 e3) (h23 : Apart e2 e3) (s : State D μ) :
    M.eval (withoutLets e1) (afterMoves M (bl1 ++ bl2 ++ bl3) s) =
        M.eval e1 s ∧
      M.eval (withoutLets e2) (afterMoves M (bl1 ++ bl2 ++ bl3) s) =
        M.eval e2 s ∧
      M.eval (withoutLets e3) (afterMoves M (bl1 ++ bl2 ++ bl3) s) =
        M.eval e3 s := by
  obtain ⟨hv1, hv2⟩ := h1.apart h2 hb1 hb2 h12 s
  rw [afterMoves_append]
  refine ⟨?_, ?_, ?_⟩
  · rw [eval_afterMoves fun v hv => h13.left v (hb3 ▸ hv), hv1]
  · rw [eval_afterMoves fun v hv => h23.left v (hb3 ▸ hv), hv2]
  · rw [h3, afterMoves_append,
      eval_afterMoves fun v hv => h23.right v (hb2 ▸ hv),
      eval_afterMoves fun v hv => h13.right v (hb1 ▸ hv)]

/-- The binder is set to the value of its definition, and the rest of the
expression sees it alone. -/
theorem KeepsValue.letTemp {v : Var} (h1 : KeepsValue M e1 bl1)
    (h2 : KeepsValue M e2 bl2)
    (hb1 : bl1.map Prod.fst = binders e1)
    (h : ∀ u ∈ binders e1, u ≠ v → ¬Reads u e2) (s : State D μ) :
    M.eval (withoutLets e2)
        (afterMoves M (bl1 ++ [(v, withoutLets e1)] ++ bl2) s) =
      M.eval e2 (s.setTemp v (M.eval e1 s)) := by
  have hmove : afterMoves M [(v, withoutLets e1)] (afterMoves M bl1 s) =
      (afterMoves M bl1 s).setTemp v (M.eval e1 s) := by
    rw [← h1 s]
    rfl
  rw [afterMoves_append, afterMoves_append, h2, hmove]
  have hagree := (afterMoves_agree (M := M) bl1 s).setTemp_mono
    (B := {u | u ∈ binders e1 ∧ u ≠ v}) (M.eval e1 s)
    fun u hu huv => ⟨hb1 ▸ hu, huv⟩
  exact hagree.eval M fun u hu => h u hu.1 hu.2

theorem exprLoop_keeps (M : Machine D μ) {e : Exp} {bl : List (Var × Exp)}
    (hmem : ¬BindsMemory e) (hscopes : KeepsScopes e)
    (h : exprLoop e = .ok (bl, withoutLets e)) : KeepsValue M e bl := by
  induction e generalizing bl with
  | binOp op e1 e2 ih1 ih2 | fbinOp op rm e1 e2 ih1 ih2 =>
    obtain ⟨hs1, hs2, hapart⟩ := hscopes
    have hm1 : ¬BindsMemory e1 := fun hb => hmem (.inl hb)
    have hm2 : ¬BindsMemory e2 := fun hb => hmem (.inr hb)
    obtain ⟨bl1, h1, hb1⟩ := exprLoop_ok hm1
    obtain ⟨bl2, h2, hb2⟩ := exprLoop_ok hm2
    rw [exprLoop, h1, h2] at h
    cases h
    intro s
    obtain ⟨hv1, hv2⟩ :=
      (ih1 hm1 hs1 h1).apart (ih2 hm2 hs2 h2) hb1 hb2 hapart s
    rw [withoutLets, Machine.eval, hv1, hv2]
    rfl
  | unOp op e1 ih | funOp op rm e1 ih | cast ct ty e1 ih
  | fcast ct rm ty e1 ih =>
    obtain ⟨bl1, h1, -⟩ := exprLoop_ok (e := e1) hmem
    rw [exprLoop, h1] at h
    cases h
    intro s
    rw [withoutLets, Machine.eval, ih hmem hscopes h1]
    rfl
  | mem v e1 ty ih =>
    obtain ⟨bl1, h1, -⟩ := exprLoop_ok (e := e1) hmem
    rw [exprLoop, h1] at h
    cases h
    intro s
    rw [withoutLets, Machine.eval, ih hmem hscopes h1,
      (afterMoves_agree bl s).mem]
    rfl
  | letTemp v e1 e2 ih1 ih2 =>
    obtain ⟨hs1, hs2, hbinder⟩ := hscopes
    have hm1 : ¬BindsMemory e1 := fun hb => hmem (.inl hb)
    have hm2 : ¬BindsMemory e2 := fun hb => hmem (.inr hb)
    obtain ⟨bl1, h1, hb1⟩ := exprLoop_ok hm1
    obtain ⟨bl2, h2, hb2⟩ := exprLoop_ok hm2
    rw [exprLoop, h1, h2] at h
    cases h
    exact (ih1 hm1 hs1 h1).letTemp (ih2 hm2 hs2 h2) hb1 hbinder
  | letMem v addr t e1 e2 => exact absurd trivial hmem
  | ite ce te fe ihc iht ihf =>
    obtain ⟨hsc, hst, hsf, hct, hcf, htf⟩ := hscopes
    have hmc : ¬BindsMemory ce := fun hb => hmem (.inl hb)
    have hmt : ¬BindsMemory te := fun hb => hmem (.inr (.inl hb))
    have hmf : ¬BindsMemory fe := fun hb => hmem (.inr (.inr hb))
    obtain ⟨bl1, h1, hb1⟩ := exprLoop_ok hmc
    obtain ⟨bl2, h2, hb2⟩ := exprLoop_ok hmt
    obtain ⟨bl3, h3, hb3⟩ := exprLoop_ok hmf
    rw [exprLoop, h1, h2, h3] at h
    cases h
    intro s
    obtain ⟨hvc, hvt, hvf⟩ := (ihc hmc hsc h1).apart₃ (iht hmt hst h2)
      (ihf hmf hsf h3) hb1 hb2 hb3 hct hcf htf s
    rw [withoutLets, Machine.eval, hvc, hvt, hvf]
    rfl
  | _ =>
    cases h
    exact fun s => rfl

theorem runs_moves (frag rest : List Stmt) (bl : List (Var × Exp))
    {s : State D μ} {r : Result D μ} :
    Finishes (M.step frag) (moves bl ++ rest, s) r ↔
      Finishes (M.step frag) (rest, afterMoves M bl s) r := by
  induction bl generalizing s with
  | nil => exact Iff.rfl
  | cons b bl ih =>
    have hstep : M.step frag (moves (b :: bl) ++ rest, s) =
        .go (moves bl ++ rest, M.assign (.temp b.1) b.2 s) := rfl
    exact (finishes_go_iff hstep).trans ih

end Values

section Examples

/-- A word machine without special statements. -/
def plainMachine : Machine Val Unit := wordMachine fun _ _ => .fails

/-- Every register holds five. -/
def fives : State Val Unit := ⟨fun _ => .word 32 5, ()⟩

/-- `EBX + (let EAX = 1 in EAX)` -/
def letOfEax : Exp :=
  .binOp .plus (.temp regEbx) (.letTemp regEax (.int .reg32 1) (.temp regEax))

/-- `EAX + (let EAX = 1 in EAX)` -/
def letBehindRead : Exp :=
  .binOp .plus (.temp regEax) (.letTemp regEax (.int .reg32 1) (.temp regEax))

end Examples

end Fuzzball.FragSimplify
