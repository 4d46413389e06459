import Fuzzball.Simulation
import Fuzzball.VineStatements

/-!
# Running a fragment

The loop of `run_sl` of the fragment machine.  The machine is a functor over
the domain `D` of values; here the operations of the domain, the memory and the
handlers of special statements are the fields of a `Machine`, so that results
hold for every domain and every set of handlers.  An expression has a value in
every state: exceptions that an evaluation raises are left out.
-/

namespace Fuzzball.Fragment

open Vine Simulation

/-- The registers and temporaries, and the memory.  `handle_load` and
`handle_store` do not look at the memory variable of an lvalue. -/
@[ext]
structure State (D μ : Type) where
  temp : Var → D
  mem : μ

/-- What a handler of special statements does: it changes the state and lets
the fragment go on, answers with statements that change the state and jump, or
there is no handler. -/
inductive Handled (D μ : Type)
  | continues (s : State D μ)
  | jumps (lab : OString) (s : State D μ)
  | fails

/-- The parts of the machine that `run_sl` calls. -/
structure Machine (D μ : Type) where
  binOp : BinopType → D → D → D
  fbinOp : FBinopType → RoundMode → D → D → D
  unOp : UnopType → D → D
  funOp : FUnopType → RoundMode → D → D
  constant : Value → D
  name : OString → D
  cast : CastType → Typ → D → D
  fcast : FCastType → RoundMode → Typ → D → D
  unknown : OString → D
  ite : D → D → D → D
  load : μ → Typ → D → D
  store : μ → Typ → D → D → μ
  /-- Is a condition true? -/
  truth : D → Bool
  /-- The label of a computed target. -/
  labelOf : D → OString
  /-- The address of a label leads to the label. -/
  labelOf_name (l : OString) : labelOf (name l) = l
  /-- The argument `do_jump` of `run_sl`. -/
  doJump : OString → Bool
  handleSpecial : OString → State D μ → Handled D μ
  /-- The hooks and the program counter, at a label. -/
  atLabel : OString → State D μ → State D μ

/-- How a run ends: the name that `run_sl` returns. -/
inductive Exit (D : Type)
  | fallthrough
  | label (l : OString)
  | halt (v : D)

/-- The result of a run; `failed` is an exception. -/
inductive Result (D μ : Type)
  | finished (x : Exit D) (s : State D μ)
  | failed

variable {D μ : Type}

def State.setTemp (s : State D μ) (v : Var) (x : D) : State D μ :=
  { s with temp := Function.update s.temp v x }

def State.setMem (s : State D μ) (m : μ) : State D μ := { s with mem := m }

@[simp] theorem State.setTemp_mem (s : State D μ) (v : Var) (x : D) :
    (s.setTemp v x).mem = s.mem := rfl

@[simp] theorem State.setTemp_temp_self (s : State D μ) (v : Var) (x : D) :
    (s.setTemp v x).temp v = x := Function.update_self ..

@[simp] theorem State.setTemp_temp_of_ne {v w : Var} (h : w ≠ v)
    (s : State D μ) (x : D) : (s.setTemp v x).temp w = s.temp w :=
  Function.update_of_ne h ..

@[simp] theorem State.setMem_temp (s : State D μ) (m : μ) :
    (s.setMem m).temp = s.temp := rfl

@[simp] theorem State.setMem_mem (s : State D μ) (m : μ) :
    (s.setMem m).mem = m := rfl

namespace Machine

/-- The value of an expression. -/
def eval (M : Machine D μ) : Exp → State D μ → D
  | .binOp op e1 e2, s => M.binOp op (M.eval e1 s) (M.eval e2 s)
  | .fbinOp op rm e1 e2, s => M.fbinOp op rm (M.eval e1 s) (M.eval e2 s)
  | .unOp op e, s => M.unOp op (M.eval e s)
  | .funOp op rm e, s => M.funOp op rm (M.eval e s)
  | .constant c, _ => M.constant c
  | .temp v, s => s.temp v
  | .mem _ idx t, s => M.load s.mem t (M.eval idx s)
  | .name l, _ => M.name l
  | .cast ct t e, s => M.cast ct t (M.eval e s)
  | .fcast ct rm t e, s => M.fcast ct rm t (M.eval e s)
  | .unknown str, _ => M.unknown str
  | .letTemp v e1 e2, s => M.eval e2 (s.setTemp v (M.eval e1 s))
  | .letMem _ idx t e1 e2, s =>
      M.eval e2 (s.setMem (M.store s.mem t (M.eval idx s) (M.eval e1 s)))
  | .ite ce te fe, s => M.ite (M.eval ce s) (M.eval te s) (M.eval fe s)

/-- `eval_label_exp` -/
def evalLabelExp (M : Machine D μ) : Exp → State D μ → OString
  | .name lab, _ => lab
  | e, s => M.labelOf (M.eval e s)

theorem evalLabelExp_eq (M : Machine D μ) (e : Exp) (s : State D μ) :
    M.evalLabelExp e s = M.labelOf (M.eval e s) := by
  cases e <;> first
    | rfl
    | exact (M.labelOf_name _).symm

/-- The state after a move. -/
def assign (M : Machine D μ) : LValue → Exp → State D μ → State D μ
  | .temp v, e, s => s.setTemp v (M.eval e s)
  | .mem _ idx t, e, s =>
      s.setMem (M.store s.mem t (M.eval idx s) (M.eval e s))

end Machine

/-- `find_label` of `jump`: what follows from the label on. -/
def findLabel (lab : OString) : List Stmt → Option (List Stmt)
  | [] => none
  | .label l :: rest =>
      if l = lab then some (.label l :: rest) else findLabel lab rest
  | _ :: rest => findLabel lab rest

/-- The statements that remain to be run, and the state. -/
abbrev Config (D μ : Type) := List Stmt × State D μ

namespace Machine

variable (M : Machine D μ)

/-- `jump` of `run_sl`. -/
def jump (frag : List Stmt) (lab : OString) (s : State D μ) :
    Next (Config D μ) (Result D μ) :=
  if M.doJump lab then
    match findLabel lab frag with
    | some sl => .go (sl, s)
    | none => .stop (.finished (.label lab) s)
  else .stop (.finished (.label lab) s)

/-- One round of `loop` in `run_sl`. -/
def step (frag : List Stmt) :
    Config D μ → Next (Config D μ) (Result D μ)
  | ([], s) => .stop (.finished .fallthrough s)
  | (.jmp l :: _, s) => M.jump frag (M.evalLabelExp l s) s
  | (.cjmp cond l1 l2 :: _, s) =>
      if M.truth (M.eval cond s) then M.jump frag (M.evalLabelExp l1 s) s
      else M.jump frag (M.evalLabelExp l2 s) s
  | (.move lv e :: rest, s) => .go (rest, M.assign lv e s)
  | (.special str :: rest, s) =>
      match M.handleSpecial str s with
      | .continues s' => .go (rest, s')
      | .jumps lab s' => M.jump frag lab s'
      | .fails => .stop .failed
  | (.label l :: rest, s) => .go (rest, M.atLabel l s)
  | (.expStmt _ :: rest, s) => .go (rest, s)
  | (.comment _ :: rest, s) => .go (rest, s)
  | (.block _ _ :: _, _) => .stop .failed
  | (.function _ _ _ _ _ :: _, _) => .stop .failed
  | (.ret _ :: _, _) => .stop .failed
  | (.call _ _ _ :: _, _) => .stop .failed
  | (.attr st _ :: rest, s) => .go (st :: rest, s)
  | (.assertion e :: rest, s) =>
      if M.truth (M.eval e s) then .go (rest, s) else .stop .failed
  | (.halt e :: _, s) => .stop (.finished (.halt (M.eval e s)) s)

/-- `run_sl` of the fragment from its first statement ends so. -/
def Runs (frag : List Stmt) (s : State D μ) (r : Result D μ) : Prop :=
  Finishes (M.step frag) (frag, s) r

end Machine

/-! ## What an expression depends on -/

/-- The value of the variable, before the expression is evaluated, matters. -/
def Reads (var : Var) : Exp → Prop
  | .binOp _ e1 e2 | .fbinOp _ _ e1 e2 => Reads var e1 ∨ Reads var e2
  | .unOp _ e | .funOp _ _ e | .cast _ _ e | .fcast _ _ _ e => Reads var e
  | .constant _ | .name _ | .unknown _ => False
  | .temp v => v = var
  | .mem v idx _ => v = var ∨ Reads var idx
  | .letTemp v e1 e2 => Reads var e1 ∨ (v ≠ var ∧ Reads var e2)
  | .letMem v idx _ e1 e2 =>
      v = var ∨ Reads var idx ∨ Reads var e1 ∨ Reads var e2
  | .ite ce te fe => Reads var ce ∨ Reads var te ∨ Reads var fe

/-- The expression looks at the memory. -/
def Loads : Exp → Prop
  | .binOp _ e1 e2 | .fbinOp _ _ e1 e2 => Loads e1 ∨ Loads e2
  | .unOp _ e | .funOp _ _ e | .cast _ _ e | .fcast _ _ _ e => Loads e
  | .constant _ | .name _ | .unknown _ | .temp _ => False
  | .mem _ _ _ => True
  | .letTemp _ e1 e2 => Loads e1 ∨ Loads e2
  | .letMem _ _ _ _ _ => True
  | .ite ce te fe => Loads ce ∨ Loads te ∨ Loads fe

theorem uses_of_reads {var : Var} {e : Exp} (h : Reads var e) :
    e.Uses var := by
  induction e with
  | binOp op e1 e2 ih1 ih2 => exact Exp.uses_binOp.mpr (h.imp ih1 ih2)
  | fbinOp op rm e1 e2 ih1 ih2 => exact Exp.uses_fbinOp.mpr (h.imp ih1 ih2)
  | unOp op e ih => exact ih h
  | funOp op rm e ih => exact ih h
  | cast ct t e ih => exact ih h
  | fcast ct rm t e ih => exact ih h
  | constant c => exact h.elim
  | name l => exact h.elim
  | unknown str => exact h.elim
  | temp v => exact Exp.uses_temp.mpr h
  | mem v idx t ih => exact Exp.uses_mem.mpr (h.imp id ih)
  | letTemp v e1 e2 ih1 ih2 =>
    exact Exp.uses_letTemp.mpr (.inr (h.imp ih1 fun h => ih2 h.2))
  | letMem v idx t e1 e2 ih ih1 ih2 =>
    exact Exp.uses_letMem.mpr (h.imp id (Or.imp ih (Or.imp ih1 ih2)))
  | ite ce te fe ihc iht ihf =>
    exact Exp.uses_ite.mpr (h.imp ihc (Or.imp iht ihf))

theorem Machine.eval_congr (M : Machine D μ) {e : Exp} {s s' : State D μ}
    (htemp : ∀ v, Reads v e → s.temp v = s'.temp v)
    (hmem : Loads e → s.mem = s'.mem) : M.eval e s = M.eval e s' := by
  induction e generalizing s s' with
  | binOp op e1 e2 ih1 ih2 =>
    rw [eval, eval, ih1 (fun v h => htemp v (.inl h)) (fun h => hmem (.inl h)),
      ih2 (fun v h => htemp v (.inr h)) (fun h => hmem (.inr h))]
  | fbinOp op rm e1 e2 ih1 ih2 =>
    rw [eval, eval, ih1 (fun v h => htemp v (.inl h)) (fun h => hmem (.inl h)),
      ih2 (fun v h => htemp v (.inr h)) (fun h => hmem (.inr h))]
  | unOp op e ih => rw [eval, eval, ih htemp hmem]
  | funOp op rm e ih => rw [eval, eval, ih htemp hmem]
  | cast ct t e ih => rw [eval, eval, ih htemp hmem]
  | fcast ct rm t e ih => rw [eval, eval, ih htemp hmem]
  | constant c => rfl
  | name l => rfl
  | unknown str => rfl
  | temp v => exact htemp v rfl
  | mem v idx t ih =>
    have hm : s.mem = s'.mem := hmem trivial
    rw [eval, eval, hm, ih (fun w h => htemp w (.inr h)) (fun _ => hm)]
  | letTemp v e1 e2 ih1 ih2 =>
    have h1 : M.eval e1 s = M.eval e1 s' :=
      ih1 (fun w h => htemp w (.inl h)) (fun h => hmem (.inl h))
    rw [eval, eval, h1]
    apply ih2
    · intro w hw
      by_cases hvw : w = v
      · subst hvw
        rw [State.setTemp_temp_self, State.setTemp_temp_self]
      · rw [State.setTemp_temp_of_ne hvw, State.setTemp_temp_of_ne hvw]
        exact htemp w (.inr ⟨Ne.symm hvw, hw⟩)
    · intro h
      exact hmem (.inr h)
  | letMem v idx t e1 e2 ih ih1 ih2 =>
    have hm : s.mem = s'.mem := hmem trivial
    have hidx : M.eval idx s = M.eval idx s' :=
      ih (fun w h => htemp w (.inr (.inl h))) (fun _ => hm)
    have h1 : M.eval e1 s = M.eval e1 s' :=
      ih1 (fun w h => htemp w (.inr (.inr (.inl h)))) (fun _ => hm)
    rw [eval, eval, hidx, h1, hm]
    apply ih2
    · intro w hw
      exact htemp w (.inr (.inr (.inr hw)))
    · intro _
      rfl
  | ite ce te fe ihc iht ihf =>
    rw [eval, eval,
      ihc (fun v h => htemp v (.inl h)) (fun h => hmem (.inl h)),
      iht (fun v h => htemp v (.inr (.inl h)))
        (fun h => hmem (.inr (.inl h))),
      ihf (fun v h => htemp v (.inr (.inr h)))
        (fun h => hmem (.inr (.inr h)))]

/-! ## What a statement depends on -/

/-- Assigning to the lvalue looks at the variable. -/
def ReadsLv (var : Var) : LValue → Prop
  | .temp _ => False
  | .mem _ idx _ => Reads var idx

mutual

/-- Running the statement may look at the variable. -/
def ReadsStmt (var : Var) : Stmt → Prop
  | .jmp l => Reads var l
  | .cjmp e l1 l2 => Reads var e ∨ Reads var l1 ∨ Reads var l2
  | .move lv e => ReadsLv var lv ∨ Reads var e
  | .special _ | .label _ | .comment _ => False
  | .expStmt e | .assertion e | .halt e => Reads var e
  | .block _ sl => ReadsStmts var sl
  | .function _ _ _ _ body => ReadsBody var body
  | .ret e => ∃ e' ∈ e, Reads var e'
  | .call lhs callee args =>
      (∃ lv ∈ lhs, ReadsLv var lv) ∨ Reads var callee ∨
        ∃ e ∈ args, Reads var e
  | .attr st _ => ReadsStmt var st

def ReadsStmts (var : Var) : List Stmt → Prop
  | [] => False
  | st :: sl => ReadsStmt var st ∨ ReadsStmts var sl

def ReadsBody (var : Var) : Option Stmt → Prop
  | none => False
  | some st => ReadsStmt var st

end

theorem Machine.eval_setTemp (M : Machine D μ) {e : Exp} {v : Var}
    (h : ¬Reads v e) (s : State D μ) (x : D) :
    M.eval e (s.setTemp v x) = M.eval e s := by
  apply M.eval_congr
  · intro w hw
    apply State.setTemp_temp_of_ne
    rintro rfl
    exact h hw
  · intro _
    rfl

theorem Machine.eval_setMem (M : Machine D μ) {e : Exp} (h : ¬Loads e)
    (s : State D μ) (m : μ) : M.eval e (s.setMem m) = M.eval e s := by
  apply M.eval_congr
  · intro w _
    rfl
  · intro hload
    exact absurd hload h

/-! ## States that agree off some variables -/

/-- The states differ at most in the given variables. -/
structure State.AgreeOff (A : Set Var) (s s' : State D μ) : Prop where
  temp : ∀ v ∉ A, s.temp v = s'.temp v
  mem : s.mem = s'.mem

section AgreeOff

variable {A : Set Var} {s s' : State D μ}

theorem State.AgreeOff.refl (A : Set Var) (s : State D μ) : s.AgreeOff A s :=
  ⟨fun _ _ => rfl, rfl⟩

theorem State.AgreeOff.eval (h : s.AgreeOff A s') (M : Machine D μ) {e : Exp}
    (he : ∀ v ∈ A, ¬Reads v e) : M.eval e s = M.eval e s' := by
  apply M.eval_congr
  · intro v hv
    exact h.temp v fun hA => he v hA hv
  · intro _
    exact h.mem

theorem State.AgreeOff.setMem (h : s.AgreeOff A s') (m : μ) :
    (s.setMem m).AgreeOff A (s'.setMem m) := ⟨h.temp, rfl⟩

theorem State.AgreeOff.setTemp_left (h : s.AgreeOff A s') {v : Var}
    (hv : v ∈ A) (x : D) : (s.setTemp v x).AgreeOff A s' := by
  constructor
  · intro w hw
    have hvw : w ≠ v := fun heq => hw (heq ▸ hv)
    rw [State.setTemp_temp_of_ne hvw]
    exact h.temp w hw
  · exact h.mem

theorem State.AgreeOff.mono {B : Set Var} (h : s.AgreeOff A s')
    (hAB : ∀ v ∈ A, v ∈ B) : s.AgreeOff B s' :=
  ⟨fun v hv => h.temp v fun hA => hv (hAB v hA), h.mem⟩

theorem State.AgreeOff.setTemp_mono {B : Set Var} (h : s.AgreeOff A s')
    {v : Var} (x : D) (hAB : ∀ w ∈ A, w ≠ v → w ∈ B) :
    (s.setTemp v x).AgreeOff B (s'.setTemp v x) := by
  constructor
  · intro w hw
    by_cases hvw : w = v
    · subst hvw
      rw [State.setTemp_temp_self, State.setTemp_temp_self]
    · rw [State.setTemp_temp_of_ne hvw, State.setTemp_temp_of_ne hvw]
      exact h.temp w fun hA => hw (hAB w hA hvw)
  · exact h.mem

theorem State.AgreeOff.setTemp (h : s.AgreeOff A s') (v : Var) (x : D) :
    (s.setTemp v x).AgreeOff A (s'.setTemp v x) :=
  h.setTemp_mono x fun _ hA _ => hA

theorem State.AgreeOff.evalLabelExp (h : s.AgreeOff A s') (M : Machine D μ)
    {e : Exp} (he : ∀ v ∈ A, ¬Reads v e) :
    M.evalLabelExp e s = M.evalLabelExp e s' := by
  rw [M.evalLabelExp_eq, M.evalLabelExp_eq, h.eval M he]

theorem State.AgreeOff.eq (h : s.AgreeOff ∅ s') : s = s' := by
  apply State.ext
  · funext v
    exact h.temp v (Set.notMem_empty v)
  · exact h.mem

end AgreeOff

/-- Two handlers have done the same, in related states. -/
inductive HandledRel (Rel : State D μ → State D μ → Prop) :
    Handled D μ → Handled D μ → Prop
  | continues {s s' : State D μ} (h : Rel s s') :
      HandledRel Rel (.continues s) (.continues s')
  | jumps {lab : OString} {s s' : State D μ} (h : Rel s s') :
      HandledRel Rel (.jumps lab s) (.jumps lab s')
  | fails : HandledRel Rel .fails .fails

/-- The results differ at most in the given variables of the final state. -/
inductive Result.AgreeOff (A : Set Var) : Result D μ → Result D μ → Prop
  | finished {x : Exit D} {s s' : State D μ} (h : s.AgreeOff A s') :
      AgreeOff A (.finished x s) (.finished x s')
  | failed : AgreeOff A .failed .failed

/-- Handlers and hooks work on the registers: they neither look at the given
variables, which belong to the fragment, nor change them. -/
structure Machine.Spares (M : Machine D μ) (A : Set Var) : Prop where
  special_agree {str : OString} {s s' : State D μ} (h : s.AgreeOff A s') :
    HandledRel (State.AgreeOff A) (M.handleSpecial str s)
      (M.handleSpecial str s')
  label_agree {l : OString} {s s' : State D μ} (h : s.AgreeOff A s') :
    (M.atLabel l s).AgreeOff A (M.atLabel l s')
  continues_temp {str : OString} {s s₁ : State D μ}
    (h : M.handleSpecial str s = .continues s₁) {v : Var} (hv : v ∈ A) :
    s₁.temp v = s.temp v
  jumps_temp {str lab : OString} {s s₁ : State D μ}
    (h : M.handleSpecial str s = .jumps lab s₁) {v : Var} (hv : v ∈ A) :
    s₁.temp v = s.temp v
  label_temp {l : OString} {s : State D μ} {v : Var} (hv : v ∈ A) :
    (M.atLabel l s).temp v = s.temp v

theorem Machine.spares_empty (M : Machine D μ) : M.Spares ∅ where
  special_agree {str s s'} h := by
    rw [h.eq]
    cases M.handleSpecial str s' with
    | continues s₁ => exact .continues (State.AgreeOff.refl _ s₁)
    | jumps lab s₁ => exact .jumps (State.AgreeOff.refl _ s₁)
    | fails => exact .fails
  label_agree h := by
    rw [h.eq]
    exact State.AgreeOff.refl _ _
  continues_temp _ _ hv := (Set.notMem_empty _ hv).elim
  jumps_temp _ _ hv := (Set.notMem_empty _ hv).elim
  label_temp hv := (Set.notMem_empty _ hv).elim

/-- Every run of the one fragment has a run of the other that ends alike, up
to the given variables. -/
def Machine.SameRuns (M : Machine D μ) (A : Set Var) (frag frag' : List Stmt)
    (s : State D μ) : Prop :=
  (∀ r, M.Runs frag s r → ∃ r', M.Runs frag' s r' ∧ r.AgreeOff A r') ∧
    ∀ r', M.Runs frag' s r' → ∃ r, M.Runs frag s r ∧ r.AgreeOff A r'

section Steps

variable {M : Machine D μ} {A : Set Var} {frag frag' : List Stmt}
  {Rel : Config D μ → Config D μ → Prop} {s s' : State D μ}

theorem Machine.jump_rel {lab : OString}
    (hlab : Option.Rel (fun sl sl' => Rel (sl, s) (sl', s'))
      (findLabel lab frag) (findLabel lab frag'))
    (h : s.AgreeOff A s') :
    NextRel Rel (Result.AgreeOff A) (M.jump frag lab s)
      (M.jump frag' lab s') := by
  unfold Machine.jump
  split_ifs with hdo
  · generalize findLabel lab frag = x at hlab
    generalize findLabel lab frag' = x' at hlab
    cases hlab with
    | some hrel => exact .go hrel
    | none => exact .stop (.finished h)
  · exact .stop (.finished h)

/-- Both machines run the same statement, which looks at none of the variables
in which their states differ. -/
theorem Machine.step_rel (hM : M.Spares A) {st : Stmt} {rest rest' : List Stmt}
    (hst : ∀ v ∈ A, ¬ReadsStmt v st) (h : s.AgreeOff A s')
    (hrest : ∀ {s₁ s₁' : State D μ}, s₁.AgreeOff A s₁' →
      Rel (rest, s₁) (rest', s₁'))
    (hattr : ∀ st' a, st = .attr st' a →
      Rel (st' :: rest, s) (st' :: rest', s'))
    (hlab : ∀ lab {s₁ s₁' : State D μ}, s₁.AgreeOff A s₁' →
      Option.Rel (fun sl sl' => Rel (sl, s₁) (sl', s₁'))
        (findLabel lab frag) (findLabel lab frag')) :
    NextRel Rel (Result.AgreeOff A) (M.step frag (st :: rest, s))
      (M.step frag' (st :: rest', s')) := by
  cases st with
  | jmp l =>
    have hl := h.evalLabelExp M hst
    simp only [Machine.step, hl]
    exact Machine.jump_rel (hlab _ h) h
  | cjmp e l1 l2 =>
    have he : M.eval e s = M.eval e s' :=
      h.eval M fun v hv hr => hst v hv (.inl hr)
    have h1 := h.evalLabelExp M fun v hv hr => hst v hv (.inr (.inl hr))
    have h2 := h.evalLabelExp M fun v hv hr => hst v hv (.inr (.inr hr))
    simp only [Machine.step, he, h1, h2]
    split_ifs
    · exact Machine.jump_rel (hlab _ h) h
    · exact Machine.jump_rel (hlab _ h) h
  | move lv e =>
    have he : M.eval e s = M.eval e s' :=
      h.eval M fun v hv hr => hst v hv (.inr hr)
    cases lv with
    | temp w =>
      simp only [Machine.step, Machine.assign, he]
      exact .go (hrest (h.setTemp w _))
    | mem w idx t =>
      have hidx : M.eval idx s = M.eval idx s' :=
        h.eval M fun v hv hr => hst v hv (.inl hr)
      simp only [Machine.step, Machine.assign, he, hidx, h.mem]
      exact .go (hrest (h.setMem _))
  | special str =>
    have hs := @hM.special_agree str s s' h
    simp only [Machine.step]
    generalize M.handleSpecial str s = x at hs
    generalize M.handleSpecial str s' = x' at hs
    cases hs with
    | continues h₁ => exact .go (hrest h₁)
    | jumps h₁ => exact Machine.jump_rel (hlab _ h₁) h₁
    | fails => exact .stop .failed
  | label l => exact .go (hrest (hM.label_agree h))
  | expStmt e => exact .go (hrest h)
  | comment str => exact .go (hrest h)
  | block dl sl => exact .stop .failed
  | function l t args ext body => exact .stop .failed
  | ret e => exact .stop .failed
  | call lhs callee args => exact .stop .failed
  | attr st' a => exact .go (hattr st' a rfl)
  | assertion e =>
    have he : M.eval e s = M.eval e s' := h.eval M hst
    simp only [Machine.step, he]
    split_ifs
    · exact .go (hrest h)
    · exact .stop .failed
  | halt e =>
    have he : M.eval e s = M.eval e s' := h.eval M hst
    simp only [Machine.step, he]
    exact .stop (.finished h)

/-- Both machines run the same statement in the same state. -/
theorem Machine.step_rel_self {st : Stmt} {rest rest' : List Stmt}
    (hrest : ∀ s₁, M.step frag (st :: rest, s) = .go (rest, s₁) →
      Rel (rest, s₁) (rest', s₁))
    (hattr : ∀ st' a, st = .attr st' a →
      Rel (st' :: rest, s) (st' :: rest', s))
    (hlab : ∀ lab s₁, Option.Rel (fun sl sl' => Rel (sl, s₁) (sl', s₁))
      (findLabel lab frag) (findLabel lab frag')) :
    NextRel Rel (Result.AgreeOff ∅) (M.step frag (st :: rest, s))
      (M.step frag' (st :: rest', s)) := by
  have hjump := fun lab s₁ => Machine.jump_rel (M := M) (hlab lab s₁)
    (State.AgreeOff.refl ∅ s₁)
  cases st with
  | jmp l => exact hjump _ _
  | cjmp e l1 l2 =>
    simp only [Machine.step]
    split_ifs
    · exact hjump _ _
    · exact hjump _ _
  | move lv e => exact .go (hrest _ rfl)
  | special str =>
    simp only [Machine.step] at hrest ⊢
    cases hs : M.handleSpecial str s with
    | continues s₁ =>
      rw [hs] at hrest
      exact .go (hrest s₁ rfl)
    | jumps lab s₁ => exact hjump lab s₁
    | fails => exact .stop .failed
  | label l => exact .go (hrest _ rfl)
  | expStmt e => exact .go (hrest _ rfl)
  | comment str => exact .go (hrest _ rfl)
  | attr st' a => exact .go (hattr st' a rfl)
  | assertion e =>
    simp only [Machine.step] at hrest ⊢
    split_ifs with he
    · exact .go (hrest s (if_pos he))
    · exact .stop .failed
  | halt e => exact .stop (.finished (State.AgreeOff.refl ∅ s))
  | _ => exact .stop .failed

end Steps

theorem findLabel_cons_of_ne {st : Stmt} (h : ∀ l, st ≠ .label l)
    (lab : OString) (rest : List Stmt) :
    findLabel lab (st :: rest) = findLabel lab rest := by
  cases st with
  | label l => exact absurd rfl (h l)
  | _ => rfl

/-- The number of statements that remain. -/
def Config.left (c : Config D μ) : ℕ := c.1.length

theorem Machine.sameRuns_of_simulates {M : Machine D μ} {A : Set Var}
    {frag frag' : List Stmt} {Rel : Config D μ → Config D μ → Prop}
    {s : State D μ}
    (h : Simulates (M.step frag) (M.step frag') Rel (Result.AgreeOff A)
      Config.left Config.left) (hrel : Rel (frag, s) (frag', s)) :
    M.SameRuns A frag frag' s :=
  ⟨fun _ => h.finishes hrel, fun _ => h.finishes_right hrel⟩

end Fuzzball.Fragment
