import Fuzzball.FragmentWords

/-!
# Splitting divisions

`split_divmod` of `frag_simplify.ml` replaces the definition of a 64-bit
temporary that holds a remainder and a quotient by two definitions of 32-bit
temporaries, and the halves of the old one in later expressions by the new
ones.  It looks for the halves in the right sides of moves, in expression
statements and in assertions only.
-/

namespace Fuzzball.FragSimplify

open Vine Fragment Simulation

/-- The temporaries for the quotient and the remainder. -/
abbrev SplitVars := Var → Option (Var × Var)

/-- `walk` -/
def walk (vars : SplitVars) : Exp → Exp
  | .cast .castHigh .reg32 (.temp t1) =>
    match vars t1 with
    | some (_, modVar) => .temp modVar
    | none => .cast .castHigh .reg32 (.temp t1)
  | .cast .castLow .reg32 (.temp t1) =>
    match vars t1 with
    | some (divVar, _) => .temp divVar
    | none => .cast .castLow .reg32 (.temp t1)
  | .binOp op e1 e2 => .binOp op (walk vars e1) (walk vars e2)
  | .unOp op e1 => .unOp op (walk vars e1)
  | .letTemp v e1 e2 => .letTemp v (walk vars e1) (walk vars e2)
  | .letMem v idx t e1 e2 => .letMem v idx t (walk vars e1) (walk vars e2)
  | .ite ce te fe => .ite (walk vars ce) (walk vars te) (walk vars fe)
  | other => other

/-- A definition that is split: the temporary, the operations for the quotient
and the remainder, and their operands. -/
structure DivMod where
  t1 : Var
  divOp : BinopType
  modOp : BinopType
  num : Exp
  den : Exp

/-- The two patterns of `stmt_loop`, the signed and the unsigned one. -/
def divmodOf : Stmt → Option DivMod
  | .move (.temp t1)
      (.binOp .bitor
        (.binOp .lshift
          (.cast .castUnsigned .reg64
            (.cast .castLow .reg32 (.binOp modOp num1 den1)))
          (.constant (.int .reg32 i)))
        (.cast .castUnsigned .reg64
          (.cast .castLow .reg32 (.binOp divOp num2 den2)))) =>
    if t1.typ = .reg64 ∧ i = 32 ∧
        (modOp = .smod ∧ divOp = .sdivide ∨ modOp = .mod ∧ divOp = .divide) ∧
        num1 = num2 ∧ den1 = den2 then
      some ⟨t1, divOp, modOp, num1, den1⟩
    else none
  | _ => none

/-- The counter of `newvar`, the table `vars` and the list `new_dl`. -/
structure SplitState where
  counter : ℤ
  vars : SplitVars
  newDl : List Var

/-- The temporary for the quotient. -/
def divVar (σ : SplitState) (t1 : Var) : Var :=
  ⟨σ.counter, t1.name ++ OString.ofAscii "_div", .reg32⟩

/-- The temporary for the remainder. -/
def modVar (σ : SplitState) (t1 : Var) : Var :=
  ⟨σ.counter + 1, t1.name ++ OString.ofAscii "_mod", .reg32⟩

/-- The statements of `stmt_loop` that are no split definition. -/
def walkStmt (vars : SplitVars) : Stmt → Stmt
  | .move lv rhs => .move lv (walk vars rhs)
  | .expStmt e => .expStmt (walk vars e)
  | .assertion e => .assertion (walk vars e)
  | st => st

/-- One statement in `stmt_loop`. -/
def splitStmt (σ : SplitState) (st : Stmt) : List Stmt × SplitState :=
  match divmodOf st with
  | some dm =>
    ([.move (.temp (divVar σ dm.t1))
        (.cast .castLow .reg32 (.binOp dm.divOp dm.num dm.den)),
      .move (.temp (modVar σ dm.t1))
        (.cast .castLow .reg32 (.binOp dm.modOp dm.num dm.den))],
      { counter := σ.counter + 2
        vars := Function.update σ.vars dm.t1
          (some (divVar σ dm.t1, modVar σ dm.t1))
        newDl := divVar σ dm.t1 :: modVar σ dm.t1 :: σ.newDl })
  | none => ([walkStmt σ.vars st], σ)

/-- `stmt_loop` -/
def stmtLoop (σ : SplitState) : List Stmt → List Stmt × SplitState
  | [] => ([], σ)
  | st :: rest =>
      let (sl, σ') := splitStmt σ st
      let (rest', σ'') := stmtLoop σ' rest
      (sl ++ rest', σ'')

/-- The pass, from the counter of `newvar`. -/
def splitDivmod (counter : ℤ) (dl : List Var) (sl : List Stmt) :
    List Var × List Stmt :=
  let (sl', σ) := stmtLoop ⟨counter, fun _ => none, []⟩ sl
  (dl ++ σ.newDl, sl')

/-! ## Where the temporaries stand for the halves -/

/-- The expression reads no variable that is split. -/
def Plain (S : SplitVars) (e : Exp) : Prop :=
  ∀ v, Reads v e → S v = none

/-- `S` tells which variables were last defined by a split, and by which.  The
halves that `walk` replaces belong to that split, and nothing else in the
expression reads a split variable. -/
def WalkOk (vars : SplitVars) : SplitVars → Exp → Prop
  | S, .cast .castHigh .reg32 (.temp t1) => S t1 = vars t1
  | S, .cast .castLow .reg32 (.temp t1) => S t1 = vars t1
  | S, .binOp _ e1 e2 => WalkOk vars S e1 ∧ WalkOk vars S e2
  | S, .unOp _ e1 => WalkOk vars S e1
  | S, .letTemp v e1 e2 =>
      WalkOk vars S e1 ∧ WalkOk vars (Function.update S v none) e2
  | S, .letMem _ idx _ e1 e2 =>
      Plain S idx ∧ WalkOk vars S e1 ∧ WalkOk vars S e2
  | S, .ite ce te fe => WalkOk vars S ce ∧ WalkOk vars S te ∧ WalkOk vars S fe
  | S, e => Plain S e

/-- The split variables belong to the fragment, not to the registers. -/
def LocalOnly (dl : List Var) (S : SplitVars) : Prop :=
  ∀ v, S v ≠ none → v ∈ dl

/-- What a statement that the pass leaves alone needs. -/
def PlainStmt (dl : List Var) (S : SplitVars) : Stmt → Prop
  | .jmp l => Plain S l ∧ LocalOnly dl S
  | .cjmp e l1 l2 => Plain S e ∧ Plain S l1 ∧ Plain S l2 ∧ LocalOnly dl S
  | .move (.temp _) e => Plain S e
  | .move (.mem _ idx _) e => Plain S idx ∧ Plain S e
  | .special _ | .label _ => LocalOnly dl S
  | .assertion e => Plain S e
  | .halt e => Plain S e ∧ LocalOnly dl S
  | .attr st _ => PlainStmt dl S st
  | _ => True

/-- What the statement needs for the result of the pass to do the same. -/
def SplitOk (dl : List Var) (σ : SplitState) (S : SplitVars) (st : Stmt) :
    Prop :=
  match divmodOf st with
  | some dm => Plain S dm.num ∧ Plain S dm.den
  | none =>
    match st with
    | .move (.temp _) rhs => WalkOk σ.vars S rhs
    | .move (.mem _ idx _) rhs => Plain S idx ∧ WalkOk σ.vars S rhs
    | .assertion e => WalkOk σ.vars S e
    | st => PlainStmt dl S st

/-- A move under attributes redefines its variable. -/
def pairsAfterPlain (S : SplitVars) : Stmt → SplitVars
  | .move (.temp w) _ => Function.update S w none
  | .attr st _ => pairsAfterPlain S st
  | _ => S

/-- The split variables after the statement. -/
def pairsAfter (σ : SplitState) (S : SplitVars) (st : Stmt) : SplitVars :=
  match divmodOf st with
  | some dm =>
      Function.update S dm.t1 (some (divVar σ dm.t1, modVar σ dm.t1))
  | none => pairsAfterPlain S st

/-! ## Paths -/

/-- Control may go on with the next statement. -/
def FallsThrough : Stmt → Prop
  | .move _ _ | .special _ | .label _ | .expStmt _ | .comment _
  | .assertion _ => True
  | .attr st _ => FallsThrough st
  | _ => False

/-- The target may be the label. -/
def MayBe (target : Exp) (lab : OString) : Prop :=
  ∀ l, target = .name l → l = lab

/-- Control may go to the label. -/
def JumpsTo (lab : OString) : Stmt → Prop
  | .jmp l => MayBe l lab
  | .cjmp _ l1 l2 => MayBe l1 lab ∨ MayBe l2 lab
  | .special _ => True
  | .attr st _ => JumpsTo lab st
  | _ => False

/-- What follows from the label on, with the state of the pass there. -/
def findAt (lab : OString) : SplitState → List Stmt →
    Option (SplitState × List Stmt)
  | _, [] => none
  | σ, .label l :: rest =>
      if l = lab then some (σ, .label l :: rest) else findAt lab σ rest
  | σ, st :: rest => findAt lab (splitStmt σ st).2 rest

/-- A path through the fragment leads to the statements, with the state of the
pass there and the variables that the path has split. -/
inductive Path (σ₀ : SplitState) (frag : List Stmt) :
    SplitState → List Stmt → SplitVars → Prop
  | start : Path σ₀ frag σ₀ frag fun _ => none
  | next {σ : SplitState} {st : Stmt} {rest : List Stmt} {S : SplitVars}
      (h : Path σ₀ frag σ (st :: rest) S) (hst : FallsThrough st) :
      Path σ₀ frag (splitStmt σ st).2 rest (pairsAfter σ S st)
  | jump {σ σ' : SplitState} {st : Stmt} {rest sl : List Stmt}
      {S : SplitVars} {lab : OString} (h : Path σ₀ frag σ (st :: rest) S)
      (hst : JumpsTo lab st) (hlab : findAt lab σ₀ frag = some (σ', sl)) :
      Path σ₀ frag σ' sl S

/-- On every path, each statement finds what it needs, and the end of the
fragment only local variables split. -/
structure SplitSound (dl : List Var) (σ₀ : SplitState) (frag : List Stmt) :
    Prop where
  step {σ : SplitState} {st : Stmt} {rest : List Stmt} {S : SplitVars}
    (h : Path σ₀ frag σ (st :: rest) S) : SplitOk dl σ S st
  ends {σ : SplitState} {S : SplitVars} (h : Path σ₀ frag σ [] S) :
    LocalOnly dl S

/-! ## Values of the rewritten expressions -/

/-- The variables of the expression are older than the counter. -/
def Below (n : ℤ) (e : Exp) : Prop := ∀ v, e.Uses v → v.id < n

section Values

variable {D μ : Type} (M : Machine D μ)

/-- The value that a split definition gives. -/
def packed (x y : D) : D :=
  M.binOp .bitor
    (M.binOp .lshift (M.cast .castUnsigned .reg64 (M.cast .castLow .reg32 x))
      (M.constant (.int .reg32 32)))
    (M.cast .castUnsigned .reg64 (M.cast .castLow .reg32 y))

/-- The two halves of a 64-bit word made of two 32-bit words. -/
structure HasHalves (M : Machine D μ) : Prop where
  high (x y : D) : M.cast .castHigh .reg32 (packed M x y) =
    M.cast .castLow .reg32 x
  low (x y : D) : M.cast .castLow .reg32 (packed M x y) =
    M.cast .castLow .reg32 y

/-- The states of the two runs: the halves of a split variable are in its two
temporaries, and the other variables of the fragment are the same. -/
structure SplitRel (n : ℤ) (S : SplitVars) (s s' : State D μ) : Prop where
  plain (v : Var) (hS : S v = none) (hn : v.id < n) : s.temp v = s'.temp v
  high (v d m : Var) (hS : S v = some (d, m)) :
    M.cast .castHigh .reg32 (s.temp v) = s'.temp m
  low (v d m : Var) (hS : S v = some (d, m)) :
    M.cast .castLow .reg32 (s.temp v) = s'.temp d
  fresh (v d m : Var) (hS : S v = some (d, m)) : n ≤ d.id ∧ n ≤ m.id
  mem : s.mem = s'.mem

variable {M} {n : ℤ} {S : SplitVars} {s s' : State D μ}

theorem SplitRel.eval (h : SplitRel M n S s s') {e : Exp} (he : Plain S e)
    (hn : Below n e) : M.eval e s = M.eval e s' := by
  apply M.eval_congr
  · intro v hv
    exact h.plain v (he v hv) (hn v (uses_of_reads hv))
  · intro _
    exact h.mem

theorem SplitRel.setTemp (h : SplitRel M n S s s') {v : Var} (hv : v.id < n)
    (x : D) :
    SplitRel M n (Function.update S v none) (s.setTemp v x)
      (s'.setTemp v x) := by
  have hold : ∀ {w p}, Function.update S v none w = some p →
      w ≠ v ∧ S w = some p := by
    intro w p hp
    by_cases hwv : w = v
    · subst hwv
      rw [Function.update_self] at hp
      cases hp
    · rw [Function.update_of_ne hwv] at hp
      exact ⟨hwv, hp⟩
  have hne : ∀ {w : Var}, n ≤ w.id → w ≠ v := by
    rintro w hw rfl
    omega
  refine ⟨?_, ?_, ?_, ?_, h.mem⟩
  · intro w hw hwn
    by_cases hwv : w = v
    · subst hwv
      rw [State.setTemp_temp_self, State.setTemp_temp_self]
    · rw [Function.update_of_ne hwv] at hw
      rw [State.setTemp_temp_of_ne hwv, State.setTemp_temp_of_ne hwv]
      exact h.plain w hw hwn
  · intro w d m hw
    obtain ⟨hwv, hw⟩ := hold hw
    rw [State.setTemp_temp_of_ne hwv,
      State.setTemp_temp_of_ne (hne (h.fresh w d m hw).2)]
    exact h.high w d m hw
  · intro w d m hw
    obtain ⟨hwv, hw⟩ := hold hw
    rw [State.setTemp_temp_of_ne hwv,
      State.setTemp_temp_of_ne (hne (h.fresh w d m hw).1)]
    exact h.low w d m hw
  · intro w d m hw
    exact h.fresh w d m (hold hw).2

theorem SplitRel.setMem (h : SplitRel M n S s s') (x : μ) :
    SplitRel M n S (s.setMem x) (s'.setMem x) :=
  ⟨h.plain, h.high, h.low, h.fresh, rfl⟩

/-- By induction on the cases of `walk`: the halves that it replaces are in
the temporaries of the same split. -/
theorem SplitRel.eval_walk {vars : SplitVars} {e : Exp}
    (h : SplitRel M n S s s') (he : WalkOk vars S e) (hn : Below n e) :
    M.eval (walk vars e) s' = M.eval e s := by
  fun_induction walk vars e generalizing S s s' with
  | case1 t1 d m hv =>
    rw [WalkOk, hv] at he
    exact (h.high t1 d m he).symm
  | case2 t1 hv =>
    rw [WalkOk, hv] at he
    simp only [Machine.eval, h.plain t1 he (hn t1 (by simp))]
  | case3 t1 d m hv =>
    rw [WalkOk, hv] at he
    exact (h.low t1 d m he).symm
  | case4 t1 hv =>
    rw [WalkOk, hv] at he
    simp only [Machine.eval, h.plain t1 he (hn t1 (by simp))]
  | case5 op e1 e2 ih1 ih2 =>
    rw [WalkOk] at he
    simp only [Machine.eval, ih1 h he.1 fun v hv => hn v (by simp [hv]),
      ih2 h he.2 fun v hv => hn v (by simp [hv])]
  | case6 op e1 ih =>
    rw [WalkOk] at he
    simp only [Machine.eval, ih h he hn]
  | case7 v e1 e2 ih1 ih2 =>
    rw [WalkOk] at he
    have h1 := ih1 h he.1 fun w hw => hn w (by simp [hw])
    simp only [Machine.eval, h1]
    exact ih2 (h.setTemp (hn v (by simp)) _) he.2
      fun w hw => hn w (by simp [hw])
  | case8 v idx t e1 e2 ih1 ih2 =>
    rw [WalkOk] at he
    obtain ⟨hidx, he1, he2⟩ := he
    have h1 := ih1 h he1 fun w hw => hn w (by simp [hw])
    have hidx := h.eval hidx fun w hw => hn w (by simp [hw])
    simp only [Machine.eval, h1, hidx, h.mem]
    exact ih2 (h.setMem _) he2 fun w hw => hn w (by simp [hw])
  | case9 ce te fe ihc iht ihf =>
    rw [WalkOk] at he
    simp only [Machine.eval, ihc h he.1 fun v hv => hn v (by simp [hv]),
      iht h he.2.1 fun v hv => hn v (by simp [hv]),
      ihf h he.2.2 fun v hv => hn v (by simp [hv])]
  | case10 e hhigh hlow hbin hun hlet hletMem hite =>
    refine (h.eval ?_ hn).symm
    rw [WalkOk] at he
    · exact he
    all_goals assumption

end Values

/-! ## Positions in the fragment -/

theorem stmtLoop_cons (σ : SplitState) (st : Stmt) (rest : List Stmt) :
    stmtLoop σ (st :: rest) =
      ((splitStmt σ st).1 ++ (stmtLoop (splitStmt σ st).2 rest).1,
        (stmtLoop (splitStmt σ st).2 rest).2) := rfl

theorem stmtLoop_append (σ : SplitState) (sl sl' : List Stmt) :
    (stmtLoop σ (sl ++ sl')).2 = (stmtLoop (stmtLoop σ sl).2 sl').2 := by
  induction sl generalizing σ with
  | nil => rfl
  | cons st sl ih => exact ih _

theorem splitStmt_of_some {σ : SplitState} {st : Stmt} {dm : DivMod}
    (h : divmodOf st = some dm) :
    splitStmt σ st =
      ([.move (.temp (divVar σ dm.t1))
          (.cast .castLow .reg32 (.binOp dm.divOp dm.num dm.den)),
        .move (.temp (modVar σ dm.t1))
          (.cast .castLow .reg32 (.binOp dm.modOp dm.num dm.den))],
        { counter := σ.counter + 2
          vars := Function.update σ.vars dm.t1
            (some (divVar σ dm.t1, modVar σ dm.t1))
          newDl := divVar σ dm.t1 :: modVar σ dm.t1 :: σ.newDl }) := by
  simp only [splitStmt, h]

theorem splitStmt_snd_of_none {σ : SplitState} {st : Stmt}
    (h : divmodOf st = none) : (splitStmt σ st).2 = σ := by
  simp only [splitStmt, h]

theorem counter_le_splitStmt (σ : SplitState) (st : Stmt) :
    σ.counter ≤ (splitStmt σ st).2.counter := by
  cases h : divmodOf st with
  | none => rw [splitStmt_snd_of_none h]
  | some dm =>
    rw [splitStmt_of_some h]
    simp

theorem counter_le_stmtLoop (σ : SplitState) (sl : List Stmt) :
    σ.counter ≤ (stmtLoop σ sl).2.counter := by
  induction sl generalizing σ with
  | nil => exact le_rfl
  | cons st sl ih => exact (counter_le_splitStmt σ st).trans (ih _)

/-- The state of the pass where the statements of the fragment remain. -/
def At (σ₀ : SplitState) (frag : List Stmt) (σ : SplitState)
    (sl : List Stmt) : Prop :=
  ∃ pre, frag = pre ++ sl ∧ σ = (stmtLoop σ₀ pre).2

/-- The two temporaries were made for the variable. -/
def Owned (σ₀ : SplitState) (frag : List Stmt) (v d m : Var) : Prop :=
  ∃ σ st rest dm, At σ₀ frag σ (st :: rest) ∧ divmodOf st = some dm ∧
    v = dm.t1 ∧ d = divVar σ v ∧ m = modVar σ v

section Positions

variable {σ₀ σ σ' : SplitState} {frag rest rest' sl : List Stmt}
  {st st' : Stmt}

theorem At.next (h : At σ₀ frag σ (st :: rest)) :
    At σ₀ frag (splitStmt σ st).2 rest := by
  obtain ⟨pre, rfl, rfl⟩ := h
  refine ⟨pre ++ [st], by simp, ?_⟩
  rw [stmtLoop_append]
  rfl

theorem At.counter_le (h : At σ₀ frag σ sl) : σ₀.counter ≤ σ.counter := by
  obtain ⟨pre, -, rfl⟩ := h
  exact counter_le_stmtLoop σ₀ pre

theorem At.findAt (h : At σ₀ frag σ sl) {lab : OString}
    (hlab : findAt lab σ sl = some (σ', rest)) : At σ₀ frag σ' rest := by
  induction sl generalizing σ with
  | nil => cases hlab
  | cons st sl ih =>
    cases st with
    | label l =>
      simp only [FragSimplify.findAt] at hlab
      split_ifs at hlab
      · obtain ⟨rfl, rfl⟩ : σ = σ' ∧ _ = rest := by simpa using hlab
        exact h
      · exact ih h.next hlab
    | _ => exact ih h.next hlab

/-- Two splits at different places of the fragment use different numbers. -/
theorem At.counter_ne (h : At σ₀ frag σ (st :: rest))
    (h' : At σ₀ frag σ' (st' :: rest')) {dm dm' : DivMod}
    (hst : divmodOf st = some dm) (hst' : divmodOf st' = some dm') :
    dm = dm' ∨ σ.counter + 2 ≤ σ'.counter ∨ σ'.counter + 2 ≤ σ.counter := by
  -- a split in front of another one
  have hlt : ∀ {pre more : List Stmt} {u : Stmt} {x : DivMod},
      divmodOf u = some x → (stmtLoop σ₀ pre).2.counter + 2 ≤
        (stmtLoop σ₀ (pre ++ u :: more)).2.counter := by
    intro pre more u x hu
    rw [stmtLoop_append, stmtLoop_cons]
    refine le_trans ?_ (counter_le_stmtLoop _ more)
    rw [splitStmt_of_some hu]
  obtain ⟨pre, hpre, rfl⟩ := h
  obtain ⟨pre', hpre', rfl⟩ := h'
  rw [hpre] at hpre'
  rcases List.append_eq_append_iff.mp hpre' with
    ⟨as, rfl, has⟩ | ⟨bs, rfl, hbs⟩
  · cases as with
    | nil =>
      obtain ⟨rfl, -⟩ : st = st' ∧ rest = rest' := by simpa using has
      exact .inl (Option.some.inj (hst.symm.trans hst'))
    | cons a as =>
      obtain ⟨rfl, -⟩ : st = a ∧ _ := by simpa using has
      exact .inr (.inl (hlt hst))
  · cases bs with
    | nil =>
      obtain ⟨rfl, -⟩ : st' = st ∧ rest' = rest := by simpa using hbs
      exact .inl (Option.some.inj (hst.symm.trans hst'))
    | cons b bs =>
      obtain ⟨rfl, -⟩ : st' = b ∧ _ := by simpa using hbs
      exact .inr (.inr (hlt hst'))

theorem pairsAfterPlain_some {S : SplitVars} {v : Var} {p : Var × Var}
    (h : pairsAfterPlain S st v = some p) : S v = some p := by
  fun_induction pairsAfterPlain S st with
  | case1 w e =>
    by_cases hvw : v = w
    · subst hvw
      rw [Function.update_self] at h
      cases h
    · rwa [Function.update_of_ne hvw] at h
  | case2 st a ih => exact ih h
  | case3 st h1 h2 => exact h

/-- What a path knows: its place, and whose the temporaries are. -/
theorem Path.invariant {S : SplitVars} (h : Path σ₀ frag σ sl S) :
    At σ₀ frag σ sl ∧ ∀ v d m, S v = some (d, m) → Owned σ₀ frag v d m := by
  induction h with
  | start => exact ⟨⟨[], rfl, rfl⟩, fun v d m hv => by cases hv⟩
  | @next σ st rest S h hst ih =>
    obtain ⟨hat, howned⟩ := ih
    refine ⟨hat.next, fun v d m hv => ?_⟩
    cases hdm : divmodOf st with
    | some dm =>
      simp only [pairsAfter, hdm] at hv
      by_cases hvt : v = dm.t1
      · subst hvt
        rw [Function.update_self] at hv
        obtain ⟨rfl, rfl⟩ : _ = d ∧ _ = m := by simpa using hv
        exact ⟨σ, st, rest, dm, hat, hdm, rfl, rfl, rfl⟩
      · rw [Function.update_of_ne hvt] at hv
        exact howned v d m hv
    | none =>
      simp only [pairsAfter, hdm] at hv
      exact howned v d m (pairsAfterPlain_some hv)
  | jump h _ hlab ih =>
    refine ⟨?_, ih.2⟩
    exact At.findAt ⟨[], rfl, rfl⟩ hlab

end Positions

/-! ## Runs -/

/-- The variable occurs in the statement. -/
def OccursStmt (v : Var) : Stmt → Prop
  | .jmp l => l.Uses v
  | .cjmp e l1 l2 => e.Uses v ∨ l1.Uses v ∨ l2.Uses v
  | .move (.temp w) e => w = v ∨ e.Uses v
  | .move (.mem m idx _) e => m = v ∨ idx.Uses v ∨ e.Uses v
  | .expStmt e | .assertion e | .halt e => e.Uses v
  | .attr st _ => OccursStmt v st
  | _ => False

/-- The variables of the fragment are older than the counter. -/
def StmtBelow (n : ℤ) (st : Stmt) : Prop := ∀ v, OccursStmt v st → v.id < n

section Runs

variable {D μ : Type} {M : Machine D μ} {dl : List Var} {σ₀ : SplitState}
  {frag : List Stmt}

/-- The declared variables and the ones that the pass makes. -/
def localVars (dl : List Var) (n : ℤ) : Set Var :=
  {v | v ∈ dl ∨ n ≤ v.id}

/-- The configurations of the two runs: at a statement of the pass, between
the two halves of a split definition, or inside an attribute. -/
inductive SplitConfig (M : Machine D μ) (dl : List Var) (σ₀ : SplitState)
    (frag : List Stmt) : Config D μ → Config D μ → Prop
  | main {σ : SplitState} {S : SplitVars} {sl : List Stmt}
      {s s' : State D μ} (hpath : Path σ₀ frag σ sl S)
      (h : SplitRel M σ₀.counter S s s') :
      SplitConfig M dl σ₀ frag (sl, s) ((stmtLoop σ sl).1, s')
  | middle {σ : SplitState} {S : SplitVars} {st : Stmt} {rest : List Stmt}
      {dm : DivMod} {s s' : State D μ} (hpath : Path σ₀ frag σ (st :: rest) S)
      (hdm : divmodOf st = some dm) (h : SplitRel M σ₀.counter S s s') :
      SplitConfig M dl σ₀ frag (st :: rest, s)
        (.move (.temp (modVar σ dm.t1))
            (.cast .castLow .reg32 (.binOp dm.modOp dm.num dm.den)) ::
          (stmtLoop (splitStmt σ st).2 rest).1,
          s'.setTemp (divVar σ dm.t1)
            (M.eval (.cast .castLow .reg32 (.binOp dm.divOp dm.num dm.den))
              s'))
  | inner {σ : SplitState} {S : SplitVars} {st : Stmt} {rest : List Stmt}
      {s s' : State D μ} (hok : PlainStmt dl S st)
      (hbelow : StmtBelow σ₀.counter st)
      (hnext : FallsThrough st → Path σ₀ frag σ rest (pairsAfterPlain S st))
      (hjump : ∀ lab σ' sl, JumpsTo lab st →
        findAt lab σ₀ frag = some (σ', sl) → Path σ₀ frag σ' sl S)
      (h : SplitRel M σ₀.counter S s s') :
      SplitConfig M dl σ₀ frag (st :: rest, s)
        (st :: (stmtLoop σ rest).1, s')

theorem SplitRel.agreeOff {n : ℤ} {S : SplitVars} {s s' : State D μ}
    (h : SplitRel M n S s s') (hlocal : LocalOnly dl S) :
    s.AgreeOff (localVars dl n) s' := by
  refine ⟨fun v hv => ?_, h.mem⟩
  have hv' : v ∉ dl ∧ v.id < n := by
    simpa [localVars] using hv
  apply h.plain v _ hv'.2
  by_contra hS
  exact hv'.1 (hlocal v hS)

/-- Handlers and hooks that spare the variables of the fragment keep the
relation. -/
theorem SplitRel.of_frame {n : ℤ} {S : SplitVars} {s s' s₁ s₁' : State D μ}
    (h : SplitRel M n S s s') (hlocal : LocalOnly dl S)
    (hagree : s₁.AgreeOff (localVars dl n) s₁')
    (hs : ∀ v ∈ localVars dl n, s₁.temp v = s.temp v)
    (hs' : ∀ v ∈ localVars dl n, s₁'.temp v = s'.temp v) :
    SplitRel M n S s₁ s₁' := by
  have hmem : ∀ {v p}, S v = some p → v ∈ localVars dl n := fun hv =>
    .inl (hlocal _ (by simp [hv]))
  refine ⟨?_, ?_, ?_, h.fresh, hagree.mem⟩
  · intro v hS hn
    by_cases hv : v ∈ localVars dl n
    · rw [hs v hv, hs' v hv]
      exact h.plain v hS hn
    · exact hagree.temp v hv
  · intro v d m hv
    rw [hs v (hmem hv), hs' m (.inr (h.fresh v d m hv).2)]
    exact h.high v d m hv
  · intro v d m hv
    rw [hs v (hmem hv), hs' d (.inr (h.fresh v d m hv).1)]
    exact h.low v d m hv

theorem mayBe_evalLabelExp (e : Exp) (s : State D μ) :
    MayBe e (M.evalLabelExp e s) := by
  rintro l rfl
  rfl

/-- A label is found at the same place in both fragments. -/
theorem findAt_spec (lab : OString) (σ : SplitState) (sl : List Stmt) :
    (findLabel lab sl = none ∧ findLabel lab (stmtLoop σ sl).1 = none) ∨
      ∃ σ' rest, findAt lab σ sl = some (σ', rest) ∧
        findLabel lab sl = some rest ∧
        findLabel lab (stmtLoop σ sl).1 = some (stmtLoop σ' rest).1 := by
  induction sl generalizing σ with
  | nil => exact .inl ⟨rfl, rfl⟩
  | cons st sl ih =>
    rw [stmtLoop_cons]
    cases hdm : divmodOf st with
    | some dm =>
      have ih := ih (splitStmt σ st).2
      have hfind : findLabel lab ((splitStmt σ st).1 ++
          (stmtLoop (splitStmt σ st).2 sl).1) =
          findLabel lab (stmtLoop (splitStmt σ st).2 sl).1 := by
        rw [splitStmt_of_some hdm]
        rfl
      rw [hfind]
      cases st with
      | move lv e => exact ih
      | _ => cases hdm
    | none =>
      have ih := ih (splitStmt σ st).2
      cases st with
      | label l =>
        simp only [findLabel, findAt, splitStmt, walkStmt, hdm,
          List.singleton_append]
        split_ifs
        · exact .inr ⟨σ, _, rfl, rfl, rfl⟩
        · exact ih
      | move lv e =>
        simp only [findAt, splitStmt, walkStmt, hdm] at ih ⊢
        exact ih
      | _ => exact ih

theorem SplitConfig.jump {lab : OString} {S : SplitVars}
    (hjump : ∀ σ' sl,
      findAt lab σ₀ frag = some (σ', sl) → Path σ₀ frag σ' sl S)
    {s s' : State D μ} (h : SplitRel M σ₀.counter S s s')
    (hlocal : LocalOnly dl S) :
    NextRel (SplitConfig M dl σ₀ frag)
      (Result.AgreeOff (localVars dl σ₀.counter)) (M.jump frag lab s)
      (M.jump (stmtLoop σ₀ frag).1 lab s') := by
  unfold Machine.jump
  split_ifs
  · rcases findAt_spec lab σ₀ frag with ⟨h1, h2⟩ | ⟨σ', rest, h0, h1, h2⟩
    · rw [h1, h2]
      exact .stop (.finished (h.agreeOff hlocal))
    · rw [h1, h2]
      exact .go (.main (hjump σ' rest h0) h)
  · exact .stop (.finished (h.agreeOff hlocal))

/-- A statement that the pass leaves alone. -/
theorem SplitConfig.step_plain
    (hM : M.Spares (localVars dl σ₀.counter)) {σ : SplitState}
    {S : SplitVars} {st : Stmt} {rest : List Stmt} {s s' : State D μ}
    (hok : PlainStmt dl S st) (hbelow : StmtBelow σ₀.counter st)
    (hnext : FallsThrough st → Path σ₀ frag σ rest (pairsAfterPlain S st))
    (hjump : ∀ lab σ' sl, JumpsTo lab st →
      findAt lab σ₀ frag = some (σ', sl) → Path σ₀ frag σ' sl S)
    (h : SplitRel M σ₀.counter S s s') :
    NextRel (SplitConfig M dl σ₀ frag)
      (Result.AgreeOff (localVars dl σ₀.counter))
      (M.step frag (st :: rest, s))
      (M.step (stmtLoop σ₀ frag).1 (st :: (stmtLoop σ rest).1, s')) := by
  cases st with
  | jmp l =>
    obtain ⟨hl, hlocal⟩ := hok
    have heval : M.evalLabelExp l s = M.evalLabelExp l s' := by
      rw [M.evalLabelExp_eq, M.evalLabelExp_eq, h.eval hl hbelow]
    have hmay := mayBe_evalLabelExp (M := M) l s
    simp only [Machine.step, ← heval]
    exact SplitConfig.jump (fun σ' sl => hjump _ σ' sl hmay) h hlocal
  | cjmp e l1 l2 =>
    obtain ⟨he, hl1, hl2, hlocal⟩ := hok
    have heval := h.eval he fun v hv => hbelow v (.inl hv)
    have heval1 : M.evalLabelExp l1 s = M.evalLabelExp l1 s' := by
      rw [M.evalLabelExp_eq, M.evalLabelExp_eq,
        h.eval hl1 fun v hv => hbelow v (.inr (.inl hv))]
    have heval2 : M.evalLabelExp l2 s = M.evalLabelExp l2 s' := by
      rw [M.evalLabelExp_eq, M.evalLabelExp_eq,
        h.eval hl2 fun v hv => hbelow v (.inr (.inr hv))]
    have hmay1 := mayBe_evalLabelExp (M := M) l1 s
    have hmay2 := mayBe_evalLabelExp (M := M) l2 s
    simp only [Machine.step, ← heval, ← heval1, ← heval2]
    split_ifs
    · exact SplitConfig.jump (fun σ' sl => hjump _ σ' sl (.inl hmay1)) h hlocal
    · exact SplitConfig.jump (fun σ' sl => hjump _ σ' sl (.inr hmay2)) h hlocal
  | move lv e =>
    cases lv with
    | temp w =>
      have heval := h.eval hok fun v hv => hbelow v (.inr hv)
      simp only [Machine.step, Machine.assign, ← heval]
      exact .go (.main (hnext trivial) (h.setTemp (hbelow w (.inl rfl)) _))
    | mem m idx t =>
      have hidx := h.eval hok.1 fun v hv => hbelow v (.inr (.inl hv))
      have heval := h.eval hok.2 fun v hv => hbelow v (.inr (.inr hv))
      simp only [Machine.step, Machine.assign, ← heval, ← hidx, ← h.mem]
      exact .go (.main (hnext trivial) (h.setMem _))
  | special str =>
    have hspecial := @hM.special_agree str s s' (h.agreeOff hok)
    simp only [Machine.step]
    cases hs : M.handleSpecial str s with
    | continues s₁ =>
      rw [hs] at hspecial
      generalize hs' : M.handleSpecial str s' = x' at hspecial
      cases hspecial with
      | continues h₁ =>
        exact .go (.main (hnext trivial) (h.of_frame hok h₁
          (fun v hv => hM.continues_temp hs hv)
          (fun v hv => hM.continues_temp hs' hv)))
    | jumps lab s₁ =>
      rw [hs] at hspecial
      generalize hs' : M.handleSpecial str s' = x' at hspecial
      cases hspecial with
      | jumps h₁ =>
        exact SplitConfig.jump (fun σ' sl => hjump lab σ' sl trivial)
          (h.of_frame hok h₁ (fun v hv => hM.jumps_temp hs hv)
            (fun v hv => hM.jumps_temp hs' hv)) hok
    | fails =>
      rw [hs] at hspecial
      generalize M.handleSpecial str s' = x' at hspecial
      cases hspecial with
      | fails => exact .stop .failed
  | label l =>
    exact .go (.main (hnext trivial) (h.of_frame hok
      (hM.label_agree (h.agreeOff hok)) (fun v hv => hM.label_temp hv)
      (fun v hv => hM.label_temp hv)))
  | expStmt e => exact .go (.main (hnext trivial) h)
  | comment str => exact .go (.main (hnext trivial) h)
  | attr st a => exact .go (.inner hok hbelow hnext hjump h)
  | assertion e =>
    have heval := h.eval hok hbelow
    simp only [Machine.step, ← heval]
    split_ifs
    · exact .go (.main (hnext trivial) h)
    · exact .stop .failed
  | halt e =>
    have heval := h.eval hok.1 hbelow
    simp only [Machine.step, ← heval]
    exact .stop (.finished (h.agreeOff hok.2))
  | _ => exact .stop .failed

/-- The second half of a split definition is done: the original has its
64-bit value, the result its two halves. -/
theorem SplitRel.split (hM : HasHalves M) {σ : SplitState} {S : SplitVars}
    {st : Stmt} {rest : List Stmt} {dm : DivMod}
    (hpath : Path σ₀ frag σ (st :: rest) S) (hdm : divmodOf st = some dm)
    {s s' : State D μ} (h : SplitRel M σ₀.counter S s s') (x y : D) :
    SplitRel M σ₀.counter (pairsAfter σ S st) (s.setTemp dm.t1 (packed M x y))
      ((s'.setTemp (divVar σ dm.t1) (M.cast .castLow .reg32 y)).setTemp
        (modVar σ dm.t1) (M.cast .castLow .reg32 x)) := by
  obtain ⟨hat, howned⟩ := hpath.invariant
  have hcounter := hat.counter_le
  have hne : modVar σ dm.t1 ≠ divVar σ dm.t1 := by
    intro heq
    have hid : σ.counter + 1 = σ.counter := congrArg Var.id heq
    omega
  -- the temporaries of the other variables have other numbers
  have hother : ∀ {v d m}, S v = some (d, m) → v ≠ dm.t1 →
      (d ≠ divVar σ dm.t1 ∧ d ≠ modVar σ dm.t1) ∧
        m ≠ divVar σ dm.t1 ∧ m ≠ modVar σ dm.t1 := by
    intro v d m hv hvt
    obtain ⟨σ', st', rest', dm', hat', hdm', rfl, rfl, rfl⟩ := howned v d m hv
    have hids := (hat.counter_ne hat' hdm hdm').resolve_left
      fun heq => hvt (congrArg DivMod.t1 heq).symm
    refine ⟨⟨?_, ?_⟩, ?_, ?_⟩ <;> intro heq <;>
      have hid := congrArg Var.id heq <;>
      simp only [divVar, modVar] at hid <;> omega
  have hcases : ∀ {v p}, pairsAfter σ S st v = p →
      (v = dm.t1 ∧ p = some (divVar σ dm.t1, modVar σ dm.t1)) ∨
        (v ≠ dm.t1 ∧ S v = p) := by
    intro v p hv
    simp only [pairsAfter, hdm] at hv
    by_cases hvt : v = dm.t1
    · subst hvt
      rw [Function.update_self] at hv
      exact .inl ⟨rfl, hv.symm⟩
    · rw [Function.update_of_ne hvt] at hv
      exact .inr ⟨hvt, hv⟩
  refine ⟨?_, ?_, ?_, ?_, h.mem⟩
  · intro v hv hn
    rcases hcases hv with ⟨-, hv⟩ | ⟨hvt, hv⟩
    · cases hv
    · have hd : v ≠ divVar σ dm.t1 := by
        rintro rfl
        simp only [divVar] at hn
        omega
      have hm : v ≠ modVar σ dm.t1 := by
        rintro rfl
        simp only [modVar] at hn
        omega
      rw [State.setTemp_temp_of_ne hvt, State.setTemp_temp_of_ne hm,
        State.setTemp_temp_of_ne hd]
      exact h.plain v hv hn
  · intro v d m hv
    rcases hcases hv with ⟨rfl, hp⟩ | ⟨hvt, hv⟩
    · obtain ⟨rfl, rfl⟩ : d = _ ∧ m = _ := by simpa using hp
      rw [State.setTemp_temp_self, State.setTemp_temp_self]
      exact hM.high x y
    · obtain ⟨-, hmd, hmm⟩ := hother hv hvt
      rw [State.setTemp_temp_of_ne hvt, State.setTemp_temp_of_ne hmm,
        State.setTemp_temp_of_ne hmd]
      exact h.high v d m hv
  · intro v d m hv
    rcases hcases hv with ⟨rfl, hp⟩ | ⟨hvt, hv⟩
    · obtain ⟨rfl, rfl⟩ : d = _ ∧ m = _ := by simpa using hp
      rw [State.setTemp_temp_self, State.setTemp_temp_of_ne hne.symm,
        State.setTemp_temp_self]
      exact hM.low x y
    · obtain ⟨⟨hdd, hdm'⟩, -⟩ := hother hv hvt
      rw [State.setTemp_temp_of_ne hvt, State.setTemp_temp_of_ne hdm',
        State.setTemp_temp_of_ne hdd]
      exact h.low v d m hv
  · intro v d m hv
    rcases hcases hv with ⟨rfl, hp⟩ | ⟨hvt, hv⟩
    · obtain ⟨rfl, rfl⟩ : d = _ ∧ m = _ := by simpa using hp
      simp only [divVar, modVar]
      omega
    · exact h.fresh v d m hv

/-- What the patterns match. -/
theorem divmodOf_eq_some {st : Stmt} {dm : DivMod}
    (h : divmodOf st = some dm) :
    st = .move (.temp dm.t1)
      (.binOp .bitor
        (.binOp .lshift
          (.cast .castUnsigned .reg64
            (.cast .castLow .reg32 (.binOp dm.modOp dm.num dm.den)))
          (.int .reg32 32))
        (.cast .castUnsigned .reg64
          (.cast .castLow .reg32 (.binOp dm.divOp dm.num dm.den)))) := by
  unfold divmodOf at h
  split at h
  · split_ifs at h with hguard
    obtain ⟨-, rfl, -, rfl, rfl⟩ := hguard
    obtain rfl := Option.some.inj h
    rfl
  · cases h

theorem SplitConfig.simulates (hM : M.Spares (localVars dl σ₀.counter))
    (hhalves : HasHalves M)
    (hbelow : ∀ st ∈ frag, StmtBelow σ₀.counter st)
    (hsound : SplitSound dl σ₀ frag) :
    Simulates (M.step frag) (M.step (stmtLoop σ₀ frag).1)
      (SplitConfig M dl σ₀ frag)
      (Result.AgreeOff (localVars dl σ₀.counter)) Config.left Config.left := by
  have hmem : ∀ {σ st rest S}, Path σ₀ frag σ (st :: rest) S →
      StmtBelow σ₀.counter st := by
    intro σ st rest S hpath
    obtain ⟨⟨pre, hpre, -⟩, -⟩ := hpath.invariant
    apply hbelow
    rw [hpre]
    simp
  intro c c' hrel
  cases hrel with
  | @main σ S sl s s' hpath h =>
    cases sl with
    | nil => exact .both (.stop (.finished (h.agreeOff (hsound.ends hpath))))
    | cons st rest =>
      have hok := hsound.step hpath
      have hst := hmem hpath
      cases hdm : divmodOf st with
      | some dm =>
        -- the result makes the definition of the quotient alone
        rw [stmtLoop_cons]
        refine .right _ ?_ (.middle hpath hdm h) ?_
        · rw [splitStmt_of_some hdm]
          rfl
        · rw [splitStmt_of_some hdm]
          simp [Config.left]
      | none =>
        have hσ := splitStmt_snd_of_none (σ := σ) hdm
        have hpairs : pairsAfter σ S st = pairsAfterPlain S st := by
          simp only [pairsAfter, hdm]
        have hnext : FallsThrough st →
            Path σ₀ frag σ rest (pairsAfterPlain S st) := by
          intro hfalls
          have hp := hpath.next hfalls
          rwa [hσ, hpairs] at hp
        have hloop : stmtLoop σ (st :: rest) =
            ((splitStmt σ st).1 ++ (stmtLoop σ rest).1,
              (stmtLoop σ rest).2) := by
          rw [stmtLoop_cons, hσ]
        simp only [SplitOk, hdm] at hok
        have hwalk : (splitStmt σ st).1 = [walkStmt σ.vars st] := by
          simp only [splitStmt, hdm]
        have hplain : PlainStmt dl S st →
            NextRel (SplitConfig M dl σ₀ frag)
              (Result.AgreeOff (localVars dl σ₀.counter))
              (M.step frag (st :: rest, s))
              (M.step (stmtLoop σ₀ frag).1 (st :: (stmtLoop σ rest).1, s')) :=
          fun hp => SplitConfig.step_plain hM hp hst hnext
            (fun lab σ' sl hj hf => hpath.jump hj hf) h
        rw [hloop, hwalk, List.singleton_append]
        apply Matched.both
        cases st with
        | move lv rhs =>
          cases lv with
          | temp w =>
            have heval := h.eval_walk hok fun v hv => hst v (.inr hv)
            simp only [walkStmt, Machine.step, Machine.assign, heval]
            exact .go (.main (hnext trivial)
              (h.setTemp (hst w (.inl rfl)) _))
          | mem m idx t =>
            have hidx := h.eval hok.1 fun v hv => hst v (.inr (.inl hv))
            have heval := h.eval_walk hok.2 fun v hv => hst v (.inr (.inr hv))
            simp only [walkStmt, Machine.step, Machine.assign, heval, ← hidx,
              ← h.mem]
            exact .go (.main (hnext trivial) (h.setMem _))
        | expStmt e => exact .go (.main (hnext trivial) h)
        | assertion e =>
          have heval := h.eval_walk hok hst
          simp only [walkStmt, Machine.step, heval]
          split_ifs
          · exact .go (.main (hnext trivial) h)
          · exact .stop .failed
        | _ => exact hplain hok
  | @middle σ S st rest dm s s' hpath hdm h =>
    have hok := hsound.step hpath
    have hst := hmem hpath
    have hcounter := hpath.invariant.1.counter_le
    simp only [SplitOk, hdm] at hok
    have heq := divmodOf_eq_some hdm
    have hnumlt : Below σ₀.counter dm.num := by
      intro v hv
      apply hst v
      rw [heq]
      simp [OccursStmt, hv]
    have hdenlt : Below σ₀.counter dm.den := by
      intro v hv
      apply hst v
      rw [heq]
      simp [OccursStmt, hv]
    have hnum := h.eval hok.1 hnumlt
    have hden := h.eval hok.2 hdenlt
    have hfresh : ∀ {e}, Below σ₀.counter e →
        ¬Reads (divVar σ dm.t1) e := by
      intro e he hr
      have hid := he _ (uses_of_reads hr)
      simp only [divVar] at hid
      omega
    have hfalls : FallsThrough st := by
      rw [heq]
      trivial
    have hrel := SplitRel.split hhalves hpath hdm h
      (M.binOp dm.modOp (M.eval dm.num s) (M.eval dm.den s))
      (M.binOp dm.divOp (M.eval dm.num s) (M.eval dm.den s))
    apply Matched.both
    have hstep : M.step frag (st :: rest, s) = .go (rest, s.setTemp dm.t1
        (packed M (M.binOp dm.modOp (M.eval dm.num s) (M.eval dm.den s))
          (M.binOp dm.divOp (M.eval dm.num s) (M.eval dm.den s)))) := by
      rw [heq]
      rfl
    rw [hstep]
    simp only [Machine.step, Machine.assign, Machine.eval,
      M.eval_setTemp (hfresh hnumlt), M.eval_setTemp (hfresh hdenlt),
      ← hnum, ← hden]
    exact .go (.main (hpath.next hfalls) hrel)
  | @inner σ S st rest s s' hok hst hnext hjump h =>
    exact .both (SplitConfig.step_plain hM hok hst hnext hjump h)

end Runs

/-- The 32-bit halves of a word. -/
theorem hasHalves_wordMachine {μ : Type} [VineMemory μ]
    (handle : OString → State Val μ → Handled Val μ) :
    HasHalves (wordMachine handle) := by
  have hpack : ∀ x y : Val, packed (wordMachine handle) x y =
      .word 64
        ((x.bits 32).setWidth 64 <<< 32 ||| (y.bits 32).setWidth 64) := by
    intro x y
    simp only [packed, wordMachine, Val.binOp, Val.cast, Val.width,
      Typ.width, Val.bits_word]
    simp
    rfl
  constructor
  · intro x y
    rw [hpack]
    simp only [wordMachine, Val.cast, Val.bits_word, Val.width, Typ.width]
    generalize x.bits 32 = a
    generalize y.bits 32 = b
    have hhigh : Bits.high 32 ((a.setWidth 64 <<< 32 ||| b.setWidth 64)
        |>.setWidth 64) = a := by
      ext i hi
      have h1 : 32 + i < 64 := by omega
      have h2 : i < 64 := by omega
      simp [Bits.high, h1, h2, BitVec.getLsbD_eq_getElem hi]
    rw [hhigh]
  · intro x y
    rw [hpack]
    simp only [wordMachine, Val.cast, Val.bits_word, Typ.width]
    generalize x.bits 32 = a
    generalize y.bits 32 = b
    have hlow : (a.setWidth 64 <<< 32 ||| b.setWidth 64).setWidth 32 = b := by
      ext i hi
      simp
    rw [hlow]

/-- A temporary of 64 bits. -/
def tempT1 : Var := ⟨1, OString.ofAscii "T1", .reg64⟩

/-- The definition of `T1` from the division of `R_EAX` by `R_EBX`. -/
def divmodDefinition : Stmt :=
  .move (.temp tempT1)
    (.binOp .bitor
      (.binOp .lshift
        (.cast .castUnsigned .reg64 (.cast .castLow .reg32
          (.binOp .mod (.temp regEax) (.temp regEbx))))
        (.int .reg32 32))
      (.cast .castUnsigned .reg64 (.cast .castLow .reg32
        (.binOp .divide (.temp regEax) (.temp regEbx)))))

theorem spares_wordMachine_fails {μ : Type} [VineMemory μ] (A : Set Var) :
    (wordMachine (μ := μ) fun _ _ => .fails).Spares A where
  special_agree _ := .fails
  label_agree h := h
  continues_temp h := by cases h
  jumps_temp h := by cases h
  label_temp _ := rfl

/-- The division, and its quotient moved to a register. -/
def movedQuotient : List Stmt :=
  [divmodDefinition,
    .move (.temp regEax) (.cast .castLow .reg32 (.temp tempT1))]

theorem splitSound_movedQuotient :
    SplitSound [tempT1] ⟨200, fun _ => none, []⟩ movedQuotient := by
  -- the path goes through the two statements
  have hpaths : ∀ {σ sl S},
      Path ⟨200, fun _ => none, []⟩ movedQuotient σ sl S →
      (sl = movedQuotient ∧ σ.vars = (fun _ => none) ∧ S = fun _ => none) ∨
        (sl = movedQuotient.tail ∧ S = σ.vars ∧
          ∀ v, S v ≠ none → v ∈ [tempT1]) ∨
        (sl = [] ∧ ∀ v, S v ≠ none → v ∈ [tempT1]) := by
    intro σ sl S h
    have hlocal : ∀ {p : Var × Var} {v},
        Function.update (fun _ => none) tempT1 (some p) v ≠ none →
        v ∈ [tempT1] := by
      intro p v hv
      by_contra hne
      rw [Function.update_of_ne (by simpa using hne)] at hv
      exact hv rfl
    induction h with
    | start => exact .inl ⟨rfl, rfl, rfl⟩
    | @next σ st rest S h hst ih =>
      rcases ih with ⟨heq, hvars, rfl⟩ | ⟨heq, rfl, hS⟩ | ⟨heq, -⟩
      · obtain ⟨rfl, rfl⟩ := List.cons.inj heq
        refine .inr (.inl ⟨rfl, ?_, fun v hv => hlocal hv⟩)
        exact congrArg (fun S : SplitVars => Function.update S tempT1
          (some (divVar σ tempT1, modVar σ tempT1))) hvars.symm
      · obtain ⟨rfl, rfl⟩ := List.cons.inj heq
        refine .inr (.inr ⟨rfl, fun v hv => hS v ?_⟩)
        intro hnone
        apply hv
        simp only [pairsAfter, divmodOf, pairsAfterPlain]
        by_cases hvw : v = regEax
        · subst hvw
          exact Function.update_self ..
        · rw [Function.update_of_ne hvw, hnone]
      · cases heq
    | @jump σ σ' st rest sl S lab h hst hlab ih =>
      rcases ih with ⟨heq, -⟩ | ⟨heq, -⟩ | ⟨heq, -⟩
      · obtain ⟨rfl, -⟩ := List.cons.inj heq
        exact hst.elim
      · obtain ⟨rfl, -⟩ := List.cons.inj heq
        exact hst.elim
      · cases heq
  constructor
  · intro σ st rest S h
    rcases hpaths h with ⟨heq, -, rfl⟩ | ⟨heq, rfl, -⟩ | ⟨heq, -⟩
    · obtain ⟨rfl, -⟩ := List.cons.inj heq
      exact ⟨fun _ _ => rfl, fun _ _ => rfl⟩
    · obtain ⟨rfl, -⟩ := List.cons.inj heq
      rfl
    · cases heq
  · intro σ S h
    rcases hpaths h with ⟨heq, -⟩ | ⟨heq, -⟩ | ⟨-, hS⟩
    · cases heq
    · cases heq
    · exact hS

/-- 7 and 2 are in the registers. -/
def sevenAndTwo : State Val Unit :=
  ⟨fun v => if v = regEax then .word 32 7 else
    if v = regEbx then .word 32 2 else .word 64 0, ()⟩

/-- A register of 64 bits. -/
def regRdx : Var := ⟨102, OString.ofAscii "R_RDX", .reg64⟩

/-- The division, and its remainder widened to a register of 64 bits. -/
def widenedRemainder : List Stmt :=
  [divmodDefinition,
    .move (.temp regRdx)
      (.cast .castUnsigned .reg64 (.cast .castHigh .reg32 (.temp tempT1)))]

end Fuzzball.FragSimplify
