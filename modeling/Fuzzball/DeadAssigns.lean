import Fuzzball.FragmentWords

/-!
# Removing dead assignments

`rm_dead_assigns` of `frag_simplify.ml` goes backwards through a fragment with
the set of the variables that are assigned again before they are used.  Jumps
and labels empty the set; special statements and halts do not.
-/

namespace Fuzzball.FragSimplify

open Vine Fragment Simulation

/-- `Hashtbl.remove` -/
def removeVar (hash : List Var) (v : Var) : List Var :=
  hash.filter fun w => decide (w ≠ v)

/-- `rm_set_used_e` -/
def rmSetUsedE (hash : List Var) : Exp → List Var
  | .binOp _ e1 e2 => rmSetUsedE (rmSetUsedE hash e1) e2
  | .fbinOp _ _ e1 e2 => rmSetUsedE (rmSetUsedE hash e1) e2
  | .unOp _ e => rmSetUsedE hash e
  | .funOp _ _ e => rmSetUsedE hash e
  | .cast _ _ e => rmSetUsedE hash e
  | .fcast _ _ _ e => rmSetUsedE hash e
  | .temp v => removeVar hash v
  | .mem v e _ => rmSetUsedE (removeVar hash v) e
  | .letTemp v e1 e2 => rmSetUsedE (rmSetUsedE (removeVar hash v) e1) e2
  | .letMem v e _ e1 e2 =>
      rmSetUsedE (rmSetUsedE (rmSetUsedE (removeVar hash v) e) e1) e2
  | .ite ce te fe => rmSetUsedE (rmSetUsedE (rmSetUsedE hash ce) te) fe
  | .unknown _ | .name _ | .constant _ => hash

mutual

/-- One statement in `loop` of `rm_dead_assigns`: what it becomes, and the set
`dead` before it from the one after it. -/
def deadStmt (dead : List Var) : Stmt → OCaml (Option Stmt × List Var)
  | .move (.temp lhsV) rhs =>
      if lhsV ∈ dead then pure (none, dead)
      else
        pure (some (.move (.temp lhsV) rhs), rmSetUsedE (lhsV :: dead) rhs)
  | .move (.mem m addrE t) rhs =>
      pure (some (.move (.mem m addrE t) rhs),
        rmSetUsedE (rmSetUsedE dead addrE) rhs)
  | .jmp l => pure (some (.jmp l), [])
  | .cjmp e l1 l2 => pure (some (.cjmp e l1 l2), [])
  | .label l => pure (some (.label l), [])
  | .expStmt e => pure (some (.expStmt e), rmSetUsedE dead e)
  | .assertion e => pure (some (.assertion e), rmSetUsedE dead e)
  | .halt e => pure (some (.halt e), rmSetUsedE dead e)
  | .block dl1 sl1 => do
      let (sl1', dead') ← deadLoop dead sl1
      pure (some (.block dl1 sl1'), dead')
  | .special str => pure (some (.special str), dead)
  | .comment str => pure (some (.comment str), dead)
  | _ => throw (.failure "Unhandled stmt type in rm_dead_assigns")

/-- `loop` of `rm_dead_assigns`.  It runs over the reversed list, so the rest
of the list comes first. -/
def deadLoop (dead : List Var) : List Stmt → OCaml (List Stmt × List Var)
  | [] => pure ([], dead)
  | st :: rest => do
      let (rest', dead') ← deadLoop dead rest
      let (st', dead'') ← deadStmt dead' st
      pure (st'.toList ++ rest', dead'')

end

def rmDeadAssigns (dl : List Var) (sl : List Stmt) :
    OCaml (List Var × List Stmt) := do
  let (sl', _) ← deadLoop [] sl
  pure (dl, sl')

/-! ## The set of dead variables -/

theorem mem_removeVar {hash : List Var} {v w : Var} :
    w ∈ removeVar hash v ↔ w ∈ hash ∧ w ≠ v := by
  simp [removeVar]

theorem mem_rmSetUsedE {hash : List Var} {e : Exp} {v : Var} :
    v ∈ rmSetUsedE hash e ↔ v ∈ hash ∧ ¬e.Uses v := by
  induction e generalizing hash with
  | binOp op e1 e2 ih1 ih2 => rw [rmSetUsedE, ih2, ih1]; simp; tauto
  | fbinOp op rm e1 e2 ih1 ih2 => rw [rmSetUsedE, ih2, ih1]; simp; tauto
  | unOp op e ih => exact ih
  | funOp op rm e ih => exact ih
  | cast ct t e ih => exact ih
  | fcast ct rm t e ih => exact ih
  | constant c => simp [rmSetUsedE]
  | name l => simp [rmSetUsedE]
  | unknown str => simp [rmSetUsedE]
  | temp w => rw [rmSetUsedE, mem_removeVar, Exp.uses_temp, ne_comm]
  | mem w e t ih => rw [rmSetUsedE, ih, mem_removeVar]; simp; tauto
  | letTemp w e1 e2 ih1 ih2 =>
    rw [rmSetUsedE, ih2, ih1, mem_removeVar]; simp; tauto
  | letMem w e t e1 e2 ih ih1 ih2 =>
    rw [rmSetUsedE, ih2, ih1, ih, mem_removeVar]; simp; tauto
  | ite ce te fe ihc iht ihf => rw [rmSetUsedE, ihf, iht, ihc]; simp; tauto

/-! ## Blocks in line -/

mutual

/-- The statements of a statement, those of a block in its place. -/
def flattenStmt : Stmt → List Stmt
  | .block _ sl => flatten sl
  | st => [st]

/-- The statements of a fragment, those of the blocks in their place. -/
def flatten : List Stmt → List Stmt
  | [] => []
  | st :: rest => flattenStmt st ++ flatten rest

end

theorem deadLoop_cons {dead : List Var} {st : Stmt} {rest : List Stmt}
    {r : List Stmt × List Var} :
    deadLoop dead (st :: rest) = .ok r ↔
      ∃ rest' dead' st', deadLoop dead rest = .ok (rest', dead') ∧
        deadStmt dead' st = .ok (st', r.2) ∧ r.1 = st'.toList ++ rest' := by
  obtain ⟨sl', d⟩ := r
  simp only [deadLoop, OCaml.bind_eq_ok_iff, OCaml.pure_eq_ok_iff, Prod.exists,
    Prod.mk.injEq]
  constructor
  · rintro ⟨rest', dead', hrest, st', d', hst, rfl, rfl⟩
    exact ⟨rest', dead', st', hrest, hst, rfl⟩
  · rintro ⟨rest', dead', st', hrest, hst, rfl⟩
    exact ⟨rest', dead', hrest, st', d, hst, rfl, rfl⟩

theorem deadLoop_append (dead : List Var) (sl sl' : List Stmt) :
    deadLoop dead (sl ++ sl') = (do
      let (r', dead') ← deadLoop dead sl'
      let (r, dead'') ← deadLoop dead' sl
      pure (r ++ r', dead'')) := by
  induction sl with
  | nil =>
    cases h : deadLoop dead sl' with
    | error x => simp [h, bind, Except.bind]
    | ok p => simp [h, deadLoop, bind, Except.bind, pure, Except.pure]
  | cons st sl ih =>
    rw [List.cons_append, deadLoop, ih]
    cases h : deadLoop dead sl' with
    | error x => rfl
    | ok p =>
      simp only [OCaml.ok_bind]
      rw [deadLoop]
      cases h1 : deadLoop p.2 sl with
      | error x => rfl
      | ok q =>
        simp only [OCaml.ok_bind, OCaml.pure_bind_eq]
        cases h2 : deadStmt q.2 st with
        | error x => rfl
        | ok u =>
          simp only [OCaml.ok_bind, OCaml.pure_bind_eq, List.append_assoc]

@[simp] theorem flatten_nil : flatten [] = [] := rfl

@[simp] theorem flatten_cons (st : Stmt) (sl : List Stmt) :
    flatten (st :: sl) = flattenStmt st ++ flatten sl := rfl

theorem flatten_append (sl sl' : List Stmt) :
    flatten (sl ++ sl') = flatten sl ++ flatten sl' := by
  induction sl with
  | nil => rfl
  | cons st sl ih => simp [ih]

/-- A single statement in the loop. -/
theorem deadLoop_single (dead : List Var) (st : Stmt) :
    deadLoop dead [st] =
      (fun p => (p.1.toList, p.2)) <$> deadStmt dead st := by
  rw [deadLoop, deadLoop, OCaml.pure_bind_eq]
  cases h : deadStmt dead st with
  | error x => simp only [h]; rfl
  | ok p => simp only [h, OCaml.ok_bind, List.append_nil]; rfl

/-- What the flattening does to the result of the loop. -/
def flattenFst (p : List Stmt × List Var) : List Stmt × List Var :=
  (flatten p.1, p.2)

mutual

theorem deadLoop_flattenStmt (dead : List Var) (st : Stmt) :
    deadLoop dead (flattenStmt st) =
      (fun p => (flatten p.1.toList, p.2)) <$> deadStmt dead st := by
  cases st with
  | block dl sl =>
    rw [flattenStmt, deadLoop_flatten dead sl, deadStmt]
    cases h : deadLoop dead sl with
    | error x => rfl
    | ok p => simp [flattenFst, flattenStmt, Functor.map, Except.map, pure,
        Except.pure]
  | move lv e =>
    rw [flattenStmt, deadLoop_single]
    cases lv with
    | temp v =>
      simp only [deadStmt]
      split_ifs <;> rfl
    | mem m idx t => rfl
    · simp
  | _ =>
    rw [flattenStmt, deadLoop_single]
    · rfl
    · simp

/-- The pass and the flattening of blocks commute. -/
theorem deadLoop_flatten (dead : List Var) (sl : List Stmt) :
    deadLoop dead (flatten sl) = flattenFst <$> deadLoop dead sl := by
  cases sl with
  | nil => rfl
  | cons st sl =>
    rw [flatten_cons, deadLoop_append, deadLoop_flatten dead sl, deadLoop]
    cases h : deadLoop dead sl with
    | error x => rfl
    | ok p =>
      simp only [OCaml.ok_bind, Functor.map, Except.map, flattenFst]
      rw [deadLoop_flattenStmt p.2 st]
      cases h' : deadStmt p.2 st with
      | error x => rfl
      | ok q => simp [flatten_append, Functor.map, Except.map, pure,
          Except.pure, bind, Except.bind]

end

/-- The kinds of statement that the pass has a case for. -/
def Handles : Stmt → Prop
  | .function _ _ _ _ _ | .ret _ | .call _ _ _ | .attr _ _ => False
  | _ => True

/-- Not a block. -/
def IsFlat : Stmt → Prop
  | .block _ _ => False
  | _ => True

mutual

theorem isFlat_of_mem_flattenStmt (st : Stmt) :
    ∀ st' ∈ flattenStmt st, IsFlat st' := by
  cases st with
  | block dl sl => exact isFlat_of_mem_flatten sl
  | _ =>
    intro st' hst'
    rw [flattenStmt] at hst'
    · rw [List.mem_singleton.mp hst']
      trivial
    · simp

theorem isFlat_of_mem_flatten (sl : List Stmt) :
    ∀ st ∈ flatten sl, IsFlat st := by
  cases sl with
  | nil => simp
  | cons st sl =>
    intro st' hst'
    rcases List.mem_append.mp hst' with hst' | hst'
    · exact isFlat_of_mem_flattenStmt st st' hst'
    · exact isFlat_of_mem_flatten sl st' hst'

end

/-! ## Overwritten variables -/

/-- The variable is assigned again before a statement that stays uses it, and
before a jump or a label.  When `quiet` is set, special statements and halts
use every variable. -/
def Overwritten (quiet : Bool) : List Stmt → Var → Prop
  | .move (.temp w) e :: rest, v =>
      (Overwritten quiet rest w ∧ Overwritten quiet rest v) ∨
        (¬Overwritten quiet rest w ∧ (v = w ∨ Overwritten quiet rest v) ∧
          ¬e.Uses v)
  | .move (.mem _ idx _) e :: rest, v =>
      Overwritten quiet rest v ∧ ¬idx.Uses v ∧ ¬e.Uses v
  | .expStmt e :: rest, v | .assertion e :: rest, v =>
      Overwritten quiet rest v ∧ ¬e.Uses v
  | .halt e :: rest, v =>
      quiet = false ∧ Overwritten quiet rest v ∧ ¬e.Uses v
  | .special _ :: rest, v => quiet = false ∧ Overwritten quiet rest v
  | .comment _ :: rest, v => Overwritten quiet rest v
  | _, _ => False

/-- What the pass does on a fragment without blocks. -/
theorem mem_deadLoop {sl sl' : List Stmt} {d : List Var}
    (hflat : ∀ st ∈ sl, IsFlat st) (h : deadLoop [] sl = .ok (sl', d))
    (v : Var) : v ∈ d ↔ Overwritten false sl v := by
  induction sl generalizing sl' d v with
  | nil =>
    obtain ⟨rfl, rfl⟩ : [] = sl' ∧ [] = d := by simpa [deadLoop] using h
    simp [Overwritten]
  | cons st sl ih =>
    obtain ⟨rest', d₁, st', hrest, hst, -⟩ := deadLoop_cons.mp h
    have hrec := fun w =>
      ih (fun st hst => hflat st (List.mem_cons_of_mem _ hst)) hrest w
    cases st with
    | move lv e =>
      cases lv with
      | temp w =>
        simp only [deadStmt] at hst
        split_ifs at hst with hw
        · obtain ⟨-, rfl⟩ : none = st' ∧ d₁ = d := by simpa using hst
          have hw' := (hrec w).mp hw
          simp [Overwritten, hw', hrec]
        · obtain ⟨-, rfl⟩ : some _ = st' ∧ rmSetUsedE (w :: d₁) e = d := by
            simpa using hst
          have hw' := (hrec w).not.mp hw
          simp [Overwritten, hw', mem_rmSetUsedE, hrec]
      | mem m idx t =>
        obtain ⟨-, rfl⟩ : some _ = st' ∧
            rmSetUsedE (rmSetUsedE d₁ idx) e = d := by
          simpa [deadStmt] using hst
        simp [Overwritten, mem_rmSetUsedE, hrec, and_assoc]
    | expStmt e =>
      obtain ⟨-, rfl⟩ : some _ = st' ∧ rmSetUsedE d₁ e = d := by
        simpa [deadStmt] using hst
      simp [Overwritten, mem_rmSetUsedE, hrec]
    | assertion e =>
      obtain ⟨-, rfl⟩ : some _ = st' ∧ rmSetUsedE d₁ e = d := by
        simpa [deadStmt] using hst
      simp [Overwritten, mem_rmSetUsedE, hrec]
    | halt e =>
      obtain ⟨-, rfl⟩ : some _ = st' ∧ rmSetUsedE d₁ e = d := by
        simpa [deadStmt] using hst
      simp [Overwritten, mem_rmSetUsedE, hrec]
    | special str =>
      obtain ⟨-, rfl⟩ : some _ = st' ∧ d₁ = d := by
        simpa [deadStmt] using hst
      simp [Overwritten, hrec]
    | comment str =>
      obtain ⟨-, rfl⟩ : some _ = st' ∧ d₁ = d := by
        simpa [deadStmt] using hst
      simp [Overwritten, hrec]
    | jmp l =>
      obtain ⟨-, rfl⟩ : some _ = st' ∧ [] = d := by
        simpa [deadStmt] using hst
      simp [Overwritten]
    | cjmp e l1 l2 =>
      obtain ⟨-, rfl⟩ : some _ = st' ∧ [] = d := by
        simpa [deadStmt] using hst
      simp [Overwritten]
    | label l =>
      obtain ⟨-, rfl⟩ : some _ = st' ∧ [] = d := by
        simpa [deadStmt] using hst
      simp [Overwritten]
    | block dl sl => exact (hflat _ List.mem_cons_self).elim
    | _ => simp [deadStmt] at hst

theorem mem_deadLoop_flatten {sl sl' : List Stmt} {d : List Var}
    (h : deadLoop [] sl = .ok (sl', d)) (v : Var) :
    v ∈ d ↔ Overwritten false (flatten sl) v := by
  apply mem_deadLoop (isFlat_of_mem_flatten sl)
  rw [deadLoop_flatten, h]
  rfl

/-- Counting more uses makes fewer variables overwritten. -/
theorem Overwritten.of_quiet {sl : List Stmt} {v : Var}
    (h : Overwritten true sl v) : Overwritten false sl v := by
  induction sl generalizing v with
  | nil => exact h.elim
  | cons st sl ih =>
    cases st with
    | move lv e =>
      cases lv with
      | temp w =>
        rcases h with ⟨hw, hv⟩ | ⟨-, hv, huse⟩
        · exact .inl ⟨ih hw, ih hv⟩
        · by_cases hw : Overwritten false sl w
          · refine .inl ⟨hw, ?_⟩
            rcases hv with rfl | hv
            · exact hw
            · exact ih hv
          · exact .inr ⟨hw, hv.imp id ih, huse⟩
      | mem m idx t => exact ⟨ih h.1, h.2⟩
    | expStmt e => exact ⟨ih h.1, h.2⟩
    | assertion e => exact ⟨ih h.1, h.2⟩
    | halt e => exact absurd h.1 (by decide)
    | special str => exact absurd h.1 (by decide)
    | comment str => exact ih h
    | _ => exact h.elim

/-- Every assignment that the pass takes for dead is overwritten also when
special statements and halts use every variable. -/
def QuietlyOverwritten (sl : List Stmt) : Prop :=
  ∀ pre v e post, flatten sl = pre ++ .move (.temp v) e :: post →
    Overwritten false post v → Overwritten true post v

/-! ## Observable assignments -/

/-- The statement may look at the whole state, or at the end of the fragment
control leaves it with the whole state. -/
def LooksAtAll : Stmt → Prop
  | .jmp _ | .cjmp _ _ _ | .label _ | .special _ | .halt _ => True
  | _ => False

/-- The value that the variable has now is looked at by one of the statements,
a special statement among them, or is there at the end. -/
def Observed (v : Var) : List Stmt → Prop
  | [] => True
  | st :: rest =>
      LooksAtAll st ∨ ReadsStmt v st ∨
        ((∀ e, st ≠ .move (.temp v) e) ∧ Observed v rest)

/-- No assignment that the pass removes is observable in the code that is
left. -/
def NeverObserved (sl : List Stmt) : Prop :=
  ∀ pre v e post, flatten sl = pre ++ .move (.temp v) e :: post →
    ∀ post' dead, deadLoop [] post = .ok (post', dead) → v ∈ dead →
      ¬Observed v post'

/-- The pass returns when it has a case for every statement. -/
theorem deadLoop_ok_iff {sl : List Stmt} (hflat : ∀ st ∈ sl, IsFlat st) :
    (∃ r, deadLoop [] sl = .ok r) ↔ ∀ st ∈ sl, Handles st := by
  induction sl with
  | nil => simp [deadLoop, pure, Except.pure]
  | cons st sl ih =>
    have ih := ih fun st hst => hflat st (List.mem_cons_of_mem _ hst)
    have hst : ∀ d, (∃ q, deadStmt d st = .ok q) ↔ Handles st := by
      intro d
      cases st with
      | move lv e =>
        cases lv with
        | temp v =>
          simp only [deadStmt, Handles, iff_true]
          split_ifs <;> exact ⟨_, rfl⟩
        | mem m idx t => simp [deadStmt, Handles]
      | block dl sl => exact (hflat _ List.mem_cons_self).elim
      | _ => simp [deadStmt, Handles]
    rw [List.forall_mem_cons, ← ih]
    constructor
    · rintro ⟨r, hr⟩
      obtain ⟨rest', d, st', hrest, hst', -⟩ := deadLoop_cons.mp hr
      exact ⟨(hst d).mp ⟨_, hst'⟩, ⟨_, hrest⟩⟩
    · rintro ⟨hhandles, ⟨rest', d⟩, hrest⟩
      obtain ⟨⟨st', d'⟩, hst'⟩ := (hst d).mpr hhandles
      exact ⟨(_, d'), deadLoop_cons.mpr ⟨rest', d, st', hrest, hst', rfl⟩⟩

theorem not_observed_cons {v : Var} {st : Stmt} {rest : List Stmt} :
    ¬Observed v (st :: rest) ↔
      ¬LooksAtAll st ∧ ¬ReadsStmt v st ∧
        ((∀ e, st ≠ .move (.temp v) e) → ¬Observed v rest) := by
  rw [Observed]
  tauto

/-- By induction on the statements: a dead variable whose value no statement
that is left observes is overwritten before one could. -/
theorem overwritten_of_not_observed {sl sl' : List Stmt} {d : List Var}
    (hflat : ∀ st ∈ sl, IsFlat st)
    (hinner : ∀ pre w e post, sl = pre ++ .move (.temp w) e :: post →
      Overwritten false post w → Overwritten true post w)
    (h : deadLoop [] sl = .ok (sl', d)) {v : Var} (hv : v ∈ d)
    (hobs : ¬Observed v sl') : Overwritten true sl v := by
  induction sl generalizing sl' d with
  | nil =>
    obtain ⟨rfl, rfl⟩ : [] = sl' ∧ [] = d := by simpa [deadLoop] using h
    cases hv
  | cons st sl ih =>
    have hflat' : ∀ st ∈ sl, IsFlat st := fun st hst =>
      hflat st (List.mem_cons_of_mem _ hst)
    obtain ⟨rest', d₁, st', hrest, hst, hsl'⟩ := deadLoop_cons.mp h
    have hinner' : ∀ pre w e post, sl = pre ++ .move (.temp w) e :: post →
        Overwritten false post w → Overwritten true post w := by
      rintro pre w e post rfl
      exact hinner (st :: pre) w e post rfl
    have ih := fun hv hobs => ih hflat' hinner' hrest hv hobs
    simp only at hst hsl'
    cases st with
    | move lv e =>
      cases lv with
      | temp w =>
        have hw := mem_deadLoop hflat' hrest w
        simp only [deadStmt] at hst
        split_ifs at hst with hmem
        · obtain ⟨rfl, rfl⟩ : none = st' ∧ d₁ = d := by simpa using hst
          rw [hsl', Option.toList_none, List.nil_append] at hobs
          exact .inl ⟨hinner [] w e sl rfl (hw.mp hmem), ih hv hobs⟩
        · obtain ⟨rfl, rfl⟩ : some _ = st' ∧ rmSetUsedE (w :: d₁) e = d := by
            simpa using hst
          obtain ⟨hv, huse⟩ := mem_rmSetUsedE.mp hv
          refine .inr ⟨fun hq => hmem (hw.mpr hq.of_quiet), ?_, huse⟩
          rw [hsl', Option.toList_some, List.singleton_append,
            not_observed_cons] at hobs
          rcases eq_or_ne v w with rfl | hne
          · exact .inl rfl
          · refine .inr (ih ((List.mem_cons.mp hv).resolve_left hne) ?_)
            apply hobs.2.2
            intro e' heq
            injection heq with hlv _
            injection hlv with hwv
            exact hne hwv.symm
      | mem m idx t =>
        obtain ⟨rfl, rfl⟩ : some _ = st' ∧
            rmSetUsedE (rmSetUsedE d₁ idx) e = d := by
          simpa [deadStmt] using hst
        rw [mem_rmSetUsedE, mem_rmSetUsedE] at hv
        rw [hsl', Option.toList_some, List.singleton_append,
          not_observed_cons] at hobs
        exact ⟨ih hv.1.1 (hobs.2.2 (by simp)), hv.1.2, hv.2⟩
    | expStmt e =>
      obtain ⟨rfl, rfl⟩ : some _ = st' ∧ rmSetUsedE d₁ e = d := by
        simpa [deadStmt] using hst
      rw [mem_rmSetUsedE] at hv
      rw [hsl', Option.toList_some, List.singleton_append,
        not_observed_cons] at hobs
      exact ⟨ih hv.1 (hobs.2.2 (by simp)), hv.2⟩
    | assertion e =>
      obtain ⟨rfl, rfl⟩ : some _ = st' ∧ rmSetUsedE d₁ e = d := by
        simpa [deadStmt] using hst
      rw [mem_rmSetUsedE] at hv
      rw [hsl', Option.toList_some, List.singleton_append,
        not_observed_cons] at hobs
      exact ⟨ih hv.1 (hobs.2.2 (by simp)), hv.2⟩
    | comment str =>
      obtain ⟨rfl, rfl⟩ : some _ = st' ∧ d₁ = d := by
        simpa [deadStmt] using hst
      rw [hsl', Option.toList_some, List.singleton_append,
        not_observed_cons] at hobs
      exact ih hv (hobs.2.2 (by simp))
    | halt e =>
      obtain ⟨rfl, -⟩ : some _ = st' ∧ rmSetUsedE d₁ e = d := by
        simpa [deadStmt] using hst
      exact absurd (.inl trivial) (hsl' ▸ hobs)
    | special str =>
      obtain ⟨rfl, -⟩ : some _ = st' ∧ d₁ = d := by
        simpa [deadStmt] using hst
      exact absurd (.inl trivial) (hsl' ▸ hobs)
    | jmp l =>
      obtain ⟨-, rfl⟩ : some _ = st' ∧ [] = d := by
        simpa [deadStmt] using hst
      cases hv
    | cjmp e l1 l2 =>
      obtain ⟨-, rfl⟩ : some _ = st' ∧ [] = d := by
        simpa [deadStmt] using hst
      cases hv
    | label l =>
      obtain ⟨-, rfl⟩ : some _ = st' ∧ [] = d := by
        simpa [deadStmt] using hst
      cases hv
    | block dl sl => exact (hflat _ List.mem_cons_self).elim
    | _ => simp [deadStmt] at hst

/-- An overwritten variable is observed by no statement that is left. -/
theorem not_observed_of_overwritten {sl sl' : List Stmt} {d : List Var}
    (hflat : ∀ st ∈ sl, IsFlat st)
    (hinner : ∀ pre w e post, sl = pre ++ .move (.temp w) e :: post →
      Overwritten false post w → Overwritten true post w)
    (h : deadLoop [] sl = .ok (sl', d)) {v : Var}
    (hv : Overwritten true sl v) : ¬Observed v sl' := by
  induction sl generalizing sl' d with
  | nil => exact hv.elim
  | cons st sl ih =>
    have hflat' : ∀ st ∈ sl, IsFlat st := fun st hst =>
      hflat st (List.mem_cons_of_mem _ hst)
    obtain ⟨rest', d₁, st', hrest, hst, hsl'⟩ := deadLoop_cons.mp h
    have hinner' : ∀ pre w e post, sl = pre ++ .move (.temp w) e :: post →
        Overwritten false post w → Overwritten true post w := by
      rintro pre w e post rfl
      exact hinner (st :: pre) w e post rfl
    have ih := fun hv => ih hflat' hinner' hrest hv
    simp only at hst hsl'
    rw [hsl']
    cases st with
    | move lv e =>
      cases lv with
      | temp w =>
        have hw := mem_deadLoop hflat' hrest w
        simp only [deadStmt] at hst
        split_ifs at hst with hmem
        · obtain ⟨rfl, rfl⟩ : none = st' ∧ d₁ = d := by simpa using hst
          have hq := hinner [] w e sl rfl (hw.mp hmem)
          rcases hv with ⟨-, hv⟩ | ⟨hnot, -⟩
          · exact ih hv
          · exact absurd hq hnot
        · obtain ⟨rfl, rfl⟩ : some _ = st' ∧ rmSetUsedE (w :: d₁) e = d := by
            simpa using hst
          rw [Option.toList_some, List.singleton_append, not_observed_cons]
          rcases hv with ⟨hq, -⟩ | ⟨-, hv, huse⟩
          · exact absurd (hw.mpr hq.of_quiet) hmem
          · refine ⟨id, fun hr => huse (uses_of_reads (hr.resolve_left id)),
              fun hne => ?_⟩
            rcases hv with rfl | hv
            · exact absurd rfl (hne e)
            · exact ih hv
      | mem m idx t =>
        obtain ⟨rfl, -⟩ : some _ = st' ∧
            rmSetUsedE (rmSetUsedE d₁ idx) e = d := by
          simpa [deadStmt] using hst
        rw [Option.toList_some, List.singleton_append, not_observed_cons]
        refine ⟨id, ?_, fun _ => ih hv.1⟩
        rintro (hr | hr)
        · exact hv.2.1 (uses_of_reads hr)
        · exact hv.2.2 (uses_of_reads hr)
    | expStmt e =>
      obtain ⟨rfl, -⟩ : some _ = st' ∧ rmSetUsedE d₁ e = d := by
        simpa [deadStmt] using hst
      rw [Option.toList_some, List.singleton_append, not_observed_cons]
      exact ⟨id, fun hr => hv.2 (uses_of_reads hr), fun _ => ih hv.1⟩
    | assertion e =>
      obtain ⟨rfl, -⟩ : some _ = st' ∧ rmSetUsedE d₁ e = d := by
        simpa [deadStmt] using hst
      rw [Option.toList_some, List.singleton_append, not_observed_cons]
      exact ⟨id, fun hr => hv.2 (uses_of_reads hr), fun _ => ih hv.1⟩
    | comment str =>
      obtain ⟨rfl, -⟩ : some _ = st' ∧ d₁ = d := by
        simpa [deadStmt] using hst
      rw [Option.toList_some, List.singleton_append, not_observed_cons]
      exact ⟨id, id, fun _ => ih hv⟩
    | halt e => exact absurd hv.1 (by decide)
    | special str => exact absurd hv.1 (by decide)
    | _ => exact hv.elim

/-- The pass returns and no assignment that it removes is observable, exactly
when it has a case for every statement and no removed assignment is followed
by a special statement or a halt before it is overwritten. -/
theorem neverObserved_iff (sl : List Stmt) :
    ((∃ r, deadLoop [] sl = .ok r) ∧ NeverObserved sl) ↔
      (∀ st ∈ flatten sl, Handles st) ∧ QuietlyOverwritten sl := by
  have hflat := isFlat_of_mem_flatten sl
  have hok : (∃ r, deadLoop [] sl = .ok r) ↔
      ∀ st ∈ flatten sl, Handles st := by
    rw [← deadLoop_ok_iff hflat, deadLoop_flatten]
    cases h : deadLoop [] sl with
    | error x => simp [Functor.map, Except.map]
    | ok p => simp [Functor.map, Except.map]
  rw [hok]
  apply and_congr_right
  intro hhandles
  -- the statements after a move of the fragment
  have hpost : ∀ {pre v e post}, flatten sl = pre ++ .move (.temp v) e :: post →
      (∀ st ∈ post, IsFlat st) ∧ ∃ r, deadLoop [] post = .ok r := by
    intro pre v e post heq
    have hmem : ∀ st ∈ post, st ∈ flatten sl := by
      intro st hst
      rw [heq]
      simp [hst]
    have hpost : ∀ st ∈ post, IsFlat st := fun st hst => hflat st (hmem st hst)
    exact ⟨hpost, (deadLoop_ok_iff hpost).mpr fun st hst =>
      hhandles st (hmem st hst)⟩
  constructor
  · intro hnever pre v e post
    induction hn : post.length using Nat.strongRecOn generalizing pre v e post with
    | ind n ih =>
      intro heq hover
      obtain ⟨hpflat, ⟨post', d⟩, hr⟩ := hpost heq
      have hv := (mem_deadLoop hpflat hr v).mpr hover
      apply overwritten_of_not_observed hpflat _ hr hv
        (hnever pre v e post heq post' d hr hv)
      rintro pre' w e' post₂ rfl
      apply ih post₂.length _ (pre ++ .move (.temp v) e :: pre') w e' post₂ rfl
      · rw [heq]
        simp
      · rw [← hn]
        simp
        omega
  · intro hquiet pre v e post heq post' d hr hv
    obtain ⟨hpflat, -⟩ := hpost heq
    apply not_observed_of_overwritten hpflat _ hr
      (hquiet pre v e post heq ((mem_deadLoop hpflat hr v).mp hv))
    rintro pre' w e' post₂ rfl
    apply hquiet (pre ++ .move (.temp v) e :: pre') w e' post₂
    rw [heq]
    simp

/-! ## Runs -/

section Runs

variable {D μ : Type}

/-- The variables in which the two runs may differ. -/
def overwrittenSet (sl : List Stmt) : Set Var :=
  {v | Overwritten true (flatten sl) v}

/-- The configurations of the two runs. -/
structure DeadConfig (c c' : Config D μ) : Prop where
  quiet : QuietlyOverwritten c.1
  result : ∃ d, deadLoop [] c.1 = .ok (c'.1, d)
  agree : c.2.AgreeOff (overwrittenSet c.1) c'.2

theorem QuietlyOverwritten.tail {st : Stmt} {sl : List Stmt}
    (h : QuietlyOverwritten (st :: sl)) : QuietlyOverwritten sl := by
  intro pre v e post heq
  apply h (flattenStmt st ++ pre) v e post
  rw [flatten_cons, heq, List.append_assoc]

theorem overwrittenSet_eq_empty {st : Stmt} {sl : List Stmt}
    (hst : LooksAtAll st) : overwrittenSet (st :: sl) = ∅ := by
  ext v
  simp only [overwrittenSet, Set.mem_ofPred_eq, Set.mem_empty_iff_false,
    iff_false]
  cases st <;> first
    | exact hst.elim
    | simp [flattenStmt, Overwritten]

theorem DeadConfig.findLabel {sl sl' : List Stmt} {d : List Var}
    (hquiet : QuietlyOverwritten sl) (h : deadLoop [] sl = .ok (sl', d))
    (lab : OString) (s : State D μ) :
    Option.Rel (fun sl sl' => DeadConfig (sl, s) (sl', s))
      (Fragment.findLabel lab sl) (Fragment.findLabel lab sl') := by
  induction sl generalizing sl' d with
  | nil =>
    obtain ⟨rfl, -⟩ : [] = sl' ∧ [] = d := by simpa [deadLoop] using h
    exact .none
  | cons st sl ih =>
    obtain ⟨rest', d₁, st', hrest, hst, hsl'⟩ := deadLoop_cons.mp h
    have ih := ih hquiet.tail hrest
    simp only at hst hsl'
    subst hsl'
    cases st with
    | label l =>
      obtain ⟨rfl, -⟩ : some _ = st' ∧ [] = d := by
        simpa [deadStmt] using hst
      rw [Option.toList_some, List.singleton_append]
      simp only [Fragment.findLabel]
      split_ifs
      · exact .some ⟨hquiet, ⟨d, h⟩, State.AgreeOff.refl _ s⟩
      · exact ih
    | move lv e =>
      cases lv with
      | temp v =>
        simp only [deadStmt] at hst
        split_ifs at hst with hv
        · obtain ⟨rfl, -⟩ : none = st' ∧ d₁ = d := by simpa using hst
          exact ih
        · obtain ⟨rfl, -⟩ : some _ = st' ∧ rmSetUsedE (v :: d₁) e = d := by
            simpa using hst
          exact ih
      | mem m idx t =>
        obtain ⟨rfl, -⟩ : some _ = st' ∧
            rmSetUsedE (rmSetUsedE d₁ idx) e = d := by
          simpa [deadStmt] using hst
        exact ih
    | block dl body =>
      simp only [deadStmt, OCaml.bind_eq_ok_iff, OCaml.pure_eq_ok_iff,
        Prod.exists, Prod.mk.injEq] at hst
      obtain ⟨body', d₂, -, rfl, -⟩ := hst
      exact ih
    | function l t args ext body => simp [deadStmt] at hst
    | ret e => simp [deadStmt] at hst
    | call lhs callee args => simp [deadStmt] at hst
    | attr st a => simp [deadStmt] at hst
    | _ =>
      simp only [deadStmt, OCaml.pure_eq_ok_iff, Prod.mk.injEq] at hst
      obtain ⟨rfl, -⟩ := hst
      exact ih

/-- A statement that may look at the whole state runs in equal states. -/
theorem DeadConfig.step_all {M : Machine D μ} {frag frag' : List Stmt}
    {d : List Var} (hfrag : QuietlyOverwritten frag)
    (hres : deadLoop [] frag = .ok (frag', d)) {st : Stmt}
    (hst : LooksAtAll st) {rest rest' : List Stmt} {s s' : State D μ}
    (hquiet : QuietlyOverwritten rest)
    (hrest : ∃ d, deadLoop [] rest = .ok (rest', d))
    (h : s.AgreeOff (overwrittenSet (st :: rest)) s') :
    NextRel DeadConfig (Result.AgreeOff ∅) (M.step frag (st :: rest, s))
      (M.step frag' (st :: rest', s')) := by
  rw [overwrittenSet_eq_empty hst] at h
  apply Machine.step_rel M.spares_empty _ h
  · intro s₁ s₁' h₁
    exact ⟨hquiet, hrest, h₁.mono fun v hv => hv.elim⟩
  · rintro st' a rfl
    exact hst.elim
  · intro lab s₁ s₁' h₁
    rw [h₁.eq]
    exact DeadConfig.findLabel hfrag hres lab s₁'
  · intro v hv
    exact hv.elim

theorem DeadConfig.simulates (M : Machine D μ) {frag frag' : List Stmt}
    {d : List Var} (hfrag : QuietlyOverwritten frag)
    (hres : deadLoop [] frag = .ok (frag', d)) :
    Simulates (M.step frag) (M.step frag') DeadConfig (Result.AgreeOff ∅)
      Config.left Config.left := by
  rintro ⟨sl, s⟩ ⟨sl', s'⟩ ⟨hquiet, ⟨d₂, h⟩, hagree⟩
  cases sl with
  | nil =>
    obtain ⟨rfl, -⟩ : [] = sl' ∧ [] = d₂ := by simpa [deadLoop] using h
    refine .both (.stop (.finished (hagree.mono ?_)))
    intro v hv
    exact hv.elim
  | cons st rest =>
    obtain ⟨rest', d₁, st', hrest, hst, hsl'⟩ := deadLoop_cons.mp h
    have hdead := mem_deadLoop_flatten hrest
    simp only at hst hsl' hagree hquiet
    subst hsl'
    have hall : LooksAtAll st → st' = some st →
        Matched (M.step frag) (M.step frag') DeadConfig (Result.AgreeOff ∅)
          Config.left Config.left (st :: rest, s)
          (st'.toList ++ rest', s') := by
      rintro hlook rfl
      exact .both (DeadConfig.step_all hfrag hres hlook hquiet.tail
        ⟨d₁, hrest⟩ hagree)
    cases st with
    | move lv e =>
      cases lv with
      | temp w =>
        simp only [deadStmt] at hst
        split_ifs at hst with hw
        · -- the assignment is gone: only the first machine makes a step
          obtain ⟨rfl, -⟩ : none = st' ∧ d₁ = d₂ := by simpa using hst
          have hq : Overwritten true (flatten rest) w :=
            hquiet [] w e (flatten rest) rfl ((hdead w).mp hw)
          refine .left _ rfl ⟨hquiet.tail, ⟨d₁, hrest⟩, ?_⟩
            (Nat.lt_succ_self _)
          apply State.AgreeOff.setTemp_left _ hq
          apply hagree.mono
          rintro v (⟨-, hv⟩ | ⟨hnot, -⟩)
          · exact hv
          · exact absurd hq hnot
        · obtain ⟨rfl, -⟩ : some _ = st' ∧ rmSetUsedE (w :: d₁) e = d₂ := by
            simpa using hst
          have hnot : ¬Overwritten true (flatten rest) w :=
            fun hq => hw ((hdead w).mpr hq.of_quiet)
          have heval : M.eval e s = M.eval e s' := by
            apply hagree.eval M
            rintro v (⟨hq, -⟩ | ⟨-, -, huse⟩) hr
            · exact hnot hq
            · exact huse (uses_of_reads hr)
          refine .both (.go ⟨hquiet.tail, ⟨d₁, hrest⟩, ?_⟩)
          simp only [Machine.assign, heval]
          apply hagree.setTemp_mono
          rintro v (⟨hq, -⟩ | ⟨-, hv, -⟩) hvw
          · exact absurd hq hnot
          · exact hv.resolve_left hvw
      | mem m idx t =>
        obtain ⟨rfl, -⟩ : some _ = st' ∧
            rmSetUsedE (rmSetUsedE d₁ idx) e = d₂ := by
          simpa [deadStmt] using hst
        have hidx : M.eval idx s = M.eval idx s' :=
          hagree.eval M fun v hv hr => hv.2.1 (uses_of_reads hr)
        have heval : M.eval e s = M.eval e s' :=
          hagree.eval M fun v hv hr => hv.2.2 (uses_of_reads hr)
        refine .both (.go ⟨hquiet.tail, ⟨d₁, hrest⟩, ?_⟩)
        simp only [Machine.assign, hidx, heval, hagree.mem]
        exact (hagree.mono fun v hv => hv.1).setMem _
    | expStmt e =>
      obtain ⟨rfl, -⟩ : some _ = st' ∧ rmSetUsedE d₁ e = d₂ := by
        simpa [deadStmt] using hst
      exact .both (.go ⟨hquiet.tail, ⟨d₁, hrest⟩,
        hagree.mono fun v hv => hv.1⟩)
    | assertion e =>
      obtain ⟨rfl, -⟩ : some _ = st' ∧ rmSetUsedE d₁ e = d₂ := by
        simpa [deadStmt] using hst
      have heval : M.eval e s = M.eval e s' :=
        hagree.eval M fun v hv hr => hv.2 (uses_of_reads hr)
      apply Matched.both
      rw [Option.toList_some, List.singleton_append]
      simp only [Machine.step, heval]
      split_ifs
      · exact .go ⟨hquiet.tail, ⟨d₁, hrest⟩, hagree.mono fun v hv => hv.1⟩
      · exact .stop .failed
    | comment str =>
      obtain ⟨rfl, -⟩ : some _ = st' ∧ d₁ = d₂ := by
        simpa [deadStmt] using hst
      exact .both (.go ⟨hquiet.tail, ⟨d₁, hrest⟩, hagree⟩)
    | block dl body =>
      simp only [deadStmt, OCaml.bind_eq_ok_iff, OCaml.pure_eq_ok_iff,
        Prod.exists, Prod.mk.injEq] at hst
      obtain ⟨body', d₃, -, rfl, -⟩ := hst
      exact .both (.stop .failed)
    | function l t args ext body => simp [deadStmt] at hst
    | ret e => simp [deadStmt] at hst
    | call lhs callee args => simp [deadStmt] at hst
    | attr st a => simp [deadStmt] at hst
    | _ =>
      simp only [deadStmt, OCaml.pure_eq_ok_iff, Prod.mk.injEq] at hst
      exact hall trivial hst.1.symm

end Runs

/-- The result of the pass runs like the fragment, in every state. -/
def DeadRunsAlike (dl : List Var) (sl : List Stmt) : Prop :=
  ∀ dl' sl', rmDeadAssigns dl sl = .ok (dl', sl') → dl' = dl ∧
    ∀ (D μ : Type) (M : Machine D μ) (s : State D μ), M.SameRuns ∅ sl sl' s

theorem deadRunsAlike {sl : List Stmt} (h : QuietlyOverwritten sl)
    (dl : List Var) : DeadRunsAlike dl sl := by
  intro dl' sl' hres
  simp only [rmDeadAssigns, OCaml.bind_eq_ok_iff, OCaml.pure_eq_ok_iff,
    Prod.exists, Prod.mk.injEq] at hres
  obtain ⟨sl₁, d, hloop, rfl, rfl⟩ := hres
  refine ⟨rfl, fun D μ M s => ?_⟩
  exact Machine.sameRuns_of_simulates (DeadConfig.simulates M h hloop)
    ⟨h, ⟨d, hloop⟩, State.AgreeOff.refl _ s⟩

/-- `R_EAX := 1; special int 0x80; R_EAX := 2` -/
def assignAcrossSpecial : List Stmt :=
  [.move (.temp regEax) (.int .reg32 1),
    .special (OString.ofAscii "int 0x80"),
    .move (.temp regEax) (.int .reg32 2)]

/-- Memory that holds the number of the last system call. -/
instance : VineMemory I64 where
  load m _ _ := m
  store _ _ _ v := v

/-- Handlers that note `R_EAX`, as a system call does. -/
def notesEax (_ : OString) (s : State Val I64) : Handled Val I64 :=
  .continues (s.setMem ((s.temp regEax).bits 64))

end Fuzzball.FragSimplify
