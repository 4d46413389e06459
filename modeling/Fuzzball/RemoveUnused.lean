import Fuzzball.FragmentRuns

/-!
# Removing unused temporaries

`count_temp_uses` and `rm_unused_vars` of `frag_simplify.ml`.  The counter
looks at the kinds of statement that VEX blocks are made of and counts nothing
in the others.
-/

namespace Fuzzball.FragSimplify

open Vine Fragment Simulation

/-- What `count_uses_sl` counts in one statement. -/
def countUsesStmt (var : Var) : Stmt → ℕ
  | .cjmp e1 l1 l2 =>
      countUsesE var e1 + countUsesE var l1 + countUsesE var l2
  | .jmp lab => countUsesE var lab
  | .move (.temp var1) e =>
      if var1 = var then countUsesE var e
      else countUsesLv var (.temp var1) + countUsesE var e
  | .move lval e => countUsesLv var lval + countUsesE var e
  | .expStmt e => countUsesE var e
  | .assertion e => countUsesE var e
  | _ => 0

/-- `count_uses_sl` -/
def countUsesSl (sl : List Stmt) (var : Var) : ℕ :=
  (sl.map (countUsesStmt var)).foldl (· + ·) 0

def countTempUses (dl : List Var) (sl : List Stmt) : List ℕ :=
  dl.map (countUsesSl sl)

/-- `rm_defs` -/
def rmDefs (var : Var) (sl : List Stmt) : List Stmt :=
  sl.filter fun st =>
    match st with
    | .move (.temp v) _ => decide (v ≠ var)
    | _ => true

/-- `partition2` -/
def partition2 {α β : Type} (pred : β → Bool) :
    List α → List β → OCaml (List α × List α)
  | item :: r1, obj :: r2 => do
    let (rt, rf) ← partition2 pred r1 r2
    if pred obj then pure (item :: rt, rf) else pure (rt, item :: rf)
  | [], [] => pure ([], [])
  | _, _ => throw (.failure "Mismatched lengths in partition2")

def rmUnusedVars (dl : List Var) (sl : List Stmt) :
    OCaml (List Var × List Stmt) := do
  let uses := countTempUses dl sl
  let (dl', toRm) ← partition2 (fun n => n ≠ 0) dl uses
  let sl' := toRm.foldr rmDefs sl
  pure (dl', sl')

/-! ## What is kept -/

/-- The kinds of statement that the counter passes over although they hold
expressions. -/
def Uncounted : Stmt → Prop
  | .block _ _ | .function _ _ _ _ _ | .ret _ | .call _ _ _ | .attr _ _
  | .halt _ => True
  | _ => False

/-- The statement is a move that defines the variable. -/
def isDef (v : Var) : Stmt → Bool
  | .move (.temp w) _ => decide (w = v)
  | _ => false

/-- The temporary is still declared and its defining moves are all there. -/
def Kept (v : Var) (sl : List Stmt) (dl' : List Var) (sl' : List Stmt) :
    Prop :=
  v ∈ dl' ∧ sl'.filter (isDef v) = sl.filter (isDef v)

/-! ## What the two passes over the fragment compute -/

theorem countUsesSl_eq_zero_iff {sl : List Stmt} {v : Var} :
    countUsesSl sl v = 0 ↔ ∀ st ∈ sl, countUsesStmt v st = 0 := by
  rw [countUsesSl, ← List.sum_eq_foldl, List.sum_eq_zero_iff]
  simp

theorem partition2_map {α β : Type} (pred : β → Bool) (f : α → β)
    (l : List α) :
    partition2 pred l (l.map f) =
      .ok (l.filter (fun a => pred (f a)),
        l.filter (fun a => !pred (f a))) := by
  induction l with
  | nil => rfl
  | cons a l ih =>
    rw [List.map_cons, partition2, ih]
    cases h : pred (f a) <;> simp [h, pure, Except.pure]

theorem foldr_rmDefs (toRm : List Var) (sl : List Stmt) :
    toRm.foldr rmDefs sl =
      sl.filter fun st => !toRm.any fun v => isDef v st := by
  induction toRm with
  | nil => simp
  | cons v toRm ih =>
    rw [List.foldr_cons, ih, rmDefs, List.filter_filter]
    apply List.filter_congr
    intro st _
    cases st with
    | move lv e =>
      cases lv <;> simp [isDef, eq_comm]
    | _ => simp [isDef]

/-- The declarations that stay. -/
def keptDecls (dl : List Var) (sl : List Stmt) : List Var :=
  dl.filter fun v => decide (countUsesSl sl v ≠ 0)

/-- The declarations that go. -/
def unusedDecls (dl : List Var) (sl : List Stmt) : List Var :=
  dl.filter fun v => !decide (countUsesSl sl v ≠ 0)

/-- The statements that stay. -/
def keptStmts (dl : List Var) (sl : List Stmt) : List Stmt :=
  sl.filter fun st => !(unusedDecls dl sl).any fun v => isDef v st

/-- The lengths always match, so the pass never fails. -/
theorem rmUnusedVars_eq (dl : List Var) (sl : List Stmt) :
    rmUnusedVars dl sl = .ok (keptDecls dl sl, keptStmts dl sl) := by
  rw [rmUnusedVars, countTempUses, partition2_map, OCaml.ok_bind, keptStmts,
    ← foldr_rmDefs]
  rfl

theorem mem_keptDecls {dl : List Var} {sl : List Stmt} {v : Var} :
    v ∈ keptDecls dl sl ↔
      v ∈ dl ∧ ∃ st ∈ sl, countUsesStmt v st ≠ 0 := by
  have h := (@countUsesSl_eq_zero_iff sl v).not
  push Not at h
  rw [keptDecls, List.mem_filter, decide_eq_true_eq, h]

theorem mem_unusedDecls {dl : List Var} {sl : List Stmt} {v : Var} :
    v ∈ unusedDecls dl sl ↔
      v ∈ dl ∧ ∀ st ∈ sl, countUsesStmt v st = 0 := by
  rw [unusedDecls, List.mem_filter, Bool.not_eq_true', decide_eq_false_iff_not,
    not_not, countUsesSl_eq_zero_iff]

/-- A temporary that counts as used keeps its declaration and its moves. -/
theorem kept_iff {dl : List Var} {sl : List Stmt} {v : Var} (hv : v ∈ dl) :
    Kept v sl (keptDecls dl sl) (keptStmts dl sl) ↔
      ∃ st ∈ sl, countUsesStmt v st ≠ 0 := by
  constructor
  · intro h
    exact (mem_keptDecls.mp h.1).2
  · intro h
    refine ⟨mem_keptDecls.mpr ⟨hv, h⟩, ?_⟩
    rw [keptStmts, List.filter_filter]
    apply List.filter_congr
    intro st _
    cases hdef : isDef v st with
    | false => rfl
    | true =>
      rw [Bool.true_and, Bool.not_eq_true', List.any_eq_false]
      intro w hw hdefw
      have hvw : w = v := by
        cases st with
        | move lv e =>
          cases lv with
          | temp u =>
            have h1 : u = v := of_decide_eq_true hdef
            have h2 : u = w := of_decide_eq_true hdefw
            exact h2.symm.trans h1
          | mem m idx t => cases hdef
        | _ => cases hdef
      obtain ⟨st', hst', hne⟩ := h
      exact hne (hvw ▸ (mem_unusedDecls.mp hw).2 st' hst')

theorem countUsesStmt_ne_zero_of_reads {v : Var} {st : Stmt}
    (hr : ReadsStmt v st) (hst : ¬Uncounted st) : countUsesStmt v st ≠ 0 := by
  cases st with
  | jmp l => exact uses_of_reads hr
  | cjmp e l1 l2 =>
    have h := hr.imp uses_of_reads (Or.imp uses_of_reads uses_of_reads)
    simp only [Exp.Uses] at h
    simp only [countUsesStmt]
    omega
  | move lv e =>
    cases lv with
    | temp w =>
      have h : countUsesE v e ≠ 0 := uses_of_reads (hr.resolve_left id)
      simp only [countUsesStmt]
      split_ifs <;> omega
    | mem m idx t =>
      have h : idx.Uses v ∨ e.Uses v := hr.imp uses_of_reads uses_of_reads
      simp only [Exp.Uses] at h
      simp only [countUsesStmt, countUsesLv]
      omega
  | expStmt e => exact uses_of_reads hr
  | assertion e => exact uses_of_reads hr
  | special str => exact hr.elim
  | label l => exact hr.elim
  | comment str => exact hr.elim
  | _ => exact absurd trivial hst

theorem readsStmts_iff {v : Var} {sl : List Stmt} :
    ReadsStmts v sl ↔ ∃ st ∈ sl, ReadsStmt v st := by
  induction sl with
  | nil => simp [ReadsStmts]
  | cons st sl ih => simp [ReadsStmts, ih]

/-! ## Runs -/

/-- The second fragment lacks some moves that define a variable of `A`, which
none of the statements that stay looks at. -/
inductive Filtered (A : Set Var) : List Stmt → List Stmt → Prop
  | nil : Filtered A [] []
  | keep {st : Stmt} {sl sl' : List Stmt} (hst : ∀ v ∈ A, ¬ReadsStmt v st)
      (h : Filtered A sl sl') : Filtered A (st :: sl) (st :: sl')
  | drop {v : Var} {e : Exp} {sl sl' : List Stmt} (hv : v ∈ A)
      (h : Filtered A sl sl') : Filtered A (.move (.temp v) e :: sl) sl'

theorem Filtered.findLabel {A : Set Var} {sl sl' : List Stmt}
    (h : Filtered A sl sl') (lab : OString) :
    Option.Rel (Filtered A) (findLabel lab sl) (findLabel lab sl') := by
  induction h with
  | nil => exact .none
  | @keep st sl sl' hst h ih =>
    cases st with
    | label l =>
      simp only [Fragment.findLabel]
      split_ifs
      · exact .some (.keep hst h)
      · exact ih
    | _ => exact ih
  | drop hv h ih => exact ih

section Runs

variable {D μ : Type} {M : Machine D μ} {A : Set Var} {frag frag' : List Stmt}

/-- The configurations of the two runs. -/
def FilteredConfig (A : Set Var) (c c' : Config D μ) : Prop :=
  Filtered A c.1 c'.1 ∧ c.2.AgreeOff A c'.2

theorem Filtered.labelRel (h : Filtered A frag frag') (lab : OString)
    {s s' : State D μ} (hs : s.AgreeOff A s') :
    Option.Rel (fun sl sl' => FilteredConfig A (sl, s) (sl', s'))
      (Fragment.findLabel lab frag) (Fragment.findLabel lab frag') := by
  have hlab := h.findLabel lab
  generalize Fragment.findLabel lab frag = x at hlab
  generalize Fragment.findLabel lab frag' = x' at hlab
  cases hlab with
  | some h => exact .some ⟨h, hs⟩
  | none => exact .none

theorem Filtered.simulates (hM : M.Spares A) (h : Filtered A frag frag') :
    Simulates (M.step frag) (M.step frag') (FilteredConfig A)
      (Result.AgreeOff A) Config.left Config.left := by
  rintro ⟨sl, s⟩ ⟨sl', s'⟩ ⟨hsl, hs⟩
  cases hsl with
  | nil => exact .both (.stop (.finished hs))
  | keep hst hrest =>
    apply Matched.both
    apply Machine.step_rel hM hst hs
    · intro s₁ s₁' hs₁
      exact ⟨hrest, hs₁⟩
    · rintro st' a rfl
      exact ⟨.keep hst hrest, hs⟩
    · intro lab s₁ s₁' hs₁
      exact h.labelRel lab hs₁
  | drop hv hrest =>
    exact .left _ rfl ⟨hrest, hs.setTemp_left hv _⟩ (Nat.lt_succ_self _)

end Runs

theorem filtered_keptStmts {dl : List Var} {sl : List Stmt}
    (h : ∀ v ∈ unusedDecls dl sl, ¬ReadsStmts v sl) :
    Filtered {v | v ∈ unusedDecls dl sl} sl (keptStmts dl sl) := by
  have hread : ∀ st ∈ sl, ∀ v ∈ unusedDecls dl sl, ¬ReadsStmt v st :=
    fun st hst v hv hr => h v hv (readsStmts_iff.mpr ⟨st, hst, hr⟩)
  rw [keptStmts]
  generalize unusedDecls dl sl = toRm at hread
  clear h
  induction sl with
  | nil => exact .nil
  | cons st sl ih =>
    have hrest := ih fun st' hst' => hread st' (List.mem_cons_of_mem _ hst')
    rw [List.filter_cons]
    split_ifs with hany
    · exact .keep (fun v hv => hread st List.mem_cons_self v hv) hrest
    · rw [Bool.not_eq_true', Bool.not_eq_false, List.any_eq_true] at hany
      obtain ⟨v, hv, hdef⟩ := hany
      cases st with
      | move lv e =>
        cases lv with
        | temp w =>
          obtain rfl : w = v := of_decide_eq_true hdef
          exact .drop hv hrest
        | mem m idx t => cases hdef
      | _ => cases hdef

/-- The result runs like the original, up to the temporaries that are gone. -/
def EvaluatesLike (dl : List Var) (sl : List Stmt) (dl' : List Var)
    (sl' : List Stmt) : Prop :=
  ∀ (D μ : Type) (M : Machine D μ), M.Spares {v | v ∈ dl ∧ v ∉ dl'} →
    ∀ s, M.SameRuns {v | v ∈ dl ∧ v ∉ dl'} sl sl' s

/-- A temporary of 32 bits. -/
def tempT0 : Var := ⟨0, OString.ofAscii "T0", .reg32⟩

end Fuzzball.FragSimplify
