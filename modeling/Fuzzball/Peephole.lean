import Fuzzball.FragmentWords

/-!
# Peephole patterns

`peephole_patterns` of `frag_simplify.ml`: no-op moves are dropped, a push and
a pop do without their temporary, and a conditional jump over a jump takes its
target.  The patterns do not look at every register and label they involve.
-/

namespace Fuzzball.FragSimplify

open Vine Fragment Simulation

variable {D μ : Type}

/-! ## The pass -/

/-- `BinOp(op, Lval(_), Constant(_))` -/
def isLvalOffset : Exp → Bool
  | .binOp _ (.temp _) (.constant _) => true
  | .binOp _ (.mem _ _ _) (.constant _) => true
  | _ => false

def isNoOp : Stmt → Bool
  | .move (.temp r1) (.temp r2) => r1 = r2
  | _ => false

/-- Usually lets us avoid a temporary in a push. -/
def pushPattern (dl : List Var) : Stmt → Stmt → Stmt → Option (List Stmt)
  | .move (.temp t1) e1, .move (.temp r1) (.temp t2),
    .move (.mem mem (.temp t3) ty) e2 =>
    if isLvalOffset e1 ∧ t1 ∈ dl ∧ t1 = t2 ∧ t2 = t3 ∧ r1 ∉ dl then
      some [.move (.temp t1) e1, .move (.temp r1) e1,
        .move (.mem mem (.temp r1) ty) e2]
    else none
  | _, _, _ => none

/-- Avoid a temporary in a pop. -/
def popPattern (dl : List Var) : Stmt → Stmt → Stmt → Option (List Stmt)
  | .move (.temp t1) (.mem mem (.temp r1) ty),
    .move (.temp r1') (.binOp op (.temp r1'') (.constant c)),
    .move (.temp r2) (.temp t2) =>
    if t1 ∈ dl ∧ t1 = t2 ∧ r1 ∉ dl ∧ r1 = r1' ∧ r1' = r1'' ∧ r2 ∉ dl then
      some [.move (.temp t1) (.mem mem (.temp r1) ty),
        .move (.temp r2) (.mem mem (.temp r1) ty),
        .move (.temp r1') (.binOp op (.temp r1'') (.constant c))]
    else none
  | _, _, _ => none

/-- Make both target addresses visible in a conditional jump. -/
def cjmpPattern : Stmt → Stmt → Stmt → Option (List Stmt)
  | .cjmp e (.name l1) (.name l2), .label l2', .jmp (.name l3) =>
    if l2 = l2' then some [.cjmp e (.name l1) (.name l3)] else none
  | _, _, _ => none

/-- The patterns of three statements, in their order. -/
def pattern (dl : List Var) (st1 st2 st3 : Stmt) : Option (List Stmt) :=
  ((pushPattern dl st1 st2 st3).or (popPattern dl st1 st2 st3)).or
    (cjmpPattern st1 st2 st3)

/-- The `loop` of `peephole_patterns`. -/
def peepholeLoop (dl : List Var) : List Stmt → List Stmt
  | st1 :: st2 :: st3 :: rest =>
    if isNoOp st1 then peepholeLoop dl (st2 :: st3 :: rest)
    else
      match pattern dl st1 st2 st3 with
      | some new => new ++ peepholeLoop dl rest
      | none => st1 :: peepholeLoop dl (st2 :: st3 :: rest)
  | st :: rest =>
    if isNoOp st then peepholeLoop dl rest else st :: peepholeLoop dl rest
  | [] => []

def peepholePatterns (dl : List Var) (sl : List Stmt) :
    List Var × List Stmt := (dl, peepholeLoop dl sl)

/-- What the pass does at the head of a list. -/
inductive LoopCase (dl : List Var) : List Stmt → Prop
  | nil : LoopCase dl []
  | noOp {st : Stmt} {rest : List Stmt} (h : isNoOp st = true)
      (heq : peepholeLoop dl (st :: rest) = peepholeLoop dl rest) :
      LoopCase dl (st :: rest)
  | pattern {st1 st2 st3 : Stmt} {rest new : List Stmt}
      (h : pattern dl st1 st2 st3 = some new)
      (heq : peepholeLoop dl (st1 :: st2 :: st3 :: rest) =
        new ++ peepholeLoop dl rest) : LoopCase dl (st1 :: st2 :: st3 :: rest)
  | keep {st : Stmt} {rest : List Stmt}
      (h : ∀ st2 st3 rest', rest = st2 :: st3 :: rest' →
        FragSimplify.pattern dl st st2 st3 = none)
      (heq : peepholeLoop dl (st :: rest) = st :: peepholeLoop dl rest) :
      LoopCase dl (st :: rest)

theorem loopCase (dl : List Var) (sl : List Stmt) : LoopCase dl sl := by
  match sl with
  | [] => exact .nil
  | [st] | [st, st2] =>
    by_cases h : isNoOp st = true
    · exact .noOp h (by simp [peepholeLoop, h])
    · exact .keep (by simp) (by simp [peepholeLoop, h])
  | st1 :: st2 :: st3 :: rest =>
    by_cases h : isNoOp st1 = true
    · exact .noOp h (by simp [peepholeLoop, h])
    rcases hp : pattern dl st1 st2 st3 with _ | new
    · refine .keep ?_ (by simp [peepholeLoop, h, hp])
      rintro _ _ _ heq
      cases heq
      exact hp
    · exact .pattern hp (by simp [peepholeLoop, h, hp])

/-! ## Where the patterns are right -/

/-- The statement may go to the label. -/
def MayJumpTo (M : Machine D μ) : Stmt → OString → Prop
  | .jmp e, l => ∃ s, M.evalLabelExp e s = l
  | .cjmp _ e1 e2, l =>
    ∃ s, M.evalLabelExp e1 s = l ∨ M.evalLabelExp e2 s = l
  | .special str, l => ∃ s s', M.handleSpecial str s = .jumps l s'
  | .attr st _, l => MayJumpTo M st l
  | _, _ => False

/-- The label `l2` of a dropped jump is one that the fragment goes to by the
rewritten statement alone, and passing it does nothing. -/
structure DropsQuietly (M : Machine D μ) (pre : List Stmt) (l1 l2 l3 : OString)
    (rest : List Stmt) : Prop where
  doJump : M.doJump l2 = true
  hook : ∀ s, M.atLabel l2 s = s
  first : .label l2 ∉ pre
  ne : l1 ≠ l2 ∧ l3 ≠ l2
  targets : ∀ st ∈ pre ++ rest, ¬MayJumpTo M st l2

/-- What the patterns leave unchecked. -/
structure PeepholeSafe (M : Machine D μ) (dl : List Var) (sl : List Stmt) :
    Prop where
  push : ∀ pre t e1 r mem ty e2 rest,
    sl = pre ++ .move (.temp t) e1 :: .move (.temp r) (.temp t) ::
      .move (.mem mem (.temp t) ty) e2 :: rest →
    isLvalOffset e1 = true → t ∈ dl → r ∉ dl → ¬Reads t e1
  pop : ∀ pre t mem r ty op c r2 rest,
    sl = pre ++ .move (.temp t) (.mem mem (.temp r) ty) ::
      .move (.temp r) (.binOp op (.temp r) (.constant c)) ::
      .move (.temp r2) (.temp t) :: rest →
    t ∈ dl → r ∉ dl → r2 ∉ dl → r2 ≠ r
  cjmp : ∀ pre e l1 l2 l3 rest,
    sl = pre ++ .cjmp e (.name l1) (.name l2) :: .label l2 ::
      .jmp (.name l3) :: rest →
    DropsQuietly M pre l1 l2 l3 rest

/-- The label of a dropped jump. -/
def Dropped (sl : List Stmt) (l2 : OString) : Prop :=
  ∃ pre e l1 l3 rest, sl = pre ++ .cjmp e (.name l1) (.name l2) ::
    .label l2 :: .jmp (.name l3) :: rest

/-! ## The statements that match -/

section Patterns

variable {dl : List Var} {st1 st2 st3 : Stmt} {new : List Stmt}

theorem pushPattern_eq_some (h : pushPattern dl st1 st2 st3 = some new) :
    ∃ t e1 r mem ty e2, st1 = .move (.temp t) e1 ∧
      st2 = .move (.temp r) (.temp t) ∧
      st3 = .move (.mem mem (.temp t) ty) e2 ∧ isLvalOffset e1 = true ∧
      t ∈ dl ∧ r ∉ dl ∧
      new = [.move (.temp t) e1, .move (.temp r) e1,
        .move (.mem mem (.temp r) ty) e2] := by
  unfold pushPattern at h
  split at h
  · split_ifs at h with hg
    obtain ⟨hoff, ht, rfl, rfl, hr⟩ := hg
    cases h
    exact ⟨_, _, _, _, _, _, rfl, rfl, rfl, hoff, ht, hr, rfl⟩
  · cases h

theorem popPattern_eq_some (h : popPattern dl st1 st2 st3 = some new) :
    ∃ t mem r ty op c r2, st1 = .move (.temp t) (.mem mem (.temp r) ty) ∧
      st2 = .move (.temp r) (.binOp op (.temp r) (.constant c)) ∧
      st3 = .move (.temp r2) (.temp t) ∧ t ∈ dl ∧ r ∉ dl ∧ r2 ∉ dl ∧
      new = [.move (.temp t) (.mem mem (.temp r) ty),
        .move (.temp r2) (.mem mem (.temp r) ty),
        .move (.temp r) (.binOp op (.temp r) (.constant c))] := by
  unfold popPattern at h
  split at h
  · split_ifs at h with hg
    obtain ⟨ht, rfl, hr, rfl, rfl, hr2⟩ := hg
    cases h
    exact ⟨_, _, _, _, _, _, _, rfl, rfl, rfl, ht, hr, hr2, rfl⟩
  · cases h

theorem cjmpPattern_eq_some (h : cjmpPattern st1 st2 st3 = some new) :
    ∃ e l1 l2 l3, st1 = .cjmp e (.name l1) (.name l2) ∧ st2 = .label l2 ∧
      st3 = .jmp (.name l3) ∧ new = [.cjmp e (.name l1) (.name l3)] := by
  unfold cjmpPattern at h
  split at h
  · split_ifs at h with hg
    subst hg
    cases h
    exact ⟨_, _, _, _, rfl, rfl, rfl, rfl⟩
  · cases h

theorem pattern_eq_some (h : pattern dl st1 st2 st3 = some new) :
    pushPattern dl st1 st2 st3 = some new ∨
      popPattern dl st1 st2 st3 = some new ∨
      cjmpPattern st1 st2 st3 = some new := by
  unfold pattern at h
  rcases h1 : pushPattern dl st1 st2 st3 with _ | x
  · rcases h2 : popPattern dl st1 st2 st3 with _ | x
    · rw [h1, h2] at h
      exact .inr (.inr h)
    · rw [h1, h2] at h
      exact .inr (.inl h)
  · rw [h1] at h
    exact .inl h

theorem pattern_cjmp (dl : List Var) (e : Exp) (l1 l2 l3 : OString) :
    pattern dl (.cjmp e (.name l1) (.name l2)) (.label l2) (.jmp (.name l3)) =
      some [.cjmp e (.name l1) (.name l3)] := by
  simp [pattern, pushPattern, popPattern, cjmpPattern]

end Patterns

/-! ## Labels -/

section Labels

variable {M : Machine D μ} {dl : List Var} {sl rest : List Stmt}
  {lab : OString}

theorem findLabel_append {pre : List Stmt} (h : .label lab ∉ pre)
    (rest : List Stmt) :
    findLabel lab (pre ++ rest) = findLabel lab rest := by
  induction pre with
  | nil => rfl
  | cons st pre ih =>
    have hpre : .label lab ∉ pre := fun hmem => h (List.mem_cons_of_mem _ hmem)
    rw [List.cons_append, ← ih hpre]
    cases st with
    | label l =>
      have hl : l ≠ lab := by
        rintro rfl
        exact h List.mem_cons_self
      rw [findLabel, if_neg hl]
    | _ => rfl

theorem findLabel_suffix {x : List Stmt} (h : findLabel lab sl = some x) :
    ∃ pre, sl = pre ++ x := by
  induction sl with
  | nil => cases h
  | cons st sl ih =>
    have hrest : findLabel lab sl = some x → ∃ pre, st :: sl = pre ++ x := by
      intro h
      obtain ⟨pre, rfl⟩ := ih h
      exact ⟨st :: pre, rfl⟩
    cases st with
    | label l =>
      rw [findLabel] at h
      split_ifs at h
      · cases h
        exact ⟨[], rfl⟩
      · exact hrest h
    | _ => exact hrest h

theorem isNoOp_eq_true {st : Stmt} (h : isNoOp st = true) :
    ∃ r, st = .move (.temp r) (.temp r) := by
  unfold isNoOp at h
  split at h
  · simp only [decide_eq_true_eq] at h
    exact ⟨_, by rw [h]⟩
  · cases h

/-- Labels that are not dropped lead to what the pass makes of what they led
to. -/
theorem findLabel_peepholeLoop (hlab : ¬Dropped sl lab) :
    ∀ {rest pre : List Stmt}, sl = pre ++ rest →
      findLabel lab (peepholeLoop dl rest) =
        (findLabel lab rest).map (peepholeLoop dl) := by
  intro rest
  induction hn : rest.length using Nat.strongRecOn generalizing rest with
  | ind n ih =>
    intro pre hsl
    have hnext : ∀ st rest', rest = st :: rest' →
        findLabel lab (peepholeLoop dl rest') =
          (findLabel lab rest').map (peepholeLoop dl) := by
      rintro st rest' rfl
      apply ih rest'.length (by simp [← hn]) rfl
      show sl = (pre ++ [st]) ++ rest'
      rw [hsl, List.append_assoc]
      rfl
    cases loopCase dl rest with
    | nil => rfl
    | @noOp st rest' h heq =>
      obtain ⟨r, rfl⟩ := isNoOp_eq_true h
      rw [heq, hnext _ _ rfl]
      rfl
    | @keep st rest' h heq =>
      rw [heq]
      cases st with
      | label l =>
        rw [findLabel, findLabel]
        split_ifs
        · rw [Option.map_some, heq]
        · exact hnext _ _ rfl
      | _ => exact hnext _ _ rfl
    | @pattern st1 st2 st3 rest' new h heq =>
      have hrest : findLabel lab (peepholeLoop dl rest') =
          (findLabel lab rest').map (peepholeLoop dl) := by
        have hlt : rest'.length < n := by
          simp only [List.length_cons] at hn
          omega
        apply ih rest'.length hlt rfl
        show sl = (pre ++ [st1, st2, st3]) ++ rest'
        rw [hsl, List.append_assoc]
        rfl
      rw [heq]
      rcases pattern_eq_some h with h | h | h
      · obtain ⟨t, e1, r, mem, ty, e2, rfl, rfl, rfl, -, -, -, rfl⟩ :=
          pushPattern_eq_some h
        exact hrest
      · obtain ⟨t, mem, r, ty, op, c, r2, rfl, rfl, rfl, -, -, -, rfl⟩ :=
          popPattern_eq_some h
        exact hrest
      · obtain ⟨e, l1, l2, l3, rfl, rfl, rfl, rfl⟩ := cjmpPattern_eq_some h
        have hne : l2 ≠ lab := by
          rintro rfl
          exact hlab ⟨pre, e, l1, l3, rest', hsl⟩
        simp only [findLabel, if_neg hne]
        exact hrest

/-- A statement goes to a dropped label only if it is the one that the jump is
dropped from. -/
theorem PeepholeSafe.dropped (hsafe : PeepholeSafe M dl sl) {pre : List Stmt}
    {st : Stmt} (hsl : sl = pre ++ st :: rest) (hst : MayJumpTo M st lab)
    (hdrop : Dropped sl lab) : ∃ e l1 l3 rest', l1 ≠ lab ∧
      st = .cjmp e (.name l1) (.name lab) ∧
      rest = .label lab :: .jmp (.name l3) :: rest' := by
  obtain ⟨pre', e, l1, l3, rest', hsl'⟩ := hdrop
  have hquiet := hsafe.cjmp _ _ _ _ _ _ hsl'
  have htail : st ∉ .label lab :: .jmp (.name l3) :: rest' := by
    intro hmem
    rcases List.mem_cons.mp hmem with rfl | hmem
    · exact hst
    rcases List.mem_cons.mp hmem with rfl | hmem
    · obtain ⟨s, hs⟩ := hst
      exact hquiet.ne.2 hs
    · exact hquiet.targets st (List.mem_append_right _ hmem) hst
  have hhead : st ∉ pre' := fun hmem =>
    hquiet.targets st (List.mem_append_left _ hmem) hst
  rw [hsl] at hsl'
  rcases List.append_eq_append_iff.mp hsl' with ⟨a, hpre, ha⟩ | ⟨a, hpre, ha⟩
  · cases a with
    | nil =>
      cases ha
      exact ⟨e, l1, l3, rest', hquiet.ne.1, rfl, rfl⟩
    | cons st' a =>
      cases ha
      exact absurd (hpre ▸ List.mem_append_right _ List.mem_cons_self) hhead
  · cases a with
    | nil =>
      cases ha
      exact ⟨e, l1, l3, rest', hquiet.ne.1, rfl, rfl⟩
    | cons st' a =>
      rw [List.cons_append] at ha
      obtain ⟨-, ha⟩ := List.cons.inj ha
      exact absurd (ha ▸ List.mem_append_right _ List.mem_cons_self) htail

end Labels

/-! ## The simulation -/

section Simulation

variable {M : Machine D μ} {dl : List Var} {sl rest : List Stmt}
  {s : State D μ} {lab : OString}

/-- The pass has been made over what remains of the fragment, but for a
statement at the head that no pattern begins with. -/
inductive PeepholeRel (M : Machine D μ) (dl : List Var) (sl : List Stmt) :
    Config D μ → Config D μ → Prop
  | here {rest : List Stmt} {s : State D μ} (pre : List Stmt)
      (hsl : sl = pre ++ rest) :
      PeepholeRel M dl sl (rest, s) (peepholeLoop dl rest, s)
  | behind {st : Stmt} {rest : List Stmt} {s : State D μ} (pre : List Stmt)
      (hsl : sl = pre ++ rest)
      (hst : ∀ lab, MayJumpTo M st lab → ¬Dropped sl lab) :
      PeepholeRel M dl sl (st :: rest, s) (st :: peepholeLoop dl rest, s)

/-- The two steps lead to related configurations or end alike. -/
abbrev StepsAlike (M : Machine D μ) (dl : List Var) (sl : List Stmt) :
    Next (Config D μ) (Result D μ) → Next (Config D μ) (Result D μ) → Prop :=
  NextRel (PeepholeRel M dl sl) Eq

theorem jump_alike (hlab : ¬Dropped sl lab) :
    StepsAlike M dl sl (M.jump sl lab s)
      (M.jump (peepholeLoop dl sl) lab s) := by
  have hfind : findLabel lab (peepholeLoop dl sl) = _ :=
    findLabel_peepholeLoop hlab (List.nil_append sl).symm
  unfold Machine.jump
  split_ifs
  · rcases h : findLabel lab sl with _ | x
    · rw [h] at hfind
      rw [hfind]
      exact .stop rfl
    · obtain ⟨pre, hpre⟩ := findLabel_suffix h
      rw [h] at hfind
      rw [hfind]
      exact .go (.here pre hpre)
  · exact .stop rfl

theorem step_alike {st : Stmt} {pre : List Stmt} (hsl : sl = pre ++ rest)
    (hst : ∀ lab, MayJumpTo M st lab → ¬Dropped sl lab) :
    StepsAlike M dl sl (M.step sl (st :: rest, s))
      (M.step (peepholeLoop dl sl) (st :: peepholeLoop dl rest, s)) := by
  have hgo : ∀ s₁, StepsAlike M dl sl (.go (rest, s₁))
      (.go (peepholeLoop dl rest, s₁)) := fun s₁ => .go (.here pre hsl)
  cases st with
  | jmp l => exact jump_alike (hst _ ⟨s, rfl⟩)
  | cjmp e l1 l2 =>
    simp only [Machine.step]
    split_ifs
    · exact jump_alike (hst _ ⟨s, .inl rfl⟩)
    · exact jump_alike (hst _ ⟨s, .inr rfl⟩)
  | special str =>
    simp only [Machine.step]
    rcases h : M.handleSpecial str s with s₁ | ⟨l, s₁⟩ | _
    · exact hgo s₁
    · exact jump_alike (hst l ⟨s, s₁, h⟩)
    · exact .stop rfl
  | attr st a => exact .go (.behind pre hsl hst)
  | assertion e =>
    simp only [Machine.step]
    split_ifs
    · exact hgo s
    · exact .stop rfl
  | move lv e => exact hgo _
  | label l => exact hgo _
  | expStmt e => exact hgo _
  | comment str => exact hgo _
  | _ => exact .stop rfl

theorem setTemp_comm {v w : Var} (h : v ≠ w) (x y : D) :
    (s.setTemp v x).setTemp w y = (s.setTemp w y).setTemp v x := by
  have hcomm := Function.update_comm (β := fun _ => D) h x y s.temp
  exact State.ext hcomm rfl

/-- The temporary, the register and the address are set to the same value. -/
theorem push_matched {pre : List Stmt} {t r mem : Var} {e1 e2 : Exp} {ty : Typ}
    (hsl : sl = pre ++ .move (.temp t) e1 :: .move (.temp r) (.temp t) ::
      .move (.mem mem (.temp t) ty) e2 :: rest)
    (ht : t ∈ dl) (hr : r ∉ dl) (hreads : ¬Reads t e1) :
    BlockMatched (M.step sl) (M.step (peepholeLoop dl sl))
      (PeepholeRel M dl sl) Eq Config.left
      (.move (.temp t) e1 :: .move (.temp r) (.temp t) ::
        .move (.mem mem (.temp t) ty) e2 :: rest, s)
      (.move (.temp t) e1 :: .move (.temp r) e1 ::
        .move (.mem mem (.temp r) ty) e2 :: peepholeLoop dl rest, s) := by
  have htr : t ≠ r := by
    rintro rfl
    exact hr ht
  have hvalue : M.eval e1 (s.setTemp t (M.eval e1 s)) = M.eval e1 s :=
    M.eval_setTemp hreads s _
  refine .both (n := 2) (k := 2) ⟨_, rfl, _, rfl, rfl⟩
    ⟨_, rfl, _, rfl, rfl⟩ ?_
  simp only [Machine.step, Machine.assign, hvalue, Machine.eval,
    State.setTemp_temp_self, State.setTemp_temp_of_ne htr]
  refine .go (.here (pre ++ [.move (.temp t) e1, .move (.temp r) (.temp t),
    .move (.mem mem (.temp t) ty) e2]) ?_)
  rw [hsl, List.append_assoc]
  rfl

/-- The register that is loaded and the one that is updated are two. -/
theorem pop_matched {pre : List Stmt} {t mem r r2 : Var} {ty : Typ}
    {op : BinopType} {c : Value}
    (hsl : sl = pre ++ .move (.temp t) (.mem mem (.temp r) ty) ::
      .move (.temp r) (.binOp op (.temp r) (.constant c)) ::
      .move (.temp r2) (.temp t) :: rest)
    (ht : t ∈ dl) (hr : r ∉ dl) (hne : r2 ≠ r) :
    BlockMatched (M.step sl) (M.step (peepholeLoop dl sl))
      (PeepholeRel M dl sl) Eq Config.left
      (.move (.temp t) (.mem mem (.temp r) ty) ::
        .move (.temp r) (.binOp op (.temp r) (.constant c)) ::
        .move (.temp r2) (.temp t) :: rest, s)
      (.move (.temp t) (.mem mem (.temp r) ty) ::
        .move (.temp r2) (.mem mem (.temp r) ty) ::
        .move (.temp r) (.binOp op (.temp r) (.constant c)) ::
        peepholeLoop dl rest, s) := by
  have hrt : r ≠ t := by
    rintro rfl
    exact hr ht
  refine .both (n := 2) (k := 2) ⟨_, rfl, _, rfl, rfl⟩
    ⟨_, rfl, _, rfl, rfl⟩ ?_
  simp only [Machine.step, Machine.assign, Machine.eval,
    State.setTemp_temp_self, State.setTemp_temp_of_ne hrt,
    State.setTemp_temp_of_ne hrt.symm, State.setTemp_temp_of_ne hne.symm,
    State.setTemp_mem]
  rw [setTemp_comm hne]
  refine .go (.here (pre ++ [.move (.temp t) (.mem mem (.temp r) ty),
    .move (.temp r) (.binOp op (.temp r) (.constant c)),
    .move (.temp r2) (.temp t)]) ?_)
  rw [hsl, List.append_assoc]
  rfl

/-- The jump behind the label is taken at once. -/
theorem cjmp_matched (hsafe : PeepholeSafe M dl sl) {pre : List Stmt} {e : Exp}
    {l1 l2 l3 : OString}
    (hsl : sl = pre ++ .cjmp e (.name l1) (.name l2) :: .label l2 ::
      .jmp (.name l3) :: rest) :
    BlockMatched (M.step sl) (M.step (peepholeLoop dl sl))
      (PeepholeRel M dl sl) Eq Config.left
      (.cjmp e (.name l1) (.name l2) :: .label l2 :: .jmp (.name l3) :: rest,
        s)
      (.cjmp e (.name l1) (.name l3) :: peepholeLoop dl rest, s) := by
  have hquiet := hsafe.cjmp _ _ _ _ _ _ hsl
  have h1 : ¬Dropped sl l1 := by
    intro hdrop
    obtain ⟨_, _, _, _, hne, heq, -⟩ :=
      hsafe.dropped hsl ⟨s, .inl rfl⟩ hdrop
    cases heq
    exact hne rfl
  have h3 : ¬Dropped sl l3 := by
    intro hdrop
    have hjmp : sl = (pre ++ [.cjmp e (.name l1) (.name l2), .label l2]) ++
        .jmp (.name l3) :: rest := by
      rw [hsl, List.append_assoc]
      rfl
    obtain ⟨_, _, _, _, -, heq, -⟩ := hsafe.dropped hjmp ⟨s, rfl⟩ hdrop
    cases heq
  by_cases he : M.truth (M.eval e s) = true
  · refine .both (n := 0) (k := 0) rfl rfl ?_
    simp only [Machine.step, if_pos he]
    exact jump_alike h1
  · have hfind : findLabel l2 sl =
        some (.label l2 :: .jmp (.name l3) :: rest) := by
      rw [hsl, findLabel_append hquiet.first]
      simp [findLabel]
    have hjump : M.step sl (.cjmp e (.name l1) (.name l2) :: .label l2 ::
        .jmp (.name l3) :: rest, s) =
        .go (.label l2 :: .jmp (.name l3) :: rest, s) := by
      simp only [Machine.step, if_neg he, Machine.evalLabelExp, Machine.jump,
        hquiet.doJump, hfind, if_true]
    have hlabel : M.step sl (.label l2 :: .jmp (.name l3) :: rest, s) =
        .go (.jmp (.name l3) :: rest, s) := by
      rw [Machine.step, hquiet.hook]
    refine .both (n := 2) (k := 0) ⟨_, hjump, _, hlabel, rfl⟩ rfl ?_
    simp only [Machine.step, if_neg he]
    exact jump_alike h3

theorem peephole_simulates (hsafe : PeepholeSafe M dl sl) :
    BlockSimulates (M.step sl) (M.step (peepholeLoop dl sl))
      (PeepholeRel M dl sl) Eq Config.left := by
  intro c c' hrel
  cases hrel with
  | behind pre hsl hst =>
    exact .both (n := 0) (k := 0) rfl rfl (step_alike hsl hst)
  | @here rest s pre hsl =>
    cases loopCase dl rest with
    | nil => exact .both (n := 0) (k := 0) rfl rfl (.stop rfl)
    | @noOp st rest h heq =>
      obtain ⟨r, rfl⟩ := isNoOp_eq_true h
      have hstep : M.step sl (.move (.temp r) (.temp r) :: rest, s) =
          .go (rest, s) := by
        have hself : s.setTemp r (s.temp r) = s :=
          State.ext (Function.update_eq_self r s.temp) rfl
        rw [Machine.step, Machine.assign, Machine.eval, hself]
      rw [heq]
      refine .left (n := 0) ⟨_, hstep, rfl⟩
        (.here (pre ++ [.move (.temp r) (.temp r)]) ?_) (Nat.lt_succ_self _)
      rw [hsl, List.append_assoc]
      rfl
    | @keep st rest h heq =>
      rw [heq]
      have hsl' : sl = (pre ++ [st]) ++ rest := by
        rw [hsl, List.append_assoc]
        rfl
      refine .both (n := 0) (k := 0) rfl rfl (step_alike hsl' ?_)
      intro lab hjump hdrop
      obtain ⟨e, l1, l3, rest', -, rfl, rfl⟩ :=
        hsafe.dropped hsl hjump hdrop
      have hnone := h _ _ _ rfl
      rw [pattern_cjmp] at hnone
      cases hnone
    | @pattern st1 st2 st3 rest new h heq =>
      rw [heq]
      rcases pattern_eq_some h with h | h | h
      · obtain ⟨t, e1, r, mem, ty, e2, rfl, rfl, rfl, hoff, ht, hr, rfl⟩ :=
          pushPattern_eq_some h
        exact push_matched hsl ht hr
          (hsafe.push _ _ _ _ _ _ _ _ hsl hoff ht hr)
      · obtain ⟨t, mem, r, ty, op, c, r2, rfl, rfl, rfl, ht, hr, hr2, rfl⟩ :=
          popPattern_eq_some h
        exact pop_matched hsl ht hr
          (hsafe.pop _ _ _ _ _ _ _ _ _ hsl ht hr hr2)
      · obtain ⟨e, l1, l2, l3, rfl, rfl, rfl, rfl⟩ := cjmpPattern_eq_some h
        exact cjmp_matched hsafe hsl

/-- The fragment and what the pass makes of it end alike, with the same
state. -/
theorem peepholePatterns_preserves (M : Machine D μ) (dl : List Var)
    (sl : List Stmt) (h : PeepholeSafe M dl sl) (s : State D μ)
    (r : Result D μ) :
    M.Runs (peepholePatterns dl sl).2 s r ↔ M.Runs sl s r := by
  have hrel : PeepholeRel M dl sl (sl, s) (peepholeLoop dl sl, s) :=
    .here [] rfl
  constructor
  · intro hr
    obtain ⟨r', hr', rfl⟩ := (peephole_simulates h).finishes_right hrel hr
    exact hr'
  · intro hr
    obtain ⟨r', hr', rfl⟩ := (peephole_simulates h).finishes hrel hr
    exact hr'

end Simulation

section Examples

/-- A word machine without special statements, over an empty memory. -/
def bareMachine : Machine Val Unit := wordMachine fun _ _ => .fails

def regEsp : Var := ⟨102, OString.ofAscii "R_ESP", .reg32⟩

/-- The temporary that a pop goes through. -/
def popTemp : Var := ⟨0, OString.ofAscii "T_0", .reg32⟩

def stackMem : Var := ⟨200, OString.ofAscii "mem", .tMem .reg32 .little⟩

/-- A pop of a register. -/
def popOf (r : Var) : List Stmt :=
  [.move (.temp popTemp) (.mem stackMem (.temp regEsp) .reg32),
    .move (.temp regEsp) (.binOp .plus (.temp regEsp) (.int .reg32 4)),
    .move (.temp r) (.temp popTemp)]

theorem popOf_eq_append {r : Var} {pre rest : List Stmt}
    {st1 st2 st3 : Stmt} (h : popOf r = pre ++ st1 :: st2 :: st3 :: rest) :
    pre = [] ∧ popOf r = [st1, st2, st3] := by
  have hlen : (popOf r).length = pre.length + (rest.length + 3) := by
    rw [h, List.length_append]
    rfl
  have hthree : (popOf r).length = 3 := rfl
  obtain rfl : pre = [] := List.eq_nil_of_length_eq_zero (by omega)
  obtain rfl : rest = [] := List.eq_nil_of_length_eq_zero (by omega)
  exact ⟨rfl, h⟩

theorem peepholeSafe_popOf {r : Var} (hr : r ≠ regEsp) :
    PeepholeSafe bareMachine [popTemp] (popOf r) := by
  constructor
  · intro pre t e1 r' mem ty e2 rest h
    have hthree := (popOf_eq_append h).2
    simp [popOf] at hthree
  · intro pre t mem r' ty op c r2 rest h _ _ _
    have hthree := (popOf_eq_append h).2
    simp only [popOf, List.cons.injEq, Stmt.move.injEq, LValue.temp.injEq,
      Exp.mem.injEq, Exp.temp.injEq] at hthree
    obtain ⟨⟨-, -, rfl, -⟩, -, ⟨rfl, -⟩, -⟩ := hthree
    exact hr
  · intro pre e l1 l2 l3 rest h
    have hthree := (popOf_eq_append h).2
    simp [popOf] at hthree

theorem peepholePatterns_preserves_popEax :
    ∃ r, bareMachine.Runs (popOf regEax) ⟨fun _ => .word 32 8, ()⟩ r ∧
      bareMachine.Runs (peepholePatterns [popTemp] (popOf regEax)).2
        ⟨fun _ => .word 32 8, ()⟩ r := by
  refine ⟨_, ⟨4, rfl⟩, ?_⟩
  exact (peepholePatterns_preserves bareMachine [popTemp] (popOf regEax)
    (peepholeSafe_popOf (by decide)) _ _).mpr ⟨4, rfl⟩

/-- The stack pointer is popped, and then updated once more. -/
theorem peepholePatterns_popEsp :
    ¬∀ s r, bareMachine.Runs
        (peepholePatterns [popTemp] (popOf regEsp)).2 s r ↔
      bareMachine.Runs (popOf regEsp) s r := by
  intro h
  have hrun := (h ⟨fun _ => .word 32 8, ()⟩ _).mpr ⟨4, rfl⟩
  have heq := Finishes.unique ⟨4, rfl⟩ hrun
  have hesp := congrArg (State.temp · regEsp) (Result.finished.inj heq).2
  exact absurd hesp (by decide)

end Examples

end Fuzzball.FragSimplify
