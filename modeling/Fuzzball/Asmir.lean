import Fuzzball.VineSemantics
import Fuzzball.SingleAssignment

/-!
# Code that the VEX translation emits

The expression helpers of `exp.cpp` and the temporaries of `irtoir.cpp`.  The
translation appends statements to `irout`; a temporary gets its number from
`temp_counter`, is declared and is assigned once.  Expressions are those the
conversion of `asmir.ml` yields, so `GE` is `LE` with its operands swapped.
A helper `_ex_f` differs from `ex_f` by which operands it clones.
-/

namespace Fuzzball.Asmir

open Vine

/-! ## Expression helpers -/

abbrev exConst (value : BitVec 32) : Exp := .int .reg32 (value.setWidth 64)
abbrev exConst64 (value : I64) : Exp := .int .reg64 value
abbrev exConstOf (t : Typ) (value : I64) : Exp := .int t value

abbrev exNot (arg : Exp) : Exp := .unOp .not arg
abbrev exNeg (arg : Exp) : Exp := .unOp .neg arg
abbrev exAdd (arg1 arg2 : Exp) : Exp := .binOp .plus arg1 arg2
abbrev exSub (arg1 arg2 : Exp) : Exp := .binOp .minus arg1 arg2
abbrev exMul (arg1 arg2 : Exp) : Exp := .binOp .times arg1 arg2
abbrev exDiv (arg1 arg2 : Exp) : Exp := .binOp .divide arg1 arg2
abbrev exMod (arg1 arg2 : Exp) : Exp := .binOp .mod arg1 arg2
abbrev exAnd (arg1 arg2 : Exp) : Exp := .binOp .bitand arg1 arg2
abbrev exAnd3 (arg1 arg2 arg3 : Exp) : Exp := exAnd arg1 (exAnd arg2 arg3)
abbrev exOr (arg1 arg2 : Exp) : Exp := .binOp .bitor arg1 arg2

abbrev exOr4 (arg1 arg2 arg3 arg4 : Exp) : Exp :=
  exOr (exOr arg1 arg2) (exOr arg3 arg4)

abbrev exXor (arg1 arg2 : Exp) : Exp := .binOp .xor arg1 arg2
abbrev exXor3 (arg1 arg2 arg3 : Exp) : Exp := exXor arg1 (exXor arg2 arg3)

abbrev exXor4 (arg1 arg2 arg3 arg4 : Exp) : Exp :=
  exXor (exXor arg1 arg2) (exXor arg3 arg4)

abbrev exXor8 (arg1 arg2 arg3 arg4 arg5 arg6 arg7 arg8 : Exp) : Exp :=
  exXor (exXor4 arg1 arg2 arg3 arg4) (exXor4 arg5 arg6 arg7 arg8)

abbrev exShl (arg1 arg2 : Exp) : Exp := .binOp .lshift arg1 arg2
abbrev exShr (arg1 arg2 : Exp) : Exp := .binOp .rshift arg1 arg2
abbrev exSar (arg1 arg2 : Exp) : Exp := .binOp .arshift arg1 arg2
abbrev exEq (arg1 arg2 : Exp) : Exp := .binOp .eq arg1 arg2
abbrev exNeq (arg1 arg2 : Exp) : Exp := .binOp .neq arg1 arg2
abbrev exLt (arg1 arg2 : Exp) : Exp := .binOp .lt arg1 arg2
abbrev exLe (arg1 arg2 : Exp) : Exp := .binOp .le arg1 arg2
abbrev exGe (arg1 arg2 : Exp) : Exp := .binOp .le arg2 arg1
abbrev exSlt (arg1 arg2 : Exp) : Exp := .binOp .slt arg1 arg2
abbrev exSle (arg1 arg2 : Exp) : Exp := .binOp .sle arg1 arg2
abbrev exUCast (arg : Exp) (width : Typ) : Exp := .cast .castUnsigned width arg
abbrev exSCast (arg : Exp) (width : Typ) : Exp := .cast .castSigned width arg
abbrev exHCast (arg : Exp) (width : Typ) : Exp := .cast .castHigh width arg
abbrev exLCast (arg : Exp) (width : Typ) : Exp := .cast .castLow width arg
abbrev exIte (c t f : Exp) : Exp := .ite c t f

/-- An expression of 128 bits: a `Vector` of two 64-bit lanes, or an
`Unknown`. -/
inductive Exp128
  | vector (high low : Exp)
  | unknown (s : OString)
  deriving DecidableEq, Repr

/-- `split_vector`: the high and the low lane. -/
def splitVector : Exp128 → Exp × Exp
  | .vector high low => (high, low)
  | .unknown s => (.unknown s, .unknown s)

def translate64HLto128 (arg1 arg2 : Exp) : Exp128 := .vector arg1 arg2

def translate32HLto64 (arg1 arg2 : Exp) : Exp :=
  let high := Exp.cast .castUnsigned .reg64 arg1
  let low := Exp.cast .castUnsigned .reg64 arg2
  .binOp .bitor (.binOp .lshift high (exConst 32)) low

/-! ## Statements -/

inductive Stmt
  | varDecl (v : Var)
  | move (lhs : Var) (rhs : Exp)
  deriving DecidableEq, Repr

variable {μ : Type} [VineMemory μ]

def Stmt.exec : Stmt → Valuation μ → Valuation μ
  | .varDecl _, ρ => ρ
  | .move lhs rhs, ρ => ρ.setTemp lhs ((rhs.eval ρ rhs.width).setWidth 64)

def exec (stmts : List Stmt) (ρ : Valuation μ) : Valuation μ :=
  stmts.foldl (fun ρ s => s.exec ρ) ρ

@[simp] theorem exec_nil (ρ : Valuation μ) : exec [] ρ = ρ := rfl

@[simp] theorem exec_cons (s : Stmt) (stmts : List Stmt) (ρ : Valuation μ) :
    exec (s :: stmts) ρ = exec stmts (s.exec ρ) := rfl

theorem exec_append (l l' : List Stmt) (ρ : Valuation μ) :
    exec (l ++ l') ρ = exec l' (exec l ρ) := by
  simp [exec]

/-! ## Which temporaries an expression reads -/

/-- Every temporary that the expression reads is in `S`. -/
def ReadsOnly (S : Var → Prop) : Exp → Prop
  | .binOp _ e1 e2 => ReadsOnly S e1 ∧ ReadsOnly S e2
  | .fbinOp _ _ e1 e2 => ReadsOnly S e1 ∧ ReadsOnly S e2
  | .unOp _ e1 => ReadsOnly S e1
  | .funOp _ _ e1 => ReadsOnly S e1
  | .temp v => S v
  | .mem _ addr _ => ReadsOnly S addr
  | .cast _ _ e1 => ReadsOnly S e1
  | .fcast _ _ _ e1 => ReadsOnly S e1
  | .letTemp _ e1 e2 => ReadsOnly S e1 ∧ ReadsOnly S e2
  | .letMem _ addr _ e1 e2 =>
      ReadsOnly S addr ∧ ReadsOnly S e1 ∧ ReadsOnly S e2
  | .ite cond e1 e2 => ReadsOnly S cond ∧ ReadsOnly S e1 ∧ ReadsOnly S e2
  | .constant _ | .name _ | .unknown _ => True

theorem ReadsOnly.mono {S T : Var → Prop} {e : Exp} (he : ReadsOnly S e)
    (h : ∀ v, S v → T v) : ReadsOnly T e := by
  induction e with
  | temp v => exact h v he
  | _ => simp_all [ReadsOnly]

@[simp] theorem readsOnly_translate32HLto64 {S : Var → Prop} {high low : Exp} :
    ReadsOnly S (translate32HLto64 high low) ↔
      ReadsOnly S high ∧ ReadsOnly S low := by
  simp [translate32HLto64, ReadsOnly]

/-- The valuations agree on the temporaries in `S` and on everything else that
is not a temporary. -/
structure AgreeOn (S : Var → Prop) (ρ ρ' : Valuation μ) : Prop where
  temp : ∀ v : Var, S v → ρ.temp v = ρ'.temp v
  mem : ρ.mem = ρ'.mem
  label : ρ.label = ρ'.label

section AgreeOn

omit [VineMemory μ]

variable {S T : Var → Prop} {ρ ρ' : Valuation μ}

theorem AgreeOn.mono (h : AgreeOn S ρ ρ') (hst : ∀ v, T v → S v) :
    AgreeOn T ρ ρ' := ⟨fun v hv => h.temp v (hst v hv), h.mem, h.label⟩

theorem AgreeOn.trans
    {ρ'' : Valuation μ} (h : AgreeOn S ρ ρ') (h' : AgreeOn S ρ' ρ'') :
    AgreeOn S ρ ρ'' :=
  ⟨fun v hv => (h.temp v hv).trans (h'.temp v hv), h.mem.trans h'.mem,
    h.label.trans h'.label⟩

theorem AgreeOn.setTemp (h : AgreeOn S ρ ρ') (v : Var) (x : I64) :
    AgreeOn S (ρ.setTemp v x) (ρ'.setTemp v x) where
  temp := by
    intro u hu
    by_cases heq : u = v
    · subst heq
      simp [Valuation.setTemp]
    · simp [Valuation.setTemp, heq, h.temp u hu]
  mem := h.mem
  label := h.label

theorem AgreeOn.setMem (h : AgreeOn S ρ ρ') (v : Var) (m : μ) :
    AgreeOn S (ρ.setMem v m) (ρ'.setMem v m) where
  temp := h.temp
  mem := by simp [Valuation.setMem, h.mem]
  label := h.label

end AgreeOn

theorem ReadsOnly.eval_eq
    {S : Var → Prop} {e : Exp} (he : ReadsOnly S e) {ρ ρ' : Valuation μ}
    (h : AgreeOn S ρ ρ') (w : ℕ) : e.eval ρ w = e.eval ρ' w := by
  induction e generalizing ρ ρ' w with
  | binOp op e1 e2 ih1 ih2 =>
    cases op <;> simp only [Exp.eval, ih1 he.1 h, ih2 he.2 h]
  | unOp op e1 ih => cases op <;> simp only [Exp.eval, ih he h]
  | constant v => cases v <;> rfl
  | temp v => simp only [Exp.eval, h.temp v he]
  | mem v addr t ih => simp only [Exp.eval, ih he h, h.mem]
  | name l => simp only [Exp.eval, h.label]
  | cast ct t e1 ih => cases ct <;> simp only [Exp.eval, ih he h]
  | letTemp v e1 e2 ih1 ih2 =>
    simp only [Exp.eval, ih1 he.1 h]
    exact ih2 he.2 (h.setTemp v _) w
  | letMem v addr t e1 e2 iha ih1 ih2 =>
    simp only [Exp.eval, iha he.1 h, ih1 he.2.1 h, h.mem]
    exact ih2 he.2.2 (h.setMem v _) w
  | ite cond e1 e2 ihc ih1 ih2 =>
    simp only [Exp.eval, ihc he.1 h, ih1 he.2.1 h, ih2 he.2.2 h]
  | fbinOp | funOp | fcast | unknown => rfl

/-- Temporaries numbered below `n`. -/
abbrev Numbered (n : ℕ) (v : Var) : Prop := v.id < n

/-- Every temporary that the expression reads is numbered below `n`. -/
abbrev Below (n : ℕ) : Exp → Prop := ReadsOnly (Numbered n)

theorem Below.mono {n m : ℕ} {e : Exp} (he : Below n e) (hnm : n ≤ m) :
    Below m e :=
  ReadsOnly.mono he fun _ hv => lt_of_lt_of_le hv (by exact_mod_cast hnm)

/-! ## Statements as definitions -/

/-- A move as a definition of its temporary, over a fixed memory. -/
def moveDefinition (ρ : Valuation μ) (lhs : Var) (rhs : Exp) :
    Definition Var I64 where
  target := lhs
  value := fun env =>
    (rhs.eval { ρ with temp := env } rhs.width).setWidth 64

def definitions (ρ : Valuation μ) : List Stmt → List (Definition Var I64)
  | [] => []
  | .varDecl _ :: stmts => definitions ρ stmts
  | .move lhs rhs :: stmts =>
      moveDefinition ρ lhs rhs :: definitions ρ stmts

theorem exec_eq_assignAll (stmts : List Stmt) (ρ : Valuation μ) :
    exec stmts ρ =
      { ρ with
        temp := Definition.assignAll (definitions ρ stmts) ρ.temp } := by
  suffices h : ∀ ρ' : Valuation μ, ρ'.mem = ρ.mem → ρ'.label = ρ.label →
      exec stmts ρ' =
        { ρ with
          temp := Definition.assignAll (definitions ρ stmts) ρ'.temp } from
    h ρ rfl rfl
  induction stmts with
  | nil =>
    intro ρ' hmem hlabel
    simp [definitions, ← hmem, ← hlabel]
  | cons s stmts ih =>
    intro ρ' hmem hlabel
    cases s with
    | varDecl v => exact ih ρ' hmem hlabel
    | move lhs rhs =>
      have hρ : { ρ with temp := ρ'.temp } = ρ' := by
        cases ρ'
        simp_all
      rw [exec_cons, ih ((Stmt.move lhs rhs).exec ρ') hmem hlabel]
      simp [definitions, Definition.assign, moveDefinition, hρ, Stmt.exec,
        Valuation.setTemp]

theorem moveDefinition_mem
    (ρ : Valuation μ) {lhs : Var} {rhs : Exp} {stmts : List Stmt}
    (h : .move lhs rhs ∈ stmts) :
    moveDefinition ρ lhs rhs ∈ definitions ρ stmts := by
  induction stmts with
  | nil => cases h
  | cons s stmts ih =>
    rcases List.mem_cons.mp h with rfl | hrest
    · exact List.mem_cons_self
    · cases s with
      | varDecl v => exact ih hrest
      | move lhs' rhs' => exact List.mem_cons_of_mem _ (ih hrest)

/-- The temporaries that the moves assign. -/
def targets : List Stmt → List Var
  | [] => []
  | .varDecl _ :: stmts => targets stmts
  | .move lhs _ :: stmts => lhs :: targets stmts

/-- No temporary is assigned twice, and no move reads one that it or a later
move assigns. -/
def SingleAssignment : List Stmt → Prop
  | [] => True
  | .varDecl _ :: stmts => SingleAssignment stmts
  | .move lhs rhs :: stmts =>
      ReadsOnly (· ∉ lhs :: targets stmts) rhs ∧ lhs ∉ targets stmts ∧
        SingleAssignment stmts

/-- Each move holds as an equation. -/
def Stmt.Holds (ρ : Valuation μ) : Stmt → Prop
  | .varDecl _ => True
  | .move lhs rhs => ρ.temp lhs = (rhs.eval ρ rhs.width).setWidth 64

theorem targets_definitions (ρ : Valuation μ) (stmts : List Stmt) :
    Definition.targets (definitions ρ stmts) = targets stmts := by
  induction stmts with
  | nil => rfl
  | cons s stmts ih =>
    cases s with
    | varDecl v => exact ih
    | move lhs rhs => exact congrArg (lhs :: ·) ih

theorem targets_append (stmts stmts' : List Stmt) :
    targets (stmts ++ stmts') = targets stmts ++ targets stmts' := by
  induction stmts with
  | nil => rfl
  | cons s stmts ih =>
    cases s with
    | varDecl v => exact ih
    | move lhs rhs => exact congrArg (lhs :: ·) ih

variable {n m k : ℕ} {stmts stmts' : List Stmt}

theorem SingleAssignment.definitions
    (h : SingleAssignment stmts) (ρ : Valuation μ) :
    Definition.SingleAssignment (Asmir.definitions ρ stmts) := by
  induction stmts with
  | nil => trivial
  | cons s stmts ih =>
    cases s with
    | varDecl v => exact ih h
    | move lhs rhs =>
      refine ⟨?_, ?_, ih h.2.2⟩
      · intro env env' henv
        have htargets : Definition.targets
            (moveDefinition ρ lhs rhs :: Asmir.definitions ρ stmts) =
              lhs :: targets stmts :=
          targets_definitions ρ (.move lhs rhs :: stmts)
        have hagree : AgreeOn (· ∉ lhs :: targets stmts)
            { ρ with temp := env } { ρ with temp := env' } := by
          refine ⟨fun v hv => henv v ?_, rfl, rfl⟩
          intro hmem
          rw [htargets] at hmem
          exact hv hmem
        simp only [moveDefinition, h.1.eval_eq hagree]
      · rw [targets_definitions]
        exact h.2.1

/-- Emitted code leaves the temporaries that it does not assign. -/
theorem agreeOn_exec (stmts : List Stmt) (ρ : Valuation μ) :
    AgreeOn (· ∉ targets stmts) ρ (exec stmts ρ) := by
  rw [exec_eq_assignAll]
  refine ⟨?_, rfl, rfl⟩
  intro v hv
  rw [← targets_definitions ρ] at hv
  exact (Definition.assignAll_eq ρ.temp hv).symm

/-- After emitted code has run, every move in it holds. -/
theorem SingleAssignment.holds
    (h : SingleAssignment stmts) (ρ : Valuation μ) :
    ∀ s ∈ stmts, s.Holds (exec stmts ρ) := by
  intro s hs
  cases s with
  | varDecl v => trivial
  | move lhs rhs =>
    have hmem := moveDefinition_mem ρ hs
    rw [exec_eq_assignAll]
    exact (h.definitions ρ).holds ρ.temp _ hmem

/-! ## Moves to new temporaries -/

/-- The moves assign temporaries numbered `n`, `n + 1`, … up to `m`, each from
temporaries of lower numbers. -/
def Ordered : ℕ → List Stmt → ℕ → Prop
  | n, [], m => n = m
  | n, .varDecl _ :: stmts, m => Ordered n stmts m
  | n, .move lhs rhs :: stmts, m =>
      lhs.id = n ∧ Below n rhs ∧ Ordered (n + 1) stmts m

theorem Ordered.le (h : Ordered n stmts m) : n ≤ m := by
  induction stmts generalizing n with
  | nil => exact h.le
  | cons s stmts ih =>
    cases s with
    | varDecl v => exact ih h
    | move lhs rhs => exact (Nat.le_succ n).trans (ih h.2.2)

theorem Ordered.append
    (h : Ordered n stmts m) (h' : Ordered m stmts' k) :
    Ordered n (stmts ++ stmts') k := by
  induction stmts generalizing n with
  | nil =>
    have hnm : n = m := h
    exact hnm ▸ h'
  | cons s stmts ih =>
    cases s with
    | varDecl v => exact ih h
    | move lhs rhs => exact ⟨h.1, h.2.1, ih h.2.2⟩

theorem Ordered.le_id
    (h : Ordered n stmts m) : ∀ v ∈ targets stmts, (n : ℤ) ≤ v.id := by
  induction stmts generalizing n with
  | nil => simp [targets]
  | cons s stmts ih =>
    cases s with
    | varDecl v => exact ih h
    | move lhs rhs =>
      intro v hv
      rcases List.mem_cons.mp hv with rfl | hv
      · exact h.1.ge
      · have hle := ih h.2.2 v hv
        push_cast at hle
        omega

theorem Ordered.notMem_targets
    (h : Ordered n stmts m) {v : Var} (hv : Numbered n v) :
    v ∉ targets stmts := fun hmem => absurd (h.le_id v hmem) (not_le.mpr hv)

theorem Ordered.singleAssignment (h : Ordered n stmts m) :
    SingleAssignment stmts := by
  induction stmts generalizing n with
  | nil => trivial
  | cons s stmts ih =>
    cases s with
    | varDecl v => exact ih h
    | move lhs rhs =>
      obtain ⟨hid, hreads, hrest⟩ := h
      have hlt : Numbered (n + 1) lhs := by
        unfold Numbered
        push_cast
        omega
      refine ⟨ReadsOnly.mono hreads ?_, hrest.notMem_targets hlt, ih hrest⟩
      intro v hv hmem
      have hord : Ordered n (.move lhs rhs :: stmts) m := ⟨hid, hreads, hrest⟩
      exact hord.notMem_targets hv hmem

/-- Code that assigns new temporaries leaves those that were there before. -/
theorem Ordered.agreeOn
    (h : Ordered n stmts m) (ρ : Valuation μ) :
    AgreeOn (Numbered n) ρ (exec stmts ρ) :=
  (agreeOn_exec stmts ρ).mono fun _ hv => h.notMem_targets hv

/-! ## Emitting code -/

/-- What a translation function returns, the statements it appends to `irout`
and `temp_counter` after it. -/
structure Emitted (α : Type) where
  value : α
  stmts : List Stmt
  counter : ℕ

/-- A translation function, from `temp_counter`. -/
def Emit (α : Type) := ℕ → Emitted α

instance : Monad Emit where
  pure a := fun n => ⟨a, [], n⟩
  bind x f := fun n =>
    let r := x n
    let s := f r.value r.counter
    ⟨s.value, r.stmts ++ s.stmts, s.counter⟩

/-- The temporary of the given number. -/
def tempVar (type : Typ) (n : ℕ) : Var :=
  ⟨n, OString.ofAscii ("T_" ++ toString n), type⟩

def mkTemp (type : Typ) : Emit Var := fun n =>
  ⟨tempVar type n, [.varDecl (tempVar type n)], n + 1⟩

def push (s : Stmt) : Emit Unit := fun n => ⟨(), [s], n⟩

def mkTempDef (type : Typ) (val : Exp) : Emit Exp := do
  let t ← mkTemp type
  push (.move t val)
  pure (.temp t)

/-! ## Specifications of emitted code -/

variable {α β : Type} {ρ : Valuation μ} {P : α → Prop} {Q : β → Prop}

/-- Wherever the emitted moves hold, the result satisfies `P`. -/
structure Yields (ρ : Valuation μ) (x : Emit α) (P : α → Prop) : Prop where
  result : ∀ n, (∀ s ∈ (x n).stmts, s.Holds ρ) → P (x n).value

theorem yields_pure {a : α} (h : P a) : Yields ρ (pure a) P :=
  ⟨fun _ _ => h⟩

theorem yields_bind
    {x : Emit α} {f : α → Emit β} (hx : Yields ρ x P)
    (hf : ∀ a, P a → Yields ρ (f a) Q) : Yields ρ (x >>= f) Q := by
  constructor
  intro n h
  have ha : P (x n).value :=
    hx.result n fun s hs => h s (List.mem_append_left _ hs)
  exact (hf _ ha).result _ fun s hs => h s (List.mem_append_right _ hs)

theorem Yields.imp {x : Emit α} {P P' : α → Prop}
    (h : Yields ρ x P) (himp : ∀ a, P a → P' a) : Yields ρ x P' :=
  ⟨fun n hn => himp _ (h.result n hn)⟩

/-- The expression has the type and, at its width, the value. -/
structure Denotes (ρ : Valuation μ) (e : Exp) (t : Typ) {w : ℕ}
    (x : BitVec w) : Prop where
  typ : e.typ = t
  width : t.width = w
  eval : e.eval ρ w = x

/-- A condition with the truth value `b`. -/
abbrev DenotesBool (ρ : Valuation μ) (e : Exp) (b : Bool) : Prop :=
  Denotes ρ e .reg1 (flag 1 b)

theorem shiftLeft_or_eq_append {n m : ℕ} (x : BitVec n) (y : BitVec m) :
    x.setWidth (n + m) <<< m ||| y.setWidth (n + m) = x ++ y := by
  apply BitVec.eq_of_getLsbD_eq
  intro i hi
  by_cases him : i < m
  · simp [BitVec.getElem_append, him, hi]
  · have hy : y.getLsbD i = false := BitVec.getLsbD_of_ge y i (by omega)
    have hx : x.getLsbD (i - m) = x[i - m] :=
      BitVec.getLsbD_eq_getElem (by omega)
    simp [BitVec.getElem_append, him, hi, hy, hx]

namespace Denotes

variable {t u : Typ} {w v : ℕ} {a b c : Exp} {x y : BitVec w} {z : BitVec v}
  {p q r : Bool}

theorem expWidth (h : Denotes ρ a t x) : a.width = w :=
  (congrArg Typ.width h.typ).trans h.width

/-- An expression keeps its value when the temporaries that it reads do. -/
theorem congr {S : Var → Prop} {ρ' : Valuation μ} (h : Denotes ρ a t x)
    (hreads : ReadsOnly S a) (hagree : AgreeOn S ρ ρ') : Denotes ρ' a t x := by
  refine ⟨h.typ, h.width, ?_⟩
  rw [← hreads.eval_eq hagree]
  exact h.eval

/-- What an operation makes of its operand, read at its own width. -/
theorem operand {γ : Type} (f : (w : ℕ) → BitVec w → γ)
    (ha : Denotes ρ a t x) : f a.width (a.eval ρ a.width) = f w x := by
  have hw := ha.expWidth
  subst hw
  rw [ha.eval]

theorem compare (f : (w : ℕ) → BitVec w → BitVec w → Bool)
    (ha : Denotes ρ a t x) (hb : Denotes ρ b t y) :
    flag 1 (f a.width (a.eval ρ a.width) (b.eval ρ a.width)) =
      flag 1 (f w x y) := by
  have hw := ha.expWidth
  subst hw
  rw [ha.eval, hb.eval]

theorem const32 (value : BitVec 32) :
    Denotes ρ (exConst value) .reg32 value :=
  ⟨rfl, rfl, BitVec.setWidth_setWidth_of_le value (by decide)⟩

theorem const64 (value : I64) : Denotes ρ (exConst64 value) .reg64 value :=
  ⟨rfl, rfl, BitVec.setWidth_eq value⟩

theorem constOf (t : Typ) (value : I64) :
    Denotes ρ (exConstOf t value) t (value.setWidth t.width) :=
  ⟨rfl, rfl, rfl⟩

theorem add (ha : Denotes ρ a t x) (hb : Denotes ρ b t y) :
    Denotes ρ (exAdd a b) t (x + y) :=
  ⟨ha.typ, ha.width, by simp only [Exp.eval, ha.eval, hb.eval]⟩

theorem sub (ha : Denotes ρ a t x) (hb : Denotes ρ b t y) :
    Denotes ρ (exSub a b) t (x - y) :=
  ⟨ha.typ, ha.width, by simp only [Exp.eval, ha.eval, hb.eval]⟩

theorem mul (ha : Denotes ρ a t x) (hb : Denotes ρ b t y) :
    Denotes ρ (exMul a b) t (x * y) :=
  ⟨ha.typ, ha.width, by simp only [Exp.eval, ha.eval, hb.eval]⟩

theorem div (ha : Denotes ρ a t x) (hb : Denotes ρ b t y) :
    Denotes ρ (exDiv a b) t (x.smtUDiv y) :=
  ⟨ha.typ, ha.width, by simp only [Exp.eval, ha.eval, hb.eval]⟩

theorem mod (ha : Denotes ρ a t x) (hb : Denotes ρ b t y) :
    Denotes ρ (exMod a b) t (x % y) :=
  ⟨ha.typ, ha.width, by simp only [Exp.eval, ha.eval, hb.eval]⟩

theorem and (ha : Denotes ρ a t x) (hb : Denotes ρ b t y) :
    Denotes ρ (exAnd a b) t (x &&& y) :=
  ⟨ha.typ, ha.width, by simp only [Exp.eval, ha.eval, hb.eval]⟩

theorem or (ha : Denotes ρ a t x) (hb : Denotes ρ b t y) :
    Denotes ρ (exOr a b) t (x ||| y) :=
  ⟨ha.typ, ha.width, by simp only [Exp.eval, ha.eval, hb.eval]⟩

theorem xor (ha : Denotes ρ a t x) (hb : Denotes ρ b t y) :
    Denotes ρ (exXor a b) t (x ^^^ y) :=
  ⟨ha.typ, ha.width, by simp only [Exp.eval, ha.eval, hb.eval]⟩

theorem not (ha : Denotes ρ a t x) : Denotes ρ (exNot a) t (~~~x) :=
  ⟨ha.typ, ha.width, by simp only [Exp.eval, ha.eval]⟩

theorem neg (ha : Denotes ρ a t x) : Denotes ρ (exNeg a) t (-x) :=
  ⟨ha.typ, ha.width, by simp only [Exp.eval, ha.eval]⟩

theorem shl (ha : Denotes ρ a t x) (hb : Denotes ρ b u z) :
    Denotes ρ (exShl a b) t (x <<< z.toNat) :=
  ⟨ha.typ, ha.width, by
    simp only [Exp.eval, ha.eval]
    exact hb.operand (fun _ z => x <<< z.toNat)⟩

theorem shr (ha : Denotes ρ a t x) (hb : Denotes ρ b u z) :
    Denotes ρ (exShr a b) t (x >>> z.toNat) :=
  ⟨ha.typ, ha.width, by
    simp only [Exp.eval, ha.eval]
    exact hb.operand (fun _ z => x >>> z.toNat)⟩

theorem sar (ha : Denotes ρ a t x) (hb : Denotes ρ b u z) :
    Denotes ρ (exSar a b) t (x.sshiftRight z.toNat) :=
  ⟨ha.typ, ha.width, by
    simp only [Exp.eval, ha.eval]
    exact hb.operand (fun _ z => x.sshiftRight z.toNat)⟩

theorem eq (ha : Denotes ρ a t x) (hb : Denotes ρ b t y) :
    DenotesBool ρ (exEq a b) (x == y) :=
  ⟨rfl, rfl, ha.compare (fun _ => BEq.beq) hb⟩

theorem neq (ha : Denotes ρ a t x) (hb : Denotes ρ b t y) :
    DenotesBool ρ (exNeq a b) (x != y) :=
  ⟨rfl, rfl, ha.compare (fun _ => bne) hb⟩

theorem lt (ha : Denotes ρ a t x) (hb : Denotes ρ b t y) :
    DenotesBool ρ (exLt a b) (x.ult y) :=
  ⟨rfl, rfl, ha.compare (fun _ => BitVec.ult) hb⟩

theorem le (ha : Denotes ρ a t x) (hb : Denotes ρ b t y) :
    DenotesBool ρ (exLe a b) (x.ule y) :=
  ⟨rfl, rfl, ha.compare (fun _ => BitVec.ule) hb⟩

theorem ge (ha : Denotes ρ a t x) (hb : Denotes ρ b t y) :
    DenotesBool ρ (exGe a b) (y.ule x) := hb.le ha

theorem slt (ha : Denotes ρ a t x) (hb : Denotes ρ b t y) :
    DenotesBool ρ (exSlt a b) (x.slt y) :=
  ⟨rfl, rfl, ha.compare (fun _ => BitVec.slt) hb⟩

theorem sle (ha : Denotes ρ a t x) (hb : Denotes ρ b t y) :
    DenotesBool ρ (exSle a b) (x.sle y) :=
  ⟨rfl, rfl, ha.compare (fun _ => BitVec.sle) hb⟩

theorem ucast (ha : Denotes ρ a t x) (u : Typ) :
    Denotes ρ (exUCast a u) u (x.setWidth u.width) :=
  ⟨rfl, rfl, ha.operand (fun _ => BitVec.setWidth u.width)⟩

theorem scast (ha : Denotes ρ a t x) (u : Typ) :
    Denotes ρ (exSCast a u) u (x.signExtend u.width) :=
  ⟨rfl, rfl, ha.operand (fun _ => BitVec.signExtend u.width)⟩

theorem lcast (ha : Denotes ρ a t x) (u : Typ) :
    Denotes ρ (exLCast a u) u (x.setWidth u.width) :=
  ⟨rfl, rfl, ha.operand (fun _ => BitVec.setWidth u.width)⟩

theorem hcast (ha : Denotes ρ a t x) (u : Typ) :
    Denotes ρ (exHCast a u) u (Bits.high u.width x) :=
  ⟨rfl, rfl, ha.operand (fun _ => Bits.high u.width)⟩

theorem ite (hc : DenotesBool ρ c p) (ha : Denotes ρ a t x)
    (hb : Denotes ρ b t y) :
    Denotes ρ (exIte c a b) t (if p then x else y) := by
  refine ⟨ha.typ, ha.width, ?_⟩
  rw [Exp.eval, hc.eval, ha.eval, hb.eval]
  cases p <;> rfl

theorem andBool (ha : DenotesBool ρ a p) (hb : DenotesBool ρ b q) :
    DenotesBool ρ (exAnd a b) (p && q) := by
  have h := ha.and hb
  cases p <;> cases q <;> exact h

theorem orBool (ha : DenotesBool ρ a p) (hb : DenotesBool ρ b q) :
    DenotesBool ρ (exOr a b) (p || q) := by
  have h := ha.or hb
  cases p <;> cases q <;> exact h

theorem xorBool (ha : DenotesBool ρ a p) (hb : DenotesBool ρ b q) :
    DenotesBool ρ (exXor a b) (p ^^ q) := by
  have h := ha.xor hb
  cases p <;> cases q <;> exact h

theorem notBool (ha : DenotesBool ρ a p) : DenotesBool ρ (exNot a) (!p) := by
  have h := ha.not
  cases p <;> exact h

theorem iteBool (hc : DenotesBool ρ c p) (ha : DenotesBool ρ a q)
    (hb : DenotesBool ρ b r) :
    DenotesBool ρ (exIte c a b) (if p then q else r) := by
  have h := hc.ite ha hb
  cases p <;> exact h

theorem translate32HLto64 {x y : BitVec 32} (ha : Denotes ρ a .reg32 x)
    (hb : Denotes ρ b .reg32 y) :
    Denotes ρ (translate32HLto64 a b) .reg64 (x ++ y : BitVec 64) := by
  have h := ((ha.ucast .reg64).shl (const32 32)).or (hb.ucast .reg64)
  rw [← shiftLeft_or_eq_append]
  exact h

end Denotes

theorem agreeOn_move (v : Var) (rhs : Exp) (ρ : Valuation μ) :
    AgreeOn (· ≠ v) ρ (exec [.move v rhs] ρ) :=
  (agreeOn_exec [.move v rhs] ρ).mono fun u hu => by simpa [targets] using hu

theorem denotes_move
    {v : Var} {rhs : Exp} {t : Typ} {w : ℕ} {x : BitVec w} (hv : v.typ = t)
    (h : Denotes ρ rhs t x) : Denotes (exec [.move v rhs] ρ) (.temp v) t x := by
  refine ⟨hv, h.width, ?_⟩
  change ((ρ.setTemp v ((rhs.eval ρ rhs.width).setWidth 64)).temp v).setWidth w
    = x
  simp only [Valuation.setTemp, Function.update_self]
  rw [h.expWidth, h.eval, BitVec.setWidth_setWidth_of_le _
    (h.width ▸ Typ.width_le t), BitVec.setWidth_eq]

theorem yields_mkTemp
    {t : Typ} {f : Var → Emit β}
    (hf : ∀ v : Var, v.typ = t → Yields ρ (f v) Q) :
    Yields ρ (mkTemp t >>= f) Q :=
  yields_bind (P := fun v => v.typ = t) ⟨fun _ _ => rfl⟩ hf

theorem yields_move
    {v : Var} {t : Typ} {val : Exp} {w : ℕ} {x : BitVec w}
    {f : Unit → Emit β} (hv : v.typ = t) (hval : Denotes ρ val t x)
    (hf : Denotes ρ (.temp v) t x → Yields ρ (f ()) Q) :
    Yields ρ (push (.move v val) >>= f) Q := by
  refine yields_bind (P := fun _ => Denotes ρ (.temp v) t x) ⟨?_⟩
    fun _ => hf
  intro n h
  have hmove : ρ.temp v = (val.eval ρ val.width).setWidth 64 :=
    h (.move v val) (by simp [push])
  refine ⟨hv, hval.width, ?_⟩
  change (ρ.temp v).setWidth w = x
  rw [hmove, hval.expWidth, hval.eval, BitVec.setWidth_setWidth_of_le _
    (hval.width ▸ Typ.width_le t), BitVec.setWidth_eq]

theorem yields_temp
    {t : Typ} {val : Exp} {w : ℕ} {x : BitVec w} {f : Exp → Emit β}
    (hval : Denotes ρ val t x)
    (hf : ∀ e, Denotes ρ e t x → Yields ρ (f e) Q) :
    Yields ρ (mkTempDef t val >>= f) Q := by
  refine yields_bind (P := fun e => Denotes ρ e t x) ?_ hf
  apply yields_mkTemp
  intro v hv
  exact yields_move hv hval fun h => yields_pure h

/-- The code emitted from counter `n` is ordered, and what it returns
satisfies `P` at the counter it leaves. -/
def Places (n : ℕ) (x : Emit α) (P : ℕ → α → Prop) : Prop :=
  Ordered n (x n).stmts (x n).counter ∧ P (x n).counter (x n).value

theorem places_pure {P : ℕ → α → Prop} {a : α} (h : P n a) :
    Places n (pure a) P := ⟨rfl, h⟩

theorem places_bind {P : ℕ → α → Prop} {Q : ℕ → β → Prop}
    {x : Emit α} {f : α → Emit β} (hx : Places n x P)
    (hf : ∀ m a, n ≤ m → P m a → Places m (f a) Q) :
    Places n (x >>= f) Q := by
  obtain ⟨hord, hval⟩ := hx
  obtain ⟨hord', hval'⟩ := hf _ _ hord.le hval
  exact ⟨hord.append hord', hval'⟩

theorem places_temp {Q : ℕ → β → Prop} {t : Typ} {val : Exp}
    {f : Exp → Emit β} (hval : Below n val)
    (hf : Places (n + 1) (f (.temp (tempVar t n))) Q) :
    Places n (mkTempDef t val >>= f) Q := by
  refine places_bind (P := fun m e => m = n + 1 ∧ e = .temp (tempVar t n))
    ⟨⟨rfl, hval, rfl⟩, rfl, rfl⟩ ?_
  intro m e _ he
  rw [he.1, he.2]
  exact hf

/-- Emitted code that has run from a valuation: its result is as specified
under the final valuation, which agrees with the first on all that was there
before. -/
theorem Places.run
    {x : Emit α} {P : ℕ → α → Prop} (hx : Places n x P) (ρ : Valuation μ)
    {Q : Valuation μ → α → Prop}
    (hy : ∀ ρ', AgreeOn (Numbered n) ρ ρ' → Yields ρ' x (Q ρ')) :
    Q (exec (x n).stmts ρ) (x n).value ∧
      AgreeOn (Numbered n) ρ (exec (x n).stmts ρ) :=
  ⟨(hy _ (hx.1.agreeOn ρ)).result n (hx.1.singleAssignment.holds ρ),
    hx.1.agreeOn ρ⟩

/-- Both lanes read temporaries numbered below `n` only. -/
def Below128 (n : ℕ) (e : Exp128) : Prop :=
  Below n (splitVector e).1 ∧ Below n (splitVector e).2

/-- An operand of a translation function: an expression of the type, over
temporaries numbered below `n`. -/
structure Operand (n : ℕ) (t : Typ) (e : Exp) : Prop where
  typ : e.typ = t
  below : Below n e

theorem Operand.denotes
    {n : ℕ} {e : Exp} {t : Typ} (h : Operand n t e) {ρ ρ' : Valuation μ}
    (hρ : AgreeOn (Numbered n) ρ ρ') : Denotes ρ' e t (e.eval ρ t.width) :=
  ⟨h.typ, rfl, (h.below.eval_eq hρ _).symm⟩

end Fuzzball.Asmir
