import Fuzzball.Asmir
import Fuzzball.OCamlFormat

/-!
# Statements with labels and jumps

Code of the VEX translation as the fragment machine runs it.  A jump to a label
continues at the first statement of the fragment that carries the label, and
leaves the fragment when none does.  Labels get their numbers from
`label_counter`, as temporaries do from `temp_counter`.
-/

namespace Fuzzball.Asmir

open Vine

inductive Statement
  | varDecl (v : Var)
  | move (lhs rhs : Exp)
  | label (label : OString)
  | jmp (target : Exp)
  | cjmp (cond tTarget fTarget : Exp)
  | special (special : OString)
  | call (lvalOpt : Option Exp) (callee : Exp) (params : List Exp)
  | ret (expOpt : Option Exp)
  | assertion (cond : Exp)
  deriving DecidableEq, Repr

/-- The statement is well typed. -/
def Statement.WellTyped : Statement → Prop
  | .varDecl v => v.typ.IsReg
  | .move (.temp v) rhs => v.typ.IsReg ∧ rhs.WellTyped ∧ rhs.typ = v.typ
  | .move (.mem mem addr t) rhs =>
      (Exp.mem mem addr t).WellTyped ∧ rhs.WellTyped ∧ rhs.typ = t
  | .move _ _ => False
  | .label _ | .special _ => True
  | .jmp target => target.WellTyped
  | .cjmp cond tTarget fTarget =>
      cond.WellTyped ∧ cond.typ = .reg1 ∧ tTarget.WellTyped ∧
        fTarget.WellTyped
  | .call lvalOpt callee params =>
      (∀ e ∈ lvalOpt, e.WellTyped) ∧ callee.WellTyped ∧
        ∀ e ∈ params, e.WellTyped
  | .ret expOpt => ∀ e ∈ expOpt, e.WellTyped
  | .assertion cond => cond.WellTyped ∧ cond.typ = .reg1

/-! ## Running a fragment -/

/-- `find_label` of `jump`: what follows from the label on. -/
def findLabel (lab : OString) : List Statement → Option (List Statement)
  | [] => none
  | s :: rest =>
    if s = .label lab then some (s :: rest) else findLabel lab rest

/-- The statements that remain to be run, or the label outside the fragment to
which control goes. -/
inductive Config (μ : Type)
  | running (sl : List Statement) (ρ : Valuation μ)
  | left (lab : OString) (ρ : Valuation μ)

variable {μ : Type} [VineMemory μ]

/-- `jump` -/
def jump (frag : List Statement) (lab : OString) (ρ : Valuation μ) :
    Config μ :=
  match findLabel lab frag with
  | some sl => .running sl ρ
  | none => .left lab ρ

/-- Storing to a memory variable. -/
def storeMem (mem : Var) (addr : Exp) (t : Typ) (rhs : Exp)
    (ρ : Valuation μ) : Valuation μ :=
  ρ.setMem mem (VineMemory.store (ρ.mem mem) t
    ((addr.eval ρ addr.width).setWidth 64)
    ((rhs.eval ρ rhs.width).setWidth 64))

/-- One round of the loop of `run_sl`.  There is none at the end of the
fragment, outside it, and at a statement that the machine hands on or fails
at. -/
def step (frag : List Statement) : Config μ → Option (Config μ)
  | .running (.varDecl _ :: rest) ρ => some (.running rest ρ)
  | .running (.label _ :: rest) ρ => some (.running rest ρ)
  | .running (.move (.temp v) rhs :: rest) ρ =>
      some (.running rest (ρ.setTemp v ((rhs.eval ρ rhs.width).setWidth 64)))
  | .running (.move (.mem mem addr t) rhs :: rest) ρ =>
      some (.running rest (storeMem mem addr t rhs ρ))
  | .running (.jmp (.name lab) :: _) ρ => some (jump frag lab ρ)
  | .running (.cjmp cond (.name lab1) (.name lab2) :: _) ρ =>
      some (jump frag (if cond.eval ρ 1 = 1 then lab1 else lab2) ρ)
  | .running (.assertion cond :: rest) ρ =>
      if cond.eval ρ 1 = 1 then some (.running rest ρ) else none
  | _ => none

/-- The fragment runs from one configuration to the other. -/
def Reaches (frag : List Statement) : Config μ → Config μ → Prop :=
  Relation.ReflTransGen fun c d => step frag c = some d

section Reaches

variable {frag rest sl : List Statement} {ρ : Valuation μ} {c d : Config μ}

theorem Reaches.refl : Reaches frag c c := Relation.ReflTransGen.refl

theorem Reaches.trans {e : Config μ} (h : Reaches frag c d)
    (h' : Reaches frag d e) : Reaches frag c e := Relation.ReflTransGen.trans h h'

theorem Reaches.head {e : Config μ} (h : step frag c = some d)
    (h' : Reaches frag d e) : Reaches frag c e :=
  Relation.ReflTransGen.head h h'

theorem reaches_varDecl {v : Var} (h : Reaches frag (.running rest ρ) d) :
    Reaches frag (.running (.varDecl v :: rest) ρ) d := h.head rfl

theorem reaches_label {lab : OString}
    (h : Reaches frag (.running rest ρ) d) :
    Reaches frag (.running (.label lab :: rest) ρ) d := h.head rfl

theorem reaches_move {v : Var} {rhs : Exp}
    (h : Reaches frag (.running rest (exec [.move v rhs] ρ)) d) :
    Reaches frag (.running (.move (.temp v) rhs :: rest) ρ) d := h.head rfl

theorem reaches_store {mem : Var} {addr rhs : Exp} {t : Typ}
    (h : Reaches frag (.running rest (storeMem mem addr t rhs ρ)) d) :
    Reaches frag (.running (.move (.mem mem addr t) rhs :: rest) ρ) d :=
  h.head rfl

theorem reaches_jmp {lab : OString} (hlab : findLabel lab frag = some sl)
    (h : Reaches frag (.running sl ρ) d) :
    Reaches frag (.running (.jmp (.name lab) :: rest) ρ) d := by
  apply Reaches.head (d := .running sl ρ) _ h
  simp [step, jump, hlab]

theorem reaches_cjmp {cond : Exp} {lab1 lab2 : OString} {b : Bool}
    (hcond : DenotesBool ρ cond b)
    (hlab : findLabel (if b then lab1 else lab2) frag = some sl)
    (h : Reaches frag (.running sl ρ) d) :
    Reaches frag
      (.running (.cjmp cond (.name lab1) (.name lab2) :: rest) ρ) d := by
  have heval : cond.eval ρ 1 = flag 1 b := hcond.eval
  apply Reaches.head (d := .running sl ρ) _ h
  cases b with
  | false =>
    rw [if_neg Bool.false_ne_true] at hlab
    simp [step, jump, heval, hlab, flag]
  | true =>
    rw [if_pos rfl] at hlab
    simp [step, jump, heval, hlab, flag]

/-- A fragment has one way to run, up to where it stands still. -/
theorem Reaches.unique {e : Config μ} (h : Reaches frag c d)
    (h' : Reaches frag c e) (hd : step frag d = none)
    (he : step frag e = none) : d = e := by
  induction h using Relation.ReflTransGen.head_induction_on with
  | refl =>
    rcases Relation.ReflTransGen.cases_head h' with rfl | ⟨b, hb, _⟩
    · rfl
    · rw [hd] at hb
      cases hb
  | head hstep _ ih =>
    rcases Relation.ReflTransGen.cases_head h' with rfl | ⟨b, hb, hrest⟩
    · rw [he] at hstep
      cases hstep
    · rw [hstep] at hb
      cases hb
      exact ih hrest

end Reaches

/-! ## Labels -/

/-- The labels that the statements carry. -/
def labels : List Statement → List OString
  | [] => []
  | .label lab :: rest => lab :: labels rest
  | _ :: rest => labels rest

theorem labels_append (sl sl' : List Statement) :
    labels (sl ++ sl') = labels sl ++ labels sl' := by
  induction sl with
  | nil => rfl
  | cons s sl ih => cases s <;> simp [labels, ih]

theorem findLabel_append {lab : OString} {sl : List Statement}
    (h : lab ∉ labels sl) (rest : List Statement) :
    findLabel lab (sl ++ .label lab :: rest) = some (.label lab :: rest) := by
  induction sl with
  | nil => exact if_pos rfl
  | cons s sl ih =>
    rw [List.cons_append, findLabel]
    rw [if_neg]
    · apply ih
      cases s <;> simp_all [labels]
    · rintro rfl
      exact h List.mem_cons_self

theorem findLabel_eq_none {lab : OString} {sl : List Statement}
    (h : lab ∉ labels sl) : findLabel lab sl = none := by
  induction sl with
  | nil => rfl
  | cons s sl ih =>
    rw [findLabel, if_neg]
    · apply ih
      cases s <;> simp_all [labels]
    · rintro rfl
      exact h List.mem_cons_self

/-- The label of the given number. -/
def labelName (n : ℕ) : OString := OString.ofAscii ("L_" ++ toString n)

theorem labelName_injective : Function.Injective labelName := by
  intro n m h
  rw [labelName, labelName, OString.ofAscii_append,
    OString.ofAscii_append] at h
  exact ofAscii_toString_injective (List.append_cancel_left h)

/-- No label of number `n` or more stands in the code. -/
def LabelsBelow (n : ℕ) (sl : List Statement) : Prop :=
  ∀ k, n ≤ k → labelName k ∉ labels sl

/-- The labels in the code have numbers from `n` up to `m`. -/
structure LabelsWithin (n : ℕ) (sl : List Statement) (m : ℕ) : Prop where
  le : n ≤ m
  number : ∀ lab ∈ labels sl, ∃ k, n ≤ k ∧ k < m ∧ lab = labelName k

section Numbers

variable {n m k : ℕ} {sl sl' : List Statement}

theorem labelsWithin_nil (hnm : n ≤ m) : LabelsWithin n [] m :=
  ⟨hnm, by simp [labels]⟩

theorem LabelsWithin.mono (h : LabelsWithin n sl m) {n' m' : ℕ}
    (hn : n' ≤ n) (hm : m ≤ m') : LabelsWithin n' sl m' := by
  refine ⟨hn.trans (h.le.trans hm), fun lab hlab => ?_⟩
  obtain ⟨k, hnk, hkm, rfl⟩ := h.number lab hlab
  exact ⟨k, hn.trans hnk, hkm.trans_le hm, rfl⟩

theorem LabelsWithin.append (h : LabelsWithin n sl m)
    (h' : LabelsWithin m sl' k) : LabelsWithin n (sl ++ sl') k := by
  refine ⟨h.le.trans h'.le, fun lab hlab => ?_⟩
  rw [labels_append] at hlab
  rcases List.mem_append.mp hlab with hlab | hlab
  · exact (h.mono le_rfl h'.le).number lab hlab
  · exact (h'.mono h.le le_rfl).number lab hlab

theorem LabelsBelow.mono (h : LabelsBelow n sl) (hnm : n ≤ m) :
    LabelsBelow m sl := fun k hk => h k (hnm.trans hk)

theorem LabelsBelow.append (h : LabelsBelow n sl)
    (h' : LabelsWithin n sl' m) : LabelsBelow m (sl ++ sl') := by
  intro k hk hmem
  rw [labels_append] at hmem
  rcases List.mem_append.mp hmem with hmem | hmem
  · exact h k (h'.le.trans hk) hmem
  · obtain ⟨j, _, hjm, hname⟩ := h'.number _ hmem
    have hkj := labelName_injective hname
    omega

/-- A label made while its number was new is found where it stands. -/
theorem LabelsBelow.findLabel (h : LabelsBelow n sl) (hnk : n ≤ k)
    (rest : List Statement) :
    findLabel (labelName k) (sl ++ .label (labelName k) :: rest) =
      some (.label (labelName k) :: rest) :=
  findLabel_append (h k hnk) rest

end Numbers

/-! ## Translation functions -/

/-- What a translation function returns, the statements it appends to `irout`,
and `temp_counter` and `label_counter` after it. -/
structure Translated (α : Type) where
  value : α
  stmts : List Statement
  temps : ℕ
  labels : ℕ

/-- A translation function, from `temp_counter` and `label_counter`. -/
def Translate (α : Type) := ℕ → ℕ → Translated α

instance : Monad Translate where
  pure a := fun n l => ⟨a, [], n, l⟩
  bind x f := fun n l =>
    let r := x n l
    let s := f r.value r.temps r.labels
    ⟨s.value, r.stmts ++ s.stmts, s.temps, s.labels⟩

def Stmt.toStatement : Stmt → Statement
  | .varDecl v => .varDecl v
  | .move lhs rhs => .move (.temp lhs) rhs

/-- A translation function that makes no labels. -/
def liftEmit {α : Type} (x : Emit α) : Translate α := fun n l =>
  ⟨(x n).value, (x n).stmts.map Stmt.toStatement, (x n).counter, l⟩

def pushBack (s : Statement) : Translate Unit := fun n l => ⟨(), [s], n, l⟩

/-- `mk_label`: the counter is a C++ `int`. -/
def mkLabel : Translate OString := fun n l => ⟨labelName l, [], n, l + 1⟩

/-! ## Code without jumps -/

theorem labels_toStatement (stmts : List Stmt) :
    labels (stmts.map Stmt.toStatement) = [] := by
  induction stmts with
  | nil => rfl
  | cons s stmts ih => cases s <;> exact ih

theorem labelsWithin_toStatement (n : ℕ) (stmts : List Stmt) :
    LabelsWithin n (stmts.map Stmt.toStatement) n :=
  ⟨le_rfl, by simp [labels_toStatement]⟩

theorem reaches_toStatement {frag rest : List Statement} {d : Config μ}
    (stmts : List Stmt) {ρ : Valuation μ}
    (h : Reaches frag (.running rest (exec stmts ρ)) d) :
    Reaches frag (.running (stmts.map Stmt.toStatement ++ rest) ρ) d := by
  induction stmts generalizing ρ with
  | nil => exact h
  | cons s stmts ih =>
    cases s with
    | varDecl v => exact reaches_varDecl (ih h)
    | move lhs rhs => exact reaches_move (ih h)

/-! ## What emitted code does -/

/-- Wherever the code stands, it runs to its end and leaves what was there
before; its result has the type, and a value as specified. -/
def Runs {μ : Type} [VineMemory μ] (ρ : Valuation μ) (n l : ℕ)
    (x : Translate Exp) (t : Typ) (Q : BitVec t.width → Prop) : Prop :=
  let r := x n l
  ∀ pre post : List Statement, LabelsBelow l pre →
    ∃ ρ' v, Reaches (pre ++ (r.stmts ++ post)) (.running (r.stmts ++ post) ρ)
        (.running post ρ') ∧
      AgreeOn (Numbered n) ρ ρ' ∧ Denotes ρ' r.value t v ∧ Q v

section Runs

variable {ρ : Valuation μ} {n l : ℕ} {x : Translate Exp} {t : Typ}
  {Q Q' : BitVec t.width → Prop}

theorem Runs.imp (h : Runs ρ n l x t Q) (himp : ∀ v, Q v → Q' v) :
    Runs ρ n l x t Q' := by
  intro pre post hpre
  obtain ⟨ρ', v, hreach, hagree, hv, hQ⟩ := h pre post hpre
  exact ⟨ρ', v, hreach, hagree, hv, himp v hQ⟩

/-- The result is determined. -/
theorem Runs.and (h : Runs ρ n l x t Q) (h' : Runs ρ n l x t Q') :
    ∃ v, Q v ∧ Q' v := by
  have hempty : LabelsBelow l [] := fun _ _ hmem => nomatch hmem
  obtain ⟨ρ1, v, hreach, _, hv, hQ⟩ := h [] [] hempty
  obtain ⟨ρ2, v', hreach', _, hv', hQ'⟩ := h' [] [] hempty
  have hconfig := hreach.unique hreach' rfl rfl
  obtain rfl : ρ1 = ρ2 := by
    injection hconfig
  obtain rfl : v = v' := hv.eval.symm.trans hv'.eval
  exact ⟨v, hQ, hQ'⟩

theorem Runs.iff_of_eq {v : BitVec t.width} (h : Runs ρ n l x t (· = v)) :
    Runs ρ n l x t Q ↔ Q v := by
  constructor
  · intro hQ
    obtain ⟨_, rfl, hv⟩ := h.and hQ
    exact hv
  · rintro hv
    exact h.imp fun _ heq => heq ▸ hv

theorem runs_liftEmit {x : Emit Exp} {P : ℕ → Exp → Prop}
    (hplaces : Places n x P)
    (hyields : ∀ ρ', AgreeOn (Numbered n) ρ ρ' →
      Yields ρ' x fun r => ∃ v, Denotes ρ' r t v ∧ Q v) :
    Runs ρ n l (liftEmit x) t Q := by
  intro pre post _
  obtain ⟨⟨v, hv, hQ⟩, hagree⟩ := hplaces.run ρ hyields
  exact ⟨_, v, reaches_toStatement _ Reaches.refl, hagree, hv, hQ⟩

end Runs

/-- The translation of an operation on operands of type `t`, with results of
type `u`. -/
structure Computes (t u : Typ) (translate : Exp → Translate Exp)
    (Spec : BitVec t.width → BitVec u.width → Prop) : Prop where
  run : ∀ {μ : Type} [VineMemory μ] {n : ℕ} (l : ℕ) {arg : Exp}
    (ρ : Valuation μ), Operand n t arg →
    Runs ρ n l (translate arg) u (Spec (arg.eval ρ t.width))

end Fuzzball.Asmir
