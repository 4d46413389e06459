import Mathlib.Logic.Function.Basic
import Mathlib.Tactic

/-!
# Straight-line definitions

A list of definitions is run by assigning each name in turn.  When no name is
assigned twice, and no definition reads a name that it or a later one assigns,
every definition holds as an equation in the environment at the end.
-/

namespace Fuzzball

/-- The definition of a name by a value that is computed in an environment. -/
structure Definition (X V : Type*) where
  target : X
  value : (X → V) → V

namespace Definition

variable {X V : Type*}

/-- The environment satisfies the definition as an equation. -/
def Holds (env : X → V) (d : Definition X V) : Prop :=
  env d.target = d.value env

/-- The value depends on the names in `S` only. -/
def ReadsOnly (S : X → Prop) (d : Definition X V) : Prop :=
  ∀ env env' : X → V, (∀ x, S x → env x = env' x) →
    d.value env = d.value env'

/-- The names the definitions assign. -/
def targets (ds : List (Definition X V)) : List X := ds.map target

def SingleAssignment : List (Definition X V) → Prop
  | [] => True
  | d :: ds =>
      d.ReadsOnly (· ∉ targets (d :: ds)) ∧ d.target ∉ targets ds ∧
        SingleAssignment ds

variable [DecidableEq X]

def assign (d : Definition X V) (env : X → V) : X → V :=
  Function.update env d.target (d.value env)

def assignAll (ds : List (Definition X V)) (env : X → V) : X → V :=
  ds.foldl (fun env d => d.assign env) env

@[simp] theorem assignAll_nil (env : X → V) : assignAll [] env = env := rfl

@[simp] theorem assignAll_cons (d : Definition X V) (ds : List (Definition X V))
    (env : X → V) : assignAll (d :: ds) env = assignAll ds (d.assign env) := rfl

/-- A name that is not assigned keeps its value. -/
theorem assignAll_eq
    {ds : List (Definition X V)} (env : X → V) {x : X}
    (hx : x ∉ targets ds) : assignAll ds env x = env x := by
  induction ds generalizing env with
  | nil => rfl
  | cons d ds ih =>
    have hne : x ≠ d.target := fun h => hx (h ▸ List.mem_cons_self)
    have hrest : x ∉ targets ds := fun h => hx (List.mem_cons_of_mem _ h)
    calc assignAll (d :: ds) env x = d.assign env x := ih _ hrest
      _ = env x := Function.update_of_ne hne _ _

/-- At the end every definition holds. -/
theorem SingleAssignment.holds
    {ds : List (Definition X V)} (h : SingleAssignment ds) (env : X → V) :
    ∀ d ∈ ds, d.Holds (assignAll ds env) := by
  induction ds generalizing env with
  | nil => simp
  | cons d ds ih =>
    obtain ⟨hreads, htarget, hrest⟩ := h
    intro c hc
    rcases List.mem_cons.mp hc with rfl | hc
    · -- later definitions change neither the name nor what its value reads
      have hname : assignAll ds (c.assign env) c.target = c.value env := by
        rw [assignAll_eq _ htarget, assign, Function.update_self]
      have hvalue :
          c.value (assignAll (c :: ds) env) = c.value env := by
        apply hreads
        intro x hx
        exact assignAll_eq env hx
      exact hname.trans hvalue.symm
    · exact ih hrest _ c hc

end Definition

end Fuzzball
