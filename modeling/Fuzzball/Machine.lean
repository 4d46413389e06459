import Mathlib.Data.List.Basic
import Mathlib.Tactic.Common

/-!
# Machines with outputs

A machine takes an input and a state to an output and the next state.  States
related by a bisimulation give the same outputs to every list of inputs, and an
invariant of the steps holds at the end of every run.
-/

namespace Fuzzball.Machine

variable {σ ι ω : Type} (step : σ → ι → ω × σ)

/-- The state after a list of inputs. -/
def run : σ → List ι → σ
  | s, [] => s
  | s, i :: is => run (step s i).2 is

def outputs : σ → List ι → List ω
  | _, [] => []
  | s, i :: is => (step s i).1 :: outputs (step s i).2 is

/-- A run whose steps all meet a condition on the state and the input. -/
def Meets (P : σ → ι → Prop) : σ → List ι → Prop
  | _, [] => True
  | s, i :: is => P s i ∧ Meets P (step s i).2 is

def Bisimulation (R : σ → σ → Prop) : Prop :=
  ∀ s t i, R s t →
    (step s i).1 = (step t i).1 ∧ R (step s i).2 (step t i).2

variable {step}

theorem Bisimulation.outputs_eq
    {R : σ → σ → Prop} (hR : Bisimulation step R) {s t : σ} (h : R s t)
    (is : List ι) : outputs step s is = outputs step t is := by
  induction is generalizing s t with
  | nil => rfl
  | cons i is ih =>
    obtain ⟨hout, hnext⟩ := hR s t i h
    rw [outputs, outputs, hout, ih hnext]

theorem run_invariant
    {P : σ → ι → Prop} {I : σ → Prop}
    (hI : ∀ s i, I s → P s i → I (step s i).2) {s : σ} (hs : I s)
    {is : List ι} (his : Meets step P s is) : I (run step s is) := by
  induction is generalizing s with
  | nil => exact hs
  | cons i is ih => exact ih (hI s i hs his.1) his.2

theorem run_keeps {I : σ → Prop} (hI : ∀ s i, I s → I (step s i).2) {s : σ}
    (hs : I s) (is : List ι) : I (run step s is) := by
  induction is generalizing s with
  | nil => exact hs
  | cons i is ih => exact ih (hI s i hs)

end Fuzzball.Machine
