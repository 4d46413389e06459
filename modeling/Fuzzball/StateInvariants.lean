import Mathlib.Control.Monad.Basic
import Mathlib.Tactic.Common

/-!
# Invariants of stateful programs

A program over a state keeps an invariant of the state, and what it returns
satisfies a postcondition.
-/

namespace Fuzzball

variable {σ α β : Type} {I : σ → Prop}

def Keeps (I : σ → Prop) (x : StateM σ α) (P : α → Prop) : Prop :=
  ∀ s, I s → P (x s).1 ∧ I (x s).2

namespace Keeps

theorem pure {P : α → Prop} {a : α} (h : P a) :
    Keeps I (Pure.pure a) P := by
  intro s hs
  exact ⟨h, hs⟩

theorem bind
    {P : α → Prop} {Q : β → Prop} {x : StateM σ α} {f : α → StateM σ β}
    (hx : Keeps I x P) (hf : ∀ a, P a → Keeps I (f a) Q) :
    Keeps I (x >>= f) Q := by
  intro s hs
  obtain ⟨hP, hI⟩ := hx s hs
  exact hf _ hP _ hI

theorem mono {P Q : α → Prop} {x : StateM σ α}
    (hx : Keeps I x P) (hPQ : ∀ a, P a → Q a) : Keeps I x Q := by
  intro s hs
  obtain ⟨hP, hI⟩ := hx s hs
  exact ⟨hPQ _ hP, hI⟩

theorem and {P Q : α → Prop} {x : StateM σ α}
    (hP : Keeps I x P) (hQ : Keeps I x Q) :
    Keeps I x fun a => P a ∧ Q a := by
  intro s hs
  exact ⟨⟨(hP s hs).1, (hQ s hs).1⟩, (hP s hs).2⟩

theorem foldlM {P : β → Prop} {f : β → α → StateM σ β} {as : List α}
    (hf : ∀ b a, a ∈ as → P b → Keeps I (f b a) P) {b : β} (hb : P b) :
    Keeps I (as.foldlM f b) P := by
  induction as generalizing b with
  | nil => exact pure hb
  | cons a as ih =>
    rw [List.foldlM_cons]
    refine bind (hf b a List.mem_cons_self hb) ?_
    intro b' hb'
    exact ih (fun c x hx => hf c x (List.mem_cons_of_mem a hx)) hb'

end Keeps

end Fuzzball
