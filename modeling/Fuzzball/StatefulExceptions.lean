import Mathlib.Control.Monad.Basic
import Mathlib.Tactic.Common

/-!
# Stateful programs that raise

A program that raises keeps the changes it made to the state.  From a given
state it leads to a state with an invariant, in a preorder above the first,
and what it returns satisfies a postcondition of the value and the state.
-/

namespace Fuzzball

variable {ε σ α β : Type}

/-- A program that may change a state and raise. -/
abbrev Stateful (ε σ α : Type) := ExceptT ε (StateM σ) α

namespace Stateful

/-- The result of a program from a state: its value or exception, and the state
it leaves. -/
def run (x : Stateful ε σ α) (s : σ) : Except ε α × σ := ExceptT.run x s

@[simp] theorem run_pure (a : α) (s : σ) :
    run (pure a : Stateful ε σ α) s = (.ok a, s) := rfl

@[simp] theorem run_throw (e : ε) (s : σ) :
    run (throw e : Stateful ε σ α) s = (.error e, s) := rfl

@[simp] theorem run_get (s : σ) : run (get : Stateful ε σ σ) s = (.ok s, s) :=
  rfl

@[simp] theorem run_set (s s' : σ) :
    run (set s' : Stateful ε σ PUnit) s = (.ok ⟨⟩, s') := rfl

@[simp] theorem run_modify (f : σ → σ) (s : σ) :
    run (modify f : Stateful ε σ PUnit) s = (.ok ⟨⟩, f s) := rfl

theorem run_bind_ok {x : Stateful ε σ α} {f : α → Stateful ε σ β} {s s' : σ}
    {a : α} (h : x.run s = (.ok a, s')) : run (x >>= f) s = run (f a) s' := by
  change ExceptT.bindCont f (x.run s).1 (x.run s).2 = _
  rw [h]
  rfl

theorem run_bind_error
    {x : Stateful ε σ α} {f : α → Stateful ε σ β} {s s' : σ} {e : ε}
    (h : x.run s = (.error e, s')) : run (x >>= f) s = (.error e, s') := by
  change ExceptT.bindCont f (x.run s).1 (x.run s).2 = _
  rw [h]
  rfl

end Stateful

structure Leads (I : σ → Prop) (R : σ → σ → Prop) (s : σ)
    (x : Stateful ε σ α) (P : α → σ → Prop) : Prop where
  inv : I (x.run s).2
  above : R s (x.run s).2
  returns : ∀ a, (x.run s).1 = .ok a → P a (x.run s).2

namespace Leads

variable {I : σ → Prop} {R : σ → σ → Prop} {s : σ}

theorem of_ok {x : Stateful ε σ α} {P : α → σ → Prop} {a : α} {s' : σ}
    (h : x.run s = (.ok a, s')) (hI : I s') (hR : R s s') (hP : P a s') :
    Leads I R s x P := by
  refine ⟨?_, ?_, ?_⟩ <;> rw [h]
  · exact hI
  · exact hR
  · intro b hb
    cases hb
    exact hP

theorem of_error {x : Stateful ε σ α} {P : α → σ → Prop} {e : ε} {s' : σ}
    (h : x.run s = (.error e, s')) (hI : I s') (hR : R s s') :
    Leads I R s x P := by
  refine ⟨?_, ?_, ?_⟩ <;> rw [h]
  · exact hI
  · exact hR
  · intro b hb
    cases hb

theorem mono {x : Stateful ε σ α} {P Q : α → σ → Prop}
    (h : Leads I R s x P)
    (hPQ : ∀ a s', I s' → R s s' → P a s' → Q a s') : Leads I R s x Q :=
  ⟨h.inv, h.above, fun a ha => hPQ a _ h.inv h.above (h.returns a ha)⟩

variable [Std.Refl R]

theorem pure {P : α → σ → Prop} {a : α} (hI : I s) (hP : P a s) :
    Leads I R s (Pure.pure a : Stateful ε σ α) P :=
  of_ok rfl hI (refl s) hP

theorem throw {P : α → σ → Prop} {e : ε} (hI : I s) :
    Leads I R s (throw e : Stateful ε σ α) P :=
  of_error rfl hI (refl s)

omit [Std.Refl R] in
theorem bind [IsTrans σ R] {x : Stateful ε σ α} {f : α → Stateful ε σ β}
    {P : α → σ → Prop} {Q : β → σ → Prop} (hx : Leads I R s x P)
    (hf : ∀ a s', I s' → R s s' → P a s' → Leads I R s' (f a) Q) :
    Leads I R s (x >>= f) Q := by
  obtain ⟨hI, hR, hP⟩ := hx
  rcases hrun : x.run s with ⟨e | a, s'⟩
  · rw [hrun] at hI hR
    exact of_error (Stateful.run_bind_error hrun) hI hR
  · rw [hrun] at hI hR hP
    obtain ⟨hI', hR', hQ⟩ := hf a s' hI hR (hP a rfl)
    refine ⟨?_, ?_, ?_⟩ <;> rw [Stateful.run_bind_ok hrun]
    · exact hI'
    · exact trans_of R hR hR'
    · exact hQ

/-- A program run on every element of a list, whose results keep what is known
of them when the state moves up. -/
theorem mapM [IsTrans σ R] {f : α → Stateful ε σ β} {Q : α → β → σ → Prop}
    (hQ : ∀ a b s s', R s s' → Q a b s → Q a b s') {l : List α} (hI : I s)
    (hf : ∀ a ∈ l, ∀ s', I s' → R s s' → Leads I R s' (f a) (Q a)) :
    Leads I R s (l.mapM f)
      (fun bs s' => List.Forall₂ (fun a b => Q a b s') l bs) := by
  induction l generalizing s with
  | nil => exact pure hI .nil
  | cons a l ih =>
    rw [List.mapM_cons]
    refine (hf a List.mem_cons_self s hI (refl s)).bind ?_
    intro b s1 hI1 hR1 hb
    refine Leads.bind (ih hI1 ?_) ?_
    · intro c hc s' hI' hR'
      exact hf c (List.mem_cons_of_mem a hc) s' hI' (trans_of R hR1 hR')
    · intro bs s2 hI2 hR2 hbs
      exact pure hI2 (.cons (hQ a b s1 s2 hR2 hb) hbs)

end Leads

/-- A program that leads on, and raises only exceptions with a property. -/
structure Ends (I : σ → Prop) (R : σ → σ → Prop) (E : ε → Prop) (s : σ)
    (x : Stateful ε σ α) (P : α → σ → Prop) : Prop
    extends Leads I R s x P where
  raises : ∀ e, (x.run s).1 = .error e → E e

namespace Ends

variable {I : σ → Prop} {R : σ → σ → Prop} {E : ε → Prop} {s : σ}
  {x : Stateful ε σ α} {P Q : α → σ → Prop}

theorem of_ok {a : α} {s' : σ} (h : x.run s = (.ok a, s')) (hI : I s')
    (hR : R s s') (hP : P a s') : Ends I R E s x P := by
  refine ⟨.of_ok h hI hR hP, ?_⟩
  rw [h]
  exact fun _ he => nomatch he

theorem of_error {e : ε} {s' : σ} (h : x.run s = (.error e, s')) (hI : I s')
    (hR : R s s') (hE : E e) : Ends I R E s x P := by
  refine ⟨.of_error h hI hR, ?_⟩
  rw [h]
  intro e' he
  cases he
  exact hE

theorem mono (h : Ends I R E s x P)
    (hPQ : ∀ a s', I s' → R s s' → P a s' → Q a s') : Ends I R E s x Q :=
  ⟨h.toLeads.mono hPQ, h.raises⟩

/-- A relation that holds of more states. -/
theorem weaken {R' : σ → σ → Prop} (h : Ends I R E s x P)
    (hR : ∀ s', R s s' → R' s s') : Ends I R' E s x P :=
  ⟨⟨h.inv, hR _ h.above, h.returns⟩, h.raises⟩

theorem pure [Std.Refl R] {a : α} (hI : I s) (hP : P a s) :
    Ends I R E s (Pure.pure a) P :=
  of_ok rfl hI (refl s) hP

theorem throw [Std.Refl R] {e : ε} (hI : I s) (hE : E e) :
    Ends I R E s (throw e) P :=
  of_error rfl hI (refl s) hE

theorem bind [IsTrans σ R] {f : α → Stateful ε σ β} {Q : β → σ → Prop}
    (hx : Ends I R E s x P)
    (hf : ∀ a s', I s' → R s s' → P a s' → Ends I R E s' (f a) Q) :
    Ends I R E s (x >>= f) Q := by
  refine ⟨hx.toLeads.bind fun a s' hI hR hP => (hf a s' hI hR hP).toLeads, ?_⟩
  obtain ⟨⟨hI, hR, hP⟩, hE⟩ := hx
  rcases hrun : x.run s with ⟨e | a, s'⟩
  · rw [hrun] at hE
    rw [Stateful.run_bind_error hrun]
    intro e' he
    cases he
    exact hE e rfl
  · rw [hrun] at hI hR hP
    rw [Stateful.run_bind_ok hrun]
    exact (hf a s' hI hR (hP a rfl)).raises

/-- A step that returns and does not change the state. -/
theorem read_bind {f : α → Stateful ε σ β} {Q : β → σ → Prop} {a : α}
    (hx : x.run s = (.ok a, s)) (h : Ends I R E s (f a) Q) :
    Ends I R E s (x >>= f) Q := by
  have hrun := Stateful.run_bind_ok (f := f) hx
  refine ⟨⟨?_, ?_, ?_⟩, ?_⟩ <;> rw [hrun]
  · exact h.inv
  · exact h.above
  · exact h.returns
  · exact h.raises

/-- A program that raises nothing returns. -/
theorem exists_ok (h : Ends I R (fun _ => False) s x P) :
    ∃ a s', x.run s = (.ok a, s') ∧ I s' ∧ R s s' ∧ P a s' := by
  obtain ⟨⟨hI, hR, hP⟩, hE⟩ := h
  rcases hrun : x.run s with ⟨e | a, s'⟩
  · rw [hrun] at hE
    exact (hE e rfl).elim
  · rw [hrun] at hI hR hP
    exact ⟨a, s', rfl, hI, hR, hP a rfl⟩

end Ends

end Fuzzball
