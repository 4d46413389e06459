import Fuzzball.StatefulExceptions

/-!
# Programs that respect a relation

A program respects a relation between states when, from related states, it
returns or raises the same and leaves related states.  It preserves a property
of states when it leaves one with the property wherever it started in one.
-/

namespace Fuzzball.Stateful

variable {ε σ α β : Type}

def gets (f : σ → α) : Stateful ε σ α := f <$> get

@[simp] theorem run_gets (f : σ → α) (s : σ) :
    run (gets f : Stateful ε σ α) s = (.ok (f s), s) := rfl

theorem run_tryCatch_ok {x : Stateful ε σ α} {h : ε → Stateful ε σ α}
    {s s' : σ} {a : α} (hx : x.run s = (.ok a, s')) :
    run (tryCatch x h) s = (.ok a, s') := by
  have hx' : x s = (.ok a, s') := hx
  simp only [run, tryCatch, tryCatchThe, MonadExceptOf.tryCatch,
    ExceptT.tryCatch, ExceptT.run, ExceptT.mk, bind, StateT.bind, hx']
  rfl

theorem run_tryCatch_error {x : Stateful ε σ α} {h : ε → Stateful ε σ α}
    {s s' : σ} {e : ε} (hx : x.run s = (.error e, s')) :
    run (tryCatch x h) s = run (h e) s' := by
  have hx' : x s = (.error e, s') := hx
  simp only [run, tryCatch, tryCatchThe, MonadExceptOf.tryCatch,
    ExceptT.tryCatch, ExceptT.run, ExceptT.mk, bind, StateT.bind, hx']

/-- A program that runs only under a condition. -/
def when (c : Prop) [Decidable c] (x : Stateful ε σ Unit) :
    Stateful ε σ Unit :=
  if c then x else pure ()

/-! ## Relations -/

def Respects (R : σ → σ → Prop) (x : Stateful ε σ α) : Prop :=
  ∀ s t, R s t → (x.run s).1 = (x.run t).1 ∧ R (x.run s).2 (x.run t).2

namespace Respects

variable {R : σ → σ → Prop}

theorem pure (a : α) : Respects R (Pure.pure a : Stateful ε σ α) := by
  intro s t h
  exact ⟨rfl, h⟩

theorem throw (e : ε) : Respects R (throw e : Stateful ε σ α) := by
  intro s t h
  exact ⟨rfl, h⟩

theorem gets {f : σ → α} (hf : ∀ s t, R s t → f s = f t) :
    Respects R (gets f : Stateful ε σ α) := by
  intro s t h
  exact ⟨congrArg Except.ok (hf s t h), h⟩

theorem modify {f : σ → σ} (hf : ∀ s t, R s t → R (f s) (f t)) :
    Respects R (modify f : Stateful ε σ PUnit) := by
  intro s t h
  exact ⟨rfl, hf s t h⟩

theorem bind {x : Stateful ε σ α} {f : α → Stateful ε σ β}
    (hx : Respects R x) (hf : ∀ a, Respects R (f a)) :
    Respects R (x >>= f) := by
  intro s t h
  obtain ⟨hval, hrel⟩ := hx s t h
  rcases hs : x.run s with ⟨e | a, s'⟩ <;>
    rcases ht : x.run t with ⟨e' | a', t'⟩ <;> rw [hs, ht] at hval hrel
  · obtain rfl := Except.error.inj hval
    rw [run_bind_error hs, run_bind_error ht]
    exact ⟨rfl, hrel⟩
  · cases hval
  · cases hval
  · obtain rfl := Except.ok.inj hval
    rw [run_bind_ok hs, run_bind_ok ht]
    exact hf a s' t' hrel

theorem tryCatch {x : Stateful ε σ α} {g : ε → Stateful ε σ α}
    (hx : Respects R x) (hg : ∀ e, Respects R (g e)) :
    Respects R (tryCatch x g) := by
  intro s t h
  obtain ⟨hval, hrel⟩ := hx s t h
  rcases hs : x.run s with ⟨e | a, s'⟩ <;>
    rcases ht : x.run t with ⟨e' | a', t'⟩ <;> rw [hs, ht] at hval hrel
  · obtain rfl := Except.error.inj hval
    rw [run_tryCatch_error hs, run_tryCatch_error ht]
    exact hg e s' t' hrel
  · cases hval
  · cases hval
  · rw [run_tryCatch_ok hs, run_tryCatch_ok ht]
    exact ⟨hval, hrel⟩

theorem when {c : Prop} [Decidable c] {x : Stateful ε σ Unit}
    (hx : c → Respects R x) : Respects R (Stateful.when c x) := by
  unfold Stateful.when
  split_ifs with hc
  · exact hx hc
  · exact pure ()

theorem forM {f : α → Stateful ε σ PUnit} (hf : ∀ a, Respects R (f a))
    (l : List α) : Respects R (l.forM f) := by
  induction l with
  | nil => exact pure PUnit.unit
  | cons a l ih => exact (hf a).bind fun _ => ih

theorem mapM {f : α → Stateful ε σ β} (hf : ∀ a, Respects R (f a))
    (l : List α) : Respects R (l.mapM f) := by
  induction l with
  | nil => exact pure []
  | cons a l ih =>
    rw [List.mapM_cons]
    exact (hf a).bind fun b => ih.bind fun bs => pure (b :: bs)

end Respects

/-! ## Properties -/

def Preserves (I : σ → Prop) (x : Stateful ε σ α) : Prop :=
  ∀ s, I s → I (x.run s).2

namespace Preserves

variable {I : σ → Prop}

theorem pure (a : α) : Preserves I (Pure.pure a : Stateful ε σ α) :=
  fun _ h => h

theorem throw (e : ε) : Preserves I (throw e : Stateful ε σ α) :=
  fun _ h => h

theorem gets (f : σ → α) : Preserves I (gets f : Stateful ε σ α) :=
  fun _ h => h

theorem modify {f : σ → σ} (hf : ∀ s, I s → I (f s)) :
    Preserves I (modify f : Stateful ε σ PUnit) := hf

/-- A program that goes on from the values that the first one can return. -/
theorem bind_returns {x : Stateful ε σ α} {f : α → Stateful ε σ β}
    {P : α → Prop} (hx : Preserves I x)
    (hP : ∀ s s' a, x.run s = (.ok a, s') → P a)
    (hf : ∀ a, P a → Preserves I (f a)) : Preserves I (x >>= f) := by
  intro s h
  have hs' := hx s h
  rcases hs : x.run s with ⟨e | a, s'⟩ <;> rw [hs] at hs'
  · rw [run_bind_error hs]
    exact hs'
  · rw [run_bind_ok hs]
    exact hf a (hP s s' a hs) s' hs'

theorem bind {x : Stateful ε σ α} {f : α → Stateful ε σ β}
    (hx : Preserves I x) (hf : ∀ a, Preserves I (f a)) :
    Preserves I (x >>= f) :=
  hx.bind_returns (fun _ _ _ _ => trivial) fun a _ => hf a

theorem tryCatch {x : Stateful ε σ α} {g : ε → Stateful ε σ α}
    (hx : Preserves I x) (hg : ∀ e, Preserves I (g e)) :
    Preserves I (tryCatch x g) := by
  intro s h
  have hs' := hx s h
  rcases hs : x.run s with ⟨e | a, s'⟩ <;> rw [hs] at hs'
  · rw [run_tryCatch_error hs]
    exact hg e s' hs'
  · rw [run_tryCatch_ok hs]
    exact hs'

theorem when {c : Prop} [Decidable c] {x : Stateful ε σ Unit}
    (hx : c → Preserves I x) : Preserves I (Stateful.when c x) := by
  unfold Stateful.when
  split_ifs with hc
  · exact hx hc
  · exact pure ()

theorem forM {f : α → Stateful ε σ PUnit} (hf : ∀ a, Preserves I (f a))
    (l : List α) : Preserves I (l.forM f) := by
  induction l with
  | nil => exact pure PUnit.unit
  | cons a l ih => exact (hf a).bind fun _ => ih

theorem mapM {f : α → Stateful ε σ β} (hf : ∀ a, Preserves I (f a))
    (l : List α) : Preserves I (l.mapM f) := by
  induction l with
  | nil => exact pure []
  | cons a l ih =>
    rw [List.mapM_cons]
    exact (hf a).bind fun b => ih.bind fun bs => pure (b :: bs)

end Preserves

end Fuzzball.Stateful
