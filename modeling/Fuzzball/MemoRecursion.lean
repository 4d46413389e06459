import Mathlib.Data.List.Basic
import Mathlib.Logic.Function.Basic
import Mathlib.Tactic.Common

/-!
# Memoised recursion through definitions

A recursive function is given by its body: a tree of the calls it makes, of
its results and of the exceptions it raises.  Some arguments are keys that
stand for a definition.  The result at a definition is computed once and kept
in a table under its key.

The recursion runs on fuel, and more fuel never changes a result.  It returns
where the calls are well founded, and what one body establishes from its calls
holds of every result.
-/

namespace Fuzzball.MemoRecursion

variable {ε κ ν χ α β : Type}

/-! ## Bodies -/

inductive Body (ε ν χ α : Type)
  | ret (a : α)
  | raise (x : χ)
  | call (e : ε) (k : ν → Body ε ν χ α)

namespace Body

def bind : Body ε ν χ α → (α → Body ε ν χ β) → Body ε ν χ β
  | ret a, f => f a
  | raise x, _ => raise x
  | call e k, f => call e fun r => (k r).bind f

instance : Monad (Body ε ν χ) where
  pure := ret
  bind := bind

/-- The recursive call at `e`. -/
def loop (e : ε) : Body ε ν χ ν := call e ret

def ofExcept : Except χ α → Body ε ν χ α
  | .ok a => ret a
  | .error x => raise x

/-- The body makes only calls in `P` and raises nothing, and it returns a
value in `R` when the result of each call is related to it by `Q`. -/
def Meets (P : ε → Prop) (Q : ε → ν → Prop) (R : α → Prop) :
    Body ε ν χ α → Prop
  | ret a => R a
  | raise _ => False
  | call e k => P e ∧ ∀ r, Q e r → (k r).Meets P Q R

section Meets

variable {P P' : ε → Prop} {Q : ε → ν → Prop} {R R' : α → Prop}

theorem Meets.pure {a : α} (h : R a) :
    (Pure.pure a : Body ε ν χ α).Meets P Q R := h

theorem Meets.loop {e : ε} {R : ν → Prop} (he : P e) (h : ∀ r, Q e r → R r) :
    (loop e : Body ε ν χ ν).Meets P Q R := ⟨he, h⟩

theorem Meets.ofExcept {x : Except χ α} {a : α} (hx : x = .ok a) (h : R a) :
    (ofExcept x : Body ε ν χ α).Meets P Q R := by
  subst hx
  exact h

theorem Meets.bind {x : Body ε ν χ α} {f : α → Body ε ν χ β} {T : β → Prop}
    (hx : x.Meets P Q R) (hf : ∀ a, R a → (f a).Meets P Q T) :
    (x >>= f).Meets P Q T := by
  induction x with
  | ret a => exact hf a hx
  | raise y => exact hx.elim
  | call e k ih => exact ⟨hx.1, fun r hr => ih r (hx.2 r hr)⟩

theorem Meets.mono {x : Body ε ν χ α} (hx : x.Meets P Q R)
    (hP : ∀ e, P e → P' e) (hR : ∀ a, R a → R' a) : x.Meets P' Q R' := by
  induction x with
  | ret a => exact hR a hx
  | raise y => exact hx.elim
  | call e k ih => exact ⟨hP e hx.1, fun r hr => ih r (hx.2 r hr)⟩

end Meets

end Body

/-! ## The recursion -/

/-- The results kept so far. -/
abbrev Table (κ ν : Type) := κ → Option ν

/-- A value with the table, an exception, or `none` when the fuel is spent. -/
abbrev Outcome (κ ν χ α : Type) := Except (Option χ) (α × Table κ ν)

def Body.run (call : ε → Table κ ν → Outcome κ ν χ ν) :
    Body ε ν χ α → Table κ ν → Outcome κ ν χ α
  | .ret a, t => .ok (a, t)
  | .raise x, _ => .error (some x)
  | .call e k, t =>
    match call e t with
    | .ok (r, t') => (k r).run call t'
    | .error x => .error x

structure Scheme (ε κ ν χ : Type) where
  body : ε → Body ε ν χ ν
  key : ε → Option κ
  definition : κ → Option ε
  /-- What becomes of a result at the visit that computes it. -/
  combine : ε → ν → ν

variable [DecidableEq κ]

def Scheme.recurse (S : Scheme ε κ ν χ) : ℕ → ε → Table κ ν → Outcome κ ν χ ν
  | 0, _, _ => .error none
  | n + 1, e, t =>
    match S.key e with
    | none => (S.body e).run (S.recurse n) t
    | some k =>
      match t k with
      | some res => .ok (res, t)
      | none =>
        match S.definition k with
        | none => (S.body e).run (S.recurse n) t
        | some e' =>
          match (S.body e').run (S.recurse n) t with
          | .ok (res, t') =>
            .ok (S.combine e res, Function.update t' k (some res))
          | .error x => .error x

/-- The result at `e`, from an empty table. -/
def Scheme.eval (S : Scheme ε κ ν χ) (n : ℕ) (e : ε) : Except (Option χ) ν :=
  (S.recurse n e fun _ => none).map Prod.fst

def Scheme.Returns (S : Scheme ε κ ν χ) (e : ε) (r : ν) : Prop :=
  ∃ n, S.eval n e = .ok r

/-! ## More fuel -/

section Fuel

/-- Where the first body has a result, the second one has it by the same
calls. -/
def Body.Refines : Body ε ν χ α → Body ε ν χ α → Prop
  | ret a, y => y = ret a
  | raise _, _ => True
  | call e k, y => ∃ k', y = call e k' ∧ ∀ r, (k r).Refines (k' r)

theorem Body.Refines.refl (x : Body ε ν χ α) : x.Refines x := by
  induction x with
  | ret a => rfl
  | raise y => trivial
  | call e k ih => exact ⟨k, rfl, ih⟩

theorem Body.Refines.bind {x y : Body ε ν χ α} {f g : α → Body ε ν χ β}
    (h : x.Refines y) (hf : ∀ a, (f a).Refines (g a)) :
    (x >>= f).Refines (y >>= g) := by
  induction x generalizing y with
  | ret a =>
    obtain rfl : y = ret a := h
    exact hf a
  | raise z => trivial
  | call e k ih =>
    obtain ⟨k', rfl, hk⟩ := h
    exact ⟨_, rfl, fun r => ih r (hk r)⟩

omit [DecidableEq κ] in
theorem Body.Refines.run {call call' : ε → Table κ ν → Outcome κ ν χ ν}
    (h : ∀ e t r, call e t = .ok r → call' e t = .ok r) {x y : Body ε ν χ α}
    (hxy : x.Refines y) :
    ∀ t r, x.run call t = .ok r → y.run call' t = .ok r := by
  induction x generalizing y with
  | ret a =>
    obtain rfl : y = ret a := hxy
    exact fun _ _ hr => hr
  | raise z =>
    intro t r hr
    cases hr
  | call e k ih =>
    obtain ⟨k', rfl, hk⟩ := hxy
    intro t r hr
    rw [Body.run] at hr ⊢
    rcases hcall : call e t with y | ⟨a, t'⟩
    · rw [hcall] at hr
      cases hr
    · rw [hcall] at hr
      rw [h e t _ hcall]
      exact ih a (hk a) t' r hr

/-- The second scheme differs from the first one in bodies that do more. -/
structure Scheme.Refines (S S' : Scheme ε κ ν χ) : Prop where
  body : ∀ e, (S.body e).Refines (S'.body e)
  key : S'.key = S.key
  definition : S'.definition = S.definition
  combine : S'.combine = S.combine

omit [DecidableEq κ] in
theorem Scheme.Refines.refl (S : Scheme ε κ ν χ) : S.Refines S :=
  ⟨fun e => .refl (S.body e), rfl, rfl, rfl⟩

theorem Scheme.Refines.recurse {S S' : Scheme ε κ ν χ} (h : S.Refines S')
    {n m : ℕ} (hnm : n ≤ m) :
    ∀ e t r, S.recurse n e t = .ok r → S'.recurse m e t = .ok r := by
  induction n generalizing m with
  | zero =>
    intro e t r hr
    cases hr
  | succ n ih =>
    obtain ⟨m, rfl⟩ := Nat.exists_eq_add_of_le' (Nat.le_of_add_left_le hnm)
    have ih := ih (Nat.le_of_succ_le_succ hnm)
    intro e t r hr
    rw [Scheme.recurse] at hr ⊢
    rw [h.key]
    rcases hkey : S.key e with _ | k
    · simp only [hkey] at hr ⊢
      exact (h.body e).run ih t r hr
    simp only [hkey] at hr ⊢
    rcases htable : t k with _ | res
    · simp only [htable] at hr ⊢
      rw [h.definition]
      rcases hdef : S.definition k with _ | e'
      · simp only [hdef] at hr ⊢
        exact (h.body e).run ih t r hr
      simp only [hdef] at hr ⊢
      rcases hrun : (S.body e').run (S.recurse n) t with x | ⟨res, t'⟩
      · simp only [hrun] at hr
        cases hr
      · simp only [hrun] at hr
        simp only [(h.body e').run ih t _ hrun, h.combine]
        exact hr
    · simp only [htable] at hr ⊢
      exact hr

theorem Scheme.recurse_mono (S : Scheme ε κ ν χ) {n m : ℕ} (h : n ≤ m) {e : ε}
    {t : Table κ ν} {r : ν × Table κ ν} (hr : S.recurse n e t = .ok r) :
    S.recurse m e t = .ok r := (Refines.refl S).recurse h e t r hr

theorem Scheme.eval_eq_ok {S : Scheme ε κ ν χ} {n : ℕ} {e : ε} {r : ν} :
    S.eval n e = .ok r ↔ ∃ t, S.recurse n e (fun _ => none) = .ok (r, t) := by
  rw [Scheme.eval]
  rcases S.recurse n e fun _ => none with x | ⟨a, t⟩
  · simp [Except.map]
  · simp [Except.map]

theorem Scheme.Refines.eval {S S' : Scheme ε κ ν χ} (h : S.Refines S')
    {n m : ℕ} (hnm : n ≤ m) {e : ε} {r : ν} (hr : S.eval n e = .ok r) :
    S'.eval m e = .ok r := by
  rw [eval_eq_ok] at hr ⊢
  obtain ⟨t, ht⟩ := hr
  exact ⟨t, h.recurse hnm e _ _ ht⟩

theorem Scheme.eval_mono (S : Scheme ε κ ν χ) {n m : ℕ} (h : n ≤ m) {e : ε}
    {r : ν} (hr : S.eval n e = .ok r) : S.eval m e = .ok r :=
  (Refines.refl S).eval h hr

theorem Scheme.Returns.unique {S : Scheme ε κ ν χ} {e : ε} {r r' : ν}
    (h : S.Returns e r) (h' : S.Returns e r') : r = r' := by
  obtain ⟨n, hn⟩ := h
  obtain ⟨m, hm⟩ := h'
  have h1 := S.eval_mono (Nat.le_max_left n m) hn
  have h2 := S.eval_mono (Nat.le_max_right n m) hm
  rw [h1] at h2
  exact Except.ok.inj h2

end Fuel

/-! ## What every result satisfies -/

/-- The definition an argument stands for, or the argument itself. -/
def Scheme.standsFor (S : Scheme ε κ ν χ) (e : ε) : ε :=
  ((S.key e).bind S.definition).getD e

/-- The body is run at an argument that stands for itself or is a
definition. -/
def Scheme.Runs (S : Scheme ε κ ν χ) (e : ε) : Prop :=
  (S.key e).bind S.definition = none ∨ ∃ k, S.definition k = some e

omit [DecidableEq κ] in
theorem Scheme.runs_standsFor (S : Scheme ε κ ν χ) (e : ε) :
    S.Runs (S.standsFor e) := by
  rcases hdef : (S.key e).bind S.definition with _ | e'
  · rw [standsFor, hdef, Option.getD_none]
    exact .inl hdef
  · rw [standsFor, hdef, Option.getD_some]
    obtain ⟨k, -, hk⟩ := Option.bind_eq_some_iff.mp hdef
    exact .inr ⟨k, hk⟩

/-- On the arguments in `P`, a body calls arguments in `P` that `reads` lists,
and its result is related to the argument by `Q`; what is found at a
definition holds at every argument that stands for it. -/
structure Scheme.Proves (S : Scheme ε κ ν χ) (reads : ε → List ε)
    (P : ε → Prop) (Q : ε → ν → Prop) : Prop where
  body : ∀ e, P e → S.Runs e →
    (S.body e).Meets (fun d => d ∈ reads e ∧ P d) Q (Q e)
  standsFor : ∀ e, P e → P (S.standsFor e)
  defined : ∀ e e' r, P e → (S.key e).bind S.definition = some e' → Q e' r →
    Q e r ∧ Q e (S.combine e r)

namespace Scheme

variable {S : Scheme ε κ ν χ} {reads : ε → List ε} {P : ε → Prop}
  {Q : ε → ν → Prop}

/-- Every kept result holds at every argument with its key. -/
def Consistent (S : Scheme ε κ ν χ) (P : ε → Prop) (Q : ε → ν → Prop)
    (t : Table κ ν) : Prop :=
  ∀ k r, t k = some r → ∀ e, P e → S.key e = some k → Q e r

/-- With fuel `n` the recursion at `e` returns what `Q` says. -/
def Settles (S : Scheme ε κ ν χ) (P : ε → Prop) (Q : ε → ν → Prop) (n : ℕ)
    (e : ε) : Prop :=
  ∀ t, S.Consistent P Q t → ∃ r t', S.recurse n e t = .ok (r, t') ∧ Q e r ∧
    S.Consistent P Q t'

theorem Settles.mono {n m : ℕ} {e : ε} (hnm : n ≤ m)
    (h : S.Settles P Q n e) : S.Settles P Q m e := by
  intro t ht
  obtain ⟨r, t', hr, hQ, ht'⟩ := h t ht
  exact ⟨r, t', S.recurse_mono hnm hr, hQ, ht'⟩

theorem exists_settles {l : List ε}
    (h : ∀ d ∈ l, P d → ∃ n, S.Settles P Q n d) :
    ∃ n, ∀ d ∈ l, P d → S.Settles P Q n d := by
  induction l with
  | nil => exact ⟨0, fun d hd => absurd hd List.not_mem_nil⟩
  | cons a l ih =>
    obtain ⟨n, hn⟩ := ih fun d hd => h d (List.mem_cons_of_mem a hd)
    by_cases ha : P a
    · obtain ⟨m, hm⟩ := h a List.mem_cons_self ha
      refine ⟨max n m, fun d hd hP => ?_⟩
      rcases List.mem_cons.mp hd with rfl | hd
      · exact hm.mono (Nat.le_max_right n m)
      · exact (hn d hd hP).mono (Nat.le_max_left n m)
    · refine ⟨n, fun d hd hP => ?_⟩
      rcases List.mem_cons.mp hd with rfl | hd
      · exact absurd hP ha
      · exact hn d hd hP

theorem run_settles {n : ℕ} {l : List ε} {R : α → Prop}
    (h : ∀ d ∈ l, P d → S.Settles P Q n d) (x : Body ε ν χ α)
    (hx : x.Meets (fun d => d ∈ l ∧ P d) Q R) :
    ∀ t, S.Consistent P Q t → ∃ a t', x.run (S.recurse n) t = .ok (a, t') ∧
      R a ∧ S.Consistent P Q t' := by
  induction x with
  | ret a => exact fun t ht => ⟨a, t, rfl, hx, ht⟩
  | raise y => exact hx.elim
  | call e k ih =>
    intro t ht
    obtain ⟨⟨hmem, hP⟩, hk⟩ := hx
    obtain ⟨r, t', hr, hQ, ht'⟩ := h e hmem hP t ht
    rw [Body.run, hr]
    exact ih r (hk r hQ) t' ht'

theorem recurse_unfolded {n : ℕ} {e : ε} {t : Table κ ν}
    (hkey : (S.key e).bind S.definition = none)
    (htable : (S.key e).bind t = none) :
    S.recurse (n + 1) e t = (S.body e).run (S.recurse n) t := by
  rw [recurse]
  rcases hk : S.key e with _ | k
  · rfl
  · rw [hk, Option.bind_some] at hkey htable
    simp only [htable, hkey]

/-- Where the calls are well founded, every argument in `P` is settled. -/
theorem Proves.settles (h : S.Proves reads P Q) {e : ε} (he : P e)
    (hacc : Acc (fun d e => d ∈ reads (S.standsFor e)) e) :
    ∃ n, S.Settles P Q n e := by
  induction hacc with
  | intro e _ ih =>
    obtain ⟨n, hn⟩ := exists_settles fun d hd hd' => ih d hd hd'
    refine ⟨n + 1, fun t ht => ?_⟩
    have hbody := run_settles hn _
      (h.body _ (h.standsFor e he) (S.runs_standsFor e)) t ht
    rcases htable : (S.key e).bind t with _ | res
    · rcases hdef : (S.key e).bind S.definition with _ | e'
      · have hself : S.standsFor e = e := by
          rw [Scheme.standsFor, hdef, Option.getD_none]
        rw [recurse_unfolded hdef htable]
        rwa [hself] at hbody
      · have hself : S.standsFor e = e' := by
          rw [Scheme.standsFor, hdef, Option.getD_some]
        rw [hself] at hbody
        have hcombine := fun r => (h.defined e e' r he hdef · |>.2)
        obtain ⟨k, hk, hdef⟩ := Option.bind_eq_some_iff.mp hdef
        rw [hk, Option.bind_some] at htable
        obtain ⟨res, t', hrun, hQ, ht'⟩ := hbody
        refine ⟨S.combine e res, Function.update t' k (some res), ?_, ?_, ?_⟩
        · simp only [recurse, hk, htable, hdef, hrun]
        · exact hcombine res hQ
        · intro k' r hk' d hd hkey
          by_cases hkk : k' = k
          · subst hkk
            rw [Function.update_self] at hk'
            obtain rfl : res = r := Option.some.inj hk'
            refine (h.defined d e' res hd ?_ hQ).1
            rw [hkey, Option.bind_some, hdef]
          · rw [Function.update_of_ne hkk] at hk'
            exact ht' k' r hk' d hd hkey
    · obtain ⟨k, hk, hres⟩ := Option.bind_eq_some_iff.mp htable
      refine ⟨res, t, ?_, ht k res hres e he hk, ht⟩
      simp only [recurse, hk, hres]

theorem Proves.returns (h : S.Proves reads P Q) {e : ε} (he : P e)
    (hacc : Acc (fun d e => d ∈ reads (S.standsFor e)) e) :
    ∃ r, S.Returns e r ∧ Q e r := by
  obtain ⟨n, hn⟩ := h.settles he hacc
  obtain ⟨r, t, hr, hQ, -⟩ := hn (fun _ => none) fun k r hk => by cases hk
  exact ⟨r, ⟨n, eval_eq_ok.mpr ⟨t, hr⟩⟩, hQ⟩

end Scheme

end Fuzzball.MemoRecursion
