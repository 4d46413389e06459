import Mathlib.Tactic

/-!
# Simulations between deterministic machines

A machine makes a step from a configuration to another one, or stops with a
result.  Two machines whose configurations are related finish with related
results when each of their steps is matched: by a step of the other machine, or
by none while a rank goes down.
-/

namespace Fuzzball.Simulation

/-- What one step leads to. -/
inductive Next (C R : Type*)
  | go (c : C)
  | stop (r : R)

section Machine

variable {C R : Type*}

/-- The result after at most `n` steps. -/
def run (next : C → Next C R) : ℕ → C → Option R
  | 0, _ => none
  | n + 1, c =>
    match next c with
    | .go d => run next n d
    | .stop r => some r

/-- The machine stops, with the result. -/
def Finishes (next : C → Next C R) (c : C) (r : R) : Prop :=
  ∃ n, run next n c = some r

variable {next : C → Next C R} {c d : C} {r r' : R}

theorem run_go {n : ℕ} (h : next c = .go d) :
    run next (n + 1) c = run next n d := by
  simp only [run, h]

theorem run_stop {n : ℕ} (h : next c = .stop r) :
    run next (n + 1) c = some r := by
  simp only [run, h]

theorem Finishes.go (h : next c = .go d) (hd : Finishes next d r) :
    Finishes next c r := by
  obtain ⟨n, hn⟩ := hd
  exact ⟨n + 1, (run_go h).trans hn⟩

theorem Finishes.stop (h : next c = .stop r) : Finishes next c r :=
  ⟨1, run_stop h⟩

theorem finishes_go_iff (h : next c = .go d) :
    Finishes next c r ↔ Finishes next d r := by
  constructor
  · rintro ⟨n, hn⟩
    cases n with
    | zero => cases hn
    | succ n => exact ⟨n, (run_go h).symm.trans hn⟩
  · exact Finishes.go h

theorem finishes_stop_iff (h : next c = .stop r) :
    Finishes next c r' ↔ r' = r := by
  constructor
  · rintro ⟨n, hn⟩
    cases n with
    | zero => cases hn
    | succ n => exact Option.some.inj (hn.symm.trans (run_stop h))
  · rintro rfl
    exact Finishes.stop h

/-- A machine finishes with one result. -/
theorem Finishes.unique (h : Finishes next c r) (h' : Finishes next c r') :
    r' = r := by
  obtain ⟨n, hn⟩ := h
  induction n generalizing c with
  | zero => cases hn
  | succ n ih =>
    cases hx : next c with
    | go d => exact ih ((finishes_go_iff hx).mp h') ((run_go hx).symm.trans hn)
    | stop r₁ =>
      obtain rfl : r = r₁ := Option.some.inj (hn.symm.trans (run_stop hx))
      exact (finishes_stop_iff hx).mp h'

end Machine

section Simulates

variable {C C' R R' : Type*} {next : C → Next C R} {next' : C' → Next C' R'}
  {Rel : C → C' → Prop} {Res : R → R' → Prop}

/-- The two steps lead to related configurations or related results. -/
inductive NextRel (Rel : C → C' → Prop) (Res : R → R' → Prop) :
    Next C R → Next C' R' → Prop
  | go {c : C} {c' : C'} (h : Rel c c') : NextRel Rel Res (.go c) (.go c')
  | stop {r : R} {r' : R'} (h : Res r r') :
      NextRel Rel Res (.stop r) (.stop r')

/-- How related configurations go on. -/
inductive Matched (next : C → Next C R) (next' : C' → Next C' R')
    (Rel : C → C' → Prop) (Res : R → R' → Prop) (rank : C → ℕ)
    (rank' : C' → ℕ) (c : C) (c' : C') : Prop
  | both (h : NextRel Rel Res (next c) (next' c'))
  | left (d : C) (h : next c = .go d) (hd : Rel d c') (hr : rank d < rank c)
  | right (d' : C') (h : next' c' = .go d') (hd : Rel c d')
      (hr : rank' d' < rank' c')

/-- Every step from related configurations is matched. -/
def Simulates (next : C → Next C R) (next' : C' → Next C' R')
    (Rel : C → C' → Prop) (Res : R → R' → Prop) (rank : C → ℕ)
    (rank' : C' → ℕ) : Prop :=
  ∀ c c', Rel c c' → Matched next next' Rel Res rank rank' c c'

variable {rank : C → ℕ} {rank' : C' → ℕ}

theorem NextRel.flip {x : Next C R} {x' : Next C' R'}
    (h : NextRel Rel Res x x') :
    NextRel (fun c' c => Rel c c') (fun r' r => Res r r') x' x := by
  cases h with
  | go h => exact .go h
  | stop h => exact .stop h

theorem Simulates.flip (h : Simulates next next' Rel Res rank rank') :
    Simulates next' next (fun c' c => Rel c c') (fun r' r => Res r r')
      rank' rank := by
  intro c' c hrel
  cases h c c' hrel with
  | both hboth => exact .both hboth.flip
  | left d hd hrel hr => exact .right d hd hrel hr
  | right d' hd hrel hr => exact .left d' hd hrel hr

/-- The induction is on the steps of the first machine and, while the second
one moves alone, on its rank. -/
theorem Simulates.finishes (h : Simulates next next' Rel Res rank rank')
    {c : C} {c' : C'} (hrel : Rel c c') {r : R} (hfin : Finishes next c r) :
    ∃ r', Finishes next' c' r' ∧ Res r r' := by
  obtain ⟨n, hn⟩ := hfin
  induction n generalizing c c' with
  | zero => cases hn
  | succ n ih =>
    induction hk : rank' c' using Nat.strongRecOn generalizing c' with
    | ind k ihk =>
      cases h c c' hrel with
      | both hboth =>
        cases hx : next c with
        | go d =>
          rw [hx] at hboth
          generalize hx' : next' c' = x' at hboth
          cases hboth with
          | @go _ d' hd =>
            obtain ⟨r', hr', hres⟩ := ih hd ((run_go hx).symm.trans hn)
            exact ⟨r', hr'.go hx', hres⟩
        | stop r₁ =>
          rw [hx] at hboth
          generalize hx' : next' c' = x' at hboth
          cases hboth with
          | @stop _ r' hres =>
            obtain rfl : r = r₁ :=
              Option.some.inj (hn.symm.trans (run_stop hx))
            exact ⟨r', Finishes.stop hx', hres⟩
      | left d hd hrel' _ => exact ih hrel' ((run_go hd).symm.trans hn)
      | right d' hd hrel' hr =>
        obtain ⟨r', hr', hres⟩ := ihk (rank' d') (hk ▸ hr) hrel' rfl
        exact ⟨r', hr'.go hd, hres⟩

theorem Simulates.finishes_right (h : Simulates next next' Rel Res rank rank')
    {c : C} {c' : C'} (hrel : Rel c c') {r' : R'}
    (hfin : Finishes next' c' r') : ∃ r, Finishes next c r ∧ Res r r' :=
  h.flip.finishes hrel hfin

end Simulates

/-! ## Several steps at a time -/

section Blocks

variable {C C' R R' : Type*} {next : C → Next C R} {next' : C' → Next C' R'}
  {Rel : C → C' → Prop} {Res : R → R' → Prop} {rank : C → ℕ}

/-- `n` steps lead from one configuration to another. -/
def Steps (next : C → Next C R) : ℕ → C → C → Prop
  | 0, c, d => c = d
  | n + 1, c, d => ∃ e, next c = .go e ∧ Steps next n e d

theorem Steps.finishes_iff {n : ℕ} {c d : C} {r : R} (h : Steps next n c d) :
    Finishes next c r ↔ Finishes next d r := by
  induction n generalizing c with
  | zero =>
    obtain rfl : c = d := h
    exact Iff.rfl
  | succ n ih =>
    obtain ⟨e, he, hd⟩ := h
    exact (finishes_go_iff he).trans (ih hd)

/-- A run that passes through a configuration goes on from there. -/
theorem Steps.run_eq {n m : ℕ} {c d : C} {r : R} (h : Steps next n c d)
    (hr : run next m c = some r) : ∃ k, m = n + k ∧ run next k d = some r := by
  induction n generalizing c m with
  | zero =>
    obtain rfl : c = d := h
    exact ⟨m, (zero_add m).symm, hr⟩
  | succ n ih =>
    obtain ⟨e, he, hd⟩ := h
    cases m with
    | zero => cases hr
    | succ m =>
      rw [run_go he] at hr
      obtain ⟨k, rfl, hk⟩ := ih hd hr
      exact ⟨k, by omega, hk⟩

/-- Related configurations go on to related ones, over configurations that
need not be related; or the first machine makes steps alone while a rank goes
down. -/
inductive BlockMatched (next : C → Next C R) (next' : C' → Next C' R')
    (Rel : C → C' → Prop) (Res : R → R' → Prop) (rank : C → ℕ) (c : C)
    (c' : C') : Prop
  | both {n k : ℕ} {d : C} {d' : C'} (hc : Steps next n c d)
      (hc' : Steps next' k c' d') (h : NextRel Rel Res (next d) (next' d'))
  | left {n : ℕ} {d : C} (hc : Steps next (n + 1) c d) (h : Rel d c')
      (hrank : rank d < rank c)

def BlockSimulates (next : C → Next C R) (next' : C' → Next C' R')
    (Rel : C → C' → Prop) (Res : R → R' → Prop) (rank : C → ℕ) : Prop :=
  ∀ c c', Rel c c' → BlockMatched next next' Rel Res rank c c'

theorem BlockSimulates.finishes (h : BlockSimulates next next' Rel Res rank)
    {c : C} {c' : C'} (hrel : Rel c c') {r : R} (hfin : Finishes next c r) :
    ∃ r', Finishes next' c' r' ∧ Res r r' := by
  obtain ⟨m, hm⟩ := hfin
  induction m using Nat.strongRecOn generalizing c c' with
  | ind m ih =>
    cases h c c' hrel with
    | @both _ _ d d' hc hc' hd =>
      obtain ⟨k, rfl, hk⟩ := hc.run_eq hm
      cases k with
      | zero => cases hk
      | succ k =>
        generalize hx : next d = x at hd
        generalize hx' : next' d' = x' at hd
        cases hd with
        | @go e e' he =>
          rw [run_go hx] at hk
          obtain ⟨r', hr', hres⟩ := ih k (by omega) he hk
          exact ⟨r', hc'.finishes_iff.mpr (hr'.go hx'), hres⟩
        | @stop r₁ r' hres =>
          rw [run_stop hx] at hk
          cases hk
          exact ⟨r', hc'.finishes_iff.mpr (Finishes.stop hx'), hres⟩
    | @left n d hc hd _ =>
      obtain ⟨k, rfl, hk⟩ := hc.run_eq hm
      exact ih k (by omega) hd hk

theorem BlockSimulates.finishes_right
    (h : BlockSimulates next next' Rel Res rank) {c : C} {c' : C'}
    (hrel : Rel c c') {r' : R'} (hfin : Finishes next' c' r') :
    ∃ r, Finishes next c r ∧ Res r r' := by
  obtain ⟨m, hm⟩ := hfin
  induction m using Nat.strongRecOn generalizing c c' with
  | ind m ihm =>
    induction hk : rank c using Nat.strongRecOn generalizing c with
    | ind j ihj =>
      cases h c c' hrel with
      | @both _ _ d d' hc hc' hd =>
        obtain ⟨k, rfl, hk⟩ := hc'.run_eq hm
        cases k with
        | zero => cases hk
        | succ k =>
          generalize hx : next d = x at hd
          generalize hx' : next' d' = x' at hd
          cases hd with
          | @go e e' he =>
            rw [run_go hx'] at hk
            obtain ⟨r, hr, hres⟩ := ihm k (by omega) he hk
            exact ⟨r, hc.finishes_iff.mpr (hr.go hx), hres⟩
          | @stop r r₁ hres =>
            rw [run_stop hx'] at hk
            cases hk
            exact ⟨r, hc.finishes_iff.mpr (Finishes.stop hx), hres⟩
      | @left n d hc hd hlt =>
        obtain ⟨r, hr, hres⟩ := ihj (rank d) (hk ▸ hlt) hd rfl
        exact ⟨r, hc.finishes_iff.mpr hr, hres⟩

end Blocks

end Fuzzball.Simulation
