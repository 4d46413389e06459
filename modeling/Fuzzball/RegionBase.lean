import Fuzzball.AddressTerms
import Fuzzball.StatefulExceptions

/-!
# The base of a symbolic address

`select_one` and the choice of a base in `region_expr` of
`sym_region_frag_machine.ml`.  One of the symbols is taken at random; the base
and the terms that are left make up the address.
-/

namespace Fuzzball.SymRegion

open Vine

inductive RegionExn
  | nullDereference (eipOfDeref lastSetToNull addrDerefed : I64)
  | raised (x : Exn)
  deriving DecidableEq, Repr

/-! ## Selecting one element -/

section Select

variable {σ α : Type}

def splitList (l : List α) : List α × List α :=
  let k := l.length / 2
  (l.take k, l.drop k)

/-- The local function `loop` of `select_one`. -/
def selectLoop (randFunc : Stateful RegionExn σ Bool) :
    List α → Stateful RegionExn σ (α × List α)
  | [] => throw (.raised (.failure "Empty list in select_one"))
  | [a] => pure (a, [])
  | [a, b] => do
    if ← randFunc then pure (a, [b]) else pure (b, [a])
  | a :: b :: c :: r => do
    let l := a :: b :: c :: r
    if ← randFunc then
      let (e, h1r) ← selectLoop randFunc (splitList l).1
      pure (e, h1r ++ (splitList l).2)
    else
      let (e, h2r) ← selectLoop randFunc (splitList l).2
      pure (e, (splitList l).1 ++ h2r)
termination_by l => l.length
decreasing_by
  all_goals simp only [splitList, List.length_take, List.length_drop,
    List.length_cons]
  all_goals omega

def selectOne (l : List α) (randFunc : Stateful RegionExn σ Bool) :
    Stateful RegionExn σ (α × List α) :=
  selectLoop randFunc l

/-- The rest of the list, in its order. -/
def Removes (l : List α) (p : α × List α) : Prop :=
  ∃ l1 l2, l = l1 ++ p.1 :: l2 ∧ p.2 = l1 ++ l2

theorem Removes.perm {l : List α} {p : α × List α} (h : Removes l p) :
    (p.1 :: p.2).Perm l := by
  obtain ⟨l1, l2, rfl, hrest⟩ := h
  rw [hrest]
  exact List.perm_middle.symm

theorem splitList_append (l : List α) :
    (splitList l).1 ++ (splitList l).2 = l := List.take_append_drop _ _

theorem splitList_ne_nil {l : List α} (hl : 2 ≤ l.length) :
    (splitList l).1 ≠ [] ∧ (splitList l).2 ≠ [] := by
  constructor
  · refine List.ne_nil_of_length_pos ?_
    rw [splitList, List.length_take]
    omega
  · refine List.ne_nil_of_length_pos ?_
    rw [splitList, List.length_drop]
    omega

theorem Removes.left {l : List α} {p : α × List α}
    (h : Removes (splitList l).1 p) :
    Removes l (p.1, p.2 ++ (splitList l).2) := by
  obtain ⟨l1, l2, hl, hrest⟩ := h
  refine ⟨l1, l2 ++ (splitList l).2, ?_, ?_⟩
  · rw [← List.cons_append, ← List.append_assoc, ← hl, splitList_append]
  · rw [hrest, List.append_assoc]

theorem Removes.right {l : List α} {p : α × List α}
    (h : Removes (splitList l).2 p) :
    Removes l (p.1, (splitList l).1 ++ p.2) := by
  obtain ⟨l1, l2, hl, hrest⟩ := h
  refine ⟨(splitList l).1 ++ l1, l2, ?_, ?_⟩
  · rw [List.append_assoc, ← hl, splitList_append]
  · rw [hrest, List.append_assoc]

variable {I : σ → Prop} {R : σ → σ → Prop} [Std.Refl R] [IsTrans σ R]
  {E : RegionExn → Prop} {randFunc : Stateful RegionExn σ Bool}

/-- Whatever the random function keeps and raises, so does the selection. -/
theorem selectLoop_ends
    (hrand : ∀ s, I s → Ends I R E s randFunc fun _ _ => True) (l : List α)
    (hl : l ≠ []) {s : σ} (hs : I s) :
    Ends I R E s (selectLoop randFunc l) fun p _ => Removes l p := by
  induction l using selectLoop.induct generalizing s with
  | case1 => exact absurd rfl hl
  | case2 a =>
    rw [selectLoop]
    exact .pure hs ⟨[], [], rfl, rfl⟩
  | case3 a b =>
    rw [selectLoop]
    refine (hrand s hs).bind fun first s1 hs1 _ _ => ?_
    cases first
    · exact .pure hs1 ⟨[a], [], rfl, rfl⟩
    · exact .pure hs1 ⟨[], [b], rfl, rfl⟩
  | case4 a b c r l ih1 ih2 =>
    obtain ⟨h1, h2⟩ := splitList_ne_nil (l := l) (by simp [l])
    rw [selectLoop]
    refine (hrand s hs).bind fun first s1 hs1 _ _ => ?_
    cases first
    · refine (ih2 h2 hs1).bind fun p s2 hs2 _ hp => ?_
      exact .pure hs2 hp.right
    · refine (ih1 h1 hs1).bind fun p s2 hs2 _ hp => ?_
      exact .pure hs2 hp.left

/-- With a random function that always answers, an element and the rest are
returned. -/
theorem selectOne_perm {l : List α} (hl : l ≠ [])
    (hrand : ∀ s, ∃ b s', randFunc.run s = (.ok b, s')) (s : σ) :
    ∃ e rest s', (selectOne l randFunc).run s = (.ok (e, rest), s') ∧
      (e :: rest).Perm l := by
  have : Std.Refl fun _ _ : σ => True := ⟨fun _ => trivial⟩
  have : IsTrans σ fun _ _ => True := ⟨fun _ _ _ _ _ => trivial⟩
  have hends : ∀ s, True → Ends (fun _ => True) (fun _ _ => True)
      (fun _ => False) s randFunc fun _ _ => True := by
    intro s _
    obtain ⟨b, s', hrun⟩ := hrand s
    exact .of_ok hrun trivial trivial trivial
  obtain ⟨⟨e, rest⟩, s', hrun, -, -, hremoves⟩ :=
    (selectLoop_ends hends l hl (s := s) trivial).exists_ok
  exact ⟨e, rest, s', hrun, hremoves.perm⟩

/-- Five numbers, and answers that alternate. -/
theorem selectOne_perm_alternate :
    ∃ e rest s', (selectOne [1, 2, 3, 4, 5]
        (modifyGet fun b => (b, !b) : Stateful RegionExn Bool Bool)).run true =
          (.ok (e, rest), s') ∧ (e :: rest).Perm [1, 2, 3, 4, 5] :=
  selectOne_perm (by decide) (fun b => ⟨b, !b, rfl⟩) true

/-- Answers from a list, and no more when it is used up. -/
def answer : Stateful RegionExn (List Bool) Bool :=
  modifyGet fun bs => (bs.headD false, bs.tail)

theorem answer_run (b : Bool) (bs : List Bool) :
    answer.run (b :: bs) = (.ok b, bs) := rfl

theorem half_of_split {l l1 l2 : List α} {e : α} (h : l1 ++ e :: l2 = l) :
    (∃ l3, l1 ++ e :: l3 = (splitList l).1 ∧ l2 = l3 ++ (splitList l).2) ∨
      ∃ l3, l3 ++ e :: l2 = (splitList l).2 ∧ l1 = (splitList l).1 ++ l3 := by
  rw [← splitList_append l] at h
  rcases List.append_eq_append_iff.mp h with ⟨l3, h1, h2⟩ | ⟨l3, h1, h2⟩
  · cases l3 with
    | nil => exact .inr ⟨[], h2, by rw [h1, List.append_nil, List.append_nil]⟩
    | cons d l3 =>
      obtain ⟨rfl, hl2⟩ := List.cons.inj h2
      exact .inl ⟨l3, h1.symm, hl2⟩
  · exact .inr ⟨l3, h2.symm, h1⟩

/-- Each element is selected for some answers. -/
theorem selectOne_selects (l1 : List α) (e : α) (l2 : List α) :
    ∃ bs, ∀ rest, (selectOne (l1 ++ e :: l2) answer).run (bs ++ rest) =
      (.ok (e, l1 ++ l2), rest) := by
  unfold selectOne
  generalize hl : l1 ++ e :: l2 = l
  induction l using selectLoop.induct generalizing l1 l2 with
  | case1 => simp at hl
  | case2 a =>
    obtain ⟨rfl, rfl, rfl⟩ : l1 = [] ∧ e = a ∧ l2 = [] := by
      simpa [List.append_eq_cons_iff] using hl
    refine ⟨[], fun rest => ?_⟩
    rw [selectLoop]
    rfl
  | case3 a b =>
    rcases List.append_eq_cons_iff.mp hl with ⟨rfl, h⟩ | ⟨l3, rfl, h⟩
    · obtain ⟨rfl, rfl⟩ := List.cons.inj h
      refine ⟨[true], fun rest => ?_⟩
      rw [selectLoop, List.singleton_append,
        Stateful.run_bind_ok (answer_run true rest)]
      rfl
    · obtain ⟨rfl, rfl, rfl⟩ : l3 = [] ∧ e = b ∧ l2 = [] := by
        simpa [List.append_eq_cons_iff] using h.symm
      refine ⟨[false], fun rest => ?_⟩
      rw [selectLoop, List.singleton_append,
        Stateful.run_bind_ok (answer_run false rest)]
      rfl
  | case4 a b c r l ih1 ih2 =>
    rcases half_of_split (l := l) hl with ⟨l3, h, rfl⟩ | ⟨l3, h, rfl⟩
    · obtain ⟨bs, hbs⟩ := ih1 l1 l3 h
      refine ⟨true :: bs, fun rest => ?_⟩
      rw [selectLoop, List.cons_append,
        Stateful.run_bind_ok (answer_run true (bs ++ rest)), if_pos rfl,
        Stateful.run_bind_ok (hbs rest), ← List.append_assoc]
      rfl
    · obtain ⟨bs, hbs⟩ := ih2 l3 l2 h
      refine ⟨false :: bs, fun rest => ?_⟩
      rw [selectLoop, List.cons_append,
        Stateful.run_bind_ok (answer_run false (bs ++ rest)),
        if_neg Bool.false_ne_true, Stateful.run_bind_ok (hbs rest),
        List.append_assoc]
      rfl

end Select

/-! ## Choosing a base -/

section Base

variable {σ : Type}

/-- The base of `region_expr`, none where it is that of the concrete memory,
and the terms that are left to add to it. -/
def chooseBase (optNoSymRegions : Bool) (getEip : I64) (ts : Terms)
    (randFunc : Stateful RegionExn σ Bool) :
    Stateful RegionExn σ (Option Exp × List Exp) :=
  let cbase := ts.cbases.foldl (· + ·) 0
  if cbase = 0 then
    match ts.syms, ts.ambig, optNoSymRegions with
    | [], [], false => throw (.nullDereference getEip (0 - 1) (0 - 1))
    | [], [e], false => pure (some e, [])
    | [v], ambig, false => pure (some v, ambig)
    | [], el, _ => pure (none, el)
    | vl, ambig, _ => do
      let (bvar, restVars) ← selectOne vl randFunc
      pure (some bvar, restVars ++ ambig)
  else pure (none, ts.syms ++ ts.ambig)

def baseCloc (ts : Terms) : I64 :=
  ts.cbases.foldl (· + ·) 0 + ts.coffs.foldl (· + ·) 0

variable {I : σ → Prop} {R : σ → σ → Prop} [Std.Refl R] [IsTrans σ R]
  {E : RegionExn → Prop} {randFunc : Stateful RegionExn σ Bool}
  {optNoSymRegions : Bool} {eip : I64} {ts : Terms}

theorem selectBase_ends
    (hrand : ∀ s, I s → Ends I R E s randFunc fun _ _ => True)
    {syms : List Exp} (hsyms : syms ≠ []) (ambig : List Exp) {s : σ}
    (hs : I s) :
    Ends I R E s
      (do
        let (bvar, restVars) ← selectOne syms randFunc
        pure (some bvar, restVars ++ ambig))
      fun p _ => (p.1.toList ++ p.2).Perm (syms ++ ambig) :=
  (selectLoop_ends hrand syms hsyms hs).bind fun _ _ hs1 _ hp =>
    .pure hs1 (hp.perm.append_right ambig)

/-- The base and the terms that are left are the symbols and the ambiguous
terms. -/
theorem chooseBase_ends
    (hrand : ∀ s, I s → Ends I R E s randFunc fun _ _ => True)
    (hnull : E (.nullDereference eip (0 - 1) (0 - 1))) {s : σ} (hs : I s) :
    Ends I R E s (chooseBase optNoSymRegions eip ts randFunc) fun p _ =>
      (p.1.toList ++ p.2).Perm (ts.syms ++ ts.ambig) := by
  obtain ⟨cbases, coffs, eoffs, ambig, syms⟩ := ts
  unfold chooseBase
  dsimp only
  by_cases hbase : cbases.foldl (· + ·) 0 = 0
  · rw [if_pos hbase]
    match syms, ambig, optNoSymRegions with
    | [], [], false => exact .throw hs hnull
    | [], [], true => exact .pure hs (.refl _)
    | [], [e], false => exact .pure hs (.refl _)
    | [], [e], true => exact .pure hs (.refl _)
    | [], _ :: _ :: _, _ => exact .pure hs (.refl _)
    | [v], _, false => exact .pure hs (.refl _)
    | [v], ambig, true =>
      exact selectBase_ends hrand (List.cons_ne_nil _ _) ambig hs
    | v :: v' :: vl, ambig, _ =>
      exact selectBase_ends hrand (List.cons_ne_nil _ _) ambig hs
  · rw [if_neg hbase]
    exact .pure hs (.refl _)

variable {μ : Type} [VineMemory μ]

theorem setWidth_foldl_add {w : ℕ} (hw : w ≤ 64) (x : I64) (l : List I64) :
    (l.foldl (· + ·) x).setWidth w =
      x.setWidth w + (l.map (·.setWidth w)).sum := by
  induction l generalizing x with
  | nil => simp
  | cons y l ih =>
    rw [List.foldl_cons, ih, List.map_cons, List.sum_cons, ← add_assoc,
      BitVec.setWidth_add _ _ hw]

theorem sum_of_base {base : Option Exp} {offSyms : List Exp} (arch : Arch)
    (ρ : Valuation μ) {w : ℕ} (hw : w ≤ 64)
    (h : (base.toList ++ offSyms).Perm (ts.syms ++ ts.ambig)) :
    (base.toList.map (·.eval ρ w)).sum +
        (sumList arch (ts.eoffs ++ offSyms)).eval ρ w +
        (baseCloc ts).setWidth w = ts.sum ρ w := by
  have hterms := (h.map (·.eval ρ w)).sum_eq
  simp only [List.map_append, List.sum_append] at hterms
  have hzero : (0 : I64).setWidth w = (0 : BitVec w) := BitVec.setWidth_zero ..
  rw [sumList_eval, baseCloc, BitVec.setWidth_add _ _ hw,
    setWidth_foldl_add hw, setWidth_foldl_add hw, hzero, Terms.sum]
  simp only [List.map_append, List.sum_append]
  calc
    _ = (base.toList.map (·.eval ρ w)).sum +
          (offSyms.map (·.eval ρ w)).sum +
          (ts.eoffs.map (·.eval ρ w)).sum +
          ((ts.cbases.map (·.setWidth w)).sum +
            (ts.coffs.map (·.setWidth w)).sum) := by ring
    _ = _ := by
      rw [hterms]
      ring

/-- Whatever is answered, the base and what is left make up the address. -/
theorem chooseBase_address (arch : Arch)
    (hrand : ∀ s, I s → Ends I R E s randFunc fun _ _ => True)
    (hnull : E (.nullDereference eip (0 - 1) (0 - 1))) {s : σ} (hs : I s) :
    Ends I R E s (chooseBase optNoSymRegions eip ts randFunc) fun p _ =>
      ∀ (ρ : Valuation μ) (w : ℕ), w ≤ 64 →
        (p.1.toList.map (·.eval ρ w)).sum +
          (sumList arch (ts.eoffs ++ p.2)).eval ρ w +
          (baseCloc ts).setWidth w = ts.sum ρ w :=
  (chooseBase_ends hrand hnull hs).mono fun _ _ _ _ h ρ _ hw =>
    sum_of_base arch ρ hw h

end Base

end Fuzzball.SymRegion
