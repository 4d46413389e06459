import Fuzzball.X64Flags

/-!
# The thunk of a block

The forms that the translation gives an assignment to a thunk register: the
value itself, or the choice between the value and the old one that `emit_ite`
makes for a guarded operation.  The search finds the assignments and picks the
operands out of them.
-/

namespace Fuzzball.Asmir.X64

open Vine X86

variable {ir : List BlockStmt} {i : ℕ} {c e rhs : Exp}

/-! ## Assignments to the thunk -/

/-- The right-hand side at `i` is the choice of `e` under the condition `c`:
directly, or through the temporaries of `emit_ite` and of the VEX statement. -/
inductive Choice (ir : List BlockStmt) (i : ℕ) (c e : Exp) : Exp → Prop
  | direct (f : Exp) : Choice ir i c e (.ite c e f)
  | temps (f : Exp) (v₀ v₁ : Var) :
      3 ≤ i → ir[i - 3]? = some (.varDecl v₀) →
      ir[i - 2]? = some (.move (.temp v₀) (.ite c e f)) →
      ir[i - 1]? = some (.move (.temp v₁) (.temp v₀)) →
      Choice ir i c e (.temp v₁)

/-- The value assigned at `i`, under the condition if there is one. -/
def Value (ir : List BlockStmt) (i : ℕ) (cond : Option Exp) (e rhs : Exp) :
    Prop :=
  match cond with
  | none => rhs = e
  | some c => Choice ir i c e rhs

/-- The only assignment to the register, at `i`. -/
structure Assigns (ir : List BlockStmt) (reg : OString) (i : ℕ) (rhs : Exp) :
    Prop where
  stmt : ∃ v : Var, v.name = reg ∧ ir[i]? = some (.move (.temp v) rhs)
  once : ∀ (j : ℕ) (v : Var) (rhs' : Exp),
    ir[j]? = some (.move (.temp v) rhs') → v.name = reg → j = i

/-- The register gets the value `e`, under the condition if there is one. -/
def Puts (ir : List BlockStmt) (reg : OString) (i : ℕ) (cond : Option Exp)
    (e : Exp) : Prop :=
  ∃ rhs, Assigns ir reg i rhs ∧ Value ir i cond e rhs

/-- A thunk in a block, with the indices of its assignments. -/
structure HasThunk (ir : List BlockStmt) (cond : Option Exp) (code : I64)
    (dep1 dep2 : Exp) (ndep : Option Exp) (opSt dep1St dep2St : ℕ)
    (ndepSt : Option ℕ) : Prop where
  /-- The rest of the thunk and the jump follow. -/
  room : opSt + 4 < ir.length
  op : ∃ u, Puts ir rCcOp opSt cond (.int u code)
  dep1 : Puts ir rCcDep1 dep1St cond dep1
  dep2 : Puts ir rCcDep2 dep2St cond dep2
  ndep : match ndep, ndepSt with
    | some e, some i => Puts ir rCcNdep i cond e
    | none, none => ∀ (j : ℕ) (v : Var) (rhs : Exp),
        ir[j]? = some (.move (.temp v) rhs) → v.name ≠ rCcNdep
    | _, _ => False

/-! ## Matching -/

theorem atIndex_of_lt {j : ℕ} (hj : j < ir.length) :
    ∃ s, atIndex ir j = .ok s ∧ ir[j]? = some s := by
  refine ⟨ir[j], ?_, List.getElem?_eq_getElem hj⟩
  rw [atIndex, List.getElem?_eq_getElem hj]

/-- Within the block no pattern reaches beyond its end. -/
theorem matchIte_ok {j : ℤ} (hj : j + 4 < ir.length) :
    ∃ r, matchIte ir j = .ok r := by
  unfold matchIte
  split_ifs with hrange
  · exact ⟨_, rfl⟩
  · obtain ⟨s1, h1, -⟩ := atIndex_of_lt (show j.toNat + 1 < ir.length by omega)
    obtain ⟨s2, h2, -⟩ := atIndex_of_lt (show j.toNat + 2 < ir.length by omega)
    obtain ⟨s3, h3, -⟩ := atIndex_of_lt (show j.toNat + 3 < ir.length by omega)
    obtain ⟨s4, h4, -⟩ := atIndex_of_lt (show j.toNat + 4 < ir.length by omega)
    dsimp only
    split
    · split
      · exact ⟨_, rfl⟩
      · exact ⟨_, rfl⟩
    · split
      · exact ⟨_, rfl⟩
      · simp only [h1, h2, h3, h4, bind, Except.bind, pure, Except.pure]
        split_ifs <;> exact ⟨_, rfl⟩
    · exact ⟨_, rfl⟩

theorem matchIte_choice (h : Choice ir i c e rhs)
    {v : Var} (hstmt : ir[i]? = some (.move (.temp v) rhs)) :
    ∃ m, matchIte ir i = .ok (some m) ∧ m.cond = c ∧ m.exp_t = e := by
  have hlt : i < ir.length := (List.getElem?_eq_some_iff.mp hstmt).1
  have hrange : ¬((i : ℤ) < 0 ∨ (ir.length : ℤ) ≤ i) := by omega
  unfold matchIte
  rw [if_neg hrange]
  cases h with
  | direct f =>
    refine ⟨⟨c, e, f, .temp v⟩, ?_, rfl, rfl⟩
    simp only [Int.toNat_natCast, hstmt]
  | temps f v₀ v₁ hi hdecl h2 h1 =>
    refine ⟨⟨c, e, f, .temp v⟩, ?_, rfl, rfl⟩
    have h2i : 2 ≤ i := by omega
    simp [Int.toNat_natCast, hstmt, h2, h1, h2i, matchIteTemps]

/-! ## The search -/

/-- The assignment to `R_CC_OP` is found where it is. -/
theorem getThunkOp_eq
    {cond : Option Exp} {u : Typ} {code : I64} {v : Var} (st : ThunkIndex)
    (hroom : i + 4 < ir.length)
    (hstmt : ir[i]? = some (.move (.temp v) rhs))
    (hvalue : Value ir i cond (.int u code) rhs) :
    getThunkOp ir st i rhs = .ok { st with op := some i } := by
  obtain ⟨back, hback⟩ := matchIte_ok (show (i : ℤ) - 3 + 4 < ir.length by omega)
  obtain ⟨here, hhere⟩ := matchIte_ok (show (i : ℤ) + 4 < ir.length by omega)
  cases cond with
  | none =>
    obtain rfl : rhs = .int u code := hvalue
    cases back <;> cases here <;>
      simp [getThunkOp, hback, hhere, movesTo, isOpCopy, bind, Except.bind,
        pure, Except.pure]
  | some c =>
    have hchoice : Choice ir i c (.int u code) rhs := hvalue
    obtain ⟨m, hm, -, -⟩ := matchIte_choice hchoice hstmt
    cases hchoice with
    | direct f =>
      cases back <;>
        simp [getThunkOp, hback, hm, movesTo, bind, Except.bind, pure,
          Except.pure]
    | temps f v₀ v₁ hi hdecl h2 h1 =>
      have hnone : matchIte ir ((i : ℤ) - 3) = .ok none := by
        have hnat : (i : ℤ) - 3 = ((i - 3 : ℕ) : ℤ) := by omega
        rw [hnat]
        simp [matchIte, hdecl]
      simp [getThunkOp, hnone, hm, bind, Except.bind, pure, Except.pure]

section Loop

variable {cond : Option Exp} {code : I64} {dep1 dep2 : Exp}
  {ndep : Option Exp} {opSt dep1St dep2St : ℕ} {ndepSt : Option ℕ}

def AssignsTo (ir : List BlockStmt) (reg : OString) (k : ℕ) : Prop :=
  ∃ (v : Var) (rhs : Exp),
    v.name = reg ∧ ir[k]? = some (.move (.temp v) rhs)

theorem Puts.assignsTo_iff {reg : OString} (h : Puts ir reg i cond e) (k : ℕ) :
    AssignsTo ir reg k ↔ k = i := by
  obtain ⟨rhs, hassigns, -⟩ := h
  constructor
  · rintro ⟨v, rhs', hname, hstmt⟩
    exact hassigns.once k v rhs' hstmt hname
  · rintro rfl
    obtain ⟨v, hname, hstmt⟩ := hassigns.stmt
    exact ⟨v, rhs, hname, hstmt⟩

/-- What is assigned at the index. -/
theorem Puts.value
    {reg : OString} (h : Puts ir reg i cond e) {v : Var}
    (hstmt : ir[i]? = some (.move (.temp v) rhs)) : Value ir i cond e rhs := by
  obtain ⟨rhs', hassigns, hvalue⟩ := h
  obtain ⟨v', -, hstmt'⟩ := hassigns.stmt
  rw [hstmt] at hstmt'
  cases hstmt'
  exact hvalue

theorem HasThunk.assignsTo_ndep_iff
    (h : HasThunk ir cond code dep1 dep2 ndep opSt dep1St dep2St ndepSt)
    (k : ℕ) : AssignsTo ir rCcNdep k ↔ ndepSt = some k := by
  have hndep := h.ndep
  cases ndep with
  | none =>
    cases ndepSt with
    | none =>
      constructor
      · rintro ⟨v, rhs, hname, hstmt⟩
        exact absurd hname (hndep k v rhs hstmt)
      · exact fun hk => nomatch hk
    | some i => exact hndep.elim
  | some e =>
    cases ndepSt with
    | none => exact hndep.elim
    | some i =>
      have hputs : Puts ir rCcNdep i cond e := hndep
      rw [hputs.assignsTo_iff, Option.some.injEq, eq_comm]

/-- The index of an assignment once the first `k` statements are searched. -/
def found (i : Option ℕ) (k : ℕ) : Option ℕ := i.filter (· < k)

theorem found_succ (i : Option ℕ) (k : ℕ) :
    found i (k + 1) = if i = some k then some k else found i k := by
  cases i with
  | none => simp [found]
  | some i =>
    simp only [found, Option.filter_some, Option.some.injEq]
    split_ifs <;> simp_all <;> omega

/-- The search after `k` statements. -/
structure Scanned (opSt dep1St dep2St : ℕ) (ndepSt : Option ℕ) (k : ℕ)
    (st : ThunkIndex) : Prop where
  op : st.op = found (some opSt) k
  dep1 : st.dep1 = found (some dep1St) k
  dep2 : st.dep2 = found (some dep2St) k
  ndep : st.ndep = found ndepSt k
  mux0x : st.mux0x = none
  nop : st.nop = none

/-- After a move to a temporary of the given name, at `k`. -/
theorem Scanned.next
    (h : HasThunk ir cond code dep1 dep2 ndep opSt dep1St dep2St ndepSt)
    {k : ℕ} {st st' : ThunkIndex} (hs : Scanned opSt dep1St dep2St ndepSt k st)
    {name : OString} (hname : ∀ reg, AssignsTo ir reg k ↔ name = reg)
    (hop : st'.op = if name = rCcOp then some k else st.op)
    (h1 : st'.dep1 = if name = rCcDep1 then some k else st.dep1)
    (h2 : st'.dep2 = if name = rCcDep2 then some k else st.dep2)
    (hN : st'.ndep = if name = rCcNdep then some k else st.ndep)
    (hmux0x : st'.mux0x = st.mux0x) (hnop : st'.nop = st.nop) :
    Scanned opSt dep1St dep2St ndepSt (k + 1) st' := by
  obtain ⟨u, hputs⟩ := h.op
  have hiOp := hputs.assignsTo_iff k
  have hi1 := h.dep1.assignsTo_iff k
  have hi2 := h.dep2.assignsTo_iff k
  have hiN := h.assignsTo_ndep_iff k
  rw [hname] at hiOp hi1 hi2 hiN
  refine ⟨?_, ?_, ?_, ?_, hmux0x.trans hs.mux0x, hnop.trans hs.nop⟩
  · simp only [hop, hs.op, found_succ, hiOp, Option.some.injEq, eq_comm]
  · simp only [h1, hs.dep1, found_succ, hi1, Option.some.injEq, eq_comm]
  · simp only [h2, hs.dep2, found_succ, hi2, Option.some.injEq, eq_comm]
  · simp only [hN, hs.ndep, found_succ, hiN]

/-- One round of the loop notes the assignment at `k`, if there is one. -/
theorem scanned_step
    (h : HasThunk ir cond code dep1 dep2 ndep opSt dep1St dep2St ndepSt)
    {k : ℕ} {st : ThunkIndex} (hs : Scanned opSt dep1St dep2St ndepSt k st) :
    ∃ st', getThunkStep ir st k = .ok st' ∧
      Scanned opSt dep1St dep2St ndepSt (k + 1) st' := by
  by_cases htemp : ∃ (v : Var) (rhs : Exp),
      ir[k]? = some (.move (.temp v) rhs)
  · obtain ⟨v, rhs, hstmt⟩ := htemp
    have hname : ∀ reg, AssignsTo ir reg k ↔ v.name = reg := by
      intro reg
      simp [AssignsTo, hstmt]
    unfold getThunkStep
    simp only [hstmt]
    split_ifs with hvOp hv1 hv2 hvN
    · obtain ⟨u, hop⟩ := h.op
      obtain rfl : k = opSt := (hop.assignsTo_iff k).mp ((hname _).mpr hvOp)
      refine ⟨_, getThunkOp_eq st h.room hstmt (hop.value hstmt), ?_⟩
      rw [hvOp] at hname
      exact hs.next h hname (if_pos rfl).symm (if_neg (by decide)).symm
        (if_neg (by decide)).symm (if_neg (by decide)).symm rfl rfl
    · refine ⟨_, rfl, ?_⟩
      rw [hv1] at hname
      exact hs.next h hname (if_neg (by decide)).symm (if_pos rfl).symm
        (if_neg (by decide)).symm (if_neg (by decide)).symm rfl rfl
    · refine ⟨_, rfl, ?_⟩
      rw [hv2] at hname
      exact hs.next h hname (if_neg (by decide)).symm
        (if_neg (by decide)).symm (if_pos rfl).symm (if_neg (by decide)).symm
        rfl rfl
    · refine ⟨_, rfl, ?_⟩
      rw [hvN] at hname
      exact hs.next h hname (if_neg (by decide)).symm
        (if_neg (by decide)).symm (if_neg (by decide)).symm (if_pos rfl).symm
        rfl rfl
    · have hother : ∀ st', st'.op = st.op → st'.dep1 = st.dep1 →
          st'.dep2 = st.dep2 → st'.ndep = st.ndep → st'.mux0x = st.mux0x →
          st'.nop = st.nop →
          Scanned opSt dep1St dep2St ndepSt (k + 1) st' := by
        intro st' e0 e1 e2 e3 e4 e5
        apply hs.next h hname _ _ _ _ e4 e5
        · rw [e0, if_neg hvOp]
        · rw [e1, if_neg hv1]
        · rw [e2, if_neg hv2]
        · rw [e3, if_neg hvN]
      split
      · split_ifs
        · exact ⟨_, rfl, hother _ rfl rfl rfl rfl rfl rfl⟩
        · exact ⟨_, rfl, hother _ rfl rfl rfl rfl rfl rfl⟩
      · exact ⟨_, rfl, hother _ rfl rfl rfl rfl rfl rfl⟩
  · have hnot : ∀ reg, ¬AssignsTo ir reg k :=
      fun reg ⟨v, rhs, _, hstmt⟩ => htemp ⟨v, rhs, hstmt⟩
    have hstep : getThunkStep ir st k = .ok st := by
      unfold getThunkStep
      split
      · next v rhs hstmt => exact absurd ⟨v, rhs, hstmt⟩ htemp
      · rfl
    obtain ⟨u, hop⟩ := h.op
    have hne : ∀ {i : Option ℕ} {reg : OString},
        (AssignsTo ir reg k ↔ i = some k) → found i (k + 1) = found i k :=
      fun hi => by rw [found_succ, if_neg fun heq => hnot _ (hi.mpr heq)]
    refine ⟨st, hstep, ?_, ?_, ?_, ?_, hs.mux0x, hs.nop⟩
    · rw [hne (by rw [hop.assignsTo_iff, Option.some.injEq, eq_comm])]
      exact hs.op
    · rw [hne (by rw [h.dep1.assignsTo_iff, Option.some.injEq, eq_comm])]
      exact hs.dep1
    · rw [hne (by rw [h.dep2.assignsTo_iff, Option.some.injEq, eq_comm])]
      exact hs.dep2
    · rw [hne (h.assignsTo_ndep_iff k)]
      exact hs.ndep

/-- The whole search. -/
theorem getThunkIndex_eq
    (h : HasThunk ir cond code dep1 dep2 ndep opSt dep1St dep2St ndepSt) :
    ∃ copy, getThunkIndex ir =
      .ok ⟨some opSt, some dep1St, some dep2St, ndepSt, none, none, copy⟩ := by
  have hscan : ∀ k, ∃ st, (List.range k).foldlM (getThunkStep ir) {} = .ok st ∧
      Scanned opSt dep1St dep2St ndepSt k st := by
    intro k
    induction k with
    | zero =>
      refine ⟨{}, rfl, ?_⟩
      refine ⟨?_, ?_, ?_, ?_, rfl, rfl⟩
      · simp [found]
      · simp [found]
      · simp [found]
      · cases ndepSt <;> simp [found]
    | succ k ih =>
      obtain ⟨st, hst, hs⟩ := ih
      obtain ⟨st', hst', hs'⟩ := scanned_step h hs
      refine ⟨st', ?_, hs'⟩
      rw [List.range_succ, List.foldlM_append, hst]
      simp [bind, Except.bind, hst', pure, Except.pure]
  obtain ⟨st, hst, hs⟩ := hscan ir.length
  have hall : ∀ {i : Option ℕ} (reg : OString),
      (∀ k, AssignsTo ir reg k ↔ i = some k) → found i ir.length = i := by
    intro i reg hi
    cases i with
    | none => rfl
    | some i =>
      obtain ⟨v, rhs, -, hstmt⟩ := (hi i).mpr rfl
      have hlt : i < ir.length := (List.getElem?_eq_some_iff.mp hstmt).1
      simp [found, hlt]
  have hputs : ∀ {i : ℕ} {reg : OString} {e : Exp}, Puts ir reg i cond e →
      found (some i) ir.length = some i := by
    intro i reg e hp
    apply hall reg
    intro k
    rw [hp.assignsTo_iff, Option.some.injEq, eq_comm]
  obtain ⟨u, hop⟩ := h.op
  obtain ⟨e0, e1, e2, eN, eM, eX⟩ := hs
  rw [hputs hop] at e0
  rw [hputs h.dep1] at e1
  rw [hputs h.dep2] at e2
  rw [hall _ h.assignsTo_ndep_iff] at eN
  refine ⟨st.ccOpCopy, ?_⟩
  rw [getThunkIndex, hst]
  cases st
  simp_all

/-! ## The operands -/

theorem Puts.moveRhs_eq {reg : OString} (h : Puts ir reg i none e) :
    moveRhs ir i = .ok e := by
  obtain ⟨rhs, hassigns, rfl⟩ := h
  obtain ⟨v, -, hstmt⟩ := hassigns.stmt
  simp [moveRhs, atIndex, hstmt, bind, Except.bind, pure, Except.pure]

theorem Puts.assertIte_eq {reg : OString} (h : Puts ir reg i (some c) e) :
    ∃ m, assertIte ir i = .ok m ∧ m.cond = c ∧ m.exp_t = e := by
  obtain ⟨rhs, hassigns, hvalue⟩ := h
  obtain ⟨v, -, hstmt⟩ := hassigns.stmt
  have hchoice : Choice ir i c e rhs := hvalue
  obtain ⟨m, hm, hc, he⟩ := matchIte_choice hchoice hstmt
  refine ⟨m, ?_, hc, he⟩
  simp [assertIte, hm, bind, Except.bind, pure, Except.pure]

theorem Puts.findOp_eq {u : Typ} (h : Puts ir rCcOp opSt cond (.int u code)) :
    findOp ir opSt = .ok (some (toInt32 code, cond)) := by
  obtain ⟨rhs, hassigns, hvalue⟩ := h
  obtain ⟨v, -, hstmt⟩ := hassigns.stmt
  cases cond with
  | none =>
    obtain rfl : rhs = .int u code := hvalue
    simp [findOp, atIndex, hstmt, bind, Except.bind, pure, Except.pure]
  | some c =>
    have hchoice : Choice ir opSt c (.int u code) rhs := hvalue
    obtain ⟨m, hm, hc, he⟩ := matchIte_choice hchoice hstmt
    cases hchoice <;>
      simp [findOp, atIndex, hstmt, hm, hc, he, bind, Except.bind, pure,
        Except.pure]

/-- The operand that is taken for `CC_NDEP`: in the functional case the one of
`CC_DEP2`. -/
def ndepRead (cond : Option Exp) (dep2 : Exp) (ndep : Option Exp) :
    Option Exp :=
  match cond with
  | none => ndep
  | some _ => ndep.map fun _ => dep2

theorem selectThunk_eq
    (h : HasThunk ir cond code dep1 dep2 ndep opSt dep1St dep2St ndepSt) :
    selectThunk ir = .ok (some ⟨toInt32 code, dep1, dep2,
      ndepRead cond dep2 ndep, cond,
      insertLoc opSt dep1St dep2St ndepSt⟩) := by
  obtain ⟨u, hop⟩ := h.op
  obtain ⟨copy, hindex⟩ := getThunkIndex_eq h
  have h1 := h.dep1
  have h2 := h.dep2
  have hN := h.ndep
  unfold selectThunk
  simp only [hindex, hop.findOp_eq, bind, Except.bind]
  cases cond with
  | none =>
    simp only [h1.moveRhs_eq, h2.moveRhs_eq]
    cases ndep with
    | none =>
      cases ndepSt with
      | none => rfl
      | some i => exact hN.elim
    | some e =>
      cases ndepSt with
      | none => exact hN.elim
      | some i =>
        have hputs : Puts ir rCcNdep i none e := hN
        simp [hputs.moveRhs_eq, ndepRead, pure, Except.pure]
  | some c =>
    obtain ⟨m1, hm1, -, he1⟩ := h1.assertIte_eq
    obtain ⟨m2, hm2, -, he2⟩ := h2.assertIte_eq
    simp only [hm1, hm2]
    cases ndep with
    | none =>
      cases ndepSt with
      | none => simp [ndepRead, he1, he2, pure, Except.pure]
      | some i => exact hN.elim
    | some e =>
      cases ndepSt with
      | none => exact hN.elim
      | some i => simp [ndepRead, he1, he2, pure, Except.pure]

end Loop

end Fuzzball.Asmir.X64
