import Fuzzball.ArmModifyFlags
import Fuzzball.X64Thunk

/-!
# The thunk of an ARM block

A block assigns the four thunk registers one after the other: the values
themselves, or for a guarded operation the choice between each value and the
old one, through the temporary of `emit_ite` and that of the VEX statement.
The search finds the thunk whatever stands around it.
-/

namespace Fuzzball.Asmir.Arm

open Vine Armv7
open X64 (ThunkIndex movesTo isOpCopy toInt32 moveRhs assertIte matchIte_ok
  rCcOp rCcDep1 rCcDep2 rCcNdep)

/-! ## Assignments to the thunk -/

inductive CcReg
  | op
  | dep1
  | dep2
  | ndep
  deriving DecidableEq, Repr

/-- `mk_reg` for the registers of the thunk. -/
def CcReg.var : CcReg → Var
  | .op => ⟨-5, rCcOp, .reg32⟩
  | .dep1 => ⟨-6, rCcDep1, .reg32⟩
  | .dep2 => ⟨-7, rCcDep2, .reg32⟩
  | .ndep => ⟨-8, rCcNdep, .reg32⟩

/-- What is assigned to a register of the thunk, and for a guarded operation
the old value and the two temporaries. -/
structure Put where
  value : Exp
  old : Exp
  res : Var
  tmp : Var
  deriving DecidableEq, Repr

def Put.stmts (cond : Option Exp) (r : CcReg) (p : Put) : List BlockStmt :=
  match cond with
  | none => [.move (.temp r.var) p.value]
  | some c =>
    [.varDecl p.res, .move (.temp p.res) (.ite c p.value p.old),
      .move (.temp p.tmp) (.temp p.res), .move (.temp r.var) (.temp p.tmp)]

def thunkStmts (cond : Option Exp) (puts : CcReg → Put) : List BlockStmt :=
  [CcReg.op, .dep1, .dep2, .ndep].flatMap fun r => (puts r).stmts cond r

/-- The statement assigns a temporary with the name of the register. -/
def Assigns (s : BlockStmt) (r : CcReg) : Prop :=
  ∃ (v : Var) (rhs : Exp), s = .move (.temp v) rhs ∧ v.name = r.var.name

/-- What stands around the thunk, and its own temporaries, leave the thunk
alone. -/
structure Surrounds (pre post : List BlockStmt) (puts : CcReg → Put) :
    Prop where
  pre : ∀ s ∈ pre, ¬Assigns s .op
  post : ∀ s ∈ post, ∀ r, ¬Assigns s r
  res : ∀ r r' : CcReg, (puts r).res.name ≠ r'.var.name
  tmp : ∀ r r' : CcReg, (puts r).tmp.name ≠ r'.var.name

/-! ## The search -/

variable {ir : List BlockStmt} {k : ℕ} {st : ThunkIndex}

/-- The search after `k` statements. -/
def Scan (ir : List BlockStmt) (k : ℕ) (st : ThunkIndex) : Prop :=
  (List.range k).foldlM (getThunkStep ir) {} = .ok st

theorem Scan.zero : Scan ir 0 {} := rfl

theorem Scan.succ {st' : ThunkIndex} (h : Scan ir k st)
    (hstep : getThunkStep ir st k = .ok st') : Scan ir (k + 1) st' := by
  unfold Scan at *
  rw [List.range_succ, List.foldlM_append, h]
  simp [bind, Except.bind, hstep, pure, Except.pure]

/-- A statement that does not assign the thunk changes the copy only. -/
theorem Scan.other (h : Scan ir k st)
    (hs : ∀ s, ir[k]? = some s → ∀ r, ¬Assigns s r) :
    ∃ copy, Scan ir (k + 1) { st with ccOpCopy := copy } := by
  suffices hstep : ∃ copy,
      getThunkStep ir st k = .ok { st with ccOpCopy := copy } by
    obtain ⟨copy, hstep⟩ := hstep
    exact ⟨copy, h.succ hstep⟩
  unfold getThunkStep
  split
  · next v rhs hk =>
    have hne : ∀ r : CcReg, v.name ≠ r.var.name :=
      fun r hname => hs _ hk r ⟨v, rhs, rfl, hname⟩
    rw [if_neg (show v.name ≠ rCcOp from hne .op),
      if_neg (show v.name ≠ rCcDep1 from hne .dep1),
      if_neg (show v.name ≠ rCcDep2 from hne .dep2),
      if_neg (show v.name ≠ rCcNdep from hne .ndep)]
    split
    · split_ifs
      · exact ⟨_, rfl⟩
      · exact ⟨_, rfl⟩
    · exact ⟨_, rfl⟩
  · exact ⟨_, rfl⟩

/-- A statement that does not assign `R_CC_OP`. -/
theorem Scan.notOp (h : Scan ir k st)
    (hs : ∀ s, ir[k]? = some s → ¬Assigns s .op) :
    ∃ st', Scan ir (k + 1) st' ∧ st'.op = st.op ∧ st'.mux0x = st.mux0x ∧
      st'.nop = st.nop := by
  suffices hstep : ∃ st', getThunkStep ir st k = .ok st' ∧
      st'.op = st.op ∧ st'.mux0x = st.mux0x ∧ st'.nop = st.nop by
    obtain ⟨st', hstep, hkeep⟩ := hstep
    exact ⟨st', h.succ hstep, hkeep⟩
  unfold getThunkStep
  split
  · next v rhs hk =>
    have hne : v.name ≠ rCcOp := fun hname => hs _ hk ⟨v, rhs, rfl, hname⟩
    rw [if_neg hne]
    split_ifs
    · exact ⟨_, rfl, rfl, rfl, rfl⟩
    · exact ⟨_, rfl, rfl, rfl, rfl⟩
    · exact ⟨_, rfl, rfl, rfl, rfl⟩
    · split
      · split_ifs
        · exact ⟨_, rfl, rfl, rfl, rfl⟩
        · exact ⟨_, rfl, rfl, rfl, rfl⟩
      · exact ⟨_, rfl, rfl, rfl, rfl⟩
  · exact ⟨_, rfl, rfl, rfl, rfl⟩

/-- The index with the assignment to an operand noted. -/
def note (st : ThunkIndex) (r : CcReg) (i : ℕ) : ThunkIndex :=
  match r with
  | .op => st
  | .dep1 => { st with dep1 := some i }
  | .dep2 => { st with dep2 := some i }
  | .ndep => { st with ndep := some i }

theorem Scan.dep (h : Scan ir k st) {r : CcReg} (hr : r ≠ .op) {rhs : Exp}
    (hk : ir[k]? = some (.move (.temp r.var) rhs)) :
    Scan ir (k + 1) (note st r k) := by
  apply h.succ
  unfold getThunkStep
  cases r with
  | op => exact absurd rfl hr
  | dep1 | dep2 | ndep =>
    simp only [hk, CcReg.var]
    rfl

theorem Scan.op (h : Scan ir k st) {rhs : Exp} {st' : ThunkIndex}
    (hk : ir[k]? = some (.move (.temp CcReg.op.var) rhs))
    (hop : getThunkOp ir st k rhs = .ok st') : Scan ir (k + 1) st' := by
  apply h.succ
  unfold getThunkStep
  simp only [hk, CcReg.var, if_true]
  exact hop

/-- Before the thunk no assignment to `R_CC_OP` is found. -/
theorem scan_pre {pre rest : List BlockStmt}
    (hpre : ∀ s ∈ pre, ¬Assigns s .op) (hk : k ≤ pre.length) :
    ∃ st, Scan (pre ++ rest) k st ∧ st.op = none ∧ st.mux0x = none ∧
      st.nop = none := by
  induction k with
  | zero => exact ⟨{}, .zero, rfl, rfl, rfl⟩
  | succ k ih =>
    obtain ⟨st, hscan, hop, hmux, hnop⟩ := ih (by omega)
    have hs : ∀ s, (pre ++ rest)[k]? = some s → ¬Assigns s .op := by
      intro s hs
      rw [List.getElem?_append_left (by omega)] at hs
      exact hpre s (List.mem_of_getElem? hs)
    obtain ⟨st', hscan', hop', hmux', hnop'⟩ := hscan.notOp hs
    exact ⟨st', hscan', hop'.trans hop, hmux'.trans hmux, hnop'.trans hnop⟩

/-- After it nothing more is. -/
theorem scan_post {front post : List BlockStmt}
    (hpost : ∀ s ∈ post, ∀ r, ¬Assigns s r)
    (h : Scan (front ++ post) front.length st) :
    ∃ copy, getThunkIndex (front ++ post) =
      .ok { st with ccOpCopy := copy } := by
  suffices hall : ∀ k ≤ post.length, ∃ copy,
      Scan (front ++ post) (front.length + k) { st with ccOpCopy := copy } by
    obtain ⟨copy, hscan⟩ := hall post.length le_rfl
    rw [← List.length_append] at hscan
    exact ⟨copy, hscan⟩
  intro k
  induction k with
  | zero => exact fun _ => ⟨st.ccOpCopy, h⟩
  | succ k ih =>
    intro hk
    obtain ⟨copy, hscan⟩ := ih (by omega)
    have hs : ∀ s, (front ++ post)[front.length + k]? = some s →
        ∀ r, ¬Assigns s r := by
      intro s hs
      rw [List.getElem?_append_right (by omega), Nat.add_sub_cancel_left] at hs
      exact hpost s (List.mem_of_getElem? hs)
    exact hscan.other hs

/-! ## A thunk of values -/

section Plain

variable {i : ℕ} {v : Var} {u : Typ} {code : I64} {l1 r1 l2 r2 l3 r3 : Exp}

/-- No pattern begins at the move of a constant. -/
theorem matchIte_int
    (h0 : ir[i]? = some (.move (.temp v) (.int u code)))
    (h1 : ir[i + 1]? = some (.move l1 r1))
    (h2 : ir[i + 2]? = some (.move l2 r2))
    (h3 : ir[i + 3]? = some (.move l3 r3)) : matchIte ir i = .ok none := by
  have hlt : i < ir.length := (List.getElem?_eq_some_iff.mp h0).1
  have hrange : ¬((i : ℤ) < 0 ∨ (ir.length : ℤ) ≤ i) := by omega
  unfold matchIte
  rw [if_neg hrange]
  simp only [Int.toNat_natCast, h0]
  split
  · simp [matchIteTemps]
  · simp [atIndex, h1, h2, h3, BlockStmt.isMove, BlockStmt.isLabel,
      matchIteBits, bind, Except.bind, pure, Except.pure]

/-- Whatever stands before it, a constant is found where it is. -/
theorem getThunkOp_plain
    (h0 : ir[i]? = some (.move (.temp v) (.int u code)))
    (h1 : ir[i + 1]? = some (.move l1 r1))
    (h2 : ir[i + 2]? = some (.move l2 r2))
    (h3 : ir[i + 3]? = some (.move l3 r3)) (st : ThunkIndex) :
    getThunkOp ir st i (.int u code) = .ok { st with op := some i } := by
  have hlt : i + 3 < ir.length := (List.getElem?_eq_some_iff.mp h3).1
  obtain ⟨back3, hback3⟩ :=
    matchIte_ok (show (i : ℤ) - 3 + 4 < ir.length by omega)
  obtain ⟨back2, hback2⟩ :=
    matchIte_ok (show (i : ℤ) - 2 + 4 < ir.length by omega)
  have hhere := matchIte_int h0 h1 h2 h3
  unfold getThunkOp
  cases back3 with
  | some m => simp [hback3, movesTo, bind, Except.bind, pure, Except.pure]
  | none =>
    by_cases hi : 2 ≤ i
    · cases back2 <;>
        simp [hback3, hback2, hhere, hi, movesTo, isOpCopy, bind, Except.bind,
          pure, Except.pure]
    · simp [hback3, hhere, hi, isOpCopy, bind, Except.bind, pure, Except.pure]

end Plain

/-! ## A thunk of choices -/

section Guarded

variable {c : Exp} {p : Put} {r : CcReg}

/-- The statements of a guarded assignment, at `k`. -/
structure GroupAt (ir : List BlockStmt) (k : ℕ) (c : Exp) (r : CcReg)
    (p : Put) : Prop where
  decl : ir[k]? = some (.varDecl p.res)
  choice : ir[k + 1]? = some (.move (.temp p.res) (.ite c p.value p.old))
  copy : ir[k + 2]? = some (.move (.temp p.tmp) (.temp p.res))
  put : ir[k + 3]? = some (.move (.temp r.var) (.temp p.tmp))

theorem GroupAt.matchIte_choice (h : GroupAt ir k c r p) :
    matchIte ir ((k + 1 : ℕ) : ℤ) =
      .ok (some ⟨c, p.value, p.old, .temp p.res⟩) := by
  have hlt := (List.getElem?_eq_some_iff.mp h.choice).1
  have hrange : ¬(((k + 1 : ℕ) : ℤ) < 0 ∨ (ir.length : ℤ) ≤ (k + 1 : ℕ)) := by
    omega
  unfold matchIte
  rw [if_neg hrange]
  simp only [Int.toNat_natCast, h.choice]

theorem GroupAt.matchIte_decl (h : GroupAt ir k c r p) :
    matchIte ir k = .ok none := by
  unfold matchIte
  split
  · rfl
  · simp only [Int.toNat_natCast, h.decl]

/-- The choice is found behind its copy. -/
theorem GroupAt.getThunkOp_eq (h : GroupAt ir k c r p) (st : ThunkIndex) :
    getThunkOp ir st (k + 3) (.temp p.tmp) =
      .ok { st with op := some (k + 1), mux0x := some (k + 1) } := by
  have hback3 : matchIte ir (((k + 3 : ℕ) : ℤ) - 3) = .ok none := by
    rw [show ((k + 3 : ℕ) : ℤ) - 3 = k by omega]
    exact h.matchIte_decl
  have hback2 : matchIte ir (((k + 3 : ℕ) : ℤ) - 2) =
      .ok (some ⟨c, p.value, p.old, .temp p.res⟩) := by
    rw [show ((k + 3 : ℕ) : ℤ) - 2 = (k + 1 : ℕ) by omega]
    exact h.matchIte_choice
  have hmoves : movesTo ir (k + 3 - 1) (.temp p.tmp) = true := by
    simp [movesTo, h.copy]
  have htwo : 2 ≤ k + 3 := by omega
  unfold getThunkOp
  simp only [hback3, hback2, hmoves, htwo, if_true, bind, Except.bind, pure,
    Except.pure, Option.isSome]
  rfl

/-- The first three statements of a guarded assignment. -/
theorem Scan.choice (hg : GroupAt ir k c r p) (h : Scan ir k st)
    (hres : ∀ r' : CcReg, p.res.name ≠ r'.var.name)
    (htmp : ∀ r' : CcReg, p.tmp.name ≠ r'.var.name) :
    ∃ copy, Scan ir (k + 3) { st with ccOpCopy := copy } := by
  have hother : ∀ (v : Var) (rhs : Exp),
      (∀ r' : CcReg, v.name ≠ r'.var.name) →
      ∀ s, some (BlockStmt.move (.temp v) rhs) = some s →
        ∀ r', ¬Assigns s r' := by
    rintro v rhs hne s hs r' ⟨v', rhs', rfl, hname⟩
    cases hs
    exact hne r' hname
  obtain ⟨copy1, h1⟩ := h.other (by
    rw [hg.decl]
    rintro s hs r' ⟨v', rhs', rfl, -⟩
    cases hs)
  obtain ⟨copy2, h2⟩ := h1.other (by
    rw [hg.choice]
    exact hother _ _ hres)
  obtain ⟨copy3, h3⟩ := h2.other (by
    rw [hg.copy]
    exact hother _ _ htmp)
  exact ⟨copy3, h3⟩

theorem Scan.guardedDep (hg : GroupAt ir k c r p) (hr : r ≠ .op)
    (h : Scan ir k st) (hres : ∀ r' : CcReg, p.res.name ≠ r'.var.name)
    (htmp : ∀ r' : CcReg, p.tmp.name ≠ r'.var.name) :
    ∃ copy, Scan ir (k + 4)
      (note { st with ccOpCopy := copy } r (k + 3)) := by
  obtain ⟨copy, h3⟩ := h.choice hg hres htmp
  exact ⟨copy, h3.dep hr hg.put⟩

theorem Scan.guardedOp (hg : GroupAt ir k c .op p) (h : Scan ir k st)
    (hres : ∀ r' : CcReg, p.res.name ≠ r'.var.name)
    (htmp : ∀ r' : CcReg, p.tmp.name ≠ r'.var.name) :
    ∃ copy, Scan ir (k + 4)
      { st with
        op := some (k + 1), mux0x := some (k + 1), ccOpCopy := copy } := by
  obtain ⟨copy, h3⟩ := h.choice hg hres htmp
  exact ⟨copy, h3.op hg.put (hg.getThunkOp_eq _)⟩

end Guarded

/-! ## The block -/

section Block

variable {pre post : List BlockStmt} {puts : CcReg → Put} {u : Typ}
  {code : I64} {op : CcOp}

theorem window_getElem? {l : List BlockStmt} {j : ℕ} (hj : j < l.length) :
    (pre ++ l ++ post)[pre.length + j]? = l[j]? := by
  rw [List.append_assoc, List.getElem?_append_right (by omega),
    Nat.add_sub_cancel_left, List.getElem?_append_left hj]

theorem replace_window {l : List BlockStmt} {last : ℕ}
    (hlast : last + 1 = pre.length + l.length) (new : List Stmt) :
    replace (pre ++ l ++ post) pre.length last new =
      pre ++ new.map Stmt.toBlock ++ post := by
  have htake : (pre ++ l ++ post).take pre.length = pre := by
    rw [List.append_assoc, List.take_left]
  have hdrop : (pre ++ l ++ post).drop (last + 1) = post := by
    rw [hlast, ← List.length_append, List.drop_left]
  rw [replace, htake, hdrop]

/-- The index that the search ends with. -/
theorem getThunkIndex_plain (hs : Surrounds pre post puts)
    (hop : (puts .op).value = .int u code) :
    ∃ copy, getThunkIndex (pre ++ thunkStmts none puts ++ post) =
      .ok ⟨some pre.length, some (pre.length + 1), some (pre.length + 2),
        some (pre.length + 3), none, none, copy⟩ := by
  have hget : ∀ j < 4, (pre ++ thunkStmts none puts ++ post)[pre.length + j]? =
      (thunkStmts none puts)[j]? := fun j hj => window_getElem? hj
  obtain ⟨st, hscan, hopSt, hmux, hnop⟩ :=
    @scan_pre _ _ (thunkStmts none puts ++ post) hs.pre le_rfl
  rw [← List.append_assoc] at hscan
  generalize hir : pre ++ thunkStmts none puts ++ post = ir at *
  have h0 : ir[pre.length]? =
      some (.move (.temp CcReg.op.var) (.int u code)) := by
    rw [← hop]
    exact hget 0 (by decide)
  have h1 := hget 1 (by decide)
  have h2 := hget 2 (by decide)
  have h3 := hget 3 (by decide)
  have hscan1 := hscan.op h0 (getThunkOp_plain h0 h1 h2 h3 st)
  have hscan2 := hscan1.dep (r := .dep1) (by decide) h1
  have hscan3 := hscan2.dep (r := .dep2) (by decide) h2
  have hscan4 := hscan3.dep (r := .ndep) (by decide) h3
  have hlen : (pre ++ thunkStmts none puts).length = pre.length + 4 := by
    rw [List.length_append]
    rfl
  subst hir
  rw [← hlen] at hscan4
  obtain ⟨copy, hindex⟩ := scan_post hs.post hscan4
  refine ⟨copy, ?_⟩
  rw [hindex]
  cases st
  simp_all [note]

theorem groupAt_of_window {c : Exp}
    (hget : ∀ j < 16, ir[k + j]? = (thunkStmts (some c) puts)[j]?) :
    GroupAt ir k c .op (puts .op) ∧ GroupAt ir (k + 4) c .dep1 (puts .dep1) ∧
      GroupAt ir (k + 8) c .dep2 (puts .dep2) ∧
      GroupAt ir (k + 12) c .ndep (puts .ndep) := by
  refine ⟨⟨?_, ?_, ?_, ?_⟩, ⟨?_, ?_, ?_, ?_⟩, ⟨?_, ?_, ?_, ?_⟩,
    ⟨?_, ?_, ?_, ?_⟩⟩
  · exact hget 0 (by decide)
  · exact hget 1 (by decide)
  · exact hget 2 (by decide)
  · exact hget 3 (by decide)
  · exact hget 4 (by decide)
  · exact hget 5 (by decide)
  · exact hget 6 (by decide)
  · exact hget 7 (by decide)
  · exact hget 8 (by decide)
  · exact hget 9 (by decide)
  · exact hget 10 (by decide)
  · exact hget 11 (by decide)
  · exact hget 12 (by decide)
  · exact hget 13 (by decide)
  · exact hget 14 (by decide)
  · exact hget 15 (by decide)

theorem getThunkIndex_guarded {c : Exp} (hs : Surrounds pre post puts) :
    ∃ copy, getThunkIndex (pre ++ thunkStmts (some c) puts ++ post) =
      .ok ⟨some (pre.length + 1), some (pre.length + 7),
        some (pre.length + 11), some (pre.length + 15),
        some (pre.length + 1), none, copy⟩ := by
  have hget : ∀ j < 16,
      (pre ++ thunkStmts (some c) puts ++ post)[pre.length + j]? =
        (thunkStmts (some c) puts)[j]? := fun j hj => window_getElem? hj
  obtain ⟨g0, g1, g2, g3⟩ := groupAt_of_window hget
  obtain ⟨st, hscan, hopSt, hmux, hnop⟩ :=
    @scan_pre _ _ (thunkStmts (some c) puts ++ post) hs.pre le_rfl
  rw [← List.append_assoc] at hscan
  obtain ⟨copy0, hscan0⟩ := hscan.guardedOp g0 (hs.res _) (hs.tmp _)
  obtain ⟨copy1, hscan1⟩ :=
    hscan0.guardedDep g1 (by decide) (hs.res _) (hs.tmp _)
  obtain ⟨copy2, hscan2⟩ :=
    hscan1.guardedDep g2 (by decide) (hs.res _) (hs.tmp _)
  obtain ⟨copy3, hscan3⟩ :=
    hscan2.guardedDep g3 (by decide) (hs.res _) (hs.tmp _)
  have hlen : (pre ++ thunkStmts (some c) puts).length =
      pre.length + 12 + 4 := by
    rw [List.length_append]
    rfl
  rw [← hlen] at hscan3
  obtain ⟨copy, hindex⟩ := scan_post hs.post hscan3
  refine ⟨copy, ?_⟩
  rw [hindex]
  cases st
  simp_all [note]

/-! ## The operands -/

theorem moveRhs_eq {i : ℕ} {lhs rhs : Exp}
    (h : ir[i]? = some (.move lhs rhs)) : moveRhs ir i = .ok rhs := by
  simp [moveRhs, atIndex, h, bind, Except.bind, pure, Except.pure]

theorem GroupAt.assertIte_eq {c : Exp} {p : Put} {r : CcReg}
    (h : GroupAt ir k c r p) :
    assertIte ir ((k + 1 : ℕ) : ℤ) =
      .ok ⟨c, p.value, p.old, .temp p.res⟩ := by
  simp only [assertIte, h.matchIte_choice, bind, Except.bind, pure,
    Except.pure]

theorem GroupAt.operand_eq {c : Exp} {p : Put} {r : CcReg}
    (h : GroupAt ir k c r p) (mux0xSt : ℕ) :
    operand ir (some mux0xSt) (k + 3) = .ok p.value := by
  have hidx : ((k + 3 : ℕ) : ℤ) - 2 = ((k + 1 : ℕ) : ℤ) := by omega
  simp only [operand, hidx, h.assertIte_eq, bind, Except.bind, pure,
    Except.pure]

theorem GroupAt.findOp_eq {c : Exp} {p : Put}
    (h : GroupAt ir k c .op p) (hop : p.value = .int u code) :
    findOp ir (k + 1) = .ok (some (toInt32 code)) := by
  simp only [findOp, atIndex, h.choice, h.matchIte_choice, hop, bind,
    Except.bind, pure, Except.pure]

/-- The code that takes the place of the thunk. -/
def flagStmts (cond : Option Exp) (puts : CcReg → Put) (op : CcOp) (n : ℕ) :
    List Stmt :=
  ((formulas (puts .dep1).value (puts .dep2).value (puts .ndep).value op >>=
    assignFlags cond) n).stmts

theorem armModifyFlags_plain (hs : Surrounds pre post puts)
    (hop : (puts .op).value = .int u code)
    (hcode : ccOp (toInt32 code) = .ok op) (n : ℕ) :
    armModifyFlags (pre ++ thunkStmts none puts ++ post) n =
      .ok (pre ++ (flagStmts none puts op n).map Stmt.toBlock ++ post) := by
  obtain ⟨copy, hindex⟩ := getThunkIndex_plain hs hop
  have hget : ∀ j < 4, (pre ++ thunkStmts none puts ++ post)[pre.length + j]? =
      (thunkStmts none puts)[j]? := fun j hj => window_getElem? hj
  have hfind : findOp (pre ++ thunkStmts none puts ++ post) pre.length =
      .ok (some (toInt32 code)) := by
    have h0 : (pre ++ thunkStmts none puts ++ post)[pre.length]? =
        some (.move (.temp CcReg.op.var) (.int u code)) := by
      rw [← hop]
      exact hget 0 (by decide)
    simp only [findOp, atIndex, h0, bind, Except.bind, pure, Except.pure]
  have h1 := moveRhs_eq (hget 1 (by decide))
  have h2 := moveRhs_eq (hget 2 (by decide))
  have h3 := moveRhs_eq (hget 3 (by decide))
  have hreplace := @replace_window pre post (thunkStmts none puts)
    (pre.length + 3) rfl (flagStmts none puts op n)
  unfold armModifyFlags
  simp only [hindex, hfind, operand, h1, h2, h3, hcode, replaceThunk,
    Option.isSome, bind, Except.bind]
  exact congrArg Except.ok hreplace

theorem armModifyFlags_guarded {c : Exp} (hs : Surrounds pre post puts)
    (hop : (puts .op).value = .int u code)
    (hcode : ccOp (toInt32 code) = .ok op) (n : ℕ) :
    armModifyFlags (pre ++ thunkStmts (some c) puts ++ post) n =
      .ok (pre ++ (flagStmts (some c) puts op n).map Stmt.toBlock ++
        post) := by
  obtain ⟨copy, hindex⟩ := getThunkIndex_guarded (c := c) hs
  obtain ⟨g0, g1, g2, g3⟩ := groupAt_of_window
    (fun j hj =>
      @window_getElem? pre post (thunkStmts (some c) puts) j hj)
  have hreplace := @replace_window pre post (thunkStmts (some c) puts)
    (pre.length + 15) rfl (flagStmts (some c) puts op n)
  have hspan : ((pre.length + 15 : ℕ) : ℤ) - ((pre.length + 1 : ℕ) - 1) + 1 =
      4 * 4 := by omega
  have hapart : ¬(pre.length + 7 = pre.length + 1 + 1 ∧
      pre.length + 11 = pre.length + 1 + 2 ∧
      pre.length + 15 = pre.length + 1 + 3) := by omega
  unfold armModifyFlags
  simp only [hindex, g0.findOp_eq hop, g1.operand_eq, g2.operand_eq,
    g3.operand_eq, hcode, replaceThunk, Option.isSome, bind, Except.bind,
    if_neg hapart, if_pos hspan, Nat.succ_ne_zero, if_false,
    g0.assertIte_eq]
  exact congrArg Except.ok hreplace

/-- The block with the code in the place of the thunk. -/
theorem armModifyFlags_eq (cond : Option Exp) (hs : Surrounds pre post puts)
    (hop : (puts .op).value = .int u code)
    (hcode : ccOp (toInt32 code) = .ok op) (n : ℕ) :
    armModifyFlags (pre ++ thunkStmts cond puts ++ post) n =
      .ok (pre ++ (flagStmts cond puts op n).map Stmt.toBlock ++ post) := by
  cases cond with
  | none => exact armModifyFlags_plain hs hop hcode n
  | some c => exact armModifyFlags_guarded hs hop hcode n

end Block

end Fuzzball.Asmir.Arm
