import Fuzzball.FormulaManagerWalk
import Fuzzball.MemoRecursion
import Fuzzball.VineValues
import Mathlib.Data.Nat.Log

/-!
# Functions over the definitions of temporaries

`map_expr_temp` of `formula_manager.ml`, the traversal that analyses of
address expressions share, and the helpers they call: `infer_type_fast` and
`int64_floor_log2`.  A result about the traversal needs a property of one
expression at a time, for the expressions that the analysis walks into.
-/

namespace Fuzzball.Vine

/-- The immediate operands of an expression. -/
def Exp.operands : Exp → List Exp
  | .binOp _ e1 e2 => [e1, e2]
  | .fbinOp _ _ e1 e2 => [e1, e2]
  | .unOp _ e1 => [e1]
  | .funOp _ _ e1 => [e1]
  | .mem _ addr _ => [addr]
  | .cast _ _ e1 => [e1]
  | .fcast _ _ _ e1 => [e1]
  | .letTemp _ e1 e2 => [e1, e2]
  | .letMem _ addr _ e1 e2 => [addr, e1, e2]
  | .ite cond e1 e2 => [cond, e1, e2]
  | _ => []

theorem Exp.sizeOf_lt_of_mem_operands {e d : Exp} (h : d ∈ e.operands) :
    sizeOf d < sizeOf e := by
  cases e <;> simp [operands] at h ⊢ <;> grind

theorem Exp.vars_subset_of_mem_operands {e d : Exp} (h : d ∈ e.operands) :
    d.vars ⊆ e.vars := by
  intro v hv
  cases e <;> simp [operands] at h <;> simp [vars] <;> grind

theorem Exp.WellTyped.operand {e d : Exp} (he : e.WellTyped)
    (h : d ∈ e.operands) : d.WellTyped := by
  cases e <;> simp [operands] at h <;> simp [WellTyped] at he <;> grind

/-- `infer_type_fast`.  Where both operands have the type of the operation, a
coin decides which of them is looked at. -/
def inferTypeFast (coin : Exp → Bool) : Exp → OCaml Typ
  | .constant (.int t _) => pure t
  | .constant (.str _) => pure .tString
  | .temp v => pure v.typ
  | .mem _ _ t => pure t
  | .unOp _ e1 => inferTypeFast coin e1
  | .funOp _ _ e1 => inferTypeFast coin e1
  | .binOp op e1 e2 =>
    match op with
    | .eq | .neq | .lt | .le | .slt | .sle => pure .reg1
    | .lshift | .rshift | .arshift => inferTypeFast coin e1
    | .concat => do
      let t ← if coin (.binOp op e1 e2) then inferTypeFast coin e1
        else inferTypeFast coin e2
      doubleWidth t
    | _ =>
      if coin (.binOp op e1 e2) then inferTypeFast coin e1
      else inferTypeFast coin e2
  | .fbinOp op rm e1 e2 =>
    match op with
    | .feq | .fneq | .flt | .fle => pure .reg1
    | _ =>
      if coin (.fbinOp op rm e1 e2) then inferTypeFast coin e1
      else inferTypeFast coin e2
  | .unknown _ => throw (.typeError "Cannot typecheck unknowns")
  | .cast _ t _ => pure t
  | .fcast _ _ t _ => pure t
  | .name _ => pure addrT
  | .letTemp _ _ e2 => inferTypeFast coin e2
  | .letMem _ _ _ _ e2 => inferTypeFast coin e2
  | .ite cond e1 e2 =>
    if coin (.ite cond e1 e2) then inferTypeFast coin e1
    else inferTypeFast coin e2

/-- The type of a well-typed expression does not depend on the coin. -/
theorem Exp.WellTyped.inferTypeFast_eq {e : Exp} (he : e.WellTyped)
    (coin : Exp → Bool) : inferTypeFast coin e = .ok e.typ := by
  induction e with
  | binOp op e1 e2 ih1 ih2 =>
    obtain ⟨h1, h2, hadm⟩ := he
    cases op with
    | eq | neq | lt | le | slt | sle => rfl
    | lshift | rshift | arshift => exact ih1 h1
    | concat =>
      obtain ⟨htyp, hreg⟩ := hadm
      rw [inferTypeFast, ih1 h1, ih2 h2, htyp, ite_self, OCaml.ok_bind]
      rcases hreg with h | h | h <;>
        simp [h, Exp.typ, BinopType.result, doubleWidth, Typ.double]
    | _ =>
      have htyp : e2.typ = e1.typ := hadm
      simp only [inferTypeFast, ih1 h1, ih2 h2, htyp, ite_self]
      rfl
  | unOp op e1 ih => exact ih he
  | constant v =>
    cases v with
    | int t i => rfl
    | str s => exact he.elim
  | temp v => rfl
  | mem v addr t _ => rfl
  | name l => rfl
  | cast ct t e1 _ => rfl
  | letTemp v e1 e2 _ ih => exact ih he.2.1
  | letMem v addr t e1 e2 _ _ ih => exact ih he.2.2.1
  | ite cond e1 e2 _ ih1 ih2 =>
    obtain ⟨-, h1, h2, -, htyp⟩ := he
    rw [inferTypeFast, ih1 h1, ih2 h2, htyp, ite_self]
    rfl
  | _ => exact he.elim

end Fuzzball.Vine

namespace Fuzzball

/-! ## Native integers -/

/-- The result of an operation on OCaml's `int`, which has 63 bits. -/
def OCaml.wrapInt (n : ℤ) : ℤ := n.bmod (2 ^ 63)

theorem OCaml.wrapInt_of_lt {n : ℤ} (h1 : -2 ^ 62 ≤ n) (h2 : n < 2 ^ 62) :
    wrapInt n = n := by
  rw [wrapInt, Int.bmod_eq_of_le] <;> norm_num <;> linarith

theorem I64.toOCamlInt_of_lt {v : I64} (h : v.toNat < 2 ^ 62) :
    v.toOCamlInt = v.toNat := by
  have hlow : (v.setWidth 63).toNat = v.toNat := by
    rw [BitVec.toNat_setWidth]
    omega
  rw [I64.toOCamlInt, BitVec.toInt_eq_toNat_of_lt (by omega), hlow]

/-- The loop of `int64_floor_log2`, which halves the number of bits in each
round; seven rounds are enough.  The comparisons are signed, so a number with
the top bit set is taken for a small one. -/
def floorLog2Loop : ℕ → I64 → ℤ
  | 0, _ => -1
  | n + 1, i =>
    if i = 0 then -1
    else if i = 1 then 0
    else if i = 2 ∨ i = 3 then 1
    else if i = 4 ∨ i = 5 ∨ i = 6 ∨ i = 7 then 2
    else if i.slt 16 then 2 + floorLog2Loop n (i >>> 2)
    else if i.slt 256 then 4 + floorLog2Loop n (i >>> 4)
    else if i.slt 65536 then 8 + floorLog2Loop n (i >>> 8)
    else if i.slt 0x100000000 then 16 + floorLog2Loop n (i >>> 16)
    else 32 + floorLog2Loop n (i >>> 32)

def floorLog2 (i : I64) : ℤ := floorLog2Loop 7 i

theorem log2_eq_add {n k : ℕ} (h : 2 ^ k ≤ n) :
    n.log2 = k + (n / 2 ^ k).log2 := by
  have hk : k ≤ Nat.log 2 n := Nat.le_log_of_pow_le one_lt_two h
  rw [Nat.log2_eq_log_two, Nat.log2_eq_log_two, Nat.log_div_base_pow]
  omega

theorem slt_ofNat_iff (i : I64) {n : ℕ} (hn : n < 2 ^ 63) :
    i.slt (BitVec.ofNat 64 n) = true ↔ i.toNat < n ∨ 2 ^ 63 ≤ i.toNat := by
  have hi := i.isLt
  rw [I64.slt_iff, BitVec.toNat_ofNat]
  omega

/-- `n` rounds of the loop are enough below `b`. -/
def RoundsSuffice (n b : ℕ) : Prop :=
  ∀ m, n ≤ m → ∀ i : I64, i ≠ 0 → i.toNat < b →
    floorLog2Loop m i = i.toNat.log2

theorem roundsSuffice_one : RoundsSuffice 1 8 := by
  intro m hm i hi hlt
  obtain ⟨m, rfl⟩ := Nat.exists_eq_add_of_le' hm
  have hcases : i = 1 ∨ i = 2 ∨ i = 3 ∨ i = 4 ∨ i = 5 ∨ i = 6 ∨ i = 7 := by
    bv_omega
  rcases hcases with rfl | rfl | rfl | rfl | rfl | rfl | rfl <;>
    simp [floorLog2Loop] <;> decide

theorem RoundsSuffice.next {n b k lo hi : ℕ} (h : RoundsSuffice n b)
    (hlo : RoundsSuffice n lo) (hk : 2 ^ k ≤ lo) (hb : hi ≤ 2 ^ k * b)
    (hround : ∀ m (i : I64), lo ≤ i.toNat → i.toNat < hi →
      floorLog2Loop (m + 1) i = k + floorLog2Loop m (i >>> k)) :
    RoundsSuffice (n + 1) hi := by
  intro m hm i hi0 hlt
  by_cases hlow : i.toNat < lo
  · exact hlo m (Nat.le_of_succ_le hm) i hi0 hlow
  obtain ⟨m, rfl⟩ := Nat.exists_eq_add_of_le' (Nat.le_of_add_left_le hm)
  have hlow := not_lt.mp hlow
  have hnat : (i >>> k).toNat = i.toNat / 2 ^ k := by
    rw [BitVec.toNat_ushiftRight, Nat.shiftRight_eq_div_pow]
  have hpos : 0 < i.toNat / 2 ^ k := Nat.div_pos (hk.trans hlow) (by positivity)
  have hne : i >>> k ≠ 0 := by
    intro h0
    rw [h0] at hnat
    exact hpos.ne hnat
  have hshort : (i >>> k).toNat < b := by
    rw [hnat]
    exact Nat.div_lt_of_lt_mul (hlt.trans_le hb)
  rw [hround m i hlow hlt, h m (Nat.le_of_succ_le_succ hm) _ hne hshort, hnat,
    log2_eq_add (hk.trans hlow)]
  push_cast
  rfl

theorem floorLog2Loop_succ (m : ℕ) {i : I64} (h : 8 ≤ i.toNat) :
    floorLog2Loop (m + 1) i =
      if i.toNat < 16 ∨ 2 ^ 63 ≤ i.toNat then 2 + floorLog2Loop m (i >>> 2)
      else if i.toNat < 256 then 4 + floorLog2Loop m (i >>> 4)
      else if i.toNat < 65536 then 8 + floorLog2Loop m (i >>> 8)
      else if i.toNat < 0x100000000 then 16 + floorLog2Loop m (i >>> 16)
      else 32 + floorLog2Loop m (i >>> 32) := by
  have h0 : i ≠ 0 := by bv_omega
  have h1 : i ≠ 1 := by bv_omega
  have h2 : ¬(i = 2 ∨ i = 3) := by bv_omega
  have h3 : ¬(i = 4 ∨ i = 5 ∨ i = 6 ∨ i = 7) := by bv_omega
  have h16 : i.slt 16 = true ↔ _ := slt_ofNat_iff i (n := 16) (by norm_num)
  have h256 : i.slt 256 = true ↔ _ :=
    slt_ofNat_iff i (n := 256) (by norm_num)
  have h65536 : i.slt 65536 = true ↔ _ :=
    slt_ofNat_iff i (n := 65536) (by norm_num)
  have hword : i.slt 0x100000000 = true ↔ _ :=
    slt_ofNat_iff i (n := 0x100000000) (by norm_num)
  rw [floorLog2Loop, if_neg h0, if_neg h1, if_neg h2, if_neg h3]
  by_cases hneg : 2 ^ 63 ≤ i.toNat
  · rw [if_pos (h16.mpr (.inr hneg)), if_pos (.inr hneg)]
  · simp only [hneg, or_false] at h16 h256 h65536 hword ⊢
    simp only [h16, h256, h65536, hword]

/-- The comparisons of a number with its top bit set are wrong, the logarithm
is not. -/
theorem floorLog2_eq {i : I64} (hi : i ≠ 0) :
    floorLog2 i = i.toNat.log2 := by
  have h8 := roundsSuffice_one
  have h16 : RoundsSuffice 2 16 := by
    apply h8.next (k := 2) h8 (by norm_num) (by norm_num)
    intro m i h1 h2
    rw [floorLog2Loop_succ m h1, if_pos (.inl h2)]
  have h256 : RoundsSuffice 3 256 := by
    apply h16.next (k := 4) h16 (by norm_num) (by norm_num)
    intro m i h1 h2
    rw [floorLog2Loop_succ m (by omega), if_neg (by omega), if_pos h2]
  have h65536 : RoundsSuffice 4 65536 := by
    apply h256.next (k := 8) h256 (by norm_num) (by norm_num)
    intro m i h1 h2
    rw [floorLog2Loop_succ m (by omega), if_neg (by omega), if_neg (by omega),
      if_pos h2]
  have hword : RoundsSuffice 5 0x100000000 := by
    apply h65536.next (k := 16) h65536 (by norm_num) (by norm_num)
    intro m i h1 h2
    rw [floorLog2Loop_succ m (by omega), if_neg (by omega), if_neg (by omega),
      if_neg (by omega), if_pos h2]
  have hpos : RoundsSuffice 6 (2 ^ 63) := by
    apply hword.next (k := 32) hword (by norm_num) (by norm_num)
    intro m i h1 h2
    rw [floorLog2Loop_succ m (by omega), if_neg (by omega), if_neg (by omega),
      if_neg (by omega), if_neg (by omega)]
  have hall : RoundsSuffice 7 (2 ^ 64) := by
    apply hpos.next (k := 2) hpos (by norm_num) (by norm_num)
    intro m i h1 _
    rw [floorLog2Loop_succ m (by omega), if_pos (.inr h1)]
  exact hall 7 le_rfl i hi i.isLt

theorem lt_two_pow_floorLog2 (i : I64) :
    ∃ n : ℕ, 1 + floorLog2 i = n ∧ n ≤ 64 ∧ i.toNat < 2 ^ n := by
  by_cases hi : i = 0
  · subst hi
    exact ⟨0, by decide, by norm_num, by decide⟩
  · have hne : i.toNat ≠ 0 := fun h => hi (BitVec.eq_of_toNat_eq h)
    refine ⟨1 + i.toNat.log2, ?_, ?_, ?_⟩
    · rw [floorLog2_eq hi]
      push_cast
      rfl
    · have := (Nat.log2_lt hne).mpr i.isLt
      omega
    · rw [add_comm]
      exact Nat.lt_log2_self

end Fuzzball

namespace Fuzzball.FormulaManager

open Vine MemoRecursion

variable {μ : Type} [VineMemory μ]

/-! ## The definitions of temporaries -/

/-- What `if_expr_temp_unit` passes for the number of a variable.  A temporary
is defined by variables that were made before it. -/
structure Definitions where
  exprTemp : ℤ → Option Exp
  nonneg : ∀ n e, exprTemp n = some e → 0 ≤ n
  older : ∀ n e, exprTemp n = some e → ∀ v ∈ e.vars, v.id < n

/-- The definitions that a formula manager holds. -/
def State.definitions {D : Domain} {M : Marshal} (s : State D M) (hs : Inv s) :
    Definitions where
  exprTemp n := (s.tempVars.find? fun b => b.1.id == n).map fun b =>
    M.decode b.2
  nonneg n e h := by
    obtain ⟨b, hb, -⟩ := Option.map_eq_some_iff.mp h
    have hid : b.1.id = n := by simpa using List.find?_some hb
    exact hid ▸ (hs.temp b (List.mem_of_find?_eq_some hb)).1.id_nonneg
  older n e h v hv := by
    obtain ⟨b, hb, rfl⟩ := Option.map_eq_some_iff.mp h
    have hid : b.1.id = n := by simpa using List.find?_some hb
    exact hid ▸ ((hs.temp b (List.mem_of_find?_eq_some hb)).2.1 v hv).2

theorem State.definitions_exprTemp {D : Domain} {M : Marshal} {s : State D M}
    (hs : Inv s) (v : Var) :
    (s.definitions hs).exprTemp v.id = FormulaManager.exprTemp s v := rfl

namespace Definitions

/-- No temporary is defined. -/
def none : Definitions := ⟨fun _ => .none, by simp, by simp⟩

variable (defs : Definitions)

/-- A temporary that occurs has the type of its definition. -/
def Agrees (e : Exp) : Prop :=
  ∀ v ∈ e.vars, ∀ d, defs.exprTemp v.id = some d → d.typ = v.typ

/-- Every definition is well typed. -/
def Typed : Prop :=
  ∀ n d, defs.exprTemp n = some d → d.WellTyped ∧ defs.Agrees d

/-- In the valuation, every temporary has the value of its definition. -/
def Holds (ρ : Valuation μ) : Prop :=
  ∀ v d, defs.exprTemp v.id = some d → d.typ = v.typ →
    (ρ.temp v).setWidth v.typ.width = d.eval ρ v.typ.width

theorem typed_none : none.Typed := fun _ _ h => nomatch h

theorem agrees_none (e : Exp) : none.Agrees e := fun _ _ _ h => nomatch h

theorem holds_none (ρ : Valuation μ) : none.Holds ρ := fun _ _ h => nomatch h

variable {defs}

theorem Holds.unsigned {ρ : Valuation μ} (hρ : defs.Holds ρ) {v : Var}
    {d : Exp} (hd : defs.exprTemp v.id = some d) (ht : d.typ = v.typ) :
    (Exp.temp v).unsigned ρ = d.unsigned ρ := by
  rw [Exp.unsigned, Exp.unsigned, Exp.width, Exp.width, ht, ← hρ v d hd ht]
  rfl

theorem Holds.signed {ρ : Valuation μ} (hρ : defs.Holds ρ) {v : Var}
    {d : Exp} (hd : defs.exprTemp v.id = some d) (ht : d.typ = v.typ) :
    (Exp.temp v).signed ρ = d.signed ρ := by
  rw [Exp.signed, Exp.signed, Exp.width, Exp.width, ht, ← hρ v d hd ht]
  rfl

theorem Agrees.operand {e d : Exp} (he : defs.Agrees e)
    (h : d ∈ e.operands) : defs.Agrees d :=
  fun v hv => he v (Exp.vars_subset_of_mem_operands h hv)

end Definitions

/-- `map_expr_temp`.  The width of a temporary is passed to `combine` at the
visit that computes the result of its definition. -/
def mapExprTemp {χ : Type} (defs : Definitions) (f : Exp → Body Exp ℤ χ ℤ)
    (combine : ℕ → ℤ → ℤ) : Scheme Exp ℤ ℤ χ where
  body := f
  key
    | .temp v => if v.typ.IsReg then some v.id else none
    | _ => none
  definition := defs.exprTemp
  combine
    | .temp v, res => combine v.typ.width res
    | _, res => res

section Scheme

variable {χ : Type} {defs : Definitions} {f : Exp → Body Exp ℤ χ ℤ}
  {combine : ℕ → ℤ → ℤ}

theorem mapExprTemp_standsFor (e : Exp) :
    (mapExprTemp defs f combine).standsFor e = e ∨
      ∃ v d, e = .temp v ∧ v.typ.IsReg ∧ defs.exprTemp v.id = some d ∧
        (mapExprTemp defs f combine).standsFor e = d := by
  unfold Scheme.standsFor mapExprTemp
  cases e with
  | temp v =>
    by_cases hv : v.typ.IsReg
    · rcases hd : defs.exprTemp v.id with _ | d
      · simp [hv, hd]
      · exact .inr ⟨v, d, rfl, hv, hd, by simp [hv, hd]⟩
    · simp [hv]
  | _ => exact .inl rfl

/-- `d` is looked at next, after `e`. -/
def Follows (defs : Definitions) (reads : Exp → List Exp) (d e : Exp) : Prop :=
  d ∈ reads e ∨ ∃ v, e = .temp v ∧ defs.exprTemp v.id = some d

theorem exists_id_lt (l : List Var) : ∃ n : ℕ, ∀ v ∈ l, v.id < n := by
  induction l with
  | nil => exact ⟨0, by simp⟩
  | cons v l ih =>
    obtain ⟨n, hn⟩ := ih
    refine ⟨max n (v.id.toNat + 1), ?_⟩
    intro u hu
    rcases List.mem_cons.mp hu with rfl | hu
    · omega
    · have := hn u hu
      omega

/-- Definitions go to older variables and operands are smaller. -/
theorem follows_acc {reads : Exp → List Exp}
    (hreads : ∀ e, ∀ d ∈ reads e, d ∈ e.operands) (e : Exp) :
    Acc (Follows defs reads) e := by
  suffices h : ∀ n : ℕ, ∀ e : Exp, (∀ v ∈ e.vars, v.id < n) →
      Acc (Follows defs reads) e by
    obtain ⟨n, hn⟩ := exists_id_lt e.vars
    exact h n e hn
  intro n
  induction n using Nat.strong_induction_on with
  | _ n ihn =>
    intro e
    induction hsize : sizeOf e using Nat.strong_induction_on generalizing e with
    | _ m ihm =>
      intro hvars
      refine Acc.intro e fun d hd => ?_
      rcases hd with hd | ⟨v, rfl, hdef⟩
      · have hop := hreads e d hd
        refine ihm (sizeOf d) ?_ d rfl ?_
        · rw [← hsize]
          exact Exp.sizeOf_lt_of_mem_operands hop
        · intro v hv
          exact hvars v (Exp.vars_subset_of_mem_operands hop hv)
      · have hv : v.id < n := hvars v (by simp [Exp.vars])
        have h0 := defs.nonneg v.id d hdef
        refine ihn v.id.toNat (by omega) d ?_
        intro u hu
        have := defs.older v.id d hdef u hu
        omega

theorem mapExprTemp_acc {reads : Exp → List Exp}
    (hreads : ∀ e, ∀ d ∈ reads e, d ∈ e.operands) (e : Exp) :
    Acc (fun d e => d ∈ reads ((mapExprTemp defs f combine).standsFor e))
      e := by
  have hacc : Acc (Follows defs reads) e := follows_acc hreads e
  refine Subrelation.accessible ?_ hacc.transGen
  intro d e hd
  have hcases : (mapExprTemp defs f combine).standsFor e = e ∨ _ :=
    mapExprTemp_standsFor e
  rcases hcases with heq | ⟨v, e', rfl, -, hdef, heq⟩
  · rw [heq] at hd
    exact .single (.inl hd)
  · rw [heq] at hd
    exact .tail (.single (.inl hd)) (.inr ⟨v, rfl, hdef⟩)

/-- An expression that the traversal of another one comes to. -/
inductive Walks (defs : Definitions) (reads : Exp → List Exp) :
    Exp → Exp → Prop
  | here (e : Exp) : Walks defs reads e e
  | operand {e d d' : Exp} : d ∈ reads e → Walks defs reads d d' →
      Walks defs reads e d'
  | definition {v : Var} {e d : Exp} : defs.exprTemp v.id = some e →
      Walks defs reads e d → Walks defs reads (.temp v) d

theorem Walks.trans {reads : Exp → List Exp} {e d d' : Exp}
    (h : Walks defs reads e d) (h' : Walks defs reads d d') :
    Walks defs reads e d' := by
  induction h with
  | here => exact h'
  | operand hd _ ih => exact .operand hd (ih h')
  | definition hd _ ih => exact .definition hd (ih h')

theorem Walks.typed {reads : Exp → List Exp} {e d : Exp}
    (hreads : ∀ e, ∀ d ∈ reads e, d ∈ e.operands) (hdefs : defs.Typed)
    (h : Walks defs reads e d) (he : e.WellTyped) (ha : defs.Agrees e) :
    d.WellTyped ∧ defs.Agrees d := by
  induction h with
  | here => exact ⟨he, ha⟩
  | operand hd _ ih =>
    exact ih (he.operand (hreads _ _ hd)) (ha.operand (hreads _ _ hd))
  | definition hd _ ih =>
    obtain ⟨htyped, hagrees⟩ := hdefs _ _ hd
    exact ih htyped hagrees

/-- A set of expressions that the traversal does not leave. -/
theorem Walks.mem {reads : Exp → List Exp} {e d : Exp} {s : List Exp}
    (h : Walks defs reads e d) (he : e ∈ s)
    (hreads : ∀ e ∈ s, ∀ d ∈ reads e, d ∈ s)
    (hdefs : ∀ v, .temp v ∈ s → ∀ d, defs.exprTemp v.id = some d → d ∈ s) :
    d ∈ s := by
  induction h with
  | here => exact he
  | operand hd _ ih => exact ih (hreads _ he _ hd)
  | definition hd _ ih => exact ih (hdefs _ he _ hd)

/-- The traversal comes to finitely many expressions. -/
theorem exists_walked {reads : Exp → List Exp}
    (hreads : ∀ e, ∀ d ∈ reads e, d ∈ e.operands) (e : Exp) :
    ∃ l : List Exp, ∀ d, Walks defs reads e d → d ∈ l := by
  have hacc : Acc (Follows defs reads) e := follows_acc hreads e
  induction hacc with
  | intro e _ ih =>
    have hoperands : ∀ s : List Exp, (∀ c ∈ s, c ∈ reads e) →
        ∃ l : List Exp, ∀ c ∈ s, ∀ d, Walks defs reads c d → d ∈ l := by
      intro s hs
      induction s with
      | nil => exact ⟨[], by simp⟩
      | cons c s ihs =>
        obtain ⟨l, hl⟩ := ihs fun c hc => hs c (List.mem_cons_of_mem _ hc)
        obtain ⟨l', hl'⟩ := ih c (.inl (hs c List.mem_cons_self))
        refine ⟨l' ++ l, fun c' hc' d hd => ?_⟩
        rcases List.mem_cons.mp hc' with rfl | hc'
        · exact List.mem_append_left _ (hl' d hd)
        · exact List.mem_append_right _ (hl c' hc' d hd)
    obtain ⟨l, hl⟩ := hoperands (reads e) fun _ h => h
    obtain ⟨l', hl'⟩ : ∃ l' : List Exp, ∀ v d', e = .temp v →
        defs.exprTemp v.id = some d' → ∀ d, Walks defs reads d' d → d ∈ l' := by
      by_cases hdef : ∃ v d', e = .temp v ∧ defs.exprTemp v.id = some d'
      · obtain ⟨v, d', rfl, hd'⟩ := hdef
        obtain ⟨l', hl'⟩ := ih d' (.inr ⟨v, rfl, hd'⟩)
        refine ⟨l', ?_⟩
        intro u d'' hu hd'' d hd
        cases hu
        rw [hd', Option.some.injEq] at hd''
        exact hl' d (hd'' ▸ hd)
      · exact ⟨[], fun v d' he hd' => absurd ⟨v, d', he, hd'⟩ hdef⟩
    refine ⟨e :: (l ++ l'), fun d hd => ?_⟩
    cases hd with
    | here => exact List.mem_cons_self
    | operand hc hd =>
      exact List.mem_cons_of_mem _ (List.mem_append_left _ (hl _ hc d hd))
    | definition hc hd =>
      exact List.mem_cons_of_mem _
        (List.mem_append_right _ (hl' _ _ rfl hc d hd))

/-- Every divisor that the traversal comes to has a value other than zero. -/
def DivisorsNonzero (defs : Definitions) (reads : Exp → List Exp)
    (ρ : Valuation μ) (e : Exp) : Prop :=
  ∀ op ∈ [BinopType.divide, .sdivide, .mod, .smod], ∀ e1 e2,
    Walks defs reads e (.binOp op e1 e2) → e2.unsigned ρ ≠ 0

/-- The traversal returns a result related to its argument by `Q` when every
body does from its calls, at the expressions that the traversal comes to. -/
theorem mapExprTemp_returns {reads : Exp → List Exp} {L : Exp → Prop}
    {Q : Exp → ℤ → Prop} (hreads : ∀ e, ∀ d ∈ reads e, d ∈ e.operands)
    (hbody : ∀ e, L e → (mapExprTemp defs f combine).Runs e →
      (f e).Meets (· ∈ reads e) Q (Q e))
    (hdef : ∀ v d r, L (.temp v) → defs.exprTemp v.id = some d →
      Q d r → Q (.temp v) r ∧ Q (.temp v) (combine v.typ.width r))
    {e : Exp} (he : ∀ d, Walks defs reads e d → L d) :
    ∃ r, (mapExprTemp defs f combine).Returns e r ∧ Q e r := by
  let P : Exp → Prop := fun e => ∀ d, Walks defs reads e d → L d
  have hproves : (mapExprTemp defs f combine).Proves reads P Q := by
    constructor
    · intro e he hruns
      refine (hbody e (he e (.here e)) hruns).mono ?_ fun _ h => h
      intro d hd
      exact ⟨hd, fun d' hd' => he d' (.operand hd hd')⟩
    · intro e he
      have hcases : (mapExprTemp defs f combine).standsFor e = e ∨ _ :=
        mapExprTemp_standsFor e
      rcases hcases with heq | ⟨v, d, rfl, -, hd, heq⟩
      · rwa [heq]
      · rw [heq]
        exact fun d' hd' => he d' (.definition hd hd')
    · intro e e' r he hd hr
      cases e with
      | temp v =>
        by_cases hv : v.typ.IsReg
        · refine hdef v e' r (he _ (.here _)) ?_ hr
          simpa [mapExprTemp, hv] using hd
        · simp [mapExprTemp, hv] at hd
      | _ => cases hd
  exact hproves.returns he (mapExprTemp_acc hreads e)

end Scheme

end Fuzzball.FormulaManager
