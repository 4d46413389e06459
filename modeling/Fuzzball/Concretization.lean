import Fuzzball.ConcreteDomain
import Fuzzball.StatefulExceptions
import Fuzzball.VineValues

/-!
# Concretization

`concretize` of `sym_region_frag_machine.ml` and what it calls to extend the
path condition in `sym_path_frag_machine.ml`.  The branch that the decision
tree takes is picked freely among the feasible ones.
-/

namespace Fuzzball.Concretization

open Vine

/-! ## The path -/

inductive OffsetStrategy
  | uniformStrat
  | biasedSmallStrat
  deriving DecidableEq, Repr

structure PathState where
  pathCond : List Exp
  concreteCache : Exp → Option I64
  /-- How many branches have been picked. -/
  choices : ℕ

abbrev Path := Stateful Exn PathState

def ofOCaml {α : Type} : OCaml α → Path α
  | .ok a => pure a
  | .error x => throw x

/-- The options and the solver, asked about a list of conditions. -/
structure PathMachine where
  optOffsetStrategy : OffsetStrategy
  strict : Bool
  tempifyExp : Exp → Typ → Exp
  isSat : List Exp → Bool

/-- What is picked first, by the number of the choice, the path condition and
the condition. -/
abbrev Picks := ℕ → List Exp → Exp → Bool

def quickCheckInPathCond (pathCond : List Exp) (cond : Exp) : Option Bool :=
  if cond ∈ pathCond then some true
  else match cond with
    | .unOp .not cond' => if cond' ∈ pathCond then some false else none
    | _ => none

def addToPathCond (cond : Exp) : Path Unit :=
  modify fun s =>
    if quickCheckInPathCond s.pathCond cond ≠ some true then
      { s with pathCond := cond :: s.pathCond }
    else s

def restorePathCond {α : Type} (f : Path α) : Path α := do
  let savedPc := (← get).pathCond
  let ret ← f
  modify fun s => { s with pathCond := savedPc }
  pure ret

def transFunc (cond : Exp) (b : Bool) : Exp :=
  if b then cond else .unOp .not cond

def smallOffsets : List I64 := [0, 1, 2, 4, 8, 16, 32, 64, -1, -2, -4, -8]

def expand : CastType → Typ → OCaml (I64 → I64)
  | .castUnsigned, .reg32 => pure fixU32
  | .castUnsigned, .reg16 => pure fixU16
  | .castUnsigned, .reg8 => pure fixU8
  | .castUnsigned, .reg1 => pure ConcreteDomain.fixU1
  | .castSigned, .reg32 => pure fixS32
  | .castSigned, .reg16 => pure fixS16
  | .castSigned, .reg8 => pure fixS8
  | .castSigned, .reg1 => pure ConcreteDomain.fixS1
  | _, _ => throw (.failure "unhandled cast kind in concretize_inner")

/-- The value of bit `b`. -/
def bitCond (e : Exp) (b : ℕ) : Exp :=
  .cast .castLow .reg1 (.binOp .arshift e (.int .reg8 (.ofNat 64 b)))

namespace PathMachine

variable (P : PathMachine) (pick : Picks)

def tryFunc (pathCond : List Exp) (cond : Exp) : Bool :=
  match quickCheckInPathCond pathCond cond with
  | some b => b
  | none => P.isSat (cond :: pathCond)

/-- `try_extend` of the decision tree takes a branch that is feasible. -/
def queryWithPcChoice (cond : Exp) : Path (Bool × Exp) := do
  let s ← get
  set { s with choices := s.choices + 1 }
  let b := pick s.choices s.pathCond cond
  if P.tryFunc s.pathCond (transFunc cond b) then pure (b, transFunc cond b)
  else if P.tryFunc s.pathCond (transFunc cond !b) then
    pure (!b, transFunc cond !b)
  else throw (.failure "Double unsat in query_with_pc_choice")

def extendPcRandom (cond : Exp) : Path Bool := do
  let (result, cond') ← P.queryWithPcChoice pick cond
  addToPathCond cond'
  pure result

/-- One round of the loop over the bits. -/
def chooseBit (e : Exp) (bits : I64) (b : ℕ) : Path I64 := do
  let bit ← P.extendPcRandom pick (bitCond e b)
  pure (bits <<< 1 ||| if bit then 1 else 0)

def chooseConcOffsetUniform (ty : Typ) (e : Exp) : Path I64 :=
  restorePathCond do
    if ty = .reg1 then
      pure (if ← P.extendPcRandom pick e then 1 else 0)
    else
      let width ← ofOCaml (bitsOfWidth ty)
      (List.range width).reverse.foldlM (P.chooseBit pick e) 0

def tryList (ty : Typ) (e : Exp) : List I64 → Path I64
  | [] => P.chooseConcOffsetUniform pick ty e
  | v :: r => do
    if ← P.extendPcRandom pick (.binOp .eq e (.int ty v)) then pure v
    else tryList ty e r

def chooseConcOffsetBiased (ty : Typ) (e : Exp) : Path I64 :=
  restorePathCond (P.tryList pick ty e smallOffsets)

def chooseConcOffset (ty : Typ) (e : Exp) : Path I64 :=
  match P.optOffsetStrategy with
  | .uniformStrat => P.chooseConcOffsetUniform pick ty e
  | .biasedSmallStrat => P.chooseConcOffsetBiased pick ty e

def chooseConcOffsetCached (ty : Typ) (eOrig : Exp) : Path I64 := do
  let e := P.tempifyExp eOrig ty
  let bits ← match (← get).concreteCache e with
    | some bits => pure bits
    | none => do
      let bits ← P.chooseConcOffset pick ty e
      modify fun s =>
        { s with concreteCache := Function.update s.concreteCache e bits }
      pure bits
  addToPathCond (.binOp .eq e (.int ty bits))
  pure bits

/-- The value of an extension is that of the narrow expression, extended. -/
def concretizeExtension (ckind : CastType) (ty cty : Typ) (e2 : Exp) :
    Path I64 := do
  if P.strict && decide (cty ≠ ty) then
    throw (.failure ("Too many errors\n.Last Straw: " ++
      "Sym_region_frag_machine.concretize_inner"))
  let ty2 ← ofOCaml (inferType none e2)
  let bits ← P.chooseConcOffsetCached pick ty2 e2
  let expand ← ofOCaml (expand ckind ty2)
  pure (expand bits)

/-- `concretize` where no concrete path is followed. -/
def concretize (ty : Typ) (e : Exp) : Path I64 :=
  match e with
  | .cast .castUnsigned cty e2 =>
    P.concretizeExtension pick .castUnsigned ty cty e2
  | .cast .castSigned cty e2 =>
    P.concretizeExtension pick .castSigned ty cty e2
  | e => P.chooseConcOffsetCached pick ty e

end PathMachine

/-! ## What a path condition allows -/

section Semantics

variable {μ : Type} [VineMemory μ]

/-- The valuation is admissible and meets the path condition. -/
def PathState.Allows (adm : Set (Valuation μ)) (s : PathState)
    (ρ : Valuation μ) : Prop :=
  ρ ∈ adm ∧ ∀ c ∈ s.pathCond, c.unsigned ρ = 1

def IsCond (c : Exp) : Prop := c.WellTyped ∧ c.typ = .reg1

/-- The path condition can be met, and the cached values are those that it
leaves. -/
structure PathState.Sound (adm : Set (Valuation μ)) (s : PathState) :
    Prop where
  conds : ∀ c ∈ s.pathCond, IsCond c
  sat : ∃ ρ, s.Allows adm ρ
  cached : ∀ k v, s.concreteCache k = some v → ∀ ρ, s.Allows adm ρ →
    k.unsigned ρ = v.toNat % 2 ^ k.width

/-- Cached values stay. -/
def PathState.Keeps (s s' : PathState) : Prop :=
  ∀ k v, s.concreteCache k = some v → s'.concreteCache k = some v

instance : Std.Refl PathState.Keeps := ⟨fun _ _ _ h => h⟩

instance : IsTrans PathState PathState.Keeps :=
  ⟨fun _ _ _ h h' k v hk => h' k v (h k v hk)⟩

/-- The admissible valuations give temporaries the values of their definitions,
and the solver is correct for them. -/
structure PathMachine.Lawful (P : PathMachine) (adm : Set (Valuation μ)) :
    Prop where
  tempify_wellTyped : ∀ e ty, e.WellTyped → (P.tempifyExp e ty).WellTyped
  tempify_typ : ∀ e, e.WellTyped → (P.tempifyExp e e.typ).typ = e.typ
  tempify_value : ∀ e, e.WellTyped → ∀ ρ ∈ adm,
    (P.tempifyExp e e.typ).unsigned ρ = e.unsigned ρ
  isSat_iff : ∀ l, (∀ c ∈ l, IsCond c) →
    (P.isSat l = true ↔ ∃ ρ ∈ adm, ∀ c ∈ l, c.unsigned ρ = 1)

variable {adm : Set (Valuation μ)} {s s' : PathState} {c e : Exp}
  {ρ : Valuation μ} {P : PathMachine} {pick : Picks}

theorem unsigned_lt_two (h : IsCond c) (ρ : Valuation μ) :
    c.unsigned ρ < 2 := by
  have hlt := c.unsigned_lt ρ
  rwa [Exp.width, h.2] at hlt

theorem isCond_transFunc (h : IsCond c) (b : Bool) :
    IsCond (transFunc c b) := by
  cases b
  · exact ⟨h.1, h.2⟩
  · exact h

theorem unsigned_not (h : IsCond c) (ρ : Valuation μ) :
    (Exp.unOp .not c).unsigned ρ = 1 ↔ c.unsigned ρ ≠ 1 := by
  have hwidth : c.width = 1 := by rw [Exp.width, h.2]; rfl
  have hbit : ∀ x : BitVec 1, (~~~x).toNat = 1 ↔ x.toNat ≠ 1 := by decide
  change (~~~(c.eval ρ c.width)).toNat = 1 ↔ (c.eval ρ c.width).toNat ≠ 1
  rw [hwidth]
  exact hbit _

theorem transFunc_holds (h : IsCond c) (b : Bool) (ρ : Valuation μ) :
    (transFunc c b).unsigned ρ = 1 ↔ (c.unsigned ρ = 1 ↔ b = true) := by
  cases b
  · rw [transFunc, if_neg Bool.false_ne_true, unsigned_not h]
    simp
  · rw [transFunc, if_pos rfl]
    simp

theorem quickCheck_true {pathCond : List Exp}
    (h : quickCheckInPathCond pathCond c = some true) : c ∈ pathCond := by
  unfold quickCheckInPathCond at h
  split_ifs at h with hmem
  · exact hmem
  · split at h
    · split_ifs at h
      cases h
    · cases h

/-- A condition that is found to be false can not be met. -/
theorem quickCheck_false {pathCond : List Exp}
    (h : quickCheckInPathCond pathCond c = some false) :
    ∃ c' ∈ pathCond, c = .unOp .not c' := by
  unfold quickCheckInPathCond at h
  split_ifs at h with hmem
  · cases h
  · split at h
    · rename_i c'
      split_ifs at h with hmem'
      exact ⟨c', hmem', rfl⟩
    · cases h

/-- A branch is tried just where the path condition allows it. -/
theorem PathMachine.Lawful.tryFunc_iff (hP : P.Lawful adm) (hs : s.Sound adm)
    (hc : IsCond c) :
    P.tryFunc s.pathCond c = true ↔ ∃ ρ, s.Allows adm ρ ∧ c.unsigned ρ = 1 := by
  unfold PathMachine.tryFunc
  split
  · rename_i b hquick
    cases b
    · simp only [Bool.false_eq_true, false_iff]
      rintro ⟨ρ, hρ, hholds⟩
      obtain ⟨c', hmem, rfl⟩ := quickCheck_false hquick
      exact (unsigned_not (hs.conds c' hmem) ρ).mp hholds (hρ.2 c' hmem)
    · simp only [true_iff]
      obtain ⟨ρ, hρ⟩ := hs.sat
      exact ⟨ρ, hρ, hρ.2 c (quickCheck_true hquick)⟩
  · rw [hP.isSat_iff _ (List.forall_mem_cons.mpr ⟨hc, hs.conds⟩)]
    simp only [PathState.Allows, List.forall_mem_cons]
    constructor
    · rintro ⟨ρ, hadm, hholds, hall⟩
      exact ⟨ρ, ⟨hadm, hall⟩, hholds⟩
    · rintro ⟨ρ, ⟨hadm, hall⟩, hholds⟩
      exact ⟨ρ, hadm, hholds, hall⟩

/-! ## The path condition grows -/

/-- The state with a condition added. -/
def PathState.add (s : PathState) (c : Exp) : PathState :=
  if quickCheckInPathCond s.pathCond c ≠ some true then
    { s with pathCond := c :: s.pathCond }
  else s

theorem PathState.add_cache (s : PathState) (c : Exp) :
    (s.add c).concreteCache = s.concreteCache := by
  unfold add
  split_ifs <;> rfl

theorem PathState.add_allows (s : PathState) (c : Exp) (ρ : Valuation μ) :
    (s.add c).Allows adm ρ ↔ s.Allows adm ρ ∧ c.unsigned ρ = 1 := by
  unfold add
  split_ifs with h
  · simp only [Allows, List.forall_mem_cons]
    tauto
  · have hmem := quickCheck_true (not_not.mp h)
    exact ⟨fun hρ => ⟨hρ, hρ.2 c hmem⟩, fun hρ => hρ.1⟩

theorem PathState.Sound.add (hs : s.Sound adm) (hc : IsCond c)
    (hsat : ∃ ρ, s.Allows adm ρ ∧ c.unsigned ρ = 1) : (s.add c).Sound adm where
  conds := by
    unfold PathState.add
    split_ifs
    · exact List.forall_mem_cons.mpr ⟨hc, hs.conds⟩
    · exact hs.conds
  sat := by
    obtain ⟨ρ, hρ⟩ := hsat
    exact ⟨ρ, (s.add_allows c ρ).mpr hρ⟩
  cached k v hk ρ hρ := by
    rw [s.add_cache c] at hk
    exact hs.cached k v hk ρ ((s.add_allows c ρ).mp hρ).1

/-- Every pick is what the condition is under the valuation. -/
def Follows (pick : Picks) (ρ : Valuation μ) : Prop :=
  ∀ n pathCond c, pick n pathCond c = decide (c.unsigned ρ = 1)

/-- The answer about a condition is a feasible one, which the path condition
then says. -/
structure Answers (adm : Set (Valuation μ)) (s : PathState) (pick : Picks)
    (c : Exp) (b : Bool) (s' : PathState) : Prop where
  cache_eq : s'.concreteCache = s.concreteCache
  allows_iff : ∀ ρ, s'.Allows adm ρ ↔
    s.Allows adm ρ ∧ (c.unsigned ρ = 1 ↔ b = true)
  follows : ∀ ρ, Follows pick ρ → s.Allows adm ρ → s'.Allows adm ρ

theorem PathMachine.extendPcRandom_spec (hP : P.Lawful adm) (hs : s.Sound adm)
    (hc : IsCond c) :
    Ends (PathState.Sound adm) PathState.Keeps (fun _ => False) s
      (P.extendPcRandom pick c) fun b s' => Answers adm s pick c b s' := by
  let s1 : PathState := { s with choices := s.choices + 1 }
  have hanswer : ∀ b, (∃ ρ, s.Allows adm ρ ∧ (transFunc c b).unsigned ρ = 1) →
      (∀ ρ, Follows pick ρ → s.Allows adm ρ → (c.unsigned ρ = 1 ↔ b = true)) →
      (P.queryWithPcChoice pick c).run s = (.ok (b, transFunc c b), s1) →
      Ends (PathState.Sound adm) PathState.Keeps (fun _ => False) s
        (P.extendPcRandom pick c) fun b s' => Answers adm s pick c b s' := by
    intro b hfeasible hfollows hrun
    have hs1 : s1.Sound adm := ⟨hs.conds, hs.sat, hs.cached⟩
    have hadd := hs1.add (isCond_transFunc hc b) hfeasible
    have hallows : ∀ ρ, (s1.add (transFunc c b)).Allows adm ρ ↔
        s.Allows adm ρ ∧ (c.unsigned ρ = 1 ↔ b = true) := fun ρ =>
      (s1.add_allows _ ρ).trans (and_congr_right' (transFunc_holds hc b ρ))
    have hextend : (P.extendPcRandom pick c).run s =
        (.ok b, s1.add (transFunc c b)) := by
      rw [extendPcRandom, Stateful.run_bind_ok hrun]
      rfl
    refine Ends.of_ok hextend hadd ?_ ?_
    · intro k v hk
      rw [s1.add_cache]
      exact hk
    · exact ⟨s1.add_cache _, hallows,
        fun ρ hpick hρ => (hallows ρ).mpr ⟨hρ, hfollows ρ hpick hρ⟩⟩
  have hrun : (P.queryWithPcChoice pick c).run s = Stateful.run
      (let b := pick s.choices s.pathCond c
      if P.tryFunc s.pathCond (transFunc c b) then pure (b, transFunc c b)
      else if P.tryFunc s.pathCond (transFunc c !b) then
        pure (!b, transFunc c !b)
      else throw (.failure "Double unsat in query_with_pc_choice")) s1 := rfl
  have htry : ∀ b, P.tryFunc s.pathCond (transFunc c b) = true ↔
      ∃ ρ, s.Allows adm ρ ∧ (transFunc c b).unsigned ρ = 1 := fun b =>
    hP.tryFunc_iff hs (isCond_transFunc hc b)
  dsimp only at hrun
  generalize hb : pick s.choices s.pathCond c = b at hrun
  have hpick : ∀ ρ : Valuation μ, Follows pick ρ →
      (c.unsigned ρ = 1 ↔ b = true) := by
    intro ρ hfollows
    rw [← hb, hfollows, decide_eq_true_iff]
  by_cases hfirst : P.tryFunc s.pathCond (transFunc c b) = true
  · rw [if_pos hfirst] at hrun
    exact hanswer b ((htry b).mp hfirst) (fun ρ h _ => hpick ρ h) hrun
  · have hnone : ∀ ρ, s.Allows adm ρ → ¬(transFunc c b).unsigned ρ = 1 :=
      fun ρ hρ h => hfirst ((htry b).mpr ⟨ρ, hρ, h⟩)
    have hother : ∀ ρ, s.Allows adm ρ → (transFunc c !b).unsigned ρ = 1 := by
      intro ρ hρ
      have h := hnone ρ hρ
      rw [transFunc_holds hc] at h ⊢
      cases b <;> simpa using h
    have hsecond : P.tryFunc s.pathCond (transFunc c !b) = true := by
      obtain ⟨ρ, hρ⟩ := hs.sat
      exact (htry !b).mpr ⟨ρ, hρ, hother ρ hρ⟩
    rw [if_neg hfirst, if_pos hsecond] at hrun
    refine hanswer (!b) ((htry !b).mp hsecond) (fun ρ h hρ => ?_) hrun
    exact absurd ((transFunc_holds hc b ρ).mpr (hpick ρ h)) (hnone ρ hρ)

/-! ## Values bit by bit -/

/-- What a strategy makes of a value: the first of some numbers that stand for
it, or the value itself. -/
def rawFrom (w : ℕ) (l : List I64) (x : ℕ) : I64 :=
  (l.find? fun v => x = v.toNat % 2 ^ w).getD (.ofNat 64 x)

/-- A value of the expression that the path condition allows is chosen. -/
structure Chooses (adm : Set (Valuation μ)) (s : PathState) (pick : Picks)
    (raw : ℕ → I64) (e : Exp) (v : I64) (s' : PathState) : Prop where
  cache_eq : s'.concreteCache = s.concreteCache
  feasible : ∃ ρ, s.Allows adm ρ ∧ v = raw (e.unsigned ρ)
  follows : ∀ ρ, Follows pick ρ → s.Allows adm ρ → v = raw (e.unsigned ρ)

theorem unsigned_bitCond (e : Exp) {b : ℕ} (hb : b < 64) (hw : b < e.width)
    (ρ : Valuation μ) :
    (bitCond e b).unsigned ρ = e.unsigned ρ / 2 ^ b % 2 := by
  have hamount : ((Exp.int .reg8 (.ofNat 64 b)).eval ρ 8).toNat = b := by
    change ((BitVec.ofNat 64 b).setWidth 8).toNat = b
    rw [BitVec.toNat_setWidth, BitVec.toNat_ofNat, Nat.mod_eq_of_lt (by omega),
      Nat.mod_eq_of_lt (by omega)]
  change (((e.eval ρ e.width).sshiftRight
    ((Exp.int .reg8 (.ofNat 64 b)).eval ρ 8).toNat).setWidth 1).toNat = _
  rw [hamount, BitVec.toNat_setWidth]
  have hbit : ((e.eval ρ e.width).sshiftRight b).getLsbD 0 =
      (e.eval ρ e.width).getLsbD b := by
    rw [BitVec.getLsbD_sshiftRight]
    simp [hw, Nat.not_le.mpr (Nat.zero_lt_of_lt hw)]
  have hcases : ∀ {w : ℕ} (x : BitVec w) (i : ℕ),
      x.toNat / 2 ^ i % 2 = (x.getLsbD i).toNat := by
    intro w x i
    rw [BitVec.getLsbD, Nat.testBit_eq_decide_div_mod_eq]
    rcases Nat.mod_two_eq_zero_or_one (x.toNat / 2 ^ i) with h | h <;> simp [h]
  have hlow := hcases ((e.eval ρ e.width).sshiftRight b) 0
  rw [pow_zero, Nat.div_one, hbit, ← hcases] at hlow
  exact hlow

theorem isCond_bitCond (he : e.WellTyped) (b : ℕ) : IsCond (bitCond e b) := by
  have hle : Typ.reg1.width ≤ e.typ.width := he.isReg.width_pos
  exact ⟨⟨⟨he, trivial, trivial⟩, trivial, hle⟩, rfl⟩

theorem toNat_shiftIn {x : I64} (hx : x.toNat < 2 ^ 63) (b : Bool) :
    (x <<< 1 ||| if b then 1 else 0).toNat = 2 * x.toNat + b.toNat := by
  have hshift : (x <<< 1).toNat = 2 * x.toNat := by
    rw [BitVec.toNat_shiftLeft, Nat.shiftLeft_eq, pow_one, mul_comm]
    exact Nat.mod_eq_of_lt (by omega)
  cases b
  · simp [hshift]
  · rw [if_pos rfl, BitVec.toNat_or, hshift]
    exact (Nat.two_pow_add_eq_or_of_lt (i := 1) (b := 1) (by decide) _).symm

/-- The loop from bit `n - 1` down, when the bits above are known. -/
theorem PathMachine.chooseBits_spec (hP : P.Lawful adm) (he : e.WellTyped)
    {n : ℕ} (hn : n ≤ e.width) {s : PathState} (hs : s.Sound adm) {bits : I64}
    (hbits : ∀ ρ, s.Allows adm ρ → e.unsigned ρ / 2 ^ n = bits.toNat) :
    Ends (PathState.Sound adm) PathState.Keeps (fun _ => False) s
      ((List.range n).reverse.foldlM (P.chooseBit pick e) bits)
      fun v s' => s'.concreteCache = s.concreteCache ∧
        (∀ ρ, s'.Allows adm ρ ↔ s.Allows adm ρ ∧ e.unsigned ρ = v.toNat) ∧
        ∀ ρ, Follows pick ρ → s.Allows adm ρ → s'.Allows adm ρ := by
  induction n generalizing s bits with
  | zero =>
    refine Ends.pure hs ⟨rfl, fun ρ => ?_, fun ρ _ h => h⟩
    refine ⟨fun h => ⟨h, ?_⟩, fun h => h.1⟩
    rw [← hbits ρ h, pow_zero, Nat.div_one]
  | succ n ih =>
    have hwidth := e.width_le
    rw [List.range_succ, List.reverse_append]
    change Ends _ _ _ s (P.chooseBit pick e bits n >>= fun bits =>
      (List.range n).reverse.foldlM (P.chooseBit pick e) bits) _
    have hround : Ends (PathState.Sound adm) PathState.Keeps (fun _ => False) s
        (P.chooseBit pick e bits n) fun bits' s1 => ∃ b,
          bits' = (bits <<< 1 ||| if b then 1 else 0) ∧
            Answers adm s pick (bitCond e n) b s1 :=
      (P.extendPcRandom_spec hP hs (isCond_bitCond he n)).bind
        fun b s1 hs1 _ hb => Ends.pure hs1 ⟨b, rfl, hb⟩
    refine hround.bind fun bits' s1 hs1 _ hb => ?_
    obtain ⟨b, rfl, hanswers⟩ := hb
    have hsmall : bits.toNat < 2 ^ 63 := by
      obtain ⟨ρ, hρ⟩ := hs.sat
      rw [← hbits ρ hρ]
      refine Nat.div_lt_of_lt_mul ((e.unsigned_lt ρ).trans_le ?_)
      rw [← pow_add]
      exact Nat.pow_le_pow_right (by decide) (by omega)
    have hnext : ∀ ρ, s1.Allows adm ρ → e.unsigned ρ / 2 ^ n =
        (bits <<< 1 ||| if b then 1 else 0 : I64).toNat := by
      intro ρ hρ
      obtain ⟨hs0, hbit⟩ := (hanswers.allows_iff ρ).mp hρ
      have hhigh := hbits ρ hs0
      rw [unsigned_bitCond e (by omega) (by omega)] at hbit
      rw [toNat_shiftIn hsmall, ← hhigh, pow_succ, ← Nat.div_div_eq_div_mul]
      cases b
      · simp only [Bool.false_eq_true, iff_false] at hbit
        change _ = _ + 0
        omega
      · simp only [iff_true] at hbit
        change _ = _ + 1
        omega
    refine (ih (by omega) hs1 hnext).mono fun v s2 hs2 _ h => ?_
    obtain ⟨hcache, hallows, hfollows⟩ := h
    have hbit : ∀ ρ : Valuation μ,
        (bitCond e n).unsigned ρ = e.unsigned ρ / 2 ^ n % 2 :=
      unsigned_bitCond e (by omega) (by omega)
    refine ⟨hcache.trans hanswers.cache_eq, fun ρ => ?_, fun ρ hpick hρ =>
      hfollows ρ hpick (hanswers.follows ρ hpick hρ)⟩
    rw [hallows]
    constructor
    · rintro ⟨h1, hv⟩
      exact ⟨((hanswers.allows_iff ρ).mp h1).1, hv⟩
    · rintro ⟨h0, hv⟩
      -- The answer is the bit of the value that is reached in the end.
      obtain ⟨ρ', hρ'⟩ := hs2.sat
      obtain ⟨h1', hv'⟩ := (hallows ρ').mp hρ'
      have hanswer := ((hanswers.allows_iff ρ').mp h1').2
      rw [hbit, hv', ← hv, ← hbit] at hanswer
      exact ⟨(hanswers.allows_iff ρ).mpr ⟨h0, hanswer⟩, hv⟩

/-! ## The strategies -/

theorem restorePathCond_spec {α : Type} {f : Path α}
    {Q : α → PathState → Prop} (hs : s.Sound adm)
    (h : Ends (PathState.Sound adm) PathState.Keeps (fun _ => False) s f Q)
    (hcache : ∀ a s', Q a s' → s'.concreteCache = s.concreteCache) :
    Ends (PathState.Sound adm) PathState.Keeps (fun _ => False) s
      (restorePathCond f) fun a s' => s'.pathCond = s.pathCond ∧
        s'.concreteCache = s.concreteCache ∧ ∃ s1 : PathState, s1.Sound adm ∧
          Q a s1 := by
  obtain ⟨a, s1, hrun, hs1, -, hQ⟩ := h.exists_ok
  have hcache1 := hcache a s1 hQ
  have hrestore : (restorePathCond f).run s =
      (.ok a, { s1 with pathCond := s.pathCond }) := by
    rw [restorePathCond, Stateful.run_bind_ok (Stateful.run_get s),
      Stateful.run_bind_ok hrun]
    rfl
  refine Ends.of_ok hrestore ⟨hs.conds, hs.sat, ?_⟩ ?_
    ⟨rfl, hcache1, s1, hs1, hQ⟩
  · intro k v hk
    rw [show s1.concreteCache = s.concreteCache from hcache1] at hk
    exact hs.cached k v hk
  · intro k v hk
    change s1.concreteCache k = some v
    rw [hcache1]
    exact hk

theorem rawFrom_nil (w x : ℕ) : rawFrom w [] x = .ofNat 64 x := rfl

theorem PathMachine.chooseConcOffsetUniform_spec (hP : P.Lawful adm)
    (he : e.WellTyped) (hs : s.Sound adm) (w : ℕ) :
    Ends (PathState.Sound adm) PathState.Keeps (fun _ => False) s
      (P.chooseConcOffsetUniform pick e.typ e) fun v s' =>
        s'.pathCond = s.pathCond ∧
          Chooses adm s pick (rawFrom w []) e v s' := by
  have hnat : ∀ v : I64, BitVec.ofNat 64 v.toNat = v := fun v =>
    BitVec.ofNat_toNat 64 v |>.trans (BitVec.setWidth_eq v)
  have hchosen : Ends (PathState.Sound adm) PathState.Keeps (fun _ => False) s
      (if e.typ = .reg1 then do
        pure (if ← P.extendPcRandom pick e then 1 else 0)
      else do
        let width ← ofOCaml (bitsOfWidth e.typ)
        (List.range width).reverse.foldlM (P.chooseBit pick e) 0 : Path I64)
      fun v s' => s'.concreteCache = s.concreteCache ∧
        (∀ ρ, s'.Allows adm ρ → s.Allows adm ρ ∧ e.unsigned ρ = v.toNat) ∧
        ∀ ρ, Follows pick ρ → s.Allows adm ρ → s'.Allows adm ρ := by
    split_ifs with hbit
    · have hc : IsCond e := ⟨he, hbit⟩
      refine (P.extendPcRandom_spec hP hs hc).bind fun b s1 hs1 _ hb => ?_
      refine Ends.pure hs1 ⟨hb.cache_eq, fun ρ hρ => ?_, hb.follows⟩
      obtain ⟨h0, hanswer⟩ := (hb.allows_iff ρ).mp hρ
      have hlt := unsigned_lt_two hc ρ
      refine ⟨h0, ?_⟩
      cases b
      · simp only [Bool.false_eq_true, iff_false] at hanswer
        change _ = 0
        omega
      · exact hanswer.mpr rfl
    · rw [he.isReg.bitsOfWidth_eq]
      refine Ends.read_bind rfl ?_
      refine (P.chooseBits_spec hP he (n := e.width) le_rfl hs
        (fun ρ _ => ?_)).mono fun v s1 _ _ h => ?_
      · exact Nat.div_eq_of_lt (e.unsigned_lt ρ)
      · exact ⟨h.1, fun ρ hρ => (h.2.1 ρ).mp hρ, h.2.2⟩
  refine (restorePathCond_spec hs hchosen fun _ _ h => h.1).mono
    fun v s' _ _ h => ?_
  obtain ⟨hpc, hcache, s1, hs1, -, hallows, hfollows⟩ := h
  refine ⟨hpc, hcache, ?_, fun ρ hpick hρ => ?_⟩
  · obtain ⟨ρ, hρ⟩ := hs1.sat
    obtain ⟨h0, hv⟩ := hallows ρ hρ
    exact ⟨ρ, h0, by rw [rawFrom_nil, hv, hnat]⟩
  · rw [rawFrom_nil, (hallows ρ (hfollows ρ hpick hρ)).2, hnat]

theorem rawFrom_cons_of_eq {w x : ℕ} {v : I64} (l : List I64)
    (h : x = v.toNat % 2 ^ w) : rawFrom w (v :: l) x = v := by
  rw [rawFrom, List.find?_cons_of_pos (by simpa using h)]
  rfl

theorem rawFrom_cons_of_ne {w x : ℕ} {v : I64} (l : List I64)
    (h : x ≠ v.toNat % 2 ^ w) : rawFrom w (v :: l) x = rawFrom w l x := by
  rw [rawFrom, List.find?_cons_of_neg (by simpa using h)]
  rfl

theorem isCond_eq (he : e.WellTyped) (v : I64) :
    IsCond (.binOp .eq e (.int e.typ v)) :=
  ⟨⟨he, he.isReg, rfl⟩, rfl⟩

theorem unsigned_eq_int (e : Exp) (v : I64) (ρ : Valuation μ) :
    (Exp.binOp .eq e (.int e.typ v)).unsigned ρ = 1 ↔
      e.unsigned ρ = v.toNat % 2 ^ e.width := by
  have hflag : ∀ b : Bool, (flag 1 b).toNat = 1 ↔ b = true := by decide
  change (flag 1 (e.eval ρ e.width == v.setWidth e.width)).toNat = 1 ↔ _
  rw [hflag, beq_iff_eq, ← BitVec.toNat_inj, BitVec.toNat_setWidth]
  rfl

theorem PathMachine.tryList_spec (hP : P.Lawful adm) (he : e.WellTyped)
    (hs : s.Sound adm) (l : List I64) :
    Ends (PathState.Sound adm) PathState.Keeps (fun _ => False) s
      (P.tryList pick e.typ e l) fun v s' =>
        Chooses adm s pick (rawFrom e.width l) e v s' := by
  induction l generalizing s with
  | nil =>
    exact (P.chooseConcOffsetUniform_spec hP he hs e.width).mono
      fun _ _ _ _ h => h.2
  | cons x l ih =>
    refine (P.extendPcRandom_spec hP hs (isCond_eq he x)).bind
      fun b s1 hs1 _ hb => ?_
    have hone := fun ρ : Valuation μ => unsigned_eq_int e x ρ
    cases b with
    | true =>
      have hvalue : ∀ ρ, s1.Allows adm ρ → s.Allows adm ρ ∧
          e.unsigned ρ = x.toNat % 2 ^ e.width := by
        intro ρ hρ
        obtain ⟨h0, hanswer⟩ := (hb.allows_iff ρ).mp hρ
        exact ⟨h0, (hone ρ).mp (hanswer.mpr rfl)⟩
      refine Ends.pure hs1 ⟨hb.cache_eq, ?_, fun ρ hpick hρ => ?_⟩
      · obtain ⟨ρ, hρ⟩ := hs1.sat
        obtain ⟨h0, hx⟩ := hvalue ρ hρ
        exact ⟨ρ, h0, (rawFrom_cons_of_eq l hx).symm⟩
      · exact (rawFrom_cons_of_eq l
          (hvalue ρ (hb.follows ρ hpick hρ)).2).symm
    | false =>
      have hvalue : ∀ ρ, s1.Allows adm ρ → s.Allows adm ρ ∧
          e.unsigned ρ ≠ x.toNat % 2 ^ e.width := by
        intro ρ hρ
        obtain ⟨h0, hanswer⟩ := (hb.allows_iff ρ).mp hρ
        exact ⟨h0, fun hx => Bool.false_ne_true (hanswer.mp ((hone ρ).mpr hx))⟩
      refine (ih hs1).mono fun v s2 _ _ h => ?_
      refine ⟨h.cache_eq.trans hb.cache_eq, ?_, fun ρ hpick hρ => ?_⟩
      · obtain ⟨ρ, hρ, hv⟩ := h.feasible
        obtain ⟨h0, hx⟩ := hvalue ρ hρ
        exact ⟨ρ, h0, hv.trans (rawFrom_cons_of_ne l hx).symm⟩
      · have h1 := hb.follows ρ hpick hρ
        exact (h.follows ρ hpick h1).trans
          (rawFrom_cons_of_ne l (hvalue ρ h1).2).symm

/-- What a strategy makes of a value. -/
def PathMachine.raw (P : PathMachine) (w : ℕ) : ℕ → I64 :=
  match P.optOffsetStrategy with
  | .uniformStrat => rawFrom w []
  | .biasedSmallStrat => rawFrom w smallOffsets

theorem PathMachine.chooseConcOffset_spec (hP : P.Lawful adm) (pick : Picks)
    (he : e.WellTyped) (hs : s.Sound adm) :
    Ends (PathState.Sound adm) PathState.Keeps (fun _ => False) s
      (P.chooseConcOffset pick e.typ e) fun v s' =>
        s'.pathCond = s.pathCond ∧
          Chooses adm s pick (P.raw e.width) e v s' := by
  unfold chooseConcOffset raw
  cases P.optOffsetStrategy with
  | uniformStrat => exact P.chooseConcOffsetUniform_spec hP he hs e.width
  | biasedSmallStrat =>
    refine (restorePathCond_spec hs (P.tryList_spec hP he hs smallOffsets)
      fun _ _ h => h.cache_eq).mono fun v s' _ _ h => ?_
    obtain ⟨hpc, hcache, s1, -, hchooses⟩ := h
    exact ⟨hpc, hcache, hchooses.feasible, hchooses.follows⟩

theorem PathMachine.raw_mod (P : PathMachine) {w x : ℕ} (hw : w ≤ 64)
    (hx : x < 2 ^ w) : (P.raw w x).toNat % 2 ^ w = x := by
  have hfrom : ∀ l, (rawFrom w l x).toNat % 2 ^ w = x := by
    intro l
    unfold rawFrom
    cases hfind : l.find? fun v => x = v.toNat % 2 ^ w with
    | some v =>
      have hv := List.find?_some hfind
      exact (of_decide_eq_true hv).symm
    | none =>
      have hlt : x < 2 ^ 64 := hx.trans_le (Nat.pow_le_pow_right (by decide) hw)
      change (BitVec.ofNat 64 x).toNat % 2 ^ w = x
      rw [BitVec.toNat_ofNat, Nat.mod_eq_of_lt hlt, Nat.mod_eq_of_lt hx]
  unfold raw
  cases P.optOffsetStrategy
  · exact hfrom _
  · exact hfrom _

/-! ## The cache -/

/-- The value chosen before or now. -/
structure Concretized (P : PathMachine) (adm : Set (Valuation μ))
    (s : PathState) (pick : Picks) (e : Exp) (v : I64) (s' : PathState) :
    Prop where
  allows_iff : ∀ ρ, s'.Allows adm ρ ↔
    s.Allows adm ρ ∧ e.unsigned ρ = v.toNat % 2 ^ e.width
  cached : s'.concreteCache (P.tempifyExp e e.typ) = some v
  before : ∀ x, s.concreteCache (P.tempifyExp e e.typ) = some x → v = x
  feasible : s.concreteCache (P.tempifyExp e e.typ) = none →
    ∃ ρ, s.Allows adm ρ ∧ v = P.raw e.width (e.unsigned ρ)
  follows : s.concreteCache (P.tempifyExp e e.typ) = none →
    ∀ ρ, Follows pick ρ → s.Allows adm ρ → v = P.raw e.width (e.unsigned ρ)

theorem PathMachine.chooseConcOffsetCached_run {e : Exp} {v : I64} {ty : Typ}
    (h : s.concreteCache (P.tempifyExp e ty) = some v) (pick : Picks) :
    (P.chooseConcOffsetCached pick ty e).run s =
      (.ok v, s.add (.binOp .eq (P.tempifyExp e ty) (.int ty v))) := by
  unfold chooseConcOffsetCached
  dsimp only
  rw [Stateful.run_bind_ok (Stateful.run_get s), h]
  rfl

/-- Adding that the expression has a value that it can have, which is in the
cache already. -/
theorem PathState.sound_addValue (hconds : ∀ c ∈ s.pathCond, IsCond c)
    (he : e.WellTyped) {v : I64}
    (hfeasible : ∃ ρ, s.Allows adm ρ ∧ e.unsigned ρ = v.toNat % 2 ^ e.width)
    (hcached : ∀ k x, s.concreteCache k = some x → k ≠ e →
      ∀ ρ, s.Allows adm ρ → k.unsigned ρ = x.toNat % 2 ^ k.width)
    (hv : s.concreteCache e = some v) :
    (s.add (.binOp .eq e (.int e.typ v))).Sound adm ∧
      ∀ ρ, (s.add (.binOp .eq e (.int e.typ v))).Allows adm ρ ↔
        s.Allows adm ρ ∧ e.unsigned ρ = v.toNat % 2 ^ e.width := by
  have hallows : ∀ ρ, (s.add (.binOp .eq e (.int e.typ v))).Allows adm ρ ↔
      s.Allows adm ρ ∧ e.unsigned ρ = v.toNat % 2 ^ e.width := fun ρ => by
    rw [s.add_allows, unsigned_eq_int]
  refine ⟨⟨?_, ?_, fun k x hk ρ hρ => ?_⟩, hallows⟩
  · unfold PathState.add
    split_ifs
    · exact List.forall_mem_cons.mpr ⟨isCond_eq he v, hconds⟩
    · exact hconds
  · obtain ⟨ρ, hρ⟩ := hfeasible
    exact ⟨ρ, (hallows ρ).mpr hρ⟩
  · rw [s.add_cache] at hk
    obtain ⟨h0, hvalue⟩ := (hallows ρ).mp hρ
    by_cases hke : k = e
    · subst hke
      rw [hvalue, Option.some.inj (hv.symm.trans hk)]
    · exact hcached k x hk hke ρ h0

theorem PathMachine.chooseConcOffsetCached_spec (hP : P.Lawful adm)
    (pick : Picks) (he : e.WellTyped) (hs : s.Sound adm) :
    Ends (PathState.Sound adm) PathState.Keeps (fun _ => False) s
      (P.chooseConcOffsetCached pick e.typ e) fun v s' =>
        Concretized P adm s pick e v s' := by
  obtain ⟨t, htdef⟩ : ∃ t, P.tempifyExp e e.typ = t := ⟨_, rfl⟩
  have ht : t.WellTyped := htdef ▸ hP.tempify_wellTyped e e.typ he
  have htyp : t.typ = e.typ := htdef ▸ hP.tempify_typ e he
  have hwidth : t.width = e.width := by rw [Exp.width, Exp.width, htyp]
  have hvalue : ∀ ρ, s.Allows adm ρ → t.unsigned ρ = e.unsigned ρ :=
    fun ρ hρ => htdef ▸ hP.tempify_value e he ρ hρ.1
  cases hcache : s.concreteCache t with
  | some v =>
    have hin : ∀ ρ, s.Allows adm ρ → t.unsigned ρ = v.toNat % 2 ^ t.width :=
      hs.cached t v hcache
    have hfeasible : ∃ ρ, s.Allows adm ρ ∧
        t.unsigned ρ = v.toNat % 2 ^ t.width := by
      obtain ⟨ρ, hρ⟩ := hs.sat
      exact ⟨ρ, hρ, hin ρ hρ⟩
    obtain ⟨hsound, hallows⟩ := PathState.sound_addValue hs.conds ht hfeasible
      (fun k x hk _ => hs.cached k x hk) hcache
    rw [htyp] at hsound hallows
    refine Ends.of_ok (P.chooseConcOffsetCached_run (htdef ▸ hcache) pick)
      (htdef ▸ hsound) ?_ ⟨fun ρ => ?_, ?_, ?_, ?_, ?_⟩
    · intro k x hk
      rw [s.add_cache]
      exact hk
    · rw [htdef, hallows]
      refine and_congr_right fun hρ => ?_
      rw [hvalue ρ hρ, hwidth]
    · rw [s.add_cache, htdef, hcache]
    · intro x hx
      exact Option.some.inj (hcache.symm.trans (htdef ▸ hx))
    · intro hnone
      cases hcache.symm.trans (htdef ▸ hnone)
    · intro hnone
      cases hcache.symm.trans (htdef ▸ hnone)
  | none =>
    have hchoose := P.chooseConcOffset_spec hP pick ht hs
    rw [htyp, hwidth] at hchoose
    obtain ⟨v, s1, hrun, hs1, -, hpc, hchooses⟩ := hchoose.exists_ok
    let s2 : PathState :=
      { s1 with concreteCache := Function.update s1.concreteCache t v }
    have hallows2 : ∀ ρ, s2.Allows adm ρ ↔ s.Allows adm ρ := fun ρ => by
      change (ρ ∈ adm ∧ ∀ c ∈ s1.pathCond, _) ↔ _
      rw [hpc]
      rfl
    have hkept : ∀ k, k ≠ t → s2.concreteCache k = s.concreteCache k := by
      intro k hk
      change Function.update s1.concreteCache t v k = _
      rw [Function.update_of_ne hk, hchooses.cache_eq]
    have hnew : s2.concreteCache t = some v := Function.update_self ..
    have hfeasible : ∃ ρ, s2.Allows adm ρ ∧
        t.unsigned ρ = v.toNat % 2 ^ t.width := by
      obtain ⟨ρ, hρ, hv⟩ := hchooses.feasible
      refine ⟨ρ, (hallows2 ρ).mpr hρ, ?_⟩
      rw [hv, hwidth, P.raw_mod e.width_le (hwidth ▸ t.unsigned_lt ρ)]
    obtain ⟨hsound, hallows⟩ := PathState.sound_addValue (s := s2)
      (fun c hc => hs.conds c (hpc ▸ hc)) ht hfeasible
      (fun k x hk hkt ρ hρ => hs.cached k x (hkept k hkt ▸ hk) ρ
        ((hallows2 ρ).mp hρ)) hnew
    rw [htyp] at hsound hallows
    have hcachedRun : (P.chooseConcOffsetCached pick e.typ e).run s =
        (.ok v, s2.add (.binOp .eq t (.int e.typ v))) := by
      unfold chooseConcOffsetCached
      dsimp only
      rw [Stateful.run_bind_ok (Stateful.run_get s), htdef, hcache]
      dsimp only
      rw [Stateful.run_bind_ok hrun]
      rfl
    refine Ends.of_ok hcachedRun hsound ?_ ⟨fun ρ => ?_, ?_, ?_, ?_, ?_⟩
    · intro k x hk
      rw [s2.add_cache]
      by_cases hkt : k = t
      · cases hcache.symm.trans (hkt ▸ hk)
      · rw [hkept k hkt, hk]
    · rw [hallows, hallows2]
      refine and_congr_right fun hρ => ?_
      rw [hvalue ρ hρ, hwidth]
    · rw [s2.add_cache, htdef, hnew]
    · intro x hx
      cases hcache.symm.trans (htdef ▸ hx)
    · intro _
      obtain ⟨ρ, hρ, hv⟩ := hchooses.feasible
      exact ⟨ρ, hρ, by rw [hv, hvalue ρ hρ]⟩
    · intro _ ρ hpick hρ
      rw [hchooses.follows ρ hpick hρ, hvalue ρ hρ]

/-! ## The expression that is concretized -/

/-- The narrow expression of an extension. -/
def source : Exp → Exp
  | .cast .castUnsigned _ e2 => e2
  | .cast .castSigned _ e2 => e2
  | e => e

def extension : Exp → OCaml (I64 → I64)
  | .cast .castUnsigned _ e2 => expand .castUnsigned e2.typ
  | .cast .castSigned _ e2 => expand .castSigned e2.typ
  | _ => pure id

theorem source_wellTyped (he : e.WellTyped) : (source e).WellTyped := by
  unfold source
  split
  · exact he.1
  · exact he.1
  · exact he

/-- Other expressions are concretized as they are. -/
theorem plain_eq {e : Exp}
    (hunsigned : ∀ cty e2, e ≠ .cast .castUnsigned cty e2)
    (hsigned : ∀ cty e2, e ≠ .cast .castSigned cty e2) :
    source e = e ∧ extension e = pure id := by
  unfold source extension
  split
  · exact absurd rfl (hunsigned _ _)
  · exact absurd rfl (hsigned _ _)
  · exact ⟨rfl, rfl⟩

theorem PathMachine.concretize_eq (P : PathMachine) (pick : Picks)
    (he : e.WellTyped) :
    P.concretize pick e.typ e = (do
      let bits ← P.chooseConcOffsetCached pick (source e).typ (source e)
      let f ← ofOCaml (extension e)
      pure (f bits)) := by
  unfold concretize
  split
  · rename_i cty e2
    unfold concretizeExtension
    rw [he.1.inferType_eq,
      show decide (cty ≠ (Exp.cast .castUnsigned cty e2).typ) = false from decide_eq_false (not_not.mpr rfl), Bool.and_false]
    rfl
  · rename_i cty e2
    unfold concretizeExtension
    rw [he.1.inferType_eq,
      show decide (cty ≠ (Exp.cast .castSigned cty e2).typ) = false from decide_eq_false (not_not.mpr rfl), Bool.and_false]
    rfl
  · rename_i hunsigned hsigned
    obtain ⟨hsource, hextension⟩ := plain_eq hunsigned hsigned
    rw [hsource, hextension]
    exact (bind_pure _).symm

/-- Later on the same path: conditions are added and expressions are
concretized. -/
inductive OnPath (P : PathMachine) (adm : Set (Valuation μ)) (s : PathState) :
    PathState → Prop
  | refl : OnPath P adm s s
  | cond {s1 : PathState} {c : Exp} : OnPath P adm s s1 → IsCond c →
      (∃ ρ, s1.Allows adm ρ ∧ c.unsigned ρ = 1) → OnPath P adm s (s1.add c)
  | concretize {s1 s2 : PathState} {pick : Picks} {e : Exp} {v : I64} :
      OnPath P adm s s1 → e.WellTyped →
      (P.concretize pick e.typ e).run s1 = (.ok v, s2) → OnPath P adm s s2

theorem addToPathCond_run (s : PathState) (c : Exp) :
    (addToPathCond c).run s = (.ok (), s.add c) := rfl

theorem PathMachine.concretize_run (hP : P.Lawful adm) (hs : s.Sound adm)
    (he : e.WellTyped) (pick : Picks) :
    ∃ bits s', s'.Sound adm ∧ s.Keeps s' ∧
      Concretized P adm s pick (source e) bits s' ∧
      (P.concretize pick e.typ e).run s =
        match extension e with
        | .ok f => (.ok (f bits), s')
        | .error x => (.error x, s') := by
  obtain ⟨bits, s', hrun, hs', hkeeps, hbits⟩ :=
    (P.chooseConcOffsetCached_spec hP pick (source_wellTyped he) hs).exists_ok
  refine ⟨bits, s', hs', hkeeps, hbits, ?_⟩
  rw [P.concretize_eq pick he, Stateful.run_bind_ok hrun]
  cases extension e with
  | ok f => rfl
  | error x => rfl

theorem OnPath.sound (hP : P.Lawful adm) (hs : s.Sound adm)
    (h : OnPath P adm s s') : s'.Sound adm ∧ s.Keeps s' := by
  induction h with
  | refl => exact ⟨hs, fun _ _ h => h⟩
  | cond hpath hc hsat ih =>
    refine ⟨ih.1.add hc hsat, fun k v hk => ?_⟩
    rw [PathState.add_cache]
    exact ih.2 k v hk
  | concretize hpath he hrun ih =>
    rename_i s1 s2 pick e v
    obtain ⟨bits, s3, hs3, hkeeps, -, hresult⟩ :=
      P.concretize_run hP ih.1 he pick
    rw [hrun] at hresult
    have hstate : s2 = s3 := by
      cases hext : extension e with
      | ok f =>
        rw [hext] at hresult
        exact (Prod.mk.inj hresult).2
      | error x =>
        rw [hext] at hresult
        cases (Prod.mk.inj hresult).1
    rw [hstate]
    exact ⟨hs3, trans_of PathState.Keeps ih.2 hkeeps⟩

/-- The path as it starts. -/
structure PathState.Starts (adm : Set (Valuation μ)) (s : PathState) :
    Prop where
  conds : ∀ c ∈ s.pathCond, IsCond c
  sat : ∃ ρ, s.Allows adm ρ
  cache : ∀ k, s.concreteCache k = none

theorem PathState.Starts.sound (h : s.Starts adm) : s.Sound adm where
  conds := h.conds
  sat := h.sat
  cached k v hk := by
    rw [h.cache k] at hk
    cases hk

/-- The value that is returned stands, without a sign, for a value that the
expression can have; the path condition becomes that the expression has it, and
it is returned again on the same path. -/
def Concretizes (P : PathMachine) (adm : Set (Valuation μ)) (s : PathState)
    (pick : Picks) (e : Exp) : Prop :=
  ∃ v s', (P.concretize pick e.typ e).run s = (.ok v, s') ∧
    (∃ ρ, s.Allows adm ρ ∧ e.unsigned ρ = v.toNat) ∧
    (∃ ρ, s'.Allows adm ρ) ∧
    (∀ ρ, s'.Allows adm ρ ↔ s.Allows adm ρ ∧ e.unsigned ρ = v.toNat) ∧
    ∀ s2, OnPath P adm s' s2 → ∀ pick2, ∃ s3,
      (P.concretize pick2 e.typ e).run s2 = (.ok v, s3)

/-- No value is given with sign bits. -/
def KeepsRepresentation (P : PathMachine) (adm : Set (Valuation μ))
    (s : PathState) : Exp → Prop
  | .cast .castUnsigned _ e2 => e2.typ ≠ .reg64
  | .cast .castSigned cty e2 => e2.typ ≠ .reg64 ∧
      (cty = .reg64 ∨ ∀ ρ, s.Allows adm ρ →
        e2.unsigned ρ < 2 ^ (e2.width - 1))
  | e =>
    match s.concreteCache (P.tempifyExp e e.typ) with
    | some v => v.toNat < 2 ^ e.width
    | none => P.optOffsetStrategy = .uniformStrat ∨ e.typ = .reg1 ∨
        e.typ = .reg64 ∨ ∀ ρ, s.Allows adm ρ → ∀ k ∈ [1, 2, 4, 8],
          e.unsigned ρ ≠ 2 ^ e.width - k

/-! ## Which values are represented -/

theorem concretizes_of_value (hP : P.Lawful adm) (hs : s.Sound adm)
    (he : e.WellTyped) {f : I64 → I64} (hf : extension e = .ok f)
    (hvalue : ∀ bits s', Concretized P adm s pick (source e) bits s' →
      (∃ ρ, s.Allows adm ρ ∧
        (source e).unsigned ρ = bits.toNat % 2 ^ (source e).width) →
      ∀ ρ, s.Allows adm ρ →
        ((source e).unsigned ρ = bits.toNat % 2 ^ (source e).width ↔
          e.unsigned ρ = (f bits).toNat)) :
    Concretizes P adm s pick e := by
  obtain ⟨bits, s', hs', -, hbits, hrun⟩ := P.concretize_run hP hs he pick
  rw [hf] at hrun
  obtain ⟨ρ, hρ⟩ := hs'.sat
  have hfeasible := (hbits.allows_iff ρ).mp hρ
  have hiff := hvalue bits s' hbits ⟨ρ, hfeasible⟩
  refine ⟨f bits, s', hrun, ⟨ρ, hfeasible.1, ?_⟩, hs'.sat, fun ρ => ?_, ?_⟩
  · exact (hiff ρ hfeasible.1).mp hfeasible.2
  · exact (hbits.allows_iff ρ).trans (and_congr_right fun h => hiff ρ h)
  · intro s2 hpath pick2
    obtain ⟨hs2, hkeeps⟩ := hpath.sound hP hs'
    obtain ⟨bits2, s3, -, -, hbits2, hrun2⟩ := P.concretize_run hP hs2 he pick2
    have hsame : bits2 = bits := hbits2.before bits (hkeeps _ _ hbits.cached)
    rw [hf, hsame] at hrun2
    exact ⟨s3, hrun2⟩

/-- The value under a valuation that all picks follow. -/
theorem Concretized.value_of_follows (hP : P.Lawful adm) (hs : s.Sound adm)
    (he : e.WellTyped) {v : I64} (h : Concretized P adm s pick e v s')
    (hpick : Follows pick ρ) (hρ : s.Allows adm ρ) :
    e.unsigned ρ = v.toNat % 2 ^ e.width := by
  cases hcache : s.concreteCache (P.tempifyExp e e.typ) with
  | some x =>
    have hwidth : (P.tempifyExp e e.typ).width = e.width := by
      rw [Exp.width, Exp.width, hP.tempify_typ e he]
    rw [h.before x hcache, ← hP.tempify_value e he ρ hρ.1, ← hwidth]
    exact hs.cached _ x hcache ρ hρ
  | none =>
    rw [h.follows hcache ρ hpick hρ, P.raw_mod e.width_le (e.unsigned_lt ρ)]

/-- What is known of a run that returns. -/
theorem Concretizes.bits (hP : P.Lawful adm) (hs : s.Sound adm)
    (he : e.WellTyped) (h : Concretizes P adm s pick e) :
    ∃ f bits s', extension e = .ok f ∧
      Concretized P adm s pick (source e) bits s' ∧
      (f bits).toNat < 2 ^ e.width := by
  obtain ⟨v, s1, hrun, ⟨ρ, -, hv⟩, -⟩ := h
  obtain ⟨bits, s', -, -, hbits, hresult⟩ := P.concretize_run hP hs he pick
  rw [hrun] at hresult
  cases hext : extension e with
  | ok f =>
    rw [hext] at hresult
    have hvalue : v = f bits := Except.ok.inj (Prod.mk.inj hresult).1
    exact ⟨f, bits, s', rfl, hbits, hvalue ▸ hv ▸ e.unsigned_lt ρ⟩
  | error x =>
    rw [hext] at hresult
    cases (Prod.mk.inj hresult).1

def followPicks (ρ : Valuation μ) : Picks :=
  fun _ _ c => decide (c.unsigned ρ = 1)

theorem follows_followPicks (ρ : Valuation μ) : Follows (followPicks ρ) ρ :=
  fun _ _ _ => rfl

theorem expand_unsigned {t : Typ} (ht : t.IsReg) (h64 : t ≠ .reg64) :
    ∃ f, expand .castUnsigned t = .ok f ∧
      ∀ x, f x = (x.setWidth t.width).setWidth 64 := by
  cases t with
  | reg1 => exact ⟨_, rfl, ConcreteDomain.fixU1_eq⟩
  | reg8 => exact ⟨_, rfl, fixU8_eq⟩
  | reg16 => exact ⟨_, rfl, fixU16_eq⟩
  | reg32 => exact ⟨_, rfl, fixU32_eq⟩
  | reg64 => exact absurd rfl h64
  | _ => exact ht.elim

theorem expand_signed {t : Typ} (ht : t.IsReg) (h64 : t ≠ .reg64) :
    ∃ f, expand .castSigned t = .ok f ∧
      ∀ x, f x = (x.setWidth t.width).signExtend 64 := by
  cases t with
  | reg1 => exact ⟨_, rfl, ConcreteDomain.fixS1_eq⟩
  | reg8 => exact ⟨_, rfl, fixS8_eq⟩
  | reg16 => exact ⟨_, rfl, fixS16_eq⟩
  | reg32 => exact ⟨_, rfl, ConcreteDomain.fixS32_eq⟩
  | reg64 => exact absurd rfl h64
  | _ => exact ht.elim

theorem expand_reg64_ne_ok (ct : CastType) (f : I64 → I64) :
    expand ct .reg64 ≠ .ok f := by
  cases ct <;> exact fun h => nomatch h

theorem unsigned_iff_setWidth (e : Exp) (x : I64) (ρ : Valuation μ) :
    e.unsigned ρ = x.toNat % 2 ^ e.width ↔
      e.eval ρ e.width = x.setWidth e.width := by
  rw [← BitVec.toNat_inj, BitVec.toNat_setWidth]
  rfl

theorem concretizes_unsigned_iff (hP : P.Lawful adm) (hs : s.Sound adm)
    {cty : Typ} {e2 : Exp} (he : (Exp.cast .castUnsigned cty e2).WellTyped) :
    (∀ pick, Concretizes P adm s pick (.cast .castUnsigned cty e2)) ↔
      e2.typ ≠ .reg64 := by
  constructor
  · intro h h64
    obtain ⟨f, -, -, hf, -⟩ := (h fun _ _ _ => true).bits hP hs he
    change expand .castUnsigned e2.typ = .ok f at hf
    rw [h64] at hf
    exact expand_reg64_ne_ok _ f hf
  · intro h64 pick
    obtain ⟨f, hf, hvalue⟩ := expand_unsigned he.1.isReg h64
    refine concretizes_of_value hP hs he hf fun bits s' _ _ ρ _ => ?_
    have hwide : e2.unsigned ρ < 2 ^ cty.width :=
      (e2.unsigned_lt ρ).trans_le (Nat.pow_le_pow_right (by decide) he.2.2)
    rw [unsigned_castUnsigned, Nat.mod_eq_of_lt hwide, hvalue,
      BitVec.toNat_setWidth_of_le e2.typ.width_le, BitVec.toNat_setWidth]
    rfl

theorem toNat_signExtend_of_nonneg {w k : ℕ} {x : BitVec w}
    (hx : x.toNat < 2 ^ (w - 1)) (hw : w ≤ k) :
    (x.signExtend k).toNat = x.toNat := by
  have hmsb : x.msb = false := by
    rw [BitVec.msb_eq_decide]
    exact decide_eq_false (Nat.not_le.mpr hx)
  rw [BitVec.signExtend_eq_setWidth_of_msb_false hmsb,
    BitVec.toNat_setWidth_of_le hw]

theorem signExtend_inj {w k : ℕ} {x y : BitVec w} (hw : w ≤ k) :
    x.signExtend k = y.signExtend k ↔ x = y := by
  refine ⟨fun h => ?_, fun h => h ▸ rfl⟩
  rw [← BitVec.setWidth_eq x, ← BitVec.setWidth_eq y,
    ← Bits.setWidth_signExtend_of_le hw le_rfl x, h,
    Bits.setWidth_signExtend_of_le hw le_rfl]

theorem le_toNat_signExtend {w : ℕ} {x : BitVec w} (hw : w ≤ 64)
    (hx : 2 ^ (w - 1) ≤ x.toNat) : 2 ^ 63 ≤ (x.signExtend 64).toNat := by
  have hmsb : x.msb = true := by
    rw [BitVec.msb_eq_decide]
    exact decide_eq_true hx
  have hsigned : (x.signExtend 64).toInt < 0 := by
    rw [BitVec.toInt_signExtend_of_le hw]
    exact BitVec.toInt_neg_of_msb_true hmsb
  rw [BitVec.toInt_eq_toNat_cond] at hsigned
  split_ifs at hsigned <;> omega

theorem concretizes_signed_iff (hP : P.Lawful adm) (hs : s.Sound adm)
    {cty : Typ} {e2 : Exp} (he : (Exp.cast .castSigned cty e2).WellTyped) :
    (∀ pick, Concretizes P adm s pick (.cast .castSigned cty e2)) ↔
      e2.typ ≠ .reg64 ∧ (cty = .reg64 ∨
        ∀ ρ, s.Allows adm ρ → e2.unsigned ρ < 2 ^ (e2.width - 1)) := by
  constructor
  · intro h
    have h64 : e2.typ ≠ .reg64 := by
      intro h64
      obtain ⟨f, -, -, hf, -⟩ := (h fun _ _ _ => true).bits hP hs he
      change expand .castSigned e2.typ = .ok f at hf
      rw [h64] at hf
      exact expand_reg64_ne_ok _ f hf
    refine ⟨h64, or_iff_not_imp_left.mpr fun hcty ρ hρ => ?_⟩
    by_contra hneg
    obtain ⟨f, hf, hvalue⟩ := expand_signed he.1.isReg h64
    obtain ⟨f', bits, s', hf', hbits, hlt⟩ := (h (followPicks ρ)).bits hP hs he
    obtain rfl : f = f' := Except.ok.inj (hf.symm.trans hf')
    have hsource : e2.unsigned ρ = bits.toNat % 2 ^ e2.width :=
      hbits.value_of_follows hP hs he.1 (follows_followPicks ρ) hρ
    have hlarge : 2 ^ 63 ≤ (f bits).toNat := by
      rw [hvalue]
      refine le_toNat_signExtend e2.width_le ?_
      rw [BitVec.toNat_setWidth]
      exact hsource ▸ Nat.not_lt.mp hneg
    have hnarrow : 2 ^ cty.width ≤ 2 ^ 32 := by
      have hreg := he.2.1
      cases cty with
      | reg1 | reg8 | reg16 | reg32 => decide
      | reg64 => exact absurd rfl hcty
      | _ => exact hreg.elim
    have hfinal : (f bits).toNat < 2 ^ cty.width := hlt
    omega
  · rintro ⟨h64, hcty⟩ pick
    obtain ⟨f, hf, hvalue⟩ := expand_signed he.1.isReg h64
    refine concretizes_of_value hP hs he hf fun bits s' _ hfeasible ρ hρ => ?_
    have heval : (Exp.cast .castSigned cty e2).unsigned ρ =
        ((e2.eval ρ e2.width).signExtend cty.width).toNat := rfl
    change e2.unsigned ρ = bits.toNat % 2 ^ e2.width ↔ _
    rw [heval, hvalue]
    rcases hcty with rfl | hnonneg
    · rw [unsigned_iff_setWidth]
      exact (signExtend_inj e2.width_le).symm.trans BitVec.toNat_inj.symm
    · obtain ⟨ρ', hρ', hsource⟩ := hfeasible
      have hbits : (bits.setWidth e2.typ.width).toNat < 2 ^ (e2.width - 1) := by
        rw [BitVec.toNat_setWidth]
        exact hsource ▸ hnonneg ρ' hρ'
      have hleft : ((e2.eval ρ e2.width).signExtend cty.width).toNat =
          e2.unsigned ρ := toNat_signExtend_of_nonneg (hnonneg ρ hρ) he.2.2
      have hright : ((bits.setWidth e2.typ.width).signExtend 64).toNat =
          bits.toNat % 2 ^ e2.width :=
        (toNat_signExtend_of_nonneg hbits e2.width_le).trans
          (BitVec.toNat_setWidth ..)
      rw [hleft, hright]

theorem rawFrom_nil_lt {w x : ℕ} (hw : w ≤ 64) (hx : x < 2 ^ w) :
    (rawFrom w [] x).toNat < 2 ^ w := by
  have hlt : x < 2 ^ 64 := hx.trans_le (Nat.pow_le_pow_right (by decide) hw)
  rw [rawFrom_nil, BitVec.toNat_ofNat, Nat.mod_eq_of_lt hlt]
  exact hx

/-- The widths for which a small negative number is no value. -/
def Narrow (w : ℕ) : Prop := w = 8 ∨ w = 16 ∨ w = 32

theorem smallOffsets_cases : ∀ v ∈ smallOffsets,
    v.toNat < 2 ^ 8 ∨ ∃ k ∈ [1, 2, 4, 8], v.toNat = 2 ^ 64 - k := by
  intro v hv
  simp only [smallOffsets, List.mem_cons, List.not_mem_nil, or_false] at hv
  rcases hv with rfl | rfl | rfl | rfl | rfl | rfl | rfl | rfl | rfl | rfl |
    rfl | rfl <;> simp

theorem rawFrom_small_lt {w x : ℕ} (hw : Narrow w) (hx : x < 2 ^ w)
    (hsmall : ∀ k ∈ [1, 2, 4, 8], x ≠ 2 ^ w - k) :
    (rawFrom w smallOffsets x).toNat < 2 ^ w := by
  cases hfind : smallOffsets.find? fun v => x = v.toNat % 2 ^ w with
  | some v =>
    have hfound := List.find?_some hfind
    have hv := of_decide_eq_true hfound
    rw [rawFrom, hfind]
    rcases smallOffsets_cases v (List.mem_of_find?_eq_some hfind) with
      hlt | ⟨k, hk, hneg⟩
    · refine hlt.trans_le (Nat.pow_le_pow_right (by decide) ?_)
      rcases hw with rfl | rfl | rfl <;> decide
    · refine absurd ?_ (hsmall k hk)
      rw [hv, hneg]
      simp only [List.mem_cons, List.not_mem_nil, or_false] at hk
      rcases hw with rfl | rfl | rfl <;>
        rcases hk with rfl | rfl | rfl | rfl <;> norm_num
  | none =>
    have hw64 : w ≤ 64 := by
      rcases hw with rfl | rfl | rfl <;> decide
    have hnil := rawFrom_nil_lt hw64 hx
    rw [rawFrom, hfind]
    exact hnil

theorem le_rawFrom_small {w k : ℕ} (hw : Narrow w) (hk : k ∈ [1, 2, 4, 8]) :
    2 ^ w ≤ (rawFrom w smallOffsets (2 ^ w - k)).toNat := by
  simp only [List.mem_cons, List.not_mem_nil, or_false] at hk
  rcases hw with rfl | rfl | rfl <;>
    rcases hk with rfl | rfl | rfl | rfl <;> simp [rawFrom, smallOffsets]

theorem raw_lt {P : PathMachine} (he : e.WellTyped)
    (h : P.optOffsetStrategy = .uniformStrat ∨ e.typ = .reg1 ∨ e.typ = .reg64 ∨
      ∀ k ∈ [1, 2, 4, 8], e.unsigned ρ ≠ 2 ^ e.width - k) :
    (P.raw e.width (e.unsigned ρ)).toNat < 2 ^ e.width := by
  have hx := e.unsigned_lt ρ
  unfold PathMachine.raw
  cases hstrategy : P.optOffsetStrategy with
  | uniformStrat => exact rawFrom_nil_lt e.width_le hx
  | biasedSmallStrat =>
    dsimp only
    generalize e.unsigned ρ = x at h hx
    have hreg := he.isReg
    rw [hstrategy] at h
    rw [Exp.width] at h hx ⊢
    cases htyp : e.typ with
    | reg1 =>
      rw [htyp] at hx
      have hbit : ∀ x < 2 ^ 1, (rawFrom 1 smallOffsets x).toNat < 2 ^ 1 := by
        decide
      exact hbit x hx
    | reg8 =>
      rw [htyp] at h hx
      exact rawFrom_small_lt (.inl rfl) hx (by simpa using h)
    | reg16 =>
      rw [htyp] at h hx
      exact rawFrom_small_lt (.inr (.inl rfl)) hx (by simpa using h)
    | reg32 =>
      rw [htyp] at h hx
      exact rawFrom_small_lt (.inr (.inr rfl)) hx (by simpa using h)
    | reg64 => exact BitVec.isLt _
    | _ =>
      rw [htyp] at hreg
      exact hreg.elim

theorem concretizes_plain_iff (hP : P.Lawful adm) (hs : s.Sound adm)
    (he : e.WellTyped) (hsource : source e = e)
    (hextension : extension e = pure id) :
    (∀ pick, Concretizes P adm s pick e) ↔
      match s.concreteCache (P.tempifyExp e e.typ) with
      | some v => v.toNat < 2 ^ e.width
      | none => P.optOffsetStrategy = .uniformStrat ∨ e.typ = .reg1 ∨
          e.typ = .reg64 ∨ ∀ ρ, s.Allows adm ρ → ∀ k ∈ [1, 2, 4, 8],
            e.unsigned ρ ≠ 2 ^ e.width - k := by
  have hrun : ∀ pick, Concretizes P adm s pick e → ∃ bits s',
      Concretized P adm s pick e bits s' ∧ bits.toNat < 2 ^ e.width := by
    intro pick h
    obtain ⟨f, bits, s', hf, hbits, hlt⟩ := h.bits hP hs he
    obtain rfl : id = f := Except.ok.inj (hextension.symm.trans hf)
    exact ⟨bits, s', hsource ▸ hbits, hlt⟩
  have hvalue : ∀ pick, (∀ bits s', Concretized P adm s pick e bits s' →
      bits.toNat < 2 ^ e.width) → Concretizes P adm s pick e := by
    intro pick hlt
    refine concretizes_of_value hP hs he hextension
      fun bits s' hbits _ ρ _ => ?_
    rw [hsource] at hbits ⊢
    rw [Nat.mod_eq_of_lt (hlt bits s' hbits)]
    rfl
  cases hcache : s.concreteCache (P.tempifyExp e e.typ) with
  | some v =>
    constructor
    · intro h
      obtain ⟨bits, s', hbits, hlt⟩ := hrun _ (h fun _ _ _ => true)
      exact hbits.before v hcache ▸ hlt
    · intro hlt pick
      exact hvalue pick fun bits s' hbits => (hbits.before v hcache).symm ▸ hlt
  | none =>
    constructor
    · intro h
      by_contra hnot
      simp only [not_or, not_forall] at hnot
      obtain ⟨hstrategy, h1, h64, ρ, hρ, k, hk, hx⟩ := hnot
      obtain ⟨bits, s', hbits, hlt⟩ := hrun _ (h (followPicks ρ))
      have hraw := hbits.follows hcache ρ (follows_followPicks ρ) hρ
      have hbiased : P.raw e.width = rawFrom e.width smallOffsets := by
        unfold PathMachine.raw
        cases hs : P.optOffsetStrategy with
        | uniformStrat => exact absurd hs hstrategy
        | biasedSmallStrat => rfl
      have hnarrow : Narrow e.width := by
        have hreg := he.isReg
        rw [Exp.width]
        cases htyp : e.typ with
        | reg1 => exact absurd htyp h1
        | reg8 => exact .inl rfl
        | reg16 => exact .inr (.inl rfl)
        | reg32 => exact .inr (.inr rfl)
        | reg64 => exact absurd htyp h64
        | _ =>
          rw [htyp] at hreg
          exact hreg.elim
      have hlarge := le_rawFrom_small hnarrow hk
      rw [← not_not.mp hx, ← hbiased, ← hraw] at hlarge
      exact absurd hlt (Nat.not_lt.mpr hlarge)
    · intro h pick
      refine hvalue pick fun bits s' hbits => ?_
      obtain ⟨ρ, hρ, hraw⟩ := hbits.feasible hcache
      rw [hraw]
      refine raw_lt he ?_
      exact h.imp_right (Or.imp_right (Or.imp_right fun h => h ρ hρ))

end Semantics

/-! ## A byte as input -/

def inputByte : Exp := .temp ⟨0, [], .reg8⟩

def inputIs (x : ℕ) : Valuation Unit :=
  { Valuation.zero with temp := fun _ => .ofNat 64 x }

/-- Solved by trying every byte, the large ones first. -/
def byteMachine (strategy : OffsetStrategy) : PathMachine where
  optOffsetStrategy := strategy
  strict := false
  tempifyExp e _ := e
  isSat l := (List.range 256).reverse.any fun x =>
    l.all fun c => c.unsigned (inputIs x) = 1

def inputs : Set (Valuation Unit) := {ρ | ∃ x < 256, ρ = inputIs x}

theorem byteMachine_lawful (strategy : OffsetStrategy) :
    (byteMachine strategy).Lawful inputs where
  tempify_wellTyped _ _ h := h
  tempify_typ _ _ := rfl
  tempify_value _ _ _ _ := rfl
  isSat_iff l _ := by
    simp only [byteMachine, List.any_eq_true, List.mem_reverse,
      List.mem_range, List.all_eq_true, decide_eq_true_eq]
    constructor
    · rintro ⟨x, hx, hall⟩
      exact ⟨inputIs x, ⟨x, hx, rfl⟩, hall⟩
    · rintro ⟨ρ, ⟨x, hx, rfl⟩, hall⟩
      exact ⟨x, hx, hall⟩

/-- The input is below `0x80`. -/
def plainInput : PathState where
  pathCond := [.binOp .lt inputByte (.int .reg8 0x80)]
  concreteCache _ := none
  choices := 0

theorem plainInput_starts : plainInput.Starts inputs where
  conds c hc := by
    obtain rfl := List.mem_singleton.mp hc
    exact ⟨⟨trivial, trivial, rfl⟩, rfl⟩
  sat := by
    refine ⟨inputIs 0, ⟨0, by decide, rfl⟩, fun c hc => ?_⟩
    obtain rfl := List.mem_singleton.mp hc
    rfl
  cache _ := rfl

def inputExtended : Exp := .cast .castSigned .reg32 inputByte

def noCondition : PathState where
  pathCond := []
  concreteCache _ := none
  choices := 0

end Fuzzball.Concretization
