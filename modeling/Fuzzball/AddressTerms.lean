import Fuzzball.AddressSignedWidths
import Mathlib.Data.BitVec
import Mathlib.Order.Filter.AtTopBot.Basic
import Mathlib.Order.Filter.Finite

/-!
# Terms of address expressions

`split_terms`, `classify_term` and `classify_terms` of
`sym_region_frag_machine.ml`, which take an address apart into a concrete base,
offsets and symbols.  The sum of the terms is the address, but for the masks
that the classification drops.
-/

namespace Fuzzball.SymRegion

open Vine MemoRecursion FormulaManager

variable {μ : Type} [VineMemory μ]

/-! ## Options -/

inductive Arch
  | x86
  | x64
  | arm
  deriving DecidableEq, Repr

/-- `reg_addr`. -/
def Arch.regAddr : Arch → Typ
  | .x86 | .arm => .reg32
  | .x64 => .reg64

structure AddressOptions where
  optArch : Arch
  optNarrowBitwidthCutoff : Option ℤ
  optNoSymRegions : Bool
  optStopOnWeirdSymAddr : Bool
  optFinishOnWeirdSymAddr : Bool
  optFailOffsetHeuristic : Bool

def AddressOptions.narrowBitwidthCutoff (opts : AddressOptions) : ℤ :=
  match opts.optNarrowBitwidthCutoff, opts.optArch, opts.optArch.regAddr with
  | some i, _, _ => i
  | _, .arm, .reg32 => 15
  | _, _, .reg32 => 23
  | _, _, .reg64 => 23
  | _, _, _ => 23

inductive AddressExn
  | weirdSymbolicAddress
  | strangeTerm (e : Exp)
  | raised (x : Exn)
  deriving DecidableEq, Repr

/-- An exception, or `none` where the fuel is spent. -/
abbrev Classified := Except (Option AddressExn)

/-! ## Splitting -/

/-- A recursion that keeps no results. -/
def plain {ν : Type} (f : Exp → Body Exp ν Exn ν) : Scheme Exp Unit ν Exn where
  body := f
  key _ := none
  definition _ := none
  combine _ r := r

def isHighMask (t : Typ) (v : I64) : OCaml Bool := do
  let x := ~~~(← fixS t v) + 1
  pure (x &&& (x - 1) == 0)

/-- The part of `x` that the mask clears, to be taken away from `x`. -/
def clearedPart (e : Exp) (t : Typ) (v : I64) : Exp :=
  .unOp .neg (.binOp .bitand e (.unOp .not (.int t v)))

def splitTermsBody (defs : Definitions) :
    Exp → Body Exp (List Exp) Exn (List Exp)
  | .binOp .plus e1 e2 => do
    let l2 ← Body.loop e2
    let l1 ← Body.loop e1
    pure (l1 ++ l2)
  | .binOp .bitand e1 (.constant (.int t v)) => do
    if ← Body.ofExcept (isHighMask t v) then
      let l2 ← Body.loop (clearedPart e1 t v)
      let l1 ← Body.loop e1
      pure (l1 ++ l2)
    else
      pure [.binOp .bitand e1 (.int t v)]
  | .temp v =>
    match defs.exprTemp v.id with
    | some e' => Body.loop e'
    | none => pure [.temp v]
  | e => pure [e]

/-- `split_terms`, as the recursion that it is. -/
def splitTerms (defs : Definitions) : Scheme Exp Unit (List Exp) Exn :=
  plain (splitTermsBody defs)

/-! ## Classification -/

inductive TermKind
  | constantBase (off : I64)
  | constantOffset (off : I64)
  | exprOffset (e : Exp)
  | ambiguousExpr (e : Exp)
  | symbol (e : Exp)
  deriving DecidableEq, Repr

def TermKind.isOffset : TermKind → Bool
  | .exprOffset _ | .constantOffset _ => true
  | _ => false

/-- `handle_weird_addr_expr`. -/
def handleWeirdAddrExpr (opts : AddressOptions) (e : Exp) :
    Except AddressExn TermKind :=
  if opts.optStopOnWeirdSymAddr || opts.optFinishOnWeirdSymAddr then
    if opts.optFinishOnWeirdSymAddr then .ok (.exprOffset e)
    else .error .weirdSymbolicAddress
  else if opts.optFailOffsetHeuristic then .error (.strangeTerm e)
  else .ok (.exprOffset e)

def absI64 (x : I64) : I64 := if x.slt 0 then -x else x

/-- The cases for a constant, whose sign extension is `s`.  The ranges that
the source goes through all have the outcome of its last case. -/
def classifyConstant (s off : I64) : TermKind :=
  if (absI64 s).slt 0x4000 then .constantOffset off else .constantBase off

/-- `x` and `y` where the expression has the form of `_ ? x : y`. -/
def iteArms : Exp → Option (Exp × Exp)
  | .binOp .bitor (.binOp .bitand (.cast .castSigned _ _) x)
      (.binOp .bitand (.unOp .not (.cast .castSigned _ _)) y) => some (x, y)
  | .binOp .bitor (.binOp .bitand x (.cast .castSigned _ _))
      (.binOp .bitand (.unOp .not (.cast .castSigned _ _)) y) => some (x, y)
  | .binOp .bitor (.binOp .bitand (.cast .castSigned _ _) x)
      (.binOp .bitand y (.unOp .not (.cast .castSigned _ _))) => some (x, y)
  | .binOp .bitor (.binOp .bitand x (.cast .castSigned _ _))
      (.binOp .bitand y (.unOp .not (.cast .castSigned _ _))) => some (x, y)
  | .ite _ x y => some (x, y)
  | .binOp .bitor (.binOp .bitand c1 x) (.binOp .bitand (.unOp .not c2) y) =>
    if c1 = c2 then some (x, y) else none
  | _ => none

/-- `x` in what an optimization makes of `_ ? x : 0` and `_ ? 0 : x`. -/
def zeroArm : Exp → Option Exp
  | .binOp .bitand x (.unOp .not (.cast .castSigned _ _)) => some x
  | .binOp .bitand (.unOp .not (.cast .castSigned _ _)) x => some x
  | .binOp .bitand x (.cast .castSigned _ _) => some x
  | .binOp .bitand (.cast .castSigned _ _) x => some x
  | _ => none

/-- `x & c` where `c` is taken for a mask used for rounding.  Both comparisons
are signed, so at 64 bits every mask that is not negative passes. -/
def roundingMask : Exp → Option Exp
  | .binOp .bitand x (.constant (.int .reg32 off)) =>
    if (0xffffff00 : I64).sle (fixU32 off) then some x else none
  | .binOp .bitand x (.constant (.int .reg64 off)) =>
    if (0xffffffffffffff00 : I64).sle off then some x else none
  | _ => none

/-- The first cases that apply to an expression without looking at the width
of its value. -/
def isPlainOffset : Exp → Bool
  | .unOp .neg _ => true
  | .binOp .lshift _ (.constant (.int .reg8 v)) =>
    v == 1 || v == 2 || v == 3 || v == 4 || v == 5
  | .binOp .times _ _ => true
  | _ => false

def isShift : Exp → Bool
  | .binOp .arshift _ _ | .binOp .rshift _ _ | .binOp .lshift _ _ => true
  | _ => false

section Classify

variable (opts : AddressOptions) (coin : Exp → Bool) (defs : Definitions)

/-- An offset if both arms are offsets. -/
def joinArms (classify : Exp → Classified TermKind) (e x y : Exp) :
    Classified TermKind := do
  let ky ← classify y
  let kx ← classify x
  pure (if kx.isOffset && ky.isOffset then .exprOffset e else .ambiguousExpr e)

/-- The cases for an expression whose value may be wide. -/
def classifyWide (classify : Exp → Classified TermKind) (e : Exp) :
    Classified TermKind :=
  if isShift e then pure (.exprOffset e)
  else match iteArms e with
  | some (x, y) => joinArms classify e x y
  | none =>
  match zeroArm e with
  | some x => do
    pure (if (← classify x).isOffset then .exprOffset e else .ambiguousExpr e)
  | none =>
  match roundingMask e with
  | some x => classify x
  | none =>
  match e with
  | .binOp .plus e1 e2 => joinArms classify e e1 e2
  | .cast .castSigned _ _ => pure (.exprOffset e)
  | .temp _ | .mem _ _ _ => pure (.symbol e)
  | e => (handleWeirdAddrExpr opts e).mapError some

/-- The result of an analysis below the cutoff. -/
def isNarrow (S : Scheme Exp ℤ ℤ Exn) (n : ℕ) (e : Exp) : Classified Bool :=
  match S.eval n e with
  | .ok r => pure (decide (r < opts.narrowBitwidthCutoff))
  | .error x => throw (x.map .raised)

/-- The operand of a sign extension, if its value is narrow. -/
def isNarrowCast (n : ℕ) : Exp → Classified Bool
  | .cast .castSigned _ x => isNarrow opts (narrowBitwidth coin defs x) n x
  | _ => pure false

def classifyTerm : ℕ → Exp → Classified TermKind
  | 0, _ => throw none
  | n + 1, e =>
    match e with
    | .constant (.int .reg32 off) => pure (classifyConstant (fixS32 off) off)
    | .constant (.int .reg64 off) => pure (classifyConstant off off)
    | e =>
      if isPlainOffset e then pure (.exprOffset e)
      else do
        if ← isNarrow opts (narrowBitwidth coin defs e) n e then
          pure (.exprOffset e)
        else if ← isNarrowCast opts coin defs n e then pure (.exprOffset e)
        else if ← isNarrow opts (narrowBitwidthSigned coin defs e) n e then
          pure (.exprOffset e)
        else classifyWide opts (classifyTerm n) e

/-! ## The lists of terms -/

structure Terms where
  cbases : List I64
  coffs : List I64
  eoffs : List Exp
  ambig : List Exp
  syms : List Exp
  deriving DecidableEq, Repr

def Terms.push (ts : Terms) : TermKind → Terms
  | .constantBase o => { ts with cbases := o :: ts.cbases }
  | .constantOffset o => { ts with coffs := o :: ts.coffs }
  | .exprOffset e => { ts with eoffs := e :: ts.eoffs }
  | .ambiguousExpr e => { ts with ambig := e :: ts.ambig }
  | .symbol e => { ts with syms := e :: ts.syms }

/-- The `loop` of `classify_terms_simple`, with what it adds to `constants`. -/
def simpleTermsBody :
    Exp → Body Exp (I64 × List Exp) Exn (I64 × List Exp)
  | .binOp .plus e1 e2 => do
    let r2 ← Body.loop e2
    let r1 ← Body.loop e1
    pure (r2.1 + r1.1, r1.2 ++ r2.2)
  | .temp v =>
    match defs.exprTemp v.id with
    | some e' => Body.loop e'
    | none => pure (0, [.temp v])
  | .constant (.int .reg32 n) => pure (n, [])
  | .constant (.int .reg64 n) => pure (n, [])
  | e => pure (0, [e])

/-- `classify_terms_simple`, as the recursion that it is. -/
def classifyTermsSimple : Scheme Exp Unit (I64 × List Exp) Exn :=
  plain (simpleTermsBody defs)

def liftStop {α : Type} : Except (Option Exn) α → Classified α :=
  Except.mapError (Option.map .raised)

def classifyTerms (n : ℕ) (e : Exp) : Classified Terms :=
  match e, opts.optNoSymRegions with
  | .constant (.int _ k), _ => pure ⟨[k], [], [], [], []⟩
  | e, true => do
    let (cbase, terms) ← liftStop ((classifyTermsSimple defs).eval n e)
    pure ⟨if cbase = 0 then [] else [cbase], [], terms, [], []⟩
  | e, false => do
    let terms ← liftStop ((splitTerms defs).eval n e)
    let l ← terms.mapM (classifyTerm opts coin defs n)
    pure (l.foldl Terms.push ⟨[], [], [], [], []⟩)

/-! ## The bits that are dropped -/

/-- Neither analysis finds the value narrow. -/
def IsWide (e : Exp) : Prop :=
  (∀ r, (narrowBitwidth coin defs e).Returns e r →
    opts.narrowBitwidthCutoff ≤ r) ∧
  ∀ r, (narrowBitwidthSigned coin defs e).Returns e r →
    opts.narrowBitwidthCutoff ≤ r

/-- A mask is dropped if it is taken for one used for rounding. -/
def DropsMask (e : Exp) : Prop :=
  IsWide opts coin defs e ∧ zeroArm e = none ∧ (roundingMask e).isSome

open Classical in
/-- The bits that the dropped masks of one term clear, as a number. -/
noncomputable def droppedBits (ρ : Valuation μ) (w : ℕ) : Exp → BitVec w
  | .binOp .bitand x (.constant (.int t v)) =>
    if DropsMask opts coin defs (.binOp .bitand x (.int t v)) then
      (x.eval ρ w &&& ~~~v.setWidth w) + droppedBits ρ w x
    else 0
  | _ => 0

/-- An expression that is not split any further. -/
def IsTerm : Exp → Prop
  | .binOp .plus _ _ => False
  | .binOp .bitand _ (.constant (.int t v)) => isHighMask t v = .ok false
  | .temp v => defs.exprTemp v.id = none
  | _ => True

/-- The bits that the dropped masks of an address clear add up to `c`. -/
inductive Drops (ρ : Valuation μ) (w : ℕ) : Exp → BitVec w → Prop
  | plus {e1 e2 : Exp} {c1 c2 : BitVec w} : Drops ρ w e1 c1 →
      Drops ρ w e2 c2 → Drops ρ w (.binOp .plus e1 e2) (c1 + c2)
  | highMask {e1 : Exp} {t : Typ} {v : I64} {c : BitVec w} :
      isHighMask t v = .ok true → Drops ρ w e1 c →
      Drops ρ w (.binOp .bitand e1 (.int t v)) c
  | definition {v : Var} {d : Exp} {c : BitVec w} :
      defs.exprTemp v.id = some d → Drops ρ w d c → Drops ρ w (.temp v) c
  | term {e : Exp} : IsTerm defs e →
      Drops ρ w e (droppedBits opts coin defs ρ w e)

end Classify

def TermKind.value (ρ : Valuation μ) (w : ℕ) : TermKind → BitVec w
  | .constantBase o | .constantOffset o => o.setWidth w
  | .exprOffset e | .ambiguousExpr e | .symbol e => e.eval ρ w

def Terms.sum (ρ : Valuation μ) (w : ℕ) (ts : Terms) : BitVec w :=
  ((ts.cbases ++ ts.coffs).map (·.setWidth w)).sum +
    ((ts.eoffs ++ ts.ambig ++ ts.syms).map (·.eval ρ w)).sum

/-! ## One term -/

section Term

variable {opts : AddressOptions} {coin : Exp → Bool} {defs : Definitions}
  {ρ : Valuation μ} {w n : ℕ} {e x y : Exp} {k : TermKind}

theorem and_add_and_not (x m : BitVec w) : (x &&& m) + (x &&& ~~~m) = x := by
  have hdisjoint : (x &&& m) &&& (x &&& ~~~m) = 0#w := by
    ext i
    simp
    tauto
  rw [BitVec.add_eq_or_of_and_eq_zero _ _ hdisjoint]
  ext i
  simp only [BitVec.getElem_or, BitVec.getElem_and, BitVec.getElem_not]
  cases x[i] <;> cases m[i] <;> rfl

theorem eval_mask (x : Exp) (t : Typ) (v : I64) :
    (Exp.binOp .bitand x (.int t v)).eval ρ w +
      (x.eval ρ w &&& ~~~v.setWidth w) = x.eval ρ w :=
  and_add_and_not ..

theorem roundingMask_eq (h : roundingMask e = some x) :
    ∃ t v, e = .binOp .bitand x (.int t v) := by
  unfold roundingMask at h
  split at h
  · split_ifs at h
    cases h
    exact ⟨_, _, rfl⟩
  · split_ifs at h
    cases h
    exact ⟨_, _, rfl⟩
  · cases h

theorem droppedBits_of_not (h : ¬DropsMask opts coin defs e) :
    droppedBits opts coin defs ρ w e = 0 := by
  unfold droppedBits
  split
  · exact if_neg h
  · rfl

theorem eval_roundingMask (h : roundingMask e = some x)
    (hd : DropsMask opts coin defs e) :
    e.eval ρ w + droppedBits opts coin defs ρ w e =
      x.eval ρ w + droppedBits opts coin defs ρ w x := by
  obtain ⟨t, v, rfl⟩ := roundingMask_eq h
  rw [droppedBits, if_pos hd, ← BitVec.add_assoc, eval_mask]

theorem isNarrow_false {S : Scheme Exp ℤ ℤ Exn} {r : ℤ}
    (h : isNarrow opts S n e = .ok false) (hr : S.Returns e r) :
    opts.narrowBitwidthCutoff ≤ r := by
  unfold isNarrow at h
  split at h
  · next r' hr' =>
    have heq : r' = r := Scheme.Returns.unique ⟨n, hr'⟩ hr
    rw [heq] at h
    simpa using Except.ok.inj h
  · cases h

theorem isNarrow_true {S : Scheme Exp ℤ ℤ Exn}
    (h : isNarrow opts S n e = .ok true) :
    ∃ r, S.Returns e r ∧ r < opts.narrowBitwidthCutoff := by
  unfold isNarrow at h
  split at h
  · next r hr => exact ⟨r, ⟨n, hr⟩, by simpa using Except.ok.inj h⟩
  · cases h

theorem droppedBits_isNarrowCast
    (h : isNarrowCast opts coin defs n e = .ok true) :
    droppedBits opts coin defs ρ w e = 0 := by
  unfold isNarrowCast at h
  split at h
  · rfl
  · cases h

theorem bind_ok {α β : Type} {x : Classified α} {f : α → Classified β} {b : β}
    (h : (x >>= f) = .ok b) : ∃ a, x = .ok a ∧ f a = .ok b := by
  cases x with
  | ok a => exact ⟨a, rfl, h⟩
  | error y => cases h

theorem joinArms_value {classify : Exp → Classified TermKind}
    (h : joinArms classify e x y = .ok k) : k.value ρ w = e.eval ρ w := by
  obtain ⟨ky, -, h⟩ := bind_ok h
  obtain ⟨kx, -, h⟩ := bind_ok h
  cases h
  split_ifs <;> rfl

theorem handleWeirdAddrExpr_ok (h : handleWeirdAddrExpr opts e = .ok k) :
    k = .exprOffset e := by
  unfold handleWeirdAddrExpr at h
  split_ifs at h <;> cases h <;> rfl

theorem classifyConstant_value (t : Typ) (s off : I64) :
    (classifyConstant s off).value ρ w = (Exp.int t off).eval ρ w := by
  unfold classifyConstant
  split_ifs <;> rfl

theorem droppedBits_of_none (h : roundingMask e = none) :
    droppedBits opts coin defs ρ w e = 0 :=
  droppedBits_of_not fun hd => by simpa [h] using hd.2.2

theorem roundingMask_of_isShift (h : isShift e = true) :
    roundingMask e = none := by
  unfold isShift at h
  split at h
  · rfl
  · rfl
  · rfl
  · cases h

theorem roundingMask_of_isPlainOffset (h : isPlainOffset e = true) :
    roundingMask e = none := by
  unfold isPlainOffset at h
  split at h
  · rfl
  · rfl
  · rfl
  · cases h

theorem roundingMask_of_iteArms (h : iteArms e = some (x, y)) :
    roundingMask e = none := by
  unfold iteArms at h
  split at h <;> first | rfl | cases h

/-- A term keeps its value where its mask is not dropped, and where it is the
operand of the mask is classified. -/
theorem classifyWide_value {classify : Exp → Classified TermKind}
    (hclassify : ∀ x k, classify x = .ok k →
      k.value ρ w = x.eval ρ w + droppedBits opts coin defs ρ w x)
    (hwide : IsWide opts coin defs e)
    (h : classifyWide opts classify e = .ok k) :
    k.value ρ w = e.eval ρ w + droppedBits opts coin defs ρ w e := by
  have hkept : roundingMask e = none → k.value ρ w = e.eval ρ w →
      k.value ρ w = e.eval ρ w + droppedBits opts coin defs ρ w e := by
    intro hnone hvalue
    rw [droppedBits_of_none hnone, add_zero, hvalue]
  unfold classifyWide at h
  by_cases hshift : isShift e = true
  · rw [if_pos hshift] at h
    cases h
    exact hkept (roundingMask_of_isShift hshift) rfl
  rw [if_neg hshift] at h
  rcases hite : iteArms e with _ | ⟨x, y⟩
  · simp only [hite] at h
    rcases hzero : zeroArm e with _ | x
    · simp only [hzero] at h
      rcases hmask : roundingMask e with _ | x
      · simp only [hmask] at h
        apply hkept hmask
        split at h
        · exact joinArms_value h
        · cases h
          rfl
        · cases h
          rfl
        · cases h
          rfl
        · rcases hweird : handleWeirdAddrExpr opts e with x | k'
          · rw [hweird] at h
            cases h
          · rw [hweird] at h
            cases h
            rw [handleWeirdAddrExpr_ok hweird]
            rfl
      · simp only [hmask] at h
        have hdrops : DropsMask opts coin defs e :=
          ⟨hwide, hzero, by rw [hmask]; rfl⟩
        rw [eval_roundingMask hmask hdrops]
        exact hclassify x k h
    · simp only [hzero] at h
      obtain ⟨kx, -, h⟩ := bind_ok h
      cases h
      have hnot : ¬DropsMask opts coin defs e := by
        intro hd
        rw [hd.2.1] at hzero
        cases hzero
      rw [droppedBits_of_not hnot, add_zero]
      split_ifs <;> rfl
  · simp only [hite] at h
    exact hkept (roundingMask_of_iteArms hite) (joinArms_value h)

theorem classifyTerm_value (h : classifyTerm opts coin defs n e = .ok k) :
    k.value ρ w = e.eval ρ w + droppedBits opts coin defs ρ w e := by
  induction n generalizing e k with
  | zero => cases h
  | succ n ih =>
    unfold classifyTerm at h
    split at h
    · next off =>
      have hk : classifyConstant (fixS32 off) off = k := Except.ok.inj h
      rw [← hk, classifyConstant_value .reg32]
      exact (add_zero _).symm
    · next off =>
      have hk : classifyConstant off off = k := Except.ok.inj h
      rw [← hk, classifyConstant_value .reg64]
      exact (add_zero _).symm
    · by_cases hplain : isPlainOffset e = true
      · rw [if_pos hplain] at h
        cases h
        rw [droppedBits_of_none (roundingMask_of_isPlainOffset hplain),
          add_zero]
        rfl
      rw [if_neg hplain] at h
      have hnarrow : (∃ r, (narrowBitwidth coin defs e).Returns e r ∧
            r < opts.narrowBitwidthCutoff) ∨ (∃ r,
            (narrowBitwidthSigned coin defs e).Returns e r ∧
              r < opts.narrowBitwidthCutoff) →
          droppedBits opts coin defs ρ w e = 0 := by
        intro hor
        apply droppedBits_of_not
        rintro ⟨⟨h1, h2⟩, -⟩
        rcases hor with ⟨r, hr, hlt⟩ | ⟨r, hr, hlt⟩
        · exact hlt.not_ge (h1 r hr)
        · exact hlt.not_ge (h2 r hr)
      obtain ⟨b1, hb1, h⟩ := bind_ok h
      cases b1 with
      | true =>
        cases h
        rw [hnarrow (.inl (isNarrow_true hb1)), add_zero]
        rfl
      | false =>
        obtain ⟨b2, hb2, h⟩ := bind_ok h
        cases b2 with
        | true =>
          cases h
          rw [droppedBits_isNarrowCast hb2, add_zero]
          rfl
        | false =>
          obtain ⟨b3, hb3, h⟩ := bind_ok h
          cases b3 with
          | true =>
            cases h
            rw [hnarrow (.inr (isNarrow_true hb3)), add_zero]
            rfl
          | false =>
            exact classifyWide_value (fun _ _ => ih)
              ⟨fun _ => isNarrow_false hb1, fun _ => isNarrow_false hb3⟩ h

end Term

/-! ## Splitting -/

section Split

/-- What the splitting calls itself on. -/
def splitReads (defs : Definitions) : Exp → List Exp
  | .binOp .plus e1 e2 => [e1, e2]
  | .binOp .bitand e1 (.constant (.int t v)) => [e1, clearedPart e1 t v]
  | .temp v => (defs.exprTemp v.id).toList
  | _ => []

/-- The operands among what the splitting calls itself on. -/
def splitOperands : Exp → List Exp
  | .binOp .plus e1 e2 => [e1, e2]
  | .binOp .bitand e1 (.constant (.int _ _)) => [e1]
  | _ => []

theorem splitOperands_operands (e : Exp) :
    ∀ d ∈ splitOperands e, d ∈ e.operands := by
  intro d hd
  unfold splitOperands at hd
  split at hd <;> simp_all [Exp.operands]

variable {opts : AddressOptions} {coin : Exp → Bool} {defs : Definitions}
  {ρ : Valuation μ} {w n : ℕ} {e d : Exp}

theorem follows_of_mem_splitReads (h : d ∈ splitReads defs e) :
    Follows defs splitOperands d e ∨ splitReads defs d = [] := by
  unfold splitReads at h
  split at h
  · exact .inl (.inl h)
  · rcases List.mem_cons.mp h with rfl | h
    · exact .inl (.inl List.mem_cons_self)
    · rw [List.mem_singleton.mp h]
      exact .inr rfl
  · exact .inl (.inr ⟨_, rfl, Option.mem_toList.mp h⟩)
  · cases h

theorem splitReads_acc (e : Exp) :
    Acc (fun d e => d ∈ splitReads defs e) e := by
  have hacc : Acc (Follows defs splitOperands) e :=
    follows_acc splitOperands_operands e
  induction hacc with
  | intro e _ ih =>
    refine Acc.intro e fun d hd => ?_
    rcases follows_of_mem_splitReads hd with h | h
    · exact ih d h
    · refine Acc.intro d fun d' hd' => ?_
      rw [h] at hd'
      cases hd'

/-- A recursion that keeps no results returns what `Q` says if its body does
from its calls. -/
theorem plain_returns (defs : Definitions) {ν : Type}
    {f : Exp → Body Exp ν Exn ν} {P : Exp → Prop} {Q : Exp → ν → Prop}
    (h : ∀ e, P e → (f e).Meets (fun d => d ∈ splitReads defs e ∧ P d) Q (Q e))
    (he : P e) : ∃ r, (plain f).Returns e r ∧ Q e r := by
  have hproves : (plain f).Proves (splitReads defs) P Q := by
    refine ⟨fun e he _ => h e he, fun e he => he, ?_⟩
    intro e e' r _ hd
    cases hd
  exact hproves.returns he (splitReads_acc e)

/-- The expressions to split, at width `w`. -/
structure Splits (defs : Definitions) (w : ℕ) (e : Exp) : Prop where
  typed : e.WellTyped
  agrees : defs.Agrees e
  width : e.width = w

theorem Splits.plus {e1 e2 : Exp} (h : Splits defs w (.binOp .plus e1 e2)) :
    Splits defs w e1 ∧ Splits defs w e2 := by
  obtain ⟨⟨h1, h2, htyp⟩, ha, hw⟩ := h
  have htyp : e2.typ = e1.typ := htyp
  refine ⟨⟨h1, ha.operand (by simp [Exp.operands]), hw⟩,
    ⟨h2, ha.operand (by simp [Exp.operands]), ?_⟩⟩
  rw [Exp.width, htyp]
  exact hw

theorem Splits.mask {e1 : Exp} {t : Typ} {v : I64}
    (h : Splits defs w (.binOp .bitand e1 (.int t v))) :
    Splits defs w e1 ∧ Splits defs w (clearedPart e1 t v) := by
  obtain ⟨⟨h1, h2, htyp⟩, ha, hw⟩ := h
  have ha1 : defs.Agrees e1 := ha.operand (by simp [Exp.operands])
  refine ⟨⟨h1, ha1, hw⟩, ⟨h1, h2, htyp⟩, ?_, hw⟩
  intro u hu
  apply ha1 u
  simpa [clearedPart, Exp.vars] using hu

theorem Splits.definition {v : Var} (h : Splits defs w (.temp v))
    (hdefs : defs.Typed) (hd : defs.exprTemp v.id = some d) :
    Splits defs w d ∧ d.typ = v.typ := by
  obtain ⟨htyped, hagrees⟩ := hdefs v.id d hd
  have htyp := h.agrees v (by simp [Exp.vars]) d hd
  refine ⟨⟨htyped, hagrees, ?_⟩, htyp⟩
  rw [← h.width, Exp.width, Exp.width, htyp]
  rfl

theorem Definitions.Holds.eval {v : Var} (h : Splits defs w (.temp v))
    (hρ : defs.Holds ρ) (hd : defs.exprTemp v.id = some d)
    (ht : d.typ = v.typ) : (Exp.temp v).eval ρ w = d.eval ρ w := by
  obtain rfl : v.typ.width = w := h.width
  exact hρ v d hd ht

/-- The terms, with the bits that their classification drops. -/
noncomputable def termsSum (opts : AddressOptions) (coin : Exp → Bool)
    (defs : Definitions) (ρ : Valuation μ) (w : ℕ) (l : List Exp) : BitVec w :=
  (l.map fun d => d.eval ρ w + droppedBits opts coin defs ρ w d).sum

/-- What the splitting establishes. -/
def SplitsInto (opts : AddressOptions) (coin : Exp → Bool) (defs : Definitions)
    (ρ : Valuation μ) (w : ℕ) (e : Exp) (l : List Exp) : Prop :=
  (∀ d ∈ l, d.WellTyped ∧ defs.Agrees d) ∧ ∃ c, Drops opts coin defs ρ w e c ∧
    termsSum opts coin defs ρ w l = e.eval ρ w + c

theorem Splits.into_term (h : Splits defs w e) (ht : IsTerm defs e) :
    SplitsInto opts coin defs ρ w e [e] := by
  refine ⟨?_, _, .term ht, ?_⟩
  · intro d hd
    rw [List.mem_singleton.mp hd]
    exact ⟨h.typed, h.agrees⟩
  · simp [termsSum]

theorem termsSum_append (l1 l2 : List Exp) :
    termsSum opts coin defs ρ w (l1 ++ l2) =
      termsSum opts coin defs ρ w l1 + termsSum opts coin defs ρ w l2 := by
  simp [termsSum]

theorem isHighMask_ok {t : Typ} (ht : t.IsReg) (v : I64) :
    ∃ b, isHighMask t v = .ok b := by
  obtain ⟨s, hs⟩ := fixS_ok ht v
  exact ⟨_, by rw [isHighMask, hs]; rfl⟩

/-- `x & m` is `x` less what the mask clears. -/
theorem eval_clearedPart (x : Exp) (t : Typ) (v : I64) :
    x.eval ρ w + (clearedPart x t v).eval ρ w =
      (Exp.binOp .bitand x (.int t v)).eval ρ w := by
  have h := and_add_and_not (x.eval ρ w) (v.setWidth w)
  calc x.eval ρ w + -(x.eval ρ w &&& ~~~v.setWidth w)
      = x.eval ρ w - (x.eval ρ w &&& ~~~v.setWidth w) :=
        (sub_eq_add_neg _ _).symm
    _ = x.eval ρ w &&& v.setWidth w := sub_eq_of_eq_add h.symm

theorem Drops.clearedPart {x : Exp} {t : Typ} {v : I64} {c : BitVec w}
    (h : Drops opts coin defs ρ w (clearedPart x t v) c) : c = 0 := by
  cases h with
  | term _ => rfl

theorem splitTerms_splits (opts : AddressOptions) (coin : Exp → Bool)
    (hdefs : defs.Typed) (hρ : defs.Holds ρ) (he : Splits defs w e) :
    ∃ l, (splitTerms defs).Returns e l ∧
      SplitsInto opts coin defs ρ w e l := by
  refine plain_returns defs (P := Splits defs w) ?_ he
  intro e he
  have hterm : IsTerm defs e →
      (pure [e] : Body Exp (List Exp) Exn (List Exp)).Meets
        (fun d => d ∈ splitReads defs e ∧ Splits defs w d)
        (SplitsInto opts coin defs ρ w) (SplitsInto opts coin defs ρ w e) :=
    fun ht => .pure (he.into_term ht)
  unfold splitTermsBody
  split
  · next e1 e2 =>
    obtain ⟨he1, he2⟩ := he.plus
    refine ⟨⟨by simp [splitReads], he2⟩, fun l2 hl2 => ?_⟩
    refine ⟨⟨by simp [splitReads], he1⟩, fun l1 hl1 => ?_⟩
    obtain ⟨ht1, c1, hc1, hs1⟩ := hl1
    obtain ⟨ht2, c2, hc2, hs2⟩ := hl2
    refine ⟨?_, c1 + c2, .plus hc1 hc2, ?_⟩
    · intro d hd
      exact (List.mem_append.mp hd).elim (ht1 d) (ht2 d)
    · rw [termsSum_append, hs1, hs2]
      exact add_add_add_comm _ _ _ _
  · next e1 t v =>
    obtain ⟨b, hb⟩ := isHighMask_ok he.typed.2.1 v
    have htest : (Body.ofExcept (isHighMask t v) :
        Body Exp (List Exp) Exn Bool).Meets
          (fun d => d ∈ splitReads defs (.binOp .bitand e1 (.int t v)) ∧
            Splits defs w d) (SplitsInto opts coin defs ρ w) (· = b) :=
      .ofExcept hb rfl
    refine htest.bind ?_
    rintro b rfl
    cases b with
    | false => exact hterm hb
    | true =>
      obtain ⟨he1, hcleared⟩ := he.mask
      refine ⟨⟨by simp [splitReads], hcleared⟩, fun l2 hl2 => ?_⟩
      refine ⟨⟨by simp [splitReads], he1⟩, fun l1 hl1 => ?_⟩
      obtain ⟨ht1, c1, hc1, hs1⟩ := hl1
      obtain ⟨ht2, c2, hc2, hs2⟩ := hl2
      refine ⟨?_, c1, .highMask hb hc1, ?_⟩
      · intro d hd
        exact (List.mem_append.mp hd).elim (ht1 d) (ht2 d)
      · rw [termsSum_append, hs1, hs2, hc2.clearedPart, add_zero,
          add_right_comm, eval_clearedPart]
  · next v =>
    split
    · next d hd =>
      obtain ⟨hsplits, htyp⟩ := he.definition hdefs hd
      refine ⟨⟨by simp [splitReads, hd], hsplits⟩, fun l hl => ?_⟩
      obtain ⟨ht, c, hc, hs⟩ := hl
      refine ⟨ht, c, .definition hd hc, ?_⟩
      rw [hs, Definitions.Holds.eval he hρ hd htyp]
    · next hd => exact hterm hd
  · next hplus hmask htemp =>
    apply hterm
    unfold IsTerm
    split
    · exact hplus _ _ rfl
    · exact absurd rfl (hmask _ _ _)
    · exact absurd rfl (htemp _)
    · trivial

/-- What `classify_terms_simple` establishes. -/
def SimplySplits (ρ : Valuation μ) (w : ℕ) (e : Exp) (r : I64 × List Exp) :
    Prop :=
  r.1.setWidth w + (r.2.map (·.eval ρ w)).sum = e.eval ρ w

theorem classifyTermsSimple_splits (hdefs : defs.Typed) (hρ : defs.Holds ρ)
    (he : Splits defs w e) : ∃ r, (classifyTermsSimple defs).Returns e r ∧
      SimplySplits ρ w e r := by
  have hw : w ≤ 64 := by
    rw [← he.width]
    exact e.width_le
  refine plain_returns defs (P := Splits defs w) ?_ he
  intro e he
  unfold simpleTermsBody
  split
  · next e1 e2 =>
    obtain ⟨he1, he2⟩ := he.plus
    refine ⟨⟨by simp [splitReads], he2⟩, fun r2 hr2 => ?_⟩
    refine ⟨⟨by simp [splitReads], he1⟩, fun r1 hr1 => ?_⟩
    change (r2.1 + r1.1).setWidth w + ((r1.2 ++ r2.2).map (·.eval ρ w)).sum =
      e1.eval ρ w + e2.eval ρ w
    rw [← hr1, ← hr2, BitVec.setWidth_add _ _ hw, List.map_append,
      List.sum_append, add_comm (r2.1.setWidth w)]
    exact add_add_add_comm _ _ _ _
  · next v =>
    split
    · next d hd =>
      obtain ⟨hsplits, htyp⟩ := he.definition hdefs hd
      refine ⟨⟨by simp [splitReads, hd], hsplits⟩, fun r hr => ?_⟩
      have hr : r.1.setWidth w + (r.2.map (·.eval ρ w)).sum = d.eval ρ w := hr
      rwa [← Definitions.Holds.eval he hρ hd htyp] at hr
    · simp [SimplySplits, Body.Meets, pure]
  · simp [SimplySplits, Body.Meets, pure, Exp.eval]
  · simp [SimplySplits, Body.Meets, pure, Exp.eval]
  · simp [SimplySplits, Body.Meets, pure]

end Split

/-! ## With enough fuel -/

section Fuel

open Filter

variable {opts : AddressOptions} {coin : Exp → Bool} {defs : Definitions}
  {n : ℕ} {e d x y : Exp}

/-- There is a result, unless a strange term has been found. -/
def Settled {α : Type} (opts : AddressOptions) (x : Classified α) : Prop :=
  (∃ a, x = .ok a) ∨ ∃ t y, handleWeirdAddrExpr opts t = .error y ∧
    x = .error (some y)

theorem Settled.bind {α β : Type} {x : Classified α} {f : α → Classified β}
    (hx : Settled opts x) (hf : ∀ a, Settled opts (f a)) :
    Settled opts (x >>= f) := by
  rcases hx with ⟨a, rfl⟩ | ⟨t, y, ht, rfl⟩
  · exact hf a
  · exact .inr ⟨t, y, ht, rfl⟩

theorem Settled.ok {α : Type} (a : α) :
    Settled opts (pure a : Classified α) := .inl ⟨a, rfl⟩

theorem Settled.handleWeirdAddrExpr (e : Exp) :
    Settled opts ((handleWeirdAddrExpr opts e).mapError some) := by
  rcases h : SymRegion.handleWeirdAddrExpr opts e with y | k
  · exact .inr ⟨e, y, h, rfl⟩
  · exact .ok k

/-- The operands of an expression and theirs. -/
def nearOperands (e : Exp) : List Exp :=
  e.operands ++ e.operands.flatMap Exp.operands

theorem mem_nearOperands_iff : d ∈ nearOperands e ↔
    d ∈ e.operands ∨ ∃ c ∈ e.operands, d ∈ c.operands := by
  simp [nearOperands]

theorem typed_nearOperands (he : e.WellTyped) (ha : defs.Agrees e)
    (h : d ∈ nearOperands e) :
    sizeOf d < sizeOf e ∧ d.WellTyped ∧ defs.Agrees d := by
  rcases mem_nearOperands_iff.mp h with h | ⟨c, hc, h⟩
  · exact ⟨Exp.sizeOf_lt_of_mem_operands h, he.operand h, ha.operand h⟩
  · exact ⟨(Exp.sizeOf_lt_of_mem_operands h).trans
      (Exp.sizeOf_lt_of_mem_operands hc), (he.operand hc).operand h,
      (ha.operand hc).operand h⟩

theorem iteArms_near (h : iteArms e = some (x, y)) :
    x ∈ nearOperands e ∧ y ∈ nearOperands e := by
  unfold iteArms at h
  split at h
  all_goals first
    | cases h
      simp [nearOperands, Exp.operands]
    | split_ifs at h
      cases h
      simp [nearOperands, Exp.operands]
    | cases h

theorem zeroArm_near (h : zeroArm e = some x) : x ∈ nearOperands e := by
  unfold zeroArm at h
  split at h
  all_goals cases h
  all_goals simp [nearOperands, Exp.operands]

theorem roundingMask_near (h : roundingMask e = some x) :
    x ∈ nearOperands e := by
  obtain ⟨t, v, rfl⟩ := roundingMask_eq h
  simp [nearOperands, Exp.operands]

theorem Settled.joinArms {classify : Exp → Classified TermKind}
    (hx : Settled opts (classify x)) (hy : Settled opts (classify y)) :
    Settled opts (joinArms classify e x y) :=
  hy.bind fun _ => hx.bind fun _ => .ok _

theorem Settled.classifyWide {classify : Exp → Classified TermKind}
    (h : ∀ d ∈ nearOperands e, Settled opts (classify d)) :
    Settled opts (classifyWide opts classify e) := by
  unfold SymRegion.classifyWide
  split_ifs
  · exact .ok _
  split
  · next hite =>
    obtain ⟨hx, hy⟩ := iteArms_near hite
    exact .joinArms (h _ hx) (h _ hy)
  split
  · next hzero => exact (h _ (zeroArm_near hzero)).bind fun _ => .ok _
  split
  · next hmask => exact h _ (roundingMask_near hmask)
  split
  · exact .joinArms (h _ (by simp [nearOperands, Exp.operands]))
      (h _ (by simp [nearOperands, Exp.operands]))
  · exact .ok _
  · exact .ok _
  · exact .ok _
  · exact .handleWeirdAddrExpr _

theorem eval_eventually {ε κ ν χ : Type} [DecidableEq κ] {S : Scheme ε κ ν χ}
    {e : ε} {r : ν} (h : S.Returns e r) :
    ∀ᶠ n in atTop, S.eval n e = .ok r := by
  obtain ⟨n, hn⟩ := h
  filter_upwards [eventually_ge_atTop n] with m hm
  exact S.eval_mono hm hn

theorem isNarrow_eventually (opts : AddressOptions) {S : Scheme Exp ℤ ℤ Exn}
    {r : ℤ} (h : S.Returns e r) :
    ∀ᶠ n in atTop, Settled opts (isNarrow opts S n e) := by
  filter_upwards [eval_eventually h] with n hn
  rw [isNarrow, hn]
  exact .ok _

theorem isNarrowCast_eventually (opts : AddressOptions) (coin : Exp → Bool)
    (hdefs : defs.Typed) (he : e.WellTyped) (ha : defs.Agrees e) :
    ∀ᶠ n in atTop, Settled opts (isNarrowCast opts coin defs n e) := by
  have hother : ∀ᶠ _ in (atTop : Filter ℕ),
      Settled opts (pure false : Classified Bool) :=
    Eventually.of_forall fun _ => .ok false
  unfold isNarrowCast
  split
  · next t x =>
    have hx : x ∈ (Exp.cast .castSigned t x).operands := by
      simp [Exp.operands]
    obtain ⟨r, hr⟩ :=
      narrowBitwidth_returns coin hdefs (he.operand hx) (ha.operand hx)
    exact isNarrow_eventually opts hr
  · exact hother

theorem classifyTerm_eventually (hdefs : defs.Typed) (he : e.WellTyped)
    (ha : defs.Agrees e) :
    ∀ᶠ n in atTop, Settled opts (classifyTerm opts coin defs n e) := by
  induction hsize : sizeOf e using Nat.strong_induction_on generalizing e with
  | _ m ih =>
    have hnear : ∀ᶠ n in atTop, ∀ d ∈ {d | d ∈ nearOperands e},
        Settled opts (classifyTerm opts coin defs n d) := by
      rw [eventually_all_finite (List.finite_toSet _)]
      intro d hd
      obtain ⟨hlt, htyped, hagrees⟩ := typed_nearOperands he ha hd
      exact ih _ (hsize ▸ hlt) htyped hagrees rfl
    obtain ⟨r1, hr1⟩ := narrowBitwidth_returns coin hdefs he ha
    obtain ⟨r2, hr2⟩ := narrowBitwidthSigned_returns coin hdefs he ha
    have hstep : ∀ᶠ n in atTop,
        Settled opts (classifyTerm opts coin defs (n + 1) e) := by
      filter_upwards [hnear, isNarrow_eventually opts hr1,
        isNarrow_eventually opts hr2,
        isNarrowCast_eventually opts coin hdefs he ha] with n hnear h1 h2 hcast
      unfold classifyTerm
      split
      · exact .ok _
      · exact .ok _
      · split_ifs
        · exact .ok _
        refine h1.bind fun b1 => ?_
        cases b1 with
        | true => exact .ok _
        | false =>
          refine hcast.bind fun b2 => ?_
          cases b2 with
          | true => exact .ok _
          | false =>
            refine h2.bind fun b3 => ?_
            cases b3 with
            | true => exact .ok _
            | false => exact .classifyWide hnear
    obtain ⟨N, hN⟩ := eventually_atTop.mp hstep
    refine eventually_atTop.mpr ⟨N + 1, fun n hn => ?_⟩
    obtain ⟨n, rfl⟩ := Nat.exists_eq_add_of_le' (Nat.le_of_add_left_le hn)
    exact hN n (Nat.le_of_succ_le_succ hn)

theorem mapM_classifyTerm_eventually (hdefs : defs.Typed) {l : List Exp}
    (hl : ∀ d ∈ l, d.WellTyped ∧ defs.Agrees d) :
    ∀ᶠ n in atTop,
      Settled opts (l.mapM (classifyTerm opts coin defs n)) := by
  induction l with
  | nil => exact .of_forall fun _ => .ok []
  | cons d l ih =>
    obtain ⟨hd, hd'⟩ := hl d List.mem_cons_self
    filter_upwards [classifyTerm_eventually hdefs hd hd',
      ih fun d h => hl d (List.mem_cons_of_mem _ h)] with n h1 h2
    rw [List.mapM_cons]
    exact h1.bind fun _ => h2.bind fun _ => .ok _

theorem classifyTerms_eventually {ρ : Valuation μ} (hdefs : defs.Typed)
    (hρ : defs.Holds ρ) (he : e.WellTyped) (ha : defs.Agrees e) :
    ∀ᶠ n in atTop, Settled opts (classifyTerms opts coin defs n e) := by
  have hsplits : Splits defs e.width e := ⟨he, ha, rfl⟩
  obtain ⟨l, hl, htyped, -⟩ :=
    splitTerms_splits opts coin hdefs hρ hsplits
  obtain ⟨r, hr, -⟩ := classifyTermsSimple_splits hdefs hρ hsplits
  filter_upwards [eval_eventually hl, eval_eventually hr,
    mapM_classifyTerm_eventually hdefs htyped] with n hl hr hmap
  unfold classifyTerms
  split
  · exact .ok _
  · rw [hr]
    exact .ok _
  · rw [hl]
    exact hmap.bind fun _ => .ok _

end Fuel

/-! ## The lists of terms -/

section Sum

variable {opts : AddressOptions} {coin : Exp → Bool} {defs : Definitions}
  {ρ : Valuation μ} {w n : ℕ} {e : Exp}

theorem Drops.unique {c c' : BitVec w} (h : Drops opts coin defs ρ w e c)
    (h' : Drops opts coin defs ρ w e c') : c = c' := by
  induction h generalizing c' with
  | plus _ _ ih1 ih2 =>
    cases h' with
    | plus h1 h2 => rw [ih1 h1, ih2 h2]
    | term ht => exact ht.elim
  | highMask hmask _ ih =>
    cases h' with
    | highMask _ h => exact ih h
    | term ht =>
      have ht : isHighMask _ _ = .ok false := ht
      rw [hmask] at ht
      cases ht
  | definition hd _ ih =>
    cases h' with
    | definition hd' h =>
      rw [hd] at hd'
      cases hd'
      exact ih h
    | term ht =>
      have ht : defs.exprTemp _ = none := ht
      rw [hd] at ht
      cases ht
  | term ht =>
    cases h' with
    | plus _ _ => exact ht.elim
    | highMask hmask _ =>
      have ht : isHighMask _ _ = .ok false := ht
      rw [hmask] at ht
      cases ht
    | definition hd _ =>
      have ht : defs.exprTemp _ = none := ht
      rw [hd] at ht
      cases ht
    | term _ => rfl

theorem Terms.sum_push (ts : Terms) (k : TermKind) :
    (ts.push k).sum ρ w = k.value ρ w + ts.sum ρ w := by
  cases k <;> simp [Terms.push, Terms.sum, TermKind.value] <;> abel

theorem Terms.sum_foldl (l : List TermKind) (ts : Terms) :
    (l.foldl Terms.push ts).sum ρ w =
      (l.map (·.value ρ w)).sum + ts.sum ρ w := by
  induction l generalizing ts with
  | nil => simp
  | cons k l ih =>
    rw [List.foldl_cons, ih, sum_push, List.map_cons, List.sum_cons]
    abel

theorem mapM_classifyTerm_value {l : List Exp} {ks : List TermKind}
    (h : l.mapM (classifyTerm opts coin defs n) = .ok ks) :
    (ks.map (·.value ρ w)).sum = termsSum opts coin defs ρ w l := by
  induction l generalizing ks with
  | nil =>
    cases h
    rfl
  | cons d l ih =>
    rw [List.mapM_cons] at h
    obtain ⟨k, hk, h⟩ := bind_ok h
    obtain ⟨ks, hks, h⟩ := bind_ok h
    cases h
    rw [List.map_cons, List.sum_cons, classifyTerm_value hk, ih hks]
    rfl

theorem liftStop_ok {α : Type} {x : Except (Option Exn) α} {a : α}
    (h : liftStop x = .ok a) : x = .ok a := by
  cases x with
  | ok b =>
    cases h
    rfl
  | error y => cases h

theorem classifyTerms_value {ts : Terms} (hdefs : defs.Typed)
    (hρ : defs.Holds ρ) (he : e.WellTyped) (ha : defs.Agrees e)
    (h : classifyTerms opts coin defs n e = .ok ts) :
    ∃ c, ts.sum ρ e.width = e.eval ρ e.width + c ∧
      (c = 0 ∧ (opts.optNoSymRegions = true ∨
          Drops opts coin defs ρ e.width e 0) ∨
        opts.optNoSymRegions = false ∧ Drops opts coin defs ρ e.width e c) := by
  have hsplits : Splits defs e.width e := ⟨he, ha, rfl⟩
  unfold classifyTerms at h
  split at h
  · next t k =>
    cases h
    exact ⟨0, by simp [Terms.sum, Exp.eval], .inl ⟨rfl, .inr (.term trivial)⟩⟩
  · next hsym =>
    obtain ⟨⟨cbase, terms⟩, hrun, h⟩ := bind_ok h
    cases h
    obtain ⟨r, hr, hsum⟩ := classifyTermsSimple_splits hdefs hρ hsplits
    obtain rfl : (cbase, terms) = r :=
      Scheme.Returns.unique ⟨n, liftStop_ok hrun⟩ hr
    refine ⟨0, ?_, .inl ⟨rfl, .inl hsym⟩⟩
    have hsum : cbase.setWidth _ + (terms.map (·.eval ρ _)).sum =
      Exp.eval _ ρ _ := hsum
    rw [add_zero, ← hsum]
    simp only [Terms.sum, List.append_nil]
    split_ifs with hbase
    · simp [hbase]
    · simp
  · next hsym =>
    obtain ⟨terms, hrun, h⟩ := bind_ok h
    obtain ⟨ks, hks, h⟩ := bind_ok h
    cases h
    obtain ⟨l, hl, -, c, hc, hsum⟩ :=
      splitTerms_splits opts coin hdefs hρ hsplits
    obtain rfl : terms = l :=
      Scheme.Returns.unique ⟨n, liftStop_ok hrun⟩ hl
    refine ⟨c, ?_, .inr ⟨hsym, hc⟩⟩
    rw [Terms.sum_foldl, mapM_classifyTerm_value hks, hsum]
    simp [Terms.sum]

/-- The options as they are without any flag. -/
def defaultOptions (arch : Arch) : AddressOptions :=
  ⟨arch, none, false, false, false, false⟩

/-- A word and eight. -/
def fieldAddress : Exp :=
  .binOp .plus (.temp ⟨0, [], .reg32⟩) (.int .reg32 8)

/-- The low word of a register, at 64 bits. -/
def lowWord : Exp :=
  .binOp .bitand (.temp ⟨0, [], .reg64⟩) (.int .reg64 0xffffffff)

end Sum

/-! ## Adding terms up again -/

section SumList

variable {ρ : Valuation μ}

def addrConst (arch : Arch) (addr : I64) : Exp := .int arch.regAddr addr

def sumList (arch : Arch) : List Exp → Exp
  | [] => addrConst arch 0
  | e :: r => r.foldl (.binOp .plus) e

theorem eval_foldl_plus (w : ℕ) (e : Exp) (l : List Exp) :
    (l.foldl (.binOp .plus) e).eval ρ w =
      e.eval ρ w + (l.map (·.eval ρ w)).sum := by
  induction l generalizing e with
  | nil => simp
  | cons d l ih =>
    rw [List.foldl_cons, ih, List.map_cons, List.sum_cons, ← add_assoc]
    rfl

theorem sumList_eval (arch : Arch) (w : ℕ) (l : List Exp) :
    (sumList arch l).eval ρ w = (l.map (·.eval ρ w)).sum := by
  cases l with
  | nil => simp [sumList, addrConst, Exp.eval]
  | cons e r => exact eval_foldl_plus w e r

end SumList

end Fuzzball.SymRegion
