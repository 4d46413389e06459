import Fuzzball.X64FlagCode
import Fuzzball.X64Thunk

/-!
# Correctness of the 64-bit flag code

For a thunk in a block, with or without a guard: when the statements that
`x64_modify_flags` inserts leave the architectural flags.  They do but for two
defects.  The signed product of 64 bits is multiplied without signs, and in a
guarded thunk the carry operand is read where the second operand is.
-/

namespace Fuzzball.Asmir.X64

open Vine X86

variable {μ : Type} [VineMemory μ] {ρ : Valuation μ} {t : Typ}
  {dep1 dep2 : Exp} {ndep cond : Option Exp} {old : Flags} {g : Bool} {n : ℕ}

/-! ## What the code computes -/

/-- The operation of the thunk; VEX has one for the two right shifts. -/
def kindOf {w : ℕ} : Operation w → Kind
  | .add _ _ => .add
  | .sub _ _ => .sub
  | .adc _ _ => .adc
  | .sbb _ _ => .sbb
  | .logic _ => .logic
  | .inc _ => .inc
  | .dec _ => .dec
  | .shl _ _ => .shl
  | .shr _ _ | .sar _ _ => .shr
  | .rol _ _ => .rol
  | .ror _ _ => .ror
  | .umul _ _ => .umul
  | .smul _ _ => .smul

/-- `CC_DEP2` of an operation with carry, at its own width. -/
abbrev withCarry (old : Flags) {w : ℕ} (b : BitVec w) : BitVec w :=
  b ^^^ carryOf w (old .cf)

/-- The flags that the formulas give, where `CC_NDEP` is read right or not. -/
def codeFlags (t : Typ) (misread : Bool) (old : Flags) :
    Operation t.width → Flag → Option Bool
  | .adc a b =>
    if misread then X86.addFlags a (withCarry old b) false
    else X86.addFlags a b (old .cf)
  | .sbb a b =>
    if misread then sbbValues a (withCarry old b) (withCarry old b)
    else X86.subFlags a b (old .cf)
  | .smul a b => multiplyFlags
      (if t = .reg64 then decide (2 ^ 63 ≤ a.toNat * b.toNat)
        else signedOverflow t.width (a.toInt * b.toInt))
  | op => op.flags old

/-- The old carry, as the formulas read it. -/
def ndepValue (t : Typ) (misread : Bool) (old : Flags) (b : BitVec t.width) :
    BitVec t.width :=
  if misread then withCarry old b else carryOf t.width (old .cf)

theorem carryWord_eq (ht : Wide t) :
    carryWord 64 old = (carryOf t.width (old .cf)).setWidth 64 := by
  simp only [Wide, types, List.mem_cons, List.not_mem_nil, or_false] at ht
  unfold carryWord
  rcases ht with rfl | rfl | rfl | rfl <;> cases old .cf <;> rfl

theorem dep2_carry (ht : Wide t) (b : BitVec t.width) :
    b.setWidth 64 ^^^ carryWord 64 old = (withCarry old b).setWidth 64 := by
  rw [withCarry, BitVec.setWidth_xor, carryWord_eq ht]

/-! ## The formulas of an operation -/

/-- The operands of the thunk: what they read, and what they are where the
operation takes effect. -/
structure Stored (ρ : Valuation μ) (n : ℕ) (old : Flags) (g : Bool)
    (op : Operation t.width) (dep1 dep2 : Exp) (ndep cond : Option Exp) :
    Prop where
  reads1 : Dep n dep1
  reads2 : Dep n dep2
  readsN : ∀ e ∈ ndep, Dep n e
  readsC : ∀ c ∈ cond, Dep n c
  guard : Guard ρ g cond
  dep1 : g = true → Denotes ρ dep1 .reg64 (op.dep1 64)
  dep2 : g = true → Denotes ρ dep2 .reg64 (op.dep2 64 old)
  ndep : op.StoresCarry →
    ∃ e ∈ ndep, g = true → Denotes ρ e .reg64 (carryWord 64 old)
  flags : ∀ f, HasFlag ρ f (old f)

/-- The formulas are conditions. -/
def Typed (formulas : Emit FlagExps) : Prop :=
  ∀ n f, ∀ e ∈ (formulas n).value f, e.typ = .reg1

/-- What is shown of the formulas of an operation: where they read, and what
they denote. -/
structure Computes (n : ℕ) (formulas : Emit FlagExps) (ρ : Valuation μ)
    (g : Bool) (old : Flags) (target : Flag → Option Bool) : Prop where
  places : Places n formulas FlagsRead
  typed : Typed formulas
  yields : g = true → ∀ ρ', AgreeOn (Numbered n) ρ ρ' →
    Yields ρ' formulas fun flags => Formulas ρ' old flags target

theorem Stored.denotes1
    {op : Operation t.width} (h : Stored ρ n old g op dep1 dep2 ndep cond)
    (hg : g = true) {ρ' : Valuation μ} (hagree : AgreeOn (Numbered n) ρ ρ') :
    Denotes ρ' dep1 .reg64 (op.dep1 64) :=
  (h.dep1 hg).congr h.reads1.below hagree

theorem Stored.denotes2
    {op : Operation t.width} (h : Stored ρ n old g op dep1 dep2 ndep cond)
    (hg : g = true) {ρ' : Valuation μ} (hagree : AgreeOn (Numbered n) ρ ρ') :
    Denotes ρ' dep2 .reg64 (op.dep2 64 old) :=
  (h.dep2 hg).congr h.reads2.below hagree

/-- The operand that is read for the old carry. -/
theorem Stored.ndepRead
    {op : Operation t.width} (h : Stored ρ n old g op dep1 dep2 ndep cond)
    (ht : Wide t) (hcarry : op.StoresCarry) {b : BitVec t.width}
    (hb : op.dep2 64 old = b.setWidth 64 ^^^ carryWord 64 old) :
    ∃ e, ndepRead cond dep2 ndep = some e ∧ Dep n e ∧
      (g = true → ∀ ρ', AgreeOn (Numbered n) ρ ρ' →
        Denotes ρ' e .reg64
          ((ndepValue t cond.isSome old b).setWidth 64)) := by
  obtain ⟨e, he, hval⟩ := h.ndep hcarry
  obtain rfl : ndep = some e := he
  cases cond with
  | none =>
    refine ⟨e, rfl, h.readsN e rfl, ?_⟩
    intro hg ρ' hagree
    have hden := (hval hg).congr (h.readsN e rfl).below hagree
    rwa [carryWord_eq ht] at hden
  | some c =>
    refine ⟨dep2, rfl, h.reads2, ?_⟩
    intro hg ρ' hagree
    have hden := h.denotes2 hg hagree
    rwa [hb, dep2_carry ht] at hden

section Formulas

variable {a b : BitVec t.width}

theorem adc_computes (ht : Wide t)
    (h : Stored ρ n old g (.adc a b : Operation t.width) dep1 dep2 ndep cond) :
    ∃ formulas, arithFlags .adc t dep1 dep2 (ndepRead cond dep2 ndep) =
      some formulas ∧
      Computes n formulas ρ g old (codeFlags t cond.isSome old (.adc a b)) := by
  obtain ⟨e, heq, hreads, hden⟩ := h.ndepRead ht trivial rfl
  refine ⟨adcFlags t dep1 dep2 e, by rw [heq]; rfl, ?_⟩
  refine ⟨places_adcFlags h.reads1 h.reads2 hreads, ?_, ?_⟩
  · intro m f e' he
    cases f <;> exact Option.some.inj he ▸ rfl
  · intro hg ρ' hagree
    have h1 := h.denotes1 hg hagree
    have h2 := h.denotes2 hg hagree
    have h3 := hden hg ρ' hagree
    rw [Operation.dep2, dep2_carry ht] at h2
    have hyields := adcFlags_yields old ht h1 h2 h3
    have hvalues : adcValues a (withCarry old b) (ndepValue t cond.isSome old b)
        = codeFlags t cond.isSome old (.adc a b) := by
      cases cond.isSome with
      | false => exact adcValues_eq ht a b _
      | true => exact adcValues_misread ht a _
    rwa [hvalues] at hyields

theorem sbb_computes (ht : Wide t)
    (h : Stored ρ n old g (.sbb a b : Operation t.width) dep1 dep2 ndep cond) :
    ∃ formulas, arithFlags .sbb t dep1 dep2 (ndepRead cond dep2 ndep) =
      some formulas ∧
      Computes n formulas ρ g old (codeFlags t cond.isSome old (.sbb a b)) := by
  obtain ⟨e, heq, hreads, hden⟩ := h.ndepRead ht trivial rfl
  refine ⟨sbbFlags t dep1 dep2 e, by rw [heq]; rfl, ?_⟩
  refine ⟨places_sbbFlags h.reads1 h.reads2 hreads, ?_, ?_⟩
  · intro m f e' he
    cases f <;> exact Option.some.inj he ▸ rfl
  · intro hg ρ' hagree
    have h1 := h.denotes1 hg hagree
    have h2 := h.denotes2 hg hagree
    have h3 := hden hg ρ' hagree
    rw [Operation.dep2, dep2_carry ht] at h2
    have hyields := sbbFlags_yields old ht h1 h2 h3
    have hvalues : sbbValues a (withCarry old b) (ndepValue t cond.isSome old b)
        = codeFlags t cond.isSome old (.sbb a b) := by
      cases cond.isSome with
      | false => exact sbbValues_eq ht a b _
      | true => rfl
    rwa [hvalues] at hyields

theorem denotes_word {e : Exp} {x : BitVec Typ.reg64.width}
    (h : Denotes ρ e .reg64 (x.setWidth 64)) : Denotes ρ e .reg64 x := by
  have hx : x.setWidth 64 = x := BitVec.setWidth_eq x
  rwa [hx] at h

theorem umul_computes (ht : Wide t)
    (h : Stored ρ n old g (.umul a b : Operation t.width) dep1 dep2 ndep
      cond) :
    Computes n (if t = .reg64 then umulqFlags dep1 dep2
      else umulNarrowFlags t dep1 dep2) ρ g old
      (multiplyFlags (decide (2 ^ t.width ≤ a.toNat * b.toNat))) := by
  split_ifs with h64
  · subst h64
    refine ⟨places_umulqFlags h.reads1 h.reads2, ?_, ?_⟩
    · intro m f e he
      cases f <;> exact Option.some.inj he ▸ rfl
    · intro hg ρ' hagree
      exact umulqFlags_yields (denotes_word (h.denotes1 hg hagree))
        (denotes_word (h.denotes2 hg hagree))
  · refine ⟨places_umulNarrowFlags h.reads1 h.reads2, ?_, ?_⟩
    · intro m f e he
      cases f <;> exact Option.some.inj he ▸ rfl
    · intro hg ρ' hagree
      exact umulNarrowFlags_yields ht h64 (h.denotes1 hg hagree)
        (h.denotes2 hg hagree)

theorem smul_computes (ht : Wide t)
    (h : Stored ρ n old g (.smul a b : Operation t.width) dep1 dep2 ndep
      cond) :
    Computes n (if t = .reg64 then smulqFlags dep1 dep2
      else smulNarrowFlags t dep1 dep2) ρ g old
      (codeFlags t cond.isSome old (.smul a b)) := by
  change Computes n _ ρ g old (multiplyFlags (if t = .reg64
    then decide (2 ^ 63 ≤ a.toNat * b.toNat)
    else signedOverflow t.width (a.toInt * b.toInt)))
  split_ifs with h64
  · subst h64
    refine ⟨places_smulqFlags h.reads1 h.reads2, ?_, ?_⟩
    · intro m f e he
      cases f <;> exact Option.some.inj he ▸ rfl
    · intro hg ρ' hagree
      exact smulqFlags_yields (denotes_word (h.denotes1 hg hagree))
        (denotes_word (h.denotes2 hg hagree))
  · refine ⟨places_smulNarrowFlags h.reads1 h.reads2, ?_, ?_⟩
    · intro m f e he
      cases f <;> exact Option.some.inj he ▸ rfl
    · intro hg ρ' hagree
      exact smulNarrowFlags_yields ht h64 (h.denotes1 hg hagree)
        (h.denotes2 hg hagree)

end Formulas

/-- Every operation has formulas, with the flags above. -/
theorem arithFlags_computes (ht : Wide t)
    {op : Operation t.width} (h : Stored ρ n old g op dep1 dep2 ndep cond) :
    ∃ formulas, arithFlags (kindOf op) t dep1 dep2 (ndepRead cond dep2 ndep) =
      some formulas ∧
      Computes n formulas ρ g old (codeFlags t cond.isSome old op) := by
  cases op with
  | adc a b => exact adc_computes ht h
  | sbb a b => exact sbb_computes ht h
  | umul a b => exact ⟨_, rfl, umul_computes ht h⟩
  | smul a b => exact ⟨_, rfl, smul_computes ht h⟩
  | add a b =>
    refine ⟨_, rfl, places_addFlags h.reads1 h.reads2, ?_, ?_⟩
    · intro m f e he
      cases f <;> exact Option.some.inj he ▸ rfl
    · intro hg ρ' hagree
      exact addFlags_yields ht (h.denotes1 hg hagree) (h.denotes2 hg hagree)
  | sub a b =>
    refine ⟨_, rfl, places_subFlags h.reads1 h.reads2, ?_, ?_⟩
    · intro m f e he
      cases f <;> exact Option.some.inj he ▸ rfl
    · intro hg ρ' hagree
      exact subFlags_yields ht (h.denotes1 hg hagree) (h.denotes2 hg hagree)
  | logic r =>
    refine ⟨_, rfl, places_logicFlags h.reads1, ?_, ?_⟩
    · intro m f e he
      cases f <;> exact Option.some.inj he ▸ rfl
    · intro hg ρ' hagree
      exact logicFlags_yields ht (h.denotes1 hg hagree)
  | inc a =>
    refine ⟨_, rfl, places_incFlags h.reads1, ?_, ?_⟩
    · intro m f e he
      cases f <;> first
        | exact Option.some.inj he ▸ rfl
        | exact absurd (Eq.symm he) (Option.some_ne_none e)
    · intro hg ρ' hagree
      exact incFlags_yields ht (h.denotes1 hg hagree)
  | dec a =>
    refine ⟨_, rfl, places_decFlags h.reads1, ?_, ?_⟩
    · intro m f e he
      cases f <;> first
        | exact Option.some.inj he ▸ rfl
        | exact absurd (Eq.symm he) (Option.some_ne_none e)
    · intro hg ρ' hagree
      exact decFlags_yields ht (h.denotes1 hg hagree)
  | shl a k =>
    refine ⟨_, rfl, places_shlFlags h.reads1 h.reads2, ?_, ?_⟩
    · intro m f e he
      cases f <;> exact Option.some.inj he ▸ rfl
    · intro hg ρ' hagree
      exact shlFlags_yields ht (h.denotes1 hg hagree) (h.denotes2 hg hagree)
  | shr a k =>
    refine ⟨_, rfl, places_shrFlags h.reads1 h.reads2, ?_, ?_⟩
    · intro m f e he
      cases f <;> exact Option.some.inj he ▸ rfl
    · intro hg ρ' hagree
      exact shrFlags_yields_shr ht (h.denotes1 hg hagree)
        (h.denotes2 hg hagree)
  | sar a k =>
    refine ⟨_, rfl, places_shrFlags h.reads1 h.reads2, ?_, ?_⟩
    · intro m f e he
      cases f <;> exact Option.some.inj he ▸ rfl
    · intro hg ρ' hagree
      exact shrFlags_yields_sar ht (h.denotes1 hg hagree)
        (h.denotes2 hg hagree)
  | rol a k =>
    refine ⟨_, rfl, places_rolFlags h.reads1, ?_, ?_⟩
    · intro m f e he
      cases f <;> first
        | exact Option.some.inj he ▸ rfl
        | exact absurd (Eq.symm he) (Option.some_ne_none e)
    · intro hg ρ' hagree
      exact rolFlags_yields ht (h.denotes1 hg hagree)
  | ror a k =>
    refine ⟨_, rfl, places_rorFlags h.reads1, ?_, ?_⟩
    · intro m f e he
      cases f <;> first
        | exact Option.some.inj he ▸ rfl
        | exact absurd (Eq.symm he) (Option.some_ne_none e)
    · intro hg ρ' hagree
      exact rorFlags_yields ht (h.denotes1 hg hagree)

/-! ## Execution -/

/-- A condition is true or false. -/
theorem formulaHolds_of_typ
    {o : Bool} {e : Option Exp} (he : ∀ c ∈ e, c.typ = .reg1) :
    FormulaHolds ρ o e none := by
  cases e with
  | none => exact fun _ hb => nomatch hb
  | some c =>
    refine ⟨c.eval ρ 1 == 1, ?_, fun _ hb => nomatch hb⟩
    refine ⟨he c rfl, rfl, ?_⟩
    have hbit : ∀ x : BitVec 1, x = flag 1 (x == 1) := by decide
    exact hbit _

/-- The code leaves the flags that the formulas give, and the old ones where
the guard is false. -/
theorem Computes.exec
    {formulas : Emit FlagExps} {target : Flag → Option Bool}
    (h : Computes n formulas ρ g old target) (hcond : ∀ c ∈ cond, Dep n c)
    (hguard : Guard ρ g cond) (hold : ∀ f, HasFlag ρ f (old f)) :
    FlagsHold (exec ((formulas >>= assignFlags cond) n).stmts ρ)
      (guardedFlags g old target) := by
  cases g with
  | true => exact flagCode_exec h.places (h.yields rfl) hcond hguard hold
  | false =>
    have hkeep : guardedFlags false old target =
        guardedFlags false old fun _ => none := rfl
    rw [hkeep]
    apply flagCode_exec h.places _ hcond hguard hold
    intro ρ' _
    constructor
    intro m _ f
    exact formulaHolds_of_typ (h.typed m f)

theorem flagsHold_iff
    {ρ' : Valuation μ} {target target' : Flag → Option Bool}
    (hcode : FlagsHold ρ' target)
    (hdef : ∀ f, (target' f).isSome → (target f).isSome) :
    FlagsHold ρ' target' ↔ ∀ f b, target' f = some b → target f = some b := by
  constructor
  · intro h f b hb
    obtain ⟨b', hb'⟩ := Option.isSome_iff_exists.mp (hdef f (by rw [hb]; rfl))
    have heq := (hcode f b' hb').eval.symm.trans (h f b hb).eval
    have hbits : ∀ p q : Bool, flag 1 p = flag 1 q → p = q := by decide
    rw [hb', hbits b' b heq]
  · intro h f b hb
    exact hcode f b (h f b hb)

/-! ## Operations that miss the defects -/

/-- Where `CC_DEP2` does for the carry: with the sum or the difference that
its value gives instead, no flag changes.  A product of 64 bits needs operands
without signs, or signs that do not matter. -/
def Meets (t : Typ) (guarded : Bool) (old : Flags) :
    Operation t.width → Prop
  | .adc a b => guarded = true →
    X86.addFlags a (withCarry old b) false = X86.addFlags a b (old .cf)
  | .sbb a b => guarded = true →
    let zero := (withCarry old b).getLsbD 0 = true ∧ a = 0
    (zero ↔ a.toNat < b.toNat + (old .cf).toNat) ∧
    (a.toInt < 0 ∨ zero ↔ a.toInt < b.toInt + (old .cf).toNat) ∧
    ∀ f, f ≠ .cf → f ≠ .of →
      X86.subFlags a (withCarry old b) false f = X86.subFlags a b (old .cf) f
  | .smul a b => t = .reg64 →
    0 ≤ a.toInt ∧ 0 ≤ b.toInt ∨ a = 0 ∨ b = 0 ∨
      signedOverflow t.width (a.toInt * b.toInt) = true
  | _ => True

section Meets

variable {a b : BitVec t.width}

/-- The difference from the second argument has the flags that are read from
the result. -/
theorem sbbValues_misread (ht : Wide t) (a e : BitVec t.width) {f : Flag}
    (hcf : f ≠ .cf) (hof : f ≠ .of) :
    sbbValues a e e f = X86.subFlags a e false f := by
  have hw := ht.le
  have hdiff : a - (e ^^^ e) - e = difference a e false := by
    rw [BitVec.xor_self, BitVec.sub_zero, difference_false]
  simp only [sbbValues, hdiff]
  cases f with
  | cf => exact absurd rfl hcf
  | of => exact absurd rfl hof
  | af => exact congrArg some (auxiliaryBorrow_eq (by omega) a e false)
  | pf | zf | sf => rfl

theorem sbbValues_carry (a e : BitVec t.width) :
    sbbValues a e e .cf = some (decide (e.getLsbD 0 = true ∧ a = 0)) := by
  apply congrArg some
  rw [BitVec.xor_self]
  cases e.getLsbD 0 <;> simp [BitVec.ule, BitVec.ult, ← BitVec.toNat_inj]

theorem sbbValues_overflow (a e : BitVec t.width) :
    sbbValues a e e .of = some ((a - e).msb ^^
      decide (a.toInt < 0 ∨ e.getLsbD 0 = true ∧ a = 0)) := by
  apply congrArg some
  have hzero : a.toInt = 0 ↔ a = 0 := by
    have h := BitVec.toInt_inj (x := a) (y := 0#t.width)
    rwa [BitVec.toInt_zero] at h
  rw [BitVec.xor_self, BitVec.sub_zero]
  cases e.getLsbD 0 with
  | false => simp [BitVec.slt]
  | true => simp [BitVec.sle, le_iff_lt_or_eq, hzero]

theorem meets_sbb (ht : Wide t) :
    Meets t true old (.sbb a b) ↔
      sbbValues a (withCarry old b) (withCarry old b) =
        X86.subFlags a b (old .cf) := by
  have hw := ht.le
  have hpos : 0 < t.width := by omega
  have hover := subOverflow_eq_slt hpos a b (old .cf)
  rw [signedBorrow_eq] at hover
  have hcarry := sbbValues_carry a (withCarry old b)
  have hof := sbbValues_overflow a (withCarry old b)
  have hsf : X86.subFlags a (withCarry old b) false .sf =
      some (a - withCarry old b).msb := by
    rw [← difference_false]
    rfl
  constructor
  · intro h
    obtain ⟨hcf, hlt, hrest⟩ := h rfl
    funext f
    cases f
    case cf =>
      rw [hcarry]
      exact congrArg some (decide_eq_decide.mpr hcf)
    case of =>
      have hsign : some (a - withCarry old b).msb =
          some (difference a b (old .cf)).msb :=
        hsf.symm.trans (hrest .sf (by decide) (by decide))
      rw [hof, Option.some.inj hsign, decide_eq_decide.mpr hlt]
      exact congrArg some hover
    all_goals
      rw [sbbValues_misread ht a _ (by decide) (by decide)]
      exact hrest _ (by decide) (by decide)
  · intro h _
    have hrest : ∀ f, f ≠ .cf → f ≠ .of →
        X86.subFlags a (withCarry old b) false f =
          X86.subFlags a b (old .cf) f := by
      intro f hf hf'
      rw [← sbbValues_misread ht a _ hf hf', h]
    refine ⟨?_, ?_, hrest⟩
    · rw [h] at hcarry
      exact (decide_eq_decide.mp (Option.some.inj hcarry)).symm
    · have hsign : some (a - withCarry old b).msb =
          some (difference a b (old .cf)).msb :=
        hsf.symm.trans (hrest .sf (by decide) (by decide))
      rw [h, Option.some.inj hsign] at hof
      have heq := hover.trans (Option.some.inj hof)
      rw [Bool.xor_right_inj] at heq
      exact (decide_eq_decide.mp heq).symm

/-- A negative factor is at least `2 ^ 63` without its sign. -/
theorem le_toNat_of_neg {a : BitVec 64} (ha : a.toInt < 0) :
    2 ^ 63 ≤ a.toNat := by
  have hint := toInt_of_msb (by decide) a
  have hmsb := BitVec.msb_eq_decide a
  split_ifs at hint with h
  · rw [h, true_eq_decide_iff] at hmsb
    exact hmsb
  · omega

theorem smul_overflow_iff (a b : BitVec 64) :
    decide (2 ^ 63 ≤ a.toNat * b.toNat) =
        signedOverflow 64 (a.toInt * b.toInt) ↔
      0 ≤ a.toInt ∧ 0 ≤ b.toInt ∨ a = 0 ∨ b = 0 ∨
        signedOverflow 64 (a.toInt * b.toInt) = true := by
  by_cases hnonneg : 0 ≤ a.toInt ∧ 0 ≤ b.toInt
  · have hcast : ∀ x : BitVec 64, 0 ≤ x.toInt → x.toInt = (x.toNat : ℤ) := by
      intro x hx
      rw [BitVec.toInt_eq_toNat_cond] at hx ⊢
      split_ifs at hx ⊢ <;> omega
    have hoverflow : ∀ n : ℕ,
        decide (2 ^ 63 ≤ n) = signedOverflow 64 (n : ℤ) := by
      intro n
      rw [signedOverflow, decide_eq_decide]
      omega
    have heq : decide (2 ^ 63 ≤ a.toNat * b.toNat) =
        signedOverflow 64 (a.toInt * b.toInt) := by
      rw [hcast a hnonneg.1, hcast b hnonneg.2, hoverflow, Nat.cast_mul]
    exact iff_of_true heq (.inl hnonneg)
  · by_cases hzero : a = 0 ∨ b = 0
    · have heq : decide (2 ^ 63 ≤ a.toNat * b.toNat) =
          signedOverflow 64 (a.toInt * b.toInt) := by
        rcases hzero with rfl | rfl
        · simp [signedOverflow]
        · simp [signedOverflow]
      have hright : 0 ≤ a.toInt ∧ 0 ≤ b.toInt ∨ a = 0 ∨ b = 0 ∨
          signedOverflow 64 (a.toInt * b.toInt) = true :=
        .inr (or_assoc.mp (.inl hzero))
      exact iff_of_true heq hright
    · rw [not_or] at hzero
      have hpos : ∀ x : BitVec 64, x ≠ 0 → 0 < x.toNat := by
        intro x hx
        have hne := mt BitVec.eq_of_toNat_eq hx
        exact Nat.pos_of_ne_zero hne
      have ha := hpos a hzero.1
      have hb := hpos b hzero.2
      have hlarge : 2 ^ 63 ≤ a.toNat * b.toNat := by
        rcases not_and_or.mp hnonneg with hneg | hneg
        · have hle := le_toNat_of_neg (not_le.mp hneg)
          exact hle.trans (Nat.le_mul_of_pos_right _ hb)
        · have hle := le_toNat_of_neg (not_le.mp hneg)
          exact hle.trans (Nat.le_mul_of_pos_left _ ha)
      rw [decide_eq_true hlarge, eq_comm]
      simp only [hnonneg, hzero.1, hzero.2, false_or]

theorem multiplyFlags_le_iff (o o' : Bool) :
    (∀ f b, multiplyFlags o f = some b → multiplyFlags o' f = some b) ↔
      o' = o := by
  constructor
  · intro h
    exact Option.some.inj (h .cf o rfl)
  · rintro rfl f b hb
    exact hb

end Meets

/-- The flags that are defined have a value in the code. -/
theorem codeFlags_isSome (guarded : Bool) (op : Operation t.width) (f : Flag)
    (h : (op.flags old f).isSome) : (codeFlags t guarded old op f).isSome := by
  cases op with
  | adc a b => cases guarded <;> cases f <;> rfl
  | sbb a b => cases guarded <;> cases f <;> rfl
  | smul a b =>
    cases f
    case cf | of => rfl
    all_goals exact absurd h Bool.false_ne_true
  | _ => exact h

theorem meets_iff (ht : Wide t) (guarded : Bool) (op : Operation t.width) :
    Meets t guarded old op ↔
      ∀ f b, op.flags old f = some b →
        codeFlags t guarded old op f = some b := by
  have htotal : ∀ {target target' : Flag → Option Bool},
      (∀ f, (target' f).isSome) →
      (target = target' ↔ ∀ f b, target' f = some b → target f = some b) := by
    intro target target' hsome
    constructor
    · rintro rfl f b hb
      exact hb
    · intro h
      funext f
      obtain ⟨b, hb⟩ := Option.isSome_iff_exists.mp (hsome f)
      rw [h f b hb, hb]
  cases op with
  | adc a b =>
    cases guarded with
    | false => exact ⟨fun _ _ _ hb => hb, fun _ hg => nomatch hg⟩
    | true =>
      have hmeets : Meets t true old (.adc a b) ↔ X86.addFlags a
          (withCarry old b) false = X86.addFlags a b (old .cf) :=
        ⟨fun h => h rfl, fun h _ => h⟩
      rw [hmeets]
      apply htotal
      intro f
      cases f <;> rfl
  | sbb a b =>
    cases guarded with
    | false => exact ⟨fun _ _ _ hb => hb, fun _ hg => nomatch hg⟩
    | true =>
      rw [meets_sbb ht]
      apply htotal
      intro f
      cases f <;> rfl
  | smul a b =>
    by_cases h64 : t = .reg64
    · subst h64
      have hmeets : Meets .reg64 guarded old (.smul a b) ↔
          0 ≤ a.toInt ∧ 0 ≤ b.toInt ∨ a = 0 ∨ b = 0 ∨
            signedOverflow 64 (a.toInt * b.toInt) = true :=
        ⟨fun h => h rfl, fun h _ => h⟩
      exact hmeets.trans ((smul_overflow_iff a b).symm.trans
        (multiplyFlags_le_iff _ _).symm)
    · apply iff_of_true
      · exact fun h => absurd h h64
      · intro f b' hb'
        rw [codeFlags, if_neg h64]
        exact hb'
  | _ => exact ⟨fun _ _ _ hb => hb, fun _ => trivial⟩

/-! ## The inserted statements -/

theorem wide_of_ccOp {op : ℤ} {kind : Kind}
    (h : ccOp op = .ok (.arith kind t)) : Wide t := by
  have hmem : CcOp.arith kind t ∈ ccOps := by
    unfold ccOp at h
    split at h
    · split at h
      · next code e he =>
        obtain rfl : e = .arith kind t := Except.ok.inj h
        exact List.mem_of_getElem? he
      · exact nomatch h
    · exact nomatch h
  simp only [ccOps, arithOps, List.mem_cons, List.mem_append,
    List.mem_flatMap, List.mem_map, List.mem_replicate, reduceCtorEq, false_or,
    and_false, or_false, CcOp.arith.injEq] at hmem
  obtain ⟨k, -, u, hu, -, rfl⟩ := hmem
  exact hu

section Block

variable {ir : List BlockStmt} {code : I64} {opSt dep1St dep2St : ℕ}
  {ndepSt : Option ℕ}

/-- The translation inserts the code of the formulas. -/
theorem x64ModifyFlags_holds (op : Operation t.width)
    (hthunk : HasThunk ir cond code dep1 dep2 ndep opSt dep1St dep2St ndepSt)
    (hcode : ccOp (toInt32 code) = .ok (.arith (kindOf op) t))
    (h : Stored ρ n old g op dep1 dep2 ndep cond) :
    ∃ ins, x64ModifyFlags ir n = .ok (some ins) ∧
      FlagsHold (exec ins.stmts ρ)
        (guardedFlags g old (codeFlags t cond.isSome old op)) := by
  have ht := wide_of_ccOp hcode
  obtain ⟨formulas, hformulas, hcomputes⟩ := arithFlags_computes ht h
  refine ⟨⟨insertLoc opSt dep1St dep2St ndepSt,
    ((formulas >>= assignFlags cond) n).stmts⟩, ?_, ?_⟩
  · simp only [x64ModifyFlags, selectThunk_eq hthunk, hcode, hformulas, bind,
      Except.bind, pure, Except.pure]
  · exact hcomputes.exec h.readsC h.guard h.flags

/-- Where the operation takes effect its flags are right if and only if it
meets the condition; where it does not every flag is left. -/
theorem x64ModifyFlags_exact (op : Operation t.width)
    (hthunk : HasThunk ir cond code dep1 dep2 ndep opSt dep1St dep2St ndepSt)
    (hcode : ccOp (toInt32 code) = .ok (.arith (kindOf op) t))
    (h : Stored ρ n old g op dep1 dep2 ndep cond) :
    ∃ ins, x64ModifyFlags ir n = .ok (some ins) ∧
      (FlagsHold (exec ins.stmts ρ) (guardedFlags g old (op.flags old)) ↔
        (g = true → Meets t cond.isSome old op)) := by
  obtain ⟨ins, hins, hexec⟩ := x64ModifyFlags_holds op hthunk hcode h
  refine ⟨ins, hins, ?_⟩
  have hdef : ∀ f, (guardedFlags g old (op.flags old) f).isSome →
      (guardedFlags g old (codeFlags t cond.isSome old op) f).isSome := by
    intro f hf
    cases g with
    | false => rfl
    | true => exact codeFlags_isSome _ op f hf
  rw [flagsHold_iff hexec hdef]
  cases g with
  | false => exact iff_of_true (fun _ _ hb => hb) fun hg => nomatch hg
  | true =>
    rw [meets_iff (wide_of_ccOp hcode)]
    exact ⟨fun hall _ => hall, fun hall => hall rfl⟩

end Block

/-! ## A signed product of 64 bits -/

/-- A block with the thunk of `imul` on two constants. -/
def imulBlock (a b : I64) : List BlockStmt :=
  [.move (.temp ⟨-7, rCcOp, .reg64⟩) (.int .reg64 52),
    .move (.temp ⟨-8, rCcDep1, .reg64⟩) (.int .reg64 a),
    .move (.temp ⟨-9, rCcDep2, .reg64⟩) (.int .reg64 b), .other, .other]

/-- What the block moves to temporaries. -/
theorem imulBlock_move {a b : I64} {j : ℕ} {v : Var} {rhs : Exp}
    (h : (imulBlock a b)[j]? = some (.move (.temp v) rhs)) :
    j = 0 ∧ v.name = rCcOp ∨ j = 1 ∧ v.name = rCcDep1 ∨
      j = 2 ∧ v.name = rCcDep2 := by
  match j with
  | 0 =>
    cases h
    exact .inl ⟨rfl, rfl⟩
  | 1 =>
    cases h
    exact .inr (.inl ⟨rfl, rfl⟩)
  | 2 =>
    cases h
    exact .inr (.inr ⟨rfl, rfl⟩)
  | 3 | 4 => exact absurd h (by simp [imulBlock])
  | j + 5 => exact absurd h (by simp [imulBlock])

theorem imulBlock_hasThunk (a b : I64) :
    HasThunk (imulBlock a b) none 52 (.int .reg64 a) (.int .reg64 b) none
      0 1 2 none := by
  have honce : ∀ {i : ℕ} {reg : OString},
      (i = 0 ∧ reg = rCcOp ∨ i = 1 ∧ reg = rCcDep1 ∨ i = 2 ∧ reg = rCcDep2) →
      ∀ (j : ℕ) (v : Var) (rhs : Exp),
        (imulBlock a b)[j]? = some (.move (.temp v) rhs) → v.name = reg →
          j = i := by
    intro i reg hi j v rhs h hname
    have hj := imulBlock_move h
    rw [hname] at hj
    rcases hi with ⟨rfl, rfl⟩ | ⟨rfl, rfl⟩ | ⟨rfl, rfl⟩
    · simpa [show rCcOp ≠ rCcDep1 by decide, show rCcOp ≠ rCcDep2 by decide]
        using hj
    · simpa [show rCcDep1 ≠ rCcOp by decide, show rCcDep1 ≠ rCcDep2 by decide]
        using hj
    · simpa [show rCcDep2 ≠ rCcOp by decide, show rCcDep2 ≠ rCcDep1 by decide]
        using hj
  refine ⟨by simp [imulBlock], ⟨.reg64, ?_⟩, ?_, ?_, ?_⟩
  · exact ⟨_, ⟨⟨_, rfl, rfl⟩, honce (.inl ⟨rfl, rfl⟩)⟩, rfl⟩
  · exact ⟨_, ⟨⟨_, rfl, rfl⟩, honce (.inr (.inl ⟨rfl, rfl⟩))⟩, rfl⟩
  · exact ⟨_, ⟨⟨_, rfl, rfl⟩, honce (.inr (.inr ⟨rfl, rfl⟩))⟩, rfl⟩
  · intro j v rhs h hname
    have hj := imulBlock_move h
    rw [hname] at hj
    simp [show rCcNdep ≠ rCcOp by decide, show rCcNdep ≠ rCcDep1 by decide,
      show rCcNdep ≠ rCcDep2 by decide] at hj

theorem imulBlock_stored (a b : I64) :
    Stored Valuation.zero 0 (fun _ => false) true
      (.smul a b : Operation Typ.reg64.width) (.int .reg64 a) (.int .reg64 b)
      none none := by
  have hword : ∀ x : I64, Denotes Valuation.zero (.int .reg64 x) .reg64
      ((x : BitVec Typ.reg64.width).setWidth 64) :=
    fun x => ⟨rfl, rfl, rfl⟩
  refine ⟨trivial, trivial, ?_, ?_, rfl, ?_, ?_, ?_, ?_⟩
  · exact fun _ he => nomatch he
  · exact fun _ he => nomatch he
  · exact fun _ => hword a
  · exact fun _ => hword b
  · exact fun h => h.elim
  · intro f
    cases f <;> exact ⟨rfl, rfl, rfl⟩

/-- `-1` times `1` does not overflow, but the code sets the flag. -/
theorem x64ModifyFlags_imul_misses :
    ∃ ins, x64ModifyFlags (imulBlock (-1) 1) 0 = .ok (some ins) ∧
      ¬FlagsHold (exec ins.stmts Valuation.zero)
        ((Operation.smul (-1 : I64) 1).flags fun _ => false) := by
  obtain ⟨ins, hins, hexec⟩ := x64ModifyFlags_holds
    (.smul (-1) 1 : Operation Typ.reg64.width)
    (imulBlock_hasThunk (-1) 1) rfl (imulBlock_stored (-1) 1)
  refine ⟨ins, hins, ?_⟩
  intro hright
  have hset := (hexec .cf true rfl).eval
  have hclear := (hright .cf false rfl).eval
  exact absurd (hset.symm.trans hclear) (by decide)

/-- `3` times `5` is right. -/
theorem x64ModifyFlags_exact_imul :
    ∃ ins, x64ModifyFlags (imulBlock 3 5) 0 = .ok (some ins) ∧
      FlagsHold (exec ins.stmts Valuation.zero)
        ((Operation.smul (3 : I64) 5).flags fun _ => false) := by
  obtain ⟨ins, hins, hiff⟩ := x64ModifyFlags_exact
    (.smul 3 5 : Operation Typ.reg64.width)
    (imulBlock_hasThunk 3 5) rfl (imulBlock_stored 3 5)
  refine ⟨ins, hins, hiff.mpr ?_⟩
  exact fun _ _ => .inl ⟨by decide, by decide⟩

end Fuzzball.Asmir.X64
