import Fuzzball.SmtWords

/-!
# Which expressions are translated to SMT-LIB with their meaning

All parts of an expression keep their values in the query exactly when none of
them is one of a list of forms that the printer gets wrong or does not print.
-/

namespace Fuzzball.SmtLib

open Vine

variable {μ : Type*} [VineMemory μ]

section Nodes

variable {coin : Exp → Bool} {vs : List Var} {s : Scope μ}

/-! ## Binary operations -/

theorem translated_binOp_iff {op : BinopType} {e1 e2 : Exp}
    (hw : (Exp.binOp op e1 e2).WellTyped) (hn : (Exp.binOp op e1 e2).Normal)
    (hdiv : DivisorNonzero (.binOp op e1 e2) s)
    (h1 : Everywhere vs (Translated coin vs) e1 s)
    (h2 : Everywhere vs (Translated coin vs) e2 s) :
    Translated coin vs (.binOp op e1 e2) s ↔
      Readable vs (.binOp op e1 e2) s := by
  obtain ⟨o, hform⟩ : ∃ o, specialForm coin op e1 e2 = .ok o :=
    specialForm_ok hw
  cases o with
  | some form =>
    obtain ⟨rfl, -, -⟩ := specialForm_eq_some hform
    exact iff_of_true (translated_form hform hw hn h1 h2) trivial
  | none =>
    by_cases hop : Resizes op
    · rw [translated_shift_iff hop hw.1 hw.2.1 hform h1.here h2.here]
      cases op <;> first | exact hop.elim | rfl
    by_cases ht : e1.typ = .reg1
    · have hcat : op ≠ .concat := by
        rintro rfl
        obtain ⟨-, -, -, hreg⟩ := hw
        rw [ht] at hreg
        simp at hreg
      exact translated_bool_iff hop hcat hw hform ht hdiv h1.here h2.here
    · refine iff_of_true
        (translated_bits hop hw hform ht h1.here h2.here) ?_
      cases op <;> first
        | exact ht
        | exact absurd trivial hop
        | exact fun heq => absurd heq ht
        | trivial

/-! ## Lets and accesses -/

theorem translated_let {v : Var} {e1 e2 : Exp}
    (h1 : Translated coin vs e1 s)
    (h2 : Translated coin vs e2 (s.bind vs v e1)) :
    Translated coin vs (.letTemp v e1 e2) s := by
  obtain ⟨q1, hq1, hval1⟩ := h1
  obtain ⟨q2, hq2, hval2⟩ := h2
  refine translated_of_ok (q := .letIn (trVar vs v) q1 q2) ?_ ?_
  · rw [translateExp, hq1, OCaml.ok_bind, hq2]
    rfl
  · rw [Smt.Term.denote, hval1]
    exact hval2

/-- The index that an access is printed with. -/
def printedIndex (m : ℤ) (w : ℕ) (q : Query) : Query :=
  if m = w then q else .extract (m - 1) 0 q

omit [VineMemory μ] in
theorem denote_printedIndex {m w : ℕ} {q : Query} {x : BitVec w}
    (hm : 0 < m) (hle : m ≤ w) (hq : q.denote s.env = some (.bits w x)) :
    (printedIndex m w q).denote s.env = some (.bits m (x.setWidth m)) := by
  unfold printedIndex
  split_ifs with h
  · obtain rfl : m = w := Int.ofNat.inj h
    rw [hq, BitVec.setWidth_eq]
  · have hext := denote_extract (j := 0) hm (by omega) hq
    simpa using hext

omit [VineMemory μ] in
/-- An index of bits that a read succeeds with is one of the array's width. -/
theorem denote_select {m : ℤ} {w : ℕ} {q : Query} {x : BitVec w}
    {name : OString} {r : Smt.Value} (hw : 0 < w)
    (hq : q.denote s.env = some (.bits w x))
    (h : (Smt.Term.select (.symbol name) (printedIndex m w q)).denote s.env =
      some r) :
    ∃ k : ℕ, m = k ∧ 0 < k ∧ k ≤ w ∧ ∃ a, s.env name = some (.array k a) ∧
      a (x.setWidth k) = r := by
  simp only [Smt.Term.denote, Option.bind_eq_bind, Option.bind_eq_some_iff] at h
  obtain ⟨c, hc, i, hi, hsel⟩ := h
  have hrange : ∃ k : ℕ, m = k ∧ 0 < k ∧ k ≤ w := by
    unfold printedIndex at hi
    split_ifs at hi with hm
    · exact ⟨w, hm, hw, le_rfl⟩
    · simp only [Smt.Term.denote, hq, Option.bind_eq_bind, Option.bind_some,
        Smt.Value.extract] at hi
      split_ifs at hi with hin
      exact ⟨m.toNat, by omega, by omega, by omega⟩
  obtain ⟨k, rfl, hk, hkw⟩ := hrange
  rw [denote_printedIndex hk hkw hq] at hi
  cases hi
  cases c with
  | bool b => cases hsel
  | bits w' y => cases hsel
  | array m a =>
    rw [Smt.Value.select] at hsel
    split_ifs at hsel with hkm
    cases hsel
    subst hkm
    refine ⟨k, rfl, hk, hkw, a, hc, ?_⟩
    rw [BitVec.setWidth_eq]

omit [VineMemory μ] in
/-- A Boolean is no index. -/
theorem denote_select_bool {m : ℤ} {w : ℕ} {q : Query} {b : Bool}
    {name : OString} (hq : q.denote s.env = some (.bool b)) :
    (Smt.Term.select (.symbol name) (printedIndex m w q)).denote s.env =
      none := by
  have hsel : ∀ c : Smt.Value, c.select (.bool b) = none := by
    intro c
    cases c <;> rfl
  unfold printedIndex
  split_ifs <;>
    simp only [Smt.Term.denote, hq, Option.bind_eq_bind, Option.bind_some,
      Smt.Value.extract, Option.bind_none, Option.bind_fun_none, hsel]

theorem translated_mem_iff {v : Var} {addr : Exp} {t : Typ}
    (hw : (Exp.mem v addr t).WellTyped) (h1 : Translated coin vs addr s) :
    Translated coin vs (.mem v addr t) s ↔ ReadsArray vs v addr t s := by
  obtain ⟨hwa, -, hindex⟩ := hw
  obtain ⟨q, hq, hval⟩ := h1
  cases hv : v.typ with
  | array elt size =>
    rw [hv] at hindex
    have helt : elt = t := hindex
    have hok : translateExp coin vs (.mem v addr t) =
        .ok (.select (.symbol (trVar vs v))
          (printedIndex (ceilLog2 size) addr.width q)) := by
      rw [translateExp, hv]
      simp only [helt, if_true]
      rw [hq, OCaml.ok_bind, hwa.inferTypeFast_eq coin, OCaml.ok_bind,
        hwa.isReg.bitsOfWidth_eq, OCaml.ok_bind]
      rfl
    rw [translated_iff_of_ok hok]
    by_cases ht : addr.typ = .reg1
    · rw [smtValue_reg1 ht] at hval
      rw [denote_select_bool hval]
      refine iff_of_false ?_ fun h => h.1 ht
      intro h
      cases h
    · rw [smtValue_bits rfl ht] at hval
      constructor
      · intro h
        obtain ⟨k, hk, hpos, hle, a, ha, hread⟩ :=
          denote_select hwa.width_pos hval h
        exact ⟨ht, elt, size, hv, k, hk, hpos, hle, a, ha, hread⟩
      · rintro ⟨-, elt', size', hv', k, hk, hpos, hle, a, ha, hread⟩
        rw [hv] at hv'
        cases hv'
        rw [hk, Smt.Term.denote, denote_printedIndex hpos hle hval]
        simp only [Smt.Term.denote, ha, Option.bind_eq_bind, Option.bind_some,
          Smt.Value.select, if_true, BitVec.setWidth_eq]
        exact congrArg some hread
  | _ =>
    refine iff_of_false (not_translated_of_error (r := _)
      (by rw [translateExp, hv]; rfl)) ?_
    rintro ⟨-, elt, size, hv', -⟩
    rw [hv] at hv'
    cases hv'

/-! ## The parts of an expression -/

/-- A property of the parts of an expression, without itself. -/
def Parts (vs : List Var) (P : Exp → Scope μ → Prop) : Exp → Scope μ → Prop
  | .binOp _ e1 e2, s => Everywhere vs P e1 s ∧ Everywhere vs P e2 s
  | .unOp _ e1, s => Everywhere vs P e1 s
  | .mem _ addr _, s => Everywhere vs P addr s
  | .cast _ _ e1, s => Everywhere vs P e1 s
  | .letTemp v e1 e2, s =>
    Everywhere vs P e1 s ∧ Everywhere vs P e2 (s.bind vs v e1)
  | .letMem _ addr _ e1 _, s => Everywhere vs P addr s ∧ Everywhere vs P e1 s
  | .ite cond e1 e2, s =>
    Everywhere vs P cond s ∧ Everywhere vs P e1 s ∧ Everywhere vs P e2 s
  | _, _ => True

theorem everywhere_iff {P : Exp → Scope μ → Prop} {e : Exp} :
    Everywhere vs P e s ↔ P e s ∧ Parts vs P e s := by
  cases e <;> simp only [Everywhere, Parts, and_true]

/-- Two properties hold everywhere alike when, of an expression whose parts
all have the first, both or neither hold. -/
theorem everywhere_congr {D P Q : Exp → Scope μ → Prop}
    (hnode : ∀ e s, e.WellTyped → e.Normal → D e s → Parts vs P e s →
      (P e s ↔ Q e s)) {e : Exp} (hw : e.WellTyped) (hn : e.Normal)
    (hd : Everywhere vs D e s) :
    Everywhere vs P e s ↔ Everywhere vs Q e s := by
  have hhere : ∀ {e : Exp} {s : Scope μ}, e.WellTyped → e.Normal →
      Everywhere vs D e s → (Parts vs P e s ↔ Parts vs Q e s) →
      (Everywhere vs P e s ↔ Everywhere vs Q e s) := by
    intro e s hw hn hd hparts
    rw [everywhere_iff, everywhere_iff (P := Q), ← hparts]
    exact and_congr_left fun h => hnode e s hw hn hd.here h
  induction e generalizing s with
  | binOp op e1 e2 ih1 ih2 =>
    exact hhere hw hn hd
      (and_congr (ih1 hw.1 hn.1 hd.2.1) (ih2 hw.2.1 hn.2 hd.2.2))
  | unOp op e1 ih => exact hhere hw hn hd (ih hw hn hd.2)
  | cast ct t e1 ih => exact hhere hw hn hd (ih hw.1 hn hd.2)
  | mem v addr t ih => exact hhere hw hn hd (ih hw.1 hn hd.2)
  | letTemp v e1 e2 ih1 ih2 =>
    exact hhere hw hn hd
      (and_congr (ih1 hw.1 hn.1 hd.2.1) (ih2 hw.2.1 hn.2 hd.2.2))
  | letMem v addr t e1 e2 iha ih1 _ =>
    exact hhere hw hn hd
      (and_congr (iha hw.1 hn.1 hd.2.1) (ih1 hw.2.1 hn.2.1 hd.2.2))
  | ite cond e1 e2 ihc ih1 ih2 =>
    exact hhere hw hn hd (and_congr (ihc hw.1 hn.1 hd.2.1)
      (and_congr (ih1 hw.2.1 hn.2.1 hd.2.2.1)
        (ih2 hw.2.2.1 hn.2.2 hd.2.2.2)))
  | constant v => exact hhere hw hn hd Iff.rfl
  | temp v => exact hhere hw hn hd Iff.rfl
  | name l => exact hhere hw hn hd Iff.rfl
  | _ => exact hw.elim

/-! ## All parts -/

theorem translated_iff_of_parts {e : Exp} (hw : e.WellTyped) (hn : e.Normal)
    (hdiv : DivisorNonzero e s) (hparts : Parts vs (Translated coin vs) e s) :
    Translated coin vs e s ↔ Readable vs e s := by
  cases e with
  | binOp op e1 e2 => exact translated_binOp_iff hw hn hdiv hparts.1 hparts.2
  | unOp op e1 =>
    rw [Readable]
    cases hbit : negatedBitRead? op e1 with
    | none => exact translated_unOp_iff hw hbit hparts.here
    | some p =>
      cases op with
      | neg => cases hbit
      | not =>
        obtain rfl := bitRead?_eq_some (x := p.1) (k := p.2) hbit
        exact translated_not_bit_iff hbit hn hparts.2.2.1.here
  | cast ct t e1 =>
    rw [Readable]
    cases hbit : bitRead? (.cast ct t e1) with
    | none => exact iff_of_true (translated_cast hw hbit hparts.here) trivial
    | some p =>
      have heq := bitRead?_eq_some (x := p.1) (k := p.2) hbit
      cases heq
      exact translated_bitRead_iff hbit hn hparts.2.1.here
  | constant v =>
    cases v with
    | int t i => exact iff_of_true (translated_int hw hn) trivial
    | str s => exact hw.elim
  | temp v => exact translated_temp_iff v
  | mem v addr t => exact translated_mem_iff hw hparts.here
  | name l =>
    exact iff_of_false
      (not_translated_of_error (by rw [translateExp]; rfl)) id
  | letTemp v e1 e2 =>
    exact iff_of_true (translated_let hparts.1.here hparts.2.here) trivial
  | letMem v addr t e1 e2 =>
    exact iff_of_false
      (not_translated_of_error (by rw [translateExp]; rfl)) id
  | ite cond e1 e2 =>
    exact iff_of_true
      (translated_ite hw hparts.1.here hparts.2.1.here hparts.2.2.here) trivial
  | _ => exact hw.elim

/-- An expression and all its parts keep their values in the query exactly
when none of them is of a form that the printer gets wrong. -/
theorem everywhere_translated_iff (coin : Exp → Bool) (vs : List Var) {e : Exp}
    (hw : e.WellTyped) (hn : e.Normal) {s : Scope μ}
    (hdiv : Everywhere vs DivisorNonzero e s) :
    Everywhere vs (Translated coin vs) e s ↔
      Everywhere vs (Readable vs) e s :=
  everywhere_congr (fun _ _ => translated_iff_of_parts) hw hn hdiv

/-! ## Symbols of the variables -/

/-- The symbol of each variable stands for its value. -/
def Agrees (vs : List Var) (F : Set Var) (s : Scope μ) : Prop :=
  ∀ v ∈ F, s.env (trVar vs v) = some (smtValue s.values (.temp v))

/-- The variables that are read are in `F` or bound before, and those that are
bound are in `V`. -/
def ReadsFrom (V : Set Var) : Set Var → Exp → Prop
  | F, .binOp _ e1 e2 => ReadsFrom V F e1 ∧ ReadsFrom V F e2
  | F, .unOp _ e1 => ReadsFrom V F e1
  | F, .mem _ addr _ => ReadsFrom V F addr
  | F, .cast _ _ e1 => ReadsFrom V F e1
  | F, .temp v => v ∈ F
  | F, .letTemp v e1 e2 =>
    v ∈ V ∧ ReadsFrom V F e1 ∧ ReadsFrom V (insert v F) e2
  | F, .letMem _ addr _ e1 e2 =>
    ReadsFrom V F addr ∧ ReadsFrom V F e1 ∧ ReadsFrom V F e2
  | F, .ite cond e1 e2 =>
    ReadsFrom V F cond ∧ ReadsFrom V F e1 ∧ ReadsFrom V F e2
  | _, _ => True

def Named (vs : List Var) : Exp → Scope μ → Prop
  | .temp v, s => Readable vs (.temp v) s
  | _, _ => True

theorem smtValue_bound {v : Var} {e : Exp} (hv : v.typ = e.typ)
    (ρ : Valuation μ) :
    smtValue (ρ.setTemp v ((e.eval ρ e.width).setWidth 64)) (.temp v) =
      smtValue ρ e := by
  have hval : (Exp.temp v).eval
      (ρ.setTemp v ((e.eval ρ e.width).setWidth 64)) e.typ.width =
      e.eval ρ e.typ.width := by
    have hset : (ρ.setTemp v ((e.eval ρ e.width).setWidth 64)).temp v =
        (e.eval ρ e.width).setWidth 64 := Function.update_self ..
    rw [Exp.eval, hset]
    exact Bits.setWidth_setWidth_self e.typ.width_le _
  exact smtValue_of_eval hv hval

/-- A `let` hides no other variable when the symbols are distinct. -/
theorem Agrees.bind {V F : Set Var} (h : Agrees vs F s)
    (hinj : Set.InjOn (trVar vs) V) (hF : F ⊆ V) {v : Var} (hv : v ∈ V)
    {e : Exp} (htyp : v.typ = e.typ) :
    Agrees vs (insert v F) (s.bind vs v e) := by
  intro u hu
  by_cases huv : u = v
  · subst huv
    rw [Scope.bind, smtValue_bound htyp]
    exact Function.update_self ..
  · have huF : u ∈ F := Set.mem_of_mem_insert_of_ne hu huv
    have hsym : trVar vs u ≠ trVar vs v := fun heq => huv (hinj (hF huF) hv heq)
    have henv : (s.bind vs v e).env (trVar vs u) = s.env (trVar vs u) :=
      Function.update_of_ne hsym ..
    have htemp : (s.bind vs v e).values.temp u = s.values.temp u :=
      Function.update_of_ne huv ..
    rw [henv, h u huF, smtValue, smtValue, Exp.eval, Exp.eval, htemp]

/-- Where the symbols are distinct, each is read for its own variable. -/
theorem Agrees.everywhere_named {V F : Set Var}
    (hinj : Set.InjOn (trVar vs) V) (hF : F ⊆ V) {e : Exp} (hw : e.WellTyped)
    (h : Agrees vs F s) (hread : ReadsFrom V F e) :
    Everywhere vs (Named vs) e s := by
  induction e generalizing s F with
  | temp v => exact h v hread
  | binOp op e1 e2 ih1 ih2 =>
    exact ⟨trivial, ih1 hF hw.1 h hread.1, ih2 hF hw.2.1 h hread.2⟩
  | unOp op e1 ih => exact ⟨trivial, ih hF hw h hread⟩
  | mem v addr t ih => exact ⟨trivial, ih hF hw.1 h hread⟩
  | cast ct t e1 ih => exact ⟨trivial, ih hF hw.1 h hread⟩
  | letTemp v e1 e2 ih1 ih2 =>
    obtain ⟨hv, hread1, hread2⟩ := hread
    have hbody : Agrees vs (insert v F) (s.bind vs v e1) :=
      h.bind hinj hF hv hw.2.2
    exact ⟨trivial, ih1 hF hw.1 h hread1,
      ih2 (Set.insert_subset hv hF) hw.2.1 hbody hread2⟩
  | letMem v addr t e1 e2 iha ih1 _ =>
    exact ⟨trivial, iha hF hw.1 h hread.1, ih1 hF hw.2.1 h hread.2.1⟩
  | ite cond e1 e2 ihc ih1 ih2 =>
    exact ⟨trivial, ihc hF hw.1 h hread.1, ih1 hF hw.2.1 h hread.2.1,
      ih2 hF hw.2.2.1 h hread.2.2⟩
  | constant v => trivial
  | name l => trivial
  | _ => exact hw.elim

/-! ## Expressions that are printed with their meaning -/

/-- The amount is not cut down to the width of what is shifted. -/
def AmountFits (e1 e2 : Exp) : Prop :=
  e2.width ≤ e1.width ∨ ∃ t i, e2 = .int t i ∧ i.toNat < 2 ^ e1.width

/-- None of the forms that the printer gets wrong or does not print, as far as
the types and the constants tell. -/
def Printable : Exp → Prop
  | .binOp op e1 e2 =>
    (match op with
      | .minus | .mod | .smod => e1.typ ≠ .reg1
      | .lshift | .rshift | .arshift => e1.typ ≠ .reg1 ∧ AmountFits e1 e2
      | _ => True) ∧ Printable e1 ∧ Printable e2
  | .unOp op e1 =>
    (match negatedBitRead? op e1 with
      | some (x, k) => ReadsBit x k
      | none => op = .neg → e1.typ ≠ .reg1) ∧ Printable e1
  | .cast ct t e1 =>
    (match bitRead? (.cast ct t e1) with
      | some (x, k) => ReadsBit x k
      | none => True) ∧ Printable e1
  | .constant _ | .temp _ => True
  | .letTemp _ e1 e2 => Printable e1 ∧ Printable e2
  | .ite cond e1 e2 => Printable cond ∧ Printable e1 ∧ Printable e2
  | _ => False

theorem shiftsAlike_of_amountFits {op : BinopType} {e1 e2 : Exp}
    (h1 : e1.typ ≠ .reg1) (h : AmountFits e1 e2) : ShiftsAlike op e1 e2 s := by
  refine ⟨h1, ?_⟩
  have hlt : (e2.eval s.values e2.width).toNat < 2 ^ e1.width := by
    rcases h with hle | ⟨t, i, rfl, hi⟩
    · exact (BitVec.isLt _).trans_le (Nat.pow_le_pow_right (by omega) hle)
    · rw [Exp.eval, BitVec.toNat_setWidth]
      exact (Nat.mod_le _ _).trans_lt hi
  rw [Nat.mod_eq_of_lt hlt]

theorem Printable.readable {e : Exp} (h : Printable e)
    (hnamed : Everywhere vs (Named vs) e s) :
    Everywhere vs (Readable vs) e s := by
  induction e generalizing s with
  | binOp op e1 e2 ih1 ih2 =>
    refine ⟨?_, ih1 h.2.1 hnamed.2.1, ih2 h.2.2 hnamed.2.2⟩
    cases op with
    | minus => exact h.1
    | mod | smod => exact fun heq => absurd heq h.1
    | lshift | rshift | arshift =>
      exact shiftsAlike_of_amountFits h.1.1 h.1.2
    | _ => trivial
  | unOp op e1 ih => exact ⟨h.1, ih h.2 hnamed.2⟩
  | cast ct t e1 ih => exact ⟨h.1, ih h.2 hnamed.2⟩
  | constant v => trivial
  | temp v => exact hnamed
  | letTemp v e1 e2 ih1 ih2 =>
    exact ⟨trivial, ih1 h.1 hnamed.2.1, ih2 h.2 hnamed.2.2⟩
  | ite cond e1 e2 ihc ih1 ih2 =>
    exact ⟨trivial, ihc h.1 hnamed.2.1, ih1 h.2.1 hnamed.2.2.1,
      ih2 h.2.2 hnamed.2.2.2⟩
  | _ => exact h.elim

/-- An expression of the forms that are printed right is printed as a term of
its value, whatever the coins, when distinct variables have distinct symbols
and no divisor is zero. -/
theorem printable_translated (coin : Exp → Bool) {V F : Set Var}
    (hinj : Set.InjOn (trVar vs) V) (hF : F ⊆ V) {e : Exp} (hw : e.WellTyped)
    (hn : e.Normal) (hp : Printable e) (hread : ReadsFrom V F e)
    (hdiv : Everywhere vs DivisorNonzero e s) (h : Agrees vs F s) :
    ∃ q, translateExp coin vs e = .ok q ∧
      q.denote s.env = some (smtValue s.values e) := by
  have hreadable : Everywhere vs (Readable vs) e s :=
    hp.readable (h.everywhere_named hinj hF hw hread)
  have hall : Everywhere vs (Translated coin vs) e s :=
    (everywhere_congr (fun _ _ => translated_iff_of_parts) hw hn hdiv).mpr
      hreadable
  exact hall.here

end Nodes

/-! ## Samples -/

def sampleScope : Scope Unit := ⟨.zero, fun _ => none⟩

/-- `let x:reg8_t = 200:reg8_t in x << 3:reg32_t` -/
def sampleShift : Exp :=
  .letTemp ⟨1, .ofAscii "x", .reg8⟩ (.int .reg8 200)
    (.binOp .lshift (.temp ⟨1, .ofAscii "x", .reg8⟩) (.int .reg32 3))

theorem sampleShift_wellTyped : sampleShift.WellTyped :=
  ⟨trivial, ⟨trivial, trivial, trivial⟩, rfl⟩

theorem sampleShift_normal : sampleShift.Normal := by
  refine ⟨?_, trivial, ?_⟩ <;> unfold Exp.Normal <;> decide

theorem everywhere_translated_sample :
    Everywhere [] (Translated (fun _ => true) []) sampleShift sampleScope := by
  refine (everywhere_translated_iff (fun _ => true) [] sampleShift_wellTyped
    sampleShift_normal ⟨trivial, trivial, trivial, trivial, trivial⟩).mpr ?_
  refine ⟨trivial, trivial, ⟨by decide, ?_⟩, rfl, trivial⟩
  decide

theorem printable_translated_sample :
    ∃ q, translateExp (fun _ => true) [] sampleShift = .ok q ∧
      q.denote sampleScope.env =
        some (smtValue sampleScope.values sampleShift) := by
  refine printable_translated (fun _ => true)
    (V := {⟨1, .ofAscii "x", .reg8⟩}) (F := ∅) ?_ ?_ sampleShift_wellTyped
    sampleShift_normal ?_ ?_ ⟨trivial, trivial, trivial, trivial, trivial⟩ ?_
  · exact Set.injOn_singleton _ _
  · exact Set.empty_subset _
  · exact ⟨trivial, ⟨by decide, .inr ⟨.reg32, 3, rfl, by decide⟩⟩, trivial,
      trivial⟩
  · exact ⟨rfl, trivial, Set.mem_insert _ _, trivial⟩
  · intro v hv
    exact hv.elim

/-- `1:reg1_t - 1:reg1_t`, whose translation is true. -/
theorem difference_not_translated :
    (Exp.binOp .minus expTrue expTrue).WellTyped ∧
      (Exp.binOp .minus expTrue expTrue).Normal ∧
      ∃ q, translateExp (fun _ => true) [] (.binOp .minus expTrue expTrue) =
          .ok q ∧
        q.denote sampleScope.env = some (.bool true) ∧
        smtValue sampleScope.values (.binOp .minus expTrue expTrue) =
          .bool false := by
  have htrue : translateExp (fun _ => true) [] expTrue = .ok (.bool true) := by
    rw [expTrue, translateExp]
    rfl
  have hn : (Exp.binOp .minus expTrue expTrue).Normal := by
    constructor <;> unfold expTrue Exp.Normal <;> decide
  have hform : specialForm (fun _ => true) .minus expTrue expTrue =
      .ok none := rfl
  refine ⟨⟨trivial, trivial, rfl⟩, hn,
    .not (.boolOp .xor (.bool true) (.bool true)), ?_, rfl, rfl⟩
  have hw : expTrue.WellTyped := trivial
  exact translateExp_binOp hw hform rfl htrue htrue

end Fuzzball.SmtLib
