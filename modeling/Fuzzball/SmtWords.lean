import Fuzzball.SmtNodes

/-!
# The translation of words put together and of choices

The forms of `|` that the printer knows: the parts of a word, shifted to their
places, are printed as a concatenation, and a choice by masks as an `ite`.
-/

namespace Fuzzball.SmtLib

open Vine

variable {μ : Type*} [VineMemory μ]

section Nodes

variable {coin : Exp → Bool} {vs : List Var} {s : Scope μ}

/-! ## Words put together -/

/-- The disjunction of the shifted parts. -/
def joined (t : Typ) (ρ : Valuation μ) (l : List (I64 × Exp)) :
    BitVec t.width :=
  l.foldr (fun p acc =>
    (p.2.eval ρ p.2.width).setWidth t.width <<< p.1.toNat ||| acc) 0

theorem joined_cons (t : Typ) (ρ : Valuation μ) (p : I64 × Exp)
    (l : List (I64 × Exp)) : joined t ρ (p :: l) =
      (p.2.eval ρ p.2.width).setWidth t.width <<< p.1.toNat |||
        joined t ρ l := rfl

theorem joined_append (t : Typ) (ρ : Valuation μ) (l l' : List (I64 × Exp)) :
    joined t ρ (l ++ l') = joined t ρ l ||| joined t ρ l' := by
  induction l with
  | nil => exact BitVec.zero_or.symm
  | cons p l ih =>
    rw [List.cons_append, joined_cons, joined_cons, ih, BitVec.or_assoc]

/-- The first part is not shifted. -/
theorem joined_zero (t : Typ) (ρ : Valuation μ) (x : Exp)
    (l : List (I64 × Exp)) : joined t ρ ((0, x) :: l) =
      (x.eval ρ x.width).setWidth t.width ||| joined t ρ l := by
  rw [joined_cons]
  exact congrArg (· ||| _) (BitVec.shiftLeft_zero _)

theorem joined_last (t : Typ) (ρ : Valuation μ) (k : I64) (x : Exp) :
    joined t ρ [(k, x)] =
      (x.eval ρ x.width).setWidth t.width <<< k.toNat := by
  rw [joined_cons]
  exact BitVec.or_zero

theorem joined_perm {t : Typ} {ρ : Valuation μ} {l l' : List (I64 × Exp)}
    (h : l.Perm l') : joined t ρ l = joined t ρ l' := by
  apply h.foldr_eq'
  intro p _ p' _ z
  rw [← BitVec.or_assoc, ← BitVec.or_assoc, BitVec.or_comm (_ <<< _) (_ <<< _)]

theorem Pieces.eval_eq {t : Typ} {e : Exp} {l : List (I64 × Exp)}
    (hl : Pieces t e l) (hn : e.Normal) (ρ : Valuation μ) :
    e.eval ρ t.width = joined t ρ l := by
  induction hl with
  | cast x => simp [joined, Exp.eval]
  | shift x ty k =>
    have hk : ((Exp.int ty k).eval ρ ty.width).toNat = k.toNat := by
      rw [Exp.eval, BitVec.toNat_setWidth]
      exact Nat.mod_eq_of_lt hn.2
    have hval : (Exp.binOp .lshift (.cast .castUnsigned t x)
        (.int ty k)).eval ρ t.width = (x.eval ρ x.width).setWidth t.width <<<
          ((Exp.int ty k).eval ρ ty.width).toNat := rfl
    rw [hval, hk]
    exact BitVec.or_zero.symm
  | or _ _ iha ihb =>
    rw [joined_append, ← iha hn.1, ← ihb hn.2]
    rfl

theorem setWidth_append {n m w : ℕ} (y : BitVec n) (x : BitVec m) :
    (y ++ x).setWidth w = x.setWidth w ||| y.setWidth w <<< m := by
  ext j hj
  simp only [BitVec.getElem_setWidth, BitVec.getLsbD_append, BitVec.getElem_or,
    BitVec.getElem_shiftLeft]
  by_cases h : j < m
  · simp [h]
  · simp [h, BitVec.getLsbD_of_ge x j (by omega)]

theorem setWidth_eval {x : Exp} {part : Typ} (h : x.typ = part)
    (ρ : Valuation μ) (w : ℕ) :
    (x.eval ρ x.width).setWidth w = (x.eval ρ part.width).setWidth w := by
  rw [Exp.width, h]

theorem typ_of_allOfType {t : Typ} {es : List Exp}
    (h : allOfType coin t es = .ok true) (hw : ∀ e ∈ es, e.WellTyped) :
    ∀ e ∈ es, e.typ = t := by
  induction es with
  | nil =>
    intro e he
    cases he
  | cons e es ih =>
    rw [List.forall_mem_cons] at hw ⊢
    rw [allOfType, hw.1.inferTypeFast_eq coin, OCaml.ok_bind] at h
    split_ifs at h with ht
    · exact ⟨ht, ih h hw.2⟩
    · cases h

/-- The value of a disjunction that is a word put together. -/
theorem smtValue_pieces {t : Typ} {e : Exp} {l : List (I64 × Exp)}
    (hl : Pieces t e l) (ht : t ≠ .reg1) (hn : e.Normal) :
    smtValue s.values e = .bits t.width (joined t s.values l) := by
  rw [smtValue_bits hl.typ_eq ht, hl.eval_eq hn]

theorem translated_pair {t part : Typ} {k : I64} {a b e1 e2 : Exp}
    {l : List (I64 × Exp)} (ht : Halves t part k)
    (hl : Pieces t (.binOp .bitor a b) l) (hperm : l.Perm [(0, e1), (k, e2)])
    (hform : specialForm coin .bitor a b = .ok (some (.pair part e1 e2)))
    (hn : (Exp.binOp .bitor a b).Normal) (h1 : e1.typ = part)
    (h2 : e2.typ = part) (ht1 : Translated coin vs e1 s)
    (ht2 : Translated coin vs e2 s) :
    Translated coin vs (.binOp .bitor a b) s := by
  obtain ⟨q1, hq1, hval1⟩ := ht1
  obtain ⟨q2, hq2, hval2⟩ := ht2
  have hok : translateExp coin vs (.binOp .bitor a b) =
      .ok (.concat q2 q1) := by
    rw [translateExp_form hform, BitorForm.translate, hq1, OCaml.ok_bind, hq2]
    rfl
  refine translated_of_ok hok ?_
  cases ht
  all_goals
    rw [smtValue_bits h1 (by decide)] at hval1
    rw [smtValue_bits h2 (by decide)] at hval2
    rw [smtValue_pieces hl (by decide) hn, joined_perm hperm, joined_zero,
      joined_last, setWidth_eval h1, setWidth_eval h2]
    simp only [Smt.Term.denote, hval1, hval2, Option.bind_eq_bind,
      Option.bind_some, Smt.Value.concat]
    exact congrArg some (bits_congr rfl (setWidth_append _ _))

theorem setWidth_quad {w : ℕ} (x1 x2 x3 x4 : BitVec 8) :
    ((x4 ++ x3) ++ (x2 ++ x1)).setWidth w =
      x1.setWidth w ||| (x2.setWidth w <<< 8 |||
        (x3.setWidth w <<< 16 ||| x4.setWidth w <<< 24)) := by
  simp only [setWidth_append]
  simp only [BitVec.shiftLeft_or_distrib, ← BitVec.shiftLeft_add,
    Nat.reduceAdd, BitVec.or_assoc]

theorem setWidth_octet {w : ℕ} (x1 x2 x3 x4 x5 x6 x7 x8 : BitVec 8) :
    (((x8 ++ x7) ++ (x6 ++ x5)) ++ ((x4 ++ x3) ++ (x2 ++ x1))).setWidth w =
      x1.setWidth w ||| (x2.setWidth w <<< 8 ||| (x3.setWidth w <<< 16 |||
        (x4.setWidth w <<< 24 ||| (x5.setWidth w <<< 32 |||
          (x6.setWidth w <<< 40 ||| (x7.setWidth w <<< 48 |||
            x8.setWidth w <<< 56)))))) := by
  simp only [setWidth_append]
  simp only [BitVec.shiftLeft_or_distrib, ← BitVec.shiftLeft_add,
    Nat.reduceAdd, BitVec.or_assoc]

theorem translated_quad {a b e1 e2 e3 e4 : Exp}
    (hl : Pieces .reg32 (.binOp .bitor a b)
      [(0, e1), (8, e2), (16, e3), (24, e4)])
    (hform : specialForm coin .bitor a b = .ok (some (.quad e1 e2 e3 e4)))
    (hn : (Exp.binOp .bitor a b).Normal) (h1 : e1.typ = .reg8)
    (h2 : e2.typ = .reg8) (h3 : e3.typ = .reg8) (h4 : e4.typ = .reg8)
    (ht1 : Translated coin vs e1 s) (ht2 : Translated coin vs e2 s)
    (ht3 : Translated coin vs e3 s) (ht4 : Translated coin vs e4 s) :
    Translated coin vs (.binOp .bitor a b) s := by
  obtain ⟨q1, hq1, hval1⟩ := ht1
  obtain ⟨q2, hq2, hval2⟩ := ht2
  obtain ⟨q3, hq3, hval3⟩ := ht3
  obtain ⟨q4, hq4, hval4⟩ := ht4
  have hok : translateExp coin vs (.binOp .bitor a b) =
      .ok (.concat (.concat q4 q3) (.concat q2 q1)) := by
    rw [translateExp_form hform, BitorForm.translate, hq1, OCaml.ok_bind, hq2,
      OCaml.ok_bind, hq3, OCaml.ok_bind, hq4]
    rfl
  refine translated_of_ok hok ?_
  rw [smtValue_bits h1 (by decide)] at hval1
  rw [smtValue_bits h2 (by decide)] at hval2
  rw [smtValue_bits h3 (by decide)] at hval3
  rw [smtValue_bits h4 (by decide)] at hval4
  rw [smtValue_pieces hl (by decide) hn, joined_zero, joined_cons, joined_cons,
    joined_last, setWidth_eval h1, setWidth_eval h2, setWidth_eval h3,
    setWidth_eval h4]
  simp only [Smt.Term.denote, hval1, hval2, hval3, hval4, Option.bind_eq_bind,
    Option.bind_some, Smt.Value.concat]
  exact congrArg some (bits_congr rfl (setWidth_quad _ _ _ _))

theorem translated_octet {a b e1 e2 e3 e4 e5 e6 e7 e8 : Exp}
    (hl : Pieces .reg64 (.binOp .bitor a b)
      [(0, e1), (8, e2), (16, e3), (24, e4), (32, e5), (40, e6), (48, e7),
        (56, e8)])
    (hform : specialForm coin .bitor a b =
      .ok (some (.octet e1 e2 e3 e4 e5 e6 e7 e8)))
    (hn : (Exp.binOp .bitor a b).Normal)
    (htyp : ∀ e ∈ [e1, e2, e3, e4, e5, e6, e7, e8], e.typ = .reg8)
    (ht : ∀ e ∈ [e1, e2, e3, e4, e5, e6, e7, e8], Translated coin vs e s) :
    Translated coin vs (.binOp .bitor a b) s := by
  simp only [List.forall_mem_cons] at htyp ht
  obtain ⟨h1, h2, h3, h4, h5, h6, h7, h8, -⟩ := htyp
  obtain ⟨⟨q1, hq1, hval1⟩, ⟨q2, hq2, hval2⟩, ⟨q3, hq3, hval3⟩,
    ⟨q4, hq4, hval4⟩, ⟨q5, hq5, hval5⟩, ⟨q6, hq6, hval6⟩, ⟨q7, hq7, hval7⟩,
    ⟨q8, hq8, hval8⟩, -⟩ := ht
  have hok : translateExp coin vs (.binOp .bitor a b) =
      .ok (.concat (.concat (.concat q8 q7) (.concat q6 q5))
        (.concat (.concat q4 q3) (.concat q2 q1))) := by
    rw [translateExp_form hform, BitorForm.translate, hq1, OCaml.ok_bind, hq2,
      OCaml.ok_bind, hq3, OCaml.ok_bind, hq4, OCaml.ok_bind, hq5, OCaml.ok_bind,
      hq6, OCaml.ok_bind, hq7, OCaml.ok_bind, hq8]
    rfl
  refine translated_of_ok hok ?_
  rw [smtValue_bits h1 (by decide)] at hval1
  rw [smtValue_bits h2 (by decide)] at hval2
  rw [smtValue_bits h3 (by decide)] at hval3
  rw [smtValue_bits h4 (by decide)] at hval4
  rw [smtValue_bits h5 (by decide)] at hval5
  rw [smtValue_bits h6 (by decide)] at hval6
  rw [smtValue_bits h7 (by decide)] at hval7
  rw [smtValue_bits h8 (by decide)] at hval8
  rw [smtValue_pieces hl (by decide) hn, joined_zero, joined_cons, joined_cons,
    joined_cons, joined_cons, joined_cons, joined_cons, joined_last,
    setWidth_eval h1, setWidth_eval h2, setWidth_eval h3, setWidth_eval h4,
    setWidth_eval h5, setWidth_eval h6, setWidth_eval h7, setWidth_eval h8]
  simp only [Smt.Term.denote, hval1, hval2, hval3, hval4, hval5, hval6, hval7,
    hval8, Option.bind_eq_bind, Option.bind_some, Smt.Value.concat]
  exact congrArg some (bits_congr rfl (setWidth_octet _ _ _ _ _ _ _ _))

/-! ## Choices -/

omit [VineMemory μ] in
theorem denote_ite {t : Typ} {c : Bool} {qc q1 q2 : Query}
    {x y : BitVec t.width} (hc : qc.denote s.env = some (.bool c))
    (h1 : q1.denote s.env = some (encode t x))
    (h2 : q2.denote s.env = some (encode t y)) :
    (Smt.Term.ite qc q1 q2).denote s.env =
      some (encode t (if c then x else y)) := by
  simp only [Smt.Term.denote, hc, h1, h2, Option.bind_eq_bind,
    Option.bind_some]
  rw [Smt.Value.ite_of_sameSort c (encode_sameSort t x y)]
  split_ifs <;> rfl

/-- A choice by masks. -/
theorem eval_choice {cond : Exp} (hc : cond.typ = .reg1) (ρ : Valuation μ)
    (w : ℕ) {t : Typ} (x y : Exp) :
    (Exp.binOp .bitor (.binOp .bitand (.cast .castSigned t cond) x)
      (.binOp .bitand (.unOp .not (.cast .castSigned t cond)) y)).eval ρ w =
      if (cond.eval ρ 1).getLsbD 0 then x.eval ρ w else y.eval ρ w := by
  have hmask : (cond.eval ρ cond.width).signExtend w =
      if (cond.eval ρ 1).getLsbD 0 then BitVec.allOnes w else 0 := by
    rw [Exp.width, hc]
    exact signExtend_bit _
  simp only [Exp.eval, hmask]
  split_ifs <;> simp

theorem translated_choice {ty1 ty2 : Typ} {cond1 cond2 x y : Exp}
    (hform : specialForm coin .bitor
      (.binOp .bitand (.cast .castSigned ty1 cond1) x)
      (.binOp .bitand (.unOp .not (.cast .castSigned ty2 cond2)) y) =
      .ok (some (.choice ty1 cond1 x ty2 cond2 y)))
    (hw : (Exp.binOp .bitor
      (.binOp .bitand (.cast .castSigned ty1 cond1) x)
      (.binOp .bitand (.unOp .not (.cast .castSigned ty2 cond2)) y)).WellTyped)
    (htc : Translated coin vs cond1 s) (ht1 : Translated coin vs x s)
    (ht2 : Translated coin vs y s) :
    Translated coin vs (.binOp .bitor
      (.binOp .bitand (.cast .castSigned ty1 cond1) x)
      (.binOp .bitand (.unOp .not (.cast .castSigned ty2 cond2)) y)) s := by
  obtain ⟨-, -, hguard⟩ := specialForm_eq_some hform
  obtain ⟨⟨⟨hwc, -, -⟩, -, hx⟩, ⟨-, -, hy⟩, -⟩ := hw
  have hxt : x.typ = ty1 := hx
  have hyt : y.typ = ty2 := hy
  rw [BitorForm.guard, isChoice] at hguard
  split_ifs at hguard with hsame
  · obtain ⟨rfl, rfl⟩ := hsame
    rw [hwc.inferTypeFast_eq coin, OCaml.ok_bind] at hguard
    have hct : cond1.typ = .reg1 := of_decide_eq_true (Except.ok.inj hguard)
    obtain ⟨qc, hqc, hvalc⟩ := htc
    obtain ⟨q1, hq1, hval1⟩ := ht1
    obtain ⟨q2, hq2, hval2⟩ := ht2
    rw [smtValue_reg1 hct] at hvalc
    rw [smtValue_of_eval hxt rfl] at hval1
    rw [smtValue_of_eval hyt rfl] at hval2
    refine translated_of_ok (q := .ite qc q1 q2) ?_ ?_
    · rw [translateExp_form hform, BitorForm.translate, hqc, OCaml.ok_bind,
        hq1, OCaml.ok_bind, hq2]
      rfl
    · rw [denote_ite hvalc hval1 hval2]
      exact congrArg some (smtValue_of_eval rfl
        (eval_choice hct s.values ty1.width x y)).symm
  · cases hguard

theorem translated_ite {cond e1 e2 : Exp}
    (hw : (Exp.ite cond e1 e2).WellTyped) (htc : Translated coin vs cond s)
    (ht1 : Translated coin vs e1 s) (ht2 : Translated coin vs e2 s) :
    Translated coin vs (.ite cond e1 e2) s := by
  obtain ⟨qc, hqc, hvalc⟩ := htc
  obtain ⟨q1, hq1, hval1⟩ := ht1
  obtain ⟨q2, hq2, hval2⟩ := ht2
  obtain ⟨-, -, -, hct, htyp⟩ := hw
  rw [smtValue_reg1 hct] at hvalc
  rw [smtValue_of_eval rfl rfl] at hval1
  rw [smtValue_of_eval htyp rfl] at hval2
  refine translated_of_ok (q := .ite qc q1 q2) ?_ ?_
  · rw [translateExp, hqc, OCaml.ok_bind, hq1, OCaml.ok_bind, hq2]
    rfl
  · have hval : (Exp.ite cond e1 e2).eval s.values e1.typ.width =
        if (cond.eval s.values 1).getLsbD 0 then
          e1.eval s.values e1.typ.width
        else e2.eval s.values e1.typ.width := by
      rw [Exp.eval]
      exact if_congr (eq_one_iff _) rfl rfl
    rw [denote_ite hvalc hval1 hval2, smtValue_of_eval rfl hval]
    rfl

/-! ## Forms of disjunctions -/

theorem allOfType_ok {t : Typ} {es : List Exp}
    (hw : ∀ e ∈ es, e.WellTyped) : ∃ b, allOfType coin t es = .ok b := by
  induction es with
  | nil => exact ⟨true, rfl⟩
  | cons e es ih =>
    rw [List.forall_mem_cons] at hw
    rw [allOfType, hw.1.inferTypeFast_eq coin, OCaml.ok_bind]
    split_ifs
    · exact ih hw.2
    · exact ⟨false, rfl⟩

theorem guard_ok {form : BitorForm} (hw : ∀ e ∈ form.parts, e.WellTyped) :
    ∃ b, form.guard coin = .ok b := by
  cases form with
  | pair t e1 e2 => exact allOfType_ok hw
  | quad e1 e2 e3 e4 => exact allOfType_ok hw
  | octet e1 e2 e3 e4 e5 e6 e7 e8 => exact allOfType_ok hw
  | choice ty1 cond1 x ty2 cond2 y =>
    have hcond : cond1.WellTyped := hw cond1 List.mem_cons_self
    rw [BitorForm.guard, isChoice]
    split_ifs
    · exact ⟨_, by rw [hcond.inferTypeFast_eq coin, OCaml.ok_bind]; rfl⟩
    · exact ⟨false, rfl⟩

/-- A property of the operands' parts holds of the parts of a form. -/
theorem BitorForm.Of.forall_parts {a b : Exp} {form : BitorForm}
    (h : form.Of a b) {Q : Exp → Prop}
    (hpieces : ∀ t l, Pieces t (.binOp .bitor a b) l →
      ∀ x ∈ l.map Prod.snd, Q x)
    (hchoice : ∀ ty1 cond1 x ty2 cond2 y,
      a = .binOp .bitand (.cast .castSigned ty1 cond1) x →
      b = .binOp .bitand (.unOp .not (.cast .castSigned ty2 cond2)) y →
      Q cond1 ∧ Q x ∧ Q y) : ∀ e ∈ form.parts, Q e := by
  cases h with
  | pair _ hl hperm =>
    intro e he
    exact hpieces _ _ hl e ((hperm.map Prod.snd).mem_iff.mpr he)
  | quad hl => exact hpieces _ _ hl
  | octet hl => exact hpieces _ _ hl
  | choice ha hb =>
    obtain ⟨hc, hx, hy⟩ := hchoice _ _ _ _ _ _ ha hb
    simp only [BitorForm.parts, List.forall_mem_cons]
    exact ⟨hc, hx, hy, by simp⟩

theorem BitorForm.Of.wellTyped {a b : Exp} {form : BitorForm}
    (h : form.Of a b) (hw : (Exp.binOp .bitor a b).WellTyped) :
    ∀ e ∈ form.parts, e.WellTyped := by
  refine h.forall_parts (fun t l hl => hl.wellTyped hw) ?_
  rintro ty1 cond1 x ty2 cond2 y rfl rfl
  exact ⟨hw.1.1.1, hw.1.2.1, hw.2.1.2.1⟩

theorem BitorForm.Of.everywhere {a b : Exp} {form : BitorForm}
    (h : form.Of a b) {P : Exp → Scope μ → Prop} (ha : Everywhere vs P a s)
    (hb : Everywhere vs P b s) : ∀ e ∈ form.parts, P e s := by
  refine h.forall_parts ?_ ?_
  · intro t l hl x hx
    cases hl with
    | or hla hlb =>
      rw [List.map_append, List.mem_append] at hx
      exact (hx.elim (hla.everywhere ha x) (hlb.everywhere hb x)).here
  · rintro ty1 cond1 x ty2 cond2 y rfl rfl
    exact ⟨ha.2.1.2.here, ha.2.2.here, hb.2.2.here⟩

theorem specialForm_ok {op : BinopType} {a b : Exp}
    (hw : (Exp.binOp op a b).WellTyped) :
    ∃ o, specialForm coin op a b = .ok o := by
  rw [specialForm]
  cases hform : bitorForm? op a b with
  | none => exact ⟨none, rfl⟩
  | some form =>
    obtain ⟨rfl, hof⟩ := bitorForm?_eq_some hform
    obtain ⟨g, hg⟩ : ∃ g, form.guard coin = .ok g :=
      guard_ok (hof.wellTyped hw)
    cases g with
    | true => exact ⟨some form, by simp only [hg, OCaml.ok_bind]; rfl⟩
    | false => exact ⟨none, by simp only [hg, OCaml.ok_bind]; rfl⟩

theorem translated_form {a b : Exp} {form : BitorForm}
    (hform : specialForm coin .bitor a b = .ok (some form))
    (hw : (Exp.binOp .bitor a b).WellTyped)
    (hn : (Exp.binOp .bitor a b).Normal)
    (ha : Everywhere vs (Translated coin vs) a s)
    (hb : Everywhere vs (Translated coin vs) b s) :
    Translated coin vs (.binOp .bitor a b) s := by
  obtain ⟨-, hof, hguard⟩ := specialForm_eq_some hform
  have hparts := hof.everywhere ha hb
  have hwell := hof.wellTyped hw
  cases hof with
  | pair ht hl hperm =>
    have htyp := typ_of_allOfType hguard hwell
    simp only [BitorForm.parts, List.forall_mem_cons] at hparts htyp
    exact translated_pair ht hl hperm hform hn htyp.1 htyp.2.1 hparts.1
      hparts.2.1
  | quad hl =>
    have htyp := typ_of_allOfType hguard hwell
    simp only [BitorForm.parts, List.forall_mem_cons] at hparts htyp
    exact translated_quad hl hform hn htyp.1 htyp.2.1 htyp.2.2.1 htyp.2.2.2.1
      hparts.1 hparts.2.1 hparts.2.2.1 hparts.2.2.2.1
  | octet hl =>
    exact translated_octet hl hform hn (typ_of_allOfType hguard hwell) hparts
  | choice ha' hb' =>
    subst ha' hb'
    simp only [BitorForm.parts, List.forall_mem_cons] at hparts
    exact translated_choice hform hw hparts.1 hparts.2.1 hparts.2.2.1

end Nodes

end Fuzzball.SmtLib
