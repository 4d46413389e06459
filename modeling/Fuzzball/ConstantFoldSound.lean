import Fuzzball.ConstantFoldExact

/-!
# Constant folding keeps types and values

`constant_fold` keeps the type and the value of a well-typed expression unless
it is one that `Exp.Misfolds` names, and of those it changes the value.
-/

namespace Fuzzball.Vine

variable {μ : Type*} [VineMemory μ] (ρ : Valuation μ)

/-! ## Operations on constants -/

theorem eval_constantOperation
    {e : Exp} (he : e.IsConstantOperation) (w : ℕ) :
    e.eval ρ w = e.eval Valuation.zero w := by
  unfold Exp.IsConstantOperation at he
  split at he
  · rename_i op t i
    cases op <;> rfl
  · rename_i op t1 i1 t2 i2
    cases op <;> rfl
  · rename_i ct t2 t i
    cases ct <;> rfl
  · exact he.elim

theorem eval_constantValue {e : Exp} (he : e.IsConstantOperation) :
    e.constantValue.setWidth e.width = e.eval ρ e.width := by
  rw [eval_constantOperation ρ he]
  exact setWidth_zeroExtend e.typ.width_le _

theorem agrees_constantValue
    {e : Exp} (he : e.IsConstantOperation) (hw : e.WellTyped) :
    e.Agrees ρ (.int e.typ e.constantValue) :=
  ⟨hw.isReg, rfl, eval_constantValue ρ he⟩

theorem foldBinop_zero_divisor
    (wild : WildShift) {op : BinopType}
    (hop : op = .divide ∨ op = .sdivide ∨ op = .mod ∨ op = .smod) {t : Typ}
    (ht : t.IsReg) (i1 : I64) {i2 : I64} (hzero : i2.setWidth t.width = 0) :
    foldBinop wild op t (.int t i1) (.int t i2) = .error .divisionByZero := by
  have hdivisor : (i2.setWidth t.width).signExtend 64 = 0 := by
    exact (Bits.signExtend_eq_zero_iff t.width_le _).mpr hzero
  rcases hop with rfl | rfl | rfl | rfl
  all_goals
    simp only [foldBinop, tos64_int ht, hdivisor, OCaml.ok_bind, I64.div_zero,
      I64.rem_zero, I64.udiv_zero, I64.urem_zero]
    rfl

/-- The result of a binary operation on constants, where there is one. -/
theorem foldBinop_ok
    {wild : WildShift} {op : BinopType} {t1 t2 : Typ} {i1 i2 : I64} {e' : Exp}
    (hw : (Exp.binOp op (.int t1 i1) (.int t2 i2)).WellTyped)
    (hgood : ¬ ((Exp.binOp op (.int t1 i1) (.int t2 i2)).DivisorNonzero ∧
      (Exp.binOp op (.int t1 i1) (.int t2 i2)).FoldsWrong))
    (h : foldBinop wild op t1 (.int t1 i1) (.int t2 i2) = .ok e') :
    e' = .int (op.result t1)
      (Exp.binOp op (.int t1 i1) (.int t2 i2)).constantValue := by
  obtain ⟨h1, h2, hadm⟩ := hw
  have hne : (op = .divide ∨ op = .sdivide ∨ op = .mod ∨ op = .smod) →
      t2 = t1 → i2.setWidth t2.width ≠ 0 := by
    rintro hop rfl hzero
    rw [foldBinop_zero_divisor wild hop h1 i1 hzero] at h
    simp at h
  suffices hfold : foldBinop wild op t1 (.int t1 i1) (.int t2 i2) =
      .ok (.int (op.result t1)
        (Exp.binOp op (.int t1 i1) (.int t2 i2)).constantValue) from
    Except.ok.inj (h.symm.trans hfold)
  cases op with
  | divide =>
    obtain rfl : t2 = t1 := hadm
    have hnz := hne (by simp) rfl
    exact (foldBinop_divide_iff wild i1 i2 h1 hnz).mpr
      fun hbad => hgood ⟨fun _ => hnz, hbad⟩
  | mod =>
    obtain rfl : t2 = t1 := hadm
    have hnz := hne (by simp) rfl
    exact (foldBinop_mod_iff wild i1 i2 h1 hnz).mpr
      fun hbad => hgood ⟨fun _ => hnz, hbad⟩
  | sdivide =>
    obtain rfl : t2 = t1 := hadm
    exact foldBinop_sdivide_eq wild i1 i2 h1 (hne (by simp) rfl)
  | smod =>
    obtain rfl : t2 = t1 := hadm
    exact foldBinop_smod_eq wild i1 i2 h1 (hne (by simp) rfl)
  | lshift | rshift | arshift =>
    exact (foldBinop_shift_iff (by simp) i1 i2 h1 h2).mpr
      (fun hbad => hgood ⟨by simp [Exp.DivisorNonzero], hbad⟩) wild
  | _ => exact foldBinop_eq wild _ i1 i2 h1 hadm (by decide)

theorem constantBinop_soundOn
    (wild : WildShift) {e : Exp}
    (hgood : ¬ (e.IsConstantOperation ∧ e.DivisorNonzero ∧ e.FoldsWrong)) :
    (constantBinop wild).SoundOn ρ e := by
  intro e' hw hn h
  unfold constantBinop at h
  split at h
  · rename_i op v1 v2
    split at h
    · rename_i t1 i1 t2 i2
      obtain ⟨e'', hfold, he⟩ := OCaml.map_eq_ok_iff.mp h
      obtain rfl : e'' = e' := Option.some.inj he
      rw [foldBinop_ok hw (fun hbad => hgood ⟨trivial, hbad⟩) hfold]
      exact agrees_constantValue ρ trivial hw
    · simp at h
  · simp at h

theorem constantUnop_sound : constantUnop.Sound ρ := by
  intro e e' hw hn h
  unfold constantUnop at h
  split at h
  · rename_i op v
    split at h
    · rename_i t i
      rw [foldUnop_eq op hw] at h
      obtain rfl : Exp.int t (Exp.unOp op (.int t i)).constantValue = e' :=
        Option.some.inj (Except.ok.inj h)
      exact agrees_constantValue ρ (e := .unOp op (.int t i)) trivial hw
    · simp at h
  · simp at h

theorem constantCast_soundOn
    (wild : WildShift) {e : Exp}
    (hgood : ¬ (e.IsConstantOperation ∧ e.DivisorNonzero ∧ e.FoldsWrong)) :
    (constantCast wild).SoundOn ρ e := by
  intro e' hw hn h
  unfold constantCast at h
  split at h
  · rename_i ct t2 v
    split at h
    · rename_i t i
      obtain ⟨ht, ht2, hadm⟩ := hw
      rw [(foldCast_iff ct i ht ht2 hadm).mpr
        (fun hbad => hgood ⟨trivial, trivial, hbad⟩) wild] at h
      obtain rfl : Exp.int t2 (Exp.cast ct t2 (.int t i)).constantValue = e' :=
        Option.some.inj (Except.ok.inj h)
      exact agrees_constantValue ρ (e := .cast ct t2 (.int t i)) trivial
        ⟨ht, ht2, hadm⟩
    · simp at h
  · simp at h

/-- The cases for operations on constants, the floating-point ones of which do
not meet a well-typed integer expression. -/
theorem constantRules_soundOn
    (wild : WildShift) {e : Exp}
    (hgood : ¬ (e.IsConstantOperation ∧ e.DivisorNonzero ∧ e.FoldsWrong)) :
    ∀ r ∈ constantRules wild, r.SoundOn ρ e := by
  simp only [constantRules, List.forall_mem_cons]
  refine ⟨constantBinop_soundOn ρ wild hgood, constantUnop_sound ρ e, ?_, ?_,
    constantCast_soundOn ρ wild hgood, ?_, by simp⟩
  all_goals
    intro e' hw hn h
    cases e <;> first | exact hw.elim | simp [constantFBinop, constantFUnop,
      constantFCast] at h

/-! ## One unfolding -/

variable {ρ} {wild : WildShift} {ctx : LValue → Option Exp}
  {fold : Exp → OCaml Exp}

theorem constantFoldStep_eq
    {e : Exp} (he : ∀ e1 e2, e ≠ .binOp .minus e1 e2) :
    constantFoldStep wild ctx fold e =
      (fun o => o.getD e) <$> firstMatch (rules wild ctx fold) e := by
  cases e with
  | binOp op e1 e2 =>
    cases op <;> first | rfl | exact absurd rfl (he e1 e2)
  | _ => rfl

/-- Every rule is sound on an expression that is not misfolded. -/
theorem rules_soundOn
    (hctx : ContextTrue ρ ctx) {e : Exp}
    (hplus : (plusEqZero fold).SoundOn ρ e) (he : ¬ e.Misfolds ρ) :
    ∀ r ∈ rules wild ctx fold, r.SoundOn ρ e := by
  obtain ⟨hconst, hsign, hzero, hwraps, hfar, hswap⟩ :
      ¬ (e.IsConstantOperation ∧ e.DivisorNonzero ∧ e.FoldsWrong) ∧
        ¬ e.LosesSignBits ρ ∧ ¬ e.ShiftsOutConstant ∧ ¬ e.WrapsShift ρ ∧
          ¬ e.ShiftsProductFar ρ ∧ ¬ e.SwapsChoice := by
    simpa only [Exp.Misfolds, not_or] using he
  have hshift : ∀ op, op = .lshift ∨ op = .rshift ∨ op = .arshift →
      (shiftOfShift op).SoundOn ρ e := fun op hop =>
    (shiftOfShift_exactOn ρ e hop).soundOn ρ hwraps
  intro r hr
  simp only [rules, List.mem_append] at hr
  rcases hr with (((((((hr | hr) | hr) | hr) | hr) | hr) | hr) | hr) | hr
  · exact constantRules_soundOn ρ wild hconst r hr
  · exact identityRules_sound ρ r hr e
  · exact castRules_sound ρ r hr e
  · exact maskRules_soundOn ρ
      ((signExtendByMask_exactOn ρ e).soundOn ρ hsign) r hr
  · exact impossibleEqRules_sound ρ r hr e
  · exact iteRules_sound ρ hctx r hr e
  · exact concatRules_sound ρ r hr e
  · exact shiftRules_soundOn ρ hshift (shiftOfProduct_soundOn ρ wild hfar)
      ((maskedChoice_exactOn ρ e).soundOn ρ hswap) r hr
  · exact algebraRules_soundOn ρ hplus
      ((shiftedOrZero_exactOn ρ e (.inl ⟨rfl, rfl⟩)).soundOn ρ hzero)
      ((shiftedOrZero_exactOn ρ e (.inr ⟨rfl, rfl⟩)).soundOn ρ hzero) r hr

theorem constantFoldStep_agrees
    (hctx : ContextTrue ρ ctx) {e e' : Exp} (hw : e.WellTyped) (hn : e.Normal)
    (hplus : (plusEqZero fold).SoundOn ρ e) (he : ¬ e.Misfolds ρ)
    (hminus : ∀ e1 e2, e ≠ .binOp .minus e1 e2)
    (h : constantFoldStep wild ctx fold e = .ok e') : e.Agrees ρ e' := by
  rw [constantFoldStep_eq hminus, OCaml.map_eq_ok_iff] at h
  obtain ⟨o, hmatch, rfl⟩ := h
  cases o with
  | none => exact .refl ρ hw
  | some e' => exact firstMatch_agrees ρ (rules_soundOn hctx hplus he) hw hn hmatch

/-! ## Differences -/

theorem constantValue_lt (e : Exp) : e.constantValue.toNat < 2 ^ e.width := by
  rw [Exp.constantValue, toNat_zeroExtend (w := e.width) e.typ.width_le]
  exact BitVec.isLt _

/-- The negation of a stored constant is stored in its width. -/
theorem constantFoldStep_neg_normal
    {e e' : Exp} (hw : e.WellTyped) (hn : e.Normal)
    (h : constantFoldStep wild ctx fold (.unOp .neg e) = .ok e') :
    e'.Normal := by
  cases e with
  | constant v =>
    cases v with
    | int t i =>
      rw [constantFoldStep_unOp, foldUnop_eq .neg hw] at h
      obtain rfl := Except.ok.inj h
      exact constantValue_lt (.unOp .neg (.int t i))
    | str s => exact hw.elim
  | unOp op x =>
    cases op with
    | neg =>
      obtain rfl : x = e' := Except.ok.inj h
      exact hn
    | not =>
      obtain rfl : Exp.unOp .neg (.unOp .not x) = e' := Except.ok.inj h
      exact hn
  | _ =>
    obtain rfl := Except.ok.inj h
    exact hn

theorem not_misfolds_unOp (op : UnopType) (e : Exp) : ¬ (Exp.unOp op e).Misfolds ρ := by
  simp [Exp.Misfolds, Exp.FoldsWrong, Exp.LosesSignBits, Exp.ShiftsOutConstant,
    Exp.WrapsShift, Exp.ShiftsProductFar, Exp.SwapsChoice]

theorem not_misfolds_arith
    {op : BinopType} (hop : op = .plus ∨ op = .minus) (e1 e2 : Exp) :
    ¬ (Exp.binOp op e1 e2).Misfolds ρ := by
  rintro (⟨-, -, h⟩ | h | h | h | h | h)
  · unfold Exp.FoldsWrong at h
    split at h
    · rename_i heq
      obtain ⟨rfl, -⟩ := Exp.binOp.inj heq
      rcases hop with rfl | rfl <;> exact h
    · rename_i heq
      simp at heq
    · exact h
  · unfold Exp.LosesSignBits at h
    split at h
    · rename_i heq
      obtain ⟨rfl, -⟩ := Exp.binOp.inj heq
      simp at hop
    · exact h
  · unfold Exp.ShiftsOutConstant at h
    split at h
    · rename_i heq
      obtain ⟨rfl, -⟩ := Exp.binOp.inj heq
      obtain ⟨⟨heq | hneq, -⟩, -⟩ := h <;> simp_all
    · exact h
  · unfold Exp.WrapsShift at h
    split at h
    · rename_i heq
      obtain ⟨rfl, -⟩ := Exp.binOp.inj heq
      rcases hop with rfl | rfl <;> exact h.2.2
    · exact h
  · unfold Exp.ShiftsProductFar at h
    split at h
    · rename_i heq
      obtain ⟨rfl, -⟩ := Exp.binOp.inj heq
      simp at hop
    · exact h
  · unfold Exp.SwapsChoice at h
    split at h
    · rename_i heq
      obtain ⟨rfl, -⟩ := Exp.binOp.inj heq
      simp at hop
    · exact h

/-- A difference is folded as the sum with the folded negation. -/
theorem constantFold_minus_agrees
    (hctx : ContextTrue ρ ctx) {e1 e2 e' : Exp}
    (hw : (Exp.binOp .minus e1 e2).WellTyped)
    (hn : (Exp.binOp .minus e1 e2).Normal)
    (h : constantFold wild ctx (.binOp .minus e1 e2) = .ok e') :
    (Exp.binOp .minus e1 e2).Agrees ρ e' := by
  obtain ⟨h1, h2, htyp⟩ := hw
  obtain ⟨hn1, hn2⟩ := hn
  have htyp : e2.typ = e1.typ := htyp
  rw [constantFold, constantFoldStep, OCaml.bind_eq_ok_iff] at h
  obtain ⟨n, hneg, hsum⟩ := h
  have hplus : ∀ e, (plusEqZero fun _ => throw .assertFailure).SoundOn ρ e := by
    intro e e'' hw hn h
    unfold plusEqZero at h
    split at h
    · split_ifs at h <;> simp at h
    · simp at h
  have hagrees : (Exp.unOp .neg e2).Agrees ρ n :=
    constantFoldStep_agrees hctx h2 hn2 (hplus _) (not_misfolds_unOp .neg e2)
      (by simp) hneg
  have hntyp : n.typ = e1.typ := hagrees.typ_eq.trans htyp
  obtain ⟨hwell, htyp', heval⟩ :=
    constantFoldStep_agrees hctx (e := .binOp .plus e1 n)
      ⟨h1, hagrees.wellTyped, hntyp⟩
      ⟨hn1, constantFoldStep_neg_normal h2 hn2 hneg⟩ (hplus _)
      (not_misfolds_arith (.inl rfl) e1 n) (by simp) hsum
  refine .intro e1.typ.width rfl hwell htyp' ?_
  have hvalue : n.eval ρ e1.typ.width = -e2.eval ρ e1.typ.width := by
    rw [← htyp]
    exact hagrees.eval_eq
  calc e'.eval ρ e1.typ.width
      = e1.eval ρ e1.typ.width + n.eval ρ e1.typ.width := heval
    _ = e1.eval ρ e1.typ.width - e2.eval ρ e1.typ.width := by
        rw [hvalue, BitVec.sub_eq_add_neg]

theorem constantFold_agrees
    (hctx : ContextTrue ρ ctx) {e e' : Exp} (hw : e.WellTyped) (hn : e.Normal)
    (he : ¬ e.Misfolds ρ) (h : constantFold wild ctx e = .ok e') :
    e.Agrees ρ e' := by
  by_cases hminus : ∃ e1 e2, e = .binOp .minus e1 e2
  · obtain ⟨e1, e2, rfl⟩ := hminus
    exact constantFold_minus_agrees hctx hw hn h
  · have hplus : (plusEqZero (constantFoldStep wild ctx
        fun _ => throw .assertFailure)).Sound ρ :=
      plusEqZero_sound ρ fun t i ht => by
        rw [constantFoldStep_unOp, foldUnop_eq .neg ht]
    exact constantFoldStep_agrees hctx hw hn (hplus e) he
      (fun e1 e2 heq => hminus ⟨e1, e2, heq⟩) h

/-! ## The rules before the one that is wrong -/

theorem firstMatch_append_none
    {rs rs' : List Rule} {e : Exp} (h : firstMatch rs e = .ok none) :
    firstMatch (rs ++ rs') e = firstMatch rs' e := by
  induction rs with
  | nil => rfl
  | cons r rs ih =>
    rw [firstMatch, OCaml.bind_eq_ok_iff] at h
    obtain ⟨o, hr, h⟩ := h
    rw [List.cons_append, firstMatch, hr, OCaml.ok_bind]
    cases o with
    | none => exact ih h
    | some e' => simp at h

/-- The answer of a rule that none before it forestalls. -/
theorem constantFold_of_rule
    (rs rs' : List Rule) {r : Rule} {e e' : Exp}
    (hrules : rules wild ctx
      (constantFoldStep wild ctx fun _ => throw .assertFailure) = rs ++ r :: rs')
    (hminus : ∀ e1 e2, e ≠ .binOp .minus e1 e2)
    (hnone : firstMatch rs e = .ok none) (hr : r e = .ok (some e')) :
    constantFold wild ctx e = .ok e' := by
  rw [constantFold, constantFoldStep_eq hminus, hrules,
    firstMatch_append_none hnone, firstMatch, hr]
  rfl

/-- The rules before `signExtendByMask`. -/
def rulesBeforeMask (wild : WildShift) : List Rule :=
  constantRules wild ++ identityRules ++ castRules ++ maskRules.take 17

/-- The rules before those for shifts. -/
def rulesBeforeShifts (wild : WildShift) (ctx : LValue → Option Exp) :
    List Rule :=
  constantRules wild ++ identityRules ++ castRules ++ maskRules ++
    impossibleEqRules ++ iteRules ctx ++ concatRules

theorem constantFold_losesSignBits
    {e : Exp} (hw : e.WellTyped) (hn : e.Normal) (he : e.LosesSignBits ρ) :
    ∃ e', constantFold wild ctx e = .ok e' ∧
      e'.eval ρ e.width ≠ e.eval ρ e.width := by
  have hbad := he
  unfold Exp.LosesSignBits at he
  split at he
  · rename_i e1 e1' c
    obtain ⟨⟨rfl, rfl⟩, -⟩ := he
    have hmatch : signExtendByMask (.binOp .bitor (.cast .castUnsigned .reg32 e1)
        (.binOp .bitand (.cast .castSigned .reg32 e1) (.int .reg32 0xffffff00))) =
          .ok (some (.cast .castSigned .reg32 e1)) :=
      rewriteIf_eq_ok_iff.mpr ⟨⟨rfl, rfl⟩, rfl⟩
    refine ⟨_, constantFold_of_rule (rulesBeforeMask wild) _ rfl
      (by simp) rfl hmatch, ?_⟩
    exact fun heq => (signExtendByMask_exactOn ρ _ _ hw hn hmatch).2.2.mp heq hbad
  · exact he.elim

theorem rules_eq :
    rules wild ctx fold =
      rulesBeforeShifts wild ctx ++ (shiftRules wild ++ algebraRules fold) := by
  rw [rules, List.append_assoc, rulesBeforeShifts]

/-- The rules with the last `19 - n` of them set apart. -/
theorem rules_eq_take_drop (n : ℕ) :
    rules wild ctx fold =
      (rulesBeforeShifts wild ctx ++
        (shiftRules wild ++ (algebraRules fold).take n)) ++
          (algebraRules fold).drop n := by
  rw [rules_eq, List.append_assoc, List.append_assoc, List.take_append_drop]

theorem firstMatch_beforeShiftedOr
    {op : BinopType} (hop : op = .eq ∨ op = .neq) (a : Exp) (t t2 t3 : Typ)
    (c : I64) (n : ℕ) (hn : n = if op = .eq then 17 else 18) :
    firstMatch (rulesBeforeShifts wild ctx ++
        (shiftRules wild ++ (algebraRules fold).take n))
      (.binOp op (.binOp .lshift (.binOp .bitor a (.int t c)) (.int t2 32))
        (.int t3 0)) = .ok none := by
  subst hn
  rcases hop with rfl | rfl
  all_goals
    rw [firstMatch_append_none rfl, firstMatch_append_none rfl]
    rfl

theorem firstMatch_identityRules_shift
    {op : BinopType} (hop : op = .lshift ∨ op = .rshift ∨ op = .arshift)
    (x : Exp) (t : Typ) {s : I64} (hs : s ≠ 0) :
    firstMatch identityRules (.binOp op x (.int t s)) = .ok none := by
  have hs : s ≠ 0#64 := hs
  rcases hop with rfl | rfl | rfl
  all_goals
    simp [identityRules, firstMatch, andZero, andOnes, orOnes, rightIdentity,
      modOne, notPredecessor, involution, rewriteIf, hs]

/-- No rule before those for shifts applies to the shift of an operation. -/
theorem firstMatch_rulesBeforeShifts
    (wild : WildShift) (ctx : LValue → Option Exp) {op : BinopType}
    (op' : BinopType) (hop : op = .lshift ∨ op = .rshift ∨ op = .arshift)
    (x y : Exp) (t : Typ) {s : I64} (hs : s ≠ 0) :
    firstMatch (rulesBeforeShifts wild ctx)
      (.binOp op (.binOp op' x y) (.int t s)) = .ok none := by
  have hidentity := firstMatch_identityRules_shift hop (.binOp op' x y) t hs
  rw [rulesBeforeShifts]
  simp only [List.append_assoc]
  have hconst : firstMatch (constantRules wild)
      (.binOp op (.binOp op' x y) (.int t s)) = .ok none := rfl
  rw [firstMatch_append_none hconst, firstMatch_append_none hidentity]
  rcases hop with rfl | rfl | rfl <;> rfl

/-! ## Expressions whose value is changed -/

theorem constantFold_shiftsOutConstant
    {e : Exp} (hw : e.WellTyped) (hn : e.Normal) (he : e.ShiftsOutConstant) :
    ∃ e', constantFold wild ctx e = .ok e' ∧
      e'.eval ρ e.width ≠ e.eval ρ e.width := by
  have hbad := he
  unfold Exp.ShiftsOutConstant at he
  split at he
  · rename_i op a t c t2 s t3 z
    obtain ⟨⟨hop, rfl, rfl, hne⟩, -⟩ := he
    have hmatch : ∀ result, shiftedOrZero op result (.binOp op (.binOp .lshift
        (.binOp .bitor a (.int t c)) (.int t2 32)) (.int t3 0)) =
          .ok (some result) := fun result =>
      rewriteIf_eq_ok_iff.mpr ⟨⟨⟨rfl, rfl, rfl⟩, hne⟩, rfl⟩
    rcases hop with rfl | rfl
    · refine ⟨_, constantFold_of_rule (rulesBeforeShifts wild ctx ++
        (shiftRules wild ++ (algebraRules _).take 17)) _
        (rules_eq_take_drop 17) (by simp)
        (firstMatch_beforeShiftedOr (.inl rfl) a t t2 t3 c 17 rfl)
        (hmatch expFalse), fun heq => ?_⟩
      exact (shiftedOrZero_exactOn ρ _ (.inl ⟨rfl, rfl⟩) _ hw hn
        (hmatch expFalse)).2.2.mp heq hbad
    · refine ⟨_, constantFold_of_rule (rulesBeforeShifts wild ctx ++
        (shiftRules wild ++ (algebraRules _).take 18)) _
        (rules_eq_take_drop 18) (by simp)
        (firstMatch_beforeShiftedOr (.inr rfl) a t t2 t3 c 18 rfl)
        (hmatch expTrue), fun heq => ?_⟩
      exact (shiftedOrZero_exactOn ρ _ (.inr ⟨rfl, rfl⟩) _ hw hn
        (hmatch expTrue)).2.2.mp heq hbad
  · exact he.elim

theorem constantFold_wrapsShift
    {e : Exp} (hw : e.WellTyped) (hn : e.Normal) (he : e.WrapsShift ρ) :
    ∃ e', constantFold wild ctx e = .ok e' ∧
      e'.eval ρ e.width ≠ e.eval ρ e.width := by
  have hbad := he
  unfold Exp.WrapsShift at he
  split at he
  · rename_i op op' x ty1 s1 ty2 s2
    obtain ⟨⟨rfl, rfl, hreg⟩, hle, hshift⟩ := he
    have hop : op' = .lshift ∨ op' = .rshift ∨ op' = .arshift := by
      cases op' <;> simp at hshift ⊢
    have hn1 : s1.toNat < 2 ^ ty1.width := hn.1.2
    have hn2 : s2.toNat < 2 ^ ty1.width := hn.2
    have hs2 : s2 ≠ 0 := by
      rintro rfl
      have hzero : (0 : I64).toNat = 0 := rfl
      omega
    have hwidth : 2 ^ ty1.width ≤ 2 ^ 32 := by
      have hisReg : ty1.IsReg := hw.2.1
      apply Nat.pow_le_pow_right (by decide)
      cases ty1 <;> simp_all [Typ.IsReg]
    have hmatch : shiftOfShift op' (.binOp op' (.binOp op' x (.int ty1 s1))
        (.int ty1 s2)) = .ok (some (.binOp op' x (.int ty1 (s1 + s2)))) :=
      rewriteIf_eq_ok_iff.mpr ⟨⟨⟨rfl, rfl⟩, rfl, (zero_sle_iff s1).mpr (by omega),
        (zero_sle_iff s2).mpr (by omega)⟩, rfl⟩
    have hnone := firstMatch_rulesBeforeShifts wild ctx op' hop x (.int ty1 s1)
      ty1 hs2
    have hvalue := mt (shiftOfShift_exactOn ρ _ hop _ hw hn hmatch).2.2.mp
      (not_not.mpr hbad)
    refine ⟨_, ?_, hvalue⟩
    rcases hop with rfl | rfl | rfl
    · exact constantFold_of_rule (rulesBeforeShifts wild ctx ++
        (shiftRules wild).take 3) _ rfl (by simp)
        ((firstMatch_append_none hnone).trans rfl) hmatch
    · exact constantFold_of_rule (rulesBeforeShifts wild ctx ++
        (shiftRules wild).take 4) _ rfl (by simp)
        ((firstMatch_append_none hnone).trans rfl) hmatch
    · exact constantFold_of_rule (rulesBeforeShifts wild ctx ++
        (shiftRules wild).take 5) _ rfl (by simp)
        ((firstMatch_append_none hnone).trans rfl) hmatch
  · exact he.elim

theorem constantFold_shiftsProductFar
    {e : Exp} (hw : e.WellTyped) (hn : e.Normal) (he : e.ShiftsProductFar ρ) :
    ∃ e', constantFold (.const 1) ctx e = .ok e' ∧
      e'.eval ρ e.width ≠ e.eval ρ e.width := by
  have hbad := he
  unfold Exp.ShiftsProductFar at he
  split at he
  · rename_i x ty factor t2 shift
    have hshift : shift ≠ 0 := by
      rintro rfl
      exact absurd he.1 (by decide)
    obtain ⟨factor2, hmatch, hvalue⟩ := shiftOfProduct_wrong ρ hw hn.2 hbad
    have hnone := firstMatch_rulesBeforeShifts (.const 1) ctx .times (.inl rfl)
      x (.int ty factor) t2 hshift
    exact ⟨_, constantFold_of_rule (rulesBeforeShifts (.const 1) ctx ++
      (shiftRules (.const 1)).take 7) _ rfl (by simp)
      ((firstMatch_append_none hnone).trans rfl) hmatch, hvalue⟩
  · exact he.elim

theorem constantFold_swapsChoice
    {e : Exp} (hw : e.WellTyped) (hn : e.Normal) (he : e.SwapsChoice) :
    ∃ e', constantFold wild ctx e = .ok e' ∧
      e'.eval ρ e.width ≠ e.eval ρ e.width := by
  have hbad := he
  unfold Exp.SwapsChoice at he
  split at he
  · rename_i c1 k1 c2 k2
    obtain ⟨rfl, rfl⟩ := he
    have hmatch : maskedChoice (.binOp .bitor
        (.binOp .bitand (.cast .castSigned .reg32 c1) (.int .reg32 k1))
        (.binOp .bitand (.unOp .not (.cast .castSigned .reg32 c1))
          (.int .reg32 (k1 + 1)))) =
        .ok (some (.binOp .plus (.int .reg32 k1)
          (.cast .castUnsigned .reg32 c1))) :=
      rewriteIf_eq_ok_iff.mpr ⟨⟨rfl, rfl⟩, rfl⟩
    refine ⟨_, constantFold_of_rule (rulesBeforeShifts wild ctx ++
      (shiftRules wild).take 18) _ rfl (by simp)
      ((firstMatch_append_none rfl).trans rfl) hmatch, fun heq => ?_⟩
    exact (maskedChoice_exactOn ρ _ _ hw hn hmatch).2.2.mp heq hbad
  · exact he.elim

/-- Where an operation on constants is computed wrong, the result is still a
constant of the right type. -/
theorem constantFold_foldsWrong_returns
    (wild : WildShift) (ctx : LValue → Option Exp) {e : Exp} (hw : e.WellTyped)
    (hdiv : e.DivisorNonzero) (he : e.FoldsWrong) :
    ∃ x : BitVec e.width,
      constantFold wild ctx e = .ok (.int e.typ (x.setWidth 64)) := by
  unfold Exp.FoldsWrong at he
  split at he
  · rename_i op t i1 t2 i2
    obtain ⟨ht, ht2, hadm⟩ := hw
    have hminus : op ≠ .minus := by
      rintro rfl
      exact he
    simp only [constantFold, constantFoldStep_binOp _ _ _ hminus]
    cases op with
    | divide =>
      obtain rfl : t2 = t := hadm
      have hne := signExtend_ne_zero t2.width_le (hdiv (.inl rfl))
      simp only [foldBinop, tos64_int ht, OCaml.ok_bind, I64.udiv_eq _ _ hne]
      exact ⟨_, toVal_eq ht _⟩
    | mod =>
      obtain rfl : t2 = t := hadm
      have hne := signExtend_ne_zero t2.width_le (hdiv (.inr (.inr (.inl rfl))))
      simp only [foldBinop, tos64_int ht, OCaml.ok_bind, I64.urem_eq _ _ hne]
      exact ⟨_, toVal_eq ht _⟩
    | lshift | rshift | arshift =>
      simp only [foldBinop, to64_int ht, tos64_int ht, ht.bitsOfWidth_eq,
        OCaml.ok_bind, toshift_eq ht2 i2 t.width_le]
      exact ⟨_, toVal_eq ht _⟩
    | _ => exact he.elim
  · rename_i ct t2 t i
    obtain ⟨ht, ht2, hadm⟩ := hw
    obtain ⟨rfl, -⟩ := he
    simp only [constantFold, constantFoldStep_cast, foldCast, ht.bitsOfWidth_eq,
      ht2.bitsOfWidth_eq, to64_int ht, OCaml.ok_bind]
    exact ⟨_, toVal_eq ht2 _⟩
  · exact he.elim

theorem constantFold_foldsWrong
    (ρ : Valuation μ) (ctx : LValue → Option Exp) {e : Exp} (hw : e.WellTyped)
    (hconst : e.IsConstantOperation) (hdiv : e.DivisorNonzero)
    (he : e.FoldsWrong) :
    ∃ wild e', constantFold wild ctx e = .ok e' ∧
      e'.eval ρ e.width ≠ e.eval ρ e.width := by
  obtain ⟨wild, hwild⟩ : ∃ wild, constantFold wild ctx e ≠
      .ok (.int e.typ e.constantValue) := by
    by_contra hall
    push Not at hall
    exact (constantFold_constant_iff ctx hconst hw hdiv).mp hall he
  obtain ⟨x, hx⟩ := constantFold_foldsWrong_returns wild ctx hw hdiv he
  refine ⟨wild, _, hx, fun heq => hwild ?_⟩
  have hxe : x = e.eval ρ e.width := by
    rw [← heq]
    exact (setWidth_zeroExtend e.typ.width_le x).symm
  rw [hx, hxe, eval_constantOperation ρ hconst]
  rfl

theorem constantFold_misfolds
    (ctx : LValue → Option Exp) {e : Exp} (hw : e.WellTyped) (hn : e.Normal)
    (he : e.Misfolds ρ) :
    ∃ wild e', constantFold wild ctx e = .ok e' ∧
      e'.eval ρ e.width ≠ e.eval ρ e.width := by
  rcases he with ⟨hconst, hdiv, h⟩ | h | h | h | h | h
  · exact constantFold_foldsWrong ρ ctx hw hconst hdiv h
  · exact ⟨.const 0, constantFold_losesSignBits hw hn h⟩
  · exact ⟨.const 0, constantFold_shiftsOutConstant hw hn h⟩
  · exact ⟨.const 0, constantFold_wrapsShift hw hn h⟩
  · exact ⟨.const 1, constantFold_shiftsProductFar hw hn h⟩
  · exact ⟨.const 0, constantFold_swapsChoice hw hn h⟩

/-! ## Which expressions keep their type and value -/

/-- What constant folding returns for an expression that the type checker
accepts has its type, and it has its value on every platform just where the
expression is not one that is misfolded. -/
theorem constantFold_preserves_iff
    {ctx : LValue → Option Exp} {e : Exp} {t : Typ} (hint : e.IsInteger)
    (hn : e.Normal) (ht : inferType none e = .ok t) (hctx : ContextTrue ρ ctx) :
    (∀ wild e', constantFold wild ctx e = .ok e' →
        inferType none e' = .ok t ∧ e'.eval ρ t.width = e.eval ρ t.width) ↔
      ¬ e.Misfolds ρ := by
  obtain ⟨hw, rfl⟩ := (Exp.inferType_ok_iff hint).mp ht
  constructor
  · intro h hbad
    obtain ⟨wild, e', hfold, hne⟩ := constantFold_misfolds ctx hw hn hbad
    exact hne (h wild e' hfold).2
  · intro hgood wild e' hfold
    obtain ⟨hwell, htyp, heval⟩ := constantFold_agrees hctx hw hn hgood hfold
    exact ⟨htyp ▸ hwell.inferType_eq, heval⟩

/-- `(U32 (U16 x)) : REG_16` is `x` for the 16-bit variable `x`. -/
theorem constantFold_preserves_iff_extend :
    (∀ wild e', constantFold wild (fun _ => none) (.cast .castLow .reg16
          (.cast .castUnsigned .reg32 (.temp ⟨0, [], .reg16⟩))) = .ok e' →
        inferType none e' = .ok .reg16 ∧
          e'.eval Valuation.zero 16 = (Exp.cast .castLow .reg16
            (.cast .castUnsigned .reg32 (.temp ⟨0, [], .reg16⟩))).eval
              Valuation.zero 16) ↔
      ¬ (Exp.cast .castLow .reg16 (.cast .castUnsigned .reg32
        (.temp ⟨0, [], .reg16⟩))).Misfolds Valuation.zero :=
  constantFold_preserves_iff (t := .reg16) ⟨trivial, trivial, trivial⟩ trivial
    (by decide) (fun _ _ h => nomatch h)

/-- `(c ? 5 : 6)` written with masks. -/
def maskedChoiceExp : Exp :=
  .binOp .bitor
    (.binOp .bitand (.cast .castSigned .reg32 (.temp ⟨0, [], .reg1⟩))
      (.int .reg32 5))
    (.binOp .bitand (.unOp .not (.cast .castSigned .reg32
      (.temp ⟨0, [], .reg1⟩))) (.int .reg32 6))

/-- Where `c` holds, `(c ? 5 : 6)` is 5, and it is folded to `5 + c`, which is
6. -/
theorem constantFold_choice_wrong :
    let ρ : Valuation Unit := Valuation.zero.setTemp ⟨0, [], .reg1⟩ 1
    maskedChoiceExp.IsInteger ∧ maskedChoiceExp.Normal ∧
      inferType none maskedChoiceExp = .ok .reg32 ∧
      ContextTrue ρ (fun _ => none) ∧
      maskedChoiceExp.eval ρ 32 = 5 ∧
      ∃ e', constantFold (.const 0) (fun _ => none) maskedChoiceExp = .ok e' ∧
        e'.eval ρ 32 = 6 := by
  have hctx : ∀ ρ : Valuation Unit, ContextTrue ρ (fun _ => none) := by
    intro ρ lv c h
    simp at h
  refine ⟨by simp [maskedChoiceExp, Exp.IsInteger, Typ.IsReg],
    by simp [maskedChoiceExp, Exp.Normal], by decide, hctx _, by decide, ?_⟩
  exact ⟨.binOp .plus (.int .reg32 5) (.cast .castUnsigned .reg32
    (.temp ⟨0, [], .reg1⟩)), rfl, by decide⟩

end Fuzzball.Vine
