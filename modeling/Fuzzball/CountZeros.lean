import Fuzzball.DivModU128
import Fuzzball.Statements

/-!
# Counting zeros

`translate_Clz32`, `translate_Clz64`, `translate_Ctz32` and `translate_Ctz64`
of `irtoir.cpp`: a loop that is unrolled once more than there are bits, and
that is left when the shifted operand is zero.  They are compared with the
counts of the bit vector library and with `clz64_ite`.
-/

namespace Fuzzball.Asmir

open Vine

/-! ## The source -/

/-- The unrolled rounds of the loop. -/
def countRounds (shift : Exp → Exp → Exp) (zero one : Exp)
    (counter temp : Var) (done : OString) : ℕ → Translate Unit
  | 0 => pure ()
  | i + 1 => do
    let not_taken ← mkLabel
    let cond := exEq (.temp temp) zero
    pushBack (.cjmp cond (.name done) (.name not_taken))
    pushBack (.label not_taken)
    pushBack (.move (.temp temp) (shift (.temp temp) (exConst 1)))
    pushBack (.move (.temp counter) (exSub (.temp counter) one))
    countRounds shift zero one counter temp done i

/-- What the four functions share; `tempFirst` says which of the two
temporaries is assigned first. -/
def unrolledCount (type : Typ) (shift : Exp → Exp → Exp)
    (bits zero one : Exp) (tempFirst : Bool) (rounds : ℕ) (arg : Exp) :
    Translate Exp := do
  let counter ← liftEmit (mkTemp type)
  let temp ← liftEmit (mkTemp type)
  let done ← mkLabel
  if tempFirst then
    pushBack (.move (.temp temp) arg)
    pushBack (.move (.temp counter) bits)
  else
    pushBack (.move (.temp counter) bits)
    pushBack (.move (.temp temp) arg)
  countRounds shift zero one counter temp done rounds
  pushBack (.label done)
  pure (.temp counter)

def translateClz32 : Exp → Translate Exp :=
  unrolledCount .reg32 exShr (exConst 32) (exConst 0) (exConst 1) false 33

def translateClz64 : Exp → Translate Exp :=
  unrolledCount .reg64 exShr (exConst64 64) (exConst64 0) (exConst64 1) false 65

def translateCtz32 : Exp → Translate Exp :=
  unrolledCount .reg32 exShl (exConst 32) (exConst 0) (exConst 1) true 33

def translateCtz64 : Exp → Translate Exp :=
  unrolledCount .reg64 exShl (exConst64 64) (exConst64 0) (exConst64 1) true 65

/-! ## Shifting until nothing is left -/

section Shifts

variable {w : ℕ}

/-- `f` first reaches zero in `k` steps. -/
structure ReachesZeroIn (f : BitVec w → BitVec w) (x : BitVec w) (k : ℕ) :
    Prop where
  zero : f^[k] x = 0
  ne_zero : ∀ j < k, f^[j] x ≠ 0

theorem ReachesZeroIn.next {f : BitVec w → BitVec w} {x : BitVec w} {k : ℕ}
    (h : ReachesZeroIn f x (k + 1)) : ReachesZeroIn f (f x) k :=
  ⟨h.zero, fun j hj => h.ne_zero (j + 1) (Nat.succ_lt_succ hj)⟩

theorem iterate_shiftRight (x : BitVec w) (k : ℕ) :
    (fun y : BitVec w => y >>> 1)^[k] x = x >>> k := by
  induction k with
  | zero => simp
  | succ k ih =>
    rw [Function.iterate_succ_apply', ih, ← BitVec.shiftRight_add]

theorem iterate_shiftLeft (x : BitVec w) (k : ℕ) :
    (fun y : BitVec w => y <<< 1)^[k] x = x <<< k := by
  induction k with
  | zero => simp
  | succ k ih =>
    rw [Function.iterate_succ_apply', ih, ← BitVec.shiftLeft_add]

theorem toNat_width (w : ℕ) : ((w : ℕ) : BitVec w).toNat = w := by
  rw [BitVec.natCast_eq_ofNat, BitVec.toNat_ofNat]
  exact Nat.mod_eq_of_lt Nat.lt_two_pow_self

theorem toNat_clz_le (x : BitVec w) : x.clz.toNat ≤ w :=
  (BitVec.le_def.mp BitVec.clz_le).trans (toNat_width w).le

theorem toNat_clz_zero : (0#w).clz.toNat = w := by
  rw [BitVec.clz_eq_iff_eq_zero.mpr rfl, toNat_width]

theorem toNat_ctz_le (x : BitVec w) : x.ctz.toNat ≤ w :=
  toNat_clz_le x.reverse

theorem toNat_ctz_zero : (0#w).ctz.toNat = w := by
  rw [BitVec.ctz, BitVec.reverse_eq_zero_iff.mpr rfl, toNat_clz_zero]

theorem shiftRight_reachesZero (x : BitVec w) :
    ReachesZeroIn (fun y => y >>> 1) x (w - x.clz.toNat) := by
  constructor
  · rw [iterate_shiftRight]
    apply BitVec.eq_of_toNat_eq
    rw [BitVec.toNat_ushiftRight, Nat.shiftRight_eq_div_pow,
      Nat.div_eq_of_lt BitVec.toNat_lt_two_pow_sub_clz]
    rfl
  · intro j hj hzero
    have hx : x ≠ 0#w := by
      rintro rfl
      rw [toNat_clz_zero] at hj
      omega
    rw [iterate_shiftRight] at hzero
    have hdiv : x.toNat / 2 ^ j = 0 := by
      rw [← Nat.shiftRight_eq_div_pow, ← BitVec.toNat_ushiftRight, hzero]
      rfl
    have hlt : x.toNat < 2 ^ j := (Nat.div_eq_zero_iff.mp hdiv).resolve_left
      (Nat.two_pow_pos j).ne'
    have hge : 2 ^ (w - 1 - x.clz.toNat) ≤ x.toNat :=
      BitVec.two_pow_sub_clz_le_toNat_of_ne_zero (by omega) hx
    have hpow : 2 ^ j ≤ 2 ^ (w - 1 - x.clz.toNat) :=
      Nat.pow_le_pow_right (by decide) (by omega)
    omega

theorem shiftLeft_reachesZero (x : BitVec w) :
    ReachesZeroIn (fun y => y <<< 1) x (w - x.ctz.toNat) := by
  have hle := toNat_ctz_le x
  constructor
  · rw [iterate_shiftLeft]
    apply BitVec.eq_of_getLsbD_eq
    intro i hi
    rw [BitVec.getLsbD_shiftLeft]
    by_cases hlow : i < w - x.ctz.toNat
    · simp [hlow]
    · have hbit : x.getLsbD (i - (w - x.ctz.toNat)) = false :=
        BitVec.getLsbD_false_of_lt_ctz (by omega)
      simp [hbit]
  · intro j hj hzero
    have hx : x ≠ 0#w := by
      rintro rfl
      rw [toNat_ctz_zero] at hj
      omega
    rw [iterate_shiftLeft] at hzero
    -- the lowest bit set is still there
    have hbit : (x <<< j).getLsbD (x.ctz.toNat + j) = true := by
      have hset := BitVec.getLsbD_true_ctz_of_ne_zero hx
      rw [BitVec.getLsbD_shiftLeft]
      simp [hset, show x.ctz.toNat + j < w by omega]
    rw [hzero] at hbit
    simp at hbit

/-- What is left of the width in the counter. -/
theorem width_sub_steps {c : BitVec w} (hc : c.toNat ≤ w) :
    BitVec.ofNat w w - BitVec.ofNat w (w - c.toNat) = c := by
  apply BitVec.eq_of_toNat_eq
  have hlt : w < 2 ^ w := Nat.lt_two_pow_self
  rw [BitVec.toNat_sub, BitVec.toNat_ofNat, BitVec.toNat_ofNat,
    Nat.mod_eq_of_lt (show w - c.toNat < 2 ^ w by omega),
    Nat.mod_eq_of_lt hlt,
    show 2 ^ w - (w - c.toNat) + w = c.toNat + 2 ^ w by omega,
    Nat.add_mod_right, Nat.mod_eq_of_lt c.isLt]

end Shifts

/-! ## The rounds -/

section Rounds

variable {μ : Type} [VineMemory μ] {ρ : Valuation μ} {t : Typ} {w : ℕ}
  {shift : Exp → Exp → Exp} {zero one : Exp} {counter temp : Var}
  {done : OString}

theorem labelsWithin_countRounds (i n l : ℕ) :
    LabelsWithin l (countRounds shift zero one counter temp done i n l).stmts
      (l + i) := by
  induction i generalizing l with
  | zero => exact labelsWithin_nil le_rfl
  | succ i ih =>
    have hrest := ih (l + 1)
    refine ⟨by omega, fun lab hlab => ?_⟩
    rcases List.mem_cons.mp hlab with rfl | hlab
    · exact ⟨l, le_rfl, by omega, rfl⟩
    · obtain ⟨k, hlk, hki, rfl⟩ := hrest.number lab hlab
      exact ⟨k, by omega, by omega, rfl⟩

/-- A round that is not the last: the two moves. -/
theorem round_moves {g : BitVec w → BitVec w} {x c : BitVec w}
    (hne : temp ≠ counter)
    (hshift : ∀ (ρ : Valuation μ) (x : BitVec w), Denotes ρ (.temp temp) t x →
      Denotes ρ (shift (.temp temp) (exConst 1)) t (g x))
    (hone : ∀ ρ : Valuation μ, Denotes ρ one t (1#w))
    (htemp : Denotes ρ (.temp temp) t x)
    (hcounter : Denotes ρ (.temp counter) t c) :
    let ρ1 := exec [.move temp (shift (.temp temp) (exConst 1))] ρ
    let ρ2 := exec [.move counter (exSub (.temp counter) one)] ρ1
    Denotes ρ2 (.temp temp) t (g x) ∧ Denotes ρ2 (.temp counter) t (c - 1#w) ∧
      AgreeOn (fun v => v ≠ temp ∧ v ≠ counter) ρ ρ2 := by
  intro ρ1 ρ2
  have hagree1 : AgreeOn (· ≠ temp) ρ ρ1 := agreeOn_move _ _ _
  have hagree2 : AgreeOn (· ≠ counter) ρ1 ρ2 := agreeOn_move _ _ _
  have htemp1 : Denotes ρ1 (.temp temp) t (g x) :=
    denotes_move htemp.typ (hshift ρ x htemp)
  have hcounter1 : Denotes ρ1 (.temp counter) t c :=
    Denotes.congr hcounter (S := (· ≠ temp)) hne.symm hagree1
  refine ⟨htemp1.congr (S := (· ≠ counter)) hne hagree2,
    denotes_move hcounter.typ (hcounter1.sub (hone ρ1)), ?_⟩
  exact (hagree1.mono fun v hv => hv.1).trans (hagree2.mono fun v hv => hv.2)

theorem countRounds_reaches {frag target : List Statement}
    {g : BitVec w → BitVec w} (hne : temp ≠ counter)
    (hshift : ∀ (ρ : Valuation μ) (x : BitVec w), Denotes ρ (.temp temp) t x →
      Denotes ρ (shift (.temp temp) (exConst 1)) t (g x))
    (hzero : ∀ ρ : Valuation μ, Denotes ρ zero t (0#w))
    (hone : ∀ ρ : Valuation μ, Denotes ρ one t (1#w))
    (hdone : findLabel done frag = some target) :
    ∀ {k i : ℕ} {x c : BitVec w} {n l : ℕ} {pre post : List Statement}
      {ρ : Valuation μ},
      frag = pre ++
        ((countRounds shift zero one counter temp done i n l).stmts ++ post) →
      LabelsBelow l pre → ReachesZeroIn g x k → k < i →
      Denotes ρ (.temp temp) t x → Denotes ρ (.temp counter) t c →
      ∃ ρ', Reaches frag
          (.running
            ((countRounds shift zero one counter temp done i n l).stmts ++ post)
            ρ)
          (.running target ρ') ∧
        Denotes ρ' (.temp counter) t (c - BitVec.ofNat w k) ∧
        AgreeOn (fun v => v ≠ temp ∧ v ≠ counter) ρ ρ' := by
  intro k
  induction k with
  | zero =>
    intro i x c n l pre post ρ _ _ hk hi htemp hcounter
    obtain ⟨i, rfl⟩ : ∃ j, i = j + 1 := ⟨i - 1, by omega⟩
    refine ⟨ρ, ?_, by simpa using hcounter, ⟨fun _ _ => rfl, rfl, rfl⟩⟩
    have hx : x = 0#w := hk.zero
    apply reaches_cjmp (htemp.eq (hzero ρ)) _ Reaches.refl
    simp [hx, hdone]
  | succ k ih =>
    intro i x c n l pre post ρ hfrag hpre hk hi htemp hcounter
    obtain ⟨i, rfl⟩ : ∃ j, i = j + 1 := ⟨i - 1, by omega⟩
    have hx : x ≠ 0#w := hk.ne_zero 0 (Nat.succ_pos k)
    obtain ⟨htemp', hcounter', hagree⟩ :=
      round_moves hne hshift hone htemp hcounter
    -- the next round stands after this one
    let cjmp : Statement := .cjmp (exEq (.temp temp) zero) (.name done)
      (.name (labelName l))
    let body : List Statement :=
      [.label (labelName l),
        .move (.temp temp) (shift (.temp temp) (exConst 1)),
        .move (.temp counter) (exSub (.temp counter) one)]
    have hbody : LabelsWithin l (cjmp :: body) (l + 1) := by
      refine ⟨by omega, fun lab hlab => ⟨l, le_rfl, by omega, ?_⟩⟩
      simpa [labels, cjmp, body] using hlab
    have hfrag' : frag = (pre ++ cjmp :: body) ++
        ((countRounds shift zero one counter temp done i n (l + 1)).stmts ++
          post) := by
      rw [hfrag, List.append_assoc]
      rfl
    have hnext : findLabel (labelName l) frag = some (body ++
        ((countRounds shift zero one counter temp done i n (l + 1)).stmts ++
          post)) := by
      have hpre' : labelName l ∉ labels (pre ++ [cjmp]) := by
        simpa [labels_append, labels, cjmp] using hpre l le_rfl
      rw [hfrag', show pre ++ cjmp :: body = (pre ++ [cjmp]) ++ body by simp,
        List.append_assoc]
      exact findLabel_append hpre' _
    obtain ⟨ρ', hreach, hresult, hagree'⟩ := ih hfrag' (hpre.append hbody)
      hk.next (Nat.lt_of_succ_lt_succ hi) htemp' hcounter'
    refine ⟨ρ', ?_, ?_, hagree.trans hagree'⟩
    · apply reaches_cjmp (htemp.eq (hzero ρ))
      · rw [beq_eq_false_iff_ne.mpr hx]
        exact hnext
      · exact reaches_label (reaches_move (reaches_move hreach))
    · rw [show BitVec.ofNat w (k + 1) = 1#w + BitVec.ofNat w k by
        rw [Nat.add_comm, BitVec.ofNat_add], ← BitVec.sub_sub]
      exact hresult

end Rounds

/-! ## The functions -/

/-- An expression that has the value under every valuation. -/
def Always (e : Exp) (t : Typ) (x : BitVec t.width) : Prop :=
  ∀ {μ : Type} [VineMemory μ] (ρ : Valuation μ), Denotes ρ e t x

/-- What a shift by one place does to a value. -/
def ShiftsBy (shift : Exp → Exp → Exp) (t : Typ)
    (g : BitVec t.width → BitVec t.width) : Prop :=
  ∀ {μ : Type} [VineMemory μ] {ρ : Valuation μ} {e : Exp} {x : BitVec t.width},
    Denotes ρ e t x → Denotes ρ (shift e (exConst 1)) t (g x)

theorem shiftsBy_shr (t : Typ) : ShiftsBy exShr t fun x => x >>> 1 := by
  intro μ _ ρ e x hx
  exact hx.shr (.const32 1)

theorem shiftsBy_shl (t : Typ) : ShiftsBy exShl t fun x => x <<< 1 := by
  intro μ _ ρ e x hx
  exact hx.shl (.const32 1)

theorem always_const32 (value : BitVec 32) :
    Always (exConst value) .reg32 value := fun _ => .const32 value

theorem always_const64 (value : I64) :
    Always (exConst64 value) .reg64 value := fun _ => .const64 value

theorem unrolledCount_stmts (type : Typ) (shift : Exp → Exp → Exp)
    (bits zero one : Exp) (tempFirst : Bool) (rounds : ℕ) (arg : Exp)
    (n l : ℕ) :
    let counter := tempVar type n
    let temp := tempVar type (n + 1)
    let moves : List Stmt :=
      if tempFirst then [.move temp arg, .move counter bits]
      else [.move counter bits, .move temp arg]
    (unrolledCount type shift bits zero one tempFirst rounds arg n l).stmts =
      (.varDecl counter :: .varDecl temp :: moves).map Stmt.toStatement ++
        ((countRounds shift zero one counter temp (labelName l) rounds (n + 2)
          (l + 1)).stmts ++ [.label (labelName l)]) := by
  cases tempFirst <;> rfl

theorem unrolledCount_value (type : Typ) (shift : Exp → Exp → Exp)
    (bits zero one : Exp) (tempFirst : Bool) (rounds : ℕ) (arg : Exp)
    (n l : ℕ) :
    (unrolledCount type shift bits zero one tempFirst rounds arg n l).value =
      .temp (tempVar type n) := by
  cases tempFirst <;> rfl

theorem computes_unrolledCount {t : Typ} {shift : Exp → Exp → Exp}
    {bits zero one : Exp} (tempFirst : Bool) {rounds : ℕ}
    {g : BitVec t.width → BitVec t.width} {steps : BitVec t.width → ℕ}
    (hshift : ShiftsBy shift t g)
    (hbits : Always bits t (BitVec.ofNat t.width t.width))
    (hzero : Always zero t (0#t.width)) (hone : Always one t (1#t.width))
    (hsteps : ∀ x, ReachesZeroIn g x (steps x))
    (hlt : ∀ x, steps x < rounds) :
    Computes t t (unrolledCount t shift bits zero one tempFirst rounds)
      fun x k =>
        k = BitVec.ofNat t.width t.width - BitVec.ofNat t.width (steps x) := by
  constructor
  intro μ _ n l arg ρ harg pre post hpre
  set r := unrolledCount t shift bits zero one tempFirst rounds arg n l
  set counter := tempVar t n with hcounterVar
  set temp := tempVar t (n + 1) with htempVar
  have hne : temp ≠ counter := by
    intro h
    have hid := congrArg Var.id h
    simp [htempVar, hcounterVar, tempVar] at hid
  have hnew : ∀ v : Var, Numbered n v → v ≠ counter ∧ v ≠ temp := by
    intro v hv
    constructor <;> rintro rfl <;>
      simp [Numbered, hcounterVar, htempVar, tempVar] at hv
  set moves : List Stmt :=
    if tempFirst then [.move temp arg, .move counter bits]
    else [.move counter bits, .move temp arg] with hmoves
  set x := arg.eval ρ t.width with hx
  have harg' : ∀ {ρ' : Valuation μ}, AgreeOn (Numbered n) ρ ρ' →
      Denotes ρ' arg t x := fun hagree => harg.denotes hagree
  -- either order of the first two moves
  have hinit : Denotes (exec moves ρ) (.temp temp) t x ∧
      Denotes (exec moves ρ) (.temp counter) t
        (BitVec.ofNat t.width t.width) ∧
      AgreeOn (Numbered n) ρ (exec moves ρ) := by
    cases tempFirst with
    | false =>
      have h1 : AgreeOn (· ≠ counter) ρ (exec [.move counter bits] ρ) :=
        agreeOn_move _ _ _
      have h2 : AgreeOn (· ≠ temp) (exec [.move counter bits] ρ)
          (exec moves ρ) := agreeOn_move _ _ _
      have h1' := h1.mono fun v hv => (hnew v hv).1
      refine ⟨denotes_move rfl (harg' h1'), ?_,
        h1'.trans (h2.mono fun v hv => (hnew v hv).2)⟩
      exact (denotes_move rfl (hbits ρ)).congr (S := (· ≠ temp)) hne.symm h2
    | true =>
      have h1 : AgreeOn (· ≠ temp) ρ (exec [.move temp arg] ρ) :=
        agreeOn_move _ _ _
      have h2 : AgreeOn (· ≠ counter) (exec [.move temp arg] ρ)
          (exec moves ρ) := agreeOn_move _ _ _
      have h1' := h1.mono fun v hv => (hnew v hv).2
      refine ⟨?_, denotes_move rfl (hbits _),
        h1'.trans (h2.mono fun v hv => (hnew v hv).1)⟩
      exact (denotes_move rfl (harg' ⟨fun _ _ => rfl, rfl, rfl⟩)).congr
        (S := (· ≠ counter)) hne h2
  obtain ⟨htemp, hcounter, hagree⟩ := hinit
  set head := (Stmt.varDecl counter :: .varDecl temp :: moves).map
    Stmt.toStatement
  set body := (countRounds shift zero one counter temp (labelName l) rounds
    (n + 2) (l + 1)).stmts with hbody
  have hstmts : r.stmts = head ++ (body ++ [.label (labelName l)]) :=
    unrolledCount_stmts t shift bits zero one tempFirst rounds arg n l
  have hfrag : pre ++ (r.stmts ++ post) =
      (pre ++ head) ++ (body ++ .label (labelName l) :: post) := by
    rw [hstmts]
    simp
  have hpre' : LabelsBelow (l + 1) (pre ++ head) :=
    (hpre.append (labelsWithin_toStatement l _)).mono (Nat.le_succ l)
  have hdone : findLabel (labelName l) (pre ++ (r.stmts ++ post)) =
      some (.label (labelName l) :: post) := by
    rw [hfrag, ← List.append_assoc]
    apply findLabel_append
    intro hmem
    rw [labels_append] at hmem
    rcases List.mem_append.mp hmem with hmem | hmem
    · exact hpre.append (labelsWithin_toStatement l _) l le_rfl hmem
    · obtain ⟨k, hk, _, hname⟩ :=
        (labelsWithin_countRounds rounds (n + 2) (l + 1)).number _ hmem
      have hlk := labelName_injective hname
      omega
  obtain ⟨ρ', hreach, hresult, hkeep⟩ := countRounds_reaches (g := g) hne
    (fun ρ y hy => hshift hy) hzero hone hdone hfrag hpre' (hsteps x) (hlt x)
    htemp hcounter
  have hvalue : r.value = .temp counter :=
    unrolledCount_value t shift bits zero one tempFirst rounds arg n l
  refine ⟨ρ', _, ?_, hagree.trans (hkeep.mono fun v hv => (hnew v hv).symm),
    hvalue ▸ hresult, rfl⟩
  have hrun : r.stmts ++ post =
      head ++ (body ++ .label (labelName l) :: post) := by
    rw [hstmts]
    simp
  rw [hrun] at hreach ⊢
  apply reaches_toStatement
  exact hreach.trans (reaches_label Reaches.refl)

/-- The exponent of the highest bit and the leading zeros fill the width. -/
theorem log_add_clz {w : ℕ} (hw : 0 < w) {x : BitVec w} (hx : x ≠ 0#w) :
    Nat.log 2 x.toNat + x.clz.toNat + 1 = w := by
  have hle := BitVec.two_pow_sub_clz_le_toNat_of_ne_zero hw hx
  have hlt := BitVec.toNat_lt_two_pow_sub_clz (x := x)
  have hclz : x.clz.toNat < w := by
    apply lt_of_le_of_ne (toNat_clz_le x)
    intro heq
    rw [heq, Nat.sub_self, pow_zero] at hlt
    exact hx (BitVec.eq_of_toNat_eq (Nat.lt_one_iff.mp hlt))
  have hlog : Nat.log 2 x.toNat = w - 1 - x.clz.toNat := by
    apply Nat.log_eq_of_pow_le_of_lt_pow hle
    rwa [show w - 1 - x.clz.toNat + 1 = w - x.clz.toNat by omega]
  omega

theorem computes_clz64Ite :
    Computes .reg64 .reg32 (fun x => liftEmit (clz64Ite x)) fun x k =>
      x ≠ 0 → k.toNat = x.clz.toNat := by
  constructor
  intro μ _ n l e ρ he
  apply runs_liftEmit (places_clz64Ite he.below)
  intro ρ' hagree
  have hx := he.denotes hagree
  set x := e.eval ρ Typ.reg64.width
  have htyp : Yields ρ' (clz64Ite e) fun r => r.typ = .reg32 :=
    ⟨fun n _ => rfl⟩
  by_cases hzero : x = 0
  · exact htyp.imp fun r hr => ⟨_, ⟨hr, rfl, rfl⟩, fun hne => absurd hzero hne⟩
  · apply (yields_clz64Ite hx hzero).imp
    rintro r ⟨k, hk, hlog⟩
    refine ⟨k, hk, fun _ => ?_⟩
    have hclz := log_add_clz (w := 64) (by decide) hzero
    exact Nat.add_left_cancel (Nat.succ.inj (hlog.trans hclz.symm))

section Unrolled

variable {t : Typ} {bits zero one : Exp} {tempFirst : Bool}

theorem computes_leadingZeros
    (hbits : Always bits t (BitVec.ofNat t.width t.width))
    (hzero : Always zero t (0#t.width)) (hone : Always one t (1#t.width)) :
    Computes t t (unrolledCount t exShr bits zero one tempFirst (t.width + 1))
      fun x k => k = x.clz := by
  have h := computes_unrolledCount tempFirst (shiftsBy_shr t) hbits
    hzero hone shiftRight_reachesZero fun x =>
      Nat.lt_succ_of_le (Nat.sub_le _ _)
  simpa only [width_sub_steps (toNat_clz_le _)] using h

theorem computes_trailingZeros
    (hbits : Always bits t (BitVec.ofNat t.width t.width))
    (hzero : Always zero t (0#t.width)) (hone : Always one t (1#t.width)) :
    Computes t t (unrolledCount t exShl bits zero one tempFirst (t.width + 1))
      fun x k => k = x.ctz := by
  have h := computes_unrolledCount tempFirst (shiftsBy_shl t) hbits
    hzero hone shiftLeft_reachesZero fun x =>
      Nat.lt_succ_of_le (Nat.sub_le _ _)
  simpa only [width_sub_steps (toNat_ctz_le _)] using h

end Unrolled

/-- Every function yields the number of leading or trailing zeros, which is
the width for zero. -/
theorem countZeros_exact :
    Computes .reg64 .reg32 (fun x => liftEmit (clz64Ite x))
        (fun x k => x ≠ 0 → k.toNat = x.clz.toNat) ∧
      Computes .reg32 .reg32 translateClz32 (fun x k => k = x.clz) ∧
      Computes .reg64 .reg64 translateClz64 (fun x k => k = x.clz) ∧
      Computes .reg32 .reg32 translateCtz32 (fun x k => k = x.ctz) ∧
      Computes .reg64 .reg64 translateCtz64 (fun x k => k = x.ctz) := by
  refine ⟨computes_clz64Ite, ?_, ?_, ?_, ?_⟩
  · exact computes_leadingZeros (t := .reg32) (always_const32 32)
      (always_const32 0) (always_const32 1)
  · exact computes_leadingZeros (t := .reg64) (always_const64 64)
      (always_const64 0) (always_const64 1)
  · exact computes_trailingZeros (t := .reg32) (always_const32 32)
      (always_const32 0) (always_const32 1)
  · exact computes_trailingZeros (t := .reg64) (always_const64 64)
      (always_const64 0) (always_const64 1)

end Fuzzball.Asmir
