import Fuzzball.X64FlagValues

/-!
# Execution of the 64-bit flag code

The formulas are computed in new temporaries; then the flags are assigned one
after the other, each under the condition of the thunk if there is one.
-/

namespace Fuzzball.Asmir.X64

open Vine X86

variable {μ : Type} [VineMemory μ] {ρ : Valuation μ} {t : Typ}
  {dep1 dep2 ndep : Exp} {n : ℕ}

/-! ## Temporaries -/

/-- The expressions for the flags read no temporary from `n` on and no flag. -/
def FlagsRead (n : ℕ) (flags : FlagExps) : Prop :=
  ∀ f, ∀ e ∈ flags f, ReadsOnly (Readable [] n) e

theorem flagsRead_flagExps
    {cf pf af zf sf of : Option Exp}
    (hcf : ∀ e ∈ cf, ReadsOnly (Readable [] n) e)
    (hpf : ∀ e ∈ pf, ReadsOnly (Readable [] n) e)
    (haf : ∀ e ∈ af, ReadsOnly (Readable [] n) e)
    (hzf : ∀ e ∈ zf, ReadsOnly (Readable [] n) e)
    (hsf : ∀ e ∈ sf, ReadsOnly (Readable [] n) e)
    (hof : ∀ e ∈ of, ReadsOnly (Readable [] n) e) :
    FlagsRead n (flagExps cf pf af zf sf of) := by
  intro f
  cases f
  case cf => exact hcf
  case pf => exact hpf
  case af => exact haf
  case zf => exact hzf
  case sf => exact hsf
  case of => exact hof

/-- An operand: over temporaries numbered below `n`, and no flag. -/
abbrev Dep (n : ℕ) (e : Exp) : Prop := ReadsOnly (Readable [] n) e

theorem Dep.below {e : Exp} (he : Dep n e) : Below n e :=
  ReadsOnly.mono he fun _ hv => hv.1

theorem Dep.add {e : Exp} (he : Dep n e) (k : ℕ) : Dep (n + k) e :=
  readsOnly_later he (Nat.le_add_right n k)

@[simp] theorem readsOnly_narrow64 {S : Var → Prop} {e : Exp} :
    ReadsOnly S (narrow64 e t) ↔ ReadsOnly S e := by
  unfold narrow64
  split_ifs
  · rfl
  · rfl

@[simp] theorem readsOnly_signBitOf {S : Var → Prop} {e : Exp} :
    ReadsOnly S (signBitOf e t) ↔ ReadsOnly S e :=
  readsOnly_narrow64

@[simp] theorem readsOnly_parity8 {S : Var → Prop} {e : Exp} :
    ReadsOnly S (parity8 e) ↔ ReadsOnly S e := by
  simp [parity8, ReadsOnly]

@[simp] theorem readsOnly_getBit {S : Var → Prop} {e : Exp} {i : BitVec 32} :
    ReadsOnly S (exGetBit e i) ↔ ReadsOnly S e := by
  simp [exGetBit, ReadsOnly]

@[simp] theorem readable_nil_temp {u : Typ} {i m : ℕ} :
    Readable [] m (tempVar u i) ↔ i < m :=
  ⟨fun h => Int.ofNat_lt.mp h.1, fun h => readable_temp [] h⟩

@[simp] theorem readsOnly_tmin {S : Var → Prop} : ReadsOnly S (tmin t) := by
  cases t <;> trivial

@[simp] theorem readsOnly_tmax {S : Var → Prop} : ReadsOnly S (tmax t) := by
  cases t <;> trivial

theorem places_dep
    {β : Type} {u : Typ} {val : Exp} {f : Exp → Emit β} {P : ℕ → β → Prop}
    (hval : Dep n val) (hf : Places (n + 1) (f (.temp (tempVar u n))) P) :
    Places n (mkTempDef u val >>= f) P :=
  places_temp hval.below hf

theorem places_addFlags (h1 : Dep n dep1) (h2 : Dep n dep2) :
    Places n (addFlags t dep1 dep2) FlagsRead := by
  have h1' := h1.add
  have h2' := h2.add
  dsimp only [addFlags]
  iterate 3
    apply places_dep
    · simp [ReadsOnly, *, add_assoc]
  apply places_pure
  apply flagsRead_flagExps
  all_goals simp [ReadsOnly, *, add_assoc]

theorem places_subFlags (h1 : Dep n dep1) (h2 : Dep n dep2) :
    Places n (subFlags t dep1 dep2) FlagsRead := by
  have h1' := h1.add
  have h2' := h2.add
  dsimp only [subFlags]
  iterate 2
    apply places_dep
    · simp [ReadsOnly, *]
  apply places_pure
  apply flagsRead_flagExps
  all_goals simp [ReadsOnly, *, add_assoc]

theorem places_adcFlags (h1 : Dep n dep1) (h2 : Dep n dep2) (h3 : Dep n ndep) :
    Places n (adcFlags t dep1 dep2 ndep) FlagsRead := by
  have h1' := h1.add
  have h2' := h2.add
  have h3' := h3.add
  dsimp only [adcFlags]
  iterate 6
    apply places_dep
    · simp [ReadsOnly, *, add_assoc]
  apply places_pure
  apply flagsRead_flagExps
  all_goals simp [ReadsOnly, *, add_assoc]

theorem places_sbbFlags (h1 : Dep n dep1) (h2 : Dep n dep2) (h3 : Dep n ndep) :
    Places n (sbbFlags t dep1 dep2 ndep) FlagsRead := by
  have h1' := h1.add
  have h2' := h2.add
  have h3' := h3.add
  dsimp only [sbbFlags]
  iterate 7
    apply places_dep
    · simp [ReadsOnly, *, add_assoc]
  apply places_pure
  apply flagsRead_flagExps
  all_goals simp [ReadsOnly, *, add_assoc]

theorem places_logicFlags (h1 : Dep n dep1) :
    Places n (logicFlags t dep1) FlagsRead := by
  apply places_pure
  apply flagsRead_flagExps
  all_goals simp [ReadsOnly, constantF, *]

theorem places_incFlags (h1 : Dep n dep1) :
    Places n (incFlags t dep1) FlagsRead := by
  have h1' := h1.add
  dsimp only [incFlags]
  iterate 1
    apply places_dep
    · simp [*]
  apply places_pure
  apply flagsRead_flagExps
  all_goals simp [ReadsOnly, *]

theorem places_decFlags (h1 : Dep n dep1) :
    Places n (decFlags t dep1) FlagsRead := by
  have h1' := h1.add
  dsimp only [decFlags]
  iterate 1
    apply places_dep
    · simp [*]
  apply places_pure
  apply flagsRead_flagExps
  all_goals simp [ReadsOnly, *]

theorem places_shlFlags (h1 : Dep n dep1) (h2 : Dep n dep2) :
    Places n (shlFlags t dep1 dep2) FlagsRead := by
  have h1' := h1.add
  have h2' := h2.add
  dsimp only [shlFlags]
  iterate 2
    apply places_dep
    · simp [*]
  apply places_pure
  apply flagsRead_flagExps
  all_goals simp [ReadsOnly, *, add_assoc, constantF]

theorem places_shrFlags (h1 : Dep n dep1) (h2 : Dep n dep2) :
    Places n (shrFlags t dep1 dep2) FlagsRead := by
  have h1' := h1.add
  have h2' := h2.add
  dsimp only [shrFlags]
  iterate 2
    apply places_dep
    · simp [*]
  apply places_pure
  apply flagsRead_flagExps
  all_goals simp [ReadsOnly, *, add_assoc, constantF]

theorem places_rolFlags (h1 : Dep n dep1) :
    Places n (rolFlags t dep1) FlagsRead := by
  have h1' := h1.add
  dsimp only [rolFlags]
  iterate 2
    apply places_dep
    · simp [ReadsOnly, *]
  apply places_pure
  apply flagsRead_flagExps
  all_goals simp [ReadsOnly, *, add_assoc]

theorem places_rorFlags (h1 : Dep n dep1) :
    Places n (rorFlags t dep1) FlagsRead := by
  have h1' := h1.add
  dsimp only [rorFlags]
  iterate 2
    apply places_dep
    · simp [ReadsOnly, *]
  apply places_pure
  apply flagsRead_flagExps
  all_goals simp [ReadsOnly, *, add_assoc]

theorem flagsRead_productFlags
    {oflow low : Exp} (hoflow : Dep n oflow) (hlow : Dep n low) :
    FlagsRead n (productFlags t oflow low) := by
  apply flagsRead_flagExps
  all_goals simp [ReadsOnly, constantF, *]

theorem places_umulNarrowFlags (h1 : Dep n dep1) (h2 : Dep n dep2) :
    Places n (umulNarrowFlags t dep1 dep2) FlagsRead := by
  dsimp only [umulNarrowFlags]
  iterate 3
    apply places_dep
    · simp [ReadsOnly, *, add_assoc]
  apply places_pure
  apply flagsRead_productFlags
  all_goals simp [ReadsOnly, add_assoc]

theorem places_smulNarrowFlags (h1 : Dep n dep1) (h2 : Dep n dep2) :
    Places n (smulNarrowFlags t dep1 dep2) FlagsRead := by
  dsimp only [smulNarrowFlags]
  iterate 3
    apply places_dep
    · simp [ReadsOnly, *, add_assoc]
  apply places_pure
  apply flagsRead_productFlags
  all_goals simp [ReadsOnly, add_assoc]

theorem places_umulqFlags (h1 : Dep n dep1) (h2 : Dep n dep2) :
    Places n (umulqFlags dep1 dep2) FlagsRead := by
  dsimp only [umulqFlags]
  apply places_bind (places_translateMullU64 h1.below h2.below)
  intro m result hm hres
  apply places_temps hres.1 hres.2
  apply places_dep
  · simp [ReadsOnly]
  apply places_pure
  apply flagsRead_productFlags
  all_goals simp [ReadsOnly, add_assoc]

theorem places_smulqFlags (h1 : Dep n dep1) (h2 : Dep n dep2) :
    Places n (smulqFlags dep1 dep2) FlagsRead := by
  dsimp only [smulqFlags]
  apply places_bind (places_translateMullS64 h1.below h2.below)
  intro m result hm hres
  apply places_temps hres.1 hres.2
  apply places_dep
  · simp [ReadsOnly]
  apply places_pure
  apply flagsRead_productFlags
  all_goals simp [ReadsOnly, add_assoc]

/-! ## Assigning the flags -/

theorem hasFlag_congr
    {S : Var → Prop} {ρ' : Valuation μ} {f : Flag} {b : Bool}
    (h : HasFlag ρ f b) (hagree : AgreeOn S ρ ρ') (hf : S (flagReg f)) :
    HasFlag ρ' f b := Denotes.congr h (a := .temp (flagReg f)) hf hagree

/-- The condition of the assignments; without one they are made. -/
def Guard (ρ : Valuation μ) (g : Bool) : Option Exp → Prop
  | none => g = true
  | some c => DenotesBool ρ c g

/-- The flags after the code: those of the operation where it takes effect. -/
def guardedFlags (g : Bool) (old : Flags) (target : Flag → Option Bool) :
    Flag → Option Bool :=
  fun f => if g then target f else some (old f)

variable {g : Bool} {cond : Option Exp} {old : Flags}
  {target : Flag → Option Bool} {m : ℕ}

theorem Guard.congr
    {ρ' : Valuation μ} (h : Guard ρ g cond) (hreads : ∀ c ∈ cond, Dep m c)
    (hagree : AgreeOn (Readable [] m) ρ ρ') : Guard ρ' g cond := by
  cases cond with
  | none => exact h
  | some c => exact Denotes.congr h (hreads c rfl) hagree

theorem FormulaHolds.congr
    {ρ' : Valuation μ} {o : Bool} {e : Option Exp} {b : Option Bool}
    (h : FormulaHolds ρ o e b) (hreads : ∀ c ∈ e, Dep m c)
    (hagree : AgreeOn (Readable [] m) ρ ρ') : FormulaHolds ρ' o e b := by
  cases e with
  | none => exact h
  | some c =>
    obtain ⟨v, hv, htarget⟩ := h
    exact ⟨v, hv.congr (hreads c rfl) hagree, htarget⟩

theorem readable_ne_flagReg {v : Var} (hv : Readable [] m v) (f : Flag) :
    v ≠ flagReg f :=
  fun h => absurd (hv.2 f h) List.not_mem_nil

/-- What the assignment of one flag does. -/
structure Assigned (m : ℕ) (ρ ρ' : Valuation μ) (f : Flag) (b : Option Bool) :
    Prop where
  agree : AgreeOn (Readable [] m) ρ ρ'
  others : ∀ f' b', f' ≠ f → HasFlag ρ f' b' → HasFlag ρ' f' b'
  flag : ∀ b', b = some b' → HasFlag ρ' f b'

/-- A move to the flag register. -/
theorem assigned_move
    {f : Flag} {e : Exp} {b : Option Bool}
    (he : ∃ v, DenotesBool ρ e v ∧ ∀ b', b = some b' → b' = v) :
    Assigned m ρ (exec [.move (flagReg f) e] ρ) f b where
  agree := (agreeOn_move (flagReg f) e ρ).mono
    fun _ hv => readable_ne_flagReg hv f
  others := by
    intro f' b' hne hb'
    exact hasFlag_congr hb' (agreeOn_move (flagReg f) e ρ)
      (flagReg_injective.ne hne)
  flag := by
    intro b' hb'
    obtain ⟨v, hv, hb⟩ := he
    have ht : (flagReg f).typ = .reg1 := by cases f <;> rfl
    rw [hb b' hb']
    exact denotes_move ht hv

theorem Assigned.after
    {ρ₁ ρ₂ : Valuation μ} {f : Flag} {b : Option Bool}
    (hagree : AgreeOn (Readable [] m) ρ ρ₁)
    (hflags : ∀ f' b', HasFlag ρ f' b' → HasFlag ρ₁ f' b')
    (h : Assigned m ρ₁ ρ₂ f b) : Assigned m ρ ρ₂ f b where
  agree := hagree.trans h.agree
  others := fun f' b' hne hb' => h.others f' b' hne (hflags f' b' hb')
  flag := h.flag

theorem flagReg_ne_temp (f : Flag) (u : Typ) (i : ℕ) :
    flagReg f ≠ tempVar u i := by
  intro h
  have hneg := flagReg_id_neg f
  rw [h] at hneg
  exact absurd hneg (by simp [tempVar])

theorem assignFlag_exec
    {f : Flag} {e : Option Exp} {b : Option Bool} {o : Bool} {c : ℕ}
    (hc : m ≤ c) (hguard : Guard ρ g cond)
    (he : FormulaHolds ρ o e b) (ho : HasFlag ρ f o) :
    Assigned m ρ (exec (assignFlag cond f e c).stmts ρ) f
      (if g then b else some o) ∧ m ≤ (assignFlag cond f e c).counter := by
  cases e with
  | none =>
    refine ⟨⟨⟨fun _ _ => rfl, rfl, rfl⟩, fun _ _ _ h => h, ?_⟩, hc⟩
    intro b' hb'
    split_ifs at hb' with hg
    · exact he b' hb' ▸ ho
    · exact Option.some.inj hb' ▸ ho
  | some e =>
    cases cond with
    | none =>
      have hg : g = true := hguard
      refine ⟨?_, hc⟩
      rw [hg, if_pos rfl]
      exact assigned_move he
    | some c' =>
      obtain ⟨v, hv, hb⟩ := he
      have hite : DenotesBool ρ c' g := hguard
      have hval := denotes_move (v := tempVar .reg1 c) rfl (hite.iteBool hv ho)
      have hagree := agreeOn_move (tempVar .reg1 c)
        (exIte c' e (.temp (flagReg f))) ρ
      refine ⟨?_, hc.trans (Nat.le_succ c)⟩
      apply Assigned.after (hagree.mono ?_)
      · intro f' b' hb'
        exact hasFlag_congr hb' hagree (flagReg_ne_temp f' .reg1 c)
      · apply assigned_move
        refine ⟨_, hval, ?_⟩
        intro b' hb'
        split_ifs at hb' with hg
        · rw [if_pos hg]
          exact hb b' hb'
        · rw [if_neg hg]
          exact (Option.some.inj hb').symm
      · rintro v' hv' rfl
        exact absurd (readable_nil_temp.mp hv') (by omega)

/-- The assignments of a list of flags, one after the other. -/
theorem assignList_exec
    {flags : FlagExps} (fs : List Flag) (hnodup : fs.Nodup) {c : ℕ}
    (hc : m ≤ c) (hcond : ∀ c ∈ cond, Dep m c) (hreads : FlagsRead m flags)
    (hguard : Guard ρ g cond) (hflags : Formulas ρ old flags target)
    (hold : ∀ f ∈ fs, HasFlag ρ f (old f)) :
    let code := (fs.forM fun f => assignFlag cond f (flags f)) c
    (∀ f ∈ fs, ∀ b, guardedFlags g old target f = some b →
      HasFlag (exec code.stmts ρ) f b) ∧
    ∀ f ∉ fs, ∀ b, HasFlag ρ f b → HasFlag (exec code.stmts ρ) f b := by
  induction fs generalizing ρ c with
  | nil =>
    intro code
    exact ⟨fun f hf => absurd hf List.not_mem_nil, fun f _ b hb => hb⟩
  | cons f fs ih =>
    obtain ⟨hf, hnodup⟩ := List.nodup_cons.mp hnodup
    obtain ⟨hone, hc'⟩ := assignFlag_exec hc hguard (hflags f)
      (hold f List.mem_cons_self)
    have hguard' := hguard.congr hcond hone.agree
    have hflags' : Formulas (exec (assignFlag cond f (flags f) c).stmts ρ)
        old flags target :=
      fun f' => (hflags f').congr (hreads f') hone.agree
    have hold' : ∀ f' ∈ fs, HasFlag
        (exec (assignFlag cond f (flags f) c).stmts ρ) f' (old f') := by
      intro f' hf'
      have hne : f' ≠ f := fun h => hf (h ▸ hf')
      exact hone.others f' _ hne (hold f' (List.mem_cons_of_mem _ hf'))
    obtain ⟨hset, hkept⟩ := ih hnodup hc' hguard' hflags' hold'
    intro code
    have hcode : exec code.stmts ρ =
        exec ((fs.forM fun f => assignFlag cond f (flags f))
          (assignFlag cond f (flags f) c).counter).stmts
          (exec (assignFlag cond f (flags f) c).stmts ρ) :=
      exec_append _ _ ρ
    rw [hcode]
    refine ⟨?_, ?_⟩
    · intro f' hf' b hb
      rcases List.mem_cons.mp hf' with rfl | hf'
      · exact hkept f' hf b (hone.flag b hb)
      · exact hset f' hf' b hb
    · intro f' hf' b hb
      rw [List.mem_cons, not_or] at hf'
      exact hkept f' hf'.2 b (hone.others f' b hf'.1 hb)

/-- Formulas and assignments together. -/
theorem flagCode_exec
    {formulas : Emit FlagExps} (hplaces : Places n formulas FlagsRead)
    (hyields : ∀ ρ', AgreeOn (Numbered n) ρ ρ' →
      Yields ρ' formulas fun flags => Formulas ρ' old flags target)
    (hcond : ∀ c ∈ cond, Dep n c) (hguard : Guard ρ g cond)
    (hold : ∀ f, HasFlag ρ f (old f)) :
    FlagsHold (exec ((formulas >>= assignFlags cond) n).stmts ρ)
      (guardedFlags g old target) := by
  obtain ⟨hord, hreads⟩ := hplaces
  have hagree := hord.agreeOn ρ
  have hflags := (hyields _ hagree).result n (hord.singleAssignment.holds ρ)
  have hold' : ∀ f, HasFlag (exec (formulas n).stmts ρ) f (old f) := by
    intro f
    exact hasFlag_congr (hold f) hagree
      ((flagReg_id_neg f).trans_le (Int.natCast_nonneg n))
  have hguard' : Guard (exec (formulas n).stmts ρ) g cond :=
    hguard.congr hcond (hagree.mono fun _ hv => hv.1)
  have hcond' : ∀ c ∈ cond, Dep (formulas n).counter c :=
    fun c hc => readsOnly_later (hcond c hc) hord.le
  have hassign := assignList_exec [.cf, .pf, .af, .zf, .sf, .of] (by decide)
    le_rfl hcond' hreads hguard' hflags fun f _ => hold' f
  have hcode : exec ((formulas >>= assignFlags cond) n).stmts ρ =
      exec (assignFlags cond (formulas n).value (formulas n).counter).stmts
        (exec (formulas n).stmts ρ) := exec_append _ _ ρ
  intro f b hb
  rw [hcode]
  exact hassign.1 f (by cases f <;> decide) b hb

end Fuzzball.Asmir.X64
