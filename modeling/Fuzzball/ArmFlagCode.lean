import Fuzzball.ArmThunk
import Fuzzball.X64FlagCode

/-!
# Correctness of the ARM flag code

The formulas of every operation denote the flags that the architecture
defines.  The statements that take the place of the thunk compute them in new
temporaries and then assign the four flags, each under the guard of the thunk
if there is one.
-/

namespace Fuzzball.Asmir.Arm

open Vine Armv7
open X64 (Guard exGetBit denotes_getBit toInt32 readsOnly_getBit)

variable {μ : Type} [VineMemory μ] {ρ ρ' : Valuation μ} {n : ℕ}

/-! ## Flag registers -/

theorem flagReg_injective : Function.Injective flagReg := by
  intro f g h
  have hid := congrArg Var.id h
  cases f <;> cases g <;> first | rfl | exact absurd hid (by decide)

theorem flagReg_id_neg (f : Flag) : (flagReg f).id < 0 := by
  cases f <;> decide

theorem flagReg_typ (f : Flag) : (flagReg f).typ = .reg1 := by
  cases f <;> rfl

/-- The value of a flag. -/
def flagBit (ρ : Valuation μ) (f : Flag) : Bool :=
  (ρ.temp (flagReg f)).getLsbD 0

theorem denotes_flag (ρ : Valuation μ) (f : Flag) :
    DenotesBool ρ (.temp (flagReg f)) (flagBit ρ f) := by
  refine ⟨flagReg_typ f, rfl, ?_⟩
  change (ρ.temp (flagReg f)).setWidth 1 = _
  rw [setWidth_one]
  rfl

theorem flagBit_of_denotes {f : Flag} {b : Bool}
    (h : DenotesBool ρ (.temp (flagReg f)) b) : flagBit ρ f = b := by
  have heq : flag 1 (flagBit ρ f) = flag 1 b :=
    (denotes_flag ρ f).eval.symm.trans h.eval
  cases hf : flagBit ρ f <;> cases b <;> simp_all [flag]

/-- The temporaries numbered below `n` that are not flags. -/
def Visible (n : ℕ) (v : Var) : Prop := Numbered n v ∧ ∀ f, v ≠ flagReg f

/-- An operand reads no flag. -/
abbrev Dep (n : ℕ) (e : Exp) : Prop := ReadsOnly (Visible n) e

theorem Dep.below {e : Exp} (he : Dep n e) : Below n e :=
  ReadsOnly.mono he fun _ hv => hv.1

theorem Dep.mono {m : ℕ} {e : Exp} (he : Dep n e) (hnm : n ≤ m) : Dep m e := by
  apply ReadsOnly.mono he
  intro v hv
  exact ⟨lt_of_lt_of_le hv.1 (by exact_mod_cast hnm), hv.2⟩

theorem Dep.add {e : Exp} (he : Dep n e) (k : ℕ) : Dep (n + k) e :=
  he.mono (Nat.le_add_right n k)

theorem flagReg_ne_temp (f : Flag) (u : Typ) (i : ℕ) :
    tempVar u i ≠ flagReg f := by
  intro h
  have hneg := flagReg_id_neg f
  rw [← h] at hneg
  exact absurd hneg (by simp [tempVar])

@[simp] theorem visible_temp {u : Typ} {i m : ℕ} :
    Visible m (tempVar u i) ↔ i < m :=
  ⟨fun h => Int.ofNat_lt.mp h.1,
    fun h => ⟨Int.ofNat_lt.mpr h, fun f => flagReg_ne_temp f u i⟩⟩

/-! ## What the formulas denote -/

section Values

variable {dep1 dep2 ndep : Exp} {x y z : BitVec 32}

/-- The expressions have the values of the flags. -/
def Formulas (ρ : Valuation μ) (target : Flags) (flags : FlagExps) : Prop :=
  ∀ f, DenotesBool ρ (flags f) (target f)

theorem formulas_flagExps {nf zf cf vf : Exp} {n z c v : Bool}
    (hn : DenotesBool ρ nf n) (hz : DenotesBool ρ zf z)
    (hc : DenotesBool ρ cf c) (hv : DenotesBool ρ vf v) :
    Formulas ρ (flags n z c v) (flagExps nf zf cf vf) := by
  intro f
  cases f
  case nf => exact hn
  case zf => exact hz
  case cf => exact hc
  case vf => exact hv

/-- `CC_NDEP` of an operation with carry. -/
theorem carry_word (hz : z = 0 ∨ z = 1) :
    z = (BitVec.ofBool (z.getLsbD 0)).setWidth 32 := by
  rcases hz with rfl | rfl <;> decide

theorem borrow_word (hz : z = 0 ∨ z = 1) :
    z ^^^ 1 = (BitVec.ofBool (!z.getLsbD 0)).setWidth 32 := by
  rcases hz with rfl | rfl <;> decide

theorem addFlags_yields (h1 : Denotes ρ dep1 .reg32 x)
    (h2 : Denotes ρ dep2 .reg32 y) :
    Yields ρ (addFlags dep1 dep2) (Formulas ρ (addWithCarry x y false)) := by
  rw [addWithCarry_eq (by decide)]
  dsimp only
  rw [X86.sum_false]
  apply yields_temp (h1.add h2)
  intro result hres
  apply yields_temp (denotes_highBit hres)
  intro sign_bit hsign
  apply yields_pure
  apply formulas_flagExps hsign (hres.eq (.const32 0)) (hres.lt h1)
  exact (hsign.xorBool (denotes_highBit h1)).andBool
    (hsign.xorBool (denotes_highBit h2))

theorem subFlags_yields (h1 : Denotes ρ dep1 .reg32 x)
    (h2 : Denotes ρ dep2 .reg32 y) :
    Yields ρ (subFlags dep1 dep2)
      (Formulas ρ (addWithCarry x (~~~y) true)) := by
  rw [addWithCarry_not (by decide)]
  dsimp only
  rw [Bool.not_true, X86.difference_false]
  apply yields_temp (h1.sub h2)
  intro result hres
  apply yields_temp (denotes_highBit hres)
  intro sign_bit hsign
  apply yields_pure
  apply formulas_flagExps hsign (hres.eq (.const32 0)) (h1.ge h2)
  exact ((denotes_highBit h1).xorBool (denotes_highBit h2)).andBool
    (hsign.xorBool (denotes_highBit h1))

theorem adcFlags_yields (h1 : Denotes ρ dep1 .reg32 x)
    (h2 : Denotes ρ dep2 .reg32 y) (hN : Denotes ρ ndep .reg32 z)
    (hz : z = 0 ∨ z = 1) :
    Yields ρ (adcFlags dep1 dep2 ndep)
      (Formulas ρ (addWithCarry x y (z.getLsbD 0))) := by
  have hcarry := carry_word hz
  rw [addWithCarry_eq (by decide)]
  dsimp only
  apply yields_temp ((h1.add h2).add hN)
  intro result hres
  rw [hcarry] at hres
  apply yields_temp (denotes_highBit hres)
  intro sign_bit hsign
  apply yields_temp ((denotes_bit0 hN).iteBool (hres.le h1) (hres.lt h1))
  intro cf hcf
  apply yields_pure
  apply formulas_flagExps hsign (hres.eq (.const32 0)) hcf
  exact (hsign.xorBool (denotes_highBit h1)).andBool
    (hsign.xorBool (denotes_highBit h2))

theorem sbbFlags_yields (h1 : Denotes ρ dep1 .reg32 x)
    (h2 : Denotes ρ dep2 .reg32 y) (hN : Denotes ρ ndep .reg32 z)
    (hz : z = 0 ∨ z = 1) :
    Yields ρ (sbbFlags dep1 dep2 ndep)
      (Formulas ρ (addWithCarry x (~~~y) (z.getLsbD 0))) := by
  have hborrow := borrow_word hz
  rw [addWithCarry_not (by decide)]
  dsimp only
  apply yields_temp ((h1.sub h2).sub (hN.xor (.const32 1)))
  intro result hres
  rw [hborrow] at hres
  apply yields_temp (denotes_highBit hres)
  intro sign_bit hsign
  apply yields_temp ((denotes_bit0 hN).iteBool (h1.ge h2) (h2.lt h1))
  intro cf hcf
  apply yields_pure
  apply formulas_flagExps hsign (hres.eq (.const32 0)) hcf
  exact ((denotes_highBit h1).xorBool (denotes_highBit h2)).andBool
    (hsign.xorBool (denotes_highBit h1))

/-- A double word is zero when both its words are. -/
theorem append_beq_zero :
    ((y ++ x : BitVec (32 + 32)) == 0) = (x ||| y == 0) := by
  rw [Bool.eq_iff_iff, beq_iff_eq, beq_iff_eq]
  change y ++ x = 0#64 ↔ x ||| y = 0#32
  rw [BitVec.or_eq_zero_iff]
  constructor
  · intro h
    have hnat := congrArg BitVec.toNat h
    rw [BitVec.toNat_append, ← Nat.shiftLeft_add_eq_or_of_lt x.isLt,
      Nat.shiftLeft_eq, BitVec.toNat_zero] at hnat
    constructor
    · apply BitVec.eq_of_toNat_eq
      rw [BitVec.toNat_zero]
      omega
    · apply BitVec.eq_of_toNat_eq
      rw [BitVec.toNat_zero]
      omega
  · rintro ⟨rfl, rfl⟩
    rfl

theorem formulas_yields (op : CcOp) (h1 : Denotes ρ dep1 .reg32 x)
    (h2 : Denotes ρ dep2 .reg32 y) (hN : Denotes ρ ndep .reg32 z)
    (hz : op.ReadsCarry → z = 0 ∨ z = 1) :
    Yields ρ (formulas dep1 dep2 ndep op)
      (Formulas ρ (op.flags x y z)) := by
  cases op
  case copy =>
    apply yields_pure
    exact formulas_flagExps (denotes_getBit (i := 31) (by decide) h1)
      (denotes_getBit (i := 30) (by decide) h1)
      (denotes_getBit (i := 29) (by decide) h1)
      (denotes_getBit (i := 28) (by decide) h1)
  case add => exact addFlags_yields h1 h2
  case sub => exact subFlags_yields h1 h2
  case adc => exact adcFlags_yields h1 h2 hN (hz trivial)
  case sbb => exact sbbFlags_yields h1 h2 hN (hz trivial)
  case logic =>
    apply yields_pure
    exact formulas_flagExps (denotes_highBit h1) (h1.eq (.const32 0))
      (denotes_bit0 h2) (denotes_bit0 hN)
  case mul =>
    apply yields_pure
    exact formulas_flagExps (denotes_highBit h1) (h1.eq (.const32 0))
      (denotes_getBit (i := 1) (by decide) hN) (denotes_bit0 hN)
  case mull =>
    have hsign : (y ++ x : BitVec (32 + 32)).msb = y.msb := by
      rw [BitVec.msb_append, if_neg (by decide)]
    apply yields_pure
    rw [CcOp.flags, resultFlags, hsign, append_beq_zero]
    exact formulas_flagExps (denotes_highBit h2)
      ((h1.or h2).eq (.const32 0))
      (denotes_getBit (i := 1) (by decide) hN) (denotes_bit0 hN)

end Values

/-! ## What they read -/

section Reads

variable {dep1 dep2 ndep : Exp}

def FlagsRead (n : ℕ) (flags : FlagExps) : Prop := ∀ f, Dep n (flags f)

theorem flagsRead_flagExps {nf zf cf vf : Exp} (hn : Dep n nf)
    (hz : Dep n zf) (hc : Dep n cf) (hv : Dep n vf) :
    FlagsRead n (flagExps nf zf cf vf) := by
  intro f
  cases f
  case nf => exact hn
  case zf => exact hz
  case cf => exact hc
  case vf => exact hv

theorem places_dep {β : Type} {u : Typ} {val : Exp} {k : Exp → Emit β}
    {P : ℕ → β → Prop} (hval : Dep n val)
    (hk : Places (n + 1) (k (.temp (tempVar u n))) P) :
    Places n (mkTempDef u val >>= k) P :=
  places_temp hval.below hk

theorem places_addFlags (h1 : Dep n dep1) (h2 : Dep n dep2) :
    Places n (addFlags dep1 dep2) FlagsRead := by
  have h1' := h1.add
  have h2' := h2.add
  dsimp only [addFlags]
  iterate 2
    apply places_dep
    · simp [ReadsOnly, *]
  apply places_pure
  apply flagsRead_flagExps
  all_goals simp [ReadsOnly, *, add_assoc]

theorem places_subFlags (h1 : Dep n dep1) (h2 : Dep n dep2) :
    Places n (subFlags dep1 dep2) FlagsRead := by
  have h1' := h1.add
  have h2' := h2.add
  dsimp only [subFlags]
  iterate 2
    apply places_dep
    · simp [ReadsOnly, *]
  apply places_pure
  apply flagsRead_flagExps
  all_goals simp [ReadsOnly, *, add_assoc]

theorem places_adcFlags (h1 : Dep n dep1) (h2 : Dep n dep2)
    (hN : Dep n ndep) : Places n (adcFlags dep1 dep2 ndep) FlagsRead := by
  have h1' := h1.add
  have h2' := h2.add
  have hN' := hN.add
  dsimp only [adcFlags, emitIte]
  iterate 3
    apply places_dep
    · simp [ReadsOnly, *, add_assoc]
  apply places_pure
  apply flagsRead_flagExps
  all_goals simp [ReadsOnly, *, add_assoc]

theorem places_sbbFlags (h1 : Dep n dep1) (h2 : Dep n dep2)
    (hN : Dep n ndep) : Places n (sbbFlags dep1 dep2 ndep) FlagsRead := by
  have h1' := h1.add
  have h2' := h2.add
  have hN' := hN.add
  dsimp only [sbbFlags, emitIte]
  iterate 3
    apply places_dep
    · simp [ReadsOnly, *, add_assoc]
  apply places_pure
  apply flagsRead_flagExps
  all_goals simp [ReadsOnly, *, add_assoc]

theorem places_formulas (op : CcOp) (h1 : Dep n dep1) (h2 : Dep n dep2)
    (hN : Dep n ndep) : Places n (formulas dep1 dep2 ndep op) FlagsRead := by
  cases op
  case add => exact places_addFlags h1 h2
  case sub => exact places_subFlags h1 h2
  case adc => exact places_adcFlags h1 h2 hN
  case sbb => exact places_sbbFlags h1 h2 hN
  all_goals
    apply places_pure
    apply flagsRead_flagExps
    all_goals simp [ReadsOnly, *]

end Reads

/-! ## Assigning the flags -/

section Assign

variable {g : Bool} {cond : Option Exp} {m : ℕ} {target : Flags}

theorem guard_congr (h : Guard ρ g cond) (hreads : ∀ c ∈ cond, Dep m c)
    (hagree : AgreeOn (Visible m) ρ ρ') : Guard ρ' g cond := by
  cases cond with
  | none => exact h
  | some c => exact Denotes.congr h (hreads c rfl) hagree

omit [VineMemory μ] in
theorem flagBit_congr {f : Flag} {S : Var → Prop}
    (hagree : AgreeOn S ρ ρ') (hf : S (flagReg f)) :
    flagBit ρ' f = flagBit ρ f := by
  unfold flagBit
  rw [hagree.temp _ hf]

/-- What the assignment of one flag does. -/
structure Assigned (m : ℕ) (ρ ρ' : Valuation μ) (f : Flag) (b : Bool) :
    Prop where
  agree : AgreeOn (Visible m) ρ ρ'
  others : ∀ f', f' ≠ f → flagBit ρ' f' = flagBit ρ f'
  flag : flagBit ρ' f = b

theorem assigned_move {f : Flag} {e : Exp} {b : Bool}
    (he : DenotesBool ρ e b) :
    Assigned m ρ (exec [.move (flagReg f) e] ρ) f b where
  agree := (agreeOn_move (flagReg f) e ρ).mono fun _ hv => hv.2 f
  others := by
    intro f' hne
    exact flagBit_congr (agreeOn_move (flagReg f) e ρ)
      (flagReg_injective.ne hne)
  flag := flagBit_of_denotes (denotes_move (flagReg_typ f) he)

theorem assignFlag_exec {f : Flag} {e : Exp} {b : Bool} {c : ℕ}
    (hc : m ≤ c) (hguard : Guard ρ g cond) (he : DenotesBool ρ e b) :
    Assigned m ρ (exec (assignFlag cond f e c).stmts ρ) f
      (if g then b else flagBit ρ f) ∧
      m ≤ (assignFlag cond f e c).counter := by
  cases cond with
  | none =>
    have hg : g = true := hguard
    refine ⟨?_, hc⟩
    rw [hg, if_pos rfl]
    exact assigned_move he
  | some c' =>
    have hite : DenotesBool ρ c' g := hguard
    have hval := denotes_move (v := tempVar .reg1 c) rfl
      (hite.iteBool he (denotes_flag ρ f))
    have hagree := agreeOn_move (tempVar .reg1 c)
      (exIte c' e (.temp (flagReg f))) ρ
    have hset := assigned_move (m := m) (f := f) hval
    refine ⟨⟨?_, ?_, hset.flag⟩, hc.trans (Nat.le_succ c)⟩
    · apply AgreeOn.trans (hagree.mono ?_) hset.agree
      rintro v hv rfl
      exact absurd (visible_temp.mp hv) (by omega)
    · intro f' hne
      exact (hset.others f' hne).trans
        (flagBit_congr hagree (flagReg_ne_temp f' .reg1 c).symm)

/-- The assignments of a list of flags, one after the other. -/
theorem assignList_exec {flags : FlagExps} (fs : List Flag)
    (hnodup : fs.Nodup) {c : ℕ} (hc : m ≤ c) (hcond : ∀ c ∈ cond, Dep m c)
    (hreads : FlagsRead m flags) (hguard : Guard ρ g cond)
    (hflags : Formulas ρ target flags) :
    let code := (fs.forM fun f => assignFlag cond f (flags f)) c
    (∀ f ∈ fs, flagBit (exec code.stmts ρ) f =
      if g then target f else flagBit ρ f) ∧
    (∀ f ∉ fs, flagBit (exec code.stmts ρ) f = flagBit ρ f) ∧
    AgreeOn (Visible m) ρ (exec code.stmts ρ) := by
  induction fs generalizing ρ c with
  | nil =>
    intro code
    exact ⟨fun f hf => absurd hf List.not_mem_nil, fun _ _ => rfl,
      ⟨fun _ _ => rfl, rfl, rfl⟩⟩
  | cons f fs ih =>
    obtain ⟨hf, hnodup⟩ := List.nodup_cons.mp hnodup
    obtain ⟨hone, hc'⟩ := assignFlag_exec (f := f) hc hguard (hflags f)
    have hguard' := guard_congr hguard hcond hone.agree
    have hflags' : Formulas (exec (assignFlag cond f (flags f) c).stmts ρ)
        target flags :=
      fun f' => (hflags f').congr (hreads f') hone.agree
    obtain ⟨hset, hkept, hagree⟩ := ih hnodup hc' hguard' hflags'
    intro code
    have hcode : exec code.stmts ρ =
        exec ((fs.forM fun f => assignFlag cond f (flags f))
          (assignFlag cond f (flags f) c).counter).stmts
          (exec (assignFlag cond f (flags f) c).stmts ρ) :=
      exec_append _ _ ρ
    rw [hcode]
    refine ⟨?_, ?_, hone.agree.trans hagree⟩
    · intro f' hf'
      rcases List.mem_cons.mp hf' with rfl | hmem
      · rw [hkept f' hf, hone.flag]
      · have hne : f' ≠ f := fun h => hf (h ▸ hmem)
        rw [hset f' hmem, hone.others f' hne]
    · intro f' hf'
      rw [List.mem_cons, not_or] at hf'
      rw [hkept f' hf'.2, hone.others f' hf'.1]

/-- Formulas and assignments together. -/
theorem flagCode_exec {x : Emit FlagExps} (hplaces : Places n x FlagsRead)
    (hyields : ∀ ρ', AgreeOn (Numbered n) ρ ρ' →
      Yields ρ' x (Formulas ρ' target))
    (hcond : ∀ c ∈ cond, Dep n c) (hguard : Guard ρ g cond) :
    let after := exec ((x >>= assignFlags cond) n).stmts ρ
    (∀ f, flagBit after f = if g then target f else flagBit ρ f) ∧
      AgreeOn (Visible n) ρ after := by
  obtain ⟨hord, hreads⟩ := hplaces
  have hagree := hord.agreeOn ρ
  have hflags := (hyields _ hagree).result n (hord.singleAssignment.holds ρ)
  have hvisible : AgreeOn (Visible n) ρ (exec (x n).stmts ρ) :=
    hagree.mono fun _ hv => hv.1
  have hguard' := guard_congr hguard hcond hvisible
  have hcond' : ∀ c ∈ cond, Dep (x n).counter c :=
    fun c hc => (hcond c hc).mono hord.le
  obtain ⟨hset, -, hagree'⟩ := assignList_exec [.nf, .zf, .cf, .vf]
    (by decide) le_rfl hcond' hreads hguard' hflags
  have hcode : exec ((x >>= assignFlags cond) n).stmts ρ =
      exec (assignFlags cond (x n).value (x n).counter).stmts
        (exec (x n).stmts ρ) := exec_append _ _ ρ
  intro after
  change (∀ f, flagBit (exec _ ρ) f = _) ∧ AgreeOn _ ρ (exec _ ρ)
  rw [hcode]
  refine ⟨?_, hvisible.trans (hagree'.mono ?_)⟩
  · intro f
    have hkept : flagBit (exec (x n).stmts ρ) f = flagBit ρ f :=
      flagBit_congr hagree ((flagReg_id_neg f).trans_le (Int.natCast_nonneg n))
    rw [← hkept]
    exact hset f (by cases f <;> decide)
  · intro v hv
    exact ⟨lt_of_lt_of_le hv.1 (by exact_mod_cast hord.le), hv.2⟩

end Assign

/-! ## The block -/

/-- The words of a thunk: they and the guard read no flag, and the carry of an
operation that has one is 0 or 1. -/
structure Operands (ρ : Valuation μ) (n : ℕ) (cond : Option Exp)
    (puts : CcReg → Put) (op : CcOp) : Prop where
  typ : ∀ r, r ≠ .op → (puts r).value.typ = .reg32
  reads : ∀ r, r ≠ .op → Dep n (puts r).value
  readsCond : ∀ c ∈ cond, Dep n c
  carry : op.ReadsCarry →
    (puts .ndep).value.eval ρ 32 = 0 ∨ (puts .ndep).value.eval ρ 32 = 1

section Block

variable {g : Bool} {cond : Option Exp} {puts : CcReg → Put} {op : CcOp}
  {pre post : List BlockStmt} {u : Typ} {code : I64}

/-- A word keeps its value while the formulas are computed. -/
theorem Operands.denotes (h : Operands ρ n cond puts op) {r : CcReg}
    (hr : r ≠ .op) (hagree : AgreeOn (Numbered n) ρ ρ') :
    Denotes ρ' (puts r).value .reg32 ((puts r).value.eval ρ 32) :=
  ⟨h.typ r hr, rfl, ((h.reads r hr).below.eval_eq hagree 32).symm⟩

/-- The flags after the operation. -/
def thunkFlags (ρ : Valuation μ) (puts : CcReg → Put) (op : CcOp) : Flags :=
  op.flags ((puts .dep1).value.eval ρ 32) ((puts .dep2).value.eval ρ 32)
    ((puts .ndep).value.eval ρ 32)

/-- New statements take the place of the thunk.  They leave the flags of the
operation where it takes effect, the old ones where it does not, and every
other temporary of the block. -/
theorem armModifyFlags_correct (hs : Surrounds pre post puts)
    (hop : (puts .op).value = .int u code)
    (hcode : ccOp (toInt32 code) = .ok op) (h : Operands ρ n cond puts op)
    (hguard : Guard ρ g cond) :
    ∃ new : List Stmt,
      armModifyFlags (pre ++ thunkStmts cond puts ++ post) n =
        .ok (pre ++ new.map Stmt.toBlock ++ post) ∧
      (∀ f, flagBit (exec new ρ) f =
        if g then thunkFlags ρ puts op f else flagBit ρ f) ∧
      AgreeOn (Visible n) ρ (exec new ρ) := by
  refine ⟨flagStmts cond puts op n, armModifyFlags_eq cond hs hop hcode n, ?_⟩
  have hplaces := places_formulas op (h.reads .dep1 (by decide))
    (h.reads .dep2 (by decide)) (h.reads .ndep (by decide))
  apply flagCode_exec hplaces _ h.readsCond hguard
  intro ρ' hagree
  apply formulas_yields op
  · exact h.denotes (by decide) hagree
  · exact h.denotes (by decide) hagree
  · exact h.denotes (by decide) hagree
  · exact h.carry

/-- The thunk of a guarded `sbcs` on constants. -/
def sbcsPuts (guardTemp : Var) : CcReg → Put
  | .op => ⟨.int .reg32 4, .int .reg32 0, guardTemp, guardTemp⟩
  | .dep1 => ⟨.int .reg32 5, .int .reg32 0, guardTemp, guardTemp⟩
  | .dep2 => ⟨.int .reg32 7, .int .reg32 0, guardTemp, guardTemp⟩
  | .ndep => ⟨.int .reg32 1, .int .reg32 0, guardTemp, guardTemp⟩

/-- The difference of 5 and 7, between two other statements. -/
theorem armModifyFlags_correct_sbcs :
    let t : Var := ⟨0, OString.ofAscii "T_0", .reg32⟩
    let guard : Exp := .int .reg1 1
    ∃ new : List Stmt,
      armModifyFlags
          ([.other] ++ thunkStmts (some guard) (sbcsPuts t) ++ [.other]) 1 =
        .ok ([.other] ++ new.map Stmt.toBlock ++ [.other]) ∧
      ∀ f, flagBit (exec new Valuation.zero) f =
        CcOp.sbb.flags 5 7 1 f := by
  intro t guard
  have hs : Surrounds [.other] [.other] (sbcsPuts t) := by
    refine ⟨?_, ?_, ?_, ?_⟩
    · rintro s hs ⟨v, rhs, rfl, -⟩
      simp at hs
    · rintro s hs r ⟨v, rhs, rfl, -⟩
      simp at hs
    · intro r r'
      cases r <;> cases r' <;> decide
    · intro r r'
      cases r <;> cases r' <;> decide
  have hoperands : Operands Valuation.zero 1 (some guard) (sbcsPuts t)
      .sbb := by
    refine ⟨?_, ?_, ?_, ?_⟩
    · intro r hr
      cases r <;> first | exact absurd rfl hr | rfl
    · intro r hr
      cases r <;> trivial
    · rintro c ⟨⟩
      trivial
    · exact fun _ => .inr rfl
  have hguard : Guard Valuation.zero true (some guard) := ⟨rfl, rfl, rfl⟩
  obtain ⟨new, hnew, hflags, -⟩ :=
    armModifyFlags_correct hs rfl rfl hoperands hguard
  exact ⟨new, hnew, hflags⟩

end Block

end Fuzzball.Asmir.Arm
