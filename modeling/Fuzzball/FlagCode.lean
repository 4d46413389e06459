import Fuzzball.Asmir
import Fuzzball.X86Flags

/-!
# Emitted code that sets status flags

The flag registers of the translation, and code that assigns new temporaries
and each flag register at most once.
-/

namespace Fuzzball.Asmir

open Vine X86

/-! ## Flag registers -/

/-- `mk_reg`: the registers are numbered below the temporaries. -/
def flagReg : Flag → Var
  | .cf => ⟨-1, OString.ofAscii "R_CF", .reg1⟩
  | .pf => ⟨-2, OString.ofAscii "R_PF", .reg1⟩
  | .af => ⟨-3, OString.ofAscii "R_AF", .reg1⟩
  | .zf => ⟨-4, OString.ofAscii "R_ZF", .reg1⟩
  | .sf => ⟨-5, OString.ofAscii "R_SF", .reg1⟩
  | .of => ⟨-6, OString.ofAscii "R_OF", .reg1⟩

theorem flagReg_injective : Function.Injective flagReg := by
  intro f g h
  have hid := congrArg Var.id h
  cases f <;> cases g <;> first | rfl | exact absurd hid (by decide)

theorem flagReg_id_neg (f : Flag) : (flagReg f).id < 0 := by
  cases f <;> decide

def setFlag (f : Flag) (cond : Exp) : Emit Unit :=
  push (.move (flagReg f) cond)

variable {μ : Type} [VineMemory μ] {ρ : Valuation μ} {α β : Type}

/-- The flag register holds the bit. -/
abbrev HasFlag (ρ : Valuation μ) (f : Flag) (b : Bool) : Prop :=
  DenotesBool ρ (.temp (flagReg f)) b

theorem yields_flag
    {f : Flag} {cond : Exp} {b : Bool} {k : Unit → Emit β} {Q : β → Prop}
    (hcond : DenotesBool ρ cond b)
    (hk : HasFlag ρ f b → Yields ρ (k ()) Q) :
    Yields ρ (setFlag f cond >>= k) Q := by
  refine yields_bind (P := fun _ => HasFlag ρ f b) ⟨?_⟩ fun _ => hk
  intro n h
  have hmove : ρ.temp (flagReg f) = (cond.eval ρ cond.width).setWidth 64 :=
    h (.move (flagReg f) cond) (by simp [setFlag, push])
  have ht : (flagReg f).typ = .reg1 := by cases f <;> rfl
  refine ⟨ht, rfl, ?_⟩
  change (ρ.temp (flagReg f)).setWidth 1 = _
  rw [hmove, hcond.expWidth, hcond.eval]
  cases b <;> rfl

theorem yields_lastFlag
    {f : Flag} {cond : Exp} {b : Bool} {Q : Unit → Prop}
    (hcond : DenotesBool ρ cond b) (hQ : HasFlag ρ f b → Q ()) :
    Yields ρ (setFlag f cond) Q := by
  have h : Yields ρ (setFlag f cond >>= fun _ => pure ()) Q :=
    yields_flag hcond fun hf => yields_pure (hQ hf)
  constructor
  intro n hn
  exact h.result n (by simpa [bind, pure] using hn)

/-! ## Bits of operands -/

section Bits

variable {w : ℕ} {t : Typ} {e : Exp} {x : BitVec w}

theorem twoPow_beq {W i : ℕ} (hi : i < W) (x : BitVec W) :
    (BitVec.twoPow W i == BitVec.twoPow W i &&& x) = x.getLsbD i := by
  rw [BitVec.and_comm, BitVec.and_twoPow]
  cases h : x.getLsbD i with
  | false =>
    have hne : BitVec.twoPow W i ≠ 0#W := by
      intro h0
      have hbit := congrArg (fun y => y.getLsbD i) h0
      simp [hi] at hbit
    simpa using hne
  | true => simp

theorem setWidth_one (x : BitVec w) :
    x.setWidth 1 = flag 1 (x.getLsbD 0) := by
  apply BitVec.eq_of_getLsbD_eq
  intro i hi
  obtain rfl : i = 0 := by omega
  rw [BitVec.getLsbD_setWidth]
  cases x.getLsbD 0 <;> rfl

theorem high_one (x : BitVec w) : Bits.high 1 x = flag 1 x.msb := by
  rw [Bits.high, setWidth_one, BitVec.getLsbD_ushiftRight, Nat.add_zero,
    BitVec.msb_eq_getLsbD_last]

/-- The last bit, from a cast. -/
theorem denotes_bit0 (he : Denotes ρ e t x) :
    DenotesBool ρ (exLCast e .reg1) (x.getLsbD 0) := by
  have h : Denotes ρ (exLCast e .reg1) .reg1 (x.setWidth 1) := he.lcast .reg1
  rwa [setWidth_one] at h

/-- The first bit, from a cast. -/
theorem denotes_highBit (he : Denotes ρ e t x) :
    DenotesBool ρ (exHCast e .reg1) x.msb := by
  have h : Denotes ρ (exHCast e .reg1) .reg1 (Bits.high 1 x) := he.hcast .reg1
  rwa [high_one] at h

end Bits

/-! ## Code that sets each flag once -/

/-- The temporaries numbered below `n` but for the flag registers, and of
those only the ones in `F`. -/
def Readable (F : List Flag) (n : ℕ) (v : Var) : Prop :=
  Numbered n v ∧ ∀ f, v = flagReg f → f ∈ F

theorem Readable.mono {F : List Flag} {n m : ℕ} {v : Var}
    (h : Readable F n v) (hnm : n ≤ m) : Readable F m v :=
  ⟨lt_of_lt_of_le h.1 (by exact_mod_cast hnm), h.2⟩

/-- The operands are read before any flag is set. -/
theorem readsOnly_later
    {e : Exp} {n m : ℕ} {F : List Flag} (he : ReadsOnly (Readable [] n) e)
    (hnm : n ≤ m) : ReadsOnly (Readable F m) e := by
  apply he.mono
  intro v hv
  refine ⟨(hv.mono hnm).1, ?_⟩
  intro f hf
  exact absurd (hv.2 f hf) List.not_mem_nil

theorem readable_temp (F : List Flag) {u : Typ} {m n : ℕ} (hmn : m < n) :
    Readable F n (tempVar u m) := by
  refine ⟨Int.ofNat_lt.mpr hmn, ?_⟩
  intro f hf
  have hid : (tempVar u m).id = (flagReg f).id := congrArg Var.id hf
  have hneg := flagReg_id_neg f
  rw [← hid] at hneg
  exact absurd hneg (by simp [tempVar])

/-- From the flags `F` set before: each move assigns the next temporary or a
flag that is not set yet, and reads no flag that is not. -/
inductive FlagCode : List Flag → ℕ → List Stmt → List Flag → ℕ → Prop
  | nil {F n} : FlagCode F n [] F n
  | varDecl {F n v stmts G m} :
      FlagCode F n stmts G m → FlagCode F n (.varDecl v :: stmts) G m
  | temp {F n} {v : Var} {rhs stmts G m} :
      v.id = (n : ℕ) → ReadsOnly (Readable F n) rhs →
      FlagCode F (n + 1) stmts G m →
      FlagCode F n (.move v rhs :: stmts) G m
  | flag {F n f rhs stmts G m} :
      f ∉ F → ReadsOnly (Readable F n) rhs →
      FlagCode (f :: F) n stmts G m →
      FlagCode F n (.move (flagReg f) rhs :: stmts) G m

theorem FlagCode.append
    {F G H : List Flag} {n m k : ℕ} {stmts stmts' : List Stmt}
    (h : FlagCode F n stmts G m) (h' : FlagCode G m stmts' H k) :
    FlagCode F n (stmts ++ stmts') H k := by
  induction h with
  | nil => exact h'
  | varDecl _ ih => exact .varDecl (ih h')
  | temp hid hreads _ ih => exact .temp hid hreads (ih h')
  | flag hf hreads _ ih => exact .flag hf hreads (ih h')

theorem FlagCode.subset
    {F G : List Flag} {n m : ℕ} {stmts : List Stmt}
    (h : FlagCode F n stmts G m) : F ⊆ G := by
  induction h with
  | nil => exact List.Subset.refl _
  | varDecl _ ih => exact ih
  | temp _ _ _ ih => exact ih
  | flag _ _ _ ih => exact fun g hg => ih (List.mem_cons_of_mem _ hg)

theorem FlagCode.readable_notMem
    {F G : List Flag} {n m : ℕ} {stmts : List Stmt}
    (h : FlagCode F n stmts G m) {v : Var} (hv : Readable F n v) :
    v ∉ targets stmts := by
  induction h with
  | nil => simp [targets]
  | varDecl _ ih => exact ih hv
  | temp hid _ _ ih =>
    intro hmem
    rcases List.mem_cons.mp hmem with rfl | hmem
    · exact absurd hid hv.1.ne
    · exact ih (hv.mono (Nat.le_succ _)) hmem
  | flag hf _ _ ih =>
    intro hmem
    rcases List.mem_cons.mp hmem with rfl | hmem
    · exact hf (hv.2 _ rfl)
    · exact ih ⟨hv.1, fun g hg => List.mem_cons_of_mem _ (hv.2 g hg)⟩ hmem

theorem readable_flagReg {F : List Flag} {f : Flag} (hf : f ∈ F) (n : ℕ) :
    Readable F n (flagReg f) := by
  refine ⟨(flagReg_id_neg f).trans_le (by positivity), ?_⟩
  intro g hg
  rwa [← flagReg_injective hg]

theorem FlagCode.singleAssignment
    {F G : List Flag} {n m : ℕ} {stmts : List Stmt}
    (h : FlagCode F n stmts G m) : SingleAssignment stmts := by
  induction h with
  | nil => trivial
  | varDecl _ ih => exact ih
  | @temp F n v rhs stmts G m hid hreads hrest ih =>
    have hcode : FlagCode F n (.move v rhs :: stmts) G m :=
      .temp hid hreads hrest
    refine ⟨hreads.mono fun u hu => hcode.readable_notMem hu, ?_, ih⟩
    apply hrest.readable_notMem
    refine ⟨by simp [Numbered, hid], ?_⟩
    intro f hf
    have hneg := flagReg_id_neg f
    rw [← hf, hid] at hneg
    omega
  | @flag F n f rhs stmts G m hf hreads hrest ih =>
    have hcode : FlagCode F n (.move (flagReg f) rhs :: stmts) G m :=
      .flag hf hreads hrest
    refine ⟨hreads.mono fun u hu => hcode.readable_notMem hu, ?_, ih⟩
    exact hrest.readable_notMem (readable_flagReg List.mem_cons_self n)

/-- A flag that the code does not set keeps its value. -/
theorem FlagCode.hasFlag
    {F G : List Flag} {n m : ℕ} {stmts : List Stmt}
    (h : FlagCode F n stmts G m) {f : Flag} (hf : f ∉ G) {b : Bool}
    (hb : HasFlag ρ f b) : HasFlag (exec stmts ρ) f b := by
  suffices hmem : flagReg f ∉ targets stmts by
    refine ⟨hb.typ, hb.width, ?_⟩
    rw [← hb.eval]
    change ((exec stmts ρ).temp (flagReg f)).setWidth 1 =
      (ρ.temp (flagReg f)).setWidth 1
    rw [(agreeOn_exec stmts ρ).temp _ hmem]
  clear hb
  induction h with
  | nil => simp [targets]
  | varDecl _ ih => exact ih hf
  | temp hid _ _ ih =>
    intro hmem
    rcases List.mem_cons.mp hmem with heq | hmem
    · have hneg := flagReg_id_neg f
      rw [heq, hid] at hneg
      omega
    · exact ih hf hmem
  | flag _ _ hrest ih =>
    intro hmem
    rcases List.mem_cons.mp hmem with heq | hmem
    · rw [flagReg_injective heq] at hf
      exact hf (hrest.subset List.mem_cons_self)
    · exact ih hf hmem

/-! ## Sets of flags -/

/-- Every flag that has a value holds it. -/
def FlagsHold (ρ : Valuation μ) (flags : Flag → Option Bool) : Prop :=
  ∀ f b, flags f = some b → HasFlag ρ f b

section Results

variable {w : ℕ}

/-- The flags of the result only. -/
structure ResultHolds (ρ : Valuation μ) (r : BitVec w) : Prop where
  pf : HasFlag ρ .pf (evenParity r)
  zf : HasFlag ρ .zf (r == 0)
  sf : HasFlag ρ .sf r.msb

theorem ResultHolds.flagsHold {r : BitVec w} (h : ResultHolds ρ r) :
    FlagsHold ρ (resultFlags r) := by
  intro f b hb
  cases f <;> simp only [resultFlags, Option.some.injEq, reduceCtorEq] at hb
  · exact hb ▸ h.pf
  · exact hb ▸ h.zf
  · exact hb ▸ h.sf

theorem addFlags_hold
    {a b : BitVec w} {c : Bool} (hr : ResultHolds ρ (sum a b c))
    (hcf : HasFlag ρ .cf (decide (2 ^ w ≤ a.toNat + b.toNat + c.toNat)))
    (haf : HasFlag ρ .af
      (decide (16 ≤ a.toNat % 16 + b.toNat % 16 + c.toNat)))
    (hof : HasFlag ρ .of (signedOverflow w (a.toInt + b.toInt + c.toNat))) :
    FlagsHold ρ (addFlags a b c) := by
  intro f v hv
  cases f
  case cf => exact Option.some.inj hv ▸ hcf
  case af => exact Option.some.inj hv ▸ haf
  case of => exact Option.some.inj hv ▸ hof
  all_goals exact hr.flagsHold _ _ hv

theorem subFlags_hold
    {a b : BitVec w} {c : Bool} (hr : ResultHolds ρ (difference a b c))
    (hcf : HasFlag ρ .cf (decide (a.toNat < b.toNat + c.toNat)))
    (haf : HasFlag ρ .af (decide (a.toNat % 16 < b.toNat % 16 + c.toNat)))
    (hof : HasFlag ρ .of (signedOverflow w (a.toInt - b.toInt - c.toNat))) :
    FlagsHold ρ (subFlags a b c) := by
  intro f v hv
  cases f
  case cf => exact Option.some.inj hv ▸ hcf
  case af => exact Option.some.inj hv ▸ haf
  case of => exact Option.some.inj hv ▸ hof
  all_goals exact hr.flagsHold _ _ hv

theorem shiftFlags_hold
    {r : BitVec w} {k : ℕ} {carry : Option Bool} {overflow : Bool}
    (hr : ResultHolds ρ r) (hcf : ∀ b, carry = some b → HasFlag ρ .cf b)
    (hof : k = 0 → HasFlag ρ .of overflow) :
    FlagsHold ρ (shiftFlags r k carry overflow) := by
  intro f v hv
  cases f
  case cf => exact hcf v hv
  case of =>
    by_cases hk : k = 0
    · simp only [shiftFlags, hk, if_true, Option.some.injEq] at hv
      exact hv ▸ hof hk
    · simp [shiftFlags, hk] at hv
  all_goals exact hr.flagsHold _ _ hv

theorem rotateFlags_hold
    {old : Flags} {k : ℕ} {carry overflow : Bool}
    (hold : ∀ f, f ≠ .cf → f ≠ .of → HasFlag ρ f (old f))
    (hcf : HasFlag ρ .cf carry) (hof : k = 0 → HasFlag ρ .of overflow) :
    FlagsHold ρ (rotateFlags old k carry overflow) := by
  intro f v hv
  cases f
  case cf => exact Option.some.inj hv ▸ hcf
  case of =>
    by_cases hk : k = 0
    · simp only [rotateFlags, hk, if_true, Option.some.injEq] at hv
      exact hv ▸ hof hk
    · simp [rotateFlags, hk] at hv
  all_goals exact Option.some.inj hv ▸ hold _ (by decide) (by decide)

theorem logicFlags_hold
    {old : Flags} {r : BitVec w} (hr : ResultHolds ρ r)
    (hcf : HasFlag ρ .cf false) (hof : HasFlag ρ .of false) :
    FlagsHold ρ ((Operation.logic r).flags old) := by
  intro f v hv
  cases f
  case cf => exact Option.some.inj hv ▸ hcf
  case of => exact Option.some.inj hv ▸ hof
  all_goals exact hr.flagsHold _ _ hv

theorem incFlags_hold
    {old : Flags} {a : BitVec w} (hr : ResultHolds ρ (sum a 1 false))
    (hcf : HasFlag ρ .cf (old .cf))
    (haf : HasFlag ρ .af
      (decide (16 ≤ a.toNat % 16 + (1 : BitVec w).toNat % 16 + false.toNat)))
    (hof : HasFlag ρ .of
      (signedOverflow w (a.toInt + (1 : BitVec w).toInt + false.toNat))) :
    FlagsHold ρ ((Operation.inc a).flags old) := by
  intro f v hv
  cases f
  case cf => exact Option.some.inj hv ▸ hcf
  case af => exact Option.some.inj hv ▸ haf
  case of => exact Option.some.inj hv ▸ hof
  all_goals exact hr.flagsHold _ _ hv

theorem decFlags_hold
    {old : Flags} {a : BitVec w} (hr : ResultHolds ρ (difference a 1 false))
    (hcf : HasFlag ρ .cf (old .cf))
    (haf : HasFlag ρ .af
      (decide (a.toNat % 16 < (1 : BitVec w).toNat % 16 + false.toNat)))
    (hof : HasFlag ρ .of
      (signedOverflow w (a.toInt - (1 : BitVec w).toInt - false.toNat))) :
    FlagsHold ρ ((Operation.dec a).flags old) := by
  intro f v hv
  cases f
  case cf => exact Option.some.inj hv ▸ hcf
  case af => exact Option.some.inj hv ▸ haf
  case of => exact Option.some.inj hv ▸ hof
  all_goals exact hr.flagsHold _ _ hv

theorem multiplyFlags_hold
    {overflow : Bool} (hcf : HasFlag ρ .cf overflow)
    (hof : HasFlag ρ .of overflow) :
    FlagsHold ρ (multiplyFlags overflow) := by
  intro f v hv
  cases f
  case cf => exact Option.some.inj hv ▸ hcf
  case of => exact Option.some.inj hv ▸ hof
  all_goals exact absurd hv (by simp [multiplyFlags])

end Results

/-! ## Specifications of code that sets flags -/

/-- From `temp_counter` at `c`, the code assigns the temporaries from number
`n` on and, after the flags `F`, those in `G`. -/
abbrev SetsFlags (F : List Flag) (n c : ℕ) (x : Emit α) (G : List Flag) :
    Prop :=
  FlagCode F n (x c).stmts G (x c).counter

section Rules

variable {F G : List Flag} {n c : ℕ}

theorem setsFlags_mkTemp
    {t : Typ} {k : Var → Emit β} (hk : SetsFlags F n (c + 1) (k (tempVar t c)) G) :
    SetsFlags F n c (mkTemp t >>= k) G :=
  .varDecl hk

theorem setsFlags_move
    {v : Var} {val : Exp} {k : Unit → Emit β} (hv : v.id = n)
    (hval : ReadsOnly (Readable F n) val)
    (hk : SetsFlags F (n + 1) c (k ()) G) :
    SetsFlags F n c (push (.move v val) >>= k) G :=
  .temp hv hval hk

theorem setsFlags_temp
    {t : Typ} {val : Exp} {k : Exp → Emit β}
    (hval : ReadsOnly (Readable F n) val)
    (hk : SetsFlags F (n + 1) (n + 1) (k (.temp (tempVar t n))) G) :
    SetsFlags F n n (mkTempDef t val >>= k) G :=
  .varDecl (.temp rfl hval hk)

theorem setsFlags_flag
    {f : Flag} {cond : Exp} {k : Unit → Emit β} (hf : f ∉ F)
    (hcond : ReadsOnly (Readable F n) cond)
    (hk : SetsFlags (f :: F) n c (k ()) G) :
    SetsFlags F n c (setFlag f cond >>= k) G :=
  .flag hf hcond hk

theorem setsFlags_lastFlag
    {f : Flag} {cond : Exp} (hf : f ∉ F)
    (hcond : ReadsOnly (Readable F n) cond) :
    SetsFlags F n n (setFlag f cond) (f :: F) :=
  .flag hf hcond .nil

/-- Code that has run: its equations hold, the operands read what they did
before, and a flag that it does not set keeps its value. -/
theorem SetsFlags.run
    {x : Emit α} (hx : SetsFlags [] n n x G) (ρ : Valuation μ)
    {Q : Valuation μ → Prop}
    (hy : ∀ ρ', AgreeOn (Readable [] n) ρ ρ' →
      (∀ f, f ∉ G → ∀ b, HasFlag ρ f b → HasFlag ρ' f b) →
      Yields ρ' x fun _ => Q ρ') : Q (exec (x n).stmts ρ) := by
  refine (hy _ ?_ ?_).result n (hx.singleAssignment.holds ρ)
  · exact (agreeOn_exec _ ρ).mono fun v hv => hx.readable_notMem hv
  · exact fun f hf b hb => hx.hasFlag hf hb

end Rules

end Fuzzball.Asmir
