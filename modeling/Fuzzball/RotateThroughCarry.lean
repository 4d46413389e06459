import Fuzzball.FlagCode
import Fuzzball.RotateCarry
import Fuzzball.Statements
import Fuzzball.X64Flags

/-!
# The rotate-through-carry helpers

The translations of `x86g_calculate_RCL` and `x86g_calculate_RCR` in
`irtoir-i386.cpp`, and of `amd64g_calculate_RCL` and `amd64g_calculate_RCR` in
`irtoir-x64.cpp`.
-/

namespace Fuzzball.Asmir

open Vine X86

/-! ## The source -/

/-- `ex_sh`: the shift in the direction of the rotation. -/
def exSh (isLeft : Bool) : Exp → Exp → Exp := if isLeft then exShl else exShr

/-- `_ex_rsh`: the shift in the other direction. -/
def exRsh (isLeft : Bool) : Exp → Exp → Exp := if isLeft then exShr else exShl

def ofPos : BitVec 32 := 11
def ofMask : BitVec 32 := 1 <<< 11
def cfMaskBit : BitVec 32 := 1

def i386CalculateRotate (isLeft : Bool) (sz : ℕ) (arg rot_amt eflags_in : Exp) :
    Translate Exp := do
  let bits : BitVec 32 := BitVec.ofNat 32 (sz * 8)
  let rot_amt ← liftEmit (mkTempDef .reg32
    (exMod (exAnd rot_amt (exConst 31)) (exConst (bits + 1))))
  let answer ← liftEmit (mkTemp .reg32)
  let new_eflags ← liftEmit (mkTemp .reg32)
  let non_zero ← mkLabel
  let zero ← mkLabel
  let out ← mkLabel
  pushBack (.cjmp (exEq rot_amt (exConstOf .reg32 0)) (.name zero)
    (.name non_zero))
  -- normal handling
  pushBack (.label non_zero)
  let new_right_part := exRsh isLeft arg (exSub (exConst (bits + 1)) rot_amt)
  let cf := exUCast (.temp (flagReg .cf)) .reg32
  let carry_in_pos :=
    if isLeft then exSub rot_amt (exConst 1) else exSub (exConst bits) rot_amt
  let carry_out_pos :=
    if isLeft then exSub (exConst bits) rot_amt else exSub rot_amt (exConst 1)
  pushBack (.move (.temp answer) (exOr (exSh isLeft arg rot_amt)
    (exOr (exShl cf carry_in_pos) new_right_part)))
  let new_cf := exLCast (exShr arg carry_out_pos) .reg1
  let of := exXor (exLCast (exShr (.temp answer) (exConst (bits - 1))) .reg1)
    new_cf
  pushBack (.move (.temp new_eflags)
    (exOr (exAnd eflags_in (exConst (~~~(cfMaskBit ||| ofMask))))
      (exOr (exShl (exUCast of .reg32) (exConst ofPos))
        (exShl (exUCast new_cf .reg32) (exConst 0)))))
  pushBack (.jmp (.name out))
  -- rot by zero
  pushBack (.label zero)
  pushBack (.move (.temp answer) arg)
  pushBack (.move (.temp new_eflags) eflags_in)
  -- put result together
  pushBack (.label out)
  liftEmit (mkTempDef .reg64
    (exOr (exShl (exUCast (.temp new_eflags) .reg64) (exConst 32))
      (exUCast (.temp answer) .reg64)))

/-- The normalised amount.  The cases of 2 and of 1 have no `break`, so they
end in the default case. -/
def x64Modded (sz : ℤ) (masked : Exp) : Except Abort Exp :=
  if sz = 8 then .ok masked
  else if sz = 4 then .ok masked
  else .error .panic

/-- The code after that, for the flags or for the value. -/
def x64RotateCode (isLeft ret_flags : Bool) (bits : BitVec 32)
    (arg modded flags_in : Exp) : Emit Exp := do
  let rot_amt ← mkTempDef .reg32 modded
  let new_right_part := exRsh isLeft arg (exSub (exConst (bits + 1)) rot_amt)
  let wCF := exUCast (.temp (flagReg .cf)) .reg64
  let new_left := exSh isLeft arg rot_amt
  let carry_in_pos :=
    if isLeft then exSub rot_amt (exConst 1) else exSub (exConst bits) rot_amt
  let carry_out_pos :=
    if isLeft then exSub (exConst bits) rot_amt else exSub rot_amt (exConst 1)
  let amt_mask := exConst (bits - 1)
  let carry_in_pos := exAnd carry_in_pos amt_mask
  let carry_out_pos := exAnd carry_out_pos amt_mask
  let moved_carry := exShl wCF carry_in_pos
  let answer_e := exOr new_left (exOr moved_carry new_right_part)
  let amt_zero := exEq rot_amt (exConst 0)
  if ret_flags then
    let new_cf ← mkTempDef .reg1 (exLCast (exShr arg carry_out_pos) .reg1)
    let answer_bit := exLCast (exShr answer_e (exConst (bits - 1))) .reg1
    let new_of := exXor answer_bit new_cf
    let unch_flags := exAnd flags_in
      (exConstOf .reg64 (~~~(1#64 <<< 0 ||| 1#64 <<< 11)))
    let wnCF := exUCast new_cf .reg64
    let wnOF := exShl (exUCast new_of .reg64) (exConst ofPos)
    let new_flags := exOr unch_flags (exOr wnCF wnOF)
    emitIte .reg64 amt_zero flags_in new_flags
  else
    emitIte .reg64 amt_zero arg answer_e

/-- A negative `sz` asks for the flags. -/
def x64CalculateRotate (isLeft : Bool) (sz : ℤ) (arg rot_amt flags_in : Exp) :
    Except Abort (Translate Exp) := do
  let ret_flags := decide (sz < 0)
  let sz := if ret_flags then -sz else sz
  let rot_amt := exLCast rot_amt .reg32
  let masked := exAnd rot_amt (exConst (if sz = 8 then 63 else 31))
  let modded ← x64Modded sz masked
  .ok (liftEmit (x64RotateCode isLeft ret_flags (BitVec.ofInt 32 (sz * 8)) arg
    modded flags_in))

/-! ## What the instruction does -/

/-- The amount as the instruction masks it, for operands of `w` bits. -/
def maskedAmount {W : ℕ} (w : ℕ) (amount : BitVec W) : ℕ :=
  amount.toNat % if w = 64 then 64 else 32

/-- The value and the flags after a rotation of `x`, with the carry `c` and the
masked amount `k`, from the flags `e`. -/
structure RotateOk {w W : ℕ} (isLeft : Bool) (x : BitVec w) (c : Bool) (k : ℕ)
    (e value flags : BitVec W) : Prop where
  value : value.setWidth w = ((rotateOnce isLeft)^[k % (w + 1)] (x, c)).1
  carry : k % (w + 1) ≠ 0 →
    flags.getLsbD 0 = ((rotateOnce isLeft)^[k % (w + 1)] (x, c)).2
  overflow : k = 1 → flags.getLsbD 11 = rotateOverflow isLeft (x, c)
  others : ∀ i, i ≠ 0 → i ≠ 11 → flags.getLsbD i = e.getLsbD i
  zero : k % (w + 1) = 0 → flags = e

/-! ## The values that the code computes -/

section Values

variable {w W : ℕ}

/-- The flags word with a new carry and overflow flag. -/
def withFlags (e : BitVec W) (cf of : Bool) : BitVec W :=
  (e &&& ~~~(1#W ||| 1#W <<< 11)) ||| (flag W of <<< 11 ||| flag W cf)

theorem withFlags_bit (hW : 11 < W) (e : BitVec W) (cf of : Bool) (i : ℕ) :
    (withFlags e cf of).getLsbD i =
      if i = 0 then cf else if i = 11 then of else e.getLsbD i := by
  have hpos : 0 < W := by omega
  have hone : ∀ j, (1#W).getLsbD j = decide (j = 0) := by
    intro j
    rw [BitVec.getLsbD_one]
    by_cases hj : j = 0 <;> simp [hj, hpos]
  by_cases hi : i < W
  · simp only [withFlags, BitVec.getLsbD_or, BitVec.getLsbD_and,
      BitVec.getLsbD_not, BitVec.getLsbD_shiftLeft, getLsbD_flag hpos, hone, hi,
      decide_true, Bool.true_and]
    rcases lt_trichotomy i 11 with h | h | h
    · have hne : i ≠ 11 := by omega
      by_cases h0 : i = 0 <;> simp [h, hne, h0]
    · simp [h]
    · have hne : i ≠ 11 := by omega
      have hnot : ¬ i < 11 := by omega
      have h0 : i ≠ 0 := by omega
      have hsub : i - 11 ≠ 0 := by omega
      simp [hne, hnot, h0, hsub]
  · have h0 : i ≠ 0 := by omega
    have h11 : i ≠ 11 := by omega
    rw [if_neg h0, if_neg h11, BitVec.getLsbD_of_ge _ i (by omega),
      BitVec.getLsbD_of_ge _ i (by omega)]

/-- The carry that the code computes. -/
def codeCarry (isLeft : Bool) (k : ℕ) (x : BitVec w) : Bool :=
  x.getLsbD (carryOut isLeft w k)

/-- The overflow flag that the code computes. -/
def codeOverflow (isLeft : Bool) (W k : ℕ) (x : BitVec w) (c : Bool) : Bool :=
  (rotatedValue isLeft w k (x.setWidth W) c).getLsbD (w - 1) ^^
    codeCarry isLeft k x

/-- The value that the code computes. -/
def codeValue (isLeft : Bool) (W k : ℕ) (x : BitVec w) (c : Bool) :
    BitVec W :=
  if k = 0 then x.setWidth W else rotatedValue isLeft w k (x.setWidth W) c

/-- The flags word that the code computes. -/
def codeFlags (isLeft : Bool) (k : ℕ) (x : BitVec w) (c : Bool)
    (e : BitVec W) : BitVec W :=
  if k = 0 then e
  else withFlags e (codeCarry isLeft k x) (codeOverflow isLeft W k x c)

theorem codeOverflow_one {w : ℕ} (hw : 1 < w) (hW : w ≤ W) (isLeft : Bool)
    (x : BitVec w) (c : Bool) :
    codeOverflow isLeft W 1 x c = rotateOverflow isLeft (x, c) ↔
      isLeft = true ∨ x.msb = x.getLsbD 0 := by
  have hvalue := rotatedValue_eq isLeft x c hW Nat.one_pos hw.le
  have hcarry := carryOut_eq isLeft x c Nat.one_pos hw.le
  have hmsb : (rotatedValue isLeft w 1 (x.setWidth W) c).getLsbD (w - 1) =
      (rotateOnce isLeft (x, c)).1.msb := by
    change _ = ((rotateOnce isLeft)^[1] (x, c)).1.msb
    rw [← hvalue, BitVec.msb_eq_getLsbD_last, BitVec.getLsbD_setWidth]
    simp [show w - 1 < w by omega]
  have hcode : codeOverflow isLeft W 1 x c =
      ((rotateOnce isLeft (x, c)).1.msb ^^ (rotateOnce isLeft (x, c)).2) := by
    rw [codeOverflow, hmsb, codeCarry, ← hcarry]
    rfl
  rw [hcode]
  cases isLeft with
  | true => simp [rotateOnce, rotateOverflow]
  | false =>
    -- the carry before the rotation is the highest bit after it
    have htop : (rcrOnce (x, c)).1.msb = c := by
      have hbit := rcrOnce_bit (by omega) (x, c) (i := w - 1) (by omega)
      have hne : w - 1 ≠ w := by omega
      rw [if_neg hne, show w - 1 + 1 = w by omega, ringBit_carry,
        ringBit_of_lt _ (by omega)] at hbit
      rw [BitVec.msb_eq_getLsbD_last]
      exact hbit
    have hout : (rcrOnce (x, c)).2 = x.getLsbD 0 := rfl
    simp only [rotateOnce, rotateOverflow, Bool.false_eq_true, if_false, htop,
      hout, false_or]
    cases c <;> cases x.msb <;> cases x.getLsbD 0 <;> simp

theorem rotateOk_iff {w : ℕ} (hw : 1 < w) (hW : w ≤ W) (hW11 : 11 < W)
    (isLeft : Bool) (x : BitVec w) (c : Bool) (k : ℕ) (e : BitVec W) :
    RotateOk isLeft x c k e (codeValue isLeft W (k % (w + 1)) x c)
        (codeFlags isLeft (k % (w + 1)) x c e) ↔
      isLeft = true ∨ k ≠ 1 ∨ x.msb = x.getLsbD 0 := by
  have hlt : k % (w + 1) < w + 1 := Nat.mod_lt _ (Nat.succ_pos w)
  have hone : k = 1 → k % (w + 1) = 1 := by
    rintro rfl
    exact Nat.mod_eq_of_lt (by omega)
  constructor
  · intro h
    by_cases hk : k = 1
    · have hoverflow := h.overflow hk
      rw [hone hk, codeFlags, if_neg one_ne_zero, withFlags_bit hW11,
        if_neg (by decide), if_pos rfl, codeOverflow_one hw hW] at hoverflow
      exact hoverflow.imp_right .inr
    · exact .inr (.inl hk)
  · intro hcond
    by_cases hzero : k % (w + 1) = 0
    · have hself : (x.setWidth W).setWidth w = x := by
        rw [BitVec.setWidth_setWidth_of_le _ hW, BitVec.setWidth_eq]
      rw [codeValue, codeFlags, if_pos hzero, if_pos hzero]
      refine ⟨by rw [hself, hzero]; rfl, fun hne => absurd hzero hne,
        fun hk => ?_, fun _ _ _ => rfl, fun _ => rfl⟩
      rw [hone hk] at hzero
      cases hzero
    · rw [codeValue, codeFlags, if_neg hzero, if_neg hzero]
      refine ⟨rotatedValue_eq isLeft x c hW (by omega) (by omega),
        fun _ => ?_, fun hk => ?_, fun i h0 h11 => ?_,
        fun hk => absurd hk hzero⟩
      · rw [withFlags_bit hW11, if_pos rfl, codeCarry,
          carryOut_eq isLeft x c (by omega) (by omega)]
      · rw [withFlags_bit hW11, if_neg (by decide), if_pos rfl, hone hk,
          codeOverflow_one hw hW]
        exact hcond.imp_right fun h => h.resolve_left (not_not.mpr hk)
      · rw [withFlags_bit hW11, if_neg h0, if_neg h11]

end Values

/-! ## The expressions of the code -/

theorem carryIn_lt {w i : ℕ} (hpos : 0 < i) (hle : i ≤ w) (isLeft : Bool) :
    carryIn isLeft w i < w := by
  cases isLeft <;> simp [carryIn] <;> omega

section Expressions

variable {μ : Type} [VineMemory μ] {ρ : Valuation μ} {t : Typ} {w : ℕ}
  {isLeft : Bool} {arg amt cf : Exp} {x : BitVec t.width} {k : BitVec 32}
  {c : Bool}

theorem denotes_sh (hx : Denotes ρ arg t x) (hk : Denotes ρ amt .reg32 k) :
    Denotes ρ (exSh isLeft arg amt) t (shiftWith isLeft x k.toNat) := by
  cases isLeft with
  | true => exact hx.shl hk
  | false => exact hx.shr hk

theorem denotes_rsh (hx : Denotes ρ arg t x) (hk : Denotes ρ amt .reg32 k) :
    Denotes ρ (exRsh isLeft arg amt) t (shiftWith (!isLeft) x k.toNat) := by
  cases isLeft with
  | true => exact hx.shr hk
  | false => exact hx.shl hk

theorem denotes_flagCast {e : Exp} {b : Bool} (h : DenotesBool ρ e b)
    (t : Typ) : Denotes ρ (exUCast e t) t (flag t.width b) := by
  have hcast : (flag 1 b).setWidth t.width = flag t.width b := by
    rw [flag, flag, BitVec.setWidth_eq]
  exact hcast ▸ h.ucast t

/-- A position that the code computes from the amount. -/
def rotatePos (isLeft : Bool) (w : ℕ) (amt : Exp) : Exp :=
  if isLeft then exSub amt (exConst 1)
  else exSub (exConst (BitVec.ofNat 32 w)) amt

theorem rotatePos_not (isLeft : Bool) (w : ℕ) (amt : Exp) :
    rotatePos (!isLeft) w amt =
      if isLeft then exSub (exConst (BitVec.ofNat 32 w)) amt
      else exSub amt (exConst 1) := by
  cases isLeft <;> rfl

theorem toNat_bits (hw : w ≤ 64) : (BitVec.ofNat 32 w).toNat = w := by
  rw [BitVec.toNat_ofNat]
  exact Nat.mod_eq_of_lt (by omega)

theorem denotes_rotatePos (hk : Denotes ρ amt .reg32 k) (hw : w ≤ 64)
    (hle : k.toNat ≤ w) (isLeft : Bool) :
    ∃ v : BitVec 32, Denotes ρ (rotatePos isLeft w amt) .reg32 v ∧
      (0 < k.toNat → v.toNat = carryIn isLeft w k.toNat) := by
  have hone : (1 : BitVec 32).toNat = 1 := rfl
  cases isLeft with
  | true =>
    refine ⟨k - 1, hk.sub (.const32 1), fun hpos => ?_⟩
    simp only [carryIn, if_true, BitVec.toNat_sub, hone]
    omega
  | false =>
    refine ⟨BitVec.ofNat 32 w - k, (Denotes.const32 _).sub hk, fun _ => ?_⟩
    simp only [carryIn, Bool.false_eq_true, if_false, BitVec.toNat_sub,
      toNat_bits hw]
    omega

/-- A position within the operand is not changed by the mask. -/
theorem denotes_maskedPos (hk : Denotes ρ amt .reg32 k)
    (hw : w = 32 ∨ w = 64) (hlt : k.toNat < w) (isLeft : Bool) :
    ∃ v : BitVec 32, Denotes ρ (exAnd (rotatePos isLeft w amt)
        (exConst (BitVec.ofNat 32 w - 1))) .reg32 v ∧
      (0 < k.toNat → v.toNat = carryIn isLeft w k.toNat) := by
  obtain ⟨v, hv, hpos⟩ := denotes_rotatePos hk (by omega) hlt.le isLeft
  refine ⟨_, hv.and (.const32 _), fun h => ?_⟩
  have hin := carryIn_lt h hlt.le isLeft
  rw [BitVec.toNat_and, hpos h]
  rcases hw with rfl | rfl
  · exact (Nat.and_two_pow_sub_one_eq_mod _ 5).trans (Nat.mod_eq_of_lt hin)
  · exact (Nat.and_two_pow_sub_one_eq_mod _ 6).trans (Nat.mod_eq_of_lt hin)

theorem denotes_restPos (hk : Denotes ρ amt .reg32 k) (hw : w ≤ 64)
    (hle : k.toNat ≤ w) :
    ∃ v : BitVec 32,
      Denotes ρ (exSub (exConst (BitVec.ofNat 32 w + 1)) amt) .reg32 v ∧
        v.toNat = w + 1 - k.toNat := by
  have hone : (1 : BitVec 32).toNat = 1 := rfl
  refine ⟨BitVec.ofNat 32 w + 1 - k, (Denotes.const32 _).sub hk, ?_⟩
  simp only [BitVec.toNat_sub, BitVec.toNat_add, toNat_bits hw, hone]
  omega

/-- The value, from the positions however they are computed. -/
theorem denotes_rotatedValue {pos rest : Exp} {p r : BitVec 32}
    (hx : Denotes ρ arg t x) (hk : Denotes ρ amt .reg32 k)
    (hc : DenotesBool ρ cf c) (hp : Denotes ρ pos .reg32 p)
    (hr : Denotes ρ rest .reg32 r) :
    ∃ y : BitVec t.width, Denotes ρ (exOr (exSh isLeft arg amt)
        (exOr (exShl (exUCast cf t) pos) (exRsh isLeft arg rest))) t y ∧
      (p.toNat = carryIn isLeft w k.toNat → r.toNat = w + 1 - k.toNat →
        y = rotatedValue isLeft w k.toNat x c) := by
  refine ⟨_, (denotes_sh hx hk).or
    (((denotes_flagCast hc t).shl hp).or (denotes_rsh hx hr)), ?_⟩
  intro hpos hrest
  rw [hpos, hrest, rotatedValue, BitVec.or_assoc]

/-- The carry, from the position however it is computed. -/
theorem denotes_codeCarry {pos : Exp} {p : BitVec 32} {y : BitVec w}
    (hx : Denotes ρ arg t (y.setWidth t.width)) (hw : w ≤ t.width)
    (hp : Denotes ρ pos .reg32 p) :
    ∃ b, DenotesBool ρ (exLCast (exShr arg pos) .reg1) b ∧
      (p.toNat = carryOut isLeft w k.toNat → p.toNat < w →
        b = codeCarry isLeft k.toNat y) := by
  refine ⟨_, denotes_bit0 (hx.shr hp), fun hpos hlt => ?_⟩
  have hltW : p.toNat < t.width := hlt.trans_le hw
  rw [BitVec.getLsbD_ushiftRight, Nat.add_zero, BitVec.getLsbD_setWidth,
    codeCarry, ← hpos]
  simp [hltW]

/-- The highest bit of the rotated value. -/
theorem denotes_answerBit {e : Exp} (he : Denotes ρ e t x) (hw0 : 0 < w)
    (hw : w ≤ 64) :
    DenotesBool ρ (exLCast
        (exShr e (exConst (BitVec.ofNat 32 w - 1))) .reg1)
      (x.getLsbD (w - 1)) := by
  have hone : (1 : BitVec 32).toNat = 1 := rfl
  have h := denotes_bit0 (he.shr (.const32 (BitVec.ofNat 32 w - 1)))
  have hlast : (BitVec.ofNat 32 w - 1).toNat = w - 1 := by
    simp only [BitVec.toNat_sub, toNat_bits hw, hone]
    omega
  rwa [BitVec.getLsbD_ushiftRight, Nat.add_zero, hlast] at h

/-- The carry flag register holds some bit. -/
theorem hasFlag_eval (ρ : Valuation μ) :
    HasFlag ρ .cf ((Exp.temp (flagReg .cf)).eval ρ 1 == 1) := by
  have hbit : ∀ v : BitVec 1, v = flag 1 (v == 1) := by decide
  exact ⟨rfl, rfl, hbit _⟩

end Expressions

/-! ## The 64-bit translation -/

section X64

variable {μ : Type} [VineMemory μ] {ρ : Valuation μ} {n w : ℕ}
  {isLeft : Bool} {arg amt modded flags_in : Exp} {x : BitVec w}
  {e : BitVec 64} {k : BitVec 32} {c : Bool}

/-- The operands of the code, where it runs. -/
structure RotateArgs (ρ : Valuation μ) (arg modded flags_in : Exp)
    (x : BitVec w) (k : BitVec 32) (e : BitVec 64) (c : Bool) : Prop where
  arg : Denotes ρ arg .reg64 (x.setWidth Typ.reg64.width)
  amt : Denotes ρ modded .reg32 k
  flags : Denotes ρ flags_in .reg64 e
  carry : HasFlag ρ .cf c

theorem toNat_pos_of_ne {k : BitVec 32} (h : k ≠ 0) : 0 < k.toNat := by
  apply Nat.pos_of_ne_zero
  exact fun h0 => h (BitVec.eq_of_toNat_eq h0)

/-- A choice by a test of the amount for zero. -/
theorem ite_amount {α : Type} {a a' b b' : α} (ha : a = a')
    (hb : 0 < k.toNat → b = b') :
    (if (k == 0) = true then a else b) = if k.toNat = 0 then a' else b' := by
  by_cases hk : k = 0
  · subst hk
    exact ha
  · have hpos := toNat_pos_of_ne hk
    rw [beq_eq_false_iff_ne.mpr hk, if_neg Bool.false_ne_true,
      if_neg hpos.ne', hb hpos]

theorem yields_x64Value (hw : w = 32 ∨ w = 64) (hk : k.toNat < w)
    (h : RotateArgs ρ arg modded flags_in x k e c) :
    Yields ρ (x64RotateCode isLeft false (BitVec.ofNat 32 w) arg modded
      flags_in) fun r =>
        Denotes ρ r .reg64 (codeValue isLeft 64 k.toNat x c) := by
  apply yields_temp h.amt
  intro rot hrot
  obtain ⟨p, hp, hpos⟩ := denotes_maskedPos hrot hw hk isLeft
  obtain ⟨r, hr, hrest⟩ := denotes_restPos hrot (w := w) (by omega) hk.le
  obtain ⟨y, hy, hvalue⟩ := @denotes_rotatedValue μ _ ρ _ w isLeft _ _ _ _ _ _ _
    _ _ _ h.arg hrot h.carry hp hr
  apply yields_mkTemp
  intro v hv
  apply yields_move hv ((hrot.eq (.const32 0)).ite h.arg hy)
  intro hresult
  rw [ite_amount rfl fun hk0 => hvalue (hpos hk0) hrest] at hresult
  exact yields_pure hresult

theorem yields_x64Flags (hw : w = 32 ∨ w = 64) (hk : k.toNat < w)
    (h : RotateArgs ρ arg modded flags_in x k e c) :
    Yields ρ (x64RotateCode isLeft true (BitVec.ofNat 32 w) arg modded
      flags_in) fun r =>
        Denotes ρ r .reg64 (codeFlags isLeft k.toNat x c e) := by
  apply yields_temp h.amt
  intro rot hrot
  have hle : w ≤ 64 := by omega
  obtain ⟨p, hp, hpos⟩ := denotes_maskedPos hrot hw hk isLeft
  obtain ⟨q, hq, hout⟩ := denotes_maskedPos hrot hw hk (!isLeft)
  obtain ⟨r, hr, hrest⟩ := denotes_restPos hrot hle hk.le
  obtain ⟨y, hy, hvalue⟩ := @denotes_rotatedValue μ _ ρ _ w isLeft _ _ _ _ _ _ _
    _ _ _ h.arg hrot h.carry hp hr
  obtain ⟨b, hb, hcarry⟩ := @denotes_codeCarry μ _ ρ _ w isLeft _ k _ _ _
    h.arg hle hq
  rw [rotatePos_not] at hb
  apply yields_temp hb
  intro new_cf hcf
  have hof := (denotes_answerBit hy (by omega) hle).xorBool hcf
  have hflags := (h.flags.and (.constOf .reg64 (~~~(1#64 <<< 0 ||| 1#64 <<< 11)))).or
    ((denotes_flagCast hcf .reg64).or
      ((denotes_flagCast hof .reg64).shl (.const32 ofPos)))
  apply yields_mkTemp
  intro v hv
  apply yields_move hv ((hrot.eq (.const32 0)).ite h.flags hflags)
  intro hresult
  rw [ite_amount rfl fun hk0 => ?_] at hresult
  · exact yields_pure hresult
  · have hcarryIn := carryIn_lt hk0 hk.le (!isLeft)
    have hvalue' := hvalue (hpos hk0) hrest
    have hcarry' := hcarry (hout hk0) ((hout hk0).trans_lt hcarryIn)
    rw [hvalue', hcarry', BitVec.or_comm (flag _ _)]
    rfl

theorem below_exSh {m : ℕ} {a b : Exp} (ha : Below m a) (hb : Below m b) :
    Below m (exSh isLeft a b) ∧ Below m (exRsh isLeft a b) := by
  cases isLeft <;> exact ⟨⟨ha, hb⟩, ⟨ha, hb⟩⟩

theorem below_rotatePos {m : ℕ} {a : Exp} (ha : Below m a) :
    Below m (rotatePos isLeft w a) := by
  cases isLeft
  · exact ⟨trivial, ha⟩
  · exact ⟨ha, trivial⟩

theorem below_flagReg (m : ℕ) (f : Flag) : Below m (.temp (flagReg f)) :=
  (flagReg_id_neg f).trans_le (Int.natCast_nonneg m)

theorem below_tempVar {m i : ℕ} (h : i < m) (t : Typ) :
    Below m (.temp (tempVar t i)) := Int.ofNat_lt.mpr h

/-- The expression of the rotated value. -/
def answerExp (isLeft : Bool) (t : Typ) (w : ℕ) (arg rot pos : Exp) : Exp :=
  exOr (exSh isLeft arg rot)
    (exOr (exShl (exUCast (.temp (flagReg .cf)) t) pos)
      (exRsh isLeft arg (exSub (exConst (BitVec.ofNat 32 w + 1)) rot)))

theorem below_answerExp {m : ℕ} {t : Typ} {rot pos : Exp} (harg : Below m arg)
    (hrot : Below m rot) (hpos : Below m pos) :
    Below m (answerExp isLeft t w arg rot pos) := by
  have hrest : Below m (exSub (exConst (BitVec.ofNat 32 w + 1)) rot) :=
    And.intro trivial hrot
  exact ⟨(below_exSh harg hrot).1, ⟨below_flagReg m .cf, hpos⟩,
    (below_exSh harg hrest).2⟩

theorem places_x64RotateCode {ret_flags : Bool} (harg : Below n arg)
    (hmodded : Below n modded) (hflags : Below n flags_in) :
    Places n (x64RotateCode isLeft ret_flags (BitVec.ofNat 32 w) arg modded
      flags_in) fun _ _ => True := by
  set rot : Exp := .temp (tempVar .reg32 n)
  have hrot : ∀ {m}, n < m → Below m rot := fun hm => below_tempVar hm _
  have hmask : ∀ (left : Bool) {m}, n < m →
      Below m (exAnd (rotatePos left w rot)
        (exConst (BitVec.ofNat 32 w - 1))) := fun left m hm =>
    And.intro (below_rotatePos (hrot hm)) trivial
  have hzero : ∀ {m}, n < m → Below m (exEq rot (exConst 0)) :=
    fun hm => And.intro (hrot hm) trivial
  have hanswer : ∀ {m}, n < m → Below m (answerExp isLeft .reg64 w arg rot _) :=
    fun hm => below_answerExp (harg.mono hm.le) (hrot hm) (hmask isLeft hm)
  have hn : n < n + 1 := Nat.lt_succ_self n
  have hn' : n < n + 1 + 1 := by omega
  apply places_temp hmodded
  cases ret_flags with
  | false =>
    have hite : Below (n + 1) (exIte (exEq rot (exConst 0)) arg
        (answerExp isLeft .reg64 w arg rot _)) :=
      ⟨hzero hn, harg.mono hn.le, hanswer hn⟩
    exact ⟨⟨rfl, hite, rfl⟩, trivial⟩
  | true =>
    have hcf : Below (n + 1) (exLCast (exShr arg _) .reg1) :=
      And.intro (harg.mono hn.le) (hmask (!isLeft) hn)
    rw [rotatePos_not] at hcf
    apply places_temp hcf
    set new_cf : Exp := .temp (tempVar .reg1 (n + 1))
    have hnew : Below (n + 1 + 1) new_cf := below_tempVar (by omega) _
    set new_of : Exp := exXor (exLCast (exShr
        (answerExp isLeft .reg64 w arg rot (exAnd (rotatePos isLeft w rot)
          (exConst (BitVec.ofNat 32 w - 1))))
        (exConst (BitVec.ofNat 32 w - 1))) .reg1) new_cf
    have hof : Below (n + 1 + 1) new_of :=
      ⟨And.intro (hanswer hn') trivial, hnew⟩
    have hwnOF : Below (n + 1 + 1)
        (exShl (exUCast new_of .reg64) (exConst ofPos)) := ⟨hof, trivial⟩
    have hite : Below (n + 1 + 1) (exIte (exEq rot (exConst 0)) flags_in
        (exOr (exAnd flags_in
            (exConstOf .reg64 (~~~(1#64 <<< 0 ||| 1#64 <<< 11))))
          (exOr (exUCast new_cf .reg64)
            (exShl (exUCast new_of .reg64) (exConst ofPos))))) :=
      ⟨hzero hn', hflags.mono hn'.le, And.intro (hflags.mono hn'.le) trivial,
        hnew, hwnOF⟩
    exact ⟨⟨rfl, hite, rfl⟩, trivial⟩

end X64

/-! ## The 32-bit translation -/

section I386

variable {μ : Type} [VineMemory μ] {ρ : Valuation μ} {n l sz : ℕ}
  {isLeft : Bool} {arg amt eflags_in : Exp} {x : BitVec (sz * 8)}
  {e k : BitVec 32} {c : Bool}

/-- The test for an amount of zero. -/
def rotateTest (sz : ℕ) (amt : Exp) (n l : ℕ) : List Statement :=
  [.varDecl (tempVar .reg32 n),
    .move (.temp (tempVar .reg32 n)) (exMod (exAnd amt (exConst 31))
      (exConst (BitVec.ofNat 32 (sz * 8) + 1))),
    .varDecl (tempVar .reg32 (n + 1)), .varDecl (tempVar .reg32 (n + 2)),
    .cjmp (exEq (.temp (tempVar .reg32 n)) (exConstOf .reg32 0))
      (.name (labelName (l + 1))) (.name (labelName l))]

/-- The case of another amount. -/
def rotateNormal (isLeft : Bool) (sz : ℕ) (arg eflags_in : Exp) (n l : ℕ) :
    List Statement :=
  let rot := Exp.temp (tempVar .reg32 n)
  let answer := Exp.temp (tempVar .reg32 (n + 1))
  let new_cf := exLCast (exShr arg
    (if isLeft then exSub (exConst (BitVec.ofNat 32 (sz * 8))) rot
      else exSub rot (exConst 1))) .reg1
  let of := exXor (exLCast (exShr answer
    (exConst (BitVec.ofNat 32 (sz * 8) - 1))) .reg1) new_cf
  [.label (labelName l),
    .move answer (answerExp isLeft .reg32 (sz * 8) arg rot
      (rotatePos isLeft (sz * 8) rot)),
    .move (.temp (tempVar .reg32 (n + 2)))
      (exOr (exAnd eflags_in (exConst (~~~(cfMaskBit ||| ofMask))))
        (exOr (exShl (exUCast of .reg32) (exConst ofPos))
          (exShl (exUCast new_cf .reg32) (exConst 0)))),
    .jmp (.name (labelName (l + 2)))]

/-- The case of the amount zero. -/
def rotateZero (arg eflags_in : Exp) (n l : ℕ) : List Statement :=
  [.label (labelName (l + 1)), .move (.temp (tempVar .reg32 (n + 1))) arg,
    .move (.temp (tempVar .reg32 (n + 2))) eflags_in]

/-- Putting the result together. -/
def rotateResult (n l : ℕ) : List Statement :=
  [.label (labelName (l + 2)), .varDecl (tempVar .reg64 (n + 3)),
    .move (.temp (tempVar .reg64 (n + 3)))
      (exOr (exShl (exUCast (.temp (tempVar .reg32 (n + 2))) .reg64)
          (exConst 32))
        (exUCast (.temp (tempVar .reg32 (n + 1))) .reg64))]

theorem i386CalculateRotate_stmts :
    (i386CalculateRotate isLeft sz arg amt eflags_in n l).stmts =
      rotateTest sz amt n l ++ (rotateNormal isLeft sz arg eflags_in n l ++
        (rotateZero arg eflags_in n l ++ rotateResult n l)) := rfl

theorem rotate_findLabel {pre : List Statement} (hpre : LabelsBelow l pre)
    (post : List Statement) :
    let frag := pre ++ ((i386CalculateRotate isLeft sz arg amt eflags_in n
      l).stmts ++ post)
    let result := rotateResult n l ++ post
    let zero := rotateZero arg eflags_in n l ++ result
    let normal := rotateNormal isLeft sz arg eflags_in n l ++ zero
    findLabel (labelName l) frag = some normal ∧
      findLabel (labelName (l + 1)) frag = some zero ∧
      findLabel (labelName (l + 2)) frag = some result := by
  intro frag result zero normal
  have hne : ∀ {i j : ℕ}, i ≠ j → labelName i ≠ labelName j := fun h heq =>
    h (labelName_injective heq)
  have htest : labels (rotateTest sz amt n l) = [] := rfl
  have hnormal : labels (rotateNormal isLeft sz arg eflags_in n l) =
      [labelName l] := rfl
  have hzero : labels (rotateZero arg eflags_in n l) = [labelName (l + 1)] :=
    rfl
  have h0 := hpre l le_rfl
  have h1 := hpre (l + 1) (by omega)
  have h2 := hpre (l + 2) (by omega)
  refine ⟨?_, ?_, ?_⟩
  · have hfrag : frag = (pre ++ rotateTest sz amt n l) ++ normal := by
      simp only [frag, normal, zero, result, i386CalculateRotate_stmts,
        List.append_assoc]
    rw [hfrag]
    apply findLabel_append
    rw [labels_append, htest, List.append_nil]
    exact h0
  · have hfrag : frag = (pre ++ rotateTest sz amt n l ++
        rotateNormal isLeft sz arg eflags_in n l) ++ zero := by
      simp only [frag, zero, result, i386CalculateRotate_stmts,
        List.append_assoc]
    rw [hfrag]
    apply findLabel_append
    rw [labels_append, labels_append, htest, hnormal]
    simpa using ⟨h1, hne (by omega)⟩
  · have hfrag : frag = (pre ++ rotateTest sz amt n l ++
        rotateNormal isLeft sz arg eflags_in n l ++
          rotateZero arg eflags_in n l) ++ result := by
      simp only [frag, result, i386CalculateRotate_stmts, List.append_assoc]
    rw [hfrag]
    apply findLabel_append
    rw [labels_append, labels_append, labels_append, htest, hnormal, hzero]
    simpa using ⟨h2, hne (by omega), hne (by omega)⟩

theorem tempVar_ne {t u : Typ} {i j : ℕ} (h : i ≠ j) :
    tempVar t i ≠ tempVar u j := by
  intro heq
  have hid : (i : ℤ) = j := congrArg Var.id heq
  exact h (Int.ofNat_inj.mp hid)

/-- An expression over older temporaries keeps its value when a newer one is
assigned. -/
theorem Denotes.after_move {t u : Typ} {a rhs : Exp} {W i m : ℕ}
    {y : BitVec W} (h : Denotes ρ a t y) (hbelow : Below m a) (him : m ≤ i) :
    Denotes (exec [.move (tempVar u i) rhs] ρ) a t y := by
  refine h.congr hbelow ((agreeOn_move _ _ _).mono fun v hv => ?_)
  rintro rfl
  have hlt : (i : ℤ) < m := hv
  omega

theorem agreeOn_newer {u : Typ} {m i : ℕ} (him : m ≤ i) (rhs : Exp)
    (ρ : Valuation μ) :
    AgreeOn (Numbered m) ρ (exec [.move (tempVar u i) rhs] ρ) := by
  refine (agreeOn_move _ _ _).mono fun v hv => ?_
  rintro rfl
  have hlt : (i : ℤ) < m := hv
  omega

variable {frag post : List Statement} {v f : BitVec 32}

/-- The two halves of the result are there. -/
structure HasHalves (ρ : Valuation μ) (n : ℕ) (v f : BitVec 32) : Prop where
  answer : Denotes ρ (.temp (tempVar .reg32 (n + 1))) .reg32 v
  flags : Denotes ρ (.temp (tempVar .reg32 (n + 2))) .reg32 f

theorem rotateResult_reaches (h : HasHalves ρ n v f) :
    ∃ ρ', Reaches frag (.running (rotateResult n l ++ post) ρ)
        (.running post ρ') ∧
      AgreeOn (Numbered n) ρ ρ' ∧
      Denotes ρ' (.temp (tempVar .reg64 (n + 3))) .reg64
        (f ++ v : BitVec 64) := by
  have hvalue := ((h.flags.ucast .reg64).shl (.const32 32)).or
    (h.answer.ucast .reg64)
  have happend := shiftLeft_or_eq_append f v
  refine ⟨_, reaches_label (reaches_varDecl (reaches_move Reaches.refl)),
    agreeOn_newer (by omega) _ _, ?_⟩
  exact denotes_move rfl (happend ▸ hvalue)

theorem rotateZero_reaches
    (hflags : Operand n .reg32 eflags_in) (hv : Denotes ρ arg .reg32 v)
    (hf : Denotes ρ eflags_in .reg32 f) (rest : List Statement) :
    ∃ ρ', Reaches frag (.running (rotateZero arg eflags_in n l ++ rest) ρ)
        (.running rest ρ') ∧
      AgreeOn (Numbered n) ρ ρ' ∧ HasHalves ρ' n v f := by
  have hnew := denotes_move (v := tempVar .reg32 (n + 1)) rfl hv
  refine ⟨_, reaches_label (reaches_move (reaches_move Reaches.refl)),
    (agreeOn_newer (by omega) _ _).trans (agreeOn_newer (by omega) _ _), ?_⟩
  exact ⟨hnew.after_move (below_tempVar (Nat.lt_succ_self _) _) le_rfl,
    denotes_move rfl (hf.after_move hflags.below (Nat.le_succ n))⟩

theorem rotateNormal_reaches (hw0 : 0 < sz * 8) (hw : sz * 8 ≤ 32)
    (harg : Operand n .reg32 arg) (hflags : Operand n .reg32 eflags_in)
    (hx : Denotes ρ arg .reg32 (x.setWidth Typ.reg32.width))
    (he : Denotes ρ eflags_in .reg32 e)
    (hk : Denotes ρ (.temp (tempVar .reg32 n)) .reg32 k)
    (hc : HasFlag ρ .cf c) (hpos : 0 < k.toNat) (hle : k.toNat ≤ sz * 8)
    {rest : List Statement}
    (hout : findLabel (labelName (l + 2)) frag = some rest)
    (after : List Statement) :
    ∃ ρ', Reaches frag
        (.running (rotateNormal isLeft sz arg eflags_in n l ++ after) ρ)
        (.running rest ρ') ∧
      AgreeOn (Numbered n) ρ ρ' ∧
      HasHalves ρ' n (codeValue isLeft 32 k.toNat x c)
        (codeFlags isLeft k.toNat x c e) := by
  have hw64 : sz * 8 ≤ 64 := by omega
  obtain ⟨p, hp, hpin⟩ := denotes_rotatePos hk hw64 hle isLeft
  obtain ⟨r, hr, hrest⟩ := denotes_restPos hk hw64 hle
  obtain ⟨y, hy, hvalue⟩ := @denotes_rotatedValue μ _ ρ _ (sz * 8) isLeft _ _
    _ _ _ _ _ _ _ _ hx hk hc hp hr
  obtain rfl := hvalue (hpin hpos) hrest
  set answer := tempVar .reg32 (n + 1)
  set rot := Exp.temp (tempVar .reg32 n)
  set ρ1 := exec [.move answer (answerExp isLeft .reg32 (sz * 8) arg rot
    (rotatePos isLeft (sz * 8) rot))] ρ
  have hrot : Below (n + 1) rot := below_tempVar (Nat.lt_succ_self n) _
  have hanswer1 : Denotes ρ1 (.temp answer) .reg32 _ := denotes_move rfl hy
  have hx1 : Denotes ρ1 arg .reg32 _ := hx.after_move harg.below (Nat.le_succ n)
  have he1 : Denotes ρ1 eflags_in .reg32 e :=
    he.after_move hflags.below (Nat.le_succ n)
  have hk1 : Denotes ρ1 rot .reg32 k := hk.after_move hrot le_rfl
  obtain ⟨q, hq, hqout⟩ := denotes_rotatePos hk1 hw64 hle (!isLeft)
  obtain ⟨b, hb, hcarry⟩ := @denotes_codeCarry μ _ ρ1 _ (sz * 8) isLeft _ k _ _
    _ hx1 hw hq
  have hout' := (hqout hpos).trans_lt (carryIn_lt hpos hle (!isLeft))
  obtain rfl := hcarry (hqout hpos) hout'
  rw [rotatePos_not] at hb
  have hof := (denotes_answerBit hanswer1 hw0 hw64).xorBool hb
  have hcf : Denotes ρ1 _ .reg32 (flag 32 _) := BitVec.shiftLeft_zero _ ▸
    (denotes_flagCast hb .reg32).shl (.const32 0)
  have hnewFlags := (he1.and (.const32 (~~~(cfMaskBit ||| ofMask)))).or
    (((denotes_flagCast hof .reg32).shl (.const32 ofPos)).or hcf)
  refine ⟨_, reaches_label (reaches_move (reaches_move
      (reaches_jmp hout Reaches.refl))),
    (agreeOn_newer (by omega) _ _).trans (agreeOn_newer (by omega) _ _),
    ?_, ?_⟩
  · rw [codeValue, if_neg hpos.ne']
    exact hanswer1.after_move (below_tempVar (Nat.lt_succ_self _) _) le_rfl
  · rw [codeFlags, if_neg hpos.ne']
    exact denotes_move (v := tempVar .reg32 (n + 2)) rfl hnewFlags

theorem toNat_i386Amount (hw : sz * 8 ≤ 32) (a : BitVec 32) :
    ((a &&& 31) % (BitVec.ofNat 32 (sz * 8) + 1)).toNat =
      maskedAmount (sz * 8) a % (sz * 8 + 1) := by
  have hne : sz * 8 ≠ 64 := by omega
  have hmask : (a &&& 31).toNat = a.toNat % 32 :=
    (BitVec.toNat_and a 31).trans (Nat.and_two_pow_sub_one_eq_mod _ 5)
  have hone : (1 : BitVec 32).toNat = 1 := rfl
  rw [BitVec.toNat_umod, hmask, BitVec.toNat_add, toNat_bits (by omega), hone,
    maskedAmount, if_neg hne, Nat.mod_eq_of_lt (show sz * 8 + 1 < 2 ^ 32 by omega)]

theorem runs_i386CalculateRotate (hw0 : 0 < sz * 8) (hw : sz * 8 ≤ 32)
    (harg : Operand n .reg32 arg) (hamt : Operand n .reg32 amt)
    (hflags : Operand n .reg32 eflags_in)
    (hx : arg.eval ρ 32 = x.setWidth 32) :
    let c := (Exp.temp (flagReg .cf)).eval ρ 1 == 1
    let k := maskedAmount (sz * 8) (amt.eval ρ 32) % (sz * 8 + 1)
    Runs ρ n l (i386CalculateRotate isLeft sz arg amt eflags_in) .reg64
      fun r => r = codeFlags isLeft k x c (eflags_in.eval ρ 32) ++
        codeValue isLeft 32 k x c := by
  intro c k pre post hpre
  obtain ⟨hnormal, hzero, hout⟩ := @rotate_findLabel n l sz isLeft arg amt
    eflags_in pre hpre post
  set frag := pre ++ ((i386CalculateRotate isLeft sz arg amt eflags_in n
    l).stmts ++ post)
  have hself : AgreeOn (Numbered n) ρ ρ := ⟨fun _ _ => rfl, rfl, rfl⟩
  have hx0 : Denotes ρ arg .reg32 (x.setWidth 32) := hx ▸ harg.denotes hself
  have he0 := hflags.denotes hself
  -- the amount
  set amount := (amt.eval ρ 32 &&& 31) % (BitVec.ofNat 32 (sz * 8) + 1)
  have hamount : amount.toNat = k := toNat_i386Amount hw _
  have hk0 : Denotes ρ (exMod (exAnd amt (exConst 31))
      (exConst (BitVec.ofNat 32 (sz * 8) + 1))) .reg32 amount :=
    ((hamt.denotes hself).and (.const32 31)).mod (.const32 _)
  set rhs := exMod (exAnd amt (exConst 31))
    (exConst (BitVec.ofNat 32 (sz * 8) + 1))
  set ρ1 := exec [.move (tempVar .reg32 n) rhs] ρ
  have hagree1 : AgreeOn (Numbered n) ρ ρ1 := agreeOn_newer le_rfl _ _
  have hk1 : Denotes ρ1 (.temp (tempVar .reg32 n)) .reg32 amount :=
    denotes_move rfl hk0
  have hx1 : Denotes ρ1 arg .reg32 _ := hx0.after_move harg.below le_rfl
  have he1 : Denotes ρ1 eflags_in .reg32 _ :=
    he0.after_move hflags.below le_rfl
  have hc1 : HasFlag ρ1 .cf c :=
    (hasFlag_eval ρ).after_move (below_flagReg n .cf) le_rfl
  have htest : DenotesBool ρ1 (exEq (.temp (tempVar .reg32 n))
      (exConstOf .reg32 0)) (amount == 0) := hk1.eq (.constOf .reg32 0)
  have hstmts : (i386CalculateRotate isLeft sz arg amt eflags_in n l).stmts ++
      post = rotateTest sz amt n l ++
        (rotateNormal isLeft sz arg eflags_in n l ++
          (rotateZero arg eflags_in n l ++ (rotateResult n l ++ post))) := by
    simp only [i386CalculateRotate_stmts, List.append_assoc]
  -- up to the result, by either way
  have hhalves : ∃ ρ2, Reaches frag (.running ((i386CalculateRotate isLeft sz
        arg amt eflags_in n l).stmts ++ post) ρ)
        (.running (rotateResult n l ++ post) ρ2) ∧
      AgreeOn (Numbered n) ρ1 ρ2 ∧
      HasHalves ρ2 n (codeValue isLeft 32 k x c)
        (codeFlags isLeft k x c (eflags_in.eval ρ 32)) := by
    rw [hstmts]
    by_cases hamount0 : amount = 0
    · have hk : k = 0 := by
        rw [← hamount, hamount0]
        rfl
      obtain ⟨ρ2, hreach, hagree, hhave⟩ := @rotateZero_reaches μ _ ρ1 n l arg
        eflags_in frag _ _ hflags hx1 he1 (rotateResult n l ++ post)
      rw [codeValue, codeFlags, if_pos hk, if_pos hk]
      refine ⟨ρ2, ?_, hagree, hhave⟩
      apply reaches_varDecl
      apply reaches_move
      apply reaches_varDecl
      apply reaches_varDecl
      apply reaches_cjmp htest _ hreach
      rw [beq_iff_eq.mpr hamount0, if_pos rfl]
      exact hzero
    · have hpos := toNat_pos_of_ne hamount0
      have hle : amount.toNat ≤ sz * 8 := by
        rw [hamount]
        exact Nat.le_of_lt_succ (Nat.mod_lt _ (Nat.succ_pos _))
      obtain ⟨ρ2, hreach, hagree, hhave⟩ := rotateNormal_reaches hw0 hw harg
        hflags hx1 he1 hk1 hc1 hpos hle hout
        (rotateZero arg eflags_in n l ++ (rotateResult n l ++ post))
      rw [hamount] at hhave
      refine ⟨ρ2, ?_, hagree, hhave⟩
      apply reaches_varDecl
      apply reaches_move
      apply reaches_varDecl
      apply reaches_varDecl
      apply reaches_cjmp htest _ hreach
      rw [beq_eq_false_iff_ne.mpr hamount0, if_neg Bool.false_ne_true]
      exact hnormal
  obtain ⟨ρ2, hreach, hagree2, hhave⟩ := hhalves
  obtain ⟨ρ3, hresult, hagree3, hvalue⟩ := @rotateResult_reaches μ _ ρ2 n l frag
    post _ _ hhave
  exact ⟨ρ3, _, hreach.trans hresult,
    (hagree1.trans hagree2).trans hagree3, hvalue, rfl⟩

end I386

/-! ## Where the translated instruction is right -/

/-- The two translators. -/
inductive X86Mode
  | i386
  | x64
  deriving DecidableEq, Repr

/-- The type of the operands of the helper. -/
def X86Mode.word : X86Mode → Typ
  | .i386 => .reg32
  | .x64 => .reg64

/-- The operand sizes of the instruction, in bytes. -/
def X86Mode.sizes : X86Mode → List ℕ
  | .i386 => [1, 2, 4]
  | .x64 => [1, 2, 4, 8]

/-- The flag in `R_CF`, which the flags word is put together from. -/
def carryFlag {μ : Type} [VineMemory μ] (ρ : Valuation μ) : Bool :=
  (Exp.temp (flagReg .cf)).eval ρ 1 == 1

/-- The code gives a value and a flags word as asked for.  On x64 the helper is
called twice. -/
def X86Mode.Rotates {μ : Type} [VineMemory μ] (mode : X86Mode)
    (ρ : Valuation μ) (n l : ℕ) (isLeft : Bool) (sz : ℕ)
    (arg amt flags_in : Exp)
    (Ok : BitVec mode.word.width → BitVec mode.word.width → Prop) : Prop :=
  match mode with
  | .i386 =>
      Runs ρ n l (i386CalculateRotate isLeft sz arg amt flags_in) .reg64
        fun r => Ok (r.setWidth 32) (Bits.high 32 r)
  | .x64 =>
      ∃ value flags,
        x64CalculateRotate isLeft sz arg amt flags_in = .ok value ∧
        x64CalculateRotate isLeft (-sz) arg amt flags_in = .ok flags ∧
        Runs ρ n l value .reg64 fun v =>
          Runs ρ n l flags .reg64 fun f => Ok v f

/-- The operands of the instruction: `x` is zero-extended. -/
structure RotateOperands {μ : Type} [VineMemory μ] {w : ℕ} (ρ : Valuation μ)
    (n : ℕ) (t : Typ) (arg amt flags_in : Exp) (x : BitVec w) : Prop where
  value : arg.eval ρ t.width = x.setWidth t.width
  arg : Operand n t arg
  amt : Operand n t amt
  flags : Operand n t flags_in

section Result

variable {μ : Type} [VineMemory μ] {ρ : Valuation μ} {n l sz : ℕ}
  {isLeft : Bool} {arg amt flags_in : Exp}

theorem x64CalculateRotate_eq (h : sz = 4 ∨ sz = 8) (ret_flags : Bool) :
    x64CalculateRotate isLeft (if ret_flags then -sz else sz) arg amt flags_in =
      .ok (liftEmit (x64RotateCode isLeft ret_flags (BitVec.ofNat 32 (sz * 8))
        arg (exAnd (exLCast amt .reg32) (exConst (if sz = 8 then 63 else 31)))
        flags_in)) := by
  rcases h with rfl | rfl <;> cases ret_flags <;> rfl

theorem x64CalculateRotate_panics (h : sz = 1 ∨ sz = 2) :
    x64CalculateRotate isLeft sz arg amt flags_in = .error .panic := by
  rcases h with rfl | rfl <;> rfl

theorem toNat_x64Amount (h : sz = 4 ∨ sz = 8) (a : BitVec 64) :
    (a.setWidth 32 &&& (if sz = 8 then 63 else 31)).toNat =
      maskedAmount (sz * 8) a := by
  rcases h with rfl | rfl
  · have hmod := Nat.and_two_pow_sub_one_eq_mod (a.setWidth 32).toNat 5
    have hdvd : (32 : ℕ) ∣ 2 ^ 32 := by decide
    refine (BitVec.toNat_and _ _).trans (hmod.trans ?_)
    rw [BitVec.toNat_setWidth]
    exact Nat.mod_mod_of_dvd _ hdvd
  · have hmod := Nat.and_two_pow_sub_one_eq_mod (a.setWidth 32).toNat 6
    have hdvd : (64 : ℕ) ∣ 2 ^ 32 := by decide
    refine (BitVec.toNat_and _ _).trans (hmod.trans ?_)
    rw [BitVec.toNat_setWidth]
    exact Nat.mod_mod_of_dvd _ hdvd

theorem maskedAmount_lt {w W : ℕ} (hw : w = 32 ∨ w = 64) (a : BitVec W) :
    maskedAmount w a < w := by
  rcases hw with rfl | rfl
  · exact Nat.mod_lt _ (by decide)
  · exact Nat.mod_lt _ (by decide)

/-- The value and the flags of the 64-bit code. -/
theorem runs_x64CalculateRotate {x : BitVec (sz * 8)} (h : sz = 4 ∨ sz = 8)
    (hargs : RotateOperands ρ n .reg64 arg amt flags_in x) (ret_flags : Bool) :
    let k := maskedAmount (sz * 8) (amt.eval ρ 64)
    let e := flags_in.eval ρ 64
    Runs ρ n l (liftEmit (x64RotateCode isLeft ret_flags
        (BitVec.ofNat 32 (sz * 8)) arg
        (exAnd (exLCast amt .reg32) (exConst (if sz = 8 then 63 else 31)))
        flags_in)) .reg64
      fun r => r = if ret_flags then codeFlags isLeft k x (carryFlag ρ) e
        else codeValue isLeft 64 k x (carryFlag ρ) := by
  intro k e
  have hamount := toNat_x64Amount h (amt.eval ρ 64)
  set mask : BitVec 32 := if sz = 8 then 63 else 31
  have hmodded : Below n (exAnd (exLCast amt .reg32) (exConst mask)) :=
    And.intro hargs.amt.below trivial
  apply runs_liftEmit
    (places_x64RotateCode hargs.arg.below hmodded hargs.flags.below)
  intro ρ' hagree
  have hw : sz * 8 = 32 ∨ sz * 8 = 64 := by omega
  have hlt := maskedAmount_lt hw (amt.eval ρ 64)
  rw [← hamount] at hlt
  have hrun : RotateArgs ρ' arg (exAnd (exLCast amt .reg32) (exConst mask))
      flags_in x ((amt.eval ρ 64).setWidth 32 &&& mask) e (carryFlag ρ) := {
    arg := hargs.value ▸ hargs.arg.denotes hagree
    amt := ((hargs.amt.denotes hagree).lcast .reg32).and (.const32 mask)
    flags := hargs.flags.denotes hagree
    carry := (hasFlag_eval ρ).congr (below_flagReg n .cf) hagree }
  rw [show k = ((amt.eval ρ 64).setWidth 32 &&& mask).toNat from hamount.symm]
  cases ret_flags with
  | false => exact (yields_x64Value hw hlt hrun).imp fun r hr => ⟨_, hr, rfl⟩
  | true => exact (yields_x64Flags hw hlt hrun).imp fun r hr => ⟨_, hr, rfl⟩

theorem rotates_x64_iff {x : BitVec (sz * 8)} (h : sz = 4 ∨ sz = 8)
    (hargs : RotateOperands ρ n .reg64 arg amt flags_in x)
    (Ok : BitVec 64 → BitVec 64 → Prop) :
    let k := maskedAmount (sz * 8) (amt.eval ρ 64)
    X86Mode.x64.Rotates ρ n l isLeft sz arg amt flags_in Ok ↔
      Ok (codeValue isLeft 64 k x (carryFlag ρ))
        (codeFlags isLeft k x (carryFlag ρ) (flags_in.eval ρ 64)) := by
  intro k
  have hvalue := @runs_x64CalculateRotate μ _ ρ n l sz isLeft arg amt
    flags_in x h hargs false
  have hflags := @runs_x64CalculateRotate μ _ ρ n l sz isLeft arg amt
    flags_in x h hargs true
  have hvalueEq := @x64CalculateRotate_eq sz isLeft arg amt flags_in h
    false
  have hflagsEq := @x64CalculateRotate_eq sz isLeft arg amt flags_in h
    true
  rw [if_neg Bool.false_ne_true] at hvalueEq
  rw [if_pos rfl] at hflagsEq
  constructor
  · rintro ⟨value, flags, hv, hf, hruns⟩
    rw [hvalueEq] at hv
    rw [hflagsEq] at hf
    obtain rfl := Except.ok.inj hv
    obtain rfl := Except.ok.inj hf
    exact hflags.iff_of_eq.mp (hvalue.iff_of_eq.mp hruns)
  · intro hok
    exact ⟨_, _, hvalueEq, hflagsEq,
      hvalue.iff_of_eq.mpr (hflags.iff_of_eq.mpr hok)⟩

theorem rotates_i386_iff {x : BitVec (sz * 8)} (h : sz ∈ X86Mode.i386.sizes)
    (hargs : RotateOperands ρ n .reg32 arg amt flags_in x)
    (Ok : BitVec 32 → BitVec 32 → Prop) :
    let k := maskedAmount (sz * 8) (amt.eval ρ 32) % (sz * 8 + 1)
    X86Mode.i386.Rotates ρ n l isLeft sz arg amt flags_in Ok ↔
      Ok (codeValue isLeft 32 k x (carryFlag ρ))
        (codeFlags isLeft k x (carryFlag ρ) (flags_in.eval ρ 32)) := by
  intro k
  have hsz : sz = 1 ∨ sz = 2 ∨ sz = 4 := by
    simpa [X86Mode.sizes] using h
  have hruns := @runs_i386CalculateRotate μ _ ρ n l sz isLeft arg amt flags_in
    x (by omega) (by omega) hargs.arg hargs.amt hargs.flags hargs.value
  have hhalves : ∀ f v : BitVec 32, (f ++ v).setWidth 32 = v ∧
      Bits.high 32 (f ++ v) = f := by
    intro f v
    rw [Bits.setWidth_append_of_le _ _ le_rfl, BitVec.setWidth_eq,
      Bits.high_append_of_le _ _ le_rfl, Bits.high_self]
    exact ⟨rfl, rfl⟩
  refine hruns.iff_of_eq.trans (iff_of_eq ?_)
  exact congrArg₂ Ok (hhalves _ _).1 (hhalves _ _).2

end Result

/-- All flags clear. -/
def clearFlags : Valuation Unit := ⟨fun _ => 0, fun _ => (), fun _ => 0⟩

/-- One place, of an operand `x`, from a flags word of zeros. -/
theorem clearFlags_operands (x : BitVec 32) :
    RotateOperands clearFlags 0 X86Mode.i386.word (exConst x) (exConst 1)
      (exConst 0) x where
  value := (Denotes.const32 (ρ := clearFlags) x).eval.trans
    (BitVec.setWidth_eq x).symm
  arg := ⟨rfl, trivial⟩
  amt := ⟨rfl, trivial⟩
  flags := ⟨rfl, trivial⟩

end Fuzzball.Asmir
