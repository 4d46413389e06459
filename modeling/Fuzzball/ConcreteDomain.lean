import Fuzzball.ConstantFoldExact

/-!
# The concrete domain

The values of `concrete_domain.ml` are `int64` whose low bits count.  A shift
takes its amount from the low byte of its second operand; a part of a value is
the value shifted.
-/

namespace Fuzzball.ConcreteDomain

open Vine

/-! ## Operations -/

def fixU1 (x : I64) : I64 := x &&& 1
def fixS1 (x : I64) : I64 := (x <<< 63).sshiftRight 63

/-- The amount that a shift passes to `Int64`. -/
def amount (v2 : I64) : ℤ := I64.toOCamlInt (fixU8 v2)

def lshift (wild : WildShift) (v v2 : I64) : I64 :=
  I64.shiftLeft wild v (amount v2)

def rshift (wild : WildShift) (fix : I64 → I64) (v v2 : I64) : I64 :=
  I64.shiftRightLogical wild (fix v) (amount v2)

def arshift (wild : WildShift) (fix : I64 → I64) (v v2 : I64) : I64 :=
  I64.shiftRight wild (fix v) (amount v2)

def lshift1 (wild : WildShift) := lshift wild
def lshift8 (wild : WildShift) := lshift wild
def lshift16 (wild : WildShift) := lshift wild
def lshift32 (wild : WildShift) := lshift wild
def lshift64 (wild : WildShift) := lshift wild

def rshift1 (wild : WildShift) := rshift wild fixU1
def rshift8 (wild : WildShift) := rshift wild fixU8
def rshift16 (wild : WildShift) := rshift wild fixU16
def rshift32 (wild : WildShift) := rshift wild fixU32
def rshift64 (wild : WildShift) := rshift wild id

def arshift1 (wild : WildShift) := arshift wild fixS1
def arshift8 (wild : WildShift) := arshift wild fixS8
def arshift16 (wild : WildShift) := arshift wild fixS16
def arshift32 (wild : WildShift) := arshift wild fixS32
def arshift64 (wild : WildShift) := arshift wild id

/-- The shifts in the table of `eval_binop`. -/
def shiftFunc (wild : WildShift) : BinopType → Typ → Option (I64 → I64 → I64)
  | .lshift, .reg1 => some (lshift1 wild)
  | .lshift, .reg8 => some (lshift8 wild)
  | .lshift, .reg16 => some (lshift16 wild)
  | .lshift, .reg32 => some (lshift32 wild)
  | .lshift, .reg64 => some (lshift64 wild)
  | .rshift, .reg1 => some (rshift1 wild)
  | .rshift, .reg8 => some (rshift8 wild)
  | .rshift, .reg16 => some (rshift16 wild)
  | .rshift, .reg32 => some (rshift32 wild)
  | .rshift, .reg64 => some (rshift64 wild)
  | .arshift, .reg1 => some (arshift1 wild)
  | .arshift, .reg8 => some (arshift8 wild)
  | .arshift, .reg16 => some (arshift16 wild)
  | .arshift, .reg32 => some (arshift32 wild)
  | .arshift, .reg64 => some (arshift64 wild)
  | _, _ => none

def extract (wild : WildShift) (v : I64) (which : ℕ) : I64 :=
  I64.shiftRight wild v (8 * which : ℕ)

def extract8From64 (wild : WildShift) := extract wild
def extract8From32 (wild : WildShift) := extract wild
def extract8From16 (wild : WildShift) := extract wild
def extract16From64 (wild : WildShift) := extract wild
def extract16From32 (wild : WildShift) := extract wild
def extract32From64 (wild : WildShift) := extract wild

def assemble (wild : WildShift) (mask : I64) (bits : ℕ) (v v2 : I64) : I64 :=
  (mask &&& v) ||| I64.shiftLeft wild v2 bits

def assemble16 (wild : WildShift) := assemble wild 0xff 8
def assemble32 (wild : WildShift) := assemble wild 0xffff 16
def assemble64 (wild : WildShift) := assemble wild 0xffffffff 32

def reassemble16 := assemble16
def reassemble32 := assemble32
def reassemble64 := assemble64

/-! ## Values -/

section Values

variable {t : Typ} {v v2 : I64} {k : ℕ}

theorem fixU1_eq (x : I64) : fixU1 x = (x.setWidth 1).setWidth 64 :=
  Bits.and_lowMask 1 x 1 rfl

theorem fixS1_eq (x : I64) : fixS1 x = (x.setWidth 1).signExtend 64 :=
  Except.ok.inj (tos64_int (t := .reg1) trivial x)

theorem fixS32_eq (x : I64) : fixS32 x = (x.setWidth 32).signExtend 64 :=
  Except.ok.inj (tos64_int (t := .reg32) trivial x)

theorem toNat_fixU8 (x : I64) : (fixU8 x).toNat = x.toNat % 256 := by
  rw [fixU8_eq, BitVec.toNat_setWidth_of_le (by norm_num),
    BitVec.toNat_setWidth]

theorem amount_eq (v2 : I64) : amount v2 = ((v2.toNat % 256 : ℕ) : ℤ) := by
  have hsmall : v2.toNat % 256 % 2 ^ 63 = v2.toNat % 256 :=
    Nat.mod_eq_of_lt (by omega)
  rw [amount, toOCamlInt_cases, toNat_fixU8, hsmall, if_pos (by omega)]

/-- A shift reads the low bits of its first operand. -/
theorem shiftFunc_eq (wild : WildShift) (ht : t.IsReg) :
    shiftFunc wild .lshift t = some (lshift wild) ∧
    shiftFunc wild .rshift t = some (rshift wild
      fun v => (v.setWidth t.width).setWidth 64) ∧
    shiftFunc wild .arshift t = some (arshift wild
      fun v => (v.setWidth t.width).signExtend 64) := by
  have hzero : (id : I64 → I64) = fun v => (v.setWidth 64).setWidth 64 := by
    funext v
    rw [BitVec.setWidth_eq, BitVec.setWidth_eq]
    rfl
  have hsign : (id : I64 → I64) = fun v => (v.setWidth 64).signExtend 64 := by
    funext v
    rw [BitVec.setWidth_eq, BitVec.signExtend_eq]
    rfl
  cases t with
  | reg1 =>
    exact ⟨rfl, congrArg (fun f => some (rshift wild f)) (funext fixU1_eq),
      congrArg (fun f => some (arshift wild f)) (funext fixS1_eq)⟩
  | reg8 =>
    exact ⟨rfl, congrArg (fun f => some (rshift wild f)) (funext fixU8_eq),
      congrArg (fun f => some (arshift wild f)) (funext fixS8_eq)⟩
  | reg16 =>
    exact ⟨rfl, congrArg (fun f => some (rshift wild f)) (funext fixU16_eq),
      congrArg (fun f => some (arshift wild f)) (funext fixS16_eq)⟩
  | reg32 =>
    exact ⟨rfl, congrArg (fun f => some (rshift wild f)) (funext fixU32_eq),
      congrArg (fun f => some (arshift wild f)) (funext fixS32_eq)⟩
  | reg64 =>
    exact ⟨rfl, congrArg (fun f => some (rshift wild f)) hzero,
      congrArg (fun f => some (arshift wild f)) hsign⟩
  | _ => exact absurd ht (by simp [Typ.IsReg])

/-- Within the range of `Int64` a shift is that of the low bits. -/
theorem shiftFunc_of_lt (wild : WildShift) {op : BinopType}
    (hop : op = .lshift ∨ op = .rshift ∨ op = .arshift) (ht : t.IsReg)
    (hlt : v2.toNat % 256 < 64) :
    ∃ f, shiftFunc wild op t = some f ∧
      (f v v2).setWidth t.width =
        shiftValue op (v.setWidth t.width) (v2.toNat % 256) := by
  obtain ⟨hl, hr, ha⟩ := shiftFunc_eq wild ht
  rcases hop with rfl | rfl | rfl
  · refine ⟨_, hl, ?_⟩
    rw [lshift, amount_eq, I64.shiftLeft_of_lt wild _ hlt]
    exact BitVec.setWidth_shiftLeft_of_le t.width_le
  · refine ⟨_, hr, ?_⟩
    rw [rshift, amount_eq, I64.shiftRightLogical_of_lt wild _ hlt]
    exact ushiftRight_zeroExtend t.width_le _ _
  · refine ⟨_, ha, ?_⟩
    rw [arshift, amount_eq, I64.shiftRight_of_lt wild _ hlt]
    exact sshiftRight_signExtend t.width_le _ _

end Values

/-! ## Parts -/

section Parts

variable {v v2 : I64} {which p w : ℕ}

/-- The low bits of what is extracted are those of the value from there on. -/
theorem extract_mod (wild : WildShift) (h : 8 * which + p ≤ w) (hw : w ≤ 64)
    (hp : 0 < p) (v : I64) :
    (extract wild v which).toNat % 2 ^ p =
      v.toNat % 2 ^ w / 256 ^ which % 2 ^ p := by
  have hlow : (v.sshiftRight (8 * which)).setWidth p =
      ((v.setWidth w) >>> (8 * which)).setWidth p := by
    ext j hj
    simp only [BitVec.getElem_setWidth, BitVec.getLsbD_sshiftRight,
      BitVec.getLsbD_ushiftRight, BitVec.getLsbD_setWidth]
    simp [show 8 * which + j < w by omega, show 8 * which + j < 64 by omega,
      show j < 64 by omega]
  have hnat := congrArg BitVec.toNat hlow
  rw [BitVec.toNat_setWidth, BitVec.toNat_setWidth, BitVec.toNat_ushiftRight,
    BitVec.toNat_setWidth, Nat.shiftRight_eq_div_pow, pow_mul] at hnat
  rw [extract, I64.shiftRight_of_lt wild v (by omega), hnat]
  norm_num

/-- Putting together a low and a high part. -/
theorem assemble_mod (wild : WildShift) {mask : I64} (hp : 0 < p)
    (hp32 : p ≤ 32) (hmask : mask = (BitVec.allOnes p).setWidth 64)
    (v v2 : I64) :
    (assemble wild mask p v v2).toNat % 2 ^ (p + p) =
      v.toNat % 2 ^ p + 2 ^ p * (v2.toNat % 2 ^ p) := by
  have happend : ((mask &&& v) ||| v2 <<< p).setWidth (p + p) =
      v2.setWidth p ++ v.setWidth p := by
    rw [hmask]
    ext j hj
    by_cases hlow : j < p
    · simp [BitVec.getElem_append, hlow, show j < 64 by omega]
    · simp [BitVec.getElem_append, hlow, show j < 64 by omega,
        BitVec.getLsbD_eq_getElem (show j - p < 64 by omega)]
  have hnat := congrArg BitVec.toNat happend
  rw [BitVec.toNat_setWidth, BitVec.toNat_append,
    ← Nat.shiftLeft_add_eq_or_of_lt (BitVec.isLt _), Nat.shiftLeft_eq,
    BitVec.toNat_setWidth, BitVec.toNat_setWidth] at hnat
  rw [assemble, I64.shiftLeft_of_lt wild v2 (by omega), hnat]
  ring

end Parts

end Fuzzball.ConcreteDomain
