import Fuzzball.BitVectorLanes
import Fuzzball.DivModU128
import Fuzzball.X64Flags

/-!
# Translation of packed operations

The functions of `irtoir.cpp` that split packed operands into lanes, operate on
the lanes and assemble the result.  In their names, as in the source, the
number of lanes comes before their size.
-/

namespace Fuzzball.Asmir

open Vine

/-! ## Lanes -/

abbrev exGt (arg1 arg2 : Exp) : Exp := .binOp .lt arg2 arg1

def assemble2x8 (b1 b0 : Exp) : Exp :=
  let b1w := exUCast b1 .reg16
  let b0w := exUCast b0 .reg16
  exOr (exShl b1w (exConst 8)) b0w

def translate16HLto32 (arg1 arg2 : Exp) : Exp :=
  let high := Exp.cast .castUnsigned .reg32 arg1
  let low := Exp.cast .castUnsigned .reg32 arg2
  .binOp .bitor (.binOp .lshift high (exConst 16)) low

def assemble4x8 (b3 b2 b1 b0 : Exp) : Exp :=
  let b3w := exUCast b3 .reg16
  let b2w := exUCast b2 .reg16
  let b1w := exUCast b1 .reg16
  let b0w := exUCast b0 .reg16
  let high := exOr (exShl b3w (exConst 8)) b2w
  let low := exOr (exShl b1w (exConst 8)) b0w
  translate16HLto32 high low

def assemble4x16 (w3 w2 w1 w0 : Exp) : Exp :=
  let w3w := exUCast w3 .reg32
  let w2w := exUCast w2 .reg32
  let w1w := exUCast w1 .reg32
  let w0w := exUCast w0 .reg32
  let high := exOr (exShl w3w (exConst 16)) w2w
  let low := exOr (exShl w1w (exConst 16)) w0w
  translate32HLto64 high low

def assemble8x8 (b7 b6 b5 b4 b3 b2 b1 b0 : Exp) : Exp :=
  translate32HLto64 (assemble4x8 b7 b6 b5 b4) (assemble4x8 b3 b2 b1 b0)

def assemble4x32 (e1 e2 e3 e4 : Exp) : Exp128 :=
  let high := translate32HLto64 e1 e2
  let low := translate32HLto64 e3 e4
  .vector high low

def assemble8x1 (b7 b6 b5 b4 b3 b2 b1 b0 : Exp) : Exp :=
  let b7 := exShl (exUCast b7 .reg8) (exConst 7)
  let b6 := exShl (exUCast b6 .reg8) (exConst 6)
  let b5 := exShl (exUCast b5 .reg8) (exConst 5)
  let b4 := exShl (exUCast b4 .reg8) (exConst 4)
  let b3 := exShl (exUCast b3 .reg8) (exConst 3)
  let b2 := exShl (exUCast b2 .reg8) (exConst 2)
  let b1 := exShl (exUCast b1 .reg8) (exConst 1)
  let b0 := exUCast b0 .reg8
  exOr (exOr4 b7 b6 b5 b4) (exOr4 b3 b2 b1 b0)

def split4x8 (x32 : Exp) : Exp × Exp × Exp × Exp :=
  (exHCast (exHCast x32 .reg16) .reg8, exLCast (exHCast x32 .reg16) .reg8,
    exHCast (exLCast x32 .reg16) .reg8, exLCast (exLCast x32 .reg16) .reg8)

def split8x8 (x64 : Exp) :
    (Exp × Exp × Exp × Exp) × (Exp × Exp × Exp × Exp) :=
  (split4x8 (exHCast x64 .reg32), split4x8 (exLCast x64 .reg32))

def split4x16 (x64 : Exp) : Exp × Exp × Exp × Exp :=
  (exHCast (exHCast x64 .reg32) .reg16, exLCast (exHCast x64 .reg32) .reg16,
    exHCast (exLCast x64 .reg32) .reg16, exLCast (exLCast x64 .reg32) .reg16)

/-! ## The same operation on every lane -/

/-- An operation on each of the lanes of `split2x32`. -/
def map2x32 (f : Exp → Exp → Exp) (a b : Exp) : Exp :=
  let (a1, a0) := split2x32 a
  let (b1, b0) := split2x32 b
  translate32HLto64 (f a1 b1) (f a0 b0)

/-- An operation on each of the lanes of `split4x8`. -/
def map4x8 (f : Exp → Exp → Exp) (a b : Exp) : Exp :=
  let (a3, a2, a1, a0) := split4x8 a
  let (b3, b2, b1, b0) := split4x8 b
  assemble4x8 (f a3 b3) (f a2 b2) (f a1 b1) (f a0 b0)

/-- An operation on each of the lanes of `split8x8`. -/
def map8x8 (f : Exp → Exp → Exp) (a b : Exp) : Exp :=
  let ((a7, a6, a5, a4), (a3, a2, a1, a0)) := split8x8 a
  let ((b7, b6, b5, b4), (b3, b2, b1, b0)) := split8x8 b
  assemble8x8 (f a7 b7) (f a6 b6) (f a5 b5) (f a4 b4) (f a3 b3) (f a2 b2)
    (f a1 b1) (f a0 b0)

/-- An operation on each of the lanes of `split_vector`. -/
def mapVector (f : Exp → Exp → Exp) (a b : Exp128) : Exp128 :=
  let (a_high, a_low) := splitVector a
  let (b_high, b_low) := splitVector b
  translate64HLto128 (f a_high b_high) (f a_low b_low)

def translateCmpEQ32x2 : Exp → Exp → Exp :=
  map2x32 fun a b => exSCast (exEq a b) .reg32

def translateCmpEQ32x4 : Exp128 → Exp128 → Exp128 :=
  mapVector translateCmpEQ32x2

def translateCmpEQ8x8 : Exp → Exp → Exp :=
  map8x8 fun a b => exSCast (exEq a b) .reg8

def translateCmpEQ8x16 : Exp128 → Exp128 → Exp128 :=
  mapVector translateCmpEQ8x8

def translateCmpGT8Sx8 : Exp → Exp → Exp :=
  map8x8 fun a b => exSCast (exSlt b a) .reg8

def translateCmpGT8Sx16 : Exp128 → Exp128 → Exp128 :=
  mapVector translateCmpGT8Sx8

def translateCmpGT32Sx2 : Exp → Exp → Exp :=
  map2x32 fun a b => exSCast (exSlt b a) .reg32

def translateCmpGT32Sx4 : Exp128 → Exp128 → Exp128 :=
  mapVector translateCmpGT32Sx2

def translatePar4x8Binop (op : BinopType) : Exp → Exp → Exp := map4x8 (.binOp op)

def halvingBinop8 (op : BinopType) (is_signed : Bool) (a b : Exp) : Exp :=
  let a16 := if is_signed then exSCast a .reg16 else exUCast a .reg16
  let b16 := if is_signed then exSCast b .reg16 else exUCast b .reg16
  let r16 := Exp.binOp op a16 b16
  exLCast (exShr r16 (exConst 1)) .reg8

def translateHalving4x8Binop (op : BinopType) (is_signed : Bool) :
    Exp → Exp → Exp := map4x8 (halvingBinop8 op is_signed)

def saturatingBinop8 (op : BinopType) (is_signed : Bool) (a b : Exp) : Exp :=
  let a16 := if is_signed then exSCast a .reg16 else exUCast a .reg16
  let b16 := if is_signed then exSCast b .reg16 else exUCast b .reg16
  let min_val := exConstOf .reg16 (if is_signed then -128 else 0)
  let max_val := exConstOf .reg16 (if is_signed then 127 else 255)
  let r16 := Exp.binOp op a16 b16
  let clamped := exIte (exLt r16 min_val) min_val
    (exIte (exGt r16 max_val) max_val r16)
  exLCast clamped .reg8

def translateSaturating4x8Binop (op : BinopType) (is_signed : Bool) :
    Exp → Exp → Exp := map4x8 (saturatingBinop8 op is_signed)

def translatePar8x8Binop (op : BinopType) : Exp → Exp → Exp := map8x8 (.binOp op)

def translatePar16x8Binop (op : BinopType) : Exp128 → Exp128 → Exp128 :=
  mapVector (translatePar8x8Binop op)

def translateMinmax8x8 (op : BinopType) (is_max : Bool) : Exp → Exp → Exp :=
  map8x8 fun a b =>
    if is_max then exIte (.binOp op b a) a b else exIte (.binOp op a b) a b

def translateMinmax16x8 (op : BinopType) (is_max : Bool) :
    Exp128 → Exp128 → Exp128 := mapVector (translateMinmax8x8 op is_max)

def translatePar2x32Binop (op : BinopType) : Exp → Exp → Exp :=
  map2x32 (.binOp op)

def translatePar4x32Binop (op : BinopType) : Exp128 → Exp128 → Exp128 :=
  mapVector (translatePar2x32Binop op)

def translatePar2x64Binop (op : BinopType) : Exp128 → Exp128 → Exp128 :=
  mapVector (.binOp op)

/-! ## Other functions of lanes -/

def translateGetMSBs8x8 (x : Exp) : Exp :=
  assemble8x1 (exHCast x .reg1) (X64.exGetBit x 55) (X64.exGetBit x 47)
    (X64.exGetBit x 39) (X64.exGetBit x 31) (X64.exGetBit x 23) (X64.exGetBit x 15)
    (X64.exGetBit x 7)

def translateGetMSBs8x16 (x : Exp128) : Exp :=
  let (x_h, x_l) := splitVector x
  assemble2x8 (translateGetMSBs8x8 x_h) (translateGetMSBs8x8 x_l)

def interleave2_2x32 (a b : Exp) : Exp128 :=
  let (a1, a0) := split2x32 a
  let (b1, b0) := split2x32 b
  assemble4x32 a1 b1 a0 b0

def interleave2_4x16 (a b : Exp) : Exp128 :=
  let (a3, a2, a1, a0) := split4x16 a
  let (b3, b2, b1, b0) := split4x16 b
  translate64HLto128 (assemble4x16 a3 b3 a2 b2) (assemble4x16 a1 b1 a0 b0)

def interleave2_8x8 (a b : Exp) : Exp128 :=
  let ((a7, a6, a5, a4), (a3, a2, a1, a0)) := split8x8 a
  let ((b7, b6, b5, b4), (b3, b2, b1, b0)) := split8x8 b
  translate64HLto128 (assemble8x8 a7 b7 a6 b6 a5 b5 a4 b4)
    (assemble8x8 a3 b3 a2 b2 a1 b1 a0 b0)

/-- A function of the low halves of two vectors. -/
def onLow (f : Exp → Exp → Exp128) (a b : Exp128) : Exp128 :=
  let (_, a_low) := splitVector a
  let (_, b_low) := splitVector b
  f a_low b_low

/-- A function of the high halves of two vectors. -/
def onHigh (f : Exp → Exp → Exp128) (a b : Exp128) : Exp128 :=
  let (a_high, _) := splitVector a
  let (b_high, _) := splitVector b
  f a_high b_high

def translateInterleaveLO32x4 := onLow interleave2_2x32
def translateInterleaveHI32x4 := onHigh interleave2_2x32
def translateInterleaveLO64x2 := onLow translate64HLto128
def translateInterleaveHI64x2 := onHigh translate64HLto128
def translateInterleaveLO16x8 := onLow interleave2_4x16
def translateInterleaveHI16x8 := onHigh interleave2_4x16
def translateInterleaveLO8x16 := onLow interleave2_8x8
def translateInterleaveHI8x16 := onHigh interleave2_8x8

def translateVs2x32Shift (op : BinopType) (a b : Exp) : Exp :=
  let (a1, a0) := split2x32 a
  translate32HLto64 (.binOp op a1 b) (.binOp op a0 b)

def translateVs4x32Shift (op : BinopType) (a : Exp128) (b : Exp) : Exp128 :=
  let (a_high, a_low) := splitVector a
  translate64HLto128 (translateVs2x32Shift op a_high b)
    (translateVs2x32Shift op a_low b)

def translateVs2x64Shift (op : BinopType) (left_v : Exp128) (right : Exp) :
    Exp128 :=
  let (left_high, left_low) := splitVector left_v
  .vector (.binOp op left_high right) (.binOp op left_low right)

def translateQNarrow16Sto8U (a : Exp) : Exp :=
  exIte (exSlt a (exConstOf .reg16 0)) (exConstOf .reg8 0)
    (exIte (exSlt (exConstOf .reg16 255) a) (exConstOf .reg8 255)
      (exLCast a .reg8))

def translateQNarrow16Sto8Ux8 (a : Exp128) : Exp :=
  let (a_high, a_low) := splitVector a
  let (ah3, ah2, ah1, ah0) := split4x16 a_high
  let (al3, al2, al1, al0) := split4x16 a_low
  assemble8x8 (translateQNarrow16Sto8U ah3) (translateQNarrow16Sto8U ah2)
    (translateQNarrow16Sto8U ah1) (translateQNarrow16Sto8U ah0)
    (translateQNarrow16Sto8U al3) (translateQNarrow16Sto8U al2)
    (translateQNarrow16Sto8U al1) (translateQNarrow16Sto8U al0)

def translateQNarrowBin16Sto8Ux16 (a b : Exp128) : Exp128 :=
  let r_h := translateQNarrow16Sto8Ux8 a
  let r_l := translateQNarrow16Sto8Ux8 b
  translate64HLto128 r_h r_l

/-! ## The operations on lanes -/

inductive LaneArith
  | plus
  | minus
  | times
  deriving DecidableEq, Repr

def LaneArith.binop : LaneArith → BinopType
  | .plus => .plus
  | .minus => .minus
  | .times => .times

def LaneArith.value {w : ℕ} : LaneArith → BitVec w → BitVec w → BitVec w
  | .plus, x, y => x + y
  | .minus, x, y => x - y
  | .times, x, y => x * y

/-- The result without a bound. -/
def LaneArith.exact : LaneArith → ℤ → ℤ → ℤ
  | .plus, x, y => x + y
  | .minus, x, y => x - y
  | .times, x, y => x * y

inductive LaneShift
  | lshift
  | rshift
  | arshift
  deriving DecidableEq, Repr

def LaneShift.binop : LaneShift → BinopType
  | .lshift => .lshift
  | .rshift => .rshift
  | .arshift => .arshift

def LaneShift.value {w : ℕ} : LaneShift → BitVec w → ℕ → BitVec w
  | .lshift, x, n => x <<< n
  | .rshift, x, n => x >>> n
  | .arshift, x, n => x.sshiftRight n

/-- The number in a lane. -/
def laneInt {w : ℕ} (is_signed : Bool) (x : BitVec w) : ℤ :=
  if is_signed then x.toInt else x.toNat

def halvingLane (op : LaneArith) (is_signed : Bool) (x y : BitVec 8) :
    BitVec 8 :=
  BitVec.ofInt 8 (op.exact (laneInt is_signed x) (laneInt is_signed y) / 2)

/-- The nearest number in the range of a lane. -/
def saturate (is_signed : Bool) (v : ℤ) : BitVec 8 :=
  if is_signed then BitVec.ofInt 8 (max (-128) (min 127 v))
  else BitVec.ofInt 8 (max 0 (min 255 v))

def saturatingLane (op : LaneArith) (is_signed : Bool) (x y : BitVec 8) :
    BitVec 8 :=
  saturate is_signed (op.exact (laneInt is_signed x) (laneInt is_signed y))

def minmaxLane {w : ℕ} (is_signed is_max : Bool) (x y : BitVec w) : BitVec w :=
  let pick := if is_max then max else min
  BitVec.ofInt w (pick (laneInt is_signed x) (laneInt is_signed y))

/-- All ones for true. -/
def maskLane (w : ℕ) (p : Bool) : BitVec w :=
  if p then BitVec.allOnes w else 0

/-- Two sequences of lanes, in turn. -/
def interleaved {w : ℕ} (f g : ℕ → BitVec w) (i : ℕ) : BitVec w :=
  if i % 2 = 1 then f (i / 2) else g (i / 2)

/-! ## Expressions of lanes -/

section Lanes

open Bits

variable {μ : Type} [VineMemory μ] {ρ : Valuation μ} {t u : Typ} {w n m : ℕ}
  {a b e : Exp} {f f' : ℕ → BitVec w}

/-- The expression has the lanes, the lowest first. -/
def HasLanes (ρ : Valuation μ) (e : Exp) (t : Typ) (w n : ℕ)
    (f : ℕ → BitVec w) : Prop :=
  ∃ (v : ℕ) (x : BitVec v), Denotes ρ e t x ∧ ∀ i < n, lane w x i = f i

/-- The vector has the lanes. -/
def HasLanes128 (ρ : Valuation μ) (e : Exp128) (w n : ℕ)
    (f : ℕ → BitVec w) : Prop :=
  ∃ x : BitVec 128, DenotesWords ρ e x ∧ ∀ i < n, lane w x i = f i

theorem hasLanes_lane {v : ℕ} {x : BitVec v} (h : Denotes ρ e t x)
    (w n : ℕ) : HasLanes ρ e t w n (lane w x) := ⟨v, x, h, fun _ _ => rfl⟩

theorem hasLanes_one (h : Denotes ρ e t (f 0)) : HasLanes ρ e t w 1 f := by
  refine ⟨w, f 0, h, fun i hi => ?_⟩
  obtain rfl : i = 0 := by omega
  exact lane_self _

theorem HasLanes.denotes (h : HasLanes ρ e t w 1 f) (ht : t.width = w) :
    Denotes ρ e t (f 0) := by
  obtain ⟨v, x, hx, hlane⟩ := h
  obtain rfl : v = w := hx.width.symm.trans ht
  rw [← hlane 0 Nat.one_pos, lane_self]
  exact hx

theorem HasLanes.low (h : HasLanes ρ e t w (n + m) f)
    (hu : u.width = w * n) : HasLanes ρ (exLCast e u) u w n f := by
  obtain ⟨v, x, hx, hlane⟩ := h
  refine ⟨_, _, hx.lcast u, fun i hi => ?_⟩
  rw [lane_setWidth x hi hu.ge]
  exact hlane i (by omega)

theorem HasLanes.high (h : HasLanes ρ e t w (n + m) f)
    (hu : u.width = w * m) (ht : t.width = w * (n + m)) :
    HasLanes ρ (exHCast e u) u w m fun i => f (n + i) := by
  obtain ⟨v, x, hx, hlane⟩ := h
  refine ⟨_, _, hx.hcast u, fun i hi => ?_⟩
  have hrest : v - u.width = w * n := by
    rw [← hx.width, ht, hu, Nat.mul_add, Nat.add_sub_cancel]
  rw [lane_high x hi hu hrest]
  exact hlane (n + i) (by omega)

/-- Two halves, put together. -/
theorem HasLanes.join {g : Exp → Exp → Exp}
    (hg : ∀ x y : BitVec t.width, Denotes ρ a t x → Denotes ρ b t y →
      Denotes ρ (g a b) u (x ++ y)) (hn : t.width = w * n)
    (ha : HasLanes ρ a t w m fun i => f (n + i)) (hb : HasLanes ρ b t w n f) :
    HasLanes ρ (g a b) u w (n + m) f := by
  obtain ⟨v, x, hx, hhigh⟩ := ha
  obtain ⟨v', y, hy, hlow⟩ := hb
  obtain rfl := hx.width
  obtain rfl := hy.width
  exact ⟨_, x ++ y, hg x y hx hy, lane_append hn hlow hhigh⟩

theorem denotes_assemble2x8 {x y : BitVec 8} (ha : Denotes ρ a .reg8 x)
    (hb : Denotes ρ b .reg8 y) :
    Denotes ρ (assemble2x8 a b) .reg16 (x ++ y) := by
  rw [← shiftLeft_or_eq_append]
  exact ((ha.ucast .reg16).shl (.const32 8)).or (hb.ucast .reg16)

theorem denotes_translate16HLto32 {x y : BitVec 16}
    (ha : Denotes ρ a .reg16 x) (hb : Denotes ρ b .reg16 y) :
    Denotes ρ (translate16HLto32 a b) .reg32 (x ++ y) := by
  rw [← shiftLeft_or_eq_append]
  exact ((ha.ucast .reg32).shl (.const32 16)).or (hb.ucast .reg32)

theorem words_append (x y : BitVec 64) :
    Bits.high 64 (x ++ y) = x ∧ (x ++ y).setWidth 64 = y := by
  rw [high_append_of_le x y le_rfl, setWidth_append_of_le x y le_rfl,
    BitVec.setWidth_eq]
  exact ⟨high_self x, rfl⟩

theorem hasLanes128_vector (hn : 64 = w * n)
    (ha : HasLanes ρ a .reg64 w m fun i => f (n + i))
    (hb : HasLanes ρ b .reg64 w n f) :
    HasLanes128 ρ (translate64HLto128 a b) w (n + m) f := by
  obtain ⟨v, x, hx, hhigh⟩ := ha
  obtain ⟨v', y, hy, hlow⟩ := hb
  obtain rfl : v = 64 := hx.width.symm
  obtain rfl : v' = 64 := hy.width.symm
  obtain ⟨hxy, hyx⟩ := words_append x y
  exact ⟨x ++ y, ⟨hxy.symm ▸ hx, hyx.symm ▸ hy⟩, lane_append hn hlow hhigh⟩

/-- The lanes of the two halves of a vector. -/
theorem hasLanes_splitVector {v : Exp128} {x : BitVec 128}
    (h : DenotesWords ρ v x) (hn : 64 = w * n) :
    HasLanes ρ (splitVector v).1 .reg64 w n (fun i => lane w x (n + i)) ∧
      HasLanes ρ (splitVector v).2 .reg64 w n (lane w x) := by
  constructor
  · refine ⟨64, _, h.1, fun i hi => ?_⟩
    exact lane_high x hi hn (show 128 - 64 = w * n from hn)
  · refine ⟨64, _, h.2, fun i hi => ?_⟩
    exact lane_setWidth x hi hn.ge

theorem lanes_split2x32 {f : ℕ → BitVec 32}
    (h : HasLanes ρ e .reg64 32 2 f) :
    Denotes ρ (split2x32 e).1 .reg32 (f 1) ∧
      Denotes ρ (split2x32 e).2 .reg32 (f 0) :=
  ⟨(h.high (n := 1) (m := 1) rfl rfl).denotes rfl,
    (h.low (n := 1) (m := 1) rfl).denotes rfl⟩

/-- The four lanes of the type, in the order of `split4x8` and
`split4x16`. -/
structure FourLanes (ρ : Valuation μ) (t : Typ) (l : Exp × Exp × Exp × Exp)
    (f : ℕ → BitVec w) : Prop where
  lane3 : Denotes ρ l.1 t (f 3)
  lane2 : Denotes ρ l.2.1 t (f 2)
  lane1 : Denotes ρ l.2.2.1 t (f 1)
  lane0 : Denotes ρ l.2.2.2 t (f 0)

theorem lanes_split4x8 {f : ℕ → BitVec 8} (h : HasLanes ρ e .reg32 8 4 f) :
    FourLanes ρ .reg8 (split4x8 e) f := by
  have hhigh := h.high (n := 2) (m := 2) (u := .reg16) rfl rfl
  have hlow := h.low (n := 2) (m := 2) (u := .reg16) rfl
  exact ⟨(hhigh.high (n := 1) (m := 1) rfl rfl).denotes rfl,
    (hhigh.low (n := 1) (m := 1) rfl).denotes rfl,
    (hlow.high (n := 1) (m := 1) rfl rfl).denotes rfl,
    (hlow.low (n := 1) (m := 1) rfl).denotes rfl⟩

theorem lanes_split4x16 {f : ℕ → BitVec 16}
    (h : HasLanes ρ e .reg64 16 4 f) :
    FourLanes ρ .reg16 (split4x16 e) f := by
  have hhigh := h.high (n := 2) (m := 2) (u := .reg32) rfl rfl
  have hlow := h.low (n := 2) (m := 2) (u := .reg32) rfl
  exact ⟨(hhigh.high (n := 1) (m := 1) rfl rfl).denotes rfl,
    (hhigh.low (n := 1) (m := 1) rfl).denotes rfl,
    (hlow.high (n := 1) (m := 1) rfl rfl).denotes rfl,
    (hlow.low (n := 1) (m := 1) rfl).denotes rfl⟩

theorem lanes_split8x8 {f : ℕ → BitVec 8} (h : HasLanes ρ e .reg64 8 8 f) :
    FourLanes ρ .reg8 (split8x8 e).1 (fun i => f (4 + i)) ∧
      FourLanes ρ .reg8 (split8x8 e).2 f :=
  ⟨lanes_split4x8 (h.high (n := 4) (m := 4) rfl rfl),
    lanes_split4x8 (h.low (n := 4) (m := 4) rfl)⟩

theorem hasLanes_translate32HLto64 {k : ℕ} (hn : 32 = w * n)
    (ha : HasLanes ρ a .reg32 w k fun i => f (n + i))
    (hb : HasLanes ρ b .reg32 w n f) :
    HasLanes ρ (translate32HLto64 a b) .reg64 w (n + k) f :=
  ha.join (fun _ _ => Denotes.translate32HLto64) hn hb

theorem hasLanes_assemble4x8 {b3 b2 b1 b0 : Exp} {f : ℕ → BitVec 8}
    (h : FourLanes ρ .reg8 (b3, b2, b1, b0) f) :
    HasLanes ρ (assemble4x8 b3 b2 b1 b0) .reg32 8 4 f := by
  have hhigh : HasLanes ρ (assemble2x8 b3 b2) .reg16 8 2 fun i => f (2 + i) :=
    HasLanes.join (n := 1) (m := 1) (t := .reg8)
      (fun _ _ => denotes_assemble2x8) rfl (hasLanes_one h.lane3)
      (hasLanes_one h.lane2)
  have hlow : HasLanes ρ (assemble2x8 b1 b0) .reg16 8 2 f :=
    HasLanes.join (n := 1) (m := 1) (t := .reg8)
      (fun _ _ => denotes_assemble2x8) rfl (hasLanes_one h.lane1)
      (hasLanes_one h.lane0)
  exact HasLanes.join (g := translate16HLto32) (n := 2) (m := 2) (t := .reg16)
    (fun _ _ => denotes_translate16HLto32) rfl hhigh hlow

theorem hasLanes_assemble4x16 {w3 w2 w1 w0 : Exp} {f : ℕ → BitVec 16}
    (h : FourLanes ρ .reg16 (w3, w2, w1, w0) f) :
    HasLanes ρ (assemble4x16 w3 w2 w1 w0) .reg64 16 4 f := by
  have hhigh : HasLanes ρ (translate16HLto32 w3 w2) .reg32 16 2
      fun i => f (2 + i) :=
    HasLanes.join (n := 1) (m := 1) (t := .reg16)
      (fun _ _ => denotes_translate16HLto32) rfl (hasLanes_one h.lane3)
      (hasLanes_one h.lane2)
  have hlow : HasLanes ρ (translate16HLto32 w1 w0) .reg32 16 2 f :=
    HasLanes.join (n := 1) (m := 1) (t := .reg16)
      (fun _ _ => denotes_translate16HLto32) rfl (hasLanes_one h.lane1)
      (hasLanes_one h.lane0)
  exact hasLanes_translate32HLto64 (n := 2) (k := 2) rfl hhigh hlow

theorem hasLanes_assemble8x8 {b7 b6 b5 b4 b3 b2 b1 b0 : Exp}
    {f : ℕ → BitVec 8}
    (hhigh : FourLanes ρ .reg8 (b7, b6, b5, b4) fun i => f (4 + i))
    (hlow : FourLanes ρ .reg8 (b3, b2, b1, b0) f) :
    HasLanes ρ (assemble8x8 b7 b6 b5 b4 b3 b2 b1 b0) .reg64 8 8 f :=
  hasLanes_translate32HLto64 (n := 4) (k := 4) rfl
    (hasLanes_assemble4x8 hhigh) (hasLanes_assemble4x8 hlow)

theorem hasLanes_assemble2x32 {f : ℕ → BitVec 32} {w1 w0 : Exp}
    (h1 : Denotes ρ w1 .reg32 (f 1)) (h0 : Denotes ρ w0 .reg32 (f 0)) :
    HasLanes ρ (translate32HLto64 w1 w0) .reg64 32 2 f :=
  hasLanes_translate32HLto64 (n := 1) (k := 1) rfl (hasLanes_one h1)
    (hasLanes_one h0)

end Lanes

/-! ## Lane by lane -/

section Lanewise

open Bits

variable {μ : Type} [VineMemory μ] {ρ : Valuation μ} {t : Typ} {w n : ℕ}
  {g : Exp → Exp → Exp}

/-- The translation computes a function of the lanes, each by itself. -/
structure Lanewise (ρ : Valuation μ) (t : Typ) (w n : ℕ) (g : Exp → Exp → Exp)
    (h : BitVec w → BitVec w → BitVec w) : Prop where
  lanes : ∀ {a b : Exp} {f f' : ℕ → BitVec w}, HasLanes ρ a t w n f →
    HasLanes ρ b t w n f' → HasLanes ρ (g a b) t w n fun i => h (f i) (f' i)

theorem lanewise_one {h : BitVec w → BitVec w → BitVec w} (ht : t.width = w)
    (hg : ∀ {a b : Exp} {x y : BitVec w}, Denotes ρ a t x → Denotes ρ b t y →
      Denotes ρ (g a b) t (h x y)) : Lanewise ρ t w 1 g h := by
  constructor
  intro a b f f' ha hb
  exact hasLanes_one (f := fun i => h (f i) (f' i))
    (hg (ha.denotes ht) (hb.denotes ht))

theorem lanewise_map2x32 {h : BitVec 32 → BitVec 32 → BitVec 32}
    (hg : ∀ {a b : Exp} {x y : BitVec 32}, Denotes ρ a .reg32 x →
      Denotes ρ b .reg32 y → Denotes ρ (g a b) .reg32 (h x y)) :
    Lanewise ρ .reg64 32 2 (map2x32 g) h := by
  constructor
  intro a b f f' ha hb
  obtain ⟨ha1, ha0⟩ := lanes_split2x32 ha
  obtain ⟨hb1, hb0⟩ := lanes_split2x32 hb
  exact hasLanes_assemble2x32 (hg ha1 hb1) (hg ha0 hb0)

section Bytes

variable {h : BitVec 8 → BitVec 8 → BitVec 8}
  (hg : ∀ {a b : Exp} {x y : BitVec 8}, Denotes ρ a .reg8 x →
    Denotes ρ b .reg8 y → Denotes ρ (g a b) .reg8 (h x y))

include hg

theorem fourLanes_map {a3 a2 a1 a0 b3 b2 b1 b0 : Exp} {f f' : ℕ → BitVec 8}
    (ha : FourLanes ρ .reg8 (a3, a2, a1, a0) f)
    (hb : FourLanes ρ .reg8 (b3, b2, b1, b0) f') :
    FourLanes ρ .reg8 (g a3 b3, g a2 b2, g a1 b1, g a0 b0)
      fun i => h (f i) (f' i) :=
  ⟨hg ha.lane3 hb.lane3, hg ha.lane2 hb.lane2, hg ha.lane1 hb.lane1,
    hg ha.lane0 hb.lane0⟩

theorem lanewise_map4x8 : Lanewise ρ .reg32 8 4 (map4x8 g) h := by
  constructor
  intro a b f f' ha hb
  exact hasLanes_assemble4x8
    (fourLanes_map hg (lanes_split4x8 ha) (lanes_split4x8 hb))

theorem lanewise_map8x8 : Lanewise ρ .reg64 8 8 (map8x8 g) h := by
  constructor
  intro a b f f' ha hb
  obtain ⟨hahigh, halow⟩ := lanes_split8x8 ha
  obtain ⟨hbhigh, hblow⟩ := lanes_split8x8 hb
  exact hasLanes_assemble8x8 (f := fun i => h (f i) (f' i))
    (fourLanes_map hg hahigh hbhigh) (fourLanes_map hg halow hblow)

end Bytes

theorem lanewise_mapVector {h : BitVec w → BitVec w → BitVec w}
    (hn : 64 = w * n) (hg : Lanewise ρ .reg64 w n g h) {a b : Exp128}
    {x y : BitVec 128} (ha : DenotesWords ρ a x) (hb : DenotesWords ρ b y) :
    HasLanes128 ρ (mapVector g a b) w (n + n)
      fun i => h (lane w x i) (lane w y i) := by
  obtain ⟨hahigh, halow⟩ := hasLanes_splitVector ha hn
  obtain ⟨hbhigh, hblow⟩ := hasLanes_splitVector hb hn
  exact hasLanes128_vector (f := fun i => h (lane w x i) (lane w y i)) hn
    (hg.lanes hahigh hbhigh) (hg.lanes halow hblow)

end Lanewise

/-! ## Lanes that move -/

section Moves

open Bits

variable {μ : Type} [VineMemory μ] {ρ : Valuation μ} {a b : Exp} {w n : ℕ}

/-- The lanes of a function of two halves. -/
structure Interleaves (ρ : Valuation μ) (w n : ℕ) (g : Exp → Exp → Exp128) :
    Prop where
  lanes : ∀ {a b : Exp} {f f' : ℕ → BitVec w}, HasLanes ρ a .reg64 w n f →
    HasLanes ρ b .reg64 w n f' →
    HasLanes128 ρ (g a b) w (n + n) (interleaved f f')

theorem interleaves_1x64 : Interleaves ρ 64 1 translate64HLto128 := by
  constructor
  intro a b f f' ha hb
  exact hasLanes128_vector (n := 1) (m := 1) rfl
    (hasLanes_one (ha.denotes rfl)) (hasLanes_one (hb.denotes rfl))

theorem interleaves_2x32 : Interleaves ρ 32 2 interleave2_2x32 := by
  constructor
  intro a b f f' ha hb
  obtain ⟨ha1, ha0⟩ := lanes_split2x32 ha
  obtain ⟨hb1, hb0⟩ := lanes_split2x32 hb
  exact hasLanes128_vector (n := 2) (m := 2) rfl (hasLanes_assemble2x32 ha1 hb1)
    (hasLanes_assemble2x32 ha0 hb0)

theorem interleaves_4x16 : Interleaves ρ 16 4 interleave2_4x16 := by
  constructor
  intro a b f f' ha hb
  obtain ⟨ha3, ha2, ha1, ha0⟩ := lanes_split4x16 ha
  obtain ⟨hb3, hb2, hb1, hb0⟩ := lanes_split4x16 hb
  exact hasLanes128_vector (n := 4) (m := 4) rfl
    (hasLanes_assemble4x16 ⟨ha3, hb3, ha2, hb2⟩)
    (hasLanes_assemble4x16 ⟨ha1, hb1, ha0, hb0⟩)

theorem interleaves_8x8 : Interleaves ρ 8 8 interleave2_8x8 := by
  constructor
  intro a b f f' ha hb
  obtain ⟨⟨ha7, ha6, ha5, ha4⟩, ⟨ha3, ha2, ha1, ha0⟩⟩ := lanes_split8x8 ha
  obtain ⟨⟨hb7, hb6, hb5, hb4⟩, ⟨hb3, hb2, hb1, hb0⟩⟩ := lanes_split8x8 hb
  exact hasLanes128_vector (n := 8) (m := 8) rfl
    (hasLanes_assemble8x8 ⟨ha7, hb7, ha6, hb6⟩ ⟨ha5, hb5, ha4, hb4⟩)
    (hasLanes_assemble8x8 ⟨ha3, hb3, ha2, hb2⟩ ⟨ha1, hb1, ha0, hb0⟩)

section Halves

variable {v v' : Exp128} {x y : BitVec 128} {g : Exp → Exp → Exp128}

theorem Interleaves.onLow (hg : Interleaves ρ w n g) (hn : 64 = w * n)
    (hv : DenotesWords ρ v x) (hv' : DenotesWords ρ v' y) :
    HasLanes128 ρ (onLow g v v') w (n + n)
      (interleaved (lane w x) (lane w y)) :=
  hg.lanes (hasLanes_splitVector hv hn).2 (hasLanes_splitVector hv' hn).2

theorem Interleaves.onHigh (hg : Interleaves ρ w n g) (hn : 64 = w * n)
    (hv : DenotesWords ρ v x) (hv' : DenotesWords ρ v' y) :
    HasLanes128 ρ (onHigh g v v') w (n + n) (interleaved
      (fun i => lane w x (n + i)) fun i => lane w y (n + i)) :=
  hg.lanes (hasLanes_splitVector hv hn).1 (hasLanes_splitVector hv' hn).1

end Halves

theorem hasLanes_assemble8x1 {b7 b6 b5 b4 b3 b2 b1 b0 : Exp}
    {f : ℕ → BitVec 1}
    (hhigh : FourLanes ρ .reg1 (b7, b6, b5, b4) fun i => f (4 + i))
    (hlow : FourLanes ρ .reg1 (b3, b2, b1, b0) f) :
    HasLanes ρ (assemble8x1 b7 b6 b5 b4 b3 b2 b1 b0) .reg8 1 8 f := by
  have hbits : ∀ {e : Exp} {x : BitVec 1} (k : BitVec 32), Denotes ρ e .reg1 x →
      Denotes ρ (exShl (exUCast e .reg8) (exConst k)) .reg8
        (x.setWidth 8 <<< k.toNat) := fun k he => (he.ucast .reg8).shl (.const32 k)
  have h := (((hbits 7 hhigh.lane3).or (hbits 6 hhigh.lane2)).or
      ((hbits 5 hhigh.lane1).or (hbits 4 hhigh.lane0))).or
    (((hbits 3 hlow.lane3).or (hbits 2 hlow.lane2)).or
      ((hbits 1 hlow.lane1).or (hlow.lane0.ucast .reg8)))
  refine ⟨8, _, h, fun i hi => ?_⟩
  ext j hj
  obtain rfl : j = 0 := by omega
  rw [getElem_lane _ _ hj]
  interval_cases i <;> simp

/-- The sign bits of the lanes. -/
def signs {w : ℕ} (f : ℕ → BitVec w) (i : ℕ) : BitVec 1 :=
  flag 1 (f i).msb

theorem getLsbD_sign {v : ℕ} (x : BitVec v) (i : ℕ) :
    (lane 8 x i).msb = x.getLsbD (8 * i + 7) := by
  rw [BitVec.msb_eq_getLsbD_last, BitVec.getLsbD_eq_getElem (by decide),
    getElem_lane]

theorem denotes_signBit {f : ℕ → BitVec 8} (ha : HasLanes ρ a .reg64 8 8 f)
    {i : ℕ} (hi : i < 8) :
    Denotes ρ (X64.exGetBit a (BitVec.ofNat 32 (8 * i + 7))) .reg1
      (signs f i) := by
  obtain ⟨v, x, hx, hlane⟩ := ha
  have hpos : (BitVec.ofNat 32 (8 * i + 7)).toNat = 8 * i + 7 :=
    Nat.mod_eq_of_lt (by omega)
  have h := denotes_bit0 (hx.shr (.const32 (BitVec.ofNat 32 (8 * i + 7))))
  rw [BitVec.getLsbD_ushiftRight, Nat.add_zero, hpos, ← getLsbD_sign,
    hlane i hi] at h
  exact h

theorem hasLanes_getMSBs8x8 {f : ℕ → BitVec 8}
    (ha : HasLanes ρ a .reg64 8 8 f) :
    HasLanes ρ (translateGetMSBs8x8 a) .reg8 1 8 (signs f) := by
  have hhigh : Denotes ρ (exHCast a .reg1) .reg1 (signs f 7) := by
    obtain ⟨v, x, hx, hlane⟩ := ha
    obtain rfl : v = 64 := hx.width.symm
    have h := denotes_highBit hx
    have hmsb : x.msb = (lane 8 x 7).msb := by
      rw [getLsbD_sign, BitVec.msb_eq_getLsbD_last]
    rw [hmsb, hlane 7 (by decide)] at h
    exact h
  have hbit : ∀ i < 8, Denotes ρ
      (X64.exGetBit a (BitVec.ofNat 32 (8 * i + 7))) .reg1 (signs f i) :=
    fun i hi => denotes_signBit ha hi
  exact hasLanes_assemble8x1
    ⟨hhigh, hbit 6 (by decide), hbit 5 (by decide), hbit 4 (by decide)⟩
    ⟨hbit 3 (by decide), hbit 2 (by decide), hbit 1 (by decide),
      hbit 0 (by decide)⟩

theorem hasLanes_getMSBs8x16 {v : Exp128} {x : BitVec 128}
    (hv : DenotesWords ρ v x) :
    HasLanes ρ (translateGetMSBs8x16 v) .reg16 1 16 (signs (lane 8 x)) := by
  obtain ⟨hhigh, hlow⟩ := hasLanes_splitVector (w := 8) (n := 8) hv rfl
  exact HasLanes.join (g := assemble2x8) (n := 8) (m := 8) (t := .reg8)
    (f := signs (lane 8 x)) (fun _ _ => denotes_assemble2x8) rfl
    (hasLanes_getMSBs8x8 hhigh) (hasLanes_getMSBs8x8 hlow)

/-! ## Shifts by a scalar -/

variable {op : LaneShift} {z : BitVec 8}

theorem LaneShift.denotes {t u : Typ} {e : Exp} {x : BitVec w}
    (hx : Denotes ρ e t x) (hz : Denotes ρ b u z) :
    Denotes ρ (.binOp op.binop e b) t (op.value x z.toNat) := by
  cases op with
  | lshift => exact hx.shl hz
  | rshift => exact hx.shr hz
  | arshift => exact hx.sar hz

theorem hasLanes_vs2x32Shift {f : ℕ → BitVec 32}
    (ha : HasLanes ρ a .reg64 32 2 f) (hz : Denotes ρ b .reg8 z) :
    HasLanes ρ (translateVs2x32Shift op.binop a b) .reg64 32 2
      fun i => op.value (f i) z.toNat := by
  obtain ⟨ha1, ha0⟩ := lanes_split2x32 ha
  exact hasLanes_assemble2x32 (LaneShift.denotes ha1 hz)
    (LaneShift.denotes ha0 hz)

theorem hasLanes_vs4x32Shift {v : Exp128} {x : BitVec 128}
    (hv : DenotesWords ρ v x) (hz : Denotes ρ b .reg8 z) :
    HasLanes128 ρ (translateVs4x32Shift op.binop v b) 32 4
      fun i => op.value (lane 32 x i) z.toNat := by
  obtain ⟨hhigh, hlow⟩ := hasLanes_splitVector (w := 32) (n := 2) hv rfl
  exact hasLanes128_vector (n := 2) (m := 2) rfl
    (hasLanes_vs2x32Shift hhigh hz) (hasLanes_vs2x32Shift hlow hz)

theorem hasLanes_vs2x64Shift {v : Exp128} {x : BitVec 128}
    (hv : DenotesWords ρ v x) (hz : Denotes ρ b .reg8 z) :
    HasLanes128 ρ (translateVs2x64Shift op.binop v b) 64 2
      fun i => op.value (lane 64 x i) z.toNat := by
  obtain ⟨hhigh, hlow⟩ := hasLanes_splitVector (w := 64) (n := 1) hv rfl
  exact hasLanes128_vector (n := 1) (m := 1) rfl
    (hasLanes_one (LaneShift.denotes (hhigh.denotes rfl) hz))
    (hasLanes_one (LaneShift.denotes (hlow.denotes rfl) hz))

end Moves

/-! ## Values of lanes -/

section Values

theorem setWidth_ofInt {m n : ℕ} (hmn : m ≤ n) (v : ℤ) :
    (BitVec.ofInt n v).setWidth m = BitVec.ofInt m v := by
  apply BitVec.eq_of_toNat_eq
  have hdvd : (2 : ℤ) ^ m ∣ 2 ^ n := pow_dvd_pow 2 hmn
  have hn : (0 : ℤ) ≤ v % 2 ^ n := Int.emod_nonneg _ (by positivity)
  have hm : (0 : ℤ) ≤ v % 2 ^ m := Int.emod_nonneg _ (by positivity)
  rw [BitVec.toNat_setWidth, BitVec.toNat_ofInt, BitVec.toNat_ofInt]
  zify
  rw [Int.toNat_of_nonneg hn, Int.toNat_of_nonneg hm,
    Int.emod_emod_of_dvd _ hdvd]

theorem halve_ofInt (v : ℤ) :
    (BitVec.ofInt 16 v >>> 1).setWidth 8 = BitVec.ofInt 8 (v / 2) := by
  apply BitVec.eq_of_toNat_eq
  simp only [BitVec.toNat_setWidth, BitVec.toNat_ushiftRight,
    BitVec.toNat_ofInt, Nat.shiftRight_eq_div_pow]
  omega

/-- A lane, widened. -/
def wideLane (is_signed : Bool) (x : BitVec 8) : BitVec 16 :=
  if is_signed then x.signExtend 16 else x.setWidth 16

theorem wideLane_eq (is_signed : Bool) (x : BitVec 8) :
    wideLane is_signed x = BitVec.ofInt 16 (laneInt is_signed x) := by
  cases is_signed with
  | true => rfl
  | false =>
    exact (BitVec.ofNat_toNat 16 x).symm.trans
      (BitVec.ofInt_natCast 16 x.toNat).symm

theorem LaneArith.value_ofInt {w : ℕ} (op : LaneArith) (u v : ℤ) :
    op.value (BitVec.ofInt w u) (BitVec.ofInt w v) =
      BitVec.ofInt w (op.exact u v) := by
  cases op with
  | plus => exact (BitVec.ofInt_add u v).symm
  | minus =>
    rw [LaneArith.value, LaneArith.exact, BitVec.sub_eq_add_neg, Int.sub_eq_add_neg,
      BitVec.ofInt_add, BitVec.ofInt_neg]
  | times => exact (BitVec.ofInt_mul u v).symm

/-- The clamped value of the code, whose comparisons are unsigned. -/
def clampLane (is_signed : Bool) (r : BitVec 16) : BitVec 8 :=
  let lo : BitVec 16 := if is_signed then 0xff80 else 0
  let hi : BitVec 16 := if is_signed then 127 else 255
  (if r.ult lo then lo else if hi.ult r then hi else r).setWidth 8

theorem toNat_ofInt8 (v : ℤ) :
    (BitVec.ofInt 8 v).toNat = (v % 256).toNat := BitVec.toNat_ofInt v

theorem toNat_ofInt16 (v : ℤ) :
    (BitVec.ofInt 16 v).toNat = (v % 65536).toNat := BitVec.toNat_ofInt v

theorem clampLane_signed {v : ℤ} (hlow : -32768 ≤ v) (hhigh : v < 32768) :
    clampLane true (BitVec.ofInt 16 v) = saturate true v ↔ v < -128 := by
  have hr := toNat_ofInt16 v
  rw [← BitVec.toNat_inj, saturate, if_pos rfl, toNat_ofInt8, clampLane,
    BitVec.toNat_setWidth]
  simp only [BitVec.ult, if_true, decide_eq_true_eq]
  have h128 : (0xff80 : BitVec 16).toNat = 65408 := rfl
  have h127 : (127 : BitVec 16).toNat = 127 := rfl
  split_ifs with h1 h2
  · rw [h128]
    omega
  · rw [h127]
    omega
  · omega

theorem clampLane_unsigned {v : ℤ} (hlow : -65000 ≤ v) (hhigh : v < 65536) :
    clampLane false (BitVec.ofInt 16 v) = saturate false v ↔ 0 ≤ v := by
  have hr := toNat_ofInt16 v
  rw [← BitVec.toNat_inj, saturate, if_neg Bool.false_ne_true, toNat_ofInt8,
    clampLane, BitVec.toNat_setWidth]
  simp only [BitVec.ult, Bool.false_eq_true, if_false, decide_eq_true_eq]
  have h0 : (0 : BitVec 16).toNat = 0 := rfl
  have h255 : (255 : BitVec 16).toNat = 255 := rfl
  split_ifs with h1 h2
  · omega
  · rw [h255]
    omega
  · omega

theorem LaneArith.exact_signed (op : LaneArith) {u v : ℤ}
    (hu : -128 ≤ u ∧ u ≤ 127) (hv : -128 ≤ v ∧ v ≤ 127) :
    -32768 ≤ op.exact u v ∧ op.exact u v < 32768 := by
  cases op <;> simp only [LaneArith.exact] <;> constructor <;> nlinarith

theorem LaneArith.exact_unsigned (op : LaneArith) {u v : ℤ}
    (hu : 0 ≤ u ∧ u ≤ 255) (hv : 0 ≤ v ∧ v ≤ 255) :
    -65000 ≤ op.exact u v ∧ op.exact u v < 65536 := by
  cases op <;> simp only [LaneArith.exact] <;> constructor <;> nlinarith

/-- Where the clamping of the code is right. -/
def SaturatesRight (op : LaneArith) (is_signed : Bool) (x y : BitVec 8) :
    Prop :=
  let v := op.exact (laneInt is_signed x) (laneInt is_signed y)
  if is_signed then v < -128 else 0 ≤ v

/-- The saturated value of the code. -/
def codeSaturated (op : LaneArith) (is_signed : Bool) (x y : BitVec 8) :
    BitVec 8 :=
  clampLane is_signed (op.value (wideLane is_signed x) (wideLane is_signed y))

theorem codeSaturated_iff (op : LaneArith) (is_signed : Bool)
    (x y : BitVec 8) :
    codeSaturated op is_signed x y = saturatingLane op is_signed x y ↔
      SaturatesRight op is_signed x y := by
  rw [codeSaturated, wideLane_eq, wideLane_eq, op.value_ofInt]
  cases is_signed with
  | true =>
    have hbound : ∀ z : BitVec 8, -128 ≤ laneInt true z ∧ laneInt true z ≤ 127 :=
      fun z => ⟨BitVec.le_toInt z, Int.le_of_lt_add_one BitVec.toInt_lt⟩
    have hexact := op.exact_signed (hbound x) (hbound y)
    exact clampLane_signed hexact.1 hexact.2
  | false =>
    have hbound : ∀ z : BitVec 8, 0 ≤ laneInt false z ∧ laneInt false z ≤ 255 :=
      fun z => ⟨Int.natCast_nonneg _, by have := z.isLt; simp [laneInt]; omega⟩
    have hexact := op.exact_unsigned (hbound x) (hbound y)
    exact clampLane_unsigned hexact.1 hexact.2

theorem codeHalving_eq (op : LaneArith) (is_signed : Bool) (x y : BitVec 8) :
    (op.value (wideLane is_signed x) (wideLane is_signed y) >>> 1).setWidth 8 =
      halvingLane op is_signed x y := by
  rw [wideLane_eq, wideLane_eq, op.value_ofInt, halve_ofInt]
  rfl

/-- Comparison of lanes as numbers. -/
def lessLane {w : ℕ} (is_signed : Bool) (x y : BitVec w) : Bool :=
  if is_signed then x.slt y else x.ult y

theorem lessLane_iff {w : ℕ} (is_signed : Bool) (x y : BitVec w) :
    lessLane is_signed x y = true ↔
      laneInt is_signed x < laneInt is_signed y := by
  cases is_signed with
  | true => exact BitVec.slt_iff_toInt_lt
  | false => exact decide_eq_true_iff.trans Int.ofNat_lt.symm

theorem ofInt_laneInt {w : ℕ} (is_signed : Bool) (x : BitVec w) :
    BitVec.ofInt w (laneInt is_signed x) = x := by
  cases is_signed with
  | true => exact BitVec.ofInt_toInt
  | false =>
    exact (BitVec.ofInt_natCast w x.toNat).trans (BitVec.ofNat_toNat w x ▸
      BitVec.setWidth_eq x)

theorem codeMinmax_eq {w : ℕ} (is_signed is_max : Bool) (x y : BitVec w) :
    (if is_max then (if lessLane is_signed y x then x else y)
      else if lessLane is_signed x y then x else y) =
      minmaxLane is_signed is_max x y := by
  cases is_max with
  | true =>
    simp only [if_true, minmaxLane, lessLane_iff]
    split_ifs with h
    · rw [max_eq_left h.le, ofInt_laneInt]
    · rw [max_eq_right (not_lt.mp h), ofInt_laneInt]
  | false =>
    simp only [Bool.false_eq_true, if_false, minmaxLane, lessLane_iff]
    split_ifs with h
    · rw [min_eq_left h.le, ofInt_laneInt]
    · rw [min_eq_right (not_lt.mp h), ofInt_laneInt]

/-- The nearest number that fits in an unsigned byte. -/
def narrowLane (x : BitVec 16) : BitVec 8 := saturate false x.toInt

theorem codeNarrow_eq (x : BitVec 16) :
    (if x.slt 0 then (0 : BitVec 8)
      else if (255 : BitVec 16).slt x then 255 else x.setWidth 8) =
      narrowLane x := by
  have h0 : (0 : BitVec 16).toInt = 0 := rfl
  have h255 : (255 : BitVec 16).toInt = 255 := rfl
  simp only [narrowLane, saturate, Bool.false_eq_true, if_false,
    BitVec.slt_iff_toInt_lt, h0, h255]
  split_ifs with hneg hbig
  · rw [max_eq_left (by omega)]
    rfl
  · rw [min_eq_left (by omega)]
    rfl
  · rw [min_eq_right (by omega), max_eq_right (by omega)]
    conv_lhs => rw [← BitVec.ofInt_toInt (x := x)]
    exact setWidth_ofInt (by decide) _

end Values

/-! ## Expressions of the values -/

section Expressions

variable {μ : Type} [VineMemory μ] {ρ : Valuation μ} {t : Typ} {w : ℕ}
  {a b : Exp} {x y : BitVec w} {is_signed is_max : Bool} {op : LaneArith}

theorem denotes_arith (ha : Denotes ρ a t x) (hb : Denotes ρ b t y) :
    Denotes ρ (.binOp op.binop a b) t (op.value x y) := by
  cases op with
  | plus => exact ha.add hb
  | minus => exact ha.sub hb
  | times => exact ha.mul hb

theorem denotes_wide {x : BitVec 8} (ha : Denotes ρ a .reg8 x) :
    Denotes ρ (if is_signed then exSCast a .reg16 else exUCast a .reg16) .reg16
      (wideLane is_signed x) := by
  cases is_signed with
  | true => exact ha.scast .reg16
  | false => exact ha.ucast .reg16

theorem denotes_halvingBinop8 {x y : BitVec 8} (ha : Denotes ρ a .reg8 x)
    (hb : Denotes ρ b .reg8 y) :
    Denotes ρ (halvingBinop8 op.binop is_signed a b) .reg8
      (halvingLane op is_signed x y) := by
  have hwa := @denotes_wide μ _ ρ a is_signed x ha
  have hwb := @denotes_wide μ _ ρ b is_signed y hb
  have h := @denotes_arith μ _ ρ _ _ _ _ _ _ op hwa hwb
  rw [← codeHalving_eq]
  exact (h.shr (.const32 1)).lcast .reg8

theorem denotes_saturatingBinop8 {x y : BitVec 8} (ha : Denotes ρ a .reg8 x)
    (hb : Denotes ρ b .reg8 y) :
    Denotes ρ (saturatingBinop8 op.binop is_signed a b) .reg8
      (codeSaturated op is_signed x y) := by
  have hwa := @denotes_wide μ _ ρ a is_signed x ha
  have hwb := @denotes_wide μ _ ρ b is_signed y hb
  have h := @denotes_arith μ _ ρ _ _ _ _ _ _ op hwa hwb
  have hlo : Denotes ρ (exConstOf .reg16 (if is_signed then -128 else 0)) .reg16
      (if is_signed then (0xff80 : BitVec 16) else 0) := by
    cases is_signed <;> exact .constOf .reg16 _
  have hhi : Denotes ρ (exConstOf .reg16 (if is_signed then 127 else 255)) .reg16
      (if is_signed then (127 : BitVec 16) else 255) := by
    cases is_signed <;> exact .constOf .reg16 _
  exact ((h.lt hlo).ite hlo ((hhi.lt h).ite hhi h)).lcast .reg8

/-- The comparison that the callers pass. -/
def lessOp (is_signed : Bool) : BinopType := if is_signed then .slt else .lt

theorem denotes_less (ha : Denotes ρ a t x) (hb : Denotes ρ b t y) :
    DenotesBool ρ (.binOp (lessOp is_signed) a b) (lessLane is_signed x y) := by
  cases is_signed with
  | true => exact ha.slt hb
  | false => exact ha.lt hb

theorem denotes_minmax (ha : Denotes ρ a t x) (hb : Denotes ρ b t y) :
    Denotes ρ (if is_max then exIte (.binOp (lessOp is_signed) b a) a b
      else exIte (.binOp (lessOp is_signed) a b) a b) t
      (minmaxLane is_signed is_max x y) := by
  rw [← codeMinmax_eq]
  cases is_max with
  | true => exact (denotes_less hb ha).ite ha hb
  | false => exact (denotes_less ha hb).ite ha hb

theorem denotes_mask {p : Bool} (h : DenotesBool ρ a p) (t : Typ) :
    Denotes ρ (exSCast a t) t (maskLane t.width p) := by
  have hmask : (flag 1 p).signExtend t.width = maskLane t.width p := by
    cases p with
    | false =>
      ext j hj
      simp [flag, maskLane, BitVec.getElem_signExtend]
    | true =>
      ext j hj
      simp [flag, maskLane, BitVec.getElem_signExtend]
  exact hmask ▸ h.scast t

theorem denotes_translateQNarrow16Sto8U {x : BitVec 16}
    (ha : Denotes ρ a .reg16 x) :
    Denotes ρ (translateQNarrow16Sto8U a) .reg8 (narrowLane x) := by
  rw [← codeNarrow_eq]
  exact (ha.slt (.constOf .reg16 0)).ite (.constOf .reg8 0)
    (((Denotes.constOf .reg16 255).slt ha).ite (.constOf .reg8 255)
      (ha.lcast .reg8))

theorem hasLanes_qNarrow16Sto8Ux8 {v : Exp128} {x : BitVec 128}
    (hv : DenotesWords ρ v x) :
    HasLanes ρ (translateQNarrow16Sto8Ux8 v) .reg64 8 8
      fun i => narrowLane (Bits.lane 16 x i) := by
  obtain ⟨hhigh, hlow⟩ := hasLanes_splitVector (w := 16) (n := 4) hv rfl
  have hnarrow : ∀ {a3 a2 a1 a0 : Exp} {f : ℕ → BitVec 16},
      FourLanes ρ .reg16 (a3, a2, a1, a0) f →
      FourLanes ρ .reg8 (translateQNarrow16Sto8U a3, translateQNarrow16Sto8U a2,
        translateQNarrow16Sto8U a1, translateQNarrow16Sto8U a0)
        fun i => narrowLane (f i) := fun h =>
    ⟨denotes_translateQNarrow16Sto8U h.lane3,
      denotes_translateQNarrow16Sto8U h.lane2,
      denotes_translateQNarrow16Sto8U h.lane1,
      denotes_translateQNarrow16Sto8U h.lane0⟩
  exact hasLanes_assemble8x8 (f := fun i => narrowLane (Bits.lane 16 x i))
    (hnarrow (lanes_split4x16 hhigh)) (hnarrow (lanes_split4x16 hlow))

end Expressions

/-! ## The packed operations -/

/-- What an operand or a result is. -/
inductive PackedKind
  | reg (t : Typ)
  | v128
  | nothing
  deriving DecidableEq, Repr

def PackedKind.width : PackedKind → ℕ
  | .reg t => t.width
  | .v128 => 128
  | .nothing => 0

def Packed : PackedKind → Type
  | .reg _ => Exp
  | .v128 => Exp128
  | .nothing => Unit

def DenotesPacked {μ : Type} [VineMemory μ] (ρ : Valuation μ) :
    (k : PackedKind) → Packed k → BitVec k.width → Prop
  | .reg t, e, x => Denotes ρ e t x
  | .v128, e, x => DenotesWords ρ e x
  | .nothing, _, _ => True

/-- The functions of the source, with the arguments that its callers give. -/
inductive SimdOp
  | par4x8 (op : LaneArith)
  | par8x8 (op : LaneArith)
  | par16x8 (op : LaneArith)
  | par2x32 (op : LaneArith)
  | par4x32 (op : LaneArith)
  | par2x64 (op : LaneArith)
  | halving4x8 (op : LaneArith) (is_signed : Bool)
  | saturating4x8 (op : LaneArith) (is_signed : Bool)
  | minmax8x8 (is_signed is_max : Bool)
  | minmax16x8 (is_signed is_max : Bool)
  | cmpEQ8x8
  | cmpEQ8x16
  | cmpEQ32x2
  | cmpEQ32x4
  | cmpGT8Sx8
  | cmpGT8Sx16
  | cmpGT32Sx2
  | cmpGT32Sx4
  | interleaveLO8x16
  | interleaveLO16x8
  | interleaveLO32x4
  | interleaveLO64x2
  | interleaveHI8x16
  | interleaveHI16x8
  | interleaveHI32x4
  | interleaveHI64x2
  | getMSBs8x8
  | getMSBs8x16
  | vs2x32 (op : LaneShift)
  | vs4x32 (op : LaneShift)
  | vs2x64 (op : LaneShift)
  | qNarrow16Sto8Ux8
  | qNarrowBin16Sto8Ux16
  deriving DecidableEq, Repr

namespace SimdOp

/-- The kind of the first operand. -/
def left : SimdOp → PackedKind
  | par4x8 _ | halving4x8 _ _ | saturating4x8 _ _ => .reg .reg32
  | par8x8 _ | par2x32 _ | minmax8x8 _ _ | cmpEQ8x8 | cmpEQ32x2 | cmpGT8Sx8
  | cmpGT32Sx2 | getMSBs8x8 | vs2x32 _ => .reg .reg64
  | _ => .v128

/-- The kind of the second operand. -/
def right : SimdOp → PackedKind
  | vs2x32 _ | vs4x32 _ | vs2x64 _ => .reg .reg8
  | getMSBs8x8 | getMSBs8x16 | qNarrow16Sto8Ux8 => .nothing
  | op => op.left

/-- The kind of the result. -/
def result : SimdOp → PackedKind
  | getMSBs8x8 => .reg .reg8
  | getMSBs8x16 => .reg .reg16
  | qNarrow16Sto8Ux8 => .reg .reg64
  | op => op.left

/-- The width of a lane of the result. -/
def laneWidth : SimdOp → ℕ
  | getMSBs8x8 | getMSBs8x16 => 1
  | interleaveLO16x8 | interleaveHI16x8 => 16
  | par2x32 _ | par4x32 _ | cmpEQ32x2 | cmpEQ32x4 | cmpGT32Sx2 | cmpGT32Sx4
  | interleaveLO32x4 | interleaveHI32x4 | vs2x32 _ | vs4x32 _ => 32
  | par2x64 _ | interleaveLO64x2 | interleaveHI64x2 | vs2x64 _ => 64
  | _ => 8

/-- The number of lanes of the result. -/
def lanes : SimdOp → ℕ
  | par2x32 _ | par2x64 _ | cmpEQ32x2 | cmpGT32Sx2 | interleaveLO64x2
  | interleaveHI64x2 | vs2x32 _ | vs2x64 _ => 2
  | par4x8 _ | halving4x8 _ _ | saturating4x8 _ _ | par4x32 _ | cmpEQ32x4
  | cmpGT32Sx4 | interleaveLO32x4 | interleaveHI32x4 | vs4x32 _ => 4
  | par8x8 _ | minmax8x8 _ _ | cmpEQ8x8 | cmpGT8Sx8 | interleaveLO16x8
  | interleaveHI16x8 | getMSBs8x8 | qNarrow16Sto8Ux8 => 8
  | _ => 16

/-- The lanes fill the result. -/
theorem laneWidth_mul_lanes (op : SimdOp) :
    op.laneWidth * op.lanes = op.result.width := by
  cases op <;> rfl

def translate : (op : SimdOp) → Packed op.left → Packed op.right →
    Packed op.result
  | par4x8 op, a, b => translatePar4x8Binop op.binop a b
  | par8x8 op, a, b => translatePar8x8Binop op.binop a b
  | par16x8 op, a, b => translatePar16x8Binop op.binop a b
  | par2x32 op, a, b => translatePar2x32Binop op.binop a b
  | par4x32 op, a, b => translatePar4x32Binop op.binop a b
  | par2x64 op, a, b => translatePar2x64Binop op.binop a b
  | halving4x8 op s, a, b => translateHalving4x8Binop op.binop s a b
  | saturating4x8 op s, a, b => translateSaturating4x8Binop op.binop s a b
  | minmax8x8 s m, a, b => translateMinmax8x8 (lessOp s) m a b
  | minmax16x8 s m, a, b => translateMinmax16x8 (lessOp s) m a b
  | cmpEQ8x8, a, b => translateCmpEQ8x8 a b
  | cmpEQ8x16, a, b => translateCmpEQ8x16 a b
  | cmpEQ32x2, a, b => translateCmpEQ32x2 a b
  | cmpEQ32x4, a, b => translateCmpEQ32x4 a b
  | cmpGT8Sx8, a, b => translateCmpGT8Sx8 a b
  | cmpGT8Sx16, a, b => translateCmpGT8Sx16 a b
  | cmpGT32Sx2, a, b => translateCmpGT32Sx2 a b
  | cmpGT32Sx4, a, b => translateCmpGT32Sx4 a b
  | interleaveLO8x16, a, b => translateInterleaveLO8x16 a b
  | interleaveLO16x8, a, b => translateInterleaveLO16x8 a b
  | interleaveLO32x4, a, b => translateInterleaveLO32x4 a b
  | interleaveLO64x2, a, b => translateInterleaveLO64x2 a b
  | interleaveHI8x16, a, b => translateInterleaveHI8x16 a b
  | interleaveHI16x8, a, b => translateInterleaveHI16x8 a b
  | interleaveHI32x4, a, b => translateInterleaveHI32x4 a b
  | interleaveHI64x2, a, b => translateInterleaveHI64x2 a b
  | getMSBs8x8, a, _ => translateGetMSBs8x8 a
  | getMSBs8x16, a, _ => translateGetMSBs8x16 a
  | vs2x32 op, a, b => translateVs2x32Shift op.binop a b
  | vs4x32 op, a, b => translateVs4x32Shift op.binop a b
  | vs2x64 op, a, b => translateVs2x64Shift op.binop a b
  | qNarrow16Sto8Ux8, a, _ => translateQNarrow16Sto8Ux8 a
  | qNarrowBin16Sto8Ux16, a, b => translateQNarrowBin16Sto8Ux16 a b

/-- The value of a lane of the result, from the lanes of the operands. -/
def laneValue : (op : SimdOp) → BitVec op.left.width →
    BitVec op.right.width → ℕ → BitVec op.laneWidth
  | par4x8 op, x, y, i | par8x8 op, x, y, i | par16x8 op, x, y, i =>
      op.value (Bits.lane 8 x i) (Bits.lane 8 y i)
  | par2x32 op, x, y, i | par4x32 op, x, y, i =>
      op.value (Bits.lane 32 x i) (Bits.lane 32 y i)
  | par2x64 op, x, y, i => op.value (Bits.lane 64 x i) (Bits.lane 64 y i)
  | halving4x8 op s, x, y, i =>
      halvingLane op s (Bits.lane 8 x i) (Bits.lane 8 y i)
  | saturating4x8 op s, x, y, i =>
      saturatingLane op s (Bits.lane 8 x i) (Bits.lane 8 y i)
  | minmax8x8 s m, x, y, i | minmax16x8 s m, x, y, i =>
      minmaxLane s m (Bits.lane 8 x i) (Bits.lane 8 y i)
  | cmpEQ8x8, x, y, i | cmpEQ8x16, x, y, i =>
      maskLane 8 (Bits.lane 8 x i == Bits.lane 8 y i)
  | cmpEQ32x2, x, y, i | cmpEQ32x4, x, y, i =>
      maskLane 32 (Bits.lane 32 x i == Bits.lane 32 y i)
  | cmpGT8Sx8, x, y, i | cmpGT8Sx16, x, y, i =>
      maskLane 8 ((Bits.lane 8 y i).slt (Bits.lane 8 x i))
  | cmpGT32Sx2, x, y, i | cmpGT32Sx4, x, y, i =>
      maskLane 32 ((Bits.lane 32 y i).slt (Bits.lane 32 x i))
  | interleaveLO8x16, x, y, i =>
      interleaved (Bits.lane 8 x) (Bits.lane 8 y) i
  | interleaveLO16x8, x, y, i =>
      interleaved (Bits.lane 16 x) (Bits.lane 16 y) i
  | interleaveLO32x4, x, y, i =>
      interleaved (Bits.lane 32 x) (Bits.lane 32 y) i
  | interleaveLO64x2, x, y, i =>
      interleaved (Bits.lane 64 x) (Bits.lane 64 y) i
  | interleaveHI8x16, x, y, i =>
      interleaved (fun j => Bits.lane 8 x (8 + j))
        (fun j => Bits.lane 8 y (8 + j)) i
  | interleaveHI16x8, x, y, i =>
      interleaved (fun j => Bits.lane 16 x (4 + j))
        (fun j => Bits.lane 16 y (4 + j)) i
  | interleaveHI32x4, x, y, i =>
      interleaved (fun j => Bits.lane 32 x (2 + j))
        (fun j => Bits.lane 32 y (2 + j)) i
  | interleaveHI64x2, x, y, i =>
      interleaved (fun j => Bits.lane 64 x (1 + j))
        (fun j => Bits.lane 64 y (1 + j)) i
  | getMSBs8x8, x, _, i | getMSBs8x16, x, _, i => signs (Bits.lane 8 x) i
  | vs2x32 op, x, y, i | vs4x32 op, x, y, i =>
      op.value (Bits.lane 32 x i) y.toNat
  | vs2x64 op, x, y, i => op.value (Bits.lane 64 x i) y.toNat
  | qNarrow16Sto8Ux8, x, _, i => narrowLane (Bits.lane 16 x i)
  | qNarrowBin16Sto8Ux16, x, y, i =>
      if i < 8 then narrowLane (Bits.lane 16 y i)
      else narrowLane (Bits.lane 16 x (i - 8))

/-- The lane that the code computes. -/
def codeLane : (op : SimdOp) → BitVec op.left.width →
    BitVec op.right.width → ℕ → BitVec op.laneWidth
  | saturating4x8 op s, x, y, i =>
      codeSaturated op s (Bits.lane 8 x i) (Bits.lane 8 y i)
  | op, x, y, i => op.laneValue x y i

/-- In the lanes where an operation saturates, the clamping is right. -/
def ClampsRight : (op : SimdOp) → BitVec op.left.width →
    BitVec op.right.width → Prop
  | saturating4x8 op s, x, y =>
      ∀ i < 4, SaturatesRight op s (Bits.lane 8 x i) (Bits.lane 8 y i)
  | _, _, _ => True

/-- The translation has a value, with the lanes of the operation. -/
def Translates {μ : Type} [VineMemory μ] (ρ : Valuation μ) (op : SimdOp)
    (a : Packed op.left) (b : Packed op.right)
    (f : ℕ → BitVec op.laneWidth) : Prop :=
  ∃ r : BitVec op.result.width,
    DenotesPacked ρ op.result (op.translate a b) r ∧
      ∀ i < op.lanes, Bits.lane op.laneWidth r i = f i

end SimdOp

section Packed

variable {μ : Type} [VineMemory μ] {ρ : Valuation μ} {w n : ℕ}
  {g : Exp → Exp → Exp} {f : ℕ → BitVec w}

theorem HasLanes.packed {e : Exp} {t : Typ} (h : HasLanes ρ e t w n f) :
    ∃ r : BitVec t.width, Denotes ρ e t r ∧ ∀ i < n, Bits.lane w r i = f i := by
  obtain ⟨v, x, hx, hlane⟩ := h
  obtain rfl := hx.width
  exact ⟨x, hx, hlane⟩

theorem Lanewise.packed {h : BitVec w → BitVec w → BitVec w} {t : Typ}
    (hg : Lanewise ρ t w n g h) {a b : Exp} {x y : BitVec t.width}
    (ha : Denotes ρ a t x) (hb : Denotes ρ b t y) :
    ∃ r : BitVec t.width, Denotes ρ (g a b) t r ∧
      ∀ i < n, Bits.lane w r i = h (Bits.lane w x i) (Bits.lane w y i) :=
  (hg.lanes (hasLanes_lane ha w n) (hasLanes_lane hb w n)).packed

theorem lanewise_par8x8 (op : LaneArith) :
    Lanewise ρ .reg64 8 8 (translatePar8x8Binop op.binop) op.value :=
  lanewise_map8x8 denotes_arith

theorem lanewise_par2x32 (op : LaneArith) :
    Lanewise ρ .reg64 32 2 (translatePar2x32Binop op.binop) op.value :=
  lanewise_map2x32 denotes_arith

theorem lanewise_minmax8x8 (s m : Bool) :
    Lanewise ρ .reg64 8 8 (translateMinmax8x8 (lessOp s) m)
      (minmaxLane s m) :=
  lanewise_map8x8 denotes_minmax

theorem lanewise_cmpEQ8x8 : Lanewise ρ .reg64 8 8 translateCmpEQ8x8
    fun x y => maskLane 8 (x == y) :=
  lanewise_map8x8 fun ha hb => denotes_mask (ha.eq hb) .reg8

theorem lanewise_cmpEQ32x2 : Lanewise ρ .reg64 32 2 translateCmpEQ32x2
    fun x y => maskLane 32 (x == y) :=
  lanewise_map2x32 fun ha hb => denotes_mask (ha.eq hb) .reg32

theorem lanewise_cmpGT8Sx8 : Lanewise ρ .reg64 8 8 translateCmpGT8Sx8
    fun x y => maskLane 8 (y.slt x) :=
  lanewise_map8x8 fun ha hb => denotes_mask (hb.slt ha) .reg8

theorem lanewise_cmpGT32Sx2 : Lanewise ρ .reg64 32 2 translateCmpGT32Sx2
    fun x y => maskLane 32 (y.slt x) :=
  lanewise_map2x32 fun ha hb => denotes_mask (hb.slt ha) .reg32

theorem hasLanes128_qNarrowBin {a b : Exp128} {x y : BitVec 128}
    (ha : DenotesWords ρ a x) (hb : DenotesWords ρ b y) :
    HasLanes128 ρ (translateQNarrowBin16Sto8Ux16 a b) 8 16 fun i =>
      if i < 8 then narrowLane (Bits.lane 16 y i)
      else narrowLane (Bits.lane 16 x (i - 8)) := by
  obtain ⟨v, z, hz, hhigh⟩ := hasLanes_qNarrow16Sto8Ux8 ha
  obtain ⟨v', z', hz', hlow⟩ := hasLanes_qNarrow16Sto8Ux8 hb
  apply hasLanes128_vector (n := 8) (m := 8) rfl
  · refine ⟨v, z, hz, fun i hi => ?_⟩
    have hnot : ¬ 8 + i < 8 := by omega
    simpa [hnot] using hhigh i hi
  · refine ⟨v', z', hz', fun i hi => ?_⟩
    simpa [hi] using hlow i hi

theorem simd_codeLane (op : SimdOp) {a : Packed op.left} {b : Packed op.right}
    {x : BitVec op.left.width} {y : BitVec op.right.width}
    (ha : DenotesPacked ρ op.left a x) (hb : DenotesPacked ρ op.right b y) :
    op.Translates ρ a b (op.codeLane x y) := by
  cases op with
  | par4x8 op => exact (lanewise_map4x8 denotes_arith).packed ha hb
  | par8x8 op => exact (lanewise_par8x8 op).packed ha hb
  | par16x8 op => exact lanewise_mapVector rfl (lanewise_par8x8 op) ha hb
  | par2x32 op => exact (lanewise_par2x32 op).packed ha hb
  | par4x32 op => exact lanewise_mapVector rfl (lanewise_par2x32 op) ha hb
  | par2x64 op =>
    exact lanewise_mapVector rfl (lanewise_one rfl denotes_arith) ha hb
  | halving4x8 op s => exact (lanewise_map4x8 denotes_halvingBinop8).packed ha hb
  | saturating4x8 op s =>
    exact (lanewise_map4x8 denotes_saturatingBinop8).packed ha hb
  | minmax8x8 s m => exact (lanewise_minmax8x8 s m).packed ha hb
  | minmax16x8 s m => exact lanewise_mapVector rfl (lanewise_minmax8x8 s m) ha hb
  | cmpEQ8x8 => exact lanewise_cmpEQ8x8.packed ha hb
  | cmpEQ8x16 => exact lanewise_mapVector rfl lanewise_cmpEQ8x8 ha hb
  | cmpEQ32x2 => exact lanewise_cmpEQ32x2.packed ha hb
  | cmpEQ32x4 => exact lanewise_mapVector rfl lanewise_cmpEQ32x2 ha hb
  | cmpGT8Sx8 => exact lanewise_cmpGT8Sx8.packed ha hb
  | cmpGT8Sx16 => exact lanewise_mapVector rfl lanewise_cmpGT8Sx8 ha hb
  | cmpGT32Sx2 => exact lanewise_cmpGT32Sx2.packed ha hb
  | cmpGT32Sx4 => exact lanewise_mapVector rfl lanewise_cmpGT32Sx2 ha hb
  | interleaveLO8x16 => exact interleaves_8x8.onLow rfl ha hb
  | interleaveLO16x8 => exact interleaves_4x16.onLow rfl ha hb
  | interleaveLO32x4 => exact interleaves_2x32.onLow rfl ha hb
  | interleaveLO64x2 => exact interleaves_1x64.onLow rfl ha hb
  | interleaveHI8x16 => exact interleaves_8x8.onHigh rfl ha hb
  | interleaveHI16x8 => exact interleaves_4x16.onHigh rfl ha hb
  | interleaveHI32x4 => exact interleaves_2x32.onHigh rfl ha hb
  | interleaveHI64x2 => exact interleaves_1x64.onHigh rfl ha hb
  | getMSBs8x8 => exact (hasLanes_getMSBs8x8 (hasLanes_lane ha 8 8)).packed
  | getMSBs8x16 => exact (hasLanes_getMSBs8x16 ha).packed
  | vs2x32 op => exact (hasLanes_vs2x32Shift (hasLanes_lane ha 32 2) hb).packed
  | vs4x32 op => exact hasLanes_vs4x32Shift ha hb
  | vs2x64 op => exact hasLanes_vs2x64Shift ha hb
  | qNarrow16Sto8Ux8 => exact (hasLanes_qNarrow16Sto8Ux8 ha).packed
  | qNarrowBin16Sto8Ux16 => exact hasLanes128_qNarrowBin ha hb

theorem denotesPacked_unique :
    ∀ (k : PackedKind) {e : Packed k} {x y : BitVec k.width},
      DenotesPacked ρ k e x → DenotesPacked ρ k e y → x = y
  | .reg _, _, _, _, hx, hy => hx.eval.symm.trans hy.eval
  | .v128, _, _, _, hx, hy => (denotesWords_iff hy).mp hx
  | .nothing, _, x, y, _, _ => (BitVec.eq_nil x).trans (BitVec.eq_nil y).symm

theorem codeLane_iff (op : SimdOp) (x : BitVec op.left.width)
    (y : BitVec op.right.width) :
    (∀ i < op.lanes, op.codeLane x y i = op.laneValue x y i) ↔
      op.ClampsRight x y := by
  cases op with
  | saturating4x8 op s =>
    exact forall₂_congr fun i _ => codeSaturated_iff op s _ _
  | _ => exact iff_of_true (fun _ _ => rfl) trivial

theorem translates_iff (op : SimdOp) {a : Packed op.left}
    {b : Packed op.right} {x : BitVec op.left.width}
    {y : BitVec op.right.width} (ha : DenotesPacked ρ op.left a x)
    (hb : DenotesPacked ρ op.right b y) :
    op.Translates ρ a b (op.laneValue x y) ↔
      ∀ i < op.lanes, op.codeLane x y i = op.laneValue x y i := by
  obtain ⟨r, hr, hlane⟩ := simd_codeLane op ha hb
  constructor
  · rintro ⟨r', hr', hlane'⟩ i hi
    rw [← hlane i hi, denotesPacked_unique op.result hr hr', hlane' i hi]
  · intro heq
    refine ⟨r, hr, fun i hi => ?_⟩
    rw [hlane i hi, heq i hi]

theorem simd_exact (op : SimdOp) (a : Packed op.left) (b : Packed op.right)
    (x : BitVec op.left.width) (y : BitVec op.right.width)
    (ha : DenotesPacked ρ op.left a x) (hb : DenotesPacked ρ op.right b y) :
    op.Translates ρ a b (op.laneValue x y) ↔ op.ClampsRight x y :=
  (translates_iff op ha hb).trans (codeLane_iff op x y)

end Packed

/-- The signed saturating sum of zeros: every lane is -128. -/
theorem simd_misses :
    ¬ (SimdOp.saturating4x8 .plus true).Translates Valuation.zero
      (exConst 0) (exConst 0)
      ((SimdOp.saturating4x8 .plus true).laneValue (0 : BitVec 32)
        (0 : BitVec 32)) := by
  rw [translates_iff (SimdOp.saturating4x8 .plus true) (Denotes.const32 0)
    (Denotes.const32 0)]
  intro h
  have h0 := h 0 (by decide)
  revert h0
  decide +kernel

theorem simd_exact_zeros :
    (SimdOp.saturating4x8 .plus false).Translates Valuation.zero
        (exConst 0) (exConst 0)
        ((SimdOp.saturating4x8 .plus false).laneValue (0 : BitVec 32)
          (0 : BitVec 32)) ↔
      (SimdOp.saturating4x8 .plus false).ClampsRight (0 : BitVec 32)
        (0 : BitVec 32) :=
  simd_exact (SimdOp.saturating4x8 .plus false) (exConst 0) (exConst 0)
    (0 : BitVec 32) (0 : BitVec 32) (Denotes.const32 0) (Denotes.const32 0)

end Fuzzball.Asmir
