import Mathlib.Data.BitVec
import Mathlib.Tactic

/-!
# Terms of SMT-LIB over Booleans, bit vectors and arrays

The functions of the theories `Core`, `FixedSizeBitVectors` and `ArraysEx` that
a query of the logic `QF_ABV` is made of.  A term is kept as a tree: the text
`(bvadd a b)` is the tree `bvadd a b`, and a numeral `#x0f` or `#b1` is a bit
vector of the width that its digits give.  A term that is not well sorted has
no value.
-/

namespace Fuzzball.Smt

/-! ## Values -/

/-- A value of a sort; an array has indices of `m` bits. -/
inductive Value
  | bool (b : Bool)
  | bits (w : ℕ) (x : BitVec w)
  | array (m : ℕ) (a : BitVec m → Value)

/-- The two values have the same sort, which no array is asked for. -/
def Value.sameSort : Value → Value → Bool
  | .bool _, .bool _ => true
  | .bits w _, .bits w' _ => w' = w
  | _, _ => false

def Value.not : Value → Option Value
  | .bool b => some (.bool !b)
  | _ => none

/-- A function of two Booleans. -/
def Value.bools (f : Bool → Bool → Bool) : Value → Value → Option Value
  | .bool a, .bool b => some (.bool (f a b))
  | _, _ => none

def Value.eq : Value → Value → Option Value
  | .bool a, .bool b => some (.bool (a == b))
  | .bits w x, .bits w' y =>
    if w' = w then some (.bool (x == y.setWidth w)) else none
  | _, _ => none

def Value.ite : Value → Value → Value → Option Value
  | .bool c, a, b => if a.sameSort b then some (if c then a else b) else none
  | _, _, _ => none

/-- A function of one bit vector, to one of the same width. -/
def Value.map (f : ∀ w, BitVec w → BitVec w) : Value → Option Value
  | .bits w x => some (.bits w (f w x))
  | _ => none

/-- A function of two bit vectors of one width. -/
def Value.zip (f : ∀ w, BitVec w → BitVec w → Value) :
    Value → Value → Option Value
  | .bits w x, .bits w' y =>
    if w' = w then some (f w x (y.setWidth w)) else none
  | _, _ => none

def Value.concat : Value → Value → Option Value
  | .bits m x, .bits n y => some (.bits (m + n) (x ++ y))
  | _, _ => none

/-- The bits from `j` up to `i`, where these are bits of the vector. -/
def Value.extract (i j : ℤ) : Value → Option Value
  | .bits w x =>
    if 0 ≤ j ∧ j ≤ i ∧ i < w then
      some (.bits (i - j + 1).toNat
        ((x >>> j.toNat).setWidth (i - j + 1).toNat))
    else none
  | _ => none

def Value.signExtend (k : ℕ) : Value → Option Value
  | .bits w x => some (.bits (w + k) (x.signExtend (w + k)))
  | _ => none

def Value.select : Value → Value → Option Value
  | .array m a, .bits w x => if w = m then some (a (x.setWidth m)) else none
  | _, _ => none

/-! ## Functions -/

inductive BoolOp
  | and
  | or
  | xor
  deriving DecidableEq, Repr

def BoolOp.apply : BoolOp → Bool → Bool → Bool
  | .and, a, b => a && b
  | .or, a, b => a || b
  | .xor, a, b => a ^^ b

inductive BvOp
  | bvadd
  | bvsub
  | bvmul
  | bvudiv
  | bvsdiv
  | bvurem
  | bvsrem
  | bvand
  | bvor
  | bvxor
  | bvshl
  | bvlshr
  | bvashr
  deriving DecidableEq, Repr

/-- The functions on bit vectors, with the answers of the standard where the
divisor is zero. -/
def BvOp.apply {w : ℕ} : BvOp → BitVec w → BitVec w → BitVec w
  | .bvadd, x, y => x + y
  | .bvsub, x, y => x - y
  | .bvmul, x, y => x * y
  | .bvudiv, x, y => x.smtUDiv y
  | .bvsdiv, x, y => x.smtSDiv y
  | .bvurem, x, y => x % y
  | .bvsrem, x, y => x.srem y
  | .bvand, x, y => x &&& y
  | .bvor, x, y => x ||| y
  | .bvxor, x, y => x ^^^ y
  | .bvshl, x, y => x <<< y.toNat
  | .bvlshr, x, y => x >>> y.toNat
  | .bvashr, x, y => x.sshiftRight y.toNat

inductive BvRel
  | bvult
  | bvule
  | bvslt
  | bvsle
  deriving DecidableEq, Repr

def BvRel.apply {w : ℕ} : BvRel → BitVec w → BitVec w → Bool
  | .bvult, x, y => x.ult y
  | .bvule, x, y => x.ule y
  | .bvslt, x, y => x.slt y
  | .bvsle, x, y => x.sle y

/-! ## Terms -/

inductive Term (σ : Type*)
  | bool (b : Bool)
  | numeral (w : ℕ) (x : BitVec w)
  | symbol (s : σ)
  | not (a : Term σ)
  | boolOp (op : BoolOp) (a b : Term σ)
  | eq (a b : Term σ)
  | ite (c a b : Term σ)
  | bvneg (a : Term σ)
  | bvnot (a : Term σ)
  | bvOp (op : BvOp) (a b : Term σ)
  | bvRel (op : BvRel) (a b : Term σ)
  | concat (a b : Term σ)
  | extract (i j : ℤ) (a : Term σ)
  | signExtend (k : ℕ) (a : Term σ)
  | select (a i : Term σ)
  | letIn (s : σ) (rhs body : Term σ)

/-- What the symbols stand for. -/
abbrev Env (σ : Type*) := σ → Option Value

variable {σ : Type*} [DecidableEq σ]

/-- The environment in the scope of a `let`. -/
def Env.bind (env : Env σ) (s : σ) (x : Value) : Env σ :=
  Function.update env s (some x)

/-- The value of a term, where it is well sorted. -/
@[simp] def Term.denote : Term σ → Env σ → Option Value
  | .bool b, _ => some (.bool b)
  | .numeral w x, _ => some (.bits w x)
  | .symbol s, env => env s
  | .not a, env => do (← a.denote env).not
  | .boolOp op a b, env => do
      Value.bools op.apply (← a.denote env) (← b.denote env)
  | .eq a b, env => do (← a.denote env).eq (← b.denote env)
  | .ite c a b, env => do
      (← c.denote env).ite (← a.denote env) (← b.denote env)
  | .bvneg a, env => do (← a.denote env).map fun _ x => -x
  | .bvnot a, env => do (← a.denote env).map fun _ x => ~~~x
  | .bvOp op a b, env => do
      Value.zip (fun w x y => .bits w (op.apply x y)) (← a.denote env)
        (← b.denote env)
  | .bvRel op a b, env => do
      Value.zip (fun _ x y => .bool (op.apply x y)) (← a.denote env)
        (← b.denote env)
  | .concat a b, env => do (← a.denote env).concat (← b.denote env)
  | .extract i j a, env => do (← a.denote env).extract i j
  | .signExtend k a, env => do (← a.denote env).signExtend k
  | .select a i, env => do (← a.denote env).select (← i.denote env)
  | .letIn s rhs body, env => do
      let x ← rhs.denote env
      body.denote (env.bind s x)

/-! ## Values of well-sorted terms -/

@[simp] theorem Value.zip_bits (f : ∀ w, BitVec w → BitVec w → Value) {w : ℕ}
    (x y : BitVec w) :
    Value.zip f (.bits w x) (.bits w y) = some (f w x y) := by
  simp [Value.zip]

@[simp] theorem Value.zip_bool (f : ∀ w, BitVec w → BitVec w → Value) (b : Bool)
    (y : Value) : Value.zip f (.bool b) y = none := rfl

@[simp] theorem Value.eq_bits {w : ℕ} (x y : BitVec w) :
    Value.eq (.bits w x) (.bits w y) = some (.bool (x == y)) := by
  simp [Value.eq]

theorem Value.ite_of_sameSort (c : Bool) {a b : Value} (h : a.sameSort b) :
    Value.ite (.bool c) a b = some (if c then a else b) := if_pos h

/-- A single bit compared with a digit. -/
theorem Value.extract_bit {w k : ℕ} (x : BitVec w) (hk : k < w) :
    Value.extract k k (.bits w x) =
      some (.bits 1 ((x >>> k).setWidth 1)) := by
  have hin : (0 : ℤ) ≤ k ∧ (k : ℤ) ≤ k ∧ (k : ℤ) < w := by omega
  rw [Value.extract, if_pos hin, sub_self, Int.toNat_natCast]
  rfl

theorem Value.extract_bits {w m j : ℕ} (x : BitVec w) (hm : 0 < m)
    (hw : j + m ≤ w) :
    Value.extract (j + m - 1 : ℤ) j (.bits w x) =
      some (.bits m ((x >>> j).setWidth m)) := by
  have hin : (0 : ℤ) ≤ j ∧ (j : ℤ) ≤ j + m - 1 ∧ (j + m - 1 : ℤ) < w := by
    omega
  have hwidth : ((j : ℤ) + m - 1 - j + 1).toNat = m := by omega
  rw [Value.extract, if_pos hin, Int.toNat_natCast, hwidth]

end Fuzzball.Smt
