import Fuzzball.ExprTemps
import Fuzzball.SmtNames
import Fuzzball.SmtTerms

/-!
# The translation of expressions to SMT-LIB

`translate_exp` of `smt_lib2.ml` on expressions without floating point.  The
printer gives a variable one symbol for as long as it lives (`var2s_of_mem`),
so the translation takes the variables that have been presented to it.  The
operand types come from `infer_type_fast`, which tosses a coin, and the forms
that are matched deeper than one constructor are recognised by functions of
their own.
-/

namespace Fuzzball.SmtLib

open Vine

abbrev Query := Smt.Term OString

/-! ## Symbols -/

/-- `tr_var`, without the bars of a quoted symbol. -/
def trVar (vs : List Var) (v : Var) : OString :=
  symbol (renameVar (printedName vs v))

theorem firstNum_eq_none {vs : List Var} {name : OString} :
    firstNum vs name = none ↔ ∀ v ∈ vs, v.name ≠ name := by
  rw [firstNum, Option.map_eq_none_iff, List.find?_eq_none]
  simp only [decide_eq_true_eq, ne_eq]

/-- A variable that has been presented keeps its text. -/
theorem var2s_of_mem {vs : List Var} {v : Var} (hv : v ∈ vs) :
    var2s (firstNum vs) v = (renameVar (printedName vs v), firstNum vs) := by
  have hfirst : firstNum vs v.name ≠ none := by
    intro h
    exact firstNum_eq_none.mp h v hv rfl
  have hsame : firstNum (vs ++ [v]) = firstNum vs := by
    funext name
    rw [firstNum_append, firstNum_singleton]
    split_ifs with hname
    · obtain ⟨first, heq⟩ := Option.ne_none_iff_exists'.mp hfirst
      rw [← hname, heq, Option.some_or]
    · exact Option.or_none
  rw [var2s_eq, hsame, printedName, printedName, hsame]

/-! ## Numerals -/

/-- `bool_of_const` on a constant. -/
def boolOfConst (i : I64) : Bool := i ≠ 0

def translateInt (t : Typ) (i : I64) : OCaml Query :=
  if t = .reg1 then pure (.bool (boolOfConst i))
  else
    match unwindType t with
    | .reg8 => pure (.numeral 8 (i.setWidth 8))
    | .reg16 => pure (.numeral 16 (i.setWidth 16))
    | .reg32 => pure (.numeral 32 (i.setWidth 32))
    | .reg64 => pure (.numeral 64 (i.setWidth 64))
    | _ => throw (.invalidArgument "Only constant integers supported")

def makeZeros (k : ℕ) : Query := .numeral k 0
def makeOnes (k : ℕ) : Query := .numeral k (BitVec.allOnes k)
def makeOne (k : ℕ) : Query := .numeral k 1

/-- `int64_ceil_log2` -/
def ceilLog2 (i : I64) : ℤ := if i = 0 then -1 else 1 + floorLog2 (i - 1)

/-! ## Operators -/

def translateUnop (uop : UnopType) (t1 : Typ) (a : Query) : Query :=
  if t1 = .reg1 then .not a
  else
    match uop with
    | .neg => .bvneg a
    | .not => .bvnot a

/-- The rows of the table of operators for `REG_1`. -/
def boolBinop : BinopType → Query → Query → Query
  | .plus, a, b => .boolOp .xor a b
  | .minus, a, b => .not (.boolOp .xor a b)
  | .times, a, b => .boolOp .and a b
  | .divide, a, b => .not (.boolOp .xor a b)
  | .sdivide, a, b => .not (.boolOp .xor a b)
  | .mod, a, b => .not (.boolOp .xor a b)
  | .smod, a, b => .not (.boolOp .xor a b)
  | .bitand, a, b => .boolOp .and a b
  | .bitor, a, b => .boolOp .or a b
  | .xor, a, b => .boolOp .xor a b
  | .eq, a, b => .not (.boolOp .xor a b)
  | .neq, a, b => .boolOp .xor a b
  | .lt, a, b => .boolOp .and (.not a) b
  | .le, a, b => .boolOp .or (.not a) b
  | .slt, a, b => .boolOp .and a (.not b)
  | .sle, a, b => .boolOp .or a (.not b)
  | .lshift, a, b => .bvOp .bvshl a b
  | .arshift, a, b => .bvOp .bvashr a b
  | .rshift, a, b => .bvOp .bvlshr a b
  | .concat, a, b => .concat a b

/-- The rows of the table for the other types. -/
def bitsBinop : BinopType → Query → Query → Query
  | .plus, a, b => .bvOp .bvadd a b
  | .minus, a, b => .bvOp .bvsub a b
  | .times, a, b => .bvOp .bvmul a b
  | .divide, a, b => .bvOp .bvudiv a b
  | .sdivide, a, b => .bvOp .bvsdiv a b
  | .mod, a, b => .bvOp .bvurem a b
  | .smod, a, b => .bvOp .bvsrem a b
  | .bitand, a, b => .bvOp .bvand a b
  | .bitor, a, b => .bvOp .bvor a b
  | .xor, a, b => .bvOp .bvxor a b
  | .eq, a, b => .eq a b
  | .neq, a, b => .not (.eq a b)
  | .lt, a, b => .bvRel .bvult a b
  | .le, a, b => .bvRel .bvule a b
  | .slt, a, b => .bvRel .bvslt a b
  | .sle, a, b => .bvRel .bvsle a b
  | .lshift, a, b => .bvOp .bvshl a b
  | .arshift, a, b => .bvOp .bvashr a b
  | .rshift, a, b => .bvOp .bvlshr a b
  | .concat, a, b => .concat a b

def translateBinop (bop : BinopType) (t : Typ) (a b : Query) : Query :=
  if t = .reg1 then boolBinop bop a b else bitsBinop bop a b

def translateCast (ct : CastType) (t t1 : Typ) (bits bits1 : ℕ) (a : Query) :
    Query :=
  if t1 = t then a
  else
    match ct with
    | .castSigned =>
      if t1 = .reg1 then .ite a (makeOnes bits) (makeZeros bits)
      else .signExtend (bits - bits1) a
    | .castLow =>
      if t = .reg1 then .eq (.numeral 1 1) (.extract (bits - 1) 0 a)
      else .extract (bits - 1) 0 a
    | .castHigh =>
      if t = .reg1 then
        .eq (.numeral 1 1) (.extract (bits1 - 1) (bits1 - bits) a)
      else .extract (bits1 - 1) (bits1 - bits) a
    | .castUnsigned =>
      if t1 = .reg1 then .ite a (makeOne bits) (makeZeros bits)
      else .concat (makeZeros (bits - bits1)) a

/-- SMT-LIB requires both shift operands to have the same size. -/
def shiftAmount (bop : BinopType) (e1 e2 : Exp) : OCaml Exp :=
  match bop with
  | .lshift | .arshift | .rshift => do
      let t ← inferType none e1
      let t2 ← inferType none e2
      let b ← bitsOfWidth t
      let b2 ← bitsOfWidth t2
      if b > b2 then pure (.cast .castUnsigned t e2)
      else if b < b2 then pure (.cast .castLow t e2)
      else pure e2
  | _ => pure e2

/-! ## Single bits -/

/-- `cast(e1 @>> k:reg8_t)L:reg1_t`, which reads bit `k`. -/
def bitRead? : Exp → Option (Exp × I64)
  | .cast .castLow .reg1 (.binOp .arshift e1 (.int .reg8 k)) => some (e1, k)
  | _ => none

def negatedBitRead? : UnopType → Exp → Option (Exp × I64)
  | .not, e => bitRead? e
  | .neg, _ => none

/-- `(= #b0 ((_ extract k k) a))`, or with `#b1`. -/
def bitIs (b : Bool) (k : I64) (a : Query) : Query :=
  .eq (.numeral 1 (BitVec.ofBool b)) (.extract k.toOCamlInt k.toOCamlInt a)

/-! ## Words put together -/

def unsignedCast? (t : Typ) : Exp → Option Exp
  | .cast .castUnsigned t' e => if t' = t then some e else none
  | _ => none

/-- `cast(e)U:t << k` -/
def shiftedCast? (t : Typ) (k : I64) : Exp → Option Exp
  | .binOp .lshift e (.int _ i) => if i = k then unsignedCast? t e else none
  | _ => none

/-- The operands of `|`. -/
def disjuncts? : Exp → Option (Exp × Exp)
  | .binOp .bitor e1 e2 => some (e1, e2)
  | _ => none

/-- The forms of `|` that have a translation of their own. -/
inductive BitorForm
  | pair (t : Typ) (e1 e2 : Exp)
  | quad (e1 e2 e3 e4 : Exp)
  | octet (e1 e2 e3 e4 e5 e6 e7 e8 : Exp)
  | choice (ty1 : Typ) (cond1 x : Exp) (ty2 : Typ) (cond2 y : Exp)

/-- Two parts, the high one of them shifted. -/
def pair? (first : Exp → Option Exp) (t part : Typ) (k : I64) (a b : Exp) :
    Option BitorForm :=
  (do
    let e1 ← first a
    let e2 ← shiftedCast? t k b
    pure (.pair part e1 e2)) <|>
  (do
    let e2 ← shiftedCast? t k a
    let e1 ← unsignedCast? t b
    pure (.pair part e1 e2))

def pair16? : Exp → Exp → Option BitorForm :=
  pair? (fun a => unsignedCast? .reg16 a <|> shiftedCast? .reg16 0 a) .reg16
    .reg8 8

def pair32? : Exp → Exp → Option BitorForm :=
  pair? (unsignedCast? .reg32) .reg32 .reg16 16

def pair64? : Exp → Exp → Option BitorForm :=
  pair? (unsignedCast? .reg64) .reg64 .reg32 32

def quad? (a b : Exp) : Option BitorForm :=
  (do
    let (c, a3) ← disjuncts? a
    let (a1, a2) ← disjuncts? c
    let e1 ← shiftedCast? .reg32 0 a1
    let e2 ← shiftedCast? .reg32 8 a2
    let e3 ← shiftedCast? .reg32 16 a3
    let e4 ← shiftedCast? .reg32 24 b
    pure (.quad e1 e2 e3 e4)) <|>
  (do
    let (a1, a2) ← disjuncts? a
    let (a3, a4) ← disjuncts? b
    let e1 ← unsignedCast? .reg32 a1
    let e2 ← shiftedCast? .reg32 8 a2
    let e3 ← shiftedCast? .reg32 16 a3
    let e4 ← shiftedCast? .reg32 24 a4
    pure (.quad e1 e2 e3 e4)) <|>
  (do
    let e1 ← unsignedCast? .reg32 a
    let (a2, c) ← disjuncts? b
    let (a3, a4) ← disjuncts? c
    let e2 ← shiftedCast? .reg32 8 a2
    let e3 ← shiftedCast? .reg32 16 a3
    let e4 ← shiftedCast? .reg32 24 a4
    pure (.quad e1 e2 e3 e4))

def octet? (a b : Exp) : Option BitorForm := do
  let (c7, a7) ← disjuncts? a
  let (c6, a6) ← disjuncts? c7
  let (c5, a5) ← disjuncts? c6
  let (c4, a4) ← disjuncts? c5
  let (c3, a3) ← disjuncts? c4
  let (a1, a2) ← disjuncts? c3
  let e1 ← shiftedCast? .reg64 0 a1
  let e2 ← shiftedCast? .reg64 8 a2
  let e3 ← shiftedCast? .reg64 16 a3
  let e4 ← shiftedCast? .reg64 24 a4
  let e5 ← shiftedCast? .reg64 32 a5
  let e6 ← shiftedCast? .reg64 40 a6
  let e7 ← shiftedCast? .reg64 48 a7
  let e8 ← shiftedCast? .reg64 56 b
  pure (.octet e1 e2 e3 e4 e5 e6 e7 e8)

def choice? : Exp → Exp → Option BitorForm
  | .binOp .bitand (.cast .castSigned ty1 cond1) x,
    .binOp .bitand (.unOp .not (.cast .castSigned ty2 cond2)) y =>
    some (.choice ty1 cond1 x ty2 cond2 y)
  | _, _ => none

def bitorForm? : BinopType → Exp → Exp → Option BitorForm
  | .bitor, a, b =>
    pair16? a b <|> pair32? a b <|> pair64? a b <|> quad? a b <|>
      octet? a b <|> choice? a b
  | _, _, _ => none

/-- The guard on the types of the parts. -/
def allOfType (coin : Exp → Bool) (t : Typ) : List Exp → OCaml Bool
  | [] => pure true
  | e :: es => do
      if (← inferTypeFast coin e) = t then allOfType coin t es else pure false

/-- The guard of a choice. -/
def isChoice (coin : Exp → Bool) (ty1 : Typ) (cond1 : Exp) (ty2 : Typ)
    (cond2 : Exp) : OCaml Bool :=
  if ty1 = ty2 ∧ cond1 = cond2 then do
    pure (decide ((← inferTypeFast coin cond1) = .reg1))
  else pure false

/-- The guard of a form. -/
def BitorForm.guard (coin : Exp → Bool) : BitorForm → OCaml Bool
  | .pair t e1 e2 => allOfType coin t [e1, e2]
  | .quad e1 e2 e3 e4 => allOfType coin .reg8 [e1, e2, e3, e4]
  | .octet e1 e2 e3 e4 e5 e6 e7 e8 =>
    allOfType coin .reg8 [e1, e2, e3, e4, e5, e6, e7, e8]
  | .choice ty1 cond1 _ ty2 cond2 _ => isChoice coin ty1 cond1 ty2 cond2

/-! ## A measure -/

/-- A measure that counts an operation more than a cast of an operand. -/
def weight : Exp → ℕ
  | .binOp _ e1 e2 => weight e1 + weight e2 + 2
  | .unOp _ e1 => weight e1 + 1
  | .mem _ addr _ => weight addr + 1
  | .cast _ _ e1 => weight e1 + 1
  | .letTemp _ e1 e2 => weight e1 + weight e2 + 1
  | .ite cond e1 e2 => weight cond + weight e1 + weight e2 + 1
  | _ => 1

/-- The expressions that a form translates. -/
def BitorForm.parts : BitorForm → List Exp
  | .pair _ e1 e2 => [e1, e2]
  | .quad e1 e2 e3 e4 => [e1, e2, e3, e4]
  | .octet e1 e2 e3 e4 e5 e6 e7 e8 => [e1, e2, e3, e4, e5, e6, e7, e8]
  | .choice _ cond1 x _ _ y => [cond1, x, y]

theorem weight_bitRead? {e x : Exp} {k : I64} (h : bitRead? e = some (x, k)) :
    weight x < weight e := by
  unfold bitRead? at h
  split at h
  · cases h
    simp only [weight]
    omega
  · cases h

theorem weight_negatedBitRead? {op : UnopType} {e x : Exp} {k : I64}
    (h : negatedBitRead? op e = some (x, k)) : weight x < weight e := by
  cases op with
  | neg => cases h
  | not => exact weight_bitRead? h

theorem weight_shiftAmount {op : BinopType} {e1 e2 e : Exp}
    (h : shiftAmount op e1 e2 = .ok e) : weight e ≤ weight e2 + 1 := by
  have hself : (pure e2 : OCaml Exp) = .ok e → weight e ≤ weight e2 + 1 := by
    intro heq
    cases heq
    exact Nat.le_succ _
  cases op with
  | lshift | arshift | rshift =>
    simp only [shiftAmount, OCaml.bind_eq_ok_iff] at h
    obtain ⟨t, -, t2, -, b, -, b2, -, h⟩ := h
    split_ifs at h
    · cases h
      exact le_rfl
    · cases h
      exact le_rfl
    · exact hself h
  | _ => exact hself h

/-! ## What the recognisers recognise -/

theorem unsignedCast?_eq_some {t : Typ} {e x : Exp}
    (h : unsignedCast? t e = some x) : e = .cast .castUnsigned t x := by
  unfold unsignedCast? at h
  split at h
  · split_ifs at h with ht
    cases h
    rw [ht]
  · cases h

theorem shiftedCast?_eq_some {t : Typ} {k : I64} {e x : Exp}
    (h : shiftedCast? t k e = some x) :
    ∃ ty, e = .binOp .lshift (.cast .castUnsigned t x) (.int ty k) := by
  unfold shiftedCast? at h
  split at h
  · rename_i e1 ty i
    split_ifs at h with hi
    exact ⟨ty, by rw [hi, unsignedCast?_eq_some h]⟩
  · cases h

theorem disjuncts?_eq_some {e x y : Exp} (h : disjuncts? e = some (x, y)) :
    e = .binOp .bitor x y := by
  unfold disjuncts? at h
  split at h
  · cases h
    rfl
  · cases h

/-- The expression is the disjunction of the parts, each cast to `t` and
shifted by its offset. -/
inductive Pieces (t : Typ) : Exp → List (I64 × Exp) → Prop
  | cast (x : Exp) : Pieces t (.cast .castUnsigned t x) [(0, x)]
  | shift (x : Exp) (ty : Typ) (k : I64) :
    Pieces t (.binOp .lshift (.cast .castUnsigned t x) (.int ty k)) [(k, x)]
  | or {a b : Exp} {l l' : List (I64 × Exp)} :
    Pieces t a l → Pieces t b l' → Pieces t (.binOp .bitor a b) (l ++ l')

section Recognised

variable {t part : Typ} {k : I64} {a b x y : Exp} {form : BitorForm}

theorem Pieces.of_unsignedCast? (h : unsignedCast? t a = some x) :
    Pieces t a [(0, x)] := by
  rw [unsignedCast?_eq_some h]
  exact .cast x

theorem Pieces.of_shiftedCast? (h : shiftedCast? t k a = some x) :
    Pieces t a [(k, x)] := by
  obtain ⟨ty, rfl⟩ := shiftedCast?_eq_some h
  exact .shift x ty k

theorem Pieces.of_disjuncts? {c : Exp} {l l' : List (I64 × Exp)}
    (h : disjuncts? c = some (a, b)) (ha : Pieces t a l) (hb : Pieces t b l') :
    Pieces t c (l ++ l') := by
  rw [disjuncts?_eq_some h]
  exact .or ha hb

theorem of_orElse_eq_some {α : Type} {o o' : Option α} {r : α}
    (h : (o <|> o') = some r) : o = some r ∨ o' = some r := by
  cases o with
  | none => exact .inr h
  | some y => exact .inl h

theorem pieces_pair? {first : Exp → Option Exp}
    (hfirst : ∀ {a x}, first a = some x → Pieces t a [(0, x)])
    (h : pair? first t part k a b = some form) :
    ∃ e1 e2, form = .pair part e1 e2 ∧
      ∃ l, Pieces t (.binOp .bitor a b) l ∧ l.Perm [(0, e1), (k, e2)] := by
  rcases of_orElse_eq_some h with h | h
  · simp only [Option.bind_eq_bind, Option.bind_eq_some_iff] at h
    obtain ⟨e1, h1, e2, h2, h⟩ := h
    exact ⟨e1, e2, (Option.some.inj h).symm, _,
      .or (hfirst h1) (.of_shiftedCast? h2), .refl _⟩
  · simp only [Option.bind_eq_bind, Option.bind_eq_some_iff] at h
    obtain ⟨e2, h2, e1, h1, h⟩ := h
    exact ⟨e1, e2, (Option.some.inj h).symm, _,
      .or (.of_shiftedCast? h2) (.of_unsignedCast? h1), .swap _ _ _⟩

theorem pieces_quad? (h : quad? a b = some form) :
    ∃ e1 e2 e3 e4, form = .quad e1 e2 e3 e4 ∧
      Pieces .reg32 (.binOp .bitor a b)
        [(0, e1), (8, e2), (16, e3), (24, e4)] := by
  rcases of_orElse_eq_some h with h | h
  · simp only [Option.bind_eq_bind, Option.bind_eq_some_iff, Prod.exists] at h
    obtain ⟨c, a3, hc, a1, a2, ha, e1, h1, e2, h2, e3, h3, e4, h4, h⟩ := h
    have hlow : Pieces .reg32 c [(0, e1), (8, e2)] :=
      .of_disjuncts? ha (.of_shiftedCast? h1) (.of_shiftedCast? h2)
    exact ⟨e1, e2, e3, e4, (Option.some.inj h).symm,
      .or (.of_disjuncts? hc hlow (.of_shiftedCast? h3)) (.of_shiftedCast? h4)⟩
  rcases of_orElse_eq_some h with h | h
  · simp only [Option.bind_eq_bind, Option.bind_eq_some_iff, Prod.exists] at h
    obtain ⟨a1, a2, ha, a3, a4, hb, e1, h1, e2, h2, e3, h3, e4, h4, h⟩ := h
    exact ⟨e1, e2, e3, e4, (Option.some.inj h).symm,
      .or (.of_disjuncts? ha (.of_unsignedCast? h1) (.of_shiftedCast? h2))
        (.of_disjuncts? hb (.of_shiftedCast? h3) (.of_shiftedCast? h4))⟩
  · simp only [Option.bind_eq_bind, Option.bind_eq_some_iff, Prod.exists] at h
    obtain ⟨e1, h1, a2, c, hb, a3, a4, hc, e2, h2, e3, h3, e4, h4, h⟩ := h
    have hhigh : Pieces .reg32 c [(16, e3), (24, e4)] :=
      .of_disjuncts? hc (.of_shiftedCast? h3) (.of_shiftedCast? h4)
    exact ⟨e1, e2, e3, e4, (Option.some.inj h).symm,
      .or (.of_unsignedCast? h1)
        (.of_disjuncts? hb (.of_shiftedCast? h2) hhigh)⟩

theorem pieces_octet? (h : octet? a b = some form) :
    ∃ e1 e2 e3 e4 e5 e6 e7 e8, form = .octet e1 e2 e3 e4 e5 e6 e7 e8 ∧
      Pieces .reg64 (.binOp .bitor a b)
        [(0, e1), (8, e2), (16, e3), (24, e4), (32, e5), (40, e6), (48, e7),
          (56, e8)] := by
  obtain ⟨⟨c7, a7⟩, h7, h⟩ := Option.bind_eq_some_iff.mp h
  obtain ⟨⟨c6, a6⟩, h6, h⟩ := Option.bind_eq_some_iff.mp h
  obtain ⟨⟨c5, a5⟩, h5, h⟩ := Option.bind_eq_some_iff.mp h
  obtain ⟨⟨c4, a4⟩, h4, h⟩ := Option.bind_eq_some_iff.mp h
  obtain ⟨⟨c3, a3⟩, h3, h⟩ := Option.bind_eq_some_iff.mp h
  obtain ⟨⟨a1, a2⟩, h2, h⟩ := Option.bind_eq_some_iff.mp h
  obtain ⟨e1, g1, h⟩ := Option.bind_eq_some_iff.mp h
  obtain ⟨e2, g2, h⟩ := Option.bind_eq_some_iff.mp h
  obtain ⟨e3, g3, h⟩ := Option.bind_eq_some_iff.mp h
  obtain ⟨e4, g4, h⟩ := Option.bind_eq_some_iff.mp h
  obtain ⟨e5, g5, h⟩ := Option.bind_eq_some_iff.mp h
  obtain ⟨e6, g6, h⟩ := Option.bind_eq_some_iff.mp h
  obtain ⟨e7, g7, h⟩ := Option.bind_eq_some_iff.mp h
  obtain ⟨e8, g8, h⟩ := Option.bind_eq_some_iff.mp h
  have p2 : Pieces .reg64 c3 [(0, e1), (8, e2)] :=
    .of_disjuncts? h2 (.of_shiftedCast? g1) (.of_shiftedCast? g2)
  have p3 := Pieces.of_disjuncts? h3 p2 (.of_shiftedCast? g3)
  have p4 := Pieces.of_disjuncts? h4 p3 (.of_shiftedCast? g4)
  have p5 := Pieces.of_disjuncts? h5 p4 (.of_shiftedCast? g5)
  have p6 := Pieces.of_disjuncts? h6 p5 (.of_shiftedCast? g6)
  have p7 := Pieces.of_disjuncts? h7 p6 (.of_shiftedCast? g7)
  exact ⟨e1, e2, e3, e4, e5, e6, e7, e8, (Option.some.inj h).symm,
    .or p7 (.of_shiftedCast? g8)⟩

theorem choice?_eq_some (h : choice? a b = some form) :
    ∃ ty1 cond1 x ty2 cond2 y, form = .choice ty1 cond1 x ty2 cond2 y ∧
      a = .binOp .bitand (.cast .castSigned ty1 cond1) x ∧
      b = .binOp .bitand (.unOp .not (.cast .castSigned ty2 cond2)) y := by
  unfold choice? at h
  split at h
  · exact ⟨_, _, _, _, _, _, (Option.some.inj h).symm, rfl, rfl⟩
  · cases h

/-- The word, its halves and the number of bits of a half. -/
inductive Halves : Typ → Typ → I64 → Prop
  | reg16 : Halves .reg16 .reg8 8
  | reg32 : Halves .reg32 .reg16 16
  | reg64 : Halves .reg64 .reg32 32

/-- The disjunction of `a` and `b` has the form. -/
inductive BitorForm.Of (a b : Exp) : BitorForm → Prop
  | pair {t part : Typ} {k : I64} {e1 e2 : Exp} {l : List (I64 × Exp)} :
    Halves t part k → Pieces t (.binOp .bitor a b) l →
      l.Perm [(0, e1), (k, e2)] → BitorForm.Of a b (.pair part e1 e2)
  | quad {e1 e2 e3 e4 : Exp} :
    Pieces .reg32 (.binOp .bitor a b)
      [(0, e1), (8, e2), (16, e3), (24, e4)] →
      BitorForm.Of a b (.quad e1 e2 e3 e4)
  | octet {e1 e2 e3 e4 e5 e6 e7 e8 : Exp} :
    Pieces .reg64 (.binOp .bitor a b)
      [(0, e1), (8, e2), (16, e3), (24, e4), (32, e5), (40, e6), (48, e7),
        (56, e8)] →
      BitorForm.Of a b (.octet e1 e2 e3 e4 e5 e6 e7 e8)
  | choice {ty1 ty2 : Typ} {cond1 cond2 x y : Exp} :
    a = .binOp .bitand (.cast .castSigned ty1 cond1) x →
      b = .binOp .bitand (.unOp .not (.cast .castSigned ty2 cond2)) y →
      BitorForm.Of a b (.choice ty1 cond1 x ty2 cond2 y)

theorem of_pair? {first : Exp → Option Exp} (ht : Halves t part k)
    (hfirst : ∀ {a x}, first a = some x → Pieces t a [(0, x)])
    (h : pair? first t part k a b = some form) : form.Of a b := by
  obtain ⟨e1, e2, rfl, l, hl, hperm⟩ := pieces_pair? hfirst h
  exact .pair ht hl hperm

theorem bitorForm?_eq_some {op : BinopType}
    (h : bitorForm? op a b = some form) : op = .bitor ∧ form.Of a b := by
  have hop : op = .bitor := by
    cases op <;> first | rfl | cases h
  subst hop
  refine ⟨rfl, ?_⟩
  rcases of_orElse_eq_some h with h | h
  · refine of_pair? .reg16 (fun hx => ?_) h
    rcases of_orElse_eq_some hx with hx | hx
    · exact .of_unsignedCast? hx
    · exact .of_shiftedCast? hx
  rcases of_orElse_eq_some h with h | h
  · exact of_pair? .reg32 .of_unsignedCast? h
  rcases of_orElse_eq_some h with h | h
  · exact of_pair? .reg64 .of_unsignedCast? h
  rcases of_orElse_eq_some h with h | h
  · obtain ⟨e1, e2, e3, e4, rfl, hl⟩ := pieces_quad? h
    exact .quad hl
  rcases of_orElse_eq_some h with h | h
  · obtain ⟨e1, e2, e3, e4, e5, e6, e7, e8, rfl, hl⟩ := pieces_octet? h
    exact .octet hl
  · obtain ⟨ty1, cond1, x, ty2, cond2, y, rfl, ha, hb⟩ := choice?_eq_some h
    exact .choice ha hb

end Recognised

/-! ## Expressions -/

theorem Pieces.weight_lt {t : Typ} {e : Exp} {l : List (I64 × Exp)}
    (h : Pieces t e l) : ∀ x ∈ l.map Prod.snd, weight x < weight e := by
  induction h with
  | cast x =>
    intro y hy
    rw [List.mem_singleton.mp hy]
    exact Nat.lt_succ_self _
  | shift x ty k =>
    intro y hy
    rw [List.mem_singleton.mp hy]
    simp only [weight]
    omega
  | @or a b l l' _ _ iha ihb =>
    intro y hy
    simp only [weight]
    rw [List.map_append] at hy
    rcases List.mem_append.mp hy with hy | hy
    · have := iha y hy
      omega
    · have := ihb y hy
      omega

/-- The form of the first case whose pattern and guard both hold. -/
def specialForm (coin : Exp → Bool) (bop : BinopType) (a b : Exp) :
    OCaml (Option BitorForm) :=
  match bitorForm? bop a b with
  | none => pure none
  | some form => do
    if ← form.guard coin then pure (some form) else pure none

theorem specialForm_eq_some {coin : Exp → Bool} {op : BinopType} {a b : Exp}
    {form : BitorForm} (h : specialForm coin op a b = .ok (some form)) :
    op = .bitor ∧ form.Of a b ∧ form.guard coin = .ok true := by
  unfold specialForm at h
  split at h
  · cases h
  · rename_i form' hform
    obtain ⟨g, hg, h⟩ := OCaml.bind_eq_ok_iff.mp h
    split_ifs at h with htrue
    · cases h
      obtain ⟨hop, hof⟩ := bitorForm?_eq_some hform
      exact ⟨hop, hof, htrue ▸ hg⟩
    · cases h

theorem weight_specialForm {coin : Exp → Bool} {op : BinopType} {a b : Exp}
    {form : BitorForm} (h : specialForm coin op a b = .ok (some form)) :
    ∀ e ∈ form.parts, weight e < weight (.binOp op a b) := by
  obtain ⟨rfl, hof, -⟩ := specialForm_eq_some h
  cases hof with
  | pair _ hl hperm =>
    intro e he
    exact hl.weight_lt e ((hperm.map Prod.snd).mem_iff.mpr he)
  | quad hl => exact hl.weight_lt
  | octet hl => exact hl.weight_lt
  | choice ha hb =>
    rw [ha, hb]
    simp only [BitorForm.parts, List.forall_mem_cons, weight]
    refine ⟨?_, ?_, ?_, by simp⟩ <;> omega

/-- `translate_exp`.  Floating-point operations and unknowns, which no integer
expression has, are left out. -/
@[simp] def translateExp (coin : Exp → Bool) (vs : List Var) : Exp → OCaml Query
  | .constant (.int t i) => translateInt t i
  | .constant (.str _) =>
    throw (.invalidArgument "Only integer constant types supported")
  | .temp v => pure (.symbol (trVar vs v))
  | .mem v idx loadTy =>
    match v.typ with
    | .array eltTy size =>
      if eltTy = loadTy then do
        let idxWide ← translateExp coin vs idx
        let aryWd := ceilLog2 size
        let idxTy ← inferTypeFast coin idx
        let idxExp :=
          if aryWd = (← bitsOfWidth idxTy) then idxWide
          else .extract (aryWd - 1) 0 idxWide
        pure (.select (.symbol (trVar vs v)) idxExp)
      else throw (.invalidArgument "Memory type not handled")
    | _ => throw (.invalidArgument "Memory type not handled")
  | .letTemp v rhs body => do
      let rhsS ← translateExp coin vs rhs
      let bodyS ← translateExp coin vs body
      pure (.letIn (trVar vs v) rhsS bodyS)
  | .letMem _ _ _ _ _ =>
    throw (.failure
      "Memory let expression translation to SMT-LIB2 not supported")
  | .unOp uop e1 =>
    match _h : negatedBitRead? uop e1 with
    | some (x, k) => bitIs false k <$> translateExp coin vs x
    | none => do
      let t ← inferTypeFast coin e1
      translateUnop uop t <$> translateExp coin vs e1
  | .ite cond x y => do
      let c ← translateExp coin vs cond
      let a ← translateExp coin vs x
      let b ← translateExp coin vs y
      pure (.ite c a b)
  | .binOp bop e1 e2 =>
    match _h : specialForm coin bop e1 e2 with
    | .error r => throw r
    | .ok (some (.pair _ x1 x2)) => do
      let a1 ← translateExp coin vs x1
      let a2 ← translateExp coin vs x2
      pure (.concat a2 a1)
    | .ok (some (.quad x1 x2 x3 x4)) => do
      let a1 ← translateExp coin vs x1
      let a2 ← translateExp coin vs x2
      let a3 ← translateExp coin vs x3
      let a4 ← translateExp coin vs x4
      pure (.concat (.concat a4 a3) (.concat a2 a1))
    | .ok (some (.octet x1 x2 x3 x4 x5 x6 x7 x8)) => do
      let a1 ← translateExp coin vs x1
      let a2 ← translateExp coin vs x2
      let a3 ← translateExp coin vs x3
      let a4 ← translateExp coin vs x4
      let a5 ← translateExp coin vs x5
      let a6 ← translateExp coin vs x6
      let a7 ← translateExp coin vs x7
      let a8 ← translateExp coin vs x8
      pure (.concat (.concat (.concat a8 a7) (.concat a6 a5))
        (.concat (.concat a4 a3) (.concat a2 a1)))
    | .ok (some (.choice _ cond1 x _ _ y)) => do
      let c ← translateExp coin vs cond1
      let a ← translateExp coin vs x
      let b ← translateExp coin vs y
      pure (.ite c a b)
    | .ok none => do
      let t ← inferTypeFast coin e1
      match _h :  shiftAmount bop e1 e2 with
      | .error r => throw r
      | .ok e2' =>
        let a ← translateExp coin vs e1
        let b ← translateExp coin vs e2'
        pure (translateBinop bop t a b)
  | .cast ct t e1 =>
    match _h : bitRead? (.cast ct t e1) with
    | some (x, k) => bitIs true k <$> translateExp coin vs x
    | none => do
      let t1 ← inferTypeFast coin e1
      let bits ← bitsOfWidth t
      let bits1 ← bitsOfWidth t1
      translateCast ct t t1 bits bits1 <$> translateExp coin vs e1
  | .name _ => throw (.invalidArgument "Names should be here")
  | .fbinOp _ _ _ _ | .funOp _ _ _ | .fcast _ _ _ _ | .unknown _ =>
    throw .floatingPoint
termination_by e => weight e
decreasing_by
  all_goals first
    | exact weight_specialForm _h _ (by simp [BitorForm.parts])
    | exact weight_bitRead? _h
    | exact (weight_negatedBitRead? _h).trans (Nat.lt_succ_self _)
    | have := weight_shiftAmount _h
      simp only [weight]
      omega
    | simp only [weight]
      omega

/-! ## Equations of the translation -/

/-- What is printed for a recognised disjunction. -/
@[simp] def BitorForm.translate (tr : Exp → OCaml Query) : BitorForm → OCaml Query
  | .pair _ x1 x2 => do
    let a1 ← tr x1
    let a2 ← tr x2
    pure (.concat a2 a1)
  | .quad x1 x2 x3 x4 => do
    let a1 ← tr x1
    let a2 ← tr x2
    let a3 ← tr x3
    let a4 ← tr x4
    pure (.concat (.concat a4 a3) (.concat a2 a1))
  | .octet x1 x2 x3 x4 x5 x6 x7 x8 => do
    let a1 ← tr x1
    let a2 ← tr x2
    let a3 ← tr x3
    let a4 ← tr x4
    let a5 ← tr x5
    let a6 ← tr x6
    let a7 ← tr x7
    let a8 ← tr x8
    pure (.concat (.concat (.concat a8 a7) (.concat a6 a5))
      (.concat (.concat a4 a3) (.concat a2 a1)))
  | .choice _ cond1 x _ _ y => do
    let c ← tr cond1
    let a ← tr x
    let b ← tr y
    pure (.ite c a b)

section Equations

variable {coin : Exp → Bool} {vs : List Var} {e1 e2 x : Exp} {k : I64}

theorem translateExp_negatedBitRead {uop : UnopType}
    (h : negatedBitRead? uop e1 = some (x, k)) :
    translateExp coin vs (.unOp uop e1) =
      bitIs false k <$> translateExp coin vs x := by
  rw [translateExp]
  split
  · rename_i h'
    rw [h] at h'
    cases h'
    rfl
  · rename_i h'
    rw [h] at h'
    cases h'

theorem translateExp_unOp {uop : UnopType} (h : negatedBitRead? uop e1 = none) :
    translateExp coin vs (.unOp uop e1) = (do
      let t ← inferTypeFast coin e1
      translateUnop uop t <$> translateExp coin vs e1) := by
  rw [translateExp]
  split
  · rename_i h'
    rw [h] at h'
    cases h'
  · rfl

theorem translateExp_bitRead {ct : CastType} {t : Typ}
    (h : bitRead? (.cast ct t e1) = some (x, k)) :
    translateExp coin vs (.cast ct t e1) =
      bitIs true k <$> translateExp coin vs x := by
  rw [translateExp]
  split
  · rename_i h'
    rw [h] at h'
    cases h'
    rfl
  · rename_i h'
    rw [h] at h'
    cases h'

theorem translateExp_cast {ct : CastType} {t : Typ}
    (h : bitRead? (.cast ct t e1) = none) :
    translateExp coin vs (.cast ct t e1) = (do
      let t1 ← inferTypeFast coin e1
      let bits ← bitsOfWidth t
      let bits1 ← bitsOfWidth t1
      translateCast ct t t1 bits bits1 <$> translateExp coin vs e1) := by
  rw [translateExp]
  split
  · rename_i h'
    rw [h] at h'
    cases h'
  · rfl

theorem translateExp_form {bop : BinopType} {form : BitorForm}
    (h : specialForm coin bop e1 e2 = .ok (some form)) :
    translateExp coin vs (.binOp bop e1 e2) =
      form.translate (translateExp coin vs) := by
  rw [translateExp]
  split
  all_goals
    rename_i h'
    rw [h] at h'
    cases h'
  all_goals rfl

theorem translateExp_operator {bop : BinopType}
    (h : specialForm coin bop e1 e2 = .ok none) :
    translateExp coin vs (.binOp bop e1 e2) = (do
      let t ← inferTypeFast coin e1
      let e2' ← shiftAmount bop e1 e2
      let a ← translateExp coin vs e1
      let b ← translateExp coin vs e2'
      pure (translateBinop bop t a b)) := by
  rw [translateExp]
  split
  case h_6 =>
    refine bind_congr fun t => ?_
    split
    all_goals
      rename_i h'
      rw [h']
      rfl
  all_goals
    rename_i h'
    rw [h] at h'
    cases h'

end Equations

end Fuzzball.SmtLib
