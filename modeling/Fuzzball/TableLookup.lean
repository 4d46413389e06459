import Fuzzball.AddressStrides
import Fuzzball.FormulaManagerState
import Fuzzball.StatefulExceptions

/-!
# Table lookups

`make_table_lookup` of `formula_manager.ml` over the symbolic domain.  A table
that is linear over GF(2) is read by the exclusive or of the entries at the
powers of two, any other one by a tree of conditionals on the bits of the
index.
-/

namespace Fuzzball.Vine

/-- `expr_size` -/
def exprSize : Exp → ℕ
  | .binOp _ e1 e2 => 1 + exprSize e1 + exprSize e2
  | .fbinOp _ _ e1 e2 => 1 + exprSize e1 + exprSize e2
  | .unOp _ e1 => 1 + exprSize e1
  | .funOp _ _ e1 => 1 + exprSize e1
  | .constant _ => 1
  | .temp _ => 2
  | .mem _ e1 _ => 2 + exprSize e1
  | .name _ => 1
  | .cast _ _ e1 => 1 + exprSize e1
  | .fcast _ _ _ e1 => 1 + exprSize e1
  | .unknown _ => 1
  | .letTemp _ e1 e2 => 2 + exprSize e1 + exprSize e2
  | .letMem _ e0 _ e1 e2 => 2 + exprSize e0 + exprSize e1 + exprSize e2
  | .ite ce te fe => 1 + exprSize ce + exprSize te + exprSize fe

def xorjoin : List Exp → Exp
  | [] => expFalse
  | e :: el => el.foldl (fun a b => .binOp .xor a b) e

end Fuzzball.Vine

namespace Fuzzball.FormulaManager

open Vine

/-! ## Lists -/

def nthTail {α : Type} : ℤ → List α → OCaml (List α)
  | 0, l => pure l
  | _, [] => throw (.failure "List too short in nth_tail")
  | n, _ :: l => nthTail (n - 1) l

/-- `List.nth` -/
def listNth {α : Type} (l : List α) (n : ℤ) : OCaml α :=
  if n < 0 then throw (.invalidArgument "List.nth")
  else match l[n.toNat]? with
    | some x => pure x
    | none => throw (.failure "nth")

/-! ## The manager -/

variable {M : Marshal}

/-- The manager's options and what it calls to simplify an expression. -/
structure Lookup (M : Marshal) where
  options : Options
  optTExprSize : ℤ
  strict : Bool
  wild : ℤ → ℤ → ℤ
  coin : Exp → Bool
  constantFoldRec : Exp → OCaml Exp
  simplifyExp : Exp → FM symbolicDomain M Exp

inductive ConcreteExn
  | notConcrete (e : Exp)
  | raised (x : Exn)

def ofOCaml {α : Type} : OCaml α → FM symbolicDomain M α
  | .ok a => pure a
  | .error x => throw x

/-- The trees made before, by the number of the table and the index. -/
abbrev TableTreesCache := ℤ × Exp → Option Exp

/-- The value of bit `n`. -/
def bitOf (e : Exp) (n : ℕ) : Exp :=
  .cast .castLow .reg1 (.binOp .rshift e (.int .reg8 (.ofNat 64 n)))

def buildFromSpine : I64 → List I64 → ℕ → I64
  | x, [], _ => x
  | x, m :: rest, n =>
    let next := if n &&& 1 = 1 then x ^^^ m else x
    buildFromSpine next rest (n >>> 1)

def checkLoop (spine : List I64) : List I64 → ℕ → Bool
  | [], _ => true
  | x :: rest, i =>
    if x ≠ buildFromSpine 0 spine i then false else checkLoop spine rest (i + 1)

def termLoop (ty : Typ) : List I64 → Exp → ℕ → List Exp
  | [], _, _ => []
  | m :: rest, e, n =>
    let wideE := .cast .castSigned ty (bitOf e n)
    .binOp .bitand wideE (.int ty m) :: termLoop ty rest e (n + 1)

namespace Lookup

variable (L : Lookup M)

def gAssert (cond : Bool) (sawAt : String) : OCaml Unit :=
  if L.strict && !cond then
    throw (.failure ("Too many errors\n.Last Straw: " ++ sawAt))
  else pure ()

def simplify (e : Exp) (ty : Typ) : FM symbolicDomain M Exp := do
  let e' ← L.simplifyExp e
  if exprSize e' < L.optTExprSize then pure e'
  else pure (.temp (← makeTempVar e' ty))

def tempify (e : Exp) (ty : Typ) : FM symbolicDomain M Exp := do
  let e2 ← L.simplifyExp e
  match e2 with
  | .constant v => pure (.constant v)
  | .temp v =>
    if (exprTemp (← get) v).isSome then pure (.temp v)
    else pure (.temp (← makeTempVar (.temp v) ty))
  | e2 => pure (.temp (← makeTempVar e2 ty))

def makeIte (condV : Exp) (ty : Typ) (vTrue vFalse : Exp) :
    FM symbolicDomain M Exp := do
  let condV' ← L.tempify condV .reg1
  let vTrue' ← L.simplify vTrue ty
  let vFalse' ← L.simplify vFalse ty
  if vTrue' = vFalse' then pure vTrue'
  else match ty with
    | .reg1 | .reg8 | .reg16 | .reg32 | .reg64 =>
      pure (.ite condV' vTrue' vFalse')
    | _ => throw (.failure "Unexpected type in make_ite")

def oneLsl (n : ℕ) : ℤ := SymRegion.lslInt L.wild 1 n

/-- The half for a clear bit is made first. -/
def lookupTree (e : Exp) (ty : Typ) : ℕ → List Exp → FM symbolicDomain M Exp
  | 0, exprList => do
    ofOCaml (L.gAssert (L.oneLsl 0 ≤ exprList.length)
      "Formula_manager.lookup_tree")
    match exprList with
    | [] => throw (.failure "hd")
    | x :: _ => pure x
  | bits + 1, exprList => do
    ofOCaml (L.gAssert (L.oneLsl (bits + 1) ≤ exprList.length)
      "Formula_manager.lookup_tree")
    let halfTwo ← ofOCaml (nthTail (L.oneLsl bits) exprList)
    let vFalse ← lookupTree e ty bits exprList
    let vTrue ← lookupTree e ty bits halfTwo
    L.makeIte (bitOf e bits) ty vTrue vFalse

/-- `to_concrete_1` to `to_concrete_64` -/
def toConcrete (ty : Typ) (e : Exp) : Except ConcreteExn I64 :=
  match L.constantFoldRec e with
  | .ok (.int t v) =>
    if t = ty then pure v
    else throw (.raised (.failure
      ("bad type in to_concrete_" ++ toString ty.width)))
  | .ok _ => throw (.notConcrete e)
  | .error x => throw (.raised x)

/-- The narrow values go through a native integer. -/
def conc (ty : Typ) (v : Exp) : Except ConcreteExn I64 :=
  match ty with
  | .reg1 | .reg8 | .reg16 => do
    pure (I64.ofInt (← L.toConcrete ty v).toOCamlInt)
  | .reg32 | .reg64 => L.toConcrete ty v
  | _ => throw (.raised (.failure "Unexpected type in table_check_gf2"))

def tableCheckGf2 (table : List Exp) (idxWd : ℕ) (ty : Typ) :
    OCaml (Option (List I64)) := do
  L.gAssert (table.length = L.oneLsl idxWd) "Formula_manager.table_check_gf2"
  match table.mapM (L.conc ty) with
  | .error (.notConcrete _) => pure none
  | .error (.raised x) => throw x
  | .ok tableConc =>
    let spine ← (List.range idxWd).mapM fun i => listNth tableConc (L.oneLsl i)
    L.gAssert (spine.length = idxWd) "Formula_manager.table_check_gf2"
    if checkLoop spine tableConc 0 then pure (some spine) else pure none

/-- The index as a temporary. -/
def indexExp (idxExp0 : Exp) : FM symbolicDomain M Exp := do
  let idxTy ← ofOCaml (inferTypeFast L.coin idxExp0)
  let idxV ← L.tempify idxExp0 idxTy
  ofOCaml (toSymbolic (D := symbolicDomain) idxV idxTy)

def makeGf2Operator (spine : List I64) (ty : Typ) (idxExp0 : Exp) :
    FM symbolicDomain M Exp := do
  let idxExp ← L.indexExp idxExp0
  L.tempify (xorjoin (termLoop ty spine idxExp 0)) ty

def tableLookupArray (tableNum : ℤ) (idxExp : Exp) (ty : Typ) :
    FM symbolicDomain M Exp := do
  let tableVar ← ofOCaml (listNth (← get).tableVars tableNum)
  L.tempify (.mem tableVar idxExp ty) ty

/-- The tree is made before the cache is looked at. -/
def tableLookupCached (cache : TableTreesCache) (table : List Exp)
    (tableNum : ℤ) (idxExp0 : Exp) (idxWd : ℕ) (ty : Typ) :
    FM symbolicDomain M (Exp × TableTreesCache) := do
  let idxExp ← L.indexExp idxExp0
  let v' ← L.tempify (← L.lookupTree idxExp ty idxWd table) ty
  if tableNum = -1 then pure (v', cache)
  else
    let cache := Function.update cache (tableNum, idxExp) (some v')
    match cache (tableNum, idxExp) with
    | some v => pure (v, cache)
    | none => pure (v', cache)

def makeTableLookup (cache : TableTreesCache) (table : List Exp)
    (idxExp : Exp) (idxWd : ℕ) (ty : Typ) :
    FM symbolicDomain M (Exp × TableTreesCache) := do
  let (tableNum, _) ← saveTable (D := symbolicDomain) L.options table ty
  match ← ofOCaml (L.tableCheckGf2 table idxWd ty) with
  | some spine => pure (← L.makeGf2Operator spine ty idxExp, cache)
  | none =>
    if L.options.tablesAsArrays then
      pure (← L.tableLookupArray tableNum idxExp ty, cache)
    else L.tableLookupCached cache table tableNum idxExp idxWd ty

end Lookup

/-! ## Values under the definitions of the temporaries -/

section Meanings

/-- In the valuation every temporary has the value of its definition. -/
def State.Reads (s : State symbolicDomain M) {μ : Type} [VineMemory μ]
    (ρ : Valuation μ) : Prop :=
  ∀ b ∈ s.tempVars, (ρ.temp b.1).setWidth b.1.typ.width =
    (M.decode b.2).eval ρ b.1.typ.width

/-- Every temporary has the type of its definition. -/
def State.Typed (s : State symbolicDomain M) : Prop :=
  ∀ b ∈ s.tempVars, (M.decode b.2).typ = b.1.typ

def State.Extends (s s' : State symbolicDomain M) : Prop :=
  s.tempVars ⊆ s'.tempVars

instance : Std.Refl (State.Extends (M := M)) := ⟨fun _ => List.Subset.refl _⟩

instance : IsTrans (State symbolicDomain M) State.Extends :=
  ⟨fun _ _ _ => List.Subset.trans⟩

variable {μ : Type} [VineMemory μ]

/-- An expression of the type whose value is given by a function of the
valuation. -/
structure Means (s : State symbolicDomain M) (t : Typ) (f : Valuation μ → ℕ)
    (e : Exp) : Prop where
  wellTyped : e.WellTyped
  typ_eq : e.typ = t
  value : ∀ ρ, s.Reads ρ → e.unsigned ρ = f ρ

variable {s s' : State symbolicDomain M} {t ty : Typ} {f g c : Valuation μ → ℕ}
  {e e' : Exp}

theorem State.Extends.reads (h : s.Extends s') {ρ : Valuation μ}
    (hρ : s'.Reads ρ) : s.Reads ρ :=
  fun b hb => hρ b (h hb)

theorem Means.mono (he : Means s t f e) (h : s.Extends s') : Means s' t f e :=
  ⟨he.wellTyped, he.typ_eq, fun ρ hρ => he.value ρ (h.reads hρ)⟩

theorem Means.congr (he : Means s t f e) (h : ∀ ρ, s.Reads ρ → f ρ = g ρ) :
    Means s t g e :=
  ⟨he.wellTyped, he.typ_eq, fun ρ hρ => (he.value ρ hρ).trans (h ρ hρ)⟩

theorem means_self (he : e.WellTyped) :
    Means s e.typ (fun ρ : Valuation μ => e.unsigned ρ) e :=
  ⟨he, rfl, fun _ _ => rfl⟩

theorem Means.isReg (he : Means s t f e) : t.IsReg :=
  he.typ_eq ▸ he.wellTyped.isReg

/-- The program returns, and what it returns has the given meaning. -/
def Builds (s : State symbolicDomain M) (x : FM symbolicDomain M Exp) (t : Typ)
    (f : Valuation μ → ℕ) : Prop :=
  Ends State.Typed State.Extends (fun _ => False) s x
    fun e s' => Means s' t f e

theorem Builds.pure (hs : s.Typed) (he : Means s t f e) :
    Builds s (Pure.pure e) t f := Ends.pure hs he

/-! ## The defined temporaries -/

/-- Encoding loses nothing, and constant folding and simplification keep types
and values. -/
structure Lookup.KeepsValues (L : Lookup M) (μ : Type) [VineMemory μ] :
    Prop where
  encode : ∀ e : Exp, e.WellTyped → ∃ c, M.encode e = .ok c ∧ M.decode c = e
  constantFoldRec : ∀ e : Exp, e.WellTyped → ∃ e',
    L.constantFoldRec e = .ok e' ∧ e'.typ = e.typ ∧
      ∀ ρ : Valuation μ, e'.unsigned ρ = e.unsigned ρ
  simplifyExp : ∀ (s : State symbolicDomain M) (e : Exp), s.Typed →
    e.WellTyped → Builds s (L.simplifyExp e) e.typ
      fun ρ : Valuation μ => e.unsigned ρ
  simplifyExp_int : ∀ (s : State symbolicDomain M) (t : Typ) (v : I64) e' s',
    (L.simplifyExp (.int t v)).run s = (.ok e', s') →
      (∃ v', e' = .constant v') ∨ ∃ u, e' = .temp u ∧ (exprTemp s' u).isSome

theorem means_temp {b : Var × M.enc} (hs : s.Typed) (hb : b ∈ s.tempVars)
    (he : Means s t f e) (hdecode : M.decode b.2 = e) :
    Means s t f (.temp b.1) := by
  have htyp : b.1.typ = t := by
    rw [← hs b hb, hdecode, he.typ_eq]
  refine ⟨?_, htyp, fun ρ hρ => ?_⟩
  · change b.1.typ.IsReg
    exact htyp ▸ he.isReg
  · rw [← he.value ρ hρ, Exp.unsigned, Exp.unsigned, Exp.width, Exp.width,
      he.typ_eq, ← htyp, ← hdecode, ← hρ b hb]
    rfl

variable {L : Lookup M}

theorem makeTempVar_means (hL : L.KeepsValues μ) (hs : s.Typed)
    (he : Means s t f e) :
    Ends State.Typed State.Extends (fun _ => False) s (makeTempVar e t)
      fun v s' => Means s' t f (.temp v) := by
  obtain ⟨enc, hencode, hdecode⟩ := hL.encode e he.wellTyped
  cases hfind : s.tempVars.find? fun b => b.2 = enc with
  | some b =>
    have hb := List.mem_of_find?_eq_some hfind
    have henc : b.2 = enc := by simpa using List.find?_some hfind
    exact Ends.of_ok (makeTempVar_known t hencode hfind) hs (refl s)
      (means_temp hs hb he (by rw [henc, hdecode]))
  | none =>
    let v : Var := ⟨s.vars.length, .ofAscii "t" ++ decimal s.tempVars.length, t⟩
    let s1 : State symbolicDomain M :=
      { s with
        vars := s.vars ++ [(v.name, t)]
        tempVars := (v, enc) :: s.tempVars }
    have hext : s.Extends s1 := List.subset_cons_self _ _
    have hs1 : s1.Typed := by
      intro b hb
      rcases List.mem_cons.mp hb with rfl | hb
      · change (M.decode enc).typ = t
        rw [hdecode, he.typ_eq]
      · exact hs b hb
    exact Ends.of_ok (makeTempVar_new t hencode hfind) hs1 hext
      (means_temp (b := (v, enc)) hs1 List.mem_cons_self (he.mono hext) hdecode)

theorem makeTempVar_builds (hL : L.KeepsValues μ) (hs : s.Typed)
    (he : Means s t f e) :
    Builds s (do pure (.temp (← makeTempVar e t))) t f :=
  (makeTempVar_means hL hs he).bind fun _ _ hs' _ hv => .pure hs' hv

theorem Lookup.simplify_builds (hL : L.KeepsValues μ) (hs : s.Typed)
    (he : Means s t f e) : Builds s (L.simplify e t) t f := by
  refine (hL.simplifyExp s e hs he.wellTyped).bind fun e' s' hs' hext he' => ?_
  have hmeans : Means s' t f e' :=
    (he.typ_eq ▸ he').congr fun ρ hρ => he.value ρ (hext.reads hρ)
  split_ifs
  · exact .pure hs' hmeans
  · exact makeTempVar_builds hL hs' hmeans

theorem Lookup.tempify_builds (hL : L.KeepsValues μ) (hs : s.Typed)
    (he : Means s t f e) : Builds s (L.tempify e t) t f := by
  refine (hL.simplifyExp s e hs he.wellTyped).bind fun e' s' hs' hext he' => ?_
  have hmeans : Means s' t f e' :=
    (he.typ_eq ▸ he').congr fun ρ hρ => he.value ρ (hext.reads hρ)
  split
  · exact .pure hs' hmeans
  · refine Ends.read_bind (Stateful.run_get s') ?_
    split_ifs
    · exact .pure hs' hmeans
    · exact makeTempVar_builds hL hs' hmeans
  · exact makeTempVar_builds hL hs' hmeans

theorem unsigned_cond {ρ : Valuation μ} (h : e.typ = .reg1) :
    e.eval ρ 1 = 1 ↔ e.unsigned ρ = 1 := by
  have hwidth : e.width = 1 := by rw [Exp.width, h]; rfl
  rw [Exp.unsigned, hwidth]
  exact BitVec.toNat_inj.symm

theorem Means.ite {cond e1 e2 : Exp} (hc : Means s .reg1 c cond)
    (h1 : Means s t f e1) (h2 : Means s t g e2) :
    Means s t (fun ρ => if c ρ = 1 then f ρ else g ρ) (.ite cond e1 e2) := by
  have htyp : e2.typ = e1.typ := h2.typ_eq.trans h1.typ_eq.symm
  refine ⟨⟨hc.wellTyped, h1.wellTyped, h2.wellTyped, hc.typ_eq, htyp⟩,
    h1.typ_eq, fun ρ hρ => ?_⟩
  rw [unsigned_ite htyp, ← hc.value ρ hρ, ← h1.value ρ hρ, ← h2.value ρ hρ]
  simp only [unsigned_cond hc.typ_eq]

theorem Lookup.makeIte_builds (hL : L.KeepsValues μ) (hs : s.Typed)
    {cond e1 e2 : Exp} (hc : Means s .reg1 c cond) (h1 : Means s t f e1)
    (h2 : Means s t g e2) :
    Builds s (L.makeIte cond t e1 e2) t
      fun ρ => if c ρ = 1 then f ρ else g ρ := by
  refine (L.tempify_builds hL hs hc).bind fun cond' s1 hs1 hext1 hc' => ?_
  refine (L.simplify_builds hL hs1 (h1.mono hext1)).bind
    fun e1' s2 hs2 hext2 h1' => ?_
  refine (L.simplify_builds hL hs2 ((h2.mono hext1).mono hext2)).bind
    fun e2' s3 hs3 hext3 h2' => ?_
  have hc3 := (hc'.mono hext2).mono hext3
  have h13 := h1'.mono hext3
  split_ifs with hsame
  · refine .pure hs3 (h13.congr fun ρ hρ => ?_)
    have hfg : f ρ = g ρ := by
      rw [← h13.value ρ hρ, ← h2'.value ρ hρ, hsame]
    rw [← hfg, ite_self]
  · have hreg := h13.isReg
    cases t with
    | reg1 | reg8 | reg16 | reg32 | reg64 =>
      exact .pure hs3 (hc3.ite h13 h2')
    | _ => exact hreg.elim

theorem Means.bitOf (he : Means s t f e) {n : ℕ} (hn : n < 256) :
    Means s .reg1 (fun ρ => f ρ / 2 ^ n % 2) (bitOf e n) := by
  have hle : Typ.reg1.width ≤ e.typ.width := he.wellTyped.isReg.width_pos
  refine ⟨⟨⟨he.wellTyped, trivial, trivial⟩, trivial, hle⟩, rfl, fun ρ hρ => ?_⟩
  have hamount : (Exp.int .reg8 (.ofNat 64 n)).unsigned ρ = n := by
    have hnat : (BitVec.ofNat 64 n).toNat = n :=
      (BitVec.toNat_ofNat n 64).trans (Nat.mod_eq_of_lt (by omega))
    rw [unsigned_int, hnat]
    exact Nat.mod_eq_of_lt hn
  rw [FormulaManager.bitOf, unsigned_castLow, unsigned_rshift, hamount,
    he.value ρ hρ]
  rfl

/-! ## The tree -/

theorem nthTail_natCast {α : Type} {n : ℕ} {l : List α} (h : n ≤ l.length) :
    nthTail n l = .ok (l.drop n) := by
  induction n generalizing l with
  | zero => cases l <;> rfl
  | succ n ih =>
    cases l with
    | nil => exact absurd h (by simp)
    | cons x l =>
      have hpred : ((n + 1 : ℕ) : ℤ) - 1 = n := by omega
      rw [nthTail, hpred, ih (by simpa using h)]
      · rfl
      · omega

theorem Lookup.oneLsl_eq {n : ℕ} (h : n < 62) : L.oneLsl n = (2 ^ n : ℕ) := by
  have hpow : (2 : ℤ) ^ n < 2 ^ 62 := pow_lt_pow_right₀ (by norm_num) h
  rw [oneLsl, SymRegion.lslInt, if_pos ⟨by omega, by omega⟩, Int.toNat_natCast,
    one_mul, OCaml.wrapInt_of_lt _ hpow, Nat.cast_pow]
  · rfl
  · have : (0 : ℤ) < 2 ^ n := by positivity
    omega

theorem Lookup.gAssert_true (sawAt : String) :
    L.gAssert true sawAt = .ok () := by
  rw [gAssert, Bool.not_true, Bool.and_false]
  rfl

theorem Lookup.guard_builds {cond : Prop} [Decidable cond] (h : cond)
    (sawAt : String) {x : FM symbolicDomain M Exp} (hx : Builds s x t f) :
    Builds s (do ofOCaml (L.gAssert cond sawAt); x) t f := by
  rw [decide_eq_true h, gAssert_true]
  exact Ends.read_bind rfl hx

/-- The entry of the table that an index selects. -/
def entryValue (table : List Exp) (k : ℕ) (ρ : Valuation μ) : ℕ :=
  (table.getD k expFalse).unsigned ρ

theorem entryValue_bit {table : List Exp} {bits k : ℕ} (ρ : Valuation μ) :
    (if k / 2 ^ bits % 2 = 1 then
        entryValue (table.drop (2 ^ bits)) (k % 2 ^ bits) ρ
      else entryValue table (k % 2 ^ bits) ρ) =
      entryValue table (k % 2 ^ (bits + 1)) ρ := by
  rw [Nat.mod_pow_succ]
  rcases Nat.mod_two_eq_zero_or_one (k / 2 ^ bits) with hbit | hbit
  · rw [hbit, if_neg (by decide), mul_zero, add_zero]
  · rw [hbit, if_pos rfl, mul_one, entryValue, entryValue,
      List.getD_eq_getElem?_getD, List.getElem?_drop,
      ← List.getD_eq_getElem?_getD, add_comm]

theorem Lookup.lookupTree_builds (hL : L.KeepsValues μ) {bits : ℕ}
    (hbits : bits < 62) (hs : s.Typed) (he : Means s t f e) {table : List Exp}
    (htable : ∀ x ∈ table, x.WellTyped ∧ x.typ = ty)
    (hlen : 2 ^ bits ≤ table.length) :
    Builds s (L.lookupTree e ty bits table) ty
      fun ρ => entryValue table (f ρ % 2 ^ bits) ρ := by
  induction bits generalizing s table with
  | zero =>
    refine L.guard_builds ?_ _ ?_
    · rw [L.oneLsl_eq (by decide)]
      exact_mod_cast hlen
    · cases table with
      | nil => exact absurd hlen (by simp)
      | cons x table =>
        obtain ⟨hx, rfl⟩ := htable x List.mem_cons_self
        refine .pure hs ((means_self hx).congr fun ρ _ => ?_)
        rw [pow_zero, Nat.mod_one]
        rfl
  | succ bits ih =>
    have hpow : 2 ^ (bits + 1) = 2 ^ bits + 2 ^ bits := by ring
    refine L.guard_builds ?_ _ ?_
    · rw [L.oneLsl_eq hbits]
      exact_mod_cast hlen
    rw [L.oneLsl_eq (by omega), nthTail_natCast (by omega)]
    refine Ends.read_bind rfl ?_
    refine (ih (by omega) hs he htable (by omega)).bind
      fun low s1 hs1 hext1 hlow => ?_
    have hhalf : ∀ x ∈ table.drop (2 ^ bits), x.WellTyped ∧ x.typ = ty :=
      fun x hx => htable x (List.mem_of_mem_drop hx)
    refine (ih (by omega) hs1 (he.mono hext1) hhalf ?_).bind
      fun high s2 hs2 hext2 hhigh => ?_
    · rw [List.length_drop]
      omega
    have hbit := ((he.mono hext1).mono hext2).bitOf (n := bits) (by omega)
    exact (L.makeIte_builds hL hs2 hbit hhigh (hlow.mono hext2)).mono
      fun _ s3 _ _ h => h.congr fun ρ _ => entryValue_bit ρ

/-! ## The linear operator -/

theorem checkLoop_iff {spine l : List I64} {i : ℕ} :
    checkLoop spine l i = true ↔
      ∀ (j : ℕ) (hj : j < l.length), l[j] = buildFromSpine 0 spine (i + j) := by
  induction l generalizing i with
  | nil => simp [checkLoop]
  | cons x l ih =>
    rw [checkLoop]
    constructor
    · intro h j hj
      split_ifs at h with hx
      cases j with
      | zero => exact not_not.mp hx
      | succ j =>
        rw [List.getElem_cons_succ, ih.mp h j (Nat.lt_of_succ_lt_succ hj),
          Nat.add_assoc, Nat.add_comm 1]
    · intro h
      have hx : x = buildFromSpine 0 spine i := h 0 (Nat.succ_pos _)
      rw [if_neg (not_not.mpr hx)]
      refine ih.mpr fun j hj => ?_
      have hj' := h (j + 1) (Nat.succ_lt_succ hj)
      rw [List.getElem_cons_succ] at hj'
      rw [hj', Nat.add_assoc, Nat.add_comm 1]

theorem Means.xor {e1 e2 : Exp} (h1 : Means s t f e1) (h2 : Means s t g e2) :
    Means s t (fun ρ => f ρ ^^^ g ρ) (.binOp .xor e1 e2) := by
  have htyp : e2.typ = e1.typ := h2.typ_eq.trans h1.typ_eq.symm
  refine ⟨⟨h1.wellTyped, h2.wellTyped, htyp⟩, h1.typ_eq, fun ρ hρ => ?_⟩
  rw [unsigned_xor htyp, h1.value ρ hρ, h2.value ρ hρ]

/-- A spine entry where the bit of the index is set. -/
theorem Means.term (he : Means s t f e) (hty : ty.IsReg) {n : ℕ} (hn : n < 256)
    (m : I64) :
    Means s ty
      (fun ρ => if f ρ / 2 ^ n % 2 = 1 then m.toNat % 2 ^ ty.width else 0)
      (.binOp .bitand (.cast .castSigned ty (FormulaManager.bitOf e n))
        (.int ty m)) := by
  have hbit := he.bitOf hn
  have hle : Typ.reg1.width ≤ ty.width := hty.width_pos
  refine ⟨⟨⟨hbit.wellTyped, hty, hle⟩, hty, rfl⟩, rfl, fun ρ hρ => ?_⟩
  have hvalue := hbit.value ρ hρ
  generalize FormulaManager.bitOf e n = b at hbit hvalue
  have hwidth : b.width = 1 := by rw [Exp.width, hbit.typ_eq]; rfl
  have hcast : (Exp.cast .castSigned ty b).unsigned ρ =
      if f ρ / 2 ^ n % 2 = 1 then 2 ^ ty.width - 1 else 0 := by
    have hone : ∀ x : BitVec 1, (x.signExtend ty.width).toNat =
        if x.toNat = 1 then 2 ^ ty.width - 1 else 0 := by
      cases ty with
      | reg1 | reg8 | reg16 | reg32 | reg64 => decide
      | _ => exact hty.elim
    rw [← hvalue]
    change ((b.eval ρ b.width).signExtend ty.width).toNat =
      if (b.eval ρ b.width).toNat = 1 then _ else _
    rw [hwidth]
    exact hone _
  have htyp : (Exp.int ty m).typ = (Exp.cast .castSigned ty b).typ := rfl
  rw [unsigned_bitand htyp, hcast, unsigned_int]
  split_ifs
  · rw [Nat.and_comm, Nat.and_two_pow_sub_one_eq_mod, Nat.mod_mod]
  · exact Nat.zero_and _

theorem xor_mod (x m : I64) (w : ℕ) :
    (x ^^^ m).toNat % 2 ^ w = (x.toNat % 2 ^ w) ^^^ (m.toNat % 2 ^ w) := by
  rw [BitVec.toNat_xor, Nat.xor_mod_two_pow]

/-- The loops over the spine, of expressions and of numbers, side by side. -/
theorem foldl_termLoop_means (he : Means s t f e) (hty : ty.IsReg)
    {spine : List I64} {n : ℕ} (hn : n + spine.length ≤ 256)
    {x : Valuation μ → I64} {a : Exp}
    (ha : Means s ty (fun ρ => (x ρ).toNat % 2 ^ ty.width) a) :
    Means s ty
      (fun ρ => (buildFromSpine (x ρ) spine (f ρ / 2 ^ n)).toNat % 2 ^ ty.width)
      ((termLoop ty spine e n).foldl (fun a b => .binOp .xor a b) a) := by
  induction spine generalizing n x a with
  | nil => exact ha
  | cons m rest ih =>
    rw [List.length_cons] at hn
    have hnext : Means s ty (fun ρ =>
        (if (f ρ / 2 ^ n) &&& 1 = 1 then x ρ ^^^ m else x ρ).toNat %
          2 ^ ty.width)
        (.binOp .xor a (.binOp .bitand
          (.cast .castSigned ty (bitOf e n)) (.int ty m))) := by
      refine (ha.xor (he.term hty (by omega) m)).congr fun ρ _ => ?_
      rw [Nat.and_one_is_mod]
      split_ifs
      · exact (xor_mod _ _ _).symm
      · exact Nat.xor_zero _
    refine (ih (by omega) hnext).congr fun ρ _ => ?_
    rw [buildFromSpine, Nat.shiftRight_one, Nat.div_div_eq_div_mul, ← pow_succ]

/-- The empty sum is a bit, whatever the type. -/
theorem xorjoin_termLoop_means (he : Means s t f e) (hty : ty.IsReg)
    {spine : List I64} (hne : spine = [] → ty = .reg1)
    (hlen : spine.length ≤ 256) :
    Means s ty (fun ρ => (buildFromSpine 0 spine (f ρ)).toNat % 2 ^ ty.width)
      (xorjoin (termLoop ty spine e 0)) := by
  cases spine with
  | nil =>
    obtain rfl := hne rfl
    exact ⟨trivial, rfl, fun ρ _ => rfl⟩
  | cons m rest =>
    rw [List.length_cons] at hlen
    have hfirst : Means s ty (fun ρ =>
        (if f ρ &&& 1 = 1 then 0 ^^^ m else (0 : I64)).toNat % 2 ^ ty.width)
        (.binOp .bitand (.cast .castSigned ty (bitOf e 0)) (.int ty m)) := by
      refine (he.term hty (by decide) m).congr fun ρ _ => ?_
      rw [Nat.and_one_is_mod, pow_zero, Nat.div_one]
      split_ifs
      · rw [show (0 : I64) ^^^ m = m from BitVec.zero_xor]
      · exact (Nat.zero_mod _).symm
    refine (foldl_termLoop_means he hty (n := 1) (by omega) hfirst).congr
      fun ρ _ => ?_
    rw [buildFromSpine, Nat.shiftRight_one, pow_one]

theorem Lookup.indexExp_builds (hL : L.KeepsValues μ) (hs : s.Typed)
    (he : e.WellTyped) :
    Builds s (L.indexExp e) e.typ fun ρ : Valuation μ => e.unsigned ρ := by
  have hreg := he.isReg
  unfold indexExp
  rw [he.inferTypeFast_eq]
  refine Ends.read_bind rfl ?_
  refine (L.tempify_builds hL hs (means_self he)).bind
    fun e' s' hs' hext he' => ?_
  have hsymbolic : toSymbolic (D := symbolicDomain) e' e.typ = .ok e' := by
    cases htyp : e.typ with
    | reg1 | reg8 | reg16 | reg32 | reg64 => rfl
    | _ =>
      rw [htyp] at hreg
      exact hreg.elim
  rw [hsymbolic]
  exact .pure hs' he'

theorem Lookup.makeGf2Operator_builds (hL : L.KeepsValues μ) (hs : s.Typed)
    (he : e.WellTyped) (hty : ty.IsReg) {spine : List I64}
    (hne : spine = [] → ty = .reg1) (hlen : spine.length ≤ 256) :
    Builds s (L.makeGf2Operator spine ty e) ty fun ρ : Valuation μ =>
      (buildFromSpine 0 spine (e.unsigned ρ)).toNat % 2 ^ ty.width :=
  (L.indexExp_builds hL hs he).bind fun _ _ hs' _ he' =>
    L.tempify_builds hL hs' (xorjoin_termLoop_means he' hty hne hlen)

/-! ## The check -/

theorem setWidth_ofInt_toOCamlInt (x : I64) {w : ℕ} (hw : w ≤ 63) :
    (I64.ofInt x.toOCamlInt).setWidth w = x.setWidth w := by
  change ((x.setWidth 63).signExtend 64).setWidth w = _
  rw [Bits.setWidth_signExtend_of_le (by decide) hw,
    BitVec.setWidth_setWidth_of_le _ hw]

/-- An entry is not constant, or the number read from it is its value. -/
theorem Lookup.conc_spec (hL : L.KeepsValues μ) (he : e.WellTyped)
    (htyp : e.typ = ty) :
    L.conc ty e = .error (.notConcrete e) ∨
      ∃ c, L.conc ty e = .ok c ∧
        ∀ ρ : Valuation μ, e.unsigned ρ = c.toNat % 2 ^ ty.width := by
  obtain ⟨e', hfold, htyp', hvalue⟩ := hL.constantFoldRec e he
  have hreg : ty.IsReg := htyp ▸ he.isReg
  have hconcrete : L.toConcrete ty e = .error (.notConcrete e) ∨
      ∃ v, L.toConcrete ty e = .ok v ∧
        ∀ ρ : Valuation μ, e.unsigned ρ = v.toNat % 2 ^ ty.width := by
    unfold toConcrete
    rw [hfold]
    split
    · rename_i t v hint
      obtain rfl := Except.ok.inj hint
      have ht : t = ty := htyp'.trans htyp
      rw [if_pos ht]
      refine .inr ⟨v, rfl, fun ρ => ?_⟩
      rw [← hvalue, unsigned_int, ht]
    · exact .inl rfl
    · rename_i herr
      cases herr
  rcases hconcrete with hfail | ⟨v, hok, hv⟩
  · left
    unfold conc
    cases ty with
    | reg1 | reg8 | reg16 =>
      rw [hfail]
      rfl
    | reg32 | reg64 => exact hfail
    | _ => exact hreg.elim
  · right
    have hnarrow : ∀ w ≤ 63, v.toNat % 2 ^ w =
        (I64.ofInt v.toOCamlInt).toNat % 2 ^ w := by
      intro w hw
      rw [← BitVec.toNat_setWidth, ← BitVec.toNat_setWidth,
        setWidth_ofInt_toOCamlInt v hw]
    cases ty with
    | reg1 | reg8 | reg16 =>
      unfold conc
      rw [hok]
      exact ⟨_, rfl, fun ρ => (hv ρ).trans (hnarrow _ (by decide))⟩
    | reg32 | reg64 => exact ⟨v, hok, hv⟩
    | _ => exact hreg.elim

theorem Lookup.mapM_conc (hL : L.KeepsValues μ) {table : List Exp}
    (htable : ∀ x ∈ table, x.WellTyped ∧ x.typ = ty) :
    (∃ x, table.mapM (L.conc ty) = .error (.notConcrete x)) ∨
      ∃ cs, table.mapM (L.conc ty) = .ok cs := by
  induction table with
  | nil => exact .inr ⟨[], rfl⟩
  | cons x table ih =>
    obtain ⟨hx, htyp⟩ := htable x List.mem_cons_self
    rw [List.mapM_cons]
    rcases L.conc_spec hL hx htyp with hfail | ⟨c, hok, -⟩
    · exact .inl ⟨x, by rw [hfail]; rfl⟩
    · rw [hok]
      rcases ih fun y hy => htable y (List.mem_cons_of_mem x hy) with
        ⟨y, hfail⟩ | ⟨cs, hcs⟩
      · exact .inl ⟨y, by rw [hfail]; rfl⟩
      · exact .inr ⟨c :: cs, by rw [hcs]; rfl⟩

theorem mapM_of_ok {α β ε : Type} {h : α → Except ε β} {k : α → β}
    {l : List α} (hok : ∀ x ∈ l, h x = .ok (k x)) :
    l.mapM h = .ok (l.map k) := by
  induction l with
  | nil => rfl
  | cons x l ih =>
    rw [List.mapM_cons, hok x List.mem_cons_self,
      ih fun y hy => hok y (List.mem_cons_of_mem x hy)]
    rfl

/-- What an accepted table is. -/
structure Lookup.Linear (L : Lookup M) (ty : Typ) (table : List Exp) (n : ℕ)
    (spine : List I64) (cs : List I64) : Prop where
  conc_eq : table.mapM (L.conc ty) = .ok cs
  length_eq : spine.length = n
  entry_eq : ∀ (i : ℕ) (hi : i < cs.length), cs[i] = buildFromSpine 0 spine i

theorem Lookup.tableCheckGf2_spec (hL : L.KeepsValues μ) {n : ℕ} (hn : n < 62)
    {table : List Exp} (htable : ∀ x ∈ table, x.WellTyped ∧ x.typ = ty)
    (hlen : table.length = 2 ^ n) :
    L.tableCheckGf2 table n ty = .ok none ∨
      ∃ spine cs, L.tableCheckGf2 table n ty = .ok (some spine) ∧
        L.Linear ty table n spine cs := by
  have hlength : (table.length : ℤ) = L.oneLsl n := by
    rw [L.oneLsl_eq hn, hlen]
  unfold tableCheckGf2
  rw [decide_eq_true hlength, gAssert_true, OCaml.ok_bind]
  rcases L.mapM_conc hL htable with ⟨x, hfail⟩ | ⟨cs, hcs⟩
  · rw [hfail]
    exact .inl rfl
  · have hcslen : cs.length = 2 ^ n := by
      rw [← (forall₂_of_mapM hcs).length_eq, hlen]
    have hspine : ((List.range n).mapM fun i => listNth cs (L.oneLsl i)) =
        .ok ((List.range n).map fun i => cs.getD (2 ^ i) 0) := by
      refine mapM_of_ok fun i hi => ?_
      have hin := List.mem_range.mp hi
      have hpow : 2 ^ i < cs.length :=
        hcslen ▸ Nat.pow_lt_pow_right (by decide) hin
      rw [L.oneLsl_eq (hin.trans hn), listNth,
        if_neg (Int.not_lt.mpr (Int.natCast_nonneg _)), Int.toNat_natCast,
        List.getD_eq_getElem?_getD, List.getElem?_eq_getElem hpow]
      rfl
    rw [hcs]
    dsimp only
    rw [hspine, OCaml.ok_bind, decide_eq_true (by simp), gAssert_true,
      OCaml.ok_bind]
    split_ifs with hcheck
    · refine .inr ⟨_, cs, rfl, hcs, by simp, fun i hi => ?_⟩
      have hentry := checkLoop_iff.mp hcheck i hi
      rwa [Nat.zero_add] at hentry
    · exact .inl rfl

/-- The operator of an accepted table has the values of the entries. -/
theorem Lookup.Linear.entryValue_eq (hL : L.KeepsValues μ) {table : List Exp}
    {n : ℕ} {spine cs : List I64} (h : L.Linear ty table n spine cs)
    (htable : ∀ x ∈ table, x.WellTyped ∧ x.typ = ty) {k : ℕ}
    (hk : k < table.length) (ρ : Valuation μ) :
    entryValue table k ρ = (buildFromSpine 0 spine k).toNat % 2 ^ ty.width := by
  have hall := List.forall₂_iff_get.mp (forall₂_of_mapM h.conc_eq)
  have hkc : k < cs.length := hall.1 ▸ hk
  have hconc := hall.2 k hk hkc
  obtain ⟨hx, htyp⟩ := htable (table.get ⟨k, hk⟩) (List.get_mem _ _)
  have hentry : entryValue table k ρ = (table.get ⟨k, hk⟩).unsigned ρ := by
    rw [entryValue, List.getD_eq_getElem?_getD, List.getElem?_eq_getElem hk]
    rfl
  rcases L.conc_spec hL hx htyp with hfail | ⟨c, hok, hvalue⟩
  · rw [hfail] at hconc
    cases hconc
  · rw [hentry, hvalue ρ, ← h.entry_eq k hkc]
    rw [hok] at hconc
    rw [Except.ok.inj hconc]
    rfl

/-! ## The lookup -/

theorem saveTable_returns {D : Domain} {o : Options}
    (ho : o.tablesAsArrays = false) (table : List D.t) (ty : Typ)
    (s : State D M) :
    ∃ r s', (saveTable o table ty).run s = (.ok r, s') ∧
      s'.tempVars = s.tempVars := by
  have hcache : ∃ r s', (useCache o table ty).run s = (.ok r, s') ∧
      s'.tempVars = s.tempVars := by
    rw [useCache, Stateful.run_bind_ok (Stateful.run_get s)]
    cases s.tables.idxOf? table with
    | some i => exact ⟨_, _, rfl, rfl⟩
    | none =>
      dsimp only
      rw [Stateful.run_bind_ok (Stateful.run_set s _), ho]
      exact ⟨_, _, rfl, rfl⟩
  rw [saveTable, Stateful.run_bind_ok (Stateful.run_get s)]
  dsimp only
  rw [ho, if_neg Bool.false_ne_true]
  split_ifs
  · exact ⟨_, _, rfl, rfl⟩
  · exact hcache

theorem Lookup.tableLookupCached_means (hL : L.KeepsValues μ) (hs : s.Typed)
    {n : ℕ} (hn : n < 62) (he : e.WellTyped) {table : List Exp}
    (htable : ∀ x ∈ table, x.WellTyped ∧ x.typ = ty)
    (hlen : table.length = 2 ^ n) (cache : TableTreesCache) (tableNum : ℤ) :
    Ends State.Typed State.Extends (fun _ => False) s
      (L.tableLookupCached cache table tableNum e n ty)
      fun r s' => Means s' ty
        (fun ρ : Valuation μ => entryValue table (e.unsigned ρ % 2 ^ n) ρ)
        r.1 := by
  refine (L.indexExp_builds hL hs he).bind fun idx s1 hs1 hext1 hidx => ?_
  refine (L.lookupTree_builds hL hn hs1 hidx htable hlen.ge).bind
    fun v s2 hs2 hext2 hv => ?_
  refine (L.tempify_builds hL hs2 hv).bind fun v' s3 hs3 hext3 hv' => ?_
  split_ifs
  · exact Ends.pure hs3 hv'
  · dsimp only
    rw [Function.update_self]
    exact Ends.pure hs3 hv'

/-- The lookup returns an expression of the type of the entries, which has the
value of the entry at the index wherever the table has one. -/
def Lookup.Selects (L : Lookup M) (s : State symbolicDomain M)
    (cache : TableTreesCache) (table : List Exp) (idx : Exp) (n : ℕ) (ty : Typ)
    (μ : Type) [VineMemory μ] : Prop :=
  ∃ v cache' s', (L.makeTableLookup cache table idx n ty).run s =
      (.ok (v, cache'), s') ∧ v.WellTyped ∧ v.typ = ty ∧
    ∀ ρ : Valuation μ, s'.Reads ρ → ∀ h : idx.unsigned ρ < table.length,
      v.unsigned ρ = (table.get ⟨idx.unsigned ρ, h⟩).unsigned ρ

/-- The single entry of the table is a zero that is not a bit. -/
def Lookup.LosesType (L : Lookup M) (table : List Exp) (n : ℕ) (ty : Typ) :
    Prop :=
  n = 0 ∧ ty ≠ .reg1 ∧ ∃ e ∈ table, L.conc ty e = .ok 0

theorem entryValue_get {table : List Exp} {k : ℕ} (h : k < table.length)
    (ρ : Valuation μ) :
    entryValue table k ρ = (table.get ⟨k, h⟩).unsigned ρ := by
  rw [entryValue, List.getD_eq_getElem?_getD, List.getElem?_eq_getElem h]
  rfl

/-- The check of a single entry. -/
theorem Lookup.tableCheckGf2_single (x : Exp) (ty : Typ) :
    L.tableCheckGf2 [x] 0 ty =
      match L.conc ty x with
      | .ok c => .ok (if c = 0 then some [] else none)
      | .error (.notConcrete _) => .ok none
      | .error (.raised r) => .error r := by
  have hlength : (([x] : List Exp).length : ℤ) = L.oneLsl 0 := by
    rw [L.oneLsl_eq (by decide)]
    rfl
  unfold tableCheckGf2
  rw [decide_eq_true hlength, gAssert_true, OCaml.ok_bind, List.mapM_cons]
  cases L.conc ty x with
  | error r => cases r <;> rfl
  | ok c =>
    by_cases hc : c = 0
    · subst hc
      have hcheck : checkLoop [] [(0 : I64)] 0 = true := rfl
      change (do
        L.gAssert true _
        if checkLoop [] [(0 : I64)] 0 then _ else _) = _
      rw [gAssert_true, OCaml.ok_bind, if_pos hcheck]
      rfl
    · have hcheck : ¬checkLoop [] [c] 0 = true := fun h =>
        hc (checkLoop_iff.mp h 0 Nat.one_pos)
      change (do
        L.gAssert true _
        if checkLoop [] [c] 0 then _ else _) = _
      rw [gAssert_true, OCaml.ok_bind, if_neg hcheck]
      simp only [hc, if_false]
      rfl

/-- An empty sum has the type of a bit. -/
theorem Lookup.makeGf2Operator_nil (hL : L.KeepsValues μ) (hs : s.Typed)
    (he : e.WellTyped) {v : Exp}
    (h : (L.makeGf2Operator [] ty e).run s = (.ok v, s')) : v.typ = .reg1 := by
  obtain ⟨idx, s1, hidx, hs1, -, -⟩ := (L.indexExp_builds hL hs he).exists_ok
  rw [makeGf2Operator, Stateful.run_bind_ok hidx] at h
  obtain ⟨e2, s2, hrun, -, -, hmeans⟩ :=
    (hL.simplifyExp s1 expFalse hs1 trivial).exists_ok
  change (L.tempify expFalse ty).run s1 = _ at h
  rw [tempify, Stateful.run_bind_ok hrun] at h
  rcases hL.simplifyExp_int s1 .reg1 0 e2 s2 hrun with ⟨c, rfl⟩ | ⟨u, rfl, hu⟩
  · obtain ⟨hv, -⟩ := Prod.mk.inj h
    exact Except.ok.inj hv ▸ hmeans.typ_eq
  · change Stateful.run (do
        let s ← get
        if (exprTemp s u).isSome then pure (Exp.temp u) else _) s2 = _ at h
    rw [Stateful.run_bind_ok (Stateful.run_get s2), if_pos hu] at h
    obtain ⟨hv, -⟩ := Prod.mk.inj h
    exact Except.ok.inj hv ▸ hmeans.typ_eq

theorem Lookup.makeTableLookup_run {r : ℤ × Bool}
    {s s1 : State symbolicDomain M} {table : List Exp}
    (hsave : (saveTable (D := symbolicDomain) L.options table ty).run s =
      (.ok r, s1)) {n : ℕ} {found : Option (List I64)}
    (hcheck : L.tableCheckGf2 table n ty = .ok found) (cache : TableTreesCache)
    (idx : Exp) :
    (L.makeTableLookup cache table idx n ty).run s = Stateful.run
      (match found with
      | some spine => do pure (← L.makeGf2Operator spine ty idx, cache)
      | none =>
        if L.options.tablesAsArrays then do
          pure (← L.tableLookupArray r.1 idx ty, cache)
        else L.tableLookupCached cache table r.1 idx n ty) s1 := by
  obtain ⟨tableNum, isNew⟩ := r
  unfold makeTableLookup
  rw [Stateful.run_bind_ok hsave, hcheck]
  exact Stateful.run_bind_ok (a := found) rfl

theorem Lookup.selects_of_means {n : ℕ} {idx : Exp} {table : List Exp}
    {cache : TableTreesCache} {x : FM symbolicDomain M (Exp × TableTreesCache)}
    {s1 : State symbolicDomain M}
    (hrun : (L.makeTableLookup cache table idx n ty).run s = x.run s1)
    (h : Ends State.Typed State.Extends (fun _ => False) s1 x fun r s' =>
      Means s' ty f r.1)
    (hf : ∀ ρ, idx.unsigned ρ < table.length →
      f ρ = entryValue table (idx.unsigned ρ) ρ) :
    L.Selects s cache table idx n ty μ := by
  obtain ⟨⟨v, cache'⟩, s', hx, -, -, hv⟩ := h.exists_ok
  refine ⟨v, cache', s', hrun.trans hx, hv.wellTyped, hv.typ_eq, ?_⟩
  intro ρ hρ hlt
  rw [hv.value ρ hρ, hf ρ hlt, entryValue_get hlt]

end Meanings

/-! ## A manager -/

/-- A shift by nothing is dropped. -/
def dropShift : Exp → Exp
  | .cast ct t (.binOp .rshift e (.int .reg8 0)) => .cast ct t e
  | e => e

def plainLookup : Lookup plainMarshal where
  options := ⟨false, .reg32⟩
  optTExprSize := 10
  strict := true
  wild _ _ := 0
  coin _ := true
  constantFoldRec := pure
  simplifyExp e := pure (dropShift e)

theorem dropShift_spec {μ : Type} [VineMemory μ] {e : Exp} (he : e.WellTyped) :
    (dropShift e).WellTyped ∧ (dropShift e).typ = e.typ ∧
      ∀ ρ : Valuation μ, (dropShift e).unsigned ρ = e.unsigned ρ := by
  unfold dropShift
  split
  · rename_i ct t e
    refine ⟨⟨he.1.1, he.2⟩, rfl, fun ρ => ?_⟩
    cases ct <;> rfl
  · exact ⟨he, rfl, fun _ => rfl⟩

theorem plainLookup_keepsValues (μ : Type) [VineMemory μ] :
    plainLookup.KeepsValues μ where
  encode e _ := ⟨e, rfl, rfl⟩
  constantFoldRec e _ := ⟨e, rfl, rfl, fun _ => rfl⟩
  simplifyExp s e hs he := by
    obtain ⟨hwell, htyp, hvalue⟩ := dropShift_spec (μ := μ) he
    exact .pure hs ⟨hwell, htyp, fun ρ _ => hvalue ρ⟩
  simplifyExp_int s t v e' s' h := by
    obtain ⟨he, -⟩ := Prod.mk.inj h
    exact .inl ⟨.int t v, (Except.ok.inj he).symm⟩

def indexRegister : Exp := .temp ⟨0, [], .reg32⟩

def noTrees : TableTreesCache := fun _ => none

end Fuzzball.FormulaManager
