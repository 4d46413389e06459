import Fuzzball.OCamlFormat
import Fuzzball.StatefulExceptions
import Fuzzball.VineSyntax

/-!
# The formula manager

The part of `formula_manager.ml` that makes the variables of a formula and
collects the declarations of a solver query.  The manager is generic in the
domain of its values and in the marshalled form of temporaries.
-/

namespace Fuzzball.Vine

/-- The variables that occur in an expression, other than as the binder of a
`Let`. -/
def Exp.vars : Exp → List Var
  | .binOp _ e1 e2 => e1.vars ++ e2.vars
  | .fbinOp _ _ e1 e2 => e1.vars ++ e2.vars
  | .unOp _ e1 => e1.vars
  | .funOp _ _ e1 => e1.vars
  | .constant _ => []
  | .temp v => [v]
  | .mem v addr _ => v :: addr.vars
  | .name _ => []
  | .cast _ _ e1 => e1.vars
  | .fcast _ _ _ e1 => e1.vars
  | .unknown _ => []
  | .letTemp _ e1 e2 => e1.vars ++ e2.vars
  | .letMem _ addr _ e1 e2 => addr.vars ++ e1.vars ++ e2.vars
  | .ite cond e1 e2 => cond.vars ++ e1.vars ++ e2.vars

end Fuzzball.Vine

namespace Fuzzball.FormulaManager

open Vine

/-! ## Tables keyed by variables -/

/-- A `V.VarHash`, which identifies variables by their numbers. -/
abbrev VarHash (α : Type) := List (Var × α)

def VarHash.mem {α : Type} (h : VarHash α) (v : Var) : Bool :=
  h.any fun b => b.1.id == v.id

def VarHash.replace {α : Type} (h : VarHash α) (v : Var) (a : α) : VarHash α :=
  (v, a) :: h.filter fun b => b.1.id != v.id

/-- The order, which OCaml leaves unspecified, in which `fold` passes the
bindings of a hash table. -/
structure HashOrder where
  arrange : {α : Type} → List α → List α
  perm : ∀ {α : Type} (l : List α), (arrange l).Perm l

/-! ## What the manager is generic in -/

/-- The domain of the values; `assemble` mentions no variables of its own. -/
structure Domain where
  t : Type
  [decEq : DecidableEq t]
  fromSymbolic : Exp → t
  toSymbolic1 : t → Exp
  toSymbolic8 : t → Exp
  toSymbolic16 : t → Exp
  toSymbolic32 : t → Exp
  toSymbolic64 : t → Exp
  assemble16 : t → t → t
  assemble32 : t → t → t
  assemble64 : t → t → t
  vars_assemble16 : ∀ (e e2 : Exp) (v : Var),
    v ∈ (toSymbolic16 (assemble16 (fromSymbolic e) (fromSymbolic e2))).vars →
      v ∈ e.vars ++ e2.vars
  vars_assemble32 : ∀ (e e2 : Exp) (v : Var),
    v ∈ (toSymbolic32 (assemble32 (fromSymbolic e) (fromSymbolic e2))).vars →
      v ∈ e.vars ++ e2.vars
  vars_assemble64 : ∀ (e e2 : Exp) (v : Var),
    v ∈ (toSymbolic64 (assemble64 (fromSymbolic e) (fromSymbolic e2))).vars →
      v ∈ e.vars ++ e2.vars

instance (D : Domain) : DecidableEq D.t := D.decEq

/-- `SymbolicDomain`, whose values are expressions. -/
def symbolicDomain : Domain where
  t := Exp
  fromSymbolic e := e
  toSymbolic1 e := e
  toSymbolic8 e := e
  toSymbolic16 e := e
  toSymbolic32 e := e
  toSymbolic64 e := e
  assemble16 e e2 := .binOp .concat e2 e
  assemble32 e e2 := .binOp .concat e2 e
  assemble64 e e2 := .binOp .concat e2 e
  vars_assemble16 := by simp [Exp.vars, or_comm]
  vars_assemble32 := by simp [Exp.vars, or_comm]
  vars_assemble64 := by simp [Exp.vars, or_comm]

/-- `encode_exp` and `decode_exp`; decoding mentions only variables of the
expression that was encoded. -/
structure Marshal where
  enc : Type
  [decEq : DecidableEq enc]
  encode : Exp → OCaml enc
  decode : enc → Exp
  vars_decode : ∀ (e : Exp) (c : enc) (v : Var), encode e = .ok c →
    v ∈ (decode c).vars → v ∈ e.vars

instance (M : Marshal) : DecidableEq M.enc := M.decEq

/-- A marshalled form that is the expression itself. -/
def plainMarshal : Marshal where
  enc := Exp
  encode := pure
  decode e := e
  vars_decode := by
    intro e c v h hv
    rw [OCaml.pure_eq_ok_iff] at h
    exact h ▸ hv

structure Options where
  tablesAsArrays : Bool
  /-- `reg_addr ()`, the type of addresses on the architecture. -/
  regAddr : Typ

/-! ## The state -/

structure State (D : Domain) (M : Marshal) where
  /-- The variables `V.newvar` has made; its counter is their number. -/
  vars : List (OString × Typ)
  inputVars : OString → Option Var
  regionBaseVars : OString → Option Var
  regionVars : OString → Option Var
  memByteVars : VarHash Unit
  memAxioms : VarHash Exp
  tableVars : List Var
  tablesByIdx : List (List Exp)
  /-- The tables met, each numbered by its place. -/
  tables : List (List D.t)
  /-- The temporaries with their encoded definitions. -/
  tempVars : VarHash M.enc

/-- A manager with the variables that the program made before. -/
def State.new (D : Domain) (M : Marshal) (vars : List (OString × Typ)) :
    State D M where
  vars := vars
  inputVars := fun _ => none
  regionBaseVars := fun _ => none
  regionVars := fun _ => none
  memByteVars := []
  memAxioms := []
  tableVars := []
  tablesByIdx := []
  tables := []
  tempVars := []

abbrev FM (D : Domain) (M : Marshal) := Stateful Exn (State D M)

variable {D : Domain} {M : Marshal}

/-! ## Variables -/

def newvar (name : OString) (t : Typ) : FM D M Var := do
  let s ← get
  set { s with vars := s.vars ++ [(name, t)] }
  pure ⟨s.vars.length, name, t⟩

def freshSymbolicVar (str : OString) (ty : Typ) : FM D M Var := do
  match (← get).inputVars str with
  | some v => pure v
  | none =>
    let v ← newvar str ty
    modify fun s =>
      { s with inputVars := Function.update s.inputVars str (some v) }
    pure v

def freshSymbolic (str : OString) (ty : Typ) : FM D M D.t := do
  let v ← freshSymbolicVar str ty
  pure (D.fromSymbolic (.temp v))

def freshRegionBase (o : Options) (str : OString) : FM D M D.t := do
  let v ← freshSymbolicVar str o.regAddr
  modify fun s =>
    { s with regionBaseVars := Function.update s.regionBaseVars str (some v) }
  pure (D.fromSymbolic (.temp v))

def freshSymbolicMem (ty : Typ) (str : OString) (addr : I64) :
    FM D M D.t := do
  match (← get).regionVars str with
  | some v => pure (D.fromSymbolic (.mem v (.int .reg32 addr) ty))
  | none =>
    let v ← newvar str (.tMem .reg32 .little)
    modify fun s =>
      { s with regionVars := Function.update s.regionVars str (some v) }
    pure (D.fromSymbolic (.mem v (.int .reg32 addr) ty))

/-! ## Memory scalars and their axioms -/

/-- `Printf.sprintf "%s_%s_0x%08Lx" region_str ty_str addr`. -/
def memVarName (regionStr tyStr : OString) (addr : I64) : OString :=
  regionStr ++ .ofAscii "_" ++ tyStr ++ .ofAscii "_0x" ++ hexPadded 8 addr.toNat

def memTyStr : Typ → OCaml OString
  | .reg8 => pure (.ofAscii "byte")
  | .reg16 => pure (.ofAscii "short")
  | .reg32 => pure (.ofAscii "word")
  | .reg64 => pure (.ofAscii "long")
  | _ => throw (.failure "Bad size in mem_var")

def memVar (regionStr : OString) (ty : Typ) (addr : I64) : FM D M Var :=
  match memTyStr ty with
  | .ok tyStr => freshSymbolicVar (memVarName regionStr tyStr addr) ty
  | .error x => throw x

def addByteVar (v : Var) : FM D M Unit :=
  modify fun s => { s with memByteVars := s.memByteVars.replace v () }

def addAxiom (b : Var × Exp) : FM D M Unit :=
  modify fun s => { s with memAxioms := s.memAxioms.replace b.1 b.2 }

def memVarByte (regionStr : OString) (addr : I64) : FM D M Var := do
  let v ← memVar regionStr .reg8 addr
  addByteVar v
  pure v

def memAxiomsShort (regionStr : OString) (addr : I64) (svar : Var) :
    FM D M (List (Var × Exp)) := do
  let bvar0 ← memVarByte regionStr addr
  let bvar1 ← memVarByte regionStr (addr + 1)
  pure [(svar, D.toSymbolic16 (D.assemble16
    (D.fromSymbolic (.temp bvar0)) (D.fromSymbolic (.temp bvar1))))]

-- The operands of `@` are evaluated from the right.
def memAxiomsWord (regionStr : OString) (addr : I64) (wvar : Var) :
    FM D M (List (Var × Exp)) := do
  let svar0 ← memVar regionStr .reg16 addr
  let svar1 ← memVar regionStr .reg16 (addr + 2)
  let al1 ← memAxiomsShort regionStr (addr + 2) svar1
  let al0 ← memAxiomsShort regionStr addr svar0
  pure ((wvar, D.toSymbolic32 (D.assemble32
    (D.fromSymbolic (.temp svar0)) (D.fromSymbolic (.temp svar1)))) ::
      (al0 ++ al1))

def memAxiomsLong (regionStr : OString) (addr : I64) (lvar : Var) :
    FM D M (List (Var × Exp)) := do
  let wvar0 ← memVar regionStr .reg32 addr
  let wvar1 ← memVar regionStr .reg32 (addr + 4)
  let al1 ← memAxiomsWord regionStr (addr + 4) wvar1
  let al0 ← memAxiomsWord regionStr addr wvar0
  pure ((lvar, D.toSymbolic64 (D.assemble64
    (D.fromSymbolic (.temp wvar0)) (D.fromSymbolic (.temp wvar1)))) ::
      (al0 ++ al1))

def addMemAxioms (regionStr : OString) (ty : Typ) (addr : I64) :
    FM D M Unit := do
  let v ← memVar regionStr ty addr
  match ty with
  | .reg8 => addByteVar v
  | .reg16 => (← memAxiomsShort regionStr addr v).forM addAxiom
  | .reg32 => (← memAxiomsWord regionStr addr v).forM addAxiom
  | .reg64 => (← memAxiomsLong regionStr addr v).forM addAxiom
  | _ => throw (.failure "Unexpected type in add_mem_axioms")

/-! ## Rewriting memory accesses for the solver -/

def rewriteMemToScalar : Exp → FM D M Exp
  | .mem v (.int .reg32 addr) ty | .mem v (.int .reg64 addr) ty => do
    addMemAxioms v.name ty addr
    pure (.temp (← memVar v.name ty addr))
  | _ => throw (.failure "Bad expression in rewrite_mem_to_scalar")

-- The arguments of a constructor are evaluated from the right.
def rewriteForSolver : Exp → FM D M Exp
  | .binOp op e1 e2 => do
    let e2' ← rewriteForSolver e2
    let e1' ← rewriteForSolver e1
    pure (.binOp op e1' e2')
  | .fbinOp op rm e1 e2 => do
    let e2' ← rewriteForSolver e2
    let e1' ← rewriteForSolver e1
    pure (.fbinOp op rm e1' e2')
  | .unOp op e1 => do
    let e1' ← rewriteForSolver e1
    pure (.unOp op e1')
  | .funOp op rm e1 => do
    let e1' ← rewriteForSolver e1
    pure (.funOp op rm e1')
  | .constant v => pure (.constant v)
  | .temp v => pure (.temp v)
  | .mem v idx ty => do
    if v ∈ (← get).tableVars then
      let idx' ← rewriteForSolver idx
      pure (.mem v idx' ty)
    else rewriteMemToScalar (.mem v idx ty)
  | .name l => pure (.name l)
  | .cast kind ty e1 => do
    let e1' ← rewriteForSolver e1
    pure (.cast kind ty e1')
  | .fcast kind rm ty e1 => do
    let e1' ← rewriteForSolver e1
    pure (.fcast kind rm ty e1')
  | .unknown u => pure (.unknown u)
  | .letTemp v e1 e2 => do
    let e2' ← rewriteForSolver e2
    let e1' ← rewriteForSolver e1
    pure (.letTemp v e1' e2')
  | .letMem _ _ _ _ _ =>
    throw (.failure "Unexpected memory let in rewrite_for_solver")
  | .ite ce te fe => do
    let fe' ← rewriteForSolver fe
    let te' ← rewriteForSolver te
    let ce' ← rewriteForSolver ce
    pure (.ite ce' te' fe')

def ofType (ty : Typ) (b : Var × Exp) : Bool := b.1.typ = ty

def getMemAxioms (ord : HashOrder) (s : State D M) : List (Var × Exp) :=
  let l := ord.arrange s.memAxioms
  l.filter (ofType .reg16) ++ (l.filter (ofType .reg32) ++
    l.filter (ofType .reg64))

def getMemBytes (ord : HashOrder) (s : State D M) : List Var :=
  (ord.arrange s.memByteVars).map Prod.fst

def withSavedMemAxioms {α : Type} (f : FM D M α) : FM D M α := do
  let old ← get
  set { old with memByteVars := [], memAxioms := [] }
  let r ← f
  modify fun s =>
    { s with memByteVars := old.memByteVars, memAxioms := old.memAxioms }
  pure r

/-! ## Temporaries and tables -/

/-- The expression `if_expr_temp_unit` passes for a variable. -/
def exprTemp (s : State D M) (v : Var) : Option Exp :=
  (s.tempVars.find? fun b => b.1.id == v.id).map fun b => M.decode b.2

def makeTempVar (e : Exp) (ty : Typ) : FM D M Var := do
  match M.encode e with
  | .error x => throw x
  | .ok eEnc =>
    let s ← get
    match s.tempVars.find? fun b => b.2 = eEnc with
    | some b => pure b.1
    | none =>
      let v ← newvar (.ofAscii "t" ++ decimal s.tempVars.length) ty
      modify fun s => { s with tempVars := (v, eEnc) :: s.tempVars }
      pure v

def toSymbolic (v : D.t) : Typ → OCaml Exp
  | .reg1 => pure (D.toSymbolic1 v)
  | .reg8 => pure (D.toSymbolic8 v)
  | .reg16 => pure (D.toSymbolic16 v)
  | .reg32 => pure (D.toSymbolic32 v)
  | .reg64 => pure (D.toSymbolic64 v)
  | _ => throw (.failure "Unexpected type in FM.to_symbolic")

def useCache (o : Options) (table : List D.t) (eltTy : Typ) :
    FM D M (ℤ × Bool) := do
  let s ← get
  match s.tables.idxOf? table with
  | some i => pure (i, false)
  | none =>
    set { s with tables := s.tables ++ [table] }
    if o.tablesAsArrays then
      match table.mapM fun v => toSymbolic v eltTy with
      | .error x => throw x
      | .ok tableE =>
        let v ← newvar (.ofAscii "table" ++ decimal s.tables.length)
          (.array eltTy (.ofNat 64 table.length))
        modify fun s =>
          { s with
            tablesByIdx := s.tablesByIdx ++ [tableE]
            tableVars := s.tableVars ++ [v] }
    pure (s.tables.length, true)

def tablesCacheLimit : I64 := 1000000

def saveTable (o : Options) (table : List D.t) (eltTy : Typ) :
    FM D M (ℤ × Bool) := do
  let size : I64 := .ofNat 64 table.length
  let numCached : I64 := .ofNat 64 (← get).tables.length
  if o.tablesAsArrays then useCache o table eltTy
  else if tablesCacheLimit.slt (numCached * size) then pure (-1, true)
  else useCache o table eltTy

/-- The contents of the table a variable stands for. -/
def tableOf (s : State D M) (v : Var) : Option (List Exp) :=
  (s.tableVars.idxOf? v).bind fun i => s.tablesByIdx[i]?

/-! ## Declarations of a query -/

inductive QDecl
  | inputVar (v : Var)
  | tempVar (v : Var) (e : Exp)
  | tempArray (v : Var) (el : List Exp)
  deriving DecidableEq, Repr

def qeDeclVar : QDecl → Var
  | .inputVar v => v
  | .tempVar v _ => v
  | .tempArray v _ => v

structure Walk where
  seenVars : VarHash Unit
  declsL : List QDecl

def Walk.see (w : Walk) (v : Var) : Walk :=
  { w with seenVars := w.seenVars.replace v () }

def Walk.declare (w : Walk) (d : QDecl) : Walk :=
  { w with declsL := d :: w.declsL }

/-- The traversal of `walk_decls`, over what is done at a variable. -/
def walk (visitTemp visitMem : Var → Walk → Walk) : Exp → Walk → Walk
  | .binOp _ e1 e2, w =>
    walk visitTemp visitMem e2 (walk visitTemp visitMem e1 w)
  | .fbinOp _ _ e1 e2, w =>
    walk visitTemp visitMem e2 (walk visitTemp visitMem e1 w)
  | .unOp _ e1, w => walk visitTemp visitMem e1 w
  | .funOp _ _ e1, w => walk visitTemp visitMem e1 w
  | .constant _, w => w
  | .temp v, w => visitTemp v w
  | .mem v e1 _, w => visitMem v (walk visitTemp visitMem e1 w)
  | .name _, w => w
  | .cast _ _ e1, w => walk visitTemp visitMem e1 w
  | .fcast _ _ _ e1, w => walk visitTemp visitMem e1 w
  | .unknown _, w => w
  | .letTemp _ e1 e2, w =>
    walk visitTemp visitMem e2 (walk visitTemp visitMem e1 w)
  | .letMem _ _ _ e1 e2, w =>
    walk visitTemp visitMem e2 (walk visitTemp visitMem e1 w)
  | .ite ce te fe, w =>
    walk visitTemp visitMem fe
      (walk visitTemp visitMem te (walk visitTemp visitMem ce w))

def visitTemp (s : State D M) (recurse : Exp → Walk → Walk) (v : Var)
    (w : Walk) : Walk :=
  if w.seenVars.mem v then w
  else
    match exprTemp s v with
    | some e => (recurse e (w.see v)).declare (.tempVar v e)
    | none => (w.see v).declare (.inputVar v)

def visitMem (s : State D M) (recurse : Exp → Walk → Walk) (v : Var)
    (w : Walk) : Walk :=
  if w.seenVars.mem v then w
  else
    match tableOf s v with
    | some table =>
      (table.foldl (fun w e => recurse e w) (w.see v)).declare
        (.tempArray v table)
    | none => w

/-- The recursion of `walk_decls` through definitions, to a depth that exceeds
the number of every variable in the expression. -/
def walkTo (s : State D M) : ℕ → Exp → Walk → Walk
  | 0, _, w => w
  | depth + 1, e, w =>
    walk (visitTemp s (walkTo s depth)) (visitMem s (walkTo s depth)) e w

def walkDecls (s : State D M) (rootExp : Exp) : List QDecl :=
  (walkTo s s.vars.length rootExp ⟨[], []⟩).declsL.reverse

/-- `list_unique`, with the elements met so far. -/
def listUniqueFrom : List QDecl → List QDecl → List QDecl
  | _, [] => []
  | h, e :: el =>
    if e ∈ h then listUniqueFrom h el else e :: listUniqueFrom (e :: h) el

def listUnique (l : List QDecl) : List QDecl := listUniqueFrom [] l

/-- `Vine_util.list_difference`. -/
def listDifference (a b : List QDecl) : List QDecl :=
  a.filter fun x => x ∉ b

def rewriteDecl : QDecl → FM D M QDecl
  | .tempVar v e => do
    let e' ← rewriteForSolver e
    pure (.tempVar v e')
  | .tempArray v el => do
    let el' ← el.mapM rewriteForSolver
    pure (.tempArray v el')
  | .inputVar v => pure (.inputVar v)

/-- The declarations of a query, from those that were walked. -/
def gatherDecls (ord : HashOrder) (s : State D M) (walked : List QDecl) :
    List QDecl :=
  let memBytes := getMemBytes ord s
  let memAxioms := getMemAxioms ord s
  let memAxiomsD := memAxioms.map fun b => QDecl.tempVar b.1 b.2
  let memBytesD := memBytes.map QDecl.inputVar
  let memVarsAsIn := memAxioms.map fun b => QDecl.inputVar b.1
  listUnique (memBytesD ++ (memAxiomsD ++ listDifference walked memVarsAsIn))

def collectDecls (ord : HashOrder) (cond : Exp) :
    FM D M (List QDecl × Exp) := do
  let condExpr ← rewriteForSolver cond
  let walked := walkDecls (← get) condExpr
  let walked2 ← walked.mapM rewriteDecl
  pure (gatherDecls ord (← get) walked2, condExpr)

/-- What `one_cond_for_solving` returns, with the seen table it leaves. -/
structure Query where
  qdecls : List QDecl
  condExpr : Exp
  newVars : List Var
  seenHash : VarHash Unit

def oneCondForSolving (ord : HashOrder) (cond : Exp) (seenHash : VarHash Unit) :
    FM D M Query := do
  let (walked, condExpr) ← withSavedMemAxioms (collectDecls ord cond)
  let newQdecls := walked.filter fun d => !seenHash.mem (qeDeclVar d)
  let newVars := newQdecls.map qeDeclVar
  pure ⟨newQdecls, condExpr, newVars,
    newVars.foldl (fun h v => h.replace v ()) seenHash⟩

end Fuzzball.FormulaManager
