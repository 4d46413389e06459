import Fuzzball.FormulaManagerQueries
import Mathlib.Data.List.ReduceOption

/-!
# Runs of the formula manager

The manager makes variables, temporaries and tables between the queries that
share a table of seen variables.  Over every run in which no input takes the
name of a memory scalar of another size, the declarations are in dependency
order.
-/

namespace Fuzzball.FormulaManager

open Vine Declarations

variable {D : Domain} {M : Marshal}

structure System (D : Domain) (M : Marshal) where
  state : State D M
  /-- The variables seen by the queries, `var_seen_hash`. -/
  seenHash : VarHash Unit

inductive Op (D : Domain)
  | newvar (name : OString) (t : Typ)
  | freshSymbolic (str : OString) (ty : Typ)
  | freshRegionBase (str : OString)
  | freshSymbolicMem (ty : Typ) (str : OString) (addr : I64)
  | makeTempVar (e : Exp) (ty : Typ)
  | saveTable (table : List D.t) (eltTy : Typ)
  | rewriteForSolver (e : Exp)
  | oneCond (cond : Exp)
  | useSeen (seenHash : VarHash Unit)

def System.after {α : Type} (sys : System D M) (x : FM D M α) :
    Option Query × System D M :=
  (none, ⟨(x.run sys.state).2, sys.seenHash⟩)

def step (o : Options) (ord : HashOrder) (sys : System D M) :
    Op D → Option Query × System D M
  | .newvar name t => sys.after (newvar name t)
  | .freshSymbolic str ty => sys.after (freshSymbolic str ty)
  | .freshRegionBase str => sys.after (freshRegionBase o str)
  | .freshSymbolicMem ty str addr => sys.after (freshSymbolicMem ty str addr)
  | .makeTempVar e ty => sys.after (makeTempVar e ty)
  | .saveTable table eltTy => sys.after (saveTable o table eltTy)
  | .rewriteForSolver e => sys.after (rewriteForSolver e)
  | .oneCond cond =>
    match (oneCondForSolving ord cond sys.seenHash).run sys.state with
    | (.ok q, s) => (some q, ⟨s, q.seenHash⟩)
    | (.error _, s) => (none, ⟨s, sys.seenHash⟩)
  | .useSeen h => (none, ⟨sys.state, h⟩)

/-- The expressions that a call is given are built from variables that were
made before. -/
def Op.Formed (s : State D M) : Op D → Prop
  | .makeTempVar e _ => ∀ v ∈ e.vars, Known s v
  | .saveTable table eltTy => ∀ c ∈ table, ∀ e, toSymbolic c eltTy = .ok e →
      ∀ v ∈ e.vars, Known s v
  | .oneCond cond => ∀ v ∈ cond.vars, Known s v
  | _ => True

/-- An input does not take the name of a memory scalar of another size. -/
def Op.Fits (o : Options) : Op D → Prop
  | .freshSymbolic str ty => NameFits str ty
  | .freshRegionBase str => NameFits str o.regAddr
  | _ => True

def Op.Shares : Op D → Prop
  | .useSeen _ => False
  | _ => True

def Allowed (o : Options) (sys : System D M) (op : Op D) : Prop :=
  op.Formed sys.state ∧ op.Fits o

/-! ## Every call keeps the invariant -/

theorem Inv.new (D : Domain) (M : Marshal) (vars : List (OString × Typ)) :
    Inv (State.new D M vars) := by
  constructor <;> simp [State.new, VarHash.keys, tableOf]

theorem Inv.addTemp {s : State D M} (hs : Inv s) {name : OString} {t : Typ}
    {eEnc : M.enc} (he : ∀ v ∈ (M.decode eEnc).vars, Known s v) :
    Inv { s with
      vars := s.vars ++ [(name, t)]
      tempVars := (⟨s.vars.length, name, t⟩, eEnc) :: s.tempVars } := by
  have hnew := hs.newvar name t
  refine ⟨hnew.input, hnew.fits, ?_, hnew.table, hnew.length, hnew.bytes,
    hnew.scalars, hnew.supported, hnew.unique⟩
  intro b hb
  rcases List.mem_cons.mp hb with rfl | hb
  · refine ⟨known_new rfl, ?_, ?_⟩
    · intro v hv
      exact ⟨(he v hv).mono ⟨[(name, t)], rfl⟩, (he v hv).id_lt⟩
    · intro str h
      exact absurd (hs.input str _ h).1.id_lt (by simp)
  · exact hnew.temp b hb

theorem tableOf_snoc {s s' : State D M} (hs : Inv s) {v u : Var}
    {el tableE : List Exp} (hvars : s'.tableVars = s.tableVars ++ [v])
    (htables : s'.tablesByIdx = s.tablesByIdx ++ [tableE])
    (h : tableOf s' u = some el) :
    tableOf s u = some el ∨ (u = v ∧ el = tableE) := by
  unfold tableOf at h ⊢
  rw [hvars, htables, List.idxOf?, List.findIdx?_append] at h
  rw [List.idxOf?]
  cases hi : s.tableVars.findIdx? (· == u) with
  | some i =>
    have hlt : i < s.tablesByIdx.length := by
      rw [← hs.length]
      exact (List.findIdx?_eq_some_iff_getElem.mp hi).1
    rw [hi, Option.some_or, Option.bind_some,
      List.getElem?_append_left hlt] at h
    exact .inl h
  | none =>
    rw [hi, Option.none_or, List.findIdx?_singleton] at h
    split_ifs at h with hu
    · rw [Option.map_some, Option.bind_some, hs.length] at h
      simp only [zero_add, List.getElem?_concat_length, Option.some.injEq] at h
      exact .inr ⟨(beq_iff_eq.mp hu).symm, h.symm⟩
    · exact absurd h (by simp)

theorem Inv.addTable {s : State D M} (hs : Inv s) {name : OString} {t : Typ}
    {tableE : List Exp} (he : ∀ e ∈ tableE, ∀ v ∈ e.vars, Known s v) :
    Inv { s with
      vars := s.vars ++ [(name, t)]
      tablesByIdx := s.tablesByIdx ++ [tableE]
      tableVars := s.tableVars ++ [⟨s.vars.length, name, t⟩] } := by
  have hnew := hs.newvar name t
  refine ⟨hnew.input, hnew.fits, hnew.temp, ?_, by simp [hs.length],
    hnew.bytes, hnew.scalars, hnew.supported, hnew.unique⟩
  intro v el hel
  rcases tableOf_snoc hs rfl rfl hel with hel | ⟨rfl, rfl⟩
  · exact hnew.table v el hel
  · refine ⟨known_new rfl, ?_, ?_⟩
    · intro e hin u hu
      exact ⟨(he e hin u hu).mono ⟨[(name, t)], rfl⟩, (he e hin u hu).id_lt⟩
    · intro str h
      exact absurd (hs.input str _ h).1.id_lt (by simp)

/-- The tables that no invariant mentions may change. -/
theorem Inv.frame {s : State D M} (hs : Inv s)
    (regionBaseVars regionVars : OString → Option Var)
    (tables : List (List D.t)) :
    Inv { s with
      regionBaseVars := regionBaseVars
      regionVars := regionVars
      tables := tables } :=
  ⟨hs.input, hs.fits, hs.temp, hs.table, hs.length, hs.bytes, hs.scalars,
    hs.supported, hs.unique⟩

theorem freshSymbolic_inv {s : State D M} (hs : Inv s) {str : OString}
    {ty : Typ} (hfits : NameFits str ty) :
    Inv ((freshSymbolic str ty : FM D M D.t).run s).2 :=
  (((freshSymbolicVar_leads hs hfits).bind fun _ _ hs1 _ _ =>
    .pure hs1 trivial : Leads Inv Grows s (freshSymbolic str ty)
      (fun _ _ => True))).inv

theorem freshRegionBase_inv {o : Options} {s : State D M} (hs : Inv s)
    {str : OString} (hfits : NameFits str o.regAddr) :
    Inv ((freshRegionBase o str : FM D M D.t).run s).2 := by
  obtain ⟨hI, -, -⟩ := freshSymbolicVar_leads hs hfits
  unfold freshRegionBase
  rcases hrun : (freshSymbolicVar str o.regAddr : FM D M Var).run s
    with ⟨e | v, s1⟩
  · rw [Stateful.run_bind_error hrun]
    rwa [hrun] at hI
  · rw [hrun] at hI
    rw [Stateful.run_bind_ok hrun,
      Stateful.run_bind_ok (Stateful.run_modify _ s1)]
    exact hI.frame _ s1.regionVars s1.tables

theorem freshSymbolicMem_inv {s : State D M} (hs : Inv s) (ty : Typ)
    (str : OString) (addr : I64) :
    Inv ((freshSymbolicMem ty str addr : FM D M D.t).run s).2 := by
  rw [freshSymbolicMem, Stateful.run_bind_ok (Stateful.run_get s)]
  cases s.regionVars str with
  | some v => exact hs
  | none =>
    exact (hs.newvar str (.tMem .reg32 .little)).frame s.regionBaseVars _
      s.tables

theorem makeTempVar_inv {s : State D M} (hs : Inv s) {e : Exp} (ty : Typ)
    (he : ∀ v ∈ e.vars, Known s v) :
    Inv ((makeTempVar e ty : FM D M Var).run s).2 := by
  cases hencode : M.encode e with
  | error x =>
    rw [makeTempVar, hencode]
    exact hs
  | ok eEnc =>
    cases hfind : s.tempVars.find? fun b => b.2 = eEnc with
    | some b =>
      rw [makeTempVar_known ty hencode hfind]
      exact hs
    | none =>
      rw [makeTempVar_new ty hencode hfind]
      exact hs.addTemp fun v hv => he v (M.vars_decode e eEnc v hencode hv)

theorem mem_of_mapM {table : List D.t} {ty : Typ} {tableE : List Exp}
    (h : (table.mapM fun v => toSymbolic v ty) = .ok tableE) {e : Exp}
    (he : e ∈ tableE) : ∃ c ∈ table, toSymbolic c ty = .ok e := by
  induction table generalizing tableE with
  | nil =>
    rw [List.mapM_nil, OCaml.pure_eq_ok_iff] at h
    exact absurd he (h ▸ List.not_mem_nil)
  | cons c table ih =>
    rw [List.mapM_cons] at h
    obtain ⟨e0, h0, h⟩ := OCaml.bind_eq_ok_iff.mp h
    obtain ⟨rest, hrest, h⟩ := OCaml.bind_eq_ok_iff.mp h
    rw [OCaml.pure_eq_ok_iff] at h
    subst h
    rcases List.mem_cons.mp he with rfl | he
    · exact ⟨c, List.mem_cons_self, h0⟩
    · obtain ⟨c', hc', hce⟩ := ih hrest he
      exact ⟨c', List.mem_cons_of_mem c hc', hce⟩

theorem useCache_inv {o : Options} {s : State D M} (hs : Inv s)
    {table : List D.t} {eltTy : Typ}
    (htable : ∀ c ∈ table, ∀ e, toSymbolic c eltTy = .ok e →
      ∀ v ∈ e.vars, Known s v) :
    Inv ((useCache o table eltTy : FM D M (ℤ × Bool)).run s).2 := by
  rw [useCache, Stateful.run_bind_ok (Stateful.run_get s)]
  cases s.tables.idxOf? table with
  | some i => exact hs
  | none =>
    have hframe := hs.frame s.regionBaseVars s.regionVars (s.tables ++ [table])
    dsimp only
    rw [Stateful.run_bind_ok (Stateful.run_set s _)]
    split_ifs
    · cases hmap : table.mapM fun v => toSymbolic v eltTy with
      | error x => exact hframe
      | ok tableE =>
        refine hframe.addTable ?_
        intro e he v hv
        obtain ⟨c, hc, hce⟩ := mem_of_mapM hmap he
        exact htable c hc e hce v hv
    · exact hframe

theorem saveTable_inv {o : Options} {s : State D M} (hs : Inv s)
    {table : List D.t} {eltTy : Typ}
    (htable : ∀ c ∈ table, ∀ e, toSymbolic c eltTy = .ok e →
      ∀ v ∈ e.vars, Known s v) :
    Inv ((saveTable o table eltTy : FM D M (ℤ × Bool)).run s).2 := by
  rw [saveTable, Stateful.run_bind_ok (Stateful.run_get s)]
  dsimp only
  split_ifs
  · exact useCache_inv hs htable
  · exact hs
  · exact useCache_inv hs htable

theorem step_inv {o : Options} {ord : HashOrder} {sys : System D M}
    (hs : Inv sys.state) {op : Op D} (hop : Allowed o sys op) :
    Inv (step o ord sys op).2.state := by
  obtain ⟨hformed, hfits⟩ := hop
  cases op with
  | newvar name t => exact hs.newvar name t
  | freshSymbolic str ty => exact freshSymbolic_inv hs hfits
  | freshRegionBase str => exact freshRegionBase_inv hs hfits
  | freshSymbolicMem ty str addr => exact freshSymbolicMem_inv hs ty str addr
  | makeTempVar e ty => exact makeTempVar_inv hs ty hformed
  | saveTable table eltTy => exact saveTable_inv hs hformed
  | rewriteForSolver e => exact (rewriteForSolver_leads e hs rfl).inv
  | oneCond cond =>
    have hinv := (oneCondForSolving_run ord hs hformed sys.seenHash).1
    unfold step
    rcases hrun : (oneCondForSolving ord cond sys.seenHash).run sys.state
      with ⟨e | q, s⟩ <;>
    · rw [hrun] at hinv
      simpa only [hrun] using hinv
  | useSeen h => exact hs

/-- A query that returns emits what it should over the table of seen variables,
to which it adds what it declared. -/
theorem step_emits {o : Options} (ord : HashOrder) {sys : System D M}
    (hs : Inv sys.state) {op : Op D} (hop : Allowed o sys op)
    (hshare : op.Shares) :
    (match (step o ord sys op).1 with
      | none => (step o ord sys op).2.seenHash.ids = sys.seenHash.ids
      | some q => Emits sys.seenHash.ids [q] ∧
          (step o ord sys op).2.seenHash.ids =
            sys.seenHash.ids ∪ keys declId q.qdecls) := by
  cases op with
  | oneCond cond =>
    have hret :=
      (oneCondForSolving_run ord hs hop.1 sys.seenHash).2
    unfold step
    rcases hrun : (oneCondForSolving ord cond sys.seenHash).run sys.state
      with ⟨e | q, s⟩
    · simp only [hrun]
    · rw [hrun] at hret
      simpa only [hrun] using hret q rfl
  | useSeen h => exact absurd hshare not_false
  | _ => rfl

/-! ## Every run -/

theorem session_emits {o : Options} {ord : HashOrder} {sys : System D M}
    (hs : Inv sys.state) {calls : List (Op D)}
    (hcalls : Machine.Meets (step o ord) (Allowed o) sys calls)
    (hshare : ∀ op ∈ calls, op.Shares) :
    Emits sys.seenHash.ids
      (Machine.outputs (step o ord) sys calls).reduceOption := by
  induction calls generalizing sys with
  | nil => exact .nil _
  | cons op calls ih =>
    obtain ⟨hop, hrest⟩ := hcalls
    have hrec := ih (step_inv hs hop) hrest
      fun c hc => hshare c (List.mem_cons_of_mem op hc)
    have hstep := step_emits ord hs hop
      (hshare op List.mem_cons_self)
    rw [Machine.outputs]
    cases hout : (step o ord sys op).1 with
    | none =>
      rw [hout] at hstep
      rw [List.reduceOption_cons_of_none, ← hstep]
      exact hrec
    | some q =>
      rw [hout] at hstep
      rw [List.reduceOption_cons_of_some]
      rw [hstep.2] at hrec
      exact hstep.1.cons hrec

def System.new (D : Domain) (M : Marshal) (vars : List (OString × Typ))
    (seenHash : VarHash Unit) : System D M :=
  ⟨.new D M vars, seenHash⟩

/-- After any run, the queries that share a table of seen variables emit their
declarations in dependency order. -/
theorem declarations_emitted {o : Options} {ord : HashOrder}
    {vars : List (OString × Typ)} {seenHash : VarHash Unit}
    {ops calls : List (Op D)}
    (hops : Machine.Meets (step o ord) (Allowed o)
      (System.new D M vars seenHash) ops)
    (hcalls : Machine.Meets (step o ord) (Allowed o)
      (Machine.run (step o ord) (System.new D M vars seenHash) ops) calls)
    (hshare : ∀ op ∈ calls, op.Shares) :
    Emits
      (Machine.run (step o ord) (System.new D M vars seenHash) ops).seenHash.ids
      (Machine.outputs (step o ord)
        (Machine.run (step o ord) (System.new D M vars seenHash) ops)
        calls).reduceOption := by
  have hinv : Inv
      (Machine.run (step o ord) (System.new D M vars seenHash) ops).state :=
    Machine.run_invariant (I := fun sys : System D M => Inv sys.state)
      (fun sys op hs hop => step_inv hs hop) (Inv.new D M vars) hops
  exact session_emits hinv hcalls hshare

/-! ## A run of each kind -/

theorem nameFits_of_notMem {str : OString} (h : 95 ∉ str) (ty : Typ) :
    NameFits str ty := by
  rintro regionStr tyStr addr ty' - - rfl
  exact absurd (by simp [memVarName, OString.ofAscii]) h

def plainOrder : HashOrder := ⟨fun l => l, fun _ => .refl _⟩

def plainOptions : Options := ⟨false, .reg32⟩

def plainStep : System symbolicDomain plainMarshal → Op symbolicDomain →
    Option Query × System symbolicDomain plainMarshal :=
  step plainOptions plainOrder

def emptySystem : System symbolicDomain plainMarshal := .new _ _ [] []

/-- The region `foo` as the variable of the given number. -/
def fooRegion (i : ℤ) : Var := ⟨i, .ofAscii "foo", .tMem .reg32 .little⟩

/-- A temporary of the word at the start of `foo`. -/
def wordOps : List (Op symbolicDomain) :=
  [.freshSymbolicMem .reg32 (.ofAscii "foo") 0,
    .freshSymbolic (.ofAscii "x") .reg32,
    .makeTempVar (.unOp .not (.mem (fooRegion 0) (.int .reg32 0) .reg32))
      .reg32]

/-- Two queries about the temporary, the second also about the word. -/
def wordCalls : List (Op symbolicDomain) :=
  [.oneCond (.binOp .eq (.temp ⟨2, .ofAscii "t0", .reg32⟩)
      (.temp ⟨1, .ofAscii "x", .reg32⟩)),
    .oneCond (.binOp .eq (.temp ⟨2, .ofAscii "t0", .reg32⟩)
      (.mem (fooRegion 0) (.int .reg32 0) .reg32))]

theorem declarations_emitted_wordCalls :
    Emits (Machine.run plainStep emptySystem wordOps).seenHash.ids
      (Machine.outputs plainStep (Machine.run plainStep emptySystem wordOps)
        wordCalls).reduceOption := by
  have hregion : ∀ {s : State symbolicDomain plainMarshal},
      s.vars[0]? = some (.ofAscii "foo", .tMem .reg32 .little) →
      Known s (fooRegion 0) := fun h => ⟨0, rfl, h⟩
  refine declarations_emitted (o := plainOptions) ?_ ?_ ?_
  · refine ⟨⟨trivial, trivial⟩, ⟨trivial, nameFits_of_notMem (by decide) _⟩,
      ⟨?_, trivial⟩, trivial⟩
    intro v hv
    obtain rfl : v = fooRegion 0 := by simpa [Exp.vars] using hv
    exact hregion rfl
  · refine ⟨⟨?_, trivial⟩, ⟨?_, trivial⟩, trivial⟩
    · intro v hv
      have hv' : v = ⟨2, .ofAscii "t0", .reg32⟩ ∨
          v = ⟨1, .ofAscii "x", .reg32⟩ := by simpa [Exp.vars] using hv
      rcases hv' with rfl | rfl
      · exact ⟨2, rfl, by decide +kernel⟩
      · exact ⟨1, rfl, by decide +kernel⟩
    · intro v hv
      have hv' : v = ⟨2, .ofAscii "t0", .reg32⟩ ∨ v = fooRegion 0 := by
        simpa [Exp.vars] using hv
      rcases hv' with rfl | rfl
      · exact ⟨2, rfl, by decide +kernel⟩
      · exact hregion (by decide +kernel)
  · simp [wordCalls, Op.Shares]

/-- A byte takes the name of the first short of `foo`, and a temporary is made
of that short. -/
def clashOps : List (Op symbolicDomain) :=
  [.freshSymbolic (.ofAscii "foo_short_0x00000000") .reg8,
    .freshSymbolicMem .reg16 (.ofAscii "foo") 0,
    .makeTempVar (.unOp .not (.mem (fooRegion 1) (.int .reg32 0) .reg16))
      .reg16]

def clashQuery : List (Op symbolicDomain) :=
  [.oneCond (.binOp .eq (.temp ⟨2, .ofAscii "t0", .reg16⟩) (.int .reg16 0))]

/-- The variable of the short is used by the temporary and not declared. -/
theorem clash_undeclared :
    Machine.Meets plainStep (fun sys op => op.Formed sys.state) emptySystem
        (clashOps ++ clashQuery) ∧
      ¬ Emits (Machine.run plainStep emptySystem clashOps).seenHash.ids
        (Machine.outputs plainStep
          (Machine.run plainStep emptySystem clashOps)
          clashQuery).reduceOption := by
  constructor
  · refine ⟨trivial, trivial, ?_, ?_, trivial⟩
    · intro v hv
      obtain rfl : v = fooRegion 1 := by simpa [Exp.vars] using hv
      exact ⟨1, rfl, by decide +kernel⟩
    · intro v hv
      obtain rfl : v = ⟨2, .ofAscii "t0", .reg16⟩ := by
        simpa [Exp.vars] using hv
      exact ⟨2, rfl, by decide +kernel⟩
  · intro h
    generalize hl : ((Machine.outputs plainStep (Machine.run plainStep
      emptySystem clashOps) clashQuery).reduceOption.flatMap
        Query.qdecls) = l at *
    have hids : l.map declId = [4, 3, 2] := by
      rw [← hl]
      decide +kernel
    have huse : ∃ d ∈ l, ∃ v ∈ d.vars, v.id = 0 := by
      rw [← hl]
      decide +kernel
    obtain ⟨d, hd, hv⟩ := huse
    have hclosed := h.closed
    rw [hl] at hclosed
    rcases hclosed.uses_subset hd hv with hseen | hkey
    · obtain ⟨b, hb, -⟩ := hseen
      exact absurd hb List.not_mem_nil
    · rw [keys, Set.mem_ofPred_eq, hids] at hkey
      exact absurd hkey (by decide)

end Fuzzball.FormulaManager
