import Fuzzball.DecisionTreeStore
import Fuzzball.Heap
import Fuzzball.StatefulExceptions

/-!
# The binary decision tree

The class of `binary_decision_tree.ml` over a store of nodes.  A node that is
fetched is a new record, so the same node can be held in several records that
differ.  Records are given by their addresses, and `==` compares these.  The
loops of the source run with fuel; `.diverges` stands for a loop that used it
up.  Where the source fetches both children at once, the false one comes first.
-/

namespace Fuzzball.BinaryDecisionTree

open DecisionTree

/-! ## The state -/

inductive TreeExn
  | store (x : StoreExn)
  | knownPath
  | deepPath
  /-- An exception of a function that the caller passes. -/
  | caller
  | diverges
  deriving DecidableEq, Repr

structure TreeOptions where
  asserts : AssertOptions
  queryBranchLimit : ℤ
  pathDepthLimit : I64
  /-- How `opt_target_guidance` compares with 2. -/
  targetGuidance : Ordering

def TreeOptions.default : TreeOptions where
  asserts := .default
  queryBranchLimit := 999999999
  pathDepthLimit := 1000000000000
  targetGuidance := .lt

/-- The object, the records it made and the store. -/
structure TreeState (σ : Type) where
  nodes : StoreState σ
  records : Heap Node
  rootIdent : ℤ
  cur : ℕ
  curQuery : ℕ
  depth : ℤ
  bestHeur : ℤ
  curHeur : ℤ

abbrev Tree (σ α : Type) := Stateful TreeExn (TreeState σ) α

def failwith {σ α : Type} (message : String) : Tree σ α :=
  throw (.store (.exn (.failure message)))

def child (b : Bool) (n : Node) : Option (Option ℤ) :=
  if b then n.tChild else n.fChild

def setChild (b : Bool) (k : Option (Option ℤ)) (n : Node) : Node :=
  if b then { n with tChild := k } else { n with fChild := k }

def onlyIf {σ : Type} (c : Bool) (x : Tree σ Unit) : Tree σ Unit :=
  if c then x else pure ()

/-! ## Records and the store -/

section Records

variable {σ α : Type}

/-- Runs a computation that counts failed assertions. -/
def guarded (x : Guarded α) : Tree σ α := do
  let s ← get
  let (r, w) := x s.nodes.weirdCount
  set { s with nodes := { s.nodes with weirdCount := w } }
  match r with
  | .ok a => pure a
  | .error e => throw (.store e)

def assert (o : TreeOptions) (assertion : Bool) (sawAt : String) :
    Tree σ Unit :=
  guarded (gAssert o.asserts assertion 100 sawAt)

def node (a : ℕ) : Tree σ Node := do
  let s ← get
  pure (s.records.get a)

/-- Changes the fields of a record. -/
def assign (a : ℕ) (f : Node → Node) : Tree σ Unit :=
  modify fun s => { s with records := s.records.set a (f (s.records.get a)) }

def allocate (n : Node) : Tree σ ℕ := do
  let s ← get
  set { s with records := s.records.push n }
  pure s.records.next

def setStore (store : σ) : Tree σ Unit :=
  modify fun s => { s with nodes := { s.nodes with store := store } }

variable (S : Store σ)

def identToNode (i : ℤ) : Tree σ ℕ := do
  let s ← get
  let n ← guarded (S.fetch s.nodes.store i)
  allocate n

def updateDtNode (a : ℕ) : Tree σ Unit := do
  let s ← get
  let store ← guarded (S.update s.nodes.store (s.records.get a))
  setStore store

def newDtNode (parent : Option ℕ) : Tree σ ℕ := do
  modify fun s =>
    { s with nodes := { s.nodes with nextDtIdent := s.nodes.nextDtIdent + 1 } }
  let s ← get
  let i := s.nodes.nextDtIdent
  let store ← guarded (S.prepare s.nodes.store i)
  setStore store
  let a ← allocate (freshNode (parent.map fun p => (s.records.get p).ident) i)
  updateDtNode S a
  pure a

def getParent (a : ℕ) : Tree σ (Option ℕ) := do
  let n ← node a
  match n.parent with
  | none => pure none
  | some i => do
    let p ← identToNode S i
    pure (some p)

def getChild (b : Bool) (a : ℕ) : Tree σ (Option (Option ℕ)) := do
  let n ← node a
  match child b n with
  | none => pure none
  | some none => pure (some none)
  | some (some i) => do
    let k ← identToNode S i
    pure (some (some k))

def getFChild : ℕ → Tree σ (Option (Option ℕ)) := getChild S false

def getTChild : ℕ → Tree σ (Option (Option ℕ)) := getChild S true

def putChild (b : Bool) (a : ℕ) (k : Option (Option ℕ)) : Tree σ Unit := do
  let s ← get
  assign a (setChild b (k.map fun k => k.map fun k => (s.records.get k).ident))
  updateDtNode S a

def putFChild : ℕ → Option (Option ℕ) → Tree σ Unit := putChild S false

def putTChild : ℕ → Option (Option ℕ) → Tree σ Unit := putChild S true

def putEipLoc (a : ℕ) (loc : I64) : Tree σ Unit := do
  assign a fun n => { n with eipLoc := loc }
  updateDtNode S a

/-- Enough for a loop along the links between nodes. -/
def loopFuel : Tree σ ℕ := do
  let s ← get
  pure (s.nodes.nextDtIdent.toNat + 1)

end Records

/-! ## Marking nodes as seen -/

section Marking

variable {σ : Type} (S : Store σ) (o : TreeOptions)

def isSeen : Option (Option ℕ) → Tree σ Bool
  | some (some kid) => do
    let k ← node kid
    pure k.allSeen
  | _ => pure false

def assertSeen (kid : Option (Option ℕ)) : Tree σ Unit := do
  match kid with
  | some (some k) =>
    let n ← node k
    assert o n.allSeen "Binary_decision_tree.mark_all_seen_node"
  | _ => pure ()

def mark (n : ℕ) : Tree σ Unit := do
  let f ← getFChild S n
  assertSeen o f
  let t ← getTChild S n
  assertSeen o t
  assign n fun n => { n with allSeen := true }
  updateDtNode S n

/-- The check of a child, which is true where there is none. -/
def onKid (k : Option (Option ℕ)) (check : ℕ → Tree σ Bool) : Tree σ Bool :=
  match k with
  | some (some kid) => check kid
  | _ => pure true

def internalNodesCheck : ℕ → ℕ → Bool → Tree σ Bool
  | 0, _, _ => throw .diverges
  | fuel + 1, n, top => do
    let r ← node n
    if r.allSeen then pure true
    else if r.queryChildren ≠ none ∧ top = false then pure false
    else
      let f ← getFChild S n
      let fDone ← onKid f fun kid => internalNodesCheck fuel kid false
      if fDone then
        let t ← getTChild S n
        let tDone ← onKid t fun kid => internalNodesCheck fuel kid false
        if tDone then
          mark S o n
          pure true
        else pure false
      else pure false

def queryParent : ℕ → ℕ → Tree σ ℕ
  | 0, _ => throw .diverges
  | fuel + 1, n => do
    let r ← node n
    match r.queryChildren with
    | some _ => pure n
    | none => do
      let p ← getParent S n
      match p with
      | some p => queryParent fuel p
      | none => failwith "Missing query node parent"

/-- Whether `mark_all_seen_node` goes on with the parent `p`. -/
def kidsSeen (p : ℕ) : Tree σ Bool := do
  let r ← node p
  let t ← getTChild S p
  let f ← getFChild S p
  let tSeen ← isSeen t
  let fSeen ← isSeen f
  pure (!r.allSeen &&
    match t, f with
    | some (some _), some (some _) => tSeen && fSeen
    | some (some _), some none => tSeen
    | some none, some (some _) => fSeen
    | _, _ => false)

def markLoop : ℕ → ℕ → Tree σ Unit
  | 0, _ => throw .diverges
  | fuel + 1, n => do
    mark S o n
    let parent ← getParent S n
    match parent with
    | none => pure ()
    | some p => do
      let both ← kidsSeen S p
      onlyIf both (markLoop fuel p)
      let m ← loopFuel
      let q ← queryParent S m p
      let r ← node q
      match r.queryChildren with
      | none => pure ()
      | some k =>
        if o.queryBranchLimit ≤ k then
          onlyIf (decide (o.queryBranchLimit < k))
            (assert o (k = o.queryBranchLimit)
              "Binary_decision_tree.mark_all_seen_node")
          let m ← loopFuel
          let checked ← internalNodesCheck S o m q true
          onlyIf checked (markLoop fuel q)

def markAllSeenNode (n : ℕ) : Tree σ Unit := do
  let m ← loopFuel
  markLoop S o m n

/-- Whether a side needs no more visits. -/
def isFinished : Option (Option ℕ) → Tree σ Bool
  | none => pure false
  | some none => pure true
  | some (some kid) => do
    let k ← node kid
    pure k.allSeen

def maybeMarkAllSeenNode (n : ℕ) : Tree σ Unit := do
  let f ← getFChild S n
  let fDone ← isFinished f
  if fDone then
    let t ← getTChild S n
    let tDone ← isFinished t
    if tDone then markAllSeenNode S o n

end Marking

/-! ## Queries -/

section Queries

variable {σ : Type} (S : Store σ) (o : TreeOptions)

def startNewQuery : Tree σ Unit := do
  let s ← get
  let n ← node s.cur
  assert o (n.queryChildren ≠ none) "Binary_decision_tree.start_new_query"
  modify fun s => { s with curQuery := s.cur }

def startNewQueryBinary : Tree σ Unit := do
  startNewQuery o
  let s ← get
  let q ← node s.curQuery
  match q.queryChildren with
  | none => pure ()
  | some k =>
    if k = 0 ∨ k = 1 ∨ k = 2 then pure ()
    else failwith "Too many children in start_new_query_binary"

/-- Finishes the nodes below a child, or rules the child out. -/
def finishKid (b : Bool) (n : ℕ) (k : Option (Option ℕ))
    (finish : ℕ → Tree σ Unit) : Tree σ Unit :=
  match k with
  | some (some kid) => finish kid
  | some none => pure ()
  | none => putChild S b n (some none)

def finishInternalNodes : ℕ → ℕ → Bool → Tree σ Unit
  | 0, _, _ => throw .diverges
  | fuel + 1, n, top => do
    let r ← node n
    if r.queryChildren = none ∨ top = true then
      let f ← getFChild S n
      finishKid S false n f fun kid => finishInternalNodes fuel kid false
      let t ← getTChild S n
      finishKid S true n t fun kid => finishInternalNodes fuel kid false
      maybeMarkAllSeenNode S o n

/-- The count of the query, and of the current node in it. -/
def countCur : Tree σ Unit := do
  let s ← get
  let c ← node s.cur
  let q ← node s.curQuery
  match q.queryChildren with
  | none => failwith "Count_query outside a query"
  | some k =>
    if c.queryCounted then pure ()
    else
      assert o (k < o.queryBranchLimit) "Binary_decision_tree.count_query"
      assign s.curQuery fun n => { n with queryChildren := some (k + 1) }
      updateDtNode S s.curQuery
      assign s.cur fun n => { n with queryCounted := true }

def countQuery : Tree σ Unit := do
  let s ← get
  let c ← node s.cur
  let q ← node s.curQuery
  if c.ident ≠ q.ident then
    onlyIf (decide (c.queryChildren = none))
      (assign s.cur fun n => { n with queryChildren := some 0 })
    countCur S o
    updateDtNode S s.cur
    let q ← node s.curQuery
    match q.queryChildren with
    | none => pure ()
    | some k =>
      if o.queryBranchLimit ≤ k then
        let m ← loopFuel
        finishInternalNodes S o m s.curQuery true

end Queries

/-! ## Extending the path -/

section Extending

variable {σ : Type} (S : Store σ) (o : TreeOptions)

def forgetUnsat (b : Bool) : Tree σ Unit := do
  let s ← get
  putChild S b s.cur none

def addKid (b : Bool) : Tree σ Unit := do
  let s ← get
  let c ← node s.cur
  assert o (!c.allSeen) "Binary_decision_tree.add_kid"
  let f ← getFChild S s.cur
  let t ← getTChild S s.cur
  match if b then t else f with
  | some (some _) => pure ()
  | none => do
    let kid ← newDtNode S (some s.cur)
    putChild S b s.cur (some (some kid))
  | some none => failwith "Tried to extend an unsat branch"

/-- The current node becomes its child. -/
def follow (b : Bool) : Tree σ Unit := do
  let s ← get
  let f ← getFChild S s.cur
  let t ← getTChild S s.cur
  match if b then t else f with
  | some (some kid) => modify fun s => { s with cur := kid }
  | _ => failwith "Add_kid failed in extend"

def extend (b : Bool) : Tree σ Unit := do
  addKid S o b
  follow S b
  modify fun s => { s with depth := s.depth + 1 }
  let s ← get
  if o.pathDepthLimit.slt (I64.ofInt s.depth) then throw .deepPath

def recordUnsat (b : Bool) : Tree σ Unit := do
  let s ← get
  let f ← getFChild S s.cur
  let t ← getTChild S s.cur
  match if b then t else f with
  | none => putChild S b s.cur (some none)
  | some none => pure ()
  | some (some _) =>
    failwith "Trying to make sat branch unsat in record_unsat"

/-- The functions that are passed to `try_extend`, with `none` where they
raise; `ε` are the expressions. -/
structure Callbacks (ε : Type) where
  transFunc : Bool → ε
  tryFunc : Bool → ε → Option Bool
  nonTryFunc : Bool → Option Unit
  randomBitGen : Option Bool
  bothFailFunc : Bool → Option Bool

variable {ε : Type}

def called {α : Type} (x : Option α) : Tree σ α :=
  match x with
  | some a => pure a
  | none => throw .caller

variable (c : Callbacks ε)

def known (b : Bool) : Tree σ (Bool × ε) := do
  called (c.nonTryFunc b)
  extend S o b
  pure (b, c.transFunc b)

def knownCheck (b : Bool) : Tree σ (Bool × ε) := do
  let sat ← called (c.tryFunc b (c.transFunc b))
  if sat then
    extend S o b
    pure (b, c.transFunc b)
  else failwith "Unexpected unsat in try_extend"

def tryOrBoring (b : Bool) : Tree σ (Bool × ε) := do
  let sat ← called (c.tryFunc b (c.transFunc b))
  if sat then
    extend S o b
    pure (b, c.transFunc b)
  else
    recordUnsat S b
    let s ← get
    markAllSeenNode S o s.cur
    known S o c (!b)

def tryBoth : Tree σ (Bool × ε) := do
  let b ← called c.randomBitGen
  let sat ← called (c.tryFunc b (c.transFunc b))
  if sat then
    let other ← called (c.tryFunc (!b) (c.transFunc (!b)))
    let _ ← (if other then addKid S o (!b) else recordUnsat S (!b))
    extend S o b
    pure (b, c.transFunc b)
  else
    recordUnsat S b
    let other ← called (c.tryFunc (!b) (c.transFunc (!b)))
    if other then
      extend S o (!b)
      pure (!b, c.transFunc (!b))
    else
      let b' ← called (c.bothFailFunc b)
      forgetUnsat S b'
      extend S o b'
      pure (b', c.transFunc b')

def tryExtend (eipLoc : I64) : Tree σ (Bool × ε) := do
  let s ← get
  let n ← node s.cur
  assert o (!n.allSeen) "Binary_decision_tree.try_extend"
  assert o (n.eipLoc = 0 ∨ n.eipLoc = eipLoc)
    "Binary_decision_tree.try_extend 2"
  putEipLoc S s.cur eipLoc
  let q ← node s.curQuery
  let limited := match q.queryChildren with
    | some k => decide (o.queryBranchLimit ≤ k)
    | none => false
  let f ← getFChild S s.cur
  let t ← getTChild S s.cur
  let fSeen ← isSeen f
  let tSeen ← isSeen t
  let n ← node s.cur
  match f, t, limited with
  | some (some _), some (some _), _ =>
    match fSeen, tSeen with
    | true, true =>
      if n.allSeen then
        let b ← called c.randomBitGen
        known S o c b
      else failwith "all_seen invariant failure"
    | false, true => known S o c false
    | true, false => known S o c true
    | false, false =>
      let b ← called c.randomBitGen
      known S o c b
  | some (some _), some none, _ =>
    assert o (!fSeen) "Binary_decision_tree.try_extend"
    known S o c false
  | some none, some (some _), _ =>
    assert o (!tSeen) "Binary_decision_tree.try_extend"
    known S o c true
  | some none, some none, _ => failwith "Unsat node in try_extend"
  | some (some _), none, false =>
    if fSeen then tryOrBoring S o c true else tryBoth S o c
  | some (some _), none, true => known S o c false
  | none, some (some _), false =>
    if tSeen then tryOrBoring S o c false else tryBoth S o c
  | none, some (some _), true => known S o c true
  | none, some none, _ => knownCheck S o c false
  | some none, none, _ => knownCheck S o c true
  | none, none, false => tryBoth S o c
  | none, none, true =>
    failwith "Limited/unknown invariant failure in try_extend"

def tryBranch (b : Bool) (field : Option (Option ℕ))
    (fn : Tree σ (Bool × ε)) : Tree σ (Bool × ε) := do
  match field with
  | some (some _) => known S o c b
  | some none => throw .knownPath
  | none =>
    let sat ← called (c.tryFunc b (c.transFunc b))
    if sat then
      extend S o b
      pure (b, c.transFunc b)
    else
      recordUnsat S b
      fn

def tryExtendMemoryless : Tree σ (Bool × ε) := do
  let first ← called c.randomBitGen
  let s ← get
  -- the true branch comes second when the bit is true
  let field ← getChild S (!first) s.cur
  tryBranch S o c (!first) field do
    let field ← getChild S first s.cur
    tryBranch S o c first field
      (failwith "Both branches unsat in try_extend")

end Extending

/-! ## Heuristics -/

section Heuristics

variable {σ : Type} (S : Store σ) (o : TreeOptions)

def propagateHeurLoop : ℕ → ℕ → Tree σ Unit
  | 0, _ => throw .diverges
  | fuel + 1, n => do
    let s ← get
    let r ← node n
    if s.curHeur < r.heurMin ∨ r.heurMax < s.curHeur then
      assign n fun n => { n with
        heurMin := min s.curHeur n.heurMin
        heurMax := max s.curHeur n.heurMax }
      updateDtNode S n
      let parent ← getParent S n
      match parent with
      | none => pure ()
      | some p => propagateHeurLoop fuel p

def propagateHeur (n : ℕ) : Tree σ Unit := do
  let m ← loopFuel
  propagateHeurLoop S m n

def setHeur (i : ℤ) : Tree σ Unit := do
  modify fun s => { s with curHeur := i, bestHeur := max i s.bestHeur }
  let s ← get
  propagateHeur S s.cur

def heurPreference : Tree σ (Option Bool) := do
  let s ← get
  let f ← getFChild S s.cur
  let t ← getTChild S s.cur
  match f, t with
  | some (some kidF), some (some kidT) =>
    let f ← node kidF
    let t ← node kidT
    if f.heurMax < f.heurMin ∨ t.heurMax < t.heurMin then pure none
    else if o.targetGuidance ≠ .lt then
      if o.targetGuidance = .eq ∧ s.curHeur ≤ 1 then pure none
      else if f.heurMax = s.bestHeur ∧ t.heurMax < f.heurMax then
        pure (some false)
      else if t.heurMax = s.bestHeur ∧ f.heurMax < t.heurMax then
        pure (some true)
      else pure none
    else if f.heurMax ≠ t.heurMax then
      pure (some (decide (f.heurMax < t.heurMax)))
    else pure none
  | some (some _), none => pure (some false)
  | none, some (some _) => pure (some true)
  | _, _ => pure none

end Heuristics

/-! ## The other methods -/

section Methods

variable {σ : Type} (S : Store σ) (o : TreeOptions)

/-- The initial value of the object. -/
def create : Tree σ Unit := do
  let root ← newDtNode S none
  let r ← node root
  let cur ← newDtNode S none
  let curQuery ← newDtNode S none
  modify fun s => { s with
    rootIdent := r.ident, cur := cur, curQuery := curQuery, depth := 0
    bestHeur := -1, curHeur := -1 }

def init : Tree σ Unit := do
  let s ← get
  let root ← identToNode S s.rootIdent
  assign root fun n => { n with queryChildren := some 0 }
  updateDtNode S root
  modify fun s => { s with cur := root }
  modify fun s => { s with curQuery := root }

def reset : Tree σ Unit := do
  let s ← get
  let cur ← identToNode S s.rootIdent
  modify fun s => { s with cur := cur }
  let curQuery ← identToNode S s.rootIdent
  modify fun s => { s with curQuery := curQuery, curHeur := -1, depth := 0 }

def childIs (kid : Option (Option ℕ)) (n : ℕ) : Tree σ Bool := do
  match kid with
  | some (some n') => do
    let k ← node n'
    let r ← node n
    pure (decide (k.ident = r.ident))
  | _ => pure false

def lastChoice (n p : ℕ) : Tree σ Bool := do
  let f ← getFChild S p
  let isF ← childIs f n
  if isF then pure false
  else
    let t ← getTChild S p
    let isT ← childIs t n
    if isT then pure true
    else failwith "Parent invariant failure in get_hist"

def histLoop : ℕ → ℕ → Tree σ (List Bool)
  | 0, _ => throw .diverges
  | fuel + 1, n => do
    let parent ← getParent S n
    match parent with
    | none => pure []
    | some p => do
      let b ← lastChoice S n p
      let bs ← histLoop fuel p
      pure (b :: bs)

def getHist : Tree σ (List Bool) := do
  let s ← get
  let m ← loopFuel
  histLoop S m s.cur

def markAllSeen : Tree σ Unit := do
  let s ← get
  markAllSeenNode S o s.cur
  propagateHeur S s.cur

def tryAgainP : Tree σ Bool := do
  let s ← get
  let root ← identToNode S s.rootIdent
  let r ← node root
  pure (!r.allSeen)

def checkLastChoices : Tree σ (Option Bool) := do
  let s ← get
  let parent ← getParent S s.cur
  match parent with
  | none => failwith "Missing parent in check_last_choices"
  | some p => do
    let f ← getFChild S p
    let t ← getTChild S p
    match f, t with
    | some (some _), some (some _) => pure none
    | some (some _), some none => pure (some false)
    | some none, some (some _) => pure (some true)
    | some none, some none =>
      failwith "Parent invariant failure in check_last_choices"
    | _, _ => failwith "Unexplored parent in check_last_choices"

def haveChoice : Tree σ Bool := do
  let s ← get
  let f ← getFChild S s.cur
  let t ← getTChild S s.cur
  let fSeen ← isSeen f
  let tSeen ← isSeen t
  match f, t with
  | none, _ => pure true
  | _, none => pure true
  | some (some _), some (some _) => pure (fSeen == tSeen)
  | some (some _), some none => pure false
  | some none, some (some _) => pure false
  | some none, some none =>
    failwith "Feasibility invariant failure in have_choice"

def isLiveIdent (i : ℤ) : Tree σ Bool := do
  let n ← identToNode S i
  let r ← node n
  pure (!r.allSeen)

/-- `p == cur` and `f_kid == n` are about records. -/
def reachLoop : ℕ → ℕ → Tree σ (Option Bool)
  | 0, _ => throw .diverges
  | fuel + 1, n => do
    let s ← get
    let parent ← getParent S n
    match parent with
    | none => pure none
    | some p =>
      if p = s.cur then
        let f ← getFChild S s.cur
        let t ← getTChild S s.cur
        if f = some (some n) then pure (some false)
        else if t = some (some n) then pure (some true)
        else failwith "Parent invariant failure in cur_can_reach_ident"
      else reachLoop fuel p

def curCanReachIdent (i : ℤ) : Tree σ (Option Bool) := do
  let n ← identToNode S i
  let m ← loopFuel
  reachLoop S m n

end Methods

/-! ## Runs -/

inductive Op (ε : Type)
  | init
  | reset
  | getHist
  | addKid (b : Bool)
  | startNewQuery
  | startNewQueryBinary
  | countQuery
  | extend (b : Bool)
  | recordUnsat (b : Bool)
  | tryExtend (c : Callbacks ε) (eipLoc : I64)
  | tryExtendMemoryless (c : Callbacks ε)
  | setHeur (i : ℤ)
  | heurPreference
  | markAllSeen
  | tryAgainP
  | checkLastChoices
  | haveChoice
  | isLiveIdent (i : ℤ)
  | curCanReachIdent (i : ℤ)

section Runs

variable {σ ε : Type} (S : Store σ) (o : TreeOptions)

def discard {α : Type} (x : Tree σ α) : Tree σ Unit := do
  let _ ← x
  pure ()

def call : Op ε → Tree σ Unit
  | .init => init S
  | .reset => reset S
  | .getHist => discard (getHist S)
  | .addKid b => addKid S o b
  | .startNewQuery => startNewQuery o
  | .startNewQueryBinary => startNewQueryBinary o
  | .countQuery => countQuery S o
  | .extend b => extend S o b
  | .recordUnsat b => recordUnsat S b
  | .tryExtend c eipLoc => discard (tryExtend S o c eipLoc)
  | .tryExtendMemoryless c => discard (tryExtendMemoryless S o c)
  | .setHeur i => setHeur S i
  | .heurPreference => discard (heurPreference S o)
  | .markAllSeen => markAllSeen S o
  | .tryAgainP => discard (tryAgainP S)
  | .checkLastChoices => discard (checkLastChoices S)
  | .haveChoice => discard (haveChoice S)
  | .isLiveIdent i => discard (isLiveIdent S i)
  | .curCanReachIdent i => discard (curCanReachIdent S i)

/-- One call, with the exception it raised. -/
def step (s : TreeState σ) (op : Op ε) : Except TreeExn Unit × TreeState σ :=
  (call S o op).run s

/-- The state before the object is made. -/
def blank (nodes : StoreState σ) : TreeState σ :=
  ⟨nodes, ⟨fun _ => freshNode none 0, 0⟩, 0, 0, 0, 0, 0, 0⟩

/-- The state of a run that makes the object and calls its methods; a call that
raises is one of them. -/
def after (nodes : StoreState σ) (ops : List (Op ε)) : TreeState σ :=
  Machine.run (step S o) ((create S).run (blank nodes)).2 ops

end Runs

end Fuzzball.BinaryDecisionTree
