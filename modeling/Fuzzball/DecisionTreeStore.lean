import Fuzzball.DecisionTreeNode
import Fuzzball.Machine

/-!
# The stores of decision tree nodes

The table in memory and the file that `binary_decision_tree.ml` keeps the
records in.  Both run under `g_assert`, which counts failed assertions and
raises when there are too many.
-/

namespace Fuzzball.DecisionTree

/-! ## Failed assertions -/

structure AssertOptions where
  maxWeirdness : ℤ
  singleWeirdnessThreshold : ℤ

def AssertOptions.default : AssertOptions := ⟨100, 100⟩

inductive StoreExn
  | exn (x : Exn)
  | unixError (call : String)
  deriving DecidableEq, Repr

/-- A computation that may raise, over the count of weird behaviours. -/
abbrev Guarded (α : Type) := ℤ → Except StoreExn α × ℤ

namespace Guarded

variable {α β : Type}

def pure (a : α) : Guarded α := fun w => (.ok a, w)

def throw (x : StoreExn) : Guarded α := fun w => (.error x, w)

def bind (x : Guarded α) (f : α → Guarded β) : Guarded β := fun w =>
  match x w with
  | (.ok a, w') => f a w'
  | (.error e, w') => (.error e, w')

instance : Monad Guarded where
  pure := Guarded.pure
  bind := Guarded.bind

/-- Runs a function that raises no exception of the system. -/
def lift (x : OCaml α) : Guarded α := fun w =>
  match x with
  | .ok a => (.ok a, w)
  | .error e => (.error (.exn e), w)

end Guarded

def gAssert (o : AssertOptions) (assertion : Bool) (penalty : ℤ)
    (sawAt : String) : Guarded Unit := fun w =>
  if assertion then (.ok (), w)
  else if o.maxWeirdness < w + penalty ∨
      o.singleWeirdnessThreshold < penalty then
    (.error (.exn (.failure ("Too many errors\n.Last Straw: " ++ sawAt))),
      w + penalty)
  else (.ok (), w + penalty)

/-! ## Strings -/

def storeString (o : AssertOptions) (n : Node) : Guarded OString := do
  let s := dtNodeToString n
  gAssert o (s.length = 61) 100 "Binary_decision_tree.dt_node_to_string"
  Guarded.pure s

def fetchString (o : AssertOptions) (ident : ℤ) (s : OString) :
    Guarded Node := do
  gAssert o (s.length = 61) 100 "Binary_decision_tree.string_to_dt_node"
  Guarded.lift (stringToDtNode ident s)

/-! ## The table in memory -/

/-- `ident_to_node_table`: an array of arrays of arrays, made as they are
needed. -/
abbrev Table := ℤ → Option (ℤ → Option (ℤ → OString))

def i1 (ident : ℤ) : ℤ := ident / 2 ^ 20
def i2 (ident : ℤ) : ℤ := ident / 2 ^ 10 % 2 ^ 10
def i3 (ident : ℤ) : ℤ := ident % 2 ^ 10

/-- An access to the array of 1024 sub-tables. -/
def checkIndex (ident : ℤ) : Guarded Unit :=
  if 0 ≤ i1 ident ∧ i1 ident < 1024 then Guarded.pure ()
  else Guarded.throw (.exn (.invalidArgument "index out of bounds"))

def subTable (table : Table) (ident : ℤ) :
    Guarded ((ℤ → Option (ℤ → OString)) × (ℤ → OString)) := do
  checkIndex ident
  match table (i1 ident) with
  | none =>
    Guarded.throw (.exn (.failure "Node sub-table missing (t1)"))
  | some t2 =>
    match t2 (i2 ident) with
    | none =>
      Guarded.throw (.exn (.failure "Node sub-table missing (t2)"))
    | some t3 => Guarded.pure (t2, t3)

/-- The table with the sub-tables for a number. -/
def makeSubTables (table : Table) (ident : ℤ) : Table :=
  let t2 := (table (i1 ident)).getD fun _ => none
  let t3 := (t2 (i2 ident)).getD fun _ => []
  Function.update table (i1 ident)
    (some (Function.update t2 (i2 ident) (some t3)))

def identToNodeTable (o : AssertOptions) (table : Table) (ident : ℤ) :
    Guarded Node := do
  let (_, t3) ← subTable table ident
  fetchString o ident (t3 (i3 ident))

def updateTable (o : AssertOptions) (table : Table) (n : Node) :
    Guarded Table := do
  let (t2, t3) ← subTable table n.ident
  let s ← storeString o n
  Guarded.pure (Function.update table (i1 n.ident)
    (some (Function.update t2 (i2 n.ident)
      (some (Function.update t3 (i3 n.ident) s)))))

/-! ## The file -/

/-- The offset of `Unix.lseek` from the start of the file. -/
def seek (off : ℤ) : Guarded ℕ :=
  if 0 ≤ off then Guarded.pure off.toNat
  else Guarded.throw (.unixError "lseek")

/-- `Unix.read` into a string: the bytes there are, and their number. -/
def readFile (file : OString) (off : ℕ) (buf : OString) (len : ℕ) :
    OString × ℕ :=
  let bytes := (file.drop off).take len
  (bytes ++ buf.drop bytes.length, bytes.length)

/-- `Unix.write` of the first bytes of a string; a gap before the offset is
filled with zeros. -/
def writeFile (file : OString) (off : ℕ) (s : OString) (len : ℕ) : OString :=
  let bytes := s.take len
  file.take off ++ List.replicate (off - file.length) 0 ++ bytes ++
    file.drop (off + bytes.length)

/-- `createString` is what `String.create 54` returns, its contents not
specified. -/
def identToNodeFile (o : AssertOptions) (createString : OString)
    (file : OString) (ident : ℤ) : Guarded Node := do
  let off ← seek (54 * (ident - 1))
  gAssert o (off = 54 * (ident - 1)) 100 "Binary_decision_tree.ident_to_node"
  let (buf, len) := readFile file off createString 54
  gAssert o (len = 54) 100 "Binary_decision_tree.ident_to_node"
  let terminator ← Guarded.lift (buf.sub 45 1)
  gAssert o (terminator = [10]) 100 "Binary_decision_tree.ident_to_node"
  let record ← Guarded.lift (buf.sub 0 53)
  fetchString o ident record

def updateFile (o : AssertOptions) (file : OString) (n : Node) :
    Guarded OString := do
  let off ← seek (54 * (n.ident - 1))
  gAssert o (off = 54 * (n.ident - 1)) 100
    "Binary_decision_tree.update_dt_node"
  let s ← storeString o n
  let line := s ++ [10]
  gAssert o ((line.take 54).length = 54) 100
    "Binary_decision_tree.update_dt_node"
  Guarded.pure (writeFile file off line 54)

/-! ## Runs of a store -/

/-- What the two stores do differently: `prepare` makes room for a number. -/
structure Store (σ : Type) where
  prepare : σ → ℤ → Guarded σ
  update : σ → Node → Guarded σ
  fetch : σ → ℤ → Guarded Node

def memoryStore (o : AssertOptions) : Store Table where
  prepare table ident := do
    checkIndex ident
    Guarded.pure (makeSubTables table ident)
  update := updateTable o
  fetch := identToNodeTable o

def fileStore (o : AssertOptions) (createString : OString) : Store OString where
  prepare file _ := Guarded.pure file
  update := updateFile o
  fetch := identToNodeFile o createString

structure StoreState (σ : Type) where
  nextDtIdent : ℤ
  store : σ
  weirdCount : ℤ

inductive StoreOp
  | newDtNode (parent : Option ℤ)
  | updateDtNode (n : Node)
  | getDtNode (ident : ℤ)

/-- The node that `new_dt_node` makes. -/
def freshNode (parent : Option ℤ) (ident : ℤ) : Node where
  parent := parent
  fChild := none
  tChild := none
  allSeen := false
  queryChildren := none
  queryCounted := false
  heurMin := 0x3fffffff
  heurMax := -1
  ident := ident
  eipLoc := 0

/-- The value of a call and the store after it; a call that raises leaves the
store of the last part that did not. -/
abbrev Called (σ : Type) := Except StoreExn (Option Node) × StoreState σ

section Step

variable {σ : Type} (S : Store σ)

def newDtNode (s : StoreState σ) (parent : Option ℤ) : Called σ :=
  let i := s.nextDtIdent + 1
  match S.prepare s.store i s.weirdCount with
  | (.error x, w) => (.error x, ⟨i, s.store, w⟩)
  | (.ok store, w) =>
    match S.update store (freshNode parent i) w with
    | (.error x, w') => (.error x, ⟨i, store, w'⟩)
    | (.ok store', w') => (.ok (some (freshNode parent i)), ⟨i, store', w'⟩)

def updateDtNode (s : StoreState σ) (n : Node) : Called σ :=
  match S.update s.store n s.weirdCount with
  | (.error x, w) => (.error x, { s with weirdCount := w })
  | (.ok store, w) => (.ok none, { s with store := store, weirdCount := w })

def getDtNode (s : StoreState σ) (ident : ℤ) : Called σ :=
  match S.fetch s.store ident s.weirdCount with
  | (.error x, w) => (.error x, { s with weirdCount := w })
  | (.ok n, w) => (.ok (some n), { s with weirdCount := w })

def storeStep (s : StoreState σ) : StoreOp → Called σ
  | .newDtNode parent => newDtNode S s parent
  | .updateDtNode n => updateDtNode S s n
  | .getDtNode ident => getDtNode S s ident

end Step

def StoreOp.isGet : StoreOp → Bool
  | .getDtNode _ => true
  | _ => false

def StoreOp.isNew : StoreOp → Bool
  | .newDtNode _ => true
  | _ => false

/-- A list of calls about nodes that have been made before, the last number
given so far being `next`. -/
def Created : ℤ → List StoreOp → Prop
  | _, [] => True
  | next, .newDtNode _ :: ops => Created (next + 1) ops
  | next, .updateDtNode n :: ops =>
    (1 ≤ n.ident ∧ n.ident ≤ next) ∧ Created next ops
  | next, .getDtNode i :: ops => (1 ≤ i ∧ i ≤ next) ∧ Created next ops

/-- No node is fetched, and the table has room for all of them. -/
def Unread (next : ℤ) (ops : List StoreOp) : Prop :=
  (∀ op ∈ ops, op.isGet = false) ∧
    next + ops.countP StoreOp.isNew < 2 ^ 30

/-! ## The file rejects what it stores -/

/-- A computation that raises whatever the count is. -/
def Raises {α : Type} (x : Guarded α) : Prop :=
  ∀ w, ∃ e w', x w = (.error e, w')

theorem Raises.lift {α : Type} {e : Exn} :
    Raises (Guarded.lift (.error e : OCaml α)) := fun w => ⟨_, w, rfl⟩

/-- What comes after does not help. -/
theorem Raises.bind_left {α β : Type} {x : Guarded α} (h : Raises x)
    (f : α → Guarded β) : Raises (x >>= f) := by
  intro w
  obtain ⟨e, w', he⟩ := h w
  refine ⟨e, w', ?_⟩
  change Guarded.bind x f w = _
  simp only [Guarded.bind, he]

theorem Raises.bind {α β : Type} {x : Guarded α} {f : α → Guarded β}
    (h : ∀ a, (∃ w w', x w = (.ok a, w')) → Raises (f a)) :
    Raises (x >>= f) := by
  intro w
  change ∃ e w', Guarded.bind x f w = (.error e, w')
  unfold Guarded.bind
  cases hx : x w with
  | mk r w' =>
    cases r with
    | error e => exact ⟨e, w', rfl⟩
    | ok a => exact h a ⟨w, w', hx⟩ w'

/-- A string of 53 bytes has no place for the last field. -/
theorem stringToDtNode_short {s : OString} (hs : s.length = 53) (ident : ℤ) :
    ∃ e, stringToDtNode ident s = .error e := by
  cases h : stringToDtNode ident s with
  | error e => exact ⟨e, rfl⟩
  | ok n =>
    unfold stringToDtNode at h
    simp only [OCaml.bind_eq_ok_iff] at h
    obtain ⟨-, -, -, -, -, -, -, -, -, -, -, -, -, -, eipLoc, heip, -⟩ := h
    rw [OString.sub, hs, if_neg (by norm_num)] at heip
    exact absurd heip (OCaml.throw_ne_ok _ _)

theorem fetchString_raises {s : OString} (hs : s.length = 53)
    (o : AssertOptions) (ident : ℤ) : Raises (fetchString o ident s) := by
  obtain ⟨e, he⟩ := stringToDtNode_short hs ident
  refine Raises.bind fun _ _ => ?_
  rw [he]
  exact Raises.lift

theorem length_of_sub {s t : OString} {start len : ℕ}
    (h : s.sub start len = .ok t) : t.length = len := by
  unfold OString.sub at h
  split_ifs at h with hle
  · obtain rfl := OCaml.pure_eq_ok_iff.mp h
    rw [List.length_take, List.length_drop]
    omega

/-- Every fetch from the file raises: the record that is read has 53 bytes. -/
theorem identToNodeFile_raises
    (o : AssertOptions) (createString file : OString) (ident : ℤ) :
    Raises (identToNodeFile o createString file ident) := by
  refine Raises.bind fun off _ => Raises.bind fun _ _ => ?_
  generalize readFile file off createString 54 = read
  obtain ⟨buf, len⟩ := read
  refine Raises.bind fun _ _ => Raises.bind fun _ _ =>
    Raises.bind fun _ _ => Raises.bind fun record hrecord => ?_
  obtain ⟨w, w', hw⟩ := hrecord
  have hlen : record.length = 53 := by
    cases hsub : buf.sub 0 53 with
    | error e => simp [hsub, Guarded.lift] at hw
    | ok t =>
      have htr : t = record := by
        simpa [hsub, Guarded.lift] using congrArg Prod.fst hw
      rw [← htr]
      exact length_of_sub hsub
  exact fetchString_raises hlen o ident

/-! ## What both stores do -/

theorem gAssert_true {o : AssertOptions} {assertion : Bool} {penalty : ℤ}
    {sawAt : String} (h : assertion = true) :
    gAssert o assertion penalty sawAt = Guarded.pure () := by
  funext w
  rw [gAssert, if_pos h]
  rfl

theorem pure_bind_guarded {α β : Type} (a : α) (f : α → Guarded β) :
    (Guarded.pure a >>= f) = f a := rfl

theorem storeString_eq (o : AssertOptions) (n : Node) :
    storeString o n = Guarded.pure (dtNodeToString n) := by
  unfold storeString
  dsimp only
  rw [gAssert_true (decide_eq_true (length_dtNodeToString n)),
    pure_bind_guarded]

/-- Every update of the file writes the first 54 bytes of the record. -/
theorem updateFile_eq
    (o : AssertOptions) (file : OString) {n : Node} (hn : 1 ≤ n.ident) :
    updateFile o file n =
      Guarded.pure (writeFile file (54 * (n.ident - 1)).toNat
        (dtNodeToString n ++ [10]) 54) := by
  have hoff : (((54 * (n.ident - 1)).toNat : ℕ) : ℤ) = 54 * (n.ident - 1) := by
    omega
  have hlen : ((dtNodeToString n ++ [10]).take 54).length = 54 := by
    rw [List.length_take, List.length_append, length_dtNodeToString]
    rfl
  unfold updateFile seek
  rw [if_pos (by omega), pure_bind_guarded, gAssert_true (decide_eq_true hoff),
    pure_bind_guarded, storeString_eq, pure_bind_guarded]
  dsimp only
  rw [gAssert_true (decide_eq_true hlen), pure_bind_guarded]

theorem index_eq {i j : ℤ} (h1 : i1 i = i1 j) (h2 : i2 i = i2 j)
    (h3 : i3 i = i3 j) : i = j := by
  unfold i1 at h1
  unfold i2 at h2
  unfold i3 at h3
  omega

/-- The string stored for a number, when its sub-tables are there. -/
def entry (table : Table) (i : ℤ) : Option OString :=
  (table (i1 i)).bind fun t2 => (t2 (i2 i)).map fun t3 => t3 (i3 i)

/-- The table with a string stored in the sub-tables of a number. -/
def setEntry (table : Table) (i : ℤ) (t2 : ℤ → Option (ℤ → OString))
    (t3 : ℤ → OString) (s : OString) : Table :=
  Function.update table (i1 i)
    (some (Function.update t2 (i2 i) (some (Function.update t3 (i3 i) s))))

theorem entry_setEntry
    {table : Table} {i : ℤ} {t2 : ℤ → Option (ℤ → OString)} {t3 : ℤ → OString}
    (h1 : table (i1 i) = some t2) (h2 : t2 (i2 i) = some t3) (s : OString)
    (j : ℤ) :
    entry (setEntry table i t2 t3 s) j =
      if j = i then some s else entry table j := by
  unfold entry setEntry
  by_cases e1 : i1 j = i1 i
  · by_cases e2 : i2 j = i2 i
    · by_cases e3 : i3 j = i3 i
      · simp [index_eq e1 e2 e3]
      · have hne : j ≠ i := fun h => e3 (congrArg i3 h)
        simp [e1, e2, e3, hne, h1, h2]
    · have hne : j ≠ i := fun h => e2 (congrArg i2 h)
      simp [e1, e2, hne, h1]
  · have hne : j ≠ i := fun h => e1 (congrArg i1 h)
    simp [e1, hne]

theorem entry_makeSubTables (table : Table) (i j : ℤ) :
    entry (makeSubTables table i) j =
      (entry table j).orElse fun _ =>
        if i1 j = i1 i ∧ i2 j = i2 i then some [] else none := by
  unfold entry makeSubTables
  by_cases e1 : i1 j = i1 i
  · cases h1 : table (i1 i) with
    | none =>
      by_cases e2 : i2 j = i2 i <;> simp [e1, e2, h1]
    | some t2 =>
      by_cases e2 : i2 j = i2 i
      · cases h2 : t2 (i2 i) <;> simp [e1, e2, h1, h2]
      · cases h2 : t2 (i2 j) <;> simp [e1, e2, h1, h2]
  · simp [e1]

/-- The table has the strings of nodes for the numbers up to `next`. -/
def Holds (table : Table) (next : ℤ) : Prop :=
  ∀ i, 1 ≤ i → i ≤ next → ∃ n, entry table i = some (dtNodeToString n)

theorem checkIndex_eq {i : ℤ} (h : 1 ≤ i) (hi : i < 2 ^ 30) :
    checkIndex i = Guarded.pure () := by
  unfold checkIndex i1
  rw [if_pos (by omega)]

theorem subTable_eq
    {table : Table} {i : ℤ} {s : OString} (h : 1 ≤ i) (hi : i < 2 ^ 30)
    (hs : entry table i = some s) :
    ∃ t2 t3, table (i1 i) = some t2 ∧ t2 (i2 i) = some t3 ∧ t3 (i3 i) = s ∧
      subTable table i = Guarded.pure (t2, t3) := by
  unfold entry at hs
  obtain ⟨t2, h1, hs⟩ := Option.bind_eq_some_iff.mp hs
  obtain ⟨t3, h2, hs⟩ := Option.map_eq_some_iff.mp hs
  refine ⟨t2, t3, h1, h2, hs, ?_⟩
  unfold subTable
  rw [checkIndex_eq h hi, pure_bind_guarded, h1]
  dsimp only
  rw [h2]

theorem stringToDtNode_ident (i : ℤ) (n : Node) :
    stringToDtNode i (dtNodeToString n) = .ok { n.stored with ident := i } :=
  stringToDtNode_dtNodeToString { n with ident := i }

theorem identToNodeTable_ok
    (o : AssertOptions) {table : Table} {next i : ℤ} (h : Holds table next)
    (hnext : next < 2 ^ 30) (h1 : 1 ≤ i) (hi : i ≤ next) :
    ∃ n, identToNodeTable o table i = Guarded.pure n := by
  obtain ⟨n, hn⟩ := h i h1 hi
  obtain ⟨t2, t3, -, -, hs, hsub⟩ := subTable_eq h1 (by omega) hn
  refine ⟨{ n.stored with ident := i }, ?_⟩
  unfold identToNodeTable fetchString
  rw [hsub, pure_bind_guarded]
  dsimp only
  rw [hs, gAssert_true (decide_eq_true (length_dtNodeToString n)),
    pure_bind_guarded, stringToDtNode_ident]
  rfl

/-- The update of a number that has its sub-tables stores the node's string
there and changes no other. -/
theorem updateTable_ok
    (o : AssertOptions) {table : Table} {n : Node} {s : OString}
    (h1 : 1 ≤ n.ident) (hn : n.ident < 2 ^ 30)
    (hs : entry table n.ident = some s) :
    ∃ table', updateTable o table n = Guarded.pure table' ∧
      ∀ j, entry table' j =
        if j = n.ident then some (dtNodeToString n) else entry table j := by
  obtain ⟨t2, t3, ht2, ht3, -, hsub⟩ := subTable_eq h1 hn hs
  refine ⟨setEntry table n.ident t2 t3 (dtNodeToString n), ?_,
    entry_setEntry ht2 ht3 _⟩
  unfold updateTable
  rw [hsub, pure_bind_guarded]
  dsimp only
  rw [storeString_eq, pure_bind_guarded]
  rfl

theorem Holds.update {table table' : Table} {next : ℤ} (h : Holds table next)
    {n : Node} (hentry : ∀ j, entry table' j =
      if j = n.ident then some (dtNodeToString n) else entry table j) :
    Holds table' next := by
  intro i h1 hi
  rw [hentry]
  split_ifs
  · exact ⟨n, rfl⟩
  · exact h i h1 hi

/-! ## The calls on both stores -/

section Calls

section Results

variable {σ : Type} {S : Store σ} {s : StoreState σ}

theorem newDtNode_ok {parent : Option ℤ} {store store' : σ}
    (hprepare : S.prepare s.store (s.nextDtIdent + 1) = Guarded.pure store)
    (hupdate : S.update store (freshNode parent (s.nextDtIdent + 1)) =
      Guarded.pure store') :
    newDtNode S s parent =
      (.ok (some (freshNode parent (s.nextDtIdent + 1))),
        ⟨s.nextDtIdent + 1, store', s.weirdCount⟩) := by
  unfold newDtNode
  simp only [hprepare, hupdate, Guarded.pure]

theorem updateDtNode_ok {n : Node} {store : σ}
    (hupdate : S.update s.store n = Guarded.pure store) :
    updateDtNode S s n = (.ok none, { s with store := store }) := by
  unfold updateDtNode
  simp only [hupdate, Guarded.pure]

end Results

variable (o : AssertOptions)

theorem newDtNode_memory
    {s : StoreState Table} (h : Holds s.store s.nextDtIdent)
    (hnext : 0 ≤ s.nextDtIdent) (hroom : s.nextDtIdent + 1 < 2 ^ 30)
    (parent : Option ℤ) :
    ∃ table, newDtNode (memoryStore o) s parent =
        (.ok (some (freshNode parent (s.nextDtIdent + 1))),
          ⟨s.nextDtIdent + 1, table, s.weirdCount⟩) ∧
      Holds table (s.nextDtIdent + 1) := by
  have hprepare : (memoryStore o).prepare s.store (s.nextDtIdent + 1) =
      Guarded.pure (makeSubTables s.store (s.nextDtIdent + 1)) := by
    dsimp only [memoryStore]
    rw [checkIndex_eq (by omega) hroom, pure_bind_guarded]
  have hsub : ∃ x, entry (makeSubTables s.store (s.nextDtIdent + 1))
      (s.nextDtIdent + 1) = some x := by
    rw [entry_makeSubTables]
    cases entry s.store (s.nextDtIdent + 1) <;> simp
  obtain ⟨x, hx⟩ := hsub
  obtain ⟨table, htable, hentry⟩ := updateTable_ok o
    (n := freshNode parent (s.nextDtIdent + 1)) (by simp [freshNode]; omega)
    hroom hx
  refine ⟨table, newDtNode_ok hprepare htable, ?_⟩
  intro i h1 hi
  rw [hentry]
  split_ifs with heq
  · exact ⟨_, rfl⟩
  · have hne : i ≠ s.nextDtIdent + 1 := heq
    obtain ⟨n, hn⟩ := h i h1 (by omega)
    refine ⟨n, ?_⟩
    rw [entry_makeSubTables, hn]
    rfl

theorem newDtNode_full
    {s : StoreState Table} (hroom : s.nextDtIdent + 1 = 2 ^ 30)
    (parent : Option ℤ) :
    ∃ x t, newDtNode (memoryStore o) s parent = (.error x, t) := by
  have hindex : ¬ (0 ≤ i1 (s.nextDtIdent + 1) ∧
      i1 (s.nextDtIdent + 1) < 1024) := by
    unfold i1
    omega
  unfold newDtNode
  dsimp only [memoryStore]
  rw [checkIndex, if_neg hindex]
  exact ⟨_, _, rfl⟩

theorem updateDtNode_memory
    {s : StoreState Table} (h : Holds s.store s.nextDtIdent)
    (hroom : s.nextDtIdent < 2 ^ 30) {n : Node} (h1 : 1 ≤ n.ident)
    (hn : n.ident ≤ s.nextDtIdent) :
    ∃ table, updateDtNode (memoryStore o) s n =
        (.ok none, { s with store := table }) ∧
      Holds table s.nextDtIdent := by
  obtain ⟨m, hm⟩ := h n.ident h1 hn
  obtain ⟨table, htable, hentry⟩ := updateTable_ok o h1 (by omega) hm
  exact ⟨table, updateDtNode_ok htable, h.update hentry⟩

theorem getDtNode_memory
    {s : StoreState Table} (h : Holds s.store s.nextDtIdent)
    (hroom : s.nextDtIdent < 2 ^ 30) {i : ℤ} (h1 : 1 ≤ i)
    (hi : i ≤ s.nextDtIdent) :
    ∃ n, getDtNode (memoryStore o) s i = (.ok (some n), s) := by
  obtain ⟨n, hn⟩ := identToNodeTable_ok o h hroom h1 hi
  refine ⟨n, ?_⟩
  unfold getDtNode
  dsimp only [memoryStore]
  rw [hn]
  rfl

variable (createString : OString)

theorem newDtNode_file
    {s : StoreState OString} (hnext : 0 ≤ s.nextDtIdent) (parent : Option ℤ) :
    ∃ file, newDtNode (fileStore o createString) s parent =
      (.ok (some (freshNode parent (s.nextDtIdent + 1))),
        ⟨s.nextDtIdent + 1, file, s.weirdCount⟩) := by
  have hident : 1 ≤ (freshNode parent (s.nextDtIdent + 1)).ident := by
    simp [freshNode]
    omega
  exact ⟨_, newDtNode_ok (S := fileStore o createString) rfl
    (updateFile_eq o s.store hident)⟩

theorem updateDtNode_file
    (s : StoreState OString) {n : Node} (hn : 1 ≤ n.ident) :
    ∃ file, updateDtNode (fileStore o createString) s n =
      (.ok none, { s with store := file }) :=
  ⟨_, updateDtNode_ok (updateFile_eq o s.store hn)⟩

theorem getDtNode_file (s : StoreState OString) (i : ℤ) :
    ∃ x t, getDtNode (fileStore o createString) s i = (.error x, t) := by
  obtain ⟨x, w, hx⟩ :=
    identToNodeFile_raises o createString s.store i s.weirdCount
  unfold getDtNode
  dsimp only [fileStore]
  rw [hx]
  exact ⟨_, _, rfl⟩

end Calls

/-! ## Refinement -/

section Refinement

variable (o : AssertOptions) (createString : OString)

/-- From states with the same numbers the two stores answer the same just in
the lists of calls that fetch nothing. -/
theorem outputs_eq_iff_unread
    {ops : List StoreOp} {s : StoreState Table} {t : StoreState OString}
    (hnext : 0 ≤ s.nextDtIdent) (hroom : s.nextDtIdent < 2 ^ 30)
    (hholds : Holds s.store s.nextDtIdent)
    (hident : t.nextDtIdent = s.nextDtIdent)
    (hops : Created s.nextDtIdent ops) :
    Machine.outputs (storeStep (fileStore o createString)) t ops =
        Machine.outputs (storeStep (memoryStore o)) s ops ↔
      Unread s.nextDtIdent ops := by
  induction ops generalizing s t with
  | nil =>
    refine iff_of_true rfl ⟨by simp, ?_⟩
    simpa using hroom
  | cons op ops ih =>
    rw [Machine.outputs, Machine.outputs, List.cons.injEq]
    cases op with
    | newDtNode parent =>
      obtain ⟨file, hfile⟩ := newDtNode_file o createString
        (s := t) (by omega) parent
      have hunread : Unread s.nextDtIdent (.newDtNode parent :: ops) ↔
          Unread (s.nextDtIdent + 1) ops := by
        simp only [Unread, List.forall_mem_cons, StoreOp.isGet, true_and,
          List.countP_cons, StoreOp.isNew, if_true]
        push_cast
        rw [add_right_comm, add_assoc]
      rw [storeStep, storeStep, hfile]
      by_cases hfull : s.nextDtIdent + 1 < 2 ^ 30
      · obtain ⟨table, hmem, htable⟩ :=
          newDtNode_memory o hholds hnext hfull parent
        rw [hmem, hident, hunread]
        exact (and_iff_right rfl).trans (ih (by dsimp only; omega) hfull htable
          rfl hops)
      · obtain ⟨x, s', hmem⟩ :=
          newDtNode_full o (s := s) (by omega) parent
        rw [hmem, hunread]
        refine iff_of_false (fun h => by simp at h) ?_
        rintro ⟨-, hcount⟩
        omega
    | updateDtNode n =>
      obtain ⟨file, hfile⟩ := updateDtNode_file o createString t hops.1.1
      obtain ⟨table, hmem, htable⟩ :=
        updateDtNode_memory o hholds hroom hops.1.1 hops.1.2
      have hunread : Unread s.nextDtIdent (.updateDtNode n :: ops) ↔
          Unread s.nextDtIdent ops := by
        simp [Unread, StoreOp.isGet, StoreOp.isNew]
      rw [storeStep, storeStep, hfile, hmem, hunread]
      exact (and_iff_right rfl).trans (ih hnext hroom htable hident hops.2)
    | getDtNode i =>
      obtain ⟨x, t', hfile⟩ := getDtNode_file o createString t i
      obtain ⟨n, hmem⟩ := getDtNode_memory o hholds hroom hops.1.1 hops.1.2
      rw [storeStep, storeStep, hfile, hmem]
      refine iff_of_false (fun h => by simp at h) ?_
      rintro ⟨hget, -⟩
      exact absurd (hget _ List.mem_cons_self) (by simp [StoreOp.isGet])

def emptyTable (weirdCount : ℤ) : StoreState Table :=
  ⟨0, fun _ => none, weirdCount⟩

def emptyFile (weirdCount : ℤ) : StoreState OString := ⟨0, [], weirdCount⟩

/-- The file store answers every list of calls as the table in memory does just
when no node is fetched: every fetch from the file raises. -/
theorem file_refines_memory_iff
    (weirdCount : ℤ) {ops : List StoreOp} (hops : Created 0 ops) :
    Machine.outputs (storeStep (fileStore o createString))
          (emptyFile weirdCount) ops =
        Machine.outputs (storeStep (memoryStore o)) (emptyTable weirdCount)
          ops ↔
      Unread 0 ops := by
  refine outputs_eq_iff_unread o createString (s := emptyTable weirdCount)
    le_rfl (by norm_num [emptyTable]) ?_ rfl hops
  intro i h1 hi
  change i ≤ 0 at hi
  omega

end Refinement

/-- Two nodes are made, and one is changed. -/
theorem file_refines_memory_twoNodes :
    Machine.outputs (storeStep (fileStore .default (List.replicate 54 0)))
        (emptyFile 0)
        [.newDtNode none, .newDtNode (some 1), .updateDtNode (choiceRoot 2)] =
      Machine.outputs (storeStep (memoryStore .default)) (emptyTable 0)
        [.newDtNode none, .newDtNode (some 1),
          .updateDtNode (choiceRoot 2)] := by
  refine (file_refines_memory_iff .default _ 0 ?_).mpr ?_
  · exact ⟨by decide, trivial⟩
  · exact ⟨by simp [StoreOp.isGet], by simp [List.countP_cons, StoreOp.isNew]⟩

/-- A node is made and fetched. -/
theorem fetch_fromFile_raises :
    Machine.outputs (storeStep (memoryStore .default)) (emptyTable 0)
        [.newDtNode none, .getDtNode 1] =
      [.ok (some (freshNode none 1)), .ok (some (freshNode none 1))] ∧
    Machine.outputs (storeStep (fileStore .default (List.replicate 54 0)))
        (emptyFile 0) [.newDtNode none, .getDtNode 1] ≠
      Machine.outputs (storeStep (memoryStore .default)) (emptyTable 0)
        [.newDtNode none, .getDtNode 1] := by
  decide +kernel

end Fuzzball.DecisionTree
