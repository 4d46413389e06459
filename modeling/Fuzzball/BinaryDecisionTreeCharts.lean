import Fuzzball.BinaryDecisionTreeMethods
import Fuzzball.ChoiceTree

/-!
# What the binary decision tree knows of a program

A chart gives a node of the table in memory to each place of a tree of choices
that has been found feasible.  The records that are fetched show what the
chart says of their places.
-/

namespace Fuzzball

/-! ## Programs that return -/

section Returns

variable {ε σ α β : Type} {s : σ} {x : Stateful ε σ α} {P : α → σ → Prop}

/-- The program returns a value and leaves a state with a property. -/
def Returns (s : σ) (x : Stateful ε σ α) (P : α → σ → Prop) : Prop :=
  ∃ a s', x.run s = (.ok a, s') ∧ P a s'

theorem Returns.of_ok {a : α} {s' : σ} (h : x.run s = (.ok a, s'))
    (hP : P a s') : Returns s x P :=
  ⟨a, s', h, hP⟩

theorem Returns.pure {a : α} (hP : P a s) :
    Returns s (Pure.pure a : Stateful ε σ α) P :=
  ⟨a, s, rfl, hP⟩

theorem Returns.bind {f : α → Stateful ε σ β} {Q : β → σ → Prop}
    (hx : Returns s x P) (hf : ∀ a s', P a s' → Returns s' (f a) Q) :
    Returns s (x >>= f) Q := by
  obtain ⟨a, s1, h1, hP⟩ := hx
  obtain ⟨b, s2, h2, hQ⟩ := hf a s1 hP
  exact ⟨b, s2, (Stateful.run_bind_ok h1).trans h2, hQ⟩

/-- A step that does not change the state. -/
theorem Returns.read_bind {f : α → Stateful ε σ β} {Q : β → σ → Prop} {a : α}
    (hx : x.run s = (.ok a, s)) (h : Returns s (f a) Q) :
    Returns s (x >>= f) Q := by
  obtain ⟨b, s2, h2, hQ⟩ := h
  exact ⟨b, s2, (Stateful.run_bind_ok hx).trans h2, hQ⟩

theorem Returns.mono {Q : α → σ → Prop} (h : Returns s x P)
    (hPQ : ∀ a s', P a s' → Q a s') : Returns s x Q := by
  obtain ⟨a, s', hrun, hP⟩ := h
  exact ⟨a, s', hrun, hPQ a s' hP⟩

end Returns

end Fuzzball

namespace Fuzzball.BinaryDecisionTree

open DecisionTree

/-! ## Charts -/

/-- A decision of a program: its location, and whether a jump or the value of
a Boolean asks for it. -/
structure Decision where
  eipLoc : I64
  isJump : Bool

abbrev Program := ChoiceTree Decision

/-- What is known of the places of a program: their nodes, the sides whose
feasibility has been found out, the places that a path has reached, those that
the decision above has counted, and those that are marked as seen. -/
structure Chart where
  ident : List Bool → ℤ
  resolved : Finset (List Bool)
  reached : Finset (List Bool)
  counted : Finset (List Bool)
  seen : Set (List Bool)

/-- There is a node for the place. -/
def Chart.Has (c : Chart) (p : Program) (h : List Bool) : Prop :=
  h = [] ∨ h ∈ c.resolved ∧ p.Has h

/-- How many sides have been counted. -/
def Chart.count (c : Chart) (h : List Bool) : ℤ :=
  (if false :: h ∈ c.counted then 1 else 0) +
    if true :: h ∈ c.counted then 1 else 0

def Chart.child (c : Chart) (p : Program) (h : List Bool) : Option (Option ℤ) :=
  if h ∈ c.resolved then
    if p.Has h then some (some (c.ident h)) else some none
  else none

def Chart.parent (c : Chart) : List Bool → Option ℤ
  | [] => none
  | _ :: h => some (c.ident h)

/-- The record shows the place, but for the values of heuristics. -/
structure Chart.Shows (c : Chart) (p : Program) (h : List Bool) (n : Node) :
    Prop where
  ident : n.ident = c.ident h
  parent : n.parent = c.parent h
  child : ∀ b, BinaryDecisionTree.child b n = c.child p (b :: h)
  allSeen : n.allSeen = true ↔ h ∈ c.seen
  queryChildren : n.queryChildren =
    if h ∈ c.reached then some (c.count h) else none
  queryCounted : n.queryCounted = true ↔ h ∈ c.reached ∧ h ≠ []
  eipLoc : ∀ d feasible sub, p.subtree h = some (.node d feasible sub) →
    n.eipLoc = 0 ∨ n.eipLoc = d.eipLoc

/-- The table and the records are as the chart says. -/
structure Chart.Drawn (c : Chart) (p : Program) (s : TreeState Table) : Prop
    extends Linked s where
  root : s.rootIdent = c.ident []
  closed : ∀ b h, b :: h ∈ c.resolved → c.Has p h
  stored : ∀ h, c.Has p h → Stored s.nodes (c.ident h)
  injective : ∀ g h, c.Has p g → c.Has p h → c.ident g = c.ident h → g = h
  node : ∀ h, c.Has p h →
    ∃ n, nodeAt s.nodes (c.ident h) = some n ∧ c.Shows p h n

/-- There are at most three nodes more than sides that were found feasible. -/
def Chart.Room (c : Chart) (p : Program) (s : TreeState Table) : Prop :=
  s.nodes.nextDtIdent ≤ 3 + (c.resolved ∩ p.places).card

section Charts

variable {c : Chart} {p : Program} {s s' : TreeState Table} {h : List Bool}
  {n : Node} {a : ℕ}

theorem Chart.Has.has (hh : c.Has p h) : p.Has h := by
  rcases hh with rfl | ⟨-, hh⟩
  · exact ChoiceTree.has_nil
  · exact hh

theorem Chart.Has.resolved {b : Bool} (hh : c.Has p (b :: h)) :
    b :: h ∈ c.resolved :=
  hh.resolve_left (List.cons_ne_nil b h) |>.1

theorem Chart.Drawn.has_tail (hd : c.Drawn p s) {b : Bool}
    (hh : c.Has p (b :: h)) : c.Has p h :=
  hd.closed b h hh.resolved

theorem Chart.count_range (c : Chart) (h : List Bool) :
    0 ≤ c.count h ∧ c.count h ≤ 2 := by
  unfold Chart.count
  split_ifs <;> omega

/-- The table keeps what a record shows. -/
theorem Chart.Shows.fetched (hn : c.Shows p h n) {nodes : StoreState Table}
    (hl : Legal nodes n) : c.Shows p h n.stored where
  ident := hn.ident
  parent := hl.stored_parent.trans hn.parent
  child := fun b => (hl.stored_child b).trans (hn.child b)
  allSeen := hn.allSeen
  queryChildren := by
    have hrange := c.count_range h
    rw [← hn.queryChildren]
    apply (queryChildren_stored_iff n).mpr
    intro k hk
    rw [hn.queryChildren] at hk
    split_ifs at hk
    cases hk
    omega
  queryCounted := hn.queryCounted
  eipLoc := hn.eipLoc

/-! ## Reading -/

/-- Records are allocated and nothing else happens. -/
structure Reads (s s' : TreeState Table) : Prop where
  eq : s' = { s with records := s'.records }
  next_le : s.records.next ≤ s'.records.next
  get_eq : ∀ a < s.records.next, s'.records.get a = s.records.get a
  linked : Linked s → Linked s'

theorem Reads.refl (s : TreeState Table) : Reads s s :=
  ⟨rfl, le_rfl, fun _ _ => rfl, id⟩

theorem Reads.trans {s'' : TreeState Table} (hr : Reads s s')
    (hr' : Reads s' s'') : Reads s s'' where
  eq := by
    rw [hr'.eq, hr.eq]
  next_le := hr.next_le.trans hr'.next_le
  get_eq := fun a ha =>
    (hr'.get_eq a (ha.trans_le hr.next_le)).trans (hr.get_eq a ha)
  linked := hr'.linked ∘ hr.linked

theorem Reads.nodes (hr : Reads s s') : s'.nodes = s.nodes := by
  rw [hr.eq]

theorem Reads.cur (hr : Reads s s') : s'.cur = s.cur := by
  rw [hr.eq]

theorem Reads.curQuery (hr : Reads s s') : s'.curQuery = s.curQuery := by
  rw [hr.eq]

theorem Reads.depth (hr : Reads s s') : s'.depth = s.depth := by
  rw [hr.eq]

theorem Reads.rootIdent (hr : Reads s s') : s'.rootIdent = s.rootIdent := by
  rw [hr.eq]

theorem Chart.Drawn.reads (hd : c.Drawn p s) (hr : Reads s s') :
    c.Drawn p s' where
  toLinked := hr.linked hd.toLinked
  root := hr.rootIdent.trans hd.root
  closed := hd.closed
  stored := fun h hh => by
    rw [hr.nodes]
    exact hd.stored h hh
  injective := hd.injective
  node := fun h hh => by
    rw [hr.nodes]
    exact hd.node h hh

/-- Record `a` shows the place. -/
def Chart.At (c : Chart) (p : Program) (s : TreeState Table) (h : List Bool)
    (a : ℕ) : Prop :=
  a < s.records.next ∧ c.Shows p h (s.records.get a)

theorem Chart.At.reads (ha : c.At p s h a) (hr : Reads s s') :
    c.At p s' h a := by
  refine ⟨ha.1.trans_le hr.next_le, ?_⟩
  rw [hr.get_eq a ha.1]
  exact ha.2

variable (o : AssertOptions)

theorem identToNode_returns (hs : Linked s) {i : ℤ} (hi : Stored s.nodes i)
    (hn : nodeAt s.nodes i = some n) :
    Returns s (identToNode (memoryStore o) i) fun a s' =>
      Reads s s' ∧ s.records.next ≤ a ∧ a < s'.records.next ∧
        s'.records.get a = n := by
  obtain ⟨m, hm, -, hat, hx⟩ := hs.fetch_stored o hi s.nodes.weirdCount
  obtain rfl : m = n := Option.some.inj (hat.symm.trans hn)
  have hrun := guarded_run (identToNodeTable o s.nodes.store i) s
  rw [hx] at hrun
  have hpush : Linked { s with records := s.records.push m } :=
    ⟨hs.toLinks.push hm, hs.cur_lt.trans (Nat.lt_succ_self _),
      hs.curQuery_lt.trans (Nat.lt_succ_self _)⟩
  have hrun' : (identToNode (memoryStore o) i).run s =
      (.ok s.records.next, { s with records := s.records.push m }) :=
    (Stateful.run_bind_ok (Stateful.run_get s)).trans
      (Stateful.run_bind_ok hrun)
  refine .of_ok hrun' ⟨⟨rfl, Nat.le_succ _, ?_, fun _ => hpush⟩, le_rfl,
    Nat.lt_succ_self _, Heap.push_get_next _ _⟩
  intro b hb
  exact Heap.push_get_of_lt hb m

/-- A node that is fetched shows its place. -/
theorem fetch_returns (hd : c.Drawn p s) (hh : c.Has p h) :
    Returns s (identToNode (memoryStore o) (c.ident h)) fun a s' =>
      Reads s s' ∧ s.records.next ≤ a ∧ c.At p s' h a := by
  obtain ⟨n, hn, hshow⟩ := hd.node h hh
  apply (identToNode_returns o hd.toLinked (hd.stored h hh) hn).mono
  rintro a s' ⟨hr, hnew, ha, hget⟩
  exact ⟨hr, hnew, ha, hget ▸ hshow⟩

theorem getParent_root (ha : c.At p s [] a) :
    (getParent (memoryStore o) a).run s = (.ok none, s) := by
  apply (Stateful.run_bind_ok (node_run s a)).trans
  rw [ha.2.parent]
  rfl

theorem getParent_returns (hd : c.Drawn p s) {b : Bool}
    (hh : c.Has p (b :: h)) (ha : c.At p s (b :: h) a) :
    Returns s (getParent (memoryStore o) a) fun q s' =>
      Reads s s' ∧ ∃ x, q = some x ∧ s.records.next ≤ x ∧ c.At p s' h x := by
  apply Returns.read_bind (node_run s a)
  rw [ha.2.parent]
  apply (fetch_returns o hd (hd.has_tail hh)).bind
  rintro x s1 ⟨hr, hnew, hx⟩
  exact .pure ⟨hr, x, rfl, hnew, hx⟩

/-- What a fetched side is. -/
def Chart.Side (c : Chart) (p : Program) (s : TreeState Table)
    (h : List Bool) : Option (Option ℕ) → Prop
  | none => h ∉ c.resolved
  | some none => h ∈ c.resolved ∧ ¬ p.Has h
  | some (some x) => h ∈ c.resolved ∧ p.Has h ∧ c.At p s h x

theorem Chart.Side.reads {k : Option (Option ℕ)} (hk : c.Side p s h k)
    (hr : Reads s s') : c.Side p s' h k := by
  match k with
  | none => exact hk
  | some none => exact hk
  | some (some x) => exact ⟨hk.1, hk.2.1, hk.2.2.reads hr⟩

theorem getChild_returns (hd : c.Drawn p s) (b : Bool) (ha : c.At p s h a) :
    Returns s (getChild (memoryStore o) b a) fun k s' =>
      Reads s s' ∧ c.Side p s' (b :: h) k := by
  apply Returns.read_bind (node_run s a)
  rw [ha.2.child b, Chart.child]
  split_ifs with hres hp
  · apply (fetch_returns o hd (.inr ⟨hres, hp⟩)).bind
    rintro x s1 ⟨hr, -, hx⟩
    exact .pure ⟨hr, hres, hp, hx⟩
  · exact .pure ⟨.refl s, hres, hp⟩
  · exact .pure ⟨.refl s, hres⟩

/-- Both sides of a place. -/
theorem sides_return {α : Type} {f : Option (Option ℕ) → Option (Option ℕ) →
    Tree Table α} {P : α → TreeState Table → Prop} (hd : c.Drawn p s)
    (ha : c.At p s h a) (hf : ∀ kf kt s', Reads s s' →
      c.Side p s' (false :: h) kf → c.Side p s' (true :: h) kt →
      Returns s' (f kf kt) P) :
    Returns s (do
      let kf ← getFChild (memoryStore o) a
      let kt ← getTChild (memoryStore o) a
      f kf kt) P := by
  apply (getChild_returns o hd false ha).bind
  rintro kf s1 ⟨hr1, hkf⟩
  apply (getChild_returns o (hd.reads hr1) true (ha.reads hr1)).bind
  rintro kt s2 ⟨hr2, hkt⟩
  exact hf kf kt s2 (hr1.trans hr2) (hkf.reads hr2) hkt

/-- Whether a side is marked. -/
theorem isSeen_run {k : Option (Option ℕ)} (hk : c.Side p s h k) :
    ∃ b, (isSeen k).run s = (.ok b, s) ∧
      (b = true ↔ h ∈ c.resolved ∧ p.Has h ∧ h ∈ c.seen) := by
  match k with
  | none =>
    refine ⟨false, rfl, ?_⟩
    exact iff_of_false Bool.false_ne_true fun hh => hk hh.1
  | some none =>
    refine ⟨false, rfl, ?_⟩
    exact iff_of_false Bool.false_ne_true fun hh => hk.2 hh.2.1
  | some (some x) =>
    refine ⟨(s.records.get x).allSeen, rfl, ?_⟩
    rw [hk.2.2.2.allSeen]
    exact ⟨fun hseen => ⟨hk.1, hk.2.1, hseen⟩, fun hh => hh.2.2⟩

theorem assert_run {o : TreeOptions} {assertion : Bool} (sawAt : String)
    (hb : assertion = true) (s : TreeState Table) :
    (assert o assertion sawAt).run s = (.ok (), s) := by
  rw [assert, gAssert_true hb]
  rfl

/-! ## Writing -/

/-- No record but those in `A` changes, and the current place does not. -/
structure Keeps (A : Set ℕ) (s s' : TreeState Table) : Prop where
  cur : s'.cur = s.cur
  curQuery : s'.curQuery = s.curQuery
  depth : s'.depth = s.depth
  rootIdent : s'.rootIdent = s.rootIdent
  next_le : s.records.next ≤ s'.records.next
  get_eq : ∀ a < s.records.next, a ∉ A → s'.records.get a = s.records.get a

theorem Reads.keeps (hr : Reads s s') (A : Set ℕ) : Keeps A s s' :=
  ⟨hr.cur, hr.curQuery, hr.depth, hr.rootIdent, hr.next_le,
    fun a ha _ => hr.get_eq a ha⟩

theorem Keeps.trans {A : Set ℕ} {s'' : TreeState Table} (hk : Keeps A s s')
    (hk' : Keeps A s' s'') : Keeps A s s'' where
  cur := hk'.cur.trans hk.cur
  curQuery := hk'.curQuery.trans hk.curQuery
  depth := hk'.depth.trans hk.depth
  rootIdent := hk'.rootIdent.trans hk.rootIdent
  next_le := hk.next_le.trans hk'.next_le
  get_eq := fun a ha hA =>
    (hk'.get_eq a (ha.trans_le hk.next_le) hA).trans (hk.get_eq a ha hA)

theorem Chart.At.keeps {A : Set ℕ} (ha : c.At p s h a) (hk : Keeps A s s')
    (hA : a ∉ A) : c.At p s' h a := by
  refine ⟨ha.1.trans_le hk.next_le, ?_⟩
  rw [hk.get_eq a ha.1 hA]
  exact ha.2

/-- A record is changed, and the table is not. -/
theorem assign_returns (hd : c.Drawn p s) {f : Node → Node}
    (hl : Legal s.nodes (f (s.records.get a))) :
    Returns s (assign a f) fun _ s' =>
      c.Drawn p s' ∧ Keeps {a} s s' ∧ s'.nodes = s.nodes ∧
        s'.records.next = s.records.next ∧
        s'.records.get a = f (s.records.get a) := by
  refine .of_ok (a := ()) rfl ⟨⟨⟨hd.toLinks.set hl a, hd.cur_lt,
    hd.curQuery_lt⟩, hd.root, hd.closed, hd.stored, hd.injective, hd.node⟩,
    ⟨rfl, rfl, rfl, rfl, le_rfl, ?_⟩, rfl, rfl, Heap.set_get _ _ _⟩
  intro b _ hb
  exact Heap.set_get_of_ne _ _ hb

/-- A record is stored, by which the table shows another chart. -/
theorem updateDtNode_returns {c' : Chart} (hs : Linked s)
    (ha : c'.At p s h a) (hroot : s.rootIdent = c'.ident [])
    (hclosed : ∀ b g, b :: g ∈ c'.resolved → c'.Has p g)
    (hinj : ∀ g k, c'.Has p g → c'.Has p k → c'.ident g = c'.ident k → g = k)
    (hh : c'.Has p h)
    (hold : ∀ g, c'.Has p g → g ≠ h → Stored s.nodes (c'.ident g) ∧
      ∃ n, nodeAt s.nodes (c'.ident g) = some n ∧ c'.Shows p g n) :
    Returns s (updateDtNode (memoryStore o) a) fun _ s' =>
      c'.Drawn p s' ∧ s'.records = s.records ∧ Keeps ∅ s s' ∧
        s'.nodes.nextDtIdent = s.nodes.nextDtIdent := by
  have hlegal := hs.record a ha.1
  obtain ⟨m, -, -, hentry⟩ := hs.entry_eq _ hlegal.stored
  obtain ⟨table, htable, hset⟩ :=
    updateTable_ok o hlegal.stored.1 hlegal.stored.2.2 hentry
  obtain ⟨table', htable', -, hlinks⟩ := hs.update o hlegal
  obtain rfl : table = table' := by
    have heq := congrFun (htable.symm.trans htable') 0
    exact Except.ok.inj (congrArg Prod.fst heq)
  have hrun : (updateDtNode (memoryStore o) a).run s =
      (.ok (), { s with nodes := { s.nodes with store := table } }) := by
    apply (Stateful.run_bind_ok (Stateful.run_get s)).trans
    have hupdate : (memoryStore o).update s.nodes.store (s.records.get a) =
        Guarded.pure table := htable
    rw [hupdate]
    exact Stateful.run_bind_ok (guarded_pure_run table s)
  have hat : ∀ i, nodeAt { s.nodes with store := table } i =
      if i = (s.records.get a).ident then some (s.records.get a).stored
      else nodeAt s.nodes i := by
    intro i
    split_ifs with hi
    · rw [hi]
      exact nodeAt_of_entry ((hset _).trans (if_pos rfl))
    · unfold nodeAt
      rw [hset, if_neg hi]
  refine .of_ok hrun ⟨⟨⟨hlinks, hs.cur_lt, hs.curQuery_lt⟩, hroot, hclosed,
    ?_, hinj, ?_⟩, rfl, ⟨rfl, rfl, rfl, rfl, le_rfl,
    fun _ _ _ => rfl⟩, rfl⟩
  · intro g hg
    by_cases heq : g = h
    · rw [heq, ← ha.2.ident]
      exact hlegal.stored
    · exact (hold g hg heq).1
  · intro g hg
    by_cases heq : g = h
    · subst heq
      refine ⟨_, ?_, ha.2.fetched hlegal⟩
      rw [hat, if_pos ha.2.ident.symm]
    · obtain ⟨n, hn, hshow⟩ := (hold g hg heq).2
      refine ⟨n, ?_, hshow⟩
      have hne : c'.ident g ≠ (s.records.get a).ident := by
        rw [ha.2.ident]
        exact fun h => heq (hinj _ _ hg hh h)
      rw [hat, if_neg hne]
      exact hn

/-- The same places are known of another chart. -/
structure Chart.Alike (c c' : Chart) : Prop where
  ident : c'.ident = c.ident
  resolved : c'.resolved = c.resolved

theorem Chart.Alike.has_iff {c' : Chart} (hc : c.Alike c') :
    c'.Has p h ↔ c.Has p h := by
  unfold Chart.Has
  rw [hc.resolved]

/-- What a record shows but for the fields on the path. -/
theorem Chart.Alike.shows {c' : Chart} (hc : c.Alike c')
    (hn : c.Shows p h n) (hseen : h ∈ c'.seen ↔ h ∈ c.seen)
    (hreached : h ∈ c'.reached ↔ h ∈ c.reached)
    (hcounted : ∀ b, b :: h ∈ c'.counted ↔ b :: h ∈ c.counted) :
    c'.Shows p h n where
  ident := by
    rw [hc.ident]
    exact hn.ident
  parent := by
    rw [hn.parent]
    cases h with
    | nil => rfl
    | cons b h => rw [Chart.parent, Chart.parent, hc.ident]
  child := by
    intro b
    rw [hn.child, Chart.child, Chart.child, hc.resolved, hc.ident]
  allSeen := hn.allSeen.trans hseen.symm
  queryChildren := by
    rw [hn.queryChildren]
    simp only [Chart.count, hreached, hcounted]
  queryCounted := by
    rw [hn.queryCounted, hreached]
  eipLoc := hn.eipLoc

/-- A record is stored where nothing else is known of the other places. -/
theorem updateDtNode_alike {c' : Chart} (hd : c.Drawn p s) (hc : c.Alike c')
    (ha : c'.At p s h a) (hh : c.Has p h)
    (hsame : ∀ g, c.Has p g → g ≠ h → ∀ n, c.Shows p g n → c'.Shows p g n) :
    Returns s (updateDtNode (memoryStore o) a) fun _ s' =>
      c'.Drawn p s' ∧ s'.records = s.records ∧ Keeps ∅ s s' ∧
        s'.nodes.nextDtIdent = s.nodes.nextDtIdent := by
  apply updateDtNode_returns o hd.toLinked ha
  · rw [hc.ident]
    exact hd.root
  · intro b g hg
    rw [hc.resolved] at hg
    exact hc.has_iff.mpr (hd.closed b g hg)
  · intro g k hg hk heq
    rw [hc.ident] at heq
    exact hd.injective g k (hc.has_iff.mp hg) (hc.has_iff.mp hk) heq
  · exact hc.has_iff.mpr hh
  · intro g hg hne
    have hg' := hc.has_iff.mp hg
    obtain ⟨n, hn, hshow⟩ := hd.node g hg'
    rw [hc.ident]
    exact ⟨hd.stored g hg', n, hn, hsame g hg' hne n hshow⟩

end Charts

end Fuzzball.BinaryDecisionTree
