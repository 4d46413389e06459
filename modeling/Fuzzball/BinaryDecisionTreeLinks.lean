import Fuzzball.BinaryDecisionTree

/-!
# Links of the binary decision tree

With the table in memory every record of a node keeps the parent it was made
with, which has a smaller number, and refers only to children that were made
for it.  The methods preserve this, whether they return or raise, and none of
their loops uses up its fuel.
-/

namespace Fuzzball.BinaryDecisionTree

open DecisionTree

/-! ## Stored nodes -/

section Nodes

variable {nodes nodes' : StoreState Table} {n : Node} {i : ℤ}

/-- The numbers of the nodes in the table. -/
def Stored (nodes : StoreState Table) (i : ℤ) : Prop :=
  1 ≤ i ∧ i ≤ nodes.nextDtIdent ∧ i < 2 ^ 30

/-- The node that is fetched for a number. -/
def nodeAt (nodes : StoreState Table) (i : ℤ) : Option Node :=
  (entry nodes.store i).bind fun s => (stringToDtNode i s).toOption

def parentOf (nodes : StoreState Table) (i : ℤ) : Option ℤ :=
  (nodeAt nodes i).bind Node.parent

/-- The links of a record are those of the stored nodes. -/
structure Legal (nodes : StoreState Table) (n : Node) : Prop where
  stored : Stored nodes n.ident
  parentOf_eq : parentOf nodes n.ident = n.parent
  parent_lt : ∀ p, n.parent = some p → 1 ≤ p ∧ p < n.ident
  child_gt : ∀ b k, child b n = some (some k) →
    n.ident < k ∧ Stored nodes k ∧ parentOf nodes k = some n.ident

theorem Stored.mono (h : Stored nodes i)
    (hle : nodes.nextDtIdent ≤ nodes'.nextDtIdent) : Stored nodes' i :=
  ⟨h.1, h.2.1.trans hle, h.2.2⟩

theorem Legal.mono (h : Legal nodes n)
    (hle : nodes.nextDtIdent ≤ nodes'.nextDtIdent)
    (hparent : ∀ i, Stored nodes i → parentOf nodes' i = parentOf nodes i) :
    Legal nodes' n where
  stored := h.stored.mono hle
  parentOf_eq := (hparent _ h.stored).trans h.parentOf_eq
  parent_lt := h.parent_lt
  child_gt := by
    intro b k hk
    obtain ⟨hlt, hstored, hparentOf⟩ := h.child_gt b k hk
    exact ⟨hlt, hstored.mono hle, (hparent k hstored).trans hparentOf⟩

/-- A change of other fields. -/
theorem Legal.of_links {m : Node} (h : Legal nodes n)
    (hident : m.ident = n.ident) (hparent : m.parent = n.parent)
    (hchild : ∀ b, child b m = child b n) : Legal nodes m where
  stored := hident ▸ h.stored
  parentOf_eq := by
    rw [hident, hparent]
    exact h.parentOf_eq
  parent_lt := by
    rw [hident, hparent]
    exact h.parent_lt
  child_gt := by
    intro b k hk
    rw [hident]
    exact h.child_gt b k (hchild b ▸ hk)

@[simp] theorem child_setChild (b c : Bool) (k : Option (Option ℤ)) (n : Node) :
    child c (setChild b k n) = if c = b then k else child c n := by
  cases b <;> cases c <;> rfl

@[simp] theorem ident_setChild (b : Bool) (k : Option (Option ℤ)) (n : Node) :
    (setChild b k n).ident = n.ident := by
  cases b <;> rfl

@[simp] theorem parent_setChild (b : Bool) (k : Option (Option ℤ)) (n : Node) :
    (setChild b k n).parent = n.parent := by
  cases b <;> rfl

theorem Legal.setChild (h : Legal nodes n) {b : Bool} {k : Option (Option ℤ)}
    (hk : ∀ i, k = some (some i) →
      n.ident < i ∧ Stored nodes i ∧ parentOf nodes i = some n.ident) :
    Legal nodes (BinaryDecisionTree.setChild b k n) where
  stored := by
    rw [ident_setChild]
    exact h.stored
  parentOf_eq := by
    rw [ident_setChild, parent_setChild]
    exact h.parentOf_eq
  parent_lt := by
    rw [ident_setChild, parent_setChild]
    exact h.parent_lt
  child_gt := by
    intro c i hi
    rw [child_setChild] at hi
    rw [ident_setChild]
    split_ifs at hi
    · exact hk i hi
    · exact h.child_gt c i hi

theorem mask32_of_range (h0 : 0 ≤ i) (hi : i < 2 ^ 31) :
    (mask32 i : ℤ) = i := by
  unfold mask32
  omega

theorem Legal.stored_parent (h : Legal nodes n) : n.stored.parent = n.parent := by
  have hn := h.stored.2.2
  unfold Node.stored
  dsimp only
  cases hp : n.parent with
  | none => rfl
  | some p =>
    obtain ⟨h1, hlt⟩ := h.parent_lt p hp
    rw [Option.getD_some, mask32_of_range (by omega) (by omega),
      if_neg (by omega)]

theorem kidToOo_kidToInt {k : Option (Option ℤ)}
    (hk : ∀ i, k = some (some i) → 1 ≤ i ∧ i < 2 ^ 30) :
    kidToOo (mask32 (kidToInt k)) = k := by
  match k with
  | none => rfl
  | some none => rfl
  | some (some i) =>
    obtain ⟨h1, hlt⟩ := hk i rfl
    rw [kidToInt, mask32_of_range (by omega) (by omega), kidToOo,
      if_neg (by omega), if_neg (by omega)]

theorem Legal.stored_child (h : Legal nodes n) (b : Bool) :
    child b n.stored = child b n := by
  have hrange : ∀ b i, child b n = some (some i) → 1 ≤ i ∧ i < 2 ^ 30 := by
    intro b i hi
    obtain ⟨-, hs, -⟩ := h.child_gt b i hi
    exact ⟨hs.1, hs.2.2⟩
  cases b with
  | false => exact kidToOo_kidToInt (hrange false)
  | true => exact kidToOo_kidToInt (hrange true)

theorem Legal.fetched (h : Legal nodes n) : Legal nodes n.stored :=
  h.of_links rfl h.stored_parent h.stored_child

theorem nodeAt_of_entry
    (h : entry nodes.store n.ident = some (dtNodeToString n)) :
    nodeAt nodes n.ident = some n.stored := by
  unfold nodeAt
  rw [h, Option.bind_some, stringToDtNode_dtNodeToString]
  rfl

end Nodes

/-! ## The invariant -/

/-- The table and the records. -/
structure Links (nodes : StoreState Table) (records : Heap Node) : Prop where
  next_nonneg : 0 ≤ nodes.nextDtIdent
  entry_eq : ∀ i, Stored nodes i → ∃ n, n.ident = i ∧ Legal nodes n ∧
    entry nodes.store i = some (dtNodeToString n)
  entry_other : ∀ i s, entry nodes.store i = some s → s = [] ∨ Stored nodes i
  record : ∀ a < records.next, Legal nodes (records.get a)

structure Linked (s : TreeState Table) : Prop
    extends Links s.nodes s.records where
  cur_lt : s.cur < s.records.next
  curQuery_lt : s.curQuery < s.records.next

/-- Nodes and records are made but not given other numbers or parents. -/
structure Grows (s s' : TreeState Table) : Prop where
  next_le : s.nodes.nextDtIdent ≤ s'.nodes.nextDtIdent
  records_le : s.records.next ≤ s'.records.next
  parentOf_eq : ∀ i, Stored s.nodes i →
    parentOf s'.nodes i = parentOf s.nodes i
  ident_eq : ∀ a < s.records.next,
    (s'.records.get a).ident = (s.records.get a).ident

/-- No node is made. -/
structure Within (s s' : TreeState Table) : Prop extends Grows s s' where
  next_eq : s'.nodes.nextDtIdent = s.nodes.nextDtIdent

theorem Grows.refl (s : TreeState Table) : Grows s s :=
  ⟨le_rfl, le_rfl, fun _ _ => rfl, fun _ _ => rfl⟩

theorem Grows.trans {s s' s'' : TreeState Table} (h : Grows s s')
    (h' : Grows s' s'') : Grows s s'' where
  next_le := h.next_le.trans h'.next_le
  records_le := h.records_le.trans h'.records_le
  parentOf_eq := fun i hi =>
    (h'.parentOf_eq i (hi.mono h.next_le)).trans (h.parentOf_eq i hi)
  ident_eq := fun a ha =>
    (h'.ident_eq a (ha.trans_le h.records_le)).trans (h.ident_eq a ha)

instance : Std.Refl Grows := ⟨Grows.refl⟩

instance : IsTrans (TreeState Table) Grows := ⟨fun _ _ _ => Grows.trans⟩

instance : Std.Refl Within := ⟨fun s => ⟨.refl s, rfl⟩⟩

instance : IsTrans (TreeState Table) Within :=
  ⟨fun _ _ _ h h' => ⟨h.toGrows.trans h'.toGrows, h'.next_eq.trans h.next_eq⟩⟩

theorem Grows.lt {s s' : TreeState Table} (h : Grows s s') {a : ℕ}
    (ha : a < s.records.next) : a < s'.records.next :=
  ha.trans_le h.records_le

/-- A program that keeps the links and makes no nodes. -/
abbrev Safe {α : Type} (s : TreeState Table) (x : Tree Table α)
    (P : α → TreeState Table → Prop) : Prop :=
  Ends Linked Within (· ≠ TreeExn.diverges) s x P

/-- A program that keeps the links. -/
abbrev Makes {α : Type} (s : TreeState Table) (x : Tree Table α)
    (P : α → TreeState Table → Prop) : Prop :=
  Ends Linked Grows (· ≠ TreeExn.diverges) s x P

theorem Safe.makes {α : Type} {s : TreeState Table} {x : Tree Table α}
    {P : α → TreeState Table → Prop} (h : Safe s x P) : Makes s x P :=
  h.weaken fun _ h => h.toGrows

/-! ## The table -/

section Fetching

variable {o : AssertOptions} {nodes : StoreState Table} {records : Heap Node}

theorem fetchString_nil (o : AssertOptions) (i : ℤ) :
    Raises (fetchString o i []) := by
  have herr : ∃ e, stringToDtNode i [] = .error e := ⟨_, rfl⟩
  obtain ⟨e, he⟩ := herr
  refine Raises.bind fun _ _ => ?_
  rw [he]
  exact Raises.lift

theorem entry_of_subTable {table : Table} {i w w' : ℤ}
    {t : (ℤ → Option (ℤ → OString)) × (ℤ → OString)}
    (h : subTable table i w = (.ok t, w')) :
    subTable table i = Guarded.pure t ∧
      entry table i = some (t.2 (i3 i)) := by
  unfold subTable checkIndex at h ⊢
  by_cases hi : 0 ≤ i1 i ∧ i1 i < 1024
  · rw [if_pos hi, pure_bind_guarded] at h ⊢
    unfold entry
    cases h1 : table (i1 i) with
    | none =>
      rw [h1] at h
      cases h
    | some t2 =>
      rw [h1] at h
      dsimp only at h ⊢
      cases h2 : t2 (i2 i) with
      | none =>
        rw [h2] at h
        cases h
      | some t3 =>
        rw [h2] at h
        cases h
        exact ⟨rfl, by rw [Option.bind_some, h2, Option.map_some]⟩
  · rw [if_neg hi] at h
    cases h

/-- A fetch raises, or it returns a node with the links of the table. -/
theorem Links.fetch (h : Links nodes records) (o : AssertOptions) (i w : ℤ) :
    (∃ x w', identToNodeTable o nodes.store i w = (.error x, w')) ∨
      ∃ n, Legal nodes n ∧ n.ident = i ∧ nodeAt nodes i = some n ∧
        identToNodeTable o nodes.store i w = (.ok n, w) := by
  unfold identToNodeTable
  rcases hsub : subTable nodes.store i w with ⟨x | t, w'⟩
  · left
    refine ⟨x, w', ?_⟩
    change Guarded.bind _ _ _ = _
    rw [Guarded.bind, hsub]
  · obtain ⟨hpure, hentry⟩ := entry_of_subTable hsub
    rw [hpure, pure_bind_guarded]
    obtain ⟨t2, t3⟩ := t
    dsimp only at hentry ⊢
    rcases h.entry_other i _ hentry with hnil | hstored
    · rw [hnil]
      exact .inl (fetchString_nil o i w)
    · right
      obtain ⟨n, rfl, hlegal, hn⟩ := h.entry_eq i hstored
      rw [hn, Option.some.injEq] at hentry
      refine ⟨n.stored, hlegal.fetched, rfl, nodeAt_of_entry hn, ?_⟩
      unfold fetchString
      rw [← hentry,
        gAssert_true (decide_eq_true (length_dtNodeToString n)),
        pure_bind_guarded, stringToDtNode_dtNodeToString]
      rfl

theorem Links.fetch_stored (h : Links nodes records) (o : AssertOptions)
    {i : ℤ} (hi : Stored nodes i) (w : ℤ) :
    ∃ n, Legal nodes n ∧ n.ident = i ∧ nodeAt nodes i = some n ∧
      identToNodeTable o nodes.store i w = (.ok n, w) := by
  obtain ⟨n, rfl, hlegal, hn⟩ := h.entry_eq i hi
  obtain ⟨t2, t3, -, -, hs, hsub⟩ := subTable_eq hi.1 hi.2.2 hn
  refine ⟨n.stored, hlegal.fetched, rfl, nodeAt_of_entry hn, ?_⟩
  unfold identToNodeTable fetchString
  rw [hsub, pure_bind_guarded]
  dsimp only
  rw [hs, gAssert_true (decide_eq_true (length_dtNodeToString n)),
    pure_bind_guarded, stringToDtNode_dtNodeToString]
  rfl

/-- Storing a record with the links of the table. -/
theorem Links.update (h : Links nodes records) (o : AssertOptions) {n : Node}
    (hn : Legal nodes n) :
    ∃ table, updateTable o nodes.store n = Guarded.pure table ∧
      (∀ i, parentOf { nodes with store := table } i = parentOf nodes i) ∧
      Links { nodes with store := table } records := by
  obtain ⟨m, hm, -, hentry⟩ := h.entry_eq n.ident hn.stored
  obtain ⟨table, htable, hset⟩ :=
    updateTable_ok o hn.stored.1 hn.stored.2.2 hentry
  have hparent : ∀ i,
      parentOf { nodes with store := table } i = parentOf nodes i := by
    intro i
    by_cases hi : i = n.ident
    · rw [hi, hn.parentOf_eq, ← hn.stored_parent]
      unfold parentOf
      rw [nodeAt_of_entry, Option.bind_some]
      rw [hset, if_pos rfl]
    · unfold parentOf nodeAt
      rw [hset, if_neg hi]
  have hlegal : ∀ m, Legal nodes m → Legal { nodes with store := table } m :=
    fun m hm => hm.mono le_rfl fun i _ => hparent i
  refine ⟨table, htable, hparent, h.next_nonneg, ?_, ?_, ?_⟩
  · intro i hi
    change ∃ m, _ ∧ _ ∧ entry table i = _
    by_cases heq : i = n.ident
    · exact ⟨n, heq.symm, hlegal n hn, by rw [hset, if_pos heq]⟩
    · obtain ⟨m, hm, hm', hentry⟩ := h.entry_eq i hi
      exact ⟨m, hm, hlegal m hm', by rw [hset, if_neg heq, hentry]⟩
  · intro i s hs
    change entry table i = _ at hs
    rw [hset] at hs
    split_ifs at hs with heq
    · exact .inr (heq ▸ hn.stored)
    · exact h.entry_other i s hs
  · exact fun a ha => hlegal _ (h.record a ha)

end Fetching

/-! ## Records -/

section Primitives

variable {s : TreeState Table} {a : ℕ}

theorem Links.count {nodes : StoreState Table} {records : Heap Node}
    (h : Links nodes records) (w : ℤ) :
    Links { nodes with weirdCount := w } records := by
  have hlegal : ∀ n, Legal nodes n → Legal { nodes with weirdCount := w } n :=
    fun n hn => hn.mono le_rfl fun _ _ => rfl
  refine ⟨h.next_nonneg, ?_, h.entry_other,
    fun a ha => hlegal _ (h.record a ha)⟩
  intro i hi
  obtain ⟨n, hident, hn, hentry⟩ := h.entry_eq i hi
  exact ⟨n, hident, hlegal n hn, hentry⟩

theorem Links.push {nodes : StoreState Table} {records : Heap Node}
    (h : Links nodes records) {n : Node} (hn : Legal nodes n) :
    Links nodes (records.push n) := by
  refine ⟨h.next_nonneg, h.entry_eq, h.entry_other, ?_⟩
  intro a ha
  rw [Heap.push_next] at ha
  by_cases heq : a = records.next
  · rw [heq, Heap.push_get_next]
    exact hn
  · have hlt : a < records.next := by omega
    rw [Heap.push_get_of_lt hlt]
    exact h.record a hlt

theorem Links.set {nodes : StoreState Table} {records : Heap Node}
    (h : Links nodes records) {n : Node} (hn : Legal nodes n) (a : ℕ) :
    Links nodes (records.set a n) := by
  refine ⟨h.next_nonneg, h.entry_eq, h.entry_other, ?_⟩
  intro b hb
  by_cases heq : b = a
  · rw [heq, Heap.set_get]
    exact hn
  · rw [Heap.set_get_of_ne _ _ heq]
    exact h.record b hb

theorem Linked.count (hs : Linked s) (w : ℤ) :
    Linked { s with nodes := { s.nodes with weirdCount := w } } :=
  ⟨hs.toLinks.count w, hs.cur_lt, hs.curQuery_lt⟩

theorem within_count (s : TreeState Table) (w : ℤ) :
    Within s { s with nodes := { s.nodes with weirdCount := w } } :=
  ⟨⟨le_rfl, le_rfl, fun _ _ => rfl, fun _ _ => rfl⟩, rfl⟩

theorem node_run (s : TreeState Table) (a : ℕ) :
    (node a : Tree Table Node).run s = (.ok (s.records.get a), s) := rfl

theorem loopFuel_run (s : TreeState Table) :
    (loopFuel : Tree Table ℕ).run s =
      (.ok (s.nodes.nextDtIdent.toNat + 1), s) := rfl

theorem guarded_run {α : Type} (x : Guarded α) (s : TreeState Table) :
    (guarded x).run s =
      ((x s.nodes.weirdCount).1.mapError TreeExn.store,
        { s with nodes :=
          { s.nodes with weirdCount := (x s.nodes.weirdCount).2 } }) := by
  unfold guarded
  rcases hx : x s.nodes.weirdCount with ⟨e | a, w⟩ <;>
    rw [Stateful.run_bind_ok (Stateful.run_get s), hx] <;> rfl

theorem assert_safe (hs : Linked s) (o : TreeOptions) (b : Bool)
    (sawAt : String) : Safe s (assert o b sawAt) fun _ _ => True := by
  have hrun := guarded_run (gAssert o.asserts b 100 sawAt) s
  rcases hx : gAssert o.asserts b 100 sawAt s.nodes.weirdCount with ⟨e | x, w⟩
  · rw [hx] at hrun
    exact .of_error hrun (hs.count w) (within_count s w) (fun h => nomatch h)
  · rw [hx] at hrun
    exact .of_ok hrun (hs.count w) (within_count s w) trivial

theorem failwith_safe {α : Type} {P : α → TreeState Table → Prop}
    (hs : Linked s) (message : String) : Safe s (failwith message) P :=
  .throw hs (fun h => nomatch h)

theorem called_safe {α : Type} (hs : Linked s) (x : Option α) :
    Safe s (called x) fun _ _ => True := by
  cases x with
  | none => exact .throw hs (fun h => nomatch h)
  | some a => exact .pure hs trivial

/-- A record that `a` refers to as a child. -/
def Kid (s : TreeState Table) (a : ℕ) (k : Option (Option ℕ)) : Prop :=
  ∀ x, k = some (some x) → x < s.records.next ∧
    (s.records.get a).ident < (s.records.get x).ident

theorem Kid.mono {s' : TreeState Table} {k : Option (Option ℕ)}
    (h : Kid s a k) (ha : a < s.records.next) (hs : Grows s s') :
    Kid s' a k := by
  intro x hx
  obtain ⟨hlt, hident⟩ := h x hx
  refine ⟨hs.lt hlt, ?_⟩
  rw [hs.ident_eq a ha, hs.ident_eq x hlt]
  exact hident

variable (o : AssertOptions)

/-- A fetched node is a new record. -/
theorem identToNode_safe (hs : Linked s) (i : ℤ) :
    Safe s (identToNode (memoryStore o) i) fun a s' =>
      s.records.next ≤ a ∧ a < s'.records.next ∧
        (s'.records.get a).ident = i ∧ s'.cur = s.cur := by
  have hrun := guarded_run (identToNodeTable o s.nodes.store i) s
  rcases hs.fetch o i s.nodes.weirdCount with ⟨x, w, hx⟩ | ⟨n, hn, hi, -, hx⟩
  · rw [hx] at hrun
    have hrun' : (identToNode (memoryStore o) i).run s =
        (.error (.store x),
          { s with nodes := { s.nodes with weirdCount := w } }) :=
      (Stateful.run_bind_ok (Stateful.run_get s)).trans
        (Stateful.run_bind_error hrun)
    exact .of_error hrun' (hs.count w) (within_count s w)
      (fun h => nomatch h)
  · rw [hx] at hrun
    have hpush : Linked { s with records := s.records.push n } :=
      ⟨hs.toLinks.push hn, hs.cur_lt.trans (Nat.lt_succ_self _),
        hs.curQuery_lt.trans (Nat.lt_succ_self _)⟩
    have hrun' : (identToNode (memoryStore o) i).run s =
        (.ok s.records.next, { s with records := s.records.push n }) :=
      (Stateful.run_bind_ok (Stateful.run_get s)).trans
        (Stateful.run_bind_ok hrun)
    refine .of_ok hrun' hpush ?_ ?_
    · refine ⟨⟨le_rfl, Nat.le_succ _, fun _ _ => rfl, ?_⟩, rfl⟩
      intro b hb
      rw [Heap.push_get_of_lt hb]
    · refine ⟨le_rfl, Nat.lt_succ_self _, ?_, rfl⟩
      rw [Heap.push_get_next]
      exact hi

theorem updateDtNode_safe (hs : Linked s) (ha : a < s.records.next) :
    Safe s (updateDtNode (memoryStore o) a) fun _ _ => True := by
  obtain ⟨table, htable, hparent, hlinks⟩ := hs.update o (hs.record a ha)
  have hrun := guarded_run (updateTable o s.nodes.store (s.records.get a)) s
  rw [htable] at hrun
  have hupdate : (memoryStore o).update s.nodes.store (s.records.get a) =
      Guarded.pure table := htable
  have hrun' : (updateDtNode (memoryStore o) a).run s =
      (.ok (), { s with nodes := { s.nodes with store := table } }) := by
    apply (Stateful.run_bind_ok (Stateful.run_get s)).trans
    rw [hupdate]
    exact Stateful.run_bind_ok hrun
  refine .of_ok hrun' ⟨hlinks, hs.cur_lt, hs.curQuery_lt⟩ ?_ trivial
  exact ⟨⟨le_rfl, le_rfl, fun i _ => hparent i, fun _ _ => rfl⟩, rfl⟩

theorem assign_safe (hs : Linked s) {f : Node → Node}
    (hident : (f (s.records.get a)).ident = (s.records.get a).ident)
    (hf : Legal s.nodes (f (s.records.get a))) :
    Safe s (assign a f) fun _ _ => True := by
  refine .of_ok (a := ()) rfl
    ⟨hs.toLinks.set hf a, hs.cur_lt, hs.curQuery_lt⟩ ?_ trivial
  refine ⟨⟨le_rfl, le_rfl, fun _ _ => rfl, ?_⟩, rfl⟩
  intro b _
  by_cases heq : b = a
  · rw [heq, Heap.set_get, hident]
  · rw [Heap.set_get_of_ne _ _ heq]

/-- A change of other fields of a record. -/
def KeepsLinks (f : Node → Node) : Prop :=
  ∀ n, (f n).ident = n.ident ∧ (f n).parent = n.parent ∧
    ∀ b, child b (f n) = child b n

theorem assign_links_safe (hs : Linked s) (ha : a < s.records.next)
    {f : Node → Node} (hf : KeepsLinks f) :
    Safe s (assign a f) fun _ _ => True := by
  obtain ⟨hident, hparent, hchild⟩ := hf (s.records.get a)
  exact assign_safe hs hident
    ((hs.record a ha).of_links hident hparent hchild)

theorem assign_update_safe (hs : Linked s) (ha : a < s.records.next)
    {f : Node → Node} (hf : KeepsLinks f) :
    Safe s (do assign a f; updateDtNode (memoryStore o) a)
      fun _ _ => True := by
  apply (assign_links_safe hs ha hf).bind
  intro _ s1 hs1 h1 _
  exact updateDtNode_safe o hs1 (h1.lt ha)

theorem getParent_safe (hs : Linked s) (ha : a < s.records.next) :
    Safe s (getParent (memoryStore o) a) fun p s' => s'.cur = s.cur ∧
      ∀ x, p = some x → s.records.next ≤ x ∧ x < s'.records.next ∧
        (s.records.get a).parent = some (s'.records.get x).ident ∧
        (s'.records.get x).ident < (s.records.get a).ident := by
  apply Ends.read_bind (node_run s a)
  cases hp : (s.records.get a).parent with
  | none => exact .pure hs ⟨rfl, fun _ h => nomatch h⟩
  | some i =>
    apply (identToNode_safe o hs i).bind
    intro x s1 hs1 _ ⟨hnew, hlt, hident, hcur⟩
    refine .pure hs1 ⟨hcur, ?_⟩
    intro y hy
    cases hy
    refine ⟨hnew, hlt, by rw [hident], ?_⟩
    rw [hident]
    exact ((hs.record a ha).parent_lt i hp).2

theorem getChild_safe (hs : Linked s) (b : Bool) (ha : a < s.records.next) :
    Safe s (getChild (memoryStore o) b a) fun k s' => Kid s' a k := by
  apply Ends.read_bind (node_run s a)
  match hk : child b (s.records.get a) with
  | none => exact .pure hs (fun _ h => nomatch h)
  | some none => exact .pure hs (fun _ h => nomatch h)
  | some (some i) =>
    apply (identToNode_safe o hs i).bind
    intro x s1 hs1 h1 ⟨_, hlt, hident, _⟩
    apply Ends.pure hs1
    intro y hy
    cases hy
    refine ⟨hlt, ?_⟩
    rw [hident, h1.ident_eq a ha]
    exact ((hs.record a ha).child_gt b i hk).1

theorem putChild_safe (hs : Linked s) (b : Bool) (ha : a < s.records.next)
    {k : Option (Option ℕ)}
    (hk : ∀ x, k = some (some x) → x < s.records.next ∧
      (s.records.get a).ident < (s.records.get x).ident ∧
      (s.records.get x).parent = some (s.records.get a).ident) :
    Safe s (putChild (memoryStore o) b a k) fun _ _ => True := by
  apply Ends.read_bind (Stateful.run_get s)
  have hlegal : Legal s.nodes (setChild b
      (k.map fun k => k.map fun k => (s.records.get k).ident)
      (s.records.get a)) := by
    apply (hs.record a ha).setChild
    intro i hi
    match k with
    | none => cases hi
    | some none => cases hi
    | some (some x) =>
      obtain ⟨hlt, hident, hparent⟩ := hk x rfl
      have hi' : (s.records.get x).ident = i := by simpa using hi
      have hx := hs.record x hlt
      rw [← hi']
      exact ⟨hident, hx.stored, hx.parentOf_eq.trans hparent⟩
  apply (assign_safe hs (ident_setChild _ _ _) hlegal).bind
  intro _ s1 hs1 h1 _
  exact updateDtNode_safe o hs1 (h1.lt ha)

end Primitives

/-! ## New nodes -/

section Creation

variable {nodes : StoreState Table} {records : Heap Node}

/-- The table with room for the next number. -/
theorem entry_prepared (h : Links nodes records) {i : ℤ}
    (hi : Stored nodes i) :
    entry (makeSubTables nodes.store (nodes.nextDtIdent + 1)) i =
      entry nodes.store i := by
  obtain ⟨n, -, -, hn⟩ := h.entry_eq i hi
  rw [entry_makeSubTables, hn]
  rfl

theorem Links.create (h : Links nodes records) (o : AssertOptions)
    (hroom : nodes.nextDtIdent + 1 < 2 ^ 30) {parent : Option ℤ}
    (hparent : ∀ p, parent = some p → Stored nodes p) :
    ∃ table,
      updateTable o (makeSubTables nodes.store (nodes.nextDtIdent + 1))
          (freshNode parent (nodes.nextDtIdent + 1)) = Guarded.pure table ∧
        (∀ i, Stored nodes i →
          parentOf ⟨nodes.nextDtIdent + 1, table, nodes.weirdCount⟩ i =
            parentOf nodes i) ∧
        Links ⟨nodes.nextDtIdent + 1, table, nodes.weirdCount⟩
          (records.push (freshNode parent (nodes.nextDtIdent + 1))) := by
  have hnext := h.next_nonneg
  have hsub : ∃ x, entry (makeSubTables nodes.store (nodes.nextDtIdent + 1))
      (nodes.nextDtIdent + 1) = some x := by
    rw [entry_makeSubTables]
    cases entry nodes.store (nodes.nextDtIdent + 1) <;> simp
  obtain ⟨x, hx⟩ := hsub
  have h1 : 1 ≤ (freshNode parent (nodes.nextDtIdent + 1)).ident := by
    simp [freshNode]
    omega
  obtain ⟨table, htable, hset⟩ := updateTable_ok o h1 hroom hx
  set i₀ := nodes.nextDtIdent + 1 with hi₀
  replace hset : ∀ j, entry table j =
      if j = i₀ then some (dtNodeToString (freshNode parent i₀))
      else entry (makeSubTables nodes.store i₀) j := hset
  set nodes' : StoreState Table := ⟨i₀, table, nodes.weirdCount⟩ with hnodes'
  have hold : ∀ i, Stored nodes i → entry table i = entry nodes.store i := by
    intro i hi
    have hne : i ≠ i₀ := by
      have := hi.2.1
      omega
    rw [hset, if_neg hne, entry_prepared h hi]
  have hparentOf : ∀ i, Stored nodes i →
      parentOf nodes' i = parentOf nodes i := by
    intro i hi
    change ((entry table i).bind _).bind _ = _
    rw [hold i hi]
    rfl
  have hlegal : ∀ n, Legal nodes n → Legal nodes' n :=
    fun n hn => hn.mono (Int.le_add_one le_rfl) hparentOf
  have hnew : entry table i₀ =
      some (dtNodeToString (freshNode parent i₀)) := by
    rw [hset, if_pos rfl]
  have hfresh : Legal nodes' (freshNode parent i₀) := by
    have hlt : ∀ p, parent = some p → 1 ≤ p ∧ p < i₀ := by
      intro p hp
      obtain ⟨hp1, hple, -⟩ := hparent p hp
      exact ⟨hp1, by omega⟩
    refine ⟨⟨h1, le_rfl, hroom⟩, ?_, hlt, ?_⟩
    · have hat : nodeAt nodes' i₀ = some (freshNode parent i₀).stored :=
        nodeAt_of_entry (n := freshNode parent i₀) hnew
      change (nodeAt nodes' i₀).bind _ = parent
      rw [hat, Option.bind_some]
      unfold Node.stored freshNode
      dsimp only
      cases parent with
      | none => rfl
      | some p =>
        obtain ⟨hp1, hplt⟩ := hlt p rfl
        rw [Option.getD_some, mask32_of_range (by omega) (by omega),
          if_neg (by omega)]
    · intro b k hk
      cases b <;> cases hk
  refine ⟨table, htable, hparentOf, ?_⟩
  have hlinks : Links nodes' records := by
    refine ⟨by dsimp only [nodes']; omega, ?_, ?_,
      fun a ha => hlegal _ (h.record a ha)⟩
    · intro i hi
      by_cases heq : i = i₀
      · exact ⟨_, heq.symm, hfresh, heq ▸ hnew⟩
      · have hi' : Stored nodes i := by
          refine ⟨hi.1, ?_, hi.2.2⟩
          have hle : i ≤ i₀ := hi.2.1
          omega
        obtain ⟨n, hn, hn', hentry⟩ := h.entry_eq i hi'
        exact ⟨n, hn, hlegal n hn', (hold i hi').trans hentry⟩
    · intro i str hstr
      change entry table i = _ at hstr
      by_cases heq : i = i₀
      · exact .inr (heq ▸ hfresh.stored)
      · rw [hset, if_neg heq, entry_makeSubTables] at hstr
        cases hentry : entry nodes.store i with
        | some x =>
          rw [hentry] at hstr
          have hx : entry nodes.store i = some str := hentry.trans hstr
          exact (h.entry_other i str hx).imp_right
            fun hi => hi.mono (Int.le_add_one le_rfl)
        | none =>
          rw [hentry] at hstr
          left
          have hstr' : (if i1 i = i1 i₀ ∧ i2 i = i2 i₀ then some []
            else none) = some str := hstr
          split_ifs at hstr' with hsame
          exact (Option.some.inj hstr').symm
  exact hlinks.push hfresh

/-- There is no sub-table for the number. -/
theorem Links.full (h : Links nodes records)
    (hroom : ¬nodes.nextDtIdent + 1 < 2 ^ 30) :
    Links { nodes with nextDtIdent := nodes.nextDtIdent + 1 } records := by
  have hstored : ∀ i,
      Stored { nodes with nextDtIdent := nodes.nextDtIdent + 1 } i →
        Stored nodes i := by
    intro i ⟨h1, hle, hlt⟩
    exact ⟨h1, by omega, hlt⟩
  have hlegal : ∀ n, Legal nodes n →
      Legal { nodes with nextDtIdent := nodes.nextDtIdent + 1 } n :=
    fun n hn => hn.mono (Int.le_add_one le_rfl) fun _ _ => rfl
  refine ⟨Int.le_add_one h.next_nonneg, ?_, ?_,
    fun a ha => hlegal _ (h.record a ha)⟩
  · intro i hi
    obtain ⟨n, hn, hn', hentry⟩ := h.entry_eq i (hstored i hi)
    exact ⟨n, hn, hlegal n hn', hentry⟩
  · intro i str hstr
    exact (h.entry_other i str hstr).imp_right
      fun hi => hi.mono (Int.le_add_one le_rfl)

theorem guarded_pure_run {σ α : Type} (a : α) (s : TreeState σ) :
    (guarded (Guarded.pure a)).run s = (.ok a, s) := rfl

theorem newDtNode_run
    {σ : Type} {S : Store σ} {s : TreeState σ} {parent : Option ℕ}
    {store store' : σ}
    (hprepare : S.prepare s.nodes.store (s.nodes.nextDtIdent + 1) =
      Guarded.pure store)
    (hupdate : S.update store
      (freshNode (parent.map fun p => (s.records.get p).ident)
        (s.nodes.nextDtIdent + 1)) = Guarded.pure store') :
    (newDtNode S parent).run s = (.ok s.records.next,
      { s with
        nodes := ⟨s.nodes.nextDtIdent + 1, store', s.nodes.weirdCount⟩
        records := s.records.push
          (freshNode (parent.map fun p => (s.records.get p).ident)
            (s.nodes.nextDtIdent + 1)) }) := by
  apply (Stateful.run_bind_ok (Stateful.run_modify _ s)).trans
  apply (Stateful.run_bind_ok (Stateful.run_get _)).trans
  dsimp only
  rw [hprepare]
  apply (Stateful.run_bind_ok (guarded_pure_run _ _)).trans
  apply (Stateful.run_bind_ok (Stateful.run_modify _ _)).trans
  apply (Stateful.run_bind_ok (a := s.records.next) rfl).trans
  refine (Stateful.run_bind_ok (a := ()) ?_).trans (Stateful.run_pure _ _)
  apply (Stateful.run_bind_ok (Stateful.run_get _)).trans
  dsimp only
  rw [Heap.push_get_next, hupdate]
  rfl

theorem newDtNode_links {s : TreeState Table} (h : Links s.nodes s.records)
    (o : AssertOptions) (hroom : s.nodes.nextDtIdent + 1 < 2 ^ 30)
    {parent : Option ℕ} (hparent : ∀ a, parent = some a → a < s.records.next) :
    ∃ table, (newDtNode (memoryStore o) parent).run s = (.ok s.records.next,
        { s with
          nodes := ⟨s.nodes.nextDtIdent + 1, table, s.nodes.weirdCount⟩
          records := s.records.push
            (freshNode (parent.map fun p => (s.records.get p).ident)
              (s.nodes.nextDtIdent + 1)) }) ∧
      (∀ i, Stored s.nodes i →
        parentOf ⟨s.nodes.nextDtIdent + 1, table, s.nodes.weirdCount⟩ i =
          parentOf s.nodes i) ∧
      Links ⟨s.nodes.nextDtIdent + 1, table, s.nodes.weirdCount⟩
        (s.records.push
          (freshNode (parent.map fun p => (s.records.get p).ident)
            (s.nodes.nextDtIdent + 1))) := by
  have hstored : ∀ p, (parent.map fun p => (s.records.get p).ident) =
      some p → Stored s.nodes p := by
    intro p hp
    obtain ⟨a, ha, rfl⟩ := Option.map_eq_some_iff.mp hp
    exact (h.record a (hparent a ha)).stored
  obtain ⟨table, htable, hparentOf, hlinks⟩ := h.create o hroom hstored
  have hprepare : (memoryStore o).prepare s.nodes.store
      (s.nodes.nextDtIdent + 1) =
        Guarded.pure
          (makeSubTables s.nodes.store (s.nodes.nextDtIdent + 1)) := by
    have hnext := h.next_nonneg
    dsimp only [memoryStore]
    rw [checkIndex_eq (by omega) hroom, pure_bind_guarded]
  exact ⟨table, newDtNode_run hprepare htable, hparentOf, hlinks⟩

/-- The record of a new node, and its number. -/
theorem newDtNode_makes {s : TreeState Table} (hs : Linked s)
    (o : AssertOptions) {parent : Option ℕ}
    (hparent : ∀ a, parent = some a → a < s.records.next) :
    Makes s (newDtNode (memoryStore o) parent) fun a s' =>
      a < s'.records.next ∧
        s.nodes.nextDtIdent < (s'.records.get a).ident ∧
        (s'.records.get a).parent =
          parent.map fun p => (s.records.get p).ident := by
  by_cases hroom : s.nodes.nextDtIdent + 1 < 2 ^ 30
  · obtain ⟨table, hrun, hparentOf, hlinks⟩ :=
      newDtNode_links hs.toLinks o hroom hparent
    refine .of_ok hrun
      ⟨hlinks, hs.cur_lt.trans (Nat.lt_succ_self _),
        hs.curQuery_lt.trans (Nat.lt_succ_self _)⟩ ?_ ?_
    · refine ⟨Int.le_add_one le_rfl, Nat.le_succ _, hparentOf, ?_⟩
      intro b hb
      rw [Heap.push_get_of_lt hb]
    · dsimp only
      rw [Heap.push_get_next]
      exact ⟨Nat.lt_succ_self _, Int.lt_add_one_of_le le_rfl, rfl⟩
  · have hindex : ¬(0 ≤ i1 (s.nodes.nextDtIdent + 1) ∧
        i1 (s.nodes.nextDtIdent + 1) < 1024) := by
      unfold i1
      omega
    have hprepare : (memoryStore o).prepare s.nodes.store
        (s.nodes.nextDtIdent + 1) =
          Guarded.throw (.exn (.invalidArgument "index out of bounds")) := by
      dsimp only [memoryStore]
      rw [checkIndex, if_neg hindex]
      rfl
    have hrun : (newDtNode (memoryStore o) parent).run s =
        (.error (.store (.exn (.invalidArgument "index out of bounds"))),
          { s with nodes := { s.nodes with
              nextDtIdent := s.nodes.nextDtIdent + 1 } }) := by
      apply (Stateful.run_bind_ok (Stateful.run_modify _ s)).trans
      apply (Stateful.run_bind_ok (Stateful.run_get _)).trans
      dsimp only
      rw [hprepare]
      rfl
    exact .of_error hrun
      ⟨hs.toLinks.full hroom, hs.cur_lt, hs.curQuery_lt⟩
      ⟨Int.le_add_one le_rfl, le_rfl, fun _ _ => rfl, fun _ _ => rfl⟩
      (fun h => by cases h)

end Creation

end Fuzzball.BinaryDecisionTree
