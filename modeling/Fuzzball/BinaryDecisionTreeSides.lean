import Fuzzball.BinaryDecisionTreeCharts

/-!
# New sides of a decision

A side that is found infeasible is recorded in the node of the decision, one
that is found feasible gets a node of its own.  Either way the chart knows of
one more side.
-/

namespace Fuzzball.BinaryDecisionTree

open DecisionTree

variable {c c' : Chart} {p : Program} {s s' : TreeState Table}
  {g h : List Bool} {b : Bool} {n : Node} {a : ℕ}

/-- The second chart knows of one more side. -/
structure Chart.Resolves (p : Program) (c c' : Chart) (g : List Bool) :
    Prop where
  resolved : c'.resolved = insert g c.resolved
  reached : c'.reached = c.reached
  counted : c'.counted = c.counted
  seen : c'.seen = c.seen
  ident : ∀ h, c.Has p h → c'.ident h = c.ident h

section Resolves

theorem Chart.Resolves.has (hr : Chart.Resolves p c c' g) (hh : c.Has p h) :
    c'.Has p h := by
  refine hh.imp_right fun hh => ?_
  rw [hr.resolved]
  exact ⟨Finset.mem_insert_of_mem hh.1, hh.2⟩

theorem Chart.Resolves.has_iff (hr : Chart.Resolves p c c' (b :: g)) :
    c'.Has p h ↔ c.Has p h ∨ h = b :: g ∧ p.Has h := by
  constructor
  · rintro (rfl | ⟨hh, hp⟩)
    · exact .inl (.inl rfl)
    · rw [hr.resolved, Finset.mem_insert] at hh
      rcases hh with rfl | hh
      · exact .inr ⟨rfl, hp⟩
      · exact .inl (.inr ⟨hh, hp⟩)
  · rintro (hh | ⟨rfl, hp⟩)
    · exact hr.has hh
    · right
      rw [hr.resolved]
      exact ⟨Finset.mem_insert_self _ _, hp⟩

theorem Chart.Resolves.child_eq (hr : Chart.Resolves p c c' (b :: h))
    {d : Bool} (hne : d :: g ≠ b :: h) :
    c'.child p (d :: g) = c.child p (d :: g) := by
  have hmem : d :: g ∈ c'.resolved ↔ d :: g ∈ c.resolved := by
    rw [hr.resolved, Finset.mem_insert]
    exact or_iff_right hne
  unfold Chart.child
  simp only [hmem]
  split_ifs with hres hp
  · rw [hr.ident _ (.inr ⟨hres, hp⟩)]
  · rfl
  · rfl

variable (hr : Chart.Resolves p c c' (b :: h))
  (hclosed : ∀ b g, b :: g ∈ c.resolved → c.Has p g)

include hr hclosed

theorem Chart.Resolves.parent_eq (hg : c.Has p g) :
    c'.parent g = c.parent g := by
  cases g with
  | nil => rfl
  | cons d g =>
    rw [Chart.parent, Chart.parent, hr.ident g (hclosed d g hg.resolved)]

theorem Chart.Resolves.shows (hg : c.Has p g) (hne : g ≠ h)
    (hn : c.Shows p g n) : c'.Shows p g n where
  ident := by
    rw [hr.ident g hg]
    exact hn.ident
  parent := by
    rw [hr.parent_eq hclosed hg]
    exact hn.parent
  child := by
    intro d
    rw [hr.child_eq fun heq => hne (List.cons.inj heq).2]
    exact hn.child d
  allSeen := by
    rw [hr.seen]
    exact hn.allSeen
  queryChildren := by
    rw [Chart.count, hr.reached, hr.counted]
    exact hn.queryChildren
  queryCounted := by
    rw [hr.reached]
    exact hn.queryCounted
  eipLoc := hn.eipLoc

/-- The record of the decision with the new side. -/
theorem Chart.Resolves.shows_setChild (hh : c.Has p h) (hn : c.Shows p h n) :
    c'.Shows p h (setChild b (c'.child p (b :: h)) n) := by
  have hrest : ∀ k, (setChild b k n).allSeen = n.allSeen ∧
      (setChild b k n).queryChildren = n.queryChildren ∧
      (setChild b k n).queryCounted = n.queryCounted ∧
      (setChild b k n).eipLoc = n.eipLoc := by
    intro k
    cases b <;> exact ⟨rfl, rfl, rfl, rfl⟩
  obtain ⟨hseen, hchildren, hcounted, heip⟩ := hrest (c'.child p (b :: h))
  constructor
  · rw [ident_setChild, hr.ident h hh]
    exact hn.ident
  · rw [parent_setChild, hr.parent_eq hclosed hh]
    exact hn.parent
  · intro d
    rw [child_setChild]
    split_ifs with hd
    · rw [hd]
    · rw [hr.child_eq fun heq => hd (List.cons.inj heq).1]
      exact hn.child d
  · rw [hseen, hr.seen]
    exact hn.allSeen
  · rw [hchildren, Chart.count, hr.reached, hr.counted]
    exact hn.queryChildren
  · rw [hcounted, hr.reached]
    exact hn.queryCounted
  · rw [heip]
    exact hn.eipLoc

end Resolves

/-! ## Storing a side -/

variable (o : AssertOptions)

/-- A side is put into the node of its decision. -/
theorem putChild_returns (hd : c.Drawn p s) (ha : c.At p s h a)
    (hh : c.Has p h) (hr : Chart.Resolves p c c' (b :: h))
    {k : Option (Option ℕ)}
    (hk : (k.map fun k => k.map fun k => (s.records.get k).ident) =
      c'.child p (b :: h))
    (hinj : ∀ g k, c'.Has p g → c'.Has p k → c'.ident g = c'.ident k → g = k)
    (hnew : p.Has (b :: h) → c.ident h < c'.ident (b :: h) ∧
      Stored s.nodes (c'.ident (b :: h)) ∧
      ∃ n, nodeAt s.nodes (c'.ident (b :: h)) = some n ∧
        c'.Shows p (b :: h) n) :
    Returns s (putChild (memoryStore o) b a k) fun _ s' =>
      c'.Drawn p s' ∧ c'.At p s' h a ∧ Keeps {a} s s' ∧
        s'.nodes.nextDtIdent = s.nodes.nextDtIdent := by
  apply Returns.read_bind (Stateful.run_get s)
  rw [hk]
  have hlegal : Legal s.nodes
      (setChild b (c'.child p (b :: h)) (s.records.get a)) := by
    apply (hd.record a ha.1).setChild
    intro i hi
    unfold Chart.child at hi
    split_ifs at hi with hres hp
    · cases hi
      obtain ⟨hlt, hstored, m, hm, hshow⟩ := hnew hp
      refine ⟨?_, hstored, ?_⟩
      · rw [ha.2.ident]
        exact hlt
      · rw [parentOf, hm, Option.bind_some, hshow.parent, Chart.parent,
          hr.ident h hh, ha.2.ident]
    · cases hi
  apply (assign_returns hd hlegal).bind
  rintro _ s1 ⟨hd1, hkeep1, hnodes1, hnext1, hget1⟩
  have ha1 : c'.At p s1 h a := by
    refine ⟨hnext1 ▸ ha.1, ?_⟩
    rw [hget1]
    exact hr.shows_setChild hd.closed hh ha.2
  have hupdate := updateDtNode_returns o hd1.toLinked ha1 ?_ ?_ hinj
    (hr.has hh) ?_
  · apply hupdate.mono
    rintro _ s2 ⟨hd2, hrec2, hkeep2, hnext2⟩
    refine ⟨hd2, ?_, ?_, ?_⟩
    · refine ⟨?_, ?_⟩
      · rw [hrec2]
        exact ha1.1
      · rw [hrec2]
        exact ha1.2
    · refine hkeep1.trans ⟨hkeep2.cur, hkeep2.curQuery, hkeep2.depth,
        hkeep2.rootIdent, hkeep2.next_le, ?_⟩
      intro x hx _
      rw [hrec2]
    · rw [hnext2, hnodes1]
  · rw [hd1.root, hr.ident [] (.inl rfl)]
  · intro d g hg
    rw [hr.resolved, Finset.mem_insert] at hg
    rcases hg with heq | hg
    · rw [(List.cons.inj heq).2]
      exact hr.has hh
    · exact hr.has (hd.closed d g hg)
  · intro g hg hne
    rw [hnodes1]
    rcases hr.has_iff.mp hg with hg' | ⟨rfl, hp⟩
    · obtain ⟨m, hm, hshow⟩ := hd.node g hg'
      rw [hr.ident g hg']
      exact ⟨hd.stored g hg', m, hm, hr.shows hd.closed hg' hne hshow⟩
    · exact (hnew hp).2

/-- The chart in which a side is infeasible. -/
def Chart.withoutSide (c : Chart) (h : List Bool) : Chart :=
  { c with resolved := insert h c.resolved }

theorem Chart.resolves_withoutSide (c : Chart) (p : Program) (h : List Bool) :
    Chart.Resolves p c (c.withoutSide h) h :=
  ⟨rfl, rfl, rfl, rfl, fun _ _ => rfl⟩

theorem recordUnsat_returns (hd : c.Drawn p s) (hh : c.Has p h)
    (ha : c.At p s h s.cur) (hnew : b :: h ∉ c.resolved)
    (hp : ¬ p.Has (b :: h)) (hroom : c.Room p s) :
    Returns s (recordUnsat (memoryStore o) b) fun _ s' =>
      ∃ c', Chart.Resolves p c c' (b :: h) ∧ c'.Drawn p s' ∧ c'.Room p s' ∧
        c'.At p s' h s'.cur ∧ Keeps {s.cur} s s' := by
  have hr := c.resolves_withoutSide p (b :: h)
  have hsame : ∀ g, (c.withoutSide (b :: h)).Has p g → c.Has p g := by
    intro g hg
    rcases hr.has_iff.mp hg with hg | ⟨rfl, hg⟩
    · exact hg
    · exact absurd hg hp
  apply Returns.read_bind (Stateful.run_get s)
  apply sides_return o hd ha
  intro kf kt s1 hr1 hkf hkt
  have hside : c.Side p s1 (b :: h) (if b then kt else kf) := by
    cases b with
    | false => exact hkf
    | true => exact hkt
  cases hk : (if b then kt else kf) with
  | some k =>
    rw [hk] at hside
    cases k with
    | none => exact absurd hside.1 hnew
    | some x => exact absurd hside.1 hnew
  | none =>
    have hput := putChild_returns o (hd.reads hr1) (ha.reads hr1) hh hr
      (k := some none) ?_ ?_ fun hp' => absurd hp' hp
    · apply hput.mono
      rintro _ s2 ⟨hd2, ha2, hkeep2, hnext2⟩
      have hkeep := (hr1.keeps {s.cur}).trans hkeep2
      refine ⟨_, hr, hd2, ?_, hkeep.cur ▸ ha2, hkeep⟩
      rw [Chart.Room, hnext2, hr1.nodes]
      refine hroom.trans ?_
      have hsub : c.resolved ∩ p.places ⊆
          (c.withoutSide (b :: h)).resolved ∩ p.places :=
        Finset.inter_subset_inter_right (Finset.subset_insert _ _)
      have hcard := Finset.card_le_card hsub
      omega
    · rw [Chart.child, hr.resolved, if_pos (Finset.mem_insert_self _ _),
        if_neg hp]
      rfl
    · intro g k hg hk heq
      exact hd.injective g k (hsame g hg) (hsame k hk) heq

/-! ## New nodes -/

/-- A node is made, and the others stay as they are. -/
theorem newDtNode_contents (hs : Links s.nodes s.records)
    (hroom : s.nodes.nextDtIdent + 1 < 2 ^ 30) {parent : Option ℕ}
    (hparent : ∀ x, parent = some x → x < s.records.next) :
    ∃ table, (newDtNode (memoryStore o) parent).run s = (.ok s.records.next,
        { s with
          nodes := ⟨s.nodes.nextDtIdent + 1, table, s.nodes.weirdCount⟩
          records := s.records.push
            (freshNode (parent.map fun p => (s.records.get p).ident)
              (s.nodes.nextDtIdent + 1)) }) ∧
      Links ⟨s.nodes.nextDtIdent + 1, table, s.nodes.weirdCount⟩
        (s.records.push
          (freshNode (parent.map fun p => (s.records.get p).ident)
            (s.nodes.nextDtIdent + 1))) ∧
      (∀ i, Stored s.nodes i →
        nodeAt ⟨s.nodes.nextDtIdent + 1, table, s.nodes.weirdCount⟩ i =
          nodeAt s.nodes i) ∧
      nodeAt ⟨s.nodes.nextDtIdent + 1, table, s.nodes.weirdCount⟩
          (s.nodes.nextDtIdent + 1) =
        some (freshNode (parent.map fun p => (s.records.get p).ident)
          (s.nodes.nextDtIdent + 1)).stored := by
  have hnext := hs.next_nonneg
  obtain ⟨table, hrun, -, hlinks⟩ := newDtNode_links hs o hroom hparent
  have hsub : ∃ x, entry (makeSubTables s.nodes.store
      (s.nodes.nextDtIdent + 1)) (s.nodes.nextDtIdent + 1) = some x := by
    rw [entry_makeSubTables]
    cases entry s.nodes.store (s.nodes.nextDtIdent + 1) <;> simp
  obtain ⟨x, hx⟩ := hsub
  have hident : (freshNode (parent.map fun p => (s.records.get p).ident)
      (s.nodes.nextDtIdent + 1)).ident = s.nodes.nextDtIdent + 1 := rfl
  obtain ⟨table', htable', hset⟩ := updateTable_ok o
    (n := freshNode (parent.map fun p => (s.records.get p).ident)
      (s.nodes.nextDtIdent + 1)) (by rw [hident]; omega) hroom hx
  have hprepare : (memoryStore o).prepare s.nodes.store
      (s.nodes.nextDtIdent + 1) =
        Guarded.pure
          (makeSubTables s.nodes.store (s.nodes.nextDtIdent + 1)) := by
    dsimp only [memoryStore]
    rw [checkIndex_eq (by omega) hroom, pure_bind_guarded]
  have hrun' := newDtNode_run (S := memoryStore o) (s := s)
    hprepare htable'
  obtain rfl : table = table' := by
    have heq := congrArg Prod.snd (hrun.symm.trans hrun')
    exact congrArg (fun s : TreeState Table => s.nodes.store) heq
  refine ⟨table, hrun, hlinks, ?_, ?_⟩
  · intro i hi
    have hne : i ≠ s.nodes.nextDtIdent + 1 := by
      have hle := hi.2.1
      omega
    change (entry table i).bind _ = (entry s.nodes.store i).bind _
    rw [hset, hident, if_neg hne, entry_prepared hs hi]
  · change (entry table _).bind _ = _
    rw [hset, hident, if_pos rfl, Option.bind_some, stringToDtNode_ident]
    rfl

/-- A node is made for a side of the decision of record `a`. -/
theorem newDtNode_returns (hs : Linked s)
    (hroom : s.nodes.nextDtIdent + 1 < 2 ^ 30) (ha : a < s.records.next) :
    Returns s (newDtNode (memoryStore o) (some a)) fun k s' =>
      Linked s' ∧ Keeps ∅ s s' ∧ k < s'.records.next ∧
        s'.nodes.nextDtIdent = s.nodes.nextDtIdent + 1 ∧
        s'.records.get k = freshNode (some (s.records.get a).ident)
          (s.nodes.nextDtIdent + 1) ∧
        (∀ i, Stored s.nodes i → nodeAt s'.nodes i = nodeAt s.nodes i) ∧
        nodeAt s'.nodes (s.nodes.nextDtIdent + 1) =
          some (freshNode (some (s.records.get a).ident)
            (s.nodes.nextDtIdent + 1)).stored := by
  have hparent : ∀ x, some a = some x → x < s.records.next := by
    rintro x ⟨⟩
    exact ha
  obtain ⟨table, hrun, hlinks, hold, hat⟩ :=
    newDtNode_contents o hs.toLinks hroom hparent
  refine .of_ok hrun ⟨⟨hlinks, hs.cur_lt.trans (Nat.lt_succ_self _),
    hs.curQuery_lt.trans (Nat.lt_succ_self _)⟩,
    ⟨rfl, rfl, rfl, rfl, Nat.le_succ _, ?_⟩, Nat.lt_succ_self _, rfl,
    Heap.push_get_next _ _, hold, hat⟩
  intro x hx _
  exact Heap.push_get_of_lt hx _

end Fuzzball.BinaryDecisionTree
