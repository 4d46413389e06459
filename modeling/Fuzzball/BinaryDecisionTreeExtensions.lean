import Fuzzball.BinaryDecisionTreeSides

/-!
# Extensions of a path

`try_extend` at a place that is not done yet: when it returns, both sides are
known, and the current place is a feasible side that is not marked.
-/

namespace Fuzzball.BinaryDecisionTree

open DecisionTree

variable {c c' : Chart} {p : Program} {s s' : TreeState Table}
  {g h : List Bool} {b : Bool} {n : Node} {a : ℕ}

/-! ## A node for a side -/

/-- The chart in which a side has a node. -/
def Chart.withSide (c : Chart) (h : List Bool) (i : ℤ) : Chart :=
  { c with
    ident := Function.update c.ident h i
    resolved := insert h c.resolved }

theorem Chart.resolves_withSide (hnew : ¬ c.Has p h) (i : ℤ) :
    Chart.Resolves p c (c.withSide h i) h := by
  refine ⟨rfl, rfl, rfl, rfl, ?_⟩
  intro g hg
  have hne : g ≠ h := by
    rintro rfl
    exact hnew hg
  exact Function.update_of_ne hne ..

theorem freshNode_shows (hseen : g ∉ c.seen) (hreached : g ∉ c.reached)
    (hres : ∀ b, b :: g ∉ c.resolved) :
    c.Shows p g (freshNode (c.parent g) (c.ident g)) where
  ident := rfl
  parent := rfl
  child := by
    intro b
    rw [Chart.child, if_neg (hres b)]
    cases b <;> rfl
  allSeen := iff_of_false Bool.false_ne_true hseen
  queryChildren := (if_neg hreached).symm
  queryCounted := iff_of_false Bool.false_ne_true fun hh => hreached hh.1
  eipLoc := fun _ _ _ _ => .inl rfl

/-- Nothing has happened yet at an unknown side. -/
def Chart.Fresh (c : Chart) (g : List Bool) : Prop :=
  g ∉ c.resolved → g ∉ c.seen ∧ g ∉ c.reached

theorem card_resolved_insert (hnew : g ∉ c.resolved) (hp : p.Has g) :
    (insert g c.resolved ∩ p.places).card =
      (c.resolved ∩ p.places).card + 1 := by
  have hmem : g ∈ p.places := ChoiceTree.mem_places.mpr hp
  rw [Finset.insert_inter_of_mem hmem, Finset.card_insert_of_notMem]
  exact fun h => hnew (Finset.mem_inter.mp h).1

/-- The table has room for the node of a new side. -/
theorem Chart.Room.next_lt (hroom : c.Room p s) (hnew : g ∉ c.resolved)
    (hp : p.Has g) (hsize : p.places.card + 3 < 2 ^ 30) :
    s.nodes.nextDtIdent + 1 < 2 ^ 30 := by
  have hcard := card_resolved_insert hnew hp
  have hle : (insert g c.resolved ∩ p.places).card ≤ p.places.card :=
    Finset.card_le_card Finset.inter_subset_right
  rw [Chart.Room] at hroom
  omega

/-! ## Adding sides -/

variable (o : TreeOptions)

theorem notSeen_assert {sawAt : String} (ha : c.At p s h a) (hseen : h ∉ c.seen)
    (s' : TreeState Table) :
    (assert o (!(s.records.get a).allSeen) sawAt).run s' = (.ok (), s') := by
  apply assert_run
  rw [Bool.not_eq_true', ← Bool.not_eq_true, ha.2.allSeen]
  exact hseen

theorem addKid_new (hd : c.Drawn p s) (hh : c.Has p h)
    (ha : c.At p s h s.cur) (hseen : h ∉ c.seen) (hnew : b :: h ∉ c.resolved)
    (hfresh : c.Fresh (b :: h)) (hp : p.Has (b :: h)) (hroom : c.Room p s)
    (hsize : p.places.card + 3 < 2 ^ 30) :
    Returns s (addKid (memoryStore o.asserts) o b) fun _ s' =>
      ∃ c', Chart.Resolves p c c' (b :: h) ∧ c'.Drawn p s' ∧ c'.Room p s' ∧
        c'.At p s' h s'.cur ∧ Keeps {s.cur} s s' := by
  apply Returns.read_bind (Stateful.run_get s)
  apply Returns.read_bind (node_run s s.cur)
  apply Returns.read_bind (notSeen_assert o ha hseen s)
  apply sides_return _ hd ha
  intro kf kt s1 hr1 hkf hkt
  have hside : c.Side p s1 (b :: h) (if b then kt else kf) := by
    cases b with
    | false => exact hkf
    | true => exact hkt
  have hd1 := hd.reads hr1
  have ha1 := ha.reads hr1
  have hroom1 : s1.nodes.nextDtIdent + 1 < 2 ^ 30 := by
    rw [hr1.nodes]
    exact hroom.next_lt hnew hp hsize
  cases hk : (if b then kt else kf) with
  | some k =>
    rw [hk] at hside
    cases k with
    | none => exact absurd hside.1 hnew
    | some x => exact absurd hside.1 hnew
  | none =>
    apply (newDtNode_returns o.asserts hd1.toLinked hroom1 ha1.1).bind
    rintro x s2 ⟨hs2, hkeep2, hx, hnext2, hget2, hold2, hat2⟩
    set i := s1.nodes.nextDtIdent + 1 with hi
    have hnot : ¬ c.Has p (b :: h) := fun hh => hnew hh.resolved
    have hr := Chart.resolves_withSide (c := c) hnot i
    have hidentNew : (c.withSide (b :: h) i).ident (b :: h) = i :=
      Function.update_self ..
    have hstored : ∀ j, Stored s1.nodes j → Stored s2.nodes j :=
      fun j hj => hj.mono (by omega)
    have hd2 : c.Drawn p s2 := by
      refine ⟨hs2, hkeep2.rootIdent.trans hd1.root, hd1.closed,
        fun g hg => hstored _ (hd1.stored g hg), hd1.injective, ?_⟩
      intro g hg
      rw [hold2 _ (hd1.stored g hg)]
      exact hd1.node g hg
    have ha2 : c.At p s2 h s.cur := ha1.keeps hkeep2 (Set.notMem_empty _)
    have hshow : (c.withSide (b :: h) i).Shows p (b :: h)
        (s2.records.get x) := by
      have hparent : (c.withSide (b :: h) i).parent (b :: h) =
          some (s1.records.get s.cur).ident := by
        rw [Chart.parent, hr.ident h hh, ha1.2.ident]
      have hkids : ∀ d, d :: b :: h ∉ (c.withSide (b :: h) i).resolved := by
        intro d hd'
        rw [hr.resolved, Finset.mem_insert] at hd'
        rcases hd' with heq | hd'
        · exact List.cons_ne_self _ _ (List.cons.inj heq).2
        · exact hnot (hd.closed d _ hd')
      have hshow := freshNode_shows (c := c.withSide (b :: h) i) (p := p)
        (hfresh hnew).1 (hfresh hnew).2 hkids
      rw [hparent, hidentNew] at hshow
      rw [hget2]
      exact hshow
    have hput := putChild_returns o.asserts hd2 ha2 hh hr
      (k := some (some x)) ?_ ?_ ?_
    · apply hput.mono
      rintro _ s3 ⟨hd3, ha3, hkeep3, hnext3⟩
      have hkeep : Keeps {s.cur} s s3 := by
        refine (hr1.keeps {s.cur}).trans (Keeps.trans ?_ hkeep3)
        exact ⟨hkeep2.cur, hkeep2.curQuery, hkeep2.depth, hkeep2.rootIdent,
          hkeep2.next_le, fun y hy _ => hkeep2.get_eq y hy
            (Set.notMem_empty y)⟩
      refine ⟨_, hr, hd3, ?_, hkeep.cur ▸ ha3, hkeep⟩
      have hcard := card_resolved_insert hnew hp
      rw [Chart.Room] at hroom ⊢
      rw [hnext3, hnext2, hr.resolved, hcard, hi, hr1.nodes]
      push_cast
      omega
    · rw [Chart.child, hr.resolved, if_pos (Finset.mem_insert_self _ _),
        if_pos hp, hidentNew]
      simp only [Option.map_some, hget2]
      rfl
    · have hle : ∀ g, c.Has p g → c.ident g < i := by
        intro g hg
        have hle := (hd1.stored g hg).2.1
        omega
      intro g k hg hk heq
      rcases hr.has_iff.mp hg with hg | ⟨rfl, -⟩ <;>
        rcases hr.has_iff.mp hk with hk | ⟨rfl, -⟩
      · rw [hr.ident g hg, hr.ident k hk] at heq
        exact hd.injective g k hg hk heq
      · rw [hr.ident g hg, hidentNew] at heq
        exact absurd heq (hle g hg).ne
      · rw [hr.ident k hk, hidentNew] at heq
        exact absurd heq (hle k hk).ne'
      · rfl
    · intro _
      have hlegal := hs2.record x hx
      rw [hidentNew]
      refine ⟨?_, ?_, (s2.records.get x).stored, ?_, hshow.fetched hlegal⟩
      · have hle := (hd1.stored h hh).2.1
        omega
      · rw [hget2] at hlegal
        exact hlegal.stored
      · rw [hget2]
        exact hat2

/-- The node of the side is there. -/
theorem addKid_known (hd : c.Drawn p s) (ha : c.At p s h s.cur)
    (hseen : h ∉ c.seen) (hres : b :: h ∈ c.resolved) (hp : p.Has (b :: h)) :
    Returns s (addKid (memoryStore o.asserts) o b) fun _ s' => Reads s s' := by
  apply Returns.read_bind (Stateful.run_get s)
  apply Returns.read_bind (node_run s s.cur)
  apply Returns.read_bind (notSeen_assert o ha hseen s)
  apply sides_return _ hd ha
  intro kf kt s1 hr1 hkf hkt
  have hside : c.Side p s1 (b :: h) (if b then kt else kf) := by
    cases b with
    | false => exact hkf
    | true => exact hkt
  cases hk : (if b then kt else kf) with
  | none =>
    rw [hk] at hside
    exact absurd hres hside
  | some k =>
    rw [hk] at hside
    cases k with
    | none => exact absurd hp hside.2
    | some x => exact .pure hr1

/-- The current place becomes the side. -/
theorem follow_returns (hd : c.Drawn p s) (ha : c.At p s h s.cur)
    (hres : b :: h ∈ c.resolved) (hp : p.Has (b :: h)) :
    Returns s (follow (memoryStore o.asserts) b) fun _ s' =>
      c.Drawn p s' ∧ c.At p s' h s.cur ∧ c.At p s' (b :: h) s'.cur ∧
        s'.nodes = s.nodes ∧ s'.curQuery = s.curQuery ∧
        s'.depth = s.depth := by
  apply Returns.read_bind (Stateful.run_get s)
  apply sides_return _ hd ha
  intro kf kt s1 hr1 hkf hkt
  have hside : c.Side p s1 (b :: h) (if b then kt else kf) := by
    cases b with
    | false => exact hkf
    | true => exact hkt
  cases hk : (if b then kt else kf) with
  | none =>
    rw [hk] at hside
    exact absurd hres hside
  | some k =>
    rw [hk] at hside
    cases k with
    | none => exact absurd hp hside.2
    | some x =>
      have hd1 := hd.reads hr1
      have ha1 := ha.reads hr1
      exact .of_ok rfl ⟨⟨⟨hd1.toLinks, hside.2.2.1, hd1.curQuery_lt⟩,
        hd1.root, hd1.closed, hd1.stored, hd1.injective, hd1.node⟩, ha1,
        hside.2.2, hr1.nodes, hr1.curQuery, hr1.depth⟩

/-! ## Extending -/

/-- The path goes on with a side of the current place. -/
structure Chart.Extended (c : Chart) (p : Program) (h : List Bool) (b : Bool)
    (s s' : TreeState Table) : Prop where
  drawn : c.Drawn p s'
  room : c.Room p s'
  resolved : b :: h ∈ c.resolved
  before : c.At p s' h s.cur
  cur : c.At p s' (b :: h) s'.cur
  curQuery : s'.curQuery = s.curQuery
  depth : s'.depth = s.depth + 1

/-- No path of the program is too deep for the options. -/
def Shallow (o : TreeOptions) (p : Program) : Prop :=
  ∀ h, p.Has h → o.pathDepthLimit.slt (I64.ofInt h.length) = false

theorem extend_of_addKid {Q : Chart → Prop} (hp : p.Has (b :: h))
    (hdepth : s.depth = h.length) (hlimit : Shallow o p)
    (hadd : Returns s (addKid (memoryStore o.asserts) o b) fun _ s' =>
      ∃ c', Q c' ∧ b :: h ∈ c'.resolved ∧ c'.Drawn p s' ∧ c'.Room p s' ∧
        c'.At p s' h s'.cur ∧ Keeps {s.cur} s s') :
    Returns s (extend (memoryStore o.asserts) o b) fun _ s' =>
      ∃ c', Q c' ∧ c'.Extended p h b s s' := by
  apply hadd.bind
  rintro _ s1 ⟨c', hQ, hres, hd1, hroom1, ha1, hkeep1⟩
  apply (follow_returns o hd1 ha1 hres hp).bind
  rintro _ s2 ⟨hd2, ha2, hcur2, hnodes2, hquery2, hdepth2⟩
  apply Returns.bind (P := fun _ s' => s' = { s2 with depth := s2.depth + 1 })
    (.of_ok (Stateful.run_modify _ s2) rfl)
  rintro _ s3 rfl
  apply Returns.read_bind (Stateful.run_get _)
  have hdepth3 : s2.depth + 1 = ((b :: h).length : ℤ) := by
    rw [hdepth2, hkeep1.depth, hdepth, List.length_cons]
    rfl
  dsimp only
  rw [hdepth3, hlimit _ hp]
  refine .pure ⟨c', hQ, ⟨⟨hd2.toLinks, hd2.cur_lt, hd2.curQuery_lt⟩, hd2.root,
    hd2.closed, hd2.stored, hd2.injective, hd2.node⟩, ?_, hres, ?_, hcur2, ?_,
    ?_⟩
  · rw [Chart.Room]
    dsimp only
    rw [hnodes2]
    exact hroom1
  · rw [← hkeep1.cur]
    exact ha2
  · exact hquery2.trans hkeep1.curQuery
  · rw [← hdepth3, hdepth2, hkeep1.depth]

theorem extend_known (hd : c.Drawn p s) (ha : c.At p s h s.cur)
    (hseen : h ∉ c.seen) (hres : b :: h ∈ c.resolved) (hp : p.Has (b :: h))
    (hroom : c.Room p s) (hdepth : s.depth = h.length)
    (hlimit : Shallow o p) :
    Returns s (extend (memoryStore o.asserts) o b) fun _ s' =>
      c.Extended p h b s s' := by
  have hadd : Returns s (addKid (memoryStore o.asserts) o b) fun _ s' =>
      ∃ c', c' = c ∧ b :: h ∈ c'.resolved ∧ c'.Drawn p s' ∧ c'.Room p s' ∧
        c'.At p s' h s'.cur ∧ Keeps {s.cur} s s' := by
    apply (addKid_known o hd ha hseen hres hp).mono
    intro _ s1 hr1
    refine ⟨c, rfl, hres, hd.reads hr1, ?_, ?_, hr1.keeps _⟩
    · rw [Chart.Room, hr1.nodes]
      exact hroom
    · rw [hr1.cur]
      exact ha.reads hr1
  apply (extend_of_addKid o hp hdepth hlimit hadd).mono
  rintro _ s' ⟨c', rfl, hext⟩
  exact hext

theorem extend_new (hd : c.Drawn p s) (hh : c.Has p h)
    (ha : c.At p s h s.cur) (hseen : h ∉ c.seen) (hnew : b :: h ∉ c.resolved)
    (hfresh : c.Fresh (b :: h)) (hp : p.Has (b :: h)) (hroom : c.Room p s)
    (hsize : p.places.card + 3 < 2 ^ 30) (hdepth : s.depth = h.length)
    (hlimit : Shallow o p) :
    Returns s (extend (memoryStore o.asserts) o b) fun _ s' =>
      ∃ c', Chart.Resolves p c c' (b :: h) ∧ c'.Extended p h b s s' := by
  apply extend_of_addKid o hp hdepth hlimit
  apply (addKid_new o hd hh ha hseen hnew hfresh hp hroom hsize).mono
  rintro _ s' ⟨c', hr, hd', hroom', ha', hkeep⟩
  refine ⟨c', hr, ?_, hd', hroom', ha', hkeep⟩
  rw [hr.resolved]
  exact Finset.mem_insert_self _ _

end Fuzzball.BinaryDecisionTree
