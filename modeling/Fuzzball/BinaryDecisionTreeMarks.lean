import Fuzzball.BinaryDecisionTreeCounts

/-!
# The end of a path

The values of heuristics are passed on towards the root, which changes nothing
that a chart tells.  When the last place of a path is marked, every place that
is done by that is marked too.
-/

namespace Fuzzball.BinaryDecisionTree

open DecisionTree

variable {c c' : Chart} {p : Program} {s s' : TreeState Table}
  {g h : List Bool} {b : Bool} {n : ℕ} (o : TreeOptions)

/-! ## Records of the way to the root -/

/-- Changes of a record that did not exist before. -/
theorem Keeps.of_new {A : Set ℕ} {s'' : TreeState Table} {x : ℕ}
    (hk : Keeps A s s') (hk' : Keeps {x} s' s'') (hx : s.records.next ≤ x) :
    Keeps A s s'' where
  cur := hk'.cur.trans hk.cur
  curQuery := hk'.curQuery.trans hk.curQuery
  depth := hk'.depth.trans hk.depth
  rootIdent := hk'.rootIdent.trans hk.rootIdent
  next_le := hk.next_le.trans hk'.next_le
  get_eq := by
    intro a ha hA
    have hne : a ∉ ({x} : Set ℕ) := fun h => by
      rw [Set.mem_singleton_iff.mp h] at ha
      omega
    exact (hk'.get_eq a (ha.trans_le hk.next_le) hne).trans (hk.get_eq a ha hA)

theorem Chart.Drawn.ident_pos (hd : c.Drawn p s) (hh : c.Has p h) :
    0 < c.ident h :=
  (hd.stored h hh).1

/-- A place has a larger number than the one above it. -/
theorem Chart.Drawn.ident_lt (hd : c.Drawn p s) (ha : c.At p s (b :: h) n) :
    c.ident h < c.ident (b :: h) := by
  rw [← ha.2.ident]
  exact ((hd.record n ha.1).parent_lt _ ha.2.parent).2

/-! ## Heuristics -/

theorem Chart.Shows.heur {m : Node} (hm : c.Shows p h m) (lo hi : ℤ) :
    c.Shows p h { m with heurMin := lo, heurMax := hi } :=
  ⟨hm.ident, hm.parent, hm.child, hm.allSeen, hm.queryChildren,
    hm.queryCounted, hm.eipLoc⟩

theorem propagateHeurLoop_returns {fuel : ℕ} (hd : c.Drawn p s)
    (hh : c.Has p h) (ha : c.At p s h n) (hfuel : c.ident h < fuel) :
    Returns s (propagateHeurLoop (memoryStore o.asserts) fuel n) fun _ s' =>
      c.Drawn p s' ∧ c.At p s' h n ∧ Keeps {n} s s' ∧
        s'.nodes.nextDtIdent = s.nodes.nextDtIdent := by
  induction fuel generalizing s h n with
  | zero =>
    have hpos := hd.ident_pos hh
    omega
  | succ fuel ih =>
    apply Returns.read_bind (Stateful.run_get s)
    apply Returns.read_bind (node_run s n)
    split_ifs
    · rw [← bind_assoc]
      apply (assign_update_returns o hd c.alike_refl
        (f := fun n => { n with
          heurMin := min s.curHeur n.heurMin
          heurMax := max s.curHeur n.heurMax })
        (fun _ => ⟨rfl, rfl, fun _ => rfl⟩) ha.1 hh (ha.2.heur _ _)
        fun _ _ _ _ hm => hm).bind
      rintro _ s1 ⟨hd1, ha1, hkeep1, hnext1, -⟩
      cases h with
      | nil =>
        apply Returns.read_bind (getParent_root _ ha1)
        exact .pure ⟨hd1, ha1, hkeep1, hnext1⟩
      | cons b g =>
        apply (getParent_returns _ hd1 hh ha1).bind
        rintro _ s2 ⟨hr2, x, rfl, hnew, hx⟩
        have hd2 := hd1.reads hr2
        have hless : c.ident g < fuel := by
          have hlt := hd1.ident_lt ha1
          push_cast at hfuel
          omega
        apply (ih hd2 (hd1.has_tail hh) hx hless).mono
        rintro _ s3 ⟨hd3, -, hkeep3, hnext3⟩
        have hkeep : Keeps {n} s1 s3 := (hr2.keeps {n}).of_new hkeep3 hnew
        refine ⟨hd3, ?_, hkeep1.trans hkeep, ?_⟩
        · have hkeep0 : Keeps ∅ s1 s3 := (hr2.keeps ∅).of_new hkeep3 hnew
          exact ha1.keeps hkeep0 (Set.notMem_empty n)
        · rw [hnext3, hr2.nodes, hnext1]
    · refine .pure ⟨hd, ha, ⟨rfl, rfl, rfl, rfl, le_rfl, fun _ _ _ => rfl⟩,
        rfl⟩

/-- The fuel of a loop is enough for a way to the root. -/
theorem Chart.Drawn.ident_lt_fuel (hd : c.Drawn p s) (hh : c.Has p h) :
    c.ident h < (s.nodes.nextDtIdent.toNat + 1 : ℕ) := by
  have hle := (hd.stored h hh).2.1
  omega

theorem propagateHeur_returns (hd : c.Drawn p s) (hh : c.Has p h)
    (ha : c.At p s h n) :
    Returns s (propagateHeur (memoryStore o.asserts) n) fun _ s' =>
      c.Drawn p s' ∧ c.At p s' h n ∧ Keeps {n} s s' ∧
        s'.nodes.nextDtIdent = s.nodes.nextDtIdent := by
  apply Returns.read_bind (loopFuel_run s)
  exact propagateHeurLoop_returns o hd hh ha (hd.ident_lt_fuel hh)

theorem setHeur_returns (hd : c.Drawn p s) (hh : c.Has p h)
    (ha : c.At p s h s.cur) (i : ℤ) :
    Returns s (setHeur (memoryStore o.asserts) i) fun _ s' =>
      c.Drawn p s' ∧ c.At p s' h s'.cur ∧ Keeps {s.cur} s s' ∧
        s'.nodes.nextDtIdent = s.nodes.nextDtIdent := by
  apply Returns.bind (P := fun _ s' =>
    s' = { s with curHeur := i, bestHeur := max i s.bestHeur })
    (.of_ok (Stateful.run_modify _ s) rfl)
  rintro _ s1 rfl
  apply Returns.read_bind (Stateful.run_get _)
  have hd1 : c.Drawn p { s with curHeur := i, bestHeur := max i s.bestHeur } :=
    ⟨⟨hd.toLinks, hd.cur_lt, hd.curQuery_lt⟩, hd.root, hd.closed, hd.stored,
      hd.injective, hd.node⟩
  have ha1 : c.At p { s with curHeur := i, bestHeur := max i s.bestHeur } h
    s.cur := ha
  apply (propagateHeur_returns o hd1 hh ha1).mono
  rintro _ s2 ⟨hd2, ha2, hkeep2, hnext2⟩
  have hcur : s2.cur = s.cur := hkeep2.cur
  refine ⟨hd2, hcur ▸ ha2, ?_, hnext2⟩
  exact ⟨hkeep2.cur, hkeep2.curQuery, hkeep2.depth, hkeep2.rootIdent,
    hkeep2.next_le, hkeep2.get_eq⟩

/-! ## Marks -/

/-- The chart with other marks. -/
def Chart.withSeen (c : Chart) (S : Set (List Bool)) : Chart :=
  { c with seen := S }

theorem Chart.alike_withSeen (c : Chart) (S : Set (List Bool)) :
    c.Alike (c.withSeen S) := ⟨rfl, rfl⟩

theorem Chart.Shows.withSeen {m : Node} (hm : c.Shows p h m)
    {S : Set (List Bool)} (hS : h ∈ S ↔ h ∈ c.seen) :
    (c.withSeen S).Shows p h m :=
  (c.alike_withSeen S).shows hm hS Iff.rfl fun _ => Iff.rfl

/-- Marks of places without a node do not matter. -/
theorem Chart.Drawn.withSeen (hd : c.Drawn p s) {S : Set (List Bool)}
    (hS : ∀ g, c.Has p g → (g ∈ S ↔ g ∈ c.seen)) :
    (c.withSeen S).Drawn p s where
  toLinked := hd.toLinked
  root := hd.root
  closed := hd.closed
  stored := hd.stored
  injective := hd.injective
  node := by
    intro g hg
    obtain ⟨m, hm, hshow⟩ := hd.node g hg
    exact ⟨m, hm, hshow.withSeen (hS g hg)⟩

theorem assertSeen_run {k : Option (Option ℕ)} (hk : c.Side p s h k)
    (hseen : h ∈ c.resolved → p.Has h → h ∈ c.seen) :
    (assertSeen o k).run s = (.ok (), s) := by
  match k with
  | none => rfl
  | some none => rfl
  | some (some x) =>
    apply (Stateful.run_bind_ok (node_run s x)).trans
    apply assert_run
    exact hk.2.2.2.allSeen.mpr (hseen hk.1 hk.2.1)

/-- A place whose sides are marked is marked. -/
theorem mark_returns (hd : c.Drawn p s) (hh : c.Has p h) (ha : c.At p s h n)
    (hkids : ∀ b, b :: h ∈ c.resolved → p.Has (b :: h) → b :: h ∈ c.seen) :
    Returns s (mark (memoryStore o.asserts) o n) fun _ s' =>
      (c.withSeen (insert h c.seen)).Drawn p s' ∧
        (c.withSeen (insert h c.seen)).At p s' h n ∧ Keeps {n} s s' ∧
        s'.nodes.nextDtIdent = s.nodes.nextDtIdent := by
  apply (getChild_returns _ hd false ha).bind
  rintro kf s1 ⟨hr1, hkf⟩
  apply Returns.read_bind (assertSeen_run o hkf (hkids false))
  apply (getChild_returns _ (hd.reads hr1) true (ha.reads hr1)).bind
  rintro kt s2 ⟨hr2, hkt⟩
  apply Returns.read_bind (assertSeen_run o hkt (hkids true))
  have hr := hr1.trans hr2
  have ha2 := ha.reads hr
  have hold := ha2.2
  apply (assign_update_returns o (hd.reads hr)
    (c.alike_withSeen (insert h c.seen))
    (f := fun n => { n with allSeen := true })
    (fun _ => ⟨rfl, rfl, fun _ => rfl⟩) ha2.1 hh
    ⟨hold.ident, hold.parent, hold.child,
      iff_of_true rfl (Set.mem_insert h c.seen), hold.queryChildren,
      hold.queryCounted, hold.eipLoc⟩
    fun g _ hne m hm => hm.withSeen (Set.mem_insert_iff.trans
      (or_iff_right hne))).mono
  rintro _ s3 ⟨hd3, ha3, hkeep3, hnext3, -⟩
  exact ⟨hd3, ha3, (hr.keeps {n}).trans hkeep3, by rw [hnext3, hr.nodes]⟩

/-- Whether the marks go on with the place. -/
theorem kidsSeen_returns (hd : c.Drawn p s) (ha : c.At p s h n)
    (hf : false :: h ∈ c.resolved) (ht : true :: h ∈ c.resolved)
    (hseen : h ∉ c.seen) (hlive : ∃ b, p.Has (b :: h)) :
    Returns s (kidsSeen (memoryStore o.asserts) n) fun r s' => Reads s s' ∧
      (r = true ↔ ∀ b, p.Has (b :: h) → b :: h ∈ c.seen) := by
  apply Returns.read_bind (node_run s n)
  apply (getChild_returns _ hd true ha).bind
  rintro kt s1 ⟨hr1, hkt⟩
  apply (getChild_returns _ (hd.reads hr1) false (ha.reads hr1)).bind
  rintro kf s2 ⟨hr2, hkf⟩
  have hkt2 := hkt.reads hr2
  obtain ⟨tSeen, hrunT, htSeen⟩ := isSeen_run hkt2
  obtain ⟨fSeen, hrunF, hfSeen⟩ := isSeen_run hkf
  apply Returns.read_bind hrunT
  apply Returns.read_bind hrunF
  have hnot : (s.records.get n).allSeen = false := by
    rw [← Bool.not_eq_true, ha.2.allSeen]
    exact hseen
  rw [hnot, Bool.not_false, Bool.true_and]
  have hall : (∀ b, p.Has (b :: h) → b :: h ∈ c.seen) ↔
      (p.Has (false :: h) → false :: h ∈ c.seen) ∧
        (p.Has (true :: h) → true :: h ∈ c.seen) := Bool.forall_bool
  rw [hall]
  have hr := hr1.trans hr2
  match kt, kf with
  | none, _ => exact absurd ht hkt
  | some _, none => exact absurd hf hkf
  | some none, some none =>
    obtain ⟨b, hb⟩ := hlive
    cases b with
    | false => exact absurd hb hkf.2
    | true => exact absurd hb hkt.2
  | some (some _), some (some _) =>
    refine .pure ⟨hr, ?_⟩
    dsimp only
    rw [Bool.and_eq_true, htSeen, hfSeen]
    constructor
    · intro hs
      exact ⟨fun _ => hs.2.2.2, fun _ => hs.1.2.2⟩
    · intro hs
      exact ⟨⟨ht, hkt.2.1, hs.2 hkt.2.1⟩, hf, hkf.2.1, hs.1 hkf.2.1⟩
  | some (some _), some none =>
    refine .pure ⟨hr, ?_⟩
    dsimp only
    rw [htSeen]
    constructor
    · intro hs
      exact ⟨fun hp => absurd hp hkf.2, fun _ => hs.2.2⟩
    · intro hs
      exact ⟨ht, hkt.2.1, hs.2 hkt.2.1⟩
  | some none, some (some _) =>
    refine .pure ⟨hr, ?_⟩
    dsimp only
    rw [hfSeen]
    constructor
    · intro hs
      exact ⟨fun _ => hs.2.2, fun hp => absurd hp hkt.2⟩
    · intro hs
      exact ⟨hf, hkf.2.1, hs.1 hkf.2.1⟩

theorem queryParent_run {fuel : ℕ} (ha : c.At p s h n)
    (hreached : h ∈ c.reached) :
    (queryParent (memoryStore o.asserts) (fuel + 1) n).run s =
      (.ok n, s) := by
  apply (Stateful.run_bind_ok (node_run s n)).trans
  rw [ha.2.queryChildren, if_pos hreached]
  rfl

theorem suffix_cons_cases {k : List Bool} (hk : k <:+ b :: h) :
    k = b :: h ∨ k <:+ h :=
  List.suffix_cons_iff.mp hk

theorem sibling_not_suffix {d : Bool} (hne : d ≠ b) : ¬ d :: h <:+ b :: h := by
  intro hs
  have heq := hs.eq_of_length rfl
  exact hne (List.cons.inj heq).1

/-- The marks above a place that is done: as long as all sides are done, the
loop goes on towards the root. -/
theorem markLoop_returns {fuel : ℕ} {V : Set (List Bool)}
    (hbranch : 2 < o.queryBranchLimit) (hd : c.Drawn p s) (hh : c.Has p h)
    (ha : c.At p s h n) (hfuel : c.ident h < fuel)
    (hreached : ∀ g, g <:+ h → g ∈ c.reached)
    (hboth : ∀ b g, b :: g <:+ h →
      false :: g ∈ c.resolved ∧ true :: g ∈ c.resolved)
    (hother : ∀ g, c.Has p g → ¬ g <:+ h → (g ∈ c.seen ↔ p.Done V g))
    (hunseen : ∀ g, g <:+ h → g ∉ c.seen) (hdone : p.Done V h) :
    Returns s (markLoop (memoryStore o.asserts) o fuel n) fun _ s' =>
      (c.withSeen {g | p.Done V g}).Drawn p s' ∧
        (c.withSeen {g | p.Done V g}).At p s' h n ∧ Keeps {n} s s' ∧
        s'.nodes.nextDtIdent = s.nodes.nextDtIdent := by
  induction fuel generalizing c s h n with
  | zero =>
    have hpos := hd.ident_pos hh
    omega
  | succ fuel ih =>
    have hkids : ∀ b, b :: h ∈ c.resolved → p.Has (b :: h) →
        b :: h ∈ c.seen := by
      intro b hres hp
      have hnot : ¬ b :: h <:+ h := by
        intro hs
        have hle := hs.length_le
        simp at hle
      exact (hother _ (.inr ⟨hres, hp⟩) hnot).mpr
        (hdone.below (List.suffix_cons b h))
    apply (mark_returns o hd hh ha hkids).bind
    rintro _ s1 ⟨hd1, ha1, hkeep1, hnext1⟩
    cases h with
    | nil =>
      apply Returns.read_bind (getParent_root _ ha1)
      have hall : ∀ g, c.Has p g →
          (g ∈ {g | p.Done V g} ↔ g ∈ insert [] c.seen) := by
        intro g hg
        by_cases hnil : g = []
        · rw [hnil]
          exact iff_of_true hdone (Set.mem_insert _ _)
        · rw [Set.mem_insert_iff, or_iff_right hnil, hother g hg]
          · rfl
          · exact fun hs => hnil (List.suffix_nil.mp hs)
      exact .pure ⟨hd1.withSeen hall,
        ⟨ha1.1, ha1.2.withSeen (hall [] (.inl rfl))⟩, hkeep1, hnext1⟩
    | cons b g =>
      have hg : c.Has p g := hd.has_tail hh
      have hne : g ≠ b :: g := (List.cons_ne_self b g).symm
      obtain ⟨hf, ht⟩ := hboth b g List.suffix_rfl
      have hunseen1 : ∀ k, k <:+ g → k ∉ insert (b :: g) c.seen := by
        intro k hk hmem
        rcases Set.mem_insert_iff.mp hmem with rfl | hmem
        · have hle := hk.length_le
          simp at hle
        · exact hunseen k (hk.trans (List.suffix_cons b g)) hmem
      -- the sides of the place above have their final marks
      have hsides : ∀ d, p.Has (d :: g) →
          (d :: g ∈ insert (b :: g) c.seen ↔ p.Done V (d :: g)) := by
        intro d hp
        by_cases hdb : d = b
        · rw [hdb]
          exact iff_of_true (Set.mem_insert _ _) hdone
        · have hres : d :: g ∈ c.resolved := by
            cases d with
            | false => exact hf
            | true => exact ht
          have hne' : d :: g ≠ b :: g := fun heq => hdb (List.cons.inj heq).1
          rw [Set.mem_insert_iff, or_iff_right hne']
          exact hother _ (.inr ⟨hres, hp⟩) (sibling_not_suffix hdb)
      obtain ⟨label, feasible, sub, hnode⟩ := hh.has.exists_node
      have hdoneIff : (∀ d, p.Has (d :: g) →
          d :: g ∈ insert (b :: g) c.seen) ↔ p.Done V g := by
        rw [ChoiceTree.done_node hnode]
        exact forall_congr' fun d => forall_congr' fun hp => hsides d hp
      apply (getParent_returns _ hd1 hh ha1).bind
      rintro _ s2 ⟨hr2, x, rfl, hnew, hx⟩
      have hd2 := hd1.reads hr2
      apply (kidsSeen_returns o hd2 hx hf ht (hunseen1 g List.suffix_rfl)
        ⟨b, hh.has⟩).bind
      rintro r s3 ⟨hr3, hr⟩
      have hd3 := hd2.reads hr3
      have hx3 := hx.reads hr3
      have hr' : r = true ↔ p.Done V g := hr.trans hdoneIff
      have hup : Returns s3 (onlyIf r (markLoop (memoryStore o.asserts) o fuel
          x)) fun _ s' => (c.withSeen {g | p.Done V g}).Drawn p s' ∧
            (c.withSeen {g | p.Done V g}).At p s' g x ∧ Keeps {x} s3 s' ∧
            s'.nodes.nextDtIdent = s3.nodes.nextDtIdent := by
        cases r with
        | true =>
          have hless : c.ident g < fuel := by
            have hlt := hd1.ident_lt ha1
            have hlt' : c.ident g < c.ident (b :: g) := hlt
            push_cast at hfuel
            omega
          apply ih hd3 hg hx3 hless
          · intro k hk
            exact hreached k (hk.trans (List.suffix_cons b g))
          · intro d k hk
            exact hboth d k (hk.trans (List.suffix_cons b g))
          · intro k hk hnk
            by_cases heq : k = b :: g
            · rw [heq]
              exact iff_of_true (Set.mem_insert _ _) hdone
            · have hnot : ¬ k <:+ b :: g := fun hs =>
                (suffix_cons_cases hs).elim heq hnk
              exact (Set.mem_insert_iff.trans (or_iff_right heq)).trans
                (hother k hk hnot)
          · exact hunseen1
          · exact hr'.mp rfl
        | false =>
          have hnotDone : ¬ p.Done V g := by
            rw [← hr']
            exact Bool.false_ne_true
          have hall : ∀ k, c.Has p k →
              (k ∈ {g | p.Done V g} ↔ k ∈ insert (b :: g) c.seen) := by
            intro k hk
            by_cases hs : k <:+ g
            · exact iff_of_false (fun hdk => hnotDone (hdk.below hs))
                (hunseen1 k hs)
            · by_cases heq : k = b :: g
              · rw [heq]
                exact iff_of_true hdone (Set.mem_insert _ _)
              · have hnot : ¬ k <:+ b :: g := fun hs' =>
                  (suffix_cons_cases hs').elim heq hs
                exact (hother k hk hnot).symm.trans
                  (Set.mem_insert_iff.trans (or_iff_right heq)).symm
          exact .pure ⟨hd3.withSeen hall,
            ⟨hx3.1, hx3.2.withSeen (hall g hg)⟩,
            ⟨rfl, rfl, rfl, rfl, le_rfl, fun _ _ _ => rfl⟩, rfl⟩
      apply hup.bind
      rintro _ s4 ⟨hd4, hx4, hkeep4, hnext4⟩
      have hgr : g ∈ c.reached := hreached g (List.suffix_cons b g)
      apply Returns.read_bind (loopFuel_run s4)
      apply Returns.read_bind (queryParent_run o hx4 hgr)
      apply Returns.read_bind (node_run s4 x)
      have hgr' : g ∈ (c.withSeen {g | p.Done V g}).reached := hgr
      have hrange := (c.withSeen {g | p.Done V g}).count_range g
      rw [hx4.2.queryChildren, if_pos hgr']
      dsimp only
      rw [if_neg (by omega)]
      have hkeep : Keeps ∅ s1 s4 :=
        ((hr2.trans hr3).keeps ∅).of_new hkeep4 hnew
      have hself : b :: g ∈ {g | p.Done V g} ↔
          b :: g ∈ insert (b :: g) c.seen :=
        iff_of_true hdone (Set.mem_insert _ _)
      have ha4 := ha1.keeps hkeep (Set.notMem_empty n)
      refine .pure ⟨hd4, ⟨ha4.1, ha4.2.withSeen hself⟩, ?_, ?_⟩
      · exact hkeep1.trans (((hr2.trans hr3).keeps {n}).of_new hkeep4 hnew)
      · rw [hnext4, (hr2.trans hr3).nodes, hnext1]

end Fuzzball.BinaryDecisionTree
