import Fuzzball.PathExploration

/-!
# Runs of the exploration

Each iteration of the loop ends at a leaf that no other has visited, and marks
the places below which nothing is left.  The loop ends when the root is marked.
-/

namespace Fuzzball.BinaryDecisionTree

open DecisionTree

section Iterations

variable {c : Chart} {p : Program} {V : Set (List Bool)}
  {s : TreeState Table} {h : List Bool} {o : TreeOptions}

/-! ## A path -/

theorem guide_stands (hs : c.Stands p V h s) (heur : Option ℤ) :
    Returns s (guide (memoryStore o.asserts) heur) fun _ s' =>
      c.Stands p V h s' := by
  cases heur with
  | none => exact .pure hs
  | some i =>
    apply (setHeur_returns o hs.toDrawn hs.has hs.cur i).mono
    rintro _ s1 ⟨hd1, ha1, hkeep1, hnext1⟩
    refine ⟨⟨hd1, ?_, hs.counted, hs.root_reached, hs.above_reached, hs.both,
      hs.seen, hs.visited⟩, hs.has, ha1, hkeep1.depth.trans hs.depth,
      hs.reached, hs.left⟩
    rw [Chart.Room, hnext1]
    exact hs.room

/-- A path ends at a leaf that has not been visited. -/
theorem runPath_returns (he : Explorable o p) (gd : Guidance) {u : Program}
    (hu : p.subtree h = some u) (hs : c.Stands p V h s) :
    Returns s (runPath (memoryStore o.asserts) o gd u h) fun path s' =>
      p.IsLeaf path ∧ ∃ c' : Chart, c'.Stands p V path s' := by
  induction u generalizing c h s with
  | leaf => exact .pure ⟨hu, c, hs⟩
  | node d feasible sub ih =>
    apply (guide_stands hs (gd.heur h)).bind
    intro _ s1 hs1
    apply (evalDecision_returns he hs1 hu _).bind
    rintro b s2 ⟨c', hs2⟩
    have hb : feasible b = true :=
      (ChoiceTree.has_cons hu).mp hs2.has.has
    exact ih b (ChoiceTree.subtree_cons hu hb) hs2

/-- The end of a path. -/
theorem finishPath_returns (he : Explorable o p) (hs : c.Stands p V h s)
    (hleaf : p.IsLeaf h) :
    Returns s (finishPath (memoryStore o.asserts) o) fun again s' =>
      (∃ c' : Chart, c'.Knows p (insert h V) s') ∧
        (again = true ↔ ¬ p.Done (insert h V) []) := by
  apply (guide_stands hs (some 1)).bind
  intro _ s1 hs1
  have hreached : ∀ g, g <:+ h → g ∈ c.reached := fun g hg =>
    hs1.toKnows.reached_of_suffix hs1.reached hg
  have hmarks := markLoop_returns o (V := insert h V) he.branches hs1.toDrawn
    hs1.has hs1.cur (hs1.toDrawn.ident_lt_fuel hs1.has) hreached
    (fun b g hg => hs1.both b g (hs1.above_reached b g (hreached _ hg)).2) ?_
    ?_ ((ChoiceTree.done_leaf hleaf).mpr (Set.mem_insert h V))
  · have hall : Returns s1 (markAllSeen (memoryStore o.asserts) o) fun _ s' =>
        (c.withSeen {g | p.Done (insert h V) g}).Knows p (insert h V) s' := by
      apply Returns.read_bind (Stateful.run_get s1)
      have hnode : Returns s1 (markAllSeenNode (memoryStore o.asserts) o s1.cur)
          _ := Returns.read_bind (loopFuel_run s1) hmarks
      apply hnode.bind
      rintro _ s2 ⟨hd2, ha2, hkeep2, hnext2⟩
      have hh : (c.withSeen {g | p.Done (insert h V) g}).Has p h := hs1.has
      apply (propagateHeur_returns o hd2 hh ha2).mono
      rintro _ s3 ⟨hd3, -, hkeep3, hnext3⟩
      refine ⟨hd3, ?_, hs1.counted, hs1.root_reached, hs1.above_reached,
        hs1.both, rfl, ?_⟩
      · rw [Chart.Room, hnext3, hnext2]
        exact hs1.room
      · intro l hl
        rcases Set.mem_insert_iff.mp hl with rfl | hl
        · exact ⟨hleaf, hs1.reached⟩
        · exact hs1.visited l hl
    apply hall.bind
    intro _ s2 hk2
    apply Returns.read_bind (Stateful.run_get s2)
    rw [hk2.toDrawn.root]
    apply (fetch_returns _ hk2.toDrawn (.inl rfl)).bind
    rintro x s3 ⟨hr3, -, hx⟩
    apply Returns.read_bind (node_run s3 x)
    refine .pure ⟨⟨_, hk2.reads hr3⟩, ?_⟩
    rw [Bool.not_eq_true', ← Bool.not_eq_true, hx.2.allSeen, hk2.seen]
    rfl
  · intro g _ hg
    rw [hs1.seen]
    exact (ChoiceTree.done_insert_of_not_suffix hg).symm
  · intro g hg hmem
    rw [hs1.seen] at hmem
    exact hs1.left (ChoiceTree.Done.below hmem hg)

/-- The next path starts at the root. -/
theorem reset_returns (hk : c.Knows p V s) (hleft : ¬ p.Done V []) :
    Returns s (reset (memoryStore o.asserts)) fun _ s' =>
      c.Stands p V [] s' := by
  apply Returns.read_bind (Stateful.run_get s)
  rw [hk.toDrawn.root]
  apply (fetch_returns _ hk.toDrawn (.inl rfl)).bind
  rintro x s1 ⟨hr1, -, hx⟩
  have hd1 := hk.toDrawn.reads hr1
  apply Returns.bind (P := fun _ s' => s' = { s1 with cur := x })
    (.of_ok (Stateful.run_modify _ s1) rfl)
  rintro _ s2 rfl
  have hd2 : c.Drawn p { s1 with cur := x } :=
    ⟨⟨hd1.toLinks, hx.1, hd1.curQuery_lt⟩, hd1.root, hd1.closed, hd1.stored,
      hd1.injective, hd1.node⟩
  apply (fetch_returns _ hd2 (.inl rfl)).bind
  rintro y s3 ⟨hr3, -, hy⟩
  have hd3 := hd2.reads hr3
  have hx3 : c.At p s3 [] s3.cur := by
    rw [hr3.cur]
    have hx' : c.At p { s1 with cur := x } [] x := hx
    exact hx'.reads hr3
  refine .of_ok (Stateful.run_modify _ s3) ⟨⟨⟨⟨hd3.toLinks, hd3.cur_lt, hy.1⟩,
    hd3.root, hd3.closed, hd3.stored, hd3.injective, hd3.node⟩, ?_,
    hk.counted, hk.root_reached, hk.above_reached, hk.both, hk.seen,
    hk.visited⟩, .inl rfl, hx3, rfl, hk.root_reached, hleft⟩
  have hroom1 := hk.room.reads hr1
  have hroom3 : c.Room p s3 := by
    rw [Chart.Room, hr3.nodes]
    exact hroom1
  exact hroom3

/-! ## All paths -/

/-- One iteration visits one more leaf. -/
theorem fuzzIteration_returns (he : Explorable o p) (gd : Guidance)
    (hs : c.Stands p V [] s) :
    Returns s (fuzzIteration (memoryStore o.asserts) o p gd) fun r s' =>
      (p.IsLeaf r.1 ∧ r.1 ∉ V) ∧
        (r.2 = true → ∃ c' : Chart, c'.Stands p (insert r.1 V) [] s') ∧
        (r.2 = false → p.Done (insert r.1 V) [] ∧
          ∃ c' : Chart, c'.Knows p (insert r.1 V) s') := by
  apply (runPath_returns he gd rfl hs).bind
  rintro path s1 ⟨hleaf, c1, hs1⟩
  have hnew : path ∉ V := fun hmem =>
    hs1.left ((ChoiceTree.done_leaf hleaf).mpr hmem)
  apply (finishPath_returns he hs1 hleaf).bind
  rintro (_ | _) s2 ⟨⟨c2, hk2⟩, hagain⟩
  · refine .pure ⟨⟨hleaf, hnew⟩, fun h => absurd h Bool.false_ne_true,
      fun _ => ⟨?_, c2, hk2⟩⟩
    by_contra hnot
    exact Bool.false_ne_true (hagain.mpr hnot)
  · apply (reset_returns hk2 (hagain.mp rfl)).bind
    intro _ s3 hs3
    exact .pure ⟨⟨hleaf, hnew⟩, fun _ => ⟨c2, hs3⟩,
      fun h => absurd h Bool.true_eq_false.mp⟩

/-- How many of `n` paths are explored from an iteration on. -/
def explored (count : Option I64) (iter : I64) (n : ℕ) : ℕ :=
  match count with
  | none => n
  | some i => min (i.toInt - iter.toInt).toNat n

theorem explored_of_le {count : Option I64} {iter : I64}
    (h : (count.all fun i => iter.slt i) = false) (n : ℕ) :
    explored count iter n = 0 := by
  cases count with
  | none => cases h
  | some i =>
    have hle : i.toInt ≤ iter.toInt := by
      rw [Option.all_some, BitVec.slt, decide_eq_false_iff_not] at h
      omega
    rw [explored]
    omega

theorem explored_succ {count : Option I64} {iter : I64}
    (h : (count.all fun i => iter.slt i) = true) (n : ℕ) :
    explored count iter (n + 1) = explored count (iter + 1) n + 1 := by
  cases count with
  | none => rfl
  | some i =>
    have hlt : iter.toInt < i.toInt := by
      rw [Option.all_some, BitVec.slt, decide_eq_true_eq] at h
      exact h
    have hi : i.toInt < 2 ^ 63 := BitVec.toInt_lt
    have hiter : -2 ^ 63 ≤ iter.toInt := BitVec.le_toInt iter
    have hone : (1 : I64).toInt = 1 := by decide
    have hnext : (iter + 1).toInt = iter.toInt + 1 := by
      rw [BitVec.toInt_add, hone]
      exact Int.bmod_eq_of_le (by omega) (by omega)
    rw [explored, explored, hnext]
    omega

theorem visited_nil (V : Set (List Bool)) :
    V ∪ {l | l ∈ ([] : List (List Bool))} = V := by
  simp

theorem visited_cons (V : Set (List Bool)) (path : List Bool)
    (paths : List (List Bool)) :
    V ∪ {l | l ∈ path :: paths} = insert path V ∪ {l | l ∈ paths} := by
  ext l
  simp only [Set.mem_union, Set.mem_ofPred_eq, List.mem_cons,
    Set.mem_insert_iff]
  tauto

/-- What is explored from the root on. -/
theorem loopWStats_returns (he : Explorable o p) (gd : I64 → Guidance)
    (count : Option I64) {fuel : ℕ} {iter : I64} {L : Finset (List Bool)}
    (hL : ∀ l, l ∈ L ↔ p.IsLeaf l ∧ l ∉ V) (hfuel : L.card < fuel)
    (hs : c.Stands p V [] s) :
    Returns s (loopWStats count (fun iter =>
      fuzzIteration (memoryStore o.asserts) o p (gd iter)) fuel iter)
      fun paths s' => paths.Nodup ∧ (∀ l ∈ paths, l ∈ L) ∧
        paths.length = explored count iter L.card ∧
        ∃ c' : Chart, c'.Knows p (V ∪ {l | l ∈ paths}) s' := by
  induction fuel generalizing c V s L iter with
  | zero => exact absurd hfuel (Nat.not_lt_zero _)
  | succ fuel ih =>
    rw [loopWStats]
    split_ifs with hcount
    · apply (fuzzIteration_returns he (gd (iter + 1)) hs).bind
      rintro ⟨path, again⟩ s1 ⟨hnew, hmore, hlast⟩
      have hpath : path ∈ L := (hL path).mpr hnew
      have hcard := Finset.card_erase_add_one hpath
      cases again with
      | false =>
        obtain ⟨hdone, c1, hk1⟩ := hlast rfl
        have herase : L.erase path = ∅ := by
          apply Finset.eq_empty_of_forall_notMem
          intro l hl
          obtain ⟨hne, hmem⟩ := Finset.mem_erase.mp hl
          obtain ⟨hl, hnot⟩ := (hL l).mp hmem
          exact hnot ((hdone l hl List.nil_suffix).resolve_left hne)
        refine .pure ⟨List.nodup_singleton path, ?_, ?_, c1, ?_⟩
        · intro l hl
          rw [List.mem_singleton.mp hl]
          exact hpath
        · rw [← hcard, explored_succ hcount, herase, Finset.card_empty]
          cases count <;> simp [explored]
        · rw [visited_cons, visited_nil]
          exact hk1
      | true =>
        obtain ⟨c1, hs1⟩ := hmore rfl
        have hL' : ∀ l, l ∈ L.erase path ↔
            p.IsLeaf l ∧ l ∉ insert path V := by
          intro l
          rw [Finset.mem_erase, hL, Set.mem_insert_iff, not_or]
          tauto
        apply (ih hL' (by omega) hs1).bind
        rintro paths s2 ⟨hnodup, hmem, hlength, c2, hk2⟩
        refine .pure ⟨?_, ?_, ?_, c2, ?_⟩
        · rw [List.nodup_cons]
          exact ⟨fun h => Finset.notMem_erase path L (hmem path h), hnodup⟩
        · intro l hl
          rcases List.mem_cons.mp hl with rfl | hl
          · exact hpath
          · exact Finset.mem_of_mem_erase (hmem l hl)
        · rw [List.length_cons, hlength, ← hcard, explored_succ hcount]
        · rw [visited_cons]
          exact hk2
    · have hfalse := Bool.eq_false_of_not_eq_true hcount
      refine .pure ⟨List.nodup_nil, ?_, (explored_of_le hfalse _).symm, c, ?_⟩
      · intro l hl
        exact absurd hl List.not_mem_nil
      · rw [visited_nil]
        exact hs.toKnows

end Iterations

/-! ## The first path -/

section Start

variable {p : Program} {o : TreeOptions}

/-- Nothing is known. -/
def Chart.start (p : Program) : Chart :=
  ⟨fun _ => 1, ∅, ∅, ∅, {h | p.Done ∅ h}⟩

theorem Chart.start_has {h : List Bool} (hh : (Chart.start p).Has p h) :
    h = [] :=
  hh.resolve_right fun hr => Finset.notMem_empty h hr.1

theorem Program.not_done_empty (hp : p.Live) : ¬ p.Done ∅ [] :=
  ChoiceTree.not_done_of_unvisited hp ChoiceTree.has_nil
    fun l hl => absurd hl (Set.notMem_empty l)

theorem Chart.start_shows (hp : p.Live) :
    (Chart.start p).Shows p [] (freshNode none 1) where
  ident := rfl
  parent := rfl
  child := fun b => by cases b <;> rfl
  allSeen := iff_of_false Bool.false_ne_true (Program.not_done_empty hp)
  queryChildren := rfl
  queryCounted := iff_of_false Bool.false_ne_true fun h => h.2 rfl
  eipLoc := fun _ _ _ _ => .inl rfl

theorem emptyTable_links (weirdCount : ℤ) :
    Links (emptyTable weirdCount) ⟨fun _ => freshNode none 0, 0⟩ where
  next_nonneg := le_rfl
  entry_eq := by
    rintro i ⟨hpos, hle, -⟩
    change i ≤ 0 at hle
    omega
  entry_other := by
    intro i x hx
    cases hx
  record := fun a ha => absurd ha (Nat.not_lt_zero a)

/-- A node without a parent. -/
theorem newRoot_returns {s : TreeState Table} (hs : Links s.nodes s.records)
    (hroom : s.nodes.nextDtIdent + 1 < 2 ^ 30) :
    Returns s (newDtNode (memoryStore o.asserts) none) fun a s' =>
      Links s'.nodes s'.records ∧ a = s.records.next ∧
        s'.nodes.nextDtIdent = s.nodes.nextDtIdent + 1 ∧
        s'.records = s.records.push
          (freshNode none (s.nodes.nextDtIdent + 1)) ∧
        (∀ i, Stored s.nodes i → nodeAt s'.nodes i = nodeAt s.nodes i) ∧
        nodeAt s'.nodes (s.nodes.nextDtIdent + 1) =
          some (freshNode none (s.nodes.nextDtIdent + 1)).stored := by
  have hnone : ∀ x, (none : Option ℕ) = some x → x < s.records.next := by
    rintro x ⟨⟩
  obtain ⟨table, hrun, hlinks, hold, hat⟩ :=
    newDtNode_contents o.asserts hs hroom hnone
  exact .of_ok hrun ⟨hlinks, rfl, rfl, rfl, hold, hat⟩

/-- The constructor makes three nodes, the first of which is the root. -/
theorem create_returns (hp : p.Live) (weirdCount : ℤ) :
    Returns (blank (emptyTable weirdCount)) (create (memoryStore o.asserts))
      fun _ s => (Chart.start p).Drawn p s ∧ (Chart.start p).Room p s ∧
        s.depth = 0 := by
  apply (newRoot_returns (emptyTable_links weirdCount)
    (show (0 : ℤ) + 1 < 2 ^ 30 by norm_num)).bind
  rintro _ s1 ⟨hs1, rfl, hnext1, hrec1, -, hat1⟩
  replace hnext1 : s1.nodes.nextDtIdent = 1 := hnext1
  apply Returns.read_bind (node_run s1 _)
  apply (newRoot_returns hs1 (by omega)).bind
  rintro _ s2 ⟨hs2, rfl, hnext2, hrec2, hold2, -⟩
  apply (newRoot_returns hs2 (by omega)).bind
  rintro _ s3 ⟨hs3, rfl, hnext3, hrec3, hold3, -⟩
  have hroot : nodeAt s3.nodes 1 = some (freshNode none 1).stored := by
    rw [hold3 1 ⟨le_rfl, by omega, by norm_num⟩,
      hold2 1 ⟨le_rfl, by omega, by norm_num⟩]
    exact hat1
  refine .of_ok (Stateful.run_modify _ s3) ⟨⟨⟨hs3, ?_, ?_⟩, ?_, ?_, ?_, ?_, ?_⟩,
    ?_, rfl⟩
  · rw [hrec3, hrec2]
    exact Nat.lt_succ_of_lt (Nat.lt_succ_self _)
  · rw [hrec3]
    exact Nat.lt_succ_self _
  · rw [hrec1]
    rfl
  · intro b h hres
    exact absurd hres (Finset.notMem_empty _)
  · intro h _
    have hstored : Stored s3.nodes 1 := ⟨le_rfl, by omega, by norm_num⟩
    exact hstored
  · intro g h hg hh _
    rw [Chart.start_has hg, Chart.start_has hh]
  · intro h hh
    rw [Chart.start_has hh]
    have hlegal : Legal s1.nodes (freshNode none 1) := by
      have hrecord := hs1.record 0 (hrec1 ▸ Nat.lt_succ_self 0)
      rw [hrec1] at hrecord
      exact hrecord
    exact ⟨_, hroot, (Chart.start_shows hp).fetched hlegal⟩
  · change s3.nodes.nextDtIdent ≤ _
    omega

/-- The chart of the first path. -/
def Chart.first (p : Program) : Chart :=
  { Chart.start p with reached := {[]}, counted := {[]} }

theorem init_returns (hp : p.Live) {s : TreeState Table}
    (hd : (Chart.start p).Drawn p s) (hroom : (Chart.start p).Room p s)
    (hdepth : s.depth = 0) :
    Returns s (init (memoryStore o.asserts)) fun _ s' =>
      (Chart.first p).Stands p ∅ [] s' := by
  apply Returns.read_bind (Stateful.run_get s)
  rw [hd.root]
  apply (fetch_returns o.asserts hd (.inl rfl)).bind
  rintro a s1 ⟨hr1, -, ha1⟩
  have hd1 := hd.reads hr1
  have hlegal := hd1.record a ha1.1
  apply (assign_returns hd1 (hlegal.of_links rfl rfl fun _ => rfl)).bind
  rintro _ s2 ⟨hd2, hkeep2, hnodes2, hnext2, hget2⟩
  have ha2 : (Chart.first p).At p s2 [] a := by
    refine ⟨hnext2 ▸ ha1.1, ?_⟩
    rw [hget2]
    obtain ⟨hident, hparent, hchild, hseen, -, hcounted, heip⟩ := ha1.2
    refine ⟨hident, hparent, hchild, hseen, rfl, ?_, heip⟩
    refine iff_of_false (fun h => ?_) fun h => h.2 rfl
    exact (hcounted.mp h).2 rfl
  have halike : (Chart.start p).Alike (Chart.first p) := ⟨rfl, rfl⟩
  apply (updateDtNode_alike o.asserts hd2 halike ha2 (.inl rfl) ?_).bind
  · rintro _ s3 ⟨hd3, hrec3, hkeep3, hnext3⟩
    have ha3 : (Chart.first p).At p s3 [] a := by
      unfold Chart.At
      rw [hrec3]
      exact ha2
    have ha := ha3.1
    refine .of_ok rfl ⟨⟨⟨⟨hd3.toLinks, ha, ha⟩, hd3.root, hd3.closed,
      hd3.stored, hd3.injective, hd3.node⟩, ?_, rfl,
      Finset.mem_singleton_self _, ?_,
      fun _ _ h => absurd h (Finset.notMem_empty _), rfl,
      fun l h => absurd h (Set.notMem_empty l)⟩, .inl rfl, ha3, ?_,
      Finset.mem_singleton_self _, Program.not_done_empty hp⟩
    · have hnext : s3.nodes.nextDtIdent = s.nodes.nextDtIdent := by
        rw [hnext3, hnodes2, hr1.nodes]
      exact hnext.trans_le hroom
    · intro b g h
      exact absurd (Finset.mem_singleton.mp h) (List.cons_ne_nil b g)
    · exact (hkeep3.depth.trans (hkeep2.depth.trans hr1.depth)).trans hdepth
  · intro g hg hne
    exact absurd (Chart.start_has hg) hne

theorem fuzz_returns (he : Explorable o p) (gd : I64 → Guidance)
    (numPaths : Option I64) (weirdCount : ℤ) {fuel : ℕ}
    (hfuel : p.leaves.card < fuel) :
    Returns (blank (emptyTable weirdCount))
      (fuzz (memoryStore o.asserts) o numPaths p gd fuel) fun paths s' =>
        paths.Nodup ∧ (∀ l ∈ paths, l ∈ p.leaves) ∧
          paths.length = explored numPaths 0 p.leaves.card ∧
          ∃ c : Chart, c.Knows p {l | l ∈ paths} s' := by
  apply (create_returns he.live weirdCount).bind
  rintro _ s1 ⟨hd1, hroom1, hdepth1⟩
  apply (init_returns he.live hd1 hroom1 hdepth1).bind
  intro _ s2 hs2
  have hleaves : ∀ l, l ∈ p.leaves ↔
      p.IsLeaf l ∧ l ∉ (∅ : Set (List Bool)) := by
    intro l
    rw [ChoiceTree.mem_leaves]
    exact (and_iff_left (Set.notMem_empty l)).symm
  apply (loopWStats_returns he gd numPaths hleaves hfuel hs2).mono
  intro paths s' hpaths
  rwa [Set.empty_union] at hpaths

/-- Without a limit every feasible path is visited just once, whatever guides
the paths. -/
theorem fuzz_explores (he : Explorable o p) (gd : I64 → Guidance)
    (weirdCount : ℤ) {fuel : ℕ} (hfuel : p.leaves.card < fuel) :
    ∃ paths s', (fuzz (memoryStore o.asserts) o none p gd fuel).run
        (blank (emptyTable weirdCount)) = (.ok paths, s') ∧
      paths.Nodup ∧ ∀ l, l ∈ paths ↔ p.IsLeaf l := by
  obtain ⟨paths, s', hrun, hnodup, hleaf, hlength, -⟩ :=
    fuzz_returns he gd none weirdCount hfuel
  have hall : paths.toFinset = p.leaves := by
    apply Finset.eq_of_subset_of_card_le
    · intro l hl
      exact hleaf l (List.mem_toFinset.mp hl)
    · rw [List.toFinset_card_of_nodup hnodup, hlength]
      exact le_rfl
  refine ⟨paths, s', hrun, hnodup, fun l => ?_⟩
  rw [← ChoiceTree.mem_leaves, ← hall, List.mem_toFinset]

/-- A jump, and below its false side a condition that is false. -/
def twoDecisions : Program :=
  .node ⟨0x8048000, true⟩ (fun _ => true) fun b =>
    if b then .leaf else .node ⟨0x8048010, false⟩ (fun b => !b) fun _ => .leaf

theorem twoDecisions_live : twoDecisions.Live := by
  refine ⟨⟨true, rfl⟩, ?_⟩
  rintro (_ | _) _
  · exact ⟨⟨false, rfl⟩, fun _ _ => trivial⟩
  · exact trivial

/-- Every path is guided to the true sides. -/
theorem fuzz_explores_twoDecisions : ∃ paths s',
    (fuzz (memoryStore .default) .default none twoDecisions
      (fun _ => ⟨fun _ => true, fun _ => some 5⟩) 3).run
        (blank (emptyTable 0)) = (.ok paths, s') ∧
      paths.Nodup ∧ ∀ l, l ∈ paths ↔ twoDecisions.IsLeaf l :=
  fuzz_explores (explorable_default twoDecisions_live (by decide +kernel)) _ 0
    (by decide +kernel)

end Start

/-! ## The tree after some paths -/

/-- The number of the node to which the choices lead from the root. -/
def placeIdent (s : TreeState Table) : List Bool → Option ℤ
  | [] => some s.rootIdent
  | b :: h => do
    let i ← placeIdent s h
    let n ← nodeAt s.nodes i
    (child b n).join

/-- The table tells of the paths to the leaves in `V`: they can be followed,
the sides without a node are infeasible, and the nodes are marked just when
nothing below them is left. -/
structure Recorded (p : Program) (V : Set (List Bool))
    (s : TreeState Table) : Prop where
  visited : ∀ l ∈ V, ∃ i, placeIdent s l = some i
  node : ∀ h i, placeIdent s h = some i → p.Has h ∧
    ∃ n, nodeAt s.nodes i = some n ∧ n.ident = i ∧
      (n.allSeen = true ↔ p.Done V h) ∧
      ∀ b, child b n = some none → ¬ p.Has (b :: h)

section Records

variable {c : Chart} {p : Program} {V : Set (List Bool)} {s : TreeState Table}
  {h : List Bool} {i : ℤ} {o : TreeOptions}

theorem Chart.Drawn.placeIdent (hd : c.Drawn p s) (hh : c.Has p h) :
    placeIdent s h = some (c.ident h) := by
  induction h with
  | nil =>
    rw [BinaryDecisionTree.placeIdent, hd.root]
  | cons b h ih =>
    have hh' := hd.has_tail hh
    obtain ⟨n, hn, hshow⟩ := hd.node h hh'
    rw [BinaryDecisionTree.placeIdent, ih hh']
    change (nodeAt s.nodes (c.ident h)).bind _ = _
    rw [hn, Option.bind_some, hshow.child, Chart.child, if_pos hh.resolved,
      if_pos hh.has]
    rfl

theorem Chart.Drawn.has_of_placeIdent (hd : c.Drawn p s)
    (hi : BinaryDecisionTree.placeIdent s h = some i) : c.Has p h := by
  induction h generalizing i with
  | nil => exact .inl rfl
  | cons b h ih =>
    obtain ⟨j, hj, hrest⟩ := Option.bind_eq_some_iff.mp hi
    obtain ⟨n, hn, hchild⟩ := Option.bind_eq_some_iff.mp hrest
    have hh := ih hj
    obtain rfl : c.ident h = j :=
      Option.some.inj ((hd.placeIdent hh).symm.trans hj)
    obtain ⟨m, hm, hshow⟩ := hd.node h hh
    obtain rfl : m = n := Option.some.inj (hm.symm.trans hn)
    rw [hshow.child, Chart.child] at hchild
    split_ifs at hchild with hres hp
    · exact .inr ⟨hres, hp⟩
    · cases hchild
    · cases hchild

theorem Chart.Knows.recorded (hk : c.Knows p V s) : Recorded p V s where
  visited := by
    intro l hl
    obtain ⟨hleaf, hreached⟩ := hk.visited l hl
    refine ⟨_, hk.toDrawn.placeIdent ?_⟩
    cases l with
    | nil => exact .inl rfl
    | cons b h => exact .inr ⟨(hk.above_reached b h hreached).2, hleaf.has⟩
  node := by
    intro h i hi
    have hh := hk.toDrawn.has_of_placeIdent hi
    obtain rfl : c.ident h = i :=
      Option.some.inj ((hk.toDrawn.placeIdent hh).symm.trans hi)
    obtain ⟨n, hn, hshow⟩ := hk.node h hh
    refine ⟨hh.has, n, hn, hshow.ident, ?_, ?_⟩
    · rw [hshow.allSeen, hk.seen]
      rfl
    · intro b hb
      rw [hshow.child, Chart.child] at hb
      split_ifs at hb with hres hp
      · cases hb
      · exact hp

/-- After any number of paths the tree is marked just where nothing is left. -/
theorem fuzz_recorded (he : Explorable o p) (gd : I64 → Guidance)
    (numPaths : Option I64) (weirdCount : ℤ) {fuel : ℕ}
    (hfuel : p.leaves.card < fuel) :
    ∃ paths s', (fuzz (memoryStore o.asserts) o numPaths p gd fuel).run
        (blank (emptyTable weirdCount)) = (.ok paths, s') ∧
      paths.length = explored numPaths 0 p.leaves.card ∧ paths.Nodup ∧
      (∀ l ∈ paths, p.IsLeaf l) ∧ Recorded p {l | l ∈ paths} s' := by
  obtain ⟨paths, s', hrun, hnodup, hleaf, hlength, c, hk⟩ :=
    fuzz_returns he gd numPaths weirdCount hfuel
  exact ⟨paths, s', hrun, hlength, hnodup,
    fun l hl => ChoiceTree.mem_leaves.mp (hleaf l hl), hk.recorded⟩

/-- After one of the two paths. -/
theorem fuzz_recorded_twoDecisions : ∃ paths s',
    (fuzz (memoryStore .default) .default (some 1) twoDecisions
      (fun _ => ⟨fun _ => true, fun _ => none⟩) 3).run
        (blank (emptyTable 0)) = (.ok paths, s') ∧
      paths.length = explored (some 1) 0 twoDecisions.leaves.card ∧
      paths.Nodup ∧ (∀ l ∈ paths, twoDecisions.IsLeaf l) ∧
      Recorded twoDecisions {l | l ∈ paths} s' :=
  fuzz_recorded (explorable_default twoDecisions_live (by decide +kernel)) _ _ 0
    (by decide +kernel)

end Records

end Fuzzball.BinaryDecisionTree
