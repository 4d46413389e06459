import Fuzzball.BinaryDecisionTreeMarks
import Fuzzball.BinaryDecisionTreeReach

/-!
# Exploration of all paths

The loop of `exec_fuzzloop.ml` over the paths of a program, as far as it asks
the decision tree: `eval_cjmp` and `eval_bool_exp_tristate` on a symbolic
condition, `finish_path` and `reset` of `sym_path_frag_machine.ml`.  A program
that is run again makes the same decisions, and the solver tells which sides of
them are feasible.
-/

namespace Fuzzball.BinaryDecisionTree

open DecisionTree

/-! ## One path -/

section Path

variable {σ ε : Type} (S : Store σ) (o : TreeOptions)

/-- `eval_cjmp` on a symbolic condition.  The choice is what the random bit, a
preference or a heuristic says. -/
def evalCjmp (k : Callbacks ε) (eipLoc : I64) : Tree σ Bool := do
  startNewQueryBinary o
  let _ ← haveChoice S
  let (b, _) ← tryExtend S o k eipLoc
  countQuery S o
  pure b

/-- `eval_bool_exp_tristate` on a symbolic condition. -/
def evalBoolExpTristate (k : Callbacks ε) (eipLoc : I64) :
    Tree σ (Bool × Option Bool) := do
  startNewQueryBinary o
  let (b, _) ← tryExtend S o k eipLoc
  let choices ← checkLastChoices S
  countQuery S o
  pure (b, choices)

def evalBoolExp (k : Callbacks ε) (eipLoc : I64) : Tree σ Bool := do
  let (b, _) ← evalBoolExpTristate S o k eipLoc
  pure b

def evalDecision (d : Decision) (k : Callbacks ε) : Tree σ Bool :=
  if d.isJump then evalCjmp S o k d.eipLoc else evalBoolExp S o k d.eipLoc

/-- The functions that `query_with_pc_choice` passes to `try_extend`: the
condition or its negation, and the solver's answer for it.  That both sides
are unsatisfiable raises. -/
def queryWithPcChoice (feasible : Bool → Bool) (choice : Bool) :
    Callbacks Bool where
  transFunc b := b
  tryFunc _ cond := some (feasible cond)
  nonTryFunc _ := some ()
  randomBitGen := some choice
  bothFailFunc _ := none

/-- The choices on a path, and the values of the heuristic on it. -/
structure Guidance where
  choice : List Bool → Bool
  heur : List Bool → Option ℤ

def guide (heur : Option ℤ) : Tree σ Unit :=
  match heur with
  | some i => setHeur S i
  | none => pure ()

/-- The rest of a path, from a place on. -/
def runPath (g : Guidance) : Program → List Bool → Tree σ (List Bool)
  | .leaf, h => pure h
  | .node d feasible sub, h => do
    guide S (g.heur h)
    let b ← evalDecision S o d (queryWithPcChoice feasible (g.choice h))
    runPath g (sub b) (b :: h)

/-- `finish_path`, which tells whether there are more paths. -/
def finishPath : Tree σ Bool := do
  setHeur S 1
  markAllSeen S o
  tryAgainP S

/-- One iteration of `fuzz`: the path, and whether it is not the last one. -/
def fuzzIteration (p : Program) (g : Guidance) : Tree σ (List Bool × Bool) := do
  let path ← runPath S o g p []
  let again ← finishPath S o
  if again then
    reset S
    pure (path, true)
  else pure (path, false)

/-- `loop_w_stats`, which returns the paths. -/
def loopWStats (count : Option I64) (fn : I64 → Tree σ (List Bool × Bool)) :
    ℕ → I64 → Tree σ (List (List Bool))
  | 0, _ => throw .diverges
  | fuel + 1, iter =>
    if count.all fun i => iter.slt i then do
      let (path, again) ← fn (iter + 1)
      if again then
        let paths ← loopWStats count fn fuel (iter + 1)
        pure (path :: paths)
      else pure [path]
    else pure []

/-- The tree is made, and the paths are explored. -/
def fuzz (numPaths : Option I64) (p : Program) (g : I64 → Guidance)
    (fuel : ℕ) : Tree σ (List (List Bool)) := do
  create S
  init S
  loopWStats numPaths (fun iter => fuzzIteration S o p (g iter)) fuel 0

end Path

/-! ## Between two paths -/

/-- The chart after the paths to the leaves in `V`. -/
structure Chart.Knows (c : Chart) (p : Program) (V : Set (List Bool))
    (s : TreeState Table) : Prop extends c.Drawn p s where
  room : c.Room p s
  counted : c.counted = c.reached
  root_reached : [] ∈ c.reached
  above_reached : ∀ b g, b :: g ∈ c.reached →
    g ∈ c.reached ∧ b :: g ∈ c.resolved
  both : ∀ b g, b :: g ∈ c.resolved →
    false :: g ∈ c.resolved ∧ true :: g ∈ c.resolved
  seen : c.seen = {h | p.Done V h}
  visited : ∀ l ∈ V, p.IsLeaf l ∧ l ∈ c.reached

/-- The path has come to the place, below which something is left. -/
structure Chart.Stands (c : Chart) (p : Program) (V : Set (List Bool))
    (h : List Bool) (s : TreeState Table) : Prop extends c.Knows p V s where
  has : c.Has p h
  cur : c.At p s h s.cur
  depth : s.depth = h.length
  reached : h ∈ c.reached
  left : ¬ p.Done V h

section Steps

variable {c c' : Chart} {p : Program} {V : Set (List Bool)}
  {s s' : TreeState Table} {g h : List Bool} {b : Bool} {n : ℕ}
  {o : TreeOptions}

theorem Chart.Knows.reached_of_suffix (hk : c.Knows p V s)
    (hh : h ∈ c.reached) (hs : g <:+ h) : g ∈ c.reached := by
  induction h with
  | nil =>
    rw [List.suffix_nil.mp hs]
    exact hh
  | cons b h ih =>
    rcases suffix_cons_cases hs with rfl | hs
    · exact hh
    · exact ih (hk.above_reached b h hh).1 hs

/-- Nothing is known of what lies below a side that is not resolved. -/
theorem Chart.Knows.fresh (hk : c.Knows p V s) (hlive : p.Live)
    (hp : p.Has (b :: h)) : c.Fresh (b :: h) := by
  intro hnew
  have hreached : b :: h ∉ c.reached := fun hr =>
    hnew (hk.above_reached b h hr).2
  refine ⟨?_, hreached⟩
  rw [hk.seen]
  apply ChoiceTree.not_done_of_unvisited hlive hp
  intro l hl hs
  exact hreached (hk.reached_of_suffix (hk.visited l hl).2 hs)

theorem Chart.Tried.has (ht : Chart.Tried p c c' h) (hg : c.Has p g) :
    c'.Has p g := by
  refine hg.imp_right fun hg => ?_
  rw [ht.resolved]
  exact ⟨Finset.mem_insert_of_mem (Finset.mem_insert_of_mem hg.1), hg.2⟩

theorem Chart.Tried.resolved_self (ht : Chart.Tried p c c' h) (b : Bool) :
    b :: h ∈ c'.resolved := by
  rw [ht.resolved]
  cases b with
  | false => exact Finset.mem_insert_self _ _
  | true => exact Finset.mem_insert_of_mem (Finset.mem_insert_self _ _)

theorem Chart.Tried.both (ht : Chart.Tried p c c' h)
    (hboth : ∀ b g, b :: g ∈ c.resolved →
      false :: g ∈ c.resolved ∧ true :: g ∈ c.resolved)
    (hg : b :: g ∈ c'.resolved) :
    false :: g ∈ c'.resolved ∧ true :: g ∈ c'.resolved := by
  have hcases : g = h ∨ b :: g ∈ c.resolved := by
    rw [ht.resolved, Finset.mem_insert, Finset.mem_insert] at hg
    rcases hg with heq | heq | hg
    · exact .inl (List.cons.inj heq).2
    · exact .inl (List.cons.inj heq).2
    · exact .inr hg
  rcases hcases with rfl | hg
  · exact ⟨ht.resolved_self false, ht.resolved_self true⟩
  · obtain ⟨hf, ht'⟩ := hboth b g hg
    rw [ht.resolved]
    exact ⟨Finset.mem_insert_of_mem (Finset.mem_insert_of_mem hf),
      Finset.mem_insert_of_mem (Finset.mem_insert_of_mem ht')⟩

/-- After the count the path stands at the side that was taken. -/
theorem Chart.Stands.reach (hs : c.Stands p V h s)
    (ht : Chart.Tried p c c' h) (hp : p.Has (b :: h))
    (hleft : b :: h ∉ c.seen) (hd : (c'.reach (b :: h)).Drawn p s')
    (ha : (c'.reach (b :: h)).At p s' (b :: h) s'.cur)
    (hroom : c'.Room p s') (hdepth : s'.depth = (b :: h).length) :
    (c'.reach (b :: h)).Stands p V (b :: h) s' := by
  have hreached : (c'.reach (b :: h)).reached = insert (b :: h) c.reached := by
    rw [Chart.reach, ht.reached]
  refine ⟨⟨hd, hroom, ?_, ?_, ?_, fun b g hg => ht.both hs.both hg, ?_, ?_⟩,
    .inr ⟨ht.resolved_self b, hp⟩, ha, hdepth, Finset.mem_insert_self _ _, ?_⟩
  · rw [Chart.reach, ht.counted, ht.reached, hs.counted]
  · rw [hreached]
    exact Finset.mem_insert_of_mem hs.root_reached
  · intro d g hg
    rw [hreached, Finset.mem_insert] at hg
    rw [hreached]
    rcases hg with heq | hg
    · obtain ⟨rfl, rfl⟩ := List.cons.inj heq
      exact ⟨Finset.mem_insert_of_mem hs.reached, ht.resolved_self d⟩
    · obtain ⟨hg1, hg2⟩ := hs.above_reached d g hg
      refine ⟨Finset.mem_insert_of_mem hg1, ?_⟩
      change d :: g ∈ c'.resolved
      rw [ht.resolved]
      exact Finset.mem_insert_of_mem (Finset.mem_insert_of_mem hg2)
  · exact ht.seen.trans hs.seen
  · intro l hl
    obtain ⟨hleaf, hmem⟩ := hs.visited l hl
    rw [hreached]
    exact ⟨hleaf, Finset.mem_insert_of_mem hmem⟩
  · rw [hs.seen] at hleft
    exact hleft

/-! ## A decision -/

/-- What the source assumes of options and program. -/
structure Explorable (o : TreeOptions) (p : Program) : Prop where
  live : p.Live
  size : p.places.card + 3 < 2 ^ 30
  shallow : Shallow o p
  branches : 2 < o.queryBranchLimit

/-- With the default options only the number of the nodes is a limit. -/
theorem explorable_default (hlive : p.Live)
    (hsize : p.places.card + 3 < 2 ^ 30) : Explorable .default p where
  live := hlive
  size := hsize
  shallow := by
    intro h hh
    have hlength := hh.length_lt
    have hsmall : (h.length : ℤ) < 2 ^ 30 := by
      push_cast at hsize
      omega
    have hint : (I64.ofInt h.length).toInt = h.length :=
      BitVec.toInt_ofInt_eq_self (by norm_num) (by omega) (by norm_num; omega)
    have hlimit : TreeOptions.default.pathDepthLimit.toInt = 1000000000000 := by
      decide
    rw [BitVec.slt, hint, hlimit, decide_eq_false_iff_not]
    omega
  branches := by decide

theorem queryWithPcChoice_answers {d : Decision} {feasible : Bool → Bool}
    {sub : Bool → Program} (hnode : p.subtree h = some (.node d feasible sub))
    (choice : Bool) :
    Answers p h (queryWithPcChoice feasible choice) choice where
  tryFunc := by
    intro b
    change some (feasible b) = _
    have hiff := ChoiceTree.has_cons (b := b) hnode
    by_cases hb : feasible b = true
    · rw [hb, decide_eq_true (hiff.mpr hb)]
    · rw [decide_eq_false fun h => hb (hiff.mp h),
        Bool.eq_false_of_not_eq_true hb]
  nonTryFunc := fun _ => rfl
  randomBitGen := rfl

theorem Chart.Stands.query (hs : c.Stands p V h s) :
    c.Stands p V h { s with curQuery := s.cur } :=
  ⟨⟨⟨⟨hs.toLinks, hs.cur_lt, hs.cur_lt⟩, hs.toDrawn.root, hs.closed, hs.stored,
    hs.injective, hs.node⟩, hs.room, hs.counted, hs.root_reached,
    hs.above_reached, hs.both, hs.seen, hs.visited⟩, hs.has, hs.cur, hs.depth,
    hs.reached, hs.left⟩

theorem Chart.Knows.reads (hk : c.Knows p V s) (hr : Reads s s') :
    c.Knows p V s' :=
  ⟨hk.toDrawn.reads hr, hk.room.reads hr, hk.counted, hk.root_reached,
    hk.above_reached, hk.both, hk.seen, hk.visited⟩

theorem Chart.Stands.reads (hs : c.Stands p V h s) (hr : Reads s s') :
    c.Stands p V h s' where
  toKnows := hs.toKnows.reads hr
  has := hs.has
  cur := by
    rw [hr.cur]
    exact hs.cur.reads hr
  depth := hr.depth.trans hs.depth
  reached := hs.reached
  left := hs.left

theorem Decides.reads {s'' : TreeState Table} (hd : Decides p c h s b s')
    (hr : Reads s' s'') : Decides p c h s b s'' := by
  obtain ⟨c', ht, hp, hleft, he⟩ := hd
  refine ⟨c', ht, hp, hleft, he.drawn.reads hr, he.room.reads hr, he.resolved,
    he.before.reads hr, ?_, hr.curQuery.trans he.curQuery,
    hr.depth.trans he.depth⟩
  rw [hr.cur]
  exact he.cur.reads hr

section Decision

variable {d : Decision} {feasible : Bool → Bool} {sub : Bool → Program}
  (he : Explorable o p) (hs : c.Stands p V h s)
  (hnode : p.subtree h = some (.node d feasible sub)) (choice : Bool)

include he hs hnode

theorem tryExtend_decides (hq : s.curQuery = s.cur) :
    Returns s (tryExtend (memoryStore o.asserts) o
      (queryWithPcChoice feasible choice) d.eipLoc) fun r s' =>
      Decides p c h s r.1 s' := by
  have hseen : h ∉ c.seen := by
    rw [hs.seen]
    exact hs.left
  have hleft : ∃ b, p.Has (b :: h) ∧ b :: h ∉ c.seen := by
    have hnot := hs.left
    rw [ChoiceTree.done_node hnode] at hnot
    push Not at hnot
    obtain ⟨b, hp, hb⟩ := hnot
    rw [hs.seen]
    exact ⟨b, hp, hb⟩
  exact tryExtend_returns o hs.toDrawn hs.has hs.cur hq hseen hs.room hs.depth
    he.shallow he.branches (queryWithPcChoice_answers hnode choice) he.size
    hnode ⟨fun hf => (hs.both false h hf).2, fun ht => (hs.both true h ht).1⟩
    (fun b hp => hs.toKnows.fresh he.live hp) hleft

omit hnode in
theorem countQuery_stands (hq : s.curQuery = s.cur)
    (hd : Decides p c h s b s') :
    Returns s' (countQuery (memoryStore o.asserts) o) fun _ s'' =>
      ∃ c' : Chart, c'.Stands p V (b :: h) s'' := by
  obtain ⟨c', ht, hp, hleft, hext⟩ := hd
  have hh : c'.Has p (b :: h) := .inr ⟨hext.resolved, hp⟩
  have hquery : c'.At p s' h s'.curQuery := by
    rw [hext.curQuery, hq]
    exact hext.before
  have hreached : h ∈ c'.reached := ht.reached ▸ hs.reached
  have hcounted : c'.counted = c'.reached := by
    rw [ht.counted, ht.reached, hs.counted]
  have hbelow : b :: h ∉ c'.reached → ∀ d, d :: b :: h ∉ c'.reached := by
    rw [ht.reached]
    intro hnew d hmem
    exact hnew (hs.above_reached d _ hmem).1
  apply (countQuery_returns o hext.drawn hh hquery hext.cur hreached hcounted
    he.branches hbelow).mono
  rintro _ s2 ⟨hd2, ha2, hkeep2, hnext2⟩
  refine ⟨_, hs.reach ht hp hleft hd2 ha2 ?_ ?_⟩
  · rw [Chart.Room, hnext2]
    exact hext.room
  · rw [hkeep2.depth, hext.depth, hs.depth, List.length_cons]
    rfl

theorem evalCjmp_returns :
    Returns s (evalCjmp (memoryStore o.asserts) o
      (queryWithPcChoice feasible choice) d.eipLoc) fun b s' =>
      ∃ c' : Chart, c'.Stands p V (b :: h) s' := by
  apply (startNewQueryBinary_returns o hs.cur hs.reached).bind
  rintro _ s1 rfl
  have hs1 := hs.query
  have hlive : ∃ b, p.Has (b :: h) := by
    obtain ⟨b, hb⟩ := (he.live.subtree hnode).1
    exact ⟨b, (ChoiceTree.has_cons hnode).mpr hb⟩
  apply (haveChoice_returns o hs1.toDrawn hs1.cur hlive).bind
  intro _ s2 hr2
  have hs2 := hs1.reads hr2
  have hq2 : s2.curQuery = s2.cur := by
    rw [hr2.curQuery, hr2.cur]
  apply (tryExtend_decides he hs2 hnode choice hq2).bind
  rintro ⟨b, e⟩ s3 hd3
  apply (countQuery_stands he hs2 hq2 hd3).bind
  rintro _ s4 ⟨c', hs4⟩
  exact .pure ⟨c', hs4⟩

/-- The choices are the side that was taken when there is no other. -/
theorem evalBoolExpTristate_returns :
    Returns s (evalBoolExpTristate (memoryStore o.asserts) o
      (queryWithPcChoice feasible choice) d.eipLoc) fun r s' =>
      (∃ c' : Chart, c'.Stands p V (r.1 :: h) s') ∧
        r.2 = if p.Has ((!r.1) :: h) then none else some r.1 := by
  apply (startNewQueryBinary_returns o hs.cur hs.reached).bind
  rintro _ s1 rfl
  have hs1 := hs.query
  apply (tryExtend_decides he hs1 hnode choice rfl).bind
  rintro ⟨b, e⟩ s2 hd2
  have hdec := hd2
  obtain ⟨c', ht, hp, -, hext⟩ := hd2
  have hh : c'.Has p (b :: h) := .inr ⟨hext.resolved, hp⟩
  apply (checkLastChoices_returns o hext.drawn hh hext.cur
    (ht.resolved_self false) (ht.resolved_self true)).bind
  rintro _ s3 ⟨hr3, rfl⟩
  apply (countQuery_stands he hs1 rfl (hdec.reads hr3)).bind
  intro _ s4 hs4
  exact .pure ⟨hs4, rfl⟩

theorem evalDecision_returns :
    Returns s (evalDecision (memoryStore o.asserts) o d
      (queryWithPcChoice feasible choice)) fun b s' =>
      ∃ c' : Chart, c'.Stands p V (b :: h) s' := by
  unfold evalDecision
  split_ifs
  · exact evalCjmp_returns he hs hnode choice
  · apply (evalBoolExpTristate_returns he hs hnode choice).bind
    rintro ⟨b, choices⟩ s1 ⟨hs1, -⟩
    exact .pure hs1

end Decision

end Steps

end Fuzzball.BinaryDecisionTree
