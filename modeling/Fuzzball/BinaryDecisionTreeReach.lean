import Fuzzball.BinaryDecisionTreeMethods

/-!
# What the current node can reach

`cur_can_reach_ident` compares the records it fetches with the current one by
`==`.  No record it fetches is the current one, so it never finds it: with the
table in memory it answers `None` for every node, and with the file the first
fetch raises.
-/

namespace Fuzzball.BinaryDecisionTree

open DecisionTree

/-! ## The walk to the root -/

section Walk

variable {s : TreeState Table} (o : TreeOptions)

theorem identToNode_stored (hs : Linked s) {i : ℤ} (hi : Stored s.nodes i) :
    ∃ n, n.ident = i ∧ Linked { s with records := s.records.push n } ∧
      Within s { s with records := s.records.push n } ∧
      (identToNode (memoryStore o.asserts) i).run s =
        (.ok s.records.next, { s with records := s.records.push n }) := by
  obtain ⟨n, hn, hident, -, hx⟩ :=
    hs.fetch_stored o.asserts hi s.nodes.weirdCount
  have hrun := guarded_run (identToNodeTable o.asserts s.nodes.store i) s
  rw [hx] at hrun
  have hpush : Linked { s with records := s.records.push n } :=
    ⟨hs.toLinks.push hn, hs.cur_lt.trans (Nat.lt_succ_self _),
      hs.curQuery_lt.trans (Nat.lt_succ_self _)⟩
  refine ⟨n, hident, hpush, ⟨⟨le_rfl, Nat.le_succ _, fun _ _ => rfl, ?_⟩, rfl⟩,
    ?_⟩
  · intro b hb
    rw [Heap.push_get_of_lt hb]
  · exact (Stateful.run_bind_ok (Stateful.run_get s)).trans
      (Stateful.run_bind_ok hrun)

theorem Legal.stored_of_parent {nodes : StoreState Table} {n : Node} {p : ℤ}
    (h : Legal nodes n) (hp : n.parent = some p) : Stored nodes p := by
  obtain ⟨hpos, hlt⟩ := h.parent_lt p hp
  exact ⟨hpos, hlt.le.trans h.stored.2.1, hlt.trans h.stored.2.2⟩

/-- The records on the way to the root are younger than the current one. -/
theorem reachLoop_run {fuel n : ℕ} (hs : Linked s) (hn : n < s.records.next)
    (hfuel : (s.records.get n).ident < fuel) :
    ∃ s', (reachLoop (memoryStore o.asserts) fuel n).run s =
      (.ok none, s') ∧ Linked s' ∧ Within s s' := by
  induction fuel generalizing s n with
  | zero =>
    have hpos := (hs.record n hn).stored.1
    omega
  | succ fuel ih =>
    have hlegal := hs.record n hn
    have hget : (reachLoop (memoryStore o.asserts) (fuel + 1) n).run s = _ :=
      Stateful.run_bind_ok (Stateful.run_get s)
    rw [hget]
    cases hp : (s.records.get n).parent with
    | none =>
      have hparent : (getParent (memoryStore o.asserts) n).run s =
          (.ok none, s) := by
        apply (Stateful.run_bind_ok (node_run s n)).trans
        rw [hp]
        rfl
      rw [Stateful.run_bind_ok hparent]
      exact ⟨s, rfl, hs, refl_of Within s⟩
    | some p =>
      obtain ⟨m, hm, hpush, hwithin, hrun⟩ :=
        identToNode_stored o hs (hlegal.stored_of_parent hp)
      have hparent : (getParent (memoryStore o.asserts) n).run s =
          (.ok (some s.records.next),
            { s with records := s.records.push m }) := by
        apply (Stateful.run_bind_ok (node_run s n)).trans
        rw [hp]
        exact Stateful.run_bind_ok hrun
      rw [Stateful.run_bind_ok hparent]
      dsimp only
      rw [if_neg hs.cur_lt.ne']
      have hless : ((s.records.push m).get s.records.next).ident < fuel := by
        have hlt := (hlegal.parent_lt p hp).2
        rw [Heap.push_get_next, hm]
        push_cast at hfuel
        omega
      obtain ⟨s', hs', hlinked, hwithin'⟩ :=
        ih hpush (Nat.lt_succ_self _) hless
      exact ⟨s', hs', hlinked, trans_of Within hwithin hwithin'⟩

theorem curCanReachIdent_run (hs : Linked s) {i : ℤ} (hi : Stored s.nodes i) :
    ∃ s', (curCanReachIdent (memoryStore o.asserts) i).run s =
      (.ok none, s') := by
  obtain ⟨n, -, hpush, -, hrun⟩ := identToNode_stored o hs hi
  have hcall : (curCanReachIdent (memoryStore o.asserts) i).run s = _ :=
    Stateful.run_bind_ok hrun
  rw [hcall, Stateful.run_bind_ok (loopFuel_run _)]
  have hnew : s.records.next < (s.records.push n).next := Nat.lt_succ_self _
  obtain ⟨s', hs', -⟩ := reachLoop_run o hpush hnew (hpush.ident_lt_fuel hnew)
  exact ⟨s', hs'⟩

/-- With the file the first fetch raises. -/
theorem curCanReachIdent_file (createString : OString)
    (s : TreeState OString) (i : ℤ) :
    ∃ x s', (curCanReachIdent (fileStore o.asserts createString) i).run s =
      (.error x, s') := by
  obtain ⟨x, w, hx⟩ := identToNodeFile_raises o.asserts createString
    s.nodes.store i s.nodes.weirdCount
  have hfetch : (identToNode (fileStore o.asserts createString) i).run s =
      (.error (.store x),
        { s with nodes := { s.nodes with weirdCount := w } }) := by
    apply (Stateful.run_bind_ok (Stateful.run_get s)).trans
    apply Stateful.run_bind_error
    apply (Stateful.run_bind_ok (Stateful.run_get s)).trans
    dsimp only [fileStore]
    rw [hx]
    rfl
  exact ⟨_, _, Stateful.run_bind_error hfetch⟩

end Walk

/-! ## Reachable states -/

section Reachable

variable (o : TreeOptions)

theorem discard_makes {α : Type} {s : TreeState Table} {x : Tree Table α}
    {P : α → TreeState Table → Prop} (h : Makes s x P) :
    Makes s (discard x) fun _ _ => True := by
  apply h.bind
  intro _ s1 hs1 _ _
  exact .pure hs1 trivial

theorem curCanReachIdent_safe {s : TreeState Table} (hs : Linked s) (i : ℤ) :
    Safe s (curCanReachIdent (memoryStore o.asserts) i) fun _ _ => True := by
  apply (identToNode_safe _ hs i).bind
  intro n s1 hs1 _ ⟨_, hn, _⟩
  apply Ends.read_bind (loopFuel_run s1)
  obtain ⟨s2, hrun, hs2, h2⟩ := reachLoop_run o hs1 hn (hs1.ident_lt_fuel hn)
  exact .of_ok hrun hs2 h2 trivial

/-- What one call preserves. -/
theorem call_makes {ε : Type} {s : TreeState Table} (hs : Linked s)
    (op : Op ε) :
    Makes s (call (memoryStore o.asserts) o op) fun _ _ => True := by
  cases op with
  | init => exact (init_safe o hs).makes
  | reset => exact (reset_safe o hs).makes
  | getHist => exact discard_makes (getHist_safe o hs).makes
  | addKid b => exact addKid_makes o hs b
  | startNewQuery => exact (startNewQuery_safe o hs).makes
  | startNewQueryBinary => exact (startNewQueryBinary_safe o hs).makes
  | countQuery => exact (countQuery_safe o hs).makes
  | extend b => exact extend_makes o hs b
  | recordUnsat b => exact (recordUnsat_safe o hs b).makes
  | tryExtend c eipLoc => exact discard_makes (tryExtend_makes o c hs eipLoc)
  | tryExtendMemoryless c =>
    exact discard_makes (tryExtendMemoryless_makes o c hs)
  | setHeur i => exact (setHeur_safe o hs i).makes
  | heurPreference => exact discard_makes (heurPreference_safe o hs).makes
  | markAllSeen => exact (markAllSeen_safe o hs).makes
  | tryAgainP => exact discard_makes (tryAgainP_safe o hs).makes
  | checkLastChoices => exact discard_makes (checkLastChoices_safe o hs).makes
  | haveChoice => exact discard_makes (haveChoice_safe o hs).makes
  | isLiveIdent i => exact discard_makes (isLiveIdent_safe o hs i).makes
  | curCanReachIdent i =>
    exact discard_makes (curCanReachIdent_safe o hs i).makes

theorem linked_step {ε : Type} {s : TreeState Table} (hs : Linked s)
    (op : Op ε) : Linked (step (memoryStore o.asserts) o s op).2 :=
  (call_makes o hs op).inv

/-- A node without a parent, made where there may be no records yet. -/
theorem newRoot_run {s : TreeState Table} (h : Links s.nodes s.records)
    (hroom : s.nodes.nextDtIdent + 1 < 2 ^ 30) :
    ∃ s', (newDtNode (memoryStore o.asserts) none).run s =
        (.ok s.records.next, s') ∧
      Links s'.nodes s'.records ∧
      s'.nodes.nextDtIdent = s.nodes.nextDtIdent + 1 ∧
      s'.records.next = s.records.next + 1 := by
  have hnone : ∀ a, none = some a → a < s.records.next := fun _ h => nomatch h
  obtain ⟨table, hrun, -, hlinks⟩ := newDtNode_links h o.asserts hroom hnone
  exact ⟨_, hrun, hlinks, rfl, rfl⟩

theorem linked_create (weirdCount : ℤ) :
    Linked ((create (memoryStore o.asserts)).run
      (blank (emptyTable weirdCount))).2 := by
  have hlinks : Links (emptyTable weirdCount)
      ⟨fun _ => freshNode none 0, 0⟩ := by
    refine ⟨le_rfl, ?_, ?_, fun a ha => absurd ha (Nat.not_lt_zero a)⟩
    · intro i ⟨h1, hi, _⟩
      change i ≤ 0 at hi
      omega
    · intro i s hs
      exact nomatch hs
  obtain ⟨s1, h1, hlinks1, hnext1, hrecords1⟩ :=
    newRoot_run o (s := blank (emptyTable weirdCount)) hlinks
      (show (0 : ℤ) + 1 < 2 ^ 30 by norm_num)
  replace hnext1 : s1.nodes.nextDtIdent = 1 := hnext1
  obtain ⟨s2, h2, hlinks2, hnext2, hrecords2⟩ :=
    newRoot_run o hlinks1 (by omega)
  obtain ⟨s3, h3, hlinks3, -, hrecords3⟩ := newRoot_run o hlinks2 (by omega)
  have hrun : (create (memoryStore o.asserts)).run
      (blank (emptyTable weirdCount)) = _ := Stateful.run_bind_ok h1
  rw [hrun, Stateful.run_bind_ok (node_run s1 _), Stateful.run_bind_ok h2,
    Stateful.run_bind_ok h3]
  refine ⟨hlinks3, ?_, ?_⟩
  · change s1.records.next < s3.records.next
    omega
  · change s2.records.next < s3.records.next
    omega

/-- What every run preserves. -/
theorem linked_after {ε : Type} (weirdCount : ℤ) (ops : List (Op ε)) :
    Linked (after (memoryStore o.asserts) o (emptyTable weirdCount) ops) := by
  apply Machine.run_keeps
  · intro s op hs
    exact linked_step o hs op
  · exact linked_create o weirdCount

/-- No call runs out of fuel. -/
theorem step_ne_diverges {ε : Type} (weirdCount : ℤ) (ops : List (Op ε))
    (op : Op ε) :
    (step (memoryStore o.asserts) o
      (after (memoryStore o.asserts) o (emptyTable weirdCount) ops) op).1 ≠
        .error .diverges := by
  intro h
  exact (call_makes o (linked_after o weirdCount ops) op).raises _ h rfl

end Reachable

/-! ## The answer -/

/-- Node `a` is `i` or an ancestor of it. -/
def Above (nodes : StoreState Table) (a i : ℤ) : Prop :=
  Relation.ReflTransGen (fun x y => parentOf nodes x = some y) i a

/-- The current node is a proper ancestor of node `i`. -/
def CurAbove (s : TreeState Table) (i : ℤ) : Prop :=
  Relation.TransGen (fun x y => parentOf s.nodes x = some y) i
    (s.records.get s.cur).ident

/-- The path from the current node to node `i` starts with its `b` child. -/
def StartsWith (s : TreeState Table) (b : Bool) (i : ℤ) : Prop :=
  ∃ k, child b (s.records.get s.cur) = some (some k) ∧ Above s.nodes k i

/-- The call answers `Some b` just when the current node is a proper ancestor
of node `i` and the path to it starts with the `b` child. -/
def Reports (o : TreeOptions) (s : TreeState Table) (i : ℤ) : Prop :=
  ∃ answer s', (curCanReachIdent (memoryStore o.asserts) i).run s =
      (.ok answer, s') ∧
    ∀ b, answer = some b ↔ CurAbove s i ∧ StartsWith s b i

theorem StartsWith.curAbove {s : TreeState Table} (hs : Linked s) {b : Bool}
    {i : ℤ} (h : StartsWith s b i) : CurAbove s i := by
  obtain ⟨k, hk, habove⟩ := h
  obtain ⟨-, -, hparent⟩ := (hs.record s.cur hs.cur_lt).child_gt b k hk
  exact Relation.TransGen.tail' habove hparent

/-- With the table in memory the answer is right just where node `i` lies below
no child of the current node; with the file there is no answer. -/
theorem curCanReachIdent_exact {ε : Type} (o : TreeOptions)
    (createString : OString) (weirdCount : ℤ) (ops : List (Op ε)) :
    (∀ i, Stored
        (after (memoryStore o.asserts) o (emptyTable weirdCount) ops).nodes i →
      (Reports o
          (after (memoryStore o.asserts) o (emptyTable weirdCount) ops) i ↔
        ¬∃ b, StartsWith
          (after (memoryStore o.asserts) o (emptyTable weirdCount) ops) b i)) ∧
    ∀ i, ∃ x s', (curCanReachIdent (fileStore o.asserts createString) i).run
      (after (fileStore o.asserts createString) o (emptyFile weirdCount) ops) =
        (.error x, s') := by
  constructor
  · intro i hi
    have hs := linked_after o weirdCount ops
    obtain ⟨s', hrun⟩ := curCanReachIdent_run o hs hi
    constructor
    · intro ⟨answer, t, hanswer, hiff⟩ ⟨b, hb⟩
      rw [hrun] at hanswer
      have hnone : none = answer :=
        Except.ok.inj (congrArg Prod.fst hanswer)
      have hsome := (hiff b).mpr ⟨hb.curAbove hs, hb⟩
      rw [← hnone] at hsome
      exact nomatch hsome
    · intro hno
      refine ⟨none, s', hrun, ?_⟩
      intro b
      refine iff_of_false (fun h => nomatch h) ?_
      intro ⟨_, hb⟩
      exact hno ⟨b, hb⟩
  · intro i
    exact curCanReachIdent_file o createString _ i

/-- A run that leaves the root with its false child. -/
def oneKid : List (Op Unit) :=
  [.init, .startNewQueryBinary, .extend false, .countQuery, .reset]

/-- Node 4 is the false child of the root, where the run is. -/
theorem curCanReachIdent_misses :
    ¬Reports .default
      (after (memoryStore .default) .default (emptyTable 0) oneKid) 4 := by
  intro ⟨answer, t, hanswer, hiff⟩
  have hstored : Stored
      (after (memoryStore .default) .default (emptyTable 0) oneKid).nodes 4 := by
    unfold Stored
    decide +kernel
  have hstart : StartsWith
      (after (memoryStore .default) .default (emptyTable 0) oneKid) false 4 :=
    ⟨4, by decide +kernel, .refl⟩
  have hs := linked_after TreeOptions.default 0 oneKid
  obtain ⟨s', hrun⟩ := curCanReachIdent_run .default hs hstored
  have hnone : none = answer :=
    Except.ok.inj (congrArg Prod.fst (hrun.symm.trans hanswer))
  have hsome := (hiff false).mpr ⟨hstart.curAbove hs, hstart⟩
  rw [← hnone] at hsome
  exact nomatch hsome

/-- The root cannot be reached from its false child. -/
theorem curCanReachIdent_exact_root :
    Reports .default
      (after (memoryStore .default) .default (emptyTable 0)
        [.init, .startNewQueryBinary, (.extend false : Op Unit)]) 1 := by
  have hstored : Stored (after (memoryStore .default) .default (emptyTable 0)
      [.init, .startNewQueryBinary, (.extend false : Op Unit)]).nodes 1 := by
    unfold Stored
    decide +kernel
  apply ((curCanReachIdent_exact .default [] 0 _).1 1 hstored).mpr
  intro ⟨b, k, hk, _⟩
  have hleaf : ∀ b, child b
      ((after (memoryStore TreeOptions.default.asserts) .default
        (emptyTable 0) [.init, .startNewQueryBinary,
          (.extend false : Op Unit)]).records.get
      (after (memoryStore TreeOptions.default.asserts) .default
        (emptyTable 0) [.init, .startNewQueryBinary,
          (.extend false : Op Unit)]).cur) = none := by
    decide +kernel
  rw [hleaf b] at hk
  exact nomatch hk

end Fuzzball.BinaryDecisionTree
