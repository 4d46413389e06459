import Fuzzball.BinaryDecisionTreeLinks

/-!
# The methods keep the links

Each method of the tree with the table in memory keeps the links, and none of
its loops uses up its fuel: a loop towards the root meets smaller and smaller
numbers, a loop over the nodes of a query larger and larger ones.
-/

namespace Fuzzball.BinaryDecisionTree

open DecisionTree

variable {s : TreeState Table} {a n : ℕ} (o : TreeOptions)

/-! ## Marking -/

theorem isSeen_safe (hs : Linked s) (k : Option (Option ℕ)) :
    Safe s (isSeen k) fun _ _ => True := by
  match k with
  | none => exact .pure hs trivial
  | some none => exact .pure hs trivial
  | some (some x) =>
    apply Ends.read_bind (node_run s x)
    exact .pure hs trivial

theorem isFinished_safe (hs : Linked s) (k : Option (Option ℕ)) :
    Safe s (isFinished k) fun _ _ => True := by
  match k with
  | none => exact .pure hs trivial
  | some none => exact .pure hs trivial
  | some (some x) =>
    apply Ends.read_bind (node_run s x)
    exact .pure hs trivial

theorem assertSeen_safe (hs : Linked s) (k : Option (Option ℕ)) :
    Safe s (assertSeen o k) fun _ _ => True := by
  match k with
  | none => exact .pure hs trivial
  | some none => exact .pure hs trivial
  | some (some x) =>
    apply Ends.read_bind (node_run s x)
    exact assert_safe hs _ _ _

theorem mark_safe (hs : Linked s) (hn : n < s.records.next) :
    Safe s (mark (memoryStore o.asserts) o n) fun _ _ => True := by
  apply (getChild_safe _ hs false hn).bind
  intro f s1 hs1 h1 _
  apply (assertSeen_safe o hs1 f).bind
  intro _ s2 hs2 h2 _
  apply (getChild_safe _ hs2 true (h2.lt (h1.lt hn))).bind
  intro t s3 hs3 h3 _
  apply (assertSeen_safe o hs3 t).bind
  intro _ s4 hs4 h4 _
  exact assign_update_safe _ hs4 (h4.lt (h3.lt (h2.lt (h1.lt hn))))
    (fun _ => ⟨rfl, rfl, fun _ => rfl⟩)

theorem onlyIf_safe {c : Bool} {x : Tree Table Unit} (hs : Linked s)
    (hx : c = true → Safe s x fun _ _ => True) :
    Safe s (onlyIf c x) fun _ _ => True := by
  cases c with
  | false => exact .pure hs trivial
  | true => exact hx rfl

theorem onKid_safe {k : Option (Option ℕ)} {check : ℕ → Tree Table Bool}
    (hs : Linked s)
    (hx : ∀ x, k = some (some x) → Safe s (check x) fun _ _ => True) :
    Safe s (onKid k check) fun _ _ => True := by
  match k with
  | none => exact .pure hs trivial
  | some none => exact .pure hs trivial
  | some (some x) => exact hx x rfl

/-- A child has a larger number. -/
theorem Kid.fuel {s' : TreeState Table} {k : Option (Option ℕ)} {fuel x : ℕ}
    (hk : Kid s' n k) (hx : k = some (some x)) (hn : n < s.records.next)
    (h : Within s s')
    (hfuel : s.nodes.nextDtIdent - (s.records.get n).ident <
      (fuel + 1 : ℕ)) :
    x < s'.records.next ∧
      s'.nodes.nextDtIdent - (s'.records.get x).ident < fuel := by
  obtain ⟨hlt, hident⟩ := hk x hx
  rw [h.ident_eq n hn] at hident
  have hnext := h.next_eq
  push_cast at hfuel
  exact ⟨hlt, by omega⟩

theorem internalNodesCheck_safe {fuel : ℕ} {top : Bool} (hs : Linked s)
    (hn : n < s.records.next)
    (hfuel : s.nodes.nextDtIdent - (s.records.get n).ident < fuel) :
    Safe s (internalNodesCheck (memoryStore o.asserts) o fuel n top)
      fun _ _ => True := by
  induction fuel generalizing s n top with
  | zero =>
    have hle := (hs.record n hn).stored.2.1
    omega
  | succ fuel ih =>
    apply Ends.read_bind (node_run s n)
    split_ifs
    · exact .pure hs trivial
    · exact .pure hs trivial
    · apply (getChild_safe _ hs false hn).bind
      intro f s1 hs1 h1 hf
      have hfalse : Safe s1 (onKid f fun kid =>
          internalNodesCheck (memoryStore o.asserts) o fuel kid false)
          fun _ _ => True := by
        apply onKid_safe hs1
        intro x hx
        obtain ⟨hlt, hless⟩ := hf.fuel hx hn h1 hfuel
        exact ih hs1 hlt hless
      apply hfalse.bind
      intro fDone s2 hs2 h2 _
      split_ifs
      · have h12 := trans_of Within h1 h2
        apply (getChild_safe _ hs2 true (h12.lt hn)).bind
        intro t s3 hs3 h3 ht
        have h13 := trans_of Within h12 h3
        have htrue : Safe s3 (onKid t fun kid =>
            internalNodesCheck (memoryStore o.asserts) o fuel kid false)
            fun _ _ => True := by
          apply onKid_safe hs3
          intro x hx
          obtain ⟨hlt, hless⟩ := ht.fuel hx hn h13 hfuel
          exact ih hs3 hlt hless
        apply htrue.bind
        intro tDone s4 hs4 h4 _
        split_ifs
        · apply (mark_safe o hs4 (h4.lt (h13.lt hn))).bind
          intro _ s5 hs5 _ _
          exact .pure hs5 trivial
        · exact .pure hs4 trivial
      · exact .pure hs2 trivial

/-- The root of the query is not below `n`. -/
theorem queryParent_safe {fuel : ℕ} (hs : Linked s) (hn : n < s.records.next)
    (hfuel : (s.records.get n).ident < fuel) :
    Safe s (queryParent (memoryStore o.asserts) fuel n) fun q s' =>
      q < s'.records.next ∧
        (s'.records.get q).ident ≤ (s.records.get n).ident := by
  induction fuel generalizing s n with
  | zero =>
    have hpos := (hs.record n hn).stored.1
    omega
  | succ fuel ih =>
    apply Ends.read_bind (node_run s n)
    split
    · exact .pure hs ⟨hn, le_rfl⟩
    · apply (getParent_safe _ hs hn).bind
      intro p s1 hs1 h1 ⟨_, hp⟩
      cases p with
      | none => exact failwith_safe hs1 _
      | some p =>
        obtain ⟨-, hlt, -, hless⟩ := hp p rfl
        push_cast at hfuel
        apply (ih hs1 hlt (by omega)).mono
        intro q s2 _ _ ⟨hq, hle⟩
        exact ⟨hq, hle.trans hless.le⟩

theorem kidsSeen_safe (hs : Linked s) (hn : n < s.records.next) :
    Safe s (kidsSeen (memoryStore o.asserts) n) fun _ _ => True := by
  apply Ends.read_bind (node_run s n)
  apply (getChild_safe _ hs true hn).bind
  intro t s1 hs1 h1 _
  apply (getChild_safe _ hs1 false (h1.lt hn)).bind
  intro f s2 hs2 _ _
  apply (isSeen_safe hs2 t).bind
  intro _ s3 hs3 _ _
  apply (isSeen_safe hs3 f).bind
  intro _ s4 hs4 _ _
  exact .pure hs4 trivial

/-- The fuel is enough for a loop towards the root. -/
theorem Linked.ident_lt_fuel (hs : Linked s) (hn : n < s.records.next) :
    (s.records.get n).ident < (s.nodes.nextDtIdent.toNat + 1 : ℕ) := by
  have hle := (hs.record n hn).stored.2.1
  omega

/-- The fuel is enough for a loop away from the root. -/
theorem Linked.next_lt_fuel (hs : Linked s) (hn : n < s.records.next) :
    s.nodes.nextDtIdent - (s.records.get n).ident <
      (s.nodes.nextDtIdent.toNat + 1 : ℕ) := by
  have hpos := (hs.record n hn).stored.1
  omega

theorem markLoop_safe {fuel : ℕ} (hs : Linked s) (hn : n < s.records.next)
    (hfuel : (s.records.get n).ident < fuel) :
    Safe s (markLoop (memoryStore o.asserts) o fuel n) fun _ _ => True := by
  induction fuel generalizing s n with
  | zero =>
    have hpos := (hs.record n hn).stored.1
    omega
  | succ fuel ih =>
    push_cast at hfuel
    apply (mark_safe o hs hn).bind
    intro _ s1 hs1 h1 _
    have hident := h1.ident_eq n hn
    apply (getParent_safe _ hs1 (h1.lt hn)).bind
    intro parent s2 hs2 h2 ⟨_, hparent⟩
    cases parent with
    | none => exact .pure hs2 trivial
    | some p =>
      obtain ⟨-, hp, -, hless⟩ := hparent p rfl
      apply (kidsSeen_safe o hs2 hp).bind
      intro both s3 hs3 h3 _
      have hp3 : (s3.records.get p).ident < fuel := by
        rw [h3.ident_eq p hp]
        omega
      apply (onlyIf_safe hs3 fun _ => ih hs3 (h3.lt hp) hp3).bind
      intro _ s4 hs4 h4 _
      have hp' := h4.lt (h3.lt hp)
      have hp4 := h4.ident_eq p (h3.lt hp)
      apply Ends.read_bind (loopFuel_run s4)
      apply (queryParent_safe o hs4 hp' (hs4.ident_lt_fuel hp')).bind
      intro q s5 hs5 h5 ⟨hq, hle⟩
      apply Ends.read_bind (node_run s5 q)
      split
      · exact .pure hs5 trivial
      · split_ifs
        · apply (onlyIf_safe hs5 fun _ => assert_safe hs5 _ _ _).bind
          intro _ s6 hs6 h6 _
          have hq6 := h6.lt hq
          apply Ends.read_bind (loopFuel_run s6)
          apply (internalNodesCheck_safe o hs6 hq6
            (hs6.next_lt_fuel hq6)).bind
          intro checked s7 hs7 h7 _
          apply onlyIf_safe hs7
          intro _
          apply ih hs7 (h7.lt hq6)
          rw [h7.ident_eq q hq6, h6.ident_eq q hq]
          omega
        · exact .pure hs5 trivial

theorem markAllSeenNode_safe (hs : Linked s) (hn : n < s.records.next) :
    Safe s (markAllSeenNode (memoryStore o.asserts) o n)
      fun _ _ => True := by
  apply Ends.read_bind (loopFuel_run s)
  exact markLoop_safe o hs hn (hs.ident_lt_fuel hn)

theorem maybeMarkAllSeenNode_safe (hs : Linked s) (hn : n < s.records.next) :
    Safe s (maybeMarkAllSeenNode (memoryStore o.asserts) o n)
      fun _ _ => True := by
  apply (getChild_safe _ hs false hn).bind
  intro f s1 hs1 h1 _
  apply (isFinished_safe hs1 f).bind
  intro fDone s2 hs2 h2 _
  split_ifs
  · apply (getChild_safe _ hs2 true (h2.lt (h1.lt hn))).bind
    intro t s3 hs3 h3 _
    apply (isFinished_safe hs3 t).bind
    intro tDone s4 hs4 h4 _
    split_ifs
    · exact markAllSeenNode_safe o hs4 (h4.lt (h3.lt (h2.lt (h1.lt hn))))
    · exact .pure hs4 trivial
  · exact .pure hs2 trivial

/-! ## Queries -/

theorem startNewQuery_safe (hs : Linked s) :
    Safe s (startNewQuery o) fun _ _ => True := by
  apply Ends.read_bind (Stateful.run_get s)
  apply Ends.read_bind (node_run s s.cur)
  apply (assert_safe hs _ _ _).bind
  intro _ s1 hs1 _ _
  exact .of_ok rfl ⟨hs1.toLinks, hs1.cur_lt, hs1.cur_lt⟩
    ⟨⟨le_rfl, le_rfl, fun _ _ => rfl, fun _ _ => rfl⟩, rfl⟩ trivial

theorem startNewQueryBinary_safe (hs : Linked s) :
    Safe s (startNewQueryBinary o) fun _ _ => True := by
  apply (startNewQuery_safe o hs).bind
  intro _ s1 hs1 _ _
  apply Ends.read_bind (Stateful.run_get s1)
  apply Ends.read_bind (node_run s1 s1.curQuery)
  split
  · exact .pure hs1 trivial
  · split_ifs
    · exact .pure hs1 trivial
    · exact failwith_safe hs1 _

theorem putNone_safe (hs : Linked s) (b : Bool) (hn : n < s.records.next)
    {k : Option (Option ℕ)} (hk : ∀ x, k ≠ some (some x)) :
    Safe s (putChild (memoryStore o.asserts) b n k) fun _ _ => True :=
  putChild_safe _ hs b hn fun x hx => absurd hx (hk x)

theorem finishKid_safe {b : Bool} {k : Option (Option ℕ)}
    {finish : ℕ → Tree Table Unit} (hs : Linked s) (hn : n < s.records.next)
    (hx : ∀ x, k = some (some x) → Safe s (finish x) fun _ _ => True) :
    Safe s (finishKid (memoryStore o.asserts) b n k finish)
      fun _ _ => True := by
  match k with
  | none => exact putNone_safe o hs b hn (fun _ h => nomatch h)
  | some none => exact .pure hs trivial
  | some (some x) => exact hx x rfl

theorem finishInternalNodes_safe {fuel : ℕ} {top : Bool} (hs : Linked s)
    (hn : n < s.records.next)
    (hfuel : s.nodes.nextDtIdent - (s.records.get n).ident < fuel) :
    Safe s (finishInternalNodes (memoryStore o.asserts) o fuel n top)
      fun _ _ => True := by
  induction fuel generalizing s n top with
  | zero =>
    have hle := (hs.record n hn).stored.2.1
    omega
  | succ fuel ih =>
    apply Ends.read_bind (node_run s n)
    split_ifs
    · apply (getChild_safe _ hs false hn).bind
      intro f s1 hs1 h1 hf
      have hfalse : Safe s1 (finishKid (memoryStore o.asserts) false n f
          fun kid => finishInternalNodes (memoryStore o.asserts) o fuel kid
            false) fun _ _ => True := by
        apply finishKid_safe o hs1 (h1.lt hn)
        intro x hx
        obtain ⟨hlt, hless⟩ := hf.fuel hx hn h1 hfuel
        exact ih hs1 hlt hless
      apply hfalse.bind
      intro _ s2 hs2 h2 _
      have h12 := trans_of Within h1 h2
      apply (getChild_safe _ hs2 true (h12.lt hn)).bind
      intro t s3 hs3 h3 ht
      have h13 := trans_of Within h12 h3
      have htrue : Safe s3 (finishKid (memoryStore o.asserts) true n t
          fun kid => finishInternalNodes (memoryStore o.asserts) o fuel kid
            false) fun _ _ => True := by
        apply finishKid_safe o hs3 (h13.lt hn)
        intro x hx
        obtain ⟨hlt, hless⟩ := ht.fuel hx hn h13 hfuel
        exact ih hs3 hlt hless
      apply htrue.bind
      intro _ s4 hs4 h4 _
      exact maybeMarkAllSeenNode_safe o hs4 (h4.lt (h13.lt hn))
    · exact .pure hs trivial

theorem countCur_safe (hs : Linked s) :
    Safe s (countCur (memoryStore o.asserts) o) fun _ _ => True := by
  apply Ends.read_bind (Stateful.run_get s)
  apply Ends.read_bind (node_run s s.cur)
  apply Ends.read_bind (node_run s s.curQuery)
  split
  · exact failwith_safe hs _
  · split_ifs
    · exact .pure hs trivial
    · apply (assert_safe hs _ _ _).bind
      intro _ s1 hs1 h1 _
      refine (assign_links_safe hs1 (h1.lt hs.curQuery_lt) ?_).bind ?_
      · exact fun _ => ⟨rfl, rfl, fun _ => rfl⟩
      intro _ s2 hs2 h2 _
      apply (updateDtNode_safe _ hs2 (h2.lt (h1.lt hs.curQuery_lt))).bind
      intro _ s3 hs3 h3 _
      exact assign_links_safe hs3 (h3.lt (h2.lt (h1.lt hs.cur_lt)))
        (fun _ => ⟨rfl, rfl, fun _ => rfl⟩)

theorem countQuery_safe (hs : Linked s) :
    Safe s (countQuery (memoryStore o.asserts) o) fun _ _ => True := by
  apply Ends.read_bind (Stateful.run_get s)
  apply Ends.read_bind (node_run s s.cur)
  apply Ends.read_bind (node_run s s.curQuery)
  split_ifs
  · refine (onlyIf_safe hs fun _ =>
      assign_links_safe hs hs.cur_lt ?_).bind ?_
    · exact fun _ => ⟨rfl, rfl, fun _ => rfl⟩
    intro _ s1 hs1 h1 _
    apply (countCur_safe o hs1).bind
    intro _ s2 hs2 h2 _
    have h12 := trans_of Within h1 h2
    apply (updateDtNode_safe _ hs2 (h12.lt hs.cur_lt)).bind
    intro _ s3 hs3 h3 _
    have hq := h3.lt (h12.lt hs.curQuery_lt)
    apply Ends.read_bind (node_run s3 s.curQuery)
    split
    · exact .pure hs3 trivial
    · split_ifs
      · apply Ends.read_bind (loopFuel_run s3)
        exact finishInternalNodes_safe o hs3 hq (hs3.next_lt_fuel hq)
      · exact .pure hs3 trivial
  · exact .pure hs trivial

/-! ## Extending the path -/

theorem forgetUnsat_safe (hs : Linked s) (b : Bool) :
    Safe s (forgetUnsat (memoryStore o.asserts) b) fun _ _ => True := by
  apply Ends.read_bind (Stateful.run_get s)
  exact putNone_safe o hs b hs.cur_lt (fun _ h => nomatch h)

theorem addKid_makes (hs : Linked s) (b : Bool) :
    Makes s (addKid (memoryStore o.asserts) o b) fun _ _ => True := by
  apply Ends.read_bind (Stateful.run_get s)
  apply Ends.read_bind (node_run s s.cur)
  apply (assert_safe hs _ _ _).makes.bind
  intro _ s1 hs1 h1 _
  apply (getChild_safe _ hs1 false (h1.lt hs.cur_lt)).makes.bind
  intro f s2 hs2 h2 _
  have h12 := trans_of Grows h1 h2
  apply (getChild_safe _ hs2 true (h12.lt hs.cur_lt)).makes.bind
  intro t s3 hs3 h3 _
  have hcur := h3.lt (h12.lt hs.cur_lt)
  split
  · exact .pure hs3 trivial
  · have hparent : ∀ x, some s.cur = some x → x < s3.records.next := by
      intro x hx
      cases hx
      exact hcur
    apply (newDtNode_makes hs3 o.asserts hparent).bind
    intro kid s4 hs4 h4 ⟨hkid, hident, hparent⟩
    apply Safe.makes
    apply putChild_safe _ hs4 b (h4.lt hcur)
    intro x hx
    cases hx
    have hle := (hs3.record s.cur hcur).stored.2.1
    rw [h4.ident_eq s.cur hcur]
    exact ⟨hkid, hle.trans_lt hident, hparent⟩
  · exact (failwith_safe hs3 _).makes

theorem follow_safe (hs : Linked s) (b : Bool) :
    Safe s (follow (memoryStore o.asserts) b) fun _ _ => True := by
  apply Ends.read_bind (Stateful.run_get s)
  apply (getChild_safe _ hs false hs.cur_lt).bind
  intro f s1 hs1 h1 hf
  apply (getChild_safe _ hs1 true (h1.lt hs.cur_lt)).bind
  intro t s2 hs2 h2 ht
  split
  · rename_i kid hk
    have hkid : kid < s2.records.next := by
      cases b with
      | false => exact h2.lt (hf kid hk).1
      | true => exact (ht kid hk).1
    exact .of_ok rfl ⟨hs2.toLinks, hkid, hs2.curQuery_lt⟩
      ⟨⟨le_rfl, le_rfl, fun _ _ => rfl, fun _ _ => rfl⟩, rfl⟩ trivial
  · exact failwith_safe hs2 _

theorem extend_makes (hs : Linked s) (b : Bool) :
    Makes s (extend (memoryStore o.asserts) o b) fun _ _ => True := by
  apply (addKid_makes o hs b).bind
  intro _ s1 hs1 _ _
  apply (follow_safe o hs1 b).makes.bind
  intro _ s2 hs2 _ _
  have hdepth : Makes s2 (modify fun s => { s with depth := s.depth + 1 })
      fun _ _ => True :=
    .of_ok rfl ⟨hs2.toLinks, hs2.cur_lt, hs2.curQuery_lt⟩
      ⟨le_rfl, le_rfl, fun _ _ => rfl, fun _ _ => rfl⟩ trivial
  apply hdepth.bind
  intro _ s3 hs3 _ _
  apply Ends.read_bind (Stateful.run_get s3)
  split_ifs
  · exact .throw hs3 (fun h => nomatch h)
  · exact .pure hs3 trivial

theorem recordUnsat_safe (hs : Linked s) (b : Bool) :
    Safe s (recordUnsat (memoryStore o.asserts) b) fun _ _ => True := by
  apply Ends.read_bind (Stateful.run_get s)
  apply (getChild_safe _ hs false hs.cur_lt).bind
  intro f s1 hs1 h1 _
  apply (getChild_safe _ hs1 true (h1.lt hs.cur_lt)).bind
  intro t s2 hs2 h2 _
  split
  · exact putNone_safe o hs2 b (h2.lt (h1.lt hs.cur_lt)) (fun _ h => nomatch h)
  · exact .pure hs2 trivial
  · exact failwith_safe hs2 _

section Tries

variable {ε : Type} (c : Callbacks ε)

theorem known_makes (hs : Linked s) (b : Bool) :
    Makes s (known (memoryStore o.asserts) o c b) fun _ _ => True := by
  apply (called_safe hs _).makes.bind
  intro _ s1 hs1 _ _
  apply (extend_makes o hs1 b).bind
  intro _ s2 hs2 _ _
  exact .pure hs2 trivial

/-- The path is extended after an answer of the solver. -/
theorem extendTried_makes (hs : Linked s) (b : Bool) :
    Makes s (do
      extend (memoryStore o.asserts) o b
      pure (b, c.transFunc b)) fun _ _ => True := by
  apply (extend_makes o hs b).bind
  intro _ s1 hs1 _ _
  exact .pure hs1 trivial

theorem knownCheck_makes (hs : Linked s) (b : Bool) :
    Makes s (knownCheck (memoryStore o.asserts) o c b) fun _ _ => True := by
  apply (called_safe hs _).makes.bind
  intro sat s1 hs1 _ _
  split_ifs
  · exact extendTried_makes o c hs1 b
  · exact (failwith_safe hs1 _).makes

theorem tryOrBoring_makes (hs : Linked s) (b : Bool) :
    Makes s (tryOrBoring (memoryStore o.asserts) o c b) fun _ _ => True := by
  apply (called_safe hs _).makes.bind
  intro sat s1 hs1 _ _
  split_ifs
  · exact extendTried_makes o c hs1 b
  · apply (recordUnsat_safe o hs1 b).makes.bind
    intro _ s2 hs2 _ _
    apply Ends.read_bind (Stateful.run_get s2)
    apply (markAllSeenNode_safe o hs2 hs2.cur_lt).makes.bind
    intro _ s3 hs3 _ _
    exact known_makes o c hs3 _

theorem tryBoth_makes (hs : Linked s) :
    Makes s (tryBoth (memoryStore o.asserts) o c) fun _ _ => True := by
  apply (called_safe hs _).makes.bind
  intro b s1 hs1 _ _
  apply (called_safe hs1 _).makes.bind
  intro sat s2 hs2 _ _
  split_ifs
  · apply (called_safe hs2 _).makes.bind
    intro other s3 hs3 _ _
    have hside : Makes s3
        (if other then addKid (memoryStore o.asserts) o (!b)
          else recordUnsat (memoryStore o.asserts) (!b))
        fun _ _ => True := by
      split_ifs
      · exact addKid_makes o hs3 _
      · exact (recordUnsat_safe o hs3 _).makes
    apply hside.bind
    intro _ s4 hs4 _ _
    exact extendTried_makes o c hs4 b
  · apply (recordUnsat_safe o hs2 b).makes.bind
    intro _ s3 hs3 _ _
    apply (called_safe hs3 _).makes.bind
    intro other s4 hs4 _ _
    split_ifs
    · exact extendTried_makes o c hs4 _
    · apply (called_safe hs4 _).makes.bind
      intro b' s5 hs5 _ _
      apply (forgetUnsat_safe o hs5 b').makes.bind
      intro _ s6 hs6 _ _
      exact extendTried_makes o c hs6 b'

theorem tryExtend_makes (hs : Linked s) (eipLoc : I64) :
    Makes s (tryExtend (memoryStore o.asserts) o c eipLoc)
      fun _ _ => True := by
  apply Ends.read_bind (Stateful.run_get s)
  apply Ends.read_bind (node_run s s.cur)
  apply (assert_safe hs _ _ _).makes.bind
  intro _ s1 hs1 h1 _
  apply (assert_safe hs1 _ _ _).makes.bind
  intro _ s2 hs2 h2 _
  have h12 := trans_of Grows h1 h2
  refine (assign_update_safe _ hs2 (h12.lt hs.cur_lt) ?_).makes.bind ?_
  · exact fun _ => ⟨rfl, rfl, fun _ => rfl⟩
  intro _ s3 hs3 h3 _
  have h13 := trans_of Grows h12 h3
  apply Ends.read_bind (node_run s3 s.curQuery)
  apply (getChild_safe _ hs3 false (h13.lt hs.cur_lt)).makes.bind
  intro f s4 hs4 h4 _
  have h14 := trans_of Grows h13 h4
  apply (getChild_safe _ hs4 true (h14.lt hs.cur_lt)).makes.bind
  intro t s5 hs5 _ _
  apply (isSeen_safe hs5 f).makes.bind
  intro fSeen s6 hs6 _ _
  apply (isSeen_safe hs6 t).makes.bind
  intro tSeen s7 hs7 _ _
  apply Ends.read_bind (node_run s7 s.cur)
  have hrandom : Makes s7 (do
      let b ← called c.randomBitGen
      known (memoryStore o.asserts) o c b) fun _ _ => True := by
    apply (called_safe hs7 _).makes.bind
    intro b s8 hs8 _ _
    exact known_makes o c hs8 b
  have hone : ∀ seen b, Makes s7 (do
      assert o seen "Binary_decision_tree.try_extend"
      known (memoryStore o.asserts) o c b) fun _ _ => True := by
    intro seen b
    apply (assert_safe hs7 _ _ _).makes.bind
    intro _ s8 hs8 _ _
    exact known_makes o c hs8 b
  split
  · split
    · split_ifs
      · exact hrandom
      · exact (failwith_safe hs7 _).makes
    · exact known_makes o c hs7 _
    · exact known_makes o c hs7 _
    · exact hrandom
  · exact hone _ _
  · exact hone _ _
  · exact (failwith_safe hs7 _).makes
  · split_ifs
    · exact tryOrBoring_makes o c hs7 _
    · exact tryBoth_makes o c hs7
  · exact known_makes o c hs7 _
  · split_ifs
    · exact tryOrBoring_makes o c hs7 _
    · exact tryBoth_makes o c hs7
  · exact known_makes o c hs7 _
  · exact knownCheck_makes o c hs7 _
  · exact knownCheck_makes o c hs7 _
  · exact tryBoth_makes o c hs7
  · exact (failwith_safe hs7 _).makes

theorem tryBranch_makes {b : Bool} {field : Option (Option ℕ)}
    {fn : Tree Table (Bool × ε)} (hs : Linked s)
    (hfn : ∀ s', Linked s' → Grows s s' → Makes s' fn fun _ _ => True) :
    Makes s (tryBranch (memoryStore o.asserts) o c b field fn)
      fun _ _ => True := by
  match field with
  | some (some _) => exact known_makes o c hs b
  | some none => exact .throw hs (fun h => nomatch h)
  | none =>
    apply (called_safe hs _).makes.bind
    intro sat s1 hs1 h1 _
    split_ifs
    · exact extendTried_makes o c hs1 b
    · apply (recordUnsat_safe o hs1 b).makes.bind
      intro _ s2 hs2 h2 _
      exact hfn s2 hs2 (trans_of Grows h1 h2)

theorem tryExtendMemoryless_makes (hs : Linked s) :
    Makes s (tryExtendMemoryless (memoryStore o.asserts) o c)
      fun _ _ => True := by
  apply (called_safe hs _).makes.bind
  intro first s1 hs1 _ _
  apply Ends.read_bind (Stateful.run_get s1)
  apply (getChild_safe _ hs1 _ hs1.cur_lt).makes.bind
  intro field s2 hs2 h2 _
  apply tryBranch_makes o c hs2
  intro s3 hs3 h3
  apply (getChild_safe _ hs3 _ (h3.lt (h2.lt hs1.cur_lt))).makes.bind
  intro field s4 hs4 _ _
  apply tryBranch_makes o c hs4
  intro s5 hs5 _
  exact (failwith_safe hs5 _).makes

end Tries

/-! ## Heuristics -/

theorem propagateHeurLoop_safe {fuel : ℕ} (hs : Linked s)
    (hn : n < s.records.next) (hfuel : (s.records.get n).ident < fuel) :
    Safe s (propagateHeurLoop (memoryStore o.asserts) fuel n)
      fun _ _ => True := by
  induction fuel generalizing s n with
  | zero =>
    have hpos := (hs.record n hn).stored.1
    omega
  | succ fuel ih =>
    apply Ends.read_bind (Stateful.run_get s)
    apply Ends.read_bind (node_run s n)
    split_ifs
    · refine (assign_links_safe hs hn ?_).bind ?_
      · exact fun _ => ⟨rfl, rfl, fun _ => rfl⟩
      intro _ s1 hs1 h1 _
      apply (updateDtNode_safe _ hs1 (h1.lt hn)).bind
      intro _ s2 hs2 h2 _
      have h12 := trans_of Within h1 h2
      apply (getParent_safe _ hs2 (h12.lt hn)).bind
      intro parent s3 hs3 _ ⟨_, hparent⟩
      cases parent with
      | none => exact .pure hs3 trivial
      | some p =>
        obtain ⟨-, hp, -, hless⟩ := hparent p rfl
        have hident := h12.ident_eq n hn
        push_cast at hfuel
        exact ih hs3 hp (by omega)
    · exact .pure hs trivial

theorem propagateHeur_safe (hs : Linked s) (hn : n < s.records.next) :
    Safe s (propagateHeur (memoryStore o.asserts) n) fun _ _ => True := by
  apply Ends.read_bind (loopFuel_run s)
  exact propagateHeurLoop_safe o hs hn (hs.ident_lt_fuel hn)

theorem setHeur_safe (hs : Linked s) (i : ℤ) :
    Safe s (setHeur (memoryStore o.asserts) i) fun _ _ => True := by
  have hset : Safe s
      (modify fun s => { s with curHeur := i, bestHeur := max i s.bestHeur })
      fun _ _ => True :=
    .of_ok rfl ⟨hs.toLinks, hs.cur_lt, hs.curQuery_lt⟩
      ⟨⟨le_rfl, le_rfl, fun _ _ => rfl, fun _ _ => rfl⟩, rfl⟩ trivial
  apply hset.bind
  intro _ s1 hs1 _ _
  apply Ends.read_bind (Stateful.run_get s1)
  exact propagateHeur_safe o hs1 hs1.cur_lt

theorem heurPreference_safe (hs : Linked s) :
    Safe s (heurPreference (memoryStore o.asserts) o) fun _ _ => True := by
  apply Ends.read_bind (Stateful.run_get s)
  apply (getChild_safe _ hs false hs.cur_lt).bind
  intro f s1 hs1 h1 _
  apply (getChild_safe _ hs1 true (h1.lt hs.cur_lt)).bind
  intro t s2 hs2 _ _
  split
  · rename_i kidF kidT _ _
    apply Ends.read_bind (node_run s2 kidF)
    apply Ends.read_bind (node_run s2 kidT)
    split_ifs <;> exact .pure hs2 trivial
  all_goals exact .pure hs2 trivial

/-! ## The other methods -/

theorem init_safe (hs : Linked s) :
    Safe s (init (memoryStore o.asserts)) fun _ _ => True := by
  apply Ends.read_bind (Stateful.run_get s)
  apply (identToNode_safe _ hs _).bind
  intro root s1 hs1 _ ⟨_, hroot, _⟩
  refine (assign_links_safe hs1 hroot ?_).bind ?_
  · exact fun _ => ⟨rfl, rfl, fun _ => rfl⟩
  intro _ s2 hs2 h2 _
  apply (updateDtNode_safe _ hs2 (h2.lt hroot)).bind
  intro _ s3 hs3 h3 _
  have hroot3 := h3.lt (h2.lt hroot)
  exact .of_ok rfl ⟨hs3.toLinks, hroot3, hroot3⟩
    ⟨⟨le_rfl, le_rfl, fun _ _ => rfl, fun _ _ => rfl⟩, rfl⟩ trivial

theorem reset_safe (hs : Linked s) :
    Safe s (reset (memoryStore o.asserts)) fun _ _ => True := by
  apply Ends.read_bind (Stateful.run_get s)
  apply (identToNode_safe _ hs _).bind
  intro cur s1 hs1 _ ⟨_, hcur, _⟩
  have hset : Safe s1 (modify fun s => { s with cur := cur })
      fun _ _ => True :=
    .of_ok rfl ⟨hs1.toLinks, hcur, hs1.curQuery_lt⟩
      ⟨⟨le_rfl, le_rfl, fun _ _ => rfl, fun _ _ => rfl⟩, rfl⟩ trivial
  apply hset.bind
  intro _ s2 hs2 _ _
  apply (identToNode_safe _ hs2 _).bind
  intro curQuery s3 hs3 _ ⟨_, hquery, _⟩
  exact .of_ok rfl ⟨hs3.toLinks, hs3.cur_lt, hquery⟩
    ⟨⟨le_rfl, le_rfl, fun _ _ => rfl, fun _ _ => rfl⟩, rfl⟩ trivial

theorem childIs_safe (hs : Linked s) (kid : Option (Option ℕ)) :
    Safe s (childIs kid n) fun _ _ => True := by
  match kid with
  | none => exact .pure hs trivial
  | some none => exact .pure hs trivial
  | some (some x) =>
    apply Ends.read_bind (node_run s x)
    apply Ends.read_bind (node_run s n)
    exact .pure hs trivial

theorem lastChoice_safe {p : ℕ} (hs : Linked s) (hp : p < s.records.next) :
    Safe s (lastChoice (memoryStore o.asserts) n p) fun _ _ => True := by
  apply (getChild_safe _ hs false hp).bind
  intro f s1 hs1 h1 _
  apply (childIs_safe hs1 f).bind
  intro isF s2 hs2 h2 _
  split_ifs
  · exact .pure hs2 trivial
  · apply (getChild_safe _ hs2 true (h2.lt (h1.lt hp))).bind
    intro t s3 hs3 _ _
    apply (childIs_safe hs3 t).bind
    intro isT s4 hs4 _ _
    split_ifs
    · exact .pure hs4 trivial
    · exact failwith_safe hs4 _

theorem histLoop_safe {fuel : ℕ} (hs : Linked s) (hn : n < s.records.next)
    (hfuel : (s.records.get n).ident < fuel) :
    Safe s (histLoop (memoryStore o.asserts) fuel n) fun _ _ => True := by
  induction fuel generalizing s n with
  | zero =>
    have hpos := (hs.record n hn).stored.1
    omega
  | succ fuel ih =>
    apply (getParent_safe _ hs hn).bind
    intro parent s1 hs1 _ ⟨_, hparent⟩
    cases parent with
    | none => exact .pure hs1 trivial
    | some p =>
      obtain ⟨-, hp, -, hless⟩ := hparent p rfl
      apply (lastChoice_safe o hs1 hp).bind
      intro b s2 hs2 h2 _
      have hp2 := h2.ident_eq p hp
      push_cast at hfuel
      apply (ih hs2 (h2.lt hp) (by omega)).bind
      intro bs s3 hs3 _ _
      exact .pure hs3 trivial

theorem getHist_safe (hs : Linked s) :
    Safe s (getHist (memoryStore o.asserts)) fun _ _ => True := by
  apply Ends.read_bind (Stateful.run_get s)
  apply Ends.read_bind (loopFuel_run s)
  exact histLoop_safe o hs hs.cur_lt (hs.ident_lt_fuel hs.cur_lt)

theorem markAllSeen_safe (hs : Linked s) :
    Safe s (markAllSeen (memoryStore o.asserts) o) fun _ _ => True := by
  apply Ends.read_bind (Stateful.run_get s)
  apply (markAllSeenNode_safe o hs hs.cur_lt).bind
  intro _ s1 hs1 h1 _
  exact propagateHeur_safe o hs1 (h1.lt hs.cur_lt)

theorem isLiveIdent_safe (hs : Linked s) (i : ℤ) :
    Safe s (isLiveIdent (memoryStore o.asserts) i) fun _ _ => True := by
  apply (identToNode_safe _ hs i).bind
  intro x s1 hs1 _ _
  apply Ends.read_bind (node_run s1 x)
  exact .pure hs1 trivial

theorem tryAgainP_safe (hs : Linked s) :
    Safe s (tryAgainP (memoryStore o.asserts)) fun _ _ => True := by
  apply Ends.read_bind (Stateful.run_get s)
  exact isLiveIdent_safe o hs _

theorem checkLastChoices_safe (hs : Linked s) :
    Safe s (checkLastChoices (memoryStore o.asserts)) fun _ _ => True := by
  apply Ends.read_bind (Stateful.run_get s)
  apply (getParent_safe _ hs hs.cur_lt).bind
  intro parent s1 hs1 _ ⟨_, hparent⟩
  cases parent with
  | none => exact failwith_safe hs1 _
  | some p =>
    obtain ⟨-, hp, -, -⟩ := hparent p rfl
    apply (getChild_safe _ hs1 false hp).bind
    intro f s2 hs2 h2 _
    apply (getChild_safe _ hs2 true (h2.lt hp)).bind
    intro t s3 hs3 _ _
    split
    · exact .pure hs3 trivial
    · exact .pure hs3 trivial
    · exact .pure hs3 trivial
    · exact failwith_safe hs3 _
    · exact failwith_safe hs3 _

theorem haveChoice_safe (hs : Linked s) :
    Safe s (haveChoice (memoryStore o.asserts)) fun _ _ => True := by
  apply Ends.read_bind (Stateful.run_get s)
  apply (getChild_safe _ hs false hs.cur_lt).bind
  intro f s1 hs1 h1 _
  apply (getChild_safe _ hs1 true (h1.lt hs.cur_lt)).bind
  intro t s2 hs2 _ _
  apply (isSeen_safe hs2 f).bind
  intro fSeen s3 hs3 _ _
  apply (isSeen_safe hs3 t).bind
  intro tSeen s4 hs4 _ _
  split
  · exact .pure hs4 trivial
  · exact .pure hs4 trivial
  · exact .pure hs4 trivial
  · exact .pure hs4 trivial
  · exact .pure hs4 trivial
  · exact failwith_safe hs4 _

end Fuzzball.BinaryDecisionTree
