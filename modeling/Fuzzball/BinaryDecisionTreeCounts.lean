import Fuzzball.BinaryDecisionTreeTries

/-!
# Counting the sides that are taken

The methods around a decision: the start of a query, what is asked about the
choices, and the count of the side that was taken, which is kept in the node of
the decision while the side notes in its own node that it has been counted.
-/

namespace Fuzzball.BinaryDecisionTree

open DecisionTree

variable {c c' : Chart} {p : Program} {s s' : TreeState Table}
  {g h : List Bool} {b : Bool} {n : Node} {a : ℕ} (o : TreeOptions)

/-! ## Questions -/

theorem haveChoice_returns (hd : c.Drawn p s) (ha : c.At p s h s.cur)
    (hlive : ∃ b, p.Has (b :: h)) :
    Returns s (haveChoice (memoryStore o.asserts)) fun _ s' => Reads s s' := by
  apply Returns.read_bind (Stateful.run_get s)
  apply sides_return _ hd ha
  intro kf kt s1 hr1 hkf hkt
  obtain ⟨fSeen, hrunF, -⟩ := isSeen_run hkf
  obtain ⟨tSeen, hrunT, -⟩ := isSeen_run hkt
  apply Returns.read_bind hrunF
  apply Returns.read_bind hrunT
  match kf, kt with
  | none, _ => exact .pure hr1
  | some none, none => exact .pure hr1
  | some (some _), none => exact .pure hr1
  | some (some _), some (some _) => exact .pure hr1
  | some (some _), some none => exact .pure hr1
  | some none, some (some _) => exact .pure hr1
  | some none, some none =>
    obtain ⟨b, hb⟩ := hlive
    cases b with
    | false => exact absurd hb hkf.2
    | true => exact absurd hb hkt.2

/-- The answer is the side that was taken, when the other is infeasible. -/
theorem checkLastChoices_returns (hd : c.Drawn p s) (hh : c.Has p (b :: h))
    (ha : c.At p s (b :: h) s.cur) (hf : false :: h ∈ c.resolved)
    (ht : true :: h ∈ c.resolved) :
    Returns s (checkLastChoices (memoryStore o.asserts)) fun r s' =>
      Reads s s' ∧ r = if p.Has ((!b) :: h) then none else some b := by
  apply Returns.read_bind (Stateful.run_get s)
  apply (getParent_returns _ hd hh ha).bind
  rintro q s1 ⟨hr1, x, rfl, -, hx⟩
  apply sides_return _ (hd.reads hr1) hx
  intro kf kt s2 hr2 hkf hkt
  have hr := hr1.trans hr2
  have hp := hh.has
  match kf, kt with
  | none, _ => exact absurd hf hkf
  | some _, none => exact absurd ht hkt
  | some none, some none =>
    cases b with
    | false => exact absurd hp hkf.2
    | true => exact absurd hp hkt.2
  | some (some _), some (some _) =>
    have hother : p.Has ((!b) :: h) := by
      cases b with
      | false => exact hkt.2.1
      | true => exact hkf.2.1
    exact .pure ⟨hr, (if_pos hother).symm⟩
  | some (some _), some none =>
    cases b with
    | false => exact .pure ⟨hr, (if_neg hkt.2).symm⟩
    | true => exact absurd hp hkt.2
  | some none, some (some _) =>
    cases b with
    | false => exact absurd hp hkf.2
    | true => exact .pure ⟨hr, (if_neg hkf.2).symm⟩

/-! ## The start of a query -/

theorem startNewQueryBinary_returns (ha : c.At p s h s.cur)
    (hreached : h ∈ c.reached) :
    Returns s (startNewQueryBinary o) fun (_ : Unit) s' =>
      s' = { s with curQuery := s.cur } := by
  have hchildren : (s.records.get s.cur).queryChildren = some (c.count h) := by
    rw [ha.2.queryChildren, if_pos hreached]
  have hstart : (startNewQuery o : Tree Table Unit).run s =
      (.ok (), { s with curQuery := s.cur }) := by
    apply (Stateful.run_bind_ok (Stateful.run_get s)).trans
    apply (Stateful.run_bind_ok (node_run s s.cur)).trans
    refine (Stateful.run_bind_ok (assert_run _ (decide_eq_true ?_) s)).trans
      (Stateful.run_modify _ s)
    rw [hchildren]
    exact Option.some_ne_none _
  apply Returns.bind (P := fun _ s' => s' = { s with curQuery := s.cur })
    (.of_ok hstart rfl)
  rintro _ s1 rfl
  apply Returns.read_bind (Stateful.run_get _)
  apply Returns.read_bind (node_run _ _)
  dsimp only
  rw [hchildren]
  have hrange := c.count_range h
  have hsmall : c.count h = 0 ∨ c.count h = 1 ∨ c.count h = 2 := by omega
  dsimp only
  rw [if_pos hsmall]
  exact .pure rfl

/-! ## The count -/

/-- The chart in which a place has been reached and counted. -/
def Chart.reach (c : Chart) (h : List Bool) : Chart :=
  { c with
    reached := insert h c.reached
    counted := insert h c.counted }

theorem Chart.reach_of_mem (hr : h ∈ c.reached) (hc : h ∈ c.counted) :
    c.reach h = c := by
  unfold Chart.reach
  rw [Finset.insert_eq_of_mem hr, Finset.insert_eq_of_mem hc]

/-- The chart in which a place has been counted. -/
def Chart.tally (c : Chart) (h : List Bool) : Chart :=
  { c with counted := insert h c.counted }

theorem Chart.count_tally (hnew : b :: h ∉ c.counted) :
    (c.tally (b :: h)).count h = c.count h + 1 := by
  have hmem : ∀ d, d :: h ∈ (c.tally (b :: h)).counted ↔
      d = b ∨ d :: h ∈ c.counted := by
    intro d
    rw [Chart.tally, Finset.mem_insert, List.cons.injEq, and_iff_left rfl]
  simp only [Chart.count, hmem]
  cases b with
  | false =>
    simp only [true_or, if_true, hnew, if_false]
    have hne : (true = false) = False := by decide
    simp only [hne, false_or]
    omega
  | true =>
    simp only [true_or, if_true, hnew, if_false]
    have hne : (false = true) = False := by decide
    simp only [hne, false_or]
    omega

/-- A record is changed where no link is, and then stored. -/
theorem assign_update_returns (hd : c.Drawn p s) (hc : c.Alike c')
    {f : Node → Node} (hf : KeepsLinks f) (ha : a < s.records.next)
    (hh : c.Has p h) (hshow : c'.Shows p h (f (s.records.get a)))
    (hsame : ∀ g, c.Has p g → g ≠ h → ∀ n, c.Shows p g n → c'.Shows p g n) :
    Returns s (do assign a f; updateDtNode (memoryStore o.asserts) a)
      fun _ s' => c'.Drawn p s' ∧ c'.At p s' h a ∧ Keeps {a} s s' ∧
        s'.nodes.nextDtIdent = s.nodes.nextDtIdent ∧
        s'.records.get a = f (s.records.get a) := by
  obtain ⟨hident, hparent, hchild⟩ := hf (s.records.get a)
  apply (assign_returns hd
    ((hd.record a ha).of_links hident hparent hchild)).bind
  rintro _ s1 ⟨hd1, hkeep1, hnodes1, hnext1, hget1⟩
  have ha1 : c'.At p s1 h a := ⟨hnext1 ▸ ha, hget1 ▸ hshow⟩
  apply (updateDtNode_alike o.asserts hd1 hc ha1 hh hsame).mono
  rintro _ s2 ⟨hd2, hrec2, hkeep2, hnext2⟩
  refine ⟨hd2, ⟨?_, ?_⟩, ?_, ?_, ?_⟩
  · rw [hrec2]
    exact ha1.1
  · rw [hrec2]
    exact ha1.2
  · refine hkeep1.trans ⟨hkeep2.cur, hkeep2.curQuery, hkeep2.depth,
      hkeep2.rootIdent, hkeep2.next_le, ?_⟩
    intro x hx _
    rw [hrec2]
  · rw [hnext2, hnodes1]
  · rw [hrec2, hget1]

theorem Chart.alike_refl (c : Chart) : c.Alike c := ⟨rfl, rfl⟩

section Count

variable (hd : c.Drawn p s) (hh : c.Has p (b :: h))
  (hq : c.At p s h s.curQuery) (ha : c.At p s (b :: h) s.cur)
  (hreached : h ∈ c.reached) (hrest : c.counted = c.reached)

include hd hh hq ha

theorem cur_ne_curQuery : (s.records.get s.cur).ident ≠
    (s.records.get s.curQuery).ident := by
  rw [ha.2.ident, hq.2.ident]
  intro heq
  exact List.cons_ne_self b h (hd.injective _ _ hh (hd.has_tail hh) heq)

omit hd hh in
include hreached in
/-- The side has been counted before. -/
theorem countCur_known (hmem : b :: h ∈ c.reached) :
    (countCur (memoryStore o.asserts) o).run s = (.ok (), s) := by
  have hcounted : (s.records.get s.cur).queryCounted = true :=
    ha.2.queryCounted.mpr ⟨hmem, List.cons_ne_nil b h⟩
  apply (Stateful.run_bind_ok (Stateful.run_get s)).trans
  apply (Stateful.run_bind_ok (node_run s s.cur)).trans
  apply (Stateful.run_bind_ok (node_run s s.curQuery)).trans
  rw [hq.2.queryChildren, if_pos hreached, hcounted]
  rfl

include hreached hrest

/-- The side is counted in the node of its decision; its own record notes it
and is not stored yet. -/
theorem countCur_new (hbranch : 2 < o.queryBranchLimit)
    (hnew : b :: h ∉ c.reached) {s1 : TreeState Table}
    (hd1 : c.Drawn p s1) (hkeep1 : Keeps {s.cur} s s1)
    (hget1 : s1.records.get s.cur =
      { s.records.get s.cur with queryChildren := some 0 }) :
    Returns s1 (countCur (memoryStore o.asserts) o) fun _ s' =>
      (c.tally (b :: h)).Drawn p s' ∧
        (c.tally (b :: h)).At p s' h s.curQuery ∧
        Keeps {s.cur, s.curQuery} s s' ∧
        s'.nodes.nextDtIdent = s1.nodes.nextDtIdent ∧
        s'.records.get s.cur = { s.records.get s.cur with
          queryChildren := some 0, queryCounted := true } := by
  have haddr : s.curQuery ≠ s.cur := by
    intro heq
    apply cur_ne_curQuery hd hh hq ha
    rw [heq]
  have hq1 : c.At p s1 h s1.curQuery := by
    rw [hkeep1.curQuery]
    exact hq.keeps hkeep1 haddr
  have hnotCounted : (s1.records.get s1.cur).queryCounted = false := by
    rw [hkeep1.cur, hget1, ← Bool.not_eq_true]
    intro hcounted
    exact hnew (ha.2.queryCounted.mp hcounted).1
  have hnot : b :: h ∉ c.counted := hrest ▸ hnew
  have hcount : c.count h ≤ 1 := by
    have htally := (c.tally (b :: h)).count_range h
    rw [Chart.count_tally hnot] at htally
    omega
  apply Returns.read_bind (Stateful.run_get s1)
  apply Returns.read_bind (node_run s1 s1.cur)
  apply Returns.read_bind (node_run s1 s1.curQuery)
  rw [hq1.2.queryChildren, if_pos hreached, hnotCounted]
  dsimp only
  rw [if_neg Bool.false_ne_true]
  apply Returns.read_bind (assert_run _ (decide_eq_true (by omega)) s1)
  have halike : c.Alike (c.tally (b :: h)) := ⟨rfl, rfl⟩
  have hshow : (c.tally (b :: h)).Shows p h
      { s1.records.get s1.curQuery with
        queryChildren := some (c.count h + 1) } := by
    have hold := hq1.2
    refine ⟨hold.ident, hold.parent, hold.child, hold.allSeen, ?_,
      hold.queryCounted, hold.eipLoc⟩
    rw [Chart.count_tally hnot]
    exact (if_pos hreached).symm
  have hsame : ∀ g, c.Has p g → g ≠ h → ∀ n, c.Shows p g n →
      (c.tally (b :: h)).Shows p g n := by
    intro g _ hne n hn
    refine halike.shows hn Iff.rfl Iff.rfl fun d => ?_
    rw [Chart.tally, Finset.mem_insert, or_iff_right]
    exact fun heq => hne (List.cons.inj heq).2
  rw [← bind_assoc]
  apply (assign_update_returns o hd1 halike
    (f := fun n => { n with queryChildren := some (c.count h + 1) })
    (fun _ => ⟨rfl, rfl, fun _ => rfl⟩) hq1.1 (hd.has_tail hh) hshow
    hsame).bind
  rintro _ s2 ⟨hd2, hq2, hkeep2, hnext2, -⟩
  rw [hkeep1.curQuery] at hq2 hkeep2
  have hcur2 : s.cur < s2.records.next :=
    (ha.1.trans_le hkeep1.next_le).trans_le hkeep2.next_le
  have hget2 : s2.records.get s.cur = s1.records.get s.cur :=
    hkeep2.get_eq _ (ha.1.trans_le hkeep1.next_le) haddr.symm
  rw [hkeep1.cur]
  apply (assign_returns (f := fun n => { n with queryCounted := true }) hd2
    ((hd2.record _ hcur2).of_links rfl rfl fun _ => rfl)).mono
  rintro _ s3 ⟨hd3, hkeep3, hnodes3, hnext3, hget3⟩
  refine ⟨hd3, hq2.keeps hkeep3 haddr, ?_, ?_, ?_⟩
  · refine ⟨hkeep3.cur.trans (hkeep2.cur.trans hkeep1.cur),
      hkeep3.curQuery.trans (hkeep2.curQuery.trans hkeep1.curQuery),
      hkeep3.depth.trans (hkeep2.depth.trans hkeep1.depth),
      hkeep3.rootIdent.trans (hkeep2.rootIdent.trans hkeep1.rootIdent),
      hkeep1.next_le.trans (hkeep2.next_le.trans hkeep3.next_le), ?_⟩
    intro x hx hnx
    rw [Set.mem_insert_iff, Set.mem_singleton_iff, not_or] at hnx
    have hx1 := hx.trans_le hkeep1.next_le
    rw [hkeep3.get_eq x (hx1.trans_le hkeep2.next_le) hnx.1,
      hkeep2.get_eq x hx1 hnx.2, hkeep1.get_eq x hx hnx.1]
  · rw [hnodes3, hnext2]
  · rw [hget3, hget2, hget1]

/-- The count and both records are stored. -/
theorem counted_returns (hbranch : 2 < o.queryBranchLimit)
    (hbelow : b :: h ∉ c.reached → ∀ d, d :: b :: h ∉ c.reached) :
    Returns s (do
      (do
        onlyIf (decide ((s.records.get s.cur).queryChildren = none))
          (assign s.cur fun n => { n with queryChildren := some 0 })
        countCur (memoryStore o.asserts) o)
      updateDtNode (memoryStore o.asserts) s.cur) fun _ s' =>
      (c.reach (b :: h)).Drawn p s' ∧
        (c.reach (b :: h)).At p s' h s.curQuery ∧
        (c.reach (b :: h)).At p s' (b :: h) s.cur ∧
        Keeps {s.cur, s.curQuery} s s' ∧
        s'.nodes.nextDtIdent = s.nodes.nextDtIdent := by
  by_cases hmem : b :: h ∈ c.reached
  · rw [Chart.reach_of_mem hmem (hrest ▸ hmem)]
    have hold : decide ((s.records.get s.cur).queryChildren = none) =
        false := by
      rw [ha.2.queryChildren, if_pos hmem]
      rfl
    have hcount : (do
        onlyIf (decide ((s.records.get s.cur).queryChildren = none))
          (assign s.cur fun n => { n with queryChildren := some 0 })
        countCur (memoryStore o.asserts) o).run s = (.ok (), s) := by
      rw [hold]
      exact (Stateful.run_bind_ok (Stateful.run_pure () s)).trans
        (countCur_known o hq ha hreached hmem)
    apply Returns.read_bind hcount
    apply (updateDtNode_alike o.asserts hd c.alike_refl ha hh
      fun _ _ _ _ hn => hn).mono
    rintro _ s1 ⟨hd1, hrec1, hkeep1, hnext1⟩
    refine ⟨hd1, hq.keeps hkeep1 (Set.notMem_empty _),
      ha.keeps hkeep1 (Set.notMem_empty _), ?_, hnext1⟩
    exact ⟨hkeep1.cur, hkeep1.curQuery, hkeep1.depth, hkeep1.rootIdent,
      hkeep1.next_le, fun x hx _ => hkeep1.get_eq x hx (Set.notMem_empty x)⟩
  · have hfresh : decide ((s.records.get s.cur).queryChildren = none) =
        true := by
      rw [ha.2.queryChildren, if_neg hmem]
      rfl
    have hlegal : Legal s.nodes
        { s.records.get s.cur with queryChildren := some 0 } :=
      (hd.record _ hd.cur_lt).of_links rfl rfl fun _ => rfl
    rw [hfresh]
    have hfirst := assign_returns (a := s.cur)
      (f := fun n => { n with queryChildren := some 0 }) hd hlegal
    have hcount := hfirst.bind
      (f := fun _ => countCur (memoryStore o.asserts) o) (Q := fun _ s' =>
        (c.tally (b :: h)).Drawn p s' ∧
          (c.tally (b :: h)).At p s' h s.curQuery ∧
          Keeps {s.cur, s.curQuery} s s' ∧
          s'.nodes.nextDtIdent = s.nodes.nextDtIdent ∧
          s'.records.get s.cur = { s.records.get s.cur with
            queryChildren := some 0, queryCounted := true }) ?_
    · apply Returns.bind hcount
      rintro _ s2 ⟨hd2, hq2, hkeep2, hnext2, hget2⟩
      have halike : (c.tally (b :: h)).Alike (c.reach (b :: h)) := ⟨rfl, rfl⟩
      have hzero : (c.reach (b :: h)).count (b :: h) = 0 := by
        have hnot : ∀ d, d :: b :: h ∉ insert (b :: h) c.counted := by
          intro d
          rw [Finset.mem_insert, not_or, hrest]
          exact ⟨List.cons_ne_self d (b :: h), hbelow hmem d⟩
        rw [Chart.count, Chart.reach]
        simp only [hnot, if_false]
        rfl
      have hcur2 : (c.reach (b :: h)).At p s2 (b :: h) s.cur := by
        refine ⟨ha.1.trans_le hkeep2.next_le, ?_⟩
        have hold := ha.2
        have hself : b :: h ∈ (c.reach (b :: h)).reached :=
          Finset.mem_insert_self _ _
        rw [hget2]
        refine ⟨hold.ident, hold.parent, hold.child, hold.allSeen, ?_,
          iff_of_true rfl ⟨hself, List.cons_ne_nil b h⟩, hold.eipLoc⟩
        rw [if_pos hself, hzero]
      have hreach : ∀ g, g ≠ b :: h → (g ∈ (c.reach (b :: h)).reached ↔
          g ∈ (c.tally (b :: h)).reached) := by
        intro g hne
        rw [Chart.reach, Finset.mem_insert]
        exact or_iff_right hne
      apply (updateDtNode_alike o.asserts hd2 halike hcur2 hh
        fun g _ hne n hn => halike.shows hn Iff.rfl (hreach g hne)
          fun _ => Iff.rfl).mono
      rintro _ s3 ⟨hd3, hrec3, hkeep3, hnext3⟩
      refine ⟨hd3, ⟨?_, ?_⟩, ⟨?_, ?_⟩, ?_, hnext3.trans hnext2⟩
      · rw [hrec3]
        exact hq2.1
      · rw [hrec3]
        exact halike.shows hq2.2 Iff.rfl
          (hreach h (List.cons_ne_self b h).symm) fun _ => Iff.rfl
      · rw [hrec3]
        exact hcur2.1
      · rw [hrec3]
        exact hcur2.2
      · refine hkeep2.trans ⟨hkeep3.cur, hkeep3.curQuery, hkeep3.depth,
          hkeep3.rootIdent, hkeep3.next_le, ?_⟩
        intro x hx _
        rw [hrec3]
    · rintro _ s1 ⟨hd1, hkeep1, hnodes1, -, hget1⟩
      rw [← hnodes1]
      exact countCur_new o hd hh hq ha hreached hrest hbranch hmem hd1 hkeep1
        hget1

theorem countQuery_returns (hbranch : 2 < o.queryBranchLimit)
    (hbelow : b :: h ∉ c.reached → ∀ d, d :: b :: h ∉ c.reached) :
    Returns s (countQuery (memoryStore o.asserts) o) fun _ s' =>
      (c.reach (b :: h)).Drawn p s' ∧
        (c.reach (b :: h)).At p s' (b :: h) s'.cur ∧
        Keeps {s.cur, s.curQuery} s s' ∧
        s'.nodes.nextDtIdent = s.nodes.nextDtIdent := by
  apply Returns.read_bind (Stateful.run_get s)
  apply Returns.read_bind (node_run s s.cur)
  apply Returns.read_bind (node_run s s.curQuery)
  rw [if_pos (cur_ne_curQuery hd hh hq ha), ← bind_assoc, ← bind_assoc]
  apply (counted_returns o hd hh hq ha hreached hrest hbranch hbelow).bind
  rintro _ s1 ⟨hd1, hq1, hcur1, hkeep1, hnext1⟩
  have hmem : h ∈ (c.reach (b :: h)).reached :=
    Finset.mem_insert_of_mem hreached
  apply Returns.read_bind (node_run s1 s.curQuery)
  rw [hq1.2.queryChildren, if_pos hmem]
  have hrange := (c.reach (b :: h)).count_range h
  dsimp only
  rw [if_neg (by omega)]
  exact .pure ⟨hd1, hkeep1.cur ▸ hcur1, hkeep1, hnext1⟩

end Count

end Fuzzball.BinaryDecisionTree
