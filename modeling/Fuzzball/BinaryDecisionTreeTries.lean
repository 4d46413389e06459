import Fuzzball.BinaryDecisionTreeExtensions

/-!
# Decisions

`try_extend` with functions that answer which sides are feasible.  At a place
that is not marked it returns a feasible side that is not marked either, and
leaves both sides known.
-/

namespace Fuzzball.BinaryDecisionTree

open DecisionTree

variable {c c' : Chart} {p : Program} {s s' : TreeState Table}
  {g h : List Bool} {b : Bool} {n : Node} {a : ℕ}

/-! ## Both sides -/

/-- The second chart knows of both sides of the place. -/
structure Chart.Tried (p : Program) (c c' : Chart) (h : List Bool) : Prop where
  resolved : c'.resolved = insert (false :: h) (insert (true :: h) c.resolved)
  reached : c'.reached = c.reached
  counted : c'.counted = c.counted
  seen : c'.seen = c.seen
  ident : ∀ h, c.Has p h → c'.ident h = c.ident h

theorem Chart.Resolves.tried {d : Chart} {b₁ b₂ : Bool} (hne : b₁ ≠ b₂)
    (h₁ : Chart.Resolves p c d (b₁ :: h))
    (h₂ : Chart.Resolves p d c' (b₂ :: h)) : Chart.Tried p c c' h where
  resolved := by
    rw [h₂.resolved, h₁.resolved]
    cases b₁ <;> cases b₂
    · exact absurd rfl hne
    · exact Finset.insert_comm _ _ _
    · rfl
    · exact absurd rfl hne
  reached := h₂.reached.trans h₁.reached
  counted := h₂.counted.trans h₁.counted
  seen := h₂.seen.trans h₁.seen
  ident := fun g hg => (h₂.ident g (h₁.has hg)).trans (h₁.ident g hg)

theorem Chart.tried_of_resolved (hf : false :: h ∈ c.resolved)
    (ht : true :: h ∈ c.resolved) : Chart.Tried p c c h where
  resolved := by
    rw [Finset.insert_eq_of_mem ht, Finset.insert_eq_of_mem hf]
  reached := rfl
  counted := rfl
  seen := rfl
  ident := fun _ _ => rfl

theorem Chart.Extended.of_keeps {A : Set ℕ} {s'' : TreeState Table}
    (hk : Keeps A s s') (he : c.Extended p h b s' s'') :
    c.Extended p h b s s'' where
  drawn := he.drawn
  room := he.room
  resolved := he.resolved
  before := hk.cur ▸ he.before
  cur := he.cur
  curQuery := he.curQuery.trans hk.curQuery
  depth := he.depth.trans (by rw [hk.depth])

theorem Chart.Room.reads (hroom : c.Room p s) (hr : Reads s s') :
    c.Room p s' := by
  rw [Chart.Room, hr.nodes]
  exact hroom

/-! ## Trying -/

section Trying

variable {ε : Type} (o : TreeOptions) {k : Callbacks ε} {bit : Bool}

/-- The functions answer what is feasible at the place, and raise nothing. -/
structure Answers (p : Program) (h : List Bool) (k : Callbacks ε)
    (bit : Bool) : Prop where
  tryFunc : ∀ b, k.tryFunc b (k.transFunc b) = some (decide (p.Has (b :: h)))
  nonTryFunc : ∀ b, k.nonTryFunc b = some ()
  randomBitGen : k.randomBitGen = some bit

theorem called_run {α : Type} {x : Option α} {v : α} (hx : x = some v)
    (s : TreeState Table) : (called x).run s = (.ok v, s) := by
  rw [hx]
  rfl

/-- What a decision does. -/
def Decides (p : Program) (c : Chart) (h : List Bool) (s : TreeState Table)
    (r : Bool) (s' : TreeState Table) : Prop :=
  ∃ c', Chart.Tried p c c' h ∧ p.Has (r :: h) ∧ r :: h ∉ c.seen ∧
    c'.Extended p h r s s'

variable (hd : c.Drawn p s) (hh : c.Has p h) (ha : c.At p s h s.cur)
  (hseen : h ∉ c.seen) (hroom : c.Room p s) (hdepth : s.depth = h.length)
  (hlimit : Shallow o p) (hk : Answers p h k bit)

include hd ha hseen hroom hdepth hlimit hk

theorem known_returns (hf : false :: h ∈ c.resolved)
    (ht : true :: h ∈ c.resolved) (hp : p.Has (b :: h))
    (hleft : b :: h ∉ c.seen) :
    Returns s (known (memoryStore o.asserts) o k b) fun r s' =>
      Decides p c h s r.1 s' := by
  apply Returns.read_bind (called_run (hk.nonTryFunc b) s)
  have hres : b :: h ∈ c.resolved := by
    cases b with
    | false => exact hf
    | true => exact ht
  apply (extend_known o hd ha hseen hres hp hroom hdepth hlimit).bind
  intro _ s1 hext
  exact .pure ⟨c, Chart.tried_of_resolved hf ht, hp, hleft, hext⟩

include hh

theorem tryBoth_returns (hsize : p.places.card + 3 < 2 ^ 30)
    (hnew : ∀ b, b :: h ∉ c.resolved)
    (hfresh : ∀ b, p.Has (b :: h) → c.Fresh (b :: h))
    (hlive : ∃ b, p.Has (b :: h)) :
    Returns s (tryBoth (memoryStore o.asserts) o k) fun r s' =>
      Decides p c h s r.1 s' := by
  -- once one side is known, the path goes on with the other
  have hext : ∀ {b : Bool} {d : Chart} {s1 : TreeState Table},
      p.Has (b :: h) → Chart.Resolves p c d ((!b) :: h) → d.Drawn p s1 →
      d.Room p s1 → d.At p s1 h s1.cur → Keeps {s.cur} s s1 →
      Returns s1 (extend (memoryStore o.asserts) o b) fun _ s' =>
        Decides p c h s b s' := by
    intro b d s1 hp hr hd1 hroom1 ha1 hkeep1
    have hne : b :: h ≠ (!b) :: h := fun heq =>
      Bool.not_ne_self b (List.cons.inj heq).1.symm
    have hnew1 : b :: h ∉ d.resolved := by
      rw [hr.resolved, Finset.mem_insert]
      exact not_or_intro hne (hnew b)
    have hfresh1 : d.Fresh (b :: h) := by
      intro _
      rw [hr.seen, hr.reached]
      exact hfresh b hp (hnew b)
    apply (extend_new o hd1 (hr.has hh) ha1 (hr.seen ▸ hseen) hnew1 hfresh1 hp
      hroom1 hsize (hkeep1.depth.trans hdepth) hlimit).mono
    rintro _ s2 ⟨c', hr', hext⟩
    exact ⟨c', hr.tried (Bool.not_ne_self b) hr', hp, (hfresh b hp (hnew b)).1,
      hext.of_keeps hkeep1⟩
  apply Returns.read_bind (called_run hk.randomBitGen s)
  apply Returns.read_bind (called_run (hk.tryFunc bit) s)
  by_cases hp : p.Has (bit :: h)
  · simp only [hp, decide_true, if_true]
    apply Returns.read_bind (called_run (hk.tryFunc (!bit)) s)
    have hother : Returns s
        (if decide (p.Has ((!bit) :: h)) = true then
            addKid (memoryStore o.asserts) o (!bit)
          else recordUnsat (memoryStore o.asserts) (!bit)) fun _ s' =>
        ∃ c', Chart.Resolves p c c' ((!bit) :: h) ∧ c'.Drawn p s' ∧
          c'.Room p s' ∧ c'.At p s' h s'.cur ∧ Keeps {s.cur} s s' := by
      by_cases hp' : p.Has ((!bit) :: h)
      · simp only [hp', decide_true, if_true]
        exact addKid_new o hd hh ha hseen (hnew _) (hfresh _ hp') hp' hroom
          hsize
      · simp only [hp', decide_false, Bool.false_eq_true, if_false]
        exact recordUnsat_returns _ hd hh ha (hnew _) hp' hroom
    apply hother.bind
    rintro _ s1 ⟨d, hr, hd1, hroom1, ha1, hkeep1⟩
    apply (hext hp hr hd1 hroom1 ha1 hkeep1).bind
    intro _ s2 hdec
    exact .pure hdec
  · simp only [hp, decide_false, Bool.false_eq_true, if_false]
    apply (recordUnsat_returns _ hd hh ha (hnew _) hp hroom).bind
    rintro _ s1 ⟨d, hr, hd1, hroom1, ha1, hkeep1⟩
    have hp' : p.Has ((!bit) :: h) := by
      obtain ⟨b, hb⟩ := hlive
      have hne : b ≠ bit := by
        rintro rfl
        exact hp hb
      rw [← Bool.eq_not_of_ne hne]
      exact hb
    apply Returns.read_bind (called_run (hk.tryFunc (!bit)) s1)
    simp only [hp', decide_true, if_true]
    have hr' : Chart.Resolves p c d ((!(!bit)) :: h) := by
      rw [Bool.not_not]
      exact hr
    apply (hext hp' hr' hd1 hroom1 ha1 hkeep1).bind
    intro _ s2 hdec
    exact .pure hdec

end Trying

/-! ## `try_extend` -/

section TryExtend

variable {ε : Type} (o : TreeOptions) {k : Callbacks ε} {bit : Bool}

/-- The location of the decision is noted. -/
theorem putEipLoc_returns (hd : c.Drawn p s) (hh : c.Has p h)
    (ha : c.At p s h a) {eipLoc : I64}
    (hloc : ∀ d feasible sub, p.subtree h = some (.node d feasible sub) →
      eipLoc = d.eipLoc) :
    Returns s (putEipLoc (memoryStore o.asserts) a eipLoc) fun _ s' =>
      c.Drawn p s' ∧ c.At p s' h a ∧ Keeps {a} s s' ∧
        s'.nodes.nextDtIdent = s.nodes.nextDtIdent := by
  have hlegal : Legal s.nodes
      { s.records.get a with eipLoc := eipLoc } :=
    (hd.record a ha.1).of_links rfl rfl fun _ => rfl
  apply (assign_returns (f := fun n => { n with eipLoc := eipLoc }) hd
    hlegal).bind
  rintro _ s1 ⟨hd1, hkeep1, hnodes1, hnext1, hget1⟩
  have ha1 : c.At p s1 h a := by
    refine ⟨hnext1 ▸ ha.1, ?_⟩
    rw [hget1]
    exact ⟨ha.2.ident, ha.2.parent, ha.2.child, ha.2.allSeen,
      ha.2.queryChildren, ha.2.queryCounted,
      fun d f sub heq => .inr (hloc d f sub heq)⟩
  apply (updateDtNode_alike o.asserts hd1 ⟨rfl, rfl⟩ ha1 hh
    fun _ _ _ _ hshow => hshow).mono
  rintro _ s2 ⟨hd2, hrec2, hkeep2, hnext2⟩
  refine ⟨hd2, ?_, ?_, ?_⟩
  · refine ⟨?_, ?_⟩ <;> rw [hrec2]
    · exact ha1.1
    · exact ha1.2
  · refine hkeep1.trans ⟨hkeep2.cur, hkeep2.curQuery, hkeep2.depth,
      hkeep2.rootIdent, hkeep2.next_le, ?_⟩
    intro x hx _
    rw [hrec2]
  · rw [hnext2, hnodes1]

theorem tryExtend_returns {d : Decision} {feasible : Bool → Bool}
    {sub : Bool → Program} (hd : c.Drawn p s) (hh : c.Has p h)
    (ha : c.At p s h s.cur) (hquery : s.curQuery = s.cur)
    (hseen : h ∉ c.seen) (hroom : c.Room p s) (hdepth : s.depth = h.length)
    (hlimit : Shallow o p) (hbranch : 2 < o.queryBranchLimit)
    (hk : Answers p h k bit) (hsize : p.places.card + 3 < 2 ^ 30)
    (hnode : p.subtree h = some (.node d feasible sub))
    (hboth : false :: h ∈ c.resolved ↔ true :: h ∈ c.resolved)
    (hfresh : ∀ b, p.Has (b :: h) → c.Fresh (b :: h))
    (hleft : ∃ b, p.Has (b :: h) ∧ b :: h ∉ c.seen) :
    Returns s (tryExtend (memoryStore o.asserts) o k d.eipLoc) fun r s' =>
      Decides p c h s r.1 s' := by
  apply Returns.read_bind (Stateful.run_get s)
  apply Returns.read_bind (node_run s s.cur)
  apply Returns.read_bind (notSeen_assert o ha hseen s)
  apply Returns.read_bind
    (assert_run _ (decide_eq_true (ha.2.eipLoc d feasible sub hnode)) s)
  have hloc : ∀ d' f' sub', p.subtree h = some (.node d' f' sub') →
      d.eipLoc = d'.eipLoc := by
    intro d' f' sub' heq
    rw [hnode] at heq
    cases heq
    rfl
  apply (putEipLoc_returns o hd hh ha hloc).bind
  rintro _ s1 ⟨hd1, ha1, hkeep1, hnext1⟩
  apply Returns.read_bind (node_run s1 s.curQuery)
  rw [hquery]
  apply sides_return _ hd1 ha1
  intro kf kt s2 hr2 hkf hkt
  obtain ⟨fSeen, hrunF, hfSeen⟩ := isSeen_run hkf
  obtain ⟨tSeen, hrunT, htSeen⟩ := isSeen_run hkt
  apply Returns.read_bind hrunF
  apply Returns.read_bind hrunT
  apply Returns.read_bind (node_run s2 s.cur)
  have hkeep2 : Keeps {s.cur} s s2 := hkeep1.trans (hr2.keeps {s.cur})
  have hd2 := hd1.reads hr2
  have ha2 : c.At p s2 h s2.cur := by
    rw [hkeep2.cur]
    exact ha1.reads hr2
  have hroom2 : c.Room p s2 := by
    rw [Chart.Room, hr2.nodes, hnext1]
    exact hroom
  have hdepth2 : s2.depth = h.length := hkeep2.depth.trans hdepth
  have hback : ∀ {r : Bool} {s' : TreeState Table}, Decides p c h s2 r s' →
      Decides p c h s r s' := by
    rintro r s' ⟨c', htried, hp, hleft, hext⟩
    exact ⟨c', htried, hp, hleft, hext.of_keeps hkeep2⟩
  have hknown : ∀ b, false :: h ∈ c.resolved → true :: h ∈ c.resolved →
      p.Has (b :: h) → b :: h ∉ c.seen →
      Returns s2 (known (memoryStore o.asserts) o k b) fun r s' =>
        Decides p c h s r.1 s' := by
    intro b hf ht hp hleft
    exact (known_returns o hd2 ha2 hseen hroom2 hdepth2 hlimit hk hf ht hp
      hleft).mono fun r s' => hback
  cases kf with
  | none =>
    cases kt with
    | none =>
      have hnew : ∀ b, b :: h ∉ c.resolved := by
        rintro (_ | _)
        · exact hkf
        · exact hkt
      obtain ⟨b, hb, -⟩ := hleft
      have htry : Returns s2 (tryBoth (memoryStore o.asserts) o k) fun r s' =>
          Decides p c h s r.1 s' :=
        (tryBoth_returns o hd2 hh ha2 hseen hroom2 hdepth2 hlimit hk hsize hnew
          hfresh ⟨b, hb⟩).mono fun r s' => hback
      -- a binary decision never comes to the limit of branches
      have hcount : ¬ o.queryBranchLimit ≤ c.count h := by
        have hrange := c.count_range h
        omega
      rw [ha1.2.queryChildren]
      by_cases hreached : h ∈ c.reached
      · simp only [hreached, if_true, hcount, decide_false]
        exact htry
      · simp only [hreached, if_false]
        exact htry
    | some kt =>
      have ht : true :: h ∈ c.resolved := by
        cases kt <;> exact hkt.1
      exact absurd (hboth.mpr ht) hkf
  | some kf =>
    cases kt with
    | none =>
      have hf : false :: h ∈ c.resolved := by
        cases kf <;> exact hkf.1
      exact absurd (hboth.mp hf) hkt
    | some kt =>
      cases kf with
      | none =>
        cases kt with
        | none =>
          obtain ⟨b, hb, -⟩ := hleft
          cases b with
          | false => exact absurd hb hkf.2
          | true => exact absurd hb hkt.2
        | some y =>
          obtain ⟨b, hb, hleft⟩ := hleft
          cases b with
          | false => exact absurd hb hkf.2
          | true =>
            have hnot : tSeen = false := by
              rw [← Bool.not_eq_true, htSeen]
              exact fun hs => hleft hs.2.2
            apply Returns.read_bind (assert_run _ (by rw [hnot]; rfl) s2)
            exact hknown true hkf.1 hkt.1 hb hleft
      | some x =>
        cases kt with
        | none =>
          obtain ⟨b, hb, hleft⟩ := hleft
          cases b with
          | true => exact absurd hb hkt.2
          | false =>
            have hnot : fSeen = false := by
              rw [← Bool.not_eq_true, hfSeen]
              exact fun hs => hleft hs.2.2
            apply Returns.read_bind (assert_run _ (by rw [hnot]; rfl) s2)
            exact hknown false hkf.1 hkt.1 hb hleft
        | some y =>
          have hseenF : fSeen = true ↔ false :: h ∈ c.seen :=
            hfSeen.trans ⟨fun hs => hs.2.2, fun hs => ⟨hkf.1, hkf.2.1, hs⟩⟩
          have hseenT : tSeen = true ↔ true :: h ∈ c.seen :=
            htSeen.trans ⟨fun hs => hs.2.2, fun hs => ⟨hkt.1, hkt.2.1, hs⟩⟩
          cases hF : fSeen <;> cases hT : tSeen
          · have hunseen : ∀ b, p.Has (b :: h) ∧ b :: h ∉ c.seen := by
              rintro (_ | _)
              · refine ⟨hkf.2.1, fun hs => ?_⟩
                rw [hseenF.mpr hs] at hF
                cases hF
              · refine ⟨hkt.2.1, fun hs => ?_⟩
                rw [hseenT.mpr hs] at hT
                cases hT
            apply Returns.read_bind (called_run hk.randomBitGen s2)
            exact hknown bit hkf.1 hkt.1 (hunseen bit).1 (hunseen bit).2
          · refine hknown false hkf.1 hkt.1 hkf.2.1 fun hs => ?_
            rw [hseenF.mpr hs] at hF
            cases hF
          · refine hknown true hkf.1 hkt.1 hkt.2.1 fun hs => ?_
            rw [hseenT.mpr hs] at hT
            cases hT
          · obtain ⟨b, -, hleft⟩ := hleft
            cases b with
            | false => exact absurd (hseenF.mp hF) hleft
            | true => exact absurd (hseenT.mp hT) hleft

end TryExtend

end Fuzzball.BinaryDecisionTree
