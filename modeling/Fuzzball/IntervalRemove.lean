import Fuzzball.IntervalReads

/-!
# Removing an interval from an interval

`remove` of `interval_tree.ml`.  Its cases are tried in order, and an end point
is only moved where it lies strictly inside the first interval.
-/

namespace Fuzzball.IntervalTree

/-- `remove i1 i2`: the parts of `i1` that are not in `i2`. -/
def remove (i1 i2 : Interval) : Except IntervalExn (List Interval) := do
  let saveHigh1 := i1.high.sle i2.high
  let saveHigh2 := i2.high.sle i1.high
  let i1InI2 := i2.low.sle i1.low && saveHigh1
  let i2InI1 := i1.low.sle i2.low && saveHigh2
  let noIntersect := i1.high.slt i2.low || i2.high.slt i1.low
  let i1Left := i1.low.slt i2.low && i2.low.sle i1.high && saveHigh1
  let i2Left := i2.low.slt i1.low && i2.low.sle i2.high && saveHigh2
  let below := makeIntervalWcheck .internal i1.low (i2.low - 1)
  let above := makeIntervalWcheck .internal (i2.high + 1) i1.high
  if noIntersect then pure [i1]
  else if i1InI2 then pure []
  else if i2InI1 then
    if i2.high = i1.high then pure [← below]
    else if i2.low = i1.low then pure [← above]
    else pure [← below, ← above]
  else if i1Left then pure [← below]
  else if i2Left then pure [← above]
  else .error (.failure "I don't think this code is reachable.")

/-- No address is in both intervals. -/
def Interval.Apart (i j : Interval) : Prop :=
  ∀ a, ¬(i.Contains a ∧ j.Contains a)

/-- Valid intervals that have no address in common and together have those of
the first interval that the second does not have. -/
structure IsDifference (i1 i2 : Interval) (l : List Interval) : Prop where
  valid : ∀ i ∈ l, i.Valid
  apart : l.Pairwise Interval.Apart
  contains_iff : ∀ a, (∃ i ∈ l, i.Contains a) ↔
    i1.Contains a ∧ ¬i2.Contains a

section Remove

variable {i1 i2 : Interval}

/-- The part of the first interval below the second. -/
def below (i1 i2 : Interval) : Interval := ⟨i1.low, i2.low - 1, .internal, 0⟩

/-- The part of the first interval above the second. -/
def above (i1 i2 : Interval) : Interval := ⟨i2.high + 1, i1.high, .internal, 0⟩

theorem toInt_below (h : i1.low.toInt < i2.low.toInt) :
    (below i1 i2).high.toInt = i2.low.toInt - 1 := by
  apply toInt_pred
  intro hmin
  have hle := BitVec.le_toInt i1.low
  rw [hmin, BitVec.toInt_intMin] at h
  norm_num at h hle
  omega

theorem toInt_above (h : i2.high.toInt < i1.high.toInt) :
    (above i1 i2).low.toInt = i2.high.toInt + 1 := by
  apply toInt_succ
  intro hmax
  have hlt := BitVec.toInt_lt (x := i1.high)
  rw [hmax, BitVec.toInt_intMax] at h
  norm_num at h hlt
  omega

theorem makeIntervalWcheck_below (h : i1.low.toInt < i2.low.toInt) :
    makeIntervalWcheck .internal i1.low (i2.low - 1) = .ok (below i1 i2) := by
  have hpred : (i2.low - 1).toInt = i2.low.toInt - 1 := toInt_below h
  apply if_pos
  rw [BitVec.sle_eq_decide, decide_eq_true_eq, hpred]
  omega

theorem makeIntervalWcheck_above (h : i2.high.toInt < i1.high.toInt) :
    makeIntervalWcheck .internal (i2.high + 1) i1.high =
      .ok (above i1 i2) := by
  have hsucc : (i2.high + 1).toInt = i2.high.toInt + 1 := toInt_above h
  apply if_pos
  rw [BitVec.sle_eq_decide, decide_eq_true_eq, hsucc]
  omega

theorem isDifference_self (h1 : i1.Valid)
    (h : i1.high.toInt < i2.low.toInt ∨ i2.high.toInt < i1.low.toInt) :
    IsDifference i1 i2 [i1] := by
  refine ⟨?_, List.pairwise_singleton _ _, ?_⟩
  · intro i hi
    rwa [List.mem_singleton.mp hi]
  · intro a
    simp only [List.mem_singleton, exists_eq_left, Interval.Contains]
    omega

theorem isDifference_nil (hlow : i2.low.toInt ≤ i1.low.toInt)
    (hhigh : i1.high.toInt ≤ i2.high.toInt) : IsDifference i1 i2 [] := by
  refine ⟨?_, List.Pairwise.nil, ?_⟩
  · intro i hi
    nomatch hi
  · intro a
    constructor
    · rintro ⟨i, hi, -⟩
      nomatch hi
    · rintro ⟨hin, hout⟩
      exact absurd ⟨hlow.trans hin.1, hin.2.trans hhigh⟩ hout

theorem isDifference_below (hlow : i1.low.toInt < i2.low.toInt)
    (hmeet : i2.low.toInt ≤ i1.high.toInt)
    (hhigh : i1.high.toInt ≤ i2.high.toInt) :
    IsDifference i1 i2 [below i1 i2] := by
  have hend := toInt_below hlow
  have hstart : (below i1 i2).low = i1.low := rfl
  refine ⟨?_, List.pairwise_singleton _ _, ?_⟩
  · intro i hi
    rw [List.mem_singleton.mp hi, Interval.Valid, hend, hstart]
    omega
  · intro a
    simp only [List.mem_singleton, exists_eq_left, Interval.Contains, hend,
      hstart]
    omega

theorem isDifference_above (hhigh : i2.high.toInt < i1.high.toInt)
    (hmeet : i1.low.toInt ≤ i2.high.toInt)
    (hlow : i2.low.toInt ≤ i1.low.toInt) :
    IsDifference i1 i2 [above i1 i2] := by
  have hstart := toInt_above hhigh
  have hend : (above i1 i2).high = i1.high := rfl
  refine ⟨?_, List.pairwise_singleton _ _, ?_⟩
  · intro i hi
    rw [List.mem_singleton.mp hi, Interval.Valid, hend, hstart]
    omega
  · intro a
    simp only [List.mem_singleton, exists_eq_left, Interval.Contains, hend,
      hstart]
    omega

theorem isDifference_both (h2 : i2.Valid) (hlow : i1.low.toInt < i2.low.toInt)
    (hhigh : i2.high.toInt < i1.high.toInt) :
    IsDifference i1 i2 [below i1 i2, above i1 i2] := by
  unfold Interval.Valid at h2
  have hbelow := toInt_below hlow
  have habove := toInt_above hhigh
  have hstart : (below i1 i2).low = i1.low := rfl
  have hend : (above i1 i2).high = i1.high := rfl
  refine ⟨?_, ?_, ?_⟩
  · intro i hi
    rcases List.mem_pair.mp hi with rfl | rfl
    · rw [Interval.Valid, hbelow, hstart]
      omega
    · rw [Interval.Valid, habove, hend]
      omega
  · refine List.pairwise_pair.mpr ?_
    intro a hboth
    simp only [Interval.Contains, hbelow, habove, hstart, hend] at hboth
    omega
  · intro a
    simp only [List.mem_cons, List.not_mem_nil, or_false, exists_eq_or_imp,
      exists_eq_left, Interval.Contains, hbelow, habove, hstart, hend]
    omega

/-- Removing one interval from another leaves the addresses of the first that
are not in the second, in intervals apart from each other. -/
theorem remove_isDifference (h1 : i1.Valid) (h2 : i2.Valid) :
    ∃ l, remove i1 i2 = .ok l ∧ IsDifference i1 i2 l := by
  have hv1 : i1.low.toInt ≤ i1.high.toInt := h1
  have hv2 : i2.low.toInt ≤ i2.high.toInt := h2
  have hhighs : i2.high = i1.high ↔ i2.high.toInt = i1.high.toInt :=
    BitVec.toInt_inj.symm
  have hlows : i2.low = i1.low ↔ i2.low.toInt = i1.low.toInt :=
    BitVec.toInt_inj.symm
  unfold remove
  simp only [BitVec.sle_eq_decide, BitVec.slt_eq_decide, Bool.or_eq_true,
    Bool.and_eq_true, decide_eq_true_eq, hhighs, hlows]
  split_ifs with hapart hin hinside hsame hsame' hleft hright
  · exact ⟨_, rfl, isDifference_self h1 hapart⟩
  · exact ⟨_, rfl, isDifference_nil hin.1 hin.2⟩
  · have hlow : i1.low.toInt < i2.low.toInt := by omega
    rw [makeIntervalWcheck_below hlow]
    exact ⟨_, rfl, isDifference_below hlow (by omega) hsame.ge⟩
  · have hhigh : i2.high.toInt < i1.high.toInt := by omega
    rw [makeIntervalWcheck_above hhigh]
    exact ⟨_, rfl, isDifference_above hhigh (by omega) hsame'.le⟩
  · have hlow : i1.low.toInt < i2.low.toInt := by omega
    have hhigh : i2.high.toInt < i1.high.toInt := by omega
    rw [makeIntervalWcheck_below hlow, makeIntervalWcheck_above hhigh]
    exact ⟨_, rfl, isDifference_both h2 hlow hhigh⟩
  · rw [makeIntervalWcheck_below hleft.1.1]
    exact ⟨_, rfl, isDifference_below hleft.1.1 hleft.1.2 hleft.2⟩
  · have hhigh : i2.high.toInt < i1.high.toInt := by omega
    rw [makeIntervalWcheck_above hhigh]
    exact ⟨_, rfl, isDifference_above hhigh (by omega) hright.1.1.le⟩
  · omega

/-- An interval in the middle of the whole address space leaves both ends. -/
theorem remove_isDifference_whole :
    ∃ l, remove (range (BitVec.intMin 64) (BitVec.intMax 64)) (range 0 4095) =
        .ok l ∧
      IsDifference (range (BitVec.intMin 64) (BitVec.intMax 64)) (range 0 4095)
        l :=
  remove_isDifference (by decide) (by decide)

end Remove

end Fuzzball.IntervalTree
