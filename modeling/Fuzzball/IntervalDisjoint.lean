import Fuzzball.IntervalTree

/-!
# The keys of the interval maps stay disjoint

Allocations and deallocations keep the keys disjoint.  A write does too where
at most one stored range, other than the one it is merged with, meets it: the
merged range then replaces that one.
-/

namespace Fuzzball.IntervalTree

/-! ## Intervals on the line -/

def Interval.Valid (i : Interval) : Prop := i.low.toInt ≤ i.high.toInt

instance (i : Interval) : Decidable i.Valid :=
  inferInstanceAs (Decidable (i.low.toInt ≤ i.high.toInt))

section Compare

variable {i1 i2 : Interval} (h1 : i1.Valid) (h2 : i2.Valid)

include h1 h2

theorem intersects_iff :
    intersects i1 i2 = true ↔
      i1.low.toInt ≤ i2.high.toInt ∧ i2.low.toInt ≤ i1.high.toInt := by
  unfold Interval.Valid at h1 h2
  simp only [intersects, BitVec.sle_eq_decide, Bool.or_eq_true, Bool.and_eq_true,
    decide_eq_true_eq]
  omega

theorem compare_eq_iff :
    compare i1 i2 = .eq ↔
      i1.low.toInt ≤ i2.high.toInt ∧ i2.low.toInt ≤ i1.high.toInt := by
  rw [← intersects_iff h1 h2, compare]
  split_ifs with h <;> simp [h]

theorem compare_lt_iff :
    compare i1 i2 = .lt ↔ i1.high.toInt < i2.low.toInt := by
  have hiff := intersects_iff h1 h2
  unfold Interval.Valid at h1 h2
  rw [compare]
  by_cases hmeet : intersects i1 i2 = true
  · rw [if_pos hmeet]
    have := hiff.mp hmeet
    simp
    omega
  · rw [if_neg hmeet, BitVec.slt_eq_decide]
    rw [hiff] at hmeet
    by_cases hlow : i1.low.toInt < i2.low.toInt
    · simp [hlow]
      omega
    · simp [hlow]
      omega

theorem compare_gt_iff :
    compare i1 i2 = .gt ↔ i2.high.toInt < i1.low.toInt := by
  have heq := compare_eq_iff h1 h2
  have hlt := compare_lt_iff h1 h2
  unfold Interval.Valid at h1 h2
  cases hc : compare i1 i2 <;> simp [hc] at heq hlt ⊢ <;> omega

end Compare

/-- Valid intervals that are pairwise disjoint. -/
structure KeysDisjoint (keys : List Interval) : Prop where
  valid : ∀ k ∈ keys, k.Valid
  disjoint : keys.Pairwise fun a b => intersects a b = false

/-- Valid intervals from left to right. -/
structure Ordered (keys : List Interval) : Prop where
  valid : ∀ k ∈ keys, k.Valid
  before : keys.Pairwise fun a b => a.high.toInt < b.low.toInt

theorem Ordered.sublist
    {keys keys' : List Interval} (h : Ordered keys) (hs : keys'.Sublist keys) :
    Ordered keys' :=
  ⟨fun k hk => h.valid k (hs.subset hk), h.before.sublist hs⟩

theorem Ordered.keysDisjoint {keys : List Interval} (h : Ordered keys) :
    KeysDisjoint keys := by
  refine ⟨h.valid, ?_⟩
  apply h.before.imp_of_mem
  intro a b ha hb hlt
  have hiff := intersects_iff (h.valid a ha) (h.valid b hb)
  rw [← Bool.not_eq_true, hiff]
  omega

/-- The comparison is a total order on the intervals: antisymmetric, equal on
equal intervals only, and transitive. -/
def CompareTotalOrder (keys : List Interval) : Prop :=
  ∀ a ∈ keys, ∀ b ∈ keys, compare b a = (compare a b).swap ∧
    (compare a b = .eq → a = b) ∧
    ∀ c ∈ keys, compare a b = .lt → compare b c = .lt → compare a c = .lt

theorem KeysDisjoint.totalOrder
    {keys : List Interval} (h : KeysDisjoint keys) : CompareTotalOrder keys := by
  intro a ha b hb
  have hva := h.valid a ha
  have hvb := h.valid b hb
  refine ⟨?_, ?_, ?_⟩
  · cases hc : compare a b with
    | eq =>
      rw [compare_eq_iff hva hvb] at hc
      exact (compare_eq_iff hvb hva).mpr hc.symm
    | lt =>
      rw [compare_lt_iff hva hvb] at hc
      exact (compare_gt_iff hvb hva).mpr hc
    | gt =>
      rw [compare_gt_iff hva hvb] at hc
      exact (compare_lt_iff hvb hva).mpr hc
  · intro hc
    rw [compare_eq_iff hva hvb] at hc
    obtain ⟨i, hi, rfl⟩ := List.getElem_of_mem ha
    obtain ⟨j, hj, rfl⟩ := List.getElem_of_mem hb
    have hdisjoint := List.pairwise_iff_getElem.mp h.disjoint
    rcases lt_trichotomy i j with hij | rfl | hij
    · have hne := hdisjoint i j hi hj hij
      rw [← Bool.not_eq_true, intersects_iff hva hvb] at hne
      exact absurd hc hne
    · rfl
    · have hne := hdisjoint j i hj hi hij
      rw [← Bool.not_eq_true, intersects_iff hvb hva] at hne
      exact absurd hc.symm hne
  · intro c hc hab hbc
    have hvc := h.valid c hc
    rw [compare_lt_iff hva hvb] at hab
    rw [compare_lt_iff hvb hvc] at hbc
    unfold Interval.Valid at hvb
    exact (compare_lt_iff hva hvc).mpr (by omega)

/-! ## Searches in ordered maps -/

variable {δ : Type}

theorem Ordered.cut
    {m : IntervalMap δ} (h : Ordered m.keys) {x : Interval} (hx : x.Valid) :
    AvlMap.Cut compare x m.bindings := by
  have hbefore := List.pairwise_map.mp h.before
  apply hbefore.imp_of_mem
  intro a b ha hb hlt
  have hva : a.1.Valid := h.valid _ (List.mem_map_of_mem ha)
  have hvb : b.1.Valid := h.valid _ (List.mem_map_of_mem hb)
  rw [compare_gt_iff hx hva, compare_gt_iff hx hvb, compare_lt_iff hx hva,
    compare_lt_iff hx hvb]
  unfold Interval.Valid at hva hvb
  omega

theorem keys_eq_of_bindings
    {m : IntervalMap δ} {l : List (Interval × δ)} (h : m.bindings = l) :
    m.keys = l.map Prod.fst := by
  rw [AvlMap.keys, h]

/-- The stored intervals that an interval meets. -/
def met (keys : List Interval) (x : Interval) : List Interval :=
  keys.filter (intersects x)

theorem Ordered.insert
    {k1 k2 : List Interval} (h : Ordered (k1 ++ k2)) {x : Interval}
    (hx : x.Valid) (hleft : ∀ k ∈ k1, k.high.toInt < x.low.toInt)
    (hright : ∀ k ∈ k2, x.high.toInt < k.low.toInt) :
    Ordered (k1 ++ x :: k2) := by
  obtain ⟨hvalid, hbefore⟩ := h
  rw [List.pairwise_append] at hbefore
  obtain ⟨h1, h2, h12⟩ := hbefore
  constructor
  · intro k hk
    rw [List.mem_append, List.mem_cons] at hk
    rcases hk with hk | rfl | hk
    · exact hvalid k (List.mem_append_left _ hk)
    · exact hx
    · exact hvalid k (List.mem_append_right _ hk)
  · rw [List.pairwise_append, List.pairwise_cons]
    refine ⟨h1, ⟨hright, h2⟩, ?_⟩
    intro a ha b hb
    rcases List.mem_cons.mp hb with rfl | hb
    · exact hleft a ha
    · exact h12 a ha b hb

/-- If an interval meets only one of ordered intervals, the others lie on the
sides of it where they lie of that one. -/
theorem Ordered.replace
    {k1 k2 : List Interval} {k x : Interval} (h : Ordered (k1 ++ k :: k2))
    (hx : x.Valid) (hmeets : intersects x k = true)
    (hone : (met (k1 ++ k :: k2) x).length ≤ 1) : Ordered (k1 ++ x :: k2) := by
  have hk : k.Valid := h.valid k (by simp)
  have hbefore := h.before
  rw [List.pairwise_append, List.pairwise_cons] at hbefore
  obtain ⟨-, ⟨hk2, -⟩, hk1⟩ := hbefore
  rw [met, List.filter_append, List.filter_cons_of_pos hmeets,
    List.length_append, List.length_cons] at hone
  have hnone1 : k1.filter (intersects x) = [] :=
    List.length_eq_zero_iff.mp (by omega)
  have hnone2 : k2.filter (intersects x) = [] :=
    List.length_eq_zero_iff.mp (by omega)
  rw [List.filter_eq_nil_iff] at hnone1 hnone2
  rw [intersects_iff hx hk] at hmeets
  have hsub : Ordered (k1 ++ k2) :=
    h.sublist ((List.sublist_cons_self k k2).append_left k1)
  apply hsub.insert hx
  · intro a ha
    have hva : a.Valid := h.valid a (List.mem_append_left _ ha)
    have hnot := hnone1 a ha
    have hlt := hk1 a ha k (by simp)
    rw [intersects_iff hx hva] at hnot
    unfold Interval.Valid at hva
    omega
  · intro a ha
    have hva : a.Valid := h.valid a (by simp [ha])
    have hnot := hnone2 a ha
    have hlt := hk2 a ha
    rw [intersects_iff hx hva] at hnot
    unfold Interval.Valid at hva
    omega

/-- An addition keeps the order where the new interval meets at most one of
those that are stored. -/
theorem add_ordered
    {m : IntervalMap δ} (h : Ordered m.keys) {x : Interval} (hx : x.Valid)
    (hone : (met m.keys x).length ≤ 1) (d : δ) :
    Ordered (m.add compare x d).keys := by
  cases hf : AvlMap.findBinding compare x m with
  | none =>
    obtain ⟨l1, l2, hbind, hgt, hlt, hadd⟩ :=
      AvlMap.findBinding_none_of_cut (h.cut hx) hf
    rw [keys_eq_of_bindings hbind, List.map_append] at h
    rw [keys_eq_of_bindings (hadd d), List.map_append, List.map_cons]
    apply h.insert hx
    · intro k hk
      obtain ⟨b, hb, rfl⟩ := List.mem_map.mp hk
      have hvb := h.valid b.1 (List.mem_append_left _ hk)
      exact (compare_gt_iff hx hvb).mp (hgt b hb)
    · intro k hk
      obtain ⟨b, hb, rfl⟩ := List.mem_map.mp hk
      have hvb := h.valid b.1 (List.mem_append_right _ hk)
      exact (compare_lt_iff hx hvb).mp (hlt b hb)
  | some b =>
    obtain ⟨k, d0⟩ := b
    obtain ⟨heq, l1, l2, hbind, -, hadd⟩ := AvlMap.findBinding_some compare x hf
    rw [keys_eq_of_bindings hbind, List.map_append, List.map_cons] at h hone
    rw [keys_eq_of_bindings (hadd d), List.map_append, List.map_cons]
    have hk : k.Valid := h.valid k (by simp)
    rw [compare_eq_iff hx hk, ← intersects_iff hx hk] at heq
    exact h.replace hx heq hone

theorem intersects_comm {i1 i2 : Interval} (h1 : i1.Valid) (h2 : i2.Valid) :
    intersects i1 i2 = intersects i2 i1 := by
  rw [Bool.eq_iff_iff, intersects_iff h1 h2, intersects_iff h2 h1]
  exact and_comm

/-- Where it meets two stored intervals or more, one of those that it does not
replace overlaps it afterwards. -/
theorem add_not_disjoint
    {m : IntervalMap δ} (h : Ordered m.keys) {x : Interval} (hx : x.Valid)
    (hmany : 2 ≤ (met m.keys x).length) (d : δ) :
    ¬ KeysDisjoint (m.add compare x d).keys := by
  intro hdisjoint
  cases hf : AvlMap.findBinding compare x m with
  | none =>
    have hnone := (AvlMap.findBinding_eq_none_iff (h.cut hx)).mp hf
    have hmet : met m.keys x = [] := by
      rw [met, List.filter_eq_nil_iff]
      intro k hk
      obtain ⟨b, hb, rfl⟩ := List.mem_map.mp hk
      rw [intersects_iff hx (h.valid _ hk), ← compare_eq_iff hx (h.valid _ hk)]
      exact hnone b hb
    simp [hmet] at hmany
  | some b =>
    obtain ⟨k, d0⟩ := b
    obtain ⟨-, l1, l2, hbind, -, hadd⟩ := AvlMap.findBinding_some compare x hf
    rw [keys_eq_of_bindings hbind, List.map_append, List.map_cons, met,
      List.filter_append, List.length_append, List.filter_cons] at hmany
    rw [keys_eq_of_bindings (hadd d), List.map_append, List.map_cons] at hdisjoint
    have hpairs := hdisjoint.disjoint
    rw [List.pairwise_append, List.pairwise_cons] at hpairs
    obtain ⟨-, ⟨hright, -⟩, hleft⟩ := hpairs
    have hnone1 : (l1.map Prod.fst).filter (intersects x) = [] := by
      rw [List.filter_eq_nil_iff]
      intro a ha
      rw [intersects_comm hx (hdisjoint.valid a (List.mem_append_left _ ha)),
        hleft a ha x (by simp)]
      simp
    have hnone2 : (l2.map Prod.fst).filter (intersects x) = [] := by
      rw [List.filter_eq_nil_iff]
      intro a ha
      rw [hright a ha]
      simp
    rw [hnone1, hnone2] at hmany
    split_ifs at hmany <;> simp at hmany

/-! ## Removals -/

theorem removeAll_sublist (m : IntervalMap δ) (x : Interval) :
    (removeAll m x).keys.Sublist m.keys := by
  fun_induction removeAll m x with
  | case1 m m' hcard => exact List.Sublist.refl _
  | case2 m m' hcard ih =>
    exact ih.trans ((AvlMap.bindings_remove_sublist compare x m).map Prod.fst)

/-- `remove_all` leaves the keys that the interval does not meet. -/
theorem removeAll_keys
    {m : IntervalMap δ} (h : Ordered m.keys) {x : Interval} (hx : x.Valid) :
    (removeAll m x).keys = m.keys.filter fun k => !intersects x k := by
  fun_induction removeAll m x with
  | case1 m m' hcard =>
    cases hf : AvlMap.findBinding compare x m with
    | none =>
      have hnone := (AvlMap.findBinding_eq_none_iff (h.cut hx)).mp hf
      symm
      rw [List.filter_eq_self]
      intro k hk
      obtain ⟨b, hb, rfl⟩ := List.mem_map.mp hk
      have hmeet := hnone b hb
      rw [Ne, compare_eq_iff hx (h.valid _ hk), ← intersects_iff hx (h.valid _ hk)]
        at hmeet
      simpa using hmeet
    | some b =>
      have hless := AvlMap.cardinal_remove_of_some compare x hf
      have hcard : (m.remove compare x).cardinal = m.cardinal := hcard
      omega
  | case2 m m' hcard ih =>
    cases hf : AvlMap.findBinding compare x m with
    | none =>
      have hsame := AvlMap.cardinal_remove_of_none compare x hf
      exact absurd hsame hcard
    | some b =>
      obtain ⟨k, d⟩ := b
      obtain ⟨heq, l1, l2, hbind, hrem, -⟩ := AvlMap.findBinding_some compare x hf
      rw [ih (h.sublist ((AvlMap.bindings_remove_sublist compare x m).map
        Prod.fst)), keys_eq_of_bindings hrem, keys_eq_of_bindings hbind]
      have hk : k.Valid := by
        apply h.valid
        rw [keys_eq_of_bindings hbind]
        simp
      rw [compare_eq_iff hx hk, ← intersects_iff hx hk] at heq
      simp [List.filter_append, heq]

/-! ## The range a write is merged with -/

theorem toInt_pred {a : I64} (h : a ≠ BitVec.intMin 64) :
    (a - 1).toInt = a.toInt - 1 := by
  have hlow := BitVec.le_toInt a
  have hne : a.toInt ≠ -2 ^ 63 := by
    intro heq
    apply h
    apply BitVec.eq_of_toInt_eq
    rw [heq]
    rfl
  rw [BitVec.toInt_sub]
  have hone : (1 : I64).toInt = 1 := rfl
  have hhigh := BitVec.toInt_lt (x := a)
  rw [hone]
  apply Int.bmod_eq_of_le <;> omega

theorem toInt_succ {a : I64} (h : a ≠ BitVec.intMax 64) :
    (a + 1).toInt = a.toInt + 1 := by
  have hlow := BitVec.le_toInt a
  have hhigh := BitVec.toInt_lt (x := a)
  have hne : a.toInt ≠ 2 ^ 63 - 1 := by
    intro heq
    apply h
    apply BitVec.eq_of_toInt_eq
    rw [heq]
    rfl
  rw [BitVec.toInt_add]
  have hone : (1 : I64).toInt = 1 := rfl
  rw [hone]
  apply Int.bmod_eq_of_le <;> omega

theorem mergeRange_low (r : Interval) :
    (mergeRange r).low.toInt ≤ r.low.toInt ∧
      r.low.toInt ≤ (mergeRange r).low.toInt + 1 := by
  by_cases hrem : r.low.srem 4096 = 0
  · have hlow : (mergeRange r).low = r.low := if_pos hrem
    rw [hlow]
    omega
  · have hlow : (mergeRange r).low = r.low - 1 := if_neg hrem
    have hne : r.low ≠ BitVec.intMin 64 := by
      intro heq
      apply hrem
      rw [heq]
      decide
    rw [hlow, toInt_pred hne]
    omega

theorem mergeRange_high (r : Interval) :
    r.high.toInt ≤ (mergeRange r).high.toInt ∧
      (mergeRange r).high.toInt ≤ r.high.toInt + 1 := by
  by_cases hrem : r.high.srem 4096 = 0xfff
  · have hhigh : (mergeRange r).high = r.high := if_pos hrem
    rw [hhigh]
    omega
  · have hhigh : (mergeRange r).high = r.high + 1 := if_neg hrem
    have hne : r.high ≠ BitVec.intMax 64 := by
      intro heq
      apply hrem
      rw [heq]
      decide
    rw [hhigh, toInt_succ hne]
    omega

theorem mergeRange_valid {r : Interval} (hr : r.Valid) : (mergeRange r).Valid := by
  have hlow := mergeRange_low r
  have hhigh := mergeRange_high r
  unfold Interval.Valid at hr ⊢
  omega

/-! ## Merging -/

theorem toInt_minLow (a b : I64) : (minLow a b).toInt = min a.toInt b.toInt := by
  rw [minLow, BitVec.sle_eq_decide]
  by_cases h : a.toInt ≤ b.toInt
  · rw [if_pos (by simpa using h), min_eq_left h]
  · rw [if_neg (by simpa using h), min_eq_right (by omega)]

theorem toInt_maxHigh (a b : I64) : (maxHigh a b).toInt = max a.toInt b.toInt := by
  rw [maxHigh, BitVec.sle_eq_decide]
  by_cases h : b.toInt ≤ a.toInt
  · rw [if_pos (by simpa using h), max_eq_left h]
  · rw [if_neg (by simpa using h), max_eq_right (by omega)]

theorem safeMerge_ok
    {i1 i2 r : Interval} (h : safeMerge i1 i2 = .ok r) :
    r.low.toInt = min i1.low.toInt i2.low.toInt ∧
      r.high.toInt = max i1.high.toInt i2.high.toInt := by
  unfold safeMerge makeIntervalWcheck at h
  split_ifs at h with hle
  · simp only [bind, Except.bind] at h
    split_ifs at h with hassert
    · obtain rfl := Except.ok.inj h
      exact ⟨toInt_minLow _ _, toInt_maxHigh _ _⟩
  · simp [bind, Except.bind] at h

/-! ## Recording a write -/

/-- The map of written ranges stores every range under itself. -/
structure IoOrdered (ioMap : IntervalMap Interval) : Prop where
  ordered : Ordered ioMap.keys
  self : ∀ b ∈ ioMap.bindings, b.2 = b.1

/-- At most one stored range, other than the one that the written range is
merged with, meets the written range. -/
def MeetsOneOther (ioMap : IntervalMap Interval) (r : Interval) : Prop :=
  ∀ w ∈ optionalFind ioMap (mergeRange r),
    ((met ioMap.keys r).filter fun k => k ≠ w).length ≤ 1

theorem removeAll_bindings_subset
    (m : IntervalMap δ) (x : Interval) {b : Interval × δ}
    (hb : b ∈ (removeAll m x).bindings) : b ∈ m.bindings := by
  fun_induction removeAll m x with
  | case1 m m' hcard => exact hb
  | case2 m m' hcard ih =>
    exact (AvlMap.bindings_remove_sublist compare x m).subset (ih hb)

theorem optionalFind_none
    {m : IntervalMap δ} (h : Ordered m.keys) {x : Interval} (hx : x.Valid)
    (hf : optionalFind m x = none) : met m.keys x = [] := by
  rw [optionalFind, AvlMap.find_eq_none_iff,
    AvlMap.findBinding_eq_none_iff (h.cut hx)] at hf
  rw [met, List.filter_eq_nil_iff]
  intro k hk
  obtain ⟨b, hb, rfl⟩ := List.mem_map.mp hk
  rw [intersects_iff hx (h.valid _ hk), ← compare_eq_iff hx (h.valid _ hk)]
  exact hf b hb

theorem optionalFind_io_some
    {io : IntervalMap Interval} (h : IoOrdered io) {x w : Interval}
    (hx : x.Valid) (hf : optionalFind io x = some w) :
    w ∈ io.keys ∧ w.Valid ∧ x.low.toInt ≤ w.high.toInt ∧
      w.low.toInt ≤ x.high.toInt := by
  rw [optionalFind, AvlMap.find_eq_some_iff] at hf
  obtain ⟨k, hk⟩ := hf
  have hmem := AvlMap.findBinding_mem compare x hk
  obtain rfl : w = k := h.self _ hmem
  have hkey : w ∈ io.keys := List.mem_map_of_mem hmem
  have hw := h.ordered.valid w hkey
  exact ⟨hkey, hw, (compare_eq_iff hx hw).mp
    (AvlMap.findBinding_some compare x hk).1⟩

/-- Of the ranges left after the removal of `w`, the merged range meets those
that the written range meets. -/
theorem met_merged
    {io : IntervalMap Interval} (h : IoOrdered io) {r w : Interval}
    (hr : r.Valid) (hf : optionalFind io (mergeRange r) = some w)
    {merged : Interval} (hmerged : merged.Valid)
    (hlow : merged.low.toInt = min w.low.toInt r.low.toInt)
    (hhigh : merged.high.toInt = max w.high.toInt r.high.toInt) :
    met (removeAll io w).keys merged = (met io.keys r).filter fun k => k ≠ w := by
  obtain ⟨hkey, hw, hleft, hright⟩ :=
    optionalFind_io_some h (mergeRange_valid hr) hf
  have hml := mergeRange_low r
  have hmh := mergeRange_high r
  rw [met, met, removeAll_keys h.ordered hw, List.filter_filter,
    List.filter_filter]
  apply List.filter_congr
  intro k hk
  have hvk := h.ordered.valid k hk
  by_cases hkw : k = w
  · subst hkw
    have hself : intersects k k = true := (intersects_iff hw hw).mpr ⟨hw, hw⟩
    simp [hself]
  · have hapart : intersects w k = false := by
      rw [← Bool.not_eq_true, intersects_iff hw hvk, ← compare_eq_iff hw hvk]
      intro heq
      exact hkw ((h.ordered.keysDisjoint.totalOrder w hkey k hk).2.1 heq).symm
    have hdisjoint := hapart
    rw [← Bool.not_eq_true, intersects_iff hw hvk] at hdisjoint
    have hiff : intersects merged k = intersects r k := by
      rw [Bool.eq_iff_iff, intersects_iff hmerged hvk, intersects_iff hr hvk,
        hlow, hhigh]
      unfold Interval.Valid at hr hw hvk
      omega
    simp [hapart, hiff, hkw]

/-- What a recorded write adds to which map. -/
theorem recordWrite_spec
    {io io' : IntervalMap Interval} (h : IoOrdered io) {r r' : Interval}
    (hr : r.Valid) (hwrite : recordWrite io r = .ok (r', io')) :
    r'.Valid ∧ ∃ base : IntervalMap Interval, io' = base.add compare r' r' ∧
      IoOrdered base ∧
        ((met base.keys r').length ≤ 1 ↔ MeetsOneOther io r) := by
  unfold recordWrite at hwrite
  cases hf : optionalFind io (mergeRange r) with
  | none =>
    rw [hf] at hwrite
    obtain ⟨rfl, rfl⟩ : { r with accessed := 1 } = r' ∧ _ = io' := by
      simpa using hwrite
    refine ⟨hr, io, rfl, h, ?_⟩
    have hmerge := optionalFind_none h.ordered (mergeRange_valid hr) hf
    have hmet : met io.keys { r with accessed := 1 } = [] := by
      rw [met, List.filter_eq_nil_iff] at hmerge ⊢
      intro k hk hmeet
      have hvk := h.ordered.valid k hk
      have hrange : ({ r with accessed := 1 } : Interval).Valid := hr
      rw [intersects_iff hrange hvk] at hmeet
      dsimp only at hmeet
      have hml := mergeRange_low r
      have hmh := mergeRange_high r
      apply hmerge k hk
      rw [intersects_iff (mergeRange_valid hr) hvk]
      omega
    simp [hmet, MeetsOneOther, hf]
  | some w =>
    rw [hf] at hwrite
    cases hm : safeMerge w r with
    | error x => simp [hm, bind, Except.bind] at hwrite
    | ok merged =>
      obtain ⟨hlow, hhigh⟩ := safeMerge_ok hm
      obtain ⟨-, hw, -, -⟩ := optionalFind_io_some h (mergeRange_valid hr) hf
      simp only [hm, bind, Except.bind, Except.ok.injEq, Prod.mk.injEq] at hwrite
      obtain ⟨rfl, rfl⟩ := hwrite
      have hvalid : ({ merged with
          provenance := r.provenance
          accessed := w.accessed + 1 } : Interval).Valid := by
        unfold Interval.Valid at hr ⊢
        simp only [hlow, hhigh]
        omega
      refine ⟨hvalid, removeAll io w, rfl,
        ⟨h.ordered.sublist (removeAll_sublist io w),
          fun b hb => h.self b (removeAll_bindings_subset io w hb)⟩, ?_⟩
      rw [met_merged h hr hf hvalid hlow hhigh]
      simp [MeetsOneOther, hf]

theorem recordWrite_ordered
    {io io' : IntervalMap Interval} (h : IoOrdered io) {r r' : Interval}
    (hr : r.Valid) (hone : MeetsOneOther io r)
    (hwrite : recordWrite io r = .ok (r', io')) : IoOrdered io' := by
  obtain ⟨hr', base, rfl, hbase, hiff⟩ := recordWrite_spec h hr hwrite
  refine ⟨add_ordered hbase.ordered hr' (hiff.mpr hone) r', ?_⟩
  intro b hb
  rcases AvlMap.mem_bindings_add compare r' hb with rfl | hb
  · rfl
  · exact hbase.self b hb

/-- A recorded write keeps the keys disjoint just where at most one stored
range other than the one it is merged with meets it. -/
theorem recordWrite_keysDisjoint_iff
    {io io' : IntervalMap Interval} (h : IoOrdered io) {r r' : Interval}
    (hr : r.Valid) (hwrite : recordWrite io r = .ok (r', io')) :
    KeysDisjoint io'.keys ↔ MeetsOneOther io r := by
  constructor
  · intro hdisjoint
    obtain ⟨hr', base, rfl, hbase, hiff⟩ := recordWrite_spec h hr hwrite
    rw [← hiff]
    by_contra hmany
    exact add_not_disjoint hbase.ordered hr' (by omega) r' hdisjoint
  · intro hone
    exact (recordWrite_ordered h hr hone hwrite).ordered.keysDisjoint

/-- The range lies in one that is allocated. -/
def AllowsWrite (alloc : IntervalMap Element) (r : Interval) : Prop :=
  ∃ e, optionalFind alloc r = some e ∧ e.status = .allocate ∧
    isIn e.key r = true

theorem writePage_ok
    {alloc : IntervalMap Element} {io : IntervalMap Interval} {r : Interval}
    {res : Interval × IntervalMap Interval} (h : writePage alloc io r = .ok res) :
    AllowsWrite alloc r ∧ recordWrite io r = .ok res := by
  unfold writePage at h
  split at h
  · simp at h
  · rename_i e hfind
    split at h
    · simp at h
    · rename_i hstatus
      split_ifs at h with hin
      exact ⟨⟨e, hfind, hstatus, hin⟩, h⟩

/-! ## Writes on several pages -/

theorem tmod_eq (a : ℤ) :
    a.tmod 4096 = if 0 ≤ a ∨ 4096 ∣ a then a % 4096 else a % 4096 - 4096 := by
  rw [Int.tmod_eq_emod]
  split_ifs <;> simp

theorem tdiv_eq (a : ℤ) :
    a.tdiv 4096 = if 0 ≤ a ∨ 4096 ∣ a then a / 4096 else a / 4096 + 1 := by
  rw [Int.tdiv_eq_ediv]
  split_ifs <;> simp

theorem toInt_pageStart (a : I64) :
    (a - a.srem pageSize).toInt = a.toInt - a.toInt.tmod 4096 := by
  have hsize : pageSize.toInt = 4096 := rfl
  have hlow := BitVec.le_toInt a
  have hhigh := BitVec.toInt_lt (x := a)
  rw [BitVec.toInt_sub, BitVec.toInt_srem, hsize]
  have hmod := tmod_eq a.toInt
  apply Int.bmod_eq_of_le <;> split_ifs at hmod <;> omega

theorem toInt_page (a : I64) : (page a).toInt = a.toInt.tdiv 4096 := by
  have hsize : pageSize.toInt = 4096 := rfl
  rw [page, BitVec.toInt_sdiv_of_ne_or_ne, hsize]
  right
  decide

/-- The last address before the page of the last address of a range. -/
theorem toInt_lowRange_high
    {r : Interval} (hpage : r.low.toInt.tdiv 4096 < r.high.toInt.tdiv 4096) :
    (lowRange r).high.toInt = r.high.toInt - r.high.toInt.tmod 4096 - 1 := by
  have hstart := toInt_pageStart r.high
  have hlow := BitVec.le_toInt r.low
  have hmod := tmod_eq r.high.toInt
  rw [tdiv_eq, tdiv_eq] at hpage
  have hne : r.high - r.high.srem pageSize ≠ BitVec.intMin 64 := by
    intro heq
    rw [heq] at hstart
    have hmin : (BitVec.intMin 64).toInt = -2 ^ 63 := rfl
    split_ifs at hmod hpage <;> omega
  rw [← hstart]
  exact toInt_pred hne

theorem lowRange_valid
    {r : Interval} (hpage : r.low.toInt.tdiv 4096 < r.high.toInt.tdiv 4096) :
    (lowRange r).Valid := by
  have hhigh := toInt_lowRange_high hpage
  have hlow : (lowRange r).low = r.low := rfl
  have hmod := tmod_eq r.high.toInt
  rw [tdiv_eq, tdiv_eq] at hpage
  rw [Interval.Valid, hhigh, hlow]
  split_ifs at hmod hpage <;> omega

theorem highRange_valid {r : Interval} (hhigh : 0 ≤ r.high.toInt) :
    (highRange r).Valid := by
  have hlow : (highRange r).low.toInt = _ := toInt_pageStart r.high
  have hsame : (highRange r).high = r.high := rfl
  have hmod := tmod_eq r.high.toInt
  rw [Interval.Valid, hlow, hsame]
  split_ifs at hmod <;> omega

/-- Division rounds towards zero, so below the second page the last address
before a page is still on it, and the cut does not get smaller. -/
theorem lowRange_same_page
    {r : Interval} (hpage : r.low.toInt.tdiv 4096 < r.high.toInt.tdiv 4096)
    (hhigh : r.high.toInt < 4096) :
    (lowRange r).high.toInt < 4096 ∧
      (lowRange r).high.toInt.tdiv 4096 = r.high.toInt.tdiv 4096 := by
  have heq := toInt_lowRange_high hpage
  have hmod := tmod_eq r.high.toInt
  rw [heq]
  rw [tdiv_eq] at hpage ⊢
  rw [tdiv_eq] at hpage ⊢
  split_ifs at hmod hpage ⊢ <;> omega

theorem attemptWrite_diverges
    (fuel : ℕ) {alloc : IntervalMap Element} {io : IntervalMap Interval}
    {r : Interval} (hpage : r.low.toInt.tdiv 4096 < r.high.toInt.tdiv 4096)
    (hhigh : r.high.toInt < 4096) (res : Interval × IntervalMap Interval) :
    attemptWrite fuel alloc io r ≠ .ok res := by
  induction fuel generalizing r res with
  | zero => simp [attemptWrite]
  | succ fuel ih =>
    obtain ⟨hhigh', hsame⟩ := lowRange_same_page hpage hhigh
    have hne : page r.low ≠ page r.high := by
      intro heq
      have := congrArg BitVec.toInt heq
      rw [toInt_page, toInt_page] at this
      omega
    have hlt : (page r.low).slt (page r.high) = true := by
      rw [BitVec.slt_eq_decide, toInt_page, toInt_page]
      exact decide_eq_true hpage
    rw [attemptWrite, if_neg hne, if_pos hlt]
    have hlow : (lowRange r).low = r.low := rfl
    cases hw : attemptWrite fuel alloc io (lowRange r) with
    | error x => simp [bind, Except.bind]
    | ok res' =>
      have hcut : (lowRange r).low.toInt.tdiv 4096 <
          (lowRange r).high.toInt.tdiv 4096 := by rw [hlow, hsame]; exact hpage
      exact absurd hw (ih hcut hhigh' res')

/-- A write that succeeds is recorded on one page, or is cut in two. -/
theorem attemptWrite_cases
    {fuel : ℕ} {alloc : IntervalMap Element} {io io' : IntervalMap Interval}
    {r r' : Interval} (hwrite : attemptWrite (fuel + 1) alloc io r = .ok (r', io')) :
    (page r.low = page r.high ∧ AllowsWrite alloc r ∧
        recordWrite io r = .ok (r', io')) ∨
      (page r.low ≠ page r.high ∧
        r.low.toInt.tdiv 4096 < r.high.toInt.tdiv 4096 ∧ 4096 ≤ r.high.toInt ∧
          ∃ w1 io1 w2, attemptWrite fuel alloc io (lowRange r) = .ok (w1, io1) ∧
            attemptWrite fuel alloc io1 (highRange r) = .ok (w2, io')) := by
  have hcall := hwrite
  rw [attemptWrite] at hwrite
  split_ifs at hwrite with hpage hlt
  · exact .inl ⟨hpage, writePage_ok hwrite⟩
  · rw [BitVec.slt_eq_decide, toInt_page, toInt_page, decide_eq_true_eq] at hlt
    have hhigh : 4096 ≤ r.high.toInt := by
      by_contra hsmall
      exact attemptWrite_diverges (fuel + 1) hlt (by omega) (r', io') hcall
    refine .inr ⟨hpage, hlt, hhigh, ?_⟩
    cases hw : attemptWrite fuel alloc io (lowRange r) with
    | error x => simp [hw, bind, Except.bind] at hwrite
    | ok res =>
      obtain ⟨w1, io1⟩ := res
      simp only [hw, bind, Except.bind] at hwrite
      cases hw2 : attemptWrite fuel alloc io1 (highRange r) with
      | error x => simp [hw2] at hwrite
      | ok res2 =>
        obtain ⟨w2, io2⟩ := res2
        simp only [hw2] at hwrite
        cases hm : safeMerge w1 w2 with
        | error x => simp [hm] at hwrite
        | ok merged =>
          simp only [hm, Except.ok.injEq, Prod.mk.injEq] at hwrite
          obtain ⟨-, rfl⟩ := hwrite
          exact ⟨w1, io1, w2, rfl, hw2⟩

/-! ## The condition on a write -/

/-- Each page of a write meets at most one stored range other than the one it
is merged with, in the map that it is written to. -/
def WriteMeetsOneOther (alloc : IntervalMap Element) :
    ℕ → IntervalMap Interval → Interval → Prop
  | 0, _, _ => True
  | fuel + 1, io, r =>
    if page r.low = page r.high then
      AllowsWrite alloc r → MeetsOneOther io r
    else
      WriteMeetsOneOther alloc fuel io (lowRange r) ∧
        ∀ w io', attemptWrite fuel alloc io (lowRange r) = .ok (w, io') →
          WriteMeetsOneOther alloc fuel io' (highRange r)

theorem attemptWrite_ordered
    (fuel : ℕ) {alloc : IntervalMap Element} {io io' : IntervalMap Interval}
    {r r' : Interval} (h : IoOrdered io) (hr : r.Valid)
    (hone : WriteMeetsOneOther alloc fuel io r)
    (hwrite : attemptWrite fuel alloc io r = .ok (r', io')) :
    IoOrdered io' := by
  induction fuel generalizing io io' r r' with
  | zero => simp [attemptWrite] at hwrite
  | succ fuel ih =>
    rw [WriteMeetsOneOther] at hone
    obtain ⟨hpage, hallowed, hrecord⟩ | ⟨hpage, hlt, hhigh, w1, io1, w2, hw1, hw2⟩ :=
      attemptWrite_cases hwrite
    · rw [if_pos hpage] at hone
      exact recordWrite_ordered h hr (hone hallowed) hrecord
    · rw [if_neg hpage] at hone
      have h1 := ih h (lowRange_valid hlt) hone.1 hw1
      exact ih h1 (highRange_valid (by omega)) (hone.2 w1 io1 hw1) hw2

/-! ## Allocation -/

/-- The allocation map stores with every range that range. -/
structure AllocOrdered (alloc : IntervalMap Element) : Prop where
  ordered : Ordered alloc.keys
  self : ∀ b ∈ alloc.bindings, b.2.key = b.1

theorem AllocOrdered.add
    {alloc : IntervalMap Element} (h : AllocOrdered alloc) {r : Interval}
    (hr : r.Valid) (hmet : met alloc.keys r = []) (status : ClaimStatus) :
    AllocOrdered (AvlMap.add compare r ⟨r, status⟩ alloc) := by
  refine ⟨add_ordered h.ordered hr (by rw [hmet]; simp) _, ?_⟩
  intro b hb
  rcases AvlMap.mem_bindings_add compare r hb with rfl | hb
  · rfl
  · exact h.self b hb

theorem AllocOrdered.removeAll
    {alloc : IntervalMap Element} (h : AllocOrdered alloc) (r : Interval) :
    AllocOrdered (removeAll alloc r) :=
  ⟨h.ordered.sublist (removeAll_sublist alloc r),
    fun b hb => h.self b (removeAll_bindings_subset alloc r hb)⟩

theorem IoOrdered.removeAll
    {io : IntervalMap Interval} (h : IoOrdered io) (r : Interval) :
    IoOrdered (removeAll io r) :=
  ⟨h.ordered.sublist (removeAll_sublist io r),
    fun b hb => h.self b (removeAll_bindings_subset io r hb)⟩

theorem attemptAllocate_ordered
    (fuel : ℕ) {alloc alloc' : IntervalMap Element} (h : AllocOrdered alloc)
    {r : Interval} (hr : r.Valid)
    (hok : attemptAllocate fuel alloc r = .ok alloc') : AllocOrdered alloc' := by
  induction fuel generalizing alloc with
  | zero => simp [attemptAllocate] at hok
  | succ fuel ih =>
    rw [attemptAllocate] at hok
    cases hf : optionalFind alloc r with
    | none =>
      rw [hf] at hok
      obtain rfl := Except.ok.inj hok
      exact h.add hr (optionalFind_none h.ordered hr hf) _
    | some collision =>
      rw [hf] at hok
      cases hs : collision.status with
      | allocate => simp [hs] at hok
      | deallocate =>
        simp only [hs] at hok
        have hsub := AvlMap.bindings_remove_sublist compare collision.key alloc
        exact ih ⟨h.ordered.sublist (hsub.map Prod.fst),
          fun b hb => h.self b (hsub.subset hb)⟩ hok

/-- The bounds of the range are those of a stored one, so it is valid. -/
theorem attemptDeallocate_ordered
    {alloc alloc' : IntervalMap Element} {io io' : IntervalMap Interval}
    (h : AllocOrdered alloc) (hio : IoOrdered io) {r : Interval}
    (hok : attemptDeallocate alloc io r = .ok (alloc', io')) :
    AllocOrdered alloc' ∧ IoOrdered io' := by
  unfold attemptDeallocate at hok
  split at hok
  · rename_i collision hfind
    split at hok
    · simp at hok
    · split_ifs at hok with hbounds
      obtain ⟨rfl, rfl⟩ : _ = alloc' ∧ _ = io' := by simpa using hok
      have hr : r.Valid := by
        rw [optionalFind, AvlMap.find_eq_some_iff] at hfind
        obtain ⟨k, hk⟩ := hfind
        have hmem := AvlMap.findBinding_mem compare r hk
        have hkey : collision.key = k := h.self _ hmem
        have hvalid := h.ordered.valid k (List.mem_map_of_mem hmem)
        rw [← hkey, Interval.Valid, hbounds.1, hbounds.2] at hvalid
        exact hvalid
      have hmet : met (removeAll alloc r).keys r = [] := by
        rw [met, removeAll_keys h.ordered hr, List.filter_filter,
          List.filter_eq_nil_iff]
        intro k hk
        simp
      exact ⟨(h.removeAll r).add hr hmet _, hio.removeAll r⟩
  · simp at hok

/-! ## Runs -/

structure Maps where
  alloc : IntervalMap Element
  io : IntervalMap Interval

def Maps.empty : Maps := ⟨.empty, .empty⟩

/-- The operations on the two maps, with the depth of their recursion. -/
inductive Op
  | allocate (fuel : ℕ) (r : Interval)
  | deallocate (r : Interval)
  | write (fuel : ℕ) (r : Interval)
  | removeAllAlloc (r : Interval)
  | removeAllIo (r : Interval)

/-- An operation that raises leaves the maps as they were. -/
def Maps.step (s : Maps) : Op → Maps
  | .allocate fuel r =>
    match attemptAllocate fuel s.alloc r with
    | .ok alloc => { s with alloc }
    | .error _ => s
  | .deallocate r =>
    match attemptDeallocate s.alloc s.io r with
    | .ok (alloc, io) => ⟨alloc, io⟩
    | .error _ => s
  | .write fuel r =>
    match attemptWrite fuel s.alloc s.io r with
    | .ok (_, io) => { s with io }
    | .error _ => s
  | .removeAllAlloc r => { s with alloc := removeAll s.alloc r }
  | .removeAllIo r => { s with io := removeAll s.io r }

/-- New ranges are valid, and no page of a write meets two stored ranges
besides the one it is merged with. -/
def Op.Meets (s : Maps) : Op → Prop
  | .allocate _ r => r.Valid
  | .write fuel r => r.Valid ∧ WriteMeetsOneOther s.alloc fuel s.io r
  | _ => True

/-- The states of runs from the empty maps whose steps all meet the
condition. -/
inductive Reachable : Maps → Prop
  | empty : Reachable Maps.empty
  | step {s : Maps} (op : Op) : Reachable s → op.Meets s → Reachable (s.step op)

theorem step_ordered
    {s : Maps} {op : Op} (halloc : AllocOrdered s.alloc) (hio : IoOrdered s.io)
    (hop : op.Meets s) :
    AllocOrdered (s.step op).alloc ∧ IoOrdered (s.step op).io := by
  cases op with
  | allocate fuel r =>
    rw [Maps.step]
    split
    · rename_i alloc hok
      exact ⟨attemptAllocate_ordered fuel halloc hop hok, hio⟩
    · exact ⟨halloc, hio⟩
  | deallocate r =>
    rw [Maps.step]
    split
    · rename_i alloc io hok
      exact attemptDeallocate_ordered halloc hio hok
    · exact ⟨halloc, hio⟩
  | write fuel r =>
    rw [Maps.step]
    split
    · rename_i w io hok
      exact ⟨halloc, attemptWrite_ordered fuel hio hop.1 hop.2 hok⟩
    · exact ⟨halloc, hio⟩
  | removeAllAlloc r => exact ⟨halloc.removeAll r, hio⟩
  | removeAllIo r => exact ⟨halloc, hio.removeAll r⟩

theorem Reachable.ordered {s : Maps} (h : Reachable s) :
    AllocOrdered s.alloc ∧ IoOrdered s.io := by
  induction h with
  | empty =>
    have hempty : Ordered [] := ⟨by simp, List.Pairwise.nil⟩
    exact ⟨⟨hempty, by simp [Maps.empty]⟩, ⟨hempty, by simp [Maps.empty]⟩⟩
  | step op _ hop ih => exact step_ordered ih.1 ih.2 hop

/-- In every run whose steps meet the condition, the keys of both maps are
valid and pairwise disjoint in every state, and the comparison is a total order
on them. -/
theorem reachable_keysDisjoint {s : Maps} (h : Reachable s) :
    (KeysDisjoint s.alloc.keys ∧ CompareTotalOrder s.alloc.keys) ∧
      KeysDisjoint s.io.keys ∧ CompareTotalOrder s.io.keys := by
  obtain ⟨halloc, hio⟩ := h.ordered
  have hdisjoint := halloc.ordered.keysDisjoint
  have hdisjoint' := hio.ordered.keysDisjoint
  exact ⟨⟨hdisjoint, hdisjoint.totalOrder⟩, hdisjoint', hdisjoint'.totalOrder⟩

/-! ### Four writes in one allocated range -/

/-- The addresses from `low` to `high`. -/
def range (low high : I64) : Interval := ⟨low, high, .internal, 0⟩

/-- An allocation, and two writes with a gap between them. -/
def twoWrites : Maps :=
  ((Maps.empty.step (.allocate 1 (range 0 100))).step
    (.write 1 (range 0 0))).step (.write 1 (range 2 2))

/-- A write within one page meets the condition where `MeetsOneOther` does. -/
theorem meets_write_of_page
    {s : Maps} {r : Interval} (hr : r.Valid)
    (hpage : page r.low = page r.high) (hone : MeetsOneOther s.io r) :
    (Op.write 1 r).Meets s := by
  refine ⟨hr, ?_⟩
  rw [WriteMeetsOneOther, if_pos hpage]
  exact fun _ => hone

instance (io : IntervalMap Interval) (r : Interval) :
    Decidable (MeetsOneOther io r) :=
  inferInstanceAs (Decidable (∀ w ∈ optionalFind io (mergeRange r),
    ((met io.keys r).filter fun k => k ≠ w).length ≤ 1))

theorem twoWrites_reachable : Reachable twoWrites := by
  have hrange : (range 0 100).Valid := by decide
  have halloc := Reachable.empty.step (.allocate 1 (range 0 100)) hrange
  have hfirst := halloc.step (.write 1 (range 0 0))
    (meets_write_of_page (by decide) (by decide) (by decide +kernel))
  exact hfirst.step (.write 1 (range 2 2))
    (meets_write_of_page (by decide) (by decide) (by decide +kernel))

/-- A write over both of two ranges with a gap between them. -/
theorem reachable_keysDisjoint_overTwo :
    (KeysDisjoint (twoWrites.step (.write 1 (range 0 3))).alloc.keys ∧
        CompareTotalOrder (twoWrites.step (.write 1 (range 0 3))).alloc.keys) ∧
      KeysDisjoint (twoWrites.step (.write 1 (range 0 3))).io.keys ∧
        CompareTotalOrder (twoWrites.step (.write 1 (range 0 3))).io.keys :=
  reachable_keysDisjoint (twoWrites_reachable.step (.write 1 (range 0 3))
    (meets_write_of_page (by decide) (by decide) (by decide +kernel)))

/-- A write over three ranges with gaps between them: it is merged with the
first, replaces the second and overlaps the third. -/
theorem write_overThree_overlaps :
    let s := (twoWrites.step (.write 1 (range 4 4))).step (.write 1 (range 0 4))
    s.io.keys.map (fun k => (k.low, k.high)) = [(0, 4), (4, 4)] ∧
      ¬ KeysDisjoint s.io.keys := by
  refine ⟨by decide +kernel, fun h => ?_⟩
  have hoverlap : ¬ ((twoWrites.step (.write 1 (range 4 4))).step
      (.write 1 (range 0 4))).io.keys.Pairwise
        fun a b => intersects a b = false := by
    decide +kernel
  exact hoverlap h.disjoint

end Fuzzball.IntervalTree
