import Fuzzball.IntervalDisjoint

/-!
# The addresses recorded as written

A write is recorded under the hull of its range and of one stored range.  The
new entry takes the place of one more stored range that it meets, so the
addresses of that range outside of the new entry are forgotten.
-/

namespace Fuzzball.IntervalTree

variable {δ : Type}

def Interval.Contains (i : Interval) (a : I64) : Prop :=
  i.low.toInt ≤ a.toInt ∧ a.toInt ≤ i.high.toInt

instance (i : Interval) (a : I64) : Decidable (i.Contains a) :=
  inferInstanceAs (Decidable (_ ∧ _))

/-- The addresses that an interval map covers. -/
def Written (ioMap : IntervalMap δ) (a : I64) : Prop :=
  ∃ k ∈ ioMap.keys, k.Contains a

instance (ioMap : IntervalMap δ) (a : I64) : Decidable (Written ioMap a) :=
  inferInstanceAs (Decidable (∃ k ∈ ioMap.keys, k.Contains a))

/-! ## The entry of a write -/

/-- The least range over a stored range and a written one. -/
def hull (write attempted : Interval) : Interval where
  low := minLow write.low attempted.low
  high := maxHigh write.high attempted.high
  provenance := attempted.provenance
  accessed := write.accessed + 1

/-- The entry that a write is recorded under. -/
def recorded (ioMap : IntervalMap Interval) (attempted : Interval) : Interval :=
  match optionalFind ioMap (mergeRange attempted) with
  | none => { attempted with accessed := 1 }
  | some write => hull write attempted

/-- The map that the entry is added to. -/
def recordBase (ioMap : IntervalMap Interval) (attempted : Interval) :
    IntervalMap Interval :=
  match optionalFind ioMap (mergeRange attempted) with
  | none => ioMap
  | some write => removeAll ioMap write

/-- The entries that stay when a write is recorded. -/
def recordKept (ioMap : IntervalMap Interval) (attempted : Interval) :
    IntervalMap Interval :=
  (recordBase ioMap attempted).remove compare (recorded ioMap attempted)

/-- The entries taken out of the map cover no addresses but those of the new
entry, of the entries that stay, and of the part of the range up to `top` that
is still to be written. -/
def PageKeeps (ioMap : IntervalMap Interval) (attempted : Interval) (top : ℤ) :
    Prop :=
  ∀ a, Written ioMap a →
    (recorded ioMap attempted).Contains a ∨ Written (recordKept ioMap attempted) a ∨
      attempted.high.toInt < a.toInt ∧ a.toInt ≤ top

/-- Every page of a write, in the map it is written to. -/
def WriteKeeps (alloc : IntervalMap Element) (top : ℤ) :
    ℕ → IntervalMap Interval → Interval → Prop
  | 0, _, _ => True
  | fuel + 1, io, r =>
    if page r.low = page r.high then PageKeeps io r top
    else
      WriteKeeps alloc top fuel io (lowRange r) ∧
        ∀ w io', attemptWrite fuel alloc io (lowRange r) = .ok (w, io') →
          WriteKeeps alloc top fuel io' (highRange r)

theorem safeMerge_eq
    {i1 i2 r : Interval} (h : safeMerge i1 i2 = .ok r) :
    r = ⟨minLow i1.low i2.low, maxHigh i1.high i2.high, i1.provenance, 0⟩ := by
  unfold safeMerge makeIntervalWcheck at h
  split_ifs at h with hle
  · simp only [bind, Except.bind] at h
    split_ifs at h with hassert
    · exact (Except.ok.inj h).symm
  · simp [bind, Except.bind] at h

theorem recordWrite_eq
    {io io' : IntervalMap Interval} {r r' : Interval}
    (hwrite : recordWrite io r = .ok (r', io')) :
    r' = recorded io r ∧ io' = (recordBase io r).add compare r' r' := by
  unfold recordWrite at hwrite
  unfold recorded recordBase
  cases hf : optionalFind io (mergeRange r) with
  | none =>
    rw [hf] at hwrite
    obtain ⟨rfl, rfl⟩ := Prod.mk.inj (Except.ok.inj hwrite)
    exact ⟨rfl, rfl⟩
  | some w =>
    rw [hf] at hwrite
    cases hm : safeMerge w r with
    | error x => simp [hm, bind, Except.bind] at hwrite
    | ok merged =>
      simp only [hm, bind, Except.bind, Except.ok.injEq, Prod.mk.injEq] at hwrite
      obtain ⟨rfl, rfl⟩ := hwrite
      obtain rfl := safeMerge_eq hm
      exact ⟨rfl, rfl⟩

theorem mem_keys_add
    (m : IntervalMap δ) (x : Interval) (d : δ) (k : Interval) :
    k ∈ (m.add compare x d).keys ↔ k = x ∨ k ∈ (m.remove compare x).keys := by
  cases hf : AvlMap.findBinding compare x m with
  | none =>
    obtain ⟨hrem, l1, l2, hbind, hadd⟩ := AvlMap.findBinding_none compare x hf
    rw [keys_eq_of_bindings (hadd d), keys_eq_of_bindings (hrem.trans hbind)]
    simp only [List.map_append, List.map_cons, List.mem_append, List.mem_cons]
    tauto
  | some b =>
    obtain ⟨-, l1, l2, -, hrem, hadd⟩ := AvlMap.findBinding_some compare x hf
    rw [keys_eq_of_bindings (hadd d), keys_eq_of_bindings hrem]
    simp only [List.map_append, List.map_cons, List.mem_append, List.mem_cons]
    tauto

theorem keys_remove_subset
    (m : IntervalMap δ) (x : Interval) {k : Interval}
    (hk : k ∈ (m.remove compare x).keys) : k ∈ m.keys :=
  ((AvlMap.bindings_remove_sublist compare x m).map Prod.fst).subset hk

/-! ## One page -/

/-- A map of written ranges stores valid ranges under themselves. -/
structure IoValid (io : IntervalMap Interval) : Prop where
  valid : ∀ k ∈ io.keys, k.Valid
  self : ∀ b ∈ io.bindings, b.2 = b.1

theorem recordBase_subset
    (io : IntervalMap Interval) (r : Interval) {k : Interval}
    (hk : k ∈ (recordBase io r).keys) : k ∈ io.keys := by
  unfold recordBase at hk
  split at hk
  · exact hk
  · exact (removeAll_sublist io _).subset hk

theorem recordKept_subset
    (io : IntervalMap Interval) (r : Interval) {k : Interval}
    (hk : k ∈ (recordKept io r).keys) : k ∈ io.keys :=
  recordBase_subset io r (keys_remove_subset _ _ hk)

/-- The entry covers the written range and, besides, addresses that were
recorded before only. -/
theorem recorded_contains
    {io : IntervalMap Interval} (hio : IoValid io) {r : Interval} (hr : r.Valid) :
    (recorded io r).Valid ∧ (∀ a, r.Contains a → (recorded io r).Contains a) ∧
      ∀ a, (recorded io r).Contains a → Written io a ∨ r.Contains a := by
  unfold recorded
  cases hf : optionalFind io (mergeRange r) with
  | none => exact ⟨hr, fun a ha => ha, fun a ha => .inr ha⟩
  | some w =>
    rw [optionalFind, AvlMap.find_eq_some_iff] at hf
    obtain ⟨k, hk⟩ := hf
    have hmem := AvlMap.findBinding_mem compare _ hk
    obtain rfl : w = k := hio.self _ hmem
    have hkey : w ∈ io.keys := List.mem_map_of_mem hmem
    have hw := hio.valid w hkey
    obtain ⟨hleft, hright⟩ := (compare_eq_iff (mergeRange_valid hr) hw).mp
      (AvlMap.findBinding_some compare _ hk).1
    have hlow : (hull w r).low.toInt = min w.low.toInt r.low.toInt :=
      toInt_minLow w.low r.low
    have hhigh : (hull w r).high.toInt = max w.high.toInt r.high.toInt :=
      toInt_maxHigh w.high r.high
    have hml := mergeRange_low r
    have hmh := mergeRange_high r
    unfold Interval.Valid at hr hw
    refine ⟨?_, ?_, ?_⟩
    · unfold Interval.Valid
      simp only [hlow, hhigh]
      omega
    · intro a ha
      unfold Interval.Contains at ha ⊢
      simp only [hlow, hhigh]
      omega
    · intro a ha
      unfold Interval.Contains at ha ⊢
      simp only [hlow, hhigh] at ha
      by_cases hwa : w.low.toInt ≤ a.toInt ∧ a.toInt ≤ w.high.toInt
      · exact .inl ⟨w, hkey, hwa⟩
      · exact .inr (by omega)

section Recorded

variable {io io' : IntervalMap Interval} (hio : IoValid io) {r r' : Interval}
  (hr : r.Valid) (hwrite : recordWrite io r = .ok (r', io'))

include hwrite

theorem recordWrite_written (a : I64) :
    Written io' a ↔
      (recorded io r).Contains a ∨ Written (recordKept io r) a := by
  obtain ⟨rfl, rfl⟩ := recordWrite_eq hwrite
  constructor
  · rintro ⟨k, hk, ha⟩
    rcases (mem_keys_add _ _ _ _).mp hk with rfl | hk
    · exact .inl ha
    · exact .inr ⟨k, hk, ha⟩
  · rintro (ha | ⟨k, hk, ha⟩)
    · exact ⟨_, (mem_keys_add _ _ _ _).mpr (.inl rfl), ha⟩
    · exact ⟨k, (mem_keys_add _ _ _ _).mpr (.inr hk), ha⟩

include hio hr

theorem recordWrite_valid : IoValid io' := by
  obtain ⟨rfl, rfl⟩ := recordWrite_eq hwrite
  refine ⟨?_, ?_⟩
  · intro k hk
    rcases (mem_keys_add _ _ _ _).mp hk with rfl | hk
    · exact (recorded_contains hio hr).1
    · exact hio.valid k (recordKept_subset io r hk)
  · intro b hb
    rcases AvlMap.mem_bindings_add compare _ hb with rfl | hb
    · rfl
    · unfold recordBase at hb
      split at hb
      · exact hio.self b hb
      · exact hio.self b (removeAll_bindings_subset io _ hb)

/-- Only the addresses of the written range are added. -/
theorem recordWrite_adds {a : I64} (ha : Written io' a) :
    Written io a ∨ r.Contains a := by
  rcases (recordWrite_written hwrite a).mp ha with ha | ⟨k, hk, ha⟩
  · exact (recorded_contains hio hr).2.2 a ha
  · exact .inl ⟨k, recordKept_subset io r hk, ha⟩

theorem recordWrite_keeps_iff (top : ℤ) :
    (∀ a, Written io a ∨ r.Contains a →
        Written io' a ∨ r.high.toInt < a.toInt ∧ a.toInt ≤ top) ↔
      PageKeeps io r top := by
  constructor
  · intro h a ha
    rcases h a (.inl ha) with ha' | ha'
    · rcases (recordWrite_written hwrite a).mp ha' with ha' | ha'
      · exact .inl ha'
      · exact .inr (.inl ha')
    · exact .inr (.inr ha')
  · intro h a ha
    rw [recordWrite_written hwrite a]
    rcases ha with ha | ha
    · rcases h a ha with ha | ha | ha
      · exact .inl (.inl ha)
      · exact .inl (.inr ha)
      · exact .inr ha
    · exact .inl (.inl ((recorded_contains hio hr).2.1 a ha))

end Recorded

/-! ## Several pages -/

theorem lowRange_or_highRange
    {r : Interval} (hpage : r.low.toInt.tdiv 4096 < r.high.toInt.tdiv 4096)
    (hhigh : 4096 ≤ r.high.toInt) (a : I64) :
    r.Contains a ↔ (lowRange r).Contains a ∨ (highRange r).Contains a := by
  have hcut := toInt_lowRange_high hpage
  have hstart : (highRange r).low.toInt = _ := toInt_pageStart r.high
  have hlow : (lowRange r).low = r.low := rfl
  have hsame : (highRange r).high = r.high := rfl
  have hmod := tmod_eq r.high.toInt
  rw [tdiv_eq, tdiv_eq] at hpage
  unfold Interval.Contains
  rw [hcut, hstart, hlow, hsame]
  split_ifs at hmod hpage <;> omega

/-- Two updates that add `L` and then `H`, and nothing else, lose nothing
outside of `S` together just where the first loses nothing outside of `H` and
`S`, and the second nothing outside of `S`. -/
theorem keeps_cut
    {α : Type} {W W1 W2 L H S : α → Prop} (h1 : ∀ a, W1 a → W a ∨ L a)
    (h2 : ∀ a, W2 a → W1 a ∨ H a) :
    (∀ a, W a ∨ L a ∨ H a → W2 a ∨ S a) ↔
      (∀ a, W a ∨ L a → W1 a ∨ H a ∨ S a) ∧ ∀ a, W1 a ∨ H a → W2 a ∨ S a := by
  constructor
  · intro h
    refine ⟨?_, ?_⟩
    · intro a ha
      have hkept := h a (by tauto)
      have hadded := h2 a
      tauto
    · intro a ha
      have hadded := h1 a
      exact h a (by tauto)
  · rintro ⟨hlow, hhigh⟩ a ha
    have hlowa := hlow a
    have hhigha := hhigh a
    tauto

theorem attemptWrite_keeps_iff
    (fuel : ℕ) {alloc : IntervalMap Element} {io io' : IntervalMap Interval}
    (hio : IoValid io) {r r' : Interval} (hr : r.Valid)
    (hwrite : attemptWrite fuel alloc io r = .ok (r', io')) {top : ℤ}
    (htop : r.high.toInt ≤ top) :
    IoValid io' ∧ (∀ a, Written io' a → Written io a ∨ r.Contains a) ∧
      ((∀ a, Written io a ∨ r.Contains a →
          Written io' a ∨ r.high.toInt < a.toInt ∧ a.toInt ≤ top) ↔
        WriteKeeps alloc top fuel io r) := by
  induction fuel generalizing io io' r r' with
  | zero => simp [attemptWrite] at hwrite
  | succ fuel ih =>
    rw [WriteKeeps]
    obtain ⟨hpage, -, hrecord⟩ | ⟨hpage, hlt, hhigh, w1, io1, w2, hw1, hw2⟩ :=
      attemptWrite_cases hwrite
    · rw [if_pos hpage]
      exact ⟨recordWrite_valid hio hr hrecord,
        fun a ha => recordWrite_adds hio hr hrecord ha,
        recordWrite_keeps_iff hio hr hrecord top⟩
    · rw [if_neg hpage]
      have hcontains := lowRange_or_highRange hlt hhigh
      have hcut := toInt_lowRange_high hlt
      have hlowhigh : (highRange r).low.toInt = _ := toInt_pageStart r.high
      have hsame : (highRange r).high = r.high := rfl
      have hmod := tmod_eq r.high.toInt
      have hrest : ∀ a : I64,
          (lowRange r).high.toInt < a.toInt ∧ a.toInt ≤ top ↔
            (highRange r).Contains a ∨ r.high.toInt < a.toInt ∧ a.toInt ≤ top := by
        intro a
        unfold Interval.Contains
        rw [hcut, hlowhigh, hsame]
        split_ifs at hmod <;> omega
      obtain ⟨hio1, hadds1, hkeeps1⟩ := ih hio (lowRange_valid hlt) hw1
        (by rw [hcut]; split_ifs at hmod <;> omega)
      obtain ⟨hio', hadds2, hkeeps2⟩ := ih hio1 (highRange_valid (by omega)) hw2
        (by rwa [hsame])
      refine ⟨hio', ?_, ?_⟩
      · intro a ha
        rw [hcontains]
        rcases hadds2 a ha with ha | ha
        · rcases hadds1 a ha with ha | ha
          · exact .inl ha
          · exact .inr (.inl ha)
        · exact .inr (.inr ha)
      · have hhighiff : (∀ w io', attemptWrite fuel alloc io (lowRange r) =
            .ok (w, io') → WriteKeeps alloc top fuel io' (highRange r)) ↔
              WriteKeeps alloc top fuel io1 (highRange r) := by
          constructor
          · intro h
            exact h w1 io1 hw1
          · intro h w io2 hw
            obtain ⟨-, rfl⟩ := Prod.mk.inj (Except.ok.inj (hw1.symm.trans hw))
            exact h
        rw [hhighiff, ← hkeeps1, ← hkeeps2, hsame]
        simp only [hcontains, hrest]
        exact keeps_cut hadds1 hadds2

/-! ## Disjoint ranges -/

theorem isIn_iff (i1 i2 : Interval) :
    isIn i1 i2 = true ↔
      i1.low.toInt ≤ i2.low.toInt ∧ i2.high.toInt ≤ i1.high.toInt := by
  simp [isIn, BitVec.sle_eq_decide]

theorem recordBase_ordered
    {io : IntervalMap Interval} (hio : IoOrdered io) (r : Interval) :
    IoOrdered (recordBase io r) := by
  unfold recordBase
  split
  · exact hio
  · exact hio.removeAll _

/-- Of disjoint ranges only the one the write is merged with is removed first,
and the new entry covers it. -/
theorem mem_recordBase_or
    {io : IntervalMap Interval} (hio : IoOrdered io) {r : Interval} (hr : r.Valid)
    {k : Interval} (hk : k ∈ io.keys) :
    k ∈ (recordBase io r).keys ∨ ∀ a, k.Contains a → (recorded io r).Contains a := by
  unfold recordBase recorded
  cases hf : optionalFind io (mergeRange r) with
  | none => exact .inl hk
  | some w =>
    obtain ⟨hkey, hw, -, -⟩ := optionalFind_io_some hio (mergeRange_valid hr) hf
    have hvk := hio.ordered.valid k hk
    by_cases hmeets : intersects w k = true
    · refine .inr ?_
      rw [intersects_iff hw hvk, ← compare_eq_iff hw hvk] at hmeets
      obtain rfl := (hio.ordered.keysDisjoint.totalOrder w hkey k hk).2.1 hmeets
      intro a ha
      have hlow : (hull w r).low.toInt = min w.low.toInt r.low.toInt :=
        toInt_minLow w.low r.low
      have hhigh : (hull w r).high.toInt = max w.high.toInt r.high.toInt :=
        toInt_maxHigh w.high r.high
      unfold Interval.Contains at ha ⊢
      simp only [hlow, hhigh]
      omega
    · refine .inl ?_
      simp only
      rw [removeAll_keys hio.ordered hw, List.mem_filter]
      exact ⟨hk, by simpa using hmeets⟩

/-- The one other range that the new entry replaces. -/
theorem pageKeeps_iff
    {io : IntervalMap Interval} (hio : IoOrdered io) {r : Interval}
    (hr : r.Valid) :
    PageKeeps io r r.high.toInt ↔
      ∀ k ∈ optionalFind (recordBase io r) (recorded io r),
        isIn (recorded io r) k = true := by
  have hbase := recordBase_ordered hio r
  cases hf : AvlMap.findBinding compare (recorded io r) (recordBase io r) with
  | none =>
    have hnone : optionalFind (recordBase io r) (recorded io r) = none :=
      (AvlMap.find_eq_none_iff compare _).mpr hf
    have hkeep : (recordKept io r).keys = (recordBase io r).keys :=
      congrArg (List.map Prod.fst) (AvlMap.findBinding_none compare _ hf).1
    rw [hnone]
    refine iff_of_true ?_ nofun
    rintro a ⟨k, hk, ha⟩
    rcases mem_recordBase_or hio hr hk with hk | hin
    · exact .inr (.inl ⟨k, hkeep ▸ hk, ha⟩)
    · exact .inl (hin a ha)
  | some b =>
    obtain ⟨k, d⟩ := b
    have hmem := AvlMap.findBinding_mem compare _ hf
    obtain rfl : d = k := hbase.self _ hmem
    have hfind : optionalFind (recordBase io r) (recorded io r) = some d :=
      (AvlMap.find_eq_some_iff compare _).mpr ⟨d, hf⟩
    obtain ⟨-, l1, l2, hbind, hrem, -⟩ := AvlMap.findBinding_some compare _ hf
    have hkeys := keys_eq_of_bindings hbind
    have hkeep : (recordKept io r).keys = (l1 ++ l2).map Prod.fst :=
      keys_eq_of_bindings hrem
    have hd : d ∈ (recordBase io r).keys := List.mem_map_of_mem hmem
    have hvd := hbase.ordered.valid d hd
    have hordered := hbase.ordered.before
    rw [hkeys, List.map_append, List.map_cons, List.pairwise_append] at hordered
    obtain ⟨-, hright, hleft⟩ := hordered
    rw [hfind]
    constructor
    · intro h k hk
      obtain rfl : d = k := Option.some.inj hk
      -- No other entry covers an address of the replaced one.
      have hcover : ∀ a, d.Contains a → (recorded io r).Contains a := by
        intro a ha
        rcases h a ⟨d, recordBase_subset io r hd, ha⟩ with hin | ⟨k, hk, hka⟩ | htop
        · exact hin
        · rw [hkeep, List.map_append, List.mem_append] at hk
          unfold Interval.Contains at ha hka
          rcases hk with hk | hk
          · have hlt := hleft k hk d List.mem_cons_self
            omega
          · have hlt : d.high.toInt < k.low.toInt :=
              (List.pairwise_cons.mp hright).1 k hk
            omega
        · omega
      rw [isIn_iff]
      exact ⟨(hcover d.low ⟨le_rfl, hvd⟩).1, (hcover d.high ⟨hvd, le_rfl⟩).2⟩
    · intro h a ha
      obtain ⟨hlow, hhigh⟩ := (isIn_iff _ _).mp (h d rfl)
      obtain ⟨k, hk, hka⟩ := ha
      rcases mem_recordBase_or hio hr hk with hk | hin
      · rw [hkeys, List.map_append, List.map_cons, List.mem_append,
          List.mem_cons] at hk
        have hkept : k = d ∨ k ∈ (recordKept io r).keys := by
          rw [hkeep, List.map_append, List.mem_append]
          tauto
        rcases hkept with rfl | hkept
        · exact .inl ⟨hlow.trans hka.1, hka.2.trans hhigh⟩
        · exact .inr (.inl ⟨k, hkept, hka⟩)
      · exact .inl (hin a hka)

theorem IoOrdered.ioValid {io : IntervalMap Interval} (h : IoOrdered io) :
    IoValid io :=
  ⟨h.ordered.valid, h.self⟩

/-- An allocation, and two writes with a gap between them. -/
def apartWrites : Maps :=
  ((Maps.empty.step (.allocate 1 (range 0 100))).step
    (.write 1 (range 0 1))).step (.write 1 (range 5 10))

theorem apartWrites_ordered : IoOrdered apartWrites.io := by
  have hrange : (range 0 100).Valid := by decide
  have halloc := Reachable.empty.step (.allocate 1 (range 0 100)) hrange
  have hfirst := halloc.step (.write 1 (range 0 1))
    (meets_write_of_page (by decide) (by decide) (by decide +kernel))
  exact (hfirst.step (.write 1 (range 5 10))
    (meets_write_of_page (by decide) (by decide) (by decide +kernel))).ordered.2

end Fuzzball.IntervalTree
