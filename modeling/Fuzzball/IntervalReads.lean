import Fuzzball.IntervalWritten

/-!
# Reads of allocated and written addresses

`attempt_read`, and the histories of allocations, deallocations and writes for
which it succeeds just on the ranges whose every address is allocated and has
been written since.
-/

namespace Fuzzball.IntervalTree

inductive ReadExn
  | readingUnallocated (proposed : Interval)
  | readingUnwritten (proposed : Interval)
  | failure (message : String)
  | stackOverflow
  deriving DecidableEq, Repr

/-- `attempt_read` of a range within one page, with the stored ranges whose
access count it sets to 0. -/
def readPage
    (allocMap : IntervalMap Element) (ioMap : IntervalMap Interval)
    (attempted : Interval) : List Interval × Except ReadExn Unit :=
  match optionalFind allocMap attempted with
  | none => ([], .error (.readingUnallocated attempted))
  | some interval =>
    match interval.status with
    | .deallocate => ([], .error (.readingUnallocated attempted))
    | .allocate =>
      match optionalFind ioMap attempted with
      | none => ([], .error (.readingUnwritten attempted))
      | some written =>
        if isIn written attempted then ([written], .ok ())
        else ([], .error (.readingUnwritten attempted))

/-- `attempt_read`.  A range on several pages is cut before the page of its
last address; `fuel` bounds the depth of the recursion. -/
def attemptRead : ℕ → IntervalMap Element → IntervalMap Interval → Interval →
    List Interval × Except ReadExn Unit
  | 0, _, _, _ => ([], .error .stackOverflow)
  | fuel + 1, allocMap, ioMap, attempted =>
    if page attempted.low = page attempted.high then
      readPage allocMap ioMap attempted
    else if (page attempted.low).slt (page attempted.high) then
      let low := attemptRead fuel allocMap ioMap (lowRange attempted)
      match low.2 with
      | .error x => (low.1, .error x)
      | .ok () =>
        let high := attemptRead fuel allocMap ioMap (highRange attempted)
        (low.1 ++ high.1, high.2)
    else ([], .error (.failure "illegal read range"))

/-! ## Histories -/

/-- The addresses that are allocated, and those written since. -/
structure Bytes where
  live : Set I64
  written : Set I64

def Interval.addresses (i : Interval) : Set I64 := {a | i.Contains a}

/-- What an operation that succeeds does to the addresses. -/
def Bytes.after (b : Bytes) : Op → Bytes
  | .allocate _ r => ⟨b.live ∪ r.addresses, b.written \ r.addresses⟩
  | .deallocate r => ⟨b.live \ r.addresses, b.written \ r.addresses⟩
  | .write _ r => ⟨b.live, b.written ∪ r.addresses⟩
  | _ => b

def Maps.succeeds (s : Maps) : Op → Bool
  | .allocate fuel r => (attemptAllocate fuel s.alloc r).isOk
  | .deallocate r => (attemptDeallocate s.alloc s.io r).isOk
  | .write fuel r => (attemptWrite fuel s.alloc s.io r).isOk
  | _ => true

/-- Besides the range that the write is merged with, at most one stored range
meets or abuts the written one, and the new entry covers it. -/
def MergesAll (io : IntervalMap Interval) (r : Interval) : Prop :=
  ∀ w ∈ optionalFind io (mergeRange r),
    ((met io.keys (mergeRange r)).filter fun k => k ≠ w).length ≤ 1 ∧
      ∀ k ∈ met io.keys (mergeRange r), isIn (hull w r) k = true

/-- Every page of a write, in the map it is written to. -/
def WriteMergesAll (alloc : IntervalMap Element) :
    ℕ → IntervalMap Interval → Interval → Prop
  | 0, _, _ => True
  | fuel + 1, io, r =>
    if page r.low = page r.high then MergesAll io r
    else
      WriteMergesAll alloc fuel io (lowRange r) ∧
        ∀ w io', attemptWrite fuel alloc io (lowRange r) = .ok (w, io') →
          WriteMergesAll alloc fuel io' (highRange r)

/-- New ranges are valid, every page of a write is merged with all the stored
ranges around it, and the stored ranges that meet a freed one lie in it. -/
def Op.MergesAll (s : Maps) : Op → Prop
  | .allocate _ r => r.Valid
  | .deallocate r => ∀ k ∈ met s.io.keys r, isIn r k = true
  | .write fuel r =>
    r.Valid ∧ 0 ≤ r.low.toInt ∧ WriteMergesAll s.alloc fuel s.io r
  | _ => False

/-- The states, with their addresses, of histories from the empty maps whose
steps all meet the condition. -/
inductive History : Maps → Bytes → Prop
  | empty : History Maps.empty ⟨∅, ∅⟩
  | ok {s : Maps} {b : Bytes} (op : Op) : History s b → op.MergesAll s →
      s.succeeds op = true → History (s.step op) (b.after op)
  | error {s : Maps} {b : Bytes} (op : Op) : History s b →
      s.succeeds op = false → History (s.step op) b

/-! ## The invariant -/

/-- Stored ranges are apart within a page: where two abut, a page begins. -/
structure Apart (io : IntervalMap Interval) : Prop where
  ordered : IoOrdered io
  page : ∀ k ∈ io.keys, 0 ≤ k.low.toInt ∧
    k.low.toInt / 4096 = k.high.toInt / 4096
  gap : ∀ k1 ∈ io.keys, ∀ k2 ∈ io.keys,
    k1.high.toInt + 1 = k2.low.toInt → k2.low.toInt % 4096 = 0

def Live (alloc : IntervalMap Element) (a : I64) : Prop :=
  ∃ e ∈ alloc.bindings, e.2.status = .allocate ∧ e.1.Contains a

structure Tracks (s : Maps) (b : Bytes) : Prop where
  alloc : AllocOrdered s.alloc
  apart : Apart s.io
  live : ∀ a, Live s.alloc a ↔ a ∈ b.live
  written : ∀ a, Written s.io a ↔ a ∈ b.live ∧ a ∈ b.written
  bound : b.written ⊆ b.live

/-! ## Addresses on one page -/

theorem mergeRange_low_eq {r : Interval} (hlow : 0 ≤ r.low.toInt) :
    (mergeRange r).low.toInt =
      if r.low.toInt % 4096 = 0 then r.low.toInt else r.low.toInt - 1 := by
  have hsrem : (r.low.srem 4096).toInt = r.low.toInt % 4096 := by
    rw [BitVec.toInt_srem]
    exact Int.tmod_eq_emod_of_nonneg hlow
  have hiff : r.low.srem 4096 = 0 ↔ r.low.toInt % 4096 = 0 := by
    rw [← BitVec.toInt_inj, hsrem]
    rfl
  by_cases h : r.low.toInt % 4096 = 0
  · rw [if_pos h]
    exact congrArg BitVec.toInt (if_pos (hiff.mpr h))
  · have hne : r.low ≠ BitVec.intMin 64 := by
      intro heq
      rw [heq] at hlow
      exact absurd hlow (by decide)
    rw [if_neg h, ← toInt_pred hne]
    exact congrArg BitVec.toInt (if_neg (mt hiff.mp h))

theorem mergeRange_high_eq {r : Interval} (hhigh : 0 ≤ r.high.toInt) :
    (mergeRange r).high.toInt =
      if r.high.toInt % 4096 = 4095 then r.high.toInt else r.high.toInt + 1 := by
  have hsrem : (r.high.srem 4096).toInt = r.high.toInt % 4096 := by
    rw [BitVec.toInt_srem]
    exact Int.tmod_eq_emod_of_nonneg hhigh
  have hiff : r.high.srem 4096 = 0xfff ↔ r.high.toInt % 4096 = 4095 := by
    rw [← BitVec.toInt_inj, hsrem]
    rfl
  by_cases h : r.high.toInt % 4096 = 4095
  · rw [if_pos h]
    exact congrArg BitVec.toInt (if_pos (hiff.mpr h))
  · have hne : r.high ≠ BitVec.intMax 64 := by
      intro heq
      rw [heq] at h
      exact h (by decide)
    rw [if_neg h, ← toInt_succ hne]
    exact congrArg BitVec.toInt (if_neg (mt hiff.mp h))

theorem page_eq_iff {a b : I64} (ha : 0 ≤ a.toInt) (hb : 0 ≤ b.toInt) :
    page a = page b ↔ a.toInt / 4096 = b.toInt / 4096 := by
  rw [← BitVec.toInt_inj, toInt_page, toInt_page, Int.tdiv_eq_ediv_of_nonneg ha,
    Int.tdiv_eq_ediv_of_nonneg hb]

/-! ## Writes -/

section RecordWrite

variable {io io' : IntervalMap Interval} (hio : Apart io) {r r' : Interval}
  (hr : r.Valid) (hlow : 0 ≤ r.low.toInt)
  (hpage : r.low.toInt / 4096 = r.high.toInt / 4096) (hmerge : MergesAll io r)
  (hwrite : recordWrite io r = .ok (r', io'))

include hio hr

theorem meets_mergeRange
    {k : Interval} (hk : k ∈ io.keys) (h : intersects r k = true) :
    intersects (mergeRange r) k = true := by
  have hvk := hio.ordered.ordered.valid k hk
  have hml := mergeRange_low r
  have hmh := mergeRange_high r
  rw [intersects_iff hr hvk] at h
  rw [intersects_iff (mergeRange_valid hr) hvk]
  omega

include hmerge

theorem mergesAll_meetsOneOther : MeetsOneOther io r := by
  intro w hw
  have hmet : met io.keys r = (met io.keys (mergeRange r)).filter (intersects r) := by
    rw [met, met, List.filter_filter]
    refine List.filter_congr ?_
    intro k hk
    have hmeets := meets_mergeRange hio hr hk
    cases h : intersects r k
    · rfl
    · rw [hmeets h]
      rfl
  rw [hmet]
  exact (List.filter_sublist.filter _).length_le.trans (hmerge w hw).1

include hwrite

theorem recordWrite_ioOrdered : IoOrdered io' :=
  recordWrite_ordered hio.ordered hr (mergesAll_meetsOneOther hio hr hmerge) hwrite

/-- The ranges that stay are apart from the new one. -/
theorem recordKept_apart
    {k : Interval} (hk : k ∈ (recordKept io r).keys) :
    k.high.toInt < (recorded io r).low.toInt ∨
      (recorded io r).high.toInt < k.low.toInt := by
  have hordered := (recordWrite_ioOrdered hio hr hmerge hwrite).ordered.before
  obtain ⟨rfl, rfl⟩ := recordWrite_eq hwrite
  have hsplit : ∃ l1 l2, ((recordBase io r).add compare (recorded io r)
      (recorded io r)).keys = l1 ++ recorded io r :: l2 ∧
        (recordKept io r).keys = l1 ++ l2 := by
    cases hf : AvlMap.findBinding compare (recorded io r) (recordBase io r) with
    | none =>
      obtain ⟨hrem, l1, l2, hbind, hadd⟩ := AvlMap.findBinding_none compare _ hf
      refine ⟨l1.map Prod.fst, l2.map Prod.fst, ?_, ?_⟩
      · rw [keys_eq_of_bindings (hadd _), List.map_append, List.map_cons]
      · rw [recordKept, keys_eq_of_bindings (hrem.trans hbind), List.map_append]
    | some b =>
      obtain ⟨-, l1, l2, -, hrem, hadd⟩ := AvlMap.findBinding_some compare _ hf
      refine ⟨l1.map Prod.fst, l2.map Prod.fst, ?_, ?_⟩
      · rw [keys_eq_of_bindings (hadd _), List.map_append, List.map_cons]
      · rw [recordKept, keys_eq_of_bindings hrem, List.map_append]
  obtain ⟨l1, l2, hadd, hkept⟩ := hsplit
  rw [hadd, List.pairwise_append] at hordered
  rw [hkept, List.mem_append] at hk
  obtain ⟨-, hright, hleft⟩ := hordered
  rcases hk with hk | hk
  · exact .inl (hleft k hk _ List.mem_cons_self)
  · exact .inr ((List.pairwise_cons.mp hright).1 k hk)

/-- The ranges that stay do not even abut the written one on its page. -/
theorem recordKept_not_met
    {k : Interval} (hk : k ∈ (recordKept io r).keys) :
    k.high.toInt < (mergeRange r).low.toInt ∨
      (mergeRange r).high.toInt < k.low.toInt := by
  have hkio := recordKept_subset io r hk
  have hvk := hio.ordered.ordered.valid k hkio
  have happart := recordKept_apart hio hr hmerge hwrite hk
  have hvalid := (recorded_contains hio.ordered.ioValid hr).1
  by_contra hmeet
  have hmeets : intersects (mergeRange r) k = true := by
    rw [intersects_iff (mergeRange_valid hr) hvk]
    omega
  have hmem : k ∈ met io.keys (mergeRange r) := List.mem_filter.mpr ⟨hkio, hmeets⟩
  cases hf : optionalFind io (mergeRange r) with
  | none =>
    rw [optionalFind_none hio.ordered.ordered (mergeRange_valid hr) hf] at hmem
    cases hmem
  | some w =>
    have hin := (isIn_iff _ _).mp ((hmerge w hf).2 k hmem)
    have hrecorded : recorded io r = hull w r := by rw [recorded, hf]
    rw [hrecorded] at happart hvalid
    unfold Interval.Valid at hvk hvalid
    omega

include hlow hpage

omit hmerge hwrite in
/-- The new entry lies on the page of the write. -/
theorem recorded_page :
    0 ≤ (recorded io r).low.toInt ∧
      (recorded io r).low.toInt / 4096 = r.low.toInt / 4096 ∧
        (recorded io r).high.toInt / 4096 = r.low.toInt / 4096 := by
  unfold recorded
  cases hf : optionalFind io (mergeRange r) with
  | none => exact ⟨hlow, rfl, hpage.symm⟩
  | some w =>
    obtain ⟨hkey, hw, hleft, hright⟩ :=
      optionalFind_io_some hio.ordered (mergeRange_valid hr) hf
    obtain ⟨hw0, hwpage⟩ := hio.page w hkey
    have hml := mergeRange_low_eq hlow
    have hmh := mergeRange_high_eq (hlow.trans hr)
    have hhull : (hull w r).low.toInt = min w.low.toInt r.low.toInt :=
      toInt_minLow w.low r.low
    have hhull' : (hull w r).high.toInt = max w.high.toInt r.high.toInt :=
      toInt_maxHigh w.high r.high
    simp only [hhull, hhull']
    unfold Interval.Valid at hr hw
    split_ifs at hml hmh <;> omega

theorem recorded_gap
    {k : Interval} (hk : k ∈ (recordKept io r).keys) :
    (k.high.toInt + 1 = (recorded io r).low.toInt →
        (recorded io r).low.toInt % 4096 = 0) ∧
      ((recorded io r).high.toInt + 1 = k.low.toInt →
        k.low.toInt % 4096 = 0) := by
  have hkio := recordKept_subset io r hk
  have hvk := hio.ordered.ordered.valid k hkio
  have hmet := recordKept_not_met hio hr hmerge hwrite hk
  have hml := mergeRange_low_eq hlow
  have hmh := mergeRange_high_eq (hlow.trans hr)
  have hml' := mergeRange_low r
  have hmh' := mergeRange_high r
  unfold Interval.Valid at hr hvk
  unfold recorded
  cases hf : optionalFind io (mergeRange r) with
  | none =>
    constructor
    · intro h
      simp only at h ⊢
      split_ifs at hml <;> omega
    · intro h
      simp only at h
      split_ifs at hmh <;> omega
  | some w =>
    obtain ⟨hkey, hw, -, -⟩ :=
      optionalFind_io_some hio.ordered (mergeRange_valid hr) hf
    have hgap := hio.gap w hkey k hkio
    have hgap' := hio.gap k hkio w hkey
    have hhull : (hull w r).low.toInt = min w.low.toInt r.low.toInt :=
      toInt_minLow w.low r.low
    have hhull' : (hull w r).high.toInt = max w.high.toInt r.high.toInt :=
      toInt_maxHigh w.high r.high
    simp only [hhull, hhull']
    unfold Interval.Valid at hw
    constructor
    · intro h
      split_ifs at hml <;> omega
    · intro h
      split_ifs at hmh <;> omega

omit hlow hpage hwrite in
theorem mergesAll_pageKeeps : PageKeeps io r r.high.toInt := by
  rw [pageKeeps_iff hio.ordered hr]
  intro k hk
  obtain ⟨hkey, hvk, hleft, hright⟩ := optionalFind_io_some
    (recordBase_ordered hio.ordered r) (recorded_contains hio.ordered.ioValid hr).1 hk
  have hmet := mergeRange_low r
  have hmet' := mergeRange_high r
  have hkio := recordBase_subset io r hkey
  unfold recordBase at hkey
  unfold recorded at hleft hright ⊢
  cases hf : optionalFind io (mergeRange r) with
  | none =>
    have hnone := optionalFind_none hio.ordered.ordered (mergeRange_valid hr) hf
    have hmem : k ∈ met io.keys (mergeRange r) := by
      refine List.mem_filter.mpr ⟨hkio, meets_mergeRange hio hr hkio ?_⟩
      rw [intersects_iff hr hvk]
      rw [hf] at hleft hright
      exact ⟨hleft, hright⟩
    rw [hnone] at hmem
    cases hmem
  | some w =>
    obtain ⟨-, hw, -, -⟩ :=
      optionalFind_io_some hio.ordered (mergeRange_valid hr) hf
    rw [hf] at hkey hleft hright
    simp only at hkey hleft hright ⊢
    have hhull : (hull w r).low.toInt = min w.low.toInt r.low.toInt :=
      toInt_minLow w.low r.low
    have hhull' : (hull w r).high.toInt = max w.high.toInt r.high.toInt :=
      toInt_maxHigh w.high r.high
    have hmeet : intersects (mergeRange r) k = true := by
      rw [removeAll_keys hio.ordered.ordered hw, List.mem_filter] at hkey
      have hapart : ¬intersects w k = true := by simpa using hkey.2
      rw [intersects_iff hw hvk] at hapart
      rw [intersects_iff (mergeRange_valid hr) hvk]
      unfold Interval.Valid at hr hw hvk
      have hrmeets : r.low.toInt ≤ k.high.toInt ∧ k.low.toInt ≤ r.high.toInt := by
        obtain ⟨-, hoverlap⟩ := optionalFind_io_some hio.ordered
          (mergeRange_valid hr) hf
        omega
      omega
    exact (hmerge w hf).2 k (List.mem_filter.mpr ⟨hkio, hmeet⟩)

/-- A merged write keeps the stored ranges apart and adds its addresses. -/
theorem recordWrite_apart :
    Apart io' ∧ ∀ a, Written io' a ↔ Written io a ∨ r.Contains a := by
  have hgap := fun k (hk : k ∈ (recordKept io r).keys) =>
    recorded_gap hio hr hlow hpage hmerge hwrite hk
  have hrpage := recorded_page hio hr hlow hpage
  have hvalid := (recorded_contains hio.ordered.ioValid hr).1
  have hio' := recordWrite_ioOrdered hio hr hmerge hwrite
  have hadds : ∀ a, Written io' a → Written io a ∨ r.Contains a :=
    fun a => recordWrite_adds hio.ordered.ioValid hr hwrite
  have hkeeps := (recordWrite_keeps_iff hio.ordered.ioValid hr hwrite
    r.high.toInt).mpr (mergesAll_pageKeeps hio hr hmerge)
  obtain ⟨rfl, rfl⟩ := recordWrite_eq hwrite
  refine ⟨⟨hio', ?_, ?_⟩, ?_⟩
  · intro k hk
    rcases (mem_keys_add _ _ _ _).mp hk with rfl | hk
    · exact ⟨hrpage.1, hrpage.2.1.trans hrpage.2.2.symm⟩
    · exact hio.page k (recordKept_subset io r hk)
  · intro k1 hk1 k2 hk2 habut
    rcases (mem_keys_add _ _ _ _).mp hk1 with rfl | hk1
    · rcases (mem_keys_add _ _ _ _).mp hk2 with rfl | hk2
      · unfold Interval.Valid at hvalid
        omega
      · exact (hgap k2 hk2).2 habut
    · rcases (mem_keys_add _ _ _ _).mp hk2 with rfl | hk2
      · exact (hgap k1 hk1).1 habut
      · exact hio.gap k1 (recordKept_subset io r hk1) k2
          (recordKept_subset io r hk2) habut
  · intro a
    refine ⟨hadds a, ?_⟩
    intro ha
    rcases hkeeps a ha with ha | ha
    · exact ha
    · omega

end RecordWrite

theorem Interval.Valid.high_nonneg
    {r : Interval} (hr : r.Valid) (hlow : 0 ≤ r.low.toInt) : 0 ≤ r.high.toInt :=
  hlow.trans hr

theorem attemptWrite_apart
    (fuel : ℕ) {alloc : IntervalMap Element} {io io' : IntervalMap Interval}
    (hio : Apart io) {r r' : Interval} (hr : r.Valid) (hlow : 0 ≤ r.low.toInt)
    (hmerge : WriteMergesAll alloc fuel io r)
    (hwrite : attemptWrite fuel alloc io r = .ok (r', io')) :
    Apart io' ∧ ∀ a, Written io' a ↔ Written io a ∨ r.Contains a := by
  induction fuel generalizing io io' r r' with
  | zero => simp [attemptWrite] at hwrite
  | succ fuel ih =>
    rw [WriteMergesAll] at hmerge
    obtain ⟨hpage, -, hrecord⟩ | ⟨hpage, hlt, hhigh, w1, io1, w2, hw1, hw2⟩ :=
      attemptWrite_cases hwrite
    · rw [if_pos hpage] at hmerge
      rw [page_eq_iff hlow (hr.high_nonneg hlow)] at hpage
      exact recordWrite_apart hio hr hlow hpage hmerge hrecord
    · rw [if_neg hpage] at hmerge
      have hstart : (highRange r).low.toInt = _ := toInt_pageStart r.high
      have hmod := tmod_eq r.high.toInt
      obtain ⟨hio1, hwritten1⟩ := ih hio (lowRange_valid hlt) hlow hmerge.1 hw1
      obtain ⟨hio', hwritten2⟩ := ih hio1 (highRange_valid (by omega))
        (by rw [hstart]; split_ifs at hmod <;> omega) (hmerge.2 w1 io1 hw1) hw2
      refine ⟨hio', ?_⟩
      intro a
      rw [hwritten2, hwritten1, lowRange_or_highRange hlt hhigh, or_assoc]

/-! ## The allocation map -/

theorem bindings_unique
    {δ : Type} {m : IntervalMap δ} (h : Ordered m.keys) {b b' : Interval × δ}
    (hb : b ∈ m.bindings) (hb' : b' ∈ m.bindings) (heq : b.1 = b'.1) : b = b' := by
  have hnodup : m.keys.Nodup := by
    refine h.before.imp_of_mem ?_
    intro k1 k2 hk1 _ hlt hsame
    have hvalid := h.valid k1 hk1
    rw [hsame] at hlt hvalid
    unfold Interval.Valid at hvalid
    omega
  exact List.inj_on_of_nodup_map hnodup hb hb' heq

theorem keys_eq_of_contains
    {keys : List Interval} (h : Ordered keys) {k k' : Interval} (hk : k ∈ keys)
    (hk' : k' ∈ keys) {a : I64} (ha : k.Contains a) (ha' : k'.Contains a) :
    k = k' := by
  refine (h.keysDisjoint.totalOrder k hk k' hk').2.1 ?_
  rw [compare_eq_iff (h.valid _ hk) (h.valid _ hk')]
  unfold Interval.Contains at ha ha'
  omega

/-- Two entries with a common address are the same. -/
theorem bindings_eq_of_contains
    {δ : Type} {m : IntervalMap δ} (h : Ordered m.keys) {b b' : Interval × δ}
    (hb : b ∈ m.bindings) (hb' : b' ∈ m.bindings) {a : I64} (ha : b.1.Contains a)
    (ha' : b'.1.Contains a) : b = b' :=
  bindings_unique h hb hb' (keys_eq_of_contains h (List.mem_map_of_mem hb)
    (List.mem_map_of_mem hb') ha ha')

theorem live_of_allowsWrite
    {alloc : IntervalMap Element} (h : AllocOrdered alloc) {r : Interval}
    (hallowed : AllowsWrite alloc r) {a : I64} (ha : r.Contains a) :
    Live alloc a := by
  obtain ⟨e, hf, hstatus, hin⟩ := hallowed
  rw [optionalFind, AvlMap.find_eq_some_iff] at hf
  obtain ⟨k, hk⟩ := hf
  have hmem := AvlMap.findBinding_mem compare _ hk
  have hkey : e.key = k := h.self _ hmem
  rw [isIn_iff] at hin
  refine ⟨(k, e), hmem, hstatus, ?_⟩
  rw [← hkey]
  exact ⟨hin.1.trans ha.1, ha.2.trans hin.2⟩

theorem attemptWrite_live
    (fuel : ℕ) {alloc : IntervalMap Element} (halloc : AllocOrdered alloc)
    {io io' : IntervalMap Interval} {r r' : Interval}
    (hwrite : attemptWrite fuel alloc io r = .ok (r', io')) {a : I64}
    (ha : r.Contains a) : Live alloc a := by
  induction fuel generalizing io io' r r' with
  | zero => simp [attemptWrite] at hwrite
  | succ fuel ih =>
    obtain ⟨-, hallowed, -⟩ | ⟨-, hlt, hhigh, w1, io1, w2, hw1, hw2⟩ :=
      attemptWrite_cases hwrite
    · exact live_of_allowsWrite halloc hallowed ha
    · rcases (lowRange_or_highRange hlt hhigh a).mp ha with ha | ha
      · exact ih hw1 ha
      · exact ih hw2 ha

theorem findBinding_key
    {δ : Type} {m : IntervalMap δ} (h : Ordered m.keys) {k : Interval} {d : δ}
    (hmem : (k, d) ∈ m.bindings) :
    AvlMap.findBinding compare k m = some (k, d) := by
  have hk : k ∈ m.keys := List.mem_map_of_mem hmem
  have hvk := h.valid k hk
  cases hf : AvlMap.findBinding compare k m with
  | none =>
    have hne := (AvlMap.findBinding_eq_none_iff (h.cut hvk)).mp hf (k, d) hmem
    exact absurd ((compare_eq_iff hvk hvk).mpr ⟨hvk, hvk⟩) hne
  | some b =>
    have hb := AvlMap.findBinding_mem compare _ hf
    have hb1 : b.1 ∈ m.keys := List.mem_map_of_mem hb
    have heq := (h.keysDisjoint.totalOrder k hk b.1 hb1).2.1
      (AvlMap.findBinding_some compare _ hf).1
    exact congrArg some (bindings_unique h hb hmem heq.symm)

theorem attemptAllocate_live
    (fuel : ℕ) {alloc alloc' : IntervalMap Element} (h : AllocOrdered alloc)
    {r : Interval} (hr : r.Valid)
    (hok : attemptAllocate fuel alloc r = .ok alloc') (a : I64) :
    (Live alloc' a ↔ Live alloc a ∨ r.Contains a) ∧
      (r.Contains a → ¬Live alloc a) := by
  induction fuel generalizing alloc with
  | zero => simp [attemptAllocate] at hok
  | succ fuel ih =>
    rw [attemptAllocate] at hok
    cases hf : optionalFind alloc r with
    | none =>
      rw [hf] at hok
      obtain rfl := Except.ok.inj hok
      have hmet := optionalFind_none h.ordered hr hf
      rw [optionalFind, AvlMap.find_eq_none_iff] at hf
      obtain ⟨-, l1, l2, hbind, hadd⟩ := AvlMap.findBinding_none compare _ hf
      refine ⟨?_, ?_⟩
      · unfold Live
        rw [hadd, hbind]
        simp only [List.mem_append, List.mem_cons]
        constructor
        · rintro ⟨e, he, hstatus, ha⟩
          rcases he with he | rfl | he
          · exact .inl ⟨e, .inl he, hstatus, ha⟩
          · exact .inr ha
          · exact .inl ⟨e, .inr he, hstatus, ha⟩
        · rintro (⟨e, he, hstatus, ha⟩ | ha)
          · exact ⟨e, by tauto, hstatus, ha⟩
          · exact ⟨_, .inr (.inl rfl), rfl, ha⟩
      · rintro ha ⟨e, he, -, hea⟩
        have hkey : e.1 ∈ alloc.keys := List.mem_map_of_mem he
        have hmeets : intersects r e.1 = true := by
          rw [intersects_iff hr (h.ordered.valid _ hkey)]
          unfold Interval.Contains at ha hea
          omega
        have hmem : e.1 ∈ met alloc.keys r := List.mem_filter.mpr ⟨hkey, hmeets⟩
        rw [hmet] at hmem
        cases hmem
    | some collision =>
      rw [hf] at hok
      cases hs : collision.status with
      | allocate => simp [hs] at hok
      | deallocate =>
        simp only [hs] at hok
        have hsub := AvlMap.bindings_remove_sublist compare collision.key alloc
        obtain ⟨hlive, hfresh⟩ := ih ⟨h.ordered.sublist (hsub.map Prod.fst),
          fun b hb => h.self b (hsub.subset hb)⟩ hok
        rw [optionalFind, AvlMap.find_eq_some_iff] at hf
        obtain ⟨k, hk⟩ := hf
        have hmem := AvlMap.findBinding_mem compare _ hk
        obtain rfl : collision.key = k := h.self _ hmem
        obtain ⟨-, l1, l2, hbind, hrem, -⟩ :=
          AvlMap.findBinding_some compare _ (findBinding_key h.ordered hmem)
        have hsame : Live (alloc.remove compare collision.key) a ↔ Live alloc a := by
          unfold Live
          rw [hrem, hbind]
          simp only [List.mem_append, List.mem_cons]
          constructor
          · rintro ⟨e, he, h⟩
            exact ⟨e, by tauto, h⟩
          · rintro ⟨e, he, hstatus, ha⟩
            rcases he with he | rfl | he
            · exact ⟨e, .inl he, hstatus, ha⟩
            · cases hs.symm.trans hstatus
            · exact ⟨e, .inr he, hstatus, ha⟩
        rw [hsame] at hlive hfresh
        exact ⟨hlive, hfresh⟩

theorem mem_bindings_removeAll
    {δ : Type} {m : IntervalMap δ} (h : Ordered m.keys) {r : Interval}
    (hr : r.Valid) (b : Interval × δ) :
    b ∈ (removeAll m r).bindings ↔ b ∈ m.bindings ∧ intersects r b.1 = false := by
  have hkeys := removeAll_keys h hr
  constructor
  · intro hb
    have hk : b.1 ∈ (removeAll m r).keys := List.mem_map_of_mem hb
    rw [hkeys, List.mem_filter] at hk
    exact ⟨removeAll_bindings_subset m r hb, by simpa using hk.2⟩
  · rintro ⟨hb, hapart⟩
    have hk : b.1 ∈ (removeAll m r).keys := by
      rw [hkeys, List.mem_filter, hapart]
      exact ⟨List.mem_map_of_mem hb, rfl⟩
    obtain ⟨b', hb', heq⟩ := List.mem_map.mp hk
    rwa [bindings_unique h (removeAll_bindings_subset m r hb') hb heq] at hb'

theorem written_removeAll
    {io : IntervalMap Interval} (h : Ordered io.keys) {r : Interval} (hr : r.Valid)
    (hin : ∀ k ∈ met io.keys r, isIn r k = true) (a : I64) :
    Written (removeAll io r) a ↔ Written io a ∧ ¬r.Contains a := by
  unfold Written
  rw [removeAll_keys h hr]
  constructor
  · rintro ⟨k, hk, ha⟩
    obtain ⟨hkio, hapart⟩ := List.mem_filter.mp hk
    refine ⟨⟨k, hkio, ha⟩, ?_⟩
    intro hra
    have hmeets : ¬intersects r k = true := by simpa using hapart
    apply hmeets
    rw [intersects_iff hr (h.valid k hkio)]
    unfold Interval.Contains at ha hra
    omega
  · rintro ⟨⟨k, hk, ha⟩, hra⟩
    refine ⟨k, List.mem_filter.mpr ⟨hk, ?_⟩, ha⟩
    cases hmeets : intersects r k
    · rfl
    · have hcover := (isIn_iff _ _).mp (hin k (List.mem_filter.mpr ⟨hk, hmeets⟩))
      exact absurd ⟨hcover.1.trans ha.1, ha.2.trans hcover.2⟩ hra

theorem attemptDeallocate_bytes
    {alloc alloc' : IntervalMap Element} {io io' : IntervalMap Interval}
    (h : AllocOrdered alloc) (hio : Ordered io.keys) {r : Interval}
    (hin : ∀ k ∈ met io.keys r, isIn r k = true)
    (hok : attemptDeallocate alloc io r = .ok (alloc', io')) :
    io' = removeAll io r ∧ ∀ a, (Live alloc' a ↔ Live alloc a ∧ ¬r.Contains a) ∧
      (Written io' a ↔ Written io a ∧ ¬r.Contains a) := by
  unfold attemptDeallocate at hok
  split at hok
  · rename_i collision hfind
    split at hok
    · simp at hok
    · rename_i hstatus
      split_ifs at hok with hbounds
      obtain ⟨rfl, rfl⟩ : _ = alloc' ∧ _ = io' := by simpa using hok
      rw [optionalFind, AvlMap.find_eq_some_iff] at hfind
      obtain ⟨k, hk⟩ := hfind
      have hmem := AvlMap.findBinding_mem compare _ hk
      obtain rfl : collision.key = k := h.self _ hmem
      have hkey : collision.key ∈ alloc.keys := List.mem_map_of_mem hmem
      have hr : r.Valid := by
        have hvalid := h.ordered.valid _ hkey
        rwa [Interval.Valid, hbounds.1, hbounds.2] at hvalid
      refine ⟨rfl, fun a => ⟨?_, written_removeAll hio hr hin a⟩⟩
      have hnone : AvlMap.findBinding compare r (removeAll alloc r) = none := by
        rw [AvlMap.findBinding_eq_none_iff ((h.removeAll r).ordered.cut hr)]
        intro b hb heq
        obtain ⟨hballoc, hapart⟩ := (mem_bindings_removeAll h.ordered hr b).mp hb
        have hvb := h.ordered.valid _ (List.mem_map_of_mem hballoc)
        rw [compare_eq_iff hr hvb, ← intersects_iff hr hvb, hapart] at heq
        cases heq
      obtain ⟨-, l1, l2, hbind, hadd⟩ := AvlMap.findBinding_none compare _ hnone
      have hrest : ∀ e, e ∈ l1 ∨ e ∈ l2 ↔
          e ∈ alloc.bindings ∧ intersects r e.1 = false := by
        intro e
        rw [← mem_bindings_removeAll h.ordered hr, hbind, List.mem_append]
      unfold Live
      rw [hadd]
      simp only [List.mem_append, List.mem_cons]
      constructor
      · rintro ⟨e, he, hlive, ha⟩
        have he' : e ∈ l1 ∨ e ∈ l2 := by
          rcases he with he | rfl | he
          · exact .inl he
          · cases hlive
          · exact .inr he
        obtain ⟨hmem', hapart⟩ := (hrest e).mp he'
        refine ⟨⟨e, hmem', hlive, ha⟩, ?_⟩
        intro hra
        have hmeets : ¬intersects r e.1 = true := by simpa using hapart
        apply hmeets
        rw [intersects_iff hr (h.ordered.valid _ (List.mem_map_of_mem hmem'))]
        unfold Interval.Contains at ha hra
        omega
      · rintro ⟨⟨e, he, hlive, ha⟩, hra⟩
        have hapart : intersects r e.1 = false := by
          rw [← Bool.not_eq_true,
            intersects_iff hr (h.ordered.valid _ (List.mem_map_of_mem he))]
          intro hmeets
          have hvalid := h.ordered.valid _ hkey
          have heq : e.1 = collision.key := by
            refine (h.ordered.keysDisjoint.totalOrder e.1
              (List.mem_map_of_mem he) _ hkey).2.1 ?_
            rw [compare_eq_iff (h.ordered.valid _ (List.mem_map_of_mem he)) hvalid,
              hbounds.1, hbounds.2]
            exact ⟨hmeets.2, hmeets.1⟩
          rw [heq, Interval.Contains, hbounds.1, hbounds.2] at ha
          exact hra ha
        have hmem' := (hrest e).mpr ⟨he, hapart⟩
        exact ⟨e, by tauto, hlive, ha⟩
  · simp at hok

theorem Apart.removeAll
    {io : IntervalMap Interval} (h : Apart io) (r : Interval) :
    Apart (removeAll io r) := by
  have hsub := (removeAll_sublist io r).subset
  exact ⟨h.ordered.removeAll r, fun k hk => h.page k (hsub hk),
    fun k1 hk1 k2 hk2 => h.gap k1 (hsub hk1) k2 (hsub hk2)⟩

/-! ## Histories keep track of the addresses -/

theorem step_of_not_succeeds
    {s : Maps} {op : Op} (h : s.succeeds op = false) : s.step op = s := by
  cases op with
  | allocate fuel r =>
    rw [Maps.step]
    rw [Maps.succeeds] at h
    cases hok : attemptAllocate fuel s.alloc r with
    | error x => rfl
    | ok alloc => rw [hok] at h; cases h
  | deallocate r =>
    rw [Maps.step]
    rw [Maps.succeeds] at h
    cases hok : attemptDeallocate s.alloc s.io r with
    | error x => rfl
    | ok res => rw [hok] at h; cases h
  | write fuel r =>
    rw [Maps.step]
    rw [Maps.succeeds] at h
    cases hok : attemptWrite fuel s.alloc s.io r with
    | error x => rfl
    | ok res => rw [hok] at h; cases h
  | removeAllAlloc r => cases h
  | removeAllIo r => cases h

theorem Tracks.step
    {s : Maps} {b : Bytes} (h : Tracks s b) {op : Op} (hop : op.MergesAll s)
    (hsucceeds : s.succeeds op = true) : Tracks (s.step op) (b.after op) := by
  cases op with
  | allocate fuel r =>
    rw [Maps.succeeds] at hsucceeds
    rw [Maps.step]
    cases hok : attemptAllocate fuel s.alloc r with
    | error x => rw [hok] at hsucceeds; cases hsucceeds
    | ok alloc =>
      have hlive := attemptAllocate_live fuel h.alloc hop hok
      refine ⟨attemptAllocate_ordered fuel h.alloc hop hok, h.apart, ?_, ?_, ?_⟩
      · intro a
        rw [(hlive a).1, h.live]
        rfl
      · intro a
        have hfresh := (hlive a).2
        have hbound := @h.bound a
        rw [h.live] at hfresh
        rw [h.written]
        constructor
        · rintro ⟨ha, hw⟩
          exact ⟨.inl ha, hw, fun hra => hfresh hra ha⟩
        · rintro ⟨-, hw, -⟩
          exact ⟨hbound hw, hw⟩
      · intro a ha
        exact .inl (h.bound ha.1)
  | deallocate r =>
    rw [Maps.succeeds] at hsucceeds
    rw [Maps.step]
    cases hok : attemptDeallocate s.alloc s.io r with
    | error x => rw [hok] at hsucceeds; cases hsucceeds
    | ok res =>
      obtain ⟨alloc, io⟩ := res
      obtain ⟨rfl, hbytes⟩ :=
        attemptDeallocate_bytes h.alloc h.apart.ordered.ordered hop hok
      refine ⟨(attemptDeallocate_ordered h.alloc h.apart.ordered hok).1,
        h.apart.removeAll r, ?_, ?_, ?_⟩
      · intro a
        rw [(hbytes a).1, h.live]
        rfl
      · intro a
        rw [(hbytes a).2, h.written]
        exact ⟨fun ha => ⟨⟨ha.1.1, ha.2⟩, ha.1.2, ha.2⟩,
          fun ha => ⟨⟨ha.1.1, ha.2.1⟩, ha.1.2⟩⟩
      · intro a ha
        exact ⟨h.bound ha.1, ha.2⟩
  | write fuel r =>
    obtain ⟨hr, hlow, hmerge⟩ := hop
    rw [Maps.succeeds] at hsucceeds
    rw [Maps.step]
    cases hok : attemptWrite fuel s.alloc s.io r with
    | error x => rw [hok] at hsucceeds; cases hsucceeds
    | ok res =>
      obtain ⟨w, io⟩ := res
      obtain ⟨hapart, hwritten⟩ :=
        attemptWrite_apart fuel h.apart hr hlow hmerge hok
      have hlive : ∀ a, r.Contains a → a ∈ b.live := fun a ha =>
        (h.live a).mp (attemptWrite_live fuel h.alloc hok ha)
      refine ⟨h.alloc, hapart, h.live, ?_, ?_⟩
      · intro a
        rw [hwritten, h.written]
        constructor
        · rintro (ha | ha)
          · exact ⟨ha.1, .inl ha.2⟩
          · exact ⟨hlive a ha, .inr ha⟩
        · rintro ⟨ha, hw | hw⟩
          · exact .inl ⟨ha, hw⟩
          · exact .inr hw
      · rintro a (ha | ha)
        · exact h.bound ha
        · exact hlive a ha
  | removeAllAlloc r => exact hop.elim
  | removeAllIo r => exact hop.elim

theorem History.tracks {s : Maps} {b : Bytes} (h : History s b) : Tracks s b := by
  induction h with
  | empty =>
    have hempty : Ordered [] := ⟨by simp, List.Pairwise.nil⟩
    refine ⟨⟨hempty, nofun⟩, ⟨⟨hempty, nofun⟩, nofun, nofun⟩, ?_, ?_, ?_⟩
    · intro a
      exact iff_of_false (fun ⟨_, he, _⟩ => nomatch he) nofun
    · intro a
      exact iff_of_false (fun ⟨_, hk, _⟩ => nomatch hk) nofun
    · exact fun a ha => ha.elim
  | ok op _ hop hsucceeds ih => exact ih.step hop hsucceeds
  | error op _ hfails ih => rwa [step_of_not_succeeds hfails]

/-! ## Reads -/

theorem exists_common
    {i1 i2 : Interval} (h1 : i1.Valid) (h2 : i2.Valid)
    (h : i1.low.toInt ≤ i2.high.toInt ∧ i2.low.toInt ≤ i1.high.toInt) :
    ∃ a, i1.Contains a ∧ i2.Contains a := by
  unfold Interval.Valid at h1 h2
  unfold Interval.Contains
  by_cases hle : i1.low.toInt ≤ i2.low.toInt
  · exact ⟨i2.low, by omega, by omega⟩
  · exact ⟨i1.low, by omega, by omega⟩

theorem optionalFind_of_contains
    {δ : Type} {m : IntervalMap δ} (h : Ordered m.keys) {r : Interval}
    (hr : r.Valid) {k : Interval} (hk : k ∈ m.keys) {a : I64} (ha : r.Contains a)
    (hka : k.Contains a) :
    ∃ b ∈ m.bindings, optionalFind m r = some b.2 ∧
      r.low.toInt ≤ b.1.high.toInt ∧ b.1.low.toInt ≤ r.high.toInt := by
  cases hf : AvlMap.findBinding compare r m with
  | none =>
    have hnone := optionalFind_none h hr
      ((AvlMap.find_eq_none_iff compare r).mpr hf)
    have hmeets : intersects r k = true := by
      rw [intersects_iff hr (h.valid k hk)]
      unfold Interval.Contains at ha hka
      omega
    have hmem : k ∈ met m.keys r := List.mem_filter.mpr ⟨hk, hmeets⟩
    rw [hnone] at hmem
    cases hmem
  | some b =>
    have hmem := AvlMap.findBinding_mem compare r hf
    have hb := h.valid b.1 (List.mem_map_of_mem hmem)
    exact ⟨b, hmem, (AvlMap.find_eq_some_iff compare r).mpr ⟨b.1, hf⟩,
      (compare_eq_iff hr hb).mp (AvlMap.findBinding_some compare r hf).1⟩

/-- Where every address is allocated, a lookup finds an allocated range. -/
theorem find_live
    {alloc : IntervalMap Element} (h : AllocOrdered alloc) {r : Interval}
    (hr : r.Valid) (hlive : ∀ a, r.Contains a → Live alloc a) :
    ∃ e, optionalFind alloc r = some e ∧ e.status = .allocate := by
  have hstart : r.Contains r.low := ⟨le_rfl, hr⟩
  obtain ⟨e, he, -, hea⟩ := hlive r.low hstart
  obtain ⟨b, hb, hfind, hoverlap⟩ := optionalFind_of_contains h.ordered hr
    (List.mem_map_of_mem he) hstart hea
  have hvb := h.ordered.valid b.1 (List.mem_map_of_mem hb)
  obtain ⟨a, ha, hba⟩ := exists_common hr hvb hoverlap
  obtain ⟨e', he', hstatus, hea'⟩ := hlive a ha
  obtain rfl := bindings_eq_of_contains h.ordered hb he' hba hea'
  exact ⟨b.2, hfind, hstatus⟩

/-- Where every address of a range on one page is written, one stored range
covers it: another one that continues it would abut it. -/
theorem find_written
    {io : IntervalMap Interval} (h : Apart io) {r : Interval} (hr : r.Valid)
    (hpage : r.low.toInt / 4096 = r.high.toInt / 4096)
    (hwritten : ∀ a, r.Contains a → Written io a) :
    ∃ w, optionalFind io r = some w ∧ isIn w r = true := by
  have hstart : r.Contains r.low := ⟨le_rfl, hr⟩
  obtain ⟨k, hk, hka⟩ := hwritten r.low hstart
  obtain ⟨b, hb, hfind, hoverlap⟩ :=
    optionalFind_of_contains h.ordered.ordered hr hk hstart hka
  have hkey : b.1 ∈ io.keys := List.mem_map_of_mem hb
  have hself := h.ordered.self b hb
  have hvb := h.ordered.ordered.valid _ hkey
  refine ⟨b.2, hfind, ?_⟩
  rw [hself]
  rw [isIn_iff]
  unfold Interval.Valid at hr hvb
  refine ⟨?_, ?_⟩
  · by_contra hlt
    have hne : b.1.low ≠ BitVec.intMin 64 := by
      intro heq
      have hlow := BitVec.le_toInt r.low
      rw [heq] at hlt
      have hmin : (BitVec.intMin 64).toInt = -2 ^ 63 := rfl
      omega
    have hpred := toInt_pred hne
    have hcontains : r.Contains (b.1.low - 1) := by
      unfold Interval.Contains
      omega
    obtain ⟨k, hk, hka⟩ := hwritten _ hcontains
    have hgap := h.gap k hk b.1 hkey
    have hsame : k.Contains b.1.low → k = b.1 := fun hka' =>
      keys_eq_of_contains h.ordered.ordered hk hkey hka' ⟨le_rfl, hvb⟩
    unfold Interval.Contains at hka hsame
    by_cases hover : k.high.toInt < b.1.low.toInt
    · have hzero := hgap (by omega)
      omega
    · have heq := hsame (by omega)
      rw [heq] at hka
      omega
  · by_contra hlt
    have hne : b.1.high ≠ BitVec.intMax 64 := by
      intro heq
      have hhigh := BitVec.toInt_lt (x := r.high)
      rw [heq] at hlt
      have hmax : (BitVec.intMax 64).toInt = 2 ^ 63 - 1 := rfl
      omega
    have hsucc := toInt_succ hne
    have hcontains : r.Contains (b.1.high + 1) := by
      unfold Interval.Contains
      omega
    obtain ⟨k, hk, hka⟩ := hwritten _ hcontains
    have hgap := h.gap b.1 hkey k hk
    have hsame : k.Contains b.1.high → k = b.1 := fun hka' =>
      keys_eq_of_contains h.ordered.ordered hk hkey hka' ⟨hvb, le_rfl⟩
    unfold Interval.Contains at hka hsame
    by_cases hover : b.1.high.toInt < k.low.toInt
    · have hzero := hgap (by omega)
      omega
    · have heq := hsame (by omega)
      rw [heq] at hka
      omega

theorem readPage_iff
    {s : Maps} {b : Bytes} (h : Tracks s b) {r : Interval} (hr : r.Valid)
    (hpage : r.low.toInt / 4096 = r.high.toInt / 4096) :
    (readPage s.alloc s.io r).2 = .ok () ↔
      ∀ a, r.Contains a → a ∈ b.live ∧ a ∈ b.written := by
  constructor
  · intro hok a ha
    unfold readPage at hok
    split at hok
    · cases hok
    · split at hok
      · cases hok
      · split at hok
        · cases hok
        · rename_i w hf
          split_ifs at hok with hin
          obtain ⟨hkey, -, -, -⟩ := optionalFind_io_some h.apart.ordered hr hf
          have hcover := (isIn_iff _ _).mp hin
          exact (h.written a).mp
            ⟨w, hkey, hcover.1.trans ha.1, ha.2.trans hcover.2⟩
  · intro hall
    have hwritten : ∀ a, r.Contains a → Written s.io a := fun a ha =>
      (h.written a).mpr (hall a ha)
    have hlive : ∀ a, r.Contains a → Live s.alloc a := fun a ha =>
      (h.live a).mpr (hall a ha).1
    obtain ⟨e, hfind, hstatus⟩ := find_live h.alloc hr hlive
    obtain ⟨w, hfind', hin⟩ :=
      find_written h.apart hr hpage hwritten
    unfold readPage
    rw [hfind, hfind']
    simp only [hstatus]
    rw [if_pos hin]

theorem Tracks.attemptRead_iff
    {s : Maps} {b : Bytes} (h : Tracks s b) {r : Interval} (hr : r.Valid)
    (hlow : 0 ≤ r.low.toInt) {fuel : ℕ}
    (hfuel : r.high.toInt / 4096 - r.low.toInt / 4096 < fuel) :
    (attemptRead fuel s.alloc s.io r).2 = .ok () ↔
      ∀ a, r.Contains a → a ∈ b.live ∧ a ∈ b.written := by
  have hhigh := hr.high_nonneg hlow
  induction fuel generalizing r with
  | zero =>
    unfold Interval.Valid at hr
    omega
  | succ fuel ih =>
    rw [attemptRead]
    by_cases hpage : page r.low = page r.high
    · rw [if_pos hpage]
      exact readPage_iff h hr ((page_eq_iff hlow hhigh).mp hpage)
    · rw [if_neg hpage]
      rw [page_eq_iff hlow hhigh] at hpage
      have hlt : r.low.toInt.tdiv 4096 < r.high.toInt.tdiv 4096 := by
        rw [Int.tdiv_eq_ediv_of_nonneg hlow, Int.tdiv_eq_ediv_of_nonneg hhigh]
        unfold Interval.Valid at hr
        omega
      have hslt : (page r.low).slt (page r.high) = true := by
        rw [BitVec.slt_eq_decide, toInt_page, toInt_page]
        exact decide_eq_true hlt
      have hcut := toInt_lowRange_high hlt
      have hstart : (highRange r).low.toInt = _ := toInt_pageStart r.high
      have hsamelow : (lowRange r).low = r.low := rfl
      have hsamehigh : (highRange r).high = r.high := rfl
      rw [Int.tmod_eq_emod_of_nonneg hhigh] at hcut hstart
      unfold Interval.Valid at hr
      have hiflow := ih (lowRange_valid hlt) (by rwa [hsamelow])
        (by rw [hcut, hsamelow]; omega) (by rw [hcut]; omega)
      have hifhigh := ih (highRange_valid (by omega)) (by rw [hstart]; omega)
        (by rw [hstart, hsamehigh]; omega) (by rwa [hsamehigh])
      have hcontains := lowRange_or_highRange hlt (by omega)
      have hall : ((∀ a, (lowRange r).Contains a → a ∈ b.live ∧ a ∈ b.written) ∧
          ∀ a, (highRange r).Contains a → a ∈ b.live ∧ a ∈ b.written) ↔
            ∀ a, r.Contains a → a ∈ b.live ∧ a ∈ b.written := by
        constructor
        · rintro ⟨hlowall, hhighall⟩ a ha
          rcases (hcontains a).mp ha with ha | ha
          · exact hlowall a ha
          · exact hhighall a ha
        · intro hall
          exact ⟨fun a ha => hall a ((hcontains a).mpr (.inl ha)),
            fun a ha => hall a ((hcontains a).mpr (.inr ha))⟩
      rw [if_pos hslt]
      refine Iff.trans ?_ ((and_congr hiflow hifhigh).trans hall)
      cases hfirst : (attemptRead fuel s.alloc s.io (lowRange r)).2 with
      | error x => simp [hfirst]
      | ok u => simp [hfirst]

/-- In every history whose steps meet the condition, a read succeeds just where
every address of its range is allocated and has been written since. -/
theorem history_read_iff
    {s : Maps} {b : Bytes} (h : History s b) {r : Interval} (hr : r.Valid)
    (hlow : 0 ≤ r.low.toInt) {fuel : ℕ}
    (hfuel : r.high.toInt / 4096 - r.low.toInt / 4096 < fuel) :
    (attemptRead fuel s.alloc s.io r).2 = .ok () ↔
      ∀ a, r.Contains a → a ∈ b.live ∧ a ∈ b.written :=
  h.tracks.attemptRead_iff hr hlow hfuel

/-! ### Three writes side by side -/

instance (io : IntervalMap Interval) (r : Interval) :
    Decidable (MergesAll io r) :=
  inferInstanceAs (Decidable (∀ w ∈ optionalFind io (mergeRange r),
    ((met io.keys (mergeRange r)).filter fun k => k ≠ w).length ≤ 1 ∧
      ∀ k ∈ met io.keys (mergeRange r), isIn (hull w r) k = true))

theorem mergesAll_of_page
    {s : Maps} {r : Interval} (hr : r.Valid) (hlow : 0 ≤ r.low.toInt)
    (hpage : page r.low = page r.high) (hmerge : MergesAll s.io r) :
    (Op.write 1 r).MergesAll s := by
  refine ⟨hr, hlow, ?_⟩
  rw [WriteMergesAll, if_pos hpage]
  exact hmerge

/-- Two writes side by side, from left to right. -/
theorem history_read_iff_sideBySide :
    let s := ((Maps.empty.step (.allocate 1 (range 0 100))).step
      (.write 1 (range 0 1))).step (.write 1 (range 2 3))
    let b := (((⟨∅, ∅⟩ : Bytes).after (.allocate 1 (range 0 100))).after
      (.write 1 (range 0 1))).after (.write 1 (range 2 3))
    (attemptRead 1 s.alloc s.io (range 0 3)).2 = .ok () ↔
      ∀ a, (range 0 3).Contains a → a ∈ b.live ∧ a ∈ b.written := by
  have halloc : (Op.allocate 1 (range 0 100)).MergesAll Maps.empty :=
    (by decide : (range 0 100).Valid)
  have h1 := History.empty.ok _ halloc (by decide +kernel)
  have h2 := h1.ok (.write 1 (range 0 1))
    (mergesAll_of_page (by decide) (by decide) (by decide) (by decide +kernel))
    (by decide +kernel)
  have h3 := h2.ok (.write 1 (range 2 3))
    (mergesAll_of_page (by decide) (by decide) (by decide) (by decide +kernel))
    (by decide +kernel)
  exact history_read_iff h3 (by decide) (by decide) (by decide)

/-- The outer two of three writes side by side come first: the third is merged
with one of them only, and a read of the six bytes fails. -/
theorem read_outerFirst_fails :
    let ops := [Op.allocate 1 (range 0 100), .write 1 (range 0 1),
      .write 1 (range 4 5), .write 1 (range 2 3)]
    let s := ops.foldl Maps.step Maps.empty
    let b := ops.foldl Bytes.after ⟨∅, ∅⟩
    (∀ i < 4, ((ops.take i).foldl Maps.step Maps.empty).succeeds
        (ops.getD i (.deallocate (range 0 0))) = true) ∧
      (∀ a, (range 0 5).Contains a → a ∈ b.live ∧ a ∈ b.written) ∧
        (attemptRead 1 s.alloc s.io (range 0 5)).2 =
          .error (.readingUnwritten (range 0 5)) := by
  refine ⟨by decide +kernel, ?_, by decide +kernel⟩
  intro a ha
  have hlow : (0 : I64).toInt = 0 := rfl
  obtain ⟨h0, h5⟩ := ha
  simp only [List.foldl_cons, List.foldl_nil, Bytes.after, Interval.addresses,
    Interval.Contains, range, Set.mem_union, Set.mem_sdiff, Set.mem_ofPred_eq,
    Set.mem_empty_iff_false] at h0 h5 ⊢
  have h100 : (100 : I64).toInt = 100 := rfl
  have h1 : (1 : I64).toInt = 1 := rfl
  have h2 : (2 : I64).toInt = 2 := rfl
  have h3 : (3 : I64).toInt = 3 := rfl
  have h4 : (4 : I64).toInt = 4 := rfl
  have h5' : (5 : I64).toInt = 5 := rfl
  omega

end Fuzzball.IntervalTree
