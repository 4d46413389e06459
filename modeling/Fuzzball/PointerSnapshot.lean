import Fuzzball.Machine
import Fuzzball.PointerAreas

/-!
# Snapshots of pointer management

`make_snap` and `reset` copy references.  After a reset the manager answers as
it did at the snapshot, when no step in between changed the stack table or set
a count to 0 that the snapshot shares.
-/

namespace Fuzzball.PointerManagement

open IntervalTree

/-! ## Runs -/

inductive Op
  | updateStackEnd (esp : I64)
  | addAlloc (addr len : I64)
  | addDealloc (addr len : I64)
  | findReadProv (addr len : I64)
  | isSafeRead (prov : Provenance) (addr len : I64)
  | isSafeWrite (prov : Provenance) (addr len : I64)
  | makeSnap
  | reset

inductive Value
  | unit
  | bool (b : Bool)
  | provenance (p : Provenance)

/-- What a caller and the reporter see of a call. -/
abbrev Observation := Except PmExn Value × List Report

def Result.observe {α : Type} (r : Result α) (value : α → Value) :
    Observation × Manager :=
  ((r.answer.map value, r.reports), r.manager)

def step (o : Options) (s : Manager) : Op → Observation × Manager
  | .updateStackEnd esp => ((.ok .unit, []), updateStackEnd s esp)
  | .addAlloc addr len => (addAlloc o s addr len).observe fun _ => .unit
  | .addDealloc addr len => (addDealloc o s addr len).observe fun _ => .unit
  | .findReadProv addr len => (findReadProv s addr len).observe .provenance
  | .isSafeRead prov addr len => (isSafeRead o s prov addr len).observe .bool
  | .isSafeWrite prov addr len => (isSafeWrite o s prov addr len).observe .bool
  | .makeSnap => ((.ok .unit, []), makeSnap s)
  | .reset => ((.ok .unit, []), reset s)

/-- The managers of runs of any operations. -/
inductive Reachable (o : Options) : Manager → Prop
  | new (weirdCount : ℤ) : Reachable o (.new weirdCount)
  | step {s : Manager} (op : Op) : Reachable o s → Reachable o (step o s op).2

/-- The access counts are looked at. -/
def Options.Observed (o : Options) : Prop := o.readWriteWarnRatio ≠ -1

/-- The records that a read of the heap sets to 0. -/
def readRecords (s : Manager) (prov : Provenance) (addr len : I64) : List ℕ :=
  (attemptReadIn (pages (interval prov addr len)) s.assignRanges s.records
    s.ioRanges (interval prov addr len)).1

/-- A step that leaves alone what a snapshot shares with the manager: it adds
no byte to the stack table and takes none away, it sets no access count of the
snapshot from another value to 0 while counts are looked at, and it passes the
assertion on the length. -/
def Undisturbed (o : Options) (s : Manager) : Op → Prop
  | .updateStackEnd esp => s.stackEnd.slt esp = true →
      ∀ a, s.table a = true → a.slt s.stackEnd = false
  | .addAlloc _ _ => True
  | .addDealloc _ len => 0 < len.toInt
  | .findReadProv _ _ => True
  | .isSafeRead prov addr len => 0 < len.toInt ∧
      (readArea s.stackEnd addr (endAddr addr len) = .heap → o.Observed →
        ∀ r ∈ readRecords s prov addr len,
          (∃ b ∈ s.savedIoRanges.bindings, b.2 = r) →
            (s.records.get r).accessed = 0)
  | .isSafeWrite _ addr len => 0 < len.toInt ∧
      (writeArea s.stackEnd addr (endAddr addr len) = .stack →
        ∀ a ∈ bytes addr len, s.table a = true)
  | .makeSnap => False
  | .reset => True

/-! ## Managers that are alike -/

/-- A manager with other names for its records. -/
def Manager.relabel (s : Manager) (records : Records)
    (io savedIo : IntervalMap ℕ) : Manager :=
  { s with records := records, ioRanges := io, savedIoRanges := savedIo }

structure Manager.Bounded (s : Manager) : Prop where
  io : s.records.Bounds s.ioRanges
  savedIo : s.records.Bounds s.savedIoRanges

/-- Managers that differ in the names of the records, and in their access
counts when these are not looked at. -/
inductive Same (o : Options) (s : Manager) : Manager → Prop
  | relabel {f : ℕ → ℕ} {k : Records} {n n' : IntervalMap ℕ} :
      s.Bounded → Heap.Renaming (Alike o.Observed) s.records k f →
      Renames f s.ioRanges n → Renames f s.savedIoRanges n' →
      Same o s (s.relabel k n n')

/-- Results with the same answer and reports, that leave managers alike. -/
structure Result.Same {α : Type} (o : Options) (r r' : Result α) : Prop where
  answer : r.answer = r'.answer
  reports : r.reports = r'.reports
  manager : PointerManagement.Same o r.manager r'.manager

theorem gAssert_same
    {α : Type} {o : Options} {s t : Manager} (h : Same o s t)
    (assertion : Bool) (sawAt : String) {rest rest' : Manager → Result α}
    (hrest : ∀ s t, Same o s t → (rest s).Same o (rest' t)) :
    (gAssert o s assertion sawAt rest).Same o
      (gAssert o t assertion sawAt rest') := by
  unfold gAssert
  cases assertion with
  | true => exact hrest s t h
  | false =>
    obtain ⟨hb, hf, hn, hn'⟩ := h
    rename_i f k n n'
    have hnext : Same o { s with weirdCount := s.weirdCount + 100 }
        { s.relabel k n n' with weirdCount := s.weirdCount + 100 } :=
      .relabel (s := { s with weirdCount := s.weirdCount + 100 })
        ⟨hb.io, hb.savedIo⟩ hf hn hn'
    dsimp only [Manager.relabel]
    simp only [Bool.false_eq_true, if_false]
    split_ifs
    · exact ⟨rfl, rfl, hnext⟩
    · exact hrest _ _ hnext

theorem updateStackEnd_relabel
    (s : Manager) (k : Records) (n n' : IntervalMap ℕ) (esp : I64) :
    updateStackEnd (s.relabel k n n') esp =
      (updateStackEnd s esp).relabel k n n' := by
  have hend : (s.relabel k n n').stackEnd = s.stackEnd := rfl
  unfold updateStackEnd
  rw [hend]
  split_ifs <;> rfl

/-- The stack end moves, and the stack table may change. -/
theorem updateStackEnd_eq (s : Manager) (esp : I64) :
    updateStackEnd s esp =
      { s with
        tables := (updateStackEnd s esp).tables
        stackEnd := esp } := by
  unfold updateStackEnd
  split_ifs <;> rfl

theorem updateStackEnd_same {o : Options} {s t : Manager} (h : Same o s t)
    (esp : I64) : Same o (updateStackEnd s esp) (updateStackEnd t esp) := by
  obtain ⟨hb, hf, hn, hn'⟩ := h
  rw [updateStackEnd_relabel, updateStackEnd_eq]
  exact .relabel ⟨hb.io, hb.savedIo⟩ hf hn hn'

theorem addAlloc_same {o : Options} {s t : Manager} (h : Same o s t)
    (addr len : I64) :
    (addAlloc o s addr len).Same o (addAlloc o t addr len) := by
  obtain ⟨hb, hf, hn, hn'⟩ := h
  unfold addAlloc
  dsimp only [Manager.relabel]
  split_ifs
  · exact ⟨rfl, rfl, .relabel hb hf hn hn'⟩
  · split
    · exact ⟨rfl, rfl, .relabel ⟨hb.io, hb.savedIo⟩ hf hn hn'⟩
    · exact ⟨rfl, rfl, .relabel hb hf hn hn'⟩
    · exact ⟨rfl, rfl, .relabel hb hf hn hn'⟩

/-- Whether a range is freed does not depend on the map of the reads. -/
theorem attemptDeallocateIn_cases
    (alloc : IntervalMap Element) (m n : IntervalMap ℕ) (a : Interval) :
    (∃ x, attemptDeallocateIn alloc m a = .error x ∧
        attemptDeallocateIn alloc n a = .error x) ∨
      ∃ alloc', attemptDeallocateIn alloc m a = .ok (alloc', removeAll m a) ∧
        attemptDeallocateIn alloc n a = .ok (alloc', removeAll n a) := by
  unfold attemptDeallocateIn
  split
  · split
    · exact .inl ⟨_, rfl, rfl⟩
    · split_ifs
      · exact .inr ⟨_, rfl, rfl⟩
      · exact .inl ⟨_, rfl, rfl⟩
  · exact .inl ⟨_, rfl, rfl⟩

theorem addDealloc_same {o : Options} {s t : Manager} (h : Same o s t)
    (addr len : I64) :
    (addDealloc o s addr len).Same o (addDealloc o t addr len) := by
  refine gAssert_same h _ _ ?_
  rintro s t ⟨hb, hf, hn, hn'⟩
  dsimp only [Manager.relabel]
  rename_i records io savedIo
  obtain ⟨x, hs, ht⟩ | ⟨alloc, hs, ht⟩ := attemptDeallocateIn_cases
    s.assignRanges s.ioRanges io (interval .internal addr len)
  · rw [hs, ht]
    cases x <;> exact ⟨rfl, rfl, .relabel hb hf hn hn'⟩
  · rw [hs, ht]
    exact ⟨rfl, rfl, .relabel ⟨bounds_removeAll hb.io _, hb.savedIo⟩ hf
      (hn.removeAll rfl) hn'⟩

theorem findReadProv_same {o : Options} {s t : Manager} (h : Same o s t)
    (addr len : I64) :
    (findReadProv s addr len).Same o (findReadProv t addr len) := by
  obtain ⟨hb, hf, hn, hn'⟩ := h
  unfold findReadProv
  dsimp only [Manager.relabel]
  rw [hn.optionalFind_eq]
  cases hfind : optionalFind s.ioRanges (interval .internal addr len) with
  | none => exact ⟨rfl, rfl, .relabel hb hf hn hn'⟩
  | some r =>
    have hr := hf.related r (hb.io.find_lt hfind)
    refine ⟨?_, rfl, .relabel hb hf hn hn'⟩
    exact congrArg Except.ok hr.provenance

theorem readHeap_same {o : Options} {s t : Manager} (h : Same o s t)
    (prov : Provenance) (addr len : I64) :
    (readHeap s prov addr len).Same o (readHeap t prov addr len) := by
  obtain ⟨hb, hf, hn, hn'⟩ := h
  unfold readHeap
  dsimp only [Manager.relabel]
  rw [attemptReadIn_alike hf hb.io hn]
  have hmem := fun r hr => attemptReadIn_mem s.assignRanges s.records s.ioRanges
    (pages (interval prov addr len)) (interval prov addr len) (r := r) hr
  generalize attemptReadIn _ _ _ _ _ = read at hmem
  obtain ⟨cleared, outcome⟩ := read
  have hcleared : ∀ r ∈ cleared, r < s.records.next := by
    intro r hr
    obtain ⟨b, hb', rfl⟩ := hmem r hr
    exact hb.io b hb'
  have hf' := foldl_clearAccess_alike hf cleared hcleared
  have hb' : Manager.Bounded
      { s with records := cleared.foldl clearAccess s.records } := by
    have hnext := (foldl_clearAccess_next s.records cleared).ge
    exact ⟨hb.io.mono hnext, hb.savedIo.mono hnext⟩
  cases outcome with
  | ok u => exact ⟨rfl, rfl, .relabel hb' hf' hn hn'⟩
  | error x => cases x <;> exact ⟨rfl, rfl, .relabel hb' hf' hn hn'⟩

theorem isSafeRead_same {o : Options} {s t : Manager} (h : Same o s t)
    (prov : Provenance) (addr len : I64) :
    (isSafeRead o s prov addr len).Same o (isSafeRead o t prov addr len) := by
  refine gAssert_same h _ _ ?_
  intro s t h
  have hend : t.stackEnd = s.stackEnd := by
    obtain ⟨-, -, -, -⟩ := h
    rfl
  have hreports : uninitReports t addr len = uninitReports s addr len := by
    obtain ⟨-, -, -, -⟩ := h
    rfl
  unfold checkRead
  rw [hend, hreports]
  split
  · exact readHeap_same h prov addr len
  all_goals exact ⟨rfl, rfl, h⟩

theorem writeHeap_same {o : Options} {s t : Manager} (h : Same o s t)
    (prov : Provenance) (addr len : I64) :
    (writeHeap o s prov addr len).Same o (writeHeap o t prov addr len) := by
  have hs := h
  obtain ⟨hb, hf, hn, hn'⟩ := h
  rename_i f k n n'
  unfold writeHeap
  dsimp only [Manager.relabel]
  have halike := attemptWriteIn_alike hf hb.io hn s.assignRanges
    (pages (interval prov addr len)) (interval prov addr len)
  generalize hright : attemptWriteIn _ _ k n _ = y at halike
  cases hleft : attemptWriteIn (pages (interval prov addr len)) s.assignRanges
      s.records s.ioRanges (interval prov addr len) with
  | error x =>
    rw [hleft] at halike
    cases halike
    dsimp only
    cases conflictReport addr len x <;> exact ⟨rfl, rfl, hs⟩
  | ok x =>
    obtain ⟨w, m, records⟩ := x
    have hgrows := attemptWriteIn_grows _ hb.io hleft
    rw [hleft] at halike
    obtain _ | ⟨hw, hren, hold, hmn⟩ := halike
    rename_i v l k' g
    have hreports : suspiciousReports o addr len w =
        suspiciousReports o addr len v := by
      unfold suspiciousReports
      by_cases hobs : o.readWriteWarnRatio = -1
      · simp [hobs]
      · rw [hw.accessed hobs]
    have hsaved : Renames g s.savedIoRanges n' := by
      have hcongr : s.savedIoRanges.map bare g = s.savedIoRanges.map bare f :=
        AvlMap.map_congr bare fun b hb' => hold b.2 (hb.savedIo b hb')
      exact hn'.trans hcongr.symm
    have hprov : w.provenance = prov := attemptWriteIn_provenance _ hleft
    have hprov' : v.provenance = prov := hw.provenance.symm.trans hprov
    dsimp only
    rw [gAssert_true (decide_eq_true hprov), gAssert_true (decide_eq_true hprov'),
      hreports]
    exact ⟨rfl, rfl, .relabel (s := { s with ioRanges := m, records := records })
      ⟨hgrows.bounds, hb.savedIo.mono hgrows.heap.next_le⟩ hren hmn hsaved⟩

theorem isSafeWrite_same {o : Options} {s t : Manager} (h : Same o s t)
    (prov : Provenance) (addr len : I64) :
    (isSafeWrite o s prov addr len).Same o
      (isSafeWrite o t prov addr len) := by
  refine gAssert_same h _ _ ?_
  intro s t h
  have hend : t.stackEnd = s.stackEnd := by
    obtain ⟨-, -, -, -⟩ := h
    rfl
  unfold checkWrite
  rw [hend]
  split
  · exact writeHeap_same h prov addr len
  · obtain ⟨hb, hf, hn, hn'⟩ := h
    exact ⟨rfl, rfl, .relabel ⟨hb.io, hb.savedIo⟩ hf hn hn'⟩
  all_goals exact ⟨rfl, rfl, h⟩

theorem Result.Same.observe
    {α : Type} {o : Options} {r r' : Result α} (h : r.Same o r')
    (value : α → Value) :
    (r.observe value).1 = (r'.observe value).1 ∧
      PointerManagement.Same o (r.observe value).2 (r'.observe value).2 := by
  refine ⟨?_, h.manager⟩
  rw [Result.observe, Result.observe, h.answer, h.reports]

/-- Managers that are alike answer and report the same in every run. -/
theorem same_bisimulation (o : Options) :
    Machine.Bisimulation (step o) (Same o) := by
  intro s t op h
  cases op with
  | updateStackEnd esp => exact ⟨rfl, updateStackEnd_same h esp⟩
  | addAlloc addr len => exact (addAlloc_same h addr len).observe _
  | addDealloc addr len => exact (addDealloc_same h addr len).observe _
  | findReadProv addr len => exact (findReadProv_same h addr len).observe _
  | isSafeRead prov addr len =>
    exact (isSafeRead_same h prov addr len).observe _
  | isSafeWrite prov addr len =>
    exact (isSafeWrite_same h prov addr len).observe _
  | makeSnap =>
    obtain ⟨hb, hf, hn, hn'⟩ := h
    exact ⟨rfl, .relabel ⟨hb.io, hb.io⟩ hf hn hn⟩
  | reset =>
    obtain ⟨hb, hf, hn, hn'⟩ := h
    exact ⟨rfl, .relabel ⟨hb.savedIo, hb.savedIo⟩ hf hn' hn'⟩

/-! ## What a snapshot keeps -/

theorem Same.bounded {o : Options} {s t : Manager} (h : Same o s t) :
    s.Bounded := by
  obtain ⟨hb, -, -, -⟩ := h
  exact hb

theorem Manager.new_same (o : Options) (weirdCount : ℤ) :
    Same o (.new weirdCount) (.new weirdCount) := by
  refine .relabel (s := .new weirdCount) (f := id) ⟨?_, ?_⟩ ?_ rfl rfl
  · intro b hb
    simp [Manager.new] at hb
  · intro b hb
    simp [Manager.new] at hb
  · exact ⟨fun r hr => hr, fun r _ s _ h => h, fun r _ => Alike.refl _⟩

theorem Reachable.bounded {o : Options} {s : Manager} (h : Reachable o s) :
    s.Bounded := by
  suffices hsame : Same o s s from hsame.bounded
  induction h with
  | new weirdCount => exact Manager.new_same o weirdCount
  | step op _ ih => exact (same_bisimulation o _ _ op ih).2

/-- A manager whose snapshot is the one made at `s`: the records and the stack
table that the snapshot shares are as they were. -/
structure Since (o : Options) (s t : Manager) : Prop where
  savedAssignRanges : t.savedAssignRanges = s.assignRanges
  savedIoRanges : t.savedIoRanges = s.ioRanges
  savedStackTable : t.savedStackTable = s.stackTable
  savedStackEnd : t.savedStackEnd = s.stackEnd
  stackTable : t.stackTable = s.stackTable
  tables : t.tables = s.tables
  weirdCount : t.weirdCount = s.weirdCount
  next_le : s.records.next ≤ t.records.next
  alike : ∀ r < s.records.next,
    Alike o.Observed (s.records.get r) (t.records.get r)
  bounds : t.records.Bounds t.ioRanges
  refs : ∀ b ∈ t.ioRanges.bindings, b.2 < s.records.next →
    ∃ c ∈ s.ioRanges.bindings, c.2 = b.2

theorem since_makeSnap {o : Options} {s : Manager} (hs : s.Bounded) :
    Since o s (makeSnap s) where
  savedAssignRanges := rfl
  savedIoRanges := rfl
  savedStackTable := rfl
  savedStackEnd := rfl
  stackTable := rfl
  tables := rfl
  weirdCount := rfl
  next_le := le_rfl
  alike _ _ := Alike.refl _
  bounds := hs.io
  refs b hb _ := ⟨b, hb, rfl⟩

theorem foldl_replace_eq {table : StackTable} {as : List I64}
    (has : ∀ a ∈ as, table a = true) :
    as.foldl StackTable.replace table = table := by
  induction as with
  | nil => rfl
  | cons a as ih =>
    have hsame : table.replace a = table := by
      rw [StackTable.replace, ← has a List.mem_cons_self,
        Function.update_eq_self]
    rw [List.foldl_cons, hsame]
    exact ih fun b hb => has b (List.mem_cons_of_mem a hb)

section Since

variable {o : Options} {s t : Manager} (h : Since o s t)

include h

theorem Since.same_reset (hs : s.Bounded) :
    Same o (makeSnap s) (reset t) := by
  have hreset : reset t =
      (makeSnap s).relabel t.records s.ioRanges s.ioRanges := by
    unfold reset makeSnap Manager.relabel
    rw [h.savedAssignRanges, h.savedIoRanges, h.savedStackTable,
      h.savedStackEnd, h.tables, h.weirdCount]
  rw [hreset]
  refine .relabel (f := id) ⟨hs.io, hs.io⟩ ⟨?_, ?_, h.alike⟩ rfl rfl
  · intro r hr
    exact hr.trans_le h.next_le
  · intro r _ r' _ heq
    exact heq

theorem Since.updateStackEnd {esp : I64}
    (hop : Undisturbed o t (.updateStackEnd esp)) :
    Since o s (updateStackEnd t esp) := by
  have htables : (PointerManagement.updateStackEnd t esp).tables =
      t.tables := by
    unfold PointerManagement.updateStackEnd
    split_ifs with hlt
    · have hsame : (fun addr => t.table addr && !addr.slt t.stackEnd) =
          t.tables t.stackTable := by
        funext a
        change (t.table a && !a.slt t.stackEnd) = t.table a
        cases ha : t.table a with
        | false => rfl
        | true => simp [hop hlt a ha]
      dsimp only [Manager.setTable]
      rw [hsame, Function.update_eq_self]
    · rfl
  rw [updateStackEnd_eq, htables]
  exact { h with }

theorem Since.addAlloc (addr len : I64) :
    Since o s (addAlloc o t addr len).manager := by
  unfold PointerManagement.addAlloc
  dsimp only
  split_ifs
  · exact h
  · split
    · exact { h with }
    · exact h
    · exact h

theorem Since.addDealloc {addr len : I64} (hlen : 0 < len.toInt) :
    Since o s (addDealloc o t addr len).manager := by
  unfold PointerManagement.addDealloc
  rw [gAssert_true (slt_len hlen)]
  obtain ⟨x, ht, -⟩ | ⟨alloc, ht, -⟩ := attemptDeallocateIn_cases
    t.assignRanges t.ioRanges t.ioRanges (interval .internal addr len)
  · rw [ht]
    cases x <;> exact h
  · rw [ht]
    refine { h with bounds := bounds_removeAll h.bounds _, refs := ?_ }
    intro b hb hlt
    exact h.refs b (removeAll_bindings_subset _ _ hb) hlt

theorem Since.readHeap {prov : Provenance} {addr len : I64}
    (hclear : o.Observed → ∀ r ∈ readRecords t prov addr len,
      (∃ b ∈ t.savedIoRanges.bindings, b.2 = r) →
        (t.records.get r).accessed = 0) :
    Since o s (readHeap t prov addr len).manager := by
  have hmanager : (PointerManagement.readHeap t prov addr len).manager =
      { t with
        records :=
          (readRecords t prov addr len).foldl clearAccess t.records } := by
    unfold PointerManagement.readHeap
    dsimp only
    split <;> rfl
  have hnext := foldl_clearAccess_next t.records (readRecords t prov addr len)
  rw [hmanager]
  refine { h with next_le := ?_, alike := ?_, bounds := ?_ }
  · exact h.next_le.trans hnext.ge
  · intro r hr
    refine (h.alike r hr).trans ?_
    rw [foldl_clearAccess_get]
    split_ifs with hmem
    · refine ⟨rfl, rfl, rfl, fun hobs => ?_⟩
      obtain ⟨b, hb, hbr⟩ := attemptReadIn_mem _ _ _ _ _ hmem
      obtain ⟨c, hc, hcb⟩ := h.refs b hb (hbr ▸ hr)
      refine hclear hobs r hmem ⟨c, ?_, hcb.trans hbr⟩
      rw [h.savedIoRanges]
      exact hc
    · exact Alike.refl _
  · exact h.bounds.mono hnext.ge

theorem Since.isSafeRead {prov : Provenance} {addr len : I64}
    (hop : Undisturbed o t (.isSafeRead prov addr len)) :
    Since o s (isSafeRead o t prov addr len).manager := by
  unfold PointerManagement.isSafeRead
  rw [gAssert_true (slt_len hop.1)]
  unfold checkRead
  split
  · rename_i harea
    exact h.readHeap (hop.2 harea)
  all_goals exact h

theorem Since.writeHeap (prov : Provenance) (addr len : I64) :
    Since o s (writeHeap o t prov addr len).manager := by
  unfold PointerManagement.writeHeap
  dsimp only
  cases hwrite : attemptWriteIn (pages (interval prov addr len))
      t.assignRanges t.records t.ioRanges (interval prov addr len) with
  | error x =>
    dsimp only
    cases conflictReport addr len x <;> exact h
  | ok x =>
    obtain ⟨w, m, records⟩ := x
    have hprov : w.provenance = prov := attemptWriteIn_provenance _ hwrite
    have hgrows := attemptWriteIn_grows _ h.bounds hwrite
    dsimp only
    rw [gAssert_true (decide_eq_true hprov)]
    refine { h with next_le := ?_, alike := ?_, bounds := hgrows.bounds,
                    refs := ?_ }
    · exact h.next_le.trans hgrows.heap.next_le
    · intro r hr
      have hget := hgrows.heap.get_eq r (hr.trans_le h.next_le)
      change Alike _ _ (records.get r)
      rw [hget]
      exact h.alike r hr
    · intro b hb hlt
      obtain ⟨c, hc, hcb⟩ := hgrows.refs b hb (hlt.trans_le h.next_le)
      obtain ⟨d, hd, hdc⟩ := h.refs c hc (hcb ▸ hlt)
      exact ⟨d, hd, hdc.trans hcb⟩

theorem Since.isSafeWrite {prov : Provenance} {addr len : I64}
    (hop : Undisturbed o t (.isSafeWrite prov addr len)) :
    Since o s (isSafeWrite o t prov addr len).manager := by
  unfold PointerManagement.isSafeWrite
  rw [gAssert_true (slt_len hop.1)]
  unfold checkWrite
  split
  · exact h.writeHeap prov addr len
  · rename_i harea
    have htable : t.setTable ((bytes addr len).foldl StackTable.replace t.table)
        = t := by
      rw [foldl_replace_eq (hop.2 harea), Manager.setTable, Manager.table,
        Function.update_eq_self]
    rw [htable]
    exact h
  all_goals exact h

theorem Since.reset (hs : s.Bounded) : Since o s (reset t) where
  savedAssignRanges := h.savedAssignRanges
  savedIoRanges := h.savedIoRanges
  savedStackTable := h.savedStackTable
  savedStackEnd := h.savedStackEnd
  stackTable := h.savedStackTable
  tables := h.tables
  weirdCount := h.weirdCount
  next_le := h.next_le
  alike := h.alike
  bounds := by
    change t.records.Bounds t.savedIoRanges
    rw [h.savedIoRanges]
    exact hs.io.mono h.next_le
  refs := by
    intro b hb _
    change b ∈ t.savedIoRanges.bindings at hb
    rw [h.savedIoRanges] at hb
    exact ⟨b, hb, rfl⟩

theorem Since.step (hs : s.Bounded) {op : Op} (hop : Undisturbed o t op) :
    Since o s (step o t op).2 := by
  cases op with
  | updateStackEnd esp => exact h.updateStackEnd hop
  | addAlloc addr len => exact h.addAlloc addr len
  | addDealloc addr len => exact h.addDealloc hop
  | findReadProv addr len =>
    change Since o s (findReadProv t addr len).manager
    unfold findReadProv
    split <;> exact h
  | isSafeRead prov addr len => exact h.isSafeRead hop
  | isSafeWrite prov addr len => exact h.isSafeWrite hop
  | makeSnap => exact hop.elim
  | reset => exact h.reset hs

end Since

/-! ## Reset -/

/-- After any run of undisturbed steps from a snapshot, a reset manager answers
and reports to all later calls what it did at the snapshot. -/
theorem reset_outputs
    {o : Options} {s : Manager} (hs : Reachable o s) {ops : List Op}
    (hops : Machine.Meets (step o) (Undisturbed o) (makeSnap s) ops)
    (calls : List Op) :
    Machine.outputs (step o) (reset (Machine.run (step o) (makeSnap s) ops))
        calls =
      Machine.outputs (step o) (makeSnap s) calls := by
  have hrun : Since o s (Machine.run (step o) (makeSnap s) ops) :=
    Machine.run_invariant (fun _ _ h hop => h.step hs.bounded hop)
      (since_makeSnap hs.bounded) hops
  exact ((same_bisimulation o).outputs_eq (hrun.same_reset hs.bounded)
    calls).symm

/-- A manager with 16 bytes of stack, the upper 4 of them initialised. -/
def withStack : Manager :=
  Machine.run (step .default) (.new 0)
    [.updateStackEnd 0xbaaaaff0, .isSafeWrite .internal 0xbaaaaffc 4]

theorem withStack_reachable : Reachable .default withStack :=
  .step _ (.step _ (.new 0))

/-- Initialised bytes of the stack are written, the stack end moves down, and a
block is allocated, written and read. -/
def quietOps : List Op :=
  [.isSafeWrite .internal 0xbaaaaffc 4, .updateStackEnd 0xbaaaafe0,
    .addAlloc 0x50000000 0x1000, .isSafeWrite .external 0x50000010 4,
    .isSafeRead .internal 0x50000010 4]

theorem reset_outputs_quietOps :
    Machine.outputs (step .default)
        (reset (Machine.run (step .default) (makeSnap withStack) quietOps))
        quietOps =
      Machine.outputs (step .default) (makeSnap withStack) quietOps := by
  have hops : Machine.Meets (step .default) (Undisturbed .default)
      (makeSnap withStack) quietOps := by
    refine ⟨⟨by decide, ?_⟩, ?_, trivial, ⟨by decide, ?_⟩, ⟨by decide, ?_⟩,
      trivial⟩
    · have hbytes : bytes 0xbaaaaffc 4 =
          [0xbaaaaffc, 0xbaaaaffd, 0xbaaaaffe, 0xbaaaafff] := by
        decide +kernel
      intro _
      rw [hbytes]
      simp only [List.forall_mem_cons]
      exact ⟨rfl, rfl, rfl, rfl, List.forall_mem_nil _⟩
    · intro hlt
      exact absurd hlt (by decide +kernel)
    · intro harea
      exact absurd harea (by decide +kernel)
    · intro _ hobs
      exact absurd rfl hobs
  exact reset_outputs withStack_reachable hops quietOps

/-- Options with warnings about writes before reads. -/
def warning : Options := { Options.default with readWriteWarnRatio := 1 }

/-- A manager with an allocated block of which 4 bytes are written. -/
def withBlock : Manager :=
  Machine.run (step warning) (.new 0)
    [.addAlloc 0x50000000 0x1000, .isSafeWrite .internal 0x50000010 4]

theorem withBlock_reachable : Reachable warning withBlock :=
  .step _ (.step _ (.new 0))

/-- Stack bytes that are written after the snapshot are initialised after the
reset, and the count of a record that is read after it is still 0. -/
theorem reset_leaks :
    (Reachable .default withStack ∧
      Machine.outputs (step .default)
          (reset (Machine.run (step .default) (makeSnap withStack)
            [.isSafeWrite .internal 0xbaaaaff0 4]))
          [.isSafeRead .internal 0xbaaaaff0 4] ≠
        Machine.outputs (step .default) (makeSnap withStack)
          [.isSafeRead .internal 0xbaaaaff0 4]) ∧
    Reachable warning withBlock ∧
      Machine.outputs (step warning)
          (reset (Machine.run (step warning) (makeSnap withBlock)
            [.isSafeRead .internal 0x50000010 4]))
          [.isSafeWrite .internal 0x50000010 4] ≠
        Machine.outputs (step warning) (makeSnap withBlock)
          [.isSafeWrite .internal 0x50000010 4] := by
  refine ⟨⟨withStack_reachable, ?_⟩, withBlock_reachable, ?_⟩
  · intro h
    have hreports := congrArg (List.map fun x : Observation => x.2.length) h
    exact absurd hreports (by decide +kernel)
  · intro h
    have hreports := congrArg (List.map fun x : Observation => x.2.length) h
    exact absurd hreports (by decide +kernel)

end Fuzzball.PointerManagement
