import Fuzzball.PointerSnapshot

/-!
# Which bytes of the stack are initialised

The stack table against a tracker that keeps, of every address, whether it was
written since the stack pointer was last above it.
-/

namespace Fuzzball.PointerManagement

open IntervalTree

/-! ## Updates, reads and writes of the stack -/

inductive StackOp
  | update (esp : I64)
  | read (prov : Provenance) (addr len : I64)
  | write (prov : Provenance) (addr len : I64)

def StackOp.toOp : StackOp → Op
  | .update esp => .updateStackEnd esp
  | .read prov addr len => .isSafeRead prov addr len
  | .write prov addr len => .isSafeWrite prov addr len

/-- A range of addresses from the stack end up to the start of the stack. -/
structure InStack (s : Manager) (addr len : I64) : Prop where
  pos : 0 < len.toInt
  ordered : addr.toInt ≤ (endAddr addr len).toInt
  contained : isContained addr (endAddr addr len) s.stackEnd stackStart = true

/-- Reads and writes are those of the stack. -/
def StackOp.OnStack (s : Manager) : StackOp → Prop
  | .update _ => True
  | .read _ addr len | .write _ addr len => InStack s addr len

/-! ## The tracker -/

/-- The stack pointer, and the addresses written since it was last above
them. -/
structure Tracker where
  stackPointer : I64
  written : Set I64

def Tracker.step (g : Tracker) : StackOp → Tracker
  | .update esp => ⟨esp, {a ∈ g.written | esp.toInt ≤ a.toInt}⟩
  | .read _ _ _ => g
  | .write _ addr len =>
    { g with written := g.written ∪ addresses addr (endAddr addr len) }

def Tracker.start : Tracker := ⟨0xbaaab000, ∅⟩

/-- A report that the check of a read makes about an uninitialised byte. -/
def ReportsUninit (reports : List Report) : Prop :=
  ∃ report ∈ reports, field "tag" (.text ":uninit-read") ∈ report

/-! ## Bytes of a range -/

section Range

variable {s : Manager} {addr len : I64} (h : InStack s addr len)

include h

theorem InStack.toInt_endAddr :
    (endAddr addr len).toInt = addr.toInt + (len.toInt - 1) := by
  have hpos := h.pos
  have hord := h.ordered
  have haddr := addr.toInt_lt
  have haddr' := addr.le_toInt
  have hlen := len.toInt_lt
  have hone : (1 : I64).toInt = 1 := by decide
  unfold endAddr at hord ⊢
  rw [BitVec.toInt_add, BitVec.toInt_sub, hone] at hord ⊢
  have hsub : (len.toInt - 1).bmod (2 ^ 64) = len.toInt - 1 := by
    apply Int.bmod_eq_of_le <;> omega
  rw [hsub] at hord ⊢
  have hsum : (addr.toInt + (len.toInt - 1)).bmod (2 ^ 64) =
      addr.toInt + (len.toInt - 1) ∨
      (addr.toInt + (len.toInt - 1)).bmod (2 ^ 64) =
        addr.toInt + (len.toInt - 1) - 2 ^ 64 := by
    rw [Int.bmod_def]
    omega
  omega

theorem InStack.toInt_byte {i : ℕ} (hi : (i : ℤ) < len.toInt) :
    (addr + I64.ofInt i).toInt = addr.toInt + i := by
  have hend := h.toInt_endAddr
  have hlt := (endAddr addr len).toInt_lt
  have haddr := addr.le_toInt
  have hlen := len.toInt_lt
  have hi64 : (I64.ofInt i).toInt = i := by
    apply BitVec.toInt_ofInt_eq_self <;> omega
  rw [BitVec.toInt_add, hi64]
  apply Int.bmod_eq_of_le <;> omega

/-- The addresses of the range, by their distance from its start. -/
theorem InStack.mem_addresses_iff {a : I64} :
    a ∈ addresses addr (endAddr addr len) ↔
      ∃ i : ℕ, (i : ℤ) < len.toInt ∧ a = addr + I64.ofInt i := by
  have hend := h.toInt_endAddr
  constructor
  · rintro ⟨hlow, hhigh⟩
    refine ⟨(a.toInt - addr.toInt).toNat, by omega, ?_⟩
    apply BitVec.eq_of_toInt_eq
    rw [h.toInt_byte (by omega)]
    omega
  · rintro ⟨i, hi, rfl⟩
    have hbyte := h.toInt_byte hi
    constructor <;> omega

/-- All bytes are marked by a loop that counts with an OCaml `int`. -/
theorem InStack.mem_bytes_iff (hlen : len.toInt < 2 ^ 62) {a : I64} :
    a ∈ bytes addr len ↔ a ∈ addresses addr (endAddr addr len) := by
  have hpos := h.pos
  have hint : len.toOCamlInt = len.toInt := by
    unfold I64.toOCamlInt
    rw [BitVec.toInt_eq_toNat_cond, BitVec.toNat_setWidth]
    rw [BitVec.toInt_eq_toNat_cond] at hlen hpos ⊢
    split_ifs at * <;> omega
  rw [h.mem_addresses_iff, bytes, hint]
  simp only [List.mem_map, List.bind_eq_flatMap, List.pure_def,
    List.mem_flatMap, List.mem_range, List.mem_singleton]
  constructor
  · rintro ⟨z, ⟨i, hi, rfl⟩, rfl⟩
    exact ⟨i, by omega, rfl⟩
  · rintro ⟨i, hi, rfl⟩
    exact ⟨i, ⟨i, by omega, rfl⟩, rfl⟩

/-- The loop of a read stops before the last byte. -/
theorem InStack.uninitReports_iff {table : StackTable}
    (htable : s.table = table) :
    uninitReports s addr len ≠ [] ↔
      ∃ a ∈ addresses addr (endAddr addr len),
        a ≠ endAddr addr len ∧ table a = false := by
  have hend := h.toInt_endAddr
  have hpos := h.pos
  have hcount : ((endAddr addr len - addr).toNat : ℤ) = len.toInt - 1 := by
    have hsub : endAddr addr len - addr = len - 1 := by
      simp [endAddr]
    have hlen := len.toInt_lt
    have hone : (1 : I64).toInt = 1 := by decide
    have hint : (len - 1).toInt = len.toInt - 1 := by
      rw [BitVec.toInt_sub, hone]
      apply Int.bmod_eq_of_le <;> omega
    rw [hsub, ← hint, BitVec.toInt_eq_toNat_cond]
    rw [BitVec.toInt_eq_toNat_cond] at hint
    split_ifs at * <;> omega
  unfold uninitReports
  rw [htable]
  simp only [ne_eq, List.map_eq_nil_iff, List.filter_eq_nil_iff, not_forall,
    List.bind_eq_flatMap, List.pure_def, List.mem_flatMap, List.mem_range,
    List.mem_singleton]
  constructor
  · rintro ⟨z, ⟨i, hi, rfl⟩, hbyte⟩
    refine ⟨addr + I64.ofInt i, ?_, ?_, by simpa using hbyte⟩
    · exact h.mem_addresses_iff.mpr ⟨i, by omega, rfl⟩
    · intro heq
      have htoInt := h.toInt_byte (i := i) (by omega)
      rw [heq] at htoInt
      omega
  · rintro ⟨a, ha, hne, hbyte⟩
    obtain ⟨i, hi, rfl⟩ := h.mem_addresses_iff.mp ha
    refine ⟨i, ⟨i, ?_, rfl⟩, by simpa using hbyte⟩
    have hlast : (i : ℤ) ≠ len.toInt - 1 := by
      intro heq
      apply hne
      apply BitVec.eq_of_toInt_eq
      rw [h.toInt_byte hi]
      omega
    omega

end Range

/-! ## The table and the tracker -/

/-- The manager and the tracker agree; nothing below the stack end is
marked. -/
structure Tracks (s : Manager) (g : Tracker) : Prop where
  stackPointer : g.stackPointer = s.stackEnd
  written : ∀ a, a ∈ g.written ↔ s.table a = true
  above : ∀ a, s.table a = true → s.stackEnd.toInt ≤ a.toInt

/-- An update pops no marked byte.  A write is taken for one of the stack, and
its length is one that an OCaml `int` holds.  A read with a byte that is not
marked is taken for one of the stack, and has such a byte before its last
one. -/
def Tracked (s : Manager) : StackOp → Prop
  | .update esp =>
    ∀ a, s.table a = true → esp.toInt ≤ a.toInt
  | .write _ addr len =>
    writeArea s.stackEnd addr (endAddr addr len) = .stack ∧
      len.toInt < 2 ^ 62
  | .read _ addr len =>
    (∃ a ∈ addresses addr (endAddr addr len), s.table a = false) →
      readArea s.stackEnd addr (endAddr addr len) = .stack ∧
        ∃ a ∈ addresses addr (endAddr addr len),
          a ≠ endAddr addr len ∧ s.table a = false

theorem tracks_new (weirdCount : ℤ) :
    Tracks (Manager.new weirdCount) Tracker.start := by
  refine ⟨rfl, ?_, ?_⟩
  · intro a
    exact ⟨fun h => h.elim, fun h => nomatch h⟩
  · intro a h
    exact nomatch h

theorem Manager.table_setTable (s : Manager) (table : StackTable) :
    (s.setTable table).table = table := by
  simp [Manager.table, Manager.setTable]

theorem updateStackEnd_table {s : Manager} {esp : I64}
    (habove : ∀ a, s.table a = true → s.stackEnd.toInt ≤ a.toInt) :
    (updateStackEnd s esp).table = s.table := by
  unfold updateStackEnd
  split_ifs
  · have hset := s.table_setTable fun addr =>
      s.table addr && !addr.slt s.stackEnd
    apply hset.trans
    funext a
    cases hmark : s.table a with
    | false => rfl
    | true =>
      have hle := habove a hmark
      have hslt : a.slt s.stackEnd = false := by
        rw [← Bool.not_eq_true, BitVec.slt_iff_toInt_lt]
        omega
      simp [hslt]
  · rfl

theorem Tracks.update {s : Manager} {g : Tracker} (h : Tracks s g) {esp : I64}
    (hop : Tracked s (.update esp)) :
    Tracks (updateStackEnd s esp) (g.step (.update esp)) := by
  have htable := @updateStackEnd_table s esp h.above
  refine ⟨rfl, ?_, ?_⟩
  · intro a
    rw [htable, ← h.written a]
    constructor
    · exact fun ha => ha.1
    · exact fun ha => ⟨ha, hop a ((h.written a).mp ha)⟩
  · intro a ha
    rw [htable] at ha
    exact hop a ha

theorem foldl_replace_iff (as : List I64) (table : StackTable) (a : I64) :
    as.foldl StackTable.replace table a = true ↔ a ∈ as ∨ table a = true := by
  induction as generalizing table with
  | nil => simp
  | cons b as ih =>
    rw [List.foldl_cons, ih, StackTable.replace, List.mem_cons]
    by_cases hab : a = b
    · simp [hab]
    · simp [hab]

theorem Tracks.write {o : Options} {s : Manager} {g : Tracker}
    (h : Tracks s g) {prov : Provenance} {addr len : I64}
    (hin : InStack s addr len) (hop : Tracked s (.write prov addr len)) :
    Tracks (isSafeWrite o s prov addr len).manager
      (g.step (.write prov addr len)) := by
  obtain ⟨harea, hlen⟩ := hop
  have hwrite : (isSafeWrite o s prov addr len).manager =
      s.setTable ((bytes addr len).foldl StackTable.replace s.table) := by
    unfold isSafeWrite
    rw [gAssert_true (slt_len hin.pos), checkWrite, harea]
  rw [hwrite]
  have hcontained := (isContained_iff _ _ _ _).mp hin.contained
  refine ⟨h.stackPointer, ?_, ?_⟩
  · intro a
    rw [Manager.table_setTable, foldl_replace_iff, hin.mem_bytes_iff hlen,
      ← h.written a]
    exact or_comm
  · intro a ha
    rw [Manager.table_setTable, foldl_replace_iff,
      hin.mem_bytes_iff hlen] at ha
    rcases ha with ha | ha
    · exact hcontained.1.trans ha.1
    · exact h.above a ha

/-! ## Reports of reads -/

theorem reportsUninit_iff (s : Manager) (addr len : I64) :
    ReportsUninit (uninitReports s addr len) ↔
      uninitReports s addr len ≠ [] := by
  constructor
  · rintro ⟨report, hmem, -⟩ hnil
    rw [hnil] at hmem
    cases hmem
  · intro hne
    obtain ⟨report, hmem⟩ := List.exists_mem_of_ne_nil _ hne
    refine ⟨report, hmem, ?_⟩
    unfold uninitReports at hmem
    obtain ⟨i, -, rfl⟩ := List.mem_map.mp hmem
    exact List.mem_cons_self

/-- Another tag, and fields with other names. -/
theorem not_mem_unsafeReport {subtag : String} {fields : Report}
    (hfields : ∀ f ∈ fields, f.1 ≠ OString.ofAscii "tag") :
    field "tag" (.text ":uninit-read") ∉
      unsafeReport ":unsafe-read" subtag fields := by
  intro hmem
  rcases List.mem_cons.mp hmem with heq | hmem
  · have htext := congrArg Prod.snd heq
    simp only [field, Json.text, Json.string.injEq] at htext
    exact absurd htext (by decide)
  · rcases List.mem_cons.mp hmem with heq | hmem
    · have hname := congrArg Prod.fst heq
      simp only [field] at hname
      exact absurd hname (by decide)
    · exact hfields _ hmem rfl

theorem readFields_ne_tag (addr len : I64) :
    ∀ f ∈ readFields addr len, f.1 ≠ OString.ofAscii "tag" := by
  intro f hf
  simp only [readFields, List.mem_cons, List.not_mem_nil, or_false] at hf
  rcases hf with rfl | rfl
  · exact (by decide : OString.ofAscii "read-start" ≠ OString.ofAscii "tag")
  · exact (by decide : OString.ofAscii "read-len" ≠ OString.ofAscii "tag")

theorem stackFields_ne_tag (stackEnd addr len : I64) :
    ∀ f ∈ stackFields stackEnd addr len, f.1 ≠ OString.ofAscii "tag" := by
  intro f hf
  rcases List.mem_cons.mp hf with rfl | hf
  · exact (by decide : OString.ofAscii "stack-start" ≠ OString.ofAscii "tag")
  · rcases List.mem_cons.mp hf with rfl | hf
    · exact (by decide : OString.ofAscii "stack-end" ≠ OString.ofAscii "tag")
    · exact readFields_ne_tag addr len f hf

theorem areaReports_other {stackEnd addr len : I64} {area : Area} :
    ¬ReportsUninit (areaReports ":unsafe-read" stackEnd addr len area) := by
  have hread := readFields_ne_tag addr len
  have hstack := stackFields_ne_tag stackEnd addr len
  rintro ⟨report, hmem, htag⟩
  cases area with
  | pastStack =>
    exact not_mem_unsafeReport hstack (List.mem_singleton.mp hmem ▸ htag)
  | beforeHeap | beforeProgram =>
    exact not_mem_unsafeReport hread (List.mem_singleton.mp hmem ▸ htag)
  | _ => cases hmem

theorem readHeap_other {s : Manager} {prov : Provenance} {addr len : I64} :
    ¬ReportsUninit (readHeap s prov addr len).reports := by
  rintro ⟨report, hmem, htag⟩
  unfold readHeap at hmem
  dsimp only at hmem
  split at hmem
  · cases hmem
  · rw [List.mem_singleton] at hmem
    exact not_mem_unsafeReport (readFields_ne_tag addr len) (hmem ▸ htag)
  · cases hmem
  · cases hmem

/-- Only the check of a read of the stack reports an uninitialised byte. -/
theorem checkRead_other {s : Manager} {prov : Provenance} {addr len : I64}
    (harea : readArea s.stackEnd addr (endAddr addr len) ≠ .stack) :
    ¬ReportsUninit (checkRead s prov addr len).reports := by
  have hnone : ¬ReportsUninit [] := fun ⟨_, hmem, _⟩ => nomatch hmem
  unfold checkRead
  split
  · exact readHeap_other
  · next heq => exact absurd heq harea
  · exact hnone
  · exact hnone
  · exact areaReports_other

/-- A read leaves the table. -/
theorem checkRead_table (s : Manager) (prov : Provenance) (addr len : I64) :
    (checkRead s prov addr len).manager.table = s.table ∧
      (checkRead s prov addr len).manager.stackEnd = s.stackEnd := by
  unfold checkRead
  split
  · unfold readHeap
    dsimp only
    split
    all_goals exact ⟨rfl, rfl⟩
  all_goals exact ⟨rfl, rfl⟩

/-- The reports of a read are right about the range. -/
def ReadReported (o : Options) (s : Manager) (g : Tracker) (prov : Provenance)
    (addr len : I64) : Prop :=
  ReportsUninit (isSafeRead o s prov addr len).reports ↔
    ∃ a ∈ addresses addr (endAddr addr len), a ∉ g.written

theorem Tracks.readReported_iff {o : Options} {s : Manager} {g : Tracker}
    (h : Tracks s g) {prov : Provenance} {addr len : I64}
    (hin : InStack s addr len) :
    ReadReported o s g prov addr len ↔ Tracked s (.read prov addr len) := by
  have hread : isSafeRead o s prov addr len = checkRead s prov addr len :=
    gAssert_true (slt_len hin.pos)
  have hunwritten : ∀ a, a ∉ g.written ↔ s.table a = false := by
    intro a
    rw [h.written a, Bool.not_eq_true]
  unfold ReadReported Tracked
  rw [hread]
  simp only [hunwritten]
  by_cases harea : readArea s.stackEnd addr (endAddr addr len) = .stack
  · rw [checkRead, harea]
    dsimp only
    rw [reportsUninit_iff, hin.uninitReports_iff rfl]
    constructor
    · exact fun hiff hsome => ⟨rfl, hiff.mpr hsome⟩
    · intro htracked
      constructor
      · rintro ⟨a, ha, -, hbyte⟩
        exact ⟨a, ha, hbyte⟩
      · exact fun hsome => (htracked hsome).2
  · have hnone := @checkRead_other _ prov _ _ harea
    constructor
    · exact fun hiff hsome => absurd (hiff.mpr hsome) hnone
    · intro htracked
      constructor
      · exact fun hreports => absurd hreports hnone
      · exact fun hsome => absurd (htracked hsome).1 harea

theorem Tracks.read {o : Options} {s : Manager} {g : Tracker}
    (h : Tracks s g) {prov : Provenance} {addr len : I64}
    (hin : InStack s addr len) :
    Tracks (isSafeRead o s prov addr len).manager
      (g.step (.read prov addr len)) := by
  have hread : isSafeRead o s prov addr len = checkRead s prov addr len :=
    gAssert_true (slt_len hin.pos)
  obtain ⟨htable, hend⟩ := checkRead_table s prov addr len
  rw [hread]
  refine ⟨h.stackPointer.trans hend.symm, ?_, ?_⟩
  · rw [htable]
    exact h.written
  · rw [htable, hend]
    exact h.above

/-! ## Runs -/

/-- Runs from a new manager, with the tracker beside it. -/
inductive TrackedRun (o : Options) : Manager → Tracker → Prop
  | new (weirdCount : ℤ) : TrackedRun o (.new weirdCount) .start
  | step {s : Manager} {g : Tracker} (op : StackOp) (h : TrackedRun o s g)
      (hon : op.OnStack s) (hop : Tracked s op) :
      TrackedRun o (PointerManagement.step o s op.toOp).2 (g.step op)

/-- Runs of any updates, reads and writes of the stack. -/
inductive StackRun (o : Options) : Manager → Tracker → Prop
  | new (weirdCount : ℤ) : StackRun o (.new weirdCount) .start
  | step {s : Manager} {g : Tracker} (op : StackOp) (h : StackRun o s g)
      (hon : op.OnStack s) :
      StackRun o (PointerManagement.step o s op.toOp).2 (g.step op)

theorem TrackedRun.tracks {o : Options} {s : Manager} {g : Tracker}
    (h : TrackedRun o s g) : Tracks s g := by
  induction h with
  | new weirdCount => exact tracks_new weirdCount
  | step op h hon hop ih =>
    cases op with
    | update esp => exact ih.update hop
    | read prov addr len => exact ih.read hon
    | write prov addr len => exact ih.write hon hop

/-- Nothing below the stack end is marked. -/
def NothingBelow (s : Manager) : Prop :=
  ∀ a : I64, a.toInt < s.stackEnd.toInt → s.table a = false

/-- In a run that pops no initialised byte and accesses no range that the
checks misjudge, nothing below the stack end is marked, and the next step keeps
it so and reports right if and only if it is such a step. -/
theorem trackedRun_initialised {o : Options} {s : Manager} {g : Tracker}
    (h : TrackedRun o s g) :
    NothingBelow s ∧
    (∀ esp, NothingBelow (updateStackEnd s esp) ↔ Tracked s (.update esp)) ∧
    ∀ prov addr len, InStack s addr len →
      (ReadReported o s g prov addr len ↔ Tracked s (.read prov addr len)) := by
  have htracks := h.tracks
  refine ⟨?_, ?_, fun prov addr len hin => htracks.readReported_iff hin⟩
  · intro a ha
    rw [← Bool.not_eq_true]
    intro hmark
    have hle := htracks.above a hmark
    omega
  · intro esp
    unfold NothingBelow Tracked
    rw [updateStackEnd_table htracks.above]
    change (∀ a : I64, a.toInt < esp.toInt → _) ↔ _
    constructor
    · intro hbelow a hmark
      by_contra hlt
      rw [hbelow a (by omega)] at hmark
      cases hmark
    · intro habove a ha
      rw [← Bool.not_eq_true]
      intro hmark
      have hle := habove a hmark
      omega

/-! ## A word that is pushed and popped -/

/-- The manager after four bytes have been pushed and written. -/
def pushed : Manager :=
  (isSafeWrite .default (updateStackEnd (.new 0) 0xbaaaaff0) .internal
    0xbaaaaff4 4).manager

def pushedTracker : Tracker :=
  (Tracker.start.step (.update 0xbaaaaff0)).step
    (.write .internal 0xbaaaaff4 4)

theorem inStack_pushed :
    InStack (updateStackEnd (.new 0) 0xbaaaaff0) 0xbaaaaff4 4 :=
  ⟨by decide, by decide, by decide⟩

theorem trackedRun_pushed :
    TrackedRun .default pushed pushedTracker := by
  have hnew : TrackedRun .default (.new 0) .start := .new 0
  have hupdate := hnew.step (.update 0xbaaaaff0) trivial
    fun a ha => nomatch ha
  exact hupdate.step (.write .internal 0xbaaaaff4 4) inStack_pushed
    ⟨by decide, by decide⟩

theorem trackedRun_initialised_pushed :
    pushed.table 0xbaaaaff4 = true ∧ NothingBelow pushed ∧
      ReadReported .default pushed pushedTracker .internal 0xbaaaaff4 4 := by
  obtain ⟨hbelow, -, hread⟩ := trackedRun_initialised trackedRun_pushed
  refine ⟨by decide, hbelow, (hread .internal 0xbaaaaff4 4 ?_).mpr ?_⟩
  · exact ⟨by decide, by decide, by decide⟩
  · rintro ⟨a, ha, hunmarked⟩
    have hmark := (trackedRun_pushed.tracks.written a).mp (.inr ha)
    rw [hmark] at hunmarked
    cases hunmarked

/-- After the pop the bytes are below the stack end and still marked; a read of
one byte that was never written is not reported. -/
theorem stack_not_initialised :
    (∃ s g, StackRun .default s g ∧ ¬NothingBelow s) ∧
    ∃ s g, StackRun .default s g ∧ InStack s 0xbaaaaff4 1 ∧
      ¬ReadReported .default s g .internal 0xbaaaaff4 1 := by
  have hnew : StackRun .default (.new 0) .start := .new 0
  have hupdate := hnew.step (.update 0xbaaaaff0) trivial
  constructor
  · have hwrite := hupdate.step (.write .internal 0xbaaaaff4 4)
      inStack_pushed
    refine ⟨_, _, hwrite.step (.update 0xbaaab000) trivial, ?_⟩
    intro hbelow
    have hmark := hbelow 0xbaaaaff4 (by decide)
    exact absurd hmark (by decide)
  · refine ⟨_, _, hupdate, ⟨by decide, by decide, by decide⟩, ?_⟩
    intro hread
    obtain ⟨report, hmem, -⟩ := hread.mpr
      ⟨0xbaaaaff4, ⟨by decide, by decide⟩, fun h => h.1.elim⟩
    have hnil : (isSafeRead .default (updateStackEnd (.new 0) 0xbaaaaff0)
        .internal 0xbaaaaff4 1).reports = [] := rfl
    rw [show (PointerManagement.step .default (.new 0)
      (StackOp.update 0xbaaaaff0).toOp).2 =
        updateStackEnd (.new 0) 0xbaaaaff0 from rfl, hnil] at hmem
    cases hmem

end Fuzzball.PointerManagement
