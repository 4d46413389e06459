import Fuzzball.PointerManagement

/-!
# The areas that pointer management tells apart

Which of the three relations between a range and a region hold, and for which
ranges the checks of reads and writes answer true although the range touches
the gap between heap and stack or crosses an end of the heap or of the stack.
-/

namespace Fuzzball.PointerManagement

open IntervalTree

/-! ## The relations on end points -/

section EndPoints

variable (v1 v2 r1 r2 : I64)

theorem isContained_iff :
    isContained v1 v2 r1 r2 = true ↔
      r1.toInt ≤ v1.toInt ∧ v2.toInt ≤ r2.toInt := by
  simp [isContained, BitVec.sle_iff_toInt_le]

theorem isNonOverlapping_iff :
    isNonOverlapping v1 v2 r1 r2 = true ↔
      v2.toInt < r1.toInt ∨ r2.toInt < v1.toInt := by
  simp [isNonOverlapping, BitVec.slt_iff_toInt_lt]

/-- The second line of the test asks for a range that begins both after and
before the region, so it never holds. -/
theorem isOverlappingNotContained_iff :
    isOverlappingNotContained v1 v2 r1 r2 = true ↔
      v1.toInt < r1.toInt ∧
        (r1.toInt < v2.toInt ∧ v2.toInt ≤ r2.toInt ∨
          r2.toInt < v2.toInt) := by
  simp only [isOverlappingNotContained, Bool.or_eq_true, Bool.and_eq_true,
    BitVec.sle_iff_toInt_le, BitVec.slt_iff_toInt_lt]
  omega

theorem isOverlapping_iff :
    isOverlapping v1 v2 r1 r2 = true ↔
      (r1.toInt ≤ v1.toInt ∧ v2.toInt ≤ r2.toInt) ∨
        v1.toInt < r1.toInt ∧
          (r1.toInt < v2.toInt ∧ v2.toInt ≤ r2.toInt ∨
            r2.toInt < v2.toInt) := by
  rw [isOverlapping, Bool.or_eq_true, isContained_iff,
    isOverlappingNotContained_iff]

end EndPoints

/-- Just one of three tests holds. -/
def ExactlyOne (a b c : Bool) : Prop :=
  (a = true ∧ b = false ∧ c = false) ∨ (a = false ∧ b = true ∧ c = false) ∨
    (a = false ∧ b = false ∧ c = true)

instance (a b c : Bool) : Decidable (ExactlyOne a b c) := by
  unfold ExactlyOne
  infer_instance

/-- A range that is classified once: it does not end just where the region
begins, nor begin in the region and end after it.  Where the region's ends are
the wrong way round, a range around one of them only is classified twice. -/
def Classified (v1 v2 r1 r2 : ℤ) : Prop :=
  if r1 ≤ r2 then
    ¬ (v1 < r1 ∧ v2 = r1) ∧ ¬ (r1 ≤ v1 ∧ v1 ≤ r2 ∧ r2 < v2)
  else ¬ (v1 < r1 ∧ r2 < v2 ∧ (v2 < r1 ∨ r2 < v1))

instance (v1 v2 r1 r2 : ℤ) : Decidable (Classified v1 v2 r1 r2) := by
  unfold Classified
  infer_instance

theorem exactlyOne_iff {v1 v2 : I64} (hv : v1.toInt ≤ v2.toInt) (r1 r2 : I64) :
    ExactlyOne (isContained v1 v2 r1 r2) (isNonOverlapping v1 v2 r1 r2)
        (isOverlappingNotContained v1 v2 r1 r2) ↔
      Classified v1.toInt v2.toInt r1.toInt r2.toInt := by
  have hc := isContained_iff v1 v2 r1 r2
  have hn := isNonOverlapping_iff v1 v2 r1 r2
  have ho := isOverlappingNotContained_iff v1 v2 r1 r2
  simp only [ExactlyOne, Classified, ← Bool.not_eq_true, hc, hn, ho]
  split_ifs <;> omega

/-! ## Ranges that cross an end -/

def addresses (v1 v2 : I64) : Set I64 :=
  {a | v1.toInt ≤ a.toInt ∧ a.toInt ≤ v2.toInt}

/-- A range with an address inside of a region and another outside of it. -/
def Straddles (v1 v2 r1 r2 : I64) : Prop :=
  (∃ a ∈ addresses v1 v2, a ∈ addresses r1 r2) ∧
    ∃ a ∈ addresses v1 v2, a ∉ addresses r1 r2

/-- A range with an address strictly between the heap and the stack. -/
def TouchesGap (stackEnd v1 v2 : I64) : Prop :=
  ∃ a ∈ addresses v1 v2,
    heapEnd.toInt < a.toInt ∧ a.toInt < stackEnd.toInt

/-- The ranges that the checks are meant to refuse. -/
def Crosses (stackEnd v1 v2 : I64) : Prop :=
  TouchesGap stackEnd v1 v2 ∨ Straddles v1 v2 heapStart heapEnd ∨
    Straddles v1 v2 stackEnd stackStart

theorem exists_address {z : ℤ} (hlow : -2 ^ 63 ≤ z) (hhigh : z < 2 ^ 63) :
    ∃ a : I64, a.toInt = z :=
  ⟨BitVec.ofInt 64 z, by rw [BitVec.toInt_ofInt_eq_self] <;> omega⟩

theorem touchesGap_iff {stackEnd v1 v2 : I64} (hv : v1.toInt ≤ v2.toInt) :
    TouchesGap stackEnd v1 v2 ↔
      heapEnd.toInt < v2.toInt ∧ v1.toInt < stackEnd.toInt ∧
        heapEnd.toInt + 1 < stackEnd.toInt := by
  have h1 := v1.toInt_lt
  constructor
  · rintro ⟨a, ⟨ha1, ha2⟩, ha3, ha4⟩
    omega
  · rintro ⟨h2, h3, h4⟩
    have hend := stackEnd.toInt_lt
    have hheap : heapEnd.toInt = 0x60000001 := by decide
    obtain ⟨a, ha⟩ := exists_address (z := max v1.toInt (heapEnd.toInt + 1))
      (by omega) (by omega)
    refine ⟨a, ⟨?_, ?_⟩, ?_, ?_⟩ <;> omega

theorem straddles_iff {v1 v2 : I64} (hv : v1.toInt ≤ v2.toInt) (r1 r2 : I64) :
    Straddles v1 v2 r1 r2 ↔
      r1.toInt ≤ r2.toInt ∧ v1.toInt ≤ r2.toInt ∧ r1.toInt ≤ v2.toInt ∧
        (v1.toInt < r1.toInt ∨ r2.toInt < v2.toInt) := by
  constructor
  · rintro ⟨⟨a, ⟨ha1, ha2⟩, ha3, ha4⟩, b, ⟨hb1, hb2⟩, hb3⟩
    have hb4 : ¬ (r1.toInt ≤ b.toInt ∧ b.toInt ≤ r2.toInt) := hb3
    omega
  · rintro ⟨hr, h1, h2, h3⟩
    have hv1 := v1.toInt_lt
    have hr1 := r1.toInt_lt
    have hl1 := v1.le_toInt
    have hl2 := r1.le_toInt
    obtain ⟨a, ha⟩ := exists_address (z := max v1.toInt r1.toInt)
      (by omega) (by omega)
    refine ⟨⟨a, ⟨?_, ?_⟩, ?_, ?_⟩, ?_⟩
    · omega
    · omega
    · omega
    · omega
    · obtain h3 | h3 := h3
      · refine ⟨v1, ⟨le_rfl, hv⟩, ?_⟩
        rintro ⟨h4, -⟩
        omega
      · refine ⟨v2, ⟨hv, le_rfl⟩, ?_⟩
        rintro ⟨-, h4⟩
        omega

/-! ## The accepted areas -/

/-- The ranges that cross an end and yet are in no area that is refused: they
end just where the heap begins; or just where a stack end before the heap is;
or begin on the last address of the heap, or in the gap after it, and end in
the stack; or they are in the range of the x87 emulator. -/
def AcceptedCrossing (stackEnd v1 v2 : I64) : Prop :=
  (v1.toInt < heapStart.toInt ∧ v2.toInt = heapStart.toInt ∧
      heapStart.toInt ≤ stackEnd.toInt) ∨
    (v2.toInt = stackEnd.toInt ∧ stackEnd.toInt < heapStart.toInt ∧
      v1.toInt < stackEnd.toInt ∧ v1.toInt ≤ staticEnd.toInt ∧
      (v1.toInt < 4096 ∨ staticStart.toInt ≤ v2.toInt)) ∨
    (heapEnd.toInt ≤ v1.toInt ∧ heapEnd.toInt < v2.toInt ∧
      stackEnd.toInt < v2.toInt ∧ v2.toInt ≤ stackStart.toInt ∧
      (v1.toInt < stackEnd.toInt ∨ v1.toInt = heapEnd.toInt)) ∨
    (x87Start.toInt < v1.toInt ∧ v2.toInt < x87End.toInt ∧
      v1.toInt < stackEnd.toInt ∧ stackEnd.toInt < v2.toInt)

instance (stackEnd v1 v2 : I64) :
    Decidable (AcceptedCrossing stackEnd v1 v2) := by
  unfold AcceptedCrossing
  infer_instance

def Area.accepted : Area → Bool
  | .stack | .x87 | .other => true
  | _ => false

theorem ends :
    heapStart.toInt = 0x50000000 ∧ heapEnd.toInt = 0x60000001 ∧
      stackStart.toInt = 0xbaaab000 ∧ staticStart.toInt = 0x08040000 ∧
      staticEnd.toInt = 0x09000000 ∧ x87Start.toInt = 0xc1048000 ∧
      x87End.toInt = 0xc1148000 := by
  decide

theorem crosses_iff {stackEnd v1 v2 : I64} (hv : v1.toInt ≤ v2.toInt) :
    Crosses stackEnd v1 v2 ↔
      (heapEnd.toInt < v2.toInt ∧ v1.toInt < stackEnd.toInt ∧
        heapEnd.toInt + 1 < stackEnd.toInt) ∨
      (v1.toInt ≤ heapEnd.toInt ∧ heapStart.toInt ≤ v2.toInt ∧
        (v1.toInt < heapStart.toInt ∨ heapEnd.toInt < v2.toInt)) ∨
      (stackEnd.toInt ≤ stackStart.toInt ∧ v1.toInt ≤ stackStart.toInt ∧
        stackEnd.toInt ≤ v2.toInt ∧
        (v1.toInt < stackEnd.toInt ∨ stackStart.toInt < v2.toInt)) := by
  obtain ⟨h1, h2, -⟩ := ends
  have hheap : heapStart.toInt ≤ heapEnd.toInt := by omega
  rw [Crosses, touchesGap_iff hv, straddles_iff hv, straddles_iff hv]
  simp only [hheap, true_and]

/-- The end points of a range outside of the heap that the overlap tests let
pass. -/
def Passes (stackEnd v1 v2 : ℤ) : Prop :=
  ¬ (heapStart.toInt ≤ v1 ∧ v2 ≤ heapEnd.toInt) ∧
    ¬ (heapEnd.toInt ≤ v1 ∧ v2 ≤ stackEnd) ∧
    ¬ (v1 < heapEnd.toInt ∧
      (heapEnd.toInt < v2 ∧ v2 ≤ stackEnd ∨ stackEnd < v2)) ∧
    ¬ (v1 < heapStart.toInt ∧
      (heapStart.toInt < v2 ∧ v2 ≤ heapEnd.toInt ∨ heapEnd.toInt < v2))

/-- The end points of a range in none of the areas where nothing is mapped. -/
def Mapped (v1 v2 : ℤ) : Prop :=
  (x87Start.toInt < v1 ∧ v2 < x87End.toInt) ∨
    (v2 ≤ stackStart.toInt ∧
      ¬ (staticEnd.toInt < v1 ∧ v2 < heapStart.toInt) ∧
      ¬ (4096 ≤ v1 ∧ v2 < staticStart.toInt))

theorem fixedArea_accepted (v1 v2 : I64) {area : Area}
    (harea : area.accepted = true) :
    ((fixedArea v1 v2).getD area).accepted = true ↔
      Mapped v1.toInt v2.toInt := by
  have hpage : (4096 : I64).toInt = 4096 := by decide
  simp only [fixedArea, Mapped, Bool.and_eq_true, BitVec.slt_iff_toInt_lt,
    BitVec.sle_iff_toInt_le, hpage]
  split_ifs with h1 h2 h3 h4
  · exact iff_of_true rfl (.inl h1)
  · exact iff_of_false (by simp [Area.accepted]) (by omega)
  · exact iff_of_false (by simp [Area.accepted]) (by omega)
  · exact iff_of_false (by simp [Area.accepted]) (by omega)
  · exact iff_of_true harea (.inr ⟨by omega, h3, h4⟩)

theorem inGap_iff (stackEnd v1 v2 : I64) :
    isContained v1 v2 heapStart heapEnd = false ∧
        inGap stackEnd v1 v2 = false ↔
      Passes stackEnd.toInt v1.toInt v2.toInt := by
  rw [inGap, Bool.or_eq_false_iff, ← Bool.not_eq_true, ← Bool.not_eq_true,
    ← Bool.not_eq_true, isContained_iff, isOverlapping_iff,
    isOverlappingNotContained_iff, not_or, and_assoc, Passes]

theorem readArea_accepted (stackEnd v1 v2 : I64) :
    (readArea stackEnd v1 v2).accepted = true ↔
      Passes stackEnd.toInt v1.toInt v2.toInt ∧
        ((stackEnd.toInt ≤ v1.toInt ∧ v2.toInt ≤ stackStart.toInt) ∨
          Mapped v1.toInt v2.toInt) := by
  rw [← inGap_iff, ← isContained_iff, readArea]
  split_ifs with h1 h2 h3
  · simp [Area.accepted, h1]
  · simp [Area.accepted, h2]
  · simp [Area.accepted, h1, h2, h3]
  · rw [fixedArea_accepted v1 v2 rfl]
    simp [h1, h2, h3]

theorem writeArea_accepted (stackEnd v1 v2 : I64) :
    (writeArea stackEnd v1 v2).accepted = true ↔
      Passes stackEnd.toInt v1.toInt v2.toInt ∧
        Mapped v1.toInt v2.toInt := by
  have hlast : (if isContained v1 v2 stackEnd stackStart then Area.stack
      else Area.other).accepted = true := by
    split_ifs <;> rfl
  rw [← inGap_iff, writeArea]
  split_ifs with h1 h2
  · simp [Area.accepted, h1]
  · simp [Area.accepted, h2]
  · rw [fixedArea_accepted v1 v2 rfl]
    simp [h1, h2]
  · rw [fixedArea_accepted v1 v2 rfl]
    simp [h1, h2]

/-- Such a range ends where the heap begins or before, or begins where the heap
ends or after. -/
theorem passes_iff {stackEnd v1 v2 : ℤ} (hv : v1 ≤ v2) :
    Passes stackEnd v1 v2 ↔
      (v1 < heapStart.toInt ∧ v2 ≤ heapStart.toInt ∧ v2 ≤ stackEnd) ∨
        (heapEnd.toInt ≤ v1 ∧ heapEnd.toInt < v2 ∧ stackEnd < v2) := by
  obtain ⟨h1, h2, -⟩ := ends
  rw [Passes, h1, h2]
  constructor
  · rintro ⟨hheap, hafter, hend, hstart⟩
    by_cases hlow : v1 < 0x50000000
    · exact .inl ⟨hlow, by omega, by omega⟩
    · exact .inr ⟨by omega, by omega, by omega⟩
  · rintro (⟨hlow, hstart, hend⟩ | ⟨hhigh, hheap, hend⟩)
    · exact ⟨by omega, by omega, by omega, by omega⟩
    · exact ⟨by omega, by omega, by omega, by omega⟩

/-- A read of the stack is accepted before the areas that are not mapped. -/
theorem accepted_iff {stackEnd v1 v2 : I64} {area : Area}
    (harea : area = readArea stackEnd v1 v2 ∨ area = writeArea stackEnd v1 v2) :
    ∃ inStack : Prop,
      (inStack → stackEnd.toInt ≤ v1.toInt ∧ v2.toInt ≤ stackStart.toInt) ∧
        (area.accepted = true ↔ Passes stackEnd.toInt v1.toInt v2.toInt ∧
          (inStack ∨ Mapped v1.toInt v2.toInt)) := by
  obtain rfl | rfl := harea
  · exact ⟨_, id, readArea_accepted stackEnd v1 v2⟩
  · refine ⟨False, False.elim, ?_⟩
    rw [false_or]
    exact writeArea_accepted stackEnd v1 v2

theorem accepted_crosses_iff {stackEnd v1 v2 : I64} {area : Area}
    (hv : v1.toInt ≤ v2.toInt)
    (harea : area = readArea stackEnd v1 v2 ∨ area = writeArea stackEnd v1 v2) :
    area.accepted = true ∧ Crosses stackEnd v1 v2 ↔
      AcceptedCrossing stackEnd v1 v2 := by
  obtain ⟨h1, h2, h3, h4, h5, h6, h7⟩ := ends
  obtain ⟨inStack, hstack, haccepted⟩ := accepted_iff harea
  rw [haccepted, passes_iff hv, crosses_iff hv, AcceptedCrossing, Mapped]
  constructor
  · rintro ⟨⟨⟨hlow, hstart, hend⟩ | ⟨hhigh, hheap, hend⟩, hmap⟩, hcross⟩
    · -- Only the first address of the heap or of the stack is met.
      have hmet : v2.toInt = heapStart.toInt ∨
          v2.toInt = stackEnd.toInt ∧ v1.toInt < stackEnd.toInt := by omega
      by_cases hheap : v2.toInt = heapStart.toInt
      · exact .inl ⟨hlow, hheap, by omega⟩
      · obtain ⟨hv2, hv1⟩ := hmet.resolve_left hheap
        rcases hmap with hin | hx87 | ⟨-, hstatic, hpage⟩
        · have := hstack hin
          omega
        · omega
        · exact .inr (.inl ⟨hv2, by omega, hv1, by omega, by omega⟩)
    · rcases hmap with hin | ⟨hx1, hx2⟩ | ⟨htop, -⟩
      · have hin' := hstack hin
        exact .inr (.inr (.inl ⟨hhigh, hheap, hend, hin'.2, by omega⟩))
      · exact .inr (.inr (.inr ⟨hx1, hx2, by omega, hend⟩))
      · exact .inr (.inr (.inl ⟨hhigh, hheap, hend, htop, by omega⟩))
  · rintro (⟨hlow, hv2, hend⟩ | ⟨hv2, hend, hv1, hstatic, hpage⟩ |
      ⟨hhigh, hheap, hend, htop, hmet⟩ | ⟨hx1, hx2, hv1, hend⟩)
    · refine ⟨⟨.inl ⟨hlow, by omega, by omega⟩, .inr (.inr ?_)⟩,
        .inr (.inl ?_)⟩
      · exact ⟨by omega, by omega, by omega⟩
      · exact ⟨by omega, by omega, .inl hlow⟩
    · refine ⟨⟨.inl ⟨by omega, by omega, by omega⟩, .inr (.inr ?_)⟩,
        .inr (.inr ?_)⟩
      · exact ⟨by omega, by omega, by omega⟩
      · exact ⟨by omega, by omega, by omega, .inl hv1⟩
    · refine ⟨⟨.inr ⟨hhigh, hheap, hend⟩, .inr (.inr ?_)⟩, ?_⟩
      · exact ⟨htop, by omega, by omega⟩
      · rcases hmet with hgap | hlast
        · by_cases hnext : heapEnd.toInt + 1 < stackEnd.toInt
          · exact .inl ⟨hheap, hgap, hnext⟩
          · exact .inr (.inl ⟨by omega, by omega, .inr hheap⟩)
        · exact .inr (.inl ⟨by omega, by omega, .inr hheap⟩)
    · refine ⟨⟨.inr ⟨by omega, by omega, hend⟩, .inr (.inl ⟨hx1, hx2⟩)⟩,
        .inl ?_⟩
      exact ⟨by omega, hv1, by omega⟩

/-! ## The answers of the checks -/

def ReadAllowed (s : Manager) (prov : Provenance) (addr len : I64) : Prop :=
  (attemptReadIn (pages (interval prov addr len)) s.assignRanges s.records
    s.ioRanges (interval prov addr len)).2 = .ok ()

def WriteAllowed (s : Manager) (prov : Provenance) (addr len : I64) : Prop :=
  ∃ x, attemptWriteIn (pages (interval prov addr len)) s.assignRanges s.records
    s.ioRanges (interval prov addr len) = .ok x

theorem gAssert_true
    {α : Type} {o : Options} {s : Manager} {assertion : Bool} {sawAt : String}
    {rest : Manager → Result α} (h : assertion = true) :
    gAssert o s assertion sawAt rest = rest s := by
  rw [gAssert, if_pos h]

theorem slt_len {len : I64} (hlen : 0 < len.toInt) :
    (0 : I64).slt len = true := by
  rw [BitVec.slt_iff_toInt_lt]
  exact hlen

theorem recordWriteIn_provenance
    {h k : Records} {m m' : IntervalMap ℕ} {a w : Interval}
    (hok : recordWriteIn h m a = .ok (w, m', k)) :
    w.provenance = a.provenance := by
  unfold recordWriteIn at hok
  split at hok
  · simp only [Except.ok.injEq, Prod.mk.injEq] at hok
    rw [← hok.1]
  · rename_i r hfind
    cases hmerge : safeMerge (h.get r) a with
    | error x => simp [hmerge, bind, Except.bind] at hok
    | ok merged =>
      simp only [hmerge, bind, Except.bind, Except.ok.injEq,
        Prod.mk.injEq] at hok
      rw [← hok.1]

theorem safeMerge_provenance {i j w : Interval} (h : safeMerge i j = .ok w) :
    w.provenance = i.provenance := by
  unfold safeMerge makeIntervalWcheck at h
  simp only [bind, Except.bind] at h
  split_ifs at h with hle
  · dsimp only at h
    split_ifs at h with hmeet
    rw [← Except.ok.inj h]

theorem attemptWriteIn_provenance
    {alloc : IntervalMap Element} (fuel : ℕ) {h k : Records}
    {m m' : IntervalMap ℕ} {a w : Interval}
    (hok : attemptWriteIn fuel alloc h m a = .ok (w, m', k)) :
    w.provenance = a.provenance := by
  induction fuel generalizing h k m m' a w with
  | zero => simp [attemptWriteIn] at hok
  | succ fuel ih =>
    unfold attemptWriteIn at hok
    split_ifs at hok with hpage hlt
    · unfold writePageIn at hok
      split at hok
      · simp at hok
      · split at hok
        · simp at hok
        · split_ifs at hok
          exact recordWriteIn_provenance hok
    · cases hlow : attemptWriteIn fuel alloc h m (lowRange a) with
      | error x => simp [hlow, bind, Except.bind] at hok
      | ok low =>
        obtain ⟨lw, lm, lk⟩ := low
        simp only [hlow, bind, Except.bind] at hok
        cases hhigh : attemptWriteIn fuel alloc lk lm (highRange a) with
        | error x => simp [hhigh] at hok
        | ok high =>
          obtain ⟨hw, hm', hk⟩ := high
          simp only [hhigh] at hok
          cases hmerge : safeMerge lw hw with
          | error x => simp [hmerge] at hok
          | ok written =>
            simp only [hmerge, Except.ok.injEq, Prod.mk.injEq] at hok
            have hprov : lw.provenance = (lowRange a).provenance := ih hlow
            rw [← hok.1, safeMerge_provenance hmerge]
            exact hprov

theorem readHeap_true_iff (s : Manager) (prov : Provenance) (addr len : I64) :
    (readHeap s prov addr len).answer = .ok true ↔
      ReadAllowed s prov addr len := by
  unfold readHeap ReadAllowed
  dsimp only
  generalize (attemptReadIn _ _ _ _ _).2 = outcome
  cases outcome with
  | ok u => exact iff_of_true rfl rfl
  | error x => cases x <;> exact iff_of_false (by simp) (by simp)

theorem writeHeap_true_iff
    (o : Options) (s : Manager) (prov : Provenance) (addr len : I64) :
    (writeHeap o s prov addr len).answer = .ok true ↔
      WriteAllowed s prov addr len := by
  unfold writeHeap WriteAllowed
  dsimp only
  cases hwrite : attemptWriteIn (pages (interval prov addr len))
      s.assignRanges s.records s.ioRanges (interval prov addr len) with
  | ok x =>
    obtain ⟨w, io, records⟩ := x
    have hprov : w.provenance = prov := attemptWriteIn_provenance _ hwrite
    dsimp only
    rw [gAssert_true (decide_eq_true hprov)]
    exact iff_of_true rfl ⟨_, rfl⟩
  | error x =>
    refine iff_of_false ?_ (by simp)
    cases x <;> simp [conflictReport]

theorem checkRead_true_iff (s : Manager) (prov : Provenance) (addr len : I64) :
    (checkRead s prov addr len).answer = .ok true ↔
      (readArea s.stackEnd addr (endAddr addr len)).accepted = true ∨
        (isContained addr (endAddr addr len) heapStart heapEnd = true ∧
          ReadAllowed s prov addr len) := by
  have hheap : readArea s.stackEnd addr (endAddr addr len) = .heap ↔
      isContained addr (endAddr addr len) heapStart heapEnd = true := by
    unfold readArea fixedArea
    split_ifs <;> simp_all
  rw [← hheap]
  unfold checkRead
  cases readArea s.stackEnd addr (endAddr addr len) with
  | heap => simp [readHeap_true_iff, Area.accepted]
  | _ => simp [Area.accepted]

theorem checkWrite_true_iff
    (o : Options) (s : Manager) (prov : Provenance) (addr len : I64) :
    (checkWrite o s prov addr len).answer = .ok true ↔
      (writeArea s.stackEnd addr (endAddr addr len)).accepted = true ∨
        (isContained addr (endAddr addr len) heapStart heapEnd = true ∧
          WriteAllowed s prov addr len) := by
  have hheap : writeArea s.stackEnd addr (endAddr addr len) = .heap ↔
      isContained addr (endAddr addr len) heapStart heapEnd = true := by
    unfold writeArea fixedArea
    split_ifs <;> simp_all
  rw [← hheap]
  unfold checkWrite
  cases writeArea s.stackEnd addr (endAddr addr len) with
  | heap => simp [writeHeap_true_iff, Area.accepted]
  | _ => simp [Area.accepted]

/-- A range across an end that a check answers true for: in an accepted area,
or in the heap, around a stack end that lies there, where the tables of the
heap allow the access. -/
def MissedCrossing (allowed : Prop) (stackEnd v1 v2 : I64) : Prop :=
  AcceptedCrossing stackEnd v1 v2 ∨
    (heapStart.toInt ≤ v1.toInt ∧ v2.toInt ≤ heapEnd.toInt ∧
      v1.toInt < stackEnd.toInt ∧ stackEnd.toInt ≤ v2.toInt ∧ allowed)

theorem answer_crosses_iff
    {stackEnd v1 v2 : I64} {area : Area} {allowed answer : Prop}
    (hv : v1.toInt ≤ v2.toInt)
    (harea : area = readArea stackEnd v1 v2 ∨ area = writeArea stackEnd v1 v2)
    (hanswer : answer ↔ area.accepted = true ∨
      (isContained v1 v2 heapStart heapEnd = true ∧ allowed)) :
    answer ∧ Crosses stackEnd v1 v2 ↔
      MissedCrossing allowed stackEnd v1 v2 := by
  obtain ⟨h1, h2, h3, -⟩ := ends
  have hheap : isContained v1 v2 heapStart heapEnd = true →
      (Crosses stackEnd v1 v2 ↔
        v1.toInt < stackEnd.toInt ∧ stackEnd.toInt ≤ v2.toInt) := by
    intro h
    rw [isContained_iff] at h
    rw [crosses_iff hv]
    omega
  rw [hanswer, or_and_right, accepted_crosses_iff hv harea, MissedCrossing]
  refine or_congr_right ?_
  rw [← and_assoc (a := heapStart.toInt ≤ v1.toInt), ← isContained_iff]
  constructor
  · rintro ⟨⟨hc, ha⟩, hcross⟩
    have hends := (hheap hc).mp hcross
    exact ⟨hc, hends.1, hends.2, ha⟩
  · rintro ⟨hc, h4, h5, ha⟩
    exact ⟨⟨hc, ha⟩, (hheap hc).mpr ⟨h4, h5⟩⟩

/-! ## The exact conditions -/

theorem checks_iff (o : Options) (s : Manager) (prov : Provenance) :
    (∀ v1 v2 r1 r2 : I64, v1.toInt ≤ v2.toInt →
      (ExactlyOne (isContained v1 v2 r1 r2) (isNonOverlapping v1 v2 r1 r2)
          (isOverlappingNotContained v1 v2 r1 r2) ↔
        Classified v1.toInt v2.toInt r1.toInt r2.toInt)) ∧
    ∀ addr len : I64,
      0 < len.toInt → addr.toInt ≤ (endAddr addr len).toInt →
      (¬ ((isSafeRead o s prov addr len).answer = .ok true ∧
          Crosses s.stackEnd addr (endAddr addr len)) ↔
        ¬ MissedCrossing (ReadAllowed s prov addr len) s.stackEnd addr
          (endAddr addr len)) ∧
      (¬ ((isSafeWrite o s prov addr len).answer = .ok true ∧
          Crosses s.stackEnd addr (endAddr addr len)) ↔
        ¬ MissedCrossing (WriteAllowed s prov addr len) s.stackEnd addr
          (endAddr addr len)) := by
  refine ⟨fun v1 v2 r1 r2 hv => exactlyOne_iff hv r1 r2, ?_⟩
  intro addr len hlen hv
  constructor
  · rw [isSafeRead, gAssert_true (slt_len hlen)]
    exact not_congr
      (answer_crosses_iff hv (.inl rfl) (checkRead_true_iff s prov addr len))
  · rw [isSafeWrite, gAssert_true (slt_len hlen)]
    exact not_congr
      (answer_crosses_iff hv (.inr rfl) (checkWrite_true_iff o s prov addr len))

/-- A range that ends one byte after the region's first address is classified,
and a read of the last byte before the heap with one byte more is not taken
for one that the tables decide. -/
theorem checks_iff_atHeap :
    ExactlyOne (isContained 0xfff 0x1001 0x1000 0x2000)
        (isNonOverlapping 0xfff 0x1001 0x1000 0x2000)
        (isOverlappingNotContained 0xfff 0x1001 0x1000 0x2000) ∧
      ¬ ((isSafeRead .default (.new 0) .internal 0x4fffffff 3).answer =
          .ok true ∧ Crosses 0xbaaab000 0x4fffffff 0x50000001) := by
  have h := checks_iff .default (.new 0) .internal
  refine ⟨(h.1 _ _ _ _ (by decide)).mpr (by decide), ?_⟩
  refine (h.2 0x4fffffff 3 (by decide) (by decide)).1.mpr ?_
  rintro (h | h)
  · exact absurd h (by decide)
  · exact absurd h.1 (by decide)

/-- A range that ends on the region's first address is in no class, and reads
and writes of two bytes around the start of the heap are answered true. -/
theorem boundary_unreported :
    ¬ ExactlyOne (isContained 0xfff 0x1000 0x1000 0x2000)
        (isNonOverlapping 0xfff 0x1000 0x1000 0x2000)
        (isOverlappingNotContained 0xfff 0x1000 0x1000 0x2000) ∧
      (isSafeRead .default (.new 0) .internal 0x4fffffff 2).answer = .ok true ∧
      (isSafeWrite .default (.new 0) .internal 0x4fffffff 2).answer = .ok true ∧
      Straddles 0x4fffffff 0x50000000 heapStart heapEnd := by
  refine ⟨by decide, by rfl, by rfl, ?_⟩
  rw [straddles_iff (by decide)]
  decide

end Fuzzball.PointerManagement
