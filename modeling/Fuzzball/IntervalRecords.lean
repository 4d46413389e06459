import Fuzzball.Heap
import Fuzzball.IntervalReads

/-!
# Intervals as mutable records

The ranges stored in the map of written ranges are records, whose access count
a read sets to 0 in place.  Here the map holds references to records on a heap;
the operations of `IntervalTree` are what they do to the records' contents.
-/

namespace Fuzzball.IntervalTree

abbrev Records := Heap Interval

/-! ## Operations on references -/

/-- The update of the map of written ranges by an allowed write; what is stored
is a new record. -/
def recordWriteIn (h : Records) (ioMap : IntervalMap ℕ) (attempted : Interval) :
    Except IntervalExn (Interval × IntervalMap ℕ × Records) :=
  match optionalFind ioMap (mergeRange attempted) with
  | none =>
    let written := { attempted with accessed := 1 }
    .ok (written, ioMap.add compare written h.next, h.push written)
  | some w => do
    let write := h.get w
    let merged ← safeMerge write attempted
    let toAdd := { merged with
      provenance := attempted.provenance
      accessed := write.accessed + 1 }
    .ok (toAdd, (removeAll ioMap write).add compare toAdd h.next, h.push toAdd)

def writePageIn
    (allocMap : IntervalMap Element) (h : Records) (ioMap : IntervalMap ℕ)
    (attempted : Interval) :
    Except IntervalExn (Interval × IntervalMap ℕ × Records) :=
  match optionalFind allocMap attempted with
  | none => .error (.writeBeforeAllocated attempted)
  | some interval =>
    match interval.status with
    | .deallocate => .error (.writeAfterDeallocated attempted)
    | .allocate =>
      if isIn interval.key attempted then recordWriteIn h ioMap attempted
      else .error (writeConflict allocMap attempted)

def attemptWriteIn : ℕ → IntervalMap Element → Records → IntervalMap ℕ →
    Interval → Except IntervalExn (Interval × IntervalMap ℕ × Records)
  | 0, _, _, _, _ => .error .stackOverflow
  | fuel + 1, allocMap, h, ioMap, attempted =>
    if page attempted.low = page attempted.high then
      writePageIn allocMap h ioMap attempted
    else if (page attempted.low).slt (page attempted.high) then do
      let (lowWritten, lowIoMap, lowHeap) ←
        attemptWriteIn fuel allocMap h ioMap (lowRange attempted)
      let (highWritten, highIoMap, highHeap) ←
        attemptWriteIn fuel allocMap lowHeap lowIoMap (highRange attempted)
      let written ← safeMerge lowWritten highWritten
      .ok (written, highIoMap, highHeap)
    else .error (.failure "illegal write range")

/-- `attempt_deallocate` on the map of references. -/
def attemptDeallocateIn
    (allocMap : IntervalMap Element) (ioMap : IntervalMap ℕ)
    (attempted : Interval) :
    Except IntervalExn (IntervalMap Element × IntervalMap ℕ) :=
  match optionalFind allocMap attempted with
  | some collision =>
    match collision.status with
    | .deallocate => .error (.doubleFree collision.key attempted)
    | .allocate =>
      if collision.key.low = attempted.low ∧
          collision.key.high = attempted.high then
        .ok ((removeAll allocMap attempted).add compare attempted
          ⟨attempted, .deallocate⟩, removeAll ioMap attempted)
      else .error (.deallocationSizeMismatch collision.key attempted)
  | none => .error (.deallocatingUnallocated attempted)

/-- `attempt_read` of a range within one page, with the records whose access
count it sets to 0. -/
def readPageIn
    (allocMap : IntervalMap Element) (h : Records) (ioMap : IntervalMap ℕ)
    (attempted : Interval) : List ℕ × Except ReadExn Unit :=
  match optionalFind allocMap attempted with
  | none => ([], .error (.readingUnallocated attempted))
  | some interval =>
    match interval.status with
    | .deallocate => ([], .error (.readingUnallocated attempted))
    | .allocate =>
      match optionalFind ioMap attempted with
      | none => ([], .error (.readingUnwritten attempted))
      | some written =>
        if isIn (h.get written) attempted then ([written], .ok ())
        else ([], .error (.readingUnwritten attempted))

def attemptReadIn : ℕ → IntervalMap Element → Records → IntervalMap ℕ →
    Interval → List ℕ × Except ReadExn Unit
  | 0, _, _, _, _ => ([], .error .stackOverflow)
  | fuel + 1, allocMap, h, ioMap, attempted =>
    if page attempted.low = page attempted.high then
      readPageIn allocMap h ioMap attempted
    else if (page attempted.low).slt (page attempted.high) then
      let low := attemptReadIn fuel allocMap h ioMap (lowRange attempted)
      match low.2 with
      | .error x => (low.1, .error x)
      | .ok () =>
        let high := attemptReadIn fuel allocMap h ioMap (highRange attempted)
        (low.1 ++ high.1, high.2)
    else ([], .error (.failure "illegal read range"))

/-- Sets the access count of a record to 0. -/
def clearAccess (h : Records) (r : ℕ) : Records :=
  h.set r { h.get r with accessed := 0 }

theorem foldl_clearAccess_next (h : Records) (rs : List ℕ) :
    (rs.foldl clearAccess h).next = h.next := by
  induction rs generalizing h with
  | nil => rfl
  | cons r rs ih => exact ih (clearAccess h r)

theorem foldl_clearAccess_get (h : Records) (rs : List ℕ) (r : ℕ) :
    (rs.foldl clearAccess h).get r =
      if r ∈ rs then { h.get r with accessed := 0 } else h.get r := by
  induction rs generalizing h with
  | nil => simp
  | cons s rs ih =>
    rw [List.foldl_cons, ih (clearAccess h s)]
    by_cases hrs : r = s
    · simp [hrs, clearAccess]
    · have hget : (clearAccess h s).get r = h.get r :=
        h.set_get_of_ne _ hrs
      simp [hrs, hget]

/-! ## The contents of the records -/

theorem removeAll_map {δ ε : Type} {g : Interval → Interval} {x : Interval}
    (hg : ∀ y, compare (g x) (g y) = compare x y) (f : δ → ε)
    (m : IntervalMap δ) :
    removeAll (m.map g f) (g x) = (removeAll m x).map g f := by
  fun_induction removeAll m x with
  | case1 m m' hcard =>
    have hcard' : ((m.map g f).remove compare (g x)).cardinal =
        (m.map g f).cardinal := by
      rw [AvlMap.remove_map f hg, AvlMap.cardinal_map, AvlMap.cardinal_map]
      exact hcard
    rw [removeAll, dif_pos hcard']
  | case2 m m' hcard ih =>
    have hcard' : ¬ ((m.map g f).remove compare (g x)).cardinal =
        (m.map g f).cardinal := by
      rw [AvlMap.remove_map f hg, AvlMap.cardinal_map, AvlMap.cardinal_map]
      exact hcard
    rw [removeAll, dif_neg hcard', AvlMap.remove_map f hg]
    exact ih

theorem optionalFind_map {δ ε : Type} {g : Interval → Interval} {x : Interval}
    (hg : ∀ y, compare (g x) (g y) = compare x y) (f : δ → ε)
    (m : IntervalMap δ) :
    optionalFind (m.map g f) (g x) = (optionalFind m x).map f :=
  AvlMap.find_map f hg m

/-- The map of the stored records' contents. -/
def contents (h : Records) (m : IntervalMap ℕ) : IntervalMap Interval :=
  m.map id h.get

theorem optionalFind_contents (h : Records) (m : IntervalMap ℕ) (x : Interval) :
    optionalFind (contents h m) x = (optionalFind m x).map h.get :=
  optionalFind_map (g := id) (fun _ => rfl) h.get m

theorem removeAll_contents (h : Records) (m : IntervalMap ℕ) (x : Interval) :
    removeAll (contents h m) x = contents h (removeAll m x) :=
  removeAll_map (g := id) (fun _ => rfl) h.get m

theorem add_contents {h : Records} {m : IntervalMap ℕ} (hm : h.Bounds m)
    (x v : Interval) :
    (contents h m).add compare x v =
      contents (h.push v) (m.add compare x h.next) := by
  have hx : ∀ y, compare (id x) (id y) = compare x y := fun _ => rfl
  have hadd := AvlMap.add_map (h.push v).get hx h.next m
  rw [Heap.push_get_next, Heap.map_push id hm] at hadd
  exact hadd

/-- A heap that has all the records of another, as they are. -/
structure Extends (h k : Records) : Prop where
  next_le : h.next ≤ k.next
  get_eq : ∀ r < h.next, k.get r = h.get r

theorem Extends.refl (h : Records) : Extends h h :=
  ⟨le_rfl, fun _ _ => rfl⟩

theorem Extends.trans {h k l : Records} (hk : Extends h k) (hl : Extends k l) :
    Extends h l where
  next_le := hk.next_le.trans hl.next_le
  get_eq r hr := (hl.get_eq r (hr.trans_le hk.next_le)).trans (hk.get_eq r hr)

theorem extends_push (h : Records) (v : Interval) : Extends h (h.push v) :=
  ⟨Nat.le_succ _, fun _ hr => Heap.push_get_of_lt hr v⟩

/-- What a write makes of the heap and the map: a heap with new records only,
and a map of old references of the map and of new records. -/
structure Grows (h : Records) (ioMap : IntervalMap ℕ) (k : Records)
    (ioMap' : IntervalMap ℕ) : Prop where
  heap : Extends h k
  bounds : k.Bounds ioMap'
  refs : ∀ b ∈ ioMap'.bindings, b.2 < h.next →
    ∃ c ∈ ioMap.bindings, c.2 = b.2

theorem Grows.trans {h k l : Records} {m m' m'' : IntervalMap ℕ}
    (hk : Grows h m k m') (hl : Grows k m' l m'') : Grows h m l m'' where
  heap := hk.heap.trans hl.heap
  bounds := hl.bounds
  refs := by
    intro b hb hlt
    obtain ⟨c, hc, hcb⟩ := hl.refs b hb (hlt.trans_le hk.heap.next_le)
    obtain ⟨d, hd, hdc⟩ := hk.refs c hc (hcb ▸ hlt)
    exact ⟨d, hd, hdc.trans hcb⟩

theorem bounds_removeAll {h : Records} {m : IntervalMap ℕ} (hm : h.Bounds m)
    (r : Interval) : h.Bounds (removeAll m r) :=
  fun b hb => hm b (removeAll_bindings_subset m r hb)

theorem grows_add {h : Records} {m m' : IntervalMap ℕ} (hm : h.Bounds m)
    (hsub : m'.bindings ⊆ m.bindings) (v : Interval) :
    Grows h m (h.push v) (m'.add compare v h.next) where
  heap := extends_push h v
  bounds := by
    have hm' : h.Bounds m' := fun b hb => hm b (hsub hb)
    exact hm'.add_next compare v v
  refs := by
    intro b hb hlt
    obtain rfl | hb := AvlMap.mem_bindings_add compare v hb
    · exact absurd hlt (lt_irrefl _)
    · exact ⟨b, hsub hb, rfl⟩

theorem recordWriteIn_grows
    {h k : Records} {m m' : IntervalMap ℕ} {a w : Interval} (hm : h.Bounds m)
    (hok : recordWriteIn h m a = .ok (w, m', k)) : Grows h m k m' := by
  unfold recordWriteIn at hok
  cases hfind : optionalFind m (mergeRange a) with
  | none =>
    simp only [hfind, Except.ok.injEq, Prod.mk.injEq] at hok
    obtain ⟨-, rfl, rfl⟩ := hok
    exact grows_add hm (List.Subset.refl _) _
  | some r =>
    simp only [hfind] at hok
    cases hmerge : safeMerge (h.get r) a with
    | error x => simp [hmerge, bind, Except.bind] at hok
    | ok merged =>
      simp only [hmerge, bind, Except.bind, Except.ok.injEq,
        Prod.mk.injEq] at hok
      obtain ⟨-, rfl, rfl⟩ := hok
      exact grows_add hm (fun _ hb => removeAll_bindings_subset m _ hb) _

theorem writePageIn_grows
    {alloc : IntervalMap Element} {h k : Records} {m m' : IntervalMap ℕ}
    {a w : Interval} (hm : h.Bounds m)
    (hok : writePageIn alloc h m a = .ok (w, m', k)) : Grows h m k m' := by
  unfold writePageIn at hok
  split at hok
  · simp at hok
  · split at hok
    · simp at hok
    · split_ifs at hok
      exact recordWriteIn_grows hm hok

theorem attemptWriteIn_grows
    {alloc : IntervalMap Element} (fuel : ℕ) {h k : Records}
    {m m' : IntervalMap ℕ} {a w : Interval} (hm : h.Bounds m)
    (hok : attemptWriteIn fuel alloc h m a = .ok (w, m', k)) :
    Grows h m k m' := by
  induction fuel generalizing h k m m' a w with
  | zero => simp [attemptWriteIn] at hok
  | succ fuel ih =>
    unfold attemptWriteIn at hok
    split_ifs at hok with hpage hlt
    · exact writePageIn_grows hm hok
    · cases hlow : attemptWriteIn fuel alloc h m (lowRange a) with
      | error x => simp [hlow, bind, Except.bind] at hok
      | ok low =>
        obtain ⟨lw, lm, lk⟩ := low
        simp only [hlow, bind, Except.bind] at hok
        cases hhigh : attemptWriteIn fuel alloc lk lm (highRange a) with
        | error x => simp [hhigh] at hok
        | ok high =>
          obtain ⟨hw, hm', hk⟩ := high
          simp only [hhigh] at hok
          have hgl := ih hm hlow
          have hgh := ih hgl.bounds hhigh
          cases hmerge : safeMerge lw hw with
          | error x => simp [hmerge] at hok
          | ok written =>
            simp only [hmerge, Except.ok.injEq, Prod.mk.injEq] at hok
            obtain ⟨-, rfl, rfl⟩ := hok
            exact hgl.trans hgh

/-! ## The operations on contents -/

/-- What a write returns, with the references replaced by the contents. -/
def writtenContents (x : Interval × IntervalMap ℕ × Records) :
    Interval × IntervalMap Interval :=
  (x.1, contents x.2.2 x.2.1)

theorem recordWriteIn_contents
    {h : Records} {m : IntervalMap ℕ} (hm : h.Bounds m) (a : Interval) :
    (recordWriteIn h m a).map writtenContents =
      recordWrite (contents h m) a := by
  unfold recordWriteIn recordWrite
  rw [optionalFind_contents]
  cases optionalFind m (mergeRange a) with
  | none => simp [Except.map, writtenContents, add_contents hm]
  | some r =>
    simp only [Option.map_some]
    cases safeMerge (h.get r) a with
    | error x => rfl
    | ok merged =>
      simp [bind, Except.bind, Except.map, writtenContents, removeAll_contents,
        add_contents (bounds_removeAll hm (h.get r))]

theorem writePageIn_contents
    {h : Records} {m : IntervalMap ℕ} (hm : h.Bounds m)
    (alloc : IntervalMap Element) (a : Interval) :
    (writePageIn alloc h m a).map writtenContents =
      writePage alloc (contents h m) a := by
  unfold writePageIn writePage
  cases optionalFind alloc a with
  | none => rfl
  | some e =>
    cases hstatus : e.status with
    | deallocate => simp [hstatus, Except.map]
    | allocate =>
      simp only [hstatus]
      split_ifs
      · exact recordWriteIn_contents hm a
      · rfl

/-- `attempt_write` on records does to their contents what it does on values. -/
theorem attemptWriteIn_contents
    {h : Records} {m : IntervalMap ℕ} (hm : h.Bounds m)
    (alloc : IntervalMap Element) (fuel : ℕ) (a : Interval) :
    (attemptWriteIn fuel alloc h m a).map writtenContents =
      attemptWrite fuel alloc (contents h m) a := by
  induction fuel generalizing h m a with
  | zero => rfl
  | succ fuel ih =>
    unfold attemptWriteIn attemptWrite
    split_ifs with hpage hlt
    · exact writePageIn_contents hm alloc a
    · rw [← ih hm (lowRange a)]
      cases hlow : attemptWriteIn fuel alloc h m (lowRange a) with
      | error x => rfl
      | ok low =>
        obtain ⟨lw, lm, lk⟩ := low
        have hgrows := attemptWriteIn_grows fuel hm hlow
        have hhigh := ih hgrows.bounds (highRange a)
        simp only [bind, Except.bind, Except.map, writtenContents] at hhigh ⊢
        rw [← hhigh]
        cases attemptWriteIn fuel alloc lk lm (highRange a) with
        | error x => rfl
        | ok high =>
          obtain ⟨hw, hm', hk⟩ := high
          dsimp only
          cases safeMerge lw hw <;> rfl
    · rfl

theorem readPageIn_contents
    (alloc : IntervalMap Element) (h : Records) (m : IntervalMap ℕ)
    (a : Interval) :
    readPage alloc (contents h m) a =
      ((readPageIn alloc h m a).1.map h.get, (readPageIn alloc h m a).2) := by
  unfold readPageIn readPage
  rw [optionalFind_contents]
  cases optionalFind alloc a with
  | none => rfl
  | some e =>
    cases hstatus : e.status with
    | deallocate => simp [hstatus]
    | allocate =>
      simp only [hstatus]
      cases optionalFind m a with
      | none => rfl
      | some w =>
        simp only [Option.map_some]
        split_ifs <;> rfl

theorem attemptReadIn_contents
    (alloc : IntervalMap Element) (h : Records) (m : IntervalMap ℕ) (fuel : ℕ)
    (a : Interval) :
    attemptRead fuel alloc (contents h m) a =
      ((attemptReadIn fuel alloc h m a).1.map h.get,
        (attemptReadIn fuel alloc h m a).2) := by
  induction fuel generalizing a with
  | zero => rfl
  | succ fuel ih =>
    unfold attemptReadIn attemptRead
    split_ifs with hpage hlt
    · exact readPageIn_contents alloc h m a
    · rw [ih (lowRange a), ih (highRange a)]
      dsimp only
      cases (attemptReadIn fuel alloc h m (lowRange a)).2 with
      | error x => rfl
      | ok u => simp
    · rfl

theorem attemptDeallocateIn_contents
    (alloc : IntervalMap Element) (h : Records) (m : IntervalMap ℕ)
    (a : Interval) :
    (attemptDeallocateIn alloc m a).map (fun x => (x.1, contents h x.2)) =
      attemptDeallocate alloc (contents h m) a := by
  unfold attemptDeallocateIn attemptDeallocate
  cases optionalFind alloc a with
  | none => rfl
  | some e =>
    cases hstatus : e.status with
    | deallocate => simp [hstatus, Except.map]
    | allocate =>
      simp only [hstatus, removeAll_contents]
      split_ifs <;> rfl

/-! ## The operations under other names -/

/-- Two ranges that differ in the access count at most, and not in it when it
is observed. -/
structure Alike (observed : Prop) (i j : Interval) : Prop where
  low : i.low = j.low
  high : i.high = j.high
  provenance : i.provenance = j.provenance
  accessed : observed → i.accessed = j.accessed

variable {o : Prop}

theorem Alike.refl (i : Interval) : Alike o i i :=
  ⟨rfl, rfl, rfl, fun _ => rfl⟩

theorem Alike.trans {i j k : Interval} (hij : Alike o i j) (hjk : Alike o j k) :
    Alike o i k where
  low := hij.low.trans hjk.low
  high := hij.high.trans hjk.high
  provenance := hij.provenance.trans hjk.provenance
  accessed ho := (hij.accessed ho).trans (hjk.accessed ho)

/-- A range as a key: its access count is not looked at. -/
def bare (i : Interval) : Interval := { i with accessed := 0 }

theorem compare_bare (i j : Interval) :
    compare (bare i) (bare j) = compare i j := rfl

theorem Alike.bare_eq {i j : Interval} (h : Alike o i j) : bare i = bare j := by
  obtain ⟨hlow, hhigh, hprov, -⟩ := h
  unfold bare
  rw [hlow, hhigh, hprov]

theorem Alike.isIn_left {i j : Interval} (h : Alike o i j) (a : Interval) :
    isIn i a = isIn j a := by
  simp only [isIn, h.low, h.high]

theorem Alike.safeMerge {i i' j j' : Interval} (hi : Alike o i i')
    (hj : Alike o j j') : safeMerge i j = safeMerge i' j' := by
  change IntervalTree.safeMerge (bare i) (bare j) =
    IntervalTree.safeMerge (bare i') (bare j')
  rw [hi.bare_eq, hj.bare_eq]

/-- One map holds the references of another under new names. -/
def Renames (f : ℕ → ℕ) (m n : IntervalMap ℕ) : Prop :=
  n.map bare id = m.map bare f

section Renames

variable {h k : Records} {f : ℕ → ℕ} {m n : IntervalMap ℕ}
  (hmn : Renames f m n)

include hmn

theorem Renames.optionalFind_eq (x : Interval) :
    optionalFind n x = (optionalFind m x).map f := by
  have hn := optionalFind_map (compare_bare x) id n
  rw [hmn, optionalFind_map (compare_bare x) f m] at hn
  simpa using hn.symm

theorem Renames.removeAll {x y : Interval} (hxy : bare x = bare y) :
    Renames f (removeAll m x) (removeAll n y) := by
  unfold Renames
  rw [← removeAll_map (compare_bare x) f m,
    ← removeAll_map (compare_bare y) id n, hmn, hxy]

theorem Renames.add (hm : h.Bounds m) {x y : Interval} (hxy : bare x = bare y) :
    Renames (Heap.extend h k f) (m.add compare x h.next)
      (n.add compare y k.next) := by
  have hadd := AvlMap.add_map (Heap.extend h k f) (compare_bare x) h.next m
  rw [Heap.extend_next, Heap.map_extend bare hm] at hadd
  unfold Renames
  rw [← hadd, ← AvlMap.add_map id (compare_bare y) k.next n, hmn, hxy]
  rfl

end Renames

/-- Two writes that raise the same exception, or return ranges and maps that
are alike. -/
inductive WroteAlike (o : Prop) (h : Records) (f : ℕ → ℕ) :
    Except IntervalExn (Interval × IntervalMap ℕ × Records) →
    Except IntervalExn (Interval × IntervalMap ℕ × Records) → Prop
  | error (x : IntervalExn) : WroteAlike o h f (.error x) (.error x)
  | ok {w v : Interval} {m n : IntervalMap ℕ} {h' k' : Records} {g : ℕ → ℕ} :
      Alike o w v → Heap.Renaming (Alike o) h' k' g →
      (∀ r < h.next, g r = f r) → Renames g m n →
      WroteAlike o h f (.ok (w, m, h')) (.ok (v, n, k'))

section Alike

variable {h k : Records} {f : ℕ → ℕ} {m n : IntervalMap ℕ}

theorem recordWriteIn_alike
    (hf : Heap.Renaming (Alike o) h k f) (hm : h.Bounds m)
    (hmn : Renames f m n) (a : Interval) :
    WroteAlike o h f (recordWriteIn h m a) (recordWriteIn k n a) := by
  have hextend : ∀ r < h.next, Heap.extend h k f r = f r :=
    fun r hr => Heap.extend_of_lt hr k f
  unfold recordWriteIn
  rw [hmn.optionalFind_eq]
  cases hfind : optionalFind m (mergeRange a) with
  | none =>
    exact .ok (Alike.refl _) (hf.push (Alike.refl _)) hextend (hmn.add hm rfl)
  | some r =>
    have hr := hf.related r (hm.find_lt hfind)
    simp only [Option.map_some, hr.safeMerge (Alike.refl a)]
    cases safeMerge (k.get (f r)) a with
    | error x => exact .error x
    | ok merged =>
      have hw : Alike o
          { merged with
            provenance := a.provenance
            accessed := (h.get r).accessed + 1 }
          { merged with
            provenance := a.provenance
            accessed := (k.get (f r)).accessed + 1 } :=
        ⟨rfl, rfl, rfl, fun ho => by rw [hr.accessed ho]⟩
      exact .ok hw (hf.push hw) hextend
        ((hmn.removeAll hr.bare_eq).add (bounds_removeAll hm _) hw.bare_eq)

theorem writePageIn_alike
    (hf : Heap.Renaming (Alike o) h k f) (hm : h.Bounds m)
    (hmn : Renames f m n) (alloc : IntervalMap Element) (a : Interval) :
    WroteAlike o h f (writePageIn alloc h m a) (writePageIn alloc k n a) := by
  unfold writePageIn
  cases optionalFind alloc a with
  | none => exact .error _
  | some e =>
    cases hstatus : e.status with
    | deallocate =>
      simp only [hstatus]
      exact .error _
    | allocate =>
      simp only [hstatus]
      split_ifs
      · exact recordWriteIn_alike hf hm hmn a
      · exact .error _

theorem attemptWriteIn_alike
    (hf : Heap.Renaming (Alike o) h k f) (hm : h.Bounds m)
    (hmn : Renames f m n) (alloc : IntervalMap Element) (fuel : ℕ)
    (a : Interval) :
    WroteAlike o h f (attemptWriteIn fuel alloc h m a)
      (attemptWriteIn fuel alloc k n a) := by
  induction fuel generalizing h k f m n a with
  | zero => exact .error _
  | succ fuel ih =>
    unfold attemptWriteIn
    split_ifs with hpage hlt
    · exact writePageIn_alike hf hm hmn alloc a
    · have hlow := ih hf hm hmn (lowRange a)
      cases hl : attemptWriteIn fuel alloc h m (lowRange a) with
      | error x =>
        rw [hl] at hlow
        generalize attemptWriteIn fuel alloc k n (lowRange a) = y at hlow
        cases hlow
        exact .error x
      | ok low =>
        obtain ⟨lw, lm, lh⟩ := low
        have hgrows := attemptWriteIn_grows fuel hm hl
        rw [hl] at hlow
        generalize attemptWriteIn fuel alloc k n (lowRange a) = y at hlow
        obtain _ | ⟨hw, hren, hold, hmn'⟩ := hlow
        rename_i lv ln lk g
        have hhigh := ih hren hgrows.bounds hmn' (highRange a)
        simp only [bind, Except.bind]
        generalize attemptWriteIn fuel alloc lk ln (highRange a) = y at hhigh
        generalize attemptWriteIn fuel alloc lh lm (highRange a) = x at hhigh
        obtain x | ⟨hw', hren', hold', hmn''⟩ := hhigh
        · exact .error x
        · rename_i hv hv' hm' hn' hh hk g'
          simp only [hw.safeMerge hw']
          cases safeMerge lv hv' with
          | error x => exact .error x
          | ok merged =>
            refine .ok (Alike.refl _) hren' ?_ hmn''
            intro r hr
            rw [hold' r (hr.trans_le hgrows.heap.next_le), hold r hr]
    · exact .error _

theorem readPageIn_alike
    (hf : Heap.Renaming (Alike o) h k f) (hm : h.Bounds m)
    (hmn : Renames f m n) (alloc : IntervalMap Element) (a : Interval) :
    readPageIn alloc k n a =
      ((readPageIn alloc h m a).1.map f, (readPageIn alloc h m a).2) := by
  unfold readPageIn
  rw [hmn.optionalFind_eq]
  cases optionalFind alloc a with
  | none => rfl
  | some e =>
    cases hstatus : e.status with
    | deallocate => simp [hstatus]
    | allocate =>
      simp only [hstatus]
      cases hfind : optionalFind m a with
      | none => rfl
      | some w =>
        simp only [Option.map_some,
          (hf.related w (hm.find_lt hfind)).isIn_left a]
        split_ifs <;> rfl

theorem attemptReadIn_alike
    (hf : Heap.Renaming (Alike o) h k f) (hm : h.Bounds m)
    (hmn : Renames f m n) (alloc : IntervalMap Element) (fuel : ℕ)
    (a : Interval) :
    attemptReadIn fuel alloc k n a =
      ((attemptReadIn fuel alloc h m a).1.map f,
        (attemptReadIn fuel alloc h m a).2) := by
  induction fuel generalizing a with
  | zero => rfl
  | succ fuel ih =>
    unfold attemptReadIn
    split_ifs with hpage hlt
    · exact readPageIn_alike hf hm hmn alloc a
    · rw [ih (lowRange a), ih (highRange a)]
      dsimp only
      cases (attemptReadIn fuel alloc h m (lowRange a)).2 with
      | error x => rfl
      | ok u => simp
    · rfl

theorem readPageIn_mem
    (alloc : IntervalMap Element) (h : Records) (m : IntervalMap ℕ)
    (a : Interval) {r : ℕ} (hr : r ∈ (readPageIn alloc h m a).1) :
    optionalFind m a = some r := by
  unfold readPageIn at hr
  split at hr
  · simp at hr
  · split at hr
    · simp at hr
    · split at hr
      · simp at hr
      · rename_i written hfind
        split_ifs at hr
        · rw [hfind, List.mem_singleton.mp hr]
        · simp at hr

/-- The records that a read finds are stored in the map. -/
theorem attemptReadIn_mem
    (alloc : IntervalMap Element) (h : Records) (m : IntervalMap ℕ) (fuel : ℕ)
    (a : Interval) {r : ℕ} (hr : r ∈ (attemptReadIn fuel alloc h m a).1) :
    ∃ b ∈ m.bindings, b.2 = r := by
  induction fuel generalizing a with
  | zero => simp [attemptReadIn] at hr
  | succ fuel ih =>
    unfold attemptReadIn at hr
    split_ifs at hr with hpage hlt
    · have hfind := readPageIn_mem alloc h m a hr
      obtain ⟨b, hb, hbr⟩ := Option.map_eq_some_iff.mp hfind
      exact ⟨b, AvlMap.findBinding_mem compare a hb, hbr⟩
    · dsimp only at hr
      split at hr
      · exact ih (lowRange a) hr
      · obtain hr | hr := List.mem_append.mp hr
        · exact ih (lowRange a) hr
        · exact ih (highRange a) hr
    · simp at hr

theorem clearAccess_alike
    (hf : Heap.Renaming (Alike o) h k f) {r : ℕ} (hr : r < h.next) :
    Heap.Renaming (Alike o) (clearAccess h r) (clearAccess k (f r)) f := by
  have hrel := hf.related r hr
  exact hf.set hr ⟨hrel.low, hrel.high, hrel.provenance, fun _ => rfl⟩

theorem foldl_clearAccess_alike
    (hf : Heap.Renaming (Alike o) h k f) (rs : List ℕ)
    (hrs : ∀ r ∈ rs, r < h.next) :
    Heap.Renaming (Alike o) (rs.foldl clearAccess h)
      ((rs.map f).foldl clearAccess k) f := by
  induction rs generalizing h k with
  | nil => exact hf
  | cons r rs ih =>
    simp only [List.map_cons, List.foldl_cons]
    refine ih (clearAccess_alike hf (hrs r List.mem_cons_self)) ?_
    intro s hs
    exact hrs s (List.mem_cons_of_mem r hs)

end Alike

end Fuzzball.IntervalTree
