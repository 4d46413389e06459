import Fuzzball.OCaml
import Fuzzball.AvlMap

/-!
# Interval maps of pointer management

`interval_tree.ml`: intervals of signed 64-bit addresses, the comparison that
takes intersecting intervals for equal, and the operations on the allocation
map and on the map of written ranges.  A function that fails by an exception
returns no map, and its caller keeps the one it had.
-/

namespace Fuzzball.IntervalTree

inductive Provenance
  | internal
  | external
  | random
  deriving DecidableEq, Repr

structure Interval where
  low : I64
  high : I64
  provenance : Provenance
  accessed : ℤ
  deriving DecidableEq, Repr

def intersects (i1 i2 : Interval) : Bool :=
  (i2.low.sle i1.low && i1.low.sle i2.high) ||
    (i1.high.sle i2.high && i2.low.sle i1.high) ||
    (i1.low.sle i2.low && i2.low.sle i1.high) ||
    (i2.high.sle i1.high && i1.low.sle i2.high)

def compare (i1 i2 : Interval) : Ordering :=
  if intersects i1 i2 then .eq else if i1.low.slt i2.low then .lt else .gt

def abbuts (i1 i2 : Interval) : Bool :=
  i2.low - i1.high == 1 || i1.low - i2.high == 1

/-- `is_in i1 i2`: is `i2` in `i1`. -/
def isIn (i1 i2 : Interval) : Bool :=
  i1.low.sle i2.low && i2.high.sle i1.high

inductive ClaimStatus
  | allocate
  | deallocate
  deriving DecidableEq, Repr

structure Element where
  key : Interval
  status : ClaimStatus
  deriving DecidableEq, Repr

abbrev IntervalMap := AvlMap Interval

inductive IntervalExn
  | allocatingAllocated (original proposed : Interval)
  | doubleFree (original proposed : Interval)
  | deallocatingUnallocated (proposed : Interval)
  | deallocationSizeMismatch (original proposed : Interval)
  | writeBeforeAllocated (proposed : Interval)
  | writeAfterDeallocated (proposed : Interval)
  | writeBefore (original proposed : Interval)
  | writeAfter (original proposed : Interval)
  | writeAcross (original proposed : Interval)
  | multiWriteConflict (existing : List Interval) (proposed : Interval)
  | assertFailure
  | failure (message : String)
  | stackOverflow
  deriving DecidableEq, Repr

/-- The smaller of two addresses, as `Pervasives.min` finds it. -/
def minLow (a b : I64) : I64 := if a.sle b then a else b

def maxHigh (a b : I64) : I64 := if b.sle a then a else b

def makeIntervalWcheck
    (prov : Provenance) (low high : I64) : Except IntervalExn Interval :=
  if low.sle high then .ok ⟨low, high, prov, 0⟩ else .error .assertFailure

def safeMerge (i1 i2 : Interval) : Except IntervalExn Interval := do
  let ret ← makeIntervalWcheck i1.provenance (minLow i1.low i2.low)
    (maxHigh i1.high i2.high)
  if intersects ret i1 ∧ intersects ret i2 ∧
      (intersects i1 i2 ∨ abbuts i1 i2) then .ok ret
  else .error .assertFailure

/-! ## Lookups -/

def optionalFind {δ : Type} (imap : IntervalMap δ) (key : Interval) :
    Option δ :=
  imap.find compare key

/-- Removes all keys that collide with the given key. -/
def removeAll {δ : Type} (imap : IntervalMap δ) (key : Interval) :
    IntervalMap δ :=
  let imap' := imap.remove compare key
  if h : imap'.cardinal = imap.cardinal then imap else removeAll imap' key
termination_by imap.cardinal
decreasing_by
  have hle := (AvlMap.bindings_remove_sublist compare key imap).length_le
  rw [← AvlMap.cardinal_eq, ← AvlMap.cardinal_eq] at hle
  exact lt_of_le_of_ne hle h

/-- The helper of `find_all`: the ranges that meet the key, in the order in
which the lookups find them. -/
def findAllHelper (key : Interval) : ℕ → IntervalMap Element → List Interval
  | 0, _ => []
  | fuel + 1, imap =>
    match optionalFind imap key with
    | none => []
    | some i => i.key :: findAllHelper key fuel (imap.remove compare i.key)

/-- Each lookup is followed by the removal of what it found, so the number of
keys bounds the number of lookups. -/
def findAll (baseImap : IntervalMap Element) (key : Interval) : List Interval :=
  (findAllHelper key (baseImap.cardinal + 1) baseImap).mergeSort
    fun a b => a.low.sle b.low

/-! ## Allocation -/

/-- `attempt_allocate`.  It calls itself after the removal of a deallocated
range, `fuel` times at most. -/
def attemptAllocate : ℕ → IntervalMap Element → Interval →
    Except IntervalExn (IntervalMap Element)
  | 0, _, _ => .error .stackOverflow
  | fuel + 1, imap, attempted =>
    match optionalFind imap attempted with
    | some collision =>
      match collision.status with
      | .deallocate =>
        attemptAllocate fuel (imap.remove compare collision.key) attempted
      | .allocate => .error (.allocatingAllocated collision.key attempted)
    | none => .ok (imap.add compare attempted ⟨attempted, .allocate⟩)

def attemptDeallocate
    (allocMap : IntervalMap Element) (ioMap : IntervalMap Interval)
    (attempted : Interval) :
    Except IntervalExn (IntervalMap Element × IntervalMap Interval) :=
  match optionalFind allocMap attempted with
  | some collision =>
    match collision.status with
    | .deallocate => .error (.doubleFree collision.key attempted)
    | .allocate =>
      if collision.key.low = attempted.low ∧
          collision.key.high = attempted.high then
        .ok ((removeAll allocMap attempted).add compare attempted
          ⟨attempted, .deallocate⟩, removeAll ioMap attempted)
      else .error (.deallocationSizeMismatch collision.key attempted)
  | none => .error (.deallocatingUnallocated attempted)

/-! ## Writes -/

def pageSize : I64 := 4096

def page (a : I64) : I64 := a.sdiv pageSize

/-- The range that a write is merged with: one address more on each side,
within the page. -/
def mergeRange (attempted : Interval) : Interval where
  low := if attempted.low.srem 4096 = 0 then attempted.low
    else attempted.low - 1
  high := if attempted.high.srem 4096 = 0xfff then attempted.high
    else attempted.high + 1
  provenance := attempted.provenance
  accessed := 1

/-- The part of a range before the page of its last address. -/
def lowRange (attempted : Interval) : Interval where
  low := attempted.low
  high := attempted.high - attempted.high.srem pageSize - 1
  provenance := attempted.provenance
  accessed := attempted.accessed + 1

/-- The part of a range on the page of its last address. -/
def highRange (attempted : Interval) : Interval where
  low := attempted.high - attempted.high.srem pageSize
  high := attempted.high
  provenance := attempted.provenance
  accessed := attempted.accessed + 1

/-- The exception for a write that is not inside of one allocated range. -/
def writeConflict
    (allocMap : IntervalMap Element) (attempted : Interval) : IntervalExn :=
  match findAll allocMap attempted with
  | [] => .assertFailure
  | [spill] =>
    let before := attempted.low.slt spill.low
    let after := spill.high.slt attempted.high
    if before && after then .writeAcross spill attempted
    else if before then .writeBefore spill attempted
    else if after then .writeAfter spill attempted
    else .assertFailure
  | ranges => .multiWriteConflict ranges attempted

/-- The update of the map of written ranges by an allowed write. -/
def recordWrite (ioMap : IntervalMap Interval) (attempted : Interval) :
    Except IntervalExn (Interval × IntervalMap Interval) :=
  match optionalFind ioMap (mergeRange attempted) with
  | none =>
    let written := { attempted with accessed := 1 }
    .ok (written, ioMap.add compare written written)
  | some write => do
    let merged ← safeMerge write attempted
    let toAdd := { merged with
      provenance := attempted.provenance
      accessed := write.accessed + 1 }
    .ok (toAdd, (removeAll ioMap write).add compare toAdd toAdd)

/-- `attempt_write` of a range within one page. -/
def writePage
    (allocMap : IntervalMap Element) (ioMap : IntervalMap Interval)
    (attempted : Interval) :
    Except IntervalExn (Interval × IntervalMap Interval) :=
  match optionalFind allocMap attempted with
  | none => .error (.writeBeforeAllocated attempted)
  | some interval =>
    match interval.status with
    | .deallocate => .error (.writeAfterDeallocated attempted)
    | .allocate =>
      if isIn interval.key attempted then recordWrite ioMap attempted
      else .error (writeConflict allocMap attempted)

/-- `attempt_write`.  A range on several pages is cut before the page of its
last address; `fuel` bounds the depth of the recursion. -/
def attemptWrite : ℕ → IntervalMap Element → IntervalMap Interval → Interval →
    Except IntervalExn (Interval × IntervalMap Interval)
  | 0, _, _, _ => .error .stackOverflow
  | fuel + 1, allocMap, ioMap, attempted =>
    if page attempted.low = page attempted.high then
      writePage allocMap ioMap attempted
    else if (page attempted.low).slt (page attempted.high) then do
      let (lowWritten, lowIoMap) ←
        attemptWrite fuel allocMap ioMap (lowRange attempted)
      let (highWritten, highIoMap) ←
        attemptWrite fuel allocMap lowIoMap (highRange attempted)
      let written ← safeMerge lowWritten highWritten
      .ok (written, highIoMap)
    else .error (.failure "illegal write range")

end Fuzzball.IntervalTree
