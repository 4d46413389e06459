import Fuzzball.IntervalRecords
import Fuzzball.OCamlFormat

/-!
# Pointer management

`pointer_management.ml`: the checks of reads and writes against the heap, the
stack and the areas around them, and the tables they keep.  The records of
written ranges and the tables of initialised stack bytes are mutable, so the
manager holds references to them.
-/

namespace Fuzzball.PointerManagement

open IntervalTree

/-! ## Reports -/

/-- The part of `Yojson.Safe.json` that reports are made of. -/
inductive Json
  | string (s : OString)
  | int (z : ℤ)
  | assoc (fields : List (OString × Json))

abbrev Report := List (OString × Json)

def Json.text (s : String) : Json := .string (.ofAscii s)

def field (name : String) (value : Json) : OString × Json :=
  (.ofAscii name, value)

def jsonAddr (i64 : I64) : Json :=
  .string (.ofAscii "0x" ++ hexPadded 8 i64.toNat)

/-! ## Areas of the address space -/

def heapStart : I64 := 0x50000000
def heapEnd : I64 := 0x60000001
def stackStart : I64 := 0xbaaab000
def staticStart : I64 := 0x08040000
def staticEnd : I64 := 0x09000000
def x87Start : I64 := 0xc1048000
def x87End : I64 := 0xc1148000

def isContained (v1 v2 r1 r2 : I64) : Bool :=
  r1.sle v1 && v2.sle r2

def isNonOverlapping (v1 v2 r1 r2 : I64) : Bool :=
  v2.slt r1 || r2.slt v1

def isOverlappingNotContained (v1 v2 r1 r2 : I64) : Bool :=
  (v1.slt r1 && r1.slt v2 && v2.sle r2) ||
    (r1.slt v1 && v1.sle r2 && v1.slt r1) ||
    (v1.slt r1 && r2.slt v2)

def isOverlapping (v1 v2 r1 r2 : I64) : Bool :=
  isContained v1 v2 r1 r2 || isOverlappingNotContained v1 v2 r1 r2

/-- The branches of `is_safe_read` and `is_safe_write`. -/
inductive Area
  | heap
  | gap
  | stack
  | x87
  | pastStack
  | beforeHeap
  | beforeProgram
  | other
  deriving DecidableEq, Repr

/-- The overlap tests that both checks make after the one for the heap. -/
def inGap (stackEnd v1 v2 : I64) : Bool :=
  isOverlapping v1 v2 heapEnd stackEnd ||
    isOverlappingNotContained v1 v2 heapStart heapEnd

/-- The tests of both checks that do not look at the tables. -/
def fixedArea (v1 v2 : I64) : Option Area :=
  if x87Start.slt v1 && v2.slt x87End then some .x87
  else if stackStart.slt v2 then some .pastStack
  else if staticEnd.slt v1 && v2.slt heapStart then some .beforeHeap
  else if (4096 : I64).sle v1 && v2.slt staticStart then some .beforeProgram
  else none

def readArea (stackEnd v1 v2 : I64) : Area :=
  if isContained v1 v2 heapStart heapEnd then .heap
  else if inGap stackEnd v1 v2 then .gap
  else if isContained v1 v2 stackEnd stackStart then .stack
  else (fixedArea v1 v2).getD .other

/-- A write is tested for the stack last. -/
def writeArea (stackEnd v1 v2 : I64) : Area :=
  if isContained v1 v2 heapStart heapEnd then .heap
  else if inGap stackEnd v1 v2 then .gap
  else
    (fixedArea v1 v2).getD
      (if isContained v1 v2 stackEnd stackStart then .stack else .other)

/-! ## The manager -/

/-- The options that the manager reads. -/
structure Options where
  readWriteWarnRatio : ℤ
  bigAlloc : Option I64
  maxWeirdness : ℤ
  singleWeirdnessThreshold : ℤ

/-- The options without any on the command line. -/
def Options.default : Options := ⟨-1, none, 100, 100⟩

/-- The addresses that are keys of a stack table. -/
abbrev StackTable := I64 → Bool

def StackTable.replace (table : StackTable) (addr : I64) : StackTable :=
  Function.update table addr true

/-- The two hash tables the manager is created with. -/
inductive TableRef
  | stackTable
  | savedStackTable
  deriving DecidableEq, Repr

structure Manager where
  records : Records
  tables : TableRef → StackTable
  assignRanges : IntervalMap Element
  ioRanges : IntervalMap ℕ
  stackTable : TableRef
  stackEnd : I64
  savedAssignRanges : IntervalMap Element
  savedIoRanges : IntervalMap ℕ
  savedStackTable : TableRef
  savedStackEnd : I64
  /-- The global `weird_count` of `exec_assert_minder.ml`. -/
  weirdCount : ℤ

def Manager.new (weirdCount : ℤ) : Manager where
  records := ⟨fun _ => ⟨0, 0, .internal, 0⟩, 0⟩
  tables := fun _ _ => false
  assignRanges := .empty
  ioRanges := .empty
  stackTable := .stackTable
  stackEnd := 0xbaaab000
  savedAssignRanges := .empty
  savedIoRanges := .empty
  savedStackTable := .savedStackTable
  savedStackEnd := 0
  weirdCount := weirdCount

def Manager.table (s : Manager) : StackTable := s.tables s.stackTable

def Manager.setTable (s : Manager) (table : StackTable) : Manager :=
  { s with tables := Function.update s.tables s.stackTable table }

inductive PmExn
  | failure (message : String)
  | doubleFree
  | deallocNotAlloc
  | uninitializedMemory
  | interval (x : IntervalExn)
  | read (x : ReadExn)
  deriving DecidableEq, Repr

/-- What a method answers and reports, and the manager it leaves. -/
structure Result (α : Type) where
  answer : Except PmExn α
  reports : List Report
  manager : Manager

/-- `g_assert` with the penalty 100, before the rest of a method. -/
def gAssert {α : Type} (o : Options) (s : Manager) (assertion : Bool)
    (sawAt : String) (rest : Manager → Result α) : Result α :=
  if assertion then rest s
  else
    let s' := { s with weirdCount := s.weirdCount + 100 }
    if o.maxWeirdness < s'.weirdCount ∨ o.singleWeirdnessThreshold < 100 then
      ⟨.error (.failure ("Too many errors\n.Last Straw: " ++ sawAt)), [], s'⟩
    else rest s'

def updateStackEnd (s : Manager) (esp : I64) : Manager :=
  let s' :=
    if s.stackEnd.slt esp then
      s.setTable fun addr => s.table addr && !addr.slt s.stackEnd
    else s
  { s' with stackEnd := esp }

/-- The last address of a range. -/
def endAddr (addr len : I64) : I64 := addr + (len - 1)

def interval (prov : Provenance) (addr len : I64) : Interval :=
  ⟨addr, endAddr addr len, prov, 0⟩

/-- The recursion on the pages of a range ends after so many calls. -/
def pages (r : Interval) : ℕ := (page r.high - page r.low).toNat + 1

def bigAllocReports (o : Options) (addr len : I64) : List Report :=
  match o.bigAlloc with
  | none => []
  | some size =>
    if size.sle len then
      [[field "tag" (.text ":suspiciously-big-allocate"),
        field "alloc size" (.string (decimal len.toInt)),
        field "suspiciously-big-allocate-addr" (jsonAddr addr)]]
    else []

def addAlloc (o : Options) (s : Manager) (addr len : I64) : Result Unit :=
  if len = 0 then
    ⟨.ok (), [[field "tag" (.text ":zero-length-allocate"),
      field "zero-length-allocate-addr" (jsonAddr addr)]], s⟩
  else
    let reports := bigAllocReports o addr len
    match attemptAllocate (s.assignRanges.cardinal + 1) s.assignRanges
        (interval .internal addr len) with
    | .ok ranges => ⟨.ok (), reports, { s with assignRanges := ranges }⟩
    | .error (.allocatingAllocated _ _) => ⟨.ok (), reports, s⟩
    | .error x => ⟨.error (.interval x), reports, s⟩

def addDealloc (o : Options) (s : Manager) (addr len : I64) : Result Unit :=
  gAssert o s ((0 : I64).slt len) "Pointer_management.add_dealloc" fun s =>
    match attemptDeallocateIn s.assignRanges s.ioRanges
        (interval .internal addr len) with
    | .ok (assign, io) =>
      ⟨.ok (), [], { s with assignRanges := assign, ioRanges := io }⟩
    | .error (.doubleFree _ _) =>
      ⟨.error .doubleFree, [[field "tag" (.text ":double-free"),
        field "double-freed-addr" (jsonAddr addr)]], s⟩
    | .error (.deallocationSizeMismatch _ _) => ⟨.ok (), [], s⟩
    | .error (.deallocatingUnallocated _) => ⟨.error .deallocNotAlloc, [], s⟩
    | .error x => ⟨.error (.interval x), [], s⟩

def findReadProv (s : Manager) (addr len : I64) : Result Provenance :=
  match optionalFind s.ioRanges (interval .internal addr len) with
  | none => ⟨.ok .internal, [], s⟩
  | some i => ⟨.ok (s.records.get i).provenance, [], s⟩

/-! ## Reads -/

def unsafeReport (tag subtag : String) (fields : Report) : Report :=
  field "tag" (.text tag) :: field "subtag" (.text subtag) :: fields

def readFields (addr len : I64) : Report :=
  [field "read-start" (jsonAddr addr),
    field "read-len" (.int len.toOCamlInt)]

def stackFields (stackEnd addr len : I64) : Report :=
  field "stack-start" (jsonAddr stackStart) ::
    field "stack-end" (jsonAddr stackEnd) :: readFields addr len

/-- The reports of both checks about the areas where nothing is mapped. -/
def areaReports (tag : String) (stackEnd addr len : I64) : Area → List Report
  | .pastStack =>
    [unsafeReport tag ":past-stack" (stackFields stackEnd addr len)]
  | .beforeHeap => [unsafeReport tag ":before-heap" (readFields addr len)]
  | .beforeProgram =>
    [unsafeReport tag ":before-program" (readFields addr len)]
  | _ => []

/-- One report for each byte of the range, the last one apart, that the stack
table does not have. -/
def uninitReports (s : Manager) (addr len : I64) : List Report :=
  ((List.range (endAddr addr len - addr).toNat).filter fun i =>
    !s.table (addr + I64.ofInt i)).map fun _ =>
      unsafeReport ":uninit-read" ":stack-missing"
        (stackFields s.stackEnd addr len)

def readHeap (s : Manager) (prov : Provenance) (addr len : I64) : Result Bool :=
  let r := interval prov addr len
  let read := attemptReadIn (pages r) s.assignRanges s.records s.ioRanges r
  let s' := { s with records := read.1.foldl clearAccess s.records }
  match read.2 with
  | .ok () => ⟨.ok true, [], s'⟩
  | .error (.readingUnallocated _) =>
    ⟨.ok false,
      [unsafeReport ":unsafe-read" ":heap-unallocated" (readFields addr len)],
      s'⟩
  | .error (.readingUnwritten _) => ⟨.error .uninitializedMemory, [], s'⟩
  | .error x => ⟨.error (.read x), [], s'⟩

/-- `is_safe_read` after its assertion. -/
def checkRead (s : Manager) (prov : Provenance) (addr len : I64) :
    Result Bool :=
  match readArea s.stackEnd addr (endAddr addr len) with
  | .heap => readHeap s prov addr len
  | .stack => ⟨.ok true, uninitReports s addr len, s⟩
  | .x87 => ⟨.ok true, [], s⟩
  | .other => ⟨.ok true, [], s⟩
  | area => ⟨.ok false, areaReports ":unsafe-read" s.stackEnd addr len area, s⟩

def isSafeRead (o : Options) (s : Manager) (prov : Provenance)
    (addr len : I64) : Result Bool :=
  gAssert o s ((0 : I64).slt len) "Pointer_management.is_safe_read" fun s =>
    checkRead s prov addr len

/-! ## Writes -/

def writeReport (tag subtag : String) (addr len : I64) (fields : Report) :
    Report :=
  unsafeReport tag subtag (field "write-start" (jsonAddr addr) ::
    field "write-end" (jsonAddr (endAddr addr len)) :: fields)

def legalFields (legal : Interval) : Report :=
  [field "legal-start" (jsonAddr legal.low),
    field "legal-end" (jsonAddr legal.high)]

def segmentsField (existing : List Interval) : OString × Json :=
  field "segments-written-to" (.assoc (existing.map fun i =>
    field "segment-touched" (.assoc [field "start_addr" (jsonAddr i.low),
      field "end_addr" (jsonAddr i.high)])))

/-- The report about a write that the allocation map does not allow. -/
def conflictReport (addr len : I64) : IntervalExn → Option Report
  | .writeBeforeAllocated _ =>
    some (writeReport ":unsafe-write" ":write-before-allocation" addr len [])
  | .writeAfterDeallocated _ =>
    some (writeReport ":unsafe-write" ":write-after-dealloc" addr len [])
  | .writeAcross legal _ =>
    some (writeReport ":unsafe-write" ":write-across-allocated" addr len
      (legalFields legal))
  | .writeBefore legal _ =>
    some (writeReport ":unsafe-write" ":write-before-allocated" addr len
      (legalFields legal))
  | .writeAfter legal _ =>
    some (writeReport ":unsafe-write" ":write-after-allocated" addr len
      (legalFields legal))
  | .multiWriteConflict existing _ =>
    some (writeReport ":unsafe-write" ":write-across-multiple-allocs" addr len
      [segmentsField existing])
  | _ => none

def suspiciousReports (o : Options) (addr len : I64) (newWrite : Interval) :
    List Report :=
  if o.readWriteWarnRatio ≠ -1 ∧ o.readWriteWarnRatio < newWrite.accessed then
    [writeReport ":suspicious-write" ":write-before-read" addr len []]
  else []

def writeHeap (o : Options) (s : Manager) (prov : Provenance)
    (addr len : I64) : Result Bool :=
  let r := interval prov addr len
  match attemptWriteIn (pages r) s.assignRanges s.records s.ioRanges r with
  | .ok (newWrite, io, records) =>
    gAssert o s (newWrite.provenance = prov) "Pointer_management.is_safe_write"
      fun s =>
        ⟨.ok true, suspiciousReports o addr len newWrite,
          { s with ioRanges := io, records := records }⟩
  | .error x =>
    match conflictReport addr len x with
    | some report => ⟨.ok false, [report], s⟩
    | none => ⟨.error (.interval x), [], s⟩

/-- The bytes of a range, from the first one. -/
def bytes (addr len : I64) : List I64 :=
  (List.range len.toOCamlInt.toNat).map fun i => addr + I64.ofInt i

/-- `is_safe_write` after its assertion. -/
def checkWrite (o : Options) (s : Manager) (prov : Provenance)
    (addr len : I64) : Result Bool :=
  match writeArea s.stackEnd addr (endAddr addr len) with
  | .heap => writeHeap o s prov addr len
  | .stack =>
    ⟨.ok true, [],
      s.setTable ((bytes addr len).foldl StackTable.replace s.table)⟩
  | .x87 => ⟨.ok true, [], s⟩
  | .other => ⟨.ok true, [], s⟩
  | area =>
    ⟨.ok false, areaReports ":unsafe-write" s.stackEnd addr len area, s⟩

def isSafeWrite (o : Options) (s : Manager) (prov : Provenance)
    (addr len : I64) : Result Bool :=
  gAssert o s ((0 : I64).slt len) "Pointer_management.is_safe_write" fun s =>
    checkWrite o s prov addr len

/-! ## Snapshots -/

def makeSnap (s : Manager) : Manager :=
  { s with
    savedAssignRanges := s.assignRanges
    savedIoRanges := s.ioRanges
    savedStackTable := s.stackTable
    savedStackEnd := s.stackEnd }

def reset (s : Manager) : Manager :=
  { s with
    assignRanges := s.savedAssignRanges
    ioRanges := s.savedIoRanges
    stackTable := s.savedStackTable
    stackEnd := s.savedStackEnd }

end Fuzzball.PointerManagement
