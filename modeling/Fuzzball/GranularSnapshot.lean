import Fuzzball.GranularFlat

/-!
# Granular snapshot memory

`granular_snapshot_memory`: two memories, of which the main one is only
written by a snapshot once the first snapshot has been taken.  The missing
function of the difference loads from the main memory, which a load may
change, so it is a program over the main memory and the outside state.
-/

namespace Fuzzball.Granular

variable {μ σ τ : Type}

/-! ## Memories as objects -/

/-- The methods of a memory that a snapshot memory calls. -/
structure MemoryObject (μ σ τ : Type) where
  maybeLoad : Size → μ → I64 → StateM σ (Option τ × μ)
  load : Size → μ → I64 → StateM σ (τ × μ)
  store : Size → μ → I64 → τ → μ
  updateMem : μ → I64 → Gran64 τ → μ
  clear : μ → μ
  measureSize : μ → ℕ × ℕ × ℕ

namespace HashTable

variable (D : Domain τ)

def updateMem (mem : HashTable τ) (addr : I64) (src : Gran64 τ) : HashTable τ :=
  match mem.lookup addr with
  | some dst => mem.insert addr (merge64 D src dst)
  | none => mem.insert addr src

/-- The keys are distinct, and the order of the iteration has no effect. -/
def copyTo (mem : HashTable τ) (M : MemoryObject μ σ τ) (gm : μ) : μ :=
  mem.entries.foldl (fun gm e => M.updateMem gm e.1 e.2) gm

def measureSize (mem : HashTable τ) : ℕ × ℕ × ℕ :=
  (mem.entries.foldl (fun sum e => sum + gran64Size D e.2) 0,
    mem.entries.length, 0)

end HashTable

variable (D : Domain τ)

def hashObject (missing : Missing σ τ) : MemoryObject (HashTable τ) σ τ where
  maybeLoad := hashMemory.maybeLoad D missing
  load := hashMemory.load D missing
  store := (hashMemory (σ := σ)).store D
  updateMem := HashTable.updateMem D
  clear _ := ∅
  measureSize := HashTable.measureSize D

/-! ## The class `granular_snapshot_memory` -/

structure Snapshot (μ τ : Type) where
  haveSnap : Bool
  main : μ
  diff : HashTable τ

namespace Snapshot

variable (M : MemoryObject μ σ τ)

/-- The missing function of the difference.  No other sizes are asked for. -/
def diffMissing : Missing (μ × σ) τ := fun bits addr s =>
  let load (size : Size) : τ × μ × σ :=
    let r := M.load size s.1 addr s.2
    (r.1.1, r.1.2, r.2)
  match bits with
  | 8 => load .byte
  | 16 => load .short
  | 32 => load .word
  | _ => load .long

/-- Run a method of the difference. -/
def onDiff {α : Type} (st : Snapshot μ τ)
    (x : StateM (μ × σ) (α × HashTable τ)) : StateM σ (α × Snapshot μ τ) :=
  fun s =>
    let r := x (st.main, s)
    ((r.1.1, { st with main := r.2.1, diff := r.1.2 }), r.2.2)

/-- Run a method of the main memory. -/
def onMain {α : Type} (st : Snapshot μ τ) (x : StateM σ (α × μ)) :
    StateM σ (α × Snapshot μ τ) := do
  let r ← x
  pure (r.1, { st with main := r.2 })

def store (size : Size) (st : Snapshot μ τ) (addr : I64) (v : τ) :
    Snapshot μ τ :=
  if st.haveSnap then
    { st with diff := (hashMemory (σ := μ × σ)).store D size st.diff addr v }
  else { st with main := M.store size st.main addr v }

def maybeLoad (size : Size) (st : Snapshot μ τ) (addr : I64) :
    StateM σ (Option τ × Snapshot μ τ) :=
  if st.haveSnap then do
    let (mv, st) ← st.onDiff
      (hashMemory.maybeLoad D (diffMissing M) size st.diff addr)
    match mv with
    | some v => pure (some v, st)
    | none => st.onMain (M.maybeLoad size st.main addr)
  else st.onMain (M.maybeLoad size st.main addr)

def load (size : Size) (st : Snapshot μ τ) (addr : I64) :
    StateM σ (τ × Snapshot μ τ) :=
  if st.haveSnap then do
    let (mv, st) ← st.onDiff
      (hashMemory.maybeLoad D (diffMissing M) size st.diff addr)
    match mv with
    | some v => pure (v, st)
    | none => st.onMain (M.load size st.main addr)
  else st.onMain (M.load size st.main addr)

def measureSize (st : Snapshot μ τ) : ℕ × ℕ × ℕ :=
  let d := st.diff.measureSize D
  let m := M.measureSize st.main
  (d.1 + m.1, d.2.1 + m.2.1, d.2.2 + m.2.2)

def clear (st : Snapshot μ τ) : Snapshot μ τ :=
  { st with diff := ∅, main := M.clear st.main }

def makeSnap (st : Snapshot μ τ) : Snapshot μ τ :=
  if 0 < (st.diff.measureSize D).1 then
    { haveSnap := true, main := st.diff.copyTo M st.main, diff := ∅ }
  else { st with haveSnap := true }

def reset (st : Snapshot μ τ) : Snapshot μ τ := { st with diff := ∅ }

def updateMem (st : Snapshot μ τ) (addr : I64) (src : Gran64 τ) :
    Snapshot μ τ :=
  if st.haveSnap then { st with diff := st.diff.updateMem D addr src }
  else { st with main := M.updateMem st.main addr src }

end Snapshot

def snapshotObject (M : MemoryObject μ σ τ) :
    MemoryObject (Snapshot μ τ) σ τ where
  maybeLoad := Snapshot.maybeLoad D M
  load := Snapshot.load D M
  store := Snapshot.store D M
  updateMem := Snapshot.updateMem D M
  clear := Snapshot.clear M
  measureSize := Snapshot.measureSize D M

/-- The memories a snapshot memory is built over, with their initial state and
their own `make_snap`: hash memories, and snapshot memories of these as in
`granular_second_snapshot_memory`. -/
inductive MainMemory (missing : Missing σ τ) :
    (μ : Type) → MemoryObject μ σ τ → μ → (μ → μ) → Prop
  | hash : MainMemory missing (HashTable τ) (hashObject D missing) ∅ id
  | snapshot {μ : Type} {M : MemoryObject μ σ τ} {init : μ} {inner : μ → μ}
      (main : MainMemory missing μ M init inner) :
      MainMemory missing (Snapshot μ τ) (snapshotObject D M)
        ⟨false, init, ∅⟩ (Snapshot.makeSnap D M)

/-! ## Runs -/

inductive Method (τ : Type)
  | store (size : Size) (addr : I64) (v : τ)
  | maybeLoad (size : Size) (addr : I64)
  | load (size : Size) (addr : I64)
  | updateMem (addr : I64) (src : Gran64 τ)
  | makeSnap
  | innerMakeSnap
  | reset
  | clear

/-- Stored values have the width they are stored at. -/
def Method.Wf (IsWidth : ℕ → τ → Prop) : Method τ → Prop
  | .store size _ v => IsWidth size.bits v
  | .updateMem _ src => src.Wf IsWidth
  | _ => True

namespace Snapshot

variable (M : MemoryObject μ σ τ) (inner : μ → μ)

def call (st : Snapshot μ τ) : Method τ → StateM σ (Snapshot μ τ)
  | .store size addr v => pure (st.store D M size addr v)
  | .maybeLoad size addr => do
    let r ← st.maybeLoad D M size addr
    pure r.2
  | .load size addr => do
    let r ← st.load D M size addr
    pure r.2
  | .updateMem addr src => pure (st.updateMem D M addr src)
  | .makeSnap => pure (st.makeSnap D M)
  | .innerMakeSnap => pure { st with main := inner st.main }
  | .reset => pure st.reset
  | .clear => pure (st.clear M)

/-- The state after some methods of a new snapshot memory. -/
def run (init : μ) (methods : List (Method τ)) : StateM σ (Snapshot μ τ) :=
  methods.foldlM (call D M inner) ⟨false, init, ∅⟩

/-- The stores of a list of sizes, addresses and values. -/
def storeAll (st : Snapshot μ τ) (stores : List (Size × I64 × τ)) :
    Snapshot μ τ :=
  stores.foldl (fun st a => st.store D M a.1 a.2.1 a.2.2) st

end Snapshot

/-! ## What is read of a main memory -/

variable {D} {IsWidth : ℕ → τ → Prop}

open GranularMemory (orMissing)

/-- The bytes a memory has, an invariant, and what its methods do to them. -/
structure LawfulMain (D : Domain τ) (IsWidth : ℕ → τ → Prop)
    (missing : Missing σ τ) (M : MemoryObject μ σ τ) (Inv : μ → Prop)
    (bytes : μ → I64 → Option τ) : Prop where
  loadByte : ∀ {mem} addr, Inv mem →
    Prod.fst <$> M.load .byte mem addr =
      orMissing missing 8 addr (bytes mem addr)
  load : ∀ size {mem} addr, Inv mem →
    Keeps (fun _ => True) (M.load size mem addr) fun r =>
      IsWidth size.bits r.1 ∧ Inv r.2
  maybeLoad : ∀ size {mem} addr, Inv mem →
    Keeps (fun _ => True) (M.maybeLoad size mem addr) fun r => Inv r.2
  store : ∀ size {mem} addr {v}, Inv mem → IsWidth size.bits v →
    Inv (M.store size mem addr v)
  updateMem : ∀ {mem} addr {src}, Inv mem → Gran64.Wf IsWidth src →
    Inv (M.updateMem mem addr src)
  bytes_updateMem : ∀ {mem} addr {src} x, Inv mem → Gran64.Wf IsWidth src →
    bytes (M.updateMem mem addr src) x =
      if chunkAddr x = addr then (src.at D (which x)).or (bytes mem x)
      else bytes mem x
  clear : ∀ {mem}, Inv mem → Inv (M.clear mem)

/-- A missing function whose values have the width asked for. -/
theorem answers_of_isWidth
    {missing : Missing σ τ} {I : σ → Prop}
    (hmissing : ∀ size addr, Keeps I (missing size.bits addr)
      fun v => IsWidth (Size.bits size) v) :
    Answers D IsWidth I missing fun _ _ => True := by
  intro size addr
  refine (hmissing size addr).mono ?_
  intro v hv
  exact ⟨hv, fun _ _ => trivial⟩

/-! ## Invariants -/

/-- Until the first snapshot the difference is empty. -/
def Snapshot.Inv (IsWidth : ℕ → τ → Prop) (MainInv : μ → Prop)
    (st : Snapshot μ τ) : Prop :=
  MainInv st.main ∧ MemoryWf IsWidth HashTable.chunk st.diff ∧
    (st.haveSnap = false → st.diff = ∅)

def Snapshot.bytes (D : Domain τ) (mainBytes : μ → I64 → Option τ)
    (st : Snapshot μ τ) (x : I64) : Option τ :=
  (contents D HashTable.chunk st.diff x).or (mainBytes st.main x)

/-! ## Hash memory -/

theorem HashTable.chunk_updateMem
    (mem : HashTable τ) (addr : I64) (src : Gran64 τ) :
    ∃ g, HashTable.chunk (mem.updateMem D addr src) =
        Function.update (HashTable.chunk mem) addr g ∧
      (g = merge64 D src (HashTable.chunk mem addr) ∨
        g = src ∧ HashTable.chunk mem addr = .absent64) := by
  unfold updateMem
  cases hlookup : mem.lookup addr with
  | some dst =>
    refine ⟨_, chunk_insert mem addr _, .inl ?_⟩
    rw [chunk, hlookup]
    rfl
  | none =>
    refine ⟨_, chunk_insert mem addr _, .inr ⟨rfl, ?_⟩⟩
    rw [chunk, hlookup]
    rfl

section Lawful

variable (hD : LawfulDomain D IsWidth)

include hD

theorem HashTable.updateMem_wf
    {mem : HashTable τ} (hmem : MemoryWf IsWidth HashTable.chunk mem)
    (addr : I64) {src : Gran64 τ} (hsrc : src.Wf IsWidth) :
    MemoryWf IsWidth HashTable.chunk (mem.updateMem D addr src) := by
  obtain ⟨g, hchunk, hg⟩ := chunk_updateMem (D := D) mem addr src
  have hwf : g.Wf IsWidth := by
    obtain rfl | ⟨rfl, -⟩ := hg
    · exact merge64_wf hD hsrc (hmem addr)
    · exact hsrc
  intro c
  rw [hchunk]
  by_cases h : c = addr
  · rwa [h, Function.update_self]
  · rw [Function.update_of_ne h]
    exact hmem c

theorem HashTable.contents_updateMem
    {mem : HashTable τ} (hmem : MemoryWf IsWidth HashTable.chunk mem)
    (addr : I64) {src : Gran64 τ} (hsrc : src.Wf IsWidth) (x : I64) :
    contents D HashTable.chunk (mem.updateMem D addr src) x =
      if chunkAddr x = addr then
        (src.at D (which x)).or (contents D HashTable.chunk mem x)
      else contents D HashTable.chunk mem x := by
  obtain ⟨g, hchunk, hg⟩ := chunk_updateMem (D := D) mem addr src
  rw [contents, hchunk]
  by_cases h : chunkAddr x = addr
  · subst h
    rw [Function.update_self, if_pos rfl, contents]
    obtain rfl | ⟨rfl, habsent⟩ := hg
    · exact merge64_at hD hsrc (hmem _) (which_lt x)
    · rw [habsent]
      exact (Option.or_none).symm
  · rw [Function.update_of_ne h, if_neg h]
    rfl

theorem hashObject_lawful
    {missing : Missing σ τ}
    (hmissing : ∀ size addr s, IsWidth (Size.bits size)
      (missing size.bits addr s).1) :
    LawfulMain D IsWidth missing (hashObject D missing)
      (MemoryWf IsWidth HashTable.chunk) (contents D HashTable.chunk) := by
  have hanswers : Answers D IsWidth (fun _ : σ => True) missing
      fun _ _ => True :=
    answers_of_isWidth fun size addr s _ => ⟨hmissing size addr s, trivial⟩
  refine
    { loadByte := ?_
      load := ?_
      maybeLoad := ?_
      store := ?_
      updateMem := fun addr _ hmem hsrc => HashTable.updateMem_wf hD hmem addr hsrc
      bytes_updateMem := fun addr _ x hmem hsrc =>
        HashTable.contents_updateMem hD hmem addr hsrc x
      clear := fun _ _ => trivial }
  · intro mem addr _
    exact loadByte_fst hashMemory_lawful missing mem addr
  · intro size mem addr hmem
    refine (load_loaded hashMemory_lawful hD hanswers size mem addr hmem).mono ?_
    intro r hr
    exact ⟨(hr.value r.1 rfl).1, hr.wf⟩
  · intro size mem addr hmem
    exact (maybeLoad_loaded hashMemory_lawful hD hanswers size mem addr
      hmem).mono fun r hr => hr.wf
  · intro size mem addr v hmem hv
    exact (store_stores (hashMemory_lawful (σ := σ)) hD size hmem addr hv).1

/-! ## Copying and sizes -/

variable {missing : Missing σ τ} {M : MemoryObject μ σ τ} {Inv : μ → Prop}
  {bytes : μ → I64 → Option τ}
  (hM : LawfulMain D IsWidth missing M Inv bytes)

omit hD in
include hM in
theorem copyEntries
    (entries : List (Sigma fun _ : I64 => Gran64 τ)) (hnodup : entries.NodupKeys)
    (hwf : ∀ e ∈ entries, Gran64.Wf IsWidth e.2) {gm : μ} (hgm : Inv gm) :
    Inv (entries.foldl (fun gm e => M.updateMem gm e.1 e.2) gm) ∧
      ∀ x, bytes (entries.foldl (fun gm e => M.updateMem gm e.1 e.2) gm) x =
        (((entries.dlookup (chunkAddr x)).getD .absent64).at D (which x)).or
          (bytes gm x) := by
  induction entries generalizing gm with
  | nil => exact ⟨hgm, fun x => rfl⟩
  | cons e entries ih =>
    obtain ⟨addr, src⟩ := e
    obtain ⟨hfresh, hrest⟩ := List.nodupKeys_cons.1 hnodup
    have hsrc := hwf _ List.mem_cons_self
    obtain ⟨hinv, hbytes⟩ := ih hrest
      (fun e he => hwf e (List.mem_cons_of_mem _ he)) (hM.updateMem addr hgm hsrc)
    refine ⟨hinv, ?_⟩
    intro x
    refine (hbytes x).trans ?_
    rw [hM.bytes_updateMem addr x hgm hsrc]
    by_cases h : chunkAddr x = addr
    · subst h
      rw [List.dlookup_eq_none.2 hfresh, if_pos rfl, List.dlookup_cons_eq]
      rfl
    · rw [if_neg h, List.dlookup_cons_ne entries
        (⟨addr, src⟩ : Sigma fun _ : I64 => Gran64 τ) h]

include hM in
omit hD in
/-- Copying overlays the bytes that are present. -/
theorem HashTable.copyTo_lawful
    {mem : HashTable τ} (hmem : MemoryWf IsWidth HashTable.chunk mem) {gm : μ}
    (hgm : Inv gm) :
    Inv (mem.copyTo M gm) ∧
      ∀ x, bytes (mem.copyTo M gm) x =
        (contents D HashTable.chunk mem x).or (bytes gm x) := by
  refine copyEntries hM mem.entries mem.nodupKeys ?_ hgm
  rintro ⟨addr, src⟩ he
  have hchunk := hmem addr
  rwa [chunk, AList.lookup, List.mem_dlookup mem.nodupKeys he] at hchunk

theorem gran64Size_pos (g : Gran64 τ) : 0 < gran64Size D g := by
  have h8 : ∀ g : Gran8 τ, 0 < gran8Size D g := by
    intro g
    cases g with
    | byte b => exact hD.measureSize_pos b
    | absent8 => exact Nat.one_pos
  have h16 : ∀ g : Gran16 τ, 0 < gran16Size D g := by
    intro g
    cases g with
    | short s => exact hD.measureSize_pos s
    | gran8s g1 g2 => exact Nat.add_pos_left (h8 g1) _
    | absent16 => exact Nat.one_pos
  have h32 : ∀ g : Gran32 τ, 0 < gran32Size D g := by
    intro g
    cases g with
    | word w => exact hD.measureSize_pos w
    | gran16s g1 g2 => exact Nat.add_pos_left (h16 g1) _
    | absent32 => exact Nat.one_pos
  cases g with
  | long l => exact hD.measureSize_pos l
  | gran32s g1 g2 => exact Nat.add_pos_left (h32 g1) _
  | absent64 => exact Nat.one_pos

omit hD in
theorem le_foldl_size
    (entries : List (Sigma fun _ : I64 => Gran64 τ)) (n : ℕ) :
    n ≤ entries.foldl (fun sum e => sum + gran64Size D e.2) n := by
  induction entries generalizing n with
  | nil => exact le_rfl
  | cons e entries ih => exact (Nat.le_add_right _ _).trans (ih _)

/-- Only the empty table has size zero. -/
theorem HashTable.measureSize_eq_zero
    {mem : HashTable τ} (h : ¬0 < (mem.measureSize D).1) : mem = ∅ := by
  refine AList.ext ?_
  unfold measureSize at h
  cases hentries : mem.entries with
  | nil => rfl
  | cons e entries =>
    rw [hentries] at h
    have hpos := gran64Size_pos hD e.2
    have hle := le_foldl_size (D := D) entries (0 + gran64Size D e.2)
    rw [Nat.zero_add] at hle
    refine absurd (hpos.trans_le ?_) h
    rwa [List.foldl_cons, Nat.zero_add]

/-! ## Snapshot memory -/

namespace Snapshot

omit hD in
include hM in
theorem diffMissing_answers :
    Answers D IsWidth (fun p : μ × σ => Inv p.1) (diffMissing M)
      fun _ _ => True := by
  refine answers_of_isWidth ?_
  rintro size addr ⟨main, s⟩ hmain
  cases size with
  | byte => exact (hM.load .byte addr hmain s trivial).1
  | short => exact (hM.load .short addr hmain s trivial).1
  | word => exact (hM.load .word addr hmain s trivial).1
  | long => exact (hM.load .long addr hmain s trivial).1

omit hD in
theorem onDiff_keeps
    {α : Type} {st : Snapshot μ τ} {x : StateM (μ × σ) (α × HashTable τ)}
    (hst : Snapshot.Inv IsWidth Inv st) (hsnap : st.haveSnap = true)
    {P : α → Prop}
    (hx : Keeps (fun p : μ × σ => Inv p.1) x fun r =>
      MemoryWf IsWidth HashTable.chunk r.2 ∧ P r.1) :
    Keeps (fun _ => True) (st.onDiff x) fun r =>
      Snapshot.Inv IsWidth Inv r.2 ∧ P r.1 := by
  intro s _
  obtain ⟨⟨hwf, hP⟩, hmain⟩ := hx (st.main, s) hst.1
  refine ⟨⟨⟨hmain, hwf, ?_⟩, hP⟩, trivial⟩
  intro hfalse
  exact absurd (hsnap.symm.trans hfalse) (by decide)

omit hD in
theorem onMain_keeps
    {α : Type} {st : Snapshot μ τ} {x : StateM σ (α × μ)}
    (hst : Snapshot.Inv IsWidth Inv st) {P : α → Prop}
    (hx : Keeps (fun _ => True) x fun r => P r.1 ∧ Inv r.2) :
    Keeps (fun _ => True) (st.onMain x) fun r =>
      P r.1 ∧ Snapshot.Inv IsWidth Inv r.2 := by
  refine hx.bind ?_
  rintro r ⟨hP, hInv⟩
  exact .pure ⟨hP, hInv, hst.2⟩

include hM

theorem diffMaybeLoad_keeps
    {st : Snapshot μ τ} (hst : st.Inv IsWidth Inv) (hsnap : st.haveSnap = true)
    (size : Size) (addr : I64) :
    Keeps (fun _ => True)
      (st.onDiff (hashMemory.maybeLoad D (diffMissing M) size st.diff addr))
      fun r => r.2.Inv IsWidth Inv ∧
        ∀ v, r.1 = some v → IsWidth size.bits v := by
  refine onDiff_keeps (P := fun o => ∀ v, o = some v → IsWidth size.bits v) hst
    hsnap ?_
  refine (maybeLoad_loaded hashMemory_lawful hD (diffMissing_answers hM) size
    st.diff addr hst.2.1).mono ?_
  intro r hr
  exact ⟨hr.wf, fun v hv => (hr.value v hv).1⟩

theorem maybeLoad_keeps
    {st : Snapshot μ τ} (hst : st.Inv IsWidth Inv) (size : Size) (addr : I64) :
    Keeps (fun _ => True) (st.maybeLoad D M size addr) fun r =>
      r.2.Inv IsWidth Inv := by
  have hmain : ∀ st : Snapshot μ τ, st.Inv IsWidth Inv →
      Keeps (fun _ => True) (st.onMain (M.maybeLoad size st.main addr))
        fun r => r.2.Inv IsWidth Inv := by
    intro st hst
    refine (onMain_keeps (P := fun _ => True) hst ?_).mono fun r hr => hr.2
    exact (hM.maybeLoad size addr hst.1).mono fun r hr => ⟨trivial, hr⟩
  unfold maybeLoad
  split_ifs with hsnap
  · refine (diffMaybeLoad_keeps hD hM hst hsnap size addr).bind ?_
    rintro ⟨mv, st'⟩ ⟨hst', -⟩
    cases mv with
    | some v => exact .pure hst'
    | none => exact hmain st' hst'
  · exact hmain st hst

theorem load_keeps
    {st : Snapshot μ τ} (hst : st.Inv IsWidth Inv) (size : Size) (addr : I64) :
    Keeps (fun _ => True) (st.load D M size addr) fun r =>
      IsWidth size.bits r.1 ∧ r.2.Inv IsWidth Inv := by
  unfold load
  split_ifs with hsnap
  · refine (diffMaybeLoad_keeps hD hM hst hsnap size addr).bind ?_
    rintro ⟨mv, st'⟩ ⟨hst', hwidth⟩
    cases mv with
    | some v => exact .pure ⟨hwidth v rfl, hst'⟩
    | none => exact onMain_keeps hst' (hM.load size addr hst'.1)
  · exact onMain_keeps hst (hM.load size addr hst.1)

omit hD in
/-- A byte is read from the difference, else from the main memory, else it is
asked of the missing function. -/
theorem loadByte
    {st : Snapshot μ τ} (hst : st.Inv IsWidth Inv) (addr : I64) :
    Prod.fst <$> st.load D M .byte addr =
      orMissing missing 8 addr (st.bytes D bytes addr) := by
  have hmain := hM.loadByte addr hst.1
  unfold load Snapshot.bytes
  split_ifs with hsnap
  · simp only [GranularMemory.maybeLoad]
    by_cases h : HashTable.chunk st.diff (chunkAddr addr) = .absent64
    · rw [maybeLoadByte_absent hashMemory_lawful _ h, contents, h]
      exact hmain
    · have hfst : Prod.fst <$> gran64GetByte D
            (HashTable.chunk st.diff (chunkAddr addr)) (diffMissing M)
            (chunkAddr addr) (which addr) =
          orMissing (diffMissing M) 8 addr
            (contents D HashTable.chunk st.diff addr) :=
        chunkGetByte_fst (diffMissing M) st.diff addr
      rw [maybeLoadByte_present hashMemory_lawful _ h]
      funext s
      have hs := congrFun hfst (st.main, s)
      generalize gran64GetByte D (HashTable.chunk st.diff (chunkAddr addr))
        (diffMissing M) (chunkAddr addr) (which addr) = get at hs ⊢
      change ((get (st.main, s)).1.1, (get (st.main, s)).2) = _ at hs
      change ((get (st.main, s)).1.1, (get (st.main, s)).2.2) = _
      cases hbyte : contents D HashTable.chunk st.diff addr with
      | some b =>
        rw [hbyte] at hs
        obtain ⟨hvalue, hstate⟩ := Prod.mk.inj hs
        rw [hvalue, hstate]
        rfl
      | none =>
        rw [hbyte] at hs
        obtain ⟨hvalue, hstate⟩ := Prod.mk.inj hs
        rw [hvalue, hstate, Option.none_or, ← hmain]
        rfl
  · rw [hst.2.2 (Bool.eq_false_iff.2 hsnap)]
    exact hmain

theorem store_inv
    {st : Snapshot μ τ} (hst : st.Inv IsWidth Inv) (size : Size) (addr : I64)
    {v : τ} (hv : IsWidth size.bits v) :
    (st.store D M size addr v).Inv IsWidth Inv := by
  unfold store
  split_ifs with hsnap
  · refine ⟨hst.1, ?_, fun hfalse => absurd (hsnap.symm.trans hfalse) nofun⟩
    exact (store_stores hashMemory_lawful hD size hst.2.1 addr hv).1
  · exact ⟨hM.store size addr hst.1 hv, hst.2⟩

theorem updateMem_inv
    {st : Snapshot μ τ} (hst : st.Inv IsWidth Inv) (addr : I64) {src : Gran64 τ}
    (hsrc : src.Wf IsWidth) : (st.updateMem D M addr src).Inv IsWidth Inv := by
  unfold updateMem
  split_ifs with hsnap
  · exact ⟨hst.1, HashTable.updateMem_wf hD hst.2.1 addr hsrc,
      fun hfalse => absurd (hsnap.symm.trans hfalse) nofun⟩
  · exact ⟨hM.updateMem addr hst.1 hsrc, hst.2⟩

theorem bytes_updateMem
    {st : Snapshot μ τ} (hst : st.Inv IsWidth Inv) (addr : I64) {src : Gran64 τ}
    (hsrc : src.Wf IsWidth) (x : I64) :
    (st.updateMem D M addr src).bytes D bytes x =
      if chunkAddr x = addr then (src.at D (which x)).or (st.bytes D bytes x)
      else st.bytes D bytes x := by
  unfold updateMem Snapshot.bytes
  split_ifs with hsnap hchunk hchunk
  · rw [HashTable.contents_updateMem hD hst.2.1 addr hsrc, if_pos hchunk,
      Option.or_assoc]
  · rw [HashTable.contents_updateMem hD hst.2.1 addr hsrc, if_neg hchunk]
  · rw [hst.2.2 (Bool.eq_false_iff.2 hsnap),
      hM.bytes_updateMem addr x hst.1 hsrc, if_pos hchunk]
    rfl
  · rw [hM.bytes_updateMem addr x hst.1 hsrc, if_neg hchunk]

omit hD in
/-- A snapshot moves the bytes of the difference into the main memory. -/
theorem makeSnap_lawful {st : Snapshot μ τ} (hst : st.Inv IsWidth Inv) :
    (st.makeSnap D M).Inv IsWidth Inv ∧
      ∀ x, (st.makeSnap D M).bytes D bytes x = st.bytes D bytes x := by
  obtain ⟨hcopy, hbytes⟩ := HashTable.copyTo_lawful hM hst.2.1 hst.1
  unfold makeSnap
  split_ifs
  · exact ⟨⟨hcopy, fun _ => trivial, fun _ => rfl⟩, hbytes⟩
  · exact ⟨⟨hst.1, hst.2.1, nofun⟩, fun _ => rfl⟩

omit hM in
theorem makeSnap_diff (st : Snapshot μ τ) :
    (st.makeSnap D M).diff = ∅ ∧ (st.makeSnap D M).haveSnap = true := by
  unfold makeSnap
  split_ifs with hsize
  · exact ⟨rfl, rfl⟩
  · exact ⟨HashTable.measureSize_eq_zero hD hsize, rfl⟩

omit hD in
theorem clear_inv {st : Snapshot μ τ} (hst : st.Inv IsWidth Inv) :
    (st.clear M).Inv IsWidth Inv :=
  ⟨hM.clear hst.1, fun _ => trivial, fun _ => rfl⟩

theorem object_lawful :
    LawfulMain D IsWidth missing (snapshotObject D M) (Snapshot.Inv IsWidth Inv)
      (Snapshot.bytes D bytes) where
  loadByte addr hst := loadByte hM hst addr
  load size _ addr hst := load_keeps hD hM hst size addr
  maybeLoad size _ addr hst := maybeLoad_keeps hD hM hst size addr
  store size _ addr _ hst hv := store_inv hD hM hst size addr hv
  updateMem addr _ hst hsrc := updateMem_inv hD hM hst addr hsrc
  bytes_updateMem addr _ x hst hsrc := bytes_updateMem hD hM hst addr hsrc x
  clear hst := clear_inv hM hst

theorem call_keeps
    {inner : μ → μ} (hinner : ∀ mem, Inv mem → Inv (inner mem))
    {st : Snapshot μ τ} (hst : st.Inv IsWidth Inv) {method : Method τ}
    (hmethod : method.Wf IsWidth) :
    Keeps (fun _ => True) (st.call D M inner method) fun st' =>
      st'.Inv IsWidth Inv := by
  cases method with
  | store size addr v => exact .pure (store_inv hD hM hst size addr hmethod)
  | maybeLoad size addr =>
    exact (maybeLoad_keeps hD hM hst size addr).bind fun r hr => .pure hr
  | load size addr =>
    exact (load_keeps hD hM hst size addr).bind fun r hr => .pure hr.2
  | updateMem addr src => exact .pure (updateMem_inv hD hM hst addr hmethod)
  | makeSnap => exact .pure (makeSnap_lawful hM hst).1
  | innerMakeSnap => exact .pure ⟨hinner _ hst.1, hst.2⟩
  | reset => exact .pure ⟨hst.1, fun _ => trivial, fun _ => rfl⟩
  | clear => exact .pure (clear_inv hM hst)

theorem run_keeps
    {inner : μ → μ} (hinner : ∀ mem, Inv mem → Inv (inner mem)) {init : μ}
    (hinit : Inv init) {methods : List (Method τ)}
    (hmethods : ∀ method ∈ methods, method.Wf IsWidth) :
    Keeps (fun _ => True) (run D M inner init methods) fun st =>
      st.Inv IsWidth Inv := by
  refine Keeps.foldlM ?_ ⟨hinit, fun _ => trivial, fun _ => rfl⟩
  intro st method hmem hst
  exact call_keeps hD hM hinner hst (hmethods method hmem)

omit hD hM in
theorem storeAll_snap
    {st : Snapshot μ τ} (hsnap : st.haveSnap = true)
    (stores : List (Size × I64 × τ)) :
    (st.storeAll D M stores).main = st.main ∧
      (st.storeAll D M stores).haveSnap = true := by
  induction stores generalizing st with
  | nil => exact ⟨rfl, hsnap⟩
  | cons a stores ih =>
    have hstore : (st.store D M a.1 a.2.1 a.2.2).main = st.main ∧
        (st.store D M a.1 a.2.1 a.2.2).haveSnap = true := by
      rw [store, if_pos hsnap]
      exact ⟨rfl, hsnap⟩
    obtain ⟨hmain, hsnap'⟩ := ih hstore.2
    exact ⟨hmain.trans hstore.1, hsnap'⟩

omit hM in
/-- A reset undoes every store since the snapshot. -/
theorem reset_storeAll_makeSnap
    (st : Snapshot μ τ) (stores : List (Size × I64 × τ)) :
    ((st.makeSnap D M).storeAll D M stores).reset = st.makeSnap D M := by
  obtain ⟨hdiff, hsnap⟩ := makeSnap_diff (M := M) hD st
  obtain ⟨hmain, hsnap'⟩ := storeAll_snap (D := D) (M := M) hsnap stores
  unfold reset
  rw [hsnap', hmain, ← hdiff, ← hsnap]

end Snapshot

theorem MainMemory.lawful
    (hmissing : ∀ size addr s, IsWidth (Size.bits size)
      (missing size.bits addr s).1)
    {init : μ} {inner : μ → μ} (main : MainMemory D missing μ M init inner) :
    ∃ (Inv : μ → Prop) (bytes : μ → I64 → Option τ),
      LawfulMain D IsWidth missing M Inv bytes ∧ Inv init ∧
        ∀ mem, Inv mem → Inv (inner mem) := by
  induction main with
  | hash => exact ⟨_, _, hashObject_lawful hD hmissing, fun _ => trivial,
      fun _ => id⟩
  | snapshot main ih =>
    obtain ⟨Inv, bytes, hM, hinit, -⟩ := ih
    exact ⟨_, _, Snapshot.object_lawful hD hM,
      ⟨hinit, fun _ => trivial, fun _ => rfl⟩,
      fun st hst => (Snapshot.makeSnap_lawful hM hst).1⟩

end Lawful

/-- Memory whose bytes are numbered in the order they are asked for. -/
def countingMissing : Missing ℕ OString := fun bits _ n =>
  (List.replicate (bits / 8) (UInt8.ofNat n), n + 1)

end Fuzzball.Granular
