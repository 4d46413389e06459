import Fuzzball.GranularContents

/-!
# Granular memory as a flat byte array

With a missing function that is pure and whose wide values are those of its
bytes, a granular memory represents a flat byte array: a store replaces the
bytes of its range, and a load assembles them.
-/

namespace Fuzzball.Granular

variable {μ σ τ : Type} {D : Domain τ} {IsWidth : ℕ → τ → Prop}

section Assemble

variable (hD : LawfulDomain D IsWidth) {f : I64 → τ} (hf : ∀ x, IsWidth 8 (f x))

include hD hf

theorem assembleShort_isWidth (a : I64) : IsWidth 16 (assembleShort D f a) :=
  hD.reassemble16 _ _ (hf a) (hf (a + 1))

theorem assembleWord_isWidth (a : I64) : IsWidth 32 (assembleWord D f a) :=
  hD.reassemble32 _ _ (assembleShort_isWidth hD hf a)
    (assembleShort_isWidth hD hf (a + 2))

theorem assemble_isWidth (size : Size) (a : I64) :
    IsWidth size.bits (assemble D size f a) := by
  cases size with
  | byte => exact hf a
  | short => exact assembleShort_isWidth hD hf a
  | word => exact assembleWord_isWidth hD hf a
  | long =>
    exact hD.reassemble64 _ _ (assembleWord_isWidth hD hf a)
      (assembleWord_isWidth hD hf (a + 4))

omit hD hf in
theorem Joins.byteOf_eq
    {half size : Size} {v1 v2 v : τ} {a : I64} (hjoin : Joins D half size v1 v2 v)
    (h1 : ∀ i < half.bytes, byteOf D half v1 i = f (a + BitVec.ofNat 64 i))
    (h2 : ∀ i < half.bytes, byteOf D half v2 i =
      f (a + BitVec.ofNat 64 half.bytes + BitVec.ofNat 64 i)) :
    ∀ i < size.bytes, byteOf D size v i = f (a + BitVec.ofNat 64 i) := by
  intro i hi
  by_cases hlt : i < half.bytes
  · rw [hjoin.low i hlt, h1 i hlt]
  · obtain ⟨j, rfl⟩ := Nat.exists_eq_add_of_le (Nat.le_of_not_lt hlt)
    have hj : j < half.bytes := by have := hjoin.bytes; omega
    rw [hjoin.high j hj, h2 j hj, BitVec.ofNat_add, BitVec.add_assoc]

theorem byteOf_assemble (size : Size) (a : I64) :
    ∀ i < size.bytes,
      byteOf D size (assemble D size f a) i = f (a + BitVec.ofNat 64 i) := by
  have hbyte : ∀ a, ∀ i < Size.byte.bytes,
      byteOf D .byte (f a) i = f (a + BitVec.ofNat 64 i) := by
    intro a i hi
    obtain rfl : i = 0 := Nat.lt_one_iff.1 hi
    rw [BitVec.add_zero]
    rfl
  have hshort : ∀ a, ∀ i < Size.short.bytes,
      byteOf D .short (assembleShort D f a) i = f (a + BitVec.ofNat 64 i) :=
    fun a => (joins_reassemble16 hD (hf a) (hf (a + 1))).byteOf_eq (hbyte a)
      (hbyte _)
  have hword : ∀ a, ∀ i < Size.word.bytes,
      byteOf D .word (assembleWord D f a) i = f (a + BitVec.ofNat 64 i) :=
    fun a => (joins_reassemble32 hD (assembleShort_isWidth hD hf a)
      (assembleShort_isWidth hD hf (a + 2))).byteOf_eq (hshort a) (hshort _)
  cases size with
  | byte => exact hbyte a
  | short => exact hshort a
  | word => exact hword a
  | long =>
    exact (joins_reassemble64 hD (assembleWord_isWidth hD hf a)
      (assembleWord_isWidth hD hf (a + 4))).byteOf_eq (hword a) (hword _)

end Assemble

/-! ## Pure missing functions -/

/-- A pure missing function whose wide values are made of its bytes. -/
structure Coherent (D : Domain τ) (IsWidth : ℕ → τ → Prop) (m : ℕ → I64 → τ) :
    Prop where
  isWidth : ∀ a, IsWidth 8 (m 8 a)
  wide : ∀ size a, m (Size.bits size) a = assemble D size (m 8) a

def pureMissing (m : ℕ → I64 → τ) : Missing σ τ := fun bits addr =>
  pure (m bits addr)

theorem pureMissing_answers
    (hD : LawfulDomain D IsWidth) {m : ℕ → I64 → τ} (hm : Coherent D IsWidth m)
    (I : σ → Prop) :
    Answers D IsWidth I (pureMissing m) fun a b => b = m 8 a := by
  intro size addr
  refine .pure ⟨?_, ?_⟩
  · rw [hm.wide]
    exact assemble_isWidth hD hm.isWidth size addr
  · intro i hi
    rw [hm.wide]
    exact byteOf_assemble hD hm.isWidth size addr i hi

/-! ## The flat byte array -/

def flatStore (D : Domain τ) (size : Size) (f : I64 → τ) (addr : I64) (v : τ) :
    I64 → τ :=
  patch addr size.bytes (byteOf D size v) f

/-- The memory has the bytes of a flat array, those that are not present being
the missing ones. -/
def Represents (D : Domain τ) (IsWidth : ℕ → τ → Prop)
    (chunk : μ → I64 → Gran64 τ) (m : ℕ → I64 → τ) (mem : μ) (f : I64 → τ) :
    Prop :=
  MemoryWf IsWidth chunk mem ∧ ∀ x, (contents D chunk mem x).getD (m 8 x) = f x

theorem Fills.getD_eq
    {b : τ} {o o' : Option τ} (h : Fills (fun b' => b' = b) o o') :
    o'.getD b = o.getD b := by
  obtain rfl | ⟨rfl, b', rfl, rfl⟩ := h
  · rfl
  · rfl

theorem Reads.eq_getD
    {b v : τ} {o : Option τ} (h : Reads (fun b' => b' = b) o v) :
    v = o.getD b := by
  obtain rfl | ⟨rfl, rfl⟩ := h
  · rfl
  · rfl

section Represents

variable {M : GranularMemory μ σ τ} {chunk : μ → I64 → Gran64 τ}
  {setChunk : μ → I64 → Gran64 τ → μ} (hM : LawfulMemory M chunk setChunk)
  (hD : LawfulDomain D IsWidth) {m : ℕ → I64 → τ} {mem : μ} {f : I64 → τ}

include hM hD

theorem store_represents
    (hmem : Represents D IsWidth chunk m mem f) (size : Size) (addr : I64) {v : τ}
    (hv : IsWidth size.bits v) :
    Represents D IsWidth chunk m (M.store D size mem addr v)
      (flatStore D size f addr v) := by
  obtain ⟨hwf, hcontents⟩ := store_stores hM hD size hmem.1 addr hv
  refine ⟨hwf, ?_⟩
  intro x
  rw [hcontents, flatStore, patch, patch]
  split_ifs
  · rfl
  · exact hmem.2 x

theorem load_represents
    (hm : Coherent D IsWidth m) (I : σ → Prop)
    (hmem : Represents D IsWidth chunk m mem f) (size : Size) (addr : I64) :
    Keeps I (M.load D (pureMissing m) size mem addr) fun r =>
      r.1 = assemble D size f addr ∧ Represents D IsWidth chunk m r.2 f := by
  refine (load_loaded hM hD (pureMissing_answers hD hm I) size mem addr
    hmem.1).mono ?_
  rintro ⟨v, mem'⟩ hloaded
  obtain ⟨hv, hreads⟩ := hloaded.value v rfl
  refine ⟨eq_assemble hD size hv ?_, hloaded.wf, ?_⟩
  · intro i hi
    rw [(hreads i hi).eq_getD, hmem.2]
  · intro x
    rw [(hloaded.fills x).getD_eq, hmem.2]

end Represents

/-! ## Runs of the hash memory -/

inductive Access (τ : Type)
  | store (size : Size) (addr : I64) (v : τ)
  | load (size : Size) (addr : I64)

/-- The stored values have the width they are stored at. -/
def Access.Wf (IsWidth : ℕ → τ → Prop) : Access τ → Prop
  | .store size _ v => IsWidth size.bits v
  | .load _ _ => True

def hashStep (D : Domain τ) (missing : Missing σ τ) (mem : HashTable τ) :
    Access τ → StateM σ (HashTable τ)
  | .store size addr v => pure (hashMemory (σ := σ).store D size mem addr v)
  | .load size addr => do
    let r ← hashMemory.load D missing size mem addr
    pure r.2

def flatStep (D : Domain τ) (f : I64 → τ) : Access τ → I64 → τ
  | .store size addr v => flatStore D size f addr v
  | .load _ _ => f

/-- The value of a load after a sequence of accesses to an empty memory. -/
def loadAfter (D : Domain τ) (missing : Missing σ τ) (accesses : List (Access τ))
    (size : Size) (addr : I64) : StateM σ τ := do
  let mem ← accesses.foldlM (hashStep D missing) ∅
  let r ← hashMemory.load D missing size mem addr
  pure r.1

theorem hashStep_represents
    (hD : LawfulDomain D IsWidth) {m : ℕ → I64 → τ} (hm : Coherent D IsWidth m)
    (I : σ → Prop) {mem : HashTable τ} {f : I64 → τ}
    (hmem : Represents D IsWidth HashTable.chunk m mem f) {access : Access τ}
    (haccess : access.Wf IsWidth) :
    Keeps I (hashStep D (pureMissing m) mem access) fun mem' =>
      Represents D IsWidth HashTable.chunk m mem' (flatStep D f access) := by
  cases access with
  | store size addr v =>
    exact .pure (store_represents (hashMemory_lawful (σ := σ)) hD hmem size addr
      haccess)
  | load size addr =>
    refine (load_represents hashMemory_lawful hD hm I hmem size addr).bind ?_
    rintro ⟨v, mem'⟩ ⟨-, hmem'⟩
    exact .pure hmem'

theorem hashRun_represents
    (hD : LawfulDomain D IsWidth) {m : ℕ → I64 → τ} (hm : Coherent D IsWidth m)
    (I : σ → Prop) {accesses : List (Access τ)}
    (haccesses : ∀ access ∈ accesses, access.Wf IsWidth) {mem : HashTable τ}
    {f : I64 → τ} (hmem : Represents D IsWidth HashTable.chunk m mem f) :
    Keeps I (accesses.foldlM (hashStep D (pureMissing m)) mem) fun mem' =>
      Represents D IsWidth HashTable.chunk m mem'
        (accesses.foldl (flatStep D) f) := by
  induction accesses generalizing mem f with
  | nil => exact .pure hmem
  | cons access accesses ih =>
    rw [List.foldlM_cons]
    refine (hashStep_represents hD hm I hmem
      (haccesses access List.mem_cons_self)).bind ?_
    intro mem' hmem'
    exact ih (fun access h => haccesses access (List.mem_cons_of_mem _ h)) hmem'

theorem empty_represents (m : ℕ → I64 → τ) :
    Represents D IsWidth HashTable.chunk m ∅ (m 8) :=
  ⟨fun _ => trivial, fun _ => rfl⟩

/-- Every load returns the little-endian value of the last bytes stored at its
addresses, or of the missing bytes where none were stored. -/
theorem loadAfter_eq_assemble
    (hD : LawfulDomain D IsWidth) {m : ℕ → I64 → τ} (hm : Coherent D IsWidth m)
    (accesses : List (Access τ))
    (haccesses : ∀ access ∈ accesses, access.Wf IsWidth) (size : Size)
    (addr : I64) (s : σ) :
    loadAfter D (pureMissing m) accesses size addr s =
      (assemble D size (accesses.foldl (flatStep D) (m 8)) addr, s) := by
  have hkeeps : Keeps (fun s' => s' = s)
      (loadAfter D (pureMissing m) accesses size addr) fun v =>
        v = assemble D size (accesses.foldl (flatStep D) (m 8)) addr := by
    refine (hashRun_represents hD hm _ haccesses (empty_represents m)).bind ?_
    intro mem hmem
    refine (load_represents hashMemory_lawful hD hm _ hmem size addr).bind ?_
    rintro ⟨v, mem'⟩ ⟨hv, -⟩
    exact .pure hv
  obtain ⟨hv, hs⟩ := hkeeps s rfl
  exact Prod.ext hv hs

/-! ## A domain of byte strings -/

def byteStrings : Domain OString where
  extract8From64 v i := (v.drop i).take 1
  extract8From32 v i := (v.drop i).take 1
  extract8From16 v i := (v.drop i).take 1
  extract16From64 v i := (v.drop i).take 2
  extract16From32 v i := (v.drop i).take 2
  extract32From64 v i := (v.drop i).take 4
  reassemble16 a b := a ++ b
  reassemble32 a b := a ++ b
  reassemble64 a b := a ++ b
  measureSize _ := 1

def HasBits (n : ℕ) (v : OString) : Prop := 8 * v.length = n

theorem take_drop_append
    {n : ℕ} {a b : OString} (ha : a.length = n) (hb : b.length = n) :
    (((a ++ b).drop 0).take n, ((a ++ b).drop n).take n) = (a, b) := by
  rw [List.drop_zero, List.take_left' ha, List.drop_left' ha,
    List.take_of_length_le (by omega)]

theorem take_append_take_drop
    {n : ℕ} {v : OString} (hv : v.length = n + n) :
    (v.drop 0).take n ++ (v.drop n).take n = v := by
  rw [List.drop_zero, List.take_of_length_le (l := v.drop n)
    (by rw [List.length_drop]; omega), List.take_append_drop]

theorem take_drop_take_drop
    (v : OString) {k n i : ℕ} (h : i + k ≤ n) (j : ℕ) :
    (v.drop (i + j)).take k = (((v.drop j).take n).drop i).take k := by
  rw [List.drop_take, List.take_take, List.drop_drop, Nat.add_comm i j,
    Nat.min_eq_left (by omega)]

theorem length_take_drop {v : OString} {k i : ℕ} (h : i + k ≤ v.length) :
    ((v.drop i).take k).length = k := by
  rw [List.length_take, List.length_drop]
  omega

theorem byteStrings_lawful : LawfulDomain byteStrings HasBits where
  extract8From16 s i hs hi := by
    have hlen : i + 1 ≤ s.length := by unfold HasBits at hs; omega
    exact congrArg (8 * ·) (length_take_drop hlen)
  extract16From32 w i hw hi := by
    have hlen : i + 2 ≤ w.length := by unfold HasBits at hw; omega
    exact congrArg (8 * ·) (length_take_drop hlen)
  extract32From64 l i hl hi := by
    have hlen : i + 4 ≤ l.length := by unfold HasBits at hl; omega
    exact congrArg (8 * ·) (length_take_drop hlen)
  reassemble16 a b ha hb := by
    unfold HasBits at *
    simp only [byteStrings, List.length_append]
    omega
  reassemble32 a b ha hb := by
    unfold HasBits at *
    simp only [byteStrings, List.length_append]
    omega
  reassemble64 a b ha hb := by
    unfold HasBits at *
    simp only [byteStrings, List.length_append]
    omega
  split16_reassemble a b ha hb := by
    unfold HasBits at *
    exact take_drop_append (n := 1) (by omega) (by omega)
  split32_reassemble a b ha hb := by
    unfold HasBits at *
    exact take_drop_append (n := 2) (by omega) (by omega)
  split64_reassemble a b ha hb := by
    unfold HasBits at *
    exact take_drop_append (n := 4) (by omega) (by omega)
  reassemble16_split s hs := by
    unfold HasBits at hs
    exact take_append_take_drop (n := 1) (by omega)
  reassemble32_split w hw := by
    unfold HasBits at hw
    exact take_append_take_drop (n := 2) (by omega)
  reassemble64_split l hl := by
    unfold HasBits at hl
    exact take_append_take_drop (n := 4) (by omega)
  extract8From32 w i _ hi :=
    ⟨take_drop_take_drop w (n := 2) (by omega) 0,
      take_drop_take_drop w (n := 2) (by omega) 2⟩
  extract8From64 l i _ hi :=
    ⟨take_drop_take_drop l (n := 4) (by omega) 0,
      take_drop_take_drop l (n := 4) (by omega) 4⟩
  extract16From64 l i _ hi :=
    ⟨take_drop_take_drop l (n := 4) (by omega) 0,
      take_drop_take_drop l (n := 4) (by omega) 4⟩
  measureSize_pos _ := Nat.one_pos

/-- Memory that reads as zero. -/
def zeroMissing (bits : ℕ) (_addr : I64) : OString := List.replicate (bits / 8) 0

theorem zeroMissing_coherent : Coherent byteStrings HasBits zeroMissing := by
  refine ⟨fun _ => rfl, ?_⟩
  intro size a
  cases size <;> rfl

/-- An unaligned word stored over an aligned long, then a load across both. -/
theorem loadAfter_eq_assemble_unaligned :
    loadAfter byteStrings (pureMissing (σ := Unit) zeroMissing)
        [.store .long 8 [1, 2, 3, 4, 5, 6, 7, 8], .load .short 14,
          .store .word 13 [9, 10, 11, 12]] .long 11 () =
      ([4, 5, 9, 10, 11, 12, 0, 0], ()) :=
  loadAfter_eq_assemble byteStrings_lawful zeroMissing_coherent _
    (by
      intro access haccess
      simp only [List.mem_cons, List.not_mem_nil, or_false] at haccess
      obtain rfl | rfl | rfl := haccess
      · rfl
      · trivial
      · rfl) .long 11 ()

end Fuzzball.Granular
