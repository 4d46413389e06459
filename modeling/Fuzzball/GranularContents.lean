import Fuzzball.GranularReads
import Fuzzball.Patch

/-!
# The contents of a granular memory

The loads and stores of `granular_memory` over the two virtual methods of its
subclasses.  Its contents are the bytes present in its trees: a store of any
size and alignment is one patch of the contents, and a load reads them and
fills in what the missing function answers.
-/

namespace Fuzzball.Granular

variable {μ σ τ : Type} {D : Domain τ} {IsWidth : ℕ → τ → Prop}

/-! ## Addresses -/

theorem which_eq (a : I64) : which a = a.toNat % 8 :=
  Nat.and_two_pow_sub_one_eq_mod a.toNat 3

theorem which_lt (a : I64) : which a < 8 := by
  rw [which_eq]
  exact Nat.mod_lt _ (by decide)

theorem chunkAddr_toNat (a : I64) :
    (chunkAddr a).toNat = a.toNat - a.toNat % 8 := by
  have hlt := a.isLt
  rw [chunkAddr, which_eq, BitVec.toNat_sub, BitVec.toNat_ofNat]
  omega

theorem chunkAddr_add_which (a : I64) :
    chunkAddr a + BitVec.ofNat 64 (which a) = a :=
  sub_add_cancel a _

theorem aligned_iff (size : Size) (a : I64) :
    a &&& BitVec.ofNat 64 (size.bytes - 1) = 0 ↔ a.toNat % size.bytes = 0 := by
  have hand : (a &&& BitVec.ofNat 64 (size.bytes - 1)).toNat =
      a.toNat % size.bytes := by
    cases size with
    | byte => exact Nat.and_two_pow_sub_one_eq_mod a.toNat 0
    | short => exact Nat.and_two_pow_sub_one_eq_mod a.toNat 1
    | word => exact Nat.and_two_pow_sub_one_eq_mod a.toNat 2
    | long => exact Nat.and_two_pow_sub_one_eq_mod a.toNat 3
  rw [← hand]
  constructor
  · intro h
    rw [h]
    rfl
  · intro h
    exact BitVec.eq_of_toNat_eq h

theorem same_chunk_iff (a x : I64) :
    chunkAddr x = chunkAddr a ↔ x.toNat / 8 = a.toNat / 8 := by
  rw [← BitVec.toNat_inj, chunkAddr_toNat, chunkAddr_toNat]
  omega

/-- The addresses of an aligned access lie in one tree. -/
theorem sub_lt_iff
    (size : Size) {a : I64} (ha : a.toNat % size.bytes = 0) (x : I64) :
    (x - a).toNat < size.bytes ↔
      chunkAddr x = chunkAddr a ∧ which a ≤ which x ∧
        which x < which a + size.bytes := by
  have hx := x.isLt
  have hlt := a.isLt
  rw [same_chunk_iff, which_eq, which_eq, BitVec.toNat_sub]
  cases size <;> simp only [Size.bytes] at ha ⊢ <;> omega

theorem sub_toNat_of_same_chunk
    {a x : I64} (h : chunkAddr x = chunkAddr a) (hle : which a ≤ which x) :
    (x - a).toNat = which x - which a := by
  have hx := x.isLt
  have hlt := a.isLt
  rw [same_chunk_iff] at h
  rw [which_eq, which_eq] at hle
  rw [which_eq, which_eq, BitVec.toNat_sub]
  omega

theorem which_add_le (size : Size) {a : I64} (ha : a.toNat % size.bytes = 0) :
    which a + size.bytes ≤ 8 := by
  rw [which_eq]
  cases size <;> simp only [Size.bytes] at ha ⊢ <;> omega

theorem bytes_le (size : Size) : size.bytes ≤ 8 := by
  cases size <;> decide

theorem chunkAddr_add
    (size : Size) {a : I64} (ha : a.toNat % size.bytes = 0) {i : ℕ}
    (hi : i < size.bytes) : chunkAddr (a + BitVec.ofNat 64 i) = chunkAddr a := by
  have hsize := bytes_le size
  have h := sub_lt_iff size ha (a + BitVec.ofNat 64 i)
  rw [sub_toNat_of_add a (by omega)] at h
  exact (h.1 hi).1

theorem which_add
    (size : Size) {a : I64} (ha : a.toNat % size.bytes = 0) {i : ℕ}
    (hi : i < size.bytes) : which (a + BitVec.ofNat 64 i) = which a + i := by
  have hsize := bytes_le size
  have h := sub_lt_iff size ha (a + BitVec.ofNat 64 i)
  rw [sub_toNat_of_add a (by omega)] at h
  obtain ⟨hchunk, hle, -⟩ := h.1 hi
  have hsub := sub_toNat_of_same_chunk hchunk hle
  rw [sub_toNat_of_add a (by omega)] at hsub
  omega

/-! ## Lawful memories -/

/-- The virtual methods read and replace the tree of the address. -/
structure LawfulMemory (M : GranularMemory μ σ τ) (chunk : μ → I64 → Gran64 τ)
    (setChunk : μ → I64 → Gran64 τ → μ) : Prop where
  chunk_setChunk : ∀ mem c g,
    chunk (setChunk mem c g) = Function.update (chunk mem) c g
  withChunk_absent : ∀ mem a fn, chunk mem (chunkAddr a) = .absent64 →
    M.withChunk mem a fn = pure (none, mem)
  withChunk_present : ∀ mem a fn, chunk mem (chunkAddr a) ≠ .absent64 →
    M.withChunk mem a fn = do
      let r ← fn (chunk mem (chunkAddr a)) (chunkAddr a) (which a)
      pure (some r.1, setChunk mem (chunkAddr a) r.2)
  storeCommonFast : ∀ mem a fn,
    M.storeCommonFast mem a fn =
      setChunk mem (chunkAddr a) (fn (chunk mem (chunkAddr a)) (which a))

def HashTable.chunk (mem : HashTable τ) (c : I64) : Gran64 τ :=
  (mem.lookup c).getD .absent64

theorem HashTable.chunk_insert (mem : HashTable τ) (c : I64) (g : Gran64 τ) :
    chunk (mem.insert c g) = Function.update (chunk mem) c g := by
  funext c'
  by_cases h : c' = c
  · subst h
    rw [chunk, AList.lookup_insert, Function.update_self]
    rfl
  · rw [chunk, AList.lookup_insert_ne h, Function.update_of_ne h]
    rfl

theorem hashMemory_lawful :
    LawfulMemory (hashMemory (σ := σ) (τ := τ)) HashTable.chunk
      fun mem c g => mem.insert c g := by
  refine ⟨HashTable.chunk_insert, ?_, ?_, fun _ _ _ => rfl⟩
  · intro mem a fn h
    unfold HashTable.chunk at h
    unfold hashMemory
    cases hlookup : mem.lookup (chunkAddr a) with
    | none => simp only [hlookup]
    | some g =>
      rw [hlookup] at h
      obtain rfl : g = .absent64 := h
      simp only [hlookup]
  · intro mem a fn h
    unfold HashTable.chunk at h ⊢
    unfold hashMemory
    cases hlookup : mem.lookup (chunkAddr a) with
    | none =>
      rw [hlookup] at h
      exact absurd rfl h
    | some g =>
      rw [hlookup] at h
      cases g with
      | absent64 => exact absurd rfl h
      | long l => simp only [hlookup, Option.getD_some]
      | gran32s g1 g2 => simp only [hlookup, Option.getD_some]

/-- The bytes of a memory that are present. -/
def contents (D : Domain τ) (chunk : μ → I64 → Gran64 τ) (mem : μ) (x : I64) :
    Option τ :=
  (chunk mem (chunkAddr x)).at D (which x)

def MemoryWf (IsWidth : ℕ → τ → Prop) (chunk : μ → I64 → Gran64 τ) (mem : μ) :
    Prop :=
  ∀ c, (chunk mem c).Wf IsWidth

section Methods

variable {M : GranularMemory μ σ τ} {chunk : μ → I64 → Gran64 τ}
  {setChunk : μ → I64 → Gran64 τ → μ} (hM : LawfulMemory M chunk setChunk)
  (hD : LawfulDomain D IsWidth)

include hM

/-! ## Stores -/

theorem setChunk_wf
    {mem : μ} (hmem : MemoryWf IsWidth chunk mem) {g : Gran64 τ}
    (hg : g.Wf IsWidth) (c : I64) : MemoryWf IsWidth chunk (setChunk mem c g) := by
  intro c'
  rw [hM.chunk_setChunk]
  by_cases h : c' = c
  · subst h
    rwa [Function.update_self]
  · rw [Function.update_of_ne h]
    exact hmem c'

theorem contents_setChunk (mem : μ) (c : I64) (g : Gran64 τ) (x : I64) :
    contents D chunk (setChunk mem c g) x =
      if chunkAddr x = c then g.at D (which x) else contents D chunk mem x := by
  rw [contents, hM.chunk_setChunk]
  by_cases h : chunkAddr x = c
  · rw [h, Function.update_self, if_pos rfl]
  · rw [Function.update_of_ne h, if_neg h]
    rfl

/-- A store of a value of some size: one patch of the contents. -/
def Stores (D : Domain τ) (IsWidth : ℕ → τ → Prop) (chunk : μ → I64 → Gran64 τ)
    (size : Size) (mem : μ) (addr : I64) (v : τ) (mem' : μ) : Prop :=
  MemoryWf IsWidth chunk mem' ∧
    contents D chunk mem' =
      patch addr size.bytes (fun i => some (byteOf D size v i))
        (contents D chunk mem)

theorem storeCommonFast_stores
    (size : Size) {mem : μ} (hmem : MemoryWf IsWidth chunk mem) {addr : I64}
    (haddr : addr.toNat % size.bytes = 0) {v : τ} {put : Gran64 τ → ℕ → Gran64 τ}
    (hwf : (put (chunk mem (chunkAddr addr)) (which addr)).Wf IsWidth)
    (hput : ∀ i < 8,
      (put (chunk mem (chunkAddr addr)) (which addr)).at D i =
        if which addr ≤ i ∧ i < which addr + size.bytes then
          some (byteOf D size v (i - which addr))
        else (chunk mem (chunkAddr addr)).at D i) :
    Stores D IsWidth chunk size mem addr v (M.storeCommonFast mem addr put) := by
  rw [hM.storeCommonFast]
  refine ⟨setChunk_wf hM hmem hwf _, ?_⟩
  funext x
  have hiff := sub_lt_iff size haddr x
  rw [contents_setChunk hM, patch]
  by_cases hchunk : chunkAddr x = chunkAddr addr
  · rw [if_pos hchunk, hput _ (which_lt x)]
    by_cases hin : which addr ≤ which x ∧ which x < which addr + size.bytes
    · rw [if_pos hin, if_pos (hiff.2 ⟨hchunk, hin⟩),
        sub_toNat_of_same_chunk hchunk hin.1]
    · rw [if_neg hin, if_neg (fun h => hin (hiff.1 h).2), contents, hchunk]
  · rw [if_neg hchunk, if_neg (fun h => hchunk (hiff.1 h).1)]

omit hM in
/-- Stores of the two halves of a value store the value. -/
theorem Stores.join
    {half size : Size} {mem mem1 mem2 : μ} {addr : I64} {v v1 v2 : τ}
    (h1 : Stores D IsWidth chunk half mem addr v1 mem1)
    (h2 : Stores D IsWidth chunk half mem1
      (addr + BitVec.ofNat 64 half.bytes) v2 mem2)
    (hjoin : Joins D half size v1 v2 v) :
    Stores D IsWidth chunk size mem addr v mem2 := by
  have hhalf := bytes_le half
  have hpos : 0 < half.bytes := by cases half <;> decide
  refine ⟨h2.1, ?_⟩
  rw [h2.2, h1.2, patch_append addr (by omega) hpos, hjoin.bytes]
  refine patch_congr addr ?_ _
  intro i hi
  split_ifs with hlt
  · rw [hjoin.low i hlt]
  · obtain ⟨j, rfl⟩ := Nat.exists_eq_add_of_le (Nat.le_of_not_lt hlt)
    rw [hjoin.high j (by omega), Nat.add_sub_cancel_left]

include hD

theorem storeByte_stores
    {mem : μ} (hmem : MemoryWf IsWidth chunk mem) (addr : I64) {b : τ}
    (hb : IsWidth 8 b) :
    Stores D IsWidth chunk .byte mem addr b (M.storeByte D mem addr b) := by
  have hw := which_lt addr
  refine storeCommonFast_stores hM .byte hmem (Nat.mod_one _)
    (gran64PutByte_wf hD (hmem _) hb _) ?_
  intro i hi
  rw [gran64PutByte_at hD (hmem _) b hw hi]
  refine if_congr ?_ rfl rfl
  simp only [Size.bytes]
  omega

theorem storeShort_stores
    {mem : μ} (hmem : MemoryWf IsWidth chunk mem) (addr : I64) {s : τ}
    (hs : IsWidth 16 s) :
    Stores D IsWidth chunk .short mem addr s (M.storeShort D mem addr s) := by
  unfold GranularMemory.storeShort
  by_cases haddr : addr &&& 1 = 0
  · have hmod := (aligned_iff .short addr).1 haddr
    have hle := which_add_le .short hmod
    rw [if_pos haddr]
    refine storeCommonFast_stores hM .short hmem hmod
      (gran64PutShort_wf hD (hmem _) hs _) ?_
    intro i hi
    refine gran64PutShort_at hD (hmem _) s ?_ hi
    rw [which_eq] at hle ⊢
    simp only [Size.bytes] at hmod hle
    omega
  · obtain ⟨hs1, hs2⟩ := split16_isWidth hD hs
    have h1 := storeByte_stores hM hD hmem addr hs1
    rw [if_neg haddr]
    exact h1.join (storeByte_stores hM hD h1.1 (addr + 1) hs2)
      (joins_split16 s)

theorem storeWord_stores
    {mem : μ} (hmem : MemoryWf IsWidth chunk mem) (addr : I64) {w : τ}
    (hw : IsWidth 32 w) :
    Stores D IsWidth chunk .word mem addr w (M.storeWord D mem addr w) := by
  unfold GranularMemory.storeWord
  by_cases haddr : addr &&& 3 = 0
  · have hmod := (aligned_iff .word addr).1 haddr
    have hle := which_add_le .word hmod
    rw [if_pos haddr]
    refine storeCommonFast_stores hM .word hmem hmod
      (gran64PutWord_wf hD (hmem _) hw _) ?_
    intro i hi
    refine gran64PutWord_at hD (hmem _) w ?_ hi
    rw [which_eq] at hle ⊢
    simp only [Size.bytes] at hmod hle
    omega
  · obtain ⟨hw1, hw2⟩ := split32_isWidth hD hw
    have h1 := storeShort_stores hM hD hmem addr hw1
    rw [if_neg haddr]
    exact h1.join (storeShort_stores hM hD h1.1 (addr + 2) hw2)
      (joins_split32 hD hw)

theorem storeLong_stores
    {mem : μ} (hmem : MemoryWf IsWidth chunk mem) (addr : I64) {l : τ}
    (hl : IsWidth 64 l) :
    Stores D IsWidth chunk .long mem addr l (M.storeLong D mem addr l) := by
  unfold GranularMemory.storeLong
  by_cases haddr : addr &&& 7 = 0
  · have hmod := (aligned_iff .long addr).1 haddr
    have hle := which_add_le .long hmod
    rw [if_pos haddr]
    refine storeCommonFast_stores hM .long hmem hmod hl ?_
    intro i hi
    simp only [Size.bytes] at hle
    have hzero : which addr = 0 := by omega
    have hin : i < 0 + Size.long.bytes := by rwa [Nat.zero_add]
    rw [hzero, if_pos ⟨Nat.zero_le i, hin⟩]
    rfl
  · obtain ⟨hl1, hl2⟩ := split64_isWidth hD hl
    have h1 := storeWord_stores hM hD hmem addr hl1
    rw [if_neg haddr]
    exact h1.join (storeWord_stores hM hD h1.1 (addr + 4) hl2)
      (joins_split64 hD hl)

theorem store_stores
    (size : Size) {mem : μ} (hmem : MemoryWf IsWidth chunk mem) (addr : I64) {v : τ}
    (hv : IsWidth size.bits v) :
    Stores D IsWidth chunk size mem addr v (M.store D size mem addr v) := by
  cases size with
  | byte => exact storeByte_stores hM hD hmem addr hv
  | short => exact storeShort_stores hM hD hmem addr hv
  | word => exact storeWord_stores hM hD hmem addr hv
  | long => exact storeLong_stores hM hD hmem addr hv

/-! ## Loads -/

omit hM hD

/-- The outcome of an attempt to load: a value whose bytes are read from the
contents or are allowed answers, or no value where no byte is present. -/
structure Loaded (D : Domain τ) (IsWidth : ℕ → τ → Prop)
    (chunk : μ → I64 → Gran64 τ) (R : I64 → τ → Prop) (size : Size) (mem : μ)
    (addr : I64) (r : Option τ × μ) : Prop where
  wf : MemoryWf IsWidth chunk r.2
  fills : ∀ x, Fills (R x) (contents D chunk mem x) (contents D chunk r.2 x)
  value : ∀ v, r.1 = some v → IsWidth size.bits v ∧
    ∀ i < size.bytes, Reads (R (addr + BitVec.ofNat 64 i))
      (contents D chunk mem (addr + BitVec.ofNat 64 i)) (byteOf D size v i)
  absent : r.1 = none → r.2 = mem ∧
    ∀ i < size.bytes, contents D chunk mem (addr + BitVec.ofNat 64 i) = none

variable {I : σ → Prop} {missing : Missing σ τ} {R : I64 → τ → Prop}
  (hmissing : Answers D IsWidth I missing R)

include hM in
theorem withChunk_loaded
    (size : Size) {mem : μ} (hmem : MemoryWf IsWidth chunk mem) {addr : I64}
    (haddr : addr.toNat % size.bytes = 0)
    {get : Gran64 τ → I64 → ℕ → StateM σ (τ × Gran64 τ)}
    (hget : Keeps I (get (chunk mem (chunkAddr addr)) (chunkAddr addr)
      (which addr)) fun r =>
        r.2.Wf IsWidth ∧
          Fetch D IsWidth size 8 (allowedFrom R (chunkAddr addr))
            ((chunk mem (chunkAddr addr)).at D) (r.2.at D) (which addr) r.1) :
    Keeps I (M.withChunk mem addr get)
      (Loaded D IsWidth chunk R size mem addr) := by
  by_cases habsent : chunk mem (chunkAddr addr) = .absent64
  · rw [hM.withChunk_absent _ _ _ habsent]
    refine .pure ⟨hmem, fun x => .refl _, nofun, fun _ => ⟨rfl, ?_⟩⟩
    intro i hi
    rw [contents, chunkAddr_add size haddr hi, habsent]
    rfl
  · rw [hM.withChunk_present _ _ _ habsent]
    refine hget.bind ?_
    rintro ⟨v, g⟩ ⟨hwf, hfetch⟩
    refine .pure ⟨setChunk_wf hM hmem hwf _, ?_, ?_, nofun⟩
    · intro x
      rw [contents_setChunk hM]
      split_ifs with hchunk
      · have hfills := hfetch.fills (which x) (which_lt x)
        rw [allowedFrom, ← hchunk, chunkAddr_add_which] at hfills
        rwa [contents]
      · exact .refl _
    · intro v' hv'
      obtain rfl : v = v' := Option.some.inj hv'
      refine ⟨hfetch.width, ?_⟩
      intro i hi
      have hreads := hfetch.reads i hi
      rw [allowedFrom, BitVec.ofNat_add, ← BitVec.add_assoc,
        chunkAddr_add_which] at hreads
      rwa [contents, chunkAddr_add size haddr hi, which_add size haddr hi]

/-- The value of a half that was not loaded comes from the missing function. -/
theorem Loaded.orMissing
    {half : Size} {mem : μ} {addr : I64} {r : Option τ × μ}
    (h : Loaded D IsWidth chunk R half mem addr r)
    (hmissing : Answers D IsWidth I missing R) :
    Keeps I (GranularMemory.orMissing missing half.bits addr r.1) fun v =>
        IsWidth half.bits v ∧
          ∀ i < half.bytes, Reads (R (addr + BitVec.ofNat 64 i))
            (contents D chunk mem (addr + BitVec.ofNat 64 i))
            (byteOf D half v i) := by
  obtain ⟨o, mem'⟩ := r
  cases o with
  | some b => exact .pure (h.value b rfl)
  | none =>
    refine (hmissing half addr).mono ?_
    rintro v ⟨hv, hR⟩
    refine ⟨hv, ?_⟩
    intro i hi
    exact .inr ⟨(h.absent rfl).2 i hi, hR i hi⟩

theorem maybeLoadDivided_loaded
    (half size : Size) {mem : μ} {addr : I64}
    {load : μ → I64 → StateM σ (Option τ × μ)} {reassemble : τ → τ → τ}
    (hmissing : Answers D IsWidth I missing R)
    (hload : ∀ mem addr, MemoryWf IsWidth chunk mem →
      Keeps I (load mem addr) (Loaded D IsWidth chunk R half mem addr))
    (hjoin : ∀ a b, IsWidth half.bits a → IsWidth half.bits b →
      IsWidth size.bits (reassemble a b) ∧
        Joins D half size a b (reassemble a b))
    (hbytes : size.bytes = half.bytes + half.bytes)
    (hmem : MemoryWf IsWidth chunk mem) :
    Keeps I
      (GranularMemory.maybeLoadDivided missing mem addr half.bits
        (BitVec.ofNat 64 half.bytes) load reassemble)
      (Loaded D IsWidth chunk R size mem addr) := by
  unfold GranularMemory.maybeLoadDivided
  refine (hload mem addr hmem).bind ?_
  rintro ⟨mb0, mem1⟩ h0
  refine (hload mem1 _ h0.wf).bind ?_
  rintro ⟨mb1, mem2⟩ h1
  have hfills : ∀ x,
      Fills (R x) (contents D chunk mem x) (contents D chunk mem2 x) :=
    fun x => (h0.fills x).trans (h1.fills x)
  have hsome : ∀ r, (∃ v, r = (some v, mem2) ∧ IsWidth size.bits v ∧
      ∀ i < size.bytes, Reads (R (addr + BitVec.ofNat 64 i))
        (contents D chunk mem (addr + BitVec.ofNat 64 i)) (byteOf D size v i)) →
      Loaded D IsWidth chunk R size mem addr r := by
    rintro _ ⟨v, rfl, hv⟩
    exact ⟨h1.wf, hfills, fun v' hv' => Option.some.inj hv' ▸ hv, nofun⟩
  have hvalue : Keeps I
      (do
        let b0 ← GranularMemory.orMissing missing half.bits addr mb0
        let b1 ← GranularMemory.orMissing missing half.bits
          (addr + BitVec.ofNat 64 half.bytes) mb1
        pure (some (reassemble b0 b1), mem2))
      (Loaded D IsWidth chunk R size mem addr) := by
    refine (h0.orMissing hmissing).bind ?_
    rintro b0 ⟨hb0, hreads0⟩
    refine (h1.orMissing hmissing).bind ?_
    rintro b1 ⟨hb1, hreads1⟩
    obtain ⟨hv, hj⟩ := hjoin b0 b1 hb0 hb1
    refine .pure (hsome _ ⟨_, rfl, hv, ?_⟩)
    intro i hi
    by_cases hlt : i < half.bytes
    · rw [hj.low i hlt]
      exact hreads0 i hlt
    · obtain ⟨j, rfl⟩ := Nat.exists_eq_add_of_le (Nat.le_of_not_lt hlt)
      have hj' : j < half.bytes := by omega
      rw [hj.high j hj', BitVec.ofNat_add, ← BitVec.add_assoc]
      exact (h0.fills _).reads (hreads1 j hj')
  cases mb0 with
  | some b0 => exact hvalue
  | none =>
    cases mb1 with
    | some b1 => exact hvalue
    | none =>
      obtain ⟨rfl, hnone0⟩ := h0.absent rfl
      obtain ⟨rfl, hnone1⟩ := h1.absent rfl
      refine .pure ⟨hmem, fun x => .refl _, nofun, fun _ => ⟨rfl, ?_⟩⟩
      intro i hi
      by_cases hlt : i < half.bytes
      · exact hnone0 i hlt
      · obtain ⟨j, rfl⟩ := Nat.exists_eq_add_of_le (Nat.le_of_not_lt hlt)
        rw [BitVec.ofNat_add, ← BitVec.add_assoc]
        exact hnone1 j (by omega)

include hD hmissing

/-- What holds of a load inside of a tree, and of a load in two halves where it
holds of theirs, holds of every attempt to load. -/
theorem maybeLoad_keeps
    {P : Size → μ → I64 → Option τ × μ → Prop}
    (hchunk : ∀ (size : Size) {mem : μ} (_ : MemoryWf IsWidth chunk mem)
      {addr : I64} (_ : addr.toNat % size.bytes = 0)
      {get : Gran64 τ → I64 → ℕ → StateM σ (τ × Gran64 τ)}
      (_ : Keeps I (get (chunk mem (chunkAddr addr)) (chunkAddr addr)
        (which addr)) fun r =>
          r.2.Wf IsWidth ∧
            Fetch D IsWidth size 8 (allowedFrom R (chunkAddr addr))
              ((chunk mem (chunkAddr addr)).at D) (r.2.at D) (which addr) r.1),
      Keeps I (M.withChunk mem addr get) (P size mem addr))
    (hdivided : ∀ (half size : Size) {mem : μ} {addr : I64}
      {load : μ → I64 → StateM σ (Option τ × μ)} {reassemble : τ → τ → τ}
      (_ : ∀ mem addr, MemoryWf IsWidth chunk mem →
        Keeps I (load mem addr) (P half mem addr))
      (_ : ∀ a b, IsWidth half.bits a → IsWidth half.bits b →
        IsWidth size.bits (reassemble a b) ∧
          Joins D half size a b (reassemble a b))
      (_ : size.bytes = half.bytes + half.bytes)
      (_ : MemoryWf IsWidth chunk mem),
      Keeps I (GranularMemory.maybeLoadDivided missing mem addr half.bits
        (BitVec.ofNat 64 half.bytes) load reassemble) (P size mem addr))
    (size : Size) (mem : μ) (addr : I64) (hmem : MemoryWf IsWidth chunk mem) :
    Keeps I (M.maybeLoad D missing size mem addr) (P size mem addr) := by
  have hbyte : ∀ mem addr, MemoryWf IsWidth chunk mem →
      Keeps I (M.maybeLoadByte D missing mem addr) (P .byte mem addr) := by
    intro mem addr hmem
    exact hchunk .byte hmem (Nat.mod_one _)
      (gran64GetByte_keeps hD hmissing (hmem _) _ (which_lt addr))
  have hshort : ∀ mem addr, MemoryWf IsWidth chunk mem →
      Keeps I (M.maybeLoadShort D missing mem addr) (P .short mem addr) := by
    intro mem addr hmem
    unfold GranularMemory.maybeLoadShort
    by_cases haddr : addr &&& 1 = 0
    · have hmod := (aligned_iff .short addr).1 haddr
      have hle := which_add_le .short hmod
      rw [if_pos haddr]
      refine hchunk .short hmem hmod
        (gran64GetShort_keeps hD hmissing (hmem _) _ ?_)
      rw [which_eq] at hle ⊢
      simp only [Size.bytes] at hmod hle
      omega
    · rw [if_neg haddr]
      exact hdivided .byte .short hbyte
        (fun a b ha hb => ⟨hD.reassemble16 a b ha hb,
          joins_reassemble16 hD ha hb⟩) rfl hmem
  have hword : ∀ mem addr, MemoryWf IsWidth chunk mem →
      Keeps I (M.maybeLoadWord D missing mem addr) (P .word mem addr) := by
    intro mem addr hmem
    unfold GranularMemory.maybeLoadWord
    by_cases haddr : addr &&& 3 = 0
    · have hmod := (aligned_iff .word addr).1 haddr
      have hle := which_add_le .word hmod
      rw [if_pos haddr]
      refine hchunk .word hmem hmod
        (gran64GetWord_keeps hD hmissing (hmem _) _ ?_)
      rw [which_eq] at hle ⊢
      simp only [Size.bytes] at hmod hle
      omega
    · rw [if_neg haddr]
      exact hdivided .short .word hshort
        (fun a b ha hb => ⟨hD.reassemble32 a b ha hb,
          joins_reassemble32 hD ha hb⟩) rfl hmem
  cases size with
  | byte => exact hbyte mem addr hmem
  | short => exact hshort mem addr hmem
  | word => exact hword mem addr hmem
  | long =>
    change Keeps I (M.maybeLoadLong D missing mem addr) _
    unfold GranularMemory.maybeLoadLong
    by_cases haddr : addr &&& 7 = 0
    · have hmod := (aligned_iff .long addr).1 haddr
      have hle := which_add_le .long hmod
      simp only [Size.bytes] at hle
      have hzero : which addr = 0 := by omega
      rw [if_pos haddr]
      refine hchunk .long hmem hmod ?_
      rw [hzero]
      exact gran64GetLong_keeps hD hmissing (hmem _) _
    · rw [if_neg haddr]
      exact hdivided .word .long hword
        (fun a b ha hb => ⟨hD.reassemble64 a b ha hb,
          joins_reassemble64 hD ha hb⟩) rfl hmem

include hM

theorem maybeLoad_loaded
    (size : Size) (mem : μ) (addr : I64) (hmem : MemoryWf IsWidth chunk mem) :
    Keeps I (M.maybeLoad D missing size mem addr)
      (Loaded D IsWidth chunk R size mem addr) :=
  maybeLoad_keeps hD hmissing (withChunk_loaded hM)
    (fun half size => maybeLoadDivided_loaded half size hmissing) size mem addr
    hmem

/-- A load returns the bytes that are present and allowed answers elsewhere. -/
theorem load_loaded
    (size : Size) (mem : μ) (addr : I64) (hmem : MemoryWf IsWidth chunk mem) :
    Keeps I (M.load D missing size mem addr) fun r =>
      Loaded D IsWidth chunk R size mem addr (some r.1, r.2) := by
  refine (maybeLoad_loaded hM hD hmissing size mem addr hmem).bind ?_
  rintro ⟨mv, mem'⟩ hloaded
  cases mv with
  | some v => exact .pure hloaded
  | none =>
    obtain ⟨rfl, hnone⟩ := hloaded.absent rfl
    refine (hmissing size addr).bind ?_
    rintro v ⟨hv, hR⟩
    obtain ⟨hwf, hcontents⟩ := store_stores hM hD size hmem addr hv
    refine .pure ⟨hwf, ?_, ?_, nofun⟩
    · intro x
      rw [hcontents, patch]
      split_ifs with hlt
      · have hreach := add_sub_toNat addr x
        have hx := hnone _ hlt
        have hRx := hR _ hlt
        rw [hreach] at hx hRx
        exact .inr ⟨hx, _, rfl, hRx⟩
      · exact .refl _
    · intro v' hv'
      obtain rfl : v = v' := Option.some.inj hv'
      exact ⟨hv, fun i hi => .inr ⟨hnone i hi, hR i hi⟩⟩

end Methods

open GranularMemory (orMissing)

/-! ## Byte reads -/

theorem gran8GetByte_fst (g : Gran8 τ) (missing : Missing σ τ) (addr : I64) :
    Prod.fst <$> gran8GetByte g missing addr = orMissing missing 8 addr g.at := by
  cases g <;> rfl

theorem gran16GetByte_fst
    (g : Gran16 τ) (missing : Missing σ τ) (addr : I64) {which : ℕ}
    (hw : which < 2) :
    Prod.fst <$> gran16GetByte D g missing addr which =
      orMissing missing 8 (addr + BitVec.ofNat 64 which) (g.at D which) := by
  have hparts : ∀ g1 g2 : Gran8 τ,
      Prod.fst <$> gran16GetByte D (.gran8s g1 g2) missing addr which =
        orMissing missing 8 (addr + BitVec.ofNat 64 which)
          ((Gran16.gran8s g1 g2).at D which) := by
    intro g1 g2
    simp only [gran16GetByte, Gran16.at]
    split_ifs with hlt
    · obtain rfl : which = 0 := Nat.lt_one_iff.1 hlt
      rw [BitVec.add_zero, ← gran8GetByte_fst]
      rfl
    · obtain rfl : which = 1 := by omega
      rw [← gran8GetByte_fst]
      rfl
  cases g with
  | short s => rfl
  | gran8s g1 g2 => exact hparts g1 g2
  | absent16 =>
    rw [← Gran16.at_absent]
    exact hparts .absent8 .absent8

theorem gran32GetByte_fst
    (g : Gran32 τ) (missing : Missing σ τ) (addr : I64) {which : ℕ}
    (hw : which < 4) :
    Prod.fst <$> gran32GetByte D g missing addr which =
      orMissing missing 8 (addr + BitVec.ofNat 64 which) (g.at D which) := by
  have hparts : ∀ g1 g2 : Gran16 τ,
      Prod.fst <$> gran32GetByte D (.gran16s g1 g2) missing addr which =
        orMissing missing 8 (addr + BitVec.ofNat 64 which)
          ((Gran32.gran16s g1 g2).at D which) := by
    intro g1 g2
    simp only [gran32GetByte, Gran32.at]
    split_ifs with hlt
    · rw [← gran16GetByte_fst g1 missing addr hlt]
      rfl
    · obtain ⟨j, rfl⟩ := Nat.exists_eq_add_of_le (Nat.le_of_not_lt hlt)
      rw [BitVec.ofNat_add, ← BitVec.add_assoc, Nat.add_sub_cancel_left,
        ← gran16GetByte_fst g2 missing (addr + BitVec.ofNat 64 2) (by omega)]
      rfl
  cases g with
  | word w => rfl
  | gran16s g1 g2 => exact hparts g1 g2
  | absent32 =>
    rw [← Gran32.at_absent]
    exact hparts .absent16 .absent16

/-- A byte that is present is read without asking the missing function. -/
theorem gran64GetByte_fst
    (g : Gran64 τ) (missing : Missing σ τ) (addr : I64) {which : ℕ}
    (hw : which < 8) :
    Prod.fst <$> gran64GetByte D g missing addr which =
      orMissing missing 8 (addr + BitVec.ofNat 64 which) (g.at D which) := by
  have hparts : ∀ g1 g2 : Gran32 τ,
      Prod.fst <$> gran64GetByte D (.gran32s g1 g2) missing addr which =
        orMissing missing 8 (addr + BitVec.ofNat 64 which)
          ((Gran64.gran32s g1 g2).at D which) := by
    intro g1 g2
    simp only [gran64GetByte, Gran64.at]
    split_ifs with hlt
    · rw [← gran32GetByte_fst g1 missing addr hlt]
      rfl
    · obtain ⟨j, rfl⟩ := Nat.exists_eq_add_of_le (Nat.le_of_not_lt hlt)
      rw [BitVec.ofNat_add, ← BitVec.add_assoc, Nat.add_sub_cancel_left,
        ← gran32GetByte_fst g2 missing (addr + BitVec.ofNat 64 4) (by omega)]
      rfl
  cases g with
  | long l => rfl
  | gran32s g1 g2 => exact hparts g1 g2
  | absent64 =>
    rw [← Gran64.at_absent]
    exact hparts .absent32 .absent32

section LawfulMemory

variable {M : GranularMemory μ σ τ} {chunk : μ → I64 → Gran64 τ}
  {setChunk : μ → I64 → Gran64 τ → μ} (hM : LawfulMemory M chunk setChunk)

include hM

theorem maybeLoadByte_absent
    (missing : Missing σ τ) {mem : μ} {addr : I64}
    (h : chunk mem (chunkAddr addr) = .absent64) :
    M.maybeLoadByte D missing mem addr = pure (none, mem) :=
  hM.withChunk_absent _ _ _ h

theorem maybeLoadByte_present
    (missing : Missing σ τ) {mem : μ} {addr : I64}
    (h : chunk mem (chunkAddr addr) ≠ .absent64) :
    M.maybeLoadByte D missing mem addr =
      gran64GetByte D (chunk mem (chunkAddr addr)) missing (chunkAddr addr)
          (which addr) >>= fun r =>
        pure (some r.1, setChunk mem (chunkAddr addr) r.2) :=
  hM.withChunk_present _ _ _ h

omit hM in
theorem chunkGetByte_fst (missing : Missing σ τ) (mem : μ) (addr : I64) :
    Prod.fst <$> gran64GetByte D (chunk mem (chunkAddr addr)) missing
        (chunkAddr addr) (which addr) =
      orMissing missing 8 addr (contents D chunk mem addr) := by
  rw [gran64GetByte_fst _ missing _ (which_lt addr), chunkAddr_add_which]
  rfl

theorem loadByte_fst (missing : Missing σ τ) (mem : μ) (addr : I64) :
    Prod.fst <$> M.load D missing .byte mem addr =
      orMissing missing 8 addr (contents D chunk mem addr) := by
  simp only [GranularMemory.load, GranularMemory.maybeLoad]
  by_cases h : chunk mem (chunkAddr addr) = .absent64
  · rw [maybeLoadByte_absent hM missing h, contents, h]
    rfl
  · rw [maybeLoadByte_present hM missing h, ← chunkGetByte_fst]
    rfl

end LawfulMemory

end Fuzzball.Granular
