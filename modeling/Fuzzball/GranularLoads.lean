import Fuzzball.GranularSnapshot

/-!
# Loading a range again

A load stores what the missing function answers, unless the range lies in two
trees of which one is there and the other is not: then the answer for the
other is returned and forgotten.
-/

namespace Fuzzball.Granular

variable {σ τ μ : Type} {D : Domain τ} {IsWidth : ℕ → τ → Prop}
  {M : GranularMemory μ σ τ} {chunk : μ → I64 → Gran64 τ}
  {setChunk : μ → I64 → Gran64 τ → μ} {I : σ → Prop} {missing : Missing σ τ}
  {R : I64 → τ → Prop}

/-! ## The trees of a range -/

/-- Every tree of the range is there. -/
def AllPresent (chunk : μ → I64 → Gran64 τ) (size : Size) (mem : μ)
    (addr : I64) : Prop :=
  ∀ i < size.bytes,
    chunk mem (chunkAddr (addr + BitVec.ofNat 64 i)) ≠ .absent64

/-- No tree of the range is there. -/
def AllAbsent (chunk : μ → I64 → Gran64 τ) (size : Size) (mem : μ)
    (addr : I64) : Prop :=
  ∀ i < size.bytes,
    chunk mem (chunkAddr (addr + BitVec.ofNat 64 i)) = .absent64

/-- The range does not lie half in a tree that is there. -/
def Settled (chunk : μ → I64 → Gran64 τ) (size : Size) (mem : μ)
    (addr : I64) : Prop :=
  AllPresent chunk size mem addr ∨ AllAbsent chunk size mem addr

theorem bytes_pos (size : Size) : 0 < size.bytes := by
  cases size <;> decide

theorem AllPresent.not_allAbsent
    {size : Size} {mem : μ} {addr : I64}
    (h : AllPresent chunk size mem addr) : ¬AllAbsent chunk size mem addr :=
  fun h' => h 0 (bytes_pos size) (h' 0 (bytes_pos size))

theorem forall_lt_add {n : ℕ} {P : ℕ → Prop} :
    (∀ i < n + n, P i) ↔ (∀ i < n, P i) ∧ ∀ i < n, P (n + i) := by
  constructor
  · intro h
    exact ⟨fun i hi => h i (by omega), fun i hi => h (n + i) (by omega)⟩
  · rintro ⟨h1, h2⟩ i hi
    by_cases hlt : i < n
    · exact h1 i hlt
    · obtain ⟨j, rfl⟩ := Nat.exists_eq_add_of_le (Nat.le_of_not_lt hlt)
      exact h2 j (by omega)

/-- Trees that come and go at the same places. -/
def SameTrees (chunk : μ → I64 → Gran64 τ) (mem mem' : μ) : Prop :=
  ∀ c, chunk mem' c = .absent64 ↔ chunk mem c = .absent64

theorem SameTrees.allAbsent_iff
    {mem mem' : μ} (h : SameTrees chunk mem mem') {size : Size} {addr : I64} :
    AllAbsent chunk size mem' addr ↔ AllAbsent chunk size mem addr :=
  forall₂_congr fun _ _ => h _

theorem SameTrees.allPresent_iff
    {mem mem' : μ} (h : SameTrees chunk mem mem') {size : Size} {addr : I64} :
    AllPresent chunk size mem' addr ↔ AllPresent chunk size mem addr :=
  forall₂_congr fun _ _ => not_congr (h _)

section Halves

variable {half size : Size} {mem : μ} {addr : I64}
  (hbytes : size.bytes = half.bytes + half.bytes)

include hbytes

theorem allPresent_halves :
    AllPresent chunk size mem addr ↔ AllPresent chunk half mem addr ∧
      AllPresent chunk half mem (addr + BitVec.ofNat 64 half.bytes) := by
  unfold AllPresent
  rw [hbytes, forall_lt_add]
  simp only [BitVec.ofNat_add, BitVec.add_assoc]

theorem allAbsent_halves :
    AllAbsent chunk size mem addr ↔ AllAbsent chunk half mem addr ∧
      AllAbsent chunk half mem (addr + BitVec.ofNat 64 half.bytes) := by
  unfold AllAbsent
  rw [hbytes, forall_lt_add]
  simp only [BitVec.ofNat_add, BitVec.add_assoc]

end Halves

/-! ## Attempts -/

/-- An attempt to load: it fails where no tree is there, and records its value
where all of them are. -/
structure Attempt (D : Domain τ) (chunk : μ → I64 → Gran64 τ) (size : Size)
    (mem : μ) (addr : I64) (r : Option τ × μ) : Prop where
  trees : SameTrees chunk mem r.2
  none_iff : r.1 = none ↔ AllAbsent chunk size mem addr
  records : AllPresent chunk size mem addr → ∀ v, r.1 = some v →
    ∀ i < size.bytes, contents D chunk r.2 (addr + BitVec.ofNat 64 i) =
      some (byteOf D size v i)

theorem withChunk_attempt (hM : LawfulMemory M chunk setChunk)
    (size : Size) {mem : μ} {addr : I64}
    (haddr : addr.toNat % size.bytes = 0)
    {get : Gran64 τ → I64 → ℕ → StateM σ (τ × Gran64 τ)}
    (hget : Keeps I (get (chunk mem (chunkAddr addr)) (chunkAddr addr)
      (which addr)) fun r =>
        r.2.Wf IsWidth ∧
          Fetch D IsWidth size 8 (allowedFrom R (chunkAddr addr))
            ((chunk mem (chunkAddr addr)).at D) (r.2.at D) (which addr) r.1) :
    Keeps I (M.withChunk mem addr get) (Attempt D chunk size mem addr) := by
  have hpos := bytes_pos size
  by_cases habsent : chunk mem (chunkAddr addr) = .absent64
  · rw [hM.withChunk_absent _ _ _ habsent]
    have hall : AllAbsent chunk size mem addr := by
      intro i hi
      rw [chunkAddr_add size haddr hi, habsent]
    apply Keeps.pure
    refine ⟨fun _ => Iff.rfl, iff_of_true rfl hall, ?_⟩
    intro hpresent
    exact absurd hall hpresent.not_allAbsent
  · rw [hM.withChunk_present _ _ _ habsent]
    apply hget.bind
    rintro ⟨v, g⟩ ⟨-, hfetch⟩
    have hg : g ≠ .absent64 := by
      rintro rfl
      exact nomatch hfetch.records 0 hpos
    apply Keeps.pure
    refine ⟨?_, ?_, ?_⟩
    · intro c
      rw [hM.chunk_setChunk]
      by_cases hc : c = chunkAddr addr
      · subst hc
        rw [Function.update_self]
        exact iff_of_false hg habsent
      · rw [Function.update_of_ne hc]
    · apply iff_of_false nofun
      intro hall
      have hzero := hall 0 hpos
      rw [chunkAddr_add size haddr hpos] at hzero
      exact habsent hzero
    · intro _ v' hv' i hi
      obtain rfl : v = v' := Option.some.inj hv'
      rw [contents_setChunk hM, chunkAddr_add size haddr hi, if_pos rfl,
        which_add size haddr hi]
      exact hfetch.records i hi

theorem Fills.kept
    {R : τ → Prop} {b : τ} {o : Option τ} (h : Fills R (some b) o) :
    o = some b := by
  obtain heq | ⟨hnone, -⟩ := h
  · exact heq
  · cases hnone

theorem Attempt.isSome
    {size : Size} {mem : μ} {addr : I64} {r : Option τ × μ}
    (h : Attempt D chunk size mem addr r)
    (hpresent : AllPresent chunk size mem addr) : ∃ v, r.1 = some v := by
  apply Option.ne_none_iff_exists'.mp
  exact fun hnone => hpresent.not_allAbsent (h.none_iff.mp hnone)

theorem maybeLoadDivided_attempt
    (half size : Size) {mem : μ} {addr : I64}
    {load : μ → I64 → StateM σ (Option τ × μ)} {reassemble : τ → τ → τ}
    (hmissing : Answers D IsWidth I missing R)
    (hload : ∀ mem addr, MemoryWf IsWidth chunk mem →
      Keeps I (load mem addr) fun r =>
        Loaded D IsWidth chunk R half mem addr r ∧
          Attempt D chunk half mem addr r)
    (hjoin : ∀ a b, IsWidth half.bits a → IsWidth half.bits b →
      IsWidth size.bits (reassemble a b) ∧
        Joins D half size a b (reassemble a b))
    (hbytes : size.bytes = half.bytes + half.bytes)
    (hmem : MemoryWf IsWidth chunk mem) :
    Keeps I
      (GranularMemory.maybeLoadDivided missing mem addr half.bits
        (BitVec.ofNat 64 half.bytes) load reassemble)
      (Attempt D chunk size mem addr) := by
  unfold GranularMemory.maybeLoadDivided
  apply (hload mem addr hmem).bind
  rintro ⟨mb0, mem1⟩ ⟨hl0, h0⟩
  apply (hload mem1 _ hl0.wf).bind
  rintro ⟨mb1, mem2⟩ ⟨hl1, h1⟩
  have htrees : SameTrees chunk mem mem2 :=
    fun c => (h1.trees c).trans (h0.trees c)
  have hnone : AllAbsent chunk size mem addr ↔ mb0 = none ∧ mb1 = none := by
    have hhigh : AllAbsent chunk half mem1
          (addr + BitVec.ofNat 64 half.bytes) ↔
        AllAbsent chunk half mem (addr + BitVec.ofNat 64 half.bytes) :=
      h0.trees.allAbsent_iff
    rw [allAbsent_halves hbytes, ← hhigh]
    exact and_congr h0.none_iff.symm h1.none_iff.symm
  have hvalue : ¬(mb0 = none ∧ mb1 = none) → Keeps I
      (do
        let b0 ← GranularMemory.orMissing missing half.bits addr mb0
        let b1 ← GranularMemory.orMissing missing half.bits
          (addr + BitVec.ofNat 64 half.bytes) mb1
        pure (some (reassemble b0 b1), mem2))
      (Attempt D chunk size mem addr) := by
    intro hsome
    by_cases hpresent : AllPresent chunk size mem addr
    · obtain ⟨hp0, hp1⟩ := (allPresent_halves hbytes).mp hpresent
      rw [← h0.trees.allPresent_iff] at hp1
      obtain ⟨b0, rfl⟩ := h0.isSome hp0
      obtain ⟨b1, rfl⟩ := h1.isSome hp1
      have hjoins := (hjoin b0 b1 (hl0.value b0 rfl).1 (hl1.value b1 rfl).1).2
      apply Keeps.pure
      refine ⟨htrees, iff_of_false nofun (mt hnone.mp hsome), ?_⟩
      rintro - v hv
      obtain rfl := Option.some.inj hv
      rw [hbytes, forall_lt_add]
      constructor
      · intro i hi
        have hkept := hl1.fills (addr + BitVec.ofNat 64 i)
        rw [h0.records hp0 b0 rfl i hi] at hkept
        rw [hjoins.low i hi]
        exact hkept.kept
      · intro i hi
        rw [hjoins.high i hi, BitVec.ofNat_add, ← BitVec.add_assoc]
        exact h1.records hp1 b1 rfl i hi
    · apply (hl0.orMissing hmissing).bind
      rintro b0 -
      apply (hl1.orMissing hmissing).bind
      rintro b1 -
      apply Keeps.pure
      exact ⟨htrees, iff_of_false nofun (mt hnone.mp hsome),
        fun h => absurd h hpresent⟩
  cases mb0 with
  | some b0 => exact hvalue nofun
  | none =>
    cases mb1 with
    | some b1 => exact hvalue nofun
    | none =>
      have habsent := hnone.mpr ⟨rfl, rfl⟩
      apply Keeps.pure
      refine ⟨htrees, iff_of_true rfl habsent, ?_⟩
      exact fun h => absurd habsent h.not_allAbsent

theorem maybeLoad_attempt (hM : LawfulMemory M chunk setChunk)
    (hD : LawfulDomain D IsWidth) (hmissing : Answers D IsWidth I missing R)
    (size : Size) (mem : μ) (addr : I64) (hmem : MemoryWf IsWidth chunk mem) :
    Keeps I (M.maybeLoad D missing size mem addr) fun r =>
      Loaded D IsWidth chunk R size mem addr r ∧
        Attempt D chunk size mem addr r := by
  apply maybeLoad_keeps hD hmissing _ _ size mem addr hmem
  · intro size mem hmem addr haddr get hget
    exact (withChunk_loaded hM size hmem haddr hget).and
      (withChunk_attempt hM size haddr hget)
  · intro half size mem addr load reassemble hload hjoin hbytes hmem
    have hloaded : ∀ mem addr, MemoryWf IsWidth chunk mem →
        Keeps I (load mem addr) (Loaded D IsWidth chunk R half mem addr) :=
      fun mem addr hmem => (hload mem addr hmem).mono fun _ h => h.1
    exact (maybeLoadDivided_loaded half size hmissing hloaded hjoin hbytes
      hmem).and
      (maybeLoadDivided_attempt half size hmissing hload hjoin hbytes hmem)

/-! ## Loads -/

/-- A load records its value. -/
structure Recorded (D : Domain τ) (IsWidth : ℕ → τ → Prop)
    (chunk : μ → I64 → Gran64 τ) (size : Size) (mem : μ) (addr : I64)
    (r : τ × μ) : Prop where
  wf : MemoryWf IsWidth chunk r.2
  width : IsWidth size.bits r.1
  kept : ∀ x b, contents D chunk mem x = some b →
    contents D chunk r.2 x = some b
  records : ∀ i < size.bytes,
    contents D chunk r.2 (addr + BitVec.ofNat 64 i) =
      some (byteOf D size r.1 i)

theorem load_recorded (hM : LawfulMemory M chunk setChunk)
    (hD : LawfulDomain D IsWidth) (hmissing : Answers D IsWidth I missing R)
    {size : Size} {mem : μ} {addr : I64} (hmem : MemoryWf IsWidth chunk mem)
    (hsettled : Settled chunk size mem addr) :
    Keeps I (M.load D missing size mem addr)
      (Recorded D IsWidth chunk size mem addr) := by
  apply (maybeLoad_attempt hM hD hmissing size mem addr hmem).bind
  rintro ⟨mv, mem'⟩ ⟨hloaded, hattempt⟩
  cases mv with
  | some v =>
    have hpresent : AllPresent chunk size mem addr := by
      apply hsettled.resolve_right
      intro habsent
      exact nomatch hattempt.none_iff.mpr habsent
    apply Keeps.pure
    refine ⟨hloaded.wf, (hloaded.value v rfl).1, ?_, ?_⟩
    · intro x b hx
      have hkept := hloaded.fills x
      rw [hx] at hkept
      exact hkept.kept
    · exact hattempt.records hpresent v rfl
  | none =>
    obtain ⟨rfl, hnone⟩ := hloaded.absent rfl
    apply (hmissing size addr).bind
    rintro v ⟨hv, -⟩
    obtain ⟨hwf, hcontents⟩ := store_stores hM hD size hmem addr hv
    apply Keeps.pure
    refine ⟨hwf, hv, ?_, ?_⟩
    · intro x b hx
      rw [hcontents, patch]
      split_ifs with hlt
      · have hx' := hnone _ hlt
        rw [add_sub_toNat addr x, hx] at hx'
        cases hx'
      · exact hx
    · intro i hi
      have hi' : i < 2 ^ 64 := hi.trans_le ((bytes_le size).trans (by decide))
      rw [hcontents, patch, sub_toNat_of_add addr hi', if_pos hi]

theorem Recorded.allPresent
    {size : Size} {mem : μ} {addr : I64} {r : τ × μ}
    (h : Recorded D IsWidth chunk size mem addr r) :
    AllPresent chunk size r.2 addr := by
  intro i hi habsent
  have hbyte := h.records i hi
  rw [contents, habsent] at hbyte
  cases hbyte

/-! ## Runs of loads -/

/-- The missing function answers with values of the width asked for. -/
def Sized (IsWidth : ℕ → τ → Prop) (missing : Missing σ τ) : Prop :=
  ∀ (size : Size) (addr : I64) (s : σ),
    IsWidth size.bits (missing size.bits addr s).1

theorem Sized.answers (h : Sized IsWidth missing) :
    Answers D IsWidth (fun _ => True) missing fun _ _ => True :=
  fun size addr s _ => ⟨⟨h size addr s, fun _ _ => trivial⟩, trivial⟩

/-- Loads one after the other, with what they return.  The state of the
missing function may be any at each of them. -/
inductive Loads (D : Domain τ) (M : GranularMemory μ σ τ)
    (missing : Missing σ τ) (P : Size → μ → I64 → Prop) :
    μ → List (Size × I64 × τ) → Prop
  | nil (mem : μ) : Loads D M missing P mem []
  | cons {mem : μ} {size : Size} {addr : I64} (s : σ)
      {rest : List (Size × I64 × τ)} :
      P size mem addr →
      Loads D M missing P (M.load D missing size mem addr s).1.2 rest →
      Loads D M missing P mem
        ((size, addr, (M.load D missing size mem addr s).1.1) :: rest)

/-- One byte array has the values of all the loads, wide and narrow. -/
def Consistent (D : Domain τ) (loads : List (Size × I64 × τ)) : Prop :=
  ∃ f : I64 → τ, ∀ load ∈ loads, load.2.2 = assemble D load.1 f load.2.1 ∧
    ∀ i < load.1.bytes,
      byteOf D load.1 load.2.2 i = f (load.2.1 + BitVec.ofNat 64 i)

section Runs

variable (hM : LawfulMemory M chunk setChunk) (hD : LawfulDomain D IsWidth)

include hM hD

/-- The array extends the contents of the memory that the loads start from. -/
theorem Loads.extends (hmissing : Sized IsWidth missing) (b : τ)
    {mem : μ} {loads : List (Size × I64 × τ)}
    (h : Loads D M missing (Settled chunk) mem loads)
    (hmem : MemoryWf IsWidth chunk mem) :
    ∃ f : I64 → τ, (∀ x c, contents D chunk mem x = some c → f x = c) ∧
      ∀ load ∈ loads, load.2.2 = assemble D load.1 f load.2.1 ∧
        ∀ i < load.1.bytes,
          byteOf D load.1 load.2.2 i = f (load.2.1 + BitVec.ofNat 64 i) := by
  induction h with
  | nil mem =>
    refine ⟨fun x => (contents D chunk mem x).getD b, ?_, nofun⟩
    intro x c hx
    exact congrArg (Option.getD · b) hx
  | @cons mem size addr s rest hsettled _ ih =>
    have hrec := (load_recorded hM hD hmissing.answers hmem hsettled s
      trivial).1
    obtain ⟨f, hext, hrest⟩ := ih hrec.wf
    refine ⟨f, ?_, ?_⟩
    · intro x c hx
      exact hext x c (hrec.kept x c hx)
    · intro load hload
      rcases List.mem_cons.mp hload with rfl | hload
      · have hbytes : ∀ i < size.bytes,
            byteOf D size (M.load D missing size mem addr s).1.1 i =
              f (addr + BitVec.ofNat 64 i) :=
          fun i hi => (hext _ _ (hrec.records i hi)).symm
        exact ⟨eq_assemble hD size hrec.width hbytes, hbytes⟩
      · exact hrest load hload

/-- A range that is settled is loaded again with the same value. -/
theorem load_again (hmissing : Sized IsWidth missing)
    {mem : μ} (hmem : MemoryWf IsWidth chunk mem) {size : Size} {addr : I64}
    (hsettled : Settled chunk size mem addr) (s s' : σ) :
    (M.load D missing size (M.load D missing size mem addr s).1.2 addr
      s').1.1 = (M.load D missing size mem addr s).1.1 := by
  have hrec := (load_recorded hM hD hmissing.answers hmem hsettled s trivial).1
  have hagain : Loads D M missing (Settled chunk) mem _ :=
    .cons s hsettled (.cons s' (.inl hrec.allPresent) (.nil _))
  obtain ⟨f, -, hf⟩ := hagain.extends hM hD hmissing
    (M.load D missing size mem addr s).1.1 hmem
  have h1 := (hf _ List.mem_cons_self).1
  have h2 := (hf _ (List.mem_cons_of_mem _ List.mem_cons_self)).1
  exact h2.trans h1.symm

end Runs

/-! ## Ranges that are not settled -/

/-- A value all of whose bytes are `b`. -/
def fill (D : Domain τ) (b : τ) (size : Size) : τ :=
  assemble D size (fun _ => b) 0

/-- A missing function that answers with one byte in the state `s₀` and with
another byte in all other states. -/
def flipMissing [DecidableEq σ] (D : Domain τ) (s₀ : σ) (b b' : τ) :
    Missing σ τ := fun bits _ s =>
  let c := if s = s₀ then b else b'
  let v :=
    if bits = 8 then fill D c .byte
    else if bits = 16 then fill D c .short
    else if bits = 32 then fill D c .word
    else fill D c .long
  (v, s)

section Flip

variable [DecidableEq σ] {b b' : τ} {s₀ : σ}

theorem flipMissing_eq (size : Size) (addr : I64) (s : σ) :
    flipMissing D s₀ b b' size.bits addr s =
      (fill D (if s = s₀ then b else b') size, s) := by
  cases size <;> rfl

variable (hD : LawfulDomain D IsWidth) (hb : IsWidth 8 b) (hb' : IsWidth 8 b')

include hD hb hb'

theorem flipMissing_sized : Sized IsWidth (flipMissing D s₀ b b') := by
  intro size addr s
  rw [flipMissing_eq]
  apply assemble_isWidth hD
  intro _
  split_ifs
  · exact hb
  · exact hb'

theorem flipMissing_answers (s : σ) :
    Answers D IsWidth (· = s) (flipMissing D s₀ b b')
      fun _ c => c = if s = s₀ then b else b' := by
  rintro size addr _ rfl
  refine ⟨⟨flipMissing_sized hD hb hb' size addr _, ?_⟩, ?_⟩
  · intro i hi
    rw [flipMissing_eq]
    apply byteOf_assemble hD _ size 0 i hi
    intro _
    split_ifs
    · exact hb
    · exact hb'
  · rw [flipMissing_eq]

/-- Where a tree is missing from a range that is not settled, the load answers
from the state of the missing function, and leaves the trees as they are. -/
theorem load_unsettled (hM : LawfulMemory M chunk setChunk) (s₀ : σ)
    {mem : μ} (hmem : MemoryWf IsWidth chunk mem) {size : Size} {addr : I64}
    (h : ¬AllAbsent chunk size mem addr) {i : ℕ} (hi : i < size.bytes)
    (habsent : chunk mem (chunkAddr (addr + BitVec.ofNat 64 i)) = .absent64)
    (s : σ) :
    let r := (M.load D (flipMissing D s₀ b b') size mem addr s).1
    MemoryWf IsWidth chunk r.2 ∧ SameTrees chunk mem r.2 ∧
      byteOf D size r.1 i = if s = s₀ then b else b' := by
  have hload : Keeps (· = s) (M.load D (flipMissing D s₀ b b') size mem addr)
      fun r => MemoryWf IsWidth chunk r.2 ∧ SameTrees chunk mem r.2 ∧
        byteOf D size r.1 i = if s = s₀ then b else b' := by
    apply (maybeLoad_attempt hM hD (flipMissing_answers hD hb hb' s) size mem
      addr hmem).bind
    rintro ⟨mv, mem'⟩ ⟨hl, ha⟩
    cases mv with
    | none => exact absurd (ha.none_iff.mp rfl) h
    | some v =>
      apply Keeps.pure
      refine ⟨hl.wf, ha.trees, ?_⟩
      have hread := (hl.value v rfl).2 i hi
      rw [contents, habsent] at hread
      obtain hsome | ⟨-, heq⟩ := hread
      · cases hsome
      · exact heq
  exact (hload s rfl).1

end Flip

/-- The loads of a run agree where every range is settled when it is loaded,
and a range that is not is loaded again with another value. -/
theorem loads_stable (hM : LawfulMemory M chunk setChunk)
    (hD : LawfulDomain D IsWidth) {b b' : τ} (hb : IsWidth 8 b)
    (hb' : IsWidth 8 b') (hne : b ≠ b') {s₀ s₁ : σ} (hs : s₀ ≠ s₁)
    {mem : μ} (hmem : MemoryWf IsWidth chunk mem) :
    (∀ missing : Missing σ τ, Sized IsWidth missing → ∀ loads,
      Loads D M missing (Settled chunk) mem loads → Consistent D loads) ∧
    ∀ size addr, Settled chunk size mem addr ↔
      ∀ missing : Missing σ τ, Sized IsWidth missing → ∀ s s',
        (M.load D missing size (M.load D missing size mem addr s).1.2 addr
          s').1.1 = (M.load D missing size mem addr s).1.1 := by
  classical
  constructor
  · intro missing hmissing loads hloads
    obtain ⟨f, -, hf⟩ := hloads.extends hM hD hmissing b hmem
    exact ⟨f, hf⟩
  · intro size addr
    constructor
    · intro hsettled missing hmissing s s'
      exact load_again hM hD hmissing hmem hsettled s s'
    · intro hsame
      by_contra hnot
      obtain ⟨hpresent, habsent⟩ := not_or.mp hnot
      have hex : ∃ i < size.bytes,
          chunk mem (chunkAddr (addr + BitVec.ofNat 64 i)) = .absent64 := by
        by_contra hall
        apply hpresent
        intro i hi hi'
        exact hall ⟨i, hi, hi'⟩
      obtain ⟨i, hi, hi'⟩ := hex
      obtain ⟨hwf, htrees, hfirst⟩ := load_unsettled hD hb hb' hM s₀
        hmem habsent hi hi' s₀
      have hagain := (load_unsettled hD hb hb' hM s₀ hwf
        (mt htrees.allAbsent_iff.mp habsent) hi ((htrees _).mpr hi') s₁).2.2
      rw [hsame _ (flipMissing_sized hD hb hb'), hfirst, if_pos rfl,
        if_neg (Ne.symm hs)] at hagain
      exact hne hagain

/-! ## A hash memory -/

/-- A memory with the byte at address 7. -/
def halfMemory : HashTable OString :=
  hashMemory.store (σ := ℕ) byteStrings .byte ∅ 7 [1]

/-- The short at address 7 lies half in the tree that is there. -/
theorem load_short_again_differs :
    let r := (hashMemory.load byteStrings countingMissing .short halfMemory 7
      0).1
    (hashMemory.load byteStrings countingMissing .short r.2 7 1).1.1 ≠ r.1 := by
  decide

theorem loads_stable_hash :
    let r := (hashMemory.load byteStrings countingMissing .word halfMemory 4
      0).1
    (hashMemory.load byteStrings countingMissing .word r.2 4 1).1.1 = r.1 := by
  have hb : HasBits 8 [0] := rfl
  have hb' : HasBits 8 [1] := rfl
  have hempty : MemoryWf HasBits HashTable.chunk (∅ : HashTable OString) :=
    fun _ => trivial
  have hmem : MemoryWf HasBits HashTable.chunk halfMemory :=
    (store_stores (hashMemory_lawful (σ := ℕ)) byteStrings_lawful .byte hempty
      7 hb').1
  have hsettled : Settled HashTable.chunk .word halfMemory 4 := by
    left
    change ∀ i < 4, HashTable.chunk halfMemory
      (chunkAddr (4 + BitVec.ofNat 64 i)) ≠ .absent64
    decide
  have hsized : Sized HasBits countingMissing := by
    intro size addr n
    cases size <;> rfl
  exact ((loads_stable hashMemory_lawful byteStrings_lawful hb hb' (by decide)
    (show (0 : ℕ) ≠ 1 by decide) hmem).2 .word 4).mp hsettled countingMissing
    hsized 0 1

end Fuzzball.Granular
