import Fuzzball.StateInvariants
import Fuzzball.GranularBytes

/-!
# Reading from a tree

What the missing function may answer is a relation between addresses and byte
values.  A read returns a value whose bytes are those of the tree where they
are present and allowed answers elsewhere, and it adds allowed answers only.
-/

namespace Fuzzball.Granular

variable {σ τ : Type} {D : Domain τ} {IsWidth : ℕ → τ → Prop}

/-! ## The bytes of a value -/

def byteOf (D : Domain τ) : Size → τ → ℕ → τ
  | .byte, v, _ => v
  | .short, v, i => D.extract8From16 v i
  | .word, v, i => D.extract8From32 v i
  | .long, v, i => D.extract8From64 v i

def assembleShort (D : Domain τ) (f : I64 → τ) (a : I64) : τ :=
  D.reassemble16 (f a) (f (a + 1))

def assembleWord (D : Domain τ) (f : I64 → τ) (a : I64) : τ :=
  D.reassemble32 (assembleShort D f a) (assembleShort D f (a + 2))

/-- The little-endian value of a range of a byte array. -/
def assemble (D : Domain τ) : Size → (I64 → τ) → I64 → τ
  | .byte, f, a => f a
  | .short, f, a => assembleShort D f a
  | .word, f, a => assembleWord D f a
  | .long, f, a =>
    D.reassemble64 (assembleWord D f a) (assembleWord D f (a + 4))

/-- A value of a size made of two halves. -/
structure Joins (D : Domain τ) (half size : Size) (v1 v2 v : τ) : Prop where
  bytes : size.bytes = half.bytes + half.bytes
  low : ∀ i < half.bytes, byteOf D size v i = byteOf D half v1 i
  high : ∀ i < half.bytes,
    byteOf D size v (half.bytes + i) = byteOf D half v2 i

section Lawful

variable (hD : LawfulDomain D IsWidth)

include hD

omit hD in
theorem joins_split16 (s : τ) :
    Joins D .byte .short (split16 D s).1 (split16 D s).2 s := by
  refine ⟨rfl, ?_, ?_⟩
  · intro i hi
    obtain rfl : i = 0 := Nat.lt_one_iff.1 hi
    rfl
  · intro i hi
    obtain rfl : i = 0 := Nat.lt_one_iff.1 hi
    rfl

theorem joins_split32 {w : τ} (hw : IsWidth 32 w) :
    Joins D .short .word (split32 D w).1 (split32 D w).2 w := by
  refine ⟨rfl, ?_, ?_⟩
  · intro i hi
    exact (hD.extract8From32 w i hw hi).1
  · intro i hi
    rw [Nat.add_comm]
    exact (hD.extract8From32 w i hw hi).2

theorem joins_split64 {l : τ} (hl : IsWidth 64 l) :
    Joins D .word .long (split64 D l).1 (split64 D l).2 l := by
  refine ⟨rfl, ?_, ?_⟩
  · intro i hi
    exact (hD.extract8From64 l i hl hi).1
  · intro i hi
    rw [Nat.add_comm]
    exact (hD.extract8From64 l i hl hi).2

theorem joins_reassemble16 {a b : τ} (ha : IsWidth 8 a) (hb : IsWidth 8 b) :
    Joins D .byte .short a b (D.reassemble16 a b) := by
  have h := joins_split16 (D := D) (D.reassemble16 a b)
  rwa [hD.split16_reassemble a b ha hb] at h

theorem joins_reassemble32 {a b : τ} (ha : IsWidth 16 a) (hb : IsWidth 16 b) :
    Joins D .short .word a b (D.reassemble32 a b) := by
  have h := joins_split32 hD (hD.reassemble32 a b ha hb)
  rwa [hD.split32_reassemble a b ha hb] at h

theorem joins_reassemble64 {a b : τ} (ha : IsWidth 32 a) (hb : IsWidth 32 b) :
    Joins D .word .long a b (D.reassemble64 a b) := by
  have h := joins_split64 hD (hD.reassemble64 a b ha hb)
  rwa [hD.split64_reassemble a b ha hb] at h

theorem split16_isWidth {s : τ} (hs : IsWidth 16 s) :
    IsWidth 8 (split16 D s).1 ∧ IsWidth 8 (split16 D s).2 :=
  ⟨hD.extract8From16 s 0 hs (by decide), hD.extract8From16 s 1 hs (by decide)⟩

theorem split32_isWidth {w : τ} (hw : IsWidth 32 w) :
    IsWidth 16 (split32 D w).1 ∧ IsWidth 16 (split32 D w).2 :=
  ⟨hD.extract16From32 w 0 hw (.inl rfl), hD.extract16From32 w 2 hw (.inr rfl)⟩

theorem split64_isWidth {l : τ} (hl : IsWidth 64 l) :
    IsWidth 32 (split64 D l).1 ∧ IsWidth 32 (split64 D l).2 :=
  ⟨hD.extract32From64 l 0 hl (.inl rfl), hD.extract32From64 l 4 hl (.inr rfl)⟩

theorem extract8From32_isWidth {w : τ} (hw : IsWidth 32 w) {i : ℕ} (hi : i < 4) :
    IsWidth 8 (D.extract8From32 w i) := by
  obtain ⟨hw1, hw2⟩ := split32_isWidth hD hw
  by_cases hlt : i < 2
  · rw [(hD.extract8From32 w i hw hlt).1]
    exact hD.extract8From16 _ i hw1 hlt
  · obtain ⟨j, rfl⟩ := Nat.exists_eq_add_of_le' (Nat.le_of_not_lt hlt)
    rw [(hD.extract8From32 w j hw (by omega)).2]
    exact hD.extract8From16 _ j hw2 (by omega)

theorem extract8From64_isWidth {l : τ} (hl : IsWidth 64 l) {i : ℕ} (hi : i < 8) :
    IsWidth 8 (D.extract8From64 l i) := by
  obtain ⟨hl1, hl2⟩ := split64_isWidth hD hl
  by_cases hlt : i < 4
  · rw [(hD.extract8From64 l i hl hlt).1]
    exact extract8From32_isWidth hD hl1 hlt
  · obtain ⟨j, rfl⟩ := Nat.exists_eq_add_of_le' (Nat.le_of_not_lt hlt)
    rw [(hD.extract8From64 l j hl (by omega)).2]
    exact extract8From32_isWidth hD hl2 (by omega)

theorem extract16From32_bytes
    {w : τ} (hw : IsWidth 32 w) {which : ℕ} (hwhich : which = 0 ∨ which = 2)
    {i : ℕ} (hi : i < 2) :
    D.extract8From16 (D.extract16From32 w which) i =
      D.extract8From32 w (which + i) := by
  obtain ⟨hlow, hhigh⟩ := hD.extract8From32 w i hw hi
  obtain rfl | rfl := hwhich
  · rw [Nat.zero_add, hlow]
    rfl
  · rw [Nat.add_comm, hhigh]
    rfl

theorem extract32From64_bytes
    {l : τ} (hl : IsWidth 64 l) {which : ℕ} (hwhich : which = 0 ∨ which = 4)
    {i : ℕ} (hi : i < 4) :
    D.extract8From32 (D.extract32From64 l which) i =
      D.extract8From64 l (which + i) := by
  obtain ⟨hlow, hhigh⟩ := hD.extract8From64 l i hl hi
  obtain rfl | rfl := hwhich
  · rw [Nat.zero_add, hlow]
    rfl
  · rw [Nat.add_comm, hhigh]
    rfl

theorem extract16From64_eq
    {l : τ} (hl : IsWidth 64 l) {which : ℕ}
    (hwhich : which = 0 ∨ which = 2 ∨ which = 4 ∨ which = 6) :
    D.extract16From64 l which =
      D.extract16From32 (D.extract32From64 l (which / 4 * 4)) (which % 4) := by
  obtain ⟨h0, h4⟩ := hD.extract16From64 l 0 hl (.inl rfl)
  obtain ⟨h2, h6⟩ := hD.extract16From64 l 2 hl (.inr rfl)
  obtain rfl | rfl | rfl | rfl := hwhich
  · exact h0
  · exact h2
  · exact h4
  · exact h6

theorem extract16From64_isWidth
    {l : τ} (hl : IsWidth 64 l) {which : ℕ}
    (hwhich : which = 0 ∨ which = 2 ∨ which = 4 ∨ which = 6) :
    IsWidth 16 (D.extract16From64 l which) := by
  rw [extract16From64_eq hD hl hwhich]
  exact hD.extract16From32 _ _ (hD.extract32From64 l _ hl (by omega)) (by omega)

theorem extract16From64_bytes
    {l : τ} (hl : IsWidth 64 l) {which : ℕ}
    (hwhich : which = 0 ∨ which = 2 ∨ which = 4 ∨ which = 6)
    {i : ℕ} (hi : i < 2) :
    D.extract8From16 (D.extract16From64 l which) i =
      D.extract8From64 l (which + i) := by
  have hword : IsWidth 32 (D.extract32From64 l (which / 4 * 4)) :=
    hD.extract32From64 l _ hl (by omega)
  rw [extract16From64_eq hD hl hwhich,
    extract16From32_bytes hD hword (by omega) hi,
    extract32From64_bytes hD hl (by omega) (by omega)]
  exact congrArg _ (by omega)

theorem eq_assembleShort
    {s : τ} (hs : IsWidth 16 s) {f : I64 → τ} {a : I64}
    (h : ∀ i < 2, D.extract8From16 s i = f (a + BitVec.ofNat 64 i)) :
    s = assembleShort D f a := by
  have h0 : D.extract8From16 s 0 = f a := by
    rw [h 0 (by decide)]
    exact congrArg f (BitVec.add_zero a)
  have h1 : D.extract8From16 s 1 = f (a + 1) := h 1 (by decide)
  rw [← hD.reassemble16_split s hs, assembleShort, ← h0, ← h1]
  rfl

theorem eq_assembleWord
    {w : τ} (hw : IsWidth 32 w) {f : I64 → τ} {a : I64}
    (h : ∀ i < 4, D.extract8From32 w i = f (a + BitVec.ofNat 64 i)) :
    w = assembleWord D f a := by
  obtain ⟨hw1, hw2⟩ := split32_isWidth hD hw
  have hlow : (split32 D w).1 = assembleShort D f a := by
    refine eq_assembleShort hD hw1 ?_
    intro i hi
    rw [← (hD.extract8From32 w i hw hi).1, h _ (by omega)]
  have hhigh : (split32 D w).2 = assembleShort D f (a + 2) := by
    refine eq_assembleShort hD hw2 ?_
    intro i hi
    rw [← (hD.extract8From32 w i hw hi).2, h _ (by omega), Nat.add_comm,
      BitVec.ofNat_add, ← BitVec.add_assoc]
    rfl
  rw [← hD.reassemble32_split w hw, assembleWord, hlow, hhigh]

/-- A value is the little-endian value of its bytes. -/
theorem eq_assemble
    (size : Size) {v : τ} (hv : IsWidth size.bits v) {f : I64 → τ} {a : I64}
    (h : ∀ i < size.bytes, byteOf D size v i = f (a + BitVec.ofNat 64 i)) :
    v = assemble D size f a := by
  cases size with
  | byte => exact (h 0 (by decide)).trans (congrArg f (BitVec.add_zero a))
  | short => exact eq_assembleShort hD hv h
  | word => exact eq_assembleWord hD hv h
  | long =>
    obtain ⟨hv1, hv2⟩ := split64_isWidth hD hv
    have hlow : (split64 D v).1 = assembleWord D f a := by
      refine eq_assembleWord hD hv1 ?_
      intro i hi
      rw [← (hD.extract8From64 v i hv hi).1]
      exact h _ (hi.trans (by decide))
    have hhigh : (split64 D v).2 = assembleWord D f (a + 4) := by
      refine eq_assembleWord hD hv2 ?_
      intro i hi
      rw [← (hD.extract8From64 v i hv hi).2]
      refine (h _ (Nat.add_lt_add_right hi 4)).trans ?_
      rw [Nat.add_comm, BitVec.ofNat_add, ← BitVec.add_assoc]
      rfl
    rw [← hD.reassemble64_split v hv, assemble, hlow, hhigh]

end Lawful

/-! ## Allowed answers -/

/-- A byte is kept, or filled with an allowed answer where it was absent. -/
def Fills (R : τ → Prop) (o o' : Option τ) : Prop :=
  o' = o ∨ o = none ∧ ∃ b, o' = some b ∧ R b

/-- A byte is read, or answered where it is absent. -/
def Reads (R : τ → Prop) (o : Option τ) (b : τ) : Prop :=
  o = some b ∨ o = none ∧ R b

theorem Fills.refl {R : τ → Prop} (o : Option τ) : Fills R o o := .inl rfl

theorem Fills.trans
    {R : τ → Prop} {o o' o'' : Option τ} (h : Fills R o o')
    (h' : Fills R o' o'') : Fills R o o'' := by
  obtain rfl | ⟨ho, b, rfl, hb⟩ := h
  · exact h'
  · obtain rfl | ⟨hnone, -⟩ := h'
    · exact .inr ⟨ho, b, rfl, hb⟩
    · exact nomatch hnone

theorem Fills.reads
    {R : τ → Prop} {o o' : Option τ} {b : τ} (h : Fills R o o')
    (h' : Reads R o' b) : Reads R o b := by
  obtain rfl | ⟨ho, b', rfl, hb'⟩ := h
  · exact h'
  · obtain heq | ⟨hnone, -⟩ := h'
    · exact .inr ⟨ho, Option.some.inj heq ▸ hb'⟩
    · exact nomatch hnone

/-- The bytes of two halves of `n` bytes. -/
def halves (n : ℕ) (f1 f2 : ℕ → Option τ) (i : ℕ) : Option τ :=
  if i < n then f1 i else f2 (i - n)

/-- A value of a size fetched at an offset of `n` bytes, which change from `f`
to `f'`, where the value is recorded. -/
structure Fetch (D : Domain τ) (IsWidth : ℕ → τ → Prop) (size : Size) (n : ℕ)
    (R : ℕ → τ → Prop) (f f' : ℕ → Option τ) (off : ℕ) (v : τ) : Prop where
  width : IsWidth size.bits v
  fills : ∀ i < n, Fills (R i) (f i) (f' i)
  reads : ∀ i < size.bytes, Reads (R (off + i)) (f (off + i)) (byteOf D size v i)
  records : ∀ i < size.bytes, f' (off + i) = some (byteOf D size v i)

namespace Fetch

variable {size half : Size} {n off : ℕ} {R : ℕ → τ → Prop}
  {f f1 f1' f2 f2' : ℕ → Option τ} {v v1 v2 : τ}

theorem present
    (hv : IsWidth size.bits v)
    (h : ∀ i < size.bytes, f (off + i) = some (byteOf D size v i)) :
    Fetch D IsWidth size n R f f off v :=
  ⟨hv, fun i _ => .refl (f i), fun i hi => .inl (h i hi), h⟩

theorem left
    (h : Fetch D IsWidth size n R f1 f1' off v) (hoff : off + size.bytes ≤ n) :
    Fetch D IsWidth size (n + n) R (halves n f1 f2) (halves n f1' f2) off v := by
  refine ⟨h.width, ?_, ?_, ?_⟩
  · intro i hi
    unfold halves
    split_ifs with hlt
    · exact h.fills i hlt
    · exact .refl _
  · intro i hi
    rw [halves, if_pos (by omega)]
    exact h.reads i hi
  · intro i hi
    rw [halves, if_pos (by omega)]
    exact h.records i hi

theorem right
    (h : Fetch D IsWidth size n (fun i => R (n + i)) f2 f2' (off - n) v)
    (hoff : n ≤ off) :
    Fetch D IsWidth size (n + n) R (halves n f1 f2) (halves n f1 f2') off v := by
  have hsub' : ∀ i, off - n + i = off + i - n := by omega
  refine ⟨h.width, ?_, ?_, ?_⟩
  · intro i hi
    unfold halves
    split_ifs with hlt
    · exact .refl _
    · have hfills := h.fills (i - n) (by omega)
      rwa [Nat.add_sub_cancel' (Nat.le_of_not_lt hlt)] at hfills
  · intro i hi
    have hreads := h.reads i hi
    have hsub : n + (off - n + i) = off + i := by omega
    rw [hsub, hsub'] at hreads
    rwa [halves, if_neg (by omega)]
  · intro i hi
    have hrecords := h.records i hi
    rw [hsub'] at hrecords
    rwa [halves, if_neg (by omega)]

theorem join
    (h1 : Fetch D IsWidth half half.bytes R f1 f1' 0 v1)
    (h2 : Fetch D IsWidth half half.bytes (fun i => R (half.bytes + i)) f2 f2' 0
      v2)
    (hv : IsWidth size.bits v) (hjoin : Joins D half size v1 v2 v) :
    Fetch D IsWidth size size.bytes R (halves half.bytes f1 f2)
      (halves half.bytes f1' f2') 0 v := by
  refine ⟨hv, ?_, ?_, ?_⟩
  · intro i hi
    unfold halves
    split_ifs with hlt
    · exact h1.fills i hlt
    · have hfills := h2.fills (i - half.bytes) (by have := hjoin.bytes; omega)
      rwa [Nat.add_sub_cancel' (Nat.le_of_not_lt hlt)] at hfills
  · intro i hi
    rw [Nat.zero_add]
    by_cases hlt : i < half.bytes
    · have hreads := h1.reads i hlt
      rw [Nat.zero_add, ← hjoin.low i hlt] at hreads
      rwa [halves, if_pos hlt]
    · obtain ⟨j, rfl⟩ := Nat.exists_eq_add_of_le (Nat.le_of_not_lt hlt)
      have hj : j < half.bytes := by have := hjoin.bytes; omega
      have hreads := h2.reads j hj
      rw [Nat.zero_add, ← hjoin.high j hj] at hreads
      rw [halves, if_neg hlt, Nat.add_sub_cancel_left]
      exact hreads
  · intro i hi
    rw [Nat.zero_add]
    by_cases hlt : i < half.bytes
    · have hrecords := h1.records i hlt
      rw [Nat.zero_add, ← hjoin.low i hlt] at hrecords
      rwa [halves, if_pos hlt]
    · obtain ⟨j, rfl⟩ := Nat.exists_eq_add_of_le (Nat.le_of_not_lt hlt)
      have hj : j < half.bytes := by have := hjoin.bytes; omega
      have hrecords := h2.records j hj
      rw [Nat.zero_add, ← hjoin.high j hj] at hrecords
      rwa [halves, if_neg hlt, Nat.add_sub_cancel_left]

end Fetch

/-- The missing function keeps an invariant and gives values of their width
all of whose bytes are allowed. -/
def Answers (D : Domain τ) (IsWidth : ℕ → τ → Prop) (I : σ → Prop)
    (missing : Missing σ τ) (R : I64 → τ → Prop) : Prop :=
  ∀ size addr, Keeps I (missing size.bits addr) fun v =>
    IsWidth size.bits v ∧
      ∀ i < size.bytes, R (addr + BitVec.ofNat 64 i) (byteOf D size v i)

/-! ## Reads of parts of a tree -/

section Gets

variable {I : σ → Prop} {missing : Missing σ τ} {R : I64 → τ → Prop}
  (hD : LawfulDomain D IsWidth) (hmissing : Answers D IsWidth I missing R)

/-- The allowed bytes at the offsets from an address. -/
def allowedFrom (R : I64 → τ → Prop) (addr : I64) (i : ℕ) : τ → Prop :=
  R (addr + BitVec.ofNat 64 i)

theorem allowedFrom_add (R : I64 → τ → Prop) (addr : I64) (n : ℕ) :
    allowedFrom R (addr + BitVec.ofNat 64 n) =
      fun i => allowedFrom R addr (n + i) := by
  funext i
  rw [allowedFrom, allowedFrom, BitVec.add_assoc, ← BitVec.ofNat_add]

theorem Gran16.at_gran8s (g1 g2 : Gran8 τ) :
    (Gran16.gran8s g1 g2).at D = halves 1 (fun _ => g1.at) fun _ => g2.at := by
  rfl

theorem Gran32.at_gran16s (g1 g2 : Gran16 τ) :
    (Gran32.gran16s g1 g2).at D = halves 2 (g1.at D) (g2.at D) := by
  rfl

theorem Gran64.at_gran32s (g1 g2 : Gran32 τ) :
    (Gran64.gran32s g1 g2).at D = halves 4 (g1.at D) (g2.at D) := by
  rfl

theorem Gran16.at_absent :
    (Gran16.gran8s .absent8 .absent8).at D = Gran16.at D (.absent16) := by
  funext i
  exact ite_self none

theorem Gran32.at_absent :
    (Gran32.gran16s .absent16 .absent16).at D = Gran32.at D (.absent32) := by
  funext i
  exact ite_self none

theorem Gran64.at_absent :
    (Gran64.gran32s .absent32 .absent32).at D = Gran64.at D (.absent64) := by
  funext i
  exact ite_self none

include hmissing

theorem fetch_absent
    (size : Size) (addr : I64) {n : ℕ} (hn : n = size.bytes)
    {f' : τ → ℕ → Option τ}
    (hf' : ∀ v, ∀ i < n, f' v i = some (byteOf D size v i)) :
    Keeps I (missing size.bits addr) fun v =>
      Fetch D IsWidth size n (allowedFrom R addr) (fun _ => none) (f' v) 0 v := by
  subst hn
  refine (hmissing size addr).mono ?_
  intro v hv
  refine ⟨hv.1, ?_, ?_, ?_⟩
  · intro i hi
    exact .inr ⟨rfl, _, hf' v i hi, hv.2 i hi⟩
  · intro i hi
    rw [Nat.zero_add]
    exact .inr ⟨rfl, hv.2 i hi⟩
  · intro i hi
    rw [Nat.zero_add]
    exact hf' v i hi

theorem gran8GetByte_keeps {g : Gran8 τ} (hg : g.Wf IsWidth) (addr : I64) :
    Keeps I (gran8GetByte g missing addr) fun r =>
      r.2.Wf IsWidth ∧
        Fetch D IsWidth .byte 1 (allowedFrom R addr) (fun _ => g.at)
          (fun _ => r.2.at) 0 r.1 := by
  cases g with
  | byte b => exact .pure ⟨hg, .present hg fun _ _ => rfl⟩
  | absent8 =>
    refine (fetch_absent hmissing .byte addr rfl fun _ _ _ => rfl).bind ?_
    intro v hv
    exact .pure ⟨hv.width, hv⟩

theorem gran16GetByte_keeps_gran8s
    {g1 g2 : Gran8 τ} (h1 : g1.Wf IsWidth) (h2 : g2.Wf IsWidth) (addr : I64)
    {which : ℕ} (hw : which < 2) :
    Keeps I (gran16GetByte D (.gran8s g1 g2) missing addr which) fun r =>
      r.2.Wf IsWidth ∧
        Fetch D IsWidth .byte 2 (allowedFrom R addr)
          ((Gran16.gran8s g1 g2).at D) (r.2.at D) which r.1 := by
  by_cases hlt : which < 1
  · obtain rfl : which = 0 := Nat.lt_one_iff.1 hlt
    refine (gran8GetByte_keeps hmissing h1 addr).bind ?_
    rintro ⟨v, g1'⟩ ⟨hwf, hfetch⟩
    refine .pure ⟨⟨hwf, h2⟩, ?_⟩
    rw [Gran16.at_gran8s, Gran16.at_gran8s]
    exact hfetch.left le_rfl
  · obtain rfl : which = 1 := by omega
    have h := gran8GetByte_keeps hmissing h2 (addr + BitVec.ofNat 64 1)
    rw [allowedFrom_add] at h
    refine h.bind ?_
    rintro ⟨v, g2'⟩ ⟨hwf, hfetch⟩
    refine .pure ⟨⟨h1, hwf⟩, ?_⟩
    rw [Gran16.at_gran8s, Gran16.at_gran8s]
    exact hfetch.right le_rfl

include hD

theorem gran16GetByte_keeps
    {g : Gran16 τ} (hg : g.Wf IsWidth) (addr : I64) {which : ℕ}
    (hw : which < 2) :
    Keeps I (gran16GetByte D g missing addr which) fun r =>
      r.2.Wf IsWidth ∧
        Fetch D IsWidth .byte 2 (allowedFrom R addr) (g.at D) (r.2.at D) which
          r.1 := by
  cases g with
  | short s =>
    refine .pure ⟨hg, .present (hD.extract8From16 s which hg hw) ?_⟩
    intro i hi
    obtain rfl : i = 0 := Nat.lt_one_iff.1 hi
    rfl
  | gran8s g1 g2 => exact gran16GetByte_keeps_gran8s hmissing hg.1 hg.2 addr hw
  | absent16 =>
    rw [← Gran16.at_absent]
    exact gran16GetByte_keeps_gran8s (D := D) hmissing
      (show Gran8.absent8.Wf IsWidth from trivial)
      (show Gran8.absent8.Wf IsWidth from trivial) addr hw

omit hD hmissing in
theorem gran32Left_keeps
    {size : Size} {g1 g2 : Gran16 τ} (h2 : g2.Wf IsWidth) {addr : I64} {which : ℕ}
    {x : StateM σ (τ × Gran16 τ)} (hwhich : which + size.bytes ≤ 2)
    (hx : Keeps I x fun r =>
      r.2.Wf IsWidth ∧
        Fetch D IsWidth size 2 (allowedFrom R addr) (g1.at D) (r.2.at D) which
          r.1) :
    Keeps I (x >>= fun r => pure (r.1, Gran32.gran16s r.2 g2)) fun r =>
      r.2.Wf IsWidth ∧
        Fetch D IsWidth size 4 (allowedFrom R addr)
          ((Gran32.gran16s g1 g2).at D) (r.2.at D) which r.1 := by
  refine hx.bind ?_
  rintro ⟨v, g1'⟩ ⟨hwf, hfetch⟩
  refine .pure ⟨⟨hwf, h2⟩, ?_⟩
  rw [Gran32.at_gran16s, Gran32.at_gran16s]
  exact hfetch.left hwhich

omit hD hmissing in
theorem gran32Right_keeps
    {size : Size} {g1 g2 : Gran16 τ} (h1 : g1.Wf IsWidth) {addr : I64} {which : ℕ}
    {x : StateM σ (τ × Gran16 τ)} (hwhich : 2 ≤ which)
    (hx : Keeps I x fun r =>
      r.2.Wf IsWidth ∧
        Fetch D IsWidth size 2 (allowedFrom R (addr + BitVec.ofNat 64 2))
          (g2.at D) (r.2.at D) (which - 2) r.1) :
    Keeps I (x >>= fun r => pure (r.1, Gran32.gran16s g1 r.2)) fun r =>
      r.2.Wf IsWidth ∧
        Fetch D IsWidth size 4 (allowedFrom R addr)
          ((Gran32.gran16s g1 g2).at D) (r.2.at D) which r.1 := by
  rw [allowedFrom_add] at hx
  refine hx.bind ?_
  rintro ⟨v, g2'⟩ ⟨hwf, hfetch⟩
  refine .pure ⟨⟨h1, hwf⟩, ?_⟩
  rw [Gran32.at_gran16s, Gran32.at_gran16s]
  exact hfetch.right hwhich

omit hD hmissing in
theorem gran64Left_keeps
    {size : Size} {g1 g2 : Gran32 τ} (h2 : g2.Wf IsWidth) {addr : I64} {which : ℕ}
    {x : StateM σ (τ × Gran32 τ)} (hwhich : which + size.bytes ≤ 4)
    (hx : Keeps I x fun r =>
      r.2.Wf IsWidth ∧
        Fetch D IsWidth size 4 (allowedFrom R addr) (g1.at D) (r.2.at D) which
          r.1) :
    Keeps I (x >>= fun r => pure (r.1, Gran64.gran32s r.2 g2)) fun r =>
      r.2.Wf IsWidth ∧
        Fetch D IsWidth size 8 (allowedFrom R addr)
          ((Gran64.gran32s g1 g2).at D) (r.2.at D) which r.1 := by
  refine hx.bind ?_
  rintro ⟨v, g1'⟩ ⟨hwf, hfetch⟩
  refine .pure ⟨⟨hwf, h2⟩, ?_⟩
  rw [Gran64.at_gran32s, Gran64.at_gran32s]
  exact hfetch.left hwhich

omit hD hmissing in
theorem gran64Right_keeps
    {size : Size} {g1 g2 : Gran32 τ} (h1 : g1.Wf IsWidth) {addr : I64} {which : ℕ}
    {x : StateM σ (τ × Gran32 τ)} (hwhich : 4 ≤ which)
    (hx : Keeps I x fun r =>
      r.2.Wf IsWidth ∧
        Fetch D IsWidth size 4 (allowedFrom R (addr + BitVec.ofNat 64 4))
          (g2.at D) (r.2.at D) (which - 4) r.1) :
    Keeps I (x >>= fun r => pure (r.1, Gran64.gran32s g1 r.2)) fun r =>
      r.2.Wf IsWidth ∧
        Fetch D IsWidth size 8 (allowedFrom R addr)
          ((Gran64.gran32s g1 g2).at D) (r.2.at D) which r.1 := by
  rw [allowedFrom_add] at hx
  refine hx.bind ?_
  rintro ⟨v, g2'⟩ ⟨hwf, hfetch⟩
  refine .pure ⟨⟨h1, hwf⟩, ?_⟩
  rw [Gran64.at_gran32s, Gran64.at_gran32s]
  exact hfetch.right hwhich

theorem gran32GetByte_keeps_gran16s
    {g1 g2 : Gran16 τ} (h1 : g1.Wf IsWidth) (h2 : g2.Wf IsWidth) (addr : I64)
    {which : ℕ} (hw : which < 4) :
    Keeps I (gran32GetByte D (.gran16s g1 g2) missing addr which) fun r =>
      r.2.Wf IsWidth ∧
        Fetch D IsWidth .byte 4 (allowedFrom R addr)
          ((Gran32.gran16s g1 g2).at D) (r.2.at D) which r.1 := by
  simp only [gran32GetByte]
  by_cases hlt : which < 2
  · rw [if_pos hlt]
    exact gran32Left_keeps h2 hlt
      (gran16GetByte_keeps hD hmissing h1 addr hlt)
  · rw [if_neg hlt]
    exact gran32Right_keeps h1 (Nat.le_of_not_lt hlt)
      (gran16GetByte_keeps hD hmissing h2 _ (by omega))

theorem gran32GetByte_keeps
    {g : Gran32 τ} (hg : g.Wf IsWidth) (addr : I64) {which : ℕ}
    (hw : which < 4) :
    Keeps I (gran32GetByte D g missing addr which) fun r =>
      r.2.Wf IsWidth ∧
        Fetch D IsWidth .byte 4 (allowedFrom R addr) (g.at D) (r.2.at D) which
          r.1 := by
  cases g with
  | word w =>
    refine .pure ⟨hg, .present (extract8From32_isWidth hD hg hw) ?_⟩
    intro i hi
    obtain rfl : i = 0 := Nat.lt_one_iff.1 hi
    rfl
  | gran16s g1 g2 =>
    exact gran32GetByte_keeps_gran16s hD hmissing hg.1 hg.2 addr hw
  | absent32 =>
    rw [← Gran32.at_absent]
    exact gran32GetByte_keeps_gran16s hD hmissing
      (show Gran16.absent16.Wf IsWidth from trivial)
      (show Gran16.absent16.Wf IsWidth from trivial) addr hw

theorem gran64GetByte_keeps_gran32s
    {g1 g2 : Gran32 τ} (h1 : g1.Wf IsWidth) (h2 : g2.Wf IsWidth) (addr : I64)
    {which : ℕ} (hw : which < 8) :
    Keeps I (gran64GetByte D (.gran32s g1 g2) missing addr which) fun r =>
      r.2.Wf IsWidth ∧
        Fetch D IsWidth .byte 8 (allowedFrom R addr)
          ((Gran64.gran32s g1 g2).at D) (r.2.at D) which r.1 := by
  simp only [gran64GetByte]
  by_cases hlt : which < 4
  · rw [if_pos hlt]
    exact gran64Left_keeps h2 hlt
      (gran32GetByte_keeps hD hmissing h1 addr hlt)
  · rw [if_neg hlt]
    exact gran64Right_keeps h1 (Nat.le_of_not_lt hlt)
      (gran32GetByte_keeps hD hmissing h2 _ (by omega))

theorem gran64GetByte_keeps
    {g : Gran64 τ} (hg : g.Wf IsWidth) (addr : I64) {which : ℕ}
    (hw : which < 8) :
    Keeps I (gran64GetByte D g missing addr which) fun r =>
      r.2.Wf IsWidth ∧
        Fetch D IsWidth .byte 8 (allowedFrom R addr) (g.at D) (r.2.at D) which
          r.1 := by
  cases g with
  | long l =>
    refine .pure ⟨hg, .present (extract8From64_isWidth hD hg hw) ?_⟩
    intro i hi
    obtain rfl : i = 0 := Nat.lt_one_iff.1 hi
    rfl
  | gran32s g1 g2 =>
    exact gran64GetByte_keeps_gran32s hD hmissing hg.1 hg.2 addr hw
  | absent64 =>
    rw [← Gran64.at_absent]
    exact gran64GetByte_keeps_gran32s hD hmissing
      (show Gran32.absent32.Wf IsWidth from trivial)
      (show Gran32.absent32.Wf IsWidth from trivial) addr hw

theorem gran16GetShort_keeps
    {g : Gran16 τ} (hg : g.Wf IsWidth) (addr : I64) :
    Keeps I (gran16GetShort D g missing addr) fun r =>
      r.2.Wf IsWidth ∧
        Fetch D IsWidth .short 2 (allowedFrom R addr) (g.at D) (r.2.at D) 0
          r.1 := by
  cases g with
  | short s =>
    refine .pure ⟨hg, .present hg ?_⟩
    intro i hi
    rw [Nat.zero_add]
    rfl
  | gran8s g1 g2 =>
    have h2 := gran8GetByte_keeps hmissing hg.2 (addr + BitVec.ofNat 64 1)
    rw [allowedFrom_add] at h2
    refine (gran8GetByte_keeps hmissing hg.1 addr).bind ?_
    rintro ⟨b1, g1'⟩ ⟨hwf1, hfetch1⟩
    refine h2.bind ?_
    rintro ⟨b2, g2'⟩ ⟨hwf2, hfetch2⟩
    refine .pure ⟨⟨hwf1, hwf2⟩, ?_⟩
    exact hfetch1.join hfetch2
      (hD.reassemble16 b1 b2 hfetch1.width hfetch2.width)
      (joins_reassemble16 hD hfetch1.width hfetch2.width)
  | absent16 =>
    refine (fetch_absent hmissing .short addr rfl fun _ _ _ => rfl).bind ?_
    intro v hv
    exact .pure ⟨hv.width, hv⟩

theorem gran32GetShort_keeps_gran16s
    {g1 g2 : Gran16 τ} (h1 : g1.Wf IsWidth) (h2 : g2.Wf IsWidth) (addr : I64)
    {which : ℕ} (hw : which = 0 ∨ which = 2) :
    Keeps I (gran32GetShort D (.gran16s g1 g2) missing addr which) fun r =>
      r.2.Wf IsWidth ∧
        Fetch D IsWidth .short 4 (allowedFrom R addr)
          ((Gran32.gran16s g1 g2).at D) (r.2.at D) which r.1 := by
  simp only [gran32GetShort]
  obtain rfl | rfl := hw
  · rw [if_pos (by decide)]
    exact gran32Left_keeps h2 le_rfl (gran16GetShort_keeps hD hmissing h1 addr)
  · rw [if_neg (by decide)]
    exact gran32Right_keeps h1 le_rfl (gran16GetShort_keeps hD hmissing h2 _)

theorem gran32GetShort_keeps
    {g : Gran32 τ} (hg : g.Wf IsWidth) (addr : I64) {which : ℕ}
    (hw : which = 0 ∨ which = 2) :
    Keeps I (gran32GetShort D g missing addr which) fun r =>
      r.2.Wf IsWidth ∧
        Fetch D IsWidth .short 4 (allowedFrom R addr) (g.at D) (r.2.at D) which
          r.1 := by
  cases g with
  | word w =>
    refine .pure ⟨hg, .present (hD.extract16From32 w which hg hw) ?_⟩
    intro i hi
    exact congrArg some (extract16From32_bytes hD hg hw hi).symm
  | gran16s g1 g2 =>
    exact gran32GetShort_keeps_gran16s hD hmissing hg.1 hg.2 addr hw
  | absent32 =>
    rw [← Gran32.at_absent]
    exact gran32GetShort_keeps_gran16s hD hmissing
      (show Gran16.absent16.Wf IsWidth from trivial)
      (show Gran16.absent16.Wf IsWidth from trivial) addr hw

theorem gran64GetShort_keeps_gran32s
    {g1 g2 : Gran32 τ} (h1 : g1.Wf IsWidth) (h2 : g2.Wf IsWidth) (addr : I64)
    {which : ℕ} (hw : which = 0 ∨ which = 2 ∨ which = 4 ∨ which = 6) :
    Keeps I (gran64GetShort D (.gran32s g1 g2) missing addr which) fun r =>
      r.2.Wf IsWidth ∧
        Fetch D IsWidth .short 8 (allowedFrom R addr)
          ((Gran64.gran32s g1 g2).at D) (r.2.at D) which r.1 := by
  simp only [gran64GetShort]
  by_cases hlt : which < 4
  · rw [if_pos hlt]
    have hwhich : which = 0 ∨ which = 2 := by omega
    exact gran64Left_keeps h2 (Nat.add_le_of_le_sub (by decide) (by change which ≤ 2; omega))
      (gran32GetShort_keeps hD hmissing h1 addr hwhich)
  · rw [if_neg hlt]
    exact gran64Right_keeps h1 (Nat.le_of_not_lt hlt)
      (gran32GetShort_keeps hD hmissing h2 _ (by omega))

theorem gran64GetShort_keeps
    {g : Gran64 τ} (hg : g.Wf IsWidth) (addr : I64) {which : ℕ}
    (hw : which = 0 ∨ which = 2 ∨ which = 4 ∨ which = 6) :
    Keeps I (gran64GetShort D g missing addr which) fun r =>
      r.2.Wf IsWidth ∧
        Fetch D IsWidth .short 8 (allowedFrom R addr) (g.at D) (r.2.at D) which
          r.1 := by
  cases g with
  | long l =>
    refine .pure ⟨hg, .present (extract16From64_isWidth hD hg hw) ?_⟩
    intro i hi
    exact congrArg some (extract16From64_bytes hD hg hw hi).symm
  | gran32s g1 g2 =>
    exact gran64GetShort_keeps_gran32s hD hmissing hg.1 hg.2 addr hw
  | absent64 =>
    rw [← Gran64.at_absent]
    exact gran64GetShort_keeps_gran32s hD hmissing
      (show Gran32.absent32.Wf IsWidth from trivial)
      (show Gran32.absent32.Wf IsWidth from trivial) addr hw

theorem gran32GetWord_keeps
    {g : Gran32 τ} (hg : g.Wf IsWidth) (addr : I64) :
    Keeps I (gran32GetWord D g missing addr) fun r =>
      r.2.Wf IsWidth ∧
        Fetch D IsWidth .word 4 (allowedFrom R addr) (g.at D) (r.2.at D) 0
          r.1 := by
  cases g with
  | word w =>
    refine .pure ⟨hg, .present hg ?_⟩
    intro i hi
    rw [Nat.zero_add]
    rfl
  | gran16s g1 g2 =>
    have h2 := gran16GetShort_keeps hD hmissing hg.2 (addr + BitVec.ofNat 64 2)
    rw [allowedFrom_add] at h2
    refine (gran16GetShort_keeps hD hmissing hg.1 addr).bind ?_
    rintro ⟨s1, g1'⟩ ⟨hwf1, hfetch1⟩
    refine h2.bind ?_
    rintro ⟨s2, g2'⟩ ⟨hwf2, hfetch2⟩
    refine .pure ⟨⟨hwf1, hwf2⟩, ?_⟩
    exact hfetch1.join hfetch2
      (hD.reassemble32 s1 s2 hfetch1.width hfetch2.width)
      (joins_reassemble32 hD hfetch1.width hfetch2.width)
  | absent32 =>
    refine (fetch_absent hmissing .word addr rfl fun _ _ _ => rfl).bind ?_
    intro v hv
    exact .pure ⟨hv.width, hv⟩

theorem gran64GetWord_keeps_gran32s
    {g1 g2 : Gran32 τ} (h1 : g1.Wf IsWidth) (h2 : g2.Wf IsWidth) (addr : I64)
    {which : ℕ} (hw : which = 0 ∨ which = 4) :
    Keeps I (gran64GetWord D (.gran32s g1 g2) missing addr which) fun r =>
      r.2.Wf IsWidth ∧
        Fetch D IsWidth .word 8 (allowedFrom R addr)
          ((Gran64.gran32s g1 g2).at D) (r.2.at D) which r.1 := by
  simp only [gran64GetWord]
  obtain rfl | rfl := hw
  · rw [if_pos (by decide)]
    exact gran64Left_keeps h2 le_rfl (gran32GetWord_keeps hD hmissing h1 addr)
  · rw [if_neg (by decide)]
    exact gran64Right_keeps h1 le_rfl (gran32GetWord_keeps hD hmissing h2 _)

theorem gran64GetWord_keeps
    {g : Gran64 τ} (hg : g.Wf IsWidth) (addr : I64) {which : ℕ}
    (hw : which = 0 ∨ which = 4) :
    Keeps I (gran64GetWord D g missing addr which) fun r =>
      r.2.Wf IsWidth ∧
        Fetch D IsWidth .word 8 (allowedFrom R addr) (g.at D) (r.2.at D) which
          r.1 := by
  cases g with
  | long l =>
    refine .pure ⟨hg, .present (hD.extract32From64 l which hg hw) ?_⟩
    intro i hi
    exact congrArg some (extract32From64_bytes hD hg hw hi).symm
  | gran32s g1 g2 =>
    exact gran64GetWord_keeps_gran32s hD hmissing hg.1 hg.2 addr hw
  | absent64 =>
    rw [← Gran64.at_absent]
    exact gran64GetWord_keeps_gran32s hD hmissing
      (show Gran32.absent32.Wf IsWidth from trivial)
      (show Gran32.absent32.Wf IsWidth from trivial) addr hw

theorem gran64GetLong_keeps
    {g : Gran64 τ} (hg : g.Wf IsWidth) (addr : I64) :
    Keeps I (gran64GetLong D g missing addr) fun r =>
      r.2.Wf IsWidth ∧
        Fetch D IsWidth .long 8 (allowedFrom R addr) (g.at D) (r.2.at D) 0
          r.1 := by
  cases g with
  | long l =>
    refine .pure ⟨hg, .present hg ?_⟩
    intro i hi
    rw [Nat.zero_add]
    rfl
  | gran32s g1 g2 =>
    have h2 := gran32GetWord_keeps hD hmissing hg.2 (addr + BitVec.ofNat 64 4)
    rw [allowedFrom_add] at h2
    refine (gran32GetWord_keeps hD hmissing hg.1 addr).bind ?_
    rintro ⟨w1, g1'⟩ ⟨hwf1, hfetch1⟩
    refine h2.bind ?_
    rintro ⟨w2, g2'⟩ ⟨hwf2, hfetch2⟩
    refine .pure ⟨⟨hwf1, hwf2⟩, ?_⟩
    exact hfetch1.join hfetch2
      (hD.reassemble64 w1 w2 hfetch1.width hfetch2.width)
      (joins_reassemble64 hD hfetch1.width hfetch2.width)
  | absent64 =>
    refine (fetch_absent hmissing .long addr rfl fun _ _ _ => rfl).bind ?_
    intro v hv
    exact .pure ⟨hv.width, hv⟩

end Gets

end Fuzzball.Granular
