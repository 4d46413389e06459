import Fuzzball.GranularMemory

/-!
# The bytes of a tree

A tree is present at some of its bytes.  On the bytes, putting a part is an
update, merging is an overlay, and reading a part reassembles them.
-/

namespace Fuzzball.Granular

variable {σ τ : Type}

/-- The values of each width, on which splitting and reassembling are inverse
to each other and the extractions agree. -/
structure LawfulDomain (D : Domain τ) (IsWidth : ℕ → τ → Prop) : Prop where
  extract8From16 : ∀ s i, IsWidth 16 s → i < 2 → IsWidth 8 (D.extract8From16 s i)
  extract16From32 : ∀ w i, IsWidth 32 w → i = 0 ∨ i = 2 →
    IsWidth 16 (D.extract16From32 w i)
  extract32From64 : ∀ l i, IsWidth 64 l → i = 0 ∨ i = 4 →
    IsWidth 32 (D.extract32From64 l i)
  reassemble16 : ∀ a b, IsWidth 8 a → IsWidth 8 b →
    IsWidth 16 (D.reassemble16 a b)
  reassemble32 : ∀ a b, IsWidth 16 a → IsWidth 16 b →
    IsWidth 32 (D.reassemble32 a b)
  reassemble64 : ∀ a b, IsWidth 32 a → IsWidth 32 b →
    IsWidth 64 (D.reassemble64 a b)
  split16_reassemble : ∀ a b, IsWidth 8 a → IsWidth 8 b →
    split16 D (D.reassemble16 a b) = (a, b)
  split32_reassemble : ∀ a b, IsWidth 16 a → IsWidth 16 b →
    split32 D (D.reassemble32 a b) = (a, b)
  split64_reassemble : ∀ a b, IsWidth 32 a → IsWidth 32 b →
    split64 D (D.reassemble64 a b) = (a, b)
  reassemble16_split : ∀ s, IsWidth 16 s →
    D.reassemble16 (split16 D s).1 (split16 D s).2 = s
  reassemble32_split : ∀ w, IsWidth 32 w →
    D.reassemble32 (split32 D w).1 (split32 D w).2 = w
  reassemble64_split : ∀ l, IsWidth 64 l →
    D.reassemble64 (split64 D l).1 (split64 D l).2 = l
  extract8From32 : ∀ w i, IsWidth 32 w → i < 2 →
    D.extract8From32 w i = D.extract8From16 (split32 D w).1 i ∧
      D.extract8From32 w (i + 2) = D.extract8From16 (split32 D w).2 i
  extract8From64 : ∀ l i, IsWidth 64 l → i < 4 →
    D.extract8From64 l i = D.extract8From32 (split64 D l).1 i ∧
      D.extract8From64 l (i + 4) = D.extract8From32 (split64 D l).2 i
  extract16From64 : ∀ l i, IsWidth 64 l → i = 0 ∨ i = 2 →
    D.extract16From64 l i = D.extract16From32 (split64 D l).1 i ∧
      D.extract16From64 l (i + 4) = D.extract16From32 (split64 D l).2 i
  measureSize_pos : ∀ v, 0 < D.measureSize v

/-! ## Presence -/

def Gran8.at : Gran8 τ → Option τ
  | .byte b => some b
  | .absent8 => none

variable (D : Domain τ)

/-- The byte of a tree at an offset, where it is present. -/
def Gran16.at : Gran16 τ → ℕ → Option τ
  | .short s, i => some (D.extract8From16 s i)
  | .gran8s g1 g2, i => if i < 1 then g1.at else g2.at
  | .absent16, _ => none

def Gran32.at : Gran32 τ → ℕ → Option τ
  | .word w, i => some (D.extract8From32 w i)
  | .gran16s g1 g2, i => if i < 2 then g1.at D i else g2.at D (i - 2)
  | .absent32, _ => none

def Gran64.at : Gran64 τ → ℕ → Option τ
  | .long l, i => some (D.extract8From64 l i)
  | .gran32s g1 g2, i => if i < 4 then g1.at D i else g2.at D (i - 4)
  | .absent64, _ => none

variable {D} (IsWidth : ℕ → τ → Prop)

/-- Every value in the tree has the width of its place. -/
def Gran8.Wf : Gran8 τ → Prop
  | .byte b => IsWidth 8 b
  | .absent8 => True

def Gran16.Wf : Gran16 τ → Prop
  | .short s => IsWidth 16 s
  | .gran8s g1 g2 => g1.Wf IsWidth ∧ g2.Wf IsWidth
  | .absent16 => True

def Gran32.Wf : Gran32 τ → Prop
  | .word w => IsWidth 32 w
  | .gran16s g1 g2 => g1.Wf IsWidth ∧ g2.Wf IsWidth
  | .absent32 => True

def Gran64.Wf : Gran64 τ → Prop
  | .long l => IsWidth 64 l
  | .gran32s g1 g2 => g1.Wf IsWidth ∧ g2.Wf IsWidth
  | .absent64 => True

variable {IsWidth}

/-! ## Splitting -/

theorem gran16Split_at (g : Gran16 τ) {i : ℕ} (hi : i < 2) :
    g.at D i =
      if i < 1 then (gran16Split D g).1.at else (gran16Split D g).2.at := by
  cases g with
  | short s =>
    obtain rfl | rfl : i = 0 ∨ i = 1 := by omega
    · rfl
    · rfl
  | gran8s g1 g2 => rfl
  | absent16 => split_ifs <;> rfl

section Lawful

variable (hD : LawfulDomain D IsWidth)

include hD

theorem gran16Split_wf {g : Gran16 τ} (hg : g.Wf IsWidth) :
    (gran16Split D g).1.Wf IsWidth ∧ (gran16Split D g).2.Wf IsWidth := by
  cases g with
  | short s =>
    exact ⟨hD.extract8From16 s 0 hg (by decide),
      hD.extract8From16 s 1 hg (by decide)⟩
  | gran8s g1 g2 => exact hg
  | absent16 => exact ⟨trivial, trivial⟩

theorem gran32Split_wf {g : Gran32 τ} (hg : g.Wf IsWidth) :
    (gran32Split D g).1.Wf IsWidth ∧ (gran32Split D g).2.Wf IsWidth := by
  cases g with
  | word w =>
    exact ⟨hD.extract16From32 w 0 hg (.inl rfl),
      hD.extract16From32 w 2 hg (.inr rfl)⟩
  | gran16s g1 g2 => exact hg
  | absent32 => exact ⟨trivial, trivial⟩

theorem gran64Split_wf {g : Gran64 τ} (hg : g.Wf IsWidth) :
    (gran64Split D g).1.Wf IsWidth ∧ (gran64Split D g).2.Wf IsWidth := by
  cases g with
  | long l =>
    exact ⟨hD.extract32From64 l 0 hg (.inl rfl),
      hD.extract32From64 l 4 hg (.inr rfl)⟩
  | gran32s g1 g2 => exact hg
  | absent64 => exact ⟨trivial, trivial⟩

theorem gran32Split_at {g : Gran32 τ} (hg : g.Wf IsWidth) {i : ℕ} (hi : i < 4) :
    g.at D i =
      if i < 2 then (gran32Split D g).1.at D i
      else (gran32Split D g).2.at D (i - 2) := by
  cases g with
  | word w =>
    by_cases hlt : i < 2
    · rw [if_pos hlt]
      exact congrArg some (hD.extract8From32 w i hg hlt).1
    · obtain ⟨j, rfl⟩ := Nat.exists_eq_add_of_le' (Nat.le_of_not_lt hlt)
      rw [if_neg hlt, Nat.add_sub_cancel]
      exact congrArg some (hD.extract8From32 w j hg (by omega)).2
  | gran16s g1 g2 => rfl
  | absent32 => split_ifs <;> rfl

theorem gran64Split_at {g : Gran64 τ} (hg : g.Wf IsWidth) {i : ℕ} (hi : i < 8) :
    g.at D i =
      if i < 4 then (gran64Split D g).1.at D i
      else (gran64Split D g).2.at D (i - 4) := by
  cases g with
  | long l =>
    by_cases hlt : i < 4
    · rw [if_pos hlt]
      exact congrArg some (hD.extract8From64 l i hg hlt).1
    · obtain ⟨j, rfl⟩ := Nat.exists_eq_add_of_le' (Nat.le_of_not_lt hlt)
      rw [if_neg hlt, Nat.add_sub_cancel]
      exact congrArg some (hD.extract8From64 l j hg (by omega)).2
  | gran32s g1 g2 => rfl
  | absent64 => split_ifs <;> rfl

/-! ## Putting a part -/

omit hD in
theorem gran16PutByte_at
    (g : Gran16 τ) (b : τ) {which i : ℕ} (hw : which < 2) (hi : i < 2) :
    (gran16PutByte D g which b).at D i =
      if i = which then some b else g.at D i := by
  rw [gran16Split_at g hi]
  obtain rfl | rfl : which = 0 ∨ which = 1 := by omega
  · obtain rfl | rfl : i = 0 ∨ i = 1 := by omega
    · rfl
    · rfl
  · obtain rfl | rfl : i = 0 ∨ i = 1 := by omega
    · rfl
    · rfl

theorem gran16PutByte_wf
    {g : Gran16 τ} (hg : g.Wf IsWidth) {b : τ} (hb : IsWidth 8 b) (which : ℕ) :
    (gran16PutByte D g which b).Wf IsWidth := by
  obtain ⟨h1, h2⟩ := gran16Split_wf hD hg
  unfold gran16PutByte
  split_ifs
  · exact ⟨hb, h2⟩
  · exact ⟨h1, hb⟩

theorem gran32PutByte_at
    {g : Gran32 τ} (hg : g.Wf IsWidth) (b : τ) {which i : ℕ} (hw : which < 4)
    (hi : i < 4) :
    (gran32PutByte D g which b).at D i =
      if i = which then some b else g.at D i := by
  rw [gran32Split_at hD hg hi, gran32PutByte]
  by_cases hwhich : which < 2
  · rw [if_pos hwhich, Gran32.at]
    by_cases hlt : i < 2
    · rw [if_pos hlt, if_pos hlt, gran16PutByte_at _ b hwhich hlt]
    · rw [if_neg hlt, if_neg hlt, if_neg (by omega)]
  · rw [if_neg hwhich, Gran32.at]
    by_cases hlt : i < 2
    · rw [if_pos hlt, if_pos hlt, if_neg (by omega)]
    · rw [if_neg hlt, if_neg hlt, gran16PutByte_at _ b (by omega) (by omega)]
      exact if_congr (by omega) rfl rfl

theorem gran32PutByte_wf
    {g : Gran32 τ} (hg : g.Wf IsWidth) {b : τ} (hb : IsWidth 8 b) (which : ℕ) :
    (gran32PutByte D g which b).Wf IsWidth := by
  obtain ⟨h1, h2⟩ := gran32Split_wf hD hg
  unfold gran32PutByte
  split_ifs
  · exact ⟨gran16PutByte_wf hD h1 hb which, h2⟩
  · exact ⟨h1, gran16PutByte_wf hD h2 hb (which - 2)⟩

theorem gran64PutByte_at
    {g : Gran64 τ} (hg : g.Wf IsWidth) (b : τ) {which i : ℕ} (hw : which < 8)
    (hi : i < 8) :
    (gran64PutByte D g which b).at D i =
      if i = which then some b else g.at D i := by
  obtain ⟨h1, h2⟩ := gran64Split_wf hD hg
  rw [gran64Split_at hD hg hi, gran64PutByte]
  by_cases hwhich : which < 4
  · rw [if_pos hwhich, Gran64.at]
    by_cases hlt : i < 4
    · rw [if_pos hlt, if_pos hlt, gran32PutByte_at hD h1 b hwhich hlt]
    · rw [if_neg hlt, if_neg hlt, if_neg (by omega)]
  · rw [if_neg hwhich, Gran64.at]
    by_cases hlt : i < 4
    · rw [if_pos hlt, if_pos hlt, if_neg (by omega)]
    · rw [if_neg hlt, if_neg hlt,
        gran32PutByte_at hD h2 b (by omega) (by omega)]
      exact if_congr (by omega) rfl rfl

theorem gran64PutByte_wf
    {g : Gran64 τ} (hg : g.Wf IsWidth) {b : τ} (hb : IsWidth 8 b) (which : ℕ) :
    (gran64PutByte D g which b).Wf IsWidth := by
  obtain ⟨h1, h2⟩ := gran64Split_wf hD hg
  unfold gran64PutByte
  split_ifs
  · exact ⟨gran32PutByte_wf hD h1 hb which, h2⟩
  · exact ⟨h1, gran32PutByte_wf hD h2 hb (which - 4)⟩

theorem gran32PutShort_at
    {g : Gran32 τ} (hg : g.Wf IsWidth) (s : τ) {which i : ℕ}
    (hw : which = 0 ∨ which = 2) (hi : i < 4) :
    (gran32PutShort D g which s).at D i =
      if which ≤ i ∧ i < which + 2 then some (D.extract8From16 s (i - which))
      else g.at D i := by
  rw [gran32Split_at hD hg hi, gran32PutShort]
  rcases hw with rfl | rfl
  · rw [if_pos (by decide), Gran32.at]
    by_cases hlt : i < 2
    · rw [if_pos hlt, if_pos (by omega)]
      rfl
    · rw [if_neg hlt, if_neg (by omega), if_neg hlt]
  · rw [if_neg (by decide), Gran32.at]
    by_cases hlt : i < 2
    · rw [if_pos hlt, if_neg (by omega), if_pos hlt]
    · rw [if_neg hlt, if_pos (by omega)]
      rfl

theorem gran32PutShort_wf
    {g : Gran32 τ} (hg : g.Wf IsWidth) {s : τ} (hs : IsWidth 16 s) (which : ℕ) :
    (gran32PutShort D g which s).Wf IsWidth := by
  obtain ⟨h1, h2⟩ := gran32Split_wf hD hg
  unfold gran32PutShort
  split_ifs
  · exact ⟨hs, h2⟩
  · exact ⟨h1, hs⟩

theorem gran64PutShort_at
    {g : Gran64 τ} (hg : g.Wf IsWidth) (s : τ) {which i : ℕ}
    (hw : which = 0 ∨ which = 2 ∨ which = 4 ∨ which = 6) (hi : i < 8) :
    (gran64PutShort D g which s).at D i =
      if which ≤ i ∧ i < which + 2 then some (D.extract8From16 s (i - which))
      else g.at D i := by
  obtain ⟨h1, h2⟩ := gran64Split_wf hD hg
  rw [gran64Split_at hD hg hi, gran64PutShort]
  by_cases hwhich : which < 4
  · rw [if_pos hwhich, Gran64.at]
    by_cases hlt : i < 4
    · rw [if_pos hlt, if_pos hlt, gran32PutShort_at hD h1 s (by omega) hlt]
    · rw [if_neg hlt, if_neg hlt, if_neg (by omega)]
  · rw [if_neg hwhich, Gran64.at]
    by_cases hlt : i < 4
    · rw [if_pos hlt, if_pos hlt, if_neg (by omega)]
    · have hsub : i - 4 - (which - 4) = i - which := by omega
      rw [if_neg hlt, if_neg hlt,
        gran32PutShort_at hD h2 s (by omega) (by omega), hsub]
      exact if_congr (by omega) rfl rfl

theorem gran64PutShort_wf
    {g : Gran64 τ} (hg : g.Wf IsWidth) {s : τ} (hs : IsWidth 16 s) (which : ℕ) :
    (gran64PutShort D g which s).Wf IsWidth := by
  obtain ⟨h1, h2⟩ := gran64Split_wf hD hg
  unfold gran64PutShort
  split_ifs
  · exact ⟨gran32PutShort_wf hD h1 hs which, h2⟩
  · exact ⟨h1, gran32PutShort_wf hD h2 hs (which - 4)⟩

theorem gran64PutWord_at
    {g : Gran64 τ} (hg : g.Wf IsWidth) (w : τ) {which i : ℕ}
    (hw : which = 0 ∨ which = 4) (hi : i < 8) :
    (gran64PutWord D g which w).at D i =
      if which ≤ i ∧ i < which + 4 then some (D.extract8From32 w (i - which))
      else g.at D i := by
  rw [gran64Split_at hD hg hi, gran64PutWord]
  rcases hw with rfl | rfl
  · rw [if_pos (by decide), Gran64.at]
    by_cases hlt : i < 4
    · rw [if_pos hlt, if_pos (by omega)]
      rfl
    · rw [if_neg hlt, if_neg (by omega), if_neg hlt]
  · rw [if_neg (by decide), Gran64.at]
    by_cases hlt : i < 4
    · rw [if_pos hlt, if_neg (by omega), if_pos hlt]
    · rw [if_neg hlt, if_pos (by omega)]
      rfl

theorem gran64PutWord_wf
    {g : Gran64 τ} (hg : g.Wf IsWidth) {w : τ} (hw : IsWidth 32 w) (which : ℕ) :
    (gran64PutWord D g which w).Wf IsWidth := by
  obtain ⟨h1, h2⟩ := gran64Split_wf hD hg
  unfold gran64PutWord
  split_ifs
  · exact ⟨hw, h2⟩
  · exact ⟨h1, hw⟩

/-! ## Merging -/

omit hD in
theorem merge8_at (src dst : Gran8 τ) :
    (merge8 src dst).at = src.at.or dst.at := by
  cases src <;> cases dst <;> rfl

omit hD in
theorem merge8_wf
    {src dst : Gran8 τ} (hs : src.Wf IsWidth) (hd : dst.Wf IsWidth) :
    (merge8 src dst).Wf IsWidth := by
  cases src <;> cases dst <;> first | exact hs | exact hd

omit hD in
theorem merge16_cases (src dst : Gran16 τ) :
    (src = .absent16 ∧ merge16 D src dst = dst) ∨
      ((∃ s, src = .short s) ∧ merge16 D src dst = src) ∨
        merge16 D src dst =
          .gran8s (merge8 (gran16Split D src).1 (gran16Split D dst).1)
            (merge8 (gran16Split D src).2 (gran16Split D dst).2) := by
  cases src with
  | short s =>
    cases dst with
    | gran8s d1 d2 => exact .inr (.inr rfl)
    | _ => exact .inr (.inl ⟨⟨s, rfl⟩, rfl⟩)
  | gran8s s1 s2 => cases dst <;> exact .inr (.inr rfl)
  | absent16 =>
    cases dst with
    | gran8s d1 d2 => exact .inr (.inr rfl)
    | _ => exact .inl ⟨rfl, rfl⟩

omit hD in
theorem merge32_cases (src dst : Gran32 τ) :
    (src = .absent32 ∧ merge32 D src dst = dst) ∨
      ((∃ w, src = .word w) ∧ merge32 D src dst = src) ∨
        merge32 D src dst =
          .gran16s (merge16 D (gran32Split D src).1 (gran32Split D dst).1)
            (merge16 D (gran32Split D src).2 (gran32Split D dst).2) := by
  cases src with
  | word w =>
    cases dst with
    | gran16s d1 d2 => exact .inr (.inr rfl)
    | _ => exact .inr (.inl ⟨⟨w, rfl⟩, rfl⟩)
  | gran16s s1 s2 => cases dst <;> exact .inr (.inr rfl)
  | absent32 =>
    cases dst with
    | gran16s d1 d2 => exact .inr (.inr rfl)
    | _ => exact .inl ⟨rfl, rfl⟩

omit hD in
theorem merge64_cases (src dst : Gran64 τ) :
    (src = .absent64 ∧ merge64 D src dst = dst) ∨
      ((∃ l, src = .long l) ∧ merge64 D src dst = src) ∨
        merge64 D src dst =
          .gran32s (merge32 D (gran64Split D src).1 (gran64Split D dst).1)
            (merge32 D (gran64Split D src).2 (gran64Split D dst).2) := by
  cases src with
  | long l =>
    cases dst with
    | gran32s d1 d2 => exact .inr (.inr rfl)
    | _ => exact .inr (.inl ⟨⟨l, rfl⟩, rfl⟩)
  | gran32s s1 s2 => cases dst <;> exact .inr (.inr rfl)
  | absent64 =>
    cases dst with
    | gran32s d1 d2 => exact .inr (.inr rfl)
    | _ => exact .inl ⟨rfl, rfl⟩

omit hD in
theorem merge16_at (src dst : Gran16 τ) {i : ℕ} (hi : i < 2) :
    (merge16 D src dst).at D i = (src.at D i).or (dst.at D i) := by
  obtain ⟨rfl, h⟩ | ⟨⟨s, rfl⟩, h⟩ | h := merge16_cases (D := D) src dst
  · rw [h]
    rfl
  · rw [h]
    rfl
  · rw [h, gran16Split_at src hi, gran16Split_at dst hi, Gran16.at, merge8_at,
      merge8_at]
    split_ifs <;> rfl

theorem merge16_wf
    {src dst : Gran16 τ} (hs : src.Wf IsWidth) (hd : dst.Wf IsWidth) :
    (merge16 D src dst).Wf IsWidth := by
  obtain ⟨hs1, hs2⟩ := gran16Split_wf hD hs
  obtain ⟨hd1, hd2⟩ := gran16Split_wf hD hd
  obtain ⟨-, h⟩ | ⟨-, h⟩ | h := merge16_cases (D := D) src dst
  · rwa [h]
  · rwa [h]
  · rw [h]
    exact ⟨merge8_wf hs1 hd1, merge8_wf hs2 hd2⟩

theorem merge32_at
    {src dst : Gran32 τ} (hs : src.Wf IsWidth) (hd : dst.Wf IsWidth) {i : ℕ}
    (hi : i < 4) :
    (merge32 D src dst).at D i = (src.at D i).or (dst.at D i) := by
  obtain ⟨rfl, h⟩ | ⟨⟨w, rfl⟩, h⟩ | h := merge32_cases (D := D) src dst
  · rw [h]
    rfl
  · rw [h]
    rfl
  · rw [h, gran32Split_at hD hs hi, gran32Split_at hD hd hi, Gran32.at]
    by_cases hlt : i < 2
    · rw [if_pos hlt, if_pos hlt, if_pos hlt, merge16_at _ _ hlt]
    · rw [if_neg hlt, if_neg hlt, if_neg hlt, merge16_at _ _ (by omega)]

theorem merge32_wf
    {src dst : Gran32 τ} (hs : src.Wf IsWidth) (hd : dst.Wf IsWidth) :
    (merge32 D src dst).Wf IsWidth := by
  obtain ⟨hs1, hs2⟩ := gran32Split_wf hD hs
  obtain ⟨hd1, hd2⟩ := gran32Split_wf hD hd
  obtain ⟨-, h⟩ | ⟨-, h⟩ | h := merge32_cases (D := D) src dst
  · rwa [h]
  · rwa [h]
  · rw [h]
    exact ⟨merge16_wf hD hs1 hd1, merge16_wf hD hs2 hd2⟩

/-- A merge takes the bytes of the source where they are present. -/
theorem merge64_at
    {src dst : Gran64 τ} (hs : src.Wf IsWidth) (hd : dst.Wf IsWidth) {i : ℕ}
    (hi : i < 8) :
    (merge64 D src dst).at D i = (src.at D i).or (dst.at D i) := by
  obtain ⟨hs1, hs2⟩ := gran64Split_wf hD hs
  obtain ⟨hd1, hd2⟩ := gran64Split_wf hD hd
  obtain ⟨rfl, h⟩ | ⟨⟨l, rfl⟩, h⟩ | h := merge64_cases (D := D) src dst
  · rw [h]
    rfl
  · rw [h]
    rfl
  · rw [h, gran64Split_at hD hs hi, gran64Split_at hD hd hi, Gran64.at]
    by_cases hlt : i < 4
    · rw [if_pos hlt, if_pos hlt, if_pos hlt, merge32_at hD hs1 hd1 hlt]
    · rw [if_neg hlt, if_neg hlt, if_neg hlt,
        merge32_at hD hs2 hd2 (by omega)]

theorem merge64_wf
    {src dst : Gran64 τ} (hs : src.Wf IsWidth) (hd : dst.Wf IsWidth) :
    (merge64 D src dst).Wf IsWidth := by
  obtain ⟨hs1, hs2⟩ := gran64Split_wf hD hs
  obtain ⟨hd1, hd2⟩ := gran64Split_wf hD hd
  obtain ⟨-, h⟩ | ⟨-, h⟩ | h := merge64_cases (D := D) src dst
  · rwa [h]
  · rwa [h]
  · rw [h]
    exact ⟨merge32_wf hD hs1 hd1, merge32_wf hD hs2 hd2⟩

end Lawful

end Fuzzball.Granular
