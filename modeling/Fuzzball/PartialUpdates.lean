import Fuzzball.ConcreteDomain
import Fuzzball.SymbolicDomain
import Mathlib.Data.Nat.Digits.Defs

/-!
# Changing some bytes of a value

`change_some_short_bytes`, `change_some_word_bytes` and
`change_some_long_bytes` of `fragment_machine.ml` take a value apart into
bytes, replace the given ones and put the bytes together again.
-/

namespace Fuzzball.FragmentMachine

open Vine

variable {τ α : Type}

/-! ## The functions -/

/-- The operations of a domain on parts. -/
structure PartsDomain (τ : Type) where
  extract8From64 : τ → ℕ → OCaml τ
  extract8From32 : τ → ℕ → OCaml τ
  extract8From16 : τ → ℕ → OCaml τ
  extract16From64 : τ → ℕ → OCaml τ
  extract16From32 : τ → ℕ → OCaml τ
  extract32From64 : τ → ℕ → OCaml τ
  reassemble16 : τ → τ → OCaml τ
  reassemble32 : τ → τ → OCaml τ
  reassemble64 : τ → τ → OCaml τ

def symbolicParts (f : SymbolicDomain.Folding) : PartsDomain Exp where
  extract8From64 := SymbolicDomain.extract8From64
  extract8From32 := SymbolicDomain.extract8From32
  extract8From16 := SymbolicDomain.extract8From16
  extract16From64 := SymbolicDomain.extract16From64
  extract16From32 := SymbolicDomain.extract16From32
  extract32From64 := SymbolicDomain.extract32From64
  reassemble16 := SymbolicDomain.reassemble16 f
  reassemble32 := SymbolicDomain.reassemble32 f
  reassemble64 := SymbolicDomain.reassemble64 f

def concreteParts (wild : WildShift) : PartsDomain I64 where
  extract8From64 v i := pure (ConcreteDomain.extract8From64 wild v i)
  extract8From32 v i := pure (ConcreteDomain.extract8From32 wild v i)
  extract8From16 v i := pure (ConcreteDomain.extract8From16 wild v i)
  extract16From64 v i := pure (ConcreteDomain.extract16From64 wild v i)
  extract16From32 v i := pure (ConcreteDomain.extract16From32 wild v i)
  extract32From64 v i := pure (ConcreteDomain.extract32From64 wild v i)
  reassemble16 v v2 := pure (ConcreteDomain.reassemble16 wild v v2)
  reassemble32 v v2 := pure (ConcreteDomain.reassemble32 wild v v2)
  reassemble64 v v2 := pure (ConcreteDomain.reassemble64 wild v v2)

def select (construct : α → τ) (old : τ) : Option α → τ
  | none => old
  | some x => construct x

section Change

variable (D : PartsDomain τ) (simplify : τ → τ) (d : τ)

/-- `simplify` is the method `simplify16` of the formula manager. -/
def changeSomeShortBytes (bytes : Fin 2 → Option α) (construct : α → τ) :
    OCaml τ := do
  let o0 ← D.extract8From16 d 0
  let o1 ← D.extract8From16 d 1
  let b0 := select construct o0 (bytes 0)
  let b1 := select construct o1 (bytes 1)
  pure (simplify (← D.reassemble16 b0 b1))

def changeSomeWordBytes (bytes : Fin 4 → Option α) (construct : α → τ) :
    OCaml τ := do
  let o0 ← D.extract8From32 d 0
  let o1 ← D.extract8From32 d 1
  let o2 ← D.extract8From32 d 2
  let o3 ← D.extract8From32 d 3
  let b0 := select construct o0 (bytes 0)
  let b1 := select construct o1 (bytes 1)
  let b2 := select construct o2 (bytes 2)
  let b3 := select construct o3 (bytes 3)
  pure (simplify (← D.reassemble32 (← D.reassemble16 b0 b1)
    (← D.reassemble16 b2 b3)))

def changeSomeLongBytes (bytes : Fin 8 → Option α) (construct : α → τ) :
    OCaml τ := do
  let o0 ← D.extract8From32 d 0
  let o1 ← D.extract8From32 d 1
  let o2 ← D.extract8From32 d 2
  let o3 ← D.extract8From32 d 3
  let o4 ← D.extract8From32 d 4
  let o5 ← D.extract8From32 d 5
  let o6 ← D.extract8From32 d 6
  let o7 ← D.extract8From32 d 7
  let b0 := select construct o0 (bytes 0)
  let b1 := select construct o1 (bytes 1)
  let b2 := select construct o2 (bytes 2)
  let b3 := select construct o3 (bytes 3)
  let b4 := select construct o4 (bytes 4)
  let b5 := select construct o5 (bytes 5)
  let b6 := select construct o6 (bytes 6)
  let b7 := select construct o7 (bytes 7)
  pure (simplify (← D.reassemble64
    (← D.reassemble32 (← D.reassemble16 b0 b1) (← D.reassemble16 b2 b3))
    (← D.reassemble32 (← D.reassemble16 b4 b5) (← D.reassemble16 b6 b7))))

end Change

/-! ## Bytes of numbers -/

def byteAt (n i : ℕ) : ℕ := n / 256 ^ i % 256

theorem byteAt_lt (n i : ℕ) : byteAt n i < 256 := Nat.mod_lt _ (by norm_num)

section Bytes

variable {b n i : ℕ}

theorem byteAt_zero (hb : b < 256) (n : ℕ) : byteAt (b + 256 * n) 0 = b := by
  rw [byteAt, pow_zero, Nat.div_one, Nat.add_mul_mod_self_left,
    Nat.mod_eq_of_lt hb]

theorem byteAt_succ (hb : b < 256) (n i : ℕ) :
    byteAt (b + 256 * n) (i + 1) = byteAt n i := by
  rw [byteAt, byteAt, pow_succ', ← Nat.div_div_eq_div_mul,
    Nat.add_mul_div_left _ _ (by norm_num), Nat.div_eq_of_lt hb, Nat.zero_add]

end Bytes

theorem byteAt_ofDigits {bs : List ℕ} (hbs : ∀ b ∈ bs, b < 256) {i : ℕ}
    (hi : i < bs.length) : byteAt (Nat.ofDigits 256 bs) i = bs[i] := by
  induction bs generalizing i with
  | nil => cases hi
  | cons b bs ih =>
    have hb : b < 256 := hbs b List.mem_cons_self
    rw [Nat.ofDigits_cons]
    cases i with
    | zero => exact byteAt_zero hb _
    | succ i =>
      rw [byteAt_succ hb]
      exact ih (fun c hc => hbs c (List.mem_cons_of_mem b hc))
        (Nat.lt_of_succ_lt_succ hi)

/-! ## Lawful domains -/

/-- How the values of a domain are read as numbers. -/
structure Reading (τ : Type) where
  IsValue : Typ → τ → Prop
  number : Typ → τ → ℕ
  number_lt : ∀ t d, IsValue t d → number t d < 2 ^ t.width

def symbolicReading (ρ : Valuation WordMemory) : Reading Exp where
  IsValue := SymbolicDomain.IsValue
  number _ e := e.unsigned ρ
  number_lt _ _ he := he.unsigned_lt ρ

def concreteReading : Reading I64 where
  IsValue _ _ := True
  number t v := v.toNat % 2 ^ t.width
  number_lt _ _ _ := Nat.mod_lt _ (by positivity)

namespace Reading

variable (R : Reading τ)

/-- The part from the byte `i` on. -/
def IsPart (whole part : Typ) (d : τ) (i : ℕ) (res : OCaml τ) : Prop :=
  ∃ p, res = .ok p ∧ R.IsValue part p ∧
    R.number part p = R.number whole d / 256 ^ i % 2 ^ part.width

/-- The value with a low and a high half. -/
def IsJoin (part : Typ) (a b : τ) (res : OCaml τ) : Prop :=
  ∃ r, res = .ok r ∧ R.IsValue part.double r ∧
    R.number part.double r = R.number part a + 2 ^ part.width * R.number part b

/-- The halves of a value make the value, and the halves of what is made are
what it is made of. -/
def RoundTrips (part : Typ) (high : ℕ) (extract : τ → ℕ → OCaml τ)
    (reassemble : τ → τ → OCaml τ) : Prop :=
  (∀ d, R.IsValue part.double d → ∃ lo hi r, extract d 0 = .ok lo ∧
    extract d high = .ok hi ∧ reassemble lo hi = .ok r ∧
    R.IsValue part.double r ∧ R.number part.double r = R.number part.double d) ∧
  (∀ a b, R.IsValue part a → R.IsValue part b → ∃ r lo hi,
    reassemble a b = .ok r ∧ extract r 0 = .ok lo ∧ extract r high = .ok hi ∧
    R.number part lo = R.number part a ∧ R.number part hi = R.number part b)

end Reading

structure PartsDomain.Lawful (D : PartsDomain τ) (R : Reading τ) : Prop where
  extract8From64 : ∀ d i, R.IsValue .reg64 d → i < 8 →
    R.IsPart .reg64 .reg8 d i (D.extract8From64 d i)
  extract8From32 : ∀ d i, R.IsValue .reg32 d → i < 4 →
    R.IsPart .reg32 .reg8 d i (D.extract8From32 d i)
  extract8From16 : ∀ d i, R.IsValue .reg16 d → i = 0 ∨ i = 1 →
    R.IsPart .reg16 .reg8 d i (D.extract8From16 d i)
  extract16From64 : ∀ d i, R.IsValue .reg64 d → i < 7 →
    R.IsPart .reg64 .reg16 d i (D.extract16From64 d i)
  extract16From32 : ∀ d i, R.IsValue .reg32 d → i = 0 ∨ i = 2 →
    R.IsPart .reg32 .reg16 d i (D.extract16From32 d i)
  extract32From64 : ∀ d i, R.IsValue .reg64 d → i = 0 ∨ i = 4 →
    R.IsPart .reg64 .reg32 d i (D.extract32From64 d i)
  reassemble16 : ∀ a b, R.IsValue .reg8 a → R.IsValue .reg8 b →
    R.IsJoin .reg8 a b (D.reassemble16 a b)
  reassemble32 : ∀ a b, R.IsValue .reg16 a → R.IsValue .reg16 b →
    R.IsJoin .reg16 a b (D.reassemble32 a b)
  reassemble64 : ∀ a b, R.IsValue .reg32 a → R.IsValue .reg32 b →
    R.IsJoin .reg32 a b (D.reassemble64 a b)

theorem symbolicParts_lawful (f : SymbolicDomain.Folding)
    (ρ : Valuation WordMemory) :
    (symbolicParts f).Lawful (symbolicReading ρ) where
  extract8From64 _ _ he hi := SymbolicDomain.extract8From64_spec he hi
  extract8From32 _ _ he hi := SymbolicDomain.extract8From32_spec he hi
  extract8From16 _ _ he hi := SymbolicDomain.extract8From16_spec he hi
  extract16From64 _ _ he hi := SymbolicDomain.extract16From64_spec he hi
  extract16From32 _ _ he hi := SymbolicDomain.extract16From32_spec he hi
  extract32From64 _ _ he hi := SymbolicDomain.extract32From64_spec he hi
  reassemble16 _ _ ha hb := SymbolicDomain.reassemble16_spec ha hb
  reassemble32 _ _ ha hb := SymbolicDomain.reassemble32_spec ha hb
  reassemble64 _ _ ha hb := SymbolicDomain.reassemble64_spec ha hb

theorem isPart_concrete (wild : WildShift) (whole part : Typ) {i : ℕ}
    (hp : part.IsReg) (h : 8 * i + part.width ≤ whole.width) (v : I64) :
    concreteReading.IsPart whole part v i
      (.ok (ConcreteDomain.extract wild v i)) :=
  ⟨_, rfl, trivial,
    ConcreteDomain.extract_mod wild h whole.width_le hp.width_pos v⟩

theorem isJoin_concrete (wild : WildShift) {part : Typ} {mask : I64}
    (h : SymbolicDomain.IsHalf part)
    (hmask : mask = (BitVec.allOnes part.width).setWidth 64) (v v2 : I64) :
    concreteReading.IsJoin part v v2
      (.ok (ConcreteDomain.assemble wild mask part.width v v2)) := by
  have hle : part.width ≤ 32 := by
    rcases h with rfl | rfl | rfl <;> decide
  refine ⟨_, rfl, trivial, ?_⟩
  change _ % 2 ^ part.double.width = _
  rw [h.width_double]
  exact ConcreteDomain.assemble_mod wild h.isReg.width_pos hle hmask v v2

theorem concreteParts_lawful (wild : WildShift) :
    (concreteParts wild).Lawful concreteReading where
  extract8From64 v i _ hi :=
    isPart_concrete wild .reg64 .reg8 trivial (by simp; omega) v
  extract8From32 v i _ hi :=
    isPart_concrete wild .reg32 .reg8 trivial (by simp; omega) v
  extract8From16 v i _ hi :=
    isPart_concrete wild .reg16 .reg8 trivial (by simp; omega) v
  extract16From64 v i _ hi :=
    isPart_concrete wild .reg64 .reg16 trivial (by simp; omega) v
  extract16From32 v i _ hi :=
    isPart_concrete wild .reg32 .reg16 trivial (by simp; omega) v
  extract32From64 v i _ hi :=
    isPart_concrete wild .reg64 .reg32 trivial (by simp; omega) v
  reassemble16 v v2 _ _ := isJoin_concrete wild (.inl rfl) rfl v v2
  reassemble32 v v2 _ _ := isJoin_concrete wild (.inr (.inl rfl)) rfl v v2
  reassemble64 v v2 _ _ := isJoin_concrete wild (.inr (.inr rfl)) rfl v v2

/-! ## Round trips -/

section RoundTrips

variable {D : PartsDomain τ} {R : Reading τ} {part : Typ} {high : ℕ}
  {extract : τ → ℕ → OCaml τ} {reassemble : τ → τ → OCaml τ}

theorem roundTrips (hpart : SymbolicDomain.IsHalf part)
    (hhigh : 256 ^ high = 2 ^ part.width)
    (hextract : ∀ d i, R.IsValue part.double d → i = 0 ∨ i = high →
      R.IsPart part.double part d i (extract d i))
    (hjoin : ∀ a b, R.IsValue part a → R.IsValue part b →
      R.IsJoin part a b (reassemble a b)) :
    R.RoundTrips part high extract reassemble := by
  have hwidth := hpart.width_double
  constructor
  · intro d hd
    obtain ⟨lo, hlo, hvlo, hnlo⟩ := hextract d 0 hd (.inl rfl)
    obtain ⟨hi, hhi, hvhi, hnhi⟩ := hextract d high hd (.inr rfl)
    obtain ⟨r, hr, hvr, hnr⟩ := hjoin lo hi hvlo hvhi
    refine ⟨lo, hi, r, hlo, hhi, hr, hvr, ?_⟩
    have hlt := R.number_lt _ d hd
    rw [hwidth, pow_add] at hlt
    rw [hnr, hnlo, hnhi, hhigh, pow_zero, Nat.div_one,
      Nat.mod_eq_of_lt (Nat.div_lt_of_lt_mul hlt), Nat.mod_add_div]
  · intro a b ha hb
    obtain ⟨r, hr, hvr, hnr⟩ := hjoin a b ha hb
    obtain ⟨lo, hlo, -, hnlo⟩ := hextract r 0 hvr (.inl rfl)
    obtain ⟨hi, hhi, -, hnhi⟩ := hextract r high hvr (.inr rfl)
    have hlta := R.number_lt _ a ha
    have hltb := R.number_lt _ b hb
    refine ⟨r, lo, hi, hr, hlo, hhi, ?_, ?_⟩
    · rw [hnlo, hnr, pow_zero, Nat.div_one, Nat.add_mul_mod_self_left,
        Nat.mod_eq_of_lt hlta]
    · rw [hnhi, hnr, hhigh, Nat.add_mul_div_left _ _ (by positivity),
        Nat.div_eq_of_lt hlta, Nat.zero_add, Nat.mod_eq_of_lt hltb]

def PartsDomain.RoundTrips (D : PartsDomain τ) (R : Reading τ) : Prop :=
  R.RoundTrips .reg8 1 D.extract8From16 D.reassemble16 ∧
  R.RoundTrips .reg16 2 D.extract16From32 D.reassemble32 ∧
  R.RoundTrips .reg32 4 D.extract32From64 D.reassemble64

theorem PartsDomain.Lawful.roundTrips (hD : D.Lawful R) : D.RoundTrips R :=
  ⟨FragmentMachine.roundTrips (.inl rfl) rfl hD.extract8From16 hD.reassemble16,
    FragmentMachine.roundTrips (.inr (.inl rfl)) rfl hD.extract16From32
      hD.reassemble32,
    FragmentMachine.roundTrips (.inr (.inr rfl)) rfl hD.extract32From64
      hD.reassemble64⟩

end RoundTrips

/-! ## The changed value -/

/-- The given bytes are replaced, and the others are those of `kept`. -/
def Replaced {k : ℕ} (kept : ℕ → ℕ) (new : ℕ) (bytes : Fin k → Option ℕ) :
    Prop :=
  ∀ i : Fin k, byteAt new i = (bytes i).getD (kept i)

section Changed

variable {D : PartsDomain τ} {R : Reading τ} {simplify : τ → τ} {d : τ}
  {construct : α → τ} {kept : ℕ → ℕ} {k : ℕ}

/-- The numbers of the given bytes. -/
def given (R : Reading τ) (construct : α → τ) (bytes : Fin k → Option α) :
    Fin k → Option ℕ :=
  fun i => (bytes i).map fun x => R.number .reg8 (construct x)

/-- What a change returns, but for the simplification. -/
def ChangesTo (R : Reading τ) (whole : Typ) (simplify : τ → τ) (kept : ℕ → ℕ)
    (bytes : Fin k → Option ℕ) (res : OCaml τ) : Prop :=
  ∃ c, res = .ok (simplify c) ∧ R.IsValue whole c ∧
    Replaced kept (R.number whole c) bytes

/-- The extracted bytes are values that read as `kept`. -/
def ExtractsKept (R : Reading τ) (extract : τ → ℕ → OCaml τ) (d : τ)
    (kept : ℕ → ℕ) (k : ℕ) : Prop :=
  ∀ i < k, ∃ o, extract d i = .ok o ∧ R.IsValue .reg8 o ∧
    R.number .reg8 o = kept i

theorem select_spec (hconstruct : ∀ x, R.IsValue .reg8 (construct x)) {o : τ}
    (ho : R.IsValue .reg8 o) (b : Option α) :
    R.IsValue .reg8 (select construct o b) ∧
      R.number .reg8 (select construct o b) =
        (b.map fun x => R.number .reg8 (construct x)).getD
          (R.number .reg8 o) := by
  cases b with
  | none => exact ⟨ho, rfl⟩
  | some x => exact ⟨hconstruct x, rfl⟩

/-- The value reads as the number with the given bytes. -/
structure HasBytes (R : Reading τ) (t : Typ) (d : τ) (bs : List ℕ) : Prop where
  isValue : R.IsValue t d
  number_eq : R.number t d = Nat.ofDigits 256 bs

theorem HasBytes.join {part : Typ} {a b : τ} {as bs : List ℕ} {res : OCaml τ}
    (ha : HasBytes R part a as) (hb : HasBytes R part b bs)
    (hlength : 8 * as.length = part.width)
    (hjoin : R.IsJoin part a b res) :
    ∃ r, res = .ok r ∧ HasBytes R part.double r (as ++ bs) := by
  obtain ⟨r, hr, hv, hn⟩ := hjoin
  refine ⟨r, hr, hv, ?_⟩
  rw [hn, ha.number_eq, hb.number_eq, Nat.ofDigits_append, ← hlength, pow_mul]
  norm_num

/-- One byte: extracted, and perhaps replaced. -/
theorem select_kept (hconstruct : ∀ x, R.IsValue .reg8 (construct x))
    {extract : τ → ℕ → OCaml τ} (hkept : ExtractsKept R extract d kept k)
    (bytes : Fin k → Option α) (i : Fin k) :
    ∃ o, extract d i = .ok o ∧
      HasBytes R .reg8 (select construct o (bytes i))
        [(given R construct bytes i).getD (kept i)] := by
  obtain ⟨o, ho, hv, hn⟩ := hkept i i.isLt
  obtain ⟨hb, hs⟩ := select_spec hconstruct hv (bytes i)
  rw [hn] at hs
  exact ⟨o, ho, hb, hs.trans Nat.ofDigits_singleton.symm⟩

theorem select_lt (hconstruct : ∀ x, R.IsValue .reg8 (construct x))
    (hkept : ∀ i, kept i < 256) (bytes : Fin k → Option α) (i : Fin k) :
    (given R construct bytes i).getD (kept i) < 256 := by
  unfold given
  cases bytes i with
  | none => exact hkept i
  | some x => exact R.number_lt .reg8 _ (hconstruct x)

theorem replaced_ofDigits {bs : List ℕ} {bytes : Fin k → Option ℕ}
    (hlt : ∀ i : Fin k, (bytes i).getD (kept i) < 256)
    (hbs : bs = List.ofFn fun i : Fin k => (bytes i).getD (kept i)) :
    Replaced kept (Nat.ofDigits 256 bs) bytes := by
  subst hbs
  intro i
  have hall : ∀ b ∈ List.ofFn fun i : Fin k => (bytes i).getD (kept i),
      b < 256 := by
    intro b hb
    obtain ⟨j, rfl⟩ := (List.mem_ofFn' _ _).mp hb
    exact hlt j
  rw [byteAt_ofDigits hall (by simp), List.getElem_ofFn]

theorem changeSomeShortBytes_spec (hD : D.Lawful R)
    (hconstruct : ∀ x, R.IsValue .reg8 (construct x))
    (hlt : ∀ i, kept i < 256)
    (hkept : ExtractsKept R D.extract8From16 d kept 2)
    (bytes : Fin 2 → Option α) :
    ChangesTo R .reg16 simplify kept (given R construct bytes)
      (changeSomeShortBytes D simplify d bytes construct) := by
  have hbyte := select_kept hconstruct hkept bytes
  obtain ⟨o0, ho0, hb0⟩ := hbyte 0
  obtain ⟨o1, ho1, hb1⟩ := hbyte 1
  obtain ⟨s0, hs0, hbs0⟩ := hb0.join hb1 rfl
    (hD.reassemble16 _ _ hb0.isValue hb1.isValue)
  refine ⟨s0, ?_, hbs0.isValue, ?_⟩
  · unfold changeSomeShortBytes
    rw [show D.extract8From16 d 0 = _ from ho0,
      show D.extract8From16 d 1 = _ from ho1]
    simp only [OCaml.ok_bind, hs0]
    rfl
  · have hnumber := hbs0.number_eq
    change R.number .reg16 s0 = _ at hnumber
    rw [hnumber]
    exact replaced_ofDigits (select_lt hconstruct hlt bytes) rfl

theorem changeSomeWordBytes_spec (hD : D.Lawful R)
    (hconstruct : ∀ x, R.IsValue .reg8 (construct x))
    (hlt : ∀ i, kept i < 256)
    (hkept : ExtractsKept R D.extract8From32 d kept 4)
    (bytes : Fin 4 → Option α) :
    ChangesTo R .reg32 simplify kept (given R construct bytes)
      (changeSomeWordBytes D simplify d bytes construct) := by
  have hbyte := select_kept hconstruct hkept bytes
  obtain ⟨o0, ho0, hb0⟩ := hbyte 0
  obtain ⟨o1, ho1, hb1⟩ := hbyte 1
  obtain ⟨o2, ho2, hb2⟩ := hbyte 2
  obtain ⟨o3, ho3, hb3⟩ := hbyte 3
  obtain ⟨s0, hs0, hbs0⟩ := hb0.join hb1 rfl
    (hD.reassemble16 _ _ hb0.isValue hb1.isValue)
  obtain ⟨s1, hs1, hbs1⟩ := hb2.join hb3 rfl
    (hD.reassemble16 _ _ hb2.isValue hb3.isValue)
  obtain ⟨w0, hw0, hbw0⟩ := hbs0.join hbs1 rfl
    (hD.reassemble32 _ _ hbs0.isValue hbs1.isValue)
  refine ⟨w0, ?_, hbw0.isValue, ?_⟩
  · unfold changeSomeWordBytes
    rw [show D.extract8From32 d 0 = _ from ho0,
      show D.extract8From32 d 1 = _ from ho1,
      show D.extract8From32 d 2 = _ from ho2,
      show D.extract8From32 d 3 = _ from ho3]
    simp only [OCaml.ok_bind, hs0, hs1, hw0]
    rfl
  · have hnumber := hbw0.number_eq
    change R.number .reg32 w0 = _ at hnumber
    rw [hnumber]
    exact replaced_ofDigits (select_lt hconstruct hlt bytes) rfl

theorem changeSomeLongBytes_spec (hD : D.Lawful R)
    (hconstruct : ∀ x, R.IsValue .reg8 (construct x))
    (hlt : ∀ i, kept i < 256)
    (hkept : ExtractsKept R D.extract8From32 d kept 8)
    (bytes : Fin 8 → Option α) :
    ChangesTo R .reg64 simplify kept (given R construct bytes)
      (changeSomeLongBytes D simplify d bytes construct) := by
  have hbyte := select_kept hconstruct hkept bytes
  obtain ⟨o0, ho0, hb0⟩ := hbyte 0
  obtain ⟨o1, ho1, hb1⟩ := hbyte 1
  obtain ⟨o2, ho2, hb2⟩ := hbyte 2
  obtain ⟨o3, ho3, hb3⟩ := hbyte 3
  obtain ⟨o4, ho4, hb4⟩ := hbyte 4
  obtain ⟨o5, ho5, hb5⟩ := hbyte 5
  obtain ⟨o6, ho6, hb6⟩ := hbyte 6
  obtain ⟨o7, ho7, hb7⟩ := hbyte 7
  obtain ⟨s0, hs0, hbs0⟩ := hb0.join hb1 rfl
    (hD.reassemble16 _ _ hb0.isValue hb1.isValue)
  obtain ⟨s1, hs1, hbs1⟩ := hb2.join hb3 rfl
    (hD.reassemble16 _ _ hb2.isValue hb3.isValue)
  obtain ⟨s2, hs2, hbs2⟩ := hb4.join hb5 rfl
    (hD.reassemble16 _ _ hb4.isValue hb5.isValue)
  obtain ⟨s3, hs3, hbs3⟩ := hb6.join hb7 rfl
    (hD.reassemble16 _ _ hb6.isValue hb7.isValue)
  obtain ⟨w0, hw0, hbw0⟩ := hbs0.join hbs1 rfl
    (hD.reassemble32 _ _ hbs0.isValue hbs1.isValue)
  obtain ⟨w1, hw1, hbw1⟩ := hbs2.join hbs3 rfl
    (hD.reassemble32 _ _ hbs2.isValue hbs3.isValue)
  obtain ⟨l, hl, hbl⟩ := hbw0.join hbw1 rfl
    (hD.reassemble64 _ _ hbw0.isValue hbw1.isValue)
  refine ⟨l, ?_, hbl.isValue, ?_⟩
  · unfold changeSomeLongBytes
    rw [show D.extract8From32 d 0 = _ from ho0,
      show D.extract8From32 d 1 = _ from ho1,
      show D.extract8From32 d 2 = _ from ho2,
      show D.extract8From32 d 3 = _ from ho3,
      show D.extract8From32 d 4 = _ from ho4,
      show D.extract8From32 d 5 = _ from ho5,
      show D.extract8From32 d 6 = _ from ho6,
      show D.extract8From32 d 7 = _ from ho7]
    simp only [OCaml.ok_bind, hs0, hs1, hs2, hs3, hw0, hw1, hl]
    rfl
  · have hnumber := hbl.number_eq
    change R.number .reg64 l = _ at hnumber
    rw [hnumber]
    exact replaced_ofDigits (select_lt hconstruct hlt bytes) rfl

end Changed

/-! ## Updates -/

/-- The result is the value with the given bytes replaced and no others. -/
def Updates (R : Reading τ) (whole : Typ) (construct : α → τ) (d : τ) {k : ℕ}
    (bytes : Fin k → Option α) (res : OCaml τ) : Prop :=
  ∃ d', res = .ok d' ∧ R.IsValue whole d' ∧
    Replaced (byteAt (R.number whole d)) (R.number whole d')
      (given R construct bytes)

/-- A simplification that keeps the values. -/
def Keeps (R : Reading τ) (simplify : τ → τ) : Prop :=
  ∀ t d, R.IsValue t d →
    R.IsValue t (simplify d) ∧ R.number t (simplify d) = R.number t d

section Updates

variable {D : PartsDomain τ} {R : Reading τ} {simplify : τ → τ} {d : τ}
  {construct : α → τ} {kept : ℕ → ℕ} {k : ℕ} {whole : Typ}
  {bytes : Fin k → Option α} {res : OCaml τ}

theorem ChangesTo.updates (hkeeps : Keeps R simplify)
    (h : ChangesTo R whole simplify (byteAt (R.number whole d))
      (given R construct bytes) res) :
    Updates R whole construct d bytes res := by
  obtain ⟨c, hres, hv, hc⟩ := h
  obtain ⟨hv', hn⟩ := hkeeps whole c hv
  refine ⟨_, hres, hv', ?_⟩
  rw [hn]
  exact hc

/-- What the bytes that are kept have to be. -/
theorem ChangesTo.updates_iff (hkeeps : Keeps R simplify)
    (h : ChangesTo R whole simplify kept (given R construct bytes) res) :
    Updates R whole construct d bytes res ↔
      ∀ i : Fin k, (bytes i).isSome ∨
        kept i = byteAt (R.number whole d) i := by
  obtain ⟨c, hres, hv, hc⟩ := h
  obtain ⟨hv', hn⟩ := hkeeps whole c hv
  constructor
  · rintro ⟨d', hres', -, hd'⟩ i
    rw [hres] at hres'
    cases hres'
    rw [hn] at hd'
    have heq := (hc i).symm.trans (hd' i)
    unfold given at heq
    cases hbyte : bytes i with
    | none =>
      rw [hbyte] at heq
      exact .inr heq
    | some x => exact .inl rfl
  · intro hall
    refine ⟨_, hres, hv', ?_⟩
    intro i
    rw [hn, hc i]
    unfold given
    rcases hall i with hsome | hkept
    · obtain ⟨x, hx⟩ := Option.isSome_iff_exists.mp hsome
      rw [hx]
      rfl
    · rw [hkept]

theorem extractsKept_of_isPart {extract : τ → ℕ → OCaml τ}
    (h : ∀ i < k, R.IsPart whole .reg8 d i (extract d i)) :
    ExtractsKept R extract d (byteAt (R.number whole d)) k := h

theorem changeSomeShortBytes_updates (hD : D.Lawful R)
    (hkeeps : Keeps R simplify)
    (hconstruct : ∀ x, R.IsValue .reg8 (construct x))
    (hd : R.IsValue .reg16 d) (bytes : Fin 2 → Option α) :
    Updates R .reg16 construct d bytes
      (changeSomeShortBytes D simplify d bytes construct) := by
  apply ChangesTo.updates hkeeps
  apply changeSomeShortBytes_spec hD hconstruct (byteAt_lt _)
  apply extractsKept_of_isPart
  intro i hi
  exact hD.extract8From16 d i hd (by omega)

theorem changeSomeWordBytes_updates (hD : D.Lawful R)
    (hkeeps : Keeps R simplify)
    (hconstruct : ∀ x, R.IsValue .reg8 (construct x))
    (hd : R.IsValue .reg32 d) (bytes : Fin 4 → Option α) :
    Updates R .reg32 construct d bytes
      (changeSomeWordBytes D simplify d bytes construct) := by
  apply ChangesTo.updates hkeeps
  apply changeSomeWordBytes_spec hD hconstruct (byteAt_lt _)
  apply extractsKept_of_isPart
  intro i hi
  exact hD.extract8From32 d i hd hi

end Updates

section Long

variable {f : SymbolicDomain.Folding} {ρ : Valuation WordMemory}
  {wild : WildShift} {simplify : Exp → Exp}

/-- The byte that `extract_8_from_32` takes for the third. -/
theorem symbolic_extractsKept {d : Exp}
    (hd : SymbolicDomain.IsValue .reg64 d) :
    ExtractsKept (symbolicReading ρ) (symbolicParts f).extract8From32 d
      (fun i => byteAt (d.unsigned ρ) (if i = 3 then 7 else i)) 8 :=
  fun _ hi => SymbolicDomain.extract8From32_of_reg64 hd hi

theorem symbolic_long_iff (hkeeps : Keeps (symbolicReading ρ) simplify)
    {construct : α → Exp}
    (hconstruct : ∀ x, SymbolicDomain.IsValue .reg8 (construct x)) {d : Exp}
    (hd : SymbolicDomain.IsValue .reg64 d) (bytes : Fin 8 → Option α) :
    Updates (symbolicReading ρ) .reg64 construct d bytes
        (changeSomeLongBytes (symbolicParts f) simplify d bytes construct) ↔
      (bytes 3).isSome ∨ byteAt (d.unsigned ρ) 7 = byteAt (d.unsigned ρ) 3 := by
  have hchange : ChangesTo (symbolicReading ρ) .reg64 simplify _
      (given (symbolicReading ρ) construct bytes)
      (changeSomeLongBytes (symbolicParts f) simplify d bytes construct) :=
    changeSomeLongBytes_spec (symbolicParts_lawful f ρ) hconstruct
      (fun _ => byteAt_lt _ _) (symbolic_extractsKept hd) bytes
  rw [hchange.updates_iff hkeeps]
  constructor
  · intro hall
    exact hall 3
  · intro h3 i
    by_cases hi : i = 3
    · rw [hi]
      exact h3
    · right
      have hne : (i : ℕ) ≠ 3 := fun heq => hi (Fin.ext heq)
      rw [if_neg hne]
      rfl

theorem concrete_long {construct : α → I64} (d : I64)
    (bytes : Fin 8 → Option α) :
    Updates concreteReading .reg64 construct d bytes
      (changeSomeLongBytes (concreteParts wild) id d bytes construct) := by
  have hkeeps : Keeps concreteReading id := fun _ _ _ => ⟨trivial, rfl⟩
  apply ChangesTo.updates hkeeps
  apply changeSomeLongBytes_spec (concreteParts_lawful wild)
    (fun _ => trivial) (byteAt_lt _)
  apply extractsKept_of_isPart
  intro i hi
  exact isPart_concrete wild .reg64 .reg8 trivial (by simp; omega) d

end Long

section Sample

def sampleFolding : SymbolicDomain.Folding where
  wild := .const 0
  compare _ _ := .eq
  coin _ := true

def longRegister : Exp := .temp ⟨0, [], .reg64⟩

def sampleValuation : Valuation WordMemory where
  temp _ := 0x1122334455667788
  mem _ _ := 0
  label _ := 0

def byteConstant (x : I64) : Exp := .int .reg8 x

theorem isValue_byteConstant (x : I64) :
    SymbolicDomain.IsValue .reg8 (byteConstant x) :=
  ⟨(trivial : Typ.IsReg .reg8), rfl, trivial⟩

theorem isValue_longRegister : SymbolicDomain.IsValue .reg64 longRegister :=
  ⟨(trivial : Typ.IsReg .reg64), rfl, trivial⟩

def thirdByte (i : Fin 8) : Option I64 := if i = 3 then some 0xff else none

end Sample

end Fuzzball.FragmentMachine
