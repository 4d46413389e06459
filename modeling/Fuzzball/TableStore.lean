import Fuzzball.AddressStrides
import Fuzzball.GranularFlat

/-!
# Stores into tables

`table_store` of `sym_region_frag_machine.ml`.  A store at a symbolic offset
becomes one conditional store for each multiple of the stride that the bound on
the offset allows.
-/

namespace Fuzzball.SymRegion

open Vine Granular MemoRecursion FormulaManager

/-- A region's memory with the domain of its values and the formula manager. -/
structure TableMachine (μ σ τ : Type) where
  region : GranularMemory μ σ τ
  domain : Domain τ
  missing : Missing σ τ
  regAddr : Typ
  wild : ℤ → ℤ → ℤ
  defs : Definitions
  simplify : Size → τ → τ
  tempify1 : τ → τ
  fromSymbolic : Exp → τ
  ite : Size → τ → τ → τ → τ
  same : τ → τ → Bool

/-- `i * stride`, as a 64-bit integer. -/
def tableOffset (stride : ℤ) (i : ℕ) : I64 := I64.ofInt (mulInt i stride)

def numEnts (maxval : I64) (stride : ℤ) : OCaml ℤ := do
  let quotient ← I64.div maxval (I64.ofInt stride)
  pure (quotient + 1).toOCamlInt

namespace TableMachine

variable {μ σ τ : Type} (T : TableMachine μ σ τ)

def addrConst (addr : I64) : Exp := .int T.regAddr addr

def makeIte (condV : τ) (size : Size) (vTrue vFalse : τ) : τ :=
  let condV' := T.tempify1 condV
  let vTrue' := T.simplify size vTrue
  let vFalse' := T.simplify size vFalse
  if T.same vTrue' vFalse' then vTrue' else T.ite size condV' vTrue' vFalse'

def loadEnt (size : Size) (mem : μ) (addr : I64) : StateM σ (τ × μ) := do
  let (v, mem) ← T.region.load T.domain T.missing size mem addr
  pure (T.simplify size v, mem)

/-- One round of the loop. -/
def storeEntry (cloc : I64) (offExp : Exp) (size : Size) (value : τ)
    (stride : ℤ) (mem : μ) (i : ℕ) : StateM σ μ := do
  let addr := cloc + tableOffset stride i
  let (oldV, mem) ← T.loadEnt size mem addr
  let condE := .binOp .eq offExp (T.addrConst (tableOffset stride i))
  let iteV := T.makeIte (T.fromSymbolic condE) size value oldV
  pure (T.region.store T.domain size mem addr iteV)

def storeEntries (cloc : I64) (offExp : Exp) (size : Size) (value : τ)
    (stride : ℤ) (num : ℤ) (mem : μ) : StateM σ (Bool × μ) := do
  let mem ← (List.range num.toNat).foldlM
    (T.storeEntry cloc offExp size value stride) mem
  pure (true, mem)

/-- What happens before the loop can raise an exception or run out of fuel. -/
def tableStore (n : ℕ) (cloc : I64) (offExp : Exp) (maxval : I64) (size : Size)
    (value : τ) (mem : μ) : Except (Option Stop) (StateM σ (Bool × μ)) := do
  let stride ← (stride T.wild T.defs n).eval n offExp
  let num ← (numEnts maxval stride).mapError fun x => some (some x)
  pure (T.storeEntries cloc offExp size value stride num mem)

end TableMachine

/-! ## The multiples of the stride -/

theorem toOCamlInt_eq (x : I64) : x.toOCamlInt = OCaml.wrapInt x.toInt := by
  rw [I64.toOCamlInt, BitVec.toInt_setWidth, OCaml.wrapInt,
    BitVec.toInt_eq_toNat_bmod, Int.bmod_bmod_of_dvd (by norm_num)]

theorem toInt_ofInt {r : ℤ} (hr : OCaml.wrapInt r = r) :
    (I64.ofInt r).toInt = r := by
  have hlt := Int.bmod_lt (x := r) (m := 2 ^ 63) (by norm_num)
  have hle := Int.le_bmod (x := r) (m := 2 ^ 63) (by norm_num)
  rw [OCaml.wrapInt] at hr
  rw [hr] at hlt hle
  rw [I64.ofInt, BitVec.toInt_ofInt, Int.bmod_eq_of_le]
  · norm_num at hle ⊢
    omega
  · norm_num at hlt ⊢
    omega

theorem ofInt_ne_zero {r : ℤ} (hr : OCaml.wrapInt r = r) (h0 : r ≠ 0) :
    I64.ofInt r ≠ 0 := by
  intro h
  apply h0
  rw [← toInt_ofInt hr, h]
  rfl

theorem numEnts_eq {maxval : I64} {r : ℤ} (hr : OCaml.wrapInt r = r)
    (h0 : r ≠ 0) :
    numEnts maxval r = .ok (OCaml.wrapInt (maxval.toInt.tdiv r + 1)) := by
  have hquotient : I64.div maxval (I64.ofInt r) =
      .ok (maxval.sdiv (I64.ofInt r)) := if_neg (ofInt_ne_zero hr h0)
  rw [numEnts, hquotient, OCaml.ok_bind]
  congr 1
  have hone : (1 : I64).toInt = 1 := by decide
  have hdvd : 2 ^ 63 ∣ 2 ^ 64 := by norm_num
  rw [toOCamlInt_eq, BitVec.toInt_add, BitVec.toInt_sdiv, toInt_ofInt hr, hone,
    OCaml.wrapInt, OCaml.wrapInt, Int.bmod_bmod_of_dvd hdvd,
    ← Int.bmod_add_bmod, Int.bmod_bmod_of_dvd hdvd, Int.bmod_add_bmod]

/-- The number of rounds, as `numEnts` finds it. -/
def roundCount (maxval : I64) (r : ℤ) : ℤ :=
  OCaml.wrapInt (maxval.toInt.tdiv r + 1)

/-- One of the multiples of the stride up to the bound, as an OCaml `int`, is
the offset, and the others differ from it in the bits of an address. -/
structure Listed (w : ℕ) (maxval : I64) (r : ℤ) (off : ℕ) : Prop where
  ne_zero : r ≠ 0
  mem : ∃ k : ℕ, (k : ℤ) < roundCount maxval r ∧
    tableOffset r k = BitVec.ofNat 64 off
  alone : ∀ k : ℕ, (k : ℤ) < roundCount maxval r →
    (tableOffset r k).setWidth w = BitVec.ofNat w off →
      tableOffset r k = BitVec.ofNat 64 off

/-- For a stride and a bound that are not negative: nothing overflows, and no
other multiple agrees with the offset at the width of an address. -/
def Covers (w : ℕ) (maxval : I64) (r : ℤ) (off : ℕ) : Prop :=
  if 0 < r ∧ 0 ≤ maxval.toInt then
    maxval.toInt / r + 1 < 2 ^ 62 ∧ off < 2 ^ 62 ∧
      ∀ k : ℕ, k * r ≤ maxval.toInt → k * r % 2 ^ w = off → k * r = off
  else Listed w maxval r off

section Multiples

variable {w off k : ℕ} {maxval : I64} {r : ℤ}

theorem mulInt_eq {r : ℤ} (h0 : 0 ≤ k * r) (hlt : k * r < 2 ^ 63) :
    mulInt k r = if k * r < 2 ^ 62 then (k * r : ℤ) else k * r - 2 ^ 63 := by
  rw [mulInt, OCaml.wrapInt, Int.bmod_def]
  norm_num at *
  rw [Int.emod_eq_of_lt h0 hlt]

theorem toNat_tableOffset (h0 : 0 ≤ k * r) (hlt : k * r < 2 ^ 63) :
    ((tableOffset r k).toNat : ℤ) =
      if k * r < 2 ^ 62 then (k * r : ℤ) else k * r + 2 ^ 63 := by
  rw [tableOffset, I64.ofInt, mulInt_eq h0 hlt, BitVec.toNat_ofInt]
  have hpos : 0 ≤ (if k * r < 2 ^ 62 then (k * r : ℤ) else k * r - 2 ^ 63) %
      (2 ^ 64 : ℕ) := Int.emod_nonneg _ (by norm_num)
  rw [Int.toNat_of_nonneg hpos]
  norm_num at *
  split_ifs with h
  · omega
  · omega

theorem roundCount_of_fits (h0 : 0 ≤ maxval.toInt) (hr : 0 < r)
    (hfits : maxval.toInt / r + 1 < 2 ^ 62) :
    roundCount maxval r = maxval.toInt / r + 1 := by
  have hnonneg : 0 ≤ maxval.toInt / r := Int.ediv_nonneg h0 hr.le
  rw [roundCount, Int.tdiv_eq_ediv_of_nonneg h0, OCaml.wrapInt_of_lt _ hfits]
  omega

theorem roundCount_of_overflow (h0 : 0 ≤ maxval.toInt)
    (hfits : ¬maxval.toInt / r + 1 < 2 ^ 62) : roundCount maxval r ≤ 0 := by
  have hlt : maxval.toInt < 2 ^ 63 := BitVec.toInt_lt
  have hle : maxval.toInt / r ≤ maxval.toInt := Int.ediv_le_self r h0
  rw [roundCount, Int.tdiv_eq_ediv_of_nonneg h0, OCaml.wrapInt, Int.bmod_def]
  norm_num at *
  split_ifs with h
  · omega
  · have hmod := Int.emod_lt_of_pos (maxval.toInt / r + 1)
      (show (0 : ℤ) < 9223372036854775808 by norm_num)
    omega

/-- A round of the loop stays below the bound. -/
theorem mul_le_of_lt_rounds (hr : 0 < r) (hk : (k : ℤ) < maxval.toInt / r + 1) :
    k * r ≤ maxval.toInt :=
  (Int.le_ediv_iff_mul_le hr).mp (Int.lt_add_one_iff.mp hk)

theorem tableOffset_eq_iff (h0 : 0 ≤ k * r) (hlt : k * r < 2 ^ 63)
    (hoff : off < 2 ^ 62) :
    tableOffset r k = BitVec.ofNat 64 off ↔ k * r = off := by
  have hnat := toNat_tableOffset h0 hlt
  have hself : off % 2 ^ 64 = off := Nat.mod_eq_of_lt (by omega)
  rw [← BitVec.toNat_inj, BitVec.toNat_ofNat, hself]
  split_ifs at hnat with h
  · omega
  · constructor
    · omega
    · intro heq
      omega

theorem setWidth_tableOffset_iff (h0 : 0 ≤ k * r) (hlt : k * r < 2 ^ 63)
    (hw : w < 64) (hoff : off < 2 ^ w) :
    (tableOffset r k).setWidth w = BitVec.ofNat w off ↔
      k * r % 2 ^ w = off := by
  have hnat := toNat_tableOffset h0 hlt
  obtain ⟨c, hc⟩ : (2 ^ w : ℤ) ∣ 2 ^ 63 := pow_dvd_pow 2 (by omega)
  have hmod : ((tableOffset r k).toNat : ℤ) % 2 ^ w = k * r % 2 ^ w := by
    rw [hnat]
    split_ifs with h
    · rfl
    · rw [hc, Int.add_mul_emod_self_left]
  rw [← BitVec.toNat_inj, BitVec.toNat_setWidth, BitVec.toNat_ofNat,
    Nat.mod_eq_of_lt hoff, ← hmod]
  norm_cast

theorem listed_iff_covers (hw : w ≤ 64) (hoff : off < 2 ^ w)
    (hle : off ≤ maxval.toNat) (hdvd : r ∣ off) :
    Listed w maxval r off ↔ Covers w maxval r off := by
  unfold Covers
  split_ifs with hpos
  · obtain ⟨hr, h0⟩ := hpos
    have hlt : maxval.toInt < 2 ^ 63 := BitVec.toInt_lt
    have hbound : (off : ℤ) ≤ maxval.toInt := by
      have hcond := BitVec.toInt_eq_toNat_cond maxval
      split_ifs at hcond <;> omega
    by_cases hfits : maxval.toInt / r + 1 < 2 ^ 62
    · have hcount := roundCount_of_fits h0 hr hfits
      have hnonneg : ∀ k : ℕ, 0 ≤ k * r := fun k => by positivity
      constructor
      · rintro ⟨-, ⟨k, hk, hmem⟩, halone⟩
        rw [hcount] at hk
        have hkr := mul_le_of_lt_rounds hr hk
        have hsmall : off < 2 ^ 62 := by
          have hnat := toNat_tableOffset (hnonneg k) (by omega)
          rw [hmem, BitVec.toNat_ofNat, Nat.mod_eq_of_lt (by omega)] at hnat
          split_ifs at hnat <;> omega
        refine ⟨hfits, hsmall, ?_⟩
        intro k hk hmod
        have hround : (k : ℤ) < roundCount maxval r := by
          rw [hcount]
          exact Int.lt_add_one_iff.mpr ((Int.le_ediv_iff_mul_le hr).mpr hk)
        rcases hw.lt_or_eq with hlt64 | rfl
        · have hsel :=
            setWidth_tableOffset_iff (hnonneg k) (by omega) hlt64 hoff
          exact (tableOffset_eq_iff (hnonneg k) (by omega) hsmall).mp
            (halone k hround (hsel.mpr hmod))
        · rwa [Int.emod_eq_of_lt (hnonneg k) (by omega)] at hmod
      · rintro ⟨-, hsmall, halone⟩
        obtain ⟨q, hq⟩ := hdvd
        have hq0 : 0 ≤ q := by
          by_contra hneg
          have := mul_neg_of_pos_of_neg hr (not_le.mp hneg)
          omega
        obtain ⟨k, rfl⟩ := Int.eq_ofNat_of_zero_le hq0
        have hkr : k * r = off := by rw [hq, mul_comm]
        refine ⟨hr.ne', ⟨k, ?_, ?_⟩, ?_⟩
        · rw [hcount]
          exact Int.lt_add_one_iff.mpr
            ((Int.le_ediv_iff_mul_le hr).mpr (by omega))
        · exact (tableOffset_eq_iff (hnonneg k) (by omega) hsmall).mpr hkr
        · intro j hj hsel
          rw [hcount] at hj
          have hjr := mul_le_of_lt_rounds hr hj
          rcases hw.lt_or_eq with hlt64 | rfl
          · rw [setWidth_tableOffset_iff (hnonneg j) (by omega) hlt64 hoff]
              at hsel
            exact (tableOffset_eq_iff (hnonneg j) (by omega) hsmall).mpr
              (halone j hjr hsel)
          · rwa [BitVec.setWidth_eq] at hsel
    · constructor
      · rintro ⟨-, ⟨k, hk, -⟩, -⟩
        have hcount := roundCount_of_overflow h0 hfits
        omega
      · rintro ⟨h, -⟩
        exact absurd h hfits
  · exact Iff.rfl

end Multiples

/-! ## The bytes of a memory -/

section Contents

variable {μ τ : Type} {D : Domain τ} {IsWidth : ℕ → τ → Prop}
  (hD : LawfulDomain D IsWidth)

include hD

theorem at16_isWidth {g : Gran16 τ} (hg : g.Wf IsWidth) {i : ℕ} (hi : i < 2) :
    ∀ b ∈ g.at D i, IsWidth 8 b := by
  cases g with
  | short s =>
    rintro b ⟨⟩
    exact hD.extract8From16 s i hg hi
  | gran8s g1 g2 =>
    obtain ⟨h1, h2⟩ := hg
    rw [Gran16.at]
    intro b hb
    split_ifs at hb
    · cases g1 <;> cases hb
      exact h1
    · cases g2 <;> cases hb
      exact h2
  | absent16 =>
    intro b hb
    cases hb

theorem at32_isWidth {g : Gran32 τ} (hg : g.Wf IsWidth) {i : ℕ} (hi : i < 4) :
    ∀ b ∈ g.at D i, IsWidth 8 b := by
  cases g with
  | word w =>
    rintro b ⟨⟩
    exact extract8From32_isWidth hD hg hi
  | gran16s g1 g2 =>
    rw [Gran32.at]
    split_ifs with hlt
    · exact at16_isWidth hD hg.1 hlt
    · exact at16_isWidth hD hg.2 (by omega)
  | absent32 =>
    intro b hb
    cases hb

theorem at64_isWidth {g : Gran64 τ} (hg : g.Wf IsWidth) {i : ℕ} (hi : i < 8) :
    ∀ b ∈ g.at D i, IsWidth 8 b := by
  cases g with
  | long l =>
    rintro b ⟨⟩
    exact extract8From64_isWidth hD hg hi
  | gran32s g1 g2 =>
    rw [Gran64.at]
    split_ifs with hlt
    · exact at32_isWidth hD hg.1 hlt
    · exact at32_isWidth hD hg.2 (by omega)
  | absent64 =>
    intro b hb
    cases hb

theorem contents_isWidth {chunk : μ → I64 → Gran64 τ} {mem : μ}
    (hmem : MemoryWf IsWidth chunk mem) {m : ℕ → I64 → τ}
    (hm : Coherent D IsWidth m) (x : I64) :
    IsWidth 8 ((contents D chunk mem x).getD (m 8 x)) := by
  have hat := at64_isWidth hD (hmem (chunkAddr x)) (which_lt x)
  unfold contents
  cases hb : (chunk mem (chunkAddr x)).at D (which x) with
  | none => exact hm.isWidth x
  | some b => exact hat b hb

end Contents

/-! ## The stores -/

/-- The memory of the region reads as a flat one. -/
structure TableMachine.Lawful {μ σ τ : Type} (T : TableMachine μ σ τ)
    (IsWidth : ℕ → τ → Prop) (chunk : μ → I64 → Gran64 τ)
    (setChunk : μ → I64 → Gran64 τ → μ) (m : ℕ → I64 → τ) : Prop where
  memory : LawfulMemory T.region chunk setChunk
  domain : LawfulDomain T.domain IsWidth
  coherent : Coherent T.domain IsWidth m
  missing : T.missing = pureMissing m

/-- The numbers that the values stand for under a valuation, which new
temporaries have as their definitions do. -/
structure TableMachine.Values {μ σ τ : Type} (T : TableMachine μ σ τ)
    {ν : Type} [VineMemory ν] (IsWidth : ℕ → τ → Prop) (ρ : Valuation ν)
    (val : τ → ℕ) : Prop where
  byteOf : ∀ (size : Size) v i, IsWidth size.bits v → i < size.bytes →
    val (byteOf T.domain size v i) = val v / 256 ^ i % 256
  simplify_isWidth : ∀ (size : Size) v, IsWidth size.bits v →
    IsWidth size.bits (T.simplify size v)
  simplify : ∀ size v, val (T.simplify size v) = val v
  tempify1 : ∀ v, val (T.tempify1 v) = val v
  fromSymbolic_isWidth : ∀ e (size : Size), e.width = size.bits →
    IsWidth size.bits (T.fromSymbolic e)
  fromSymbolic : ∀ e, val (T.fromSymbolic e) = e.unsigned ρ
  ite_isWidth : ∀ (size : Size) c v v', IsWidth size.bits v →
    IsWidth size.bits v' → IsWidth size.bits (T.ite size c v v')
  ite : ∀ size c v v', val (T.ite size c v v') =
    if val c = 1 then val v else val v'
  same : ∀ v v', T.same v v' = true → v = v'

/-- The number at each byte of the memory. -/
def TableMachine.bytes {μ σ τ : Type} (T : TableMachine μ σ τ)
    (chunk : μ → I64 → Gran64 τ) (m : ℕ → I64 → τ) (val : τ → ℕ) (mem : μ)
    (x : I64) : ℕ := val ((contents T.domain chunk mem x).getD (m 8 x))

/-- The bytes of a number, the least first. -/
def numberByte (n i : ℕ) : ℕ := n / 256 ^ i % 256

namespace TableMachine

section Stores

variable {μ σ τ ν : Type} [VineMemory ν] {T : TableMachine μ σ τ}
  {IsWidth : ℕ → τ → Prop} {chunk : μ → I64 → Gran64 τ}
  {setChunk : μ → I64 → Gran64 τ → μ} {m : ℕ → I64 → τ} {ρ : Valuation ν}
  {val : τ → ℕ} {offExp : Exp} {size : Size} {value : τ} {mem : μ}
  {cloc : I64} {r : ℤ}

/-- The condition of a conditional store holds. -/
def Selects (offExp : Exp) (ρ : Valuation ν) (r : ℤ) (i : ℕ) : Prop :=
  (tableOffset r i).setWidth offExp.width = offExp.eval ρ offExp.width

instance (i : ℕ) : Decidable (Selects offExp ρ r i) :=
  inferInstanceAs (Decidable (_ = _))

theorem unsigned_condition (i : ℕ) :
    (Exp.binOp .eq offExp (T.addrConst (tableOffset r i))).unsigned ρ = 1 ↔
      Selects offExp ρ r i := by
  change (flag 1 (offExp.eval ρ offExp.width ==
    (tableOffset r i).setWidth offExp.width)).toNat = 1 ↔ _
  unfold Selects
  by_cases h : (tableOffset r i).setWidth offExp.width =
      offExp.eval ρ offExp.width
  · simp [h, flag]
  · simp [h, Ne.symm h, flag]

theorem makeIte_isWidth (hval : T.Values IsWidth ρ val) {c v v' : τ}
    (hv : IsWidth size.bits v) (hv' : IsWidth size.bits v') :
    IsWidth size.bits (T.makeIte c size v v') := by
  unfold makeIte
  dsimp only
  split_ifs
  · exact hval.simplify_isWidth size v hv
  · exact hval.ite_isWidth size _ _ _ (hval.simplify_isWidth size v hv)
      (hval.simplify_isWidth size v' hv')

theorem val_makeIte (hval : T.Values IsWidth ρ val) (c v v' : τ) :
    val (T.makeIte c size v v') = if val c = 1 then val v else val v' := by
  unfold makeIte
  dsimp only
  split_ifs with hsame hc hc
  · exact hval.simplify size v
  · rw [hval.same _ _ hsame, hval.simplify]
  · rw [hval.ite, hval.tempify1, if_pos hc, hval.simplify]
  · rw [hval.ite, hval.tempify1, if_neg hc, hval.simplify]

theorem bytes_of_represents {f : I64 → τ}
    (h : Represents T.domain IsWidth chunk m mem f) :
    T.bytes chunk m val mem = fun x => val (f x) := by
  funext x
  exact congrArg val (h.2 x)

theorem represents_self (h : MemoryWf IsWidth chunk mem) :
    Represents T.domain IsWidth chunk m mem fun x =>
      (contents T.domain chunk mem x).getD (m 8 x) := ⟨h, fun _ => rfl⟩

/-- What is stored under the condition `c`, where `f` is in memory. -/
theorem numberByte_makeIte (hT : T.Lawful IsWidth chunk setChunk m)
    (hval : T.Values IsWidth ρ val) {f : I64 → τ} (hf : ∀ x, IsWidth 8 (f x))
    {addr : I64} {c v old : τ} (hold : val old =
      val (assemble T.domain size f addr)) {k : ℕ} (hk : k < size.bytes) :
    numberByte (val (T.makeIte c size v old)) k =
      if val c = 1 then numberByte (val v) k
      else val (f (addr + BitVec.ofNat 64 k)) := by
  have hassemble := assemble_isWidth hT.domain hf size addr
  rw [val_makeIte hval]
  split_ifs
  · rfl
  · rw [hold, numberByte, ← hval.byteOf size _ k hassemble hk,
      byteOf_assemble hT.domain hf size addr k hk]

/-- One conditional store: the bytes of the value where the condition holds,
and otherwise the bytes that were there. -/
theorem storeEntry_bytes (hT : T.Lawful IsWidth chunk setChunk m)
    (hval : T.Values IsWidth ρ val) (I : σ → Prop)
    (hmem : MemoryWf IsWidth chunk mem) (hv : IsWidth size.bits value) (i : ℕ) :
    Keeps I (T.storeEntry cloc offExp size value r mem i) fun mem' =>
      MemoryWf IsWidth chunk mem' ∧
        T.bytes chunk m val mem' =
          if Selects offExp ρ r i then
            patch (cloc + tableOffset r i) size.bytes (numberByte (val value))
              (T.bytes chunk m val mem)
          else T.bytes chunk m val mem := by
  set f := fun x => (contents T.domain chunk mem x).getD (m 8 x) with hf
  set addr := cloc + tableOffset r i with haddr
  have hrep : Represents T.domain IsWidth chunk m mem f := represents_self hmem
  have hf8 : ∀ x, IsWidth 8 (f x) := contents_isWidth hT.domain hmem hT.coherent
  have hload := load_represents hT.memory hT.domain hT.coherent I hrep size addr
  rw [← hT.missing] at hload
  unfold storeEntry loadEnt
  simp only [bind_assoc, pure_bind]
  refine hload.bind ?_
  rintro ⟨old, mem1⟩ ⟨hold, hrep1⟩
  refine .pure ?_
  have hold : old = assemble T.domain size f addr := hold
  have hassemble := assemble_isWidth hT.domain hf8 size addr
  rw [← hold] at hassemble
  have hwidth := makeIte_isWidth hval (c := T.fromSymbolic (.binOp .eq offExp
    (T.addrConst (tableOffset r i)))) hv
    (hval.simplify_isWidth size old hassemble)
  have hstore := store_represents hT.memory hT.domain hrep1 size addr hwidth
  have hsimplify : val (T.simplify size old) =
      val (assemble T.domain size f addr) := by rw [hval.simplify, hold]
  refine ⟨hstore.1, ?_⟩
  rw [bytes_of_represents hstore]
  unfold flatStore
  rw [map_patch]
  have hbytes : ∀ k < size.bytes, val (Granular.byteOf T.domain size
      (T.makeIte (T.fromSymbolic (.binOp .eq offExp
        (T.addrConst (tableOffset r i)))) size value (T.simplify size old)) k) =
      if Selects offExp ρ r i then numberByte (val value) k
      else val (f (addr + BitVec.ofNat 64 k)) := by
    intro k hk
    have h := numberByte_makeIte hT hval hf8 (v := value)
      (c := T.fromSymbolic (.binOp .eq offExp
        (T.addrConst (tableOffset r i)))) hsimplify hk
    rw [hval.byteOf size _ k hwidth hk]
    simp only [hval.fromSymbolic, unsigned_condition] at h
    exact h
  rw [patch_congr addr hbytes]
  split_ifs with hsel
  · rfl
  · funext x
    unfold patch
    split_ifs
    · dsimp only
      rw [add_sub_toNat]
      rfl
    · rfl

/-- The bytes after the first `n` rounds. -/
def storedTo (offExp : Exp) (ρ : Valuation ν) (r : ℤ) (cloc : I64) (k v : ℕ)
    (f : I64 → ℕ) : ℕ → I64 → ℕ
  | 0 => f
  | n + 1 =>
    if Selects offExp ρ r n then
      patch (cloc + tableOffset r n) k (numberByte v)
        (storedTo offExp ρ r cloc k v f n)
    else storedTo offExp ρ r cloc k v f n

theorem foldlM_storeEntry_bytes (hT : T.Lawful IsWidth chunk setChunk m)
    (hval : T.Values IsWidth ρ val) (I : σ → Prop)
    (hmem : MemoryWf IsWidth chunk mem) (hv : IsWidth size.bits value) (n : ℕ) :
    Keeps I ((List.range n).foldlM
      (T.storeEntry cloc offExp size value r) mem) fun mem' =>
        MemoryWf IsWidth chunk mem' ∧
          T.bytes chunk m val mem' =
            storedTo offExp ρ r cloc size.bytes (val value)
              (T.bytes chunk m val mem) n := by
  induction n with
  | zero => exact .pure ⟨hmem, rfl⟩
  | succ n ih =>
    rw [List.range_succ, List.foldlM_append]
    refine ih.bind ?_
    rintro mem1 ⟨hmem1, hbytes1⟩
    rw [List.foldlM_cons]
    refine (storeEntry_bytes hT hval I hmem1 hv n).bind ?_
    rintro mem2 ⟨hmem2, hbytes2⟩
    refine .pure ⟨hmem2, ?_⟩
    rw [hbytes2, hbytes1]
    rfl

/-- A byte that none of the selected stores covers is as it was. -/
theorem storedTo_frame {k v : ℕ} {f : I64 → ℕ} {x : I64} (n : ℕ)
    (h : ∀ i < n, Selects offExp ρ r i →
      ¬(x - (cloc + tableOffset r i)).toNat < k) :
    storedTo offExp ρ r cloc k v f n x = f x := by
  induction n with
  | zero => rfl
  | succ n ih =>
    have ih := ih fun i hi => h i (hi.trans (Nat.lt_succ_self n))
    unfold storedTo
    split_ifs with hsel
    · rw [patch, if_neg (h n (Nat.lt_succ_self n) hsel)]
      exact ih
    · exact ih

/-- A byte that all selected stores that cover it give the same number. -/
theorem storedTo_covered {k v c : ℕ} {f : I64 → ℕ} {x : I64} (n : ℕ)
    (h : ∀ i < n, Selects offExp ρ r i →
      (x - (cloc + tableOffset r i)).toNat < k →
        numberByte v (x - (cloc + tableOffset r i)).toNat = c)
    (hcovered : ∃ i < n, Selects offExp ρ r i ∧
      (x - (cloc + tableOffset r i)).toNat < k) :
    storedTo offExp ρ r cloc k v f n x = c := by
  induction n with
  | zero =>
    obtain ⟨i, hi, -⟩ := hcovered
    exact absurd hi (Nat.not_lt_zero i)
  | succ n ih =>
    have hprev : ∀ i < n, Selects offExp ρ r i →
        (x - (cloc + tableOffset r i)).toNat < k →
          numberByte v (x - (cloc + tableOffset r i)).toNat = c :=
      fun i hi => h i (hi.trans (Nat.lt_succ_self n))
    by_cases hlast : Selects offExp ρ r n ∧
        (x - (cloc + tableOffset r n)).toNat < k
    · rw [storedTo, if_pos hlast.1, patch, if_pos hlast.2]
      exact h n (Nat.lt_succ_self n) hlast.1 hlast.2
    · have hearlier : ∃ i < n, Selects offExp ρ r i ∧
          (x - (cloc + tableOffset r i)).toNat < k := by
        obtain ⟨i, hi, hsel⟩ := hcovered
        rcases Nat.lt_succ_iff_lt_or_eq.mp hi with hlt | rfl
        · exact ⟨i, hlt, hsel⟩
        · exact absurd hsel hlast
      have ih := ih hprev hearlier
      unfold storedTo
      split_ifs with hsel
      · rw [patch, if_neg fun hin => hlast ⟨hsel, hin⟩]
        exact ih
      · exact ih

/-! ## The selected location -/

/-- `table_store` returns, and has written the bytes of the value at the offset
and nothing else. -/
def WritesAt (T : TableMachine μ σ τ) (chunk : μ → I64 → Gran64 τ)
    (m : ℕ → I64 → τ) (val : τ → ℕ) (cloc : I64) (offExp : Exp) (maxval : I64)
    (size : Size) (value : τ) (mem : μ) (off : ℕ) : Prop :=
  ∃ n act, T.tableStore n cloc offExp maxval size value mem = .ok act ∧
    ∀ s, (act s).1.1 = true ∧
      T.bytes chunk m val (act s).1.2 =
        patch (cloc + BitVec.ofNat 64 off) size.bytes (numberByte (val value))
          (T.bytes chunk m val mem)

variable {maxval : I64}

theorem tableStore_ok_iff (hr : StrideReturns T.wild T.defs offExp r)
    (hint : OCaml.wrapInt r = r) (act : StateM σ (Bool × μ)) :
    (∃ n, T.tableStore n cloc offExp maxval size value mem = .ok act) ↔
      r ≠ 0 ∧
        act = T.storeEntries cloc offExp size value r (roundCount maxval r) mem
    := by
  have hzero : numEnts maxval 0 = .error .divisionByZero := rfl
  have hnum : r ≠ 0 → numEnts maxval r = .ok (roundCount maxval r) :=
    numEnts_eq hint
  constructor
  · rintro ⟨n, hn⟩
    unfold tableStore at hn
    cases hstride : (stride T.wild T.defs n).eval n offExp with
    | error x =>
      rw [hstride] at hn
      cases hn
    | ok r' =>
      obtain rfl : r' = r := StrideReturns.unique ⟨n, hstride⟩ hr
      rw [hstride] at hn
      by_cases h0 : r' = 0
      · subst h0
        cases hn
      · change ((numEnts maxval r').mapError _ >>= _) = _ at hn
        rw [hnum h0] at hn
        cases hn
        exact ⟨h0, rfl⟩
  · rintro ⟨h0, rfl⟩
    obtain ⟨n, hn⟩ := hr
    refine ⟨n, ?_⟩
    unfold tableStore
    rw [hn]
    change ((numEnts maxval r).mapError _ >>= _) = _
    rw [hnum h0]
    rfl

theorem writesAt_iff [Nonempty σ] (hT : T.Lawful IsWidth chunk setChunk m)
    (hval : T.Values IsWidth ρ val) (hmem : MemoryWf IsWidth chunk mem)
    (hr : StrideReturns T.wild T.defs offExp r) (hint : OCaml.wrapInt r = r)
    (hv : IsWidth size.bits value) (off : ℕ) :
    T.WritesAt chunk m val cloc offExp maxval size value mem off ↔
      r ≠ 0 ∧
        storedTo offExp ρ r cloc size.bytes (val value)
            (T.bytes chunk m val mem) (roundCount maxval r).toNat =
          patch (cloc + BitVec.ofNat 64 off) size.bytes
            (numberByte (val value)) (T.bytes chunk m val mem) := by
  have hrun : Keeps (fun _ => True) (T.storeEntries cloc offExp size value r
      (roundCount maxval r) mem) fun res =>
        res.1 = true ∧ T.bytes chunk m val res.2 =
          storedTo offExp ρ r cloc size.bytes (val value)
            (T.bytes chunk m val mem) (roundCount maxval r).toNat := by
    refine (foldlM_storeEntry_bytes hT hval _ hmem hv _).bind ?_
    rintro mem' ⟨-, hbytes⟩
    exact .pure ⟨rfl, hbytes⟩
  constructor
  · rintro ⟨n, act, hact, hpost⟩
    obtain ⟨h0, rfl⟩ := (tableStore_ok_iff hr hint act).mp ⟨n, hact⟩
    obtain ⟨s⟩ := ‹Nonempty σ›
    obtain ⟨-, hbytes⟩ := (hrun s trivial).1
    refine ⟨h0, ?_⟩
    rw [← hbytes]
    exact (hpost s).2
  · rintro ⟨h0, heq⟩
    obtain ⟨n, hn⟩ := (tableStore_ok_iff hr hint _).mpr ⟨h0, rfl⟩
    refine ⟨n, _, hn, ?_⟩
    intro s
    obtain ⟨htrue, hbytes⟩ := (hrun s trivial).1
    exact ⟨htrue, hbytes.trans heq⟩

theorem selects_iff (i : ℕ) :
    Selects offExp ρ r i ↔ (tableOffset r i).setWidth offExp.width =
      BitVec.ofNat offExp.width (offExp.unsigned ρ) := by
  unfold Selects Exp.unsigned
  rw [BitVec.ofNat_toNat, BitVec.setWidth_eq]

/-- Selected rounds store where they should. -/
theorem storedTo_of_listed {k v : ℕ} {f : I64 → ℕ}
    (h : Listed offExp.width maxval r (offExp.unsigned ρ)) :
    storedTo offExp ρ r cloc k v f (roundCount maxval r).toNat =
      patch (cloc + BitVec.ofNat 64 (offExp.unsigned ρ)) k (numberByte v) f
    := by
  obtain ⟨-, ⟨j, hj, hoff⟩, halone⟩ := h
  have hplace : ∀ i < (roundCount maxval r).toNat, Selects offExp ρ r i →
      tableOffset r i = BitVec.ofNat 64 (offExp.unsigned ρ) := by
    intro i hi hsel
    exact halone i (by omega) ((selects_iff i).mp hsel)
  funext x
  unfold patch
  split_ifs with hin
  · apply storedTo_covered
    · intro i hi hsel _
      rw [hplace i hi hsel]
    · refine ⟨j, by omega, ?_, ?_⟩
      · rw [selects_iff, hoff]
        exact BitVec.setWidth_ofNat_of_le offExp.typ.width_le _
      · rw [hoff]
        exact hin
  · apply storedTo_frame
    intro i hi hsel hcov
    rw [hplace i hi hsel] at hcov
    exact hin hcov

/-- A number each of whose bytes is one. -/
def onesNumber : I64 := 0x0101010101010101

/-- There is a value each of whose bytes is `c`. -/
theorem exists_uniform (hval : T.Values IsWidth ρ val) (size : Size) {c : ℕ}
    (hc : c = 0 ∨ c = 1) :
    ∃ v, IsWidth size.bits v ∧ ∀ i < size.bytes, numberByte (val v) i = c := by
  obtain ⟨t, ht⟩ : ∃ t : Typ, t.width = size.bits := by
    cases size with
    | byte => exact ⟨.reg8, rfl⟩
    | short => exact ⟨.reg16, rfl⟩
    | word => exact ⟨.reg32, rfl⟩
    | long => exact ⟨.reg64, rfl⟩
  have hones : ∀ i < size.bytes,
      numberByte (onesNumber.toNat % 2 ^ size.bits) i = 1 := by
    cases size <;> decide
  rcases hc with rfl | rfl
  · refine ⟨T.fromSymbolic (.int t 0), hval.fromSymbolic_isWidth _ _ ht, ?_⟩
    intro i _
    rw [hval.fromSymbolic, unsigned_int]
    simp [numberByte]
  · refine ⟨T.fromSymbolic (.int t onesNumber),
      hval.fromSymbolic_isWidth _ _ ht, ?_⟩
    intro i hi
    rw [hval.fromSymbolic, unsigned_int, ht]
    exact hones i hi

/-- Of two ranges of one size at different addresses the second has a byte that
the first does not have. -/
theorem exists_outside {a b : I64} (hne : a ≠ b) (size : Size) :
    ∃ x, (x - b).toNat < size.bytes ∧ ¬(x - a).toNat < size.bytes := by
  have hpos : 0 < size.bytes ∧ size.bytes ≤ 8 := by cases size <;> decide
  have hdist : (b - a).toNat ≠ 0 := by
    intro h0
    apply hne
    have hzero : b - a = 0 := BitVec.toNat_inj.mp h0
    exact (sub_eq_zero.mp hzero).symm
  by_cases hfar : (b - a).toNat < size.bytes
  · refine ⟨b + BitVec.ofNat 64 (size.bytes - 1), ?_, ?_⟩
    · rw [sub_toNat_of_add b (by omega)]
      omega
    · have hsum : b + BitVec.ofNat 64 (size.bytes - 1) - a =
          (b - a) + BitVec.ofNat 64 (size.bytes - 1) := by ring
      rw [hsum, BitVec.toNat_add, BitVec.toNat_ofNat]
      omega
  · refine ⟨b, ?_, hfar⟩
    rw [sub_self]
    exact hpos.1

/-- Stores of uniform values tell which locations are written. -/
theorem listed_of_storedTo {f : I64 → ℕ} (hval : T.Values IsWidth ρ val)
    (h0 : r ≠ 0)
    (h : ∀ v, IsWidth size.bits v →
      storedTo offExp ρ r cloc size.bytes (val v) f
          (roundCount maxval r).toNat =
        patch (cloc + BitVec.ofNat 64 (offExp.unsigned ρ)) size.bytes
          (numberByte (val v)) f) :
    Listed offExp.width maxval r (offExp.unsigned ρ) := by
  set a := cloc + BitVec.ofNat 64 (offExp.unsigned ρ) with ha
  have hother : ∀ x, ∃ c, (c = 0 ∨ c = 1) ∧ f x ≠ c := by
    intro x
    by_cases hx : f x = 0
    · exact ⟨1, .inr rfl, by omega⟩
    · exact ⟨0, .inl rfl, hx⟩
  have halone : ∀ i < (roundCount maxval r).toNat, Selects offExp ρ r i →
      tableOffset r i = BitVec.ofNat 64 (offExp.unsigned ρ) := by
    intro i hi hsel
    by_contra hne
    have hne' : a ≠ cloc + tableOffset r i := by
      intro heq
      exact hne (add_left_cancel (ha.symm.trans heq)).symm
    obtain ⟨x, hin, hout⟩ := exists_outside hne' size
    obtain ⟨c, hc, hfx⟩ := hother x
    obtain ⟨v, hv, hbytes⟩ := exists_uniform hval size hc
    have heq := congrFun (h v hv) x
    rw [patch, if_neg hout, storedTo_covered _ (fun _ _ _ hcov => hbytes _ hcov)
      ⟨i, hi, hsel, hin⟩] at heq
    exact hfx heq.symm
  refine ⟨h0, ?_, ?_⟩
  · obtain ⟨c, hc, hfa⟩ := hother a
    obtain ⟨v, hv, hbytes⟩ := exists_uniform hval size hc
    have hsize : 0 < size.bytes := by cases size <;> decide
    have heq := congrFun (h v hv) a
    have hself : (a - a).toNat < size.bytes := by rwa [sub_self]
    rw [patch, if_pos hself, hbytes _ hself] at heq
    by_contra hnone
    apply hfa
    rw [← heq]
    refine (storedTo_frame _ ?_).symm
    intro i hi hsel _
    exact hnone ⟨i, by omega, halone i hi hsel⟩
  · intro k hk hsel
    exact halone k (by omega) ((selects_iff k).mpr hsel)

end Stores

end TableMachine

/-! ## A domain of numbers -/

/-- Values as the numbers that they stand for under one valuation. -/
def numbers : Domain ℕ where
  extract8From64 v i := v / 256 ^ i % 256
  extract8From32 v i := v / 256 ^ i % 256
  extract8From16 v i := v / 256 ^ i % 256
  extract16From64 v i := v / 256 ^ i % 2 ^ 16
  extract16From32 v i := v / 256 ^ i % 2 ^ 16
  extract32From64 v i := v / 256 ^ i % 2 ^ 32
  reassemble16 a b := a + 2 ^ 8 * b
  reassemble32 a b := a + 2 ^ 16 * b
  reassemble64 a b := a + 2 ^ 32 * b
  measureSize _ := 1

def NumberWidth (n v : ℕ) : Prop := v < 2 ^ n

theorem numbers_lawful : LawfulDomain numbers NumberWidth where
  extract8From16 _ _ _ _ := Nat.mod_lt _ (by norm_num)
  extract16From32 _ _ _ _ := Nat.mod_lt _ (by norm_num)
  extract32From64 _ _ _ _ := Nat.mod_lt _ (by norm_num)
  reassemble16 a b ha hb := by
    simp only [NumberWidth, numbers] at *
    omega
  reassemble32 a b ha hb := by
    simp only [NumberWidth, numbers] at *
    omega
  reassemble64 a b ha hb := by
    simp only [NumberWidth, numbers] at *
    omega
  split16_reassemble a b ha hb := by
    simp only [NumberWidth, numbers, split16] at *
    rw [Prod.mk.injEq]
    omega
  split32_reassemble a b ha hb := by
    simp only [NumberWidth, numbers, split32] at *
    rw [Prod.mk.injEq]
    omega
  split64_reassemble a b ha hb := by
    simp only [NumberWidth, numbers, split64] at *
    rw [Prod.mk.injEq]
    omega
  reassemble16_split s hs := by
    simp only [NumberWidth, numbers, split16] at *
    omega
  reassemble32_split w hw := by
    simp only [NumberWidth, numbers, split32] at *
    omega
  reassemble64_split l hl := by
    simp only [NumberWidth, numbers, split64] at *
    omega
  extract8From32 w i hw hi := by
    simp only [NumberWidth, numbers, split32] at *
    interval_cases i <;> omega
  extract8From64 l i hl hi := by
    simp only [NumberWidth, numbers, split64] at *
    interval_cases i <;> omega
  extract16From64 l i hl hi := by
    simp only [NumberWidth, numbers, split64] at *
    rcases hi with rfl | rfl <;> omega
  measureSize_pos _ := Nat.one_pos

def zeroNumber (_ : ℕ) (_ : I64) : ℕ := 0

theorem zeroNumber_coherent : Coherent numbers NumberWidth zeroNumber := by
  refine ⟨fun _ => Nat.two_pow_pos 8, ?_⟩
  intro size a
  cases size <;> rfl

def numberTable (ρ : Valuation Unit) : TableMachine (HashTable ℕ) Unit ℕ where
  region := hashMemory
  domain := numbers
  missing := pureMissing zeroNumber
  regAddr := .reg32
  wild _ _ := 0
  defs := .none
  simplify _ v := v
  tempify1 v := v
  fromSymbolic e := e.unsigned ρ
  ite _ c v v' := if c = 1 then v else v'
  same v v' := v == v'

theorem numberTable_lawful (ρ : Valuation Unit) :
    (numberTable ρ).Lawful NumberWidth HashTable.chunk
      (fun mem c g => mem.insert c g) zeroNumber where
  memory := hashMemory_lawful
  domain := numbers_lawful
  coherent := zeroNumber_coherent
  missing := rfl

theorem numberTable_values (ρ : Valuation Unit) :
    (numberTable ρ).Values NumberWidth ρ id where
  byteOf size v i hv hi := by
    cases size with
    | byte =>
      obtain rfl : i = 0 := Nat.lt_one_iff.mp hi
      change v = v / 256 ^ 0 % 256
      rw [pow_zero, Nat.div_one]
      exact (Nat.mod_eq_of_lt hv).symm
    | short => rfl
    | word => rfl
    | long => rfl
  simplify_isWidth _ _ hv := hv
  simplify _ _ := rfl
  tempify1 _ := rfl
  fromSymbolic_isWidth e size he := by
    rw [← he]
    exact Exp.unsigned_lt ρ e
  fromSymbolic _ := rfl
  ite_isWidth size c v v' hv hv' := by
    change NumberWidth _ (if c = 1 then v else v')
    split_ifs
    · exact hv
    · exact hv'
  ite _ _ _ _ := rfl
  same _ _ h := beq_iff_eq.mp h

/-! ## The selected location is written -/

section Selected

open TableMachine

variable {μ σ τ ν : Type} [VineMemory ν] {T : TableMachine μ σ τ}
  {IsWidth : ℕ → τ → Prop} {chunk : μ → I64 → Gran64 τ}
  {setChunk : μ → I64 → Gran64 τ → μ} {m : ℕ → I64 → τ} {ρ : Valuation ν}
  {val : τ → ℕ} {offExp : Exp} {size : Size} {mem : μ} {cloc maxval : I64}
  {r : ℤ}

/-- A word index times four, where the index is one. -/
def wordOffset : Exp :=
  .binOp .lshift (.temp ⟨0, [], .reg32⟩) (.int .reg8 2)

def indexOne : Valuation Unit := { Valuation.zero with temp := fun _ => 1 }

/-- A product of two shifted variables. -/
def shiftedProduct : Exp :=
  .binOp .times
    (.binOp .lshift (.temp ⟨0, [], .reg64⟩) (.int .reg8 31))
    (.binOp .lshift (.temp ⟨1, [], .reg64⟩) (.int .reg8 32))

end Selected

end Fuzzball.SymRegion
