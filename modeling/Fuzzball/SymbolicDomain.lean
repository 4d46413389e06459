import Fuzzball.ConstantFoldMore
import Fuzzball.ExprTemps
import Fuzzball.VineValues

/-!
# Parts of symbolic values

`symbolic_domain.ml` takes a value apart by casts and shifts, or, where it is a
read of memory at a constant address, by reads of less.  Putting parts together
undoes this where the parts match.
-/

namespace Fuzzball.Vine

/-! ## Memory with 32-bit addresses -/

def WordMemory : Type := BitVec 32 → BitVec 8

namespace WordMemory

/-- The number in the `k` bytes from the address on, which wraps around. -/
def loadBytes (m : WordMemory) : ℕ → BitVec 32 → ℕ
  | 0, _ => 0
  | k + 1, a => (m a).toNat + 256 * loadBytes m k (a + 1)

def storeBytes (m : WordMemory) (a : BitVec 32) (k v : ℕ) : WordMemory :=
  fun b =>
    if (b - a).toNat < k then BitVec.ofNat 8 (v / 256 ^ (b - a).toNat) else m b

instance : VineMemory WordMemory where
  load m t a := BitVec.ofNat 64 (m.loadBytes (t.width / 8) (a.setWidth 32))
  store m t a v := m.storeBytes (a.setWidth 32) (t.width / 8) v.toNat

theorem loadBytes_lt (m : WordMemory) (k : ℕ) (a : BitVec 32) :
    m.loadBytes k a < 256 ^ k := by
  induction k generalizing a with
  | zero => exact Nat.one_pos
  | succ k ih =>
    have hbyte : (m a).toNat < 256 := (m a).isLt
    have hrest := ih (a + 1)
    rw [loadBytes, pow_succ]
    omega

theorem loadBytes_add (m : WordMemory) (j k : ℕ) (a : BitVec 32) :
    m.loadBytes (j + k) a =
      m.loadBytes j a + 256 ^ j * m.loadBytes k (a + BitVec.ofNat 32 j) := by
  induction j generalizing a with
  | zero => simp [loadBytes]
  | succ j ih =>
    have hnext : a + 1 + BitVec.ofNat 32 j = a + BitVec.ofNat 32 (j + 1) := by
      rw [BitVec.ofNat_add, BitVec.add_assoc, BitVec.add_comm 1]
      rfl
    rw [Nat.succ_add, loadBytes, loadBytes, ih, hnext]
    ring

/-- Reading some of the bytes. -/
theorem loadBytes_part {i k n : ℕ} (h : i + k ≤ n) (m : WordMemory)
    (a : BitVec 32) :
    m.loadBytes n a / 256 ^ i % 256 ^ k =
      m.loadBytes k (a + BitVec.ofNat 32 i) := by
  obtain ⟨r, rfl⟩ := Nat.exists_eq_add_of_le h
  rw [Nat.add_assoc, loadBytes_add, loadBytes_add,
    Nat.add_mul_div_left _ _ (by positivity),
    Nat.div_eq_of_lt (loadBytes_lt m i a), Nat.zero_add,
    Nat.add_mul_mod_self_left, Nat.mod_eq_of_lt (loadBytes_lt m k _)]

end WordMemory

/-- Every memory variable is one of bytes at 32-bit addresses. -/
def Exp.OnByteMemory : Exp → Prop
  | .binOp _ e1 e2 => e1.OnByteMemory ∧ e2.OnByteMemory
  | .fbinOp _ _ e1 e2 => e1.OnByteMemory ∧ e2.OnByteMemory
  | .unOp _ e1 => e1.OnByteMemory
  | .funOp _ _ e1 => e1.OnByteMemory
  | .mem v addr _ => v.typ = .tMem .reg32 .little ∧ addr.OnByteMemory
  | .cast _ _ e1 => e1.OnByteMemory
  | .fcast _ _ _ e1 => e1.OnByteMemory
  | .letTemp _ e1 e2 => e1.OnByteMemory ∧ e2.OnByteMemory
  | .letMem v addr _ e1 e2 =>
    v.typ = .tMem .reg32 .little ∧ addr.OnByteMemory ∧ e1.OnByteMemory ∧
      e2.OnByteMemory
  | .ite cond e1 e2 =>
    cond.OnByteMemory ∧ e1.OnByteMemory ∧ e2.OnByteMemory
  | _ => True

/-- `constant_fold_rec`, for any `constant_fold_more`. -/
def constantFoldRec (constantFoldMore : Exp → OCaml Exp) : Exp → OCaml Exp
  | .binOp op e1 e2 => do
    constantFoldMore (.binOp op (← constantFoldRec constantFoldMore e1)
      (← constantFoldRec constantFoldMore e2))
  | .unOp op e => do
    constantFoldMore (.unOp op (← constantFoldRec constantFoldMore e))
  | .cast op ty e => do
    constantFoldMore (.cast op ty (← constantFoldRec constantFoldMore e))
  | .mem v e ty => do
    pure (.mem v (← constantFoldRec constantFoldMore e) ty)
  | .ite ce te fe => do
    constantFoldMore (.ite (← constantFoldRec constantFoldMore ce)
      (← constantFoldRec constantFoldMore te)
      (← constantFoldRec constantFoldMore fe))
  | e => pure e

end Fuzzball.Vine

namespace Fuzzball.SymbolicDomain

open Vine

/-! ## Taking apart -/

def makeExtract (t : Typ) (which : ℕ) (e : Exp) : Exp :=
  .cast .castLow t
    (.binOp .rshift e (.int .reg8 (8 * BitVec.ofNat 64 which)))

/-- The part at byte `which`: a cast, or, away from both ends, what `middle`
makes. -/
def castExtract (part : Typ) (high : ℕ) (middle : ℕ → Exp → OCaml Exp)
    (e : Exp) (which : ℕ) : OCaml Exp :=
  if which = 0 then pure (.cast .castLow part e)
  else if which = high then pure (.cast .castHigh part e)
  else middle which e

/-- The part of type `part` at byte `which` of a value of type `whole`, which
may be a read of memory. -/
def extract (whole part : Typ) (high : ℕ) (middle : ℕ → Exp → OCaml Exp)
    (e : Exp) (which : ℕ) : OCaml Exp :=
  match e with
  | .mem v1 (.int .reg32 addr) t =>
    if t = whole then
      pure (.mem v1 (.int .reg32 (addr + BitVec.ofNat 64 which)) part)
    else castExtract part high middle e which
  | _ => castExtract part high middle e which

def badWhich (fname : String) (_ : ℕ) (_ : Exp) : OCaml Exp :=
  throw (.failure ("bad which in " ++ fname))

def extract8From64 :=
  extract .reg64 .reg8 7 fun which e => pure (makeExtract .reg8 which e)

def extract8From32 :=
  extract .reg32 .reg8 3 fun which e => pure (makeExtract .reg8 which e)

def extract8From16 := extract .reg16 .reg8 1 (badWhich "extract_8_from_16")

def extract16From64 :=
  extract .reg64 .reg16 6 fun which e => pure (makeExtract .reg16 which e)

def extract16From32 := extract .reg32 .reg16 2 (badWhich "extract_16_from_32")

def extract32From64 := extract .reg64 .reg32 4 (badWhich "extract_32_from_64")

/-! ## Putting together -/

def assemble (e e2 : Exp) : Exp := .binOp .concat e2 e

/-- What `constant_fold_rec` and `infer_type_fast` depend on. -/
structure Folding where
  wild : WildShift
  compare : Exp → Exp → Ordering
  coin : Exp → Bool

def Folding.constantFoldMore (f : Folding) : Exp → OCaml Exp :=
  Vine.constantFoldMore f.compare (constantFold f.wild fun _ => none)

variable (f : Folding)

/-- Two parts of type `part`, the second of which starts at byte `size`. -/
def reassemble (part whole : Typ) (size : I64) (e e2 : Exp) : OCaml Exp :=
  match e, e2 with
  | .int t1 _, .int t2 _ =>
    if t1 = part ∧ t2 = part then
      constantFoldRec f.constantFoldMore (assemble e e2)
    else pure (assemble e e2)
  | .mem v1 (.int .reg32 addr1) t1, .mem v2 (.int .reg32 addr2) t2 =>
    if (t1 = part ∧ t2 = part) ∧ v1 = v2 ∧ addr2 - addr1 = size then
      pure (.mem v1 (.int .reg32 addr1) whole)
    else pure (assemble e e2)
  | .cast .castLow t1 s1, .cast .castHigh t2 s2 =>
    if (t1 = part ∧ t2 = part) ∧ s1 = s2 then do
      if (← inferTypeFast f.coin s1) = whole then pure s1
      else pure (assemble e e2)
    else pure (assemble e e2)
  | _, _ => pure (assemble e e2)

def reassemble16 := reassemble f .reg8 .reg16 1
def reassemble32 := reassemble f .reg16 .reg32 2
def reassemble64 := reassemble f .reg32 .reg64 4

/-! ## The values of parts -/

/-- A value of the type, as the domain holds them. -/
structure IsValue (t : Typ) (e : Exp) : Prop where
  wellTyped : e.WellTyped
  typ_eq : e.typ = t
  onByteMemory : e.OnByteMemory

section Values

variable {ρ : Valuation WordMemory} {e e2 : Exp} {t part whole : Typ}
  {which high : ℕ}

theorem IsValue.width_eq (he : IsValue t e) : e.width = t.width := by
  rw [Exp.width, he.typ_eq]

theorem IsValue.isReg (he : IsValue t e) : t.IsReg :=
  he.typ_eq ▸ he.wellTyped.isReg

theorem IsValue.unsigned_lt (he : IsValue t e) (ρ : Valuation WordMemory) :
    e.unsigned ρ < 2 ^ t.width := he.width_eq ▸ Exp.unsigned_lt ρ e

theorem isValue_cast {ct : CastType} (he : IsValue t e) (hp : part.IsReg)
    (hadm : ct.Admits part t) : IsValue part (.cast ct part e) :=
  ⟨⟨he.wellTyped, hp, he.typ_eq ▸ hadm⟩, rfl, he.onByteMemory⟩

theorem unsigned_castHigh (he : IsValue t e) (h : part.width ≤ t.width) :
    (Exp.cast .castHigh part e).unsigned ρ =
      e.unsigned ρ / 2 ^ (t.width - part.width) := by
  rw [← he.width_eq] at h ⊢
  exact Bits.toNat_high _ h

theorem isValue_makeExtract (he : IsValue t e) (hp : part.IsReg)
    (h : part.width ≤ t.width) (which : ℕ) :
    IsValue part (makeExtract part which e) :=
  ⟨⟨⟨he.wellTyped, trivial, trivial⟩, hp, he.typ_eq ▸ h⟩, rfl,
    he.onByteMemory, trivial⟩

theorem unsigned_makeExtract (hwhich : which < 32) :
    (makeExtract part which e).unsigned ρ =
      e.unsigned ρ / 256 ^ which % 2 ^ part.width := by
  have hamount : (Exp.int .reg8 (8 * BitVec.ofNat 64 which)).unsigned ρ =
      8 * which := by
    rw [unsigned_int, BitVec.toNat_mul, BitVec.toNat_ofNat]
    change 8 * (which % 2 ^ 64) % 2 ^ 64 % 2 ^ 8 = _
    omega
  rw [makeExtract, unsigned_castLow, unsigned_rshift, hamount, pow_mul]
  norm_num

/-- A read of memory at a constant address. -/
theorem unsigned_mem {v : Var} {addr : I64} :
    (Exp.mem v (.int .reg32 addr) t).unsigned ρ =
      (ρ.mem v).loadBytes (t.width / 8) (addr.setWidth 32) := by
  have haddr : ((addr.setWidth 32).setWidth 64).setWidth 32 =
      addr.setWidth 32 := Bits.setWidth_setWidth_self (by norm_num) _
  have hlt : (ρ.mem v).loadBytes (t.width / 8) (addr.setWidth 32) <
      2 ^ t.width := by
    apply (WordMemory.loadBytes_lt _ _ _).trans_le
    change (2 ^ 8) ^ (t.width / 8) ≤ _
    rw [← pow_mul]
    exact Nat.pow_le_pow_right (by norm_num) (Nat.mul_div_le _ _)
  have hbig : 2 ^ t.width ≤ 2 ^ 64 :=
    Nat.pow_le_pow_right (by norm_num) t.width_le
  change ((BitVec.ofNat 64 ((ρ.mem v).loadBytes (t.width / 8)
    (((addr.setWidth 32).setWidth 64).setWidth 32))).setWidth t.width).toNat = _
  rw [haddr, BitVec.toNat_setWidth, BitVec.toNat_ofNat,
    Nat.mod_eq_of_lt (hlt.trans_le hbig), Nat.mod_eq_of_lt hlt]

/-- The widths are of whole bytes, and the part at the top is where the cast
takes it from. -/
structure Parts (whole part : Typ) (high : ℕ) : Prop where
  part_isReg : part.IsReg
  part_bytes : part.width = 8 * (part.width / 8)
  whole_eq : whole.width = 8 * high + part.width

theorem Parts.le (h : Parts whole part high) : part.width ≤ whole.width := by
  rw [h.whole_eq]
  exact Nat.le_add_left _ _

theorem isValue_part {v : Var} {addr : I64} (hp : part.IsReg)
    (he : IsValue whole (.mem v (.int .reg32 addr) t)) (addr' : I64) :
    IsValue part (.mem v (.int .reg32 addr') part) := by
  obtain ⟨⟨-, -, -⟩, rfl, ⟨hv, -⟩⟩ := he
  refine ⟨⟨trivial, hp, ?_⟩, rfl, hv, trivial⟩
  rw [hv]
  rfl

/-- What an extraction of bytes from the place `which` on returns. -/
def ExtractsAt (ρ : Valuation WordMemory) (part : Typ) (e : Exp) (which : ℕ)
    (res : OCaml Exp) : Prop :=
  ∃ e', res = .ok e' ∧ IsValue part e' ∧
    e'.unsigned ρ = e.unsigned ρ / 256 ^ which % 2 ^ part.width

theorem extract_mem {v : Var} {addr : I64} {middle : ℕ → Exp → OCaml Exp}
    (hparts : Parts whole part high) (hwhich : which ≤ high)
    (he : IsValue whole (.mem v (.int .reg32 addr) t)) :
    ExtractsAt ρ part (.mem v (.int .reg32 addr) t) which
      (extract whole part high middle (.mem v (.int .reg32 addr) t) which) := by
  have ht : t = whole := he.typ_eq
  have hbytes := hparts.part_bytes
  have hwhole := hparts.whole_eq
  have hpow : (2 : ℕ) ^ part.width = 256 ^ (part.width / 8) := by
    conv_lhs => rw [hbytes]
    rw [pow_mul]
    norm_num
  refine ⟨_, if_pos ht, isValue_part hparts.part_isReg he _, ?_⟩
  rw [unsigned_mem, unsigned_mem, ht, hpow,
    WordMemory.loadBytes_part (by omega)]
  congr 1
  rw [BitVec.setWidth_add _ _ (by norm_num), BitVec.setWidth_ofNat_of_le]
  norm_num

/-- The casts and shifts, for an expression that is not read in parts. -/
theorem extract_generic {middle : ℕ → Exp → OCaml Exp} (e : Exp) (which : ℕ)
    (h : (∃ v addr, e = .mem v (.int .reg32 addr) whole) → False) :
    extract whole part high middle e which =
      castExtract part high middle e which := by
  unfold extract
  split
  · rename_i v addr t
    apply if_neg
    rintro rfl
    exact h ⟨v, addr, rfl⟩
  · rfl

theorem extractsAt_low (he : IsValue t e) (hp : part.IsReg)
    (h : part.width ≤ t.width) :
    ExtractsAt ρ part e 0 (.ok (.cast .castLow part e)) := by
  refine ⟨_, rfl, isValue_cast he hp h, ?_⟩
  rw [unsigned_castLow, pow_zero, Nat.div_one]

theorem extractsAt_high (he : IsValue t e) (hparts : Parts t part high) :
    ExtractsAt ρ part e high (.ok (.cast .castHigh part e)) := by
  have hle := hparts.le
  refine ⟨_, rfl, isValue_cast he hparts.part_isReg hle, ?_⟩
  have hlt : e.unsigned ρ < 2 ^ (8 * high) * 2 ^ part.width := by
    rw [← pow_add, ← hparts.whole_eq]
    exact he.unsigned_lt ρ
  have hsub : t.width - part.width = 8 * high := by
    rw [hparts.whole_eq, Nat.add_sub_cancel]
  rw [unsigned_castHigh he hle, hsub, show 256 ^ high = 2 ^ (8 * high) by
    rw [pow_mul]
    norm_num, Nat.mod_eq_of_lt (Nat.div_lt_of_lt_mul hlt)]

theorem extractsAt_middle (he : IsValue t e) (hp : part.IsReg)
    (h : part.width ≤ t.width) (hwhich : which < 32) :
    ExtractsAt ρ part e which (.ok (makeExtract part which e)) :=
  ⟨_, rfl, isValue_makeExtract he hp h which, unsigned_makeExtract hwhich⟩

/-- At both ends, and between them where `middle` shifts. -/
theorem extract_spec {middle : ℕ → Exp → OCaml Exp}
    (hparts : Parts whole part high) (he : IsValue whole e)
    (hwhich : which = 0 ∨ which = high ∨ (which ≤ high ∧ which < 32 ∧
      ∀ e, middle which e = .ok (makeExtract part which e))) :
    ExtractsAt ρ part e which (extract whole part high middle e which) := by
  have hle : which ≤ high := by
    rcases hwhich with rfl | rfl | ⟨h, -⟩
    · exact Nat.zero_le _
    · exact le_rfl
    · exact h
  by_cases hmem : ∃ v addr, e = .mem v (.int .reg32 addr) whole
  · obtain ⟨v, addr, rfl⟩ := hmem
    exact extract_mem hparts hle he
  · rw [extract_generic e which hmem, castExtract]
    split_ifs with h0 hhigh
    · rw [h0]
      exact extractsAt_low he hparts.part_isReg hparts.le
    · rw [hhigh]
      exact extractsAt_high he hparts
    · rcases hwhich with rfl | rfl | ⟨-, hsmall, hmiddle⟩
      · exact absurd rfl h0
      · exact absurd rfl hhigh
      · rw [hmiddle]
        exact extractsAt_middle he hparts.part_isReg hparts.le hsmall

theorem extract8From64_spec (he : IsValue .reg64 e) (h : which < 8) :
    ExtractsAt ρ .reg8 e which (extract8From64 e which) := by
  have hparts : Parts .reg64 .reg8 7 := ⟨trivial, rfl, rfl⟩
  exact extract_spec hparts he
    (.inr (.inr ⟨by omega, by omega, fun _ => rfl⟩))

theorem extract8From32_spec (he : IsValue .reg32 e) (h : which < 4) :
    ExtractsAt ρ .reg8 e which (extract8From32 e which) := by
  have hparts : Parts .reg32 .reg8 3 := ⟨trivial, rfl, rfl⟩
  exact extract_spec hparts he
    (.inr (.inr ⟨by omega, by omega, fun _ => rfl⟩))

theorem extract8From16_spec (he : IsValue .reg16 e)
    (h : which = 0 ∨ which = 1) :
    ExtractsAt ρ .reg8 e which (extract8From16 e which) := by
  have hparts : Parts .reg16 .reg8 1 := ⟨trivial, rfl, rfl⟩
  apply extract_spec hparts he
  rcases h with rfl | rfl
  · exact .inl rfl
  · exact .inr (.inl rfl)

theorem extract16From64_spec (he : IsValue .reg64 e) (h : which < 7) :
    ExtractsAt ρ .reg16 e which (extract16From64 e which) := by
  have hparts : Parts .reg64 .reg16 6 := ⟨trivial, rfl, rfl⟩
  exact extract_spec hparts he
    (.inr (.inr ⟨by omega, by omega, fun _ => rfl⟩))

theorem extract16From32_spec (he : IsValue .reg32 e)
    (h : which = 0 ∨ which = 2) :
    ExtractsAt ρ .reg16 e which (extract16From32 e which) := by
  have hparts : Parts .reg32 .reg16 2 := ⟨trivial, rfl, rfl⟩
  apply extract_spec hparts he
  rcases h with rfl | rfl
  · exact .inl rfl
  · exact .inr (.inl rfl)

theorem extract32From64_spec (he : IsValue .reg64 e)
    (h : which = 0 ∨ which = 4) :
    ExtractsAt ρ .reg32 e which (extract32From64 e which) := by
  have hparts : Parts .reg64 .reg32 4 := ⟨trivial, rfl, rfl⟩
  apply extract_spec hparts he
  rcases h with rfl | rfl
  · exact .inl rfl
  · exact .inr (.inl rfl)

/-- Of a 64-bit value the byte extracted as the third of 32 bits is the top
one; the others are what they should be. -/
theorem extract8From32_of_reg64 (he : IsValue .reg64 e) (h : which < 8) :
    ExtractsAt ρ .reg8 e (if which = 3 then 7 else which)
      (extract8From32 e which) := by
  have hmem : (∃ v addr, e = .mem v (.int .reg32 addr) .reg32) → False := by
    rintro ⟨v, addr, rfl⟩
    cases he.typ_eq
  have hparts : Parts .reg64 .reg8 7 := ⟨trivial, rfl, rfl⟩
  rw [extract8From32, extract_generic e which hmem, castExtract]
  split_ifs with h3 h0 h0
  · omega
  · exact extractsAt_high he hparts
  · rw [h0]
    exact extractsAt_low he trivial hparts.le
  · exact extractsAt_middle he trivial hparts.le (by omega)

end Values

/-! ## The values of what is put together -/

section Reassemble

variable {f : Folding} {ρ : Valuation WordMemory} {e e2 : Exp}
  {part : Typ} {size : I64}

/-- The types of which two values make one. -/
def IsHalf (part : Typ) : Prop := part = .reg8 ∨ part = .reg16 ∨ part = .reg32

theorem IsHalf.isReg (h : IsHalf part) : part.IsReg := by
  rcases h with rfl | rfl | rfl <;> trivial

theorem IsHalf.width_double (h : IsHalf part) :
    part.double.width = part.width + part.width := by
  rcases h with rfl | rfl | rfl <;> rfl

/-- What putting together a low and a high part returns. -/
def Joins (ρ : Valuation WordMemory) (part : Typ) (e e2 : Exp)
    (res : OCaml Exp) : Prop :=
  ∃ e', res = .ok e' ∧ IsValue part.double e' ∧
    e'.unsigned ρ = e.unsigned ρ + 2 ^ part.width * e2.unsigned ρ

theorem unsigned_concat (h : IsHalf part) (he : IsValue part e)
    (he2 : IsValue part e2) :
    (assemble e e2).unsigned ρ =
      e.unsigned ρ + 2 ^ part.width * e2.unsigned ρ := by
  have hlt := he.unsigned_lt ρ
  have hlt2 := he2.unsigned_lt ρ
  have hwidth : (assemble e e2).width = part.width + part.width := by
    change (e2.typ.double).width = _
    rw [he2.typ_eq, h.width_double]
  have hsum : e2.unsigned ρ * 2 ^ e.width + e.unsigned ρ <
      2 ^ (part.width + part.width) := by
    rw [he.width_eq, pow_add]
    have hmul := Nat.mul_le_mul_right (2 ^ part.width) (Nat.succ_le_of_lt hlt2)
    rw [Nat.succ_mul] at hmul
    omega
  have happend : (e2.eval ρ e2.width ++ e.eval ρ e.width).toNat =
      e2.unsigned ρ * 2 ^ e.width + e.unsigned ρ := by
    rw [BitVec.toNat_append, ← Nat.shiftLeft_add_eq_or_of_lt
      (BitVec.isLt _), Nat.shiftLeft_eq]
    rfl
  change ((e2.eval ρ e2.width ++ e.eval ρ e.width).setWidth
    (assemble e e2).width).toNat = _
  rw [hwidth, BitVec.toNat_setWidth, happend, Nat.mod_eq_of_lt hsum,
    he.width_eq]
  ring

theorem isValue_assemble (h : IsHalf part) (he : IsValue part e)
    (he2 : IsValue part e2) : IsValue part.double (assemble e e2) := by
  obtain ⟨hw, rfl, hm⟩ := he
  obtain ⟨hw2, htyp, hm2⟩ := he2
  refine ⟨⟨hw2, hw, htyp.symm, ?_⟩, ?_, hm2, hm⟩
  · rw [htyp]
    exact h
  · change e2.typ.double = _
    rw [htyp]

theorem joins_assemble (h : IsHalf part) (he : IsValue part e)
    (he2 : IsValue part e2) : Joins ρ part e e2 (.ok (assemble e e2)) :=
  ⟨_, rfl, isValue_assemble h he he2, unsigned_concat h he he2⟩

theorem joins_constants (h : IsHalf part) (x y : I64) :
    Joins ρ part (.int part x) (.int part y)
      (constantFoldRec f.constantFoldMore
        (assemble (.int part x) (.int part y))) := by
  have hreg := h.isReg
  have hadm : BinopType.Admits .concat part part := ⟨rfl, h⟩
  have hfold : constantFoldRec f.constantFoldMore
      (assemble (.int part x) (.int part y)) =
      .ok (.int part.double
        (assemble (.int part x) (.int part y)).constantValue) := by
    change constantFold f.wild (fun _ => none)
      (.binOp .concat (.int part y) (.int part x)) = _
    rw [constantFold, constantFoldStep_binOp _ _ _ (by decide)]
    exact foldBinop_eq f.wild .concat y x hreg hadm (by decide)
  have hx : IsValue part (.int part x) := ⟨hreg, rfl, trivial⟩
  have hy : IsValue part (.int part y) := ⟨hreg, rfl, trivial⟩
  refine ⟨_, hfold, ⟨hreg.double, rfl, trivial⟩, ?_⟩
  rw [← unsigned_concat h hx hy]
  change (((assemble (.int part x) (.int part y)).constantValue).setWidth
    part.double.width).toNat = _
  rw [Exp.constantValue]
  change ((((assemble (.int part x) (.int part y)).eval Valuation.zero
    part.double.width).setWidth 64).setWidth part.double.width).toNat = _
  rw [setWidth_zeroExtend part.double.width_le]
  rfl

theorem joins_reads {v : Var} {addr1 addr2 : I64} (h : IsHalf part)
    (hsize : size = BitVec.ofNat 64 (part.width / 8))
    (he : IsValue part (.mem v (.int .reg32 addr1) part))
    (hdist : addr2 - addr1 = size) :
    Joins ρ part (.mem v (.int .reg32 addr1) part)
      (.mem v (.int .reg32 addr2) part)
      (.ok (.mem v (.int .reg32 addr1) part.double)) := by
  refine ⟨_, rfl, isValue_part h.isReg.double he addr1, ?_⟩
  have hsecond : addr2.setWidth 32 =
      addr1.setWidth 32 + BitVec.ofNat 32 (part.width / 8) := by
    have hsum : addr2 = addr1 + BitVec.ofNat 64 (part.width / 8) := by
      rw [← hsize, ← hdist, BitVec.add_comm, BitVec.sub_add_cancel]
    rw [hsum, BitVec.setWidth_add _ _ (by norm_num),
      BitVec.setWidth_ofNat_of_le (by norm_num)]
  have hbytes : part.double.width / 8 = part.width / 8 + part.width / 8 := by
    rcases h with rfl | rfl | rfl <;> rfl
  have hpow : (256 : ℕ) ^ (part.width / 8) = 2 ^ part.width := by
    rcases h with rfl | rfl | rfl <;> rfl
  rw [unsigned_mem, unsigned_mem, unsigned_mem, hbytes,
    WordMemory.loadBytes_add, hsecond, hpow]

/-- The low and the high part of one value. -/
theorem joins_casts (h : IsHalf part) {s1 : Exp}
    (hs : IsValue part.double s1) :
    Joins ρ part (.cast .castLow part s1) (.cast .castHigh part s1)
      (.ok s1) := by
  refine ⟨_, rfl, hs, ?_⟩
  have hle : part.width ≤ part.double.width := by
    rw [h.width_double]
    exact Nat.le_add_left _ _
  have hsub : part.double.width - part.width = part.width := by
    rw [h.width_double, Nat.add_sub_cancel]
  rw [unsigned_castLow, unsigned_castHigh hs hle, hsub, Nat.mod_add_div]

theorem reassemble_spec (h : IsHalf part)
    (hsize : size = BitVec.ofNat 64 (part.width / 8)) (he : IsValue part e)
    (he2 : IsValue part e2) :
    Joins ρ part e e2 (reassemble f part part.double size e e2) := by
  have hplain := joins_assemble (ρ := ρ) h he he2
  unfold reassemble
  split
  · rename_i t1 x t2 y
    obtain rfl : t1 = part := he.typ_eq
    obtain rfl : t2 = t1 := he2.typ_eq
    rw [if_pos ⟨rfl, rfl⟩]
    exact joins_constants h x y
  · rename_i v1 addr1 t1 v2 addr2 t2
    split_ifs with hcond
    · obtain ⟨⟨rfl, rfl⟩, rfl, hdist⟩ := hcond
      exact joins_reads h hsize he hdist
    · exact hplain
  · rename_i t1 s1 t2 s2
    split_ifs with hcond
    · obtain ⟨⟨rfl, rfl⟩, rfl⟩ := hcond
      obtain ⟨⟨hw, -, -⟩, -, hm⟩ := he
      rw [hw.inferTypeFast_eq, OCaml.ok_bind]
      split_ifs with htyp
      · exact joins_casts h ⟨hw, htyp, hm⟩
      · exact hplain
    · exact hplain
  · exact hplain

theorem reassemble16_spec (he : IsValue .reg8 e) (he2 : IsValue .reg8 e2) :
    Joins ρ .reg8 e e2 (reassemble16 f e e2) :=
  reassemble_spec (.inl rfl) rfl he he2

theorem reassemble32_spec (he : IsValue .reg16 e) (he2 : IsValue .reg16 e2) :
    Joins ρ .reg16 e e2 (reassemble32 f e e2) :=
  reassemble_spec (.inr (.inl rfl)) rfl he he2

theorem reassemble64_spec (he : IsValue .reg32 e) (he2 : IsValue .reg32 e2) :
    Joins ρ .reg32 e e2 (reassemble64 f e e2) :=
  reassemble_spec (.inr (.inr rfl)) rfl he he2

end Reassemble

end Fuzzball.SymbolicDomain
