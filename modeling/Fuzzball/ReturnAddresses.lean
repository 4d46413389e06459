import Fuzzball.AddressStrides
import Fuzzball.AddressTerms

/-!
# Stores over return addresses

`check_for_ret_addr_store` of `sym_region_frag_machine.ml`.  A concrete address
is compared with the saved locations by a loop over `int64` values, a symbolic
one by a condition over 32-bit expressions on every architecture.
-/

namespace Fuzzball.SymRegion

open Vine MemoRecursion FormulaManager

/-! ## The check -/

def retAddrSize : Arch → ℕ
  | .x86 => 4
  | .x64 => 8
  | .arm => 4

/-- `Int64.of_int offset` for `offset = 1 - ret_addr_size to size - 1`. -/
def storeOffsets (arch : Arch) (size : ℕ) : List I64 :=
  (List.range (retAddrSize arch + size - 1)).map fun k : ℕ =>
    BitVec.ofInt 64 (1 - retAddrSize arch + k)

def overlapCond (arch : Arch) (size : ℕ) (e : Exp) (loc : I64) : Exp :=
  let size_bound := BitVec.ofInt 64 (retAddrSize arch + size - 2)
  let bound_c := Exp.int .reg32 size_bound
  let first_overlap := loc - BitVec.ofInt 64 (size - 1)
  let start_c := Exp.int .reg32 first_overlap
  .binOp .le (.binOp .minus e start_c) bound_c

/-- What the check looks at: the addresses in the table that a concrete store
reaches, or a condition for each location in the table. -/
inductive RetAddrCheck
  | concrete (overwritten : List I64)
  | symbolic (conds : List (I64 × Exp))

/-- The check of an address that constant folding leaves as it is; the keys of
`ret_addrs` are given as a list. -/
def checkForRetAddrStore (arch : Arch) (v : Exp) (ty : Typ)
    (retAddrs : List I64) : OCaml RetAddrCheck := do
  let bits ← bitsOfWidth ty
  let size := bits / 8
  match v with
  | .constant (.int .reg32 addr) =>
    pure (.concrete (((storeOffsets arch size).map (addr + ·)).filter
      (· ∈ retAddrs)))
  | .constant (.int _ _) => throw (.failure "bad type in to_concrete_32")
  | e => pure (.symbolic (retAddrs.map fun loc =>
      (loc, overlapCond arch size e loc)))

theorem retAddrSize_of_ne_x64 {arch : Arch} (harch : arch ≠ .x64) :
    retAddrSize arch = 4 := by
  cases arch with
  | x86 => rfl
  | x64 => exact absurd rfl harch
  | arm => rfl

theorem regAddr_of_ne_x64 {arch : Arch} (harch : arch ≠ .x64) :
    arch.regAddr = .reg32 := by
  cases arch with
  | x86 => rfl
  | x64 => exact absurd rfl harch
  | arm => rfl

/-! ## Agreement -/

variable {μ : Type} [VineMemory μ]

/-- The constant that an address is under a valuation. -/
def addressValue (ρ : Valuation μ) (e : Exp) : Exp :=
  .int e.typ (BitVec.ofNat 64 (e.unsigned ρ))

/-- The loop reports a location for a concrete address. -/
def Reports (arch : Arch) (v : Exp) (ty : Typ) (retAddrs : List I64)
    (loc : I64) : Prop :=
  ∃ overwritten, checkForRetAddrStore arch v ty retAddrs =
    .ok (.concrete overwritten) ∧ loc ∈ overwritten

/-- A store of `size` bytes and the slot of a return address have a byte in
common, in an address space of `w` bits. -/
def Intersect (w size slot a loc : ℕ) : Prop :=
  ∃ i < size, ∃ j < slot, (a + i) % 2 ^ w = (loc + j) % 2 ^ w

/-- The three ways to tell an overlap agree on a location. -/
structure OverlapAgrees (arch : Arch) (e : Exp) (ty : Typ)
    (retAddrs : List I64) (loc : I64) (ρ : Valuation μ) : Prop where
  wellTyped : (overlapCond arch (ty.width / 8) e loc).WellTyped
  reports_iff : (overlapCond arch (ty.width / 8) e loc).unsigned ρ = 1 ↔
    Reports arch (addressValue ρ e) ty retAddrs loc
  intersect_iff : Reports arch (addressValue ρ e) ty retAddrs loc ↔
    Intersect arch.regAddr.width (ty.width / 8) (retAddrSize arch)
      (e.unsigned ρ) loc.toNat

/-! ## The concrete check -/

theorem reports_of_reg32 (arch : Arch) {ty : Typ} (hty : ty.IsReg)
    {retAddrs : List I64} {loc : I64} (hloc : loc ∈ retAddrs) (addr : I64) :
    Reports arch (.int .reg32 addr) ty retAddrs loc ↔
      ∃ k : ℕ, k < retAddrSize arch + ty.width / 8 - 1 ∧
        addr + BitVec.ofInt 64 (1 - retAddrSize arch + k) = loc := by
  have hcheck : checkForRetAddrStore arch (.int .reg32 addr) ty retAddrs =
      .ok (.concrete (((storeOffsets arch (ty.width / 8)).map
        (addr + ·)).filter (· ∈ retAddrs))) := by
    rw [checkForRetAddrStore, hty.bitsOfWidth_eq]
    rfl
  rw [Reports, hcheck]
  constructor
  · rintro ⟨_, ⟨rfl⟩, hmem⟩
    rw [List.mem_filter, List.mem_map] at hmem
    obtain ⟨⟨offset, hoffset, hsum⟩, -⟩ := hmem
    obtain ⟨k, hk, rfl⟩ := List.mem_map.mp hoffset
    exact ⟨k, List.mem_range.mp hk, hsum⟩
  · rintro ⟨k, hk, hsum⟩
    refine ⟨_, rfl, List.mem_filter.mpr ⟨?_, decide_eq_true hloc⟩⟩
    refine List.mem_map.mpr ⟨_, ?_, hsum⟩
    exact List.mem_map.mpr ⟨k, List.mem_range.mpr hk, rfl⟩

/-- For addresses below `2^32` the loop compares numbers. -/
theorem add_offset_eq_iff {a k : ℕ} {loc : I64} (ha : a < 2 ^ 32)
    (hloc : loc.toNat < 2 ^ 32) (hk : k < 2 ^ 32) :
    BitVec.ofNat 64 a + BitVec.ofInt 64 (1 - (4 : ℕ) + k) = loc ↔
      a + k = loc.toNat + 3 := by
  have hsum : (BitVec.ofNat 64 a + BitVec.ofInt 64 (1 - (4 : ℕ) + k)).toInt =
      (a : ℤ) - 3 + k := by
    rw [← BitVec.ofInt_natCast, ← BitVec.ofInt_add, BitVec.toInt_ofInt]
    rw [Int.bmod_eq_of_le (by norm_num; omega) (by norm_num; omega)]
    omega
  have htoInt : loc.toInt = loc.toNat :=
    BitVec.toInt_eq_toNat_of_lt (by omega)
  rw [← BitVec.toInt_inj, hsum, htoInt]
  omega

/-! ## The symbolic condition -/

theorem unsigned_le_iff {ρ : Valuation μ} {e1 e2 : Exp} (h : e2.typ = e1.typ) :
    (Exp.binOp .le e1 e2).unsigned ρ = 1 ↔ e1.unsigned ρ ≤ e2.unsigned ρ := by
  rw [← toNat_eval h]
  change (flag 1 ((e1.eval ρ e1.width).ule (e2.eval ρ e1.width))).toNat = 1 ↔
    (e1.eval ρ e1.width).toNat ≤ _
  rw [← BitVec.le_def, ← BitVec.ule_iff_le]
  cases (e1.eval ρ e1.width).ule (e2.eval ρ e1.width) <;> decide

theorem toNat_ofInt_pred {n : ℕ} (hpos : 0 < n) (hn : n < 2 ^ 64) :
    (BitVec.ofInt 64 (n - 1)).toNat = n - 1 := by
  rw [← Nat.cast_pred hpos, BitVec.ofInt_natCast, BitVec.toNat_ofNat]
  exact Nat.mod_eq_of_lt (by omega)

/-- The condition says that the ranges meet, however they wrap around. -/
theorem overlapCond_iff {ρ : Valuation μ} {arch : Arch} (harch : arch ≠ .x64)
    {e : Exp} (he : e.typ = .reg32) {size : ℕ} (hpos : 0 < size)
    (hsize : size ≤ 8) (loc : I64) :
    (overlapCond arch size e loc).unsigned ρ = 1 ↔
      (2 ^ 32 + e.unsigned ρ + size - 1 - loc.toNat % 2 ^ 32) % 2 ^ 32 ≤
        size + 2 := by
  have hslot : retAddrSize arch = 4 := retAddrSize_of_ne_x64 harch
  have hwidth : e.width = 32 := by rw [Exp.width, he]; rfl
  have hbound : (Exp.int .reg32 (BitVec.ofInt 64 ((4 : ℕ) + size - 2))).unsigned
      ρ = size + 2 := by
    have hval : ((4 : ℕ) + size - 2 : ℤ) = ((size + 3 : ℕ) : ℤ) - 1 := by
      push_cast
      ring
    rw [unsigned_int, hval, toNat_ofInt_pred (by omega) (by omega)]
    exact Nat.mod_eq_of_lt (by change _ < 2 ^ 32; omega)
  have hstart : (Exp.int .reg32 (loc - BitVec.ofInt 64 (size - 1))).unsigned ρ =
      (2 ^ 64 - (size - 1) + loc.toNat) % 2 ^ 64 % 2 ^ 32 := by
    rw [unsigned_int, BitVec.toNat_sub, toNat_ofInt_pred hpos (by omega)]
    rfl
  rw [overlapCond, hslot, unsigned_le_iff, unsigned_minus, hbound, hstart,
    hwidth]
  · have hloc := loc.isLt
    constructor <;> intro h <;> omega
  · exact he.symm
  · exact he.symm

/-! ## The ranges -/

theorem intersect_iff {size a l : ℕ} (ha : a < 2 ^ 32) (hl : l < 2 ^ 32)
    (hpos : 0 < size) (hsize : size ≤ 8) :
    Intersect 32 size 4 a l ↔
      (2 ^ 32 + a + size - 1 - l) % 2 ^ 32 ≤ size + 2 := by
  constructor
  · rintro ⟨i, hi, j, hj, hij⟩
    omega
  · intro h
    -- The first common byte is the first of the slot or of the store.
    by_cases hslot : (2 ^ 32 + l - a) % 2 ^ 32 < size
    · exact ⟨(2 ^ 32 + l - a) % 2 ^ 32, hslot, 0, by omega, by omega⟩
    · exact ⟨0, hpos, (2 ^ 32 + a - l) % 2 ^ 32, by omega, by omega⟩

/-! ## Both checks -/

theorem not_wellTyped_of_x64 {e : Exp} (he : e.typ = .reg64) (size : ℕ)
    (loc : I64) : ¬ (overlapCond .x64 size e loc).WellTyped := by
  rintro ⟨⟨-, -, hminus⟩, -, -⟩
  have htyp : Typ.reg32 = e.typ := hminus
  rw [he] at htyp
  exact absurd htyp (by decide)

theorem overlapCond_wellTyped {arch : Arch} {e : Exp} (h : e.WellTyped)
    (he : e.typ = .reg32) (size : ℕ) (loc : I64) :
    (overlapCond arch size e loc).WellTyped :=
  ⟨⟨h, trivial, he.symm⟩, trivial, he.symm⟩

theorem size_le (ty : Typ) : ty.width / 8 ≤ 8 := by
  have hwidth := ty.width_le
  omega

/-- On a 32-bit guest the loop finds the overlaps that do not wrap around. -/
theorem reports_iff_of_ne_x64 {ρ : Valuation μ} {arch : Arch}
    (harch : arch ≠ .x64) {e : Exp} (he : e.typ = .reg32) {ty : Typ}
    (hty : ty.IsReg) (hbyte : 8 ≤ ty.width) {retAddrs : List I64} {loc : I64}
    (hloc : loc.toNat < 2 ^ 32) (hmem : loc ∈ retAddrs) :
    Reports arch (addressValue ρ e) ty retAddrs loc ↔
      e.unsigned ρ ≤ loc.toNat + 3 ∧
        loc.toNat < e.unsigned ρ + ty.width / 8 := by
  have hslot : retAddrSize arch = 4 := retAddrSize_of_ne_x64 harch
  have hvalue : e.unsigned ρ < 2 ^ 32 := by
    have hlt := e.unsigned_lt ρ
    rw [Exp.width, he] at hlt
    exact hlt
  have hsize : ty.width / 8 ≤ 8 := size_le ty
  rw [addressValue, he, reports_of_reg32 arch hty hmem, hslot]
  constructor
  · rintro ⟨k, hk, hsum⟩
    have hnum := (add_offset_eq_iff hvalue hloc (by omega)).mp hsum
    omega
  · rintro ⟨hlow, hhigh⟩
    refine ⟨loc.toNat + 3 - e.unsigned ρ, by omega, ?_⟩
    exact (add_offset_eq_iff hvalue hloc (by omega)).mpr (by omega)

/-- The condition, the loop and the ranges agree on a 32-bit guest where
neither the store nor the slot wraps around into the other, and nowhere
else. -/
theorem overlapAgrees_iff {ρ : Valuation μ} {arch : Arch} {e : Exp} {ty : Typ}
    {retAddrs : List I64} {loc : I64} (h : e.WellTyped)
    (he : e.typ = arch.regAddr) (hty : ty.IsReg) (hbyte : 8 ≤ ty.width)
    (hloc : loc.toNat < 2 ^ arch.regAddr.width) (hmem : loc ∈ retAddrs) :
    OverlapAgrees arch e ty retAddrs loc ρ ↔
      arch ≠ .x64 ∧ e.unsigned ρ + ty.width / 8 ≤ loc.toNat + 2 ^ 32 ∧
        loc.toNat + 4 ≤ e.unsigned ρ + 2 ^ 32 := by
  by_cases harch : arch = .x64
  · subst harch
    constructor
    · intro hagrees
      exact absurd hagrees.wellTyped (not_wellTyped_of_x64 he _ _)
    · rintro ⟨hne, -⟩
      exact absurd rfl hne
  have hreg : arch.regAddr = .reg32 := regAddr_of_ne_x64 harch
  have hslot : retAddrSize arch = 4 := retAddrSize_of_ne_x64 harch
  rw [hreg] at he hloc
  have hl : loc.toNat < 2 ^ 32 := hloc
  have hvalue : e.unsigned ρ < 2 ^ 32 := by
    have hlt := e.unsigned_lt ρ
    rw [Exp.width, he] at hlt
    exact hlt
  have hpos : 0 < ty.width / 8 := by omega
  have hsize : ty.width / 8 ≤ 8 := size_le ty
  have hreports :=
    reports_iff_of_ne_x64 (ρ := ρ) harch he hty hbyte hl hmem
  have hcond : (overlapCond arch (ty.width / 8) e loc).unsigned ρ = 1 ↔
      Intersect 32 (ty.width / 8) 4 (e.unsigned ρ) loc.toNat := by
    rw [overlapCond_iff harch he hpos hsize,
      intersect_iff hvalue hl hpos hsize, Nat.mod_eq_of_lt hl]
  have hranges : Intersect arch.regAddr.width (ty.width / 8)
      (retAddrSize arch) (e.unsigned ρ) loc.toNat ↔
      Intersect 32 (ty.width / 8) 4 (e.unsigned ρ) loc.toNat := by
    rw [hreg, hslot]
    rfl
  have hmeet := intersect_iff hvalue hl hpos hsize
  constructor
  · intro hagrees
    have hboth := hreports.symm.trans (hagrees.intersect_iff.trans
      (hranges.trans hmeet))
    refine ⟨harch, ?_, ?_⟩ <;> by_contra hwrap <;> omega
  · rintro ⟨-, hhigh, hlow⟩
    have hboth : Reports arch (addressValue ρ e) ty retAddrs loc ↔
        Intersect 32 (ty.width / 8) 4 (e.unsigned ρ) loc.toNat := by
      rw [hreports, hmeet]
      omega
    exact {
      wellTyped := overlapCond_wellTyped h he _ _
      reports_iff := hcond.trans hboth.symm
      intersect_iff := hboth.trans hranges.symm }

def stackAddress (t : Typ) : Exp := .temp ⟨0, [], t⟩

theorem overlapAgrees_iff_slot :
    OverlapAgrees .x86 (stackAddress .reg32) .reg32 [0xbfff0000]
      0xbfff0000 Valuation.zero ↔
      Arch.x86 ≠ .x64 ∧
        (stackAddress .reg32).unsigned Valuation.zero + 4 ≤
          (0xbfff0000 : I64).toNat + 2 ^ 32 ∧
        (0xbfff0000 : I64).toNat + 4 ≤
          (stackAddress .reg32).unsigned Valuation.zero +
            2 ^ 32 :=
  overlapAgrees_iff (e := stackAddress .reg32) trivial rfl
    (show Typ.IsReg .reg32 from trivial) (by decide) (by decide) (List.mem_singleton_self _)

/-- On X64 the condition does not type check.  On X86 a store at the last byte
of the address space meets the slot at 0, and only the condition says so. -/
theorem overlap_disagrees :
    ¬ OverlapAgrees .x64 (stackAddress .reg64) .reg64 [0] 0
        Valuation.zero ∧
      ¬ OverlapAgrees .x86 (stackAddress .reg32) .reg32 [0] 0
        { Valuation.zero with temp := fun _ => 0xffffffff } := by
  refine ⟨fun hagrees => ?_, fun hagrees => ?_⟩
  · exact not_wellTyped_of_x64 rfl _ _ hagrees.wellTyped
  · have hmeets : Intersect 32 4 4 0xffffffff 0 :=
      ⟨1, by decide, 0, by decide, rfl⟩
    have hreports := hagrees.intersect_iff.mpr hmeets
    have hnum := (reports_iff_of_ne_x64 (by decide) rfl
      (show Typ.IsReg .reg32 from trivial) (by decide) (by decide)
      (List.mem_singleton_self _)).mp hreports
    exact absurd hnum (by decide)

end Fuzzball.SymRegion
