import Fuzzball.X64GuestState
import Fuzzball.X64FlagValues

/-!
# Sub-registers

Every get that the translation accepts reads the bytes at its offset, and
every put changes these bytes of one variable only.
-/

namespace Fuzzball.Asmir.X64

open Vine Bits

variable {μ : Type} [VineMemory μ] {ρ : Valuation μ} {L : GuestLayout}

/-! ## Places of registers -/

def Reg.bytes : Reg → ℕ
  | .fptag _ => 1
  | .ftop | .emnote => 4
  | _ => 8

theorem Reg.width_typ (r : Reg) : r.typ.width = 8 * r.bytes := by
  cases r <;> rfl

theorem Reg.bytes_le (r : Reg) : r.bytes ≤ 8 := by
  cases r <;> simp [Reg.bytes]

/-- The field that a register is in, and where it is there. -/
def Reg.place : Reg → Field × ℕ
  | .whole r => (.whole r, 0)
  | .ymm n lane => (.ymm n.castSucc, 8 * lane)
  | .fpreg i => (.fpregs, 8 * i)
  | .fptag i => (.fptags, i)
  | .ftop => (.ftop, 0)
  | .emnote => (.emnote, 0)

def Reg.offset (L : GuestLayout) (r : Reg) : ℕ :=
  L.offset r.place.1 + r.place.2

theorem Reg.place_le (r : Reg) : r.place.2 + r.bytes ≤ r.place.1.size := by
  cases r <;> simp only [Reg.place, Reg.bytes, Field.size] <;> omega

/-- Different registers have no byte in common. -/
theorem Reg.apart (L : GuestLayout) {r r' : Reg} (h : r ≠ r') :
    r.offset L + r.bytes ≤ r'.offset L ∨ r'.offset L + r'.bytes ≤ r.offset L := by
  have hr := r.place_le
  have hr' := r'.place_le
  unfold Reg.offset
  by_cases hfield : r.place.1 = r'.place.1
  · rw [hfield]
    cases r <;> cases r' <;>
      simp only [Reg.place, Reg.bytes, Field.whole.injEq, Field.ymm.injEq,
        reduceCtorEq, ne_eq, Reg.whole.injEq, Reg.ymm.injEq, Reg.fpreg.injEq,
        Reg.fptag.injEq, Fin.ext_iff, Fin.val_castSucc, not_true_eq_false]
        at hfield h ⊢ <;>
      first | exact absurd hfield h | omega
  · rcases L.apart _ _ hfield with hlt | hlt
    · left
      omega
    · right
      omega

/-! ## Variables -/

theorem Whole.info_id (r : Whole) : -30 ≤ r.info.2 ∧ r.info.2 ≤ -1 := by
  cases r <;> decide

/-- The registers by their numbers. -/
def Whole.ofId (id : ℤ) : Option Whole :=
  (gprs ++ specialRegs)[(-id).toNat - 1]?

theorem Whole.ofId_info (r : Whole) : Whole.ofId r.info.2 = some r := by
  cases r <;> rfl

theorem Whole.info_injective {r r' : Whole} (h : r.info.2 = r'.info.2) :
    r = r' := by
  have hid := congrArg Whole.ofId h
  rw [Whole.ofId_info, Whole.ofId_info] at hid
  exact Option.some.inj hid

theorem Reg.info_id (r : Reg) : -400 < r.info.2 ∧ r.info.2 < 0 := by
  cases r with
  | whole r =>
    have h := r.info_id
    simp only [Reg.info]
    omega
  | ymm n lane | fpreg i | fptag i =>
    simp only [Reg.info]
    omega
  | ftop | emnote => decide

theorem Reg.var_injective : Function.Injective Reg.var := by
  intro r r' h
  have hid : r.info.2 = r'.info.2 := congrArg Var.id h
  cases r with
  | whole w =>
    have hw := w.info_id
    cases r' with
    | whole w' => exact congrArg Reg.whole (Whole.info_injective hid)
    | _ =>
      simp only [Reg.info] at hid
      omega
  | ymm n lane =>
    cases r' with
    | whole w' =>
      have hw' := w'.info_id
      simp only [Reg.info] at hid
      omega
    | ymm n' lane' =>
      simp only [Reg.info] at hid
      simp only [Reg.ymm.injEq, Fin.ext_iff]
      omega
    | _ =>
      simp only [Reg.info] at hid
      omega
  | fpreg i =>
    cases r' with
    | whole w' =>
      have hw' := w'.info_id
      simp only [Reg.info] at hid
      omega
    | fpreg i' =>
      simp only [Reg.info] at hid
      simp only [Reg.fpreg.injEq, Fin.ext_iff]
      omega
    | _ =>
      simp only [Reg.info] at hid
      omega
  | fptag i =>
    cases r' with
    | whole w' =>
      have hw' := w'.info_id
      simp only [Reg.info] at hid
      omega
    | fptag i' =>
      simp only [Reg.info] at hid
      simp only [Reg.fptag.injEq, Fin.ext_iff]
      omega
    | _ =>
      simp only [Reg.info] at hid
      omega
  | ftop | emnote =>
    cases r' with
    | whole w' =>
      have hw' := w'.info_id
      simp only [Reg.info] at hid
      omega
    | _ =>
      simp only [Reg.info] at hid
      first | rfl | omega

/-! ## Registers as operands -/

theorem denotes_reg (ρ : Valuation μ) (r : Reg) :
    Denotes ρ (.temp r.var) r.typ ((ρ.temp r.var).setWidth r.typ.width) :=
  ⟨rfl, rfl, rfl⟩

theorem denotes_reg64 (ρ : Valuation μ) {r : Reg} (hr : r.typ = .reg64) :
    Denotes ρ (.temp r.var) .reg64 (ρ.temp r.var) :=
  ⟨hr, rfl, BitVec.setWidth_eq _⟩

theorem lane_reg (x : I64) {r : Reg} {i : ℕ} (hi : i < r.bytes) :
    lane 8 (x.setWidth r.typ.width) i = lane 8 x i :=
  lane_setWidth x hi (le_of_eq r.width_typ.symm)

theorem Reg.bytes_of_typ {r : Reg} (hr : r.typ = .reg64) : r.bytes = 8 := by
  have hw := r.width_typ
  rw [hr] at hw
  change 64 = 8 * r.bytes at hw
  omega

/-- The expression has the bytes of a register from the offset on. -/
def GetsAt (L : GuestLayout) (offset : ℕ) (t : Typ) (e : Exp) : Prop :=
  ∃ (r : Reg) (lo : ℕ), offset = r.offset L + lo ∧
    lo + t.width / 8 ≤ r.bytes ∧ ReadsOnly (· = r.var) e ∧
    ∀ {μ : Type} [VineMemory μ] (ρ : Valuation μ), ∃ x : BitVec t.width,
      Denotes ρ e t x ∧
        ∀ i < t.width / 8, lane 8 x i = lane 8 (ρ.temp r.var) (lo + i)

/-- The statement changes the bytes of a register from the offset on. -/
def PutsAt (L : GuestLayout) (offset : ℕ) (t : Typ) (put : PutStmt) : Prop :=
  ∃ (r : Reg) (lo : ℕ), offset = r.offset L + lo ∧
    lo + t.width / 8 ≤ r.bytes ∧
    ∀ {μ : Type} [VineMemory μ] (ρ : Valuation μ) {data : Exp}
      {x : BitVec t.width}, Denotes ρ data t x →
      ∃ (e : Exp) (y : BitVec r.typ.width), put data = .move r.var e ∧
        Denotes ρ e r.typ y ∧
        ∀ i < r.bytes, lane 8 y i =
          if lo ≤ i ∧ i < lo + t.width / 8 then lane 8 x (i - lo)
          else lane 8 (ρ.temp r.var) i

theorem getsAt_reg (r : Reg) : GetsAt L (r.offset L) r.typ (.temp r.var) := by
  have hw := r.width_typ
  refine ⟨r, 0, rfl, by omega, rfl, ?_⟩
  intro μ _ ρ
  refine ⟨_, denotes_reg ρ r, ?_⟩
  intro i hi
  rw [lane_reg _ (by omega), Nat.zero_add]

theorem putsAt_reg (r : Reg) :
    PutsAt L (r.offset L) r.typ fun data => .move r.var data := by
  have hw := r.width_typ
  refine ⟨r, 0, rfl, by omega, ?_⟩
  intro μ _ ρ data x hx
  refine ⟨data, x, rfl, hx, ?_⟩
  intro i hi
  rw [if_pos (by omega), Nat.sub_zero]

/-- The low bytes of a register. -/
theorem getsAt_low {r : Reg} (hr : r.typ = .reg64) {t : Typ} {n : ℕ}
    (ht : t.width = 8 * n) (hn : n ≤ 8) :
    GetsAt L (r.offset L) t (exLCast (.temp r.var) t) := by
  have hbytes := Reg.bytes_of_typ hr
  refine ⟨r, 0, rfl, by omega, rfl, ?_⟩
  intro μ _ ρ
  refine ⟨_, (denotes_reg64 ρ hr).lcast t, ?_⟩
  intro i hi
  rw [lane_setWidth (k := n) _ (by omega) (by omega), Nat.zero_add]

theorem getsAt_high8 {r : Reg} (hr : r.typ = .reg64) :
    GetsAt L (r.offset L + 1) .reg8
      (exHCast (exLCast (.temp r.var) .reg16) .reg8) := by
  have hbytes := Reg.bytes_of_typ hr
  refine ⟨r, 1, rfl, ?_, rfl, ?_⟩
  · rw [hbytes]
    decide
  intro μ _ ρ
  refine ⟨_, ((denotes_reg64 ρ hr).lcast .reg16).hcast .reg8, ?_⟩
  intro i hi
  have hi : i < 1 := hi
  change lane 8 (high 8 ((ρ.temp r.var).setWidth 16)) i = _
  rw [lane_high (k := 1) (l := 1) _ hi rfl rfl,
    lane_setWidth (k := 2) _ (by omega) (by decide)]

theorem getsAt_high32 {r : Reg} (hr : r.typ = .reg64) :
    GetsAt L (r.offset L + 4) .reg32 (exHCast (.temp r.var) .reg32) := by
  have hbytes := Reg.bytes_of_typ hr
  refine ⟨r, 4, rfl, ?_, rfl, ?_⟩
  · rw [hbytes]
    decide
  intro μ _ ρ
  refine ⟨_, (denotes_reg64 ρ hr).hcast .reg32, ?_⟩
  intro i hi
  have hi : i < 4 := hi
  change lane 8 (high 32 (ρ.temp r.var)) i = _
  rw [lane_high (k := 4) (l := 4) _ hi rfl rfl]

/-! ## Masks -/

section Masks

variable {n : ℕ}

/-- Bytes under a mask of whole bytes. -/
theorem lane_masked (x mask : I64) {i : ℕ} {keep : Bool}
    (h : lane 8 mask i = if keep then BitVec.allOnes 8 else 0) :
    lane 8 (x &&& mask) i = if keep then lane 8 x i else 0 := by
  rw [lane_and, h]
  cases keep with
  | false => simp
  | true => exact BitVec.and_allOnes

/-- The low `n` bytes are put into a register. -/
theorem putsAt_low {r : Reg} (hr : r.typ = .reg64) {t : Typ}
    (ht : t.width = 8 * n) (hn : n ≤ 8) {mask : I64}
    (hmask : ∀ i < 8, lane 8 mask i =
      if decide (n ≤ i) then BitVec.allOnes 8 else 0) :
    PutsAt L (r.offset L) t fun data => .move r.var
      (exOr (exAnd (.temp r.var) (exConst64 mask)) (exUCast data .reg64)) := by
  have hbytes := Reg.bytes_of_typ hr
  refine ⟨r, 0, rfl, by omega, ?_⟩
  intro μ _ ρ data x hx
  rw [hr]
  refine ⟨_, _, rfl,
    ((denotes_reg64 ρ hr).and (.const64 mask)).or (hx.ucast .reg64), ?_⟩
  intro i hi
  rw [hbytes] at hi
  change lane 8 (ρ.temp r.var &&& mask ||| x.setWidth 64) i = _
  rw [lane_or, lane_masked _ _ (hmask i hi),
    lane_setWidth_of_le _ (by omega : t.width ≤ 64)]
  by_cases hin : n ≤ i
  · have hout : ¬(0 ≤ i ∧ i < 0 + t.width / 8) := by omega
    rw [lane_of_ge x (by omega), if_neg hout, decide_eq_true hin, if_pos rfl]
    exact BitVec.or_zero
  · have hput : 0 ≤ i ∧ i < 0 + t.width / 8 := by omega
    rw [if_pos hput, decide_eq_false hin, if_neg Bool.false_ne_true]
    exact BitVec.zero_or

/-- The second byte is put into a register. -/
theorem putsAt_high8 {r : Reg} (hr : r.typ = .reg64) :
    PutsAt L (r.offset L + 1) .reg8 fun data => .move r.var
      (exOr (exAnd (.temp r.var) (exConst64 0xffffffffffff00ff))
        (exShl (exUCast data .reg64) (exConst 8))) := by
  have hbytes := Reg.bytes_of_typ hr
  refine ⟨r, 1, rfl, ?_, ?_⟩
  · rw [hbytes]
    decide
  intro μ _ ρ data x hx
  have hx : Denotes ρ data .reg8 (x : BitVec 8) := hx
  rw [hr]
  refine ⟨_, _, rfl, ((denotes_reg64 ρ hr).and (.const64 _)).or
    ((hx.ucast .reg64).shl (.const32 8)), ?_⟩
  intro i hi
  rw [hbytes] at hi
  have hmask : ∀ i < 8, lane 8 (0xffffffffffff00ff : I64) i =
      if decide (i ≠ 1) then BitVec.allOnes 8 else 0 := by decide
  change lane 8 (ρ.temp r.var &&& (0xffffffffffff00ff : I64) |||
    x.setWidth 64 <<< (8 * 1)) i = _
  rw [lane_or, lane_masked _ _ (hmask i hi)]
  change _ = if 1 ≤ i ∧ i < 1 + 1 then _ else _
  match i with
  | 0 =>
    rw [lane_shiftLeft_of_lt _ Nat.zero_lt_one]
    exact BitVec.or_zero
  | 1 =>
    have hlane := lane_shiftLeft_add (w := 8) (x.setWidth 64) (k := 1) (i := 0)
      (by decide)
    rw [lane_setWidth_of_le _ (by decide)] at hlane
    change 0 ||| lane 8 (x.setWidth 64 <<< (8 * 1)) (1 + 0) = lane 8 x 0
    rw [hlane]
    exact BitVec.zero_or
  | i + 2 =>
    have hlane := lane_shiftLeft_add (w := 8) (x.setWidth 64) (k := 1)
      (i := i + 1) (by omega)
    rw [lane_setWidth_of_le x (by decide),
      lane_of_ge (w := 8) x (show Typ.reg8.width ≤ 8 * (i + 1) by
        change 8 ≤ _
        omega),
      show 1 + (i + 1) = i + 2 by omega] at hlane
    have hout : ¬(1 ≤ i + 2 ∧ i + 2 < 1 + 1) := by omega
    have hkeep : i + 2 ≠ 1 := by omega
    rw [hlane, if_neg hout, decide_eq_true hkeep, if_pos rfl]
    exact BitVec.or_zero

end Masks

/-! ## Halves -/

/-- Two halves of a register, and their bytes. -/
theorem lane_assemble64 (high low : BitVec 32) {i : ℕ} (hi : i < 8) :
    lane 8 (high.setWidth 64 <<< 32 ||| low.setWidth 64) i =
      if i < 4 then lane 8 low i else lane 8 high (i - 4) := by
  have happend : high.setWidth 64 <<< 32 ||| low.setWidth 64 =
      (high ++ low : BitVec (32 + 32)) := shiftLeft_or_eq_append high low
  rw [happend]
  split_ifs with h
  · exact lane_append_of_lt (k := 4) rfl h
  · have hlane := lane_append_add (x := high) (y := low) (w := 8) (k := 4)
      (i := i - 4) rfl
    rwa [show 4 + (i - 4) = i by omega] at hlane

theorem putsAt_half {r : Reg} (hr : r.typ = .reg64) (half : Bool) :
    PutsAt L (r.offset L + if half then 4 else 0) .reg32 (putHalf r half) := by
  have hbytes := Reg.bytes_of_typ hr
  refine ⟨r, if half then 4 else 0, rfl, ?_, ?_⟩
  · rw [hbytes]
    cases half <;> decide
  intro μ _ ρ data x hx
  have hx : Denotes ρ data .reg32 (x : BitVec 32) := hx
  have hold := denotes_reg64 ρ hr
  rw [hr]
  cases half with
  | false =>
    refine ⟨_, _, rfl, (((hold.hcast .reg32).ucast .reg64).shl
      (.const32 32)).or (hx.ucast .reg64), ?_⟩
    intro i hi
    rw [hbytes] at hi
    refine (lane_assemble64 (high 32 (ρ.temp r.var)) x hi).trans ?_
    change _ = if 0 ≤ i ∧ i < 0 + 4 then lane 8 x (i - 0) else _
    split_ifs with h1 h2 h2
    · rfl
    · omega
    · omega
    · rw [lane_high (k := 4) (l := 4) _ (by omega) rfl rfl,
        show 4 + (i - 4) = i by omega]
  | true =>
    refine ⟨_, _, rfl, (((hx.ucast .reg64).shl (.const32 32)).or
      ((hold.lcast .reg32).ucast .reg64)), ?_⟩
    intro i hi
    rw [hbytes] at hi
    refine (lane_assemble64 x ((ρ.temp r.var).setWidth 32) hi).trans ?_
    change _ = if 4 ≤ i ∧ i < 4 + 4 then lane 8 x (i - 4) else _
    split_ifs with h1 h2 h2
    · omega
    · rw [lane_setWidth (k := 4) _ h1 (by decide)]
    · rfl
    · omega

/-! ## Tables -/

section Tables

variable {offset : ℕ} {e : Exp} {put : PutStmt}

theorem mem_of_lookup {α : Type} {cases : List (ℕ × α)} {r : α}
    (h : cases.lookup offset = some r) : (offset, r) ∈ cases := by
  obtain ⟨l₁, l₂, rfl, -⟩ := List.lookup_eq_some_iff.mp h
  exact List.mem_append_right _ List.mem_cons_self

theorem regOffsetToName_eq {r : Reg}
    (h : regOffsetToName L offset = .ok r) :
    offset = r.offset L ∧ r.typ = .reg64 := by
  unfold regOffsetToName at h
  dsimp only at h
  split at h
  · next r' hlookup =>
    obtain rfl : r' = r := Except.ok.inj h
    have hmem := mem_of_lookup hlookup
    simp only [wholeCases, List.mem_append, List.mem_map, Prod.mk.injEq]
      at hmem
    rcases hmem with ((⟨w, -, rfl, rfl⟩ | ⟨n, -, rfl, rfl⟩) |
      ⟨n, -, rfl, rfl⟩) | ⟨i, -, rfl, rfl⟩
    · exact ⟨rfl, rfl⟩
    · exact ⟨rfl, rfl⟩
    · exact ⟨rfl, rfl⟩
    · refine ⟨?_, rfl⟩
      rw [Nat.mul_comm]
      rfl
  · cases h

theorem fptagAt_eq {i : Fin 8} (h : fptagAt L offset = some i) :
    offset = (Reg.fptag i).offset L := by
  have hfound := List.find?_some h
  exact (beq_iff_eq.mp hfound).symm

theorem cases8_eq {name : Whole} {low : Bool}
    (h : (cases8 L).lookup offset = some (name, low)) :
    offset = (Reg.whole name).offset L + if low then 0 else 1 := by
  have hmem := mem_of_lookup h
  simp only [cases8, List.mem_append, List.mem_map, Prod.mk.injEq] at hmem
  rcases hmem with ⟨w, -, rfl, rfl, rfl⟩ | ⟨w, -, rfl, rfl, rfl⟩
  · rfl
  · rfl

theorem cases16_eq {name : Whole}
    (h : (cases16 L).lookup offset = some name) :
    offset = (Reg.whole name).offset L := by
  have hmem := mem_of_lookup h
  simp only [cases16, List.mem_map, Prod.mk.injEq] at hmem
  obtain ⟨w, -, rfl, rfl⟩ := hmem
  rfl

theorem lookup32InYmm_eq {r : Reg} {half : Bool}
    (h : lookup32InYmm L offset = some (r, half)) :
    offset = r.offset L + (if half then 4 else 0) ∧ r.typ = .reg64 := by
  have hmem := mem_of_lookup h
  simp only [List.mem_append, List.mem_map, Prod.mk.injEq] at hmem
  rcases hmem with ((((((⟨n, -, rfl, rfl, rfl⟩ | ⟨n, -, rfl, rfl, rfl⟩) |
    ⟨n, -, rfl, rfl, rfl⟩) | ⟨n, -, rfl, rfl, rfl⟩) |
    ⟨n, -, rfl, rfl, rfl⟩) | ⟨n, -, rfl, rfl, rfl⟩) |
    ⟨n, -, rfl, rfl, rfl⟩) | ⟨n, -, rfl, rfl, rfl⟩
  all_goals exact ⟨rfl, rfl⟩

theorem cases32_eq {r : Reg} (h : (cases32 L).lookup offset = some r) :
    offset = r.offset L ∧ ((∃ name, r = .whole name) ∨ r.typ = .reg32) := by
  have hmem := mem_of_lookup h
  simp only [cases32, List.mem_append, List.mem_map, Prod.mk.injEq,
    List.mem_cons, List.not_mem_nil, or_false] at hmem
  rcases hmem with ⟨w, -, rfl, rfl⟩ | ⟨rfl, rfl⟩ | ⟨rfl, rfl⟩
  · exact ⟨rfl, .inl ⟨w, rfl⟩⟩
  · exact ⟨rfl, .inr rfl⟩
  · exact ⟨rfl, .inr rfl⟩

theorem cases128_eq {n : Fin 16} {high : Bool}
    (h : (cases128 L).lookup offset = some (n, high)) :
    offset = (ymmHalf n high).2.offset L ∧
      offset + 8 = (ymmHalf n high).1.offset L := by
  have hmem := mem_of_lookup h
  simp only [cases128, List.mem_append, List.mem_map, Prod.mk.injEq] at hmem
  rcases hmem with ⟨m, -, rfl, rfl, rfl⟩ | ⟨m, -, rfl, rfl, rfl⟩
  · exact ⟨rfl, rfl⟩
  · exact ⟨rfl, rfl⟩

/-! ## Accepted accesses -/

theorem translateGetReg8_getsAt (h : translateGetReg8 L offset = .ok e) :
    GetsAt L offset .reg8 e := by
  unfold translateGetReg8 at h
  split at h
  · cases h
  · split at h
    · next i hi =>
      obtain rfl := Except.ok.inj h
      rw [fptagAt_eq hi]
      exact getsAt_reg (.fptag i)
    · split at h
      · next name low hlookup =>
        rw [cases8_eq hlookup]
        split at h
        · next hlow =>
          obtain rfl := Except.ok.inj h
          rw [hlow]
          exact getsAt_low (r := .whole name) (n := 1) rfl rfl (by decide)
        · next hlow =>
          obtain rfl := Except.ok.inj h
          rw [Bool.not_eq_true] at hlow
          rw [hlow]
          exact getsAt_high8 (r := .whole name) rfl
      · cases h

theorem translateGetReg16_getsAt (h : translateGetReg16 L offset = .ok e) :
    GetsAt L offset .reg16 e := by
  unfold translateGetReg16 at h
  split at h
  · cases h
  · split at h
    · next name hlookup =>
      obtain rfl := Except.ok.inj h
      rw [cases16_eq hlookup]
      exact getsAt_low (r := .whole name) (n := 2) rfl rfl (by decide)
    · cases h

theorem translateGetReg32_getsAt (h : translateGetReg32 L offset = .ok e) :
    GetsAt L offset .reg32 e := by
  unfold translateGetReg32 at h
  split at h
  · next r half hlookup =>
    obtain ⟨hoffset, hr⟩ := lookup32InYmm_eq hlookup
    rw [hoffset]
    split at h
    · next hhalf =>
      obtain rfl := Except.ok.inj h
      rw [hhalf]
      exact getsAt_high32 hr
    · next hhalf =>
      obtain rfl := Except.ok.inj h
      rw [Bool.not_eq_true] at hhalf
      rw [hhalf]
      exact getsAt_low (n := 4) hr rfl (by decide)
  · split at h
    · cases h
    · split at h
      · next name hlookup =>
        obtain rfl := Except.ok.inj h
        rw [(cases32_eq hlookup).1]
        exact getsAt_low (r := .whole name) (n := 4) rfl rfl (by decide)
      · next r hr hlookup =>
        obtain rfl := Except.ok.inj h
        obtain ⟨hoffset, ⟨name, rfl⟩ | htyp⟩ := cases32_eq hlookup
        · exact absurd rfl (hr name)
        · rw [hoffset, ← htyp]
          exact getsAt_reg r
      · cases h

theorem translateGetReg64_getsAt (h : translateGetReg64 L offset = .ok e) :
    GetsAt L offset .reg64 e := by
  unfold translateGetReg64 at h
  obtain ⟨r, hname, h⟩ := of_bind_eq_ok h
  obtain rfl := Except.ok.inj h
  obtain ⟨hoffset, htyp⟩ := regOffsetToName_eq hname
  rw [hoffset, ← htyp]
  exact getsAt_reg r

theorem translatePutReg8_putsAt (h : translatePutReg8 L offset = .ok put) :
    PutsAt L offset .reg8 put := by
  unfold translatePutReg8 at h
  split at h
  · cases h
  · split at h
    · next i hi =>
      obtain rfl := Except.ok.inj h
      rw [fptagAt_eq hi]
      exact putsAt_reg (.fptag i)
    · split at h
      · next name low hlookup =>
        rw [cases8_eq hlookup]
        dsimp only at h
        split at h
        · next hlow =>
          obtain rfl := Except.ok.inj h
          rw [hlow]
          exact putsAt_low (r := .whole name) (n := 1) rfl rfl (by decide)
            (by decide)
        · next hlow =>
          obtain rfl := Except.ok.inj h
          rw [Bool.not_eq_true] at hlow
          rw [hlow]
          exact putsAt_high8 (r := .whole name) rfl
      · cases h

theorem translatePutReg16_putsAt (h : translatePutReg16 L offset = .ok put) :
    PutsAt L offset .reg16 put := by
  unfold translatePutReg16 at h
  split at h
  · cases h
  · split at h
    · next name hlookup =>
      obtain rfl := Except.ok.inj h
      rw [cases16_eq hlookup]
      exact putsAt_low (r := .whole name) (n := 2) rfl rfl (by decide)
        (by decide)
    · cases h

theorem translatePutReg32_putsAt (h : translatePutReg32 L offset = .ok put) :
    PutsAt L offset .reg32 put := by
  unfold translatePutReg32 at h
  split at h
  · next r half hlookup =>
    obtain rfl := Except.ok.inj h
    obtain ⟨hoffset, hr⟩ := lookup32InYmm_eq hlookup
    rw [hoffset]
    exact putsAt_half hr half
  · split at h
    · cases h
    · split at h
      · next name hlookup =>
        obtain rfl := Except.ok.inj h
        rw [(cases32_eq hlookup).1]
        exact putsAt_half (r := .whole name) rfl false
      · next r hr hlookup =>
        obtain rfl := Except.ok.inj h
        obtain ⟨hoffset, ⟨name, rfl⟩ | htyp⟩ := cases32_eq hlookup
        · exact absurd rfl (hr name)
        · rw [hoffset, ← htyp]
          exact putsAt_reg r
      · cases h

theorem translatePutReg64_putsAt (h : translatePutReg64 L offset = .ok put) :
    PutsAt L offset .reg64 put := by
  unfold translatePutReg64 at h
  obtain ⟨r, hname, h⟩ := of_bind_eq_ok h
  obtain rfl := Except.ok.inj h
  obtain ⟨hoffset, htyp⟩ := regOffsetToName_eq hname
  rw [hoffset, ← htyp]
  exact putsAt_reg r

end Tables

end Fuzzball.Asmir.X64
