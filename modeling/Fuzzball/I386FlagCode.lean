import Fuzzball.I386FlagValues

/-!
# Correctness of the 32-bit flag code

For each operation: the moves set every flag at most once, from the operands,
and give each defined flag its architectural value.
-/

namespace Fuzzball.Asmir.I386

open Vine X86

variable {μ : Type} [VineMemory μ] {ρ : Valuation μ} {t : Typ}
  {arg1 arg2 arg3 : Exp} {old : Flags}

/-! ## The common part -/

/-- Most operations set five flags in the same order. -/
def fiveFlags (res af sf of : Exp) : Emit Unit := do
  let PF8 ← mkTempDef .reg8 (exLCast res .reg8)
  setFlag .pf (calcCondPF PF8)
  setFlag .af af
  setFlag .zf (condZF res)
  setFlag .sf sf
  setFlag .of of

theorem yields_parity
    {u : Typ} {w W : ℕ} {res : Exp} {r : BitVec w} {R : BitVec W}
    {k : Emit Unit} {Q : Unit → Prop} (hres : Denotes ρ res u R)
    (hR : R.setWidth 8 = r.setWidth 8)
    (hk : HasFlag ρ .pf (evenParity r) → Yields ρ k Q) :
    Yields ρ (do
      let PF8 ← mkTempDef .reg8 (exLCast res .reg8)
      setFlag .pf (calcCondPF PF8)
      k) Q := by
  apply yields_temp (hres.lcast .reg8)
  intro PF8 hPF8
  apply yields_flag (denotes_calcCondPF hPF8)
  intro hpf
  apply hk
  have hbyte : R.setWidth Typ.reg8.width = r.setWidth 8 := hR
  rw [hbyte, evenParity_setWidth (by decide)] at hpf
  exact hpf

theorem yields_fiveFlags
    {w : ℕ} {res eaf esf eof : Exp} {r : BitVec w} {af of : Bool}
    {Q : Unit → Prop} (hw : w ≤ 32)
    (hres : Denotes ρ res .reg32 (r.setWidth 32))
    (haf : DenotesBool ρ eaf af) (hsf : DenotesBool ρ esf r.msb)
    (hof : DenotesBool ρ eof of)
    (hQ : ResultHolds ρ r → HasFlag ρ .af af → HasFlag ρ .of of → Q ()) :
    Yields ρ (fiveFlags res eaf esf eof) Q := by
  have hbyte : (r.setWidth 32).setWidth 8 = r.setWidth 8 :=
    BitVec.setWidth_setWidth_of_le _ (by decide)
  unfold fiveFlags
  apply yields_parity hres hbyte
  intro hpf
  apply yields_flag haf
  intro haf
  apply yields_flag (denotes_condZF hres)
  intro hzf
  apply yields_flag hsf
  intro hsf
  apply yields_lastFlag hof
  intro hof
  rw [setWidth_beq_zero hw] at hzf
  exact hQ ⟨hpf, hzf, hsf⟩ haf hof

theorem readsOnly_calcCondPF
    {F : List Flag} {u : Typ} {m n : ℕ} (hmn : m < n) :
    ReadsOnly (Readable F n) (calcCondPF (.temp (tempVar u m))) := by
  have htemp := readable_temp F (u := u) hmn
  simp [calcCondPF, ReadsOnly, htemp]

theorem setsFlags_fiveFlags
    {F : List Flag} {n m : ℕ} {res af sf of : Exp} (hF : F ⊆ [.cf])
    (hnm : n ≤ m) (hres : ReadsOnly (Readable [] n) res)
    (haf : ReadsOnly (Readable [] n) af) (hsf : ReadsOnly (Readable [] n) sf)
    (hof : ReadsOnly (Readable [] n) of) :
    SetsFlags F m m (fiveFlags res af sf of)
      (.of :: .sf :: .zf :: .af :: .pf :: F) := by
  have hnotMem : ∀ f, f ≠ .cf → f ∉ F := fun f hf hmem =>
    hf (List.mem_singleton.mp (hF hmem))
  have hlow : ReadsOnly (Readable F m) (exLCast res .reg8) :=
    readsOnly_later hres hnm
  have hzf : ReadsOnly (Readable [] n) (condZF res) := ⟨hres, trivial⟩
  unfold fiveFlags
  apply setsFlags_temp hlow
  apply setsFlags_flag (hnotMem _ (by decide)) (readsOnly_calcCondPF (by omega))
  apply setsFlags_flag _ (readsOnly_later haf (by omega))
  apply setsFlags_flag _ (readsOnly_later hzf (by omega))
  apply setsFlags_flag _ (readsOnly_later hsf (by omega))
  apply setsFlags_lastFlag _ (readsOnly_later hof (by omega))
  all_goals simp [hnotMem]

/-! ## Sums and differences -/

section Arithmetic

variable {a b r : BitVec t.width} {c : Bool} {res : Exp}

theorem Narrow.low (ht : Narrow t) (x : BitVec t.width) :
    (x.setWidth 32).setWidth t.width = x := by
  rw [BitVec.setWidth_setWidth_of_le _ ht.le.2, BitVec.setWidth_eq]

theorem denotes_condSF (ht : Narrow t)
    (hres : Denotes ρ res .reg32 (r.setWidth 32)) :
    DenotesBool ρ (condBit res (typeSizeLess1 t)) r.msb := by
  have hw := ht.le
  have h := denotes_condBit (i := t.width - 1) hres (by omega)
  rwa [getLsbD_setWidth_last (by omega) hw.2] at h

theorem denotes_sum (ht : Narrow t) {arg1 arg2 arg3 : Exp}
    (h1 : Denotes ρ arg1 .reg32 (a.setWidth 32))
    (h2 : Denotes ρ arg2 .reg32 (b.setWidth 32))
    (h3 : Denotes ρ arg3 .reg32 ((BitVec.ofBool c).setWidth 32)) :
    Denotes ρ (maskOverflow (exAdd (exAdd arg1 arg2) arg3) t) .reg32
      ((sum a b c).setWidth 32) := by
  have hw := ht.le.2
  have h := denotes_maskOverflow ht ((h1.add h2).add h3)
  rwa [BitVec.setWidth_add _ _ hw, BitVec.setWidth_add _ _ hw, ht.low,
    ht.low, BitVec.setWidth_setWidth_of_le _ hw] at h

theorem denotes_difference (ht : Narrow t) {arg1 arg2 arg3 : Exp}
    (h1 : Denotes ρ arg1 .reg32 (a.setWidth 32))
    (h2 : Denotes ρ arg2 .reg32 (b.setWidth 32))
    (h3 : Denotes ρ arg3 .reg32 ((BitVec.ofBool c).setWidth 32)) :
    Denotes ρ (maskOverflow (exSub (exSub arg1 arg2) arg3) t) .reg32
      ((difference a b c).setWidth 32) := by
  have hw := ht.le.2
  have h := denotes_maskOverflow ht ((h1.sub h2).sub h3)
  rwa [Bits.setWidth_sub hw, Bits.setWidth_sub hw, ht.low, ht.low,
    BitVec.setWidth_setWidth_of_le _ hw] at h

/-- A bit-wise condition, read in the last bit of the operands. -/
theorem denotes_signBit
    {e : Exp} {x : BitVec 32} (ht : Narrow t) (he : Denotes ρ e .reg32 x) :
    DenotesBool ρ (condBit e (typeSizeLess1 t))
      (x.getLsbD (t.width - 1)) :=
  denotes_condBit he (by have hw := ht.le; omega)

theorem yields_sum (ht : Narrow t) {ecf : Exp}
    (h1 : Denotes ρ arg1 .reg32 (a.setWidth 32))
    (h2 : Denotes ρ arg2 .reg32 (b.setWidth 32))
    (hres : Denotes ρ res .reg32 ((sum a b c).setWidth 32))
    (hcf : DenotesBool ρ ecf
      (if c then (sum a b c).ule a else (sum a b c).ult a)) :
    Yields ρ (do
      setFlag .cf ecf
      fiveFlags res (condAF res arg1 arg2) (condBit res (typeSizeLess1 t))
        (condBit (exAnd (exXor3 arg1 arg2 cN1) (exXor arg1 res))
          (typeSizeLess1 t))) fun _ => FlagsHold ρ (addFlags a b c) := by
  have hw := ht.le
  have hpos : 0 < t.width := by omega
  have hfour : 4 < t.width := by omega
  have haf := denotes_condAF hfour hres h1 h2 (ht.low _) (ht.low a) (ht.low b)
  have hones : Denotes ρ cN1 .reg32 (BitVec.allOnes 32) := ⟨rfl, rfl, rfl⟩
  have hof := denotes_signBit ht ((h1.xor (h2.xor hones)).and (h1.xor hres))
  have hbit : ((a.setWidth 32 ^^^ (b.setWidth 32 ^^^ BitVec.allOnes 32)) &&&
      (a.setWidth 32 ^^^ (sum a b c).setWidth 32)).getLsbD (t.width - 1) =
        (!(a.msb ^^ b.msb) && (a.msb ^^ (sum a b c).msb)) := by
    simp only [BitVec.getLsbD_and, BitVec.getLsbD_xor,
      getLsbD_setWidth_last hpos hw.2, BitVec.getLsbD_allOnes,
      show t.width - 1 < 32 by omega, decide_true, Bool.xor_true,
      Bool.xor_not]
  rw [carry_eq hpos] at hcf
  rw [auxiliaryCarry_eq hfour] at haf
  rw [hbit, overflow_eq hpos] at hof
  apply yields_flag hcf
  intro hcf
  apply yields_fiveFlags hw.2 hres haf (denotes_condSF ht hres) hof
  intro hr haf hof
  exact addFlags_hold hr hcf haf hof

theorem yields_difference (ht : Narrow t) {ecf esf eof : Exp}
    (h1 : Denotes ρ arg1 .reg32 (a.setWidth 32))
    (h2 : Denotes ρ arg2 .reg32 (b.setWidth 32))
    (hres : Denotes ρ res .reg32 ((difference a b c).setWidth 32))
    (hcf : DenotesBool ρ ecf (if c then a.ule b else a.ult b))
    (hsf : DenotesBool ρ esf (difference a b c).msb)
    (hof : DenotesBool ρ eof
      (signedOverflow t.width (a.toInt - b.toInt - c.toNat))) :
    Yields ρ (do
      setFlag .cf ecf
      fiveFlags res (condAF res arg1 arg2) esf eof)
      fun _ => FlagsHold ρ (subFlags a b c) := by
  have hw := ht.le
  have hfour : 4 < t.width := by omega
  have haf := denotes_condAF hfour hres h1 h2 (ht.low _) (ht.low a) (ht.low b)
  rw [borrow_eq] at hcf
  rw [auxiliaryBorrow_eq hfour] at haf
  apply yields_flag hcf
  intro hcf
  apply yields_fiveFlags hw.2 hres haf hsf hof
  intro hr haf hof
  exact subFlags_hold hr hcf haf hof

theorem modEflagsAdd_yields (ht : Narrow t)
    (h1 : Denotes ρ arg1 .reg32 (a.setWidth 32))
    (h2 : Denotes ρ arg2 .reg32 (b.setWidth 32)) :
    Yields ρ (modEflagsAdd t arg1 arg2)
      fun _ => FlagsHold ρ (addFlags a b false) := by
  have hw := ht.le.2
  have hres := denotes_maskOverflow ht (h1.add h2)
  rw [BitVec.setWidth_add _ _ hw, ht.low, ht.low, ← sum_false] at hres
  apply yields_temp hres
  intro res hres
  have hcf := hres.lt h1
  rw [ult_setWidth hw] at hcf
  exact yields_sum ht h1 h2 hres hcf

theorem modEflagsSub_yields (ht : Narrow t)
    (h1 : Denotes ρ arg1 .reg32 (a.setWidth 32))
    (h2 : Denotes ρ arg2 .reg32 (b.setWidth 32)) :
    Yields ρ (modEflagsSub t arg1 arg2)
      fun _ => FlagsHold ρ (subFlags a b false) := by
  have hw := ht.le
  have hpos : 0 < t.width := by omega
  have hres := denotes_maskOverflow ht (h1.sub h2)
  rw [Bits.setWidth_sub hw.2, ht.low, ht.low, ← difference_false] at hres
  apply yields_temp hres
  intro res hres
  have hcf := h1.lt h2
  rw [ult_setWidth hw.2] at hcf
  have hsf : DenotesBool ρ (exHCast (narrow32 res t) .reg1)
      (difference a b false).msb := by
    have h := denotes_highBit (denotes_narrow32 ht hres)
    rwa [ht.low] at h
  have hof := hsf.xorBool
    ((denotes_narrow32 ht h1).slt (denotes_narrow32 ht h2))
  have hsub := subOverflow_eq_slt hpos a b false
  rw [ht.low, ht.low] at hof
  rw [if_neg Bool.false_ne_true] at hsub
  rw [hsub] at hof
  exact yields_difference ht h1 h2 hres hcf hsf hof

/-- The carry that VEX stores is one bit, so the mask leaves it. -/
theorem denotes_carry
    (h3 : Denotes ρ arg3 .reg32 ((BitVec.ofBool c).setWidth 32)) :
    Denotes ρ (exAnd arg3 (exConst cfMask)) .reg32
      ((BitVec.ofBool c).setWidth 32) := by
  have h := h3.and (.const32 cfMask)
  have hmask : (BitVec.ofBool c).setWidth 32 &&& cfMask =
      (BitVec.ofBool c).setWidth 32 := by cases c <;> rfl
  rwa [hmask] at h

/-- The second argument of an operation with carry, less the carry that VEX
has put into it. -/
theorem denotes_xorCarry {x : BitVec 32}
    (h2 : Denotes ρ arg2 .reg32 (x ^^^ (BitVec.ofBool c).setWidth 32))
    (h3 : Denotes ρ arg3 .reg32 ((BitVec.ofBool c).setWidth 32)) :
    Denotes ρ (exXor arg2 (exAnd arg3 (exConst cfMask))) .reg32 x := by
  have h := h2.xor (denotes_carry h3)
  rwa [BitVec.xor_assoc, BitVec.xor_self, BitVec.xor_zero] at h

theorem carry_eq_one (c : Bool) :
    ((BitVec.ofBool c).setWidth 32 == (1 : BitVec 32)) = c := by
  cases c <;> rfl

theorem carry_eq_zero (c : Bool) :
    ((BitVec.ofBool c).setWidth 32 == (0 : BitVec 32)) = !c := by
  cases c <;> rfl

theorem modEflagsAdc_yields (ht : Narrow t)
    (h1 : Denotes ρ arg1 .reg32 (a.setWidth 32))
    (h2 : Denotes ρ arg2 .reg32
      (b.setWidth 32 ^^^ (BitVec.ofBool c).setWidth 32))
    (h3 : Denotes ρ arg3 .reg32 ((BitVec.ofBool c).setWidth 32)) :
    Yields ρ (modEflagsAdc t arg1 arg2 arg3)
      fun _ => FlagsHold ρ (addFlags a b c) := by
  have hw := ht.le.2
  have h2' := denotes_xorCarry h2 h3
  have h3' := denotes_carry h3
  apply yields_temp (denotes_sum ht h1 h2' h3')
  intro res hres
  have hcf := ((h3'.eq (.const32 1)).andBool (hres.le h1)).orBool
    ((h3'.eq (.const32 0)).andBool (hres.lt h1))
  rw [carry_eq_one, carry_eq_zero, ule_setWidth hw, ult_setWidth hw] at hcf
  have hcases : (c && (sum a b c).ule a || !c && (sum a b c).ult a) =
      if c then (sum a b c).ule a else (sum a b c).ult a := by
    cases c <;> simp
  rw [hcases] at hcf
  exact yields_sum ht h1 h2' hres hcf

theorem modEflagsSbb_yields (ht : Narrow t)
    (h1 : Denotes ρ arg1 .reg32 (a.setWidth 32))
    (h2 : Denotes ρ arg2 .reg32
      (b.setWidth 32 ^^^ (BitVec.ofBool c).setWidth 32))
    (h3 : Denotes ρ arg3 .reg32 ((BitVec.ofBool c).setWidth 32)) :
    Yields ρ (modEflagsSbb t arg1 arg2 arg3)
      fun _ => FlagsHold ρ (subFlags a b c) := by
  have hw := ht.le
  have hpos : 0 < t.width := by omega
  have h2' := denotes_xorCarry h2 h3
  have h3' := denotes_carry h3
  apply yields_temp (denotes_difference ht h1 h2' h3')
  intro res hres
  have hcf := ((h3'.eq (.const32 0)).andBool (h1.lt h2')).orBool
    ((h3'.eq (.const32 0)).notBool.andBool (h1.le h2'))
  rw [carry_eq_zero, ule_setWidth hw.2, ult_setWidth hw.2] at hcf
  have hcases : (!c && a.ult b || !(!c) && a.ule b) =
      if c then a.ule b else a.ult b := by
    cases c <;> simp
  rw [hcases] at hcf
  have hof := denotes_signBit ht ((h1.xor h2').and (h1.xor hres))
  have hbit : ((a.setWidth 32 ^^^ b.setWidth 32) &&&
      (a.setWidth 32 ^^^ (difference a b c).setWidth 32)).getLsbD
        (t.width - 1) =
        ((a.msb ^^ b.msb) && (a.msb ^^ (difference a b c).msb)) := by
    simp only [BitVec.getLsbD_and, BitVec.getLsbD_xor,
      getLsbD_setWidth_last hpos hw.2]
  rw [hbit, subOverflow_eq hpos] at hof
  exact yields_difference ht h1 h2' hres hcf (denotes_condSF ht hres) hof

theorem modEflagsLogic_yields (ht : Narrow t)
    (h1 : Denotes ρ arg1 .reg32 (r.setWidth 32)) :
    Yields ρ (modEflagsLogic t arg1 arg2)
      fun _ => FlagsHold ρ ((Operation.logic r).flags old) := by
  apply yields_flag denotes_constantF
  intro hcf
  apply yields_fiveFlags ht.le.2 h1 denotes_constantF
    (denotes_condSF ht h1) denotes_constantF
  intro hr haf hof
  exact logicFlags_hold hr hcf hof

/-! ## Increments and decrements -/

theorem Narrow.one_low (ht : Narrow t) :
    (1 : BitVec 32).setWidth t.width = 1 := by
  rcases ht with rfl | rfl | rfl <;> rfl

theorem modEflagsInc_yields (ht : Narrow t)
    (h1 : Denotes ρ arg1 .reg32 ((a + 1).setWidth 32))
    (hcf : HasFlag ρ .cf (old .cf)) :
    Yields ρ (modEflagsInc t arg1 arg2 arg3)
      fun _ => FlagsHold ρ ((Operation.inc a).flags old) := by
  have hw := ht.le
  have hfour : 4 < t.width := by omega
  have hargL : ((a + 1).setWidth 32 - 1).setWidth t.width = a := by
    rw [Bits.setWidth_sub hw.2, ht.low, ht.one_low]
    exact add_sub_cancel_right a 1
  have haf := denotes_condAF hfour h1 (h1.sub (.const32 1)) (.const32 1)
    (ht.low _) hargL ht.one_low
  have hof := (denotes_dataMask ht h1).eq (denotes_signMask ht)
  rw [ht.low, setWidth_beq hw.2, incOverflow_eq (by omega)] at hof
  rw [← sum_false, auxiliaryCarry_eq hfour] at haf
  apply yields_fiveFlags hw.2 h1 haf (denotes_condSF ht h1) hof
  intro hr haf hof
  rw [← sum_false] at hr
  exact incFlags_hold hr hcf haf hof

theorem modEflagsDec_yields (ht : Narrow t)
    (h1 : Denotes ρ arg1 .reg32 ((a - 1).setWidth 32))
    (h3 : Denotes ρ arg3 .reg32 (carryWord 32 old)) :
    Yields ρ (modEflagsDec t arg1 arg2 arg3)
      fun _ => FlagsHold ρ ((Operation.dec a).flags old) := by
  have hw := ht.le
  have hfour : 4 < t.width := by omega
  have hargL : ((a - 1).setWidth 32 + 1).setWidth t.width = a := by
    rw [BitVec.setWidth_add _ _ hw.2, ht.low, ht.one_low]
    exact sub_add_cancel a 1
  have hcf := (denotes_bit0 (h3.shr (.const32 cfPos))).andBool denotes_constantT
  have hbit : (carryWord 32 old >>> cfPos.toNat).getLsbD 0 = old .cf := by
    unfold carryWord
    cases old .cf <;> rfl
  rw [hbit, Bool.and_true] at hcf
  have haf := denotes_condAF hfour h1 (h1.add (.const32 1)) (.const32 1)
    (ht.low _) hargL ht.one_low
  have hof := (denotes_dataMask ht h1).eq (denotes_signMask_sub ht)
  rw [ht.low, setWidth_beq hw.2, decOverflow_eq (by omega)] at hof
  rw [← difference_false, auxiliaryBorrow_eq hfour] at haf
  apply yields_flag hcf
  intro hcf
  apply yields_fiveFlags hw.2 h1 haf (denotes_condSF ht h1) hof
  intro hr haf hof
  rw [← difference_false] at hr
  exact decFlags_hold hr hcf haf hof

end Arithmetic

/-! ## Shifts and rotations -/

section Shifts

variable {a r prev : BitVec t.width} {k : ℕ}

/-- The last bit of the result and of the value shifted one position less. -/
theorem denotes_lastBits (ht : Narrow t)
    (h1 : Denotes ρ arg1 .reg32 (r.setWidth 32))
    (h2 : Denotes ρ arg2 .reg32 (prev.setWidth 32)) :
    DenotesBool ρ (exAnd (exLCast
      (exShr (exXor arg1 arg2) (typeSizeLess1 t)) .reg1) constantT)
      (r.msb ^^ prev.msb) := by
  have hw := ht.le
  have h := (denotes_bitAt (i := t.width - 1) (h1.xor h2)
    (by omega)).andBool denotes_constantT
  rwa [Bool.and_true, BitVec.getLsbD_xor, getLsbD_setWidth_last (by omega) hw.2,
    getLsbD_setWidth_last (by omega) hw.2] at h

theorem denotes_lastBit (ht : Narrow t)
    (h1 : Denotes ρ arg1 .reg32 (r.setWidth 32)) :
    DenotesBool ρ (exLCast (exShr arg1 (typeSizeLess1 t)) .reg1) r.msb := by
  have hw := ht.le
  have h := denotes_bitAt (i := t.width - 1) h1 (by omega)
  rwa [getLsbD_setWidth_last (by omega) hw.2] at h

theorem getLsbD_zero_setWidth {w : ℕ} (x : BitVec w) :
    (x.setWidth 32).getLsbD 0 = x.getLsbD 0 := by
  simp

theorem modEflagsShl_yields (ht : Narrow t)
    (h1 : Denotes ρ arg1 .reg32 ((a <<< (k + 1)).setWidth 32))
    (h2 : Denotes ρ arg2 .reg32 ((a <<< k).setWidth 32)) :
    Yields ρ (modEflagsShl t arg1 arg2)
      fun _ => FlagsHold ρ ((Operation.shl a k).flags old) := by
  have hw := ht.le.2
  have hres := denotes_maskOverflow ht h1
  rw [ht.low] at hres
  have hcf := (denotes_lastBit ht h2).andBool denotes_constantT
  rw [Bool.and_true] at hcf
  apply yields_flag hcf
  intro hcf
  apply yields_fiveFlags hw hres denotes_constantF (denotes_condSF ht hres)
    (denotes_lastBits ht h1 h2)
  intro hr haf hof
  apply shiftFlags_hold hr
  · intro b hb
    split_ifs at hb with hk
    rw [BitVec.msb_shiftLeft, BitVec.getMsbD, decide_eq_true (by omega),
      Bool.true_and, show t.width - 1 - k = t.width - (k + 1) by omega] at hcf
    exact Option.some.inj hb ▸ hcf
  · rintro rfl
    simpa using hof

/-- The code of both right shifts. -/
theorem yields_rightShift (ht : Narrow t)
    (h1 : Denotes ρ arg1 .reg32 (r.setWidth 32))
    (h2 : Denotes ρ arg2 .reg32 (prev.setWidth 32))
    {carry : Option Bool} {overflow : Bool}
    (hcarry : ∀ b, carry = some b → prev.getLsbD 0 = b)
    (hover : k = 0 → (r.msb ^^ prev.msb) = overflow) :
    Yields ρ (modEflagsShr t arg1 arg2)
      fun _ => FlagsHold ρ (shiftFlags r k carry overflow) := by
  have hcf := denotes_bit0 h2
  rw [getLsbD_zero_setWidth] at hcf
  apply yields_flag hcf
  intro hcf
  apply yields_fiveFlags ht.le.2 h1 denotes_constantF (denotes_condSF ht h1)
    (denotes_lastBits ht h1 h2)
  intro hr haf hof
  apply shiftFlags_hold hr
  · intro b hb
    exact hcarry b hb ▸ hcf
  · intro hk
    exact hover hk ▸ hof

theorem modEflagsShr_yields (ht : Narrow t)
    (h1 : Denotes ρ arg1 .reg32 ((a >>> (k + 1)).setWidth 32))
    (h2 : Denotes ρ arg2 .reg32 ((a >>> k).setWidth 32)) :
    Yields ρ (modEflagsShr t arg1 arg2)
      fun _ => FlagsHold ρ ((Operation.shr a k).flags old) := by
  apply yields_rightShift ht h1 h2
  · intro b hb
    split_ifs at hb with hk
    rw [BitVec.getLsbD_ushiftRight, Nat.add_zero]
    exact Option.some.inj hb
  · rintro rfl
    simp [BitVec.msb_ushiftRight]

theorem modEflagsSar_yields (ht : Narrow t)
    (h1 : Denotes ρ arg1 .reg32 ((a.sshiftRight (k + 1)).setWidth 32))
    (h2 : Denotes ρ arg2 .reg32 ((a.sshiftRight k).setWidth 32)) :
    Yields ρ (modEflagsShr t arg1 arg2)
      fun _ => FlagsHold ρ ((Operation.sar a k).flags old) := by
  apply yields_rightShift ht h1 h2
  · intro b hb
    exact Option.some.inj hb
  · intro hk
    rw [BitVec.msb_sshiftRight, BitVec.msb_sshiftRight, Bool.xor_self]

/-- The exclusive or of the new carry with a bit of the rotated value. -/
theorem denotes_rotateOverflow {i : ℕ} {cf : Bool} (ht : Narrow t)
    (hi : i < t.width) (hcf : HasFlag ρ .cf cf)
    (h1 : Denotes ρ arg1 .reg32 (r.setWidth 32)) :
    DenotesBool ρ (exXor (.temp (flagReg .cf))
      (exLCast (exShr arg1 (exConst (BitVec.ofNat 32 i))) .reg1))
      (cf ^^ r.getLsbD i) := by
  have hw := ht.le
  have h := denotes_bitAt (i := i) h1 (by omega)
  rw [BitVec.getLsbD_setWidth, decide_eq_true (show i < 32 by omega),
    Bool.true_and] at h
  exact hcf.xorBool h

theorem modEflagsRol_yields (ht : Narrow t)
    (h1 : Denotes ρ arg1 .reg32 ((a.rotateLeft (k + 1)).setWidth 32))
    (hold : ∀ f, f ≠ .cf → f ≠ .of → HasFlag ρ f (old f)) :
    Yields ρ (modEflagsRol t arg1 arg2 arg3)
      fun _ => FlagsHold ρ ((Operation.rol a k).flags old) := by
  have hw := ht.le
  have hcf := denotes_bit0 h1
  rw [getLsbD_zero_setWidth] at hcf
  apply yields_flag hcf
  intro hcf
  have hof := denotes_rotateOverflow (i := t.width - 1) ht (by omega) hcf h1
  rw [← BitVec.msb_eq_getLsbD_last, Bool.xor_comm] at hof
  apply yields_lastFlag hof
  intro hof
  exact rotateFlags_hold hold hcf fun _ => hof

theorem modEflagsRor_yields (ht : Narrow t)
    (h1 : Denotes ρ arg1 .reg32 ((a.rotateRight (k + 1)).setWidth 32))
    (hold : ∀ f, f ≠ .cf → f ≠ .of → HasFlag ρ f (old f)) :
    Yields ρ (modEflagsRor t arg1 arg2 arg3)
      fun _ => FlagsHold ρ ((Operation.ror a k).flags old) := by
  have hw := ht.le
  apply yields_flag (denotes_lastBit ht h1)
  intro hcf
  have hof := denotes_rotateOverflow (i := t.width - 2) ht (by omega) hcf h1
  apply yields_lastFlag hof
  intro hof
  exact rotateFlags_hold hold hcf fun _ => hof

end Shifts

/-! ## Products -/

section Products

variable {a b : BitVec t.width}

theorem Narrow.productType (ht : Narrow t) :
    (productType t).width = 2 * t.width := by
  rcases ht with rfl | rfl | rfl <;> rfl

theorem denotes_operand (ht : Narrow t) {x : BitVec t.width}
    (h1 : Denotes ρ arg1 .reg32 (x.setWidth 32)) :
    Denotes ρ (exLCast arg1 t) t x := by
  have h := h1.lcast t
  rwa [ht.low] at h

theorem denotes_lastBit_low (ht : Narrow t) {lo : Exp} {x : BitVec t.width}
    (h : Denotes ρ lo t x) :
    DenotesBool ρ (exLCast (exShr lo (typeSizeLess1 t)) .reg1) x.msb := by
  have hw := ht.le
  have hbit := denotes_bit0 (h.shr (.const32 (BitVec.ofNat 32 (t.width - 1))))
  rwa [BitVec.getLsbD_ushiftRight, BitVec.toNat_ofNat,
    Nat.mod_eq_of_lt (by omega), Nat.add_zero,
    ← BitVec.msb_eq_getLsbD_last] at hbit

/-- The code of both multiplications. -/
def productFlags (type : Typ) (product : Exp) (carry : Var → Var → Exp) :
    Emit Unit := do
  let res ← mkTemp (productType type)
  let lo ← mkTemp type
  let hi ← mkTemp type
  push (.move res product)
  push (.move lo (exLCast (.temp res) type))
  push (.move hi (exHCast (.temp res) type))
  setFlag .cf (carry lo hi)
  let PF8 ← mkTempDef .reg8 (exLCast (.temp res) .reg8)
  setFlag .pf (calcCondPF PF8)
  setFlag .af constantF
  setFlag .zf (exEq (.temp lo) (exConstOf type 0))
  setFlag .sf (exLCast (exShr (.temp lo) (typeSizeLess1 type)) .reg1)
  setFlag .of (.temp (flagReg .cf))

theorem yields_productFlags (ht : Narrow t) {product : Exp}
    {carry : Var → Var → Exp} {W : ℕ} {p : BitVec W} {c : Bool}
    (hprod : Denotes ρ product (productType t) p)
    (hcarry : ∀ lo hi, Denotes ρ (.temp lo) t (p.setWidth t.width) →
      Denotes ρ (.temp hi) t (Bits.high t.width p) →
      DenotesBool ρ (carry lo hi) c) :
    Yields ρ (productFlags t product carry)
      fun _ => FlagsHold ρ (multiplyFlags c) := by
  apply yields_mkTemp
  intro res hrest
  apply yields_mkTemp
  intro lo hlot
  apply yields_mkTemp
  intro hi hhit
  apply yields_move hrest hprod
  intro hres
  apply yields_move hlot (hres.lcast t)
  intro hlo
  apply yields_move hhit (hres.hcast t)
  intro hhi
  apply yields_flag (hcarry lo hi hlo hhi)
  intro hcf
  apply yields_parity (r := p) hres rfl
  intro hpf
  apply yields_flag denotes_constantF
  intro haf
  apply yields_flag (hlo.eq (.constOf t 0))
  intro hzf
  apply yields_flag (denotes_lastBit_low ht hlo)
  intro hsf
  apply yields_lastFlag hcf
  intro hof
  exact multiplyFlags_hold hcf hof

theorem modEflagsUmul_yields (ht : Narrow t)
    (h1 : Denotes ρ arg1 .reg32 (a.setWidth 32))
    (h2 : Denotes ρ arg2 .reg32 (b.setWidth 32)) :
    Yields ρ (modEflagsUmul t arg1 arg2)
      fun _ => FlagsHold ρ ((Operation.umul a b).flags old) := by
  have hprod := ((denotes_operand ht h1).ucast (productType t)).mul
    ((denotes_operand ht h2).ucast (productType t))
  apply yields_productFlags ht hprod
  intro lo hi hlo hhi
  have hzero : (0 : I64).setWidth t.width = 0 := BitVec.setWidth_zero ..
  have hcf := hhi.neq (.constOf t 0)
  rwa [hzero, unsignedProduct_eq a b ht.productType] at hcf

theorem modEflagsSmul_yields (ht : Narrow t)
    (h1 : Denotes ρ arg1 .reg32 (a.setWidth 32))
    (h2 : Denotes ρ arg2 .reg32 (b.setWidth 32)) :
    Yields ρ (modEflagsSmul t arg1 arg2)
      fun _ => FlagsHold ρ ((Operation.smul a b).flags old) := by
  have hw := ht.le
  have hprod := ((denotes_operand ht h1).scast (productType t)).mul
    ((denotes_operand ht h2).scast (productType t))
  apply yields_productFlags ht hprod
  intro lo hi hlo hhi
  have hcf := hhi.neq (hlo.sar (.const32 (BitVec.ofNat 32 (t.width - 1))))
  rwa [BitVec.toNat_ofNat, Nat.mod_eq_of_lt (by omega),
    sshiftRight_last (by omega),
    signedProduct_eq (by omega) a b ht.productType] at hcf

end Products

/-! ## Each flag is set once -/

/-- The flags that the code sets, the last first. -/
def writtenFlags {w : ℕ} : Operation w → List Flag
  | .inc _ => [.of, .sf, .zf, .af, .pf]
  | .rol _ _ | .ror _ _ => [.of, .cf]
  | _ => [.of, .sf, .zf, .af, .pf, .cf]

section Reads

variable {S : Var → Prop} {e : Exp} {n : ℕ}

theorem readsOnly_maskOverflow (he : ReadsOnly S e) (t : Typ) :
    ReadsOnly S (maskOverflow e t) := by
  cases t <;> simp [maskOverflow, ReadsOnly, he]

theorem readsOnly_narrow32 (he : ReadsOnly S e) (t : Typ) :
    ReadsOnly S (narrow32 e t) := by
  unfold narrow32
  split_ifs
  · exact he
  · exact he

theorem readsOnly_dataMask (t : Typ) : ReadsOnly S (dataMask t) := by
  cases t <;> trivial

theorem setsFlags_carryAndFive
    {ecf res af sf of : Exp} (hcf : ReadsOnly (Readable [] n) ecf)
    (hres : ReadsOnly (Readable [] n) res)
    (haf : ReadsOnly (Readable [] n) af) (hsf : ReadsOnly (Readable [] n) sf)
    (hof : ReadsOnly (Readable [] n) of) :
    SetsFlags [] n n (do setFlag .cf ecf; fiveFlags res af sf of)
      [.of, .sf, .zf, .af, .pf, .cf] := by
  apply setsFlags_flag List.not_mem_nil hcf
  exact setsFlags_fiveFlags (List.Subset.refl _) le_rfl hres haf hsf hof

end Reads

section SetsFlags

variable {n : ℕ} (h1 : ReadsOnly (Readable [] n) arg1)
  (h2 : ReadsOnly (Readable [] n) arg2) (h3 : ReadsOnly (Readable [] n) arg3)

include h1

theorem modEflagsLogic_setsFlags :
    SetsFlags [] n n (modEflagsLogic t arg1 arg2)
      [.of, .sf, .zf, .af, .pf, .cf] := by
  apply setsFlags_carryAndFive
  all_goals simp [ReadsOnly, condBit, typeSizeLess1, constantF, h1]

theorem modEflagsInc_setsFlags :
    SetsFlags [] n n (modEflagsInc t arg1 arg2 arg3)
      [.of, .sf, .zf, .af, .pf] := by
  have hmask := readsOnly_dataMask (S := Readable [] n) t
  apply setsFlags_fiveFlags (List.nil_subset _) le_rfl
  all_goals simp [ReadsOnly, condAF, condBit, typeSizeLess1, signMask, *]

theorem modEflagsDec_setsFlags (h3 : ReadsOnly (Readable [] n) arg3) :
    SetsFlags [] n n (modEflagsDec t arg1 arg2 arg3)
      [.of, .sf, .zf, .af, .pf, .cf] := by
  have hmask := readsOnly_dataMask (S := Readable [] n) t
  apply setsFlags_carryAndFive
  all_goals simp [ReadsOnly, condAF, condBit, typeSizeLess1, signMask,
    constantT, *]

theorem modEflagsRol_setsFlags :
    SetsFlags [] n n (modEflagsRol t arg1 arg2 arg3) [.of, .cf] := by
  have hcf := readable_flagReg (List.mem_singleton_self Flag.cf) n
  have h1' := readsOnly_later (F := [.cf]) h1 le_rfl
  have hbit : ReadsOnly (Readable [] n) (exLCast arg1 .reg1) := h1
  apply setsFlags_flag List.not_mem_nil hbit
  apply setsFlags_lastFlag (by decide)
  simp [ReadsOnly, *]

theorem modEflagsRor_setsFlags :
    SetsFlags [] n n (modEflagsRor t arg1 arg2 arg3) [.of, .cf] := by
  have hcf := readable_flagReg (List.mem_singleton_self Flag.cf) n
  have h1' := readsOnly_later (F := [.cf]) h1 le_rfl
  have hbit : ReadsOnly (Readable [] n)
      (exLCast (exShr arg1 (typeSizeLess1 t)) .reg1) := ⟨h1, trivial⟩
  apply setsFlags_flag List.not_mem_nil hbit
  apply setsFlags_lastFlag (by decide)
  simp [ReadsOnly, *]

include h2

theorem modEflagsAdd_setsFlags :
    SetsFlags [] n n (modEflagsAdd t arg1 arg2)
      [.of, .sf, .zf, .af, .pf, .cf] := by
  have hres := readsOnly_maskOverflow (e := exAdd arg1 arg2) ⟨h1, h2⟩ t
  have hnew := readable_temp [] (u := .reg32) (Nat.lt_add_one n)
  have h1' := readsOnly_later (F := []) h1 (Nat.le_add_right n 1)
  have h2' := readsOnly_later (F := []) h2 (Nat.le_add_right n 1)
  apply setsFlags_temp hres
  apply setsFlags_carryAndFive
  all_goals simp [ReadsOnly, condAF, condBit, typeSizeLess1, cN1, *]

theorem modEflagsSub_setsFlags :
    SetsFlags [] n n (modEflagsSub t arg1 arg2)
      [.of, .sf, .zf, .af, .pf, .cf] := by
  have hres := readsOnly_maskOverflow (e := exSub arg1 arg2) ⟨h1, h2⟩ t
  have hnew := readable_temp [] (u := .reg32) (Nat.lt_add_one n)
  have hsign : ReadsOnly (Readable [] (n + 1))
      (narrow32 (.temp (tempVar .reg32 n)) t) :=
    readsOnly_narrow32 (S := Readable [] (n + 1))
      (e := .temp (tempVar .reg32 n)) hnew t
  have h1' := readsOnly_later (F := []) h1 (Nat.le_add_right n 1)
  have h2' := readsOnly_later (F := []) h2 (Nat.le_add_right n 1)
  apply setsFlags_temp hres
  apply setsFlags_carryAndFive
  all_goals simp [ReadsOnly, condAF, readsOnly_narrow32, *]

theorem modEflagsShl_setsFlags :
    SetsFlags [] n n (modEflagsShl t arg1 arg2)
      [.of, .sf, .zf, .af, .pf, .cf] := by
  have hres := readsOnly_maskOverflow h1 t
  apply setsFlags_carryAndFive
  all_goals simp [ReadsOnly, condBit, typeSizeLess1, constantF, constantT, *]

theorem modEflagsShr_setsFlags :
    SetsFlags [] n n (modEflagsShr t arg1 arg2)
      [.of, .sf, .zf, .af, .pf, .cf] := by
  apply setsFlags_carryAndFive
  all_goals simp [ReadsOnly, condBit, typeSizeLess1, constantF, constantT, *]

include h3

theorem modEflagsAdc_setsFlags :
    SetsFlags [] n n (modEflagsAdc t arg1 arg2 arg3)
      [.of, .sf, .zf, .af, .pf, .cf] := by
  have hsum : ReadsOnly (Readable [] n)
      (exAdd (exAdd arg1 (exXor arg2 (exAnd arg3 (exConst cfMask))))
        (exAnd arg3 (exConst cfMask))) := by
    simp [ReadsOnly, *]
  have hnew := readable_temp [] (u := .reg32) (Nat.lt_add_one n)
  have h1' := readsOnly_later (F := []) h1 (Nat.le_add_right n 1)
  have h2' := readsOnly_later (F := []) h2 (Nat.le_add_right n 1)
  have h3' := readsOnly_later (F := []) h3 (Nat.le_add_right n 1)
  apply setsFlags_temp (readsOnly_maskOverflow hsum t)
  apply setsFlags_carryAndFive
  all_goals simp [ReadsOnly, condAF, condBit, typeSizeLess1, cN1, *]

theorem modEflagsSbb_setsFlags :
    SetsFlags [] n n (modEflagsSbb t arg1 arg2 arg3)
      [.of, .sf, .zf, .af, .pf, .cf] := by
  have hdiff : ReadsOnly (Readable [] n)
      (exSub (exSub arg1 (exXor arg2 (exAnd arg3 (exConst cfMask))))
        (exAnd arg3 (exConst cfMask))) := by
    simp [ReadsOnly, *]
  have hnew := readable_temp [] (u := .reg32) (Nat.lt_add_one n)
  have h1' := readsOnly_later (F := []) h1 (Nat.le_add_right n 1)
  have h2' := readsOnly_later (F := []) h2 (Nat.le_add_right n 1)
  have h3' := readsOnly_later (F := []) h3 (Nat.le_add_right n 1)
  apply setsFlags_temp (readsOnly_maskOverflow hdiff t)
  apply setsFlags_carryAndFive
  all_goals simp [ReadsOnly, condAF, condBit, typeSizeLess1, *]

end SetsFlags

theorem setsFlags_productFlags
    {n : ℕ} {product : Exp} {carry : Var → Var → Exp}
    (hprod : ReadsOnly (Readable [] n) product)
    (hcarry : ReadsOnly (Readable [] (n + 3))
      (carry (tempVar t (n + 1)) (tempVar t (n + 2)))) :
    SetsFlags [] n n (productFlags t product carry)
      [.of, .sf, .zf, .af, .pf, .cf] := by
  have htemp := fun (F : List Flag) (u : Typ) {m k : ℕ} (hm : m < k) =>
    readable_temp F (u := u) hm
  apply setsFlags_mkTemp
  apply setsFlags_mkTemp
  apply setsFlags_mkTemp
  apply setsFlags_move rfl hprod
  apply setsFlags_move rfl
  · simp [ReadsOnly, htemp]
  apply setsFlags_move rfl
  · simp [ReadsOnly, htemp]
  apply setsFlags_flag List.not_mem_nil hcarry
  apply setsFlags_temp
  · simp [ReadsOnly, htemp]
  apply setsFlags_flag (by decide) (readsOnly_calcCondPF (by omega))
  apply setsFlags_flag (by decide)
  · simp [ReadsOnly, constantF]
  apply setsFlags_flag (by decide)
  · simp [ReadsOnly, htemp]
  apply setsFlags_flag (by decide)
  · simp [ReadsOnly, typeSizeLess1, htemp]
  apply setsFlags_lastFlag (by decide)
  exact readable_flagReg (by decide) _

theorem modEflagsUmul_setsFlags
    {n : ℕ} (h1 : ReadsOnly (Readable [] n) arg1)
    (h2 : ReadsOnly (Readable [] n) arg2) :
    SetsFlags [] n n (modEflagsUmul t arg1 arg2)
      [.of, .sf, .zf, .af, .pf, .cf] := by
  have hhi := readable_temp [] (u := t) (show n + 2 < n + 3 by omega)
  apply setsFlags_productFlags
  all_goals simp [ReadsOnly, *]

theorem modEflagsSmul_setsFlags
    {n : ℕ} (h1 : ReadsOnly (Readable [] n) arg1)
    (h2 : ReadsOnly (Readable [] n) arg2) :
    SetsFlags [] n n (modEflagsSmul t arg1 arg2)
      [.of, .sf, .zf, .af, .pf, .cf] := by
  have hlo := readable_temp [] (u := t) (show n + 1 < n + 3 by omega)
  have hhi := readable_temp [] (u := t) (show n + 2 < n + 3 by omega)
  apply setsFlags_productFlags
  all_goals simp [ReadsOnly, typeSizeLess1, *]

theorem modEflags_setsFlags
    {n w : ℕ} (op : Operation w) (h1 : ReadsOnly (Readable [] n) arg1)
    (h2 : ReadsOnly (Readable [] n) arg2)
    (h3 : ReadsOnly (Readable [] n) arg3) :
    SetsFlags [] n n (modEflags op t arg1 arg2 arg3) (writtenFlags op) := by
  cases op with
  | add => exact modEflagsAdd_setsFlags h1 h2
  | sub => exact modEflagsSub_setsFlags h1 h2
  | adc => exact modEflagsAdc_setsFlags h1 h2 h3
  | sbb => exact modEflagsSbb_setsFlags h1 h2 h3
  | logic =>
    change SetsFlags [] n n (modEflagsLogic t arg1 arg2) _
    exact modEflagsLogic_setsFlags h1
  | inc =>
    change SetsFlags [] n n (modEflagsInc t arg1 arg2 arg3) _
    exact modEflagsInc_setsFlags h1
  | dec =>
    change SetsFlags [] n n (modEflagsDec t arg1 arg2 arg3) _
    exact modEflagsDec_setsFlags h1 h3
  | shl => exact modEflagsShl_setsFlags h1 h2
  | shr => exact modEflagsShr_setsFlags h1 h2
  | sar => exact modEflagsShr_setsFlags h1 h2
  | rol =>
    change SetsFlags [] n n (modEflagsRol t arg1 arg2 arg3) _
    exact modEflagsRol_setsFlags h1
  | ror =>
    change SetsFlags [] n n (modEflagsRor t arg1 arg2 arg3) _
    exact modEflagsRor_setsFlags h1
  | umul => exact modEflagsUmul_setsFlags h1 h2
  | smul => exact modEflagsSmul_setsFlags h1 h2

/-! ## The flags after the code -/

/-- A thunk of the operation, before code that is emitted from `n`: the
arguments are as VEX stores them, and the flag registers hold the old flags. -/
structure Thunk (ρ : Valuation μ) (n : ℕ) {w : ℕ} (op : Operation w)
    (old : Flags) (arg1 arg2 arg3 : Exp) : Prop where
  reads1 : ReadsOnly (Readable [] n) arg1
  reads2 : ReadsOnly (Readable [] n) arg2
  reads3 : ReadsOnly (Readable [] n) arg3
  dep1 : Denotes ρ arg1 .reg32 (op.dep1 32)
  dep2 : Denotes ρ arg2 .reg32 (op.dep2 32 old)
  ndep : op.StoresCarry → Denotes ρ arg3 .reg32 (carryWord 32 old)
  flags : ∀ f, HasFlag ρ f (old f)

theorem modEflags_yields
    (ht : Narrow t) (op : Operation t.width)
    (h1 : Denotes ρ arg1 .reg32 (op.dep1 32))
    (h2 : Denotes ρ arg2 .reg32 (op.dep2 32 old))
    (h3 : op.StoresCarry → Denotes ρ arg3 .reg32 (carryWord 32 old))
    (hold : ∀ f, f ∉ writtenFlags op → HasFlag ρ f (old f)) :
    Yields ρ (modEflags op t arg1 arg2 arg3)
      fun _ => FlagsHold ρ (op.flags old) := by
  cases op with
  | add => exact modEflagsAdd_yields ht h1 h2
  | sub => exact modEflagsSub_yields ht h1 h2
  | adc => exact modEflagsAdc_yields ht h1 h2 (h3 trivial)
  | sbb => exact modEflagsSbb_yields ht h1 h2 (h3 trivial)
  | logic =>
    change Yields ρ (modEflagsLogic t arg1 arg2) _
    exact modEflagsLogic_yields ht h1
  | inc =>
    change Yields ρ (modEflagsInc t arg1 arg2 arg3) _
    exact modEflagsInc_yields ht h1 (hold .cf (by simp [writtenFlags]))
  | dec =>
    change Yields ρ (modEflagsDec t arg1 arg2 arg3) _
    exact modEflagsDec_yields ht h1 (h3 trivial)
  | shl => exact modEflagsShl_yields ht h1 h2
  | shr => exact modEflagsShr_yields ht h1 h2
  | sar => exact modEflagsSar_yields ht h1 h2
  | rol =>
    change Yields ρ (modEflagsRol t arg1 arg2 arg3) _
    apply modEflagsRol_yields ht h1
    intro f hcf hof
    exact hold f (by simp [writtenFlags, hcf, hof])
  | ror =>
    change Yields ρ (modEflagsRor t arg1 arg2 arg3) _
    apply modEflagsRor_yields ht h1
    intro f hcf hof
    exact hold f (by simp [writtenFlags, hcf, hof])
  | umul => exact modEflagsUmul_yields ht h1 h2
  | smul => exact modEflagsSmul_yields ht h1 h2

end Fuzzball.Asmir.I386
