import Fuzzball.X64GuestRefinement
import Fuzzball.X64FlagCode

/-!
# Indexed accesses

An indexed get is a tree of choices over all elements, an indexed put writes
all of them back.  With them every sequence of accesses that the translation
accepts is refined by its code.
-/

namespace Fuzzball.Asmir.X64

open Vine Bits

variable {μ : Type} [VineMemory μ] {ρ ρ' : Valuation μ} {L : GuestLayout}
  {tyenv : TypeEnv} {s : VexState}

/-! ## Elements -/

theorem x87Region_eq {descr : RegArray} {elt_size : ℕ} {elt_t : Typ}
    (h : x87Region L descr = some (elt_size, elt_t)) :
    descr.nElems = 8 ∧ elt_t = descr.elemTy.regType ∧
      elt_size = descr.elemTy.bytes ∧ elt_t.width = 8 * elt_size ∧
      ¬descr.elemTy.Is128 ∧
      ((elt_size = 1 ∧ elt_t = .reg8) ∨ (elt_size ≠ 1 ∧ elt_t = .reg64)) := by
  unfold x87Region at h
  split_ifs at h with hregs htags
  · obtain ⟨rfl, rfl⟩ := Prod.mk.inj (Option.some.inj h)
    rw [hregs.2.1, hregs.2.2]
    decide
  · obtain ⟨rfl, rfl⟩ := Prod.mk.inj (Option.some.inj h)
    rw [htags.2.1, htags.2.2]
    decide

theorem translateGetElem_getsAt {elt_size : ℕ} {elt_t : Typ} {offset : ℕ}
    {e : Exp} (hsize : (elt_size = 1 ∧ elt_t = .reg8) ∨
      (elt_size ≠ 1 ∧ elt_t = .reg64))
    (h : translateGetElem L elt_size offset = .ok e) :
    GetsAt L offset elt_t e := by
  unfold translateGetElem at h
  rcases hsize with ⟨hone, rfl⟩ | ⟨hone, rfl⟩
  · rw [if_pos hone] at h
    exact translateGetReg8_getsAt h
  · rw [if_neg hone] at h
    exact translateGetReg64_getsAt h

theorem translatePutElem_putsAt {elt_size : ℕ} {elt_t : Typ} {offset : ℕ}
    {put : PutStmt} (hsize : (elt_size = 1 ∧ elt_t = .reg8) ∨
      (elt_size ≠ 1 ∧ elt_t = .reg64))
    (h : translatePutElem L elt_size offset = .ok put) :
    PutsAt L offset elt_t put := by
  unfold translatePutElem at h
  rcases hsize with ⟨hone, rfl⟩ | ⟨hone, rfl⟩
  · rw [if_pos hone] at h
    exact translatePutReg8_putsAt h
  · rw [if_neg hone] at h
    exact translatePutReg64_putsAt h

/-! ## The index -/

/-- Three bits of an index. -/
theorem bits_of_lt_eight : ∀ m < 8,
    m = 4 * (m.testBit 2).toNat + 2 * (m.testBit 1).toNat +
      (m.testBit 0).toNat := by
  decide

theorem elementIndex_lt (index : BitVec 32) (bias : ℤ) :
    elementIndex index bias 8 < 8 := by
  unfold elementIndex
  omega

/-- The masked sum is the element's index. -/
theorem index_toNat (index : BitVec 32) (bias : ℤ) :
    ((index + BitVec.ofInt 32 bias) &&& BitVec.ofNat 32 (8 - 1)).toNat =
      elementIndex index bias 8 := by
  have hand : ∀ x : BitVec 32, (x &&& BitVec.ofNat 32 (8 - 1)).toNat =
      x.toNat % 8 := by
    intro x
    rw [BitVec.toNat_and]
    exact Nat.and_two_pow_sub_one_eq_mod x.toNat 3
  rw [hand, BitVec.toNat_add, BitVec.toNat_ofInt]
  unfold elementIndex
  omega

theorem denotes_indexExp {ix_e : Exp} {index : BitVec 32}
    (h : Denotes ρ ix_e .reg32 index) (bias : ℤ) (n : ℕ) :
    Denotes ρ (indexExp ix_e bias n) .reg32
      ((index + BitVec.ofInt 32 bias) &&& BitVec.ofNat 32 (n - 1)) :=
  (h.add (.const32 _)).and (.const32 _)

theorem Represents.atomOf (hs : Represents L tyenv s ρ) {a : Atom} {e : Exp}
    {type : IRType} (htype : a.type tyenv = type)
    (h : translateAtom tyenv a = .exp e) :
    ∃ x : BitVec type.regType.width, Denotes ρ e type.regType x ∧
      ∀ i < type.bytes, lane 8 x i = lane 8 (a.value s) i := by
  subst htype
  exact hs.atom h

/-- An index operand has the value it has in VEX. -/
theorem Represents.index (hs : Represents L tyenv s ρ) {ix : Atom} {e : Exp}
    (hix : ix.type tyenv = .i32) (h : translateAtom tyenv ix = .exp e) :
    Denotes ρ e .reg32 ((ix.value s).setWidth 32 : BitVec 32) := by
  obtain ⟨x, hx, hlanes⟩ := hs.atomOf hix h
  have heq : (x : BitVec 32) = (ix.value s).setWidth 32 := by
    apply eq_of_lanes (w := 8) (k := 4) (by decide) (by decide)
    intro i hi
    exact (hlanes i hi).trans
      (lane_setWidth (m := 32) (k := 4) _ hi (by decide)).symm
  rw [← heq]
  exact hx

theorem translateAtom_below {a : Atom} {e : Exp}
    (h : translateAtom tyenv a = .exp e) (n : ℕ) : Below n e := by
  cases a with
  | rdTmp tmp =>
    simp only [translateAtom] at h
    split at h
    · cases h
    · obtain rfl := IRValue.exp.inj h
      change (vexTemp tyenv tmp).id < (n : ℤ)
      simp only [vexTemp]
      omega
  | const type value =>
    obtain rfl := IRValue.exp.inj h
    trivial
  | v128 bits => cases h

theorem GetsAt.below {offset : ℕ} {t : Typ} {e : Exp}
    (h : GetsAt L offset t e) (n : ℕ) : Below n e := by
  obtain ⟨r, -, -, -, hreads, -⟩ := h
  apply hreads.mono
  rintro v rfl
  exact r.info_id.2.trans_le (Int.natCast_nonneg n)

/-! ## The tree of choices -/

theorem yields_mkTempDef {t : Typ} {val : Exp} {w : ℕ} {x : BitVec w}
    (hval : Denotes ρ val t x) :
    Yields ρ (mkTempDef t val) fun e => Denotes ρ e t x := by
  apply yields_mkTemp
  intro v hv
  exact yields_move hv hval fun h => yields_pure h

theorem places_mkTempDef {n : ℕ} {t : Typ} {val : Exp} (hval : Below n val) :
    Places n (mkTempDef t val) Below := by
  refine ⟨⟨rfl, hval, rfl⟩, ?_⟩
  change (n : ℤ) < (n + 1 : ℕ)
  omega

theorem yields_choiceTree {t : Typ} {index_e : Exp} {k : BitVec 32}
    {gets : ℕ → Exp} {x : ℕ → BitVec t.width}
    (hk : Denotes ρ index_e .reg32 k) (hlt : k.toNat < 8)
    (hgets : ∀ i < 8, Denotes ρ (gets i) t (x i)) :
    Yields ρ (choiceTree t index_e gets)
      fun e => Denotes ρ e t (x k.toNat) := by
  unfold choiceTree emitIte
  apply yields_temp hk
  intro cond_temp hcond
  apply yields_temp (denotes_bit0 hcond)
  intro sel0_temp hsel0
  apply yields_temp (denotes_getBit (i := 1) (by decide) hcond)
  intro sel1_temp hsel1
  have hsel2 := denotes_getBit (i := 2) (by decide) hcond
  apply yields_temp (hsel0.ite (hgets 1 (by decide)) (hgets 0 (by decide)))
  intro choice01 h01
  apply yields_temp (hsel0.ite (hgets 3 (by decide)) (hgets 2 (by decide)))
  intro choice23 h23
  apply yields_temp (hsel0.ite (hgets 5 (by decide)) (hgets 4 (by decide)))
  intro choice45 h45
  apply yields_temp (hsel0.ite (hgets 7 (by decide)) (hgets 6 (by decide)))
  intro choice67 h67
  apply yields_temp (hsel1.ite h23 h01)
  intro choice03 h03
  apply yields_temp (hsel1.ite h67 h45)
  intro choice47 h47
  have hvalue := hsel2.ite h47 h03
  have hbits := bits_of_lt_eight k.toNat hlt
  change k.toNat = 4 * (k.getLsbD 2).toNat + 2 * (k.getLsbD 1).toNat +
    (k.getLsbD 0).toNat at hbits
  have hchosen : (if k.getLsbD 2 then
      if k.getLsbD 1 then if k.getLsbD 0 then x 7 else x 6
        else if k.getLsbD 0 then x 5 else x 4
      else if k.getLsbD 1 then if k.getLsbD 0 then x 3 else x 2
        else if k.getLsbD 0 then x 1 else x 0) = x k.toNat := by
    cases h2 : k.getLsbD 2 <;> cases h1 : k.getLsbD 1 <;>
      cases h0 : k.getLsbD 0 <;> rw [h2, h1, h0] at hbits <;> rw [hbits] <;>
      rfl
  rw [hchosen] at hvalue
  exact yields_mkTempDef hvalue

theorem places_choiceTree {n : ℕ} {t : Typ} {index_e : Exp} {gets : ℕ → Exp}
    (hk : Below n index_e) (hgets : ∀ m, ∀ i < 8, Below m (gets i)) :
    Places n (choiceTree t index_e gets) Below := by
  have hget : ∀ m, ∀ i < 8, ReadsOnly (Numbered m) (gets i) := hgets
  unfold choiceTree emitIte
  apply places_temp hk
  iterate 2
    apply places_temp
    · simp [ReadsOnly, tempVar, exGetBit]
  iterate 6
    apply places_temp
    · simp [ReadsOnly, hget, tempVar] <;> omega
  apply places_mkTempDef
  simp [ReadsOnly, tempVar, exGetBit]
  omega

/-! ## Indexed gets -/

theorem x64TranslateGetI_eq {descr : RegArray} {ix : IRValue} {bias : ℤ}
    {code : Emit Exp} (h : x64TranslateGetI L descr ix bias = .ok code) :
    ∃ (ix_e : Exp) (gets : ℕ → Exp), ix = .exp ix_e ∧ descr.nElems = 8 ∧
      ¬descr.elemTy.Is128 ∧
      descr.elemTy.regType.width = 8 * descr.elemTy.bytes ∧
      (∀ i < 8, GetsAt L (descr.elemOffset i) descr.elemTy.regType (gets i)) ∧
      code = choiceTree descr.elemTy.regType (indexExp ix_e bias 8) gets := by
  unfold x64TranslateGetI at h
  cases hregion : x87Region L descr with
  | none =>
    rw [hregion] at h
    cases h
  | some region =>
    obtain ⟨elt_size, elt_t⟩ := region
    rw [hregion] at h
    obtain ⟨ix_e, hix, h⟩ := of_bind_eq_ok h
    obtain ⟨gets, hgets, hcode⟩ := of_bind_eq_ok h
    obtain ⟨hn, rfl, rfl, hwidth, h128, hsize⟩ := x87Region_eq hregion
    rw [hn] at hgets hcode
    obtain ⟨hlen, hall⟩ := getElem_of_mapM_range hgets
    cases ix with
    | vector high low => cases hix
    | exp e =>
      obtain rfl := Except.ok.inj hix
      refine ⟨e, fun i => gets.getD i (.unknown []), rfl, hn, h128, hwidth,
        ?_, (Except.ok.inj hcode).symm⟩
      intro i hi
      have hlt : i < gets.length := by omega
      have hget : gets.getD i (.unknown []) = gets[i] := by
        simp [List.getD_eq_getElem?_getD, hlt]
      dsimp only
      rw [hget]
      exact translateGetElem_getsAt hsize (hall i hlt)

theorem performs_getI {tmp : ℕ} {descr : RegArray} {ix : Atom} {bias : ℤ}
    {code : Emit Unit}
    (h : translateOp L tyenv (.getI tmp descr ix bias) = .ok code)
    (hix : ix.type tyenv = .i32) (htmp : tyenv tmp = descr.elemTy)
    (hs : Represents L tyenv s ρ) (n : ℕ) :
    Performs L tyenv code n ((VexOp.getI tmp descr ix bias).exec tyenv s) ρ :=
    by
  obtain ⟨tree, hgetI, h⟩ := of_bind_eq_ok h
  obtain ⟨ix_e, gets, hix_e, hn, h128, hwidth, hgets, rfl⟩ :=
    x64TranslateGetI_eq hgetI
  rw [← htmp] at h128
  simp only [assignEmitted, h128] at h
  obtain rfl := Except.ok.inj h
  have hgets_below : ∀ m, ∀ i < 8, Below m (gets i) :=
    fun m i hi => (hgets i hi).below m
  have hindex_below : Below n (indexExp ix_e bias 8) :=
    ⟨⟨translateAtom_below hix_e n, trivial⟩, trivial⟩
  have hplaces := places_choiceTree (t := descr.elemTy.regType) hindex_below
    hgets_below
  let index := (ix.value s).setWidth 32
  let k := (index + BitVec.ofInt 32 bias) &&& BitVec.ofNat 32 (8 - 1)
  have hk : k.toNat = elementIndex index bias 8 := index_toNat index bias
  have hklt : k.toNat < 8 := hk ▸ elementIndex_lt index bias
  -- the choice has the bytes of the element
  obtain ⟨⟨x, hx, hlanes⟩, hagree⟩ := hplaces.run ρ
    (Q := fun ρ' e => ∃ x : BitVec descr.elemTy.regType.width,
      Denotes ρ' e descr.elemTy.regType x ∧ ∀ i < descr.elemTy.bytes,
        lane 8 x i = s.guest (descr.elemOffset k.toNat + i)) (by
    intro ρ' hagree
    have hs' := hs.congr hagree
    have hindex := denotes_indexExp (hs'.index hix hix_e) bias 8
    choose! x hx hlanes using fun i (hi : i < 8) => hs'.get (hgets i hi)
    apply (yields_choiceTree hindex hklt hx).imp
    intro e he
    refine ⟨_, he, ?_⟩
    intro i hi
    exact hlanes k.toNat hklt i (by omega))
  have hsame : ∀ i < (tyenv tmp).bytes, lane 8 x i =
      lane 8 ((s.guest.read (descr.elemOffset k.toNat)
        descr.elemTy.bytes).setWidth 128) i := by
    intro i hi
    rw [htmp] at hi
    rw [hlanes i hi, s.lane_get _ hi]
  let tree := choiceTree descr.elemTy.regType (indexExp ix_e bias 8) gets n
  obtain ⟨hafter, hframe⟩ := (hs.congr hagree).moveTemp h128 hx hsame n
  have hrun : exec (tree.stmts ++ [.move (vexTemp tyenv tmp) tree.value]) ρ =
      exec [.move (vexTemp tyenv tmp) tree.value] (exec tree.stmts ρ) :=
    exec_append _ _ ρ
  constructor
  · change Represents L tyenv _
      (exec (tree.stmts ++ [.move (vexTemp tyenv tmp) tree.value]) ρ)
    rw [hrun, VexOp.exec, hn, ← hk]
    exact hafter
  · change AgreeOn _ ρ
      (exec (tree.stmts ++ [.move (vexTemp tyenv tmp) tree.value]) ρ)
    rw [hrun]
    exact (hagree.mono fun v hv => hv.1).trans hframe
  · exact hplaces.1.le

/-! ## Indexed puts -/

theorem Represents.putElem {σ : ByteStore} {t : Typ} {offset i n : ℕ}
    {get data : Exp} {put : PutStmt} {k : BitVec 32} {index_temp : Exp}
    (hs : Represents L tyenv { s with guest := σ } ρ)
    (hget : GetsAt L offset t get) (hput : PutsAt L offset t put)
    (hk : Denotes ρ index_temp .reg32 k) (hi : i < 2 ^ 32)
    {x : BitVec t.width} (hdata : Denotes ρ data t x) :
    let sel := exEq index_temp (exConst (BitVec.ofNat 32 i))
    let T := tempVar t n
    let ρ' := exec [.varDecl T, .move T (exIte sel data get), put (.temp T)] ρ
    Represents L tyenv { s with guest :=
        if k.toNat = i then σ.write offset (t.width / 8) x else σ } ρ' ∧
      AgreeOn (fun v => Numbered n v ∧ ∀ r : Reg, v ≠ r.var) ρ ρ' := by
  intro sel T ρ'
  have hsel : DenotesBool ρ sel (k.toNat == i) := by
    have h := hk.eq (.const32 (BitVec.ofNat 32 i))
    have hiff : (k == BitVec.ofNat 32 i) = (k.toNat == i) := by
      rw [Bool.eq_iff_iff, beq_iff_eq, beq_iff_eq, ← BitVec.toNat_inj,
        BitVec.toNat_ofNat, Nat.mod_eq_of_lt hi]
    rwa [hiff] at h
  obtain ⟨y, hy, hlanes⟩ := hs.get hget
  let ρ₁ := exec [.move T (exIte sel data get)] ρ
  have hagree : AgreeOn (Numbered n) ρ ρ₁ := by
    apply (agreeOn_move T _ ρ).mono
    rintro v hv rfl
    exact lt_irrefl _ hv
  have hvalue : Denotes ρ₁ (.temp T) t (if k.toNat == i then x else y) :=
    denotes_move rfl (hsel.ite hdata hy)
  obtain ⟨hafter, r, e, he⟩ := (hs.congr hagree).put hput hvalue
  have hrun : ρ' = exec [put (.temp T)] ρ₁ := rfl
  rw [hrun]
  constructor
  · by_cases hki : k.toNat = i
    · rw [if_pos hki]
      rw [beq_iff_eq.mpr hki, if_pos rfl] at hafter
      exact hafter
    · rw [if_neg hki]
      rw [beq_false_of_ne hki, if_neg Bool.false_ne_true] at hafter
      rwa [ByteStore.write_self hlanes] at hafter
  · rw [he]
    exact (hagree.mono fun v hv => hv.1).trans
      ((agreeOn_move r.var e ρ₁).mono fun v hv => hv.2 r)

/-- The rounds from `i` on: the elements below `i` have been written. -/
theorem performs_putElems {σ : ByteStore} {t : Typ} {bytes m : ℕ}
    (hbytes : t.width / 8 = bytes) {offset : ℕ → ℕ} {v : BitVec 128}
    {k : BitVec 32} {data : Exp}
    (hdata : ∀ (σ : ByteStore) (ρ : Valuation μ),
      Represents L tyenv { s with guest := σ } ρ →
      ∃ x : BitVec t.width, Denotes ρ data t x ∧
        ∀ i < bytes, lane 8 x i = lane 8 v i)
    (elems : List (Exp × PutStmt)) (i n : ℕ)
    (helems : ∀ (j : ℕ) (hj : j < elems.length),
      GetsAt L (offset (i + j)) t elems[j].1 ∧
        PutsAt L (offset (i + j)) t elems[j].2)
    (hlen : i + elems.length ≤ 2 ^ 32)
    (hs : Represents L tyenv { s with
      guest := if k.toNat < i
        then σ.write (offset k.toNat) bytes v else σ } ρ)
    (hk : Denotes ρ (.temp (tempVar .reg32 m)) .reg32 k) (hm : m < n) :
    Performs L tyenv (putElems t (.temp (tempVar .reg32 m)) data elems i) n
      { s with
        guest := if k.toNat < i + elems.length
          then σ.write (offset k.toNat) bytes v else σ } ρ := by
  induction elems generalizing i n ρ with
  | nil => exact ⟨hs, ⟨fun _ _ => rfl, rfl, rfl⟩, le_rfl⟩
  | cons elem rest ih =>
    obtain ⟨get, put⟩ := elem
    simp only [List.length_cons] at hlen helems ⊢
    obtain ⟨hget, hput⟩ := helems 0 (by omega)
    rw [Nat.add_zero] at hget hput
    obtain ⟨x, hx, hlanes⟩ := hdata _ ρ hs
    obtain ⟨hafter, hagree⟩ :=
      hs.putElem (i := i) (n := n) hget hput hk (by omega) hx
    rw [hbytes, ByteStore.write_congr hlanes] at hafter
    have hstore : (if k.toNat = i then
        ByteStore.write
          (if k.toNat < i then σ.write (offset k.toNat) bytes v else σ)
          (offset i) bytes v
        else if k.toNat < i then σ.write (offset k.toNat) bytes v else σ) =
        if k.toNat < i + 1 then σ.write (offset k.toNat) bytes v else σ := by
      by_cases hki : k.toNat = i
      · rw [if_pos hki, if_neg (by omega), if_pos (by omega), hki]
      · have hiff : k.toNat < i ↔ k.toNat < i + 1 := by omega
        rw [if_neg hki]
        simp only [hiff]
    rw [hstore] at hafter
    have hk' := hk.congr (S := fun v => Numbered n v ∧ ∀ r : Reg, v ≠ r.var)
      ⟨(by exact_mod_cast hm : (m : ℤ) < n),
        fun r => (reg_ne_tempVar r .reg32 m).symm⟩ hagree
    have hrest := ih (i + 1) (n + 1)
      (by
        intro j hj
        have h := helems (j + 1) (by omega)
        rwa [List.getElem_cons_succ, Nat.add_left_comm, Nat.add_comm j] at h)
      (by omega) hafter hk' (by omega)
    have hlength : i + 1 + rest.length = i + (rest.length + 1) := by omega
    rw [hlength] at hrest
    -- the declaration, the choice, the put, and the rounds after them
    let T := tempVar t n
    let ite := exIte (exEq (.temp (tempVar .reg32 m))
      (exConst (BitVec.ofNat 32 i))) data get
    have hrun : (putElems t (.temp (tempVar .reg32 m)) data
        ((get, put) :: rest) i n).stmts =
        [.varDecl T, .move T ite, put (.temp T)] ++
          (putElems t (.temp (tempVar .reg32 m)) data rest (i + 1)
            (n + 1)).stmts := rfl
    constructor
    · rw [hrun, exec_append]
      exact hrest.represents
    · rw [hrun, exec_append]
      apply AgreeOn.trans (hagree.mono fun v hv => ⟨hv.1, hv.2.1⟩)
      exact hrest.frame.mono fun v hv => hv.mono (Nat.le_succ n)
    · exact (Nat.le_succ n).trans hrest.counter

theorem x64TranslatePutI_eq {descr : RegArray} {ix data : IRValue} {bias : ℤ}
    {code : Emit Unit} (h : x64TranslatePutI L descr ix bias data = .ok code) :
    ∃ (ix_e data_e : Exp) (elems : List (Exp × PutStmt)),
      ix = .exp ix_e ∧ data = .exp data_e ∧ descr.nElems = 8 ∧
      descr.elemTy.regType.width = 8 * descr.elemTy.bytes ∧
      elems.length = 8 ∧
      (∀ (i : ℕ) (hi : i < elems.length),
        GetsAt L (descr.elemOffset i) descr.elemTy.regType elems[i].1 ∧
        PutsAt L (descr.elemOffset i) descr.elemTy.regType elems[i].2) ∧
      code = (do
        let index_temp ← mkTempDef .reg32 (indexExp ix_e bias 8)
        putElems descr.elemTy.regType index_temp data_e elems 0) := by
  unfold x64TranslatePutI at h
  cases hregion : x87Region L descr with
  | none =>
    rw [hregion] at h
    cases h
  | some region =>
    obtain ⟨elt_size, elt_t⟩ := region
    rw [hregion] at h
    obtain ⟨data_e, hdata, h⟩ := of_bind_eq_ok h
    obtain ⟨ix_e, hix, h⟩ := of_bind_eq_ok h
    obtain ⟨elems, helems, hcode⟩ := of_bind_eq_ok h
    obtain ⟨hn, rfl, rfl, hwidth, -, hsize⟩ := x87Region_eq hregion
    rw [hn] at helems hcode
    obtain ⟨hlen, hall⟩ := getElem_of_mapM_range helems
    have toExp_eq : ∀ {v : IRValue} {e : Exp}, v.toExp = .ok e → v = .exp e := by
      intro v e hv
      cases v with
      | vector high low => cases hv
      | exp e' => exact congrArg IRValue.exp (Except.ok.inj hv)
    refine ⟨ix_e, data_e, elems, toExp_eq hix, toExp_eq hdata, hn, hwidth,
      hlen, ?_, (Except.ok.inj hcode).symm⟩
    intro i hi
    obtain ⟨get, hget, h⟩ := of_bind_eq_ok (hall i hi)
    obtain ⟨put, hput, h⟩ := of_bind_eq_ok h
    rw [← Except.ok.inj h]
    exact ⟨translateGetElem_getsAt hsize hget,
      translatePutElem_putsAt hsize hput⟩

theorem performs_putI {descr : RegArray} {ix data : Atom} {bias : ℤ}
    {code : Emit Unit}
    (h : translateOp L tyenv (.putI descr ix bias data) = .ok code)
    (hix : ix.type tyenv = .i32) (hdata : data.type tyenv = descr.elemTy)
    (hs : Represents L tyenv s ρ) (n : ℕ) :
    Performs L tyenv code n ((VexOp.putI descr ix bias data).exec tyenv s) ρ :=
    by
  obtain ⟨ix_e, data_e, elems, hix_e, hdata_e, hn, hwidth, hlen, helems,
    rfl⟩ := x64TranslatePutI_eq h
  let index := (ix.value s).setWidth 32
  let k := (index + BitVec.ofInt 32 bias) &&& BitVec.ofNat 32 (8 - 1)
  have hk : k.toNat = elementIndex index bias 8 := index_toNat index bias
  have hklt : k.toNat < 8 := hk ▸ elementIndex_lt index bias
  let T := tempVar .reg32 n
  let ρ₁ := exec [.move T (indexExp ix_e bias 8)] ρ
  have hagree : AgreeOn (Numbered n) ρ ρ₁ := by
    apply (agreeOn_move T _ ρ).mono
    rintro v hv rfl
    exact lt_irrefl _ hv
  have hindex : Denotes ρ₁ (.temp T) .reg32 k :=
    denotes_move rfl (denotes_indexExp (hs.index hix hix_e) bias 8)
  have hdatas : ∀ (σ : ByteStore) (ρ : Valuation μ),
      Represents L tyenv { s with guest := σ } ρ →
      ∃ x : BitVec descr.elemTy.regType.width,
        Denotes ρ data_e descr.elemTy.regType x ∧
        ∀ i < descr.elemTy.bytes, lane 8 x i = lane 8 (data.value s) i := by
    intro σ ρ hσ
    have h := hσ.atomOf hdata hdata_e
    rwa [Atom.value_guest] at h
  have hrounds := performs_putElems (σ := s.guest) (s := s) (ρ := ρ₁)
    (k := k) (by omega) hdatas elems 0 (n + 1)
    (by
      intro j hj
      rw [Nat.zero_add]
      exact helems j hj)
    (by omega) (hs.congr hagree) hindex (Nat.lt_succ_self n)
  rw [hlen, if_pos (by omega)] at hrounds
  constructor
  · rw [VexOp.exec, hn, ← hk]
    exact hrounds.represents
  · apply AgreeOn.trans (hagree.mono fun v hv => hv.1)
    exact hrounds.frame.mono fun v hv => hv.mono (Nat.le_succ n)
  · exact (Nat.le_succ n).trans hrounds.counter

/-! ## Sequences -/

theorem performs_op {op : VexOp} {code : Emit Unit}
    (h : translateOp L tyenv op = .ok code) (hop : op.WellTyped tyenv)
    (hs : Represents L tyenv s ρ) (n : ℕ) :
    Performs L tyenv code n (op.exec tyenv s) ρ := by
  cases op with
  | put offset data => exact performs_put h hs n
  | get tmp offset type => exact performs_get h hop hs n
  | putI descr ix bias data => exact performs_putI h hop.1 hop.2 hs n
  | getI tmp descr ix bias => exact performs_getI h hop.1 hop.2 hs n

/-- The array that an indexed operation accesses. -/
def VexOp.array : VexOp → Option RegArray
  | .put _ _ | .get _ _ _ => none
  | .putI descr _ _ _ | .getI _ descr _ _ => some descr

theorem translateOp_nElems {op : VexOp} {code : Emit Unit}
    (h : translateOp L tyenv op = .ok code) {descr : RegArray}
    (hdescr : op.array = some descr) : descr.nElems = 8 := by
  cases op with
  | put | get => cases hdescr
  | putI =>
    obtain rfl := Option.some.inj hdescr
    obtain ⟨_, _, _, _, _, hn, _⟩ := x64TranslatePutI_eq h
    exact hn
  | getI =>
    obtain rfl := Option.some.inj hdescr
    obtain ⟨_, hgetI, _⟩ := of_bind_eq_ok h
    obtain ⟨_, _, _, hn, _⟩ := x64TranslateGetI_eq hgetI
    exact hn

/-- The code of accepted accesses does to the variables what the accesses do
to the guest state and the temporaries; arrays have eight elements, and other
variables stay. -/
theorem translateOps_refines {ops : List VexOp} {code : Emit Unit}
    (h : translateOps L tyenv ops = .ok code)
    (hops : ∀ op ∈ ops, op.WellTyped tyenv) (hs : Represents L tyenv s ρ)
    (n : ℕ) :
    Represents L tyenv (execOps tyenv ops s) (exec (code n).stmts ρ) ∧
    (∀ op ∈ ops, ∀ descr, op.array = some descr → descr.nElems = 8) ∧
    AgreeOn (Untouched tyenv n) ρ (exec (code n).stmts ρ) := by
  induction ops generalizing code s ρ n with
  | nil =>
    obtain rfl := Except.ok.inj h
    exact ⟨hs, by simp, fun _ _ => rfl, rfl, rfl⟩
  | cons op ops ih =>
    obtain ⟨first, hfirst, h⟩ := of_bind_eq_ok h
    obtain ⟨rest, hrest, h⟩ := of_bind_eq_ok h
    obtain rfl := Except.ok.inj h
    have hstep := performs_op hfirst (hops op List.mem_cons_self) hs n
    obtain ⟨hrun, harrays, hframe⟩ := ih hrest
      (fun op' hop' => hops op' (List.mem_cons_of_mem _ hop'))
      hstep.represents (first n).counter
    have hexec : exec ((first >>= fun _ => rest : Emit Unit) n).stmts ρ =
        exec (rest (first n).counter).stmts (exec (first n).stmts ρ) :=
      exec_append _ _ ρ
    rw [hexec]
    refine ⟨hrun, ?_, ?_⟩
    · intro op' hop' descr hdescr
      rcases List.mem_cons.mp hop' with rfl | hop'
      · exact translateOp_nElems hfirst hdescr
      · exact harrays op' hop' descr hdescr
    · apply hstep.frame.trans
      exact hframe.mono fun v hv => hv.mono hstep.counter

/-! ## A layout -/

section Sample

/-- Where VEX has the fields. -/
def vexOffset : Field → ℕ
  | .whole r =>
    match r with
    | .rax => 16 | .rcx => 24 | .rdx => 32 | .rbx => 40 | .rsp => 48
    | .rbp => 56 | .rsi => 64 | .rdi => 72 | .r8 => 80 | .r9 => 88
    | .r10 => 96 | .r11 => 104 | .r12 => 112 | .r13 => 120 | .r14 => 128
    | .r15 => 136 | .ccOp => 144 | .ccDep1 => 152 | .ccDep2 => 160
    | .ccNdep => 168 | .dflag => 176 | .rip => 184 | .acflag => 192
    | .idflag => 200 | .fsConst => 208 | .sseround => 216
    | .fpround => 848 | .fc3210 => 856 | .nraddr => 888 | .gsConst => 904
  | .ymm n => 224 + 32 * n.val
  | .ftop => 768
  | .fpregs => 776
  | .fptags => 840
  | .emnote => 864

def fields : List Field :=
  (gprs ++ specialRegs).map .whole ++ (List.finRange 17).map .ymm ++
    [.fpregs, .fptags, .ftop, .emnote]

theorem mem_fields (f : Field) : f ∈ fields := by
  cases f with
  | whole r => cases r <;> decide
  | ymm n =>
    have h : ∀ n : Fin 17, Field.ymm n ∈ fields := by decide
    exact h n
  | fpregs | fptags | ftop | emnote => decide

theorem vexOffset_apart : ∀ f ∈ fields, ∀ g ∈ fields, f ≠ g →
    vexOffset f + f.size ≤ vexOffset g ∨
      vexOffset g + g.size ≤ vexOffset f := by
  decide +kernel

def vexLayout : GuestLayout where
  offset := vexOffset
  apart f g := vexOffset_apart f (mem_fields f) g (mem_fields g)

/-- `AH` is put and `AX` is read; an element of the x87 registers is put and
read with another index and bias. -/
def sampleOps : List VexOp :=
  [.put 17 (.const .i8 0x12),
    .get 0 16 .i16,
    .putI ⟨776, .f64, 8⟩ (.const .i32 3) 3 (.const .f64 0x3ff0000000000000),
    .getI 1 ⟨776, .f64, 8⟩ (.const .i32 0xffffffff) (-1)]

def sampleTypes : TypeEnv := fun tmp => if tmp = 0 then .i16 else .f64

def zeroState : VexState := ⟨fun _ => 0, fun _ => 0⟩

theorem translateOps_refines_sample : ∃ code : Emit Unit,
    translateOps vexLayout sampleTypes sampleOps = .ok code ∧
    Represents vexLayout sampleTypes
      (execOps sampleTypes sampleOps zeroState)
      (exec (code 0).stmts Valuation.zero) ∧
    (execOps sampleTypes sampleOps zeroState).temp 0 = 0x1200 ∧
    (execOps sampleTypes sampleOps zeroState).temp 1 =
      0x3ff0000000000000 := by
  have hzero : Represents vexLayout sampleTypes zeroState Valuation.zero := by
    refine ⟨fun r i _ => ?_, fun tmp p _ i _ => ?_⟩
    · exact (lane_zero (n := 64) i).symm
    · exact (lane_zero (n := 128) (p.first + i)).trans
        (lane_zero (n := 64) i).symm
  have htyped : ∀ op ∈ sampleOps, op.WellTyped sampleTypes := by
    simp [sampleOps, VexOp.WellTyped, sampleTypes, Atom.type]
  refine ⟨_, rfl, (translateOps_refines rfl htyped hzero 0).1, ?_, ?_⟩
  · decide +kernel
  · decide +kernel

end Sample

end Fuzzball.Asmir.X64
