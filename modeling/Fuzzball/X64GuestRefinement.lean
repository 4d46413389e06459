import Fuzzball.X64GuestAccess

/-!
# Refinement of the VEX guest state

The guest state of VEX is a store of bytes.  The translated code keeps it in
variables; executing it does to them what the VEX statements do to the bytes.
-/

namespace Fuzzball.Asmir.X64

open Vine Bits

/-! ## The semantics of VEX -/

/-- The size of a value in bytes. -/
def IRType.bytes : IRType → ℕ
  | .i8 => 1
  | .i16 => 2
  | .i32 | .f32 => 4
  | .i64 | .f64 => 8
  | .i128 | .v128 => 16
  | .other => 0

/-- The guest state and the temporaries. -/
structure VexState where
  guest : ByteStore
  temp : ℕ → BitVec 128

/-- A byte of ones for each bit. -/
def expandBytes (bits : BitVec 16) : BitVec 128 :=
  ByteStore.read (fun i => if bits.getLsbD i then 0xff else 0) 0 16

def Atom.value (s : VexState) : Atom → BitVec 128
  | .rdTmp tmp => s.temp tmp
  | .const type value => (value.setWidth type.regType.width).setWidth 128
  | .v128 bits => expandBytes bits

/-- The element that an index selects. -/
def elementIndex (index : BitVec 32) (bias : ℤ) (nElems : ℕ) : ℕ :=
  ((index.toNat + bias) % nElems).toNat

def RegArray.elemOffset (descr : RegArray) (i : ℕ) : ℕ :=
  descr.base + i * descr.elemTy.bytes

def VexState.setTemp (s : VexState) (tmp : ℕ) (x : BitVec 128) : VexState :=
  { s with temp := Function.update s.temp tmp x }

def VexOp.exec (tyenv : TypeEnv) (s : VexState) : VexOp → VexState
  | .put offset data =>
    { s with guest :=
        s.guest.write offset (data.type tyenv).bytes (data.value s) }
  | .get tmp offset type =>
    s.setTemp tmp ((s.guest.read offset type.bytes).setWidth 128)
  | .putI descr ix bias data =>
    let i := elementIndex ((ix.value s).setWidth 32) bias descr.nElems
    { s with guest :=
        s.guest.write (descr.elemOffset i) descr.elemTy.bytes (data.value s) }
  | .getI tmp descr ix bias =>
    let i := elementIndex ((ix.value s).setWidth 32) bias descr.nElems
    s.setTemp tmp
      ((s.guest.read (descr.elemOffset i) descr.elemTy.bytes).setWidth 128)

def execOps (tyenv : TypeEnv) (ops : List VexOp) (s : VexState) : VexState :=
  ops.foldl (fun s op => op.exec tyenv s) s

/-- The types of temporaries and operands are right. -/
def VexOp.WellTyped (tyenv : TypeEnv) : VexOp → Prop
  | .put _ _ => True
  | .get tmp _ type => tyenv tmp = type
  | .putI descr ix _ data =>
    ix.type tyenv = .i32 ∧ data.type tyenv = descr.elemTy
  | .getI tmp descr ix _ =>
    ix.type tyenv = .i32 ∧ tyenv tmp = descr.elemTy

/-! ## The variables for it -/

variable {μ : Type} [VineMemory μ] {ρ ρ' : Valuation μ} {L : GuestLayout}
  {tyenv : TypeEnv} {s : VexState}

/-- A variable for a temporary: how many of its bytes it holds, and from which
one on. -/
structure TempPart where
  var : Var
  bytes : ℕ
  first : ℕ

def tempParts (tyenv : TypeEnv) (tmp : ℕ) : List TempPart :=
  if (tyenv tmp).Is128 then
    [⟨vexTempHigh tmp, 8, 8⟩, ⟨vexTempLow tmp, 8, 0⟩]
  else [⟨vexTemp tyenv tmp, (tyenv tmp).bytes, 0⟩]

/-- The variables hold the state. -/
structure Represents (L : GuestLayout) (tyenv : TypeEnv) (s : VexState)
    (ρ : Valuation μ) : Prop where
  guest : ∀ r : Reg, ∀ i < r.bytes,
    s.guest (r.offset L + i) = lane 8 (ρ.temp r.var) i
  temps : ∀ tmp, ∀ p ∈ tempParts tyenv tmp, ∀ i < p.bytes,
    lane 8 (s.temp tmp) (p.first + i) = lane 8 (ρ.temp p.var) i

/-- Neither a register nor a temporary of the VEX code. -/
def Untouched (tyenv : TypeEnv) (n : ℕ) (v : Var) : Prop :=
  Numbered n v ∧ (∀ r : Reg, v ≠ r.var) ∧
    ∀ tmp, ∀ p ∈ tempParts tyenv tmp, v ≠ p.var

theorem tempParts_id {tmp : ℕ} {p : TempPart} (hp : p ∈ tempParts tyenv tmp) :
    ∃ k < 3, p.var.id = -(1000 + 3 * (tmp : ℤ) + (k : ℕ)) := by
  unfold tempParts at hp
  split at hp
  · simp only [List.mem_cons, List.not_mem_nil, or_false] at hp
    rcases hp with rfl | rfl
    · refine ⟨1, by decide, ?_⟩
      simp only [vexTempHigh]
      omega
    · refine ⟨2, by decide, ?_⟩
      simp only [vexTempLow]
      omega
  · rw [List.mem_singleton] at hp
    subst hp
    refine ⟨0, by decide, ?_⟩
    simp only [vexTemp]
    omega

theorem tempParts_ne_reg {tmp : ℕ} {p : TempPart}
    (hp : p ∈ tempParts tyenv tmp) (r : Reg) : p.var ≠ r.var := by
  intro h
  obtain ⟨k, -, hid⟩ := tempParts_id hp
  have hr := r.info_id
  rw [h] at hid
  change r.info.2 = _ at hid
  omega

theorem tempParts_ne {tmp tmp' : ℕ} (hne : tmp ≠ tmp') {p p' : TempPart}
    (hp : p ∈ tempParts tyenv tmp) (hp' : p' ∈ tempParts tyenv tmp') :
    p.var ≠ p'.var := by
  intro h
  obtain ⟨k, hk, hid⟩ := tempParts_id hp
  obtain ⟨k', hk', hid'⟩ := tempParts_id hp'
  rw [h, hid'] at hid
  omega

theorem reg_ne_tempVar (r : Reg) (t : Typ) (n : ℕ) : r.var ≠ tempVar t n := by
  intro h
  have hid : r.info.2 = (n : ℤ) := congrArg Var.id h
  have hr := r.info_id
  omega

theorem tempParts_ne_tempVar {tmp : ℕ} {p : TempPart}
    (hp : p ∈ tempParts tyenv tmp) (t : Typ) (n : ℕ) :
    p.var ≠ tempVar t n := by
  intro h
  obtain ⟨k, -, hid⟩ := tempParts_id hp
  rw [h] at hid
  change (n : ℤ) = _ at hid
  omega

omit [VineMemory μ] in
/-- New temporaries do not matter. -/
theorem Represents.congr (h : Represents L tyenv s ρ) {n : ℕ}
    (hagree : AgreeOn (Numbered n) ρ ρ') : Represents L tyenv s ρ' := by
  have hneg : ∀ v : Var, v.id < 0 → ρ.temp v = ρ'.temp v :=
    fun v hv => hagree.temp v (hv.trans_le (Int.natCast_nonneg n))
  constructor
  · intro r i hi
    rw [h.guest r i hi, hneg r.var r.info_id.2]
  · intro tmp p hp i hi
    obtain ⟨k, -, hid⟩ := tempParts_id hp
    rw [h.temps tmp p hp i hi, hneg p.var (by omega)]

/-! ## Moves to variables -/

/-- The value of a variable after a move. -/
theorem temp_move {v : Var} {e : Exp} {t : Typ} {w : ℕ} {x : BitVec w}
    (he : Denotes ρ e t x) :
    (exec [.move v e] ρ).temp v = x.setWidth 64 := by
  change (ρ.setTemp v ((e.eval ρ e.width).setWidth 64)).temp v = _
  simp only [Valuation.setTemp, Function.update_self]
  rw [he.expWidth, he.eval]

/-- A put changes the bytes in the store. -/
theorem Represents.put (h : Represents L tyenv s ρ) {offset : ℕ} {t : Typ}
    {put : PutStmt} (hput : PutsAt L offset t put) {data : Exp}
    {x : BitVec t.width} (hdata : Denotes ρ data t x) :
    Represents L tyenv
      { s with guest := s.guest.write offset (t.width / 8) x }
      (exec [put data] ρ) ∧
    ∃ (r : Reg) (e : Exp), put data = .move r.var e := by
  obtain ⟨r, lo, rfl, hle, hval⟩ := hput
  obtain ⟨e, y, he, hy, hlanes⟩ := hval ρ hdata
  rw [he]
  have hagree := agreeOn_move r.var e ρ
  have hset : ∀ i < r.bytes,
      lane 8 ((exec [.move r.var e] ρ).temp r.var) i = lane 8 y i := by
    intro i hi
    rw [temp_move hy, lane_setWidth_of_le _ (Typ.width_le _)]
  refine ⟨⟨?_, ?_⟩, r, e, rfl⟩
  · intro r' i hi
    by_cases hr : r' = r
    · subst hr
      rw [hset i hi, hlanes i hi]
      change s.guest.write _ _ x (r'.offset L + i) = _
      split_ifs with hin
      · obtain ⟨j, rfl⟩ := Nat.exists_eq_add_of_le hin.1
        rw [← Nat.add_assoc, ByteStore.write_apply (by omega)]
        congr 1
        omega
      · rw [ByteStore.write_of_outside (by omega)]
        exact h.guest r' i hi
    · have hvar : r'.var ≠ r.var := Reg.var_injective.ne hr
      have hapart := Reg.apart L hr
      rw [← hagree.temp _ hvar]
      change s.guest.write _ _ x (r'.offset L + i) = _
      rw [ByteStore.write_of_outside (by omega)]
      exact h.guest r' i hi
  · intro tmp p hp i hi
    rw [← hagree.temp _ (tempParts_ne_reg hp r)]
    exact h.temps tmp p hp i hi

/-- A get has the bytes of the store. -/
theorem Represents.get (h : Represents L tyenv s ρ) {offset : ℕ} {t : Typ}
    {e : Exp} (hget : GetsAt L offset t e) :
    ∃ x : BitVec t.width, Denotes ρ e t x ∧
      ∀ i < t.width / 8, lane 8 x i = s.guest (offset + i) := by
  obtain ⟨r, lo, rfl, hle, -, hval⟩ := hget
  obtain ⟨x, hx, hlanes⟩ := hval ρ
  refine ⟨x, hx, ?_⟩
  intro i hi
  rw [hlanes i hi, Nat.add_assoc, h.guest r (lo + i) (by omega)]

omit [VineMemory μ] in
/-- Moves to the variables of one temporary. -/
theorem Represents.setTemp (h : Represents L tyenv s ρ) {tmp : ℕ}
    {x : BitVec 128}
    (hparts : ∀ p ∈ tempParts tyenv tmp, ∀ i < p.bytes,
      lane 8 x (p.first + i) = lane 8 (ρ'.temp p.var) i)
    (hagree : AgreeOn (fun v => ∀ p ∈ tempParts tyenv tmp, v ≠ p.var) ρ ρ') :
    Represents L tyenv (s.setTemp tmp x) ρ' := by
  constructor
  · intro r i hi
    rw [← hagree.temp _ fun p hp => (tempParts_ne_reg hp r).symm]
    exact h.guest r i hi
  · intro tmp' p hp i hi
    by_cases htmp : tmp' = tmp
    · subst htmp
      change lane 8 (Function.update s.temp tmp' x tmp') _ = _
      rw [Function.update_self]
      exact hparts p hp i hi
    · change lane 8 (Function.update s.temp tmp x tmp') _ = _
      rw [Function.update_of_ne htmp,
        ← hagree.temp _ fun p' hp' => tempParts_ne htmp hp hp']
      exact h.temps tmp' p hp i hi

/-! ## Operands -/

theorem IRType.width_regType {type : IRType} (h : ¬type.Is128)
    (hother : type ≠ .other) : type.regType.width = 8 * type.bytes := by
  cases type
  case i128 | v128 => exact absurd rfl h
  case other => exact absurd rfl hother
  all_goals rfl

theorem expandLaneConst_lane (bits : BitVec 8) {i : ℕ} (hi : i < 8) :
    lane 8 (expandLaneConst bits) i = if bits.getLsbD i then 0xff else 0 := by
  have hbyte : ∀ (j : ℕ) (mask : I64), lane 8 (if bits.getLsbD j then mask
      else 0) i = if bits.getLsbD j then lane 8 mask i else 0 := by
    intro j mask
    split_ifs
    · rfl
    · exact lane_zero i
  have hmask : ∀ j < 8, ∀ k < 8,
      lane 8 ((0xff : I64) <<< (8 * j)) k = if k = j then 0xff else 0 := by
    decide
  change lane 8 ((if bits.getLsbD 0 then (0xff : I64) <<< (8 * 0) else 0) |||
    (if bits.getLsbD 1 then (0xff : I64) <<< (8 * 1) else 0) |||
    (if bits.getLsbD 2 then (0xff : I64) <<< (8 * 2) else 0) |||
    (if bits.getLsbD 3 then (0xff : I64) <<< (8 * 3) else 0) |||
    (if bits.getLsbD 4 then (0xff : I64) <<< (8 * 4) else 0) |||
    (if bits.getLsbD 5 then (0xff : I64) <<< (8 * 5) else 0) |||
    (if bits.getLsbD 6 then (0xff : I64) <<< (8 * 6) else 0) |||
    (if bits.getLsbD 7 then (0xff : I64) <<< (8 * 7) else 0)) i = _
  simp only [lane_or, hbyte, hmask _ _ _ hi, Nat.reduceLT]
  match i with
  | 0 | 1 | 2 | 3 | 4 | 5 | 6 | 7 => simp
  | i + 8 => omega

/-- An operand of up to 64 bits. -/
theorem Represents.atom (h : Represents L tyenv s ρ) {a : Atom} {e : Exp}
    (ha : translateAtom tyenv a = .exp e) :
    ∃ x : BitVec (a.type tyenv).regType.width,
      Denotes ρ e (a.type tyenv).regType x ∧
        ∀ i < (a.type tyenv).bytes, lane 8 x i = lane 8 (a.value s) i := by
  cases a with
  | rdTmp tmp =>
    simp only [translateAtom] at ha
    split at ha
    · cases ha
    · next h128 =>
      cases ha
      refine ⟨_, ⟨rfl, rfl, rfl⟩, ?_⟩
      intro i hi
      have hbytes := h.temps tmp ⟨vexTemp tyenv tmp, (tyenv tmp).bytes, 0⟩
        (by simp [tempParts, h128]) i hi
      rw [Nat.zero_add] at hbytes
      have hother : tyenv tmp ≠ .other := by
        intro hother
        change i < (tyenv tmp).bytes at hi
        rw [hother] at hi
        exact absurd hi (Nat.not_lt_zero i)
      exact (lane_setWidth (k := (tyenv tmp).bytes) _ hi
        (IRType.width_regType h128 hother).ge).trans hbytes.symm
  | const type value =>
    cases ha
    refine ⟨_, Denotes.constOf type.regType value, ?_⟩
    intro i _
    have hle : type.regType.width ≤ 128 :=
      (Typ.width_le type.regType).trans (by decide)
    exact (lane_setWidth_of_le _ hle i).symm
  | v128 bits => cases ha

/-- An operand of 128 bits. -/
theorem Represents.atom128 (h : Represents L tyenv s ρ) {a : Atom}
    {high low : Exp} (ha : translateAtom tyenv a = .vector high low) :
    ∃ x y : I64, Denotes ρ high .reg64 x ∧ Denotes ρ low .reg64 y ∧
      ∀ i < 8, lane 8 y i = lane 8 (a.value s) i ∧
        lane 8 x i = lane 8 (a.value s) (8 + i) := by
  cases a with
  | rdTmp tmp =>
    simp only [translateAtom] at ha
    split at ha
    · next h128 =>
      cases ha
      refine ⟨_, _, ⟨rfl, rfl, BitVec.setWidth_eq _⟩,
        ⟨rfl, rfl, BitVec.setWidth_eq _⟩, ?_⟩
      intro i hi
      have hlow := h.temps tmp ⟨vexTempLow tmp, 8, 0⟩
        (by simp [tempParts, h128]) i hi
      have hhigh := h.temps tmp ⟨vexTempHigh tmp, 8, 8⟩
        (by simp [tempParts, h128]) i hi
      rw [Nat.zero_add] at hlow
      exact ⟨hlow.symm, hhigh.symm⟩
    · cases ha
  | const type value => cases ha
  | v128 bits =>
    cases ha
    refine ⟨_, _, .const64 _, .const64 _, ?_⟩
    intro i hi
    have hbyte : ∀ j < 16, lane 8 ((Atom.v128 bits).value s) j =
        if bits.getLsbD j then 0xff else 0 := by
      intro j hj
      have hlane := ByteStore.lane_read
        (fun i => if bits.getLsbD i then 0xff else 0) 0 16 hj
      rwa [Nat.zero_add] at hlane
    rw [hbyte i (by omega), hbyte (8 + i) (by omega),
      expandLaneConst_lane _ hi, expandLaneConst_lane _ hi]
    simp [hi]

/-! ## Operations without an index -/

/-- Running the code from temporary `n` on leads to the state. -/
structure Performs (L : GuestLayout) (tyenv : TypeEnv) (code : Emit Unit)
    (n : ℕ) (s : VexState) (ρ : Valuation μ) : Prop where
  represents : Represents L tyenv s (exec (code n).stmts ρ)
  frame : AgreeOn (Untouched tyenv n) ρ (exec (code n).stmts ρ)
  counter : n ≤ (code n).counter

theorem forM_push (stmts : List Stmt) (n : ℕ) :
    (stmts.forM push : Emit Unit) n = ⟨(), stmts, n⟩ := by
  induction stmts generalizing n with
  | nil => rfl
  | cons s stmts ih =>
    change (⟨Emitted.value ((stmts.forM push : Emit Unit) n),
      [s] ++ Emitted.stmts ((stmts.forM push : Emit Unit) n),
      Emitted.counter ((stmts.forM push : Emit Unit) n)⟩ : Emitted Unit) = _
    rw [ih n]
    rfl

theorem Untouched.ne_reg {n : ℕ} {v : Var} (h : Untouched tyenv n v)
    (r : Reg) : v ≠ r.var := h.2.1 r

theorem Untouched.mono {n m : ℕ} {v : Var} (h : Untouched tyenv n v)
    (hnm : n ≤ m) : Untouched tyenv m v :=
  ⟨h.1.trans_le (by exact_mod_cast hnm), h.2⟩

theorem Atom.value_guest (a : Atom) (s : VexState) (σ : ByteStore) :
    a.value { s with guest := σ } = a.value s := by
  cases a <;> rfl

/-- A put of a single variable. -/
theorem x64TranslatePut_single {offset : ℕ} {type : IRType} {data : IRValue}
    {stmts : List Stmt} (h128 : ¬type.Is128)
    (h : x64TranslatePut L offset type data = .ok stmts) :
    ∃ (put : PutStmt) (e : Exp), data = .exp e ∧ stmts = [put e] ∧
      PutsAt L offset type.regType put ∧
      type.regType.width / 8 = type.bytes := by
  have single : ∀ {t : Typ} {reg : Except Refusal PutStmt},
      (∀ put, reg = .ok put → PutsAt L offset t put) →
      (do return [(← reg) (← data.toExp)]) = .ok stmts →
      ∃ (put : PutStmt) (e : Exp), data = .exp e ∧ stmts = [put e] ∧
        PutsAt L offset t put := by
    intro t reg hreg h
    obtain ⟨put, hput, h⟩ := of_bind_eq_ok h
    obtain ⟨e, he, h⟩ := of_bind_eq_ok h
    cases data with
    | vector high low => cases he
    | exp e' =>
      cases he
      exact ⟨put, e, rfl, (Except.ok.inj h).symm, hreg put hput⟩
  cases type
  case i128 | v128 => exact absurd rfl h128
  case other => cases h
  case i8 =>
    obtain ⟨put, e, he, hs, hput⟩ :=
      single (t := .reg8) (fun _ => translatePutReg8_putsAt) h
    exact ⟨put, e, he, hs, hput, rfl⟩
  case i16 =>
    obtain ⟨put, e, he, hs, hput⟩ :=
      single (t := .reg16) (fun _ => translatePutReg16_putsAt) h
    exact ⟨put, e, he, hs, hput, rfl⟩
  case i32 | f32 =>
    obtain ⟨put, e, he, hs, hput⟩ :=
      single (t := .reg32) (fun _ => translatePutReg32_putsAt) h
    exact ⟨put, e, he, hs, hput, rfl⟩
  case i64 | f64 =>
    obtain ⟨put, e, he, hs, hput⟩ :=
      single (t := .reg64) (fun _ => translatePutReg64_putsAt) h
    exact ⟨put, e, he, hs, hput, rfl⟩

/-- A put of two variables. -/
theorem x64TranslatePut_double {offset : ℕ} {type : IRType} {data : IRValue}
    {stmts : List Stmt} (h128 : type.Is128)
    (h : x64TranslatePut L offset type data = .ok stmts) :
    ∃ (n : Fin 16) (half : Bool) (high low : Exp),
      data = .vector high low ∧
      stmts = [.move (ymmHalf n half).1.var high,
        .move (ymmHalf n half).2.var low] ∧
      offset = (ymmHalf n half).2.offset L ∧
      offset + 8 = (ymmHalf n half).1.offset L ∧ type.bytes = 8 + 8 := by
  have hput : translatePutReg128 L offset data = .ok stmts := by
    cases type
    case i128 | v128 => exact h
    all_goals cases h128
  have hbytes : type.bytes = 8 + 8 := by
    cases type
    case i128 | v128 => rfl
    all_goals cases h128
  unfold translatePutReg128 at hput
  split at hput
  · next n half hlookup =>
    obtain ⟨hlow, hhigh⟩ := cases128_eq hlookup
    cases data with
    | exp e => cases hput
    | vector high low =>
      exact ⟨n, half, high, low, rfl, (Except.ok.inj hput).symm, hlow, hhigh,
        hbytes⟩
  · cases hput

/-- A move to a register. -/
theorem performs_frame {r : Reg} {n : ℕ} (e : Exp) (ρ : Valuation μ) :
    AgreeOn (Untouched tyenv n) ρ (exec [.move r.var e] ρ) :=
  (agreeOn_move r.var e ρ).mono fun _ hv => hv.ne_reg r

theorem ymmHalf_typ (n : Fin 16) (half : Bool) :
    (ymmHalf n half).1.typ = .reg64 ∧ (ymmHalf n half).2.typ = .reg64 := by
  cases half
  · exact ⟨rfl, rfl⟩
  · exact ⟨rfl, rfl⟩

theorem putsAt_reg64 {r : Reg} (hr : r.typ = .reg64) :
    PutsAt L (r.offset L) .reg64 fun data => .move r.var data := by
  have h := putsAt_reg (L := L) r
  rwa [hr] at h

theorem performs_put {offset : ℕ} {data : Atom} {code : Emit Unit}
    (h : translateOp L tyenv (.put offset data) = .ok code)
    (hs : Represents L tyenv s ρ) (n : ℕ) :
    Performs L tyenv code n ((VexOp.put offset data).exec tyenv s) ρ := by
  obtain ⟨stmts, hput, h⟩ := of_bind_eq_ok h
  obtain rfl := Except.ok.inj h
  by_cases h128 : (data.type tyenv).Is128
  · obtain ⟨m, half, high, low, hdata, rfl, hlow, hhigh, hbytes⟩ :=
      x64TranslatePut_double h128 hput
    obtain ⟨htyph, htypl⟩ := ymmHalf_typ m half
    obtain ⟨x, _, hx, _, hlanes⟩ := hs.atom128 hdata
    have hfirst := (hs.put (putsAt_reg64 htyph) hx).1
    obtain ⟨_, y, _, hy, hlanes'⟩ := hfirst.atom128 hdata
    have hsecond := (hfirst.put (putsAt_reg64 htypl) hy).1
    rw [← hlow, ← hhigh] at hsecond
    simp only [Atom.value_guest] at hlanes'
    have hstore : (VexOp.put offset data).exec tyenv s =
        { s with guest :=
            (s.guest.write (offset + 8) 8 x).write offset 8 y } := by
      simp only [VexOp.exec, hbytes]
      rw [ByteStore.write_write (fun i hi => (hlanes' i hi).1)
        (fun i hi => (hlanes i hi).2)]
    constructor
    · rw [forM_push, hstore]
      exact hsecond
    · rw [forM_push]
      exact (performs_frame high ρ).trans (performs_frame low _)
    · rw [forM_push]
  · obtain ⟨put, e, hdata, rfl, hputs, hbytes⟩ :=
      x64TranslatePut_single h128 hput
    obtain ⟨x, hx, hlanes⟩ := hs.atom hdata
    obtain ⟨hafter, r, e', he⟩ := hs.put hputs hx
    constructor
    · rw [hbytes, ByteStore.write_congr hlanes] at hafter
      rw [forM_push]
      exact hafter
    · rw [forM_push, he]
      exact performs_frame e' ρ
    · rw [forM_push]

/-- A get of a single variable. -/
theorem x64TranslateGet_single {offset : ℕ} {type : IRType} {value : IRValue}
    (h128 : ¬type.Is128) (h : x64TranslateGet L type offset = .ok value) :
    ∃ e, value = .exp e ∧ GetsAt L offset type.regType e ∧
      type.regType.width = 8 * type.bytes := by
  have single : ∀ {t : Typ} {get : Except Refusal Exp},
      (∀ e, get = .ok e → GetsAt L offset t e) →
      (do return IRValue.exp (← get)) = .ok value →
      ∃ e, value = .exp e ∧ GetsAt L offset t e := by
    intro t get hget h
    obtain ⟨e, he, h⟩ := of_bind_eq_ok h
    exact ⟨e, (Except.ok.inj h).symm, hget e he⟩
  cases type
  case i128 | v128 => exact absurd rfl h128
  case other => cases h
  case i8 =>
    obtain ⟨e, he, hget⟩ :=
      single (t := .reg8) (fun _ => translateGetReg8_getsAt) h
    exact ⟨e, he, hget, rfl⟩
  case i16 =>
    obtain ⟨e, he, hget⟩ :=
      single (t := .reg16) (fun _ => translateGetReg16_getsAt) h
    exact ⟨e, he, hget, rfl⟩
  case i32 | f32 =>
    obtain ⟨e, he, hget⟩ :=
      single (t := .reg32) (fun _ => translateGetReg32_getsAt) h
    exact ⟨e, he, hget, rfl⟩
  case i64 | f64 =>
    obtain ⟨e, he, hget⟩ :=
      single (t := .reg64) (fun _ => translateGetReg64_getsAt) h
    exact ⟨e, he, hget, rfl⟩

/-- A get of two variables. -/
theorem x64TranslateGet_double {offset : ℕ} {type : IRType} {value : IRValue}
    (h128 : type.Is128) (h : x64TranslateGet L type offset = .ok value) :
    ∃ (n : Fin 16) (half : Bool),
      value = .vector (.temp (ymmHalf n half).1.var)
        (.temp (ymmHalf n half).2.var) ∧
      offset = (ymmHalf n half).2.offset L ∧
      offset + 8 = (ymmHalf n half).1.offset L ∧ type.bytes = 16 := by
  have hget : translateGetReg128 L offset = .ok value := by
    cases type
    case i128 | v128 => exact h
    all_goals cases h128
  have hbytes : type.bytes = 16 := by
    cases type
    case i128 | v128 => rfl
    all_goals cases h128
  unfold translateGetReg128 at hget
  split at hget
  · next n half hlookup =>
    obtain ⟨hlow, hhigh⟩ := cases128_eq hlookup
    exact ⟨n, half, (Except.ok.inj hget).symm, hlow, hhigh, hbytes⟩
  · cases hget

theorem Untouched.ne_temp {n tmp : ℕ} {v : Var} (h : Untouched tyenv n v)
    {p : TempPart} (hp : p ∈ tempParts tyenv tmp) : v ≠ p.var :=
  h.2.2 tmp p hp

/-- A move to the variable of a temporary. -/
theorem Represents.moveTemp (hs : Represents L tyenv s ρ) {tmp : ℕ}
    (h128 : ¬(tyenv tmp).Is128) {e : Exp} {t : Typ} {x : BitVec t.width}
    (he : Denotes ρ e t x) {y : BitVec 128}
    (hlanes : ∀ i < (tyenv tmp).bytes, lane 8 x i = lane 8 y i) (n : ℕ) :
    Represents L tyenv (s.setTemp tmp y)
      (exec [.move (vexTemp tyenv tmp) e] ρ) ∧
    AgreeOn (Untouched tyenv n) ρ
      (exec [.move (vexTemp tyenv tmp) e] ρ) := by
  have hparts : tempParts tyenv tmp =
      [⟨vexTemp tyenv tmp, (tyenv tmp).bytes, 0⟩] := if_neg h128
  have hagree := agreeOn_move (vexTemp tyenv tmp) e ρ
  constructor
  · apply hs.setTemp
    · intro p hp i hi
      rw [hparts, List.mem_singleton] at hp
      subst hp
      rw [temp_move he, lane_setWidth_of_le _ (Typ.width_le t), hlanes i hi,
        Nat.zero_add]
    · apply hagree.mono
      intro v hv
      exact hv _ (hparts ▸ List.mem_singleton_self _)
  · apply hagree.mono
    intro v hv
    exact hv.ne_temp (hparts ▸ List.mem_singleton_self _)

theorem VexState.lane_get (s : VexState) (offset : ℕ) {type : IRType} {i : ℕ}
    (hi : i < type.bytes) :
    lane 8 ((s.guest.read offset type.bytes).setWidth 128) i =
      s.guest (offset + i) := by
  have hle : 8 * type.bytes ≤ 128 := by
    cases type <;> decide
  rw [lane_setWidth_of_le _ hle, ByteStore.lane_read _ _ _ hi]

/-- What is read is what was last put there. -/
theorem VexState.lane_get_put (s : VexState) (tmp offset : ℕ) (a : Atom)
    {i : ℕ} (hi : i < (a.type tyenv).bytes) :
    lane 8 (((VexOp.get tmp offset (a.type tyenv)).exec tyenv
      ((VexOp.put offset a).exec tyenv s)).temp tmp) i =
      lane 8 (a.value s) i := by
  have hread := VexState.lane_get ((VexOp.put offset a).exec tyenv s) offset hi
  simp only [VexOp.exec, VexState.setTemp, Function.update_self] at hread ⊢
  rw [hread, ByteStore.write_apply hi]

/-- Two registers are moved to the variables of a vector. -/
theorem Represents.moveDouble (hs : Represents L tyenv s ρ) {tmp : ℕ}
    (h128 : (tyenv tmp).Is128) {rh rl : Reg} (hrh : rh.typ = .reg64)
    (hrl : rl.typ = .reg64) {offset : ℕ} (hlow : offset = rl.offset L)
    (hhigh : offset + 8 = rh.offset L) (n : ℕ) :
    let ρ' := exec [.move (vexTempHigh tmp) (.temp rh.var),
      .move (vexTempLow tmp) (.temp rl.var)] ρ
    Represents L tyenv
      (s.setTemp tmp ((s.guest.read offset 16).setWidth 128)) ρ' ∧
      AgreeOn (Untouched tyenv n) ρ ρ' := by
  intro ρ'
  have hparts : tempParts tyenv tmp =
      [⟨vexTempHigh tmp, 8, 8⟩, ⟨vexTempLow tmp, 8, 0⟩] := if_pos h128
  have hmemh : ⟨vexTempHigh tmp, 8, 8⟩ ∈ tempParts tyenv tmp := by
    simp [hparts]
  have hmeml : ⟨vexTempLow tmp, 8, 0⟩ ∈ tempParts tyenv tmp := by
    simp [hparts]
  let ρ₁ := exec [.move (vexTempHigh tmp) (.temp rh.var)] ρ
  have hagree1 : AgreeOn (· ≠ vexTempHigh tmp) ρ ρ₁ := agreeOn_move _ _ ρ
  have hagree2 : AgreeOn (· ≠ vexTempLow tmp) ρ₁ ρ' := agreeOn_move _ _ ρ₁
  have hvalh : ρ'.temp (vexTempHigh tmp) = ρ.temp rh.var := by
    rw [← hagree2.temp _ (by simp [vexTempHigh, vexTempLow]),
      temp_move (denotes_reg64 ρ hrh), BitVec.setWidth_eq]
  have hvall : ρ'.temp (vexTempLow tmp) = ρ.temp rl.var := by
    rw [hagree1.temp _ (tempParts_ne_reg hmemh rl).symm]
    exact (temp_move (denotes_reg64 ρ₁ hrl)).trans (BitVec.setWidth_eq _)
  have hread : ∀ i < 16, lane 8 ((s.guest.read offset 16).setWidth 128) i =
      s.guest (offset + i) :=
    fun i hi => @VexState.lane_get s offset .v128 i hi
  have hbytesh := Reg.bytes_of_typ hrh
  have hbytesl := Reg.bytes_of_typ hrl
  constructor
  · apply hs.setTemp
    · intro p hp i hi
      rw [hparts] at hp
      simp only [List.mem_cons, List.not_mem_nil, or_false] at hp
      rcases hp with rfl | rfl
      · change i < 8 at hi
        change lane 8 _ (8 + i) = lane 8 (ρ'.temp (vexTempHigh tmp)) i
        rw [hread _ (by omega), hvalh, ← hs.guest rh i (by omega), ← hhigh,
          Nat.add_assoc]
      · change i < 8 at hi
        change lane 8 _ (0 + i) = lane 8 (ρ'.temp (vexTempLow tmp)) i
        rw [hread _ (by omega), hvall, ← hs.guest rl i (by omega), ← hlow,
          Nat.zero_add]
    · exact (hagree1.mono fun v hv => hv _ hmemh).trans
        (hagree2.mono fun v hv => hv _ hmeml)
  · exact (hagree1.mono fun v hv => hv.ne_temp hmemh).trans
      (hagree2.mono fun v hv => hv.ne_temp hmeml)

theorem performs_get {tmp offset : ℕ} {type : IRType} {code : Emit Unit}
    (h : translateOp L tyenv (.get tmp offset type) = .ok code)
    (htype : tyenv tmp = type) (hs : Represents L tyenv s ρ) (n : ℕ) :
    Performs L tyenv code n ((VexOp.get tmp offset type).exec tyenv s) ρ := by
  obtain ⟨value, hget, h⟩ := of_bind_eq_ok h
  obtain ⟨stmts, hassign, h⟩ := of_bind_eq_ok h
  obtain rfl := Except.ok.inj h
  subst htype
  by_cases h128 : (tyenv tmp).Is128
  · obtain ⟨m, half, rfl, hlow, hhigh, hbytes⟩ :=
      x64TranslateGet_double h128 hget
    simp only [assignTmp, h128, if_true] at hassign
    obtain rfl := Except.ok.inj hassign
    obtain ⟨htyph, htypl⟩ := ymmHalf_typ m half
    obtain ⟨hafter, hframe⟩ :=
      hs.moveDouble h128 htyph htypl hlow hhigh n
    constructor
    · rw [forM_push, VexOp.exec, hbytes]
      exact hafter
    · rw [forM_push]
      exact hframe
    · rw [forM_push]
  · obtain ⟨e, rfl, hgets, hwidth⟩ := x64TranslateGet_single h128 hget
    simp only [assignTmp, h128] at hassign
    obtain rfl := Except.ok.inj hassign
    obtain ⟨x, hx, hlanes⟩ := hs.get hgets
    have hsame : ∀ i < (tyenv tmp).bytes, lane 8 x i =
        lane 8 ((s.guest.read offset (tyenv tmp).bytes).setWidth 128) i := by
      intro i hi
      rw [hlanes i (by omega), s.lane_get offset hi]
    obtain ⟨hafter, hframe⟩ := hs.moveTemp h128 hx hsame n
    constructor
    · rw [forM_push]
      exact hafter
    · rw [forM_push]
      exact hframe
    · rw [forM_push]

end Fuzzball.Asmir.X64
