import Fuzzball.ByteRecords
import Fuzzball.CompareAndSwap
import Fuzzball.X64GuestIndexed

/-!
# Saving and restoring the floating-point state

`x64_translate_dirty` of `irtoir-x64.cpp`: the dirty helpers that write the
state of the x87 unit and of the vector registers to an area of 512 bytes, and
that read it back.
-/

namespace Fuzzball.Asmir.X64

open Vine

-- the literals of lanes and of registers share their proofs
local instance lane_neZero : NeZero 4 := ⟨by decide⟩
local instance x87_neZero : NeZero 8 := ⟨by decide⟩
local instance xmm_neZero : NeZero 16 := ⟨by decide⟩

/-! ## Accesses at an offset -/

def offsetAddr (base : Exp) (offset : ℕ) : Exp :=
  if offset = 0 then base else exAdd base (exConst64 (BitVec.ofNat 64 offset))

def makeStoreOffset (mem : Var) (base : Exp) (offset : ℕ) (rhs : Exp)
    (size : Typ) : Statement :=
  .move (.mem mem (offsetAddr base offset) size) rhs

/-- `split_vector` -/
def IRValue.split : IRValue → Except Refusal (Exp × Exp)
  | .vector high low => .ok (high, low)
  | .exp (.unknown s) => .ok (.unknown s, .unknown s)
  | .exp _ => .error .assertion

def makeStoreOffset128 (mem : Var) (base : Exp) (offset : ℕ)
    (rhs : IRValue) : Except Refusal (List Statement) := do
  let addr := offsetAddr base offset
  let (rhs_high, rhs_low) ← rhs.split
  let addr_h := exAdd addr (exConst64 8)
  pure [.move (.mem mem addr .reg64) rhs_low,
    .move (.mem mem addr_h .reg64) rhs_high]

def makeLoadOffset (mem : Var) (base : Exp) (offset : ℕ) (size : Typ) : Exp :=
  .mem mem (offsetAddr base offset) size

def makeLoadOffset128 (mem : Var) (base : Exp) (offset : ℕ) : IRValue :=
  let addr := offsetAddr base offset
  let addr_h := exAdd addr (exConst64 8)
  .vector (.mem mem addr_h .reg64) (.mem mem addr .reg64)

/-! ## Saving -/

def mkReg (r : Reg) : Exp := .temp r.var

/-- The control word: all exceptions masked, double precision. -/
def saveFcw : Exp :=
  let fprnd_bits := exShl (exAnd (mkReg (.whole .fpround)) (exConst64 3))
    (exConst 10)
  exLCast (exOr fprnd_bits (exConst64 0x037f)) .reg16

def saveFsw : Exp :=
  let fsw_top := exLCast (exShl (exAnd (mkReg .ftop) (exConst 7))
    (exConst 11)) .reg16
  let fsw_stat := exLCast (exAnd (mkReg (.whole .fc3210))
    (exConst64 0x4700)) .reg16
  exOr fsw_top fsw_stat

/-- A tag as a bit of the abridged tag word. -/
def ftagBit (i : Fin 8) : Exp :=
  let bit := exUCast (exNeq (mkReg (.fptag i)) (exConstOf .reg8 0)) .reg8
  if i = 0 then bit else exShl bit (exConst (BitVec.ofNat 32 i))

def saveFtw : Exp :=
  exOr4 (exOr (ftagBit 0) (ftagBit 1)) (exOr (ftagBit 2) (ftagBit 3))
    (exOr (ftagBit 4) (ftagBit 5)) (exOr (ftagBit 6) (ftagBit 7))

/-- The statements for `irout` and, at the end, the one returned. -/
def emitXsaveComponent0 (mem : Var) (addr_exp : Exp) : List Statement :=
  let store := makeStoreOffset mem addr_exp
  [store 0 saveFcw .reg16, store 2 saveFsw .reg16, store 4 saveFtw .reg8,
    store 5 (exConstOf .reg8 0) .reg8,
    -- FOP, FPU IP and CS, FPU DP and DS are not supported
    store 6 (exConstOf .reg16 0) .reg16, store 8 (exConstOf .reg32 0) .reg32,
    store 12 (exConstOf .reg16 0) .reg16,
    store 14 (exConstOf .reg16 0) .reg16,
    store 16 (exConstOf .reg32 0) .reg32,
    store 20 (exConstOf .reg16 0) .reg16] ++
  -- 64 bits of each x87 register, instead of the format of 80 bits
  (List.finRange 8).flatMap (fun i : Fin 8 =>
    [store (32 + 16 * i) (mkReg (.fpreg i)) .reg64,
      store (32 + 16 * i + 8) (exConst64 0) .reg64]) ++
  [.move (.mem mem (exAdd addr_exp (exConst64 22)) .reg16)
    (exConstOf .reg16 0)]

def saveMxcsr : Exp :=
  let ssernd_bits := exShl (exAnd (mkReg (.whole .sseround)) (exConst64 3))
    (exConst 13)
  exLCast (exOr ssernd_bits (exConst64 0x1f80)) .reg32

def emitXsaveComponent1Noxmm (mem : Var) (addr_exp : Exp) : List Statement :=
  [makeStoreOffset mem addr_exp 24 saveMxcsr .reg32,
    .move (.mem mem (exAdd addr_exp (exConst64 28)) .reg32)
      (exConst 0x0000ffff)]

/-! ## Restoring -/

def emitXrstorComponent0 (mem : Var) (addr_exp : Exp) : Emit Unit := do
  let fsw := makeLoadOffset mem addr_exp 2 .reg16
  let ftop := exAnd (exShr (exUCast fsw .reg32) (exConst 11)) (exConst 7)
  push (.move Reg.ftop.var ftop)
  let c3210 := exAnd (exUCast fsw .reg64) (exConst64 0x4700)
  push (.move (Reg.whole .fc3210).var c3210)
  let tag_bits ← mkTemp .reg8
  push (.move tag_bits (makeLoadOffset mem addr_exp 4 .reg8))
  (List.finRange 8).forM fun i =>
    let bit := exGetBit (.temp tag_bits) (BitVec.ofNat 32 i)
    push (.move (Reg.fptag i).var (exUCast bit .reg8))
  (List.finRange 8).forM fun i =>
    push (.move (Reg.fpreg i).var
      (makeLoadOffset mem addr_exp (32 + 16 * i) .reg64))
  let fcw := makeLoadOffset mem addr_exp 0 .reg16
  let fprnd := exAnd (exShr (exUCast fcw .reg64) (exConst 10)) (exConst64 3)
  push (.move (Reg.whole .fpround).var fprnd)

def emitXrstorComponent1Noxmm (mem : Var) (addr_exp : Exp) : Emit Unit :=
  let mxcsr := Exp.mem mem (exAdd addr_exp (exConst64 24)) .reg32
  let rmode := exAnd (exShr (exUCast mxcsr .reg64) (exConst 13))
    (exConst64 3)
  push (.move (Reg.whole .sseround).var rmode)

/-! ## Dirty helpers -/

/-- The helpers by their names; `other` for those not recognised.  The temporary
is that of the result. -/
inductive DirtyHelper
  | cpuid
  | rdtsc (lhs : ℕ)
  | loadF80le (lhs : ℕ)
  | storeF80le
  | xsaveComponent0
  | xsaveComponent1ExcludingXmmregs
  | fxsave
  | finit
  | xrstorComponent0
  | xrstorComponent1ExcludingXmmregs
  | fxrstor
  | other
  deriving DecidableEq, Repr

section Layout

variable (L : GuestLayout)

/-- Where a vector register is, if they are allocated sequentially. -/
def xmmOffset (i : ℕ) : ℕ :=
  Int.toNat (ymmOffset L 0 + i * ((ymmOffset L 1 : ℤ) - ymmOffset L 0))

def emitFxsave (mem : Var) (addr_exp : Exp) :
    Except Refusal (List Statement) := do
  let xmms ← (List.finRange 16).mapM fun i : Fin 16 => do
    let xmm_val ← translateGetReg128 L (xmmOffset L i)
    makeStoreOffset128 mem addr_exp (160 + 16 * i) xmm_val
  pure (emitXsaveComponent0 mem addr_exp ++ xmms.flatten ++
    emitXsaveComponent1Noxmm mem addr_exp)

def emitFxrstor (mem : Var) (addr_exp : Exp) :
    Except Refusal (Emit Unit) := do
  let puts ← (List.finRange 16).mapM fun i : Fin 16 =>
    translatePutReg128 L (xmmOffset L i)
      (makeLoadOffset128 mem addr_exp (160 + 16 * i))
  pure do
    emitXrstorComponent0 mem addr_exp
    puts.flatten.forM push
    emitXrstorComponent1Noxmm mem addr_exp

/-- `FINIT` -/
def emitFinit : Emit Unit := do
  push (.move Reg.ftop.var (exConst 0))
  (List.finRange 8).forM fun i =>
    push (.move (Reg.fptag i).var (exConstOf .reg8 0))
  (List.finRange 8).forM fun i =>
    push (.move (Reg.fpreg i).var (exConst64 0))
  push (.move (Reg.whole .fc3210).var (exConst64 0))
  push (.move (Reg.whole .fpround).var (exConst64 0))

/-- The argument is the address, for the helpers that have one. -/
def x64TranslateDirty (mem : Var) (tyenv : TypeEnv) (func : DirtyHelper)
    (arg : Atom) : Except Refusal (Translate Unit) := do
  let pushAll (stmts : List Statement) : Translate Unit :=
    stmts.forM pushBack
  let assignUnknown (lhs : ℕ) (s : OString) :
      Except Refusal (Translate Unit) := do
    let stmts ← assignTmp tyenv lhs (.exp (.unknown s))
    pure (pushAll (stmts.map Stmt.toStatement))
  let address := (translateAtom tyenv arg).toExp
  match func with
  | .cpuid => pure (pushBack (.special (.ofAscii "cpuid")))
  | .rdtsc lhs => assignUnknown lhs (.ofAscii "rdtsc")
  | .loadF80le lhs => assignUnknown lhs (.ofAscii "loadF80")
  | .storeF80le => .error .unknown
  | .xsaveComponent0 => return pushAll (emitXsaveComponent0 mem (← address))
  | .xsaveComponent1ExcludingXmmregs =>
    return pushAll (emitXsaveComponent1Noxmm mem (← address))
  | .fxsave => return pushAll (← emitFxsave L mem (← address))
  | .finit => pure (liftEmit emitFinit)
  | .xrstorComponent0 =>
    return liftEmit (emitXrstorComponent0 mem (← address))
  | .xrstorComponent1ExcludingXmmregs =>
    return liftEmit (emitXrstorComponent1Noxmm mem (← address))
  | .fxrstor => return liftEmit (← emitFxrstor L mem (← address))
  | .other => .error .unknown

end Layout

/-! ## Expressions that do not read memory -/

def memFree : Exp → Bool
  | .binOp _ e1 e2 => memFree e1 && memFree e2
  | .fbinOp _ _ e1 e2 => memFree e1 && memFree e2
  | .unOp _ e1 => memFree e1
  | .funOp _ _ e1 => memFree e1
  | .mem _ _ _ => false
  | .cast _ _ e1 => memFree e1
  | .fcast _ _ _ e1 => memFree e1
  | .letTemp _ e1 e2 => memFree e1 && memFree e2
  | .letMem _ _ _ _ _ => false
  | .ite cond e1 e2 => memFree cond && memFree e1 && memFree e2
  | .temp _ | .constant _ | .name _ | .unknown _ => true

theorem eval_of_memFree {μ : Type} [VineMemory μ] {e : Exp}
    (he : memFree e) {ρ ρ' : Valuation μ} (htemp : ρ.temp = ρ'.temp)
    (hlabel : ρ.label = ρ'.label) (w : ℕ) : e.eval ρ w = e.eval ρ' w := by
  induction e generalizing ρ ρ' w with
  | binOp op e1 e2 ih1 ih2 =>
    rw [memFree, Bool.and_eq_true] at he
    have h1 : ∀ w, e1.eval ρ w = e1.eval ρ' w := ih1 he.1 htemp hlabel
    have h2 : ∀ w, e2.eval ρ w = e2.eval ρ' w := ih2 he.2 htemp hlabel
    cases op <;> simp only [Exp.eval, h1, h2]
  | unOp op e1 ih =>
    cases op <;> simp only [Exp.eval, ih he htemp hlabel w]
  | constant c => cases c <;> rfl
  | temp v => simp only [Exp.eval, htemp]
  | mem v addr t => cases he
  | name l => simp only [Exp.eval, hlabel]
  | cast ct t e1 ih =>
    cases ct <;> simp only [Exp.eval, ih he htemp hlabel]
  | letTemp v e1 e2 ih1 ih2 =>
    rw [memFree, Bool.and_eq_true] at he
    simp only [Exp.eval, ih1 he.1 htemp hlabel]
    apply ih2 he.2
    · simp only [Valuation.setTemp, htemp]
    · exact hlabel
  | letMem v addr t e1 e2 => cases he
  | ite cond e1 e2 ihc ih1 ih2 =>
    rw [memFree, Bool.and_eq_true, Bool.and_eq_true] at he
    simp only [Exp.eval, ihc he.1.1 htemp hlabel, ih1 he.1.2 htemp hlabel,
      ih2 he.2 htemp hlabel]
  | fbinOp | funOp | fcast | unknown => rfl

theorem eval_setMem {e : Exp} (he : memFree e) (ρ : Valuation ByteMemory)
    (mem : Var) (m : ByteMemory) (w : ℕ) :
    e.eval (ρ.setMem mem m) w = e.eval ρ w := by
  have htemp : (ρ.setMem mem m).temp = ρ.temp := rfl
  have hlabel : (ρ.setMem mem m).label = ρ.label := rfl
  exact eval_of_memFree he htemp hlabel w

/-! ## The area -/

/-- A number that is saved: where in the area, its type, and its value. -/
structure AreaField where
  offset : ℕ
  typ : Typ
  rhs : Exp
  deriving DecidableEq

def component0Fields : List AreaField :=
  [⟨0, .reg16, saveFcw⟩, ⟨2, .reg16, saveFsw⟩, ⟨4, .reg8, saveFtw⟩,
    ⟨5, .reg8, exConstOf .reg8 0⟩, ⟨6, .reg16, exConstOf .reg16 0⟩,
    ⟨8, .reg32, exConstOf .reg32 0⟩, ⟨12, .reg16, exConstOf .reg16 0⟩,
    ⟨14, .reg16, exConstOf .reg16 0⟩, ⟨16, .reg32, exConstOf .reg32 0⟩,
    ⟨20, .reg16, exConstOf .reg16 0⟩] ++
  (List.finRange 8).flatMap (fun i : Fin 8 =>
    [⟨32 + 16 * i, .reg64, mkReg (.fpreg i)⟩,
      ⟨32 + 16 * i + 8, .reg64, exConst64 0⟩]) ++
  [⟨22, .reg16, exConstOf .reg16 0⟩]

def xmmFields (i : Fin 16) : List AreaField :=
  [⟨160 + 16 * i, .reg64, mkReg (.ymm i 0)⟩,
    ⟨160 + 16 * i + 8, .reg64, mkReg (.ymm i 1)⟩]

def component1Fields : List AreaField :=
  [⟨24, .reg32, saveMxcsr⟩, ⟨28, .reg32, exConst 0x0000ffff⟩]

def areaFields : List AreaField :=
  component0Fields ++ (List.finRange 16).flatMap xmmFields ++ component1Fields

def AreaField.cell (ρ : Valuation ByteMemory) (f : AreaField) :
    ByteMemory.Cell :=
  ⟨f.offset, f.typ.width / 8, (f.rhs.eval ρ f.typ.width).toNat⟩

/-- The field is an element in the area, and saving others before it does not
change its value. -/
def AreaField.Saved (f : AreaField) : Prop :=
  f.typ ∈ elementTypes ∧ f.rhs.typ = f.typ ∧ memFree f.rhs ∧
    f.offset + f.typ.width / 8 ≤ 512

instance (f : AreaField) : Decidable f.Saved :=
  inferInstanceAs (Decidable (_ ∧ _))

theorem areaFields_saved : ∀ f ∈ areaFields, f.Saved := by
  decide +kernel

/-- The fields do not overlap. -/
theorem areaFields_apart (ρ : Valuation ByteMemory) :
    (areaFields.map (AreaField.cell ρ)).Pairwise ByteMemory.Cell.Apart := by
  have hplaces : (areaFields.map fun f => (f.offset, f.typ.width / 8)).Pairwise
      fun c d => c.1 + c.2 ≤ d.1 ∨ d.1 + d.2 ≤ c.1 := by
    decide +kernel
  rw [List.pairwise_map] at hplaces ⊢
  exact hplaces

/-! ## Saving -/

section Save

variable {ρ : Valuation ByteMemory} {mem : Var} {a : I64} {base : Exp}
  {L : GuestLayout}

/-- The expression is the address whatever the memory holds. -/
def Addresses (ρ : Valuation ByteMemory) (mem : Var) (base : Exp) (a : I64) :
    Prop :=
  ∀ m, Denotes (ρ.setMem mem m) base .reg64 a

/-- The address eight bytes on. -/
theorem denotes_next {addr : Exp} {k : ℕ}
    (h : Denotes ρ addr .reg64 (a + BitVec.ofNat 64 k)) :
    Denotes ρ (exAdd addr (exConst64 8)) .reg64
      (a + BitVec.ofNat 64 (k + 8)) := by
  have hadd := h.add (.const64 8)
  rwa [BitVec.add_assoc, show (8 : I64) = BitVec.ofNat 64 8 from rfl,
    ← BitVec.ofNat_add] at hadd

theorem denotes_offsetAddr (h : Denotes ρ base .reg64 a) (k : ℕ) :
    Denotes ρ (offsetAddr base k) .reg64 (a + BitVec.ofNat 64 k) := by
  unfold offsetAddr
  split
  · next hk =>
    rw [hk, BitVec.add_zero]
    exact h
  · exact h.add (.const64 _)

theorem Addresses.offset (h : Addresses ρ mem base a) (k : ℕ) :
    Addresses ρ mem (offsetAddr base k) (a + BitVec.ofNat 64 k) :=
  fun m => denotes_offsetAddr (h m) k

/-- The statement stores the field. -/
def Stores (ρ : Valuation ByteMemory) (mem : Var) (a : I64) (s : Statement)
    (f : AreaField) : Prop :=
  ∃ addr, s = .move (.mem mem addr f.typ) f.rhs ∧
    Addresses ρ mem addr (a + BitVec.ofNat 64 f.offset)

theorem setMem_setMem (ρ : Valuation ByteMemory) (mem : Var)
    (m m' : ByteMemory) : (ρ.setMem mem m).setMem mem m' = ρ.setMem mem m' := by
  simp only [Valuation.setMem, Function.update_idem]

theorem Stores.storeMem {f : AreaField} {addr : Exp}
    (haddr : Addresses ρ mem addr (a + BitVec.ofNat 64 f.offset))
    (hf : f.Saved) (m : ByteMemory) :
    storeMem mem addr f.typ f.rhs (ρ.setMem mem m) =
      ρ.setMem mem (m.storeBytes ((f.cell ρ).address a) (f.cell ρ).bytes
        (f.cell ρ).value) := by
  have heval := eval_setMem hf.2.2.1 ρ mem m f.typ.width
  have hrhs : Denotes (ρ.setMem mem m) f.rhs f.typ
      (f.rhs.eval ρ f.typ.width) := ⟨hf.2.1, rfl, heval⟩
  have hmem : (ρ.setMem mem m).mem mem = m := Function.update_self ..
  have hself : (a + BitVec.ofNat 64 f.offset).setWidth 64 =
      a + BitVec.ofNat 64 f.offset := BitVec.setWidth_eq _
  rw [storeMem_eq (haddr m) hrhs, setMem_setMem, hmem]
  exact congrArg (fun x => ρ.setMem mem (m.storeBytes x _ _)) hself

/-- Code that stores the fields one after the other. -/
theorem reaches_stores {code : List Statement} {fields : List AreaField}
    (hcode : List.Forall₂ (Stores ρ mem a) code fields)
    (hsaved : ∀ f ∈ fields, f.Saved) (frag post : List Statement)
    (m : ByteMemory) :
    Reaches frag (.running (code ++ post) (ρ.setMem mem m))
      (.running post (ρ.setMem mem
        (m.storeCells a (fields.map (AreaField.cell ρ))))) := by
  induction hcode generalizing m with
  | nil => exact Reaches.refl
  | cons hs _ ih =>
    obtain ⟨addr, rfl, haddr⟩ := hs
    apply reaches_store
    rw [Stores.storeMem haddr (hsaved _ List.mem_cons_self)]
    exact ih (fun f hf => hsaved f (List.mem_cons_of_mem _ hf)) _

/-- What the area holds at a field after all have been stored. -/
theorem word_saved {f : AreaField} (hf : f ∈ areaFields) (m : ByteMemory) :
    ByteMemory.word (m.storeCells a (areaFields.map (AreaField.cell ρ))) f.typ
        (a + BitVec.ofNat 64 f.offset) =
      f.rhs.eval ρ f.typ.width := by
  have hsaved := areaFields_saved f hf
  have hloaded := ByteMemory.loadBytes_storeCells (n := 512) (a := a)
    (by decide) (fun c hc => ?_) (areaFields_apart ρ)
    (List.mem_map_of_mem hf) m
  · apply BitVec.eq_of_toNat_eq
    rw [toNat_word hsaved.1]
    apply hloaded.trans
    change _ % 256 ^ (f.typ.width / 8) = _
    rw [elementTypes_pow hsaved.1]
    exact Nat.mod_eq_of_lt (BitVec.isLt _)
  · obtain ⟨g, hg, rfl⟩ := List.mem_map.mp hc
    exact (areaFields_saved g hg).2.2.2

theorem stores_offset (h : Addresses ρ mem base a) (offset : ℕ) (rhs : Exp)
    (size : Typ) :
    Stores ρ mem a (makeStoreOffset mem base offset rhs size)
      ⟨offset, size, rhs⟩ :=
  ⟨_, rfl, h.offset offset⟩

theorem forall₂_flatMap {α β γ : Type} {R : β → γ → Prop} {f : α → List β}
    {g : α → List γ} (l : List α)
    (h : ∀ x, List.Forall₂ R (f x) (g x)) :
    List.Forall₂ R (l.flatMap f) (l.flatMap g) := by
  induction l with
  | nil => exact .nil
  | cons x l ih => exact List.rel_append (h x) ih

theorem stores_component0 (h : Addresses ρ mem base a) :
    List.Forall₂ (Stores ρ mem a) (emitXsaveComponent0 mem base)
      component0Fields := by
  have hstore := stores_offset h
  unfold emitXsaveComponent0 component0Fields
  refine List.rel_append (List.rel_append ?_ ?_) ?_
  · simp only [List.forall₂_cons, hstore, List.Forall₂.nil, and_self]
  · refine forall₂_flatMap _ fun i => ?_
    simp only [List.forall₂_cons, hstore, List.Forall₂.nil, and_self]
  · exact .cons (hstore 22 _ _) .nil

theorem stores_component1 (h : Addresses ρ mem base a) :
    List.Forall₂ (Stores ρ mem a) (emitXsaveComponent1Noxmm mem base)
      component1Fields :=
  .cons (stores_offset h 24 _ _) (.cons (stores_offset h 28 _ _) .nil)

/-- The two stores of a vector register. -/
def xmmStores (mem : Var) (base : Exp) (i : Fin 16) : List Statement :=
  let addr := offsetAddr base (160 + 16 * i)
  [.move (.mem mem addr .reg64) (mkReg (.ymm i 0)),
    .move (.mem mem (exAdd addr (exConst64 8)) .reg64) (mkReg (.ymm i 1))]

theorem stores_xmm (h : Addresses ρ mem base a) (i : Fin 16) :
    List.Forall₂ (Stores ρ mem a) (xmmStores mem base i) (xmmFields i) := by
  have haddr := h.offset (160 + 16 * i)
  have hnext := fun m => denotes_next (haddr m)
  exact .cons ⟨_, rfl, haddr⟩ (.cons ⟨_, rfl, hnext⟩ .nil)

end Save

/-! ## Bits that are restored -/

theorem getLsbD_ones {w k : ℕ} (i : ℕ) (hk : k ≤ w) :
    (BitVec.ofNat w (2 ^ k - 1)).getLsbD i = decide (i < k) := by
  rw [BitVec.getLsbD_ofNat, Nat.testBit_two_pow_sub_one]
  by_cases h : i < k
  · simp [h, h.trans_le hk]
  · simp [h]

/-- Some bits, moved up in a word and back again. -/
theorem shift_and_ones {w n k s : ℕ} {x : BitVec w} {y : BitVec n}
    (hw : s + k ≤ w) (h : ∀ i < k, y.getLsbD (s + i) = x.getLsbD i) :
    y.setWidth w >>> s &&& BitVec.ofNat w (2 ^ k - 1) =
      x &&& BitVec.ofNat w (2 ^ k - 1) := by
  apply BitVec.eq_of_getLsbD_eq
  intro i hi
  rw [BitVec.getLsbD_and, BitVec.getLsbD_and, getLsbD_ones i (by omega),
    BitVec.getLsbD_ushiftRight, BitVec.getLsbD_setWidth]
  by_cases hk : i < k
  · rw [h i hk, decide_eq_true (show s + i < w by omega), Bool.true_and]
  · simp [hk]

theorem and_ones {w k : ℕ} {x : BitVec w} (h : x.toNat < 2 ^ k)
    (hk : k ≤ w) : x &&& BitVec.ofNat w (2 ^ k - 1) = x := by
  have hones : (BitVec.ofNat w (2 ^ k - 1)).toNat = 2 ^ k - 1 := by
    have hpos := Nat.two_pow_pos k
    have hle := Nat.pow_le_pow_right (show 0 < 2 by decide) hk
    rw [BitVec.toNat_ofNat, Nat.mod_eq_of_lt (by omega)]
  apply BitVec.eq_of_toNat_eq
  rw [BitVec.toNat_and, hones, Nat.and_two_pow_sub_one_eq_mod,
    Nat.mod_eq_of_lt h]

def fswWord (x : BitVec 32) (y : I64) : BitVec 16 :=
  ((x &&& 7) <<< 11).setWidth 16 ||| (y &&& 0x4700).setWidth 16

theorem fswWord_top {x : BitVec 32} (hx : x.toNat < 2 ^ 3) (y : I64) :
    (fswWord x y).setWidth 32 >>> 11 &&& 7 = x := by
  refine (shift_and_ones (k := 3) (by decide) fun i hi => ?_).trans
    (and_ones hx (by decide))
  unfold fswWord
  interval_cases i <;> simp

theorem fswWord_stat (x : BitVec 32) {y : I64} (hy : y &&& 0x4700 = y) :
    (fswWord x y).setWidth 64 &&& 0x4700 = y := by
  refine Eq.trans ?_ hy
  apply BitVec.eq_of_getLsbD_eq
  intro i hi
  unfold fswWord
  by_cases h16 : i < 16
  · interval_cases i <;> simp
  · have hmask : (0x4700 : I64).getLsbD i = false := by
      rw [show (0x4700 : I64) = BitVec.ofNat 64 0x4700 from rfl,
        BitVec.getLsbD_ofNat, Nat.testBit_lt_two_pow, Bool.and_false]
      exact lt_of_lt_of_le (show 0x4700 < 2 ^ 16 by decide)
        (Nat.pow_le_pow_right (by decide) (by omega))
    rw [BitVec.getLsbD_and, BitVec.getLsbD_and, hmask, Bool.and_false,
      Bool.and_false]

theorem fcwWord_round {x : I64} (hx : x.toNat < 2 ^ 2) :
    (((x &&& 3) <<< 10 ||| 0x037f).setWidth 16).setWidth 64 >>> 10 &&& 3 =
      x := by
  refine (shift_and_ones (k := 2) (by decide) fun i hi => ?_).trans
    (and_ones hx (by decide))
  interval_cases i <;> simp

theorem mxcsrWord_round {x : I64} (hx : x.toNat < 2 ^ 2) :
    (((x &&& 3) <<< 13 ||| 0x1f80).setWidth 32).setWidth 64 >>> 13 &&& 3 =
      x := by
  refine (shift_and_ones (k := 2) (by decide) fun i hi => ?_).trans
    (and_ones hx (by decide))
  interval_cases i <;> simp

def tagBit (b : Fin 8 → Bool) (i : Fin 8) : BitVec 8 :=
  (flag 1 (b i)).setWidth 8 <<< (i : ℕ)

def ftwByte (b : Fin 8 → Bool) : BitVec 8 :=
  ((tagBit b 0 ||| tagBit b 1) ||| (tagBit b 2 ||| tagBit b 3)) |||
    ((tagBit b 4 ||| tagBit b 5) ||| (tagBit b 6 ||| tagBit b 7))

theorem getLsbD_tagBit (b : Fin 8 → Bool) (i j : Fin 8) :
    (tagBit b i).getLsbD j = (decide (i = j) && b i) := by
  have hall : ∀ c : Bool, ∀ i j : Fin 8,
      ((flag 1 c).setWidth 8 <<< (i : ℕ)).getLsbD j =
        (decide (i = j) && c) := by decide
  exact hall (b i) i j

theorem getLsbD_ftwByte (b : Fin 8 → Bool) (i : Fin 8) :
    (ftwByte b).getLsbD i = b i := by
  simp only [ftwByte, BitVec.getLsbD_or, getLsbD_tagBit]
  fin_cases i <;> simp

/-! ## What is read back -/

section Restore

variable {ρ ρ' : Valuation ByteMemory} {mem : Var} {a : I64} {base : Exp}

/-- The value of a register. -/
def Reg.value (ρ : Valuation ByteMemory) (r : Reg) : BitVec r.typ.width :=
  (ρ.temp r.var).setWidth r.typ.width

/-- The numbers that the floating-point registers can have. -/
structure FpInRange (ρ : Valuation ByteMemory) : Prop where
  ftop : (Reg.ftop.value ρ).toNat < 8
  fptag : ∀ i, (Reg.fptag i).value ρ = 0 ∨ (Reg.fptag i).value ρ = 1
  fc3210 : (Reg.whole .fc3210).value ρ &&& 0x4700 =
    (Reg.whole .fc3210).value ρ
  fpround : ((Reg.whole .fpround).value ρ).toNat < 4
  sseround : ((Reg.whole .sseround).value ρ).toNat < 4

/-- The memory holds what was saved, and the expression is its address. -/
structure Saved (ρ : Valuation ByteMemory) (mem : Var) (a : I64) (base : Exp)
    (ρ' : Valuation ByteMemory) : Prop where
  base : Denotes ρ' base .reg64 a
  word : ∀ f ∈ areaFields,
    ByteMemory.word (ρ'.mem mem) f.typ (a + BitVec.ofNat 64 f.offset) =
      f.rhs.eval ρ f.typ.width

theorem denotes_value (ρ : Valuation ByteMemory) (r : Reg) :
    Denotes ρ (mkReg r) r.typ (r.value ρ) := denotes_reg ρ r

theorem Saved.loadAt (h : Saved ρ mem a base ρ') {addr : Exp} {offset : ℕ}
    {t : Typ} {rhs : Exp} (hf : ⟨offset, t, rhs⟩ ∈ areaFields)
    (haddr : Denotes ρ' addr .reg64 (a + BitVec.ofNat 64 offset))
    {x : BitVec t.width} (hrhs : Denotes ρ rhs t x) :
    Denotes ρ' (.mem mem addr t) t x := by
  have hload := denotes_load haddr mem t
  have hself : (a + BitVec.ofNat 64 offset).setWidth 64 =
      a + BitVec.ofNat 64 offset := BitVec.setWidth_eq _
  have hword := h.word _ hf
  rw [← hrhs.eval]
  refine ⟨hload.typ, hload.width, hload.eval.trans ?_⟩
  exact (congrArg (ByteMemory.word (ρ'.mem mem) t) hself).trans hword

theorem Saved.load (h : Saved ρ mem a base ρ') {offset : ℕ} {t : Typ}
    {rhs : Exp} (hf : ⟨offset, t, rhs⟩ ∈ areaFields)
    {x : BitVec t.width} (hrhs : Denotes ρ rhs t x) :
    Denotes ρ' (makeLoadOffset mem base offset t) t x :=
  h.loadAt hf (denotes_offsetAddr h.base offset) hrhs

theorem Saved.fsw (h : Saved ρ mem a base ρ') :
    Denotes ρ' (makeLoadOffset mem base 2 .reg16) .reg16
      (fswWord (Reg.ftop.value ρ) ((Reg.whole .fc3210).value ρ)) := by
  have hf : (⟨2, .reg16, saveFsw⟩ : AreaField) ∈ areaFields := by
    decide +kernel
  have htop := (denotes_value ρ .ftop).and (.const32 7)
  have hstat := (denotes_value ρ (.whole .fc3210)).and (.const64 0x4700)
  exact h.load hf
    (((htop.shl (.const32 11)).lcast .reg16).or (hstat.lcast .reg16))

theorem Saved.ftop (h : Saved ρ mem a base ρ') (hρ : FpInRange ρ) :
    Denotes ρ' (exAnd (exShr (exUCast (makeLoadOffset mem base 2 .reg16)
      .reg32) (exConst 11)) (exConst 7)) .reg32 (Reg.ftop.value ρ) := by
  have hbits := ((h.fsw.ucast .reg32).shr (.const32 11)).and (.const32 7)
  have hvalue := fswWord_top hρ.ftop ((Reg.whole .fc3210).value ρ)
  exact hvalue ▸ hbits

theorem Saved.fc3210 (h : Saved ρ mem a base ρ') (hρ : FpInRange ρ) :
    Denotes ρ' (exAnd (exUCast (makeLoadOffset mem base 2 .reg16) .reg64)
      (exConst64 0x4700)) .reg64 ((Reg.whole .fc3210).value ρ) := by
  have hbits := (h.fsw.ucast .reg64).and (.const64 0x4700)
  have hvalue := fswWord_stat (Reg.ftop.value ρ) hρ.fc3210
  exact hvalue ▸ hbits

theorem Saved.fpround (h : Saved ρ mem a base ρ') (hρ : FpInRange ρ) :
    Denotes ρ' (exAnd (exShr (exUCast (makeLoadOffset mem base 0 .reg16)
      .reg64) (exConst 10)) (exConst64 3)) .reg64
      ((Reg.whole .fpround).value ρ) := by
  have hf : (⟨0, .reg16, saveFcw⟩ : AreaField) ∈ areaFields := by
    decide +kernel
  have hround := (denotes_value ρ (.whole .fpround)).and (.const64 3)
  have hfcw := h.load hf
    (((hround.shl (.const32 10)).or (.const64 0x037f)).lcast .reg16)
  have hbits := ((hfcw.ucast .reg64).shr (.const32 10)).and (.const64 3)
  have hvalue := fcwWord_round hρ.fpround
  exact hvalue ▸ hbits

theorem Saved.sseround (h : Saved ρ mem a base ρ') (hρ : FpInRange ρ) :
    Denotes ρ' (exAnd (exShr (exUCast (.mem mem (exAdd base (exConst64 24))
      .reg32) .reg64) (exConst 13)) (exConst64 3)) .reg64
      ((Reg.whole .sseround).value ρ) := by
  have hf : (⟨24, .reg32, saveMxcsr⟩ : AreaField) ∈ areaFields := by
    decide +kernel
  have hround := (denotes_value ρ (.whole .sseround)).and (.const64 3)
  have hmxcsr := h.load hf
    (((hround.shl (.const32 13)).or (.const64 0x1f80)).lcast .reg32)
  have hbits := ((hmxcsr.ucast .reg64).shr (.const32 13)).and (.const64 3)
  have hvalue := mxcsrWord_round hρ.sseround
  exact hvalue ▸ hbits

/-- The tags as truth values. -/
def tags (ρ : Valuation ByteMemory) (i : Fin 8) : Bool :=
  (Reg.fptag i).value ρ != 0

theorem denotes_ftagBit (ρ : Valuation ByteMemory) (i : Fin 8) :
    Denotes ρ (ftagBit i) .reg8 (tagBit (tags ρ) i) := by
  have hneq := ((denotes_value ρ (.fptag i)).neq (.constOf .reg8 0)).ucast .reg8
  unfold ftagBit
  dsimp only
  split_ifs with hi
  · have hbit : tagBit (tags ρ) i = (flag 1 (tags ρ i)).setWidth 8 := by
      rw [tagBit, hi]
      exact BitVec.shiftLeft_zero ..
    rw [hbit]
    exact hneq
  · have hshift := hneq.shl (.const32 (BitVec.ofNat 32 i))
    have hamount : (BitVec.ofNat 32 (i : ℕ)).toNat = i :=
      (BitVec.toNat_ofNat ..).trans (Nat.mod_eq_of_lt (by omega))
    rw [hamount] at hshift
    exact hshift

theorem Saved.ftw (h : Saved ρ mem a base ρ') :
    Denotes ρ' (makeLoadOffset mem base 4 .reg8) .reg8
      (ftwByte (tags ρ)) := by
  have hf : (⟨4, .reg8, saveFtw⟩ : AreaField) ∈ areaFields := by
    decide +kernel
  have hbit := denotes_ftagBit ρ
  exact h.load hf ((((hbit 0).or (hbit 1)).or ((hbit 2).or (hbit 3))).or
    (((hbit 4).or (hbit 5)).or ((hbit 6).or (hbit 7))))

theorem denotes_tag {tag : Exp} (htag : Denotes ρ' tag .reg8 (ftwByte (tags ρ)))
    (hρ : FpInRange ρ) (i : Fin 8) :
    Denotes ρ' (exUCast (exGetBit tag (BitVec.ofNat 32 i)) .reg8) .reg8
      ((Reg.fptag i).value ρ) := by
  have hbit := (denotes_getBit (by omega : (i : ℕ) < 2 ^ 32) htag).ucast .reg8
  rw [getLsbD_ftwByte] at hbit
  rcases hρ.fptag i with hvalue | hvalue
  · have hfalse : tags ρ i = false := by rw [tags, hvalue]; rfl
    rw [hfalse] at hbit
    exact hvalue ▸ hbit
  · have htrue : tags ρ i = true := by rw [tags, hvalue]; rfl
    rw [htrue] at hbit
    exact hvalue ▸ hbit

theorem Saved.fpreg (h : Saved ρ mem a base ρ') (i : Fin 8) :
    Denotes ρ' (makeLoadOffset mem base (32 + 16 * i) .reg64) .reg64
      ((Reg.fpreg i).value ρ) := by
  have hf : ⟨32 + 16 * i, .reg64, mkReg (.fpreg i)⟩ ∈ component0Fields :=
    List.mem_append_left _ (List.mem_append_right _
      (List.mem_flatMap.mpr ⟨i, List.mem_finRange i, List.mem_cons_self⟩))
  exact h.load (List.mem_append_left _ (List.mem_append_left _ hf))
    (denotes_value ρ (.fpreg i))

theorem Saved.xmm (h : Saved ρ mem a base ρ') (i : Fin 16) :
    Denotes ρ' (.mem mem (offsetAddr base (160 + 16 * i)) .reg64) .reg64
        ((Reg.ymm i 0).value ρ) ∧
      Denotes ρ' (.mem mem (exAdd (offsetAddr base (160 + 16 * i))
        (exConst64 8)) .reg64) .reg64 ((Reg.ymm i 1).value ρ) := by
  have hxmm : ∀ f ∈ xmmFields i, f ∈ areaFields := fun f hf =>
    List.mem_append_left _ (List.mem_append_right _
      (List.mem_flatMap.mpr ⟨i, List.mem_finRange i, hf⟩))
  have hlow := hxmm _ List.mem_cons_self
  have hhigh := hxmm _ (List.mem_cons_of_mem _ List.mem_cons_self)
  have haddr := denotes_offsetAddr h.base (160 + 16 * i)
  have hnext := denotes_next haddr
  exact ⟨h.loadAt hlow haddr (denotes_value ρ (.ymm i 0)),
    h.loadAt hhigh hnext (denotes_value ρ (.ymm i 1))⟩

end Restore

/-! ## Where the vector registers are -/

section Layout

variable {L : GuestLayout}

/-- The vector registers are allocated sequentially. -/
def GuestLayout.Sequential (L : GuestLayout) : Prop :=
  ∀ i : Fin 16, xmmOffset L i = ymmOffset L i

theorem lookup_eq_some {α : Type} {l : List (ℕ × α)} {k : ℕ} {x : α}
    (hmem : (k, x) ∈ l) (hunique : ∀ y, (k, y) ∈ l → y = x) :
    l.lookup k = some x := by
  cases h : l.lookup k with
  | none =>
    have hne := List.lookup_eq_none_iff.mp h (k, x) hmem
    simp at hne
  | some y => rw [hunique y (mem_of_lookup h)]

theorem cases128_low (L : GuestLayout) (i : Fin 16) :
    (cases128 L).lookup (ymmOffset L i) = some (i, false) := by
  apply lookup_eq_some
  · exact List.mem_append_left _ (List.mem_map_of_mem (List.mem_finRange i))
  · rintro ⟨n, high⟩ hmem
    by_contra hne
    have hplace : ymmOffset L i = (ymmHalf n high).2.offset L := by
      simp only [cases128, List.mem_append, List.mem_map, Prod.mk.injEq] at hmem
      rcases hmem with ⟨m, -, hm, rfl, rfl⟩ | ⟨m, -, hm, rfl, rfl⟩
      · exact hm.symm
      · exact hm.symm
    have hreg : Reg.ymm i 0 ≠ (ymmHalf n high).2 := by
      cases high with
      | false =>
        intro heq
        obtain rfl : i = n := (Reg.ymm.inj heq).1
        exact hne rfl
      | true =>
        intro heq
        exact absurd (Reg.ymm.inj heq).2 (by decide)
    have hapart := Reg.apart L hreg
    rw [← hplace] at hapart
    have hoffset : (Reg.ymm i 0).offset L = ymmOffset L i := rfl
    have hbytes : (Reg.ymm i 0).bytes = 8 := rfl
    have hpos : 0 < (ymmHalf n high).2.bytes := by
      cases high with
      | false | true => exact Nat.succ_pos 7
    omega

theorem GuestLayout.Sequential.get (h : L.Sequential) (i : Fin 16) :
    translateGetReg128 L (xmmOffset L i) =
      .ok (.vector (mkReg (.ymm i 1)) (mkReg (.ymm i 0))) := by
  rw [h i, translateGetReg128, cases128_low]
  rfl

theorem GuestLayout.Sequential.put (h : L.Sequential) (i : Fin 16)
    (high low : Exp) :
    translatePutReg128 L (xmmOffset L i) (.vector high low) =
      .ok [.move (Reg.ymm i 1).var high, .move (Reg.ymm i 0).var low] := by
  rw [h i, translatePutReg128, cases128_low]
  rfl

theorem emitFxsave_eq (h : L.Sequential) (mem : Var) (base : Exp) :
    emitFxsave L mem base =
      .ok (emitXsaveComponent0 mem base ++
        (List.finRange 16).flatMap (xmmStores mem base) ++
        emitXsaveComponent1Noxmm mem base) := by
  have hxmm : (fun i : Fin 16 => do
      let xmm_val ← translateGetReg128 L (xmmOffset L i)
      makeStoreOffset128 mem base (160 + 16 * i) xmm_val) =
      fun i => pure (xmmStores mem base i) := by
    funext i
    rw [h.get i]
    rfl
  rw [emitFxsave, hxmm, List.mapM_pure]
  rfl

/-- The registers that are restored, after the two from the status word. -/
def restored (mem : Var) (base tag : Exp) : List (Reg × Exp) :=
  (List.finRange 8).map (fun i : Fin 8 => (Reg.fptag i,
    exUCast (exGetBit tag (BitVec.ofNat 32 i)) .reg8)) ++
  (List.finRange 8).map (fun i : Fin 8 => (Reg.fpreg i,
    makeLoadOffset mem base (32 + 16 * i) .reg64)) ++
  [(Reg.whole .fpround, exAnd (exShr (exUCast (makeLoadOffset mem base 0
    .reg16) .reg64) (exConst 10)) (exConst64 3))] ++
  (List.finRange 16).flatMap (fun i : Fin 16 =>
    [(Reg.ymm i 1, Exp.mem mem (exAdd (offsetAddr base (160 + 16 * i))
        (exConst64 8)) .reg64),
      (Reg.ymm i 0, Exp.mem mem (offsetAddr base (160 + 16 * i)) .reg64)]) ++
  [(Reg.whole .sseround, exAnd (exShr (exUCast (Exp.mem mem
    (exAdd base (exConst64 24)) .reg32) .reg64) (exConst 13)) (exConst64 3))]

def restoreMoves (mem : Var) (base tag : Exp) : List Stmt :=
  (restored mem base tag).map fun p => .move p.1.var p.2

def restoreStmts (mem : Var) (base : Exp) (n : ℕ) : List Stmt :=
  let fsw := makeLoadOffset mem base 2 .reg16
  let tag_bits := tempVar .reg8 n
  .move Reg.ftop.var
      (exAnd (exShr (exUCast fsw .reg32) (exConst 11)) (exConst 7)) ::
    .move (Reg.whole .fc3210).var
      (exAnd (exUCast fsw .reg64) (exConst64 0x4700)) ::
    .varDecl tag_bits ::
    .move tag_bits (makeLoadOffset mem base 4 .reg8) ::
    restoreMoves mem base (.temp tag_bits)

theorem forM_push_map {α : Type} (l : List α) (f : α → Stmt) (n : ℕ) :
    (l.forM (fun x => push (f x)) : Emit Unit) n = ⟨(), l.map f, n⟩ := by
  have hmap : (l.forM (fun x => push (f x)) : Emit Unit) =
      (l.map f).forM push := by
    induction l with
    | nil => rfl
    | cons x l ih =>
      change (push (f x) >>= fun _ => l.forM fun x => push (f x)) =
        (push (f x) >>= fun _ => (l.map f).forM push)
      rw [ih]
  rw [hmap, forM_push]

/-- The two moves to a vector register. -/
def xmmMoves (mem : Var) (base : Exp) (i : Fin 16) : List Stmt :=
  let addr := offsetAddr base (160 + 16 * i)
  [.move (Reg.ymm i 1).var (.mem mem (exAdd addr (exConst64 8)) .reg64),
    .move (Reg.ymm i 0).var (.mem mem addr .reg64)]

theorem restoreMoves_eq (mem : Var) (base tag : Exp) :
    restoreMoves mem base tag =
      (List.finRange 8).map (fun i : Fin 8 => Stmt.move (Reg.fptag i).var
        (exUCast (exGetBit tag (BitVec.ofNat 32 i)) .reg8)) ++
      (List.finRange 8).map (fun i : Fin 8 => Stmt.move (Reg.fpreg i).var
        (makeLoadOffset mem base (32 + 16 * i) .reg64)) ++
      [Stmt.move (Reg.whole .fpround).var (exAnd (exShr (exUCast
        (makeLoadOffset mem base 0 .reg16) .reg64) (exConst 10))
          (exConst64 3))] ++
      (List.finRange 16).flatMap (xmmMoves mem base) ++
      [Stmt.move (Reg.whole .sseround).var (exAnd (exShr (exUCast
        (Exp.mem mem (exAdd base (exConst64 24)) .reg32) .reg64)
          (exConst 13)) (exConst64 3))] := rfl

theorem emit_bind {α β : Type} (x : Emit α) (f : α → Emit β) (n : ℕ) :
    (x >>= f) n =
      let r := f (x n).value (x n).counter
      ⟨r.value, (x n).stmts ++ r.stmts, r.counter⟩ := rfl

theorem emitFxrstor_eq (h : L.Sequential) (mem : Var) (base : Exp) :
    ∃ code, emitFxrstor L mem base = .ok code ∧
      ∀ n, (code n).stmts = restoreStmts mem base n := by
  have hxmm : (fun i : Fin 16 => translatePutReg128 L (xmmOffset L i)
      (makeLoadOffset128 mem base (160 + 16 * i))) =
      fun i => pure (xmmMoves mem base i) := by
    funext i
    exact h.put i _ _
  refine ⟨do
    emitXrstorComponent0 mem base
    ((List.finRange 16).map (xmmMoves mem base)).flatten.forM push
    emitXrstorComponent1Noxmm mem base, ?_, fun n => ?_⟩
  · rw [emitFxrstor, hxmm, List.mapM_pure]
    rfl
  · simp only [emit_bind, emitXrstorComponent0, emitXrstorComponent1Noxmm,
      forM_push, forM_push_map, restoreStmts, restoreMoves_eq, push, mkTemp,
      List.append_assoc, List.cons_append, List.nil_append, List.flatMap]

end Layout

/-! ## Restoring -/

/-- The registers of the x87 unit and the low halves of the vector
registers. -/
def Reg.floating : Reg → Bool
  | .whole r => r == .fc3210 || r == .fpround || r == .sseround
  | .ymm _ lane => decide (lane < 2)
  | .fpreg _ | .fptag _ | .ftop => true
  | .emnote => false

/-- The order in which they are restored. -/
def floatingRegs : List Reg :=
  Reg.ftop :: Reg.whole .fc3210 :: ((List.finRange 8).map Reg.fptag ++
    (List.finRange 8).map Reg.fpreg ++ [Reg.whole .fpround] ++
    (List.finRange 16).flatMap (fun i : Fin 16 => [Reg.ymm i 1, Reg.ymm i 0]) ++
    [Reg.whole .sseround])

theorem floatingRegs_nodup : floatingRegs.Nodup := by
  decide +kernel

theorem floatingRegs_floating : ∀ r ∈ floatingRegs, r.floating := by
  decide +kernel

theorem mem_floatingRegs {r : Reg} (h : r.floating) : r ∈ floatingRegs := by
  cases r with
  | whole r =>
    revert h
    cases r <;> decide
  | ymm n lane =>
    have hall : ∀ (n : Fin 16) (lane : Fin 4), lane < 2 →
        Reg.ymm n lane ∈ floatingRegs := by
      decide +kernel
    exact hall n lane (of_decide_eq_true h)
  | fpreg i =>
    have hall : ∀ i : Fin 8, Reg.fpreg i ∈ floatingRegs := by
      decide +kernel
    exact hall i
  | fptag i =>
    have hall : ∀ i : Fin 8, Reg.fptag i ∈ floatingRegs := by
      decide +kernel
    exact hall i
  | ftop => exact List.mem_cons_self
  | emnote => cases h

theorem restored_regs (mem : Var) (base tag : Exp) :
    floatingRegs = .ftop :: .whole .fc3210 ::
      (restored mem base tag).map Prod.fst := by
  rfl

/-- The temporaries of VEX code. -/
def IsOperand (v : Var) : Prop := v.id < -400

theorem not_isOperand_reg (r : Reg) : ¬ IsOperand r.var := by
  have h := r.info_id
  exact not_lt_of_gt h.1

theorem not_isOperand_temp (n : ℕ) : ¬ IsOperand (tempVar .reg8 n) := by
  change ¬ (n : ℤ) < -400
  omega

theorem targets_moves {l : List (Reg × Exp)} :
    targets (l.map fun p => .move p.1.var p.2) =
      (l.map Prod.fst).map Reg.var := by
  induction l with
  | nil => rfl
  | cons p l ih => exact congrArg (p.1.var :: ·) ih

theorem var_mem_targets_moves {l : List (Reg × Exp)} {r : Reg} :
    r.var ∈ targets (l.map fun p => .move p.1.var p.2) ↔
      r ∈ l.map Prod.fst := by
  rw [targets_moves, List.mem_map_of_injective Reg.var_injective]

theorem tempVar_notMem_moves (l : List (Reg × Exp)) (t : Typ) (n : ℕ) :
    tempVar t n ∉ targets (l.map fun p => .move p.1.var p.2) := by
  rw [targets_moves]
  intro hmem
  obtain ⟨r, -, heq⟩ := List.mem_map.mp hmem
  exact reg_ne_tempVar r t n heq

theorem singleAssignment_cons {S : Var → Prop} {v : Var} {e : Exp}
    {stmts : List Stmt} (h : SingleAssignment stmts) (hreads : ReadsOnly S e)
    (hS : ∀ u ∈ v :: targets stmts, ¬ S u) (hv : v ∉ targets stmts) :
    SingleAssignment (.move v e :: stmts) :=
  ⟨hreads.mono fun u hu hmem => hS u hmem hu, hv, h⟩

theorem singleAssignment_moves {S : Var → Prop} {l : List (Reg × Exp)}
    (hnodup : (l.map Prod.fst).Nodup) (hS : ∀ r : Reg, ¬ S r.var)
    (hreads : ∀ p ∈ l, ReadsOnly S p.2) :
    SingleAssignment (l.map fun p => .move p.1.var p.2) := by
  induction l with
  | nil => trivial
  | cons p l ih =>
    rw [List.map_cons, List.nodup_cons] at hnodup
    have hrest := ih hnodup.2 fun q hq => hreads q (List.mem_cons_of_mem p hq)
    apply singleAssignment_cons hrest (hreads p List.mem_cons_self)
    · intro u hu
      rw [targets_moves, ← List.map_cons] at hu
      obtain ⟨r, -, rfl⟩ := List.mem_map.mp hu
      exact hS r
    · rw [var_mem_targets_moves]
      exact hnodup.1

theorem readsOnly_offsetAddr {S : Var → Prop} {base : Exp}
    (h : ReadsOnly S base) (k : ℕ) : ReadsOnly S (offsetAddr base k) := by
  unfold offsetAddr
  split
  · exact h
  · exact ⟨h, trivial⟩

theorem readsOnly_restored {S : Var → Prop} {mem : Var} {base tag : Exp}
    (hbase : ReadsOnly S base) (htag : ReadsOnly S tag) :
    ∀ p ∈ restored mem base tag, ReadsOnly S p.2 := by
  have haddr := readsOnly_offsetAddr hbase
  intro p hp
  simp only [restored, List.mem_append, List.mem_map, List.mem_flatMap,
    List.mem_cons, List.not_mem_nil, or_false] at hp
  rcases hp with (((⟨i, -, rfl⟩ | ⟨i, -, rfl⟩) | rfl) | ⟨i, -, rfl | rfl⟩) | rfl
  · exact readsOnly_getBit.mpr htag
  · exact haddr _
  · exact ⟨⟨haddr 0, trivial⟩, trivial⟩
  · exact ⟨haddr _, trivial⟩
  · exact haddr _
  · exact ⟨⟨⟨hbase, trivial⟩, trivial⟩, trivial⟩

section Run

variable {ρ ρ' : Valuation ByteMemory} {mem : Var} {a : I64} {base : Exp}

theorem denotes_of_holds {v : Var} {e : Exp} {t : Typ} {w : ℕ}
    {x : BitVec w} (h : (Stmt.move v e).Holds ρ) (hv : v.typ = t)
    (he : Denotes ρ e t x) : Denotes ρ (.temp v) t x := by
  refine ⟨hv, he.width, ?_⟩
  change (ρ.temp v).setWidth w = x
  rw [show ρ.temp v = _ from h, he.expWidth, he.eval,
    BitVec.setWidth_setWidth_of_le _ (he.width ▸ Typ.width_le t),
    BitVec.setWidth_eq]

/-- The variables that are assigned. -/
theorem targets_restoreStmts {n : ℕ} {u : Var}
    (hu : u ∈ targets (restoreStmts mem base n)) :
    u = tempVar .reg8 n ∨ ∃ r : Reg, r.floating ∧ u = r.var := by
  have hregs := restored_regs mem base (.temp (tempVar .reg8 n))
  have hu : u ∈ Reg.ftop.var :: (Reg.whole .fc3210).var :: tempVar .reg8 n ::
      targets (restoreMoves mem base (.temp (tempVar .reg8 n))) := hu
  rw [restoreMoves, targets_moves] at hu
  simp only [List.mem_cons] at hu
  rcases hu with rfl | rfl | rfl | hmem
  · exact .inr ⟨_, rfl, rfl⟩
  · exact .inr ⟨_, rfl, rfl⟩
  · exact .inl rfl
  · obtain ⟨r, hr, rfl⟩ := List.mem_map.mp hmem
    refine .inr ⟨r, floatingRegs_floating r ?_, rfl⟩
    rw [hregs]
    exact List.mem_cons_of_mem _ (List.mem_cons_of_mem _ hr)

theorem singleAssignment_restoreStmts (mem : Var)
    (hbase : ReadsOnly IsOperand base) (n : ℕ) :
    SingleAssignment (restoreStmts mem base n) := by
  have hnodup := floatingRegs_nodup
  rw [restored_regs mem base (.temp (tempVar .reg8 n)), List.nodup_cons,
    List.nodup_cons, List.mem_cons, not_or] at hnodup
  obtain ⟨⟨hne, hftop⟩, hfc3210, hrest⟩ := hnodup
  have hout : ∀ u ∈ targets (restoreStmts mem base n), ¬ IsOperand u := by
    intro u hu
    rcases targets_restoreStmts hu with rfl | ⟨r, -, rfl⟩
    · exact not_isOperand_temp n
    · exact not_isOperand_reg r
  have hmoves : SingleAssignment
      (restoreMoves mem base (.temp (tempVar .reg8 n))) := by
    apply singleAssignment_moves
      (S := fun v => IsOperand v ∨ v = tempVar .reg8 n) hrest
    · rintro r (h | h)
      · exact not_isOperand_reg r h
      · exact reg_ne_tempVar r _ _ h
    · exact readsOnly_restored (hbase.mono fun _ => .inl) (.inr rfl)
  have hnotin : ∀ r : Reg, r ∉ (restored mem base
      (.temp (tempVar .reg8 n))).map Prod.fst →
      r.var ∉ tempVar .reg8 n ::
        targets (restoreMoves mem base (.temp (tempVar .reg8 n))) := by
    intro r hr hmem
    rw [restoreMoves, List.mem_cons, var_mem_targets_moves] at hmem
    exact hmem.elim (reg_ne_tempVar r _ _) hr
  have haddr := readsOnly_offsetAddr hbase
  have hload : SingleAssignment (.move (tempVar .reg8 n)
      (makeLoadOffset mem base 4 .reg8) ::
        restoreMoves mem base (.temp (tempVar .reg8 n))) :=
    singleAssignment_cons hmoves (haddr 4) (fun u hu => hout u
      (List.mem_cons_of_mem _ (List.mem_cons_of_mem _ hu)))
      (tempVar_notMem_moves _ _ n)
  refine singleAssignment_cons (S := IsOperand) ?_ ?_ hout ?_
  · refine singleAssignment_cons (S := IsOperand) hload ?_
      (fun u hu => hout u (List.mem_cons_of_mem _ hu)) (hnotin _ hfc3210)
    exact ⟨haddr 2, trivial⟩
  · exact ⟨⟨haddr 2, trivial⟩, trivial⟩
  · intro hmem
    rcases List.mem_cons.mp hmem with heq | hmem
    · exact hne (Reg.var_injective heq)
    · exact hnotin _ hftop hmem

theorem restored_value {tag : Exp} (h : Saved ρ mem a base ρ')
    (hρ : FpInRange ρ) (htag : Denotes ρ' tag .reg8 (ftwByte (tags ρ))) :
    ∀ p ∈ restored mem base tag, Denotes ρ' p.2 p.1.typ (p.1.value ρ) := by
  intro p hp
  simp only [restored, List.mem_append, List.mem_map, List.mem_flatMap,
    List.mem_cons, List.not_mem_nil, or_false] at hp
  rcases hp with (((⟨i, -, rfl⟩ | ⟨i, -, rfl⟩) | rfl) | ⟨i, -, rfl | rfl⟩) | rfl
  · exact denotes_tag htag hρ i
  · exact h.fpreg i
  · exact h.fpround hρ
  · exact (h.xmm i).2
  · exact (h.xmm i).1
  · exact h.sseround hρ

/-- Every register gets the value that it had when the area was saved. -/
theorem exec_restoreStmts (h : Saved ρ mem a base ρ') (hρ : FpInRange ρ)
    (hbase : ReadsOnly IsOperand base) (n : ℕ) {r : Reg} (hr : r.floating) :
    r.value (exec (restoreStmts mem base n) ρ') = r.value ρ := by
  have hagree := agreeOn_exec (restoreStmts mem base n) ρ'
  have hholds := (singleAssignment_restoreStmts mem hbase n).holds ρ'
  generalize exec (restoreStmts mem base n) ρ' = ρ3 at hagree hholds ⊢
  have hsaved : Saved ρ mem a base ρ3 := by
    refine ⟨h.base.congr hbase (hagree.mono fun v hv hmem => ?_), ?_⟩
    · rcases targets_restoreStmts hmem with rfl | ⟨r, -, rfl⟩
      · exact absurd hv (not_isOperand_temp n)
      · exact not_isOperand_reg r hv
    · rw [← hagree.mem]
      exact h.word
  have hvalue : ∀ {r : Reg} {e : Exp}, Stmt.move r.var e ∈
      restoreStmts mem base n → Denotes ρ3 e r.typ (r.value ρ) →
      r.value ρ3 = r.value ρ := by
    intro r e hmem he
    have hdenotes := denotes_of_holds (hholds _ hmem) rfl he
    exact (denotes_value ρ3 r).eval.symm.trans hdenotes.eval
  have hin : ∀ s ∈ restoreMoves mem base (.temp (tempVar .reg8 n)),
      s ∈ restoreStmts mem base n := fun s hs =>
    List.mem_cons_of_mem _ (List.mem_cons_of_mem _
      (List.mem_cons_of_mem _ (List.mem_cons_of_mem _ hs)))
  have htag : Denotes ρ3 (.temp (tempVar .reg8 n)) .reg8
      (ftwByte (tags ρ)) := by
    have hmem : Stmt.move (tempVar .reg8 n) (makeLoadOffset mem base 4 .reg8) ∈
        restoreStmts mem base n := by
      simp [restoreStmts]
    exact denotes_of_holds (hholds _ hmem) rfl hsaved.ftw
  have hregs := mem_floatingRegs hr
  rw [restored_regs mem base (.temp (tempVar .reg8 n))] at hregs
  simp only [List.mem_cons] at hregs
  rcases hregs with rfl | rfl | hregs
  · exact hvalue List.mem_cons_self (hsaved.ftop hρ)
  · exact hvalue (List.mem_cons_of_mem _ List.mem_cons_self)
      (hsaved.fc3210 hρ)
  · obtain ⟨p, hp, rfl⟩ := List.mem_map.mp hregs
    exact hvalue (hin _ (List.mem_map_of_mem hp))
      (restored_value hsaved hρ htag p hp)

end Run

/-! ## The translated helpers -/

/-- The code runs from one state to the other, wherever it stands. -/
def Completes (code : Translate Unit) (n l : ℕ) (ρ ρ' : Valuation ByteMemory) :
    Prop :=
  ∀ frag post, Reaches frag (.running ((code n l).stmts ++ post) ρ)
    (.running post ρ')

/-- The operand has the value. -/
def Atom.Is (tyenv : TypeEnv) (arg : Atom) (ρ : Valuation ByteMemory)
    (a : I64) : Prop :=
  ∃ base, translateAtom tyenv arg = .exp base ∧ Denotes ρ base .reg64 a

section Helpers

variable {L : GuestLayout} {tyenv : TypeEnv} {arg : Atom} {mem : Var}
  {ρ ρ' : Valuation ByteMemory} {a : I64} {base : Exp}

/-- The operand of a helper. -/
theorem translateAtom_address (harg : arg.type tyenv = .i64) :
    ∃ base, translateAtom tyenv arg = .exp base ∧ memFree base ∧
      ReadsOnly IsOperand base := by
  cases arg with
  | rdTmp tmp =>
    have h128 : (tyenv tmp).Is128 = false := by
      rw [show tyenv tmp = .i64 from harg]
      rfl
    refine ⟨.temp (vexTemp tyenv tmp), ?_, rfl, ?_⟩
    · simp [translateAtom, h128]
    · change -(1000 + 3 * (tmp : ℤ)) < -400
      omega
  | const type value => exact ⟨_, rfl, rfl, trivial⟩
  | v128 bits => cases harg

theorem addresses_of_memFree (h : Denotes ρ base .reg64 a)
    (hfree : memFree base) (mem : Var) : Addresses ρ mem base a := by
  intro m
  exact ⟨h.typ, h.width, (eval_setMem hfree ρ mem m 64).trans h.eval⟩

theorem stmts_forM_pushBack (stmts : List Statement) (n l : ℕ) :
    ((stmts.forM pushBack : Translate Unit) n l).stmts = stmts := by
  induction stmts generalizing n l with
  | nil => rfl
  | cons s stmts ih => exact congrArg (s :: ·) (ih n l)

theorem setMem_self (ρ : Valuation ByteMemory) (mem : Var) :
    ρ.setMem mem (ρ.mem mem) = ρ := by
  simp only [Valuation.setMem, Function.update_eq_self]

/-- The state is saved, and nothing else is written. -/
theorem fxsave_saves (hL : L.Sequential) (mem : Var)
    (hbase : translateAtom tyenv arg = .exp base) (hfree : memFree base) :
    ∃ code, x64TranslateDirty L mem tyenv .fxsave arg = .ok code ∧
      ∀ n l (ρ : Valuation ByteMemory) (a : I64), Denotes ρ base .reg64 a →
        ∃ m, Completes code n l ρ (ρ.setMem mem m) ∧
          (∀ f ∈ areaFields, ByteMemory.word m f.typ
            (a + BitVec.ofNat 64 f.offset) = f.rhs.eval ρ f.typ.width) ∧
          ∀ b, ¬ ByteMemory.InRange a 512 b → m b = ρ.mem mem b := by
  obtain ⟨stmts, hstmts⟩ : ∃ stmts, stmts = emitXsaveComponent0 mem base ++
      (List.finRange 16).flatMap (xmmStores mem base) ++
      emitXsaveComponent1Noxmm mem base := ⟨_, rfl⟩
  have htranslated : x64TranslateDirty L mem tyenv .fxsave arg =
      .ok (stmts.forM pushBack) := by
    simp only [x64TranslateDirty, hbase, IRValue.toExp, bind, Except.bind,
      emitFxsave_eq hL, ← hstmts]
    rfl
  refine ⟨_, htranslated, fun n l ρ a ha => ?_⟩
  have haddr := addresses_of_memFree ha hfree mem
  have hstores : List.Forall₂ (Stores ρ mem a) stmts areaFields := by
    rw [hstmts]
    exact List.rel_append (List.rel_append (stores_component0 haddr)
      (forall₂_flatMap _ (stores_xmm haddr))) (stores_component1 haddr)
  refine ⟨_, fun frag post => ?_, fun f hf => word_saved hf (ρ.mem mem),
    fun b hb => ByteMemory.storeCells_of_not (by decide) ?_ hb _⟩
  · have hrun := reaches_stores hstores areaFields_saved frag post (ρ.mem mem)
    rw [stmts_forM_pushBack]
    rwa [setMem_self] at hrun
  · intro c hc
    obtain ⟨f, hf, rfl⟩ := List.mem_map.mp hc
    exact (areaFields_saved f hf).2.2.2

/-- Where the area holds what was saved, the registers get it back, and no
other variable of the guest or of the block is changed. -/
theorem fxrstor_restores (hL : L.Sequential) (mem : Var)
    (hbase : translateAtom tyenv arg = .exp base)
    (hreads : ReadsOnly IsOperand base) :
    ∃ code, x64TranslateDirty L mem tyenv .fxrstor arg = .ok code ∧
      ∀ n l (ρ ρ' : Valuation ByteMemory) (a : I64), FpInRange ρ →
        Saved ρ mem a base ρ' →
        ∃ ρ'', Completes code n l ρ' ρ'' ∧
          (∀ r : Reg, r.floating → r.value ρ'' = r.value ρ) ∧
          AgreeOn (fun v => v ≠ tempVar .reg8 n ∧
            ∀ r : Reg, r.floating → v ≠ r.var) ρ' ρ'' := by
  obtain ⟨code, hcode, hstmts⟩ := emitFxrstor_eq hL mem base
  have htranslated : x64TranslateDirty L mem tyenv .fxrstor arg =
      .ok (liftEmit code) := by
    simp only [x64TranslateDirty, hbase, IRValue.toExp, bind, Except.bind,
      hcode]
    rfl
  refine ⟨_, htranslated, fun n l ρ ρ' a hρ hsaved => ?_⟩
  refine ⟨_, fun frag post => ?_,
    fun r hr => exec_restoreStmts hsaved hρ hreads n hr,
    (agreeOn_exec _ ρ').mono fun v hv hmem => ?_⟩
  · rw [liftEmit, hstmts]
    exact reaches_toStatement _ Reaches.refl
  · rcases targets_restoreStmts hmem with heq | ⟨r, hr, heq⟩
    · exact hv.1 heq
    · exact hv.2 r hr heq

/-- What `FXSAVE` saves, `FXRSTOR` restores, whatever happens to the variables
in between; only the 512 bytes of the area are written. -/
theorem fxrstor_fxsave {tyenv' : TypeEnv} {arg' : Atom} (hL : L.Sequential)
    (mem : Var) (harg : arg.type tyenv = .i64)
    (harg' : arg'.type tyenv' = .i64) :
    ∃ save restore,
      x64TranslateDirty L mem tyenv .fxsave arg = .ok save ∧
      x64TranslateDirty L mem tyenv' .fxrstor arg' = .ok restore ∧
      ∀ n l n' l' (ρ : Valuation ByteMemory) (a : I64), FpInRange ρ →
        arg.Is tyenv ρ a →
        ∃ m, Completes save n l ρ (ρ.setMem mem m) ∧
          (∀ b, ¬ ByteMemory.InRange a 512 b → m b = ρ.mem mem b) ∧
          ∀ ρ', ρ'.mem mem = m → arg'.Is tyenv' ρ' a →
            ∃ ρ'', Completes restore n' l' ρ' ρ'' ∧
              (∀ r : Reg, r.floating → r.value ρ'' = r.value ρ) ∧
              AgreeOn (fun v => v ≠ tempVar .reg8 n' ∧
                ∀ r : Reg, r.floating → v ≠ r.var) ρ' ρ'' := by
  obtain ⟨base, hbase, hfree, -⟩ := translateAtom_address harg
  obtain ⟨base', hbase', -, hreads⟩ := translateAtom_address harg'
  obtain ⟨save, hsave, hsaves⟩ := fxsave_saves hL mem hbase hfree
  obtain ⟨restore, hrestore, hrestores⟩ :=
    fxrstor_restores hL mem hbase' hreads
  refine ⟨save, restore, hsave, hrestore, fun n l n' l' ρ a hρ ha => ?_⟩
  obtain ⟨_, heq, ha⟩ := ha
  obtain rfl := IRValue.exp.inj (hbase.symm.trans heq)
  obtain ⟨m, hrun, hword, hframe⟩ := hsaves n l ρ a ha
  refine ⟨m, hrun, hframe, fun ρ' hmem ha' => ?_⟩
  obtain ⟨_, heq', ha'⟩ := ha'
  obtain rfl := IRValue.exp.inj (hbase'.symm.trans heq')
  exact hrestores n' l' ρ ρ' a hρ ⟨ha', hmem ▸ hword⟩

end Helpers

section Sample

theorem vexLayout_sequential : vexLayout.Sequential := by
  unfold GuestLayout.Sequential
  decide +kernel

def sampleMem : Var := ⟨0, OString.ofAscii "mem", .tMem .reg64 .little⟩

def sampleFpRegs : Valuation ByteMemory where
  temp v :=
    if v = Reg.ftop.var then 5
    else if v = (Reg.whole .fc3210).var then 0x4500
    else if v = (Reg.whole .sseround).var then 2
    else if v = (Reg.fptag 7).var then 1
    else if v = (Reg.ymm 15 1).var then 0xff
    else 0
  mem _ _ := 0
  label _ := 0

theorem fpInRange_sample : FpInRange sampleFpRegs where
  ftop := by decide
  fptag := by decide
  fc3210 := by decide
  fpround := by decide
  sseround := by decide

/-- The registers are cleared in between. -/
theorem fxrstor_fxsave_sample : ∃ save restore m ρ,
    x64TranslateDirty vexLayout sampleMem (fun _ => .i64) .fxsave
      (.const .i64 0x1000) = .ok save ∧
    x64TranslateDirty vexLayout sampleMem (fun _ => .i64) .fxrstor
      (.const .i64 0x1000) = .ok restore ∧
    Completes save 0 0 sampleFpRegs (sampleFpRegs.setMem sampleMem m) ∧
    Completes restore 0 0 ⟨fun _ => 0, fun _ => m, fun _ => 0⟩ ρ ∧
    Reg.ftop.value ρ = 5 ∧ (Reg.fptag 7).value ρ = 1 ∧
    (Reg.ymm 15 1).value ρ = 0xff := by
  have harg : Atom.type (fun _ => .i64) (.const .i64 0x1000) = .i64 := rfl
  obtain ⟨save, restore, hsave, hrestore, h⟩ :=
    fxrstor_fxsave vexLayout_sequential sampleMem harg harg
  obtain ⟨m, hrun, -, h⟩ := h 0 0 0 0 sampleFpRegs 0x1000 fpInRange_sample
    ⟨_, rfl, .const64 _⟩
  obtain ⟨ρ, hrun', hvalue, -⟩ := h ⟨fun _ => 0, fun _ => m, fun _ => 0⟩ rfl
    ⟨_, rfl, .const64 _⟩
  refine ⟨save, restore, m, ρ, hsave, hrestore, hrun, hrun', ?_, ?_, ?_⟩
  · exact (hvalue .ftop rfl).trans (by decide)
  · exact (hvalue (.fptag 7) rfl).trans (by decide)
  · exact (hvalue (.ymm 15 1) rfl).trans (by decide)

end Sample

end Fuzzball.Asmir.X64
