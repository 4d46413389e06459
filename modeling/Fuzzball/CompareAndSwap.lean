import Fuzzball.ByteMemory
import Fuzzball.Statements
import Fuzzball.X64Flags

/-!
# Compare and swap

`translate_cas` of `irtoir.cpp`, for a single element and for two adjacent
ones.  Its operands are atoms, as in all flat VEX code.
-/

namespace Fuzzball.Asmir

open Vine

/-! ## The source -/

inductive IRAtom
  | rdTmp (tmp : Var)
  | const (width : Typ) (value : I64)
  deriving DecidableEq, Repr

/-- `translate_expr` on an atom. -/
def translateAtom : IRAtom → Exp
  | .rdTmp tmp => .temp tmp
  | .const width value => .int width value

/-- What a double compare and swap has for the high element. -/
structure IRCASHigh where
  oldHi : Var
  expdHi : IRAtom
  dataHi : IRAtom
  deriving DecidableEq, Repr

/-- `high` is there when `expdHi` is not null. -/
structure IRCAS where
  oldLo : Var
  addr : IRAtom
  expdLo : IRAtom
  dataLo : IRAtom
  high : Option IRCASHigh
  deriving DecidableEq, Repr

def hiOffset : Typ → Except Abort (BitVec 32)
  | .reg8 => .ok 1
  | .reg16 => .ok 2
  | .reg32 => .ok 4
  | .reg64 => .ok 8
  | _ => .error .panic

/-- `hi_offset` is 0 for a single element. -/
def casOffset (cas : IRCAS) : Except Abort (BitVec 32) :=
  match cas.high with
  | none => .ok 0
  | some _ => hiOffset cas.oldLo.typ

def translateCas (mem : Var) (cas : IRCAS) :
    Except Abort (Translate Statement) := do
  let rty := cas.oldLo.typ
  let hi_offset ← casOffset cas
  .ok do
    let addr := translateAtom cas.addr
    let addrHi := exAdd addr (exConst hi_offset)
    -- the original values
    pushBack (.move (.temp cas.oldLo) (.mem mem addr rty))
    match cas.high with
    | none => pure ()
    | some high => pushBack (.move (.temp high.oldHi) (.mem mem addrHi rty))
    -- check "old == expected"
    let equality := exEq (.temp cas.oldLo) (translateAtom cas.expdLo)
    let equality := match cas.high with
      | none => equality
      | some high => exAnd equality
          (exEq (.temp high.oldHi) (translateAtom high.expdHi))
    let cond_temp ← liftEmit (mkTempDef .reg1 equality)
    -- the stores
    let store_val ← liftEmit (emitIte rty cond_temp
      (translateAtom cas.dataLo) (.temp cas.oldLo))
    let last_st := Statement.move (.mem mem addr rty) store_val
    match cas.high with
    | none => pure last_st
    | some high => do
      let store_val ← liftEmit (emitIte rty cond_temp
        (translateAtom high.dataHi) (.temp high.oldHi))
      pushBack last_st
      pure (.move (.mem mem addrHi rty) store_val)

/-! ## The operation -/

/-- One of the elements: the temporary for its old value, the expected and the
new value, and where it is. -/
structure CasWord where
  old : Var
  expd : IRAtom
  data : IRAtom
  offset : ℕ

def IRCAS.words (cas : IRCAS) : List CasWord :=
  ⟨cas.oldLo, cas.expdLo, cas.dataLo, 0⟩ ::
    match cas.high with
    | none => []
    | some high =>
      [⟨high.oldHi, high.expdHi, high.dataHi, cas.oldLo.typ.width / 8⟩]

/-- The types that the elements have. -/
def elementTypes : List Typ := [.reg8, .reg16, .reg32, .reg64]

/-- A compare and swap of VEX, for a guest with addresses of the given type:
the operands have their types, and the temporaries for the old values are
different and are not read. -/
structure IRCAS.WellFormed (n : ℕ) (guest : Typ) (cas : IRCAS) : Prop where
  element : cas.oldLo.typ ∈ elementTypes
  addr : Operand n guest (translateAtom cas.addr)
  words : ∀ w ∈ cas.words, w.old.typ = cas.oldLo.typ ∧ Numbered n w.old ∧
    Operand n cas.oldLo.typ (translateAtom w.expd) ∧
    Operand n cas.oldLo.typ (translateAtom w.data)
  unread : ∀ w ∈ cas.words, ∀ a ∈ cas.addr :: cas.words.flatMap
    (fun w => [w.expd, w.data]), a ≠ .rdTmp w.old
  distinct : (cas.words.map (·.old)).Nodup

variable {guest t : Typ} {n : ℕ}

/-- The element of type `t` in memory. -/
def ByteMemory.word (m : ByteMemory) (t : Typ) (a : I64) : BitVec t.width :=
  BitVec.ofNat t.width (m.loadBytes (t.width / 8) a)

/-- Where an element is. -/
def IRCAS.wordAddr (cas : IRCAS) (guest : Typ) (ρ : Valuation ByteMemory)
    (w : CasWord) : I64 :=
  ((translateAtom cas.addr).eval ρ guest.width +
    BitVec.ofNat guest.width w.offset).setWidth 64

/-- All elements are as expected. -/
def IRCAS.Succeeds (cas : IRCAS) (guest : Typ) (mem : Var)
    (ρ : Valuation ByteMemory) : Prop :=
  ∀ w ∈ cas.words,
    ByteMemory.word (ρ.mem mem) cas.oldLo.typ (cas.wordAddr guest ρ w) =
      (translateAtom w.expd).eval ρ cas.oldLo.typ.width

/-- What a compare and swap does. -/
structure IRCAS.Done (n : ℕ) (cas : IRCAS) (guest : Typ) (mem : Var)
    (ρ ρ' : Valuation ByteMemory) : Prop where
  old : ∀ w ∈ cas.words, Denotes ρ' (.temp w.old) cas.oldLo.typ
    (ByteMemory.word (ρ.mem mem) cas.oldLo.typ (cas.wordAddr guest ρ w))
  new : cas.Succeeds guest mem ρ → ∀ w ∈ cas.words,
    ByteMemory.word (ρ'.mem mem) cas.oldLo.typ (cas.wordAddr guest ρ w) =
      (translateAtom w.data).eval ρ cas.oldLo.typ.width
  otherBytes : ∀ b : I64, (∀ w ∈ cas.words, ¬ ByteMemory.InRange
      (cas.wordAddr guest ρ w) (cas.oldLo.typ.width / 8) b) →
    ρ'.mem mem b = ρ.mem mem b
  unchanged : ¬ cas.Succeeds guest mem ρ → ρ'.mem mem = ρ.mem mem
  otherMems : ∀ v ≠ mem, ρ'.mem v = ρ.mem v
  otherTemps : ∀ v, Numbered n v → (∀ w ∈ cas.words, v ≠ w.old) →
    ρ'.temp v = ρ.temp v

/-- The translation is well typed and does what a compare and swap does. -/
def TranslatesCas (n : ℕ) (guest : Typ) (cas : IRCAS) (mem : Var) : Prop :=
  ∃ x, translateCas mem cas = .ok x ∧ ∀ l,
    let code := (x n l).stmts ++ [(x n l).value]
    (∀ s ∈ code, s.WellTyped) ∧
    ∀ (pre post : List Statement) (ρ : Valuation ByteMemory),
      ∃ ρ', Reaches (pre ++ (code ++ post)) (.running (code ++ post) ρ)
          (.running post ρ') ∧
        cas.Done n guest mem ρ ρ'

/-! ## Elements in memory -/

section Word

variable {m : ByteMemory} {a b : I64}

theorem elementTypes_pow (ht : t ∈ elementTypes) :
    256 ^ (t.width / 8) = 2 ^ t.width := by
  simp only [elementTypes, List.mem_cons, List.not_mem_nil, or_false] at ht
  rcases ht with rfl | rfl | rfl | rfl <;> decide

theorem toNat_word (ht : t ∈ elementTypes) (m : ByteMemory) (a : I64) :
    (ByteMemory.word m t a).toNat = m.loadBytes (t.width / 8) a := by
  rw [ByteMemory.word, BitVec.toNat_ofNat]
  exact Nat.mod_eq_of_lt (elementTypes_pow ht ▸ m.loadBytes_lt _ a)

theorem bytes_le (t : Typ) : t.width / 8 ≤ 8 := by
  have hle := Typ.width_le t
  omega

theorem word_store (ht : t ∈ elementTypes) (m : ByteMemory) (a : I64)
    (x : BitVec t.width) :
    ByteMemory.word (m.storeBytes a (t.width / 8) x.toNat) t a = x := by
  apply BitVec.eq_of_toNat_eq
  rw [toNat_word ht, ByteMemory.loadBytes_storeBytes
    ((bytes_le t).trans (by decide)), elementTypes_pow ht,
    Nat.mod_eq_of_lt x.isLt]

theorem store_word (ht : t ∈ elementTypes) (m : ByteMemory) (a : I64) :
    m.storeBytes a (t.width / 8) (ByteMemory.word m t a).toNat = m := by
  rw [toNat_word ht, ByteMemory.storeBytes_loadBytes]

/-- The accesses have no byte in common. -/
def Apart (t : Typ) (a b : I64) : Prop :=
  ∀ c, ByteMemory.InRange a (t.width / 8) c →
    ¬ ByteMemory.InRange b (t.width / 8) c

theorem word_store_apart (h : Apart t a b) (m : ByteMemory) (v : ℕ) :
    ByteMemory.word (m.storeBytes b (t.width / 8) v) t a =
      ByteMemory.word m t a := by
  rw [ByteMemory.word, ByteMemory.word]
  congr 1
  apply ByteMemory.loadBytes_congr _ ((bytes_le t).trans (by decide))
  intro c hc
  exact ByteMemory.storeBytes_of_not (h c hc)

/-- An element and the next one, at an address that may wrap around. -/
theorem apart_next {w : ℕ} (hw : w = 32 ∨ w = 64) (x : BitVec w) :
    Apart t (x.setWidth 64)
      ((x + BitVec.ofNat w (t.width / 8)).setWidth 64) := by
  intro c hc hc'
  have hk := bytes_le t
  generalize t.width / 8 = k at hc hc' hk
  have hx := x.isLt
  have hclt := c.isLt
  rcases hw with rfl | rfl <;>
    simp only [ByteMemory.InRange, BitVec.toNat_sub, BitVec.toNat_setWidth,
      BitVec.toNat_add, BitVec.toNat_ofNat] at hc hc' <;>
    omega

/-- The memory after a single compare and swap. -/
theorem single_memory (ht : t ∈ elementTypes) (m : ByteMemory) (a : I64)
    (e d : BitVec t.width) :
    let x := ByteMemory.word m t a
    let m' := m.storeBytes a (t.width / 8) (if x == e then d else x).toNat
    (x = e → ByteMemory.word m' t a = d) ∧ (x ≠ e → m' = m) ∧
      ∀ b, ¬ ByteMemory.InRange a (t.width / 8) b → m' b = m b := by
  intro x m'
  refine ⟨fun h => ?_, fun h => ?_, fun b hb => m.storeBytes_of_not hb⟩
  · simp only [m', h, beq_self_eq_true, if_true, word_store ht]
  · simp only [m', beq_eq_false_iff_ne.mpr h, Bool.false_eq_true, if_false]
    exact store_word ht m a

/-- The memory after a double compare and swap. -/
theorem double_memory (ht : t ∈ elementTypes) (m : ByteMemory) {a b : I64}
    (hab : Apart t a b) (e d e' d' : BitVec t.width) :
    let x := ByteMemory.word m t a
    let x' := ByteMemory.word m t b
    let s := x == e && x' == e'
    let m' := (m.storeBytes a (t.width / 8) (if s then d else x).toNat).storeBytes
      b (t.width / 8) (if s then d' else x').toNat
    (x = e ∧ x' = e' →
        ByteMemory.word m' t a = d ∧ ByteMemory.word m' t b = d') ∧
      (¬ (x = e ∧ x' = e') → m' = m) ∧
      ∀ c, ¬ ByteMemory.InRange a (t.width / 8) c →
        ¬ ByteMemory.InRange b (t.width / 8) c → m' c = m c := by
  intro x x' s m'
  refine ⟨fun h => ?_, fun h => ?_, fun c hc hc' => ?_⟩
  · have hs : s = true := by simp [s, h.1, h.2]
    simp only [m', hs, if_true]
    exact ⟨(word_store_apart hab _ _).trans (word_store ht m a d),
      word_store ht _ b d'⟩
  · have hs : s = false := by simpa [s] using h
    simp only [m', hs, Bool.false_eq_true, if_false]
    rw [store_word ht m a]
    exact store_word ht m b
  · exact (ByteMemory.storeBytes_of_not hc').trans
      (ByteMemory.storeBytes_of_not hc)

end Word

/-! ## Running the code -/

section Run

variable {ρ ρ' : Valuation ByteMemory} {mem : Var} {cas : IRCAS}

theorem denotes_load {u : Typ} {addr : Exp} {x : BitVec u.width}
    (h : Denotes ρ addr u x) (mem : Var) (t : Typ) :
    Denotes ρ (.mem mem addr t) t
      (ByteMemory.word (ρ.mem mem) t (x.setWidth 64)) := by
  refine ⟨rfl, rfl, ?_⟩
  have haddr := h.operand (fun _ x => x.setWidth 64)
  simp only [Exp.eval, haddr, VineMemory.load, ByteMemory.word]
  exact BitVec.setWidth_ofNat_of_le (Typ.width_le t) _

theorem storeMem_eq {u : Typ} {addr rhs : Exp} {x : BitVec u.width}
    {y : BitVec t.width} (haddr : Denotes ρ addr u x)
    (hrhs : Denotes ρ rhs t y) :
    storeMem mem addr t rhs ρ = ρ.setMem mem
      ((ρ.mem mem).storeBytes (x.setWidth 64) (t.width / 8) y.toNat) := by
  have hx := haddr.operand (fun _ x => x.setWidth 64)
  have hy := hrhs.operand (fun _ y => y.setWidth 64)
  have hlt : y.toNat < 2 ^ 64 :=
    y.isLt.trans_le (Nat.pow_le_pow_right (by decide) (Typ.width_le t))
  simp only [storeMem, hx, hy, VineMemory.store, BitVec.toNat_setWidth,
    Nat.mod_eq_of_lt hlt]

/-- The operands of an element, once its old value is there. -/
structure CasWord.Read (n : ℕ) (ρ : Valuation ByteMemory) (w : CasWord)
    (x e d : BitVec t.width) : Prop where
  old : Denotes ρ (.temp w.old) t x
  expd : Denotes ρ (translateAtom w.expd) t e
  data : Denotes ρ (translateAtom w.data) t d
  belowOld : Numbered n w.old
  belowExpd : Below n (translateAtom w.expd)
  belowData : Below n (translateAtom w.data)

variable {w w' : CasWord} {x e d x' e' d' : BitVec t.width}

theorem CasWord.Read.congr (h : w.Read n ρ x e d)
    (hagree : AgreeOn (Numbered n) ρ ρ') : w.Read n ρ' x e d where
  old := h.old.congr (S := Numbered n) h.belowOld hagree
  expd := h.expd.congr h.belowExpd hagree
  data := h.data.congr h.belowData hagree
  belowOld := h.belowOld
  belowExpd := h.belowExpd
  belowData := h.belowData

/-- The comparison of an element with what is expected. -/
def CasWord.equality (w : CasWord) : Exp :=
  exEq (.temp w.old) (translateAtom w.expd)

/-- The value that is stored in an element. -/
def CasWord.stored (w : CasWord) (rty : Typ) (cond : Exp) : Emit Exp :=
  emitIte rty cond (translateAtom w.data) (.temp w.old)

theorem CasWord.Read.yields_stored {cond : Exp} {b : Bool}
    (h : w.Read n ρ x e d) (hcond : DenotesBool ρ cond b) :
    Yields ρ (w.stored t cond) fun r =>
      Denotes ρ r t (if b then d else x) := by
  apply yields_mkTemp
  intro v hv
  exact yields_move hv (hcond.ite h.data h.old) fun hr => yields_pure hr

theorem CasWord.Read.places_stored {m : ℕ} {cond : Exp}
    (h : w.Read n ρ x e d) (hnm : n ≤ m) (hcond : Below m cond) :
    Places m (w.stored t cond) fun _ _ => True := by
  have hreads : Below m (exIte cond (translateAtom w.data) (.temp w.old)) :=
    ⟨hcond, h.belowData.mono hnm, h.belowOld.trans_le (by exact_mod_cast hnm)⟩
  exact ⟨⟨rfl, hreads, rfl⟩, trivial⟩

/-- The values of a single compare and swap. -/
def singleValue (t : Typ) (w : CasWord) : Emit Exp := do
  let cond_temp ← mkTempDef .reg1 w.equality
  w.stored t cond_temp

/-- The two values of a double compare and swap. -/
def doubleValues (t : Typ) (w w' : CasWord) : Emit (Exp × Exp) := do
  let cond_temp ← mkTempDef .reg1 (exAnd w.equality w'.equality)
  let r ← w.stored t cond_temp
  let r' ← w'.stored t cond_temp
  pure (r, r')

theorem below_condTemp {m : ℕ} (h : n < m) :
    Below m (.temp (tempVar .reg1 n)) := Int.ofNat_lt.mpr h

theorem CasWord.Read.below_equality (h : w.Read n ρ x e d) :
    Below n w.equality := And.intro h.belowOld h.belowExpd

theorem singleValue_run (h : w.Read n ρ x e d) :
    let r := singleValue t w n
    Denotes (exec r.stmts ρ) r.value t (if x == e then d else x) ∧
      AgreeOn (Numbered n) ρ (exec r.stmts ρ) := by
  have hplaces : Places n (singleValue t w) fun _ _ => True := by
    apply places_temp h.below_equality
    exact h.places_stored (Nat.le_succ n) (below_condTemp (Nat.lt_succ_self n))
  apply hplaces.run ρ (Q := fun ρ' r => Denotes ρ' r t (if x == e then d else x))
  intro ρ' hagree
  have h' := h.congr hagree
  apply yields_temp (h'.old.eq h'.expd)
  intro cond hcond
  exact h'.yields_stored hcond

theorem doubleValues_run (h : w.Read n ρ x e d) (h' : w'.Read n ρ x' e' d') :
    let r := doubleValues t w w' n
    let b := x == e && x' == e'
    Denotes (exec r.stmts ρ) r.value.1 t (if b then d else x) ∧
      Denotes (exec r.stmts ρ) r.value.2 t (if b then d' else x') ∧
      AgreeOn (Numbered n) ρ (exec r.stmts ρ) := by
  have hplaces : Places n (doubleValues t w w') fun _ _ => True := by
    have hcond : Below n (exAnd w.equality w'.equality) :=
      And.intro h.below_equality h'.below_equality
    apply places_temp hcond
    apply places_bind
      (h.places_stored (Nat.le_succ n) (below_condTemp (Nat.lt_succ_self n)))
    intro m r hm _
    apply places_bind (h'.places_stored (by omega) (below_condTemp (by omega)))
    exact fun _ _ _ _ => places_pure trivial
  intro r b
  have hrun := hplaces.run ρ (Q := fun ρ' r =>
    Denotes ρ' r.1 t (if b then d else x) ∧
      Denotes ρ' r.2 t (if b then d' else x')) ?_
  · exact ⟨hrun.1.1, hrun.1.2, hrun.2⟩
  · intro ρ' hagree
    have h1 := h.congr hagree
    have h2 := h'.congr hagree
    apply yields_temp ((h1.old.eq h1.expd).andBool (h2.old.eq h2.expd))
    intro cond hcond
    apply yields_bind (h1.yields_stored hcond)
    intro r hr
    apply yields_bind (h2.yields_stored hcond)
    intro r' hr'
    exact yields_pure ⟨hr, hr'⟩

/-- The statements for a single element. -/
def singleCode (mem : Var) (cas : IRCAS) (w : CasWord) (n : ℕ) :
    List Statement :=
  let t := cas.oldLo.typ
  let addr := translateAtom cas.addr
  let r := singleValue t w n
  .move (.temp w.old) (.mem mem addr t) ::
    (r.stmts.map Stmt.toStatement ++ [.move (.mem mem addr t) r.value])

/-- The statements for two elements. -/
def doubleCode (mem : Var) (cas : IRCAS) (w w' : CasWord) (off : BitVec 32)
    (n : ℕ) : List Statement :=
  let t := cas.oldLo.typ
  let addr := translateAtom cas.addr
  let addrHi := exAdd addr (exConst off)
  let r := doubleValues t w w' n
  .move (.temp w.old) (.mem mem addr t) ::
    .move (.temp w'.old) (.mem mem addrHi t) ::
    (r.stmts.map Stmt.toStatement ++
      [.move (.mem mem addr t) r.value.1, .move (.mem mem addrHi t) r.value.2])

theorem readsOnly_atom {a : IRAtom} {v : Var} (h : a ≠ .rdTmp v) :
    ReadsOnly (· ≠ v) (translateAtom a) := by
  cases a with
  | rdTmp tmp => exact fun heq => h (heq ▸ rfl)
  | const => trivial

/-- An atom that does not read the temporary keeps its value when that is
assigned. -/
theorem denotes_atom {u : Typ} {a : IRAtom} {v : Var} {y : BitVec u.width}
    (h : Denotes ρ (translateAtom a) u y) (hv : a ≠ .rdTmp v) (rhs : Exp) :
    Denotes (exec [.move v rhs] ρ) (translateAtom a) u y :=
  h.congr (readsOnly_atom hv) (agreeOn_move v rhs ρ)

theorem exec_mem (stmts : List Stmt) (ρ : Valuation ByteMemory) (v : Var) :
    (exec stmts ρ).mem v = ρ.mem v :=
  congrFun (agreeOn_exec stmts ρ).mem.symm v

theorem Denotes.setMem {v : Var} (h : Denotes ρ (.temp v) t x) (mem : Var)
    (m : ByteMemory) : Denotes (ρ.setMem mem m) (.temp v) t x :=
  ⟨h.typ, h.width, h.eval⟩

theorem denotes_atom_setMem {u : Typ} {c : IRAtom} {y : BitVec u.width}
    (h : Denotes ρ (translateAtom c) u y) (mem : Var) (m : ByteMemory) :
    Denotes (ρ.setMem mem m) (translateAtom c) u y := by
  cases c with
  | rdTmp tmp => exact ⟨h.typ, h.width, h.eval⟩
  | const => exact ⟨h.typ, h.width, h.eval⟩

theorem single_done {frag post : List Statement}
    (hcas : cas.WellFormed n guest) (hhigh : cas.high = none)
    (ρ : Valuation ByteMemory) :
    let w : CasWord := ⟨cas.oldLo, cas.expdLo, cas.dataLo, 0⟩
    ∃ ρ', Reaches frag (.running (singleCode mem cas w n ++ post) ρ)
        (.running post ρ') ∧ cas.Done n guest mem ρ ρ' := by
  intro w
  have hwords : cas.words = [w] := by rw [IRCAS.words, hhigh]
  have hmem : w ∈ cas.words := hwords ▸ List.mem_singleton_self w
  set t := cas.oldLo.typ with ht
  set a := (translateAtom cas.addr).eval ρ guest.width with ha
  have hself : AgreeOn (Numbered n) ρ ρ := ⟨fun _ _ => rfl, rfl, rfl⟩
  obtain ⟨_, hnum, hexpd, hdata⟩ := hcas.words w hmem
  have hunread := hcas.unread w hmem
  rw [hwords] at hunread
  have haddr0 : Denotes ρ (translateAtom cas.addr) guest a :=
    hcas.addr.denotes hself
  have hwordAddr : cas.wordAddr guest ρ w = a.setWidth 64 := by
    rw [IRCAS.wordAddr, ← ha]
    simp [w]
  -- reading the old value
  set x := ByteMemory.word (ρ.mem mem) t (a.setWidth 64) with hx
  set load := Exp.mem mem (translateAtom cas.addr) t
  set ρ1 := exec [.move w.old load] ρ
  have haddr1 : Denotes ρ1 (translateAtom cas.addr) guest a :=
    denotes_atom haddr0 (hunread _ (by simp)) load
  have hread : w.Read n ρ1 x ((translateAtom w.expd).eval ρ t.width)
      ((translateAtom w.data).eval ρ t.width) := by
    refine ⟨denotes_move rfl (denotes_load haddr0 mem t), ?_, ?_, hnum,
      hexpd.below, hdata.below⟩
    · exact denotes_atom (hexpd.denotes hself) (hunread _ (by simp)) load
    · exact denotes_atom (hdata.denotes hself) (hunread _ (by simp)) load
  obtain ⟨hvalue, hagree⟩ := singleValue_run hread
  set r := singleValue t w n
  set ρ2 := exec r.stmts ρ1
  have haddr2 : Denotes ρ2 (translateAtom cas.addr) guest a :=
    haddr1.congr hcas.addr.below hagree
  have hmem2 : ρ2.mem = ρ.mem := funext fun v =>
    (exec_mem r.stmts ρ1 v).trans (exec_mem _ ρ v)
  refine ⟨storeMem mem (translateAtom cas.addr) t r.value ρ2, ?_, ?_⟩
  · have hcode : singleCode mem cas w n ++ post =
        .move (.temp w.old) load :: (r.stmts.map Stmt.toStatement ++
          (.move (.mem mem (translateAtom cas.addr) t) r.value :: post)) := by
      simp [singleCode, load, r, ← ht]
    rw [hcode]
    apply reaches_move
    apply reaches_toStatement
    exact reaches_store Reaches.refl
  · rw [storeMem_eq haddr2 hvalue, hmem2]
    obtain ⟨hnew, hfail, hother⟩ := single_memory hcas.element (ρ.mem mem)
      (a.setWidth 64) ((translateAtom w.expd).eval ρ t.width)
      ((translateAtom w.data).eval ρ t.width)
    constructor
    all_goals simp only [IRCAS.Succeeds, hwords, List.mem_singleton,
      forall_eq, hwordAddr, Valuation.setMem, Function.update_self]
    · exact (hread.old.congr (S := Numbered n) hnum hagree).setMem mem _
    · exact hnew
    · exact hother
    · exact hfail
    · intro v hv
      rw [Function.update_of_ne hv, hmem2]
    · intro v hv hne
      exact (hagree.temp v hv).symm.trans
        ((agreeOn_move w.old load ρ).temp v hne).symm

theorem double_done {frag post : List Statement} {high : IRCASHigh}
    {off : BitVec 32} (hguest : guest = .reg32)
    (hcas : cas.WellFormed n guest) (hhigh : cas.high = some high)
    (hoff : off = BitVec.ofNat 32 (cas.oldLo.typ.width / 8))
    (ρ : Valuation ByteMemory) :
    let w : CasWord := ⟨cas.oldLo, cas.expdLo, cas.dataLo, 0⟩
    let w' : CasWord :=
      ⟨high.oldHi, high.expdHi, high.dataHi, cas.oldLo.typ.width / 8⟩
    ∃ ρ', Reaches frag (.running (doubleCode mem cas w w' off n ++ post) ρ)
        (.running post ρ') ∧ cas.Done n guest mem ρ ρ' := by
  intro w w'
  subst hguest
  have hwords : cas.words = [w, w'] := by rw [IRCAS.words, hhigh]
  have hmem : w ∈ cas.words := by simp [hwords]
  have hmem' : w' ∈ cas.words := by simp [hwords]
  set t := cas.oldLo.typ with ht
  set addr := translateAtom cas.addr
  set addrHi := exAdd addr (exConst off)
  set a : BitVec 32 := addr.eval ρ 32 with ha
  set b : BitVec 32 := a + off with hb
  have hself : AgreeOn (Numbered n) ρ ρ := ⟨fun _ _ => rfl, rfl, rfl⟩
  obtain ⟨_, hnum, hexpd, hdata⟩ := hcas.words w hmem
  obtain ⟨htyp', hnum', hexpd', hdata'⟩ := hcas.words w' hmem'
  have hunread := hcas.unread w hmem
  have hunread' := hcas.unread w' hmem'
  have hne : w.old ≠ w'.old := by
    have hdistinct := hcas.distinct
    rw [hwords] at hdistinct
    simpa using hdistinct
  rw [hwords] at hunread hunread'
  have haddr0 : Denotes ρ addr .reg32 a := hcas.addr.denotes hself
  have hwordAddr : cas.wordAddr .reg32 ρ w = a.setWidth 64 := by
    change ((addr.eval ρ 32) + BitVec.ofNat 32 0).setWidth 64 = a.setWidth 64
    simp [← ha]
  have hwordAddr' : cas.wordAddr .reg32 ρ w' = b.setWidth 64 := by
    change ((addr.eval ρ 32) + BitVec.ofNat 32 (t.width / 8)).setWidth 64 = _
    rw [hb, hoff, ← ha]
  -- reading the old values
  set x := ByteMemory.word (ρ.mem mem) t (a.setWidth 64) with hx
  set x' := ByteMemory.word (ρ.mem mem) t (b.setWidth 64) with hx'
  set load := Exp.mem mem addr t
  set load' := Exp.mem mem addrHi t
  set ρ1 := exec [.move w.old load] ρ
  set ρ2 := exec [.move w'.old load'] ρ1
  -- an atom that is not assigned
  have hatom : ∀ {u : Typ} {c : IRAtom} {y : BitVec u.width},
      c ≠ .rdTmp w.old → c ≠ .rdTmp w'.old →
      Denotes ρ (translateAtom c) u y → Denotes ρ2 (translateAtom c) u y :=
    fun h h' hd => denotes_atom (denotes_atom hd h load) h' load'
  have haddr1 : Denotes ρ1 addr .reg32 a :=
    denotes_atom haddr0 (hunread _ (by simp)) load
  have haddrHi1 : Denotes ρ1 addrHi .reg32 b := haddr1.add (.const32 off)
  have haddr2 : Denotes ρ2 addr .reg32 a :=
    denotes_atom haddr1 (hunread' _ (by simp)) load'
  have hload' : Denotes ρ1 load' t x' := by
    rw [hx', ← exec_mem [.move w.old load] ρ mem]
    exact denotes_load haddrHi1 mem t
  have hread : w.Read n ρ2 x ((translateAtom w.expd).eval ρ t.width)
      ((translateAtom w.data).eval ρ t.width) := by
    refine ⟨?_, hatom (hunread _ (by simp)) (hunread' _ (by simp))
        (hexpd.denotes hself),
      hatom (hunread _ (by simp)) (hunread' _ (by simp)) (hdata.denotes hself),
      hnum, hexpd.below, hdata.below⟩
    exact (denotes_move rfl (denotes_load haddr0 mem t)).congr
      (S := (· ≠ w'.old)) hne (agreeOn_move w'.old load' ρ1)
  have hread' : w'.Read n ρ2 x' ((translateAtom w'.expd).eval ρ t.width)
      ((translateAtom w'.data).eval ρ t.width) :=
    ⟨denotes_move htyp' hload', hatom (hunread _ (by simp))
        (hunread' _ (by simp)) (hexpd'.denotes hself),
      hatom (hunread _ (by simp)) (hunread' _ (by simp)) (hdata'.denotes hself),
      hnum', hexpd'.below, hdata'.below⟩
  obtain ⟨hvalue, hvalue', hagree⟩ := doubleValues_run hread hread'
  set r := doubleValues t w w' n
  set ρ3 := exec r.stmts ρ2
  have haddr3 : Denotes ρ3 addr .reg32 a :=
    haddr2.congr hcas.addr.below hagree
  have hmem3 : ρ3.mem = ρ.mem := funext fun v =>
    (exec_mem r.stmts ρ2 v).trans
      ((exec_mem _ ρ1 v).trans (exec_mem _ ρ v))
  set ρ4 := storeMem mem addr t r.value.1 ρ3 with hρ4
  have hstore4 := @storeMem_eq _ ρ3 mem _ _ _ _ _ haddr3 hvalue
  have haddrHi4 : Denotes ρ4 addrHi .reg32 b :=
    (denotes_atom_setMem haddr3 mem _).add (.const32 off)
  have hvalue4 := fun m =>
    Denotes.setMem (v := tempVar t (n + 2)) hvalue' mem m
  refine ⟨storeMem mem addrHi t r.value.2 ρ4, ?_, ?_⟩
  · have hcode : doubleCode mem cas w w' off n ++ post =
        .move (.temp w.old) load :: .move (.temp w'.old) load' ::
          (r.stmts.map Stmt.toStatement ++
            (.move (.mem mem addr t) r.value.1 ::
              .move (.mem mem addrHi t) r.value.2 :: post)) := by
      simp [doubleCode, load, load', addr, addrHi, r, ← ht]
    rw [hcode]
    apply reaches_move
    apply reaches_move
    apply reaches_toStatement
    exact reaches_store (reaches_store Reaches.refl)
  · have hstore : storeMem mem addrHi t r.value.2 ρ4 = _ :=
      storeMem_eq haddrHi4 (hvalue4 _)
    rw [hstore, hρ4, hstore4, hmem3]
    obtain ⟨hnew, hfail, hother⟩ := double_memory hcas.element (ρ.mem mem)
      (apart_next (t := t) (.inl rfl) a)
      ((translateAtom w.expd).eval ρ t.width)
      ((translateAtom w.data).eval ρ t.width)
      ((translateAtom w'.expd).eval ρ t.width)
      ((translateAtom w'.data).eval ρ t.width)
    rw [← hoff] at hnew hfail hother
    constructor
    all_goals simp only [IRCAS.Succeeds, hwords, List.mem_cons,
      List.not_mem_nil, or_false, forall_eq_or_imp, forall_eq, hwordAddr,
      hwordAddr', Valuation.setMem, Function.update_self,
      Function.update_idem]
    · exact ⟨(hread.old.congr (S := Numbered n) hnum hagree).setMem mem _,
        (hread'.old.congr (S := Numbered n) hnum' hagree).setMem mem _⟩
    · exact hnew
    · exact fun c hc => hother c hc.1 hc.2
    · exact hfail
    · intro v hv
      rw [Function.update_of_ne hv, hmem3]
    · intro v hv hneq
      exact (hagree.temp v hv).symm.trans
        (((agreeOn_move w'.old load' ρ1).temp v hneq.2).symm.trans
          ((agreeOn_move w.old load ρ).temp v hneq.1).symm)

end Run

/-! ## The types of the code -/

section Typing

variable {mem : Var} {cas : IRCAS}

theorem wellTyped_atom {a : IRAtom} (ht : t.IsReg)
    (h : Operand n t (translateAtom a)) : (translateAtom a).WellTyped := by
  have htyp := h.typ
  cases a with
  | rdTmp tmp =>
    have htmp : tmp.typ = t := htyp
    change tmp.typ.IsReg
    rw [htmp]
    exact ht
  | const width value =>
    have hwidth : width = t := htyp
    change width.IsReg
    rw [hwidth]
    exact ht

theorem elementTypes_isReg (ht : t ∈ elementTypes) : t.IsReg := by
  simp only [elementTypes, List.mem_cons, List.not_mem_nil, or_false] at ht
  rcases ht with rfl | rfl | rfl | rfl <;> trivial

theorem hiOffset_eq (ht : t ∈ elementTypes) :
    hiOffset t = .ok (BitVec.ofNat 32 (t.width / 8)) := by
  simp only [elementTypes, List.mem_cons, List.not_mem_nil, or_false] at ht
  rcases ht with rfl | rfl | rfl | rfl <;> rfl

/-- The element of a well-formed compare and swap. -/
structure CasWord.Typed (t : Typ) (w : CasWord) : Prop where
  isReg : t.IsReg
  old : w.old.typ = t
  expd : (translateAtom w.expd).WellTyped
  expdTyp : (translateAtom w.expd).typ = t
  data : (translateAtom w.data).WellTyped
  dataTyp : (translateAtom w.data).typ = t

theorem IRCAS.WellFormed.typed (hcas : cas.WellFormed n guest) {w : CasWord}
    (hw : w ∈ cas.words) : w.Typed cas.oldLo.typ := by
  have ht := elementTypes_isReg hcas.element
  obtain ⟨htyp, _, hexpd, hdata⟩ := hcas.words w hw
  exact ⟨ht, htyp, wellTyped_atom ht hexpd, hexpd.typ, wellTyped_atom ht hdata,
    hdata.typ⟩

variable {w w' : CasWord}

theorem CasWord.Typed.load (h : w.Typed t) {addr : Exp}
    (haddr : addr.WellTyped) (hmem : mem.typ.Indexes addr.typ t) :
    (Statement.move (.temp w.old) (.mem mem addr t)).WellTyped :=
  ⟨h.old.symm ▸ h.isReg, ⟨haddr, h.isReg, hmem⟩, h.old.symm⟩

theorem CasWord.Typed.equality (h : w.Typed t) : w.equality.WellTyped :=
  ⟨(h.old.symm ▸ h.isReg : w.old.typ.IsReg), h.expd,
    h.expdTyp.trans h.old.symm⟩

theorem CasWord.Typed.value (h : w.Typed t) (i j : ℕ) :
    (Statement.move (.temp (tempVar t i)) (exIte (.temp (tempVar .reg1 j))
      (translateAtom w.data) (.temp w.old))).WellTyped :=
  ⟨h.isReg, ⟨trivial, h.data, (h.old.symm ▸ h.isReg : w.old.typ.IsReg), rfl,
    h.old.trans h.dataTyp.symm⟩, h.dataTyp⟩

theorem CasWord.Typed.store (h : w.Typed t) {addr : Exp}
    (haddr : addr.WellTyped) (hmem : mem.typ.Indexes addr.typ t) (i : ℕ) :
    (Statement.move (.mem mem addr t) (.temp (tempVar t i))).WellTyped :=
  ⟨⟨haddr, h.isReg, hmem⟩, h.isReg, rfl⟩

theorem singleCode_wellTyped (hw : w.Typed cas.oldLo.typ)
    (haddr : (translateAtom cas.addr).WellTyped)
    (hmem : mem.typ.Indexes (translateAtom cas.addr).typ cas.oldLo.typ) :
    ∀ s ∈ singleCode mem cas w n, s.WellTyped := by
  have hcond : (Statement.move (.temp (tempVar .reg1 n))
      w.equality).WellTyped := ⟨trivial, hw.equality, rfl⟩
  change ∀ s ∈ [_, _, _, _, _, _], Statement.WellTyped s
  simp only [List.forall_mem_cons, List.not_mem_nil, false_implies,
    implies_true, and_true]
  exact ⟨hw.load haddr hmem, trivial, hcond, hw.isReg, hw.value _ _,
    hw.store haddr hmem _⟩

theorem doubleCode_wellTyped {off : BitVec 32} (hw : w.Typed cas.oldLo.typ)
    (hw' : w'.Typed cas.oldLo.typ)
    (haddr : (translateAtom cas.addr).WellTyped)
    (htyp : (translateAtom cas.addr).typ = .reg32)
    (hmem : mem.typ = .tMem .reg32 .little) :
    ∀ s ∈ doubleCode mem cas w w' off n, s.WellTyped := by
  have hequality : (exAnd w.equality w'.equality).WellTyped :=
    ⟨hw.equality, hw'.equality, rfl⟩
  have hcond : (Statement.move (.temp (tempVar .reg1 n))
      (exAnd w.equality w'.equality)).WellTyped := ⟨trivial, hequality, rfl⟩
  have hindex : mem.typ.Indexes (translateAtom cas.addr).typ
      cas.oldLo.typ := by
    rw [hmem, htyp]
    rfl
  have haddrHi : (exAdd (translateAtom cas.addr) (exConst off)).WellTyped :=
    ⟨haddr, trivial, htyp.symm⟩
  change ∀ s ∈ [_, _, _, _, _, _, _, _, _, _], Statement.WellTyped s
  simp only [List.forall_mem_cons, List.not_mem_nil, false_implies,
    implies_true, and_true]
  exact ⟨hw.load haddr hindex, hw'.load haddrHi hindex, trivial, hcond,
    hw.isReg, hw.value _ _, hw.isReg, hw'.value _ _, hw.store haddr hindex _,
    hw'.store haddrHi hindex _⟩

/-- On a 64-bit guest, the offset of the second element has the wrong type. -/
theorem doubleCode_illTyped {off : BitVec 32}
    (htyp : (translateAtom cas.addr).typ = .reg64) :
    ¬ ∀ s ∈ doubleCode mem cas w w' off n, s.WellTyped := by
  intro hall
  simp only [doubleCode, List.forall_mem_cons] at hall
  obtain ⟨_, ⟨_, ⟨⟨_, _, hadmits⟩, _, _⟩, _⟩, _⟩ := hall
  have hadd : Typ.reg32 = (translateAtom cas.addr).typ := hadmits
  rw [htyp] at hadd
  cases hadd

end Typing

theorem translateCas_single {mem : Var} {cas : IRCAS} (h : cas.high = none) :
    ∃ x, translateCas mem cas = .ok x ∧ ∀ l,
      (x n l).stmts ++ [(x n l).value] =
        singleCode mem cas ⟨cas.oldLo, cas.expdLo, cas.dataLo, 0⟩ n := by
  obtain ⟨oldLo, addr, expdLo, dataLo, high⟩ := cas
  obtain rfl : high = none := h
  exact ⟨_, rfl, fun _ => rfl⟩

theorem translateCas_double {mem : Var} {cas : IRCAS} {high : IRCASHigh}
    {off : BitVec 32} (h : cas.high = some high)
    (hoff : hiOffset cas.oldLo.typ = .ok off) :
    ∃ x, translateCas mem cas = .ok x ∧ ∀ l,
      (x n l).stmts ++ [(x n l).value] =
        doubleCode mem cas ⟨cas.oldLo, cas.expdLo, cas.dataLo, 0⟩
          ⟨high.oldHi, high.expdHi, high.dataHi, cas.oldLo.typ.width / 8⟩ off
          n := by
  obtain ⟨oldLo, addr, expdLo, dataLo, high'⟩ := cas
  obtain rfl : high' = some high := h
  have hcas : casOffset ⟨oldLo, addr, expdLo, dataLo, some high⟩ = .ok off :=
    hoff
  refine ⟨_, by rw [translateCas, hcas]; rfl, fun _ => rfl⟩

/-- The translation is right for one element, and for two on a 32-bit guest;
on a 64-bit guest the address of the second element is ill typed. -/
theorem translateCas_exact {mem : Var} {cas : IRCAS}
    (hguest : guest = .reg32 ∨ guest = .reg64) (hcas : cas.WellFormed n guest)
    (hmem : mem.typ = .tMem guest .little) :
    TranslatesCas n guest cas mem ↔ cas.high = none ∨ guest = .reg32 := by
  have hguestReg : guest.IsReg := by rcases hguest with rfl | rfl <;> trivial
  have haddr := wellTyped_atom hguestReg hcas.addr
  cases hhigh : cas.high with
  | none =>
    obtain ⟨x, hx, hcode⟩ := @translateCas_single n mem _ hhigh
    have hindex : mem.typ.Indexes (translateAtom cas.addr).typ
        cas.oldLo.typ := by
      rw [hmem, hcas.addr.typ]
      rfl
    refine iff_of_true ⟨x, hx, fun l => ?_⟩ (.inl rfl)
    simp only [hcode]
    refine ⟨singleCode_wellTyped (hcas.typed (by simp [IRCAS.words])) haddr
      hindex, fun pre post ρ => single_done hcas hhigh ρ⟩
  | some high =>
    obtain ⟨x, hx, hcode⟩ := @translateCas_double n mem _ _ _ hhigh
      (hiOffset_eq hcas.element)
    rcases hguest with rfl | rfl
    · refine iff_of_true ⟨x, hx, fun l => ?_⟩ (.inr rfl)
      simp only [hcode]
      refine ⟨doubleCode_wellTyped (hcas.typed (by simp [IRCAS.words]))
        (hcas.typed (by simp [IRCAS.words, hhigh])) haddr hcas.addr.typ hmem,
        fun pre post ρ => double_done rfl hcas hhigh rfl ρ⟩
    · refine iff_of_false ?_ (by simp)
      rintro ⟨y, hy, htyped⟩
      obtain rfl : x = y := Except.ok.inj (hx.symm.trans hy)
      have hall := (htyped 0).1
      simp only [hcode] at hall
      exact doubleCode_illTyped hcas.addr.typ hall

/-- A double compare and swap of 64-bit elements, as `cmpxchg16b` is. -/
def cmpxchg16b : IRCAS where
  oldLo := ⟨-11, .ofAscii "T1", .reg64⟩
  addr := .rdTmp ⟨-10, .ofAscii "T0", .reg64⟩
  expdLo := .const .reg64 0
  dataLo := .const .reg64 1
  high := some ⟨⟨-12, .ofAscii "T2", .reg64⟩, .const .reg64 0, .const .reg64 1⟩

theorem translateCas_misses :
    ¬ TranslatesCas 0 .reg64 cmpxchg16b
      ⟨-1, .ofAscii "mem", .tMem .reg64 .little⟩ := by
  rintro ⟨x, hx, htyped⟩
  obtain ⟨y, hy, hcode⟩ := @translateCas_double 0
    ⟨-1, .ofAscii "mem", .tMem .reg64 .little⟩ cmpxchg16b _ 8 rfl rfl
  obtain rfl : y = x := Except.ok.inj (hy.symm.trans hx)
  have hall := (htyped 0).1
  simp only [hcode] at hall
  exact doubleCode_illTyped rfl hall

/-- A single compare and swap of 32 bits on a 64-bit guest. -/
def lockCmpxchg : IRCAS where
  oldLo := ⟨-11, .ofAscii "T1", .reg32⟩
  addr := .rdTmp ⟨-10, .ofAscii "T0", .reg64⟩
  expdLo := .const .reg32 0
  dataLo := .const .reg32 1
  high := none

theorem lockCmpxchg_wellFormed : lockCmpxchg.WellFormed 0 .reg64 where
  element := by decide
  addr := ⟨rfl, show (-10 : ℤ) < 0 by decide⟩
  words := by
    simp only [IRCAS.words, lockCmpxchg, List.mem_singleton, forall_eq]
    exact ⟨trivial, by decide, ⟨rfl, trivial⟩, ⟨rfl, trivial⟩⟩
  unread := by decide
  distinct := by decide

theorem translateCas_exact_single :
    TranslatesCas 0 .reg64 lockCmpxchg
        ⟨-1, .ofAscii "mem", .tMem .reg64 .little⟩ ↔
      lockCmpxchg.high = none ∨ Typ.reg64 = .reg32 :=
  translateCas_exact (.inr rfl) lockCmpxchg_wellFormed rfl

end Fuzzball.Asmir
