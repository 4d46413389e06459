import Fuzzball.Declarations
import Fuzzball.FormulaManager

/-!
# Invariants of the formula manager

Every definition mentions only variables made before the one it defines, the
variables of inputs are neither temporaries nor tables, and the tables of
memory scalars justify every axiom by scalars of the next smaller size.
-/

namespace Fuzzball.FormulaManager

open Vine

variable {D : Domain} {M : Marshal}

/-! ## Names of memory scalars -/

theorem append_cons_inj {α : Type} {l l' r r' : List α} {c : α}
    (hr : c ∉ r) (hr' : c ∉ r') (h : l ++ c :: r = l' ++ c :: r') :
    l = l' ∧ r = r' := by
  rcases List.append_eq_append_iff.mp h with ⟨m, hl, hm⟩ | ⟨m, hl, hm⟩
  · cases m with
    | nil => simp_all
    | cons x m =>
      obtain ⟨-, hm⟩ := List.cons_eq_cons.mp hm
      exact absurd (hm ▸ by simp : c ∈ r) hr
  · cases m with
    | nil => simp_all
    | cons x m =>
      obtain ⟨-, hm⟩ := List.cons_eq_cons.mp hm
      exact absurd (hm ▸ by simp : c ∈ r') hr'

theorem underscore_notMem_hexFixed (width n : ℕ) : 95 ∉ hexFixed width n := by
  induction width generalizing n with
  | zero => simp [hexFixed]
  | succ width ih =>
    simp only [hexFixed, List.mem_append, List.mem_singleton, not_or]
    exact ⟨ih _, (hexDigit_ne_underscore (Nat.mod_lt n (by norm_num))).symm⟩

theorem memTyStr_spec {ty : Typ} {tyStr : OString}
    (h : memTyStr ty = .ok tyStr) :
    (ty = .reg8 ∧ tyStr = .ofAscii "byte") ∨
      (ty = .reg16 ∧ tyStr = .ofAscii "short") ∨
      (ty = .reg32 ∧ tyStr = .ofAscii "word") ∨
      (ty = .reg64 ∧ tyStr = .ofAscii "long") := by
  cases ty <;> simp [memTyStr] at h <;> simp [h]

theorem underscore_notMem_memTyStr {ty : Typ} {tyStr : OString}
    (h : memTyStr ty = .ok tyStr) : 95 ∉ tyStr := by
  rcases memTyStr_spec h with ⟨-, rfl⟩ | ⟨-, rfl⟩ | ⟨-, rfl⟩ | ⟨-, rfl⟩ <;>
    decide

theorem memTyStr_inj {ty ty' : Typ} {tyStr : OString}
    (h : memTyStr ty = .ok tyStr) (h' : memTyStr ty' = .ok tyStr) :
    ty = ty' := by
  rcases memTyStr_spec h with ⟨rfl, rfl⟩ | ⟨rfl, rfl⟩ | ⟨rfl, rfl⟩ | ⟨rfl, rfl⟩
  all_goals
    rcases memTyStr_spec h' with ⟨rfl, h⟩ | ⟨rfl, h⟩ | ⟨rfl, h⟩ | ⟨rfl, h⟩ <;>
      first
      | rfl
      | exact absurd h (by decide)

/-- The name of a scalar determines its size. -/
theorem memVarName_typ
    {r r' tyStr tyStr' : OString} {ty ty' : Typ} {addr addr' : I64}
    (hty : memTyStr ty = .ok tyStr) (hty' : memTyStr ty' = .ok tyStr')
    (h : memVarName r tyStr addr = memVarName r' tyStr' addr') : ty = ty' := by
  have hname : ∀ (r tyStr : OString) (addr : I64),
      memVarName r tyStr addr =
        (r ++ 95 :: tyStr) ++ 95 :: 48 :: 120 :: hexPadded 8 addr.toNat := by
    intro r tyStr addr
    have h1 : OString.ofAscii "_" = [95] := by decide
    have h2 : OString.ofAscii "_0x" = [95, 48, 120] := by decide
    simp [memVarName, h1, h2]
  have hhex : ∀ addr : I64,
      (95 : UInt8) ∉ 48 :: 120 :: hexPadded 8 addr.toNat := by
    intro addr
    simp only [List.mem_cons, not_or]
    exact ⟨by decide, by decide, underscore_notMem_hexFixed _ _⟩
  rw [hname, hname] at h
  have hpair := (append_cons_inj (hhex addr) (hhex addr') h).1
  have hstr := (append_cons_inj (underscore_notMem_memTyStr hty)
    (underscore_notMem_memTyStr hty') hpair).2
  exact memTyStr_inj hty (hstr ▸ hty')

/-! ## Known variables and definitions -/

/-- A variable that `newvar` has made. -/
def Known (s : State D M) (v : Var) : Prop :=
  ∃ n : ℕ, v.id = n ∧ s.vars[n]? = some (v.name, v.typ)

theorem Known.id_nonneg {s : State D M} {v : Var} (h : Known s v) :
    0 ≤ v.id := by
  obtain ⟨n, hn, -⟩ := h
  omega

theorem Known.id_lt {s : State D M} {v : Var} (h : Known s v) :
    v.id < s.vars.length := by
  obtain ⟨n, hn, hv⟩ := h
  obtain ⟨hlt, -⟩ := List.getElem?_eq_some_iff.mp hv
  omega

theorem Known.eq_of_id {s : State D M} {v w : Var} (hv : Known s v)
    (hw : Known s w) (h : v.id = w.id) : v = w := by
  obtain ⟨n, hn, hv⟩ := hv
  obtain ⟨m, hm, hw⟩ := hw
  obtain rfl : n = m := by omega
  rw [hv, Option.some.injEq, Prod.mk.injEq] at hw
  cases v
  cases w
  simp_all

/-- A scalar of a memory region, under its name among the inputs. -/
def ScalarAt (s : State D M) (regionStr : OString) (ty : Typ) (addr : I64)
    (v : Var) : Prop :=
  ∃ tyStr, memTyStr ty = .ok tyStr ∧
    s.inputVars (memVarName regionStr tyStr addr) = some v

def IsScalar (s : State D M) (ty : Typ) (v : Var) : Prop :=
  ∃ regionStr addr, ScalarAt s regionStr ty addr v

/-- The name of a scalar of more than a byte belongs to a variable of its
size. -/
def NameFits (str : OString) (ty : Typ) : Prop :=
  ∀ regionStr tyStr addr ty', memTyStr ty' = .ok tyStr → ty' ≠ .reg8 →
    str = memVarName regionStr tyStr addr → ty = ty'

def VarHash.keys {α : Type} (h : VarHash α) : List Var := h.map Prod.fst

/-- An axiom mentions scalars of the next smaller size that are declared as
bytes or have axioms themselves. -/
def Supported (bytes scalars : List Var) (b : Var × Exp) : Prop :=
  (b.1.typ = .reg16 ∧ ∀ v ∈ b.2.vars, v ∈ bytes) ∨
    (b.1.typ = .reg32 ∧ ∀ v ∈ b.2.vars, v.typ = .reg16 ∧ v ∈ scalars) ∨
    (b.1.typ = .reg64 ∧ ∀ v ∈ b.2.vars, v.typ = .reg32 ∧ v ∈ scalars)

theorem Supported.mono {bytes bytes' scalars scalars' : List Var}
    {b : Var × Exp} (hbytes : ∀ v ∈ bytes, v ∈ bytes')
    (hscalars : ∀ v ∈ scalars, v ∈ scalars') (h : Supported bytes scalars b) :
    Supported bytes' scalars' b := by
  rcases h with ⟨ht, h⟩ | ⟨ht, h⟩ | ⟨ht, h⟩
  · exact .inl ⟨ht, fun v hv => hbytes v (h v hv)⟩
  · exact .inr (.inl ⟨ht, fun v hv => ⟨(h v hv).1, hscalars v (h v hv).2⟩⟩)
  · exact .inr (.inr ⟨ht, fun v hv => ⟨(h v hv).1, hscalars v (h v hv).2⟩⟩)

/-- What holds of the manager between any two of its calls. -/
structure Inv (s : State D M) : Prop where
  input : ∀ str v, s.inputVars str = some v → Known s v ∧ v.name = str
  fits : ∀ str v, s.inputVars str = some v → NameFits str v.typ
  temp : ∀ b ∈ s.tempVars, Known s b.1 ∧
    (∀ v ∈ (M.decode b.2).vars, Known s v ∧ v.id < b.1.id) ∧
    ∀ str, s.inputVars str ≠ some b.1
  table : ∀ v el, tableOf s v = some el → Known s v ∧
    (∀ e ∈ el, ∀ u ∈ e.vars, Known s u ∧ u.id < v.id) ∧
    ∀ str, s.inputVars str ≠ some v
  length : s.tableVars.length = s.tablesByIdx.length
  bytes : ∀ v ∈ s.memByteVars.keys, IsScalar s .reg8 v
  scalars : ∀ v ∈ s.memAxioms.keys, ∃ ty ≠ .reg8, IsScalar s ty v
  supported : ∀ b ∈ s.memAxioms,
    Supported s.memByteVars.keys s.memAxioms.keys b
  unique : s.memAxioms.keys.Nodup

/-- The manager may make variables and note scalars and axioms. -/
structure Grows (s s' : State D M) : Prop where
  vars : ∃ l, s'.vars = s.vars ++ l
  input : ∀ str v, s.inputVars str = some v → s'.inputVars str = some v
  temp : s'.tempVars = s.tempVars
  tableVars : s'.tableVars = s.tableVars
  tablesByIdx : s'.tablesByIdx = s.tablesByIdx
  bytes : ∀ v ∈ s.memByteVars.keys, v ∈ s'.memByteVars.keys
  scalars : ∀ v ∈ s.memAxioms.keys, v ∈ s'.memAxioms.keys

instance : Std.Refl (Grows : State D M → State D M → Prop) where
  refl _ := ⟨⟨[], by simp⟩, fun _ _ h => h, rfl, rfl, rfl, fun _ h => h,
    fun _ h => h⟩

instance : IsTrans (State D M) Grows where
  trans s s' s'' h h' := by
    obtain ⟨l, hl⟩ := h.vars
    obtain ⟨l', hl'⟩ := h'.vars
    exact ⟨⟨l ++ l', by rw [hl', hl, List.append_assoc]⟩,
      fun str v hv => h'.input str v (h.input str v hv),
      h'.temp.trans h.temp, h'.tableVars.trans h.tableVars,
      h'.tablesByIdx.trans h.tablesByIdx,
      fun v hv => h'.bytes v (h.bytes v hv),
      fun v hv => h'.scalars v (h.scalars v hv)⟩

theorem Known.mono {s s' : State D M} (h : ∃ l, s'.vars = s.vars ++ l)
    {v : Var} (hv : Known s v) : Known s' v := by
  obtain ⟨l, hl⟩ := h
  obtain ⟨n, hn, hv⟩ := hv
  refine ⟨n, hn, ?_⟩
  rw [hl]
  obtain ⟨hlt, -⟩ := List.getElem?_eq_some_iff.mp hv
  rw [List.getElem?_append_left hlt, hv]

theorem known_new {s s' : State D M} {name : OString} {t : Typ}
    (h : s'.vars = s.vars ++ [(name, t)]) :
    Known s' ⟨s.vars.length, name, t⟩ :=
  ⟨s.vars.length, rfl, by rw [h]; simp⟩

theorem IsScalar.mono {s s' : State D M}
    (h : ∀ str v, s.inputVars str = some v → s'.inputVars str = some v)
    {ty : Typ} {v : Var} (hv : IsScalar s ty v) : IsScalar s' ty v := by
  obtain ⟨r, addr, tyStr, hty, hv⟩ := hv
  exact ⟨r, addr, tyStr, hty, h _ _ hv⟩

theorem IsScalar.input {s : State D M} {ty : Typ} {v : Var}
    (h : IsScalar s ty v) : ∃ str, s.inputVars str = some v := by
  obtain ⟨r, addr, tyStr, -, h⟩ := h
  exact ⟨_, h⟩

theorem Inv.known_scalar {s : State D M} (hs : Inv s) {ty : Typ} {v : Var}
    (h : IsScalar s ty v) : Known s v := by
  obtain ⟨str, h⟩ := h.input
  exact (hs.input str v h).1

theorem Inv.typ_scalar {s : State D M} (hs : Inv s) {ty : Typ} {v : Var}
    (h : IsScalar s ty v) (hty : ty ≠ .reg8) : v.typ = ty := by
  obtain ⟨r, addr, tyStr, hstr, h⟩ := h
  exact hs.fits _ v h r tyStr addr ty hstr hty rfl

/-- A scalar has one size. -/
theorem Inv.scalar_typ_unique {s : State D M} (hs : Inv s) {ty ty' : Typ}
    {v : Var} (h : IsScalar s ty v) (h' : IsScalar s ty' v) : ty = ty' := by
  obtain ⟨r, addr, tyStr, hty, h⟩ := h
  obtain ⟨r', addr', tyStr', hty', h'⟩ := h'
  have hname := (hs.input _ v h).2.symm.trans (hs.input _ v h').2
  exact memVarName_typ hty hty' hname

theorem nameFits_memVarName
    {regionStr tyStr : OString} {addr : I64} {ty : Typ}
    (hty : memTyStr ty = .ok tyStr) :
    NameFits (memVarName regionStr tyStr addr) ty := by
  intro r' tyStr' addr' ty' hty' _ hname
  exact memVarName_typ hty hty' hname

/-! ## New variables -/

theorem Inv.newvar {s : State D M} (hs : Inv s) (name : OString) (t : Typ) :
    Inv { s with vars := s.vars ++ [(name, t)] } := by
  have hmono : ∀ {v : Var}, Known s v →
      Known { s with vars := s.vars ++ [(name, t)] } v :=
    fun hv => hv.mono ⟨[(name, t)], rfl⟩
  refine ⟨?_, hs.fits, ?_, ?_, hs.length, hs.bytes, hs.scalars, hs.supported,
    hs.unique⟩
  · intro str v hv
    exact ⟨hmono (hs.input str v hv).1, (hs.input str v hv).2⟩
  · intro b hb
    obtain ⟨hknown, hvars, hinput⟩ := hs.temp b hb
    exact ⟨hmono hknown, fun v hv => ⟨hmono (hvars v hv).1, (hvars v hv).2⟩,
      hinput⟩
  · intro v el hel
    obtain ⟨hknown, hvars, hinput⟩ := hs.table v el hel
    exact ⟨hmono hknown,
      fun e he u hu => ⟨hmono (hvars e he u hu).1, (hvars e he u hu).2⟩,
      hinput⟩

/-- The state after `freshSymbolicVar` has made a variable. -/
def State.addInput (s : State D M) (str : OString) (ty : Typ) : State D M :=
  { s with
    vars := s.vars ++ [(str, ty)]
    inputVars :=
      Function.update s.inputVars str (some ⟨s.vars.length, str, ty⟩) }

theorem State.addInput_cases {s : State D M} {str str' : OString} {ty : Typ}
    {v : Var} (h : (s.addInput str ty).inputVars str' = some v) :
    (str' = str ∧ v = ⟨s.vars.length, str, ty⟩) ∨ s.inputVars str' = some v := by
  by_cases hstr : str' = str
  · subst hstr
    simp only [State.addInput, Function.update_self, Option.some.injEq] at h
    exact .inl ⟨rfl, h.symm⟩
  · simp only [State.addInput, Function.update_of_ne hstr] at h
    exact .inr h

theorem State.addInput_grows {s : State D M} {str : OString} (ty : Typ)
    (hstr : s.inputVars str = none) : Grows s (s.addInput str ty) := by
  refine ⟨⟨[(str, ty)], rfl⟩, ?_, rfl, rfl, rfl, fun _ h => h, fun _ h => h⟩
  intro str' v hv
  have hne : str' ≠ str := by
    rintro rfl
    rw [hstr] at hv
    exact absurd hv (by simp)
  simp only [State.addInput, Function.update_of_ne hne]
  exact hv

theorem Inv.addInput {s : State D M} (hs : Inv s) {str : OString} {ty : Typ}
    (hstr : s.inputVars str = none) (hfits : NameFits str ty) :
    Inv (s.addInput str ty) := by
  have hgrows := State.addInput_grows ty hstr
  have hmono : ∀ {v : Var}, Known s v → Known (s.addInput str ty) v :=
    Known.mono hgrows.vars
  have hfresh : ∀ {v : Var}, Known s v →
      v ≠ ⟨s.vars.length, str, ty⟩ := by
    rintro v hv rfl
    exact absurd hv.id_lt (by simp)
  have hnot : ∀ {v : Var}, Known s v → (∀ str, s.inputVars str ≠ some v) →
      ∀ str', (s.addInput str ty).inputVars str' ≠ some v := by
    intro v hv hno str' hin
    rcases State.addInput_cases hin with ⟨-, rfl⟩ | hin
    · exact hfresh hv rfl
    · exact hno str' hin
  refine ⟨?_, ?_, ?_, ?_, hs.length, ?_, ?_, hs.supported, hs.unique⟩
  · intro str' v hv
    rcases State.addInput_cases hv with ⟨rfl, rfl⟩ | hv
    · exact ⟨known_new rfl, rfl⟩
    · exact ⟨hmono (hs.input str' v hv).1, (hs.input str' v hv).2⟩
  · intro str' v hv
    rcases State.addInput_cases hv with ⟨rfl, rfl⟩ | hv
    · exact hfits
    · exact hs.fits str' v hv
  · intro b hb
    obtain ⟨hknown, hvars, hinput⟩ := hs.temp b hb
    exact ⟨hmono hknown, fun v hv => ⟨hmono (hvars v hv).1, (hvars v hv).2⟩,
      hnot hknown hinput⟩
  · intro v el hel
    obtain ⟨hknown, hvars, hinput⟩ := hs.table v el hel
    exact ⟨hmono hknown,
      fun e he u hu => ⟨hmono (hvars e he u hu).1, (hvars e he u hu).2⟩,
      hnot hknown hinput⟩
  · intro v hv
    exact (hs.bytes v hv).mono hgrows.input
  · intro v hv
    obtain ⟨ty', hne, hty'⟩ := hs.scalars v hv
    exact ⟨ty', hne, hty'.mono hgrows.input⟩

theorem freshSymbolicVar_leads {s : State D M} (hs : Inv s) {str : OString}
    {ty : Typ} (hfits : NameFits str ty) :
    Leads Inv Grows s (freshSymbolicVar str ty)
      (fun v s' => s'.inputVars str = some v) := by
  cases h : s.inputVars str with
  | some v =>
    have hrun : (freshSymbolicVar str ty : FM D M Var).run s = (.ok v, s) := by
      rw [freshSymbolicVar, Stateful.run_bind_ok (Stateful.run_get s), h]
      rfl
    exact .of_ok hrun hs (refl s) h
  | none =>
    have hrun : (freshSymbolicVar str ty : FM D M Var).run s =
        (.ok ⟨s.vars.length, str, ty⟩, s.addInput str ty) := by
      rw [freshSymbolicVar, Stateful.run_bind_ok (Stateful.run_get s), h]
      rfl
    refine .of_ok hrun (hs.addInput h hfits) (State.addInput_grows _ h) ?_
    simp [State.addInput]

theorem memVar_leads {s : State D M} (hs : Inv s) (regionStr : OString)
    (ty : Typ) (addr : I64) :
    Leads Inv Grows s (memVar regionStr ty addr)
      (fun v s' => ScalarAt s' regionStr ty addr v) := by
  unfold memVar
  cases hty : memTyStr ty with
  | error x => exact .throw hs
  | ok tyStr =>
    refine (freshSymbolicVar_leads hs (nameFits_memVarName hty)).mono ?_
    intro v s' _ _ hv
    exact ⟨tyStr, hty, hv⟩

/-! ## Temporaries -/

/-- An expression that has a temporary keeps it. -/
theorem makeTempVar_known {s : State D M} {e : Exp} {eEnc : M.enc}
    {b : Var × M.enc} (ty : Typ) (hencode : M.encode e = .ok eEnc)
    (hfind : (s.tempVars.find? fun b => b.2 = eEnc) = some b) :
    (makeTempVar e ty : FM D M Var).run s = (.ok b.1, s) := by
  rw [makeTempVar, hencode]
  apply (Stateful.run_bind_ok (Stateful.run_get s)).trans
  rw [hfind]
  rfl

/-- Another gets a new one. -/
theorem makeTempVar_new {s : State D M} {e : Exp} {eEnc : M.enc} (ty : Typ)
    (hencode : M.encode e = .ok eEnc)
    (hfind : (s.tempVars.find? fun b => b.2 = eEnc) = none) :
    let name := OString.ofAscii "t" ++ decimal s.tempVars.length
    (makeTempVar e ty : FM D M Var).run s =
      (.ok ⟨s.vars.length, name, ty⟩,
        { s with
          vars := s.vars ++ [(name, ty)]
          tempVars := (⟨s.vars.length, name, ty⟩, eEnc) :: s.tempVars }) := by
  intro name
  rw [makeTempVar, hencode]
  apply (Stateful.run_bind_ok (Stateful.run_get s)).trans
  rw [hfind]
  rfl

end Fuzzball.FormulaManager
