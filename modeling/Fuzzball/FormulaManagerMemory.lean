import Fuzzball.FormulaManagerState

/-!
# Memory scalars in rewritten expressions

Rewriting an expression for the solver replaces its accesses to memory by
scalars, each of which is a byte or has an axiom, and the axioms of a query
support one another.
-/

namespace Fuzzball.FormulaManager

open Vine

variable {D : Domain} {M : Marshal}

/-! ## Tables keyed by variables -/

theorem VarHash.mem_iff {α : Type} {h : VarHash α} {v : Var} :
    h.mem v = true ↔ ∃ w ∈ h.keys, w.id = v.id := by
  simp [VarHash.mem, VarHash.keys]

theorem VarHash.mem_replace {α : Type} {h : VarHash α} {v : Var} {a : α}
    {b : Var × α} :
    b ∈ h.replace v a ↔ b = (v, a) ∨ (b ∈ h ∧ b.1.id ≠ v.id) := by
  simp [VarHash.replace]

theorem VarHash.mem_keys_replace {α : Type} {h : VarHash α} {v w : Var} {a : α} :
    w ∈ (h.replace v a).keys ↔ w = v ∨ (w ∈ h.keys ∧ w.id ≠ v.id) := by
  simp only [VarHash.keys, List.mem_map, VarHash.mem_replace]
  constructor
  · rintro ⟨b, rfl | ⟨hb, hid⟩, rfl⟩
    · exact .inl rfl
    · exact .inr ⟨⟨b, hb, rfl⟩, hid⟩
  · rintro (rfl | ⟨⟨b, hb, rfl⟩, hid⟩)
    · exact ⟨(w, a), .inl rfl, rfl⟩
    · exact ⟨b, .inr ⟨hb, hid⟩, rfl⟩

theorem VarHash.nodup_replace {α : Type} {h : VarHash α} (hh : h.keys.Nodup)
    (v : Var) (a : α) : (h.replace v a).keys.Nodup := by
  have hsub : (VarHash.keys (h.filter fun b => b.1.id != v.id)).Nodup :=
    hh.sublist (List.filter_sublist.map _)
  refine List.nodup_cons.mpr ⟨?_, hsub⟩
  simp

/-- Among known variables a table is keyed by the variables themselves. -/
theorem VarHash.keys_subset_replace {α : Type} {s : State D M} {h : VarHash α}
    (hh : ∀ w ∈ h.keys, Known s w) {v : Var} (hv : Known s v) (a : α) :
    ∀ w ∈ h.keys, w ∈ (h.replace v a).keys := by
  intro w hw
  by_cases hid : w.id = v.id
  · exact VarHash.mem_keys_replace.mpr (.inl ((hh w hw).eq_of_id hv hid))
  · exact VarHash.mem_keys_replace.mpr (.inr ⟨hw, hid⟩)

theorem Inv.known_bytes {s : State D M} (hs : Inv s) :
    ∀ v ∈ s.memByteVars.keys, Known s v :=
  fun v hv => hs.known_scalar (hs.bytes v hv)

theorem Inv.known_scalars {s : State D M} (hs : Inv s) :
    ∀ v ∈ s.memAxioms.keys, Known s v := by
  intro v hv
  obtain ⟨ty, -, hty⟩ := hs.scalars v hv
  exact hs.known_scalar hty

/-! ## Noting bytes and axioms -/

theorem addByteVar_leads {s : State D M} (hs : Inv s) {v : Var}
    (hv : IsScalar s .reg8 v) :
    Leads Inv Grows s (addByteVar v)
      (fun _ s' => v ∈ s'.memByteVars.keys) := by
  have hsub := VarHash.keys_subset_replace hs.known_bytes (hs.known_scalar hv) ()
  refine .of_ok (Stateful.run_modify _ s) ?_ ?_ ?_
  · refine ⟨hs.input, hs.fits, hs.temp, hs.table, hs.length, ?_, hs.scalars,
      ?_, hs.unique⟩
    · intro w hw
      rcases VarHash.mem_keys_replace.mp hw with rfl | ⟨hw, -⟩
      · exact hv
      · exact hs.bytes w hw
    · intro b hb
      exact (hs.supported b hb).mono hsub fun _ hw => hw
  · exact ⟨⟨[], by simp⟩, fun _ _ h => h, rfl, rfl, rfl, hsub, fun _ h => h⟩
  · exact VarHash.mem_keys_replace.mpr (.inl rfl)

/-- The axioms made for a scalar, before they are noted. -/
def Axioms (s : State D M) (v : Var) (al : List (Var × Exp)) : Prop :=
  v ∈ VarHash.keys al ∧ ∀ b ∈ al, (∃ ty ≠ .reg8, IsScalar s ty b.1) ∧
    Supported s.memByteVars.keys (VarHash.keys al) b

theorem Axioms.mono {s s' : State D M} (h : Grows s s') {v : Var}
    {al : List (Var × Exp)} (hal : Axioms s v al) : Axioms s' v al := by
  refine ⟨hal.1, fun b hb => ?_⟩
  obtain ⟨⟨ty, hne, hty⟩, hsupported⟩ := hal.2 b hb
  exact ⟨⟨ty, hne, hty.mono h.input⟩, hsupported.mono h.bytes fun _ hw => hw⟩

/-- Two scalars with their axioms make the axiom of one of twice the size. -/
theorem Axioms.join {s : State D M} (hs : Inv s) {ty : Typ} {v v0 v1 : Var}
    {al0 al1 : List (Var × Exp)} {e : Exp} (hv : IsScalar s ty v)
    (hne : ty ≠ .reg8) (h0 : Axioms s v0 al0) (h1 : Axioms s v1 al1)
    (hsize : ∃ half, (ty = .reg32 ∧ half = .reg16 ∨
      ty = .reg64 ∧ half = .reg32) ∧ IsScalar s half v0 ∧ IsScalar s half v1)
    (he : ∀ w ∈ e.vars, w = v0 ∨ w = v1) :
    Axioms s v ((v, e) :: (al0 ++ al1)) := by
  have hkeys : ∀ w, w ∈ VarHash.keys al0 ∨ w ∈ VarHash.keys al1 →
      w ∈ VarHash.keys ((v, e) :: (al0 ++ al1)) := by
    intro w hw
    simpa [VarHash.keys, or_assoc] using Or.inr hw
  refine ⟨by simp [VarHash.keys], fun b hb => ?_⟩
  rcases List.mem_cons.mp hb with rfl | hb
  · refine ⟨⟨ty, hne, hv⟩, ?_⟩
    have htyp := hs.typ_scalar hv hne
    obtain ⟨half, hhalf, hv0, hv1⟩ := hsize
    have hhalf8 : half ≠ .reg8 := by
      rcases hhalf with ⟨-, rfl⟩ | ⟨-, rfl⟩ <;> decide
    have hw : ∀ w ∈ e.vars, w.typ = half ∧
        w ∈ VarHash.keys ((v, e) :: (al0 ++ al1)) := by
      intro w hw
      rcases he w hw with rfl | rfl
      · exact ⟨hs.typ_scalar hv0 hhalf8, hkeys w (.inl h0.1)⟩
      · exact ⟨hs.typ_scalar hv1 hhalf8, hkeys w (.inr h1.1)⟩
    rcases hhalf with ⟨rfl, rfl⟩ | ⟨rfl, rfl⟩
    · exact .inr (.inl ⟨htyp, hw⟩)
    · exact .inr (.inr ⟨htyp, hw⟩)
  · rcases List.mem_append.mp hb with hb | hb
    · obtain ⟨hscalar, hsupported⟩ := h0.2 b hb
      exact ⟨hscalar, hsupported.mono (fun _ hw => hw)
        fun w hw => hkeys w (.inl hw)⟩
    · obtain ⟨hscalar, hsupported⟩ := h1.2 b hb
      exact ⟨hscalar, hsupported.mono (fun _ hw => hw)
        fun w hw => hkeys w (.inr hw)⟩

theorem memVarByte_leads {s : State D M} (hs : Inv s) (regionStr : OString)
    (addr : I64) :
    Leads Inv Grows s (memVarByte regionStr addr)
      (fun v s' => v ∈ s'.memByteVars.keys) := by
  refine (memVar_leads hs regionStr .reg8 addr).bind ?_
  intro v s1 hs1 _ hv
  refine (addByteVar_leads hs1 ⟨_, _, hv⟩).bind ?_
  intro _ s2 hs2 _ hbyte
  exact .pure hs2 hbyte

theorem memAxiomsShort_leads {s : State D M} (hs : Inv s)
    (regionStr : OString) (addr : I64) {svar : Var}
    (hv : IsScalar s .reg16 svar) :
    Leads Inv Grows s (memAxiomsShort regionStr addr svar)
      (fun al s' => Axioms s' svar al) := by
  refine (memVarByte_leads hs regionStr addr).bind ?_
  intro bvar0 s1 hs1 h1 hb0
  refine (memVarByte_leads hs1 regionStr (addr + 1)).bind ?_
  intro bvar1 s2 hs2 h2 hb1
  have hv2 := hv.mono (trans_of Grows h1 h2).input
  refine .pure hs2 ⟨by simp [VarHash.keys], fun b hb => ?_⟩
  rw [List.mem_singleton] at hb
  subst hb
  refine ⟨⟨.reg16, by decide, hv2⟩, .inl ⟨hs2.typ_scalar hv2 (by decide), ?_⟩⟩
  intro w hw
  have hw' := D.vars_assemble16 _ _ w hw
  simp only [Exp.vars, List.mem_append, List.mem_singleton] at hw'
  rcases hw' with rfl | rfl
  · exact h2.bytes w hb0
  · exact hb1

theorem memAxiomsWord_leads {s : State D M} (hs : Inv s)
    (regionStr : OString) (addr : I64) {wvar : Var}
    (hv : IsScalar s .reg32 wvar) :
    Leads Inv Grows s (memAxiomsWord regionStr addr wvar)
      (fun al s' => Axioms s' wvar al) := by
  refine (memVar_leads hs regionStr .reg16 addr).bind ?_
  intro svar0 s1 hs1 h1 hs0
  refine (memVar_leads hs1 regionStr .reg16 (addr + 2)).bind ?_
  intro svar1 s2 hs2 h2 hs1'
  refine (memAxiomsShort_leads hs2 regionStr (addr + 2) ⟨_, _, hs1'⟩).bind ?_
  intro al1 s3 hs3 h3 hal1
  have h13 := trans_of Grows h2 h3
  have hscalar0 : IsScalar s3 .reg16 svar0 :=
    IsScalar.mono h13.input ⟨_, _, hs0⟩
  refine (memAxiomsShort_leads hs3 regionStr addr hscalar0).bind ?_
  intro al0 s4 hs4 h4 hal0
  have hgrows := trans_of Grows h1 (trans_of Grows h13 h4)
  refine .pure hs4 (Axioms.join hs4 (hv.mono hgrows.input) (by decide) hal0
    (hal1.mono h4) ⟨.reg16, .inl ⟨rfl, rfl⟩, hscalar0.mono h4.input, ?_⟩ ?_)
  · exact IsScalar.mono (trans_of Grows h3 h4).input ⟨_, _, hs1'⟩
  · intro w hw
    simpa [Exp.vars] using D.vars_assemble32 _ _ w hw

theorem memAxiomsLong_leads {s : State D M} (hs : Inv s)
    (regionStr : OString) (addr : I64) {lvar : Var}
    (hv : IsScalar s .reg64 lvar) :
    Leads Inv Grows s (memAxiomsLong regionStr addr lvar)
      (fun al s' => Axioms s' lvar al) := by
  refine (memVar_leads hs regionStr .reg32 addr).bind ?_
  intro wvar0 s1 hs1 h1 hw0
  refine (memVar_leads hs1 regionStr .reg32 (addr + 4)).bind ?_
  intro wvar1 s2 hs2 h2 hw1
  refine (memAxiomsWord_leads hs2 regionStr (addr + 4) ⟨_, _, hw1⟩).bind ?_
  intro al1 s3 hs3 h3 hal1
  have h13 := trans_of Grows h2 h3
  have hscalar0 : IsScalar s3 .reg32 wvar0 :=
    IsScalar.mono h13.input ⟨_, _, hw0⟩
  refine (memAxiomsWord_leads hs3 regionStr addr hscalar0).bind ?_
  intro al0 s4 hs4 h4 hal0
  have hgrows := trans_of Grows h1 (trans_of Grows h13 h4)
  refine .pure hs4 (Axioms.join hs4 (hv.mono hgrows.input) (by decide) hal0
    (hal1.mono h4) ⟨.reg32, .inr ⟨rfl, rfl⟩, hscalar0.mono h4.input, ?_⟩ ?_)
  · exact IsScalar.mono (trans_of Grows h3 h4).input ⟨_, _, hw1⟩
  · intro w hw
    simpa [Exp.vars] using D.vars_assemble64 _ _ w hw

/-! ## Noting a list of axioms -/

def addAxioms (h : VarHash Exp) (al : List (Var × Exp)) : VarHash Exp :=
  al.foldl (fun h b => h.replace b.1 b.2) h

theorem mem_addAxioms {h : VarHash Exp} {al : List (Var × Exp)} {b : Var × Exp}
    (hb : b ∈ addAxioms h al) : b ∈ al ∨ b ∈ h := by
  induction al generalizing h with
  | nil => exact .inr hb
  | cons a al ih =>
    rcases ih hb with hal | hh
    · exact .inl (List.mem_cons_of_mem a hal)
    · rcases VarHash.mem_replace.mp hh with rfl | ⟨hh, -⟩
      · exact .inl List.mem_cons_self
      · exact .inr hh

theorem nodup_addAxioms {h : VarHash Exp} (hh : h.keys.Nodup)
    (al : List (Var × Exp)) : (addAxioms h al).keys.Nodup := by
  induction al generalizing h with
  | nil => exact hh
  | cons a al ih => exact ih (VarHash.nodup_replace hh a.1 a.2)

theorem keys_addAxioms {s : State D M} {h : VarHash Exp}
    (hh : ∀ w ∈ h.keys, Known s w) {al : List (Var × Exp)}
    (hal : ∀ w ∈ VarHash.keys al, Known s w) {w : Var}
    (hw : w ∈ h.keys ∨ w ∈ VarHash.keys al) : w ∈ (addAxioms h al).keys := by
  induction al generalizing h with
  | nil => exact hw.resolve_right (by simp [VarHash.keys])
  | cons a al ih =>
    have ha : Known s a.1 := hal a.1 (by simp [VarHash.keys])
    refine ih ?_ (fun v hv => hal v (List.mem_cons_of_mem _ hv)) ?_
    · intro v hv
      rcases VarHash.mem_keys_replace.mp hv with rfl | ⟨hv, -⟩
      · exact ha
      · exact hh v hv
    · rcases hw with hw | hw
      · exact .inl (VarHash.keys_subset_replace hh ha a.2 w hw)
      · rcases List.mem_cons.mp hw with rfl | hw
        · exact .inl (VarHash.mem_keys_replace.mpr (.inl rfl))
        · exact .inr hw

theorem run_forM_addAxiom (al : List (Var × Exp)) (s : State D M) :
    (al.forM addAxiom : FM D M PUnit).run s =
      (.ok ⟨⟩, { s with memAxioms := addAxioms s.memAxioms al }) := by
  induction al generalizing s with
  | nil => rfl
  | cons a al ih =>
    change Stateful.run (addAxiom a >>= fun _ => al.forM addAxiom) s = _
    rw [addAxiom, Stateful.run_bind_ok (Stateful.run_modify _ s), ih]
    rfl

theorem forM_addAxiom_leads {s : State D M} (hs : Inv s) {v : Var}
    {al : List (Var × Exp)} (hal : Axioms s v al) :
    Leads Inv Grows s (al.forM addAxiom)
      (fun _ s' => v ∈ s'.memAxioms.keys) := by
  have hscalar : ∀ w ∈ VarHash.keys al, ∃ ty ≠ .reg8, IsScalar s ty w := by
    intro w hw
    obtain ⟨b, hb, rfl⟩ := List.mem_map.mp hw
    exact (hal.2 b hb).1
  have hknown : ∀ w ∈ VarHash.keys al, Known s w := by
    intro w hw
    obtain ⟨ty, -, hty⟩ := hscalar w hw
    exact hs.known_scalar hty
  have hsub : ∀ w, w ∈ s.memAxioms.keys ∨ w ∈ VarHash.keys al →
      w ∈ (addAxioms s.memAxioms al).keys :=
    fun w hw => keys_addAxioms hs.known_scalars hknown hw
  refine .of_ok (run_forM_addAxiom al s) ?_ ?_ (hsub v (.inr hal.1))
  · refine ⟨hs.input, hs.fits, hs.temp, hs.table, hs.length, hs.bytes, ?_, ?_,
      nodup_addAxioms hs.unique al⟩
    · intro w hw
      obtain ⟨b, hb, rfl⟩ := List.mem_map.mp hw
      rcases mem_addAxioms hb with hb | hb
      · exact (hal.2 b hb).1
      · exact hs.scalars b.1 (List.mem_map_of_mem hb)
    · intro b hb
      rcases mem_addAxioms hb with hb | hb
      · exact (hal.2 b hb).2.mono (fun _ hw => hw)
          fun w hw => hsub w (.inr hw)
      · exact (hs.supported b hb).mono (fun _ hw => hw)
          fun w hw => hsub w (.inl hw)
  · exact ⟨⟨[], by simp⟩, fun _ _ h => h, rfl, rfl, rfl, fun _ h => h,
      fun w hw => hsub w (.inl hw)⟩

/-! ## Accesses become scalars -/

/-- A scalar that a query declares, as a byte or by its axiom. -/
def Noted (s : State D M) (v : Var) : Prop :=
  v ∈ s.memByteVars.keys ∨ v ∈ s.memAxioms.keys

theorem Noted.mono {s s' : State D M} (h : Grows s s') {v : Var}
    (hv : Noted s v) : Noted s' v :=
  hv.imp (h.bytes v) (h.scalars v)

theorem Inv.known_noted {s : State D M} (hs : Inv s) {v : Var}
    (hv : Noted s v) : Known s v :=
  hv.elim (hs.known_bytes v) (hs.known_scalars v)

theorem ScalarAt.eq {s : State D M} {r : OString} {ty : Typ} {addr : I64}
    {v w : Var} (hv : ScalarAt s r ty addr v) (hw : ScalarAt s r ty addr w) :
    v = w := by
  obtain ⟨tyStr, hty, hv⟩ := hv
  obtain ⟨tyStr', hty', hw⟩ := hw
  obtain rfl : tyStr = tyStr' := Except.ok.inj (hty.symm.trans hty')
  exact Option.some.inj (hv.symm.trans hw)

theorem addMemAxioms_leads {s : State D M} (hs : Inv s) (regionStr : OString)
    (ty : Typ) (addr : I64) :
    Leads Inv Grows s (addMemAxioms regionStr ty addr)
      (fun _ s' => ∃ v, ScalarAt s' regionStr ty addr v ∧ Noted s' v) := by
  refine (memVar_leads hs regionStr ty addr).bind ?_
  intro v s1 hs1 _ hv
  have hnoted : ∀ {s' : State D M}, Grows s1 s' → Noted s' v →
      ∃ v, ScalarAt s' regionStr ty addr v ∧ Noted s' v := by
    intro s' h hn
    obtain ⟨tyStr, hty, hin⟩ := hv
    exact ⟨v, ⟨tyStr, hty, h.input _ _ hin⟩, hn⟩
  have hforM : ∀ {x : FM D M (List (Var × Exp))},
      Leads Inv Grows s1 x (fun al s' => Axioms s' v al) →
      Leads Inv Grows s1 (x >>= fun al => al.forM addAxiom)
        (fun _ s' => ∃ v, ScalarAt s' regionStr ty addr v ∧ Noted s' v) := by
    intro x hx
    refine hx.bind ?_
    intro al s2 hs2 h2 hal
    refine (forM_addAxiom_leads hs2 hal).mono ?_
    intro _ s3 _ h3 hkey
    exact hnoted (trans_of Grows h2 h3) (.inr hkey)
  cases ty with
  | reg8 =>
    refine (addByteVar_leads hs1 ⟨_, _, hv⟩).mono ?_
    intro _ s2 _ h2 hbyte
    exact hnoted h2 (.inl hbyte)
  | reg16 => exact hforM (memAxiomsShort_leads hs1 regionStr addr ⟨_, _, hv⟩)
  | reg32 => exact hforM (memAxiomsWord_leads hs1 regionStr addr ⟨_, _, hv⟩)
  | reg64 => exact hforM (memAxiomsLong_leads hs1 regionStr addr ⟨_, _, hv⟩)
  | _ => exact .throw hs1

theorem rewriteMemToScalar_leads {s : State D M} (hs : Inv s) (e : Exp) :
    Leads Inv Grows s (rewriteMemToScalar e)
      (fun e' s' => ∃ v, e' = .temp v ∧ Noted s' v) := by
  have hmem : ∀ (v : Var) (addr : I64) (ty : Typ),
      Leads Inv Grows s
        (do
          addMemAxioms v.name ty addr
          pure (.temp (← memVar v.name ty addr)) : FM D M Exp)
        (fun e' s' => ∃ v, e' = .temp v ∧ Noted s' v) := by
    intro v addr ty
    refine (addMemAxioms_leads hs v.name ty addr).bind ?_
    intro _ s1 hs1 _ hnoted
    refine (memVar_leads hs1 v.name ty addr).bind ?_
    intro w s2 hs2 h2 hw
    obtain ⟨u, hu, hnoted⟩ := hnoted
    obtain ⟨tyStr, hty, hin⟩ := hu
    obtain rfl : u = w :=
      ScalarAt.eq ⟨tyStr, hty, h2.input _ _ hin⟩ hw
    exact .pure hs2 ⟨u, rfl, hnoted.mono h2⟩
  unfold rewriteMemToScalar
  split
  · exact hmem _ _ _
  · exact hmem _ _ _
  · exact .throw hs

/-! ## Rewritten expressions -/

/-- The variables a walk of an expression visits. -/
def needs (tableVars : List Var) : Exp → List Var
  | .binOp _ e1 e2 => needs tableVars e1 ++ needs tableVars e2
  | .fbinOp _ _ e1 e2 => needs tableVars e1 ++ needs tableVars e2
  | .unOp _ e1 => needs tableVars e1
  | .funOp _ _ e1 => needs tableVars e1
  | .constant _ => []
  | .temp v => [v]
  | .mem v e1 _ => needs tableVars e1 ++ if v ∈ tableVars then [v] else []
  | .name _ => []
  | .cast _ _ e1 => needs tableVars e1
  | .fcast _ _ _ e1 => needs tableVars e1
  | .unknown _ => []
  | .letTemp _ e1 e2 => needs tableVars e1 ++ needs tableVars e2
  | .letMem _ _ _ e1 e2 => needs tableVars e1 ++ needs tableVars e2
  | .ite ce te fe =>
    needs tableVars ce ++ needs tableVars te ++ needs tableVars fe

theorem needs_subset_vars (tableVars : List Var) (e : Exp) :
    ∀ v ∈ needs tableVars e, v ∈ e.vars := by
  induction e with
  | mem w e1 t ih =>
    intro v hv
    rcases List.mem_append.mp hv with hv | hv
    · exact List.mem_cons_of_mem w (ih v hv)
    · split_ifs at hv with h
      · rw [List.mem_singleton] at hv
        exact hv ▸ List.mem_cons_self
      · exact absurd hv List.not_mem_nil
  | _ => simp_all [needs, Exp.vars]; try grind

/-- A rewritten expression has no accesses but to tables, and the variables it
did not have are scalars that the query declares. -/
def Rewritten (tableVars : List Var) (s : State D M) (e e' : Exp) : Prop :=
  ∀ v ∈ e'.vars, v ∈ needs tableVars e' ∧
    (v ∈ needs tableVars e ∨ Noted s v)

namespace Rewritten

variable {tableVars : List Var} {s s' : State D M}

theorem mono (h : Grows s s') {e e' : Exp} (he : Rewritten tableVars s e e') :
    Rewritten tableVars s' e e' :=
  fun v hv => ⟨(he v hv).1, (he v hv).2.imp_right (Noted.mono h)⟩

theorem of_vars {e e1 e' e1' : Exp} (h1 : Rewritten tableVars s e1 e1')
    (hvars : e'.vars = e1'.vars)
    (hneeds : needs tableVars e = needs tableVars e1)
    (hneeds' : needs tableVars e' = needs tableVars e1') :
    Rewritten tableVars s e e' := by
  intro v hv
  rw [hneeds, hneeds']
  exact h1 v (hvars ▸ hv)

theorem append {e e1 e2 e' e1' e2' : Exp} (h1 : Rewritten tableVars s e1 e1')
    (h2 : Rewritten tableVars s e2 e2')
    (hvars : e'.vars = e1'.vars ++ e2'.vars)
    (hneeds : needs tableVars e = needs tableVars e1 ++ needs tableVars e2)
    (hneeds' : needs tableVars e' =
      needs tableVars e1' ++ needs tableVars e2') :
    Rewritten tableVars s e e' := by
  intro v hv
  rw [hvars] at hv
  rw [hneeds, hneeds', List.mem_append, List.mem_append]
  rcases List.mem_append.mp hv with hv | hv
  · exact ⟨.inl (h1 v hv).1, (h1 v hv).2.imp_left .inl⟩
  · exact ⟨.inr (h2 v hv).1, (h2 v hv).2.imp_left .inr⟩

end Rewritten

theorem rewriteForSolver_leads {tableVars : List Var} (e : Exp)
    {s : State D M} (hs : Inv s) (ht : s.tableVars = tableVars) :
    Leads Inv Grows s (rewriteForSolver e)
      (fun e' s' => Rewritten tableVars s' e e') := by
  have hone : ∀ {e e1 : Exp} {f : Exp → Exp} {s : State D M},
      Leads Inv Grows s (rewriteForSolver e1)
        (fun e' s' => Rewritten tableVars s' e1 e') →
      needs tableVars e = needs tableVars e1 →
      (∀ e1', (f e1').vars = e1'.vars) →
      (∀ e1', needs tableVars (f e1') = needs tableVars e1') →
      Leads Inv Grows s (rewriteForSolver e1 >>= fun e1' => pure (f e1'))
        (fun e' s' => Rewritten tableVars s' e e') := by
    intro e e1 f s h hneeds hvars hneeds'
    refine h.bind ?_
    intro e1' s1 hs1 _ h1
    exact .pure hs1 (h1.of_vars (hvars e1') hneeds (hneeds' e1'))
  have htwo : ∀ {e e1 e2 : Exp} {f : Exp → Exp → Exp} {s : State D M},
      Leads Inv Grows s (rewriteForSolver e2)
        (fun e' s' => Rewritten tableVars s' e2 e') →
      (∀ s', Inv s' → Grows s s' → Leads Inv Grows s' (rewriteForSolver e1)
        (fun e' s' => Rewritten tableVars s' e1 e')) →
      needs tableVars e = needs tableVars e1 ++ needs tableVars e2 →
      (∀ e1' e2', (f e1' e2').vars = e1'.vars ++ e2'.vars) →
      (∀ e1' e2', needs tableVars (f e1' e2') =
        needs tableVars e1' ++ needs tableVars e2') →
      Leads Inv Grows s
        (do
          let e2' ← rewriteForSolver e2
          let e1' ← rewriteForSolver e1
          pure (f e1' e2'))
        (fun e' s' => Rewritten tableVars s' e e') := by
    intro e e1 e2 f s h2 h1 hneeds hvars hneeds'
    refine h2.bind ?_
    intro e2' s1 hs1 hg1 hr2
    refine (h1 s1 hs1 hg1).bind ?_
    intro e1' s2 hs2 hg2 hr1
    exact .pure hs2 (hr1.append (hr2.mono hg2) (hvars e1' e2') hneeds
      (hneeds' e1' e2'))
  induction e generalizing s with
  | binOp op e1 e2 ih1 ih2 =>
    exact htwo (ih2 hs ht) (fun s' hs' h => ih1 hs' (h.tableVars.trans ht)) rfl
      (fun _ _ => rfl) fun _ _ => rfl
  | fbinOp op rm e1 e2 ih1 ih2 =>
    exact htwo (ih2 hs ht) (fun s' hs' h => ih1 hs' (h.tableVars.trans ht)) rfl
      (fun _ _ => rfl) fun _ _ => rfl
  | letTemp v e1 e2 ih1 ih2 =>
    exact htwo (ih2 hs ht) (fun s' hs' h => ih1 hs' (h.tableVars.trans ht)) rfl
      (fun _ _ => rfl) fun _ _ => rfl
  | unOp op e1 ih => exact hone (ih hs ht) rfl (fun _ => rfl) fun _ => rfl
  | funOp op rm e1 ih => exact hone (ih hs ht) rfl (fun _ => rfl) fun _ => rfl
  | cast kind ty e1 ih => exact hone (ih hs ht) rfl (fun _ => rfl) fun _ => rfl
  | fcast kind rm ty e1 ih =>
    exact hone (ih hs ht) rfl (fun _ => rfl) fun _ => rfl
  | constant v => exact .pure hs (fun v hv => absurd hv List.not_mem_nil)
  | name l => exact .pure hs (fun v hv => absurd hv List.not_mem_nil)
  | unknown u => exact .pure hs (fun v hv => absurd hv List.not_mem_nil)
  | temp v => exact .pure hs (fun w hw => ⟨hw, .inl hw⟩)
  | letMem v addr ty e1 e2 => exact .throw hs
  | mem v idx ty ih =>
    refine Leads.bind (P := fun a s' => a = s ∧ s' = s)
      (.of_ok (Stateful.run_get s) hs (refl s) ⟨rfl, rfl⟩) ?_
    rintro a s' - - ⟨rfl, rfl⟩
    split_ifs with hv
    · refine (ih hs ht).bind ?_
      intro idx' s1 hs1 _ hr
      refine .pure hs1 ?_
      intro w hw
      rw [ht] at hv
      simp only [needs, hv, if_true, List.mem_append, List.mem_singleton]
      rcases List.mem_cons.mp hw with rfl | hw
      · exact ⟨.inr rfl, .inl (.inr rfl)⟩
      · exact ⟨.inl (hr w hw).1, (hr w hw).2.imp_left .inl⟩
    · refine (rewriteMemToScalar_leads hs _).mono ?_
      rintro e' s' hs' _ ⟨w, rfl, hw⟩
      intro u hu
      rw [Exp.vars, List.mem_singleton] at hu
      subst hu
      exact ⟨List.mem_cons_self, .inr hw⟩
  | ite ce te fe ihc iht ihf =>
    refine (ihf hs ht).bind ?_
    intro fe' s1 hs1 hg1 hrf
    refine (iht hs1 (hg1.tableVars.trans ht)).bind ?_
    intro te' s2 hs2 hg2 hrt
    have hg12 := trans_of Grows hg1 hg2
    refine (ihc hs2 (hg12.tableVars.trans ht)).bind ?_
    intro ce' s3 hs3 hg3 hrc
    refine .pure hs3 ?_
    have hct : Rewritten tableVars s3 (.binOp .plus ce te)
        (.binOp .plus ce' te') :=
      hrc.append (hrt.mono hg3) rfl rfl rfl
    exact hct.append (hrf.mono (trans_of Grows hg2 hg3)) rfl rfl rfl

end Fuzzball.FormulaManager
