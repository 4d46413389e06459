import Fuzzball.FormulaManagerWalk
import Fuzzball.Machine

/-!
# The declarations of a query

The bytes of memory scalars come first, then the axioms by size, then what was
walked.  In this order every definition mentions only earlier variables, also
over a run of queries that share a table of seen variables.
-/

namespace Fuzzball.FormulaManager

open Vine Declarations

variable {D : Domain} {M : Marshal}

/-! ## Keeping the first occurrences -/

theorem mem_listUniqueFrom {h l : List QDecl} {d : QDecl} :
    d ∈ listUniqueFrom h l ↔ d ∈ l ∧ d ∉ h := by
  induction l generalizing h with
  | nil => simp [listUniqueFrom]
  | cons e l ih =>
    unfold listUniqueFrom
    split_ifs with he
    · rw [ih, List.mem_cons]
      constructor
      · rintro ⟨hd, hn⟩
        exact ⟨.inr hd, hn⟩
      · rintro ⟨rfl | hd, hn⟩
        · exact absurd he hn
        · exact ⟨hd, hn⟩
    · rw [List.mem_cons, ih, List.mem_cons, List.mem_cons]
      by_cases hde : d = e
      · subst hde
        simp [he]
      · simp [hde]

theorem nodup_listUniqueFrom (h l : List QDecl) :
    (listUniqueFrom h l).Nodup := by
  induction l generalizing h with
  | nil => exact List.nodup_nil
  | cons e l ih =>
    unfold listUniqueFrom
    split_ifs
    · exact ih h
    · refine List.nodup_cons.mpr ⟨?_, ih _⟩
      rw [mem_listUniqueFrom]
      simp

theorem closed_listUniqueFrom {α : Type} {key : QDecl → α}
    {uses : QDecl → Set α} {A : Set α} {h l : List QDecl}
    (hl : Closed key uses A l) (hh : ∀ d ∈ h, key d ∈ A) :
    Closed key uses A (listUniqueFrom h l) := by
  induction l generalizing h A with
  | nil => trivial
  | cons e l ih =>
    unfold listUniqueFrom
    split_ifs with he
    · have hA : insert (key e) A = A := Set.insert_eq_of_mem (hh e he)
      exact ih (hA ▸ hl.2) hh
    · refine ⟨hl.1, ih hl.2 ?_⟩
      intro d hd
      rcases List.mem_cons.mp hd with rfl | hd
      · exact Set.mem_insert _ _
      · exact Set.mem_insert_of_mem _ (hh d hd)

/-! ## Bytes and axioms -/

def QDecl.vars : QDecl → List Var
  | .inputVar _ => []
  | .tempVar _ e => e.vars
  | .tempArray _ el => el.flatMap Exp.vars

/-- The variables that a declaration mentions. -/
def uses (d : QDecl) : Set Var := {v | v ∈ d.vars}

theorem mem_getMemBytes (ord : HashOrder) {s : State D M} {v : Var} :
    v ∈ getMemBytes ord s ↔ v ∈ s.memByteVars.keys :=
  ((ord.perm s.memByteVars).map Prod.fst).mem_iff

theorem mem_filter_ofType (ord : HashOrder) {s : State D M} {ty : Typ}
    {b : Var × Exp} :
    b ∈ (ord.arrange s.memAxioms).filter (ofType ty) ↔
      b ∈ s.memAxioms ∧ b.1.typ = ty := by
  rw [List.mem_filter, (ord.perm s.memAxioms).mem_iff, ofType,
    decide_eq_true_eq]

theorem mem_getMemAxioms {ord : HashOrder} {s : State D M} (hs : Inv s)
    {b : Var × Exp} : b ∈ getMemAxioms ord s ↔ b ∈ s.memAxioms := by
  simp only [getMemAxioms, List.mem_append, mem_filter_ofType]
  constructor
  · rintro (h | h | h) <;> exact h.1
  · intro hb
    rcases hs.supported b hb with ⟨ht, -⟩ | ⟨ht, -⟩ | ⟨ht, -⟩
    · exact .inl ⟨hb, ht⟩
    · exact .inr (.inl ⟨hb, ht⟩)
    · exact .inr (.inr ⟨hb, ht⟩)

def bytesD (ord : HashOrder) (s : State D M) : List QDecl :=
  (getMemBytes ord s).map QDecl.inputVar

def axiomsD (ord : HashOrder) (s : State D M) : List QDecl :=
  (getMemAxioms ord s).map fun b => QDecl.tempVar b.1 b.2

theorem mem_keys_bytesD (ord : HashOrder) {s : State D M} {v : Var} :
    v ∈ keys qeDeclVar (bytesD ord s) ↔ v ∈ s.memByteVars.keys := by
  rw [mem_keys, ← mem_getMemBytes ord]
  simp [bytesD, qeDeclVar]

theorem mem_keys_axiomsD (ord : HashOrder) {s : State D M} (hs : Inv s)
    {v : Var} :
    v ∈ keys qeDeclVar (axiomsD ord s) ↔ v ∈ s.memAxioms.keys := by
  simp [mem_keys, axiomsD, qeDeclVar, VarHash.keys, mem_getMemAxioms hs]

/-- An axiom mentions only bytes and the axioms of smaller sizes. -/
theorem closed_bytesD_axiomsD (ord : HashOrder) {s : State D M} (hs : Inv s) :
    Closed qeDeclVar uses ∅ (bytesD ord s ++ axiomsD ord s) := by
  have hbytes : Closed qeDeclVar uses ∅ (bytesD ord s) := by
    refine .of_uses ?_
    intro d hd v hv
    obtain ⟨u, -, rfl⟩ := List.mem_map.mp hd
    exact absurd hv List.not_mem_nil
  have hsize : ∀ (ty : Typ) (b : Var × Exp),
      b ∈ (ord.arrange s.memAxioms).filter (ofType ty) →
        Supported s.memByteVars.keys s.memAxioms.keys b ∧ b.1.typ = ty := by
    intro ty b hb
    obtain ⟨hb, ht⟩ := (mem_filter_ofType _).mp hb
    exact ⟨hs.supported b hb, ht⟩
  have hkeys : ∀ (ty : Typ) (v : Var), v.typ = ty → v ∈ s.memAxioms.keys →
      v ∈ keys qeDeclVar (((ord.arrange s.memAxioms).filter (ofType ty)).map
        fun b => QDecl.tempVar b.1 b.2) := by
    intro ty v ht hv
    obtain ⟨b, hb, rfl⟩ := List.mem_map.mp hv
    have hmem := (mem_filter_ofType ord).mpr ⟨hb, ht⟩
    exact mem_keys.mpr ⟨_, List.mem_map_of_mem hmem, rfl⟩
  rw [axiomsD, getMemAxioms, List.map_append, List.map_append]
  refine hbytes.append (.append (.of_uses ?_) (.append (.of_uses ?_)
    (.of_uses ?_)))
  · intro d hd v hv
    obtain ⟨b, hb, rfl⟩ := List.mem_map.mp hd
    obtain ⟨hsup, ht⟩ := hsize .reg16 b hb
    rcases hsup with ⟨-, h⟩ | ⟨ht', -⟩ | ⟨ht', -⟩
    · exact .inr ((mem_keys_bytesD _).mpr (h v hv))
    · exact absurd (ht'.symm.trans ht) (by decide)
    · exact absurd (ht'.symm.trans ht) (by decide)
  · intro d hd v hv
    obtain ⟨b, hb, rfl⟩ := List.mem_map.mp hd
    obtain ⟨hsup, ht⟩ := hsize .reg32 b hb
    rcases hsup with ⟨ht', -⟩ | ⟨-, h⟩ | ⟨ht', -⟩
    · exact absurd (ht'.symm.trans ht) (by decide)
    · exact .inr (hkeys .reg16 v (h v hv).1 (h v hv).2)
    · exact absurd (ht'.symm.trans ht) (by decide)
  · intro d hd v hv
    obtain ⟨b, hb, rfl⟩ := List.mem_map.mp hd
    obtain ⟨hsup, ht⟩ := hsize .reg64 b hb
    rcases hsup with ⟨ht', -⟩ | ⟨ht', -⟩ | ⟨-, h⟩
    · exact absurd (ht'.symm.trans ht) (by decide)
    · exact absurd (ht'.symm.trans ht) (by decide)
    · exact .inr (hkeys .reg32 v (h v hv).1 (h v hv).2)

/-! ## Rewritten declarations -/

/-- A walked declaration and what rewriting makes of it. -/
structure RewrittenDecl (tableVars : List Var) (s : State D M)
    (d d' : QDecl) : Prop where
  key : qeDeclVar d' = qeDeclVar d
  uses : uses d' ⊆ needsOf tableVars d ∪ {v | Noted s v}
  input : ∀ v, d = .inputVar v → d' = .inputVar v

theorem RewrittenDecl.mono {tableVars : List Var} {s s' : State D M}
    (h : Grows s s') {d d' : QDecl} (hd : RewrittenDecl tableVars s d d') :
    RewrittenDecl tableVars s' d d' :=
  ⟨hd.key, hd.uses.trans
    (Set.union_subset_union_right _ fun _ hv => Noted.mono h hv), hd.input⟩

theorem rewriteDecl_leads {tableVars : List Var} {s : State D M} (hs : Inv s)
    (ht : s.tableVars = tableVars) (d : QDecl) :
    Leads Inv Grows s (rewriteDecl d)
      (fun d' s' => RewrittenDecl tableVars s' d d') := by
  cases d with
  | inputVar v =>
    exact .pure hs ⟨rfl, fun v hv => absurd hv List.not_mem_nil, fun _ h => h⟩
  | tempVar v e =>
    refine (rewriteForSolver_leads e hs ht).bind ?_
    intro e' s1 hs1 _ he'
    refine .pure hs1 ⟨rfl, ?_, fun v h => absurd h (by simp)⟩
    intro u hu
    exact (he' u hu).2
  | tempArray v el =>
    refine Leads.bind (Leads.mapM
      (Q := fun e e' s' => Rewritten tableVars s' e e')
      (fun e e' s1 s2 h => Rewritten.mono h) hs ?_) ?_
    · intro e _ s' hs' h
      exact rewriteForSolver_leads e hs' (h.tableVars.trans ht)
    · intro el' s1 hs1 _ hel
      refine .pure hs1 ⟨rfl, ?_, fun v h => absurd h (by simp)⟩
      intro u hu
      obtain ⟨e', he', hu⟩ := List.mem_flatMap.mp hu
      obtain ⟨i, hi, rfl⟩ := List.getElem_of_mem he'
      have hlen := hel.length_eq
      have hpair := List.forall₂_iff_get.mp hel |>.2 i (hlen ▸ hi) hi
      exact (hpair u hu).2.imp_left
        fun hn => ⟨_, List.getElem_mem (hlen ▸ hi), hn⟩

/-! ## The gathered list -/

def memVarsAsIn (ord : HashOrder) (s : State D M) : List QDecl :=
  (getMemAxioms ord s).map fun b => QDecl.inputVar b.1

theorem gatherDecls_eq (ord : HashOrder) (s : State D M) (l : List QDecl) :
    gatherDecls ord s l = listUnique (bytesD ord s ++
      (axiomsD ord s ++ listDifference l (memVarsAsIn ord s))) := rfl

theorem mem_gatherDecls {ord : HashOrder} {s : State D M} {l : List QDecl}
    {d : QDecl} :
    d ∈ gatherDecls ord s l ↔ d ∈ bytesD ord s ∨ d ∈ axiomsD ord s ∨
      (d ∈ l ∧ d ∉ memVarsAsIn ord s) := by
  rw [gatherDecls_eq, listUnique, mem_listUniqueFrom]
  simp [listDifference]

/-- A walked list after rewriting, in the state that rewriting leaves. -/
structure Collected (s : State D M) (walked l : List QDecl) : Prop where
  inv : Inv s
  closed : Closed qeDeclVar (needsOf s.tableVars) ∅ walked
  unique : (walked.map qeDeclVar).Nodup
  defined : ∀ d ∈ walked, Defines s d
  rewritten : List.Forall₂ (RewrittenDecl s.tableVars s) walked l

namespace Collected

variable {ord : HashOrder} {s : State D M} {walked l : List QDecl}

theorem keys_eq (h : Collected s walked l) :
    l.map qeDeclVar = walked.map qeDeclVar := by
  have hall := h.rewritten
  clear h
  induction hall with
  | nil => rfl
  | cons hd _ ih => rw [List.map_cons, List.map_cons, hd.key, ih]

/-- The walked declaration of an input is not changed by rewriting. -/
theorem input (h : Collected s walked l) {d : QDecl} (hd : d ∈ l)
    {str : OString} (hstr : s.inputVars str = some (qeDeclVar d)) :
    d = .inputVar (qeDeclVar d) := by
  obtain ⟨i, hi, rfl⟩ := List.getElem_of_mem hd
  have hlen := h.rewritten.length_eq
  have hpair := List.forall₂_iff_get.mp h.rewritten |>.2 i (hlen ▸ hi) hi
  have hdef := h.defined _ (List.get_mem walked ⟨i, hlen ▸ hi⟩)
  change RewrittenDecl s.tableVars s (walked.get ⟨i, hlen ▸ hi⟩) l[i] at hpair
  generalize walked.get ⟨i, hlen ▸ hi⟩ = c at hpair hdef
  rw [hpair.key] at hstr ⊢
  cases c with
  | inputVar v => exact hpair.input v rfl
  | tempVar v e =>
    exact absurd hstr ((exprTemp_spec h.inv hdef.1 hdef.2).2 str)
  | tempArray v el => exact absurd hstr ((h.inv.table v el hdef).2.2 str)

theorem known (h : Collected s walked l) {d : QDecl} (hd : d ∈ l) :
    Known s (qeDeclVar d) := by
  have hkey : qeDeclVar d ∈ walked.map qeDeclVar :=
    h.keys_eq ▸ List.mem_map_of_mem hd
  obtain ⟨c, hc, hcd⟩ := List.mem_map.mp hkey
  rw [← hcd]
  have hdef := h.defined c hc
  cases c with
  | inputVar v => exact hdef.1
  | tempVar v e => exact hdef.1
  | tempArray v el => exact (h.inv.table v el hdef).1

theorem closed_gatherDecls (h : Collected s walked l) :
    Closed qeDeclVar uses ∅ (gatherDecls ord s l) := by
  have hmem := closed_bytesD_axiomsD ord h.inv
  have hnoted : {v | Noted s v} ⊆
      ∅ ∪ keys qeDeclVar (bytesD ord s ++ axiomsD ord s) := by
    intro v hv
    rw [keys_append]
    exact .inr (hv.imp (mem_keys_bytesD _).mpr (mem_keys_axiomsD _ h.inv).mpr)
  have hl : Closed qeDeclVar uses
      (∅ ∪ keys qeDeclVar (bytesD ord s ++ axiomsD ord s)) l := by
    refine (h.closed.mono (Set.empty_subset _)).rewrite hnoted ?_
    exact h.rewritten.imp fun d e hde => ⟨hde.key, hde.uses⟩
  rw [gatherDecls_eq, ← List.append_assoc]
  refine closed_listUniqueFrom (hmem.append (hl.filter ?_))
    fun d hd => absurd hd List.not_mem_nil
  intro d _ hd
  have hin : d ∈ memVarsAsIn ord s := by simpa using hd
  obtain ⟨b, hb, rfl⟩ := List.mem_map.mp hin
  rw [keys_append]
  exact .inr (.inr (key_mem_keys (d := QDecl.tempVar b.1 b.2)
    (List.mem_map_of_mem hb)))

/-- A declared variable says which of the parts its declaration is in. -/
theorem mem_cases (h : Collected s walked l) {d : QDecl}
    (hd : d ∈ gatherDecls ord s l) :
    (qeDeclVar d ∈ s.memByteVars.keys ∧ d = .inputVar (qeDeclVar d)) ∨
      (qeDeclVar d ∉ s.memByteVars.keys ∧ qeDeclVar d ∈ s.memAxioms.keys ∧
        ∃ e, d = .tempVar (qeDeclVar d) e ∧ (qeDeclVar d, e) ∈ s.memAxioms) ∨
      (qeDeclVar d ∉ s.memByteVars.keys ∧ qeDeclVar d ∉ s.memAxioms.keys ∧
        d ∈ l) := by
  have happart : ∀ v ∈ s.memAxioms.keys, v ∉ s.memByteVars.keys := by
    intro v hv hbyte
    obtain ⟨ty, hne, hty⟩ := h.inv.scalars v hv
    exact hne (h.inv.scalar_typ_unique hty (h.inv.bytes v hbyte))
  rcases mem_gatherDecls.mp hd with hd | hd | ⟨hd, hnot⟩
  · obtain ⟨v, hv, rfl⟩ := List.mem_map.mp hd
    exact .inl ⟨(mem_getMemBytes _).mp hv, rfl⟩
  · obtain ⟨b, hb, rfl⟩ := List.mem_map.mp hd
    have hb' := (mem_getMemAxioms h.inv).mp hb
    have hkey : b.1 ∈ s.memAxioms.keys := List.mem_map_of_mem hb'
    exact .inr (.inl ⟨happart _ hkey, hkey, b.2, rfl, hb'⟩)
  · by_cases hbyte : qeDeclVar d ∈ s.memByteVars.keys
    · obtain ⟨str, hstr⟩ := (h.inv.bytes _ hbyte).input
      exact .inl ⟨hbyte, h.input hd hstr⟩
    · refine .inr (.inr ⟨hbyte, ?_, hd⟩)
      intro hax
      obtain ⟨ty, -, hty⟩ := h.inv.scalars _ hax
      obtain ⟨str, hstr⟩ := hty.input
      obtain ⟨b, hb, hbd⟩ := List.mem_map.mp hax
      refine hnot ?_
      rw [h.input hd hstr, ← hbd]
      exact List.mem_map.mpr ⟨b, (mem_getMemAxioms h.inv).mpr hb, rfl⟩

theorem known_gatherDecls (h : Collected s walked l) {d : QDecl}
    (hd : d ∈ gatherDecls ord s l) : Known s (qeDeclVar d) := by
  rcases h.mem_cases hd with ⟨hk, -⟩ | ⟨-, hk, -⟩ | ⟨-, -, hl⟩
  · exact h.inv.known_bytes _ hk
  · exact h.inv.known_scalars _ hk
  · exact h.known hl

theorem unique_gatherDecls (h : Collected s walked l) :
    ((gatherDecls ord s l).map qeDeclVar).Nodup := by
  have hax : ∀ {b c : Var × Exp}, b ∈ s.memAxioms → c ∈ s.memAxioms →
      b.1 = c.1 → b = c :=
    fun hb hc hbc => List.inj_on_of_nodup_map h.inv.unique hb hc hbc
  have hl : ∀ {d e : QDecl}, d ∈ l → e ∈ l → qeDeclVar d = qeDeclVar e →
      d = e :=
    fun hd he hde =>
      List.inj_on_of_nodup_map (h.keys_eq ▸ h.unique) hd he hde
  refine List.Nodup.map_on ?_ (nodup_listUniqueFrom _ _)
  intro d hd e he hde
  rcases h.mem_cases hd with ⟨hd1, hd2⟩ | ⟨hd1, hd2, x, hd3, hd4⟩ |
    ⟨hd1, hd2, hd3⟩
  · rcases h.mem_cases he with ⟨-, he2⟩ | ⟨he1, -⟩ | ⟨he1, -⟩
    · rw [hd2, he2, hde]
    · exact absurd (hde ▸ hd1) he1
    · exact absurd (hde ▸ hd1) he1
  · rcases h.mem_cases he with ⟨he1, -⟩ | ⟨-, -, y, he3, he4⟩ | ⟨-, he2, -⟩
    · exact absurd (hde ▸ he1) hd1
    · have hxy := hax hd4 he4 hde
      rw [Prod.mk.injEq] at hxy
      rw [hd3, he3, hxy.1, hxy.2]
    · exact absurd (hde ▸ hd2) he2
  · rcases h.mem_cases he with ⟨he1, -⟩ | ⟨-, he2, -⟩ | ⟨-, -, he3⟩
    · exact absurd (hde ▸ he1) hd1
    · exact absurd (hde ▸ he2) hd2
    · exact hl hd3 he3 hde

/-- Every scalar that was noted and every variable that was walked is
declared. -/
theorem mem_keys_gatherDecls (h : Collected s walked l) {v : Var}
    (hv : Noted s v ∨ v ∈ keys qeDeclVar walked) :
    v ∈ keys qeDeclVar (gatherDecls ord s l) := by
  have hnoted : Noted s v → v ∈ keys qeDeclVar (gatherDecls ord s l) := by
    rintro (hv | hv)
    · obtain ⟨d, hd, rfl⟩ := mem_keys.mp ((mem_keys_bytesD ord).mpr hv)
      exact key_mem_keys (mem_gatherDecls.mpr (.inl hd))
    · obtain ⟨d, hd, rfl⟩ :=
        mem_keys.mp ((mem_keys_axiomsD ord h.inv).mpr hv)
      exact key_mem_keys (mem_gatherDecls.mpr (.inr (.inl hd)))
  rcases hv with hv | hv
  · exact hnoted hv
  · have hv' : v ∈ l.map qeDeclVar := by
      rw [h.keys_eq]
      exact hv
    obtain ⟨d, hd, rfl⟩ := List.mem_map.mp hv'
    by_cases hin : d ∈ memVarsAsIn ord s
    · obtain ⟨b, hb, rfl⟩ := List.mem_map.mp hin
      refine hnoted (.inr ?_)
      exact List.mem_map_of_mem ((mem_getMemAxioms h.inv).mp hb)
    · exact key_mem_keys (mem_gatherDecls.mpr (.inr (.inr ⟨hd, hin⟩)))

end Collected

theorem Defines.mono {s s' : State D M} (h : Grows s s') {d : QDecl}
    (hd : Defines s d) : Defines s' d := by
  have htemp : ∀ v, exprTemp s' v = exprTemp s v := by
    intro v
    rw [exprTemp, exprTemp, h.temp]
  have htable : ∀ v, tableOf s' v = tableOf s v := by
    intro v
    rw [tableOf, tableOf, h.tableVars, h.tablesByIdx]
  cases d with
  | inputVar v => exact ⟨hd.1.mono h.vars, (htemp v).trans hd.2⟩
  | tempVar v e => exact ⟨hd.1.mono h.vars, (htemp v).trans hd.2⟩
  | tempArray v el => exact (htable v).trans hd

/-- The declarations and the condition that one query collects. -/
structure Gathers (s : State D M) (r : List QDecl × Exp) : Prop where
  closed : Closed qeDeclVar uses ∅ r.1
  unique : (r.1.map qeDeclVar).Nodup
  known : ∀ d ∈ r.1, Known s (qeDeclVar d)
  condition : ∀ v ∈ r.2.vars, v ∈ keys qeDeclVar r.1

theorem collectDecls_leads (ord : HashOrder) {s : State D M} (hs : Inv s)
    {cond : Exp} (hcond : ∀ v ∈ cond.vars, Known s v) :
    Leads Inv Grows s (collectDecls ord cond) (fun r s' => Gathers s' r) := by
  refine (rewriteForSolver_leads cond hs rfl).bind ?_
  intro cond' s1 hs1 h1 hr
  rw [← h1.tableVars] at hr
  have hneeds : ∀ v ∈ needs s1.tableVars cond', Known s1 v := by
    intro v hv
    rcases (hr v (needs_subset_vars _ cond' v hv)).2 with hv | hv
    · exact (hcond v (needs_subset_vars _ cond v hv)).mono h1.vars
    · exact hs1.known_noted hv
  have hwalked := walkDecls_walked hs1 hneeds
  refine Leads.bind (P := fun a s' => s1 = a ∧ s1 = s')
    (.of_ok (Stateful.run_get s1) hs1 (refl s1) ⟨rfl, rfl⟩) ?_
  rintro a s' - - ⟨rfl, rfl⟩
  refine Leads.bind (Leads.mapM
    (Q := fun d d' s' => RewrittenDecl s1.tableVars s' d d')
    (fun d d' s2 s3 h => RewrittenDecl.mono h) hs1 ?_) ?_
  · intro d _ s' hs' h
    exact rewriteDecl_leads hs' h.tableVars d
  · intro l s2 hs2 h2 hl
    have hcollected : Collected s2 (walkDecls s1 cond') l :=
      ⟨hs2, h2.tableVars ▸ hwalked.closed, hwalked.unique,
        fun d hd => (hwalked.defined d hd).mono h2, h2.tableVars ▸ hl⟩
    refine Leads.bind (P := fun b s' => s2 = b ∧ s2 = s')
      (.of_ok (Stateful.run_get s2) hs2 (refl s2) ⟨rfl, rfl⟩) ?_
    rintro b s' - - ⟨rfl, rfl⟩
    refine .pure hs2 ⟨hcollected.closed_gatherDecls,
      hcollected.unique_gatherDecls,
      fun d hd => hcollected.known_gatherDecls hd, ?_⟩
    intro v hv
    exact hcollected.mem_keys_gatherDecls
      (.inr (hwalked.visited v (hr v hv).1))

/-! ## One query -/

/-- With the tables of scalars put back, a state has the invariant. -/
theorem Inv.restore {s s' : State D M} (hs : Inv s)
    (h : Grows { s with memByteVars := [], memAxioms := [] } s')
    (hs' : Inv s') :
    Inv { s' with memByteVars := s.memByteVars, memAxioms := s.memAxioms } := by
  refine ⟨hs'.input, hs'.fits, hs'.temp, hs'.table, hs'.length, ?_, ?_,
    hs.supported, hs.unique⟩
  · intro v hv
    exact (hs.bytes v hv).mono h.input
  · intro v hv
    obtain ⟨ty, hne, hty⟩ := hs.scalars v hv
    exact ⟨ty, hne, hty.mono h.input⟩

theorem withSavedMemAxioms_run {α : Type} {f : FM D M α} {s : State D M}
    (hs : Inv s) {P : α → State D M → Prop}
    (hf : Leads Inv Grows { s with memByteVars := [], memAxioms := [] } f P) :
    Inv ((withSavedMemAxioms f).run s).2 ∧
      ∀ a, ((withSavedMemAxioms f).run s).1 = .ok a →
        ∃ s', Inv s' ∧ P a s' := by
  have hset : (withSavedMemAxioms f).run s =
      Stateful.run (f >>= fun r => do
        modify fun s' => { s' with
          memByteVars := s.memByteVars, memAxioms := s.memAxioms }
        pure r) { s with memByteVars := [], memAxioms := [] } := by
    rw [withSavedMemAxioms, Stateful.run_bind_ok (Stateful.run_get s),
      Stateful.run_bind_ok (Stateful.run_set s _)]
  obtain ⟨hI, hgrows, hP⟩ := hf
  rw [hset]
  rcases hrun : f.run { s with memByteVars := [], memAxioms := [] }
    with ⟨e | a, s'⟩
  · rw [hrun] at hI
    rw [Stateful.run_bind_error hrun]
    exact ⟨hI, fun a ha => by cases ha⟩
  · rw [hrun] at hI hgrows hP
    rw [Stateful.run_bind_ok hrun,
      Stateful.run_bind_ok (Stateful.run_modify _ s')]
    refine ⟨hs.restore hgrows hI, fun b hb => ?_⟩
    cases hb
    exact ⟨s', hI, hP a rfl⟩

/-- The number by which a declared variable is known. -/
def declId (d : QDecl) : ℤ := (qeDeclVar d).id

def useIds (d : QDecl) : Set ℤ := {i | ∃ v ∈ d.vars, v.id = i}

def VarHash.ids {α : Type} (h : VarHash α) : Set ℤ := {i | ∃ b ∈ h, b.1.id = i}

theorem VarHash.mem_ids {α : Type} {h : VarHash α} {v : Var} :
    v.id ∈ h.ids ↔ h.mem v = true := by
  simp [VarHash.ids, VarHash.mem]

theorem VarHash.ids_replace {α : Type} (h : VarHash α) (v : Var) (a : α) :
    (h.replace v a).ids = insert v.id h.ids := by
  ext i
  simp only [VarHash.ids, Set.mem_ofPred_eq, VarHash.mem_replace,
    Set.mem_insert_iff]
  constructor
  · rintro ⟨b, rfl | ⟨hb, -⟩, rfl⟩
    · exact .inl rfl
    · exact .inr ⟨b, hb, rfl⟩
  · rintro (rfl | ⟨b, hb, rfl⟩)
    · exact ⟨(v, a), .inl rfl, rfl⟩
    · by_cases hid : b.1.id = v.id
      · exact ⟨(v, a), .inl rfl, hid.symm⟩
      · exact ⟨b, .inr ⟨hb, hid⟩, rfl⟩

theorem ids_seenHash (h : VarHash Unit) (l : List QDecl) :
    VarHash.ids ((l.map qeDeclVar).foldl (fun h v => h.replace v ()) h) =
      h.ids ∪ keys declId l := by
  induction l generalizing h with
  | nil => simp
  | cons d l ih =>
    rw [List.map_cons, List.foldl_cons, ih, VarHash.ids_replace, keys_cons,
      Set.insert_union, Set.union_insert, declId]

/-- What queries that share a table of seen variables emit: declarations in
dependency order of variables not seen before, without repetitions, and
conditions over what was declared or seen. -/
structure Emits (seen : Set ℤ) (qs : List Query) : Prop where
  closed : Closed declId useIds seen (qs.flatMap Query.qdecls)
  unique : ((qs.flatMap Query.qdecls).map declId).Nodup
  unseen : ∀ d ∈ qs.flatMap Query.qdecls, declId d ∉ seen
  conditions : ∀ l q r, qs = l ++ q :: r → ∀ v ∈ q.condExpr.vars,
    v.id ∈ seen ∪ keys declId ((l ++ [q]).flatMap Query.qdecls)

theorem Emits.nil (seen : Set ℤ) : Emits seen [] :=
  ⟨trivial, List.nodup_nil, fun d hd => absurd hd List.not_mem_nil,
    fun l q r h => absurd h (by simp)⟩

theorem Emits.cons {seen : Set ℤ} {q : Query} {qs : List Query}
    (hq : Emits seen [q])
    (hqs : Emits (seen ∪ keys declId q.qdecls) qs) : Emits seen (q :: qs) := by
  obtain ⟨hclosed, hunique, hunseen, hcond⟩ := hq
  rw [List.flatMap_singleton] at hclosed hunique hunseen
  refine ⟨hclosed.append hqs.closed, ?_, ?_, ?_⟩
  · rw [List.flatMap_cons, List.map_append]
    refine hunique.append hqs.unique ?_
    intro i hi hi'
    obtain ⟨d, hd, rfl⟩ := List.mem_map.mp hi'
    exact hqs.unseen d hd (.inr hi)
  · intro d hd
    rw [List.flatMap_cons] at hd
    rcases List.mem_append.mp hd with hd | hd
    · exact hunseen d hd
    · exact fun h => hqs.unseen d hd (.inl h)
  · intro l c r h v hv
    cases l with
    | nil =>
      obtain ⟨rfl, -⟩ := List.cons_eq_cons.mp h
      exact hcond [] q [] rfl v hv
    | cons b l =>
      obtain ⟨rfl, htail⟩ := List.cons_eq_cons.mp h
      have hv' := hqs.conditions l c r htail v hv
      rwa [List.cons_append, List.flatMap_cons, keys_append,
        ← Set.union_assoc]

/-- The filter by the seen table keeps the order of a collected list. -/
theorem Gathers.emits {s : State D M} {r : List QDecl × Exp}
    (h : Gathers s r) (seenHash : VarHash Unit) {q : Query}
    (hdecls : q.qdecls = r.1.filter fun d => !seenHash.mem (qeDeclVar d))
    (hcond : q.condExpr = r.2) : Emits seenHash.ids [q] := by
  have hclosed : Closed declId useIds ∅ r.1 := by
    have himage := h.closed.image Var.id
    rwa [Set.image_empty] at himage
  have hunique : (r.1.map declId).Nodup := by
    have hnodup : r.1.Nodup := h.unique.of_map _
    refine hnodup.map_on ?_
    intro d hd e he hde
    exact List.inj_on_of_nodup_map h.unique hd he
      ((h.known d hd).eq_of_id (h.known e he) hde)
  have hseen : ∀ d ∈ r.1, (!seenHash.mem (qeDeclVar d)) = false →
      declId d ∈ seenHash.ids := by
    intro d _ hd
    exact VarHash.mem_ids.mpr (by simpa using hd)
  refine ⟨?_, ?_, ?_, ?_⟩
  · rw [List.flatMap_singleton, hdecls]
    exact (hclosed.mono (Set.empty_subset _)).filter hseen
  · rw [List.flatMap_singleton, hdecls]
    exact hunique.sublist (List.filter_sublist.map declId)
  · intro d hd
    rw [List.flatMap_singleton, hdecls] at hd
    have hmem := (List.mem_filter.mp hd).2
    rw [declId, VarHash.mem_ids]
    simpa using hmem
  · intro l c r' hl v hv
    obtain ⟨rfl, hc⟩ : l = [] ∧ q = c := by
      cases l with
      | nil => exact ⟨rfl, (List.cons_eq_cons.mp hl).1⟩
      | cons b l => simp at hl
    subst hc
    rw [hcond] at hv
    obtain ⟨d, hd, rfl⟩ := mem_keys.mp (h.condition v hv)
    rw [List.nil_append, List.flatMap_singleton]
    by_cases hmem : seenHash.mem (qeDeclVar d) = true
    · exact .inl (VarHash.mem_ids.mpr hmem)
    · have hnew : d ∈ q.qdecls := by
        rw [hdecls, List.mem_filter]
        exact ⟨hd, by simpa using hmem⟩
      exact .inr (key_mem_keys hnew)

theorem oneCondForSolving_run (ord : HashOrder) {s : State D M} (hs : Inv s)
    {cond : Exp} (hcond : ∀ v ∈ cond.vars, Known s v) (seenHash : VarHash Unit) :
    Inv ((oneCondForSolving ord cond seenHash).run s).2 ∧
      ∀ q, ((oneCondForSolving ord cond seenHash).run s).1 = .ok q →
        Emits seenHash.ids [q] ∧
          q.seenHash.ids = seenHash.ids ∪ keys declId q.qdecls := by
  have hfresh : Inv { s with memByteVars := [], memAxioms := [] } :=
    ⟨hs.input, hs.fits, hs.temp, hs.table, hs.length,
      fun v hv => absurd hv List.not_mem_nil,
      fun v hv => absurd hv List.not_mem_nil,
      fun b hb => absurd hb List.not_mem_nil, List.nodup_nil⟩
  obtain ⟨hI, hP⟩ := withSavedMemAxioms_run hs
    (collectDecls_leads ord hfresh hcond)
  unfold oneCondForSolving
  rcases hrun : (withSavedMemAxioms (collectDecls ord cond)).run s
    with ⟨e | r, s'⟩
  · rw [hrun] at hI
    rw [Stateful.run_bind_error hrun]
    exact ⟨hI, fun q hq => by cases hq⟩
  · rw [hrun] at hI hP
    rw [Stateful.run_bind_ok hrun]
    refine ⟨hI, fun q hq => ?_⟩
    cases hq
    obtain ⟨s1, -, hgathers⟩ := hP r rfl
    exact ⟨hgathers.emits seenHash rfl rfl, ids_seenHash seenHash _⟩

end Fuzzball.FormulaManager
