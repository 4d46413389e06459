import Fuzzball.FormulaManagerMemory

/-!
# The walk through definitions

The walk declares every variable it visits once, after the variables that the
definition needs.  Variables whose definitions are being walked are marked but
not declared; they were all made later than the variable at hand.
-/

namespace Fuzzball.FormulaManager

open Vine Declarations

variable {D : Domain} {M : Marshal}

/-- The variables that the definition in a declaration visits. -/
def needsOf (tableVars : List Var) : QDecl → Set Var
  | .inputVar _ => ∅
  | .tempVar _ e => {v | v ∈ needs tableVars e}
  | .tempArray _ el => {v | ∃ e ∈ el, v ∈ needs tableVars e}

/-- A declaration that says of its variable what the manager does. -/
def Defines (s : State D M) : QDecl → Prop
  | .inputVar v => Known s v ∧ exprTemp s v = none
  | .tempVar v e => Known s v ∧ exprTemp s v = some e
  | .tempArray v el => tableOf s v = some el

theorem exprTemp_spec {s : State D M} (hs : Inv s) {v : Var} {e : Exp}
    (hv : Known s v) (h : exprTemp s v = some e) :
    (∀ u ∈ e.vars, Known s u ∧ u.id < v.id) ∧
      ∀ str, s.inputVars str ≠ some v := by
  obtain ⟨b, hb, rfl⟩ := Option.map_eq_some_iff.mp h
  have hid : b.1.id = v.id := by simpa using List.find?_some hb
  obtain ⟨hknown, hvars, hinput⟩ := hs.temp b (List.mem_of_find?_eq_some hb)
  obtain rfl := hknown.eq_of_id hv hid
  exact ⟨hvars, hinput⟩

theorem tableOf_isSome {s : State D M} (hs : Inv s) {v : Var}
    (hv : v ∈ s.tableVars) : ∃ el, tableOf s v = some el := by
  obtain ⟨i, hi⟩ := Option.isSome_iff_exists.mp (List.isSome_idxOf?.mpr hv)
  obtain ⟨hlt, -⟩ := List.idxOf?_eq_some_iff.mp hi
  have hlt' : i < s.tablesByIdx.length := hs.length ▸ hlt
  refine ⟨s.tablesByIdx[i], ?_⟩
  rw [tableOf, hi, Option.bind_some, List.getElem?_eq_getElem hlt']

theorem tableOf_none {s : State D M} {v : Var} (hv : v ∉ s.tableVars) :
    tableOf s v = none := by
  rw [tableOf, List.idxOf?_eq_none_iff.mpr hv, Option.bind_none]

theorem mem_tableVars {s : State D M} {v : Var} {el : List Exp}
    (h : tableOf s v = some el) : v ∈ s.tableVars := by
  by_contra hv
  rw [tableOf_none hv] at h
  exact absurd h (by simp)

/-! ## Marks and declarations -/

def declared (w : Walk) : Set Var := keys qeDeclVar w.declsL

structure Good (s : State D M) (opened : Set Var) (w : Walk) : Prop where
  known : ∀ v ∈ w.seenVars.keys, Known s v
  seen : ∀ v, v ∈ w.seenVars.keys ↔ v ∈ opened ∨ v ∈ declared w
  apart : ∀ v ∈ opened, v ∉ declared w
  unique : (w.declsL.map qeDeclVar).Nodup
  closed : Closed qeDeclVar (needsOf s.tableVars) ∅ w.declsL.reverse
  defined : ∀ d ∈ w.declsL, Defines s d

theorem good_empty (s : State D M) : Good s ∅ ⟨[], []⟩ := by
  constructor <;> simp [VarHash.keys, declared, Closed]

namespace Good

variable {s : State D M} {opened : Set Var} {w : Walk} {v : Var}

theorem mem_seen (h : Good s opened w) (hv : Known s v) :
    w.seenVars.mem v = true ↔ v ∈ opened ∨ v ∈ declared w := by
  rw [VarHash.mem_iff, ← h.seen]
  constructor
  · rintro ⟨u, hu, hid⟩
    exact (h.known u hu).eq_of_id hv hid ▸ hu
  · intro hu
    exact ⟨v, hu, rfl⟩

theorem see (h : Good s opened w) (hv : Known s v)
    (hseen : w.seenVars.mem v = false) : Good s (insert v opened) (w.see v) := by
  have hnot : v ∉ opened ∧ v ∉ declared w := by
    rw [← not_or, ← h.mem_seen hv, hseen]
    simp
  have hkeys : ∀ u, u ∈ (w.see v).seenVars.keys ↔ u = v ∨ u ∈ w.seenVars.keys := by
    intro u
    rw [Walk.see, VarHash.mem_keys_replace]
    refine or_congr_right (and_iff_left_of_imp ?_)
    intro hu hid
    have huv := (h.known u hu).eq_of_id hv hid
    subst huv
    exact ((h.seen u).mp hu).elim hnot.1 hnot.2
  refine ⟨?_, ?_, ?_, h.unique, h.closed, h.defined⟩
  · intro u hu
    rcases (hkeys u).mp hu with rfl | hu
    · exact hv
    · exact h.known u hu
  · intro u
    rw [hkeys, h.seen, Set.mem_insert_iff, or_assoc]
    rfl
  · intro u hu
    rcases Set.mem_insert_iff.mp hu with rfl | hu
    · exact hnot.2
    · exact h.apart u hu

theorem declare (h : Good s (insert v opened) w) (hv : v ∉ opened) {d : QDecl}
    (hd : qeDeclVar d = v) (hneeds : needsOf s.tableVars d ⊆ declared w)
    (hdef : Defines s d) : Good s opened (w.declare d) := by
  have hdecl : declared (w.declare d) = insert v (declared w) := by
    rw [declared, Walk.declare, keys_cons, hd, declared]
  have hfresh : v ∉ declared w := h.apart v (Set.mem_insert v opened)
  refine ⟨h.known, ?_, ?_, ?_, ?_, ?_⟩
  · intro u
    change u ∈ w.seenVars.keys ↔ _
    rw [h.seen, hdecl, Set.mem_insert_iff, Set.mem_insert_iff]
    tauto
  · intro u hu
    rw [hdecl]
    rintro (rfl | hin)
    · exact hv hu
    · exact h.apart u (Set.mem_insert_of_mem v hu) hin
  · refine List.nodup_cons.mpr ⟨?_, h.unique⟩
    rw [hd]
    exact hfresh
  · have hrev : (w.declare d).declsL.reverse = w.declsL.reverse ++ [d] :=
      List.reverse_cons
    rw [hrev]
    refine h.closed.snoc (hneeds.trans ?_)
    intro u hu
    obtain ⟨c, hc, rfl⟩ := mem_keys.mp hu
    exact .inr (key_mem_keys (List.mem_reverse.mpr hc))
  · intro c hc
    rcases List.mem_cons.mp hc with rfl | hc
    · exact hdef
    · exact h.defined c hc

end Good

/-- What a part of the walk does: it ends with the same open variables and has
declared those it was to visit. -/
structure Visits (s : State D M) (opened : Set Var) (vs : Set Var)
    (w w' : Walk) : Prop where
  good : Good s opened w'
  mono : declared w ⊆ declared w'
  visited : vs ⊆ declared w'

namespace Visits

variable {s : State D M} {opened : Set Var} {w w' w'' : Walk}

theorem refl (h : Good s opened w) : Visits s opened ∅ w w :=
  ⟨h, subset_rfl, Set.empty_subset _⟩

theorem trans {vs vs' : Set Var} (h : Visits s opened vs w w')
    (h' : Visits s opened vs' w' w'') : Visits s opened (vs ∪ vs') w w'' :=
  ⟨h'.good, h.mono.trans h'.mono,
    Set.union_subset (h.visited.trans h'.mono) h'.visited⟩

theorem of_subset {vs vs' : Set Var} (h : Visits s opened vs w w')
    (hsub : vs' ⊆ vs) : Visits s opened vs' w w' :=
  ⟨h.good, h.mono, hsub.trans h.visited⟩

theorem declare {v : Var} {d : QDecl} {vs : Set Var}
    (h : Visits s (insert v opened) vs (w.see v) w') (hv : v ∉ opened)
    (hd : qeDeclVar d = v) (hneeds : needsOf s.tableVars d ⊆ vs)
    (hdef : Defines s d) : Visits s opened {v} w (w'.declare d) := by
  have hdecl : declared (w'.declare d) = insert v (declared w') := by
    rw [declared, Walk.declare, keys_cons, hd, declared]
  refine ⟨h.good.declare hv hd (hneeds.trans h.visited) hdef, ?_, ?_⟩
  · rw [hdecl]
    exact (show declared w ⊆ declared w' from h.mono).trans
      (Set.subset_insert _ _)
  · rw [hdecl, Set.singleton_subset_iff]
    exact Set.mem_insert v _

end Visits

/-- A known variable made before all that are open. -/
def Below (s : State D M) (opened : Set Var) (depth : ℕ) (v : Var) : Prop :=
  Known s v ∧ v.id < depth ∧ ∀ u ∈ opened, v.id < u.id

/-- A function that walks expressions whose variables are below a depth. -/
def WalksTo (s : State D M) (depth : ℕ) (recurse : Exp → Walk → Walk) : Prop :=
  ∀ e opened w, Good s opened w →
    (∀ u ∈ needs s.tableVars e, Below s opened depth u) →
    Visits s opened {v | v ∈ needs s.tableVars e} w (recurse e w)

theorem visits_foldl
    {s : State D M} {depth : ℕ} {recurse : Exp → Walk → Walk}
    (hrec : WalksTo s depth recurse) {opened : Set Var} (el : List Exp)
    {w : Walk} (hw : Good s opened w)
    (hel : ∀ e ∈ el, ∀ u ∈ needs s.tableVars e, Below s opened depth u) :
    Visits s opened {v | ∃ e ∈ el, v ∈ needs s.tableVars e} w
      (el.foldl (fun w e => recurse e w) w) := by
  induction el generalizing w with
  | nil => exact (Visits.refl hw).of_subset (by simp)
  | cons e el ih =>
    have he := hrec e opened w hw (hel e List.mem_cons_self)
    have hrest := ih he.good fun c hc => hel c (List.mem_cons_of_mem e hc)
    refine (he.trans hrest).of_subset ?_
    rintro v ⟨c, hc, hv⟩
    rcases List.mem_cons.mp hc with rfl | hc
    · exact .inl hv
    · exact .inr ⟨c, hc, hv⟩

theorem visitTemp_visits {s : State D M} (hs : Inv s) {depth : ℕ}
    {recurse : Exp → Walk → Walk} (hrec : WalksTo s depth recurse)
    {opened : Set Var} {v : Var} (hv : Below s opened (depth + 1) v) {w : Walk}
    (hw : Good s opened w) :
    Visits s opened {v} w (visitTemp s recurse v w) := by
  obtain ⟨hknown, hdepth, hbelow⟩ := hv
  have hopen : v ∉ opened := fun h => lt_irrefl _ (hbelow v h)
  unfold visitTemp
  split_ifs with hseen
  · have hdecl := ((hw.mem_seen hknown).mp hseen).resolve_left hopen
    exact ⟨hw, subset_rfl, Set.singleton_subset_iff.mpr hdecl⟩
  · rw [Bool.not_eq_true] at hseen
    have hsee := hw.see hknown hseen
    cases he : exprTemp s v with
    | some e =>
      have hvars := (exprTemp_spec hs hknown he).1
      have hwalk := hrec e (insert v opened) (w.see v) hsee ?_
      · exact hwalk.declare hopen rfl subset_rfl ⟨hknown, he⟩
      · intro u hu
        obtain ⟨huknown, hlt⟩ := hvars u (needs_subset_vars _ e u hu)
        refine ⟨huknown, by push_cast at hdepth; omega, ?_⟩
        rintro t (rfl | ht)
        · exact hlt
        · exact hlt.trans (hbelow t ht)
    | none =>
      exact (Visits.refl hsee).declare hopen rfl subset_rfl ⟨hknown, he⟩

theorem visitMem_visits {s : State D M} (hs : Inv s) {depth : ℕ}
    {recurse : Exp → Walk → Walk} (hrec : WalksTo s depth recurse)
    {opened : Set Var} {v : Var}
    (hv : v ∈ s.tableVars → Below s opened (depth + 1) v) {w : Walk}
    (hw : Good s opened w) :
    Visits s opened {u | u = v ∧ v ∈ s.tableVars} w
      (visitMem s recurse v w) := by
  by_cases htable : v ∈ s.tableVars
  · obtain ⟨hknown, hdepth, hbelow⟩ := hv htable
    have hopen : v ∉ opened := fun h => lt_irrefl _ (hbelow v h)
    have hset : {u | u = v ∧ v ∈ s.tableVars} = {v} := by
      ext u
      simp [htable]
    rw [hset]
    unfold visitMem
    split_ifs with hseen
    · have hdecl := ((hw.mem_seen hknown).mp hseen).resolve_left hopen
      exact ⟨hw, subset_rfl, Set.singleton_subset_iff.mpr hdecl⟩
    · rw [Bool.not_eq_true] at hseen
      have hsee := hw.see hknown hseen
      obtain ⟨el, hel⟩ := tableOf_isSome hs htable
      obtain ⟨-, hvars, -⟩ := hs.table v el hel
      rw [hel]
      have hwalk := visits_foldl hrec el hsee ?_
      · exact hwalk.declare hopen rfl subset_rfl hel
      · intro e he u hu
        obtain ⟨huknown, hlt⟩ := hvars e he u (needs_subset_vars _ e u hu)
        refine ⟨huknown, by push_cast at hdepth; omega, ?_⟩
        rintro t (rfl | ht)
        · exact hlt
        · exact hlt.trans (hbelow t ht)
  · have hset : {u | u = v ∧ v ∈ s.tableVars} = ∅ := by
      ext u
      simp [htable]
    rw [hset]
    unfold visitMem
    rw [tableOf_none htable]
    split_ifs <;> exact Visits.refl hw

/-- The traversal of one expression does what `WalksTo` asks one level up. -/
def TraversesTo (s : State D M) (depth : ℕ) (recurse : Exp → Walk → Walk)
    (opened : Set Var) (e : Exp) : Prop :=
  ∀ w, Good s opened w →
    (∀ u ∈ needs s.tableVars e, Below s opened (depth + 1) u) →
    Visits s opened {v | v ∈ needs s.tableVars e} w
      (walk (visitTemp s recurse) (visitMem s recurse) e w)

theorem TraversesTo.append {s : State D M} {depth : ℕ}
    {recurse : Exp → Walk → Walk} {opened : Set Var} {e e1 e2 : Exp}
    (h1 : TraversesTo s depth recurse opened e1)
    (h2 : TraversesTo s depth recurse opened e2)
    (hneeds : needs s.tableVars e =
      needs s.tableVars e1 ++ needs s.tableVars e2)
    (hwalk : ∀ w, walk (visitTemp s recurse) (visitMem s recurse) e w =
      walk (visitTemp s recurse) (visitMem s recurse) e2
        (walk (visitTemp s recurse) (visitMem s recurse) e1 w)) :
    TraversesTo s depth recurse opened e := by
  intro w hw he
  rw [hneeds] at he
  rw [hneeds, hwalk]
  have hfirst := h1 w hw fun u hu => he u (List.mem_append_left _ hu)
  have hsecond := h2 _ hfirst.good fun u hu => he u (List.mem_append_right _ hu)
  refine (hfirst.trans hsecond).of_subset ?_
  intro v hv
  exact List.mem_append.mp hv

theorem TraversesTo.nil {s : State D M} {depth : ℕ}
    {recurse : Exp → Walk → Walk} {opened : Set Var} {e : Exp}
    (hneeds : needs s.tableVars e = [])
    (hwalk : ∀ w, walk (visitTemp s recurse) (visitMem s recurse) e w = w) :
    TraversesTo s depth recurse opened e := by
  intro w hw _
  rw [hneeds, hwalk]
  exact (Visits.refl hw).of_subset (by simp)

theorem walk_visits {s : State D M} (hs : Inv s) {depth : ℕ}
    {recurse : Exp → Walk → Walk} (hrec : WalksTo s depth recurse)
    (opened : Set Var) (e : Exp) : TraversesTo s depth recurse opened e := by
  induction e with
  | binOp op e1 e2 ih1 ih2 => exact ih1.append ih2 rfl fun _ => rfl
  | fbinOp op rm e1 e2 ih1 ih2 => exact ih1.append ih2 rfl fun _ => rfl
  | letTemp v e1 e2 ih1 ih2 => exact ih1.append ih2 rfl fun _ => rfl
  | letMem v addr t e1 e2 _ ih1 ih2 => exact ih1.append ih2 rfl fun _ => rfl
  | unOp op e1 ih => exact ih
  | funOp op rm e1 ih => exact ih
  | cast kind t e1 ih => exact ih
  | fcast kind rm t e1 ih => exact ih
  | constant v => exact .nil rfl fun _ => rfl
  | name l => exact .nil rfl fun _ => rfl
  | unknown u => exact .nil rfl fun _ => rfl
  | temp v =>
    intro w hw he
    refine (visitTemp_visits hs hrec (he v List.mem_cons_self) hw).of_subset ?_
    intro u hu
    exact List.mem_singleton.mp hu
  | mem v e1 t ih =>
    intro w hw he
    have hfirst := ih w hw fun u hu => he u (List.mem_append_left _ hu)
    have hv : v ∈ s.tableVars → Below s opened (depth + 1) v :=
      fun hv => he v (List.mem_append_right _ (by simp [hv]))
    have hsecond := visitMem_visits hs hrec hv hfirst.good
    refine (hfirst.trans hsecond).of_subset ?_
    intro u hu
    refine (List.mem_append.mp hu).imp_right ?_
    intro hu
    split_ifs at hu with hmem
    · exact ⟨List.mem_singleton.mp hu, hmem⟩
    · exact absurd hu List.not_mem_nil
  | ite ce te fe ihc iht ihf =>
    have hct : TraversesTo s depth recurse opened (.binOp .plus ce te) :=
      ihc.append iht rfl fun _ => rfl
    exact hct.append ihf rfl fun _ => rfl

theorem walkTo_visits {s : State D M} (hs : Inv s) (depth : ℕ) :
    WalksTo s depth (walkTo s depth) := by
  induction depth with
  | zero =>
    intro e opened w hw he
    refine (Visits.refl hw).of_subset ?_
    intro v hv
    obtain ⟨hknown, hlt, -⟩ := he v hv
    exact absurd hknown.id_nonneg (not_le.mpr hlt)
  | succ depth ih =>
    intro e opened w hw he
    exact walk_visits hs ih opened e w hw he

/-- A list of declarations that a walk of an expression may give. -/
structure Walked (s : State D M) (e : Exp) (l : List QDecl) : Prop where
  closed : Closed qeDeclVar (needsOf s.tableVars) ∅ l
  unique : (l.map qeDeclVar).Nodup
  defined : ∀ d ∈ l, Defines s d
  visited : ∀ v ∈ needs s.tableVars e, v ∈ keys qeDeclVar l

theorem walkDecls_walked {s : State D M} (hs : Inv s) {e : Exp}
    (he : ∀ v ∈ needs s.tableVars e, Known s v) :
    Walked s e (walkDecls s e) := by
  have hvisits := walkTo_visits hs s.vars.length e ∅ ⟨[], []⟩ (good_empty s) ?_
  · obtain ⟨hgood, -, hvisited⟩ := hvisits
    refine ⟨hgood.closed, ?_, ?_, ?_⟩
    · rw [walkDecls, List.map_reverse, List.nodup_reverse]
      exact hgood.unique
    · intro d hd
      exact hgood.defined d (List.mem_reverse.mp hd)
    · intro v hv
      obtain ⟨d, hd, rfl⟩ := mem_keys.mp (hvisited hv)
      exact key_mem_keys (List.mem_reverse.mpr hd)
  · intro u hu
    exact ⟨he u hu, (he u hu).id_lt, fun t ht => absurd ht (Set.notMem_empty t)⟩

/-! ## The depth is immaterial -/

theorem walk_congr (tableVars : List Var)
    {visitTemp visitTemp' visitMem visitMem' : Var → Walk → Walk} (e : Exp)
    (htemp : ∀ v ∈ needs tableVars e, visitTemp v = visitTemp' v)
    (hmem : ∀ v, (v ∈ tableVars → v ∈ needs tableVars e) →
      visitMem v = visitMem' v) (w : Walk) :
    walk visitTemp visitMem e w = walk visitTemp' visitMem' e w := by
  induction e generalizing w with
  | binOp _ e1 e2 ih1 ih2 | fbinOp _ _ e1 e2 ih1 ih2
  | letTemp _ e1 e2 ih1 ih2 | letMem _ _ _ e1 e2 _ ih1 ih2 =>
    simp only [needs, List.mem_append] at htemp hmem
    simp only [walk]
    rw [ih1 (fun v hv => htemp v (.inl hv)) fun v hv => hmem v (.inl ∘ hv),
      ih2 (fun v hv => htemp v (.inr hv)) fun v hv => hmem v (.inr ∘ hv)]
  | unOp _ e1 ih | funOp _ _ e1 ih | cast _ _ e1 ih | fcast _ _ _ e1 ih =>
    exact ih htemp hmem w
  | constant _ | name _ | unknown _ => rfl
  | temp v => exact congrFun (htemp v List.mem_cons_self) w
  | mem v e1 _ ih =>
    simp only [needs, List.mem_append] at htemp hmem
    simp only [walk]
    rw [ih (fun v hv => htemp v (.inl hv)) fun v hv => hmem v (.inl ∘ hv)]
    refine congrFun (hmem v ?_) _
    intro hv
    exact .inr (by simp [hv])
  | ite ce te fe ihc iht ihf =>
    simp only [needs, List.mem_append] at htemp hmem
    simp only [walk]
    rw [ihc (fun v hv => htemp v (.inl (.inl hv)))
        fun v hv => hmem v (.inl ∘ .inl ∘ hv),
      iht (fun v hv => htemp v (.inl (.inr hv)))
        fun v hv => hmem v (.inl ∘ .inr ∘ hv),
      ihf (fun v hv => htemp v (.inr hv)) fun v hv => hmem v (.inr ∘ hv)]

theorem walk_skip (e : Exp) (w : Walk) :
    walk (fun _ w => w) (fun _ w => w) e w = w := by
  induction e generalizing w <;> simp_all [walk]

theorem visitMem_of_notMem {s : State D M} {recurse : Exp → Walk → Walk}
    {v : Var} (hv : v ∉ s.tableVars) : visitMem s recurse v = fun w => w := by
  funext w
  unfold visitMem
  rw [tableOf_none hv]
  split_ifs <;> rfl

/-- A walk from any greater depth is the same, so the recursion is the one of
the source, without the depth. -/
theorem walkTo_deeper {s : State D M} (hs : Inv s) {depth depth' : ℕ}
    (hdepth : depth ≤ depth') {e : Exp}
    (he : ∀ u ∈ needs s.tableVars e, Known s u ∧ u.id < depth) (w : Walk) :
    walkTo s depth e w = walkTo s depth' e w := by
  induction depth generalizing depth' e w with
  | zero =>
    have hno : ∀ u, u ∉ needs s.tableVars e := by
      intro u hu
      exact absurd (he u hu).1.id_nonneg (not_le.mpr (he u hu).2)
    cases depth' with
    | zero => rfl
    | succ depth' =>
      refine ((walk_congr s.tableVars e (fun v hv => absurd hv (hno v)) ?_ w).trans
        (walk_skip e w)).symm
      intro v hv
      exact visitMem_of_notMem fun hv' => hno v (hv hv')
  | succ depth ih =>
    obtain ⟨depth', rfl⟩ := Nat.exists_eq_add_one_of_ne_zero
      (Nat.ne_of_gt (Nat.lt_of_lt_of_le (Nat.succ_pos depth) hdepth))
    have hle : depth ≤ depth' := Nat.le_of_succ_le_succ hdepth
    refine walk_congr s.tableVars e ?_ ?_ w
    · intro v hv
      funext w
      obtain ⟨hknown, hlt⟩ := he v hv
      unfold visitTemp
      split_ifs
      · rfl
      · cases hdef : exprTemp s v with
        | none => rfl
        | some d =>
          have hvars := (exprTemp_spec hs hknown hdef).1
          refine congrArg (Walk.declare · _) (ih hle ?_ _)
          intro u hu
          have hu' := hvars u (needs_subset_vars _ d u hu)
          exact ⟨hu'.1, by push_cast at hlt; omega⟩
    · intro v hv
      by_cases htable : v ∈ s.tableVars
      · funext w
        obtain ⟨-, hlt⟩ := he v (hv htable)
        obtain ⟨el, hel⟩ := tableOf_isSome hs htable
        obtain ⟨-, hvars, -⟩ := hs.table v el hel
        unfold visitMem
        rw [hel]
        split_ifs
        · rfl
        · refine congrArg (Walk.declare · _) (List.foldl_ext _ _ _ ?_)
          intro w d hd
          refine ih hle ?_ _
          intro u hu
          have hu' := hvars d hd u (needs_subset_vars _ d u hu)
          exact ⟨hu'.1, by push_cast at hlt; omega⟩
      · rw [visitMem_of_notMem htable, visitMem_of_notMem htable]

end Fuzzball.FormulaManager
