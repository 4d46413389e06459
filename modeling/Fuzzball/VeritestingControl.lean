import Fuzzball.FragmentRuns
import Fuzzball.VeritestingNodes

/-!
# Control flow over the nodes of veritesting

What executing the statements of a node leads to, and what executing the node
that `consider_statements` answers leads to.  A jump goes to an internal label
wherever it stands in the statements of the instruction, or leaves for another
instruction.  The two agree where the walk over the statements needs no jump to
an internal label, and it keeps a statement before it leaves them.
-/

namespace Fuzzball.Veritesting

open Vine Fragment Simulation DecisionTree

/-! ## Executing statements -/

variable {D μ : Type}

/-- How executing statements ends: control goes to an instruction, leaves for a
label that is not there, or reaches a statement that is handed on. -/
inductive Outcome (D μ : Type)
  | control (eip : I64) (s : State D μ)
  | fallthrough (s : State D μ)
  | left (num : ℤ) (s : State D μ)
  | handsOn (st : Stmt) (s : State D μ)

/-- The statements from an internal label on. -/
def findInternal (num : ℤ) : List Stmt → Option (List Stmt)
  | [] => none
  | .label l :: rest =>
    if decodeEip l = .ok (.internal num) then some rest
    else findInternal num rest
  | _ :: rest => findInternal num rest

/-- A jump in the statements `frag`. -/
def transfer (frag : List Stmt) (st : Stmt) (l : OString) (s : State D μ) :
    Next (Config D μ) (Outcome D μ) :=
  match decodeEip l with
  | .ok (.x86eip eip) => .stop (.control eip s)
  | .ok (.internal num) =>
    match findInternal num frag with
    | some sl => .go (sl, s)
    | none => .stop (.left num s)
  | .error _ => .stop (.handsOn st s)

/-- One step through the statements `frag` of the instruction at `eip`, which
end where another instruction starts. -/
def execStep (M : Machine D μ) (eip : I64) (frag : List Stmt) :
    Config D μ → Next (Config D μ) (Outcome D μ)
  | ([], s) => .stop (.fallthrough s)
  | (.move lv e :: rest, s) => .go (rest, M.assign lv e s)
  | (.label l :: rest, s) =>
    match decodeEip l with
    | .ok (.x86eip e) =>
      if e = eip then .go (rest, M.atLabel l s) else .stop (.control e s)
    | _ => .go (rest, s)
  | (.jmp (.name l) :: _, s) => transfer frag (.jmp (.name l)) l s
  | (.cjmp c (.name l1) (.name l2) :: _, s) =>
    transfer frag (.cjmp c (.name l1) (.name l2))
      (if M.truth (M.eval c s) then l1 else l2) s
  | (st :: _, s) => .stop (.handsOn st s)

/-- Executing a node: the statements of a segment and then its child, the child
that a branch selects, the instruction of an undecoded node. -/
inductive Executes (M : Machine D μ) (eip : I64) (frag : List Stmt)
    (h : Heap VNode) : ℕ → State D μ → Outcome D μ → Prop
  | undecoded {a : ℕ} {m : Minimal} {s : State D μ}
      (ha : h.get a = .undecoded m) :
      Executes M eip frag h a s (.control m.core.eip s)
  | raw {a : ℕ} {p : Progn} {s : State D μ} {r : Outcome D μ}
      (ha : h.get a = .raw p)
      (hr : Finishes (execStep M eip frag) (p.stmts, s) r) :
      Executes M eip frag h a s r
  | branch {a : ℕ} {b : Branch} {s : State D μ} {r : Outcome D μ}
      (ha : h.get a = .completed (.branch b))
      (hr : Executes M eip frag h
        (if M.truth (M.eval b.test s) then b.trueChild else b.falseChild) s r) :
      Executes M eip frag h a s r
  | segment {a c : ℕ} {p : Progn} {s s' : State D μ} {r : Outcome D μ}
      (ha : h.get a = .completed (.segment p)) (hnext : p.next = some c)
      (hs : Finishes (execStep M eip frag) (p.stmts, s) (.fallthrough s'))
      (hr : Executes M eip frag h c s' r) : Executes M eip frag h a s r
  | last {a : ℕ} {p : Progn} {s s' : State D μ}
      (ha : h.get a = .completed (.segment p)) (hnext : p.next = none)
      (hs : Finishes (execStep M eip frag) (p.stmts, s) (.fallthrough s')) :
      Executes M eip frag h a s (.fallthrough s')

/-! ## What control flow is preserved -/

def Decodes (l : OString) : Prop := ∃ v, decodeEip l = .ok v

/-- The label of an instruction. -/
def IsPc (l : OString) : Prop := ∃ eip, decodeEip l = .ok (.x86eip eip)

/-- Moves, labels, and jumps to labels. -/
def Walked : Stmt → Prop
  | .move _ _ => True
  | .label l | .jmp (.name l) => Decodes l
  | .cjmp _ (.name l1) (.name l2) => Decodes l1 ∧ Decodes l2
  | _ => False

/-- The statements that are kept and those that are left, from the first that
is neither a move nor an internal label nor the label of the instruction. -/
def scan (eip : I64) : List Stmt → List Stmt × List Stmt
  | .move lv e :: rest => ((.move lv e) :: (scan eip rest).1, (scan eip rest).2)
  | .label l :: rest =>
    match decodeEip l with
    | .ok (.internal _) => scan eip rest
    | .ok (.x86eip e) =>
      if e = eip then (.label l :: (scan eip rest).1, (scan eip rest).2)
      else ([], .label l :: rest)
    | .error _ => ([], .label l :: rest)
  | sl => ([], sl)

/-- The targets of a jump. -/
def targets : Stmt → List OString
  | .jmp (.name l) => [l]
  | .cjmp _ (.name l1) (.name l2) => [l1, l2]
  | _ => []

/-- From the statements control comes, over jumps forward, to a jump to an
internal label that does not occur after it. -/
inductive Loops (eip : I64) : List Stmt → Prop
  | back {sl rest : List Stmt} {st : Stmt} {l : OString} {num : ℤ}
      (hscan : (scan eip sl).2 = st :: rest) (hl : l ∈ targets st)
      (hnum : decodeEip l = .ok (.internal num))
      (hrest : findInternal num rest = none) : Loops eip sl
  | forward {sl rest rest' : List Stmt} {l : OString} {num : ℤ}
      (hscan : (scan eip sl).2 = .jmp (.name l) :: rest)
      (hnum : decodeEip l = .ok (.internal num))
      (hrest : findInternal num rest = some rest') (h : Loops eip rest') :
      Loops eip sl

/-- The node at `a` is a segment or a branch that is executed as the statements
are, or an internal loop where control comes to one. -/
inductive Follows (h : Heap VNode) (progn : Progn) (a : ℕ) : Prop
  | node
      (ha : (∃ p, h.get a = .completed (.segment p)) ∨
        ∃ b, h.get a = .completed (.branch b))
      (hexec : ∀ {D μ : Type} (M : Machine D μ) (σ : State D μ)
        (r : Outcome D μ),
        Executes M progn.eip progn.stmts h a σ r ↔
          Finishes (execStep M progn.eip progn.stmts) (progn.stmts, σ) r)
  | loop {eip : I64} (ha : h.get a = .completed (.internalLoop eip))
      (hloops : Loops progn.eip progn.stmts)

/-- No assertion fails, and the node that is the result follows the
statements. -/
structure PreservesControl (o : AssertOptions) (s : NodeState) (node : ℕ)
    (progn : Progn) : Prop where
  asserted : ((considerStatements o node).run s).2.weirdCount = s.weirdCount
  follows : ∃ a, ((considerStatements o node).run s).1 = .ok a ∧
    Follows ((considerStatements o node).run s).2.nodes progn a

/-- Control comes to a loop, and the node has no successor yet; or the first
statement that decides has no internal label for a target, and a statement is
kept before it. -/
def Progn.Handled (progn : Progn) : Prop :=
  Loops progn.eip progn.stmts ∧ progn.next = none ∨
    (∀ st ∈ (scan progn.eip progn.stmts).2.head?, ∀ l ∈ targets st, IsPc l) ∧
      ((scan progn.eip progn.stmts).2 = [] ∨
        (scan progn.eip progn.stmts).1 ≠ [])

/-! ## Scanning -/

section Scan

variable {eip : I64} {sl : List Stmt}

/-- A statement that is kept in a segment. -/
def Kept (eip : I64) : Stmt → Prop
  | .move _ _ => True
  | .label l => decodeEip l = .ok (.x86eip eip)
  | _ => False

/-- What the scan stops at. -/
inductive Decides (eip : I64) : List Stmt → Prop
  | nil : Decides eip []
  | label {l : OString} {e : I64} {rest : List Stmt}
      (hl : decodeEip l = .ok (.x86eip e)) (he : e ≠ eip) :
      Decides eip (.label l :: rest)
  | jmp {l : OString} {rest : List Stmt} (hl : Decodes l) :
      Decides eip (.jmp (.name l) :: rest)
  | cjmp {c : Exp} {l1 l2 : OString} {rest : List Stmt} (h1 : Decodes l1)
      (h2 : Decodes l2) : Decides eip (.cjmp c (.name l1) (.name l2) :: rest)

/-- The cases of a statement that is walked over. -/
theorem Walked.cases {st : Stmt} (h : Walked st) :
    (∃ lv e, st = .move lv e) ∨
      (∃ l n, st = .label l ∧ decodeEip l = .ok (.internal n)) ∨
      (∃ l e, st = .label l ∧ decodeEip l = .ok (.x86eip e)) ∨
      (∃ l, st = .jmp (.name l) ∧ Decodes l) ∨
      ∃ c l1 l2, st = .cjmp c (.name l1) (.name l2) ∧ Decodes l1 ∧
        Decodes l2 := by
  cases st with
  | move lv e => exact .inl ⟨lv, e, rfl⟩
  | label l =>
    obtain ⟨v, hl⟩ := h
    cases v with
    | internal n => exact .inr (.inl ⟨l, n, rfl, hl⟩)
    | x86eip e => exact .inr (.inr (.inl ⟨l, e, rfl, hl⟩))
  | jmp e =>
    cases e with
    | name l => exact .inr (.inr (.inr (.inl ⟨l, rfl, h⟩)))
    | _ => exact h.elim
  | cjmp c e1 e2 =>
    cases e1 with
    | name l1 =>
      cases e2 with
      | name l2 => exact .inr (.inr (.inr (.inr ⟨c, l1, l2, rfl, h⟩)))
      | _ => exact h.elim
    | _ => exact h.elim
  | _ => exact h.elim

/-- What holds of the rest and is kept by going over a statement holds. -/
theorem scan_induction {P : List Stmt → List Stmt × List Stmt → Prop}
    (hsl : ∀ st ∈ sl, Walked st)
    (hstop : ∀ sl, Decides eip sl → P sl ([], sl))
    (hmove : ∀ lv e sl r, P sl r →
      P (.move lv e :: sl) (.move lv e :: r.1, r.2))
    (hinternal : ∀ l n sl r, decodeEip l = .ok (.internal n) → P sl r →
      P (.label l :: sl) r)
    (hown : ∀ l sl r, decodeEip l = .ok (.x86eip eip) → P sl r →
      P (.label l :: sl) (.label l :: r.1, r.2)) :
    P sl (scan eip sl) := by
  induction sl with
  | nil => exact hstop [] .nil
  | cons st sl ih =>
    have hrest := ih fun st hst => hsl st (List.mem_cons_of_mem _ hst)
    rcases (hsl st List.mem_cons_self).cases with ⟨lv, e, rfl⟩ |
      ⟨l, n, rfl, hl⟩ | ⟨l, e, rfl, hl⟩ | ⟨l, rfl, hl⟩ | ⟨c, l1, l2, rfl, hl⟩
    · exact hmove lv e sl _ hrest
    · rw [scan, hl]
      exact hinternal l n sl _ hl hrest
    · rw [scan, hl]
      by_cases he : e = eip
      · subst he
        dsimp only
        rw [if_pos rfl]
        exact hown l sl _ hl hrest
      · dsimp only
        rw [if_neg he]
        exact hstop _ (.label hl he)
    · exact hstop _ (.jmp hl)
    · exact hstop _ (.cjmp hl.1 hl.2)

theorem scan_decides (hsl : ∀ st ∈ sl, Walked st) :
    Decides eip (scan eip sl).2 :=
  scan_induction (P := fun _ r => Decides eip r.2) hsl (fun _ h => h)
    (fun _ _ _ _ h => h) (fun _ _ _ _ _ h => h) (fun _ _ _ _ h => h)

theorem scan_kept (hsl : ∀ st ∈ sl, Walked st) :
    ∀ st ∈ (scan eip sl).1, Kept eip st := by
  refine scan_induction (P := fun _ r => ∀ st ∈ r.1, Kept eip st) hsl
    ?_ ?_ ?_ ?_
  · intro sl _ st hst
    cases hst
  · intro lv e sl r h
    exact List.forall_mem_cons.mpr ⟨trivial, h⟩
  · intro l n sl r _ h
    exact h
  · intro l sl r hl h
    exact List.forall_mem_cons.mpr ⟨hl, h⟩

theorem scan_walked (hsl : ∀ st ∈ sl, Walked st) :
    ∀ st ∈ (scan eip sl).2, Walked st := by
  have hsub : ∀ st ∈ (scan eip sl).2, st ∈ sl := by
    refine scan_induction (P := fun sl r => ∀ st ∈ r.2, st ∈ sl) hsl ?_ ?_ ?_ ?_
    · exact fun sl _ st hst => hst
    · exact fun _ _ _ _ h st hst => List.mem_cons_of_mem _ (h st hst)
    · exact fun _ _ _ _ _ h st hst => List.mem_cons_of_mem _ (h st hst)
    · exact fun _ _ _ _ h st hst => List.mem_cons_of_mem _ (h st hst)
  exact fun st hst => hsl st (hsub st hst)

end Scan

/-! ## Executing what is kept -/

section Execute

variable {M : Machine D μ} {eip : I64} {frag sl : List Stmt} {σ σ' : State D μ}
  {r : Outcome D μ}

/-- The state after a statement that is kept. -/
def keep (M : Machine D μ) (σ : State D μ) : Stmt → State D μ
  | .move lv e => M.assign lv e σ
  | .label l => M.atLabel l σ
  | _ => σ

theorem step_kept {st : Stmt} (h : Kept eip st) (rest : List Stmt) :
    execStep M eip frag (st :: rest, σ) = .go (rest, keep M σ st) := by
  cases st with
  | move lv e => rfl
  | label l =>
    have hl : decodeEip l = .ok (.x86eip eip) := h
    rw [execStep, hl]
    exact if_pos rfl
  | _ => exact h.elim

/-- The kept statements, one after the other. -/
theorem finishes_kept {kept : List Stmt} (h : ∀ st ∈ kept, Kept eip st)
    (rest : List Stmt) :
    Finishes (execStep M eip frag) (kept ++ rest, σ) r ↔
      Finishes (execStep M eip frag) (rest, kept.foldl (keep M) σ) r := by
  induction kept generalizing σ with
  | nil => exact Iff.rfl
  | cons st kept ih =>
    have hst : execStep M eip frag (st :: (kept ++ rest), σ) =
        .go (kept ++ rest, keep M σ st) :=
      step_kept (h st List.mem_cons_self) _
    rw [List.cons_append, finishes_go_iff hst]
    exact ih fun st hst => h st (List.mem_cons_of_mem _ hst)

theorem finishes_nil :
    Finishes (execStep M eip frag) ([], σ) r ↔ r = .fallthrough σ :=
  finishes_stop_iff rfl

theorem finishes_fallthrough {kept : List Stmt}
    (h : ∀ st ∈ kept, Kept eip st) :
    Finishes (execStep M eip frag) (kept, σ) r ↔
      r = .fallthrough (kept.foldl (keep M) σ) := by
  rw [← List.append_nil kept, finishes_kept h, List.append_nil]
  exact finishes_nil

/-- Up to the statement that decides, only what is kept has an effect. -/
theorem finishes_scan (hsl : ∀ st ∈ sl, Walked st) (σ : State D μ) :
    Finishes (execStep M eip frag) (sl, σ) r ↔
      Finishes (execStep M eip frag)
        ((scan eip sl).2, (scan eip sl).1.foldl (keep M) σ) r := by
  refine scan_induction (P := fun sl p => ∀ σ,
    Finishes (execStep M eip frag) (sl, σ) r ↔
      Finishes (execStep M eip frag) (p.2, p.1.foldl (keep M) σ) r)
    hsl ?_ ?_ ?_ ?_ σ
  · exact fun sl _ σ => Iff.rfl
  · intro lv e sl p h σ
    have hkept : Kept eip (.move lv e) := trivial
    rw [finishes_go_iff (step_kept hkept sl)]
    exact h _
  · intro l n sl p hl h σ
    have hstep : execStep M eip frag (.label l :: sl, σ) = .go (sl, σ) := by
      rw [execStep, hl]
    rw [finishes_go_iff hstep]
    exact h σ
  · intro l sl p hl h σ
    have hkept : Kept eip (.label l) := hl
    rw [finishes_go_iff (step_kept hkept sl)]
    exact h _

end Execute

/-! ## Executing a completed node -/

section Completed

variable {M : Machine D μ} {eip : I64} {frag : List Stmt} {h : Heap VNode}
  {a c : ℕ} {σ : State D μ} {r : Outcome D μ}

theorem executes_undecoded_iff {m : Minimal} (ha : h.get a = .undecoded m) :
    Executes M eip frag h a σ r ↔ r = .control m.core.eip σ := by
  constructor
  · intro hr
    cases hr with
    | undecoded ha' =>
      rw [ha] at ha'
      cases ha'
      rfl
    | raw ha' => cases ha.symm.trans ha'
    | branch ha' => cases ha.symm.trans ha'
    | segment ha' => cases ha.symm.trans ha'
    | last ha' => cases ha.symm.trans ha'
  · rintro rfl
    exact .undecoded ha

theorem executes_branch_iff {b : Branch}
    (ha : h.get a = .completed (.branch b)) :
    Executes M eip frag h a σ r ↔
      Executes M eip frag h
        (if M.truth (M.eval b.test σ) then b.trueChild else b.falseChild)
        σ r := by
  constructor
  · intro hr
    cases hr with
    | undecoded ha' => cases ha.symm.trans ha'
    | raw ha' => cases ha.symm.trans ha'
    | branch ha' hr =>
      cases ha.symm.trans ha'
      exact hr
    | segment ha' => cases ha.symm.trans ha'
    | last ha' => cases ha.symm.trans ha'
  · exact .branch ha

/-- The statements of a segment and then its child. -/
theorem executes_segment_iff {p : Progn}
    (ha : h.get a = .completed (.segment p)) (hnext : p.next = some c)
    (hkept : ∀ st ∈ p.stmts, Kept eip st) :
    Executes M eip frag h a σ r ↔
      Executes M eip frag h c (p.stmts.foldl (keep M) σ) r := by
  constructor
  · intro hr
    cases hr with
    | undecoded ha' => cases ha.symm.trans ha'
    | raw ha' => cases ha.symm.trans ha'
    | branch ha' => cases ha.symm.trans ha'
    | segment ha' hnext' hs hr =>
      cases ha.symm.trans ha'
      cases hnext.symm.trans hnext'
      have hs := (finishes_fallthrough hkept).mp hs
      cases hs
      exact hr
    | last ha' hnext' =>
      cases ha.symm.trans ha'
      cases hnext.symm.trans hnext'
  · intro hr
    exact .segment ha hnext ((finishes_fallthrough hkept).mpr rfl) hr

theorem executes_last_iff {p : Progn} (ha : h.get a = .completed (.segment p))
    (hnext : p.next = none) (hkept : ∀ st ∈ p.stmts, Kept eip st) :
    Executes M eip frag h a σ r ↔
      r = .fallthrough (p.stmts.foldl (keep M) σ) := by
  constructor
  · intro hr
    cases hr with
    | undecoded ha' => cases ha.symm.trans ha'
    | raw ha' => cases ha.symm.trans ha'
    | branch ha' => cases ha.symm.trans ha'
    | segment ha' hnext' =>
      cases ha.symm.trans ha'
      cases hnext.symm.trans hnext'
    | last ha' _ hs =>
      cases ha.symm.trans ha'
      have hs := (finishes_fallthrough hkept).mp hs
      cases hs
      rfl
  · rintro rfl
    exact .last ha hnext ((finishes_fallthrough hkept).mpr rfl)

end Completed

/-! ## Completing a node -/

section Answers

variable {o : AssertOptions} {s : NodeState} {node : ℕ} {progn : Progn}
  {sl : List Stmt}

theorem assert_true (sawAt : String) (s : NodeState) :
    (assert o true sawAt).run s = (.ok (), s) := rfl

/-- A failed assertion is counted, whether it raises or not. -/
theorem assert_false (sawAt : String) (s : NodeState) :
    ∃ r, (assert o false sawAt).run s =
      (r, { s with weirdCount := s.weirdCount + 100 }) := by
  by_cases h : o.maxWeirdness < s.weirdCount + 100 ∨
      o.singleWeirdnessThreshold < 100
  · refine ⟨.error (.store (.exn (.failure
      ("Too many errors\n.Last Straw: " ++ sawAt)))), ?_⟩
    have hassert : gAssert o false 100 sawAt s.weirdCount =
        (.error (.exn (.failure ("Too many errors\n.Last Straw: " ++ sawAt))),
          s.weirdCount + 100) := if_pos h
    simp only [assert, Stateful.run_bind_ok (Stateful.run_get s), hassert,
      Stateful.run_bind_ok (Stateful.run_set s _), Stateful.run_throw]
  · refine ⟨.ok (), ?_⟩
    have hassert : gAssert o false 100 sawAt s.weirdCount =
        (.ok (), s.weirdCount + 100) := if_neg h
    simp only [assert, Stateful.run_bind_ok (Stateful.run_get s), hassert,
      Stateful.run_bind_ok (Stateful.run_set s _), Stateful.run_pure]

/-- What follows a failed assertion and leaves the count as it is does not take
the failure back. -/
theorem weirdCount_assert_false {α : Type} (sawAt : String) {f : Unit → Nodes α}
    (hf : ∀ s, ((f ()).run s).2.weirdCount = s.weirdCount) (s : NodeState) :
    ((assert o false sawAt >>= f).run s).2.weirdCount ≠ s.weirdCount := by
  have hlt : s.weirdCount + 100 ≠ s.weirdCount := by omega
  obtain ⟨r, hr⟩ := assert_false (o := o) sawAt s
  cases r with
  | error x =>
    rw [Stateful.run_bind_error hr]
    exact hlt
  | ok u =>
    rw [Stateful.run_bind_ok hr, hf]
    exact hlt

theorem new_run (n : VNode) (s : NodeState) :
    (new n).run s = (.ok s.nodes.next, { s with nodes := s.nodes.push n }) :=
  rfl

/-- The segment that completes a node. -/
def segment (node : ℕ) (progn : Progn) (next : Option ℕ) (sl : List Stmt) :
    Progn :=
  ⟨⟨⟨progn.eip, node, progn.depth⟩, next⟩, progn.decls, sl⟩

/-- The nodes after one is completed with a segment and its child. -/
def completed (h : Heap VNode) (node : ℕ) (progn : Progn) (child : ℕ)
    (sl : List Stmt) : Heap VNode :=
  let nodes := (h.push (.completed (.segment
    (segment node progn (some child) sl)))).set node
      (.raw (progn.setNext (some h.next)))
  nodes.set child ((nodes.get child).setParent h.next)

theorem completeNode_run (hnode : s.nodes.get node = .raw progn)
    (hsl : sl ≠ []) (child : ℕ) :
    (completeNode o node child sl progn.decls).run s =
      (.ok s.nodes.next,
        { s with nodes := completed s.nodes node progn child sl.reverse }) := by
  have hempty : (!sl.isEmpty) = true := by
    cases sl with
    | nil => exact absurd rfl hsl
    | cons => rfl
  unfold completeNode
  rw [hempty, Stateful.run_bind_ok (assert_true _ s),
    Stateful.run_bind_ok (Stateful.run_get s)]
  simp only [hnode]
  rfl

theorem completeNode_nil (child : ℕ) (dl : List Var) (s : NodeState) :
    ((completeNode o node child [] dl).run s).2.weirdCount ≠
      s.weirdCount := by
  unfold completeNode
  refine weirdCount_assert_false _ (fun s => ?_) s
  rw [Stateful.run_bind_ok (Stateful.run_get s)]
  cases s.nodes.get node with
  | raw p => rfl
  | undecoded m => rfl
  | completed ft => rfl

theorem completed_get_next (progn : Progn) {h : Heap VNode} {child : ℕ}
    (hchild : child < h.next) (hlt : node < h.next) (sl : List Stmt) :
    (completed h node progn child sl).get h.next =
      .completed (.segment (segment node progn (some child) sl)) := by
  unfold completed
  rw [Heap.set_get_of_ne _ _ hchild.ne', Heap.set_get_of_ne _ _ hlt.ne',
    Heap.push_get_next]

theorem completed_get_child (progn : Progn) {h : Heap VNode} {child : ℕ}
    (hchild : child < h.next) (hne : child ≠ node) (sl : List Stmt) :
    (completed h node progn child sl).get child =
      (h.get child).setParent h.next := by
  unfold completed
  rw [Heap.set_get, Heap.set_get_of_ne _ _ hne, Heap.push_get_of_lt hchild]

theorem completed_get (progn : Progn) {h : Heap VNode} {child a : ℕ}
    (ha : a < h.next) (hne : a ≠ node) (hchild : a ≠ child) (sl : List Stmt) :
    (completed h node progn child sl).get a = h.get a := by
  unfold completed
  rw [Heap.set_get_of_ne _ _ hchild, Heap.set_get_of_ne _ _ hne,
    Heap.push_get_of_lt ha]

/-- The nodes after one is completed with an exit. -/
def exited (h : Heap VNode) (node : ℕ) (progn : Progn) (ft : FinishedType) :
    Heap VNode :=
  (h.push (.completed ft)).set node (.raw (progn.setNext (some h.next)))

theorem exited_get_next (progn : Progn) {h : Heap VNode} (hlt : node < h.next)
    (ft : FinishedType) :
    (exited h node progn ft).get h.next = .completed ft := by
  unfold exited
  rw [Heap.set_get_of_ne _ _ hlt.ne', Heap.push_get_next]

theorem addExit_run (hnext : progn.next = none) (ft : FinishedType)
    (s : NodeState) :
    (addExit o node progn ft).run s =
      (.ok s.nodes.next, { s with nodes := exited s.nodes node progn ft }) := by
  unfold addExit
  rw [Stateful.run_bind_ok (new_run _ s), hnext]
  rfl

theorem addExit_some (hnext : progn.next ≠ none) (ft : FinishedType)
    (s : NodeState) :
    ((addExit o node progn ft).run s).2.weirdCount ≠ s.weirdCount := by
  have hsome : progn.next.isNone = false := by
    cases h : progn.next with
    | none => exact absurd h hnext
    | some a => rfl
  unfold addExit
  rw [Stateful.run_bind_ok (new_run _ s), hsome]
  exact weirdCount_assert_false _ (fun _ => rfl) _

/-- The nodes after a branch and its two children are made. -/
def branched (h : Heap VNode) (core : Common) (test : Exp)
    (t f : ℕ → VNode) : Heap VNode :=
  let branch := h.push
    (.completed (.branch ⟨core, test, h.next + 1, h.next + 2⟩))
  (branch.push (t h.next)).push (f h.next)

theorem branched_get_of_lt {h : Heap VNode} {a : ℕ} (ha : a < h.next)
    (core : Common) (test : Exp) (t f : ℕ → VNode) :
    (branched h core test t f).get a = h.get a := by
  unfold branched
  rw [Heap.push_get_of_lt (show a < h.next + 1 + 1 by omega),
    Heap.push_get_of_lt (show a < h.next + 1 by omega),
    Heap.push_get_of_lt ha]

theorem branched_get_next (h : Heap VNode) (core : Common) (test : Exp)
    (t f : ℕ → VNode) :
    (branched h core test t f).get h.next =
      .completed (.branch ⟨core, test, h.next + 1, h.next + 2⟩) := by
  unfold branched
  rw [Heap.push_get_of_lt (show h.next < h.next + 1 + 1 by omega),
    Heap.push_get_of_lt (show h.next < h.next + 1 by omega),
    Heap.push_get_next]

theorem branched_get_true (h : Heap VNode) (core : Common) (test : Exp)
    (t f : ℕ → VNode) :
    (branched h core test t f).get (h.next + 1) = t h.next := by
  unfold branched
  rw [Heap.push_get_of_lt (show h.next + 1 < h.next + 1 + 1 by omega)]
  exact Heap.push_get_next _ _

theorem branched_get_false (h : Heap VNode) (core : Common) (test : Exp)
    (t f : ℕ → VNode) :
    (branched h core test t f).get (h.next + 2) = f h.next :=
  Heap.push_get_next _ _

theorem newBranch_run (core : Common) (test : Exp) (t f : ℕ → VNode)
    (s : NodeState) :
    (newBranch core test t f).run s =
      (.ok s.nodes.next, { s with nodes := branched s.nodes core test t f }) :=
  rfl

/-! ## The walk -/

theorem lift_ok {α : Type} {x : OCaml α} {a : α} (hx : x = .ok a) :
    lift x = .ok a := by
  rw [hx]
  rfl

theorem raising_run {α β : Type} {x : Except NodeExn α} {a : α} (hx : x = .ok a)
    (f : α → Nodes β) (s : NodeState) :
    (raising x >>= f).run s = (f a).run s := by
  rw [hx]
  rfl

theorem wsl_move (accum : List Stmt) (lv : LValue) (e : Exp) :
    wsl o node progn accum (.move lv e :: sl) =
      wsl o node progn (.move lv e :: accum) sl := by
  simp only [wsl]

/-- Of what is walked over, only what is kept matters. -/
theorem wsl_scan (hsl : ∀ st ∈ sl, Walked st) (accum : List Stmt) :
    (wsl o node progn accum sl).run s =
      (wsl o node progn ((scan progn.eip sl).1.reverse ++ accum)
        (scan progn.eip sl).2).run s := by
  refine scan_induction (P := fun sl r => ∀ accum,
    (wsl o node progn accum sl).run s =
      (wsl o node progn (r.1.reverse ++ accum) r.2).run s) hsl ?_ ?_ ?_ ?_ accum
  · exact fun sl _ accum => rfl
  · intro lv e sl r h accum
    rw [wsl_move, h, List.reverse_cons, List.append_assoc]
    rfl
  · intro l n sl r hl h accum
    rw [wsl]
    exact (raising_run (lift_ok hl) _ s).trans (h accum)
  · intro l sl r hl h accum
    have hstep : (wsl o node progn accum (.label l :: sl)).run s =
        (wsl o node progn (.label l :: accum) sl).run s := by
      rw [wsl]
      refine (raising_run (lift_ok hl) _ s).trans ?_
      dsimp only
      rw [if_pos rfl]
    rw [hstep, h, List.reverse_cons, List.append_assoc]
    rfl

theorem considerStatements_run (hnode : s.nodes.get node = .raw progn)
    (hsl : ∀ st ∈ progn.stmts, Walked st) :
    (considerStatements o node).run s =
      (wsl o node progn (scan progn.eip progn.stmts).1.reverse
        (scan progn.eip progn.stmts).2).run s := by
  unfold considerStatements
  rw [Stateful.run_bind_ok (Stateful.run_get s), hnode]
  dsimp only
  rw [wsl_scan hsl, List.append_nil]

/-- A label is looked for among the expression statements, of which there are
none. -/
theorem walkToLabelHelp_none (num : ℤ) (hsl : ∀ st ∈ sl, Walked st) :
    walkToLabelHelp num sl = .ok none := by
  induction sl with
  | nil => rfl
  | cons st sl ih =>
    have hrest := ih fun st hst => hsl st (List.mem_cons_of_mem _ hst)
    rcases (hsl st List.mem_cons_self).cases with ⟨lv, e, rfl⟩ |
      ⟨l, n, rfl, hl⟩ | ⟨l, e, rfl, hl⟩ | ⟨l, rfl, hl⟩ |
      ⟨c, l1, l2, rfl, hl⟩ <;> exact hrest

theorem walkToLabel_none {l : OString} {num : ℤ}
    (hl : decodeEip l = .ok (.internal num)) (hsl : ∀ st ∈ sl, Walked st) :
    walkToLabel l sl = .ok none := by
  unfold walkToLabel
  rw [lift_ok hl]
  exact walkToLabelHelp_none num hsl

end Answers

/-! ## What is preserved -/

section Preserved

variable {o : AssertOptions} {s : NodeState} {node : ℕ} {progn : Progn}

/-- The walk ends with a segment before a child. -/
theorem preservesControl_iff_kept {child : ℕ} {nodes : Heap VNode}
    (hnode : s.nodes.get node = .raw progn)
    (hsl : ∀ st ∈ progn.stmts, Walked st)
    (hwsl : (wsl o node progn (scan progn.eip progn.stmts).1.reverse
        (scan progn.eip progn.stmts).2).run s =
      (completeNode o node child (scan progn.eip progn.stmts).1.reverse
        progn.decls).run { s with nodes := nodes })
    (hraw : nodes.get node = .raw progn) (hlt : node < nodes.next)
    (hchild : child < nodes.next)
    (hexec : ∀ {D μ : Type} (M : Machine D μ) (σ : State D μ)
      (r : Outcome D μ),
      Executes M progn.eip progn.stmts (completed nodes node progn child
          (scan progn.eip progn.stmts).1) child σ r ↔
        Finishes (execStep M progn.eip progn.stmts)
          ((scan progn.eip progn.stmts).2, σ) r) :
    PreservesControl o s node progn ↔ (scan progn.eip progn.stmts).1 ≠ [] := by
  have hrun := (considerStatements_run (o := o) hnode hsl).trans hwsl
  constructor
  · intro h hkept
    have hasserted := h.asserted
    rw [hrun, hkept] at hasserted
    exact completeNode_nil child progn.decls { s with nodes := nodes } hasserted
  · intro hkept
    have hreverse : (scan progn.eip progn.stmts).1.reverse ≠ [] :=
      fun h => hkept (List.reverse_eq_nil_iff.mp h)
    rw [completeNode_run hraw hreverse, List.reverse_reverse] at hrun
    have hget := completed_get_next progn hchild hlt
      (scan progn.eip progn.stmts).1
    refine ⟨by rw [hrun], nodes.next, by rw [hrun], ?_⟩
    rw [hrun]
    refine .node (.inl ⟨_, hget⟩) fun M σ r => ?_
    rw [executes_segment_iff hget rfl (scan_kept hsl), finishes_scan hsl]
    exact hexec M _ r

/-- The walk ends with an internal loop. -/
theorem preservesControl_iff_loops (hlt : node < s.nodes.next)
    (hnode : s.nodes.get node = .raw progn)
    (hsl : ∀ st ∈ progn.stmts, Walked st)
    (hwsl : (wsl o node progn (scan progn.eip progn.stmts).1.reverse
        (scan progn.eip progn.stmts).2).run s =
      (addExit o node progn (.internalLoop progn.eip)).run s) :
    PreservesControl o s node progn ↔
      Loops progn.eip progn.stmts ∧ progn.next = none := by
  have hrun := (considerStatements_run (o := o) hnode hsl).trans hwsl
  have hget := exited_get_next progn hlt (.internalLoop progn.eip)
  constructor
  · intro h
    have hnext : progn.next = none := by
      by_contra hnext
      have hasserted := h.asserted
      rw [hrun] at hasserted
      exact addExit_some hnext _ s hasserted
    rw [addExit_run hnext] at hrun
    obtain ⟨a, ha, hfollows⟩ := h.follows
    rw [hrun] at ha hfollows
    cases ha
    cases hfollows with
    | node hnode =>
      rcases hnode with ⟨p, hp⟩ | ⟨b, hb⟩
      · cases hget.symm.trans hp
      · cases hget.symm.trans hb
    | loop _ hloops => exact ⟨hloops, hnext⟩
  · rintro ⟨hloops, hnext⟩
    rw [addExit_run hnext] at hrun
    refine ⟨by rw [hrun], s.nodes.next, by rw [hrun], ?_⟩
    rw [hrun]
    exact .loop hget hloops

/-- The walk ends after the last statement. -/
theorem preservesControl_of_nil (hlt : node < s.nodes.next)
    (hnode : s.nodes.get node = .raw progn)
    (hsl : ∀ st ∈ progn.stmts, Walked st)
    (hleft : (scan progn.eip progn.stmts).2 = []) :
    PreservesControl o s node progn := by
  have hrun := considerStatements_run (o := o) hnode hsl
  rw [hleft] at hrun
  have hwsl : (wsl o node progn (scan progn.eip progn.stmts).1.reverse
      []).run s = (.ok s.nodes.next, ⟨exited s.nodes node progn
        (.segment (segment node progn none (scan progn.eip progn.stmts).1)),
          s.weirdCount⟩) := by
    rw [wsl, Stateful.run_bind_ok (new_run _ s), List.reverse_reverse]
    rfl
  rw [hwsl] at hrun
  have hget := exited_get_next progn hlt
    (.segment (segment node progn none (scan progn.eip progn.stmts).1))
  refine ⟨by rw [hrun], s.nodes.next, by rw [hrun], ?_⟩
  rw [hrun]
  refine .node (.inl ⟨_, hget⟩) fun M σ r => ?_
  rw [executes_last_iff hget rfl (scan_kept hsl), finishes_scan hsl, hleft]
  exact finishes_nil.symm

/-! ## The statement that decides -/

theorem wsl_label {l : OString} {e : I64} (hl : decodeEip l = .ok (.x86eip e))
    (he : e ≠ progn.eip) (accum rest : List Stmt) :
    (wsl o node progn accum (.label l :: rest)).run s =
      (completeNode o node s.nodes.next accum progn.decls).run
        ⟨s.nodes.push (undecodedChild e progn.depth node), s.weirdCount⟩ := by
  rw [wsl]
  refine (raising_run (lift_ok hl) _ s).trans ?_
  dsimp only
  rw [if_neg he.symm, Stateful.run_bind_ok (new_run _ s)]

theorem wsl_jmp {l : OString} {e : I64} (hl : decodeEip l = .ok (.x86eip e))
    (accum rest : List Stmt) :
    (wsl o node progn accum (.jmp (.name l) :: rest)).run s =
      (completeNode o node s.nodes.next accum progn.decls).run
        ⟨s.nodes.push (undecodedChild e ((1 + progn.depth).bmod (2 ^ 63)) node),
          s.weirdCount⟩ := by
  rw [wsl]
  refine (raising_run (lift_ok hl) _ s).trans ?_
  dsimp only
  rw [Stateful.run_bind_ok (new_run _ s)]

theorem wsl_cjmp {c : Exp} {l1 l2 : OString} {e1 e2 : I64}
    (h1 : decodeEip l1 = .ok (.x86eip e1))
    (h2 : decodeEip l2 = .ok (.x86eip e2)) (accum rest : List Stmt) :
    (wsl o node progn accum (.cjmp c (.name l1) (.name l2) :: rest)).run s =
      (completeNode o node s.nodes.next accum progn.decls).run
        ⟨branched s.nodes ⟨progn.eip, node, progn.depth⟩ c
          (undecodedChild e1 ((1 + progn.depth).bmod (2 ^ 63)))
          (undecodedChild e2 ((1 + progn.depth).bmod (2 ^ 63))),
          s.weirdCount⟩ := by
  rw [wsl]
  refine (raising_run (lift_ok h2) _ s).trans ?_
  refine (raising_run (lift_ok h1) _ s).trans ?_
  dsimp only
  rw [Stateful.run_bind_ok (newBranch_run _ _ _ _ s)]

/-- A jump to an internal label is always taken for a loop. -/
theorem wsl_jmp_internal {l : OString} {num : ℤ} {rest : List Stmt}
    (hl : decodeEip l = .ok (.internal num)) (hsl : ∀ st ∈ rest, Walked st)
    (accum : List Stmt) :
    (wsl o node progn accum (.jmp (.name l) :: rest)).run s =
      (addExit o node progn (.internalLoop progn.eip)).run s := by
  have hnone := walkToLabel_none hl hsl
  rw [wsl]
  refine (raising_run (lift_ok hl) _ s).trans ?_
  dsimp only
  split
  · next h => cases hnone.symm.trans h
  · rfl
  · next h => cases hnone.symm.trans h

theorem wsl_cjmp_internal {c : Exp} {l1 l2 : OString} {rest : List Stmt}
    (h1 : Decodes l1) (h2 : Decodes l2) (h : ¬(IsPc l1 ∧ IsPc l2))
    (hsl : ∀ st ∈ rest, Walked st) (accum : List Stmt) :
    (wsl o node progn accum (.cjmp c (.name l1) (.name l2) :: rest)).run s =
      (addExit o node progn (.internalLoop progn.eip)).run s := by
  obtain ⟨v1, h1⟩ := h1
  obtain ⟨v2, h2⟩ := h2
  rw [wsl]
  refine (raising_run (lift_ok h2) _ s).trans ?_
  refine (raising_run (lift_ok h1) _ s).trans ?_
  cases v1 with
  | x86eip e1 =>
    cases v2 with
    | x86eip e2 => exact absurd ⟨⟨e1, h1⟩, ⟨e2, h2⟩⟩ h
    | internal n2 => exact raising_run (walkToLabel_none h2 hsl) _ s
  | internal n1 =>
    cases v2 with
    | x86eip e2 => exact raising_run (walkToLabel_none h1 hsl) _ s
    | internal n2 =>
      refine (raising_run (walkToLabel_none h2 hsl) _ s).trans ?_
      exact raising_run (walkToLabel_none h1 hsl) _ s

/-! ## When control flow is preserved -/

theorem Loops.internal {eip : I64} {sl : List Stmt} (h : Loops eip sl) :
    ∃ st ∈ (scan eip sl).2.head?, ∃ l ∈ targets st, ¬IsPc l := by
  have hnot : ∀ {l num}, decodeEip l = .ok (.internal num) → ¬IsPc l := by
    rintro l num hnum ⟨e, he⟩
    cases hnum.symm.trans he
  cases h with
  | @back sl rest st l num hscan hl hnum hrest =>
    exact ⟨st, by rw [hscan]; rfl, l, hl, hnot hnum⟩
  | @forward sl rest rest' l num hscan hnum hrest h =>
    exact ⟨.jmp (.name l), by rw [hscan]; rfl, l, List.mem_singleton_self l,
      hnot hnum⟩

theorem handled_iff_loops {st : Stmt} {l : OString}
    (hst : st ∈ (scan progn.eip progn.stmts).2.head?) (hl : l ∈ targets st)
    (hpc : ¬IsPc l) :
    progn.Handled ↔ Loops progn.eip progn.stmts ∧ progn.next = none :=
  or_iff_left fun h => hpc (h.1 st hst l hl)

theorem handled_iff_kept
    (hpc : ∀ st ∈ (scan progn.eip progn.stmts).2.head?,
      ∀ l ∈ targets st, IsPc l)
    (hleft : (scan progn.eip progn.stmts).2 ≠ []) :
    progn.Handled ↔ (scan progn.eip progn.stmts).1 ≠ [] := by
  constructor
  · rintro (⟨hloops, -⟩ | ⟨-, hnil | hkept⟩)
    · obtain ⟨st, hst, l, hl, hnot⟩ := hloops.internal
      exact absurd (hpc st hst l hl) hnot
    · exact absurd hnil hleft
    · exact hkept
  · exact fun hkept => .inr ⟨hpc, .inr hkept⟩

/-- A node with a child that is not decoded yet, from which control goes to its
instruction. -/
theorem preservesControl_iff_undecoded (e : I64) (d : ℤ)
    (hlt : node < s.nodes.next) (hnode : s.nodes.get node = .raw progn)
    (hsl : ∀ st ∈ progn.stmts, Walked st)
    (hwsl : ∀ accum, (wsl o node progn accum
        (scan progn.eip progn.stmts).2).run s =
      (completeNode o node s.nodes.next accum progn.decls).run
        ⟨s.nodes.push (undecodedChild e d node), s.weirdCount⟩)
    (hexec : ∀ {D μ : Type} (M : Machine D μ) (σ : State D μ),
      execStep M progn.eip progn.stmts ((scan progn.eip progn.stmts).2, σ) =
        .stop (.control e σ)) :
    PreservesControl o s node progn ↔ (scan progn.eip progn.stmts).1 ≠ [] := by
  have hpush : node < (s.nodes.push (undecodedChild e d node)).next :=
    hlt.trans (Nat.lt_succ_self _)
  refine preservesControl_iff_kept hnode hsl (hwsl _)
    ((Heap.push_get_of_lt hlt _).trans hnode) hpush (Nat.lt_succ_self _) ?_
  intro D μ M σ r
  have hchild : s.nodes.next < (s.nodes.push (undecodedChild e d node)).next :=
    Nat.lt_succ_self _
  have hget := completed_get_child progn hchild hlt.ne'
    (scan progn.eip progn.stmts).1
  rw [Heap.push_get_next] at hget
  rw [executes_undecoded_iff hget]
  exact (finishes_stop_iff (hexec M σ)).symm

theorem preservesControl_iff_branch (core : Common) (c : Exp) (e1 e2 : I64)
    (d : ℤ) (hlt : node < s.nodes.next)
    (hnode : s.nodes.get node = .raw progn)
    (hsl : ∀ st ∈ progn.stmts, Walked st)
    (hwsl : ∀ accum, (wsl o node progn accum
        (scan progn.eip progn.stmts).2).run s =
      (completeNode o node s.nodes.next accum progn.decls).run
        ⟨branched s.nodes core c (undecodedChild e1 d) (undecodedChild e2 d),
          s.weirdCount⟩)
    (hexec : ∀ {D μ : Type} (M : Machine D μ) (σ : State D μ),
      execStep M progn.eip progn.stmts ((scan progn.eip progn.stmts).2, σ) =
        .stop (.control (if M.truth (M.eval c σ) then e1 else e2) σ)) :
    PreservesControl o s node progn ↔ (scan progn.eip progn.stmts).1 ≠ [] := by
  let nodes := branched s.nodes core c (undecodedChild e1 d)
    (undecodedChild e2 d)
  have hlast : s.nodes.next + 2 < nodes.next := Nat.lt_succ_self _
  have hsecond : s.nodes.next + 1 < nodes.next := by omega
  have hfirst : s.nodes.next < nodes.next := by omega
  refine preservesControl_iff_kept hnode hsl (hwsl _)
    ((branched_get_of_lt hlt core c _ _).trans hnode) (hlt.trans hfirst)
    hfirst ?_
  intro D μ M σ r
  have hbranch := completed_get_child progn hfirst hlt.ne'
    (scan progn.eip progn.stmts).1
  have htrue := completed_get progn hsecond
    (show s.nodes.next + 1 ≠ node by omega)
    (show s.nodes.next + 1 ≠ s.nodes.next by omega)
    (scan progn.eip progn.stmts).1
  have hfalse := completed_get progn hlast
    (show s.nodes.next + 2 ≠ node by omega)
    (show s.nodes.next + 2 ≠ s.nodes.next by omega)
    (scan progn.eip progn.stmts).1
  rw [branched_get_next] at hbranch
  rw [branched_get_true] at htrue
  rw [branched_get_false] at hfalse
  rw [executes_branch_iff hbranch, finishes_stop_iff (hexec M σ)]
  cases htruth : M.truth (M.eval c σ) with
  | true => exact executes_undecoded_iff htrue
  | false => exact executes_undecoded_iff hfalse

/-- Control flow is preserved exactly where no jump to an internal label has to
be followed and a segment is not empty. -/
theorem preservesControl_iff (hlt : node < s.nodes.next)
    (hnode : s.nodes.get node = .raw progn)
    (hsl : ∀ st ∈ progn.stmts, Walked st) :
    PreservesControl o s node progn ↔ progn.Handled := by
  have hdecides : Decides progn.eip (scan progn.eip progn.stmts).2 :=
    scan_decides hsl
  have hwalked : ∀ st ∈ (scan progn.eip progn.stmts).2, Walked st :=
    scan_walked hsl
  generalize hleft : (scan progn.eip progn.stmts).2 = left at hdecides hwalked
  cases hdecides with
  | nil =>
    refine ⟨fun _ => .inr ⟨?_, .inl hleft⟩, fun _ =>
      preservesControl_of_nil hlt hnode hsl hleft⟩
    rw [hleft]
    exact fun st hst => absurd hst (Option.not_mem_none st)
  | @label l e rest hl he =>
    rw [handled_iff_kept ?_ (by rw [hleft]; exact List.cons_ne_nil _ _)]
    · refine preservesControl_iff_undecoded e progn.depth hlt hnode hsl ?_ ?_
      · rw [hleft]
        exact fun accum => wsl_label hl he accum rest
      · intro D μ M σ
        rw [hleft, execStep, hl]
        exact if_neg he
    · rw [hleft]
      intro st hst l hl
      cases hst
      cases hl
  | @jmp l rest hl =>
    by_cases hpc : IsPc l
    · obtain ⟨e, he⟩ := hpc
      rw [handled_iff_kept ?_ (by rw [hleft]; exact List.cons_ne_nil _ _)]
      · refine preservesControl_iff_undecoded e
          ((1 + progn.depth).bmod (2 ^ 63)) hlt hnode hsl ?_ ?_
        · rw [hleft]
          exact fun accum => wsl_jmp he accum rest
        · intro D μ M σ
          rw [hleft, execStep, transfer, he]
      · rw [hleft]
        intro st hst l' hl'
        cases hst
        rw [List.mem_singleton.mp hl']
        exact ⟨e, he⟩
    · rw [handled_iff_loops (by rw [hleft]; rfl) (List.mem_singleton_self l)
        hpc]
      refine preservesControl_iff_loops hlt hnode hsl ?_
      obtain ⟨v, hv⟩ := hl
      cases v with
      | x86eip e => exact absurd ⟨e, hv⟩ hpc
      | internal num =>
        rw [hleft]
        exact wsl_jmp_internal hv
          (fun st hst => hwalked st (List.mem_cons_of_mem _ hst)) _
  | @cjmp c l1 l2 rest h1 h2 =>
    by_cases hpc : IsPc l1 ∧ IsPc l2
    · obtain ⟨⟨e1, he1⟩, ⟨e2, he2⟩⟩ := hpc
      rw [handled_iff_kept ?_ (by rw [hleft]; exact List.cons_ne_nil _ _)]
      · refine preservesControl_iff_branch
          ⟨progn.eip, node, progn.depth⟩ c e1 e2
          ((1 + progn.depth).bmod (2 ^ 63)) hlt hnode hsl ?_ ?_
        · rw [hleft]
          exact fun accum => wsl_cjmp he1 he2 accum rest
        · intro D μ M σ
          rw [hleft, execStep]
          cases M.truth (M.eval c σ) with
          | true =>
            rw [if_pos rfl, transfer, he1]
            rfl
          | false =>
            rw [if_neg Bool.false_ne_true, transfer, he2]
            rfl
      · rw [hleft]
        intro st hst l hl
        cases hst
        rcases List.mem_pair.mp hl with rfl | rfl
        · exact ⟨e1, he1⟩
        · exact ⟨e2, he2⟩
    · have hinternal : ∃ l ∈ targets (.cjmp c (.name l1) (.name l2)),
          ¬IsPc l := by
        by_cases hpc1 : IsPc l1
        · exact ⟨l2, List.mem_cons_of_mem _ List.mem_cons_self,
            fun hpc2 => hpc ⟨hpc1, hpc2⟩⟩
        · exact ⟨l1, List.mem_cons_self, hpc1⟩
      obtain ⟨l, hl, hnot⟩ := hinternal
      rw [handled_iff_loops (by rw [hleft]; rfl) hl hnot]
      refine preservesControl_iff_loops hlt hnode hsl ?_
      rw [hleft]
      exact wsl_cjmp_internal h1 h2 hpc
        (fun st hst => hwalked st (List.mem_cons_of_mem _ hst)) _

end Preserved

/-! ## A loop and two jumps -/

section Samples

def ownLabel : OString := .ofAscii "pc_0x8048000"
def nextLabel : OString := .ofAscii "pc_0x8048005"
def innerLabel : OString := .ofAscii "L_1"

theorem decodeEip_ownLabel :
    decodeEip ownLabel = .ok (.x86eip 0x8048000) := by
  decide +kernel

theorem decodeEip_nextLabel :
    decodeEip nextLabel = .ok (.x86eip 0x8048005) := by
  decide +kernel

theorem decodeEip_innerLabel : decodeEip innerLabel = .ok (.internal 1) := by
  decide +kernel

/-- A node at `pc_0x8048000` that is not considered yet. -/
def sampleProgn (stmts : List Stmt) : Progn :=
  ⟨⟨⟨0x8048000, 0, 0⟩, none⟩, [], stmts⟩

def sampleState (stmts : List Stmt) : NodeState :=
  ⟨⟨fun _ => .raw (sampleProgn stmts), 1⟩, 0⟩

/-- A jump over nothing. -/
def forwardJump : List Stmt :=
  [.label ownLabel, .jmp (.name innerLabel), .label innerLabel,
    .jmp (.name nextLabel)]

def bareJump : List Stmt := [.jmp (.name nextLabel)]

/-- A loop that counts a variable down. -/
def countdown : List Stmt :=
  let t : Var := ⟨0, .ofAscii "T_0", .reg32⟩
  [.label ownLabel, .move (.temp t) (.binOp .minus (.temp t) (.int .reg32 1)),
    .cjmp (.temp t) (.name ownLabel) (.name nextLabel)]

theorem decodes_ownLabel : Decodes ownLabel := ⟨_, decodeEip_ownLabel⟩
theorem decodes_nextLabel : Decodes nextLabel := ⟨_, decodeEip_nextLabel⟩
theorem decodes_innerLabel : Decodes innerLabel := ⟨_, decodeEip_innerLabel⟩

theorem walked_bareJump : ∀ st ∈ bareJump, Walked st :=
  List.forall_mem_cons.mpr ⟨decodes_nextLabel, List.forall_mem_nil _⟩

theorem walked_forwardJump : ∀ st ∈ forwardJump, Walked st :=
  List.forall_mem_cons.mpr ⟨decodes_ownLabel,
    List.forall_mem_cons.mpr ⟨decodes_innerLabel,
      List.forall_mem_cons.mpr ⟨decodes_innerLabel, walked_bareJump⟩⟩⟩

theorem walked_countdown : ∀ st ∈ countdown, Walked st :=
  List.forall_mem_cons.mpr ⟨decodes_ownLabel,
    List.forall_mem_cons.mpr ⟨trivial,
      List.forall_mem_cons.mpr ⟨⟨decodes_ownLabel, decodes_nextLabel⟩,
        List.forall_mem_nil _⟩⟩⟩

theorem scan_forwardJump :
    scan 0x8048000 forwardJump =
      ([.label ownLabel],
        .jmp (.name innerLabel) :: .label innerLabel :: bareJump) := by
  simp only [forwardJump, bareJump, scan, decodeEip_ownLabel, if_true]

theorem not_loops_bareJump : ¬Loops 0x8048000 bareJump := by
  intro h
  obtain ⟨st, hst, l, hl, hpc⟩ := h.internal
  cases hst
  rw [List.mem_singleton.mp hl] at hpc
  exact hpc ⟨_, decodeEip_nextLabel⟩

theorem not_loops_forwardJump : ¬Loops 0x8048000 forwardJump := by
  have hfind : findInternal 1 (.label innerLabel :: bareJump) =
      some bareJump := by
    rw [findInternal, if_pos decodeEip_innerLabel]
  intro h
  cases h with
  | back hscan hl hnum hrest =>
    rw [scan_forwardJump] at hscan
    cases hscan
    rw [List.mem_singleton.mp hl, decodeEip_innerLabel] at hnum
    cases hnum
    cases hfind.symm.trans hrest
  | forward hscan hnum hrest hloops =>
    rw [scan_forwardJump] at hscan
    cases hscan
    rw [decodeEip_innerLabel] at hnum
    cases hnum
    cases hfind.symm.trans hrest
    exact not_loops_bareJump hloops

/-- A jump forward is taken for a loop, and a jump with nothing before it fails
an assertion. -/
theorem not_preservesControl :
    (¬PreservesControl .default (sampleState forwardJump) 0
      (sampleProgn forwardJump)) ∧
    ¬PreservesControl .default (sampleState bareJump) 0
      (sampleProgn bareJump) := by
  constructor
  · intro h
    have hscan : scan (sampleProgn forwardJump).eip
        (sampleProgn forwardJump).stmts = _ := scan_forwardJump
    have hiff := preservesControl_iff_loops (o := .default)
      (s := sampleState forwardJump) Nat.zero_lt_one rfl walked_forwardJump (by
        rw [hscan]
        exact wsl_jmp_internal decodeEip_innerLabel (fun st hst =>
          walked_forwardJump st
            (List.mem_cons_of_mem _ (List.mem_cons_of_mem _ hst))) _)
    exact not_loops_forwardJump (hiff.mp h).1
  · intro h
    have hiff := preservesControl_iff_undecoded (o := .default)
      (s := sampleState bareJump) 0x8048005 1 Nat.zero_lt_one rfl
      walked_bareJump (fun accum => wsl_jmp decodeEip_nextLabel accum []) (by
        intro D μ M σ
        change execStep M 0x8048000 bareJump (bareJump, σ) = _
        rw [bareJump, execStep, transfer, decodeEip_nextLabel])
    exact hiff.mp h rfl

theorem scan_countdown :
    scan 0x8048000 countdown = (countdown.take 2, countdown.drop 2) := by
  simp only [countdown, scan, decodeEip_ownLabel, if_true]
  rfl

theorem handled_countdown : (sampleProgn countdown).Handled := by
  have hscan : scan (sampleProgn countdown).eip
      (sampleProgn countdown).stmts = _ := scan_countdown
  refine .inr ⟨?_, .inr ?_⟩
  · rw [hscan]
    intro st hst l hl
    cases hst
    rcases List.mem_pair.mp hl with rfl | rfl
    · exact ⟨_, decodeEip_ownLabel⟩
    · exact ⟨_, decodeEip_nextLabel⟩
  · rw [hscan]
    exact List.cons_ne_nil _ _

/-- The loop is a segment and a branch. -/
theorem preservesControl_countdown :
    PreservesControl .default (sampleState countdown) 0
      (sampleProgn countdown) :=
  (preservesControl_iff Nat.zero_lt_one rfl walked_countdown).mpr
    handled_countdown

end Samples

end Fuzzball.Veritesting
