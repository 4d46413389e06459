import Fuzzball.DecisionTreeStore
import Fuzzball.Heap
import Fuzzball.OCamlNumerals
import Fuzzball.StatefulExceptions
import Fuzzball.VineStatements

/-!
# Nodes of veritesting

`consider_statements` of `exec_veritesting_general_search_components.ml`.  It
walks over the statements of a raw node up to the first that decides where
control goes, and completes the node with a segment of the statements it kept.
Nodes are records that are updated in place; they are given by their addresses.
-/

namespace Fuzzball.Veritesting

open Vine DecisionTree

/-! ## Labels -/

inductive VineLabel
  | x86eip (eip : I64)
  | internal (num : ℤ)
  deriving DecidableEq, Repr

/-- `s.[i]` -/
def charAt (s : OString) (i : ℕ) : OCaml UInt8 :=
  match s[i]? with
  | some c => pure c
  | none => throw (.invalidArgument "index out of bounds")

/-- The string starts with the characters, which are looked at one by one. -/
def startsWith (s : OString) : ℕ → OString → OCaml Bool
  | _, [] => pure true
  | i, c :: cs => do
    if (← charAt s i) = c then startsWith s (i + 1) cs else pure false

def labelToEip (s : OString) : OCaml I64 := do
  if ← startsWith s 0 (.ofAscii "pc_") then
    int64OfString (← s.sub 3 (s.length - 3))
  else
    throw (.failure ("label_to_eip: |" ++ s.toText ++
      "| isn't of the expected form pc_<hex>"))

def decodeEip (str : OString) : OCaml VineLabel := do
  if ← startsWith str 0 (.ofAscii "L_") then
    pure (.internal (← intOfString (← str.sub 2 (str.length - 2))))
  else
    pure (.x86eip (← labelToEip str))

/-! ## Nodes -/

structure Common where
  eip : I64
  parent : ℕ
  depth : ℤ

structure Minimal where
  core : Common
  next : Option ℕ

structure Progn where
  core : Minimal
  decls : List Var
  stmts : List Stmt

structure Branch where
  core : Common
  test : Exp
  trueChild : ℕ
  falseChild : ℕ

inductive FinishedType
  | externalLoop (eip : I64)
  | internalLoop (eip : I64)
  | ret (eip : I64)
  | halt (eip : I64)
  | funCall (eip : I64)
  | sysCall (eip : I64)
  | special (eip : I64)
  | searchLimit (eip : I64)
  | branch (b : Branch)
  | segment (p : Progn)

inductive VNode
  | undecoded (m : Minimal)
  | raw (p : Progn)
  | completed (ft : FinishedType)

def Progn.eip (p : Progn) : I64 := p.core.core.eip
def Progn.depth (p : Progn) : ℤ := p.core.core.depth
def Progn.next (p : Progn) : Option ℕ := p.core.next

def Progn.setNext (p : Progn) (next : Option ℕ) : Progn :=
  { p with core := { p.core with next := next } }

inductive NodeExn
  | unexpectedEip
  | store (x : StoreExn)
  deriving DecidableEq, Repr

structure NodeState where
  nodes : Heap VNode
  weirdCount : ℤ

abbrev Nodes (α : Type) := Stateful NodeExn NodeState α

def lift {α : Type} (x : OCaml α) : Except NodeExn α :=
  x.mapError fun e => .store (.exn e)

def raising {α : Type} (x : Except NodeExn α) : Nodes α :=
  match x with
  | .ok a => pure a
  | .error e => throw e

def assert (o : AssertOptions) (assertion : Bool) (sawAt : String) :
    Nodes Unit := do
  let s ← get
  let (r, w) := gAssert o assertion 100 sawAt s.weirdCount
  set { s with weirdCount := w }
  match r with
  | .ok _ => pure ()
  | .error e => throw (.store e)

def new (n : VNode) : Nodes ℕ := do
  let s ← get
  set { s with nodes := s.nodes.push n }
  pure s.nodes.next

def setNode (a : ℕ) (n : VNode) : Nodes Unit :=
  modify fun s => { s with nodes := s.nodes.set a n }

/-- The branch holds itself as the parent of its children. -/
def newBranch (core : Common) (test : Exp) (trueChild falseChild : ℕ → VNode) :
    Nodes ℕ := do
  let branch := (← get).nodes.next
  let _ ← new (.completed (.branch ⟨core, test, branch + 1, branch + 2⟩))
  let _ ← new (trueChild branch)
  let _ ← new (falseChild branch)
  pure branch

/-! ## Statements -/

def walkToLabelHelp (targetLabel : ℤ) :
    List Stmt → Except NodeExn (Option (List Stmt))
  | [] => pure none
  | .expStmt (.name label) :: tail => do
    match ← lift (decodeEip label) with
    | .x86eip _ => throw .unexpectedEip
    | .internal ilabel =>
      if targetLabel = ilabel then pure (some tail)
      else walkToLabelHelp targetLabel tail
  | _ :: tail => walkToLabelHelp targetLabel tail

def walkToLabel (targetLabel : OString) (tail : List Stmt) :
    Except NodeExn (Option (List Stmt)) := do
  match ← lift (decodeEip targetLabel) with
  | .x86eip _ => throw .unexpectedEip
  | .internal ilabel => walkToLabelHelp ilabel tail

def VNode.setParent (target : ℕ) : VNode → VNode
  | .undecoded m =>
    .undecoded { m with core := { m.core with parent := target } }
  | .raw p =>
    .raw { p with core := { p.core with
      core := { p.core.core with parent := target } } }
  | .completed (.branch b) =>
    .completed (.branch { b with core := { b.core with parent := target } })
  | .completed (.segment p) =>
    .completed (.segment { p with core := { p.core with
      core := { p.core.core with parent := target } } })
  | n => n

def replaceParent (target a : ℕ) : Nodes Unit :=
  modify fun s =>
    { s with nodes := s.nodes.set a ((s.nodes.get a).setParent target) }

def completeNode (o : AssertOptions) (rawNode child : ℕ) (sl : List Stmt)
    (dl : List Var) : Nodes ℕ := do
  assert o (!sl.isEmpty)
    "Exec_veritesting_general_search_components.complete_node"
  match (← get).nodes.get rawNode with
  | .raw progn =>
    let closedVariant ← new (.completed (.segment
      ⟨⟨⟨progn.eip, rawNode, progn.depth⟩, some child⟩, dl, sl.reverse⟩))
    setNode rawNode (.raw (progn.setNext (some closedVariant)))
    replaceParent closedVariant child
    pure closedVariant
  | _ => throw (.store (.exn (.failure
      "Should only be able to call complete node on a raw_node")))

def addExit (o : AssertOptions) (rawNode : ℕ) (progn : Progn)
    (ft : FinishedType) : Nodes ℕ := do
  let next ← new (.completed ft)
  assert o progn.next.isNone
    "Exec_veritesting_general_search_components.add_exit"
  setNode rawNode (.raw (progn.setNext (some next)))
  pure next

theorem length_walkToLabelHelp {n : ℤ} {tail rest : List Stmt}
    (h : walkToLabelHelp n tail = .ok (some rest)) :
    rest.length < tail.length := by
  fun_induction walkToLabelHelp n tail with
  | case1 => cases h
  | case2 label tail ih =>
    cases hlabel : lift (decodeEip label) with
    | error x =>
      rw [hlabel] at h
      cases h
    | ok target =>
      rw [hlabel] at h
      cases target with
      | x86eip eip => cases h
      | internal num =>
        by_cases heq : n = num
        · have hrest : (.ok (some tail) : Except NodeExn _) =
              .ok (some rest) := by
            simpa only [bind, Except.bind, pure, Except.pure, heq, if_true]
              using h
          cases hrest
          exact Nat.lt_succ_self _
        · have hrest : walkToLabelHelp n tail = .ok (some rest) := by
            simpa only [bind, Except.bind, heq, if_false] using h
          exact (ih hrest).trans (Nat.lt_succ_self _)
  | case3 st tail _ ih => exact (ih h).trans (Nat.lt_succ_self _)

theorem length_walkToLabel {l : OString} {tail rest : List Stmt}
    (h : walkToLabel l tail = .ok (some rest)) :
    rest.length < tail.length := by
  unfold walkToLabel at h
  cases hlabel : lift (decodeEip l) with
  | error x =>
    rw [hlabel] at h
    cases h
  | ok target =>
    rw [hlabel] at h
    cases target with
    | x86eip eip => cases h
    | internal num => exact length_walkToLabelHelp h

section Consider

variable (o : AssertOptions) (node : ℕ) (progn : Progn)

def undecodedChild (eip : I64) (depth : ℤ) (parent : ℕ) : VNode :=
  .undecoded ⟨⟨eip, parent, depth⟩, none⟩

/-- A raw child, with the address of the instruction instead of the label's. -/
def rawChild (stmts : List Stmt) (depth : ℤ) (parent : ℕ) : VNode :=
  .raw ⟨⟨⟨progn.eip, parent, depth⟩, none⟩, [], stmts⟩

/-- The loop of `consider_statements`. -/
def wsl (accum : List Stmt) : List Stmt → Nodes ℕ
  | [] => do
    let comp ← new (.completed (.segment
      ⟨⟨⟨progn.eip, node, progn.depth⟩, none⟩, progn.decls, accum.reverse⟩))
    setNode node (.raw (progn.setNext (some comp)))
    pure comp
  | stmt :: rest =>
    let childDepth := (1 + progn.depth).bmod (2 ^ 63)
    let core : Common := ⟨progn.eip, node, progn.depth⟩
    match stmt with
    | .special str =>
      if str = .ofAscii "int 0x80" then
        addExit o node progn (.sysCall progn.eip)
      else addExit o node progn (.special progn.eip)
    | .ret _ => addExit o node progn (.ret progn.eip)
    | .call _ _ _ => addExit o node progn (.funCall progn.eip)
    | .halt _ => addExit o node progn (.halt progn.eip)
    | .label l => do
      match ← raising (lift (decodeEip l)) with
      | .x86eip eip =>
        if progn.eip = eip then wsl (stmt :: accum) rest
        else
          let child ← new (undecodedChild eip progn.depth node)
          completeNode o node child accum progn.decls
      | .internal _ => wsl accum rest
    | .jmp (.name l) => do
      match ← raising (lift (decodeEip l)) with
      | .x86eip eip =>
        let child ← new (undecodedChild eip childDepth node)
        completeNode o node child accum progn.decls
      | .internal _ =>
        match h : walkToLabel l rest with
        | .error x => throw x
        | .ok none => addExit o node progn (.internalLoop progn.eip)
        | .ok (some rest') =>
          have := length_walkToLabel h
          wsl accum rest'
    | .cjmp test (.name trueLab) (.name falseLab) => do
      -- the components of a pair are evaluated from the right
      let falseTarget ← raising (lift (decodeEip falseLab))
      let trueTarget ← raising (lift (decodeEip trueLab))
      match trueTarget, falseTarget with
      | .x86eip teip, .x86eip feip =>
        let branch ← newBranch core test (undecodedChild teip childDepth)
          (undecodedChild feip childDepth)
        completeNode o node branch accum progn.decls
      | .x86eip teip, .internal _ =>
        match ← raising (walkToLabel falseLab rest) with
        | none => addExit o node progn (.internalLoop progn.eip)
        | some rest' =>
          let branch ← newBranch core test (undecodedChild teip childDepth)
            (rawChild progn rest' childDepth)
          completeNode o node branch accum progn.decls
      | .internal _, .x86eip feip =>
        match ← raising (walkToLabel trueLab rest) with
        | none => addExit o node progn (.internalLoop progn.eip)
        | some rest' =>
          let branch ← newBranch core test (rawChild progn rest' childDepth)
            (undecodedChild feip childDepth)
          completeNode o node branch accum progn.decls
      | .internal _, .internal _ =>
        let fraw ← raising (walkToLabel falseLab rest)
        let traw ← raising (walkToLabel trueLab rest)
        match traw, fraw with
        | some traw, some fraw =>
          let branch ← newBranch core test (rawChild progn traw childDepth)
            (rawChild progn fraw childDepth)
          completeNode o node branch accum progn.decls
        | _, _ => addExit o node progn (.internalLoop progn.eip)
    | _ => wsl (stmt :: accum) rest
termination_by stmts => stmts.length

end Consider

def considerStatements (o : AssertOptions) (node : ℕ) : Nodes ℕ := do
  match (← get).nodes.get node with
  | .raw progn => wsl o node progn [] progn.stmts
  | _ => throw (.store (.exn (.failure "only for raw nodes")))

end Fuzzball.Veritesting
