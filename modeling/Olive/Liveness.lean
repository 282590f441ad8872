import Mathlib.Data.Finset.Basic
import Mathlib.Data.List.Basic
import Olive.AssignedPaths
import Olive.RoundRobin

/-! The locals that may still be read, by rounds backward over the blocks. -/

namespace Olive

open UntilStable RoundRobin

/-- `update_stmt_liveness`: what is live before a statement, from what is live after it. -/
def Statement.updateLiveness (stmt : Statement) (live : Finset Local) : Finset Local :=
  match stmt.kind with
  | .assign dst rval => live.erase dst ∪ rval.locals.toFinset
  | .setAttr _ _ _ | .setIndex _ _ _ _ | .vectorStore _ _ _ | .ptrStore _ _ =>
    live ∪ (stmt.kind.stored.filterMap Operand.local?).toFinset
  | .drop l | .storageDead l => live.erase l
  | .storageLive _ => live
  | .genCheck value generation => insert value (insert generation live)

def Terminator.updateLiveness (term : Option Terminator) (live : Finset Local) : Finset Local :=
  match term with
  | some ⟨.switchInt discr _ _, _⟩ => live ∪ discr.local?.toList.toFinset
  | _ => live

/-- What is live before each statement and, last, before the terminator. -/
def liveThrough : List Statement → Finset Local → List (Finset Local)
  | [], live => [live]
  | stmt :: stmts, live =>
    let rest := liveThrough stmts live
    stmt.updateLiveness (rest.headD ∅) :: rest

def liveBlock (f : MirFunction) (liveAfter : List (List (Finset Local))) (bb : BasicBlockId) :
    List (Finset Local) :=
  let out := (f.successors bb).foldl
    (fun live succ => live ∪ (liveAfter.getD succ []).headD ∅) ∅
  liveThrough (f.stmtsAt bb) (Terminator.updateLiveness (f.terminatorAt bb) out)

/-- `Liveness::compute`, with a budget of rounds. -/
def computeLiveness (f : MirFunction) (fuel : Nat) : Option (List (List (Finset Local))) :=
  untilStable (sweep (relax (liveBlock f)) (List.range f.basicBlocks.length).reverse) fuel
    (f.basicBlocks.map fun block => List.replicate (block.statements.length + 1) ∅)

/-- The locals live at place `idx` of block `bb`. -/
def liveAt (liveAfter : List (List (Finset Local))) (bb : BasicBlockId) (idx : Nat) : Finset Local :=
  (liveAfter.getD bb []).getD idx ∅

/-- The operands read at a place: a borrow reads its variable, a check what it compares. -/
def MirFunction.readAt (f : MirFunction) (bb : BasicBlockId) (idx : Nat) : List Operand :=
  match (f.stmtsAt bb)[idx]? with
  | some ⟨.genCheck value generation, _⟩ => [.copy value, .copy generation]
  | _ => f.operandsAt bb idx

/-- The local whose value a statement ends: by another value, or for good. -/
def StatementKind.kills? : StatementKind → Option Local
  | .assign dst _ => some dst
  | .drop l | .storageDead l => some l
  | _ => none

theorem inputs_locals (rval : Rvalue) :
    rval.inputs.filterMap Operand.local? = rval.locals := by
  cases rval <;> rfl

theorem mem_updateLiveness {f : MirFunction} {bb : BasicBlockId} {idx : Nat} {stmt : Statement}
    (hs : (f.stmtsAt bb)[idx]? = some stmt) {live : Finset Local} {l : Local} :
    l ∈ stmt.updateLiveness live ↔ l ∈ (f.readAt bb idx).filterMap Operand.local? ∨
      l ∈ live ∧ stmt.kind.kills? ≠ some l := by
  obtain ⟨kind, span⟩ := stmt
  have hread : ∀ ops, kind.evaluated = ops → (∀ value generation, kind ≠ .genCheck value generation) →
      f.readAt bb idx = ops := by
    intro ops hops hne
    unfold MirFunction.readAt
    split
    next value generation span' hs' =>
      cases hs.symm.trans hs'
      exact absurd rfl (hne value generation)
    next => simpa only [MirFunction.operandsAt, hs] using hops
  cases kind with
  | genCheck value generation =>
    have hops : f.readAt bb idx = [.copy value, .copy generation] := by
      simp only [MirFunction.readAt, hs]
    simp only [hops, Statement.updateLiveness, StatementKind.kills?, Finset.mem_insert,
      List.filterMap_cons, Operand.local?, List.filterMap_nil, List.mem_cons, List.not_mem_nil]
    grind
  | assign dst rval =>
    rw [hread rval.inputs rfl (fun _ _ h => by cases h), inputs_locals]
    simp only [Statement.updateLiveness, StatementKind.kills?, Finset.mem_union, Finset.mem_erase,
      List.mem_toFinset, ne_eq, Option.some.injEq]
    grind
  | drop x | storageDead x =>
    rw [hread [] rfl (fun _ _ h => by cases h)]
    simp only [Statement.updateLiveness, StatementKind.kills?, Finset.mem_erase, ne_eq,
      Option.some.injEq, List.filterMap_nil, List.not_mem_nil]
    grind
  | storageLive x =>
    rw [hread [] rfl (fun _ _ h => by cases h)]
    simp [Statement.updateLiveness, StatementKind.kills?]
  | setAttr _ _ _ | setIndex _ _ _ _ | vectorStore _ _ _ | ptrStore _ _ =>
    rw [hread _ rfl (fun _ _ h => by cases h)]
    simp only [Statement.updateLiveness, StatementKind.kills?, Finset.mem_union, List.mem_toFinset,
      StatementKind.evaluated, ne_eq, reduceCtorEq, not_false_eq_true, and_true]
    exact or_comm

theorem mem_terminator_updateLiveness {f : MirFunction} {bb : BasicBlockId} {live : Finset Local}
    {l : Local} : l ∈ Terminator.updateLiveness (f.terminatorAt bb) live ↔
      l ∈ (f.readAt bb (f.stmtsAt bb).length).filterMap Operand.local? ∨ l ∈ live := by
  have hend : (f.stmtsAt bb)[(f.stmtsAt bb).length]? = none := List.getElem?_eq_none (Nat.le_refl _)
  simp only [MirFunction.readAt, MirFunction.operandsAt, hend, Terminator.updateLiveness]
  cases f.terminatorAt bb with
  | none => simp
  | some term =>
    obtain ⟨kind, span⟩ := term
    cases kind with
    | switchInt discr targets otherwise =>
      simp only [Finset.mem_union, List.mem_toFinset, List.filterMap_cons, List.filterMap_nil]
      cases discr.local? <;> simp [or_comm]
    | goto _ | ret | unreachable => simp

theorem liveThrough_length (stmts : List Statement) (live : Finset Local) :
    (liveThrough stmts live).length = stmts.length + 1 := by
  induction stmts with
  | nil => rfl
  | cons stmt stmts ih => simp [liveThrough, ih]

theorem liveThrough_last (stmts : List Statement) (live : Finset Local) :
    (liveThrough stmts live)[stmts.length]? = some live := by
  induction stmts with
  | nil => rfl
  | cons stmt stmts ih => simpa [liveThrough] using ih

theorem liveThrough_stmt {stmts : List Statement} {live : Finset Local} {idx : Nat}
    {stmt : Statement} (hs : stmts[idx]? = some stmt) :
    (liveThrough stmts live).getD idx ∅ =
      stmt.updateLiveness ((liveThrough stmts live).getD (idx + 1) ∅) := by
  induction stmts generalizing idx with
  | nil => cases hs
  | cons first stmts ih =>
    cases idx with
    | zero =>
      obtain rfl := Option.some.inj hs
      simp [liveThrough, List.getD_eq_getElem?_getD, List.headD_eq_head?_getD,
        List.head?_eq_getElem?]
    | succ idx =>
      have h := @ih idx hs
      simpa [liveThrough, List.getD_eq_getElem?_getD] using h

theorem mem_union_fold {sets : Nat → Finset Local} {succs : List Nat} {init : Finset Local}
    {l : Local} : l ∈ succs.foldl (fun live succ => live ∪ sets succ) init ↔
      l ∈ init ∨ ∃ succ ∈ succs, l ∈ sets succ := by
  induction succs generalizing init with
  | nil => simp
  | cons succ succs ih =>
    rw [List.foldl_cons, ih, Finset.mem_union]
    simp [or_assoc]

theorem mem_liveBlock_stmt {f : MirFunction} {liveAfter : List (List (Finset Local))}
    {bb : BasicBlockId} {idx : Nat} {stmt : Statement} (hs : (f.stmtsAt bb)[idx]? = some stmt)
    {l : Local} : l ∈ (liveBlock f liveAfter bb).getD idx ∅ ↔
      l ∈ (f.readAt bb idx).filterMap Operand.local? ∨
        l ∈ (liveBlock f liveAfter bb).getD (idx + 1) ∅ ∧ stmt.kind.kills? ≠ some l := by
  rw [liveBlock, liveThrough_stmt hs, mem_updateLiveness hs]

theorem mem_liveBlock_term {f : MirFunction} {liveAfter : List (List (Finset Local))}
    {bb : BasicBlockId} {l : Local} :
    l ∈ (liveBlock f liveAfter bb).getD (f.stmtsAt bb).length ∅ ↔
      l ∈ (f.readAt bb (f.stmtsAt bb).length).filterMap Operand.local? ∨
        ∃ succ ∈ f.successors bb, l ∈ liveAt liveAfter succ 0 := by
  have hhead : ∀ succ, (liveAfter.getD succ []).headD ∅ = liveAt liveAfter succ 0 := by
    intro succ
    rw [liveAt, List.headD_eq_head?_getD, List.head?_eq_getElem?, List.getD_eq_getElem?_getD,
      List.getD_eq_getElem?_getD]
  rw [liveBlock, getD_of_some (liveThrough_last _ _), mem_terminator_updateLiveness, mem_union_fold]
  simp only [hhead, Finset.notMem_empty, false_or]

section Equations

variable {f : MirFunction} {fuel : Nat} {liveAfter : List (List (Finset Local))}

theorem computeLiveness_length (h : computeLiveness f fuel = some liveAfter) :
    liveAfter.length = f.basicBlocks.length := by
  refine untilStable_invariant (P := fun s => s.length = f.basicBlocks.length) ?_ (by simp) h
  intro s hs
  have hrelax : ∀ s : List (List (Finset Local)), ∀ b ∈ (List.range f.basicBlocks.length).reverse,
      s.length = f.basicBlocks.length →
      (relax (liveBlock f) s b).1.length = f.basicBlocks.length :=
    fun s b _ hs => (relax_length s b).trans hs
  exact sweep_invariant hrelax hs

theorem liveAfter_block (h : computeLiveness f fuel = some liveAfter) {bb : BasicBlockId}
    (hbb : bb < f.basicBlocks.length) : liveAfter.getD bb [] = liveBlock f liveAfter bb := by
  refine getD_of_some (stable_of_sweeps h ?_ ?_)
  · rwa [List.mem_reverse, List.mem_range]
  · rwa [computeLiveness_length h]

/-- Live before a statement is what it reads, and what is live after it and not ended by it. -/
theorem mem_liveAt_stmt (h : computeLiveness f fuel = some liveAfter) {bb : BasicBlockId} {idx : Nat}
    {stmt : Statement} (hs : (f.stmtsAt bb)[idx]? = some stmt) {l : Local} :
    l ∈ liveAt liveAfter bb idx ↔ l ∈ (f.readAt bb idx).filterMap Operand.local? ∨
      l ∈ liveAt liveAfter bb (idx + 1) ∧ stmt.kind.kills? ≠ some l := by
  obtain ⟨block, hb, _⟩ := block_of_stmt hs
  have hbb : bb < f.basicBlocks.length := (List.getElem?_eq_some_iff.mp hb).1
  rw [liveAt, liveAt, liveAfter_block h hbb, mem_liveBlock_stmt hs]

/-- Live before a terminator is what it reads, and what is live where it goes. -/
theorem mem_liveAt_term (h : computeLiveness f fuel = some liveAfter) {bb : BasicBlockId}
    (hbb : bb < f.basicBlocks.length) {l : Local} :
    l ∈ liveAt liveAfter bb (f.stmtsAt bb).length ↔
      l ∈ (f.readAt bb (f.stmtsAt bb).length).filterMap Operand.local? ∨
        ∃ succ ∈ f.successors bb, l ∈ liveAt liveAfter succ 0 := by
  rw [liveAt, liveAfter_block h hbb, mem_liveBlock_term]

end Equations

end Olive
