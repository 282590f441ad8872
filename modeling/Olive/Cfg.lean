import Olive.Counting
import Olive.FlowGraph
import Olive.Ir

namespace Olive

open FlowGraph Counting

def TerminatorKind.successors : TerminatorKind → List BasicBlockId
  | .goto target => [target]
  | .switchInt _ targets otherwise => targets.map (·.2) ++ [otherwise]
  | .ret | .unreachable => []

def TerminatorKind.mapTargets (g : BasicBlockId → BasicBlockId) : TerminatorKind → TerminatorKind
  | .goto target => .goto (g target)
  | .switchInt discr targets otherwise =>
    .switchInt discr (targets.map fun t => (t.1, g t.2)) (g otherwise)
  | kind => kind

def MirFunction.terminatorAt (f : MirFunction) (bb : BasicBlockId) : Option Terminator :=
  f.basicBlocks[bb]?.bind (·.terminator)

def MirFunction.stmtsAt (f : MirFunction) (bb : BasicBlockId) : List Statement :=
  match f.basicBlocks[bb]? with
  | some block => block.statements
  | none => []

def MirFunction.successors (f : MirFunction) (bb : BasicBlockId) : List BasicBlockId :=
  match f.terminatorAt bb with
  | some term => term.kind.successors
  | none => []

def MirFunction.predecessors (f : MirFunction) (bb : BasicBlockId) : List BasicBlockId :=
  preds f.successors f.basicBlocks.length bb

/-- Control leaves the function at the end of block `bb`. -/
def MirFunction.returnsAt (f : MirFunction) (bb : BasicBlockId) : Bool :=
  match f.terminatorAt bb with
  | some term => term.kind == .ret
  | none => false

/-- The statements run by passing through the blocks `before` in order. -/
def MirFunction.walkStmts (f : MirFunction) (before : List BasicBlockId) : List Statement :=
  before.flatMap f.stmtsAt

/-- The local a statement assigns. -/
def Statement.dst? (stmt : Statement) : Option Local :=
  match stmt.kind with
  | .assign dst _ => some dst
  | _ => none

/-- The object a store writes through. -/
def StatementKind.storeBase : StatementKind → Option Local
  | .setAttr obj _ _ | .setIndex obj _ _ _ | .vectorStore obj _ _ => obj.local?
  | .ptrStore ptr _ => ptr.local?
  | _ => none

/-- The local a statement counts as an assignment of: a store counts for its object. -/
def Statement.writes? (stmt : Statement) : Option Local := stmt.dst?.or stmt.kind.storeBase

theorem Statement.dst?_eq_some {stmt : Statement} {dst : Local} :
    stmt.dst? = some dst ↔ ∃ rval, stmt.kind = .assign dst rval := by
  unfold dst?
  split
  next d rval hk => simp [hk]
  next hn => simpa using fun rval hk => hn _ _ hk

theorem Statement.copy?_eq_some {stmt : Statement} {dst src : Local} :
    stmt.copy? = some (dst, src) ↔
      stmt.kind = .assign dst (.use (.copy src)) ∨ stmt.kind = .assign dst (.use (.move src)) := by
  unfold copy?
  split
  next d s hk => simp [hk]
  next d s hk => simp [hk]
  next h1 h2 =>
    constructor
    · intro h
      simp at h
    · rintro (hk | hk)
      · exact absurd hk (h1 _ _)
      · exact absurd hk (h2 _ _)

theorem MirFunction.lt_of_successors {f : MirFunction} {p bb : BasicBlockId}
    (h : bb ∈ f.successors p) : p < f.basicBlocks.length := by
  by_contra hp
  simp [successors, terminatorAt, List.getElem?_eq_none (Nat.le_of_not_lt hp)] at h

theorem MirFunction.mem_predecessors {f : MirFunction} {p bb : BasicBlockId} :
    p ∈ f.predecessors bb ↔ bb ∈ f.successors p := by
  rw [predecessors, mem_preds]
  exact ⟨fun h => h.2, fun h => ⟨lt_of_successors h, h⟩⟩

theorem zero_not_successor {f : MirFunction} (h0 : f.predecessors 0 = []) {p : BasicBlockId} :
    0 ∉ f.successors p := by
  intro h
  have hmem := MirFunction.mem_predecessors.mpr h
  rw [h0] at hmem
  simp at hmem

theorem walk_to_entry {f : MirFunction} (h0 : f.predecessors 0 = []) {before : List BasicBlockId}
    (hw : Walk f.successors before 0) : before = [] := by
  generalize hb : 0 = bb at hw
  cases hw with
  | entry => rfl
  | step _ hs => exact absurd (hb ▸ hs) (zero_not_successor h0)

theorem MirFunction.lt_of_returnsAt {f : MirFunction} {bb : BasicBlockId}
    (h : f.returnsAt bb = true) : bb < f.basicBlocks.length := by
  by_contra hb
  simp [returnsAt, terminatorAt, List.getElem?_eq_none (Nat.le_of_not_lt hb)] at h

theorem MirFunction.walkStmts_concat (f : MirFunction) (before : List BasicBlockId)
    (p : BasicBlockId) : f.walkStmts (before ++ [p]) = f.walkStmts before ++ f.stmtsAt p := by
  simp [walkStmts]

section Places

variable {f : MirFunction}

theorem stmtsAt_of_block {bb : BasicBlockId} {block : BasicBlock}
    (h : f.basicBlocks[bb]? = some block) : f.stmtsAt bb = block.statements := by
  rw [MirFunction.stmtsAt, h]

theorem block_of_stmt {bb : BasicBlockId} {idx : Nat} {stmt : Statement}
    (h : (f.stmtsAt bb)[idx]? = some stmt) :
    ∃ block, f.basicBlocks[bb]? = some block ∧ block.statements[idx]? = some stmt := by
  cases hb : f.basicBlocks[bb]? with
  | none => simp [MirFunction.stmtsAt, hb] at h
  | some block => exact ⟨block, rfl, stmtsAt_of_block hb ▸ h⟩

theorem mem_statements {bb : BasicBlockId} {stmt : Statement} (h : stmt ∈ f.stmtsAt bb) :
    stmt ∈ f.statements := by
  unfold MirFunction.stmtsAt at h
  split at h
  next block hb => exact List.mem_flatMap.mpr ⟨block, List.mem_of_getElem? hb, h⟩
  next => simp at h

/-- A kind of statement that occurs once stands in one place. -/
theorem stmt_place_unique {p : Statement → Bool} (h : (f.statements.filter p).length ≤ 1)
    {b b' : BasicBlockId} {i i' : Nat} {stmt stmt' : Statement}
    (hs : (f.stmtsAt b)[i]? = some stmt) (hp : p stmt = true)
    (hs' : (f.stmtsAt b')[i']? = some stmt') (hp' : p stmt' = true) : b = b' ∧ i = i' := by
  obtain ⟨block, hb, hi⟩ := block_of_stmt hs
  obtain ⟨block', hb', hi'⟩ := block_of_stmt hs'
  have hbb : b = b' := filter_one_block h hb hb' ⟨stmt, List.mem_of_getElem? hi, hp⟩
    ⟨stmt', List.mem_of_getElem? hi', hp'⟩
  subst hbb
  obtain rfl := Option.some.inj (hb.symm.trans hb')
  have hsub : List.Sublist block.statements f.statements :=
    List.sublist_flatten_of_mem (List.mem_map.mpr ⟨block, List.mem_of_getElem? hb, rfl⟩)
  have hcount : (block.statements.filter p).length ≤ 1 := ((hsub.filter _).length_le).trans h
  exact ⟨rfl, filter_one_index hcount hi hi' hp hp'⟩

end Places

end Olive
