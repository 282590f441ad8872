import Mathlib.Data.List.Sort
import Olive.OwnedRuns

/-! Move elision. -/

namespace Olive

open OwnedRuns

namespace MoveElision

section Promote

variable (decls : List LocalDecl) (liveAfter : Finset Local)

def owns (l : Local) : Bool := (decls[l]?).any fun decl => decl.isOwning && decl.ty.isMoveType

def optimizeOperand (op : Operand) : Operand :=
  match op with
  | .copy l => if l ∉ liveAfter ∧ owns decls l then .move l else .copy l
  | op => op

def isCopy : Operand → Bool
  | .copy _ => true
  | _ => false

/-- `optimize_statement`. -/
def optimizeStatement (kind : StatementKind) : StatementKind :=
  match kind with
  | .assign dst (.use op) =>
    if owns decls dst ∧ ¬(isCopy op ∧ dst ∈ liveAfter) then
      .assign dst (.use (optimizeOperand decls liveAfter op))
    else .assign dst (.use op)
  | .assign dst (.aggregate kind ops) =>
    .assign dst (.aggregate kind (ops.map (optimizeOperand decls liveAfter)))
  | .assign dst (.call func args) =>
    if func = .const (.function "__olive_list_push") then
      .assign dst (.call func (args.modify 1 (optimizeOperand decls liveAfter)))
    else .assign dst (.call func args)
  | .setAttr obj attr val => .setAttr obj attr (optimizeOperand decls liveAfter val)
  | .setIndex obj idx val unchecked => .setIndex obj idx (optimizeOperand decls liveAfter val) unchecked
  | .ptrStore ptr val => .ptrStore ptr (optimizeOperand decls liveAfter val)
  | kind => kind

end Promote

/-- The first `Drop` of `src` from `j` on, unless `src` is assigned before. -/
def dropFrom (src : Local) : List Paired → Nat → Option Nat
  | [], _ => none
  | stmt :: stmts, j =>
    match stmt.2.kind with
    | .drop l => if l = src then some j else dropFrom src stmts (j + 1)
    | .assign d _ => if d = src then none else dropFrom src stmts (j + 1)
    | _ => dropFrom src stmts (j + 1)

/-- The locals whose operand is promoted in a statement. -/
def movedLocals (stmt : Paired) : List Local :=
  (reads stmt).filterMap fun r => if r.promoted then r.after.local? else none

section Pass

variable (f : MirFunction) (liveAfter : List (List (Finset Local)))

/-- The statements of a block, with the last uses promoted. -/
def promoteBlock (bb : BasicBlockId) (stmts : List Statement) : List Paired :=
  stmts.mapIdx fun idx stmt =>
    (stmt, { stmt with kind := optimizeStatement f.locals (liveAt liveAfter bb (idx + 1)) stmt.kind })

/-- The places of the drops to remove, one for each promoted operand that finds one. -/
def dropRemovals (stmts : List Paired) : List Nat :=
  stmts.zipIdx.flatMap fun s =>
    (movedLocals s.1).filterMap fun src => dropFrom src (stmts.drop (s.2 + 1)) (s.2 + 1)

/-- `Vec::remove` at each place; `none` if one is out of range. -/
def removeAll (stmts : List Paired) (places : List Nat) : Option (List Paired) :=
  places.foldlM (fun stmts j => if j < stmts.length then some (stmts.eraseIdx j) else none) stmts

def elideBlock (bb : BasicBlockId) (block : BasicBlock) : Option PairedBlock :=
  let stmts := promoteBlock f liveAfter bb block.statements
  (removeAll stmts ((dropRemovals stmts).insertionSort (· ≥ ·))).map
    fun stmts => ⟨stmts, block.terminator⟩

/-- The blocks after the pass, each statement beside what it was; `none` if a removal panics. -/
def elide : Option (List PairedBlock) := (f.basicBlocks.mapIdx (elideBlock f liveAfter)).mapM id

end Pass

def code (blocks : List PairedBlock) : List BasicBlock :=
  blocks.map fun block => ⟨block.stmts.map Prod.snd, block.terminator⟩

end MoveElision

/-- `MoveElision::run`, with a budget of rounds for the liveness it computes. -/
def moveElision (f : MirFunction) (fuel : Nat) : Option MirFunction :=
  (computeLiveness f fuel).bind fun liveAfter =>
    (MoveElision.elide f liveAfter).map fun blocks => { f with basicBlocks := MoveElision.code blocks }

end Olive
