import Olive.LoopUtils
import Olive.OperandMap

namespace Olive

open Lockstep

def OliveType.isUnion : OliveType → Bool
  | .union _ => true
  | _ => false

/-- How often each local counts as assigned, and the constant last seen assigned to it. -/
structure ConstAssignments where
  counts : Local → Nat
  consts : FxHashMap Local Constant

def ConstAssignments.count (acc : ConstAssignments) (l : Local) (weight : Nat) :
    ConstAssignments :=
  { acc with counts := fun x => if x = l then acc.counts x + weight else acc.counts x }

/-- A `T | None` union is stored as a raw word, so its constants are not interchangeable with it. -/
def ConstAssignments.note (decls : List LocalDecl) (weight : Nat) (acc : ConstAssignments)
    (stmt : Statement) : ConstAssignments :=
  match stmt.kind with
  | .assign dst rval =>
    let counted := acc.count dst weight
    match rval with
    | .use (.const c) =>
      if (tyOf decls dst).isUnion then counted
      else { counted with consts := counted.consts.insert dst c }
    | _ => counted
  | kind =>
    match kind.storeBase with
    | some l => acc.count l weight
    | none => acc

def loopBlocks (f : MirFunction) : List BasicBlockId :=
  (findLoops f).flatMap fun lp => lp.header :: lp.body

def collectAssignments (f : MirFunction) : ConstAssignments :=
  f.basicBlocks.zipIdx.foldl
    (fun acc block =>
      block.1.statements.foldl
        (ConstAssignments.note f.locals (if block.2 ∈ loopBlocks f then 2 else 1)) acc)
    ⟨fun _ => 0, .empty⟩

def safeConstants (f : MirFunction) : FxHashMap Local Constant :=
  let acc := collectAssignments f
  fun l => if acc.counts l = 1 then acc.consts l else none

def Operand.propagate (map : FxHashMap Local Constant) (op : Operand) : Operand :=
  match op.local?.bind map with
  | some c => .const c
  | none => op

def Rvalue.propagate (map : FxHashMap Local Constant) (rval : Rvalue) : Rvalue :=
  if rval.propagates then rval.mapOperands (·.propagate map) else rval

def StatementKind.propagateSafe (map : FxHashMap Local Constant) : StatementKind → StatementKind
  | .assign dst rval => .assign dst (rval.propagate map)
  | .setIndex obj idx val unchecked =>
    .setIndex (obj.propagate map) (idx.propagate map) (val.propagate map) unchecked
  | .setAttr obj attr val => .setAttr (obj.propagate map) attr (val.propagate map)
  | .vectorStore obj idx val =>
    .vectorStore (obj.propagate map) (idx.propagate map) (val.propagate map)
  | kind => kind

def TerminatorKind.propagate (map : FxHashMap Local Constant) : TerminatorKind → TerminatorKind
  | .switchInt discr targets otherwise => .switchInt (discr.propagate map) targets otherwise
  | kind => kind

def BasicBlock.propagateSafe (map : FxHashMap Local Constant) (block : BasicBlock) : BasicBlock :=
  ⟨block.statements.map fun stmt => { stmt with kind := stmt.kind.propagateSafe map },
    block.terminator.map fun term => { term with kind := term.kind.propagate map }⟩

def StatementKind.propagateAssign (map : FxHashMap Local Constant) : StatementKind → StatementKind
  | .assign dst rval => .assign dst (rval.propagate map)
  | kind => kind

/-- The constants known within a block, past one more statement. -/
def noteConst (decls : List LocalDecl) (consts : FxHashMap Local Constant) (stmt : Statement) :
    FxHashMap Local Constant :=
  match stmt.kind with
  | .assign dst rval =>
    match rval.propagate consts with
    | .use (.const c) =>
      if (tyOf decls dst).isUnion then consts.remove dst else consts.insert dst c
    | _ => consts.remove dst
  | _ => consts

def localConsts (decls : List LocalDecl) (before : List Statement) : FxHashMap Local Constant :=
  before.foldl (noteConst decls) .empty

def BasicBlock.propagateLocal (decls : List LocalDecl) (block : BasicBlock) : BasicBlock :=
  { block with
    statements := block.statements.zipIdx.map fun stmt =>
      { stmt.1 with
        kind := stmt.1.kind.propagateAssign (localConsts decls (block.statements.take stmt.2)) } }

def constPropSafe (f : MirFunction) : MirFunction :=
  { f with basicBlocks := f.basicBlocks.map (BasicBlock.propagateSafe (safeConstants f)) }

/-- `ConstantPropagation::run`: first across the function, then within each block. -/
def constProp (f : MirFunction) : MirFunction :=
  let g := constPropSafe f
  { g with basicBlocks := g.basicBlocks.map (BasicBlock.propagateLocal f.locals) }

end Olive
