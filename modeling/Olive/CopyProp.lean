import Olive.OperandMap

/-! Copy propagation: reads of a copy become reads of its source where each is defined once. -/

namespace Olive

/-- How many statements assign a local. -/
def assignCounts (f : MirFunction) (l : Local) : Nat :=
  (f.statements.filter fun stmt => stmt.dst? = some l).length

def noteCopy (copies : FxHashMap Local Local) (stmt : Statement) : FxHashMap Local Local :=
  match stmt.kind with
  | .assign dest (.use (.copy src)) => copies.insert dest src
  | _ => copies

/-- `copy_assignments`: the source each local was last seen copied from. -/
def copyAssignments (f : MirFunction) : FxHashMap Local Local :=
  f.statements.foldl noteCopy .empty

/-- A parameter has an entry binding on top of its assignments. -/
def defCount (f : MirFunction) (l : Local) : Nat :=
  if 1 ≤ l ∧ l ≤ f.argCount then assignCounts f l + 1 else assignCounts f l

def isOwningMoveLocal (f : MirFunction) (l : Local) : Bool :=
  match f.locals[l]? with
  | some decl => decl.ty.isMoveType && decl.isOwning
  | none => false

def safeCopies (f : MirFunction) : FxHashMap Local Local := fun dest =>
  match copyAssignments f dest with
  | some src =>
    if defCount f dest = 1 ∧ defCount f src ≤ 1 ∧ isOwningMoveLocal f src = false then some src
    else none
  | none => none

def Operand.propagateCopies (map : FxHashMap Local Local) : Operand → Operand
  | .copy l => .copy ((map l).getD l)
  | op => op

/-- `CopyPropagation::run`. -/
def copyProp (f : MirFunction) : MirFunction := f.rewrite (·.propagateCopies (safeCopies f))

end Olive
