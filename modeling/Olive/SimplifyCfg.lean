import Mathlib.Algebra.GroupWithZero.Nat
import Olive.Cfg

namespace Olive

section Branches

def switchTo (v : Word) (targets : List (Word × BasicBlockId)) (otherwise : BasicBlockId) :
    BasicBlockId :=
  ((targets.find? fun t => decide (t.1 = v)).map (·.2)).getD otherwise

/-- A switch on a constant, or with one target only, becomes a jump. -/
def TerminatorKind.simplify : TerminatorKind → TerminatorKind
  | .switchInt (.const (.bool b)) targets otherwise =>
    .goto (switchTo (if b then 1 else 0) targets otherwise)
  | .switchInt (.const (.int v)) targets otherwise => .goto (switchTo v targets otherwise)
  | .switchInt discr targets otherwise =>
    if targets.all fun t => decide (t.2 = otherwise) then .goto otherwise
    else .switchInt discr targets otherwise
  | kind => kind

def BasicBlock.simplifyBranch (block : BasicBlock) : BasicBlock :=
  { block with terminator := block.terminator.map fun t => { t with kind := t.kind.simplify } }

def branchSimplification (f : MirFunction) : MirFunction :=
  { f with basicBlocks := f.basicBlocks.map BasicBlock.simplifyBranch }

end Branches

section Merging

def BasicBlock.successors (block : BasicBlock) : List BasicBlockId :=
  block.terminator.elim [] (·.kind.successors)

/-- The edges into a block, and one more into the entry block. -/
def predCount (f : MirFunction) (t : BasicBlockId) : Nat :=
  (if t = 0 then 1 else 0) + (f.basicBlocks.map fun block => block.successors.count t).sum

/-- The only predecessor takes over the statements and the terminator of its successor. -/
def BasicBlock.absorb (block target : BasicBlock) : BasicBlock :=
  ⟨block.statements ++ target.statements, target.terminator⟩

def absorbed : BasicBlock := ⟨[], some ⟨.unreachable, .default⟩⟩

/-- The block that block `i` can absorb, by predecessor counts taken before any merge. -/
def mergeTarget (counts : BasicBlockId → Nat) (f : MirFunction) (i : BasicBlockId) :
    Option BasicBlockId :=
  match f.terminatorAt i with
  | some ⟨.goto t, _⟩ =>
    if t ≠ i ∧ t < f.basicBlocks.length ∧ t ≠ 0 ∧ counts t = 1 then some t else none
  | _ => none

def mergeBlocks (f : MirFunction) (i t : BasicBlockId) : MirFunction :=
  match f.basicBlocks[i]?, f.basicBlocks[t]? with
  | some block, some target =>
    { f with basicBlocks := (f.basicBlocks.set i (block.absorb target)).set t absorbed }
  | _, _ => f

def mergeAt (counts : BasicBlockId → Nat) (f : MirFunction) (i : BasicBlockId) : MirFunction :=
  match mergeTarget counts f i with
  | some t => mergeBlocks f i t
  | none => f

def mergeLinearBlocks (f : MirFunction) : MirFunction :=
  if f.basicBlocks.length ≤ 1 then f
  else (List.range f.basicBlocks.length).foldl (mergeAt (predCount f)) f

end Merging

section Elimination

variable (f : MirFunction)

/-- A successor not marked yet is marked and put on the worklist. -/
def markSuccessor (acc : List BasicBlockId × List BasicBlockId) (s : BasicBlockId) :
    List BasicBlockId × List BasicBlockId :=
  if s < f.basicBlocks.length ∧ s ∉ acc.1 then (s :: acc.1, s :: acc.2) else acc

def markReachable : Nat → List BasicBlockId → List BasicBlockId → List BasicBlockId
  | 0, marked, _ => marked
  | _ + 1, marked, [] => marked
  | fuel + 1, marked, idx :: worklist =>
    let acc := (f.successors idx).foldl (markSuccessor f) (marked, worklist)
    markReachable fuel acc.1 acc.2

/-- Each block is on the worklist once. -/
def reachableBlocks : List BasicBlockId := markReachable f (f.basicBlocks.length + 1) [0] [0]

def remap (reachable : List BasicBlockId) (b : BasicBlockId) : BasicBlockId :=
  if b ∈ reachable then ((List.range b).filter fun i => decide (i ∈ reachable)).length else 0

def BasicBlock.mapTargets (g : BasicBlockId → BasicBlockId) (block : BasicBlock) : BasicBlock :=
  { block with terminator := block.terminator.map fun t => { t with kind := t.kind.mapTargets g } }

/-- The blocks that stay, under their new numbers. -/
def keepBlocks (reachable : List BasicBlockId) : MirFunction :=
  { f with
    basicBlocks := (f.basicBlocks.zipIdx.filter fun p => decide (p.2 ∈ reachable)).map fun p =>
      p.1.mapTargets (remap reachable) }

def unreachableBlockElimination : MirFunction :=
  if f.basicBlocks.length ≤ 1 ∨ ∀ b ∈ List.range f.basicBlocks.length, b ∈ reachableBlocks f then f
  else keepBlocks f (reachableBlocks f)

end Elimination

def simplifyCfg (f : MirFunction) : MirFunction :=
  unreachableBlockElimination (mergeLinearBlocks (branchSimplification f))

end Olive
