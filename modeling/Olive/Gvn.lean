import Mathlib.Algebra.GroupWithZero.Nat
import Olive.Cfg
import Olive.ConstProp

/-! Common-subexpression elimination. Every expression leaves the cache in the step that puts it
there, so the pass changes nothing. -/

namespace Olive

/-- `expr == rval` for the expressions that are cached. -/
def Rvalue.sameExpr : Rvalue → Rvalue → Bool
  | .use a, .use b => decide (a = b)
  | .unaryOp op a, .unaryOp op' a' => decide (op = op' ∧ a = a')
  | .binaryOp op a b, .binaryOp op' a' b' => decide (op = op' ∧ a = a' ∧ b = b')
  | _, _ => false

theorem Rvalue.eq_of_sameExpr {rval rval' : Rvalue} (h : rval.sameExpr rval' = true) :
    rval = rval' := by
  unfold sameExpr at h
  split at h
  next => rw [of_decide_eq_true h]
  next =>
    obtain ⟨hop, ha⟩ := of_decide_eq_true h
    rw [hop, ha]
  next =>
    obtain ⟨hop, ha, hb⟩ := of_decide_eq_true h
    rw [hop, ha, hb]
  next => cases h

abbrev AvailableExpressions := List (Rvalue × Local)

namespace CommonSubexpressionElimination

/-- The operands `for_each_operand` visits. -/
def scanned : Rvalue → List Operand
  | .vtableLoad _ _ => []
  | rval => rval.operands

def usesLocal (rval : Rvalue) (l : Local) : Bool := (scanned rval).any fun op => op.local? = some l

def isCandidate (rval : Rvalue) : Bool :=
  (match rval with
    | .binaryOp _ _ _ | .unaryOp _ _ | .use _ => true
    | _ => false) && !(scanned rval).any fun op => op.moved?.isSome

def movedLocals (kind : StatementKind) : List Local :=
  (match kind with
    | .assign _ rval => scanned rval
    | .setIndex obj idx val _ | .vectorStore obj idx val => [obj, idx, val]
    | .setAttr obj _ val => [obj, val]
    | .ptrStore ptr val => [ptr, val]
    | _ => []).filterMap Operand.moved?

def forget (l : Local) (available : AvailableExpressions) : AvailableExpressions :=
  available.filter fun e => decide (e.2 ≠ l) && !usesLocal e.1 l

def isMemoryRead : Rvalue → Bool
  | .getIndex _ _ _ | .getAttr _ _ => true
  | _ => false

def reuse (available : AvailableExpressions) (dest : Local) (rval : Rvalue) :
    AvailableExpressions × Rvalue :=
  if isCandidate rval then
    match available.find? fun e => e.1.sameExpr rval with
    | some e => (available, .use (.copy e.2))
    | none => (available ++ [(rval, dest)], rval)
  else (available, rval)

def runStmt (available : AvailableExpressions) (stmt : Statement) :
    AvailableExpressions × Statement :=
  let (available, kind) : AvailableExpressions × StatementKind :=
    match stmt.kind with
    | .assign dest (.call func args) => ([], .assign dest (.call func args))
    | .assign dest rval =>
      let reused := reuse available dest rval
      (forget dest reused.1, .assign dest reused.2)
    | .setIndex _ _ _ _ | .setAttr _ _ _ | .vectorStore _ _ _ | .ptrStore _ _ =>
      (available.filter fun e => !isMemoryRead e.1, stmt.kind)
    | .drop l | .storageDead l => (forget l available, stmt.kind)
    | _ => (available, stmt.kind)
  ((movedLocals stmt.kind).foldl (fun available m => forget m available) available,
    { stmt with kind := kind })

def runStmts : AvailableExpressions → List Statement → List Statement
  | _, [] => []
  | available, stmt :: stmts =>
    (runStmt available stmt).2 :: runStmts (runStmt available stmt).1 stmts

end CommonSubexpressionElimination

open CommonSubexpressionElimination

/-- `CommonSubexpressionElimination::run`. -/
def cse (f : MirFunction) : MirFunction :=
  { f with basicBlocks := f.basicBlocks.map fun bb =>
      { bb with statements := runStmts [] bb.statements } }

theorem forget_nil (l : Local) : forget l [] = [] := rfl

theorem forget_moved_nil (moved : List Local) :
    moved.foldl (fun available m => forget m available) [] = [] := by
  induction moved with
  | nil => rfl
  | cons m moved ih => exact ih

/-- What a statement adds to an empty cache it removes again. -/
theorem forget_reuse_nil (dest : Local) (rval : Rvalue) :
    forget dest (reuse [] dest rval).1 = [] ∧ (reuse [] dest rval).2 = rval := by
  unfold reuse
  split
  next => exact ⟨by simp [forget], rfl⟩
  next => exact ⟨rfl, rfl⟩

theorem runStmt_nil (stmt : Statement) : runStmt [] stmt = ([], stmt) := by
  obtain ⟨kind, span⟩ := stmt
  cases kind with
  | assign dest rval =>
    have hreuse := forget_reuse_nil dest rval
    cases rval with
    | call func args => simp only [runStmt, forget_moved_nil]
    | _ => simp only [runStmt, hreuse.1, hreuse.2, forget_moved_nil]
  | _ => simp only [runStmt, forget_nil, List.filter_nil, forget_moved_nil]

theorem runStmts_nil (stmts : List Statement) : runStmts [] stmts = stmts := by
  induction stmts with
  | nil => rfl
  | cons stmt stmts ih => simp only [runStmts, runStmt_nil, ih]

theorem cse_eq_self (f : MirFunction) : cse f = f := by
  have hblocks : (f.basicBlocks.map fun bb => { bb with statements := runStmts [] bb.statements }) =
      f.basicBlocks := by
    simp only [runStmts_nil, List.map_id']
  simp only [cse, hblocks]

end Olive

/-! Global value numbering: within a block, an operation computed before becomes a copy of the local
that holds its value. -/

namespace Olive

/-- The local that holds the value of each expression. -/
abbrev ValueMap := List (Rvalue × Local)

namespace GlobalValueNumbering

/-- How often a local counts as assigned: a statement in a loop counts twice. -/
def loopAssignCounts (f : MirFunction) (l : Local) : Nat :=
  (f.basicBlocks.zipIdx.map fun block =>
    (block.1.statements.filter fun stmt => stmt.writes? = some l).length *
      (if block.2 ∈ loopBlocks f then 2 else 1)).sum

def opStable (f : MirFunction) : Operand → Bool
  | .const _ => true
  | .copy l | .move l => decide (l ≤ f.argCount ∨ loopAssignCounts f l = 1)

def operandsStable (f : MirFunction) : Rvalue → Bool
  | .use op | .unaryOp _ op => opStable f op
  | .binaryOp _ l r => opStable f l && opStable f r
  | _ => false

def usesLocal (rval : Rvalue) (l : Local) : Bool :=
  match rval with
  | .use op | .unaryOp _ op => op.local? = some l
  | .binaryOp _ a b | .getIndex a b _ => decide (a.local? = some l) || decide (b.local? = some l)
  | _ => false

def isOperation : Rvalue → Bool
  | .binaryOp _ _ _ | .unaryOp _ _ => true
  | _ => false

def movedLocals (kind : StatementKind) : List Local :=
  (match kind with
    | .assign _ rval => rval.operands
    | .setIndex obj idx val _ | .vectorStore obj idx val => [obj, idx, val]
    | .setAttr obj _ val => [obj, val]
    | .ptrStore ptr val => [ptr, val]
    | _ => []).filterMap Operand.moved?

/-- What can be numbered: an operation without moves on stable operands. -/
def isCandidate (f : MirFunction) (rval : Rvalue) : Bool :=
  isOperation rval && !(rval.operands.any fun op => op.moved?.isSome) && operandsStable f rval

def lookup (map : ValueMap) (rval : Rvalue) : Option Local :=
  (map.find? fun e => e.1.sameExpr rval).map (·.2)

/-- The local a candidate is replaced by. -/
def replaces? (f : MirFunction) (map : ValueMap) (dest : Local) (rval : Rvalue) : Option Local :=
  if isCandidate f rval then (lookup map rval).filter fun existing => existing ≠ dest else none

def noteAssign (f : MirFunction) (map : ValueMap) (dest : Local) (rval : Rvalue) : ValueMap :=
  let inserted :=
    if isCandidate f rval ∧ lookup map rval = none ∧ loopAssignCounts f dest = 1 then
      (rval, dest) :: map
    else map
  inserted.filter fun e => !usesLocal e.1 dest

def isMemoryRead : Rvalue → Bool
  | .getIndex _ _ _ | .getAttr _ _ => true
  | _ => false

def numberStmt (f : MirFunction) (map : ValueMap) (stmt : Statement) : ValueMap :=
  let noted :=
    match stmt.kind with
    | .assign _ (.call _ _) => []
    | .assign dest rval => noteAssign f map dest rval
    | .setIndex _ _ _ _ | .setAttr _ _ _ | .vectorStore _ _ _ =>
      map.filter fun e => !isMemoryRead e.1
    | _ => map
  noted.filter fun e => decide (e.2 ∉ movedLocals stmt.kind)

def replaceStmt (f : MirFunction) (map : ValueMap) (stmt : Statement) : Statement :=
  match stmt.kind with
  | .assign dest rval =>
    match replaces? f map dest rval with
    | some existing => { stmt with kind := .assign dest (.use (.copy existing)) }
    | none => stmt
  | _ => stmt

def runStmts (f : MirFunction) : ValueMap → List Statement → List Statement
  | _, [] => []
  | map, stmt :: stmts => replaceStmt f map stmt :: runStmts f (numberStmt f map stmt) stmts

/-- The value map before place `idx` of block `bb`. -/
def mapAt (f : MirFunction) (bb : BasicBlockId) (idx : Nat) : ValueMap :=
  ((f.stmtsAt bb).take idx).foldl (numberStmt f) []

end GlobalValueNumbering

open GlobalValueNumbering

/-- `GlobalValueNumbering::run`. -/
def gvn (f : MirFunction) : MirFunction :=
  { f with basicBlocks := f.basicBlocks.map fun bb =>
      { bb with statements := runStmts f [] bb.statements } }

section Blocks

variable {f : MirFunction}

theorem runStmts_getElem? (map : ValueMap) (stmts : List Statement) (idx : Nat) :
    (runStmts f map stmts)[idx]? =
      stmts[idx]?.map (replaceStmt f ((stmts.take idx).foldl (GlobalValueNumbering.numberStmt f) map)) := by
  induction stmts generalizing map idx with
  | nil => rfl
  | cons stmt stmts ih =>
    cases idx with
    | zero => rfl
    | succ idx => exact ih _ idx

theorem gvn_block {bb : BasicBlockId} {block : BasicBlock} (hb : f.basicBlocks[bb]? = some block) :
    (gvn f).basicBlocks[bb]? = some { block with statements := runStmts f [] block.statements } := by
  simp [gvn, hb]

theorem gvn_stmt {bb : BasicBlockId} {block : BasicBlock} (hb : f.basicBlocks[bb]? = some block)
    (idx : Nat) : (runStmts f [] block.statements)[idx]? =
      block.statements[idx]?.map (replaceStmt f (mapAt f bb idx)) := by
  rw [runStmts_getElem?, mapAt, stmtsAt_of_block hb]

theorem mapAt_succ {bb : BasicBlockId} {idx : Nat} {stmt : Statement}
    (hs : (f.stmtsAt bb)[idx]? = some stmt) :
    mapAt f bb (idx + 1) = GlobalValueNumbering.numberStmt f (mapAt f bb idx) stmt := by
  rw [mapAt, List.take_add_one, hs, Option.toList_some, List.foldl_concat, mapAt]

end Blocks

end Olive
