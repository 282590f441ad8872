import Olive.Cfg
import Olive.ParamEscapes
import Olive.RoundRobin

namespace Olive

open UntilStable RoundRobin

mutual
/-- A type satisfying `base`, or a union whose only non-null member does. -/
def backed (base : OliveType → Bool) : OliveType → Bool
  | .union members => soleBacked base members
  | ty => base ty
def soleBacked (base : OliveType → Bool) : List OliveType → Bool
  | [] => false
  | m :: ms => if m.isNull then soleBacked base ms else backed base m && ms.all OliveType.isNull
end

def slabBacked : OliveType → Bool :=
  backed fun
    | .list _ | .tuple _ | .set _ | .dict _ _ | .enum _ _ | .bytes => true
    | _ => false

def strBacked : OliveType → Bool :=
  backed fun
    | .str => true
    | _ => false

def structBacked : OliveType → Bool :=
  backed fun
    | .struct _ _ isFfi => !isFfi
    | .fn _ _ _ => true
    | _ => false

/-- A type whose borrows are generation-checked. -/
def checkable (ty : OliveType) : Bool := slabBacked ty || strBacked ty || structBacked ty

def startsWith (pre s : String) : Bool := pre.toList.isPrefixOf s.toList

def isSafeCall : Operand → Bool
  | .const (.function name) => startsWith "__olive_" name && !startsWith "__olive_aio" name
  | _ => false

/-- The locals a statement reads as values, in order. -/
def Statement.uses (stmt : Statement) : List Local :=
  match stmt.kind with
  | .assign _ rval => rval.locals
  | .setAttr a _ b | .ptrStore a b => [a, b].filterMap Operand.local?
  | .setIndex a b c _ | .vectorStore a b c => [a, b, c].filterMap Operand.local?
  | .drop _ | .storageLive _ | .storageDead _ | .genCheck _ _ => []

/-- The statement at `idx`, or the `SwitchInt` for `none`, reads local `l`. -/
def ReadsAt (f : MirFunction) (bb : BasicBlockId) (idx : Option Nat) (l : Local) : Prop :=
  match idx with
  | some i => ∃ stmt, (f.stmtsAt bb)[i]? = some stmt ∧ l ∈ stmt.uses
  | none => ∃ discr targets otherwise span,
      f.terminatorAt bb = some ⟨.switchInt discr targets otherwise, span⟩ ∧ discr.local? = some l

def stmtsBefore (f : MirFunction) (bb : BasicBlockId) (idx : Option Nat) : List Statement :=
  match idx with
  | some i => (f.stmtsAt bb).take i
  | none => f.stmtsAt bb

def OliveType.isAny : OliveType → Bool
  | .any => true
  | _ => false

/-- The locals an object is followed through, untyped hops included. -/
def trackedLocals (f : MirFunction) : List Bool :=
  f.locals.map fun d => d.ty.isMoveType || d.ty.isAny

structure SuspectInfo where
  suspect : Bool
  isUnknown : Bool
  roots : Finset Local
  borrowSpan : Option Span
  deriving DecidableEq

def SuspectInfo.default : SuspectInfo := ⟨false, false, ∅, none⟩

def SuspectInfo.marked (info : SuspectInfo) (span : Span) : SuspectInfo :=
  { info with suspect := true, borrowSpan := info.borrowSpan.or (some span) }

def SuspectInfo.addRoot (info : SuspectInfo) (root : Option Local) : SuspectInfo :=
  match root with
  | some r => { info with roots := insert r info.roots }
  | none => info

/-- A stored operand gains its container as a root; without one its owner is unknown. -/
def escape (tracked : List Bool) (span : Span) (owner : Option Local) (info : List SuspectInfo)
    (op : Operand) : List SuspectInfo :=
  match op.local? with
  | some l =>
    if l ≠ 0 ∧ tracked.getD l false = true then
      info.modify l fun s => match owner with
        | some c => (s.marked span).addRoot (some c)
        | none => { s.marked span with isUnknown := true }
    else info
  | none => info

structure GenCheckInsertion where
  borrowedReturns : Finset String
  paramEscapes : Escapes

namespace GenCheckInsertion

variable (pass : GenCheckInsertion)

def escapeStmt (tracked : List Bool) (info : List SuspectInfo) (stmt : Statement) :
    List SuspectInfo :=
  match stmt.kind with
  | .setIndex obj _ val _ | .setAttr obj _ val => escape tracked stmt.span obj.local? info val
  | .assign dst (.aggregate kind ops) =>
    if kind = .fatPtr then info else ops.foldl (escape tracked stmt.span (some dst)) info
  | .assign _ (.call (.const (.function callee)) args) =>
    (operandsWhere (fun pos => runtimeEscape callee pos || calleeEscape pass.paramEscapes callee pos)
      args).foldl (escape tracked stmt.span none) info
  | _ => info

/-- Borrow- and transfer-producing definitions, and the alias pair they create. -/
def defineStmt (tracked : List Bool) (info : List SuspectInfo) (stmt : Statement) :
    List SuspectInfo × List (Local × Local) :=
  match stmt.kind with
  | .assign dst rval =>
    if dst = 0 ∨ tracked.getD dst false = false then (info, [])
    else
      let view (base : Operand) :=
        (info.modify dst fun s => (s.marked stmt.span).addRoot base.local?, [])
      match rval with
      | .use (.copy src) =>
        if tracked.getD src false = true ∧ src ≠ dst then
          (info.modify dst fun s => (s.marked stmt.span).addRoot (some src), [(dst, src)])
        else (info, [])
      | .use (.move src) =>
        if tracked.getD src false = true ∧ src ≠ dst then
          (info.modify src fun s => s.addRoot (some dst), [(dst, src)])
        else (info, [])
      | .getIndex base _ _ | .getAttr base _ | .fatPtrData base | .vtableLoad base _ => view base
      | .call (.const (.function name)) _ =>
        if name ∈ pass.borrowedReturns then
          (info.modify dst fun s => { s.marked stmt.span with isUnknown := true }, [])
        else (info, [])
      | _ => (info, [])
  | _ => (info, [])

def collectSuspects (f : MirFunction) : List SuspectInfo × List (Local × Local) :=
  let tracked := trackedLocals f
  f.statements.foldl
    (fun acc stmt =>
      let defined := pass.defineStmt tracked (pass.escapeStmt tracked acc.1 stmt) stmt
      (defined.1, acc.2 ++ defined.2))
    (List.replicate f.locals.length SuspectInfo.default, [])

end GenCheckInsertion

/-- What `x` becomes when `y` names the same object. -/
def aliased (info : List SuspectInfo) (x y : Local) : SuspectInfo :=
  let sx := info.getD x .default
  let sy := info.getD y .default
  ⟨sx.suspect || sy.suspect, sx.isUnknown || sy.isUnknown, sx.roots ∪ sy.roots.erase x,
    sx.borrowSpan.or sy.borrowSpan⟩

def aliasInto (info : List SuspectInfo) (pair : Local × Local) : List SuspectInfo × Bool :=
  if info[pair.1]? = some (aliased info pair.1 pair.2) then (info, false)
  else (info.set pair.1 (aliased info pair.1 pair.2), true)

/-- What `i` becomes when every root's own roots are merged in. -/
def closed (info : List SuspectInfo) (i : Local) : SuspectInfo :=
  let si := info.getD i .default
  let others := si.roots.erase i
  { si with
    isUnknown := si.isUnknown || decide (∃ r ∈ others, (info.getD r .default).isUnknown = true)
    roots := si.roots ∪ others.biUnion fun r => (info.getD r .default).roots.erase i }

def mergeAliases (info : List SuspectInfo) (aliases : List (Local × Local)) (fuel : Nat) :
    Option (List SuspectInfo) :=
  untilStable (sweep aliasInto (aliases.flatMap fun p => [(p.1, p.2), (p.2, p.1)])) fuel info

def closeRoots (info : List SuspectInfo) (fuel : Nat) : Option (List SuspectInfo) :=
  solve closed info.length fuel info

/-- The locals that occur as roots. -/
def rootUniverse (info : List SuspectInfo) : Finset Local :=
  info.foldr (fun s roots => s.roots ∪ roots) ∅

/-- Rounds enough for both closures: three flags and every root, a local. -/
def suspectBudget (info : List SuspectInfo) : Nat :=
  info.length * ((rootUniverse info).card + 3) + 1

def GenCheckInsertion.suspectInfo (pass : GenCheckInsertion) (f : MirFunction) :
    Option (List SuspectInfo) :=
  let collected := pass.collectSuspects f
  (mergeAliases collected.1 collected.2 (suspectBudget collected.1)).bind fun merged =>
    closeRoots merged (suspectBudget merged)

end Olive
