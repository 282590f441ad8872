import Olive.MustStale

namespace Olive

open UntilStable RoundRobin

/-- A place in front of which a check goes: block, statement index (`none`: terminator), local. -/
abbrev Site := BasicBlockId × Option Nat × Local

def genSuspects (f : MirFunction) (info : List SuspectInfo) : List Local :=
  (List.range f.locals.length).filter fun i =>
    i != 0 && (info.getD i .default).suspect && (f.locals.map fun d => checkable d.ty).getD i false

def suspectIndex (suspects : List Local) (l : Local) : Option Nat :=
  suspects.findIdx? (· == l)

/-- A use of an unproven suspect is recorded, and the suspect is proven after it. -/
def proveUse (suspects : List Local) (bb : BasicBlockId) (idx : Option Nat)
    (acc : List Bool × List Site) (l : Local) : List Bool × List Site :=
  match suspectIndex suspects l with
  | some s => if acc.1.getD s true then acc else (acc.1.set s true, acc.2 ++ [(bb, idx, l)])
  | none => acc

/-- Unproves the suspects that `mayFree` says may be freed. -/
def unprove (suspects : List Local) (mayFree : Local → Bool) (state : List Bool) : List Bool :=
  state.zipWith (fun proven l => proven && !mayFree l) suspects

/-- Whether a statement may free the object that suspect `l` names. -/
def mayFree (info : List SuspectInfo) (stmt : Statement) (l : Local) : Bool :=
  let s := info.getD l .default
  match stmt.kind with
  | .assign _ (.call callee _) => !isSafeCall callee && s.isUnknown
  | .drop dropped => s.isUnknown || decide (dropped ∈ s.roots)
  | _ => false

/-- The call runs before its result exists, so a definition is proven after the kills. -/
def genEffect (info : List SuspectInfo) (suspects : List Local) (state : List Bool)
    (stmt : Statement) : List Bool :=
  match stmt.kind with
  | .assign dst _ =>
    let killed := unprove suspects (mayFree info stmt) state
    match suspectIndex suspects dst with
    | some s => killed.set s true
    | none => killed
  | .drop _ => unprove suspects (mayFree info stmt) state
  | _ => state

def genStmt (info : List SuspectInfo) (suspects : List Local) (bb : BasicBlockId)
    (acc : List Bool × List Site) (stmt : Statement × Nat) : List Bool × List Site :=
  let used := stmt.1.uses.foldl (proveUse suspects bb (some stmt.2)) acc
  (genEffect info suspects used.1 stmt.1, used.2)

def MirFunction.switchLocal (f : MirFunction) (bb : BasicBlockId) : Option Local :=
  match f.terminatorAt bb with
  | some ⟨.switchInt discr _ _, _⟩ => discr.local?
  | _ => none

def genTransferBlock (f : MirFunction) (info : List SuspectInfo) (suspects : List Local)
    (bb : BasicBlockId) (state : List Bool) : List Bool × List Site :=
  let acc := (f.stmtsAt bb).zipIdx.foldl (genStmt info suspects bb) (state, [])
  match f.switchLocal bb with
  | some l => proveUse suspects bb none acc l
  | none => acc

/-- Proven at the end of every predecessor; all proven where there is none. -/
def genEntry (f : MirFunction) (k : Nat) (out : List (List Bool)) (bb : BasicBlockId) : List Bool :=
  match f.predecessors bb with
  | [] => List.replicate k true
  | p :: ps =>
    ps.foldl (fun state q => state.zipWith (· && ·) (out.getD q (List.replicate k true)))
      (out.getD p (List.replicate k true))

def genFlow (f : MirFunction) (info : List SuspectInfo) (suspects : List Local)
    (out : List (List Bool)) (bb : BasicBlockId) : List Bool :=
  (genTransferBlock f info suspects bb (genEntry f suspects.length out bb)).1

/-- The sites, and the definitions that validate at birth, of which there are none. -/
def genSolve (f : MirFunction) (info : List SuspectInfo) (suspects : List Local) (fuel : Nat) :
    Option (List Site × List Site) :=
  let nb := f.basicBlocks.length
  let top := List.replicate nb (List.replicate suspects.length true)
  (solve (genFlow f info suspects) nb fuel top).map fun out =>
    ((List.range nb).flatMap fun bb =>
      (genTransferBlock f info suspects bb (genEntry f suspects.length out bb)).2, [])

/-- What is inserted: the checked locals in ascending order, and where the checks go. -/
structure GenPlan where
  locals : Nat
  checked : List Local
  sites : List Site
  defChecks : List Site

def genPlan (f : MirFunction) (sites defChecks : List Site) : GenPlan :=
  let n := f.locals.length
  ⟨n, (List.range n).filter fun l => decide (l ∈ (sites ++ defChecks).map (·.2.2)), sites, defChecks⟩

namespace GenPlan

variable (plan : GenPlan)

/-- The fresh local that holds the generation word of `l`. -/
def genOf (l : Local) : Option Local :=
  (plan.checked.findIdx? (· == l)).map (plan.locals + ·)

def captureStmt (l g : Local) (span : Span) : Statement := ⟨.assign g (.genOf (.copy l)), span⟩

def checksAt (sites : List Site) (bb : BasicBlockId) (idx : Option Nat) (span : Span) :
    List Statement :=
  sites.filterMap fun site =>
    if site.1 = bb ∧ site.2.1 = idx then
      (plan.genOf site.2.2).map fun g => ⟨.genCheck site.2.2 g, span⟩
    else none

/-- Captures come before any birth check of the same definition. -/
def afterStmt (bb : BasicBlockId) (idx : Nat) (stmt : Statement) : List Statement :=
  (match stmt.dst?.bind fun dst => (plan.genOf dst).map fun g => (dst, g) with
    | some (dst, g) => [captureStmt dst g stmt.span]
    | none => []) ++
  plan.checksAt plan.defChecks bb (some idx) stmt.span

/-- Zero captures, so that no path reads an undefined generation, then the parameters' own. -/
def entryStmts (f : MirFunction) (info : List SuspectInfo) : List Statement :=
  (plan.checked.filterMap fun l => (plan.genOf l).map fun g =>
    ⟨.assign g (.use (.const (.int 0))), .default⟩) ++
  ((plan.checked.filter fun l =>
      decide (1 ≤ l ∧ l ≤ f.argCount) && (info.getD l .default).suspect).filterMap fun l =>
    (plan.genOf l).map fun g => captureStmt l g .default)

def rebuildStmt (bb : BasicBlockId) (stmt : Statement × Nat) : List Statement :=
  plan.checksAt plan.sites bb (some stmt.2) stmt.1.span ++ [stmt.1] ++
    plan.afterStmt bb stmt.2 stmt.1

def rebuildBlock (f : MirFunction) (info : List SuspectInfo) (bb : BasicBlockId)
    (block : BasicBlock) : BasicBlock :=
  { block with
    statements := (if bb = 0 then plan.entryStmts f info else []) ++
      block.statements.zipIdx.flatMap (plan.rebuildStmt bb) ++
      plan.checksAt plan.sites bb none ((block.terminator.map (·.span)).getD .default) }

end GenPlan

/-- The declaration of a generation local. -/
def genDecl : LocalDecl := ⟨.int, none, .default, true, true⟩

def genInsert (f : MirFunction) (info : List SuspectInfo) (sites defChecks : List Site) :
    MirFunction :=
  let plan := genPlan f sites defChecks
  { f with
    locals := f.locals ++ plan.checked.map fun _ => genDecl
    basicBlocks := f.basicBlocks.zipIdx.map fun block => plan.rebuildBlock f info block.2 block.1 }

namespace GenCheckInsertion

variable (pass : GenCheckInsertion)

/-- Every check that the analysis asks for, inserted. -/
def instrument (f : MirFunction) (fuel : Nat) : Option MirFunction :=
  (pass.suspectInfo f).bind fun info =>
    (genSolve f info (genSuspects f info) fuel).map fun solved =>
      genInsert f info solved.1 solved.2

/-- The pass: definitely stale uses are reported and lose their check. -/
def run (f : MirFunction) (fuel : Nat) : Option (List MustStaleUse × MirFunction) :=
  if f.basicBlocks = [] then some ([], f)
  else
    (pass.suspectInfo f).bind fun info =>
      let suspects := genSuspects f info
      if suspects = [] then some ([], f)
      else
        (findMustStale f info (f.locals.map fun d => checkable d.ty) fuel).bind fun hits =>
          (genSolve f info suspects fuel).map fun solved =>
            let kept (site : Site) := !hits.any fun hit => (hit.bb, hit.idx, hit.stale) == site
            let sites := solved.1.filter kept
            let defChecks := solved.2.filter kept
            if sites = [] ∧ defChecks = [] then (hits, f)
            else (hits, genInsert f info sites defChecks)

end GenCheckInsertion

end Olive
