import Mathlib.Data.List.Basic

/-! The names of a function body: the scopes of the resolver, and the frames that the builder keeps
while it lowers the body. -/

namespace Olive

namespace Scoping

/-- Where a declaration stands, by which it is known. -/
abbrev Span := Nat

inductive ForTarget where
  | single (name : String) (span : Span)
  | tuple (names : List (String × Span))

def ForTarget.bindings : ForTarget → List (String × Span)
  | .single name span => [(name, span)]
  | .tuple names => names

inductive Pattern where
  | wildcard
  | identifier (name : String) (span : Span)
  | variant (name : String) (inner : List Pattern)
  | literal
  | tuple (items : List Pattern)
  | structFields (name : String) (fields : List Pattern)
  | list (before : List Pattern) (rest : Option (String × Span)) (after : List Pattern)
  | range
  /-- The alternatives, and the names that `pattern_binding_type` finds a type for. -/
  | or (alts : List Pattern) (typed : String → Bool)

inductive ForKind where
  | range
  | enumerate
  | zip
  | plain

mutual
/-- An identifier has the declaration that it resolves to. A node has the operands that are lowered,
in that order. -/
inductive Expr where
  | identifier (name : String) (site : Option Span)
  | node (operands : List Expr)
  | comprehension (clauses : List CompClause) (elts : List Expr)
  | matchExpr (scrutinee : Expr) (cases : List MatchCase)
inductive CompClause where
  | mk (target : ForTarget) (iter : Expr) (condition : List Expr)
inductive MatchCase where
  | mk (pattern : Pattern) (guard : List Expr) (body : List Stmt)
/-- Of a tuple, the elements that are names. -/
inductive AssignTarget where
  | identifier (name : String) (site : Option Span)
  | place (operands : List Expr)
  | tuple (names : List (String × Option Span))
inductive Stmt where
  | letStmt (name : String) (span : Span) (value : Expr)
  | multiLet (names : List (String × Span)) (value : Expr)
  | assign (target : AssignTarget) (value : Expr)
  | augAssign (target : AssignTarget) (value : Expr)
  | ifStmt (branches : List Branch) (elseBody : List Stmt)
  | whileStmt (condition : Expr) (body elseBody : List Stmt)
  | forStmt (kind : ForKind) (target : ForTarget) (operands step : List Expr)
      (body elseBody : List Stmt)
  /-- An expression statement or a return; `break`, `continue` and `pass` evaluate nothing. -/
  | exprs (values : List Expr)
/-- The condition and the body of an `if` or an `elif`. -/
inductive Branch where
  | mk (condition : Expr) (body : List Stmt)
end

/-- Frames of names, the innermost first; in each the newest entry of a name counts. -/
abbrev Frames (α : Type) := List (List (String × α))

namespace Frames

variable {α : Type}

def push (frames : Frames α) : Frames α :=
  [] :: frames

def pop (frames : Frames α) : Frames α :=
  frames.tail

def define (frames : Frames α) (name : String) (a : α) : Frames α :=
  match frames with
  | [] => []
  | frame :: outer => ((name, a) :: frame) :: outer

def lookup (frames : Frames α) (name : String) : Option α :=
  frames.findSome? fun frame => List.lookup name frame

end Frames

section Resolver

/-- The scopes of the function that is resolved. A name in none of them is no local. -/
abbrev SymbolTable := Frames Span

def defineAll (table : SymbolTable) (names : List (String × Span)) : SymbolTable :=
  names.foldl (fun table (name, span) => table.define name span) table

def isReserved (name : String) : Bool :=
  "__olive_".toList.isPrefixOf name.toList

mutual
def resolvePattern (table : SymbolTable) : Pattern → SymbolTable
  | .identifier name span => table.define name span
  | .variant _ inner => resolvePatterns table inner
  | .tuple items => resolvePatterns table items
  | .or alts _ => resolvePatterns table alts
  | .structFields _ fields => resolvePatterns table fields
  | .list before rest after =>
    defineAll (resolvePatterns (resolvePatterns table before) after) rest.toList
  | .wildcard | .literal | .range => table
def resolvePatterns (table : SymbolTable) : List Pattern → SymbolTable
  | [] => table
  | p :: ps => resolvePatterns (resolvePattern table p) ps
end

mutual
def resolveExpr (table : SymbolTable) : Expr → SymbolTable × Expr
  | .identifier name _ =>
    (table, .identifier name (if isReserved name then none else table.lookup name))
  | .node operands =>
    let r := resolveExprs table operands
    (r.1, .node r.2)
  | .comprehension clauses elts =>
    let r := resolveCompClauses table.push clauses
    let r' := resolveExprs r.1 elts
    (r'.1.pop, .comprehension r.2 r'.2)
  | .matchExpr scrutinee cases =>
    let r := resolveExpr table scrutinee
    let r' := resolveCases r.1 cases
    (r'.1, .matchExpr r.2 r'.2)
def resolveExprs (table : SymbolTable) : List Expr → SymbolTable × List Expr
  | [] => (table, [])
  | e :: es =>
    let r := resolveExpr table e
    let r' := resolveExprs r.1 es
    (r'.1, r.2 :: r'.2)
def resolveCompClauses (table : SymbolTable) : List CompClause → SymbolTable × List CompClause
  | [] => (table, [])
  | .mk target iter condition :: clauses =>
    let r := resolveExpr table iter
    let r' := resolveExprs (defineAll r.1 target.bindings) condition
    let r'' := resolveCompClauses r'.1 clauses
    (r''.1, .mk target r.2 r'.2 :: r''.2)
def resolveCases (table : SymbolTable) : List MatchCase → SymbolTable × List MatchCase
  | [] => (table, [])
  | .mk pattern guard body :: cases =>
    let r := resolveExprs (resolvePattern table.push pattern) guard
    let r' := resolveStmts r.1 body
    let r'' := resolveCases r'.1.pop cases
    (r''.1, .mk pattern r.2 r'.2 :: r''.2)
def resolveAssignTarget (table : SymbolTable) : AssignTarget → SymbolTable × AssignTarget
  | .identifier name _ => (table, .identifier name (table.lookup name))
  | .place operands =>
    let r := resolveExprs table operands
    (r.1, .place r.2)
  | .tuple names => (table, .tuple (names.map fun n => (n.1, table.lookup n.1)))
/-- The step of a counted loop is not visited. -/
def resolveStmt (table : SymbolTable) : Stmt → SymbolTable × Stmt
  | .letStmt name span value =>
    let r := resolveExpr table value
    (r.1.define name span, .letStmt name span r.2)
  | .multiLet names value =>
    let r := resolveExpr table value
    (defineAll r.1 names, .multiLet names r.2)
  | .assign target value =>
    let r := resolveExpr table value
    let r' := resolveAssignTarget r.1 target
    (r'.1, .assign r'.2 r.2)
  | .augAssign target value =>
    let r := resolveExpr table value
    let r' := resolveAssignTarget r.1 target
    (r'.1, .augAssign r'.2 r.2)
  | .ifStmt branches elseBody =>
    let r := resolveBranches table branches
    let r' := resolveStmts r.1.push elseBody
    (r'.1.pop, .ifStmt r.2 r'.2)
  | .whileStmt condition body elseBody =>
    let r := resolveExpr table condition
    let r' := resolveStmts r.1.push body
    let r'' := resolveStmts r'.1.pop.push elseBody
    (r''.1.pop, .whileStmt r.2 r'.2 r''.2)
  | .forStmt kind target operands step body elseBody =>
    let r := resolveExprs table operands
    let r' := resolveStmts (defineAll r.1.push target.bindings) body
    let r'' := resolveStmts r'.1.pop.push elseBody
    (r''.1.pop, .forStmt kind target r.2 step r'.2 r''.2)
  | .exprs values =>
    let r := resolveExprs table values
    (r.1, .exprs r.2)
def resolveStmts (table : SymbolTable) : List Stmt → SymbolTable × List Stmt
  | [] => (table, [])
  | st :: stmts =>
    let r := resolveStmt table st
    let r' := resolveStmts r.1 stmts
    (r'.1, r.2 :: r'.2)
def resolveBranches (table : SymbolTable) : List Branch → SymbolTable × List Branch
  | [] => (table, [])
  | .mk condition body :: branches =>
    let r := resolveExpr table condition
    let r' := resolveStmts r.1.push body
    let r'' := resolveBranches r'.1.pop branches
    (r''.1, .mk r.2 r'.2 :: r''.2)
end

end Resolver

section Builder

/-- A local, by the declarations that it was created for. -/
abbrev Local := List Span

abbrev VarMap := Frames Local

def declareAll (vars : VarMap) (names : List (String × Span)) : VarMap :=
  names.foldl (fun vars (name, span) => vars.define name [span]) vars

mutual
/-- `collect_binding_names`, each name with its declaration. -/
def patternBindings : Pattern → List (String × Span)
  | .identifier name span => [(name, span)]
  | .variant _ inner => patternsBindings inner
  | .tuple items => patternsBindings items
  | .or alts _ => patternsBindings alts
  | .structFields _ fields => patternsBindings fields
  | .list before rest after => patternsBindings before ++ patternsBindings after ++ rest.toList
  | .wildcard | .literal | .range => []
def patternsBindings : List Pattern → List (String × Span)
  | [] => []
  | p :: ps => patternBindings p ++ patternsBindings ps
end

/-- The names of the first alternative that get one local for all of them. -/
def sharedNames (alts : List Pattern) (typed : String → Bool) : List String :=
  match alts with
  | [] => []
  | first :: _ => ((patternBindings first).map Prod.fst).filter typed

/-- The local that the alternatives share for a name. -/
def sharedLocal (alts : List Pattern) (name : String) : Local :=
  ((patternsBindings alts).filter fun b => b.1 = name).map Prod.snd

mutual
/-- `lower_pattern`. The bindings go into the open frame. -/
def lowerPattern (vars : VarMap) : Pattern → VarMap
  | .identifier name span => vars.define name [span]
  | .variant _ inner => lowerPatterns vars inner
  | .tuple items => lowerPatterns vars items
  | .or alts typed =>
    (sharedNames alts typed).foldl (fun vars name => vars.define name (sharedLocal alts name))
      (lowerPatterns vars alts)
  | .structFields _ fields => lowerPatterns vars fields
  | .list before rest after =>
    declareAll (lowerPatterns (lowerPatterns vars before) after) rest.toList
  | .wildcard | .literal | .range => vars
def lowerPatterns (vars : VarMap) : List Pattern → VarMap
  | [] => vars
  | p :: ps => lowerPatterns (lowerPattern vars p) ps
end

/-- An occurrence that is lowered: what it resolves to, and what `lookup_var` returns. -/
structure Use where
  site : Option Span
  found : Option Local

/-- `lower_for_range`, whose else branch is in the frame of the loop. -/
def isCounted (kind : ForKind) (target : ForTarget) : Bool :=
  match kind, target with
  | .range, .single _ _ => true
  | _, _ => false

/-- The names of the target that the loop declares. -/
def declaredNames (kind : ForKind) (target : ForTarget) : List (String × Span) :=
  match kind, target with
  | .enumerate, .tuple names | .zip, .tuple names => names.take 2
  | _, target => target.bindings

mutual
def lowerExpr (vars : VarMap) : Expr → VarMap × List Use
  | .identifier name site => (vars, [⟨site, vars.lookup name⟩])
  | .node operands => lowerExprs vars operands
  | .comprehension clauses elts =>
    let r := lowerCompClauses vars clauses
    let r' := lowerExprs r.1 elts
    (r'.1, r.2 ++ r'.2)
  | .matchExpr scrutinee cases =>
    let r := lowerExpr vars scrutinee
    let r' := lowerCases r.1 cases
    (r'.1, r.2 ++ r'.2)
def lowerExprs (vars : VarMap) : List Expr → VarMap × List Use
  | [] => (vars, [])
  | e :: es =>
    let r := lowerExpr vars e
    let r' := lowerExprs r.1 es
    (r'.1, r.2 ++ r'.2)
def lowerCompClauses (vars : VarMap) : List CompClause → VarMap × List Use
  | [] => (vars, [])
  | .mk target iter condition :: clauses =>
    let r := lowerExpr vars iter
    let r' := lowerExprs (declareAll r.1 target.bindings) condition
    let r'' := lowerCompClauses r'.1 clauses
    (r''.1, r.2 ++ (r'.2 ++ r''.2))
def lowerCases (vars : VarMap) : List MatchCase → VarMap × List Use
  | [] => (vars, [])
  | .mk pattern guard body :: cases =>
    let r := lowerExprs (lowerPattern vars pattern).push guard
    let r' := lowerStmts r.1 body
    let r'' := lowerCases r'.1.pop cases
    (r''.1, r.2 ++ (r'.2 ++ r''.2))
def lowerTarget (vars : VarMap) : AssignTarget → VarMap × List Use
  | .identifier name site => (vars, [⟨site, vars.lookup name⟩])
  | .place operands => lowerExprs vars operands
  | .tuple names => (vars, names.map fun n => ⟨n.2, vars.lookup n.1⟩)
/-- The resolver binds no name of a step, so that its uses are left out. -/
def lowerStmt (vars : VarMap) : Stmt → VarMap × List Use
  | .letStmt name span value =>
    let r := lowerExpr vars value
    (r.1.define name [span], r.2)
  | .multiLet names value =>
    let r := lowerExpr vars value
    (declareAll r.1 names, r.2)
  | .assign target value =>
    let r := lowerExpr vars value
    let r' := lowerTarget r.1 target
    (r'.1, r.2 ++ r'.2)
  | .augAssign target value =>
    -- the target is lowered as an operand, and again to be stored to
    let r := lowerTarget vars target
    let r' := lowerExpr r.1 value
    let r'' := lowerTarget r'.1 target
    (r''.1, r.2 ++ (r'.2 ++ r''.2))
  | .ifStmt branches elseBody =>
    let r := lowerBranches vars branches
    let r' := lowerStmts r.1.push elseBody
    (r'.1.pop, r.2 ++ r'.2)
  | .whileStmt condition body elseBody =>
    let r := lowerExpr vars condition
    let r' := lowerStmts r.1.push body
    let r'' := lowerStmts r'.1.pop.push elseBody
    (r''.1.pop, r.2 ++ (r'.2 ++ r''.2))
  | .forStmt kind target operands step body elseBody =>
    let r := lowerExprs vars operands
    let rStep := lowerExprs r.1 step
    let r' := lowerStmts (declareAll rStep.1.push (declaredNames kind target)) body
    let r'' := lowerStmts (if isCounted kind target then r'.1 else r'.1.pop.push) elseBody
    (r''.1.pop, r.2 ++ (r'.2 ++ r''.2))
  | .exprs values => lowerExprs vars values
def lowerStmts (vars : VarMap) : List Stmt → VarMap × List Use
  | [] => (vars, [])
  | st :: stmts =>
    let r := lowerStmt vars st
    let r' := lowerStmts r.1 stmts
    (r'.1, r.2 ++ r'.2)
def lowerBranches (vars : VarMap) : List Branch → VarMap × List Use
  | [] => (vars, [])
  | .mk condition body :: branches =>
    let r := lowerExpr vars condition
    let r' := lowerStmts r.1.push body
    let r'' := lowerBranches r'.1.pop branches
    (r''.1, r.2 ++ (r'.2 ++ r''.2))
end

end Builder

/-- Where an occurrence resolves to a local, `lookup_var` finds the local of its declaration. -/
def Use.Agrees (u : Use) : Prop :=
  ∀ d, u.site = some d → ∃ l, u.found = some l ∧ d ∈ l

/-- Every occurrence that is lowered in a function with these parameters agrees. -/
def Agree (params : List (String × Span)) (body : List Stmt) : Prop :=
  let resolved := (resolveStmts (defineAll [[]] params) body).2
  ∀ u ∈ (lowerStmts (declareAll [[]] params) resolved).2, u.Agrees

section Hijacked

mutual
/-- The names that lowering an expression declares in the open frame. -/
def exprNames : Expr → List String
  | .identifier _ _ => []
  | .node operands => exprsNames operands
  | .comprehension clauses elts => clausesNames clauses ++ exprsNames elts
  | .matchExpr scrutinee cases => exprNames scrutinee ++ casesNames cases
def exprsNames : List Expr → List String
  | [] => []
  | e :: es => exprNames e ++ exprsNames es
def clausesNames : List CompClause → List String
  | [] => []
  | .mk target iter condition :: clauses =>
    exprNames iter ++ (target.bindings.map Prod.fst ++ (exprsNames condition ++ clausesNames clauses))
def casesNames : List MatchCase → List String
  | [] => []
  | .mk pattern _ _ :: cases => (patternBindings pattern).map Prod.fst ++ casesNames cases
end

def targetNames : AssignTarget → List String
  | .place operands => exprsNames operands
  | .identifier _ _ | .tuple _ => []

def branchesNames : List Branch → List String
  | [] => []
  | .mk condition _ :: branches => exprNames condition ++ branchesNames branches

/-- The names that lowering a statement declares in the open frame. -/
def stmtNames : Stmt → List String
  | .letStmt name _ value => exprNames value ++ [name]
  | .multiLet names value => exprNames value ++ names.map Prod.fst
  | .assign target value => exprNames value ++ targetNames target
  | .augAssign target value => targetNames target ++ (exprNames value ++ targetNames target)
  | .ifStmt branches _ => branchesNames branches
  | .whileStmt condition _ _ => exprNames condition
  | .forStmt _ _ operands step _ _ => exprsNames operands ++ exprsNames step
  | .exprs values => exprsNames values

def stmtsNames : List Stmt → List String
  | [] => []
  | st :: stmts => stmtNames st ++ stmtsNames stmts

/-- The names in scope, and those of them that the builder's frames give to something else. -/
structure Names where
  bound : List String
  hijacked : List String

namespace Names

/-- After declarations. -/
def declare (s : Names) (names : List String) : Names :=
  ⟨s.bound ++ names, s.hijacked.filter fun n => !names.contains n⟩

/-- After a construct that is over and has left these names in the open frame. -/
def leak (s : Names) (names : List String) : Names :=
  ⟨s.bound, s.hijacked ++ names⟩

/-- After names that the loop should have declared. -/
def miss (s : Names) (names : List String) : Names :=
  ⟨s.bound ++ names, s.hijacked ++ names⟩

/-- A name that is no local, or is not hijacked. -/
def usable (s : Names) (name : String) : Bool :=
  !s.bound.contains name || !s.hijacked.contains name

end Names

def clausesScope (s : Names) : List CompClause → Names
  | [] => s
  | .mk target iter condition :: clauses =>
    clausesScope
      (((s.leak (exprNames iter)).declare (target.bindings.map Prod.fst)).leak (exprsNames condition))
      clauses

/-- The names of the target that the loop does not declare. -/
def missedNames (kind : ForKind) (target : ForTarget) : List (String × Span) :=
  match kind, target with
  | .enumerate, .tuple names | .zip, .tuple names => names.drop 2
  | _, _ => []

/-- The scope of a loop's body. -/
def loopScope (s : Names) (kind : ForKind) (target : ForTarget) : Names :=
  (s.declare ((declaredNames kind target).map Prod.fst)).miss ((missedNames kind target).map Prod.fst)

/-- The scope of a loop's else branch. -/
def elseScope (s : Names) (kind : ForKind) (target : ForTarget) (body : List Stmt) : Names :=
  if isCounted kind target then s.leak ((declaredNames kind target).map Prod.fst ++ stmtsNames body)
  else s

def stmtScope (s : Names) : Stmt → Names
  | .letStmt name _ value => (s.leak (exprNames value)).declare [name]
  | .multiLet names value => (s.leak (exprNames value)).declare (names.map Prod.fst)
  | st => s.leak (stmtNames st)

mutual
/-- No local is used while its name is hijacked. -/
def cleanExpr (s : Names) : Expr → Bool
  | .identifier name _ => isReserved name || s.usable name
  | .node operands => cleanExprs s operands
  | .comprehension clauses elts => cleanClauses s clauses && cleanExprs (clausesScope s clauses) elts
  | .matchExpr scrutinee cases => cleanExpr s scrutinee && cleanCases (s.leak (exprNames scrutinee)) cases
def cleanExprs (s : Names) : List Expr → Bool
  | [] => true
  | e :: es => cleanExpr s e && cleanExprs (s.leak (exprNames e)) es
def cleanClauses (s : Names) : List CompClause → Bool
  | [] => true
  | .mk target iter condition :: clauses =>
    let inner := (s.leak (exprNames iter)).declare (target.bindings.map Prod.fst)
    cleanExpr s iter && (cleanExprs inner condition && cleanClauses (inner.leak (exprsNames condition)) clauses)
def cleanCases (s : Names) : List MatchCase → Bool
  | [] => true
  | .mk pattern guard body :: cases =>
    let names := (patternBindings pattern).map Prod.fst
    let inner := s.declare names
    cleanExprs inner guard &&
      (cleanStmts (inner.leak (exprsNames guard)) body && cleanCases (s.leak names) cases)
def cleanTarget (s : Names) : AssignTarget → Bool
  | .identifier name _ => s.usable name
  | .place operands => cleanExprs s operands
  | .tuple names => names.all fun n => s.usable n.1
def cleanStmt (s : Names) : Stmt → Bool
  | .letStmt _ _ value | .multiLet _ value => cleanExpr s value
  | .assign target value => cleanExpr s value && cleanTarget (s.leak (exprNames value)) target
  | .augAssign target value =>
    cleanTarget s target && (cleanExpr (s.leak (targetNames target)) value &&
      cleanTarget ((s.leak (targetNames target)).leak (exprNames value)) target)
  | .ifStmt branches elseBody =>
    cleanBranches s branches && cleanStmts (s.leak (branchesNames branches)) elseBody
  | .whileStmt condition body elseBody =>
    cleanExpr s condition && (cleanStmts (s.leak (exprNames condition)) body &&
      cleanStmts (s.leak (exprNames condition)) elseBody)
  | .forStmt kind target operands step body elseBody =>
    let after := (s.leak (exprsNames operands)).leak (exprsNames step)
    cleanExprs s operands && (cleanStmts (loopScope after kind target) body &&
      cleanStmts (elseScope after kind target body) elseBody)
  | .exprs values => cleanExprs s values
def cleanStmts (s : Names) : List Stmt → Bool
  | [] => true
  | st :: stmts => cleanStmt s st && cleanStmts (stmtScope s st) stmts
def cleanBranches (s : Names) : List Branch → Bool
  | [] => true
  | .mk condition body :: branches =>
    let after := s.leak (exprNames condition)
    cleanExpr s condition && (cleanStmts after body && cleanBranches after branches)
end

def declared (names : List (String × Span)) : List (Span × Bool) :=
  names.map fun n => (n.2, true)

/-- The declarations of a loop's target, and whether the loop declares them. -/
def loopDecls (kind : ForKind) (target : ForTarget) : List (Span × Bool) :=
  declared (declaredNames kind target) ++ (missedNames kind target).map fun n => (n.2, false)

mutual
/-- The declarations of an expression, those of its blocks with them, and whether the builder makes
locals for them. -/
def exprDecls : Expr → List (Span × Bool)
  | .identifier _ _ => []
  | .node operands => exprsDecls operands
  | .comprehension clauses elts => clausesDecls clauses ++ exprsDecls elts
  | .matchExpr scrutinee cases => exprDecls scrutinee ++ casesDecls cases
def exprsDecls : List Expr → List (Span × Bool)
  | [] => []
  | e :: es => exprDecls e ++ exprsDecls es
def clausesDecls : List CompClause → List (Span × Bool)
  | [] => []
  | .mk target iter condition :: clauses =>
    exprDecls iter ++ (declared target.bindings ++ (exprsDecls condition ++ clausesDecls clauses))
def casesDecls : List MatchCase → List (Span × Bool)
  | [] => []
  | .mk pattern guard body :: cases =>
    declared (patternBindings pattern) ++ (exprsDecls guard ++ (stmtsDecls body ++ casesDecls cases))
def targetDecls : AssignTarget → List (Span × Bool)
  | .place operands => exprsDecls operands
  | .identifier _ _ | .tuple _ => []
def stmtDecls : Stmt → List (Span × Bool)
  | .letStmt name span value => exprDecls value ++ declared [(name, span)]
  | .multiLet names value => exprDecls value ++ declared names
  | .assign target value | .augAssign target value => exprDecls value ++ targetDecls target
  | .ifStmt branches elseBody => branchesDecls branches ++ stmtsDecls elseBody
  | .whileStmt condition body elseBody =>
    exprDecls condition ++ (stmtsDecls body ++ stmtsDecls elseBody)
  | .forStmt kind target operands step body elseBody =>
    exprsDecls operands ++ (exprsDecls step ++
      (loopDecls kind target ++ (stmtsDecls body ++ stmtsDecls elseBody)))
  | .exprs values => exprsDecls values
def stmtsDecls : List Stmt → List (Span × Bool)
  | [] => []
  | st :: stmts => stmtDecls st ++ stmtsDecls stmts
def branchesDecls : List Branch → List (Span × Bool)
  | [] => []
  | .mk condition body :: branches =>
    exprDecls condition ++ (stmtsDecls body ++ branchesDecls branches)
end

end Hijacked

end Scoping

end Olive
