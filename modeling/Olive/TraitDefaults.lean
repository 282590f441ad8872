import Olive.Ast

/-! The methods that a trait gives to every `impl` without its own, copied into the tree. -/

namespace Olive

namespace TraitDefaults

open Ast

/-- A computation that takes ids from the counter of the nodes. -/
abbrev Fresh (α : Type) := StateM Nat α

def freshNodeId : Fresh Nat :=
  fun counter => (counter, counter + 1)

mutual
def refreshExpr : Expr → Fresh Expr
  | .mk _ kind => do
    let id ← freshNodeId
    return .mk id (← refreshKind kind)
def refreshKind : ExprKind → Fresh ExprKind
  | .integer n => return .integer n
  | .float bits => return .float bits
  | .str s => return .str s
  | .bool b => return .bool b
  | .null => return .null
  | .identifier name => return .identifier name
  | .fStr parts => return .fStr (← refreshFStr parts)
  | .list items => return .list (← refreshExprs items)
  | .tuple items => return .tuple (← refreshExprs items)
  | .set items => return .set (← refreshExprs items)
  | .dict pairs => return .dict (← refreshPairs pairs)
  | .binOp left op right => return .binOp (← refreshExpr left) op (← refreshExpr right)
  | .unaryOp op operand => return .unaryOp op (← refreshExpr operand)
  | .cast operand type => return .cast (← refreshExpr operand) type
  | .call callee args => return .call (← refreshExpr callee) (← refreshArgs args)
  | .index obj index => return .index (← refreshExpr obj) (← refreshExpr index)
  | .attr obj attr => return .attr (← refreshExpr obj) attr
  | .optAttr obj attr => return .optAttr (← refreshExpr obj) attr
  | .listComp elt clauses => return .listComp (← refreshExpr elt) (← refreshClauses clauses)
  | .setComp elt clauses => return .setComp (← refreshExpr elt) (← refreshClauses clauses)
  | .dictComp key value clauses =>
    return .dictComp (← refreshExpr key) (← refreshExpr value) (← refreshClauses clauses)
  -- the step is not visited
  | .range start stop inclusive step =>
    return .range (← refreshExpr start) (← refreshExpr stop) inclusive step
  | .borrow inner => return .borrow (← refreshExpr inner)
  | .mutBorrow inner => return .mutBorrow (← refreshExpr inner)
  | .deref inner => return .deref (← refreshExpr inner)
  | .starred inner => return .starred (← refreshExpr inner)
  | .tryExpr inner => return .tryExpr (← refreshExpr inner)
  | .await inner => return .await (← refreshExpr inner)
  | .slice start stop step =>
    return .slice (← refreshOpt start) (← refreshOpt stop) (← refreshOpt step)
  | .asyncBlock body => return .asyncBlock (← refreshBlock body)
  | .ternary cond yes otherwise =>
    return .ternary (← refreshExpr cond) (← refreshExpr yes) (← refreshExpr otherwise)
  | .matchExpr scrutinee cases => return .matchExpr (← refreshExpr scrutinee) (← refreshCases cases)
  | .lambda params body => return .lambda (← refreshParams params) (← refreshExpr body)
def refreshOpt : Option Expr → Fresh (Option Expr)
  | none => return none
  | some e => return some (← refreshExpr e)
def refreshExprs : List Expr → Fresh (List Expr)
  | [] => return []
  | e :: es => return (← refreshExpr e) :: (← refreshExprs es)
def refreshFStr : List FStrPart → Fresh (List FStrPart)
  | [] => return []
  | .mk e spec :: parts => return .mk (← refreshExpr e) spec :: (← refreshFStr parts)
def refreshArgs : List CallArg → Fresh (List CallArg)
  | [] => return []
  | .positional e :: args => return .positional (← refreshExpr e) :: (← refreshArgs args)
  | .keyword name e :: args => return .keyword name (← refreshExpr e) :: (← refreshArgs args)
  | .splat e :: args => return .splat (← refreshExpr e) :: (← refreshArgs args)
  | .kwSplat e :: args => return .kwSplat (← refreshExpr e) :: (← refreshArgs args)
def refreshPairs : List DictPair → Fresh (List DictPair)
  | [] => return []
  | .mk key value :: pairs =>
    return .mk (← refreshExpr key) (← refreshExpr value) :: (← refreshPairs pairs)
def refreshClauses : List CompClause → Fresh (List CompClause)
  | [] => return []
  | .mk target iter condition :: clauses =>
    return .mk target (← refreshExpr iter) (← refreshOpt condition) :: (← refreshClauses clauses)
/-- Of the patterns only a literal that is the whole pattern is visited. -/
def refreshPattern : MatchPattern → Fresh MatchPattern
  | .literal e => return .literal (← refreshExpr e)
  | pattern => return pattern
def refreshCases : List MatchCase → Fresh (List MatchCase)
  | [] => return []
  | .mk pattern guard body :: cases =>
    return .mk (← refreshPattern pattern) (← refreshOpt guard) (← refreshBlock body)
      :: (← refreshCases cases)
def refreshParams : List Param → Fresh (List Param)
  | [] => return []
  | .mk name default kind :: params =>
    return .mk name (← refreshOpt default) kind :: (← refreshParams params)
def refreshItems : List WithItem → Fresh (List WithItem)
  | [] => return []
  | .mk contextExpr asExpr :: items =>
    return .mk (← refreshExpr contextExpr) (← refreshOpt asExpr) :: (← refreshItems items)
def refreshElifs : List ElifClause → Fresh (List ElifClause)
  | [] => return []
  | .mk condition body :: clauses =>
    return .mk (← refreshExpr condition) (← refreshBlock body) :: (← refreshElifs clauses)
def refreshStmt : Stmt → Fresh Stmt
  | .fn name typeParams params body isAsync =>
    return .fn name typeParams (← refreshParams params) (← refreshBlock body) isAsync
  | .structDef name typeParams fields body =>
    return .structDef name typeParams (← refreshParams fields) (← refreshBlock body)
  | .impl typeParams traitName typeName body =>
    return .impl typeParams traitName typeName (← refreshBlock body)
  | .unsafeBlock body => return .unsafeBlock (← refreshBlock body)
  | .traitDef name typeParams methods => return .traitDef name typeParams (← refreshBlock methods)
  -- the values of the variants are not visited
  | .enumDef name typeParams variants body =>
    return .enumDef name typeParams variants (← refreshBlock body)
  | .ifStmt condition thenBody elifClauses elseBody =>
    return .ifStmt (← refreshExpr condition) (← refreshBlock thenBody) (← refreshElifs elifClauses)
      (← refreshBlock elseBody)
  | .whileStmt condition body elseBody =>
    return .whileStmt (← refreshExpr condition) (← refreshBlock body) (← refreshBlock elseBody)
  | .forStmt target iter body elseBody =>
    return .forStmt target (← refreshExpr iter) (← refreshBlock body) (← refreshBlock elseBody)
  | .withStmt items body => return .withStmt (← refreshItems items) (← refreshBlock body)
  | .returnStmt value => return .returnStmt (← refreshOpt value)
  | .exprStmt e => return .exprStmt (← refreshExpr e)
  | .defer e => return .defer (← refreshExpr e)
  | .letStmt name value isMut => return .letStmt name (← refreshExpr value) isMut
  | .multiLet names value isMut starred => return .multiLet names (← refreshExpr value) isMut starred
  | .const name value => return .const name (← refreshExpr value)
  | .multiConst names value => return .multiConst names (← refreshExpr value)
  | .assert test msg => return .assert (← refreshExpr test) (← refreshOpt msg)
  | .assign target value => return .assign (← refreshExpr target) (← refreshExpr value)
  | .augAssign target op value => return .augAssign (← refreshExpr target) op (← refreshExpr value)
  | .pass => return .pass
  | .breakStmt => return .breakStmt
  | .continueStmt => return .continueStmt
  | .importStmt module asName => return .importStmt module asName
  | .nativeImport asName functions structs => return .nativeImport asName functions structs
  | .fromImport names => return .fromImport names
  | .pyImport asName => return .pyImport asName
  | .typeAlias name target => return .typeAlias name target
def refreshBlock : List Stmt → Fresh (List Stmt)
  | [] => return []
  | s :: ss => return (← refreshStmt s) :: (← refreshBlock ss)
end

def typeExprName : TypeExpr → String
  | .name n => n
  | .generic n _ => n
  | .qualified parts => parts.getLast?.getD ""
  | _ => ""

/-- The methods of the traits, the newest declaration of a name first. -/
def traitMethods (stmts : List Stmt) : List (String × List Stmt) :=
  stmts.foldl (fun found stmt => match stmt with
    | .traitDef name _ methods => (name, methods) :: found
    | _ => found) []

/-- The names of the functions of a body. -/
def present (body : List Stmt) : List String :=
  body.filterMap fun
    | .fn name .. => some name
    | _ => none

/-- The method is a function that the body has not. -/
def isMissing (body : List Stmt) : Stmt → Bool
  | .fn name .. => !(present body).any (· == name)
  | _ => false

/-- What the loop over the defaults of a trait pushes. -/
def copyDefaults (body : List Stmt) : List Stmt → Fresh (List Stmt)
  | [] => return []
  | method :: defaults =>
    if isMissing body method then
      return (← refreshStmt method) :: (← copyDefaults body defaults)
    else
      copyDefaults body defaults

def desugarStmt (traits : List (String × List Stmt)) : Stmt → Fresh Stmt
  | .impl typeParams (some traitExpr) typeName body =>
    match traits.lookup (typeExprName traitExpr) with
    | some defaults =>
      return .impl typeParams (some traitExpr) typeName (body ++ (← copyDefaults body defaults))
    | none => return .impl typeParams (some traitExpr) typeName body
  | stmt => return stmt

def desugarStmts (traits : List (String × List Stmt)) : List Stmt → Fresh (List Stmt)
  | [] => return []
  | s :: ss => return (← desugarStmt traits s) :: (← desugarStmts traits ss)

def desugarTraitDefaults (program : Program) : Fresh Program :=
  let traits := traitMethods program.stmts
  if traits.isEmpty then
    return program
  else
    return ⟨← desugarStmts traits program.stmts⟩

mutual
/-- The ids of the expressions that `refreshExpr` does not come to: those in the step of a range, in
a pattern that is more than a literal, and in the value of an enum's variant. -/
def unreachedExpr : Expr → List Nat
  | .mk _ kind => unreachedKind kind
def unreachedKind : ExprKind → List Nat
  | .integer _ | .float _ | .str _ | .bool _ | .null | .identifier _ => []
  | .fStr parts => unreachedFStr parts
  | .binOp left _ right => unreachedExpr left ++ unreachedExpr right
  | .unaryOp _ e | .cast e _ | .attr e _ | .optAttr e _ | .starred e | .borrow e | .mutBorrow e
  | .deref e | .tryExpr e | .await e => unreachedExpr e
  | .call callee args => unreachedExpr callee ++ unreachedArgs args
  | .index obj index => unreachedExpr obj ++ unreachedExpr index
  | .list items | .tuple items | .set items => unreachedExprs items
  | .dict pairs => unreachedPairs pairs
  | .listComp elt clauses | .setComp elt clauses => unreachedExpr elt ++ unreachedClauses clauses
  | .dictComp key value clauses =>
    unreachedExpr key ++ unreachedExpr value ++ unreachedClauses clauses
  | .slice start stop step => unreachedOpt start ++ unreachedOpt stop ++ unreachedOpt step
  | .asyncBlock body => unreachedBlock body
  | .range start stop _ step => unreachedExpr start ++ unreachedExpr stop ++ optIds step
  | .matchExpr scrutinee cases => unreachedExpr scrutinee ++ unreachedCases cases
  | .ternary cond yes otherwise =>
    unreachedExpr cond ++ unreachedExpr yes ++ unreachedExpr otherwise
  | .lambda params body => unreachedParams params ++ unreachedExpr body
def unreachedOpt : Option Expr → List Nat
  | none => []
  | some e => unreachedExpr e
def unreachedExprs : List Expr → List Nat
  | [] => []
  | e :: es => unreachedExpr e ++ unreachedExprs es
def unreachedFStr : List FStrPart → List Nat
  | [] => []
  | .mk e _ :: parts => unreachedExpr e ++ unreachedFStr parts
def unreachedArgs : List CallArg → List Nat
  | [] => []
  | .positional e :: args | .keyword _ e :: args | .splat e :: args | .kwSplat e :: args =>
    unreachedExpr e ++ unreachedArgs args
def unreachedPairs : List DictPair → List Nat
  | [] => []
  | .mk key value :: pairs => unreachedExpr key ++ unreachedExpr value ++ unreachedPairs pairs
def unreachedClauses : List CompClause → List Nat
  | [] => []
  | .mk _ iter condition :: clauses =>
    unreachedExpr iter ++ unreachedOpt condition ++ unreachedClauses clauses
def unreachedPattern : MatchPattern → List Nat
  | .literal e => unreachedExpr e
  | pattern => patternIds pattern
def unreachedCases : List MatchCase → List Nat
  | [] => []
  | .mk pattern guard body :: cases =>
    unreachedPattern pattern ++ unreachedOpt guard ++ unreachedBlock body ++ unreachedCases cases
def unreachedParams : List Param → List Nat
  | [] => []
  | .mk _ default _ :: params => unreachedOpt default ++ unreachedParams params
def unreachedItems : List WithItem → List Nat
  | [] => []
  | .mk contextExpr asExpr :: items =>
    unreachedExpr contextExpr ++ unreachedOpt asExpr ++ unreachedItems items
def unreachedElifs : List ElifClause → List Nat
  | [] => []
  | .mk condition body :: clauses =>
    unreachedExpr condition ++ unreachedBlock body ++ unreachedElifs clauses
def unreachedStmt : Stmt → List Nat
  | .fn _ _ params body _ => unreachedParams params ++ unreachedBlock body
  | .structDef _ _ fields body => unreachedParams fields ++ unreachedBlock body
  | .impl _ _ _ body | .traitDef _ _ body | .unsafeBlock body => unreachedBlock body
  | .enumDef _ _ variants body => variantIds variants ++ unreachedBlock body
  | .ifStmt condition thenBody elifClauses elseBody =>
    unreachedExpr condition ++ unreachedBlock thenBody ++ unreachedElifs elifClauses
      ++ unreachedBlock elseBody
  | .whileStmt condition body elseBody =>
    unreachedExpr condition ++ unreachedBlock body ++ unreachedBlock elseBody
  | .forStmt _ iter body elseBody =>
    unreachedExpr iter ++ unreachedBlock body ++ unreachedBlock elseBody
  | .returnStmt value => unreachedOpt value
  | .assert test msg => unreachedExpr test ++ unreachedOpt msg
  | .withStmt items body => unreachedItems items ++ unreachedBlock body
  | .letStmt _ e _ | .multiLet _ e _ _ | .const _ e | .multiConst _ e | .exprStmt e | .defer e =>
    unreachedExpr e
  | .assign target value | .augAssign target _ value => unreachedExpr target ++ unreachedExpr value
  | .importStmt _ _ | .nativeImport _ _ _ | .fromImport _ | .pyImport _ | .pass | .breakStmt
  | .continueStmt | .typeAlias _ _ => []
def unreachedBlock : List Stmt → List Nat
  | [] => []
  | s :: ss => unreachedStmt s ++ unreachedBlock ss
end

def declaredMethods (name : String) : Stmt → Option (List Stmt)
  | .traitDef declared _ methods => if declared = name then some methods else none
  | _ => none

/-- The methods of the trait of this name: of several traits the last one counts. -/
def traitNamed (name : String) : List Stmt → Option (List Stmt)
  | [] => none
  | s :: ss => (traitNamed name ss).or (declaredMethods name s)

/-- The default methods that a statement of the program takes from its trait. -/
def inherited (program : Program) : Stmt → List Stmt
  | .impl _ (some traitExpr) _ body =>
    ((traitNamed (typeExprName traitExpr) program.stmts).getD []).filter (isMissing body)
  | _ => []

/-- The second statement is the first one with copies of the default methods it takes. -/
def Completed (program : Program) : Stmt → Stmt → Prop
  | .impl typeParams traitName typeName body, after => ∃ copies,
    after = .impl typeParams traitName typeName (body ++ copies) ∧
    eraseBlock copies = eraseBlock (inherited program (.impl typeParams traitName typeName body))
  | stmt, after => after = stmt

/-- Every `impl` has its own methods and the copies, the rest is unchanged, and no two expressions
share an id. -/
structure Desugared (program after : Program) : Prop where
  stmts : List.Forall₂ (Completed program) program.stmts after.stmts
  ids : (blockIds after.stmts).Nodup

end TraitDefaults

end Olive
