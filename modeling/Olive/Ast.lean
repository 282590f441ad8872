import Mathlib.Data.List.Basic

/-! The syntax tree that the parser builds. Of an import the names stay that it brings in; places in
the text, annotations and decorators are left out. -/

namespace Olive

namespace Ast

inductive TypeExpr where
  | name (n : String)
  | qualified (parts : List String)
  | generic (n : String) (args : List TypeExpr)
  | tuple (items : List TypeExpr)
  | list (item : TypeExpr)
  | dict (key value : TypeExpr)
  | union (left right : TypeExpr)
  | fn (params : List TypeExpr) (ret : TypeExpr)
  | ref (target : TypeExpr)
  | mutRef (target : TypeExpr)
  | ptr (target : TypeExpr)
  | fixedArray (item : TypeExpr) (len : Nat)

inductive BinOp where
  | add | sub | mul | div | mod | pow | eq | notEq | lt | ltEq | gt | gtEq | and | or | coalesce
  | isIn | notIn | shl | shr | bitOr | bitAnd | bitXor

inductive UnaryOp where
  | neg | pos | not | bitNot

inductive AugOp where
  | add | sub | mul | div | mod | pow | shl | shr | bitOr | bitAnd | bitXor

inductive ParamKind where
  | regular | varArg | kwArg

inductive ForTarget where
  | name (n : String)
  | tuple (names : List String)

mutual
/-- The id is the one that types are recorded under. -/
inductive Expr where
  | mk (id : Nat) (kind : ExprKind)
inductive ExprKind where
  | integer (n : Int)
  | float (bits : BitVec 64)
  | str (s : String)
  | fStr (parts : List FStrPart)
  | bool (b : Bool)
  | null
  | identifier (name : String)
  | binOp (left : Expr) (op : BinOp) (right : Expr)
  | unaryOp (op : UnaryOp) (operand : Expr)
  | cast (operand : Expr) (type : TypeExpr)
  | call (callee : Expr) (args : List CallArg)
  | index (obj index : Expr)
  | attr (obj : Expr) (attr : String)
  | optAttr (obj : Expr) (attr : String)
  | list (items : List Expr)
  | tuple (items : List Expr)
  | set (items : List Expr)
  | dict (pairs : List DictPair)
  | starred (inner : Expr)
  | listComp (elt : Expr) (clauses : List CompClause)
  | setComp (elt : Expr) (clauses : List CompClause)
  | dictComp (key value : Expr) (clauses : List CompClause)
  | borrow (inner : Expr)
  | mutBorrow (inner : Expr)
  | deref (inner : Expr)
  | slice (start stop step : Option Expr)
  | tryExpr (inner : Expr)
  | await (inner : Expr)
  | asyncBlock (body : List Stmt)
  | range (start stop : Expr) (inclusive : Bool) (step : Option Expr)
  | matchExpr (scrutinee : Expr) (cases : List MatchCase)
  | ternary (cond yes otherwise : Expr)
  | lambda (params : List Param) (body : Expr)
inductive FStrPart where
  | mk (expr : Expr) (spec : Option String)
inductive CallArg where
  | positional (e : Expr)
  | keyword (name : String) (e : Expr)
  | splat (e : Expr)
  | kwSplat (e : Expr)
inductive DictPair where
  | mk (key value : Expr)
inductive CompClause where
  | mk (target : ForTarget) (iter : Expr) (condition : Option Expr)
inductive MatchCase where
  | mk (pattern : MatchPattern) (guard : Option Expr) (body : List Stmt)
inductive MatchPattern where
  | variant (name : String) (inner : List MatchPattern)
  | identifier (name : String)
  | literal (e : Expr)
  | wildcard
  | tuple (items : List MatchPattern)
  | structFields (name : String) (fieldNames : List String) (fields : List MatchPattern)
  | list (before : List MatchPattern) (rest : Option String) (after : List MatchPattern)
  | range (start stop : Expr) (inclusive : Bool)
  | or (alts : List MatchPattern)
inductive Param where
  | mk (name : String) (default : Option Expr) (kind : ParamKind)
inductive WithItem where
  | mk (contextExpr : Expr) (asExpr : Option Expr)
inductive EnumVariant where
  | mk (name : String) (types : List TypeExpr) (value : Option Expr)
inductive ElifClause where
  | mk (condition : Expr) (body : List Stmt)
/-- An absent `else` is an empty block. -/
inductive Stmt where
  | fn (name : String) (typeParams : List String) (params : List Param) (body : List Stmt)
      (isAsync : Bool)
  | structDef (name : String) (typeParams : List String) (fields : List Param) (body : List Stmt)
  | impl (typeParams : List String) (traitName : Option TypeExpr) (typeName : TypeExpr)
      (body : List Stmt)
  | traitDef (name : String) (typeParams : List String) (methods : List Stmt)
  | enumDef (name : String) (typeParams : List String) (variants : List EnumVariant)
      (body : List Stmt)
  | ifStmt (condition : Expr) (thenBody : List Stmt) (elifClauses : List ElifClause)
      (elseBody : List Stmt)
  | whileStmt (condition : Expr) (body elseBody : List Stmt)
  | forStmt (target : ForTarget) (iter : Expr) (body elseBody : List Stmt)
  | returnStmt (value : Option Expr)
  | assert (test : Expr) (msg : Option Expr)
  | withStmt (items : List WithItem) (body : List Stmt)
  | importStmt (module : List String) (asName : Option String)
  | nativeImport (asName : String) (functions structs : List String)
  | fromImport (names : List (String × Option String))
  | pyImport (asName : String)
  | letStmt (name : String) (value : Expr) (isMut : Bool)
  | multiLet (names : List String) (value : Expr) (isMut : Bool) (starred : Option Nat)
  | const (name : String) (value : Expr)
  | multiConst (names : List String) (value : Expr)
  | assign (target value : Expr)
  | augAssign (target : Expr) (op : AugOp) (value : Expr)
  | pass
  | breakStmt
  | continueStmt
  | exprStmt (e : Expr)
  | unsafeBlock (body : List Stmt)
  | defer (e : Expr)
  | typeAlias (name : String) (target : TypeExpr)
end

structure Program where
  stmts : List Stmt

mutual
/-- The ids of an expression and of every expression in it. -/
def exprIds : Expr → List Nat
  | .mk id kind => id :: kindIds kind
def kindIds : ExprKind → List Nat
  | .integer _ | .float _ | .str _ | .bool _ | .null | .identifier _ => []
  | .fStr parts => fStrIds parts
  | .binOp left _ right => exprIds left ++ exprIds right
  | .unaryOp _ e | .cast e _ | .attr e _ | .optAttr e _ | .starred e | .borrow e | .mutBorrow e
  | .deref e | .tryExpr e | .await e => exprIds e
  | .call callee args => exprIds callee ++ argIds args
  | .index obj index => exprIds obj ++ exprIds index
  | .list items | .tuple items | .set items => exprsIds items
  | .dict pairs => pairIds pairs
  | .listComp elt clauses | .setComp elt clauses => exprIds elt ++ clauseIds clauses
  | .dictComp key value clauses => exprIds key ++ exprIds value ++ clauseIds clauses
  | .slice start stop step => optIds start ++ optIds stop ++ optIds step
  | .asyncBlock body => blockIds body
  | .range start stop _ step => exprIds start ++ exprIds stop ++ optIds step
  | .matchExpr scrutinee cases => exprIds scrutinee ++ caseIds cases
  | .ternary cond yes otherwise => exprIds cond ++ exprIds yes ++ exprIds otherwise
  | .lambda params body => paramIds params ++ exprIds body
def optIds : Option Expr → List Nat
  | none => []
  | some e => exprIds e
def exprsIds : List Expr → List Nat
  | [] => []
  | e :: es => exprIds e ++ exprsIds es
def fStrIds : List FStrPart → List Nat
  | [] => []
  | .mk e _ :: parts => exprIds e ++ fStrIds parts
def argIds : List CallArg → List Nat
  | [] => []
  | .positional e :: args | .keyword _ e :: args | .splat e :: args | .kwSplat e :: args =>
    exprIds e ++ argIds args
def pairIds : List DictPair → List Nat
  | [] => []
  | .mk key value :: pairs => exprIds key ++ exprIds value ++ pairIds pairs
def clauseIds : List CompClause → List Nat
  | [] => []
  | .mk _ iter condition :: clauses => exprIds iter ++ optIds condition ++ clauseIds clauses
def caseIds : List MatchCase → List Nat
  | [] => []
  | .mk pattern guard body :: cases =>
    patternIds pattern ++ optIds guard ++ blockIds body ++ caseIds cases
def patternIds : MatchPattern → List Nat
  | .identifier _ | .wildcard => []
  | .literal e => exprIds e
  | .variant _ ps | .tuple ps | .structFields _ _ ps | .or ps => patternsIds ps
  | .list before _ after => patternsIds before ++ patternsIds after
  | .range start stop _ => exprIds start ++ exprIds stop
def patternsIds : List MatchPattern → List Nat
  | [] => []
  | p :: ps => patternIds p ++ patternsIds ps
def paramIds : List Param → List Nat
  | [] => []
  | .mk _ default _ :: params => optIds default ++ paramIds params
def itemIds : List WithItem → List Nat
  | [] => []
  | .mk contextExpr asExpr :: items => exprIds contextExpr ++ optIds asExpr ++ itemIds items
def variantIds : List EnumVariant → List Nat
  | [] => []
  | .mk _ _ value :: variants => optIds value ++ variantIds variants
def elifIds : List ElifClause → List Nat
  | [] => []
  | .mk condition body :: clauses => exprIds condition ++ blockIds body ++ elifIds clauses
def stmtIds : Stmt → List Nat
  | .fn _ _ params body _ => paramIds params ++ blockIds body
  | .structDef _ _ fields body => paramIds fields ++ blockIds body
  | .impl _ _ _ body | .traitDef _ _ body | .unsafeBlock body => blockIds body
  | .enumDef _ _ variants body => variantIds variants ++ blockIds body
  | .ifStmt condition thenBody elifClauses elseBody =>
    exprIds condition ++ blockIds thenBody ++ elifIds elifClauses ++ blockIds elseBody
  | .whileStmt condition body elseBody =>
    exprIds condition ++ blockIds body ++ blockIds elseBody
  | .forStmt _ iter body elseBody => exprIds iter ++ blockIds body ++ blockIds elseBody
  | .returnStmt value => optIds value
  | .assert test msg => exprIds test ++ optIds msg
  | .withStmt items body => itemIds items ++ blockIds body
  | .letStmt _ e _ | .multiLet _ e _ _ | .const _ e | .multiConst _ e | .exprStmt e | .defer e =>
    exprIds e
  | .assign target value | .augAssign target _ value => exprIds target ++ exprIds value
  | .importStmt _ _ | .nativeImport _ _ _ | .fromImport _ | .pyImport _ | .pass | .breakStmt
  | .continueStmt | .typeAlias _ _ => []
def blockIds : List Stmt → List Nat
  | [] => []
  | s :: ss => stmtIds s ++ blockIds ss
end

theorem blockIds_append (ss ss' : List Stmt) : blockIds (ss ++ ss') = blockIds ss ++ blockIds ss' := by
  induction ss with
  | nil => rfl
  | cons s ss ih => simp only [List.cons_append, blockIds, ih, List.append_assoc]

mutual
/-- The tree with every id 0: two trees are equal up to ids when these are equal. -/
def eraseExpr : Expr → Expr
  | .mk _ kind => .mk 0 (eraseKind kind)
def eraseKind : ExprKind → ExprKind
  | .integer n => .integer n
  | .float bits => .float bits
  | .str s => .str s
  | .fStr parts => .fStr (eraseFStr parts)
  | .bool b => .bool b
  | .null => .null
  | .identifier name => .identifier name
  | .binOp left op right => .binOp (eraseExpr left) op (eraseExpr right)
  | .unaryOp op operand => .unaryOp op (eraseExpr operand)
  | .cast operand type => .cast (eraseExpr operand) type
  | .call callee args => .call (eraseExpr callee) (eraseArgs args)
  | .index obj index => .index (eraseExpr obj) (eraseExpr index)
  | .attr obj attr => .attr (eraseExpr obj) attr
  | .optAttr obj attr => .optAttr (eraseExpr obj) attr
  | .list items => .list (eraseExprs items)
  | .tuple items => .tuple (eraseExprs items)
  | .set items => .set (eraseExprs items)
  | .dict pairs => .dict (erasePairs pairs)
  | .starred inner => .starred (eraseExpr inner)
  | .listComp elt clauses => .listComp (eraseExpr elt) (eraseClauses clauses)
  | .setComp elt clauses => .setComp (eraseExpr elt) (eraseClauses clauses)
  | .dictComp key value clauses =>
    .dictComp (eraseExpr key) (eraseExpr value) (eraseClauses clauses)
  | .borrow inner => .borrow (eraseExpr inner)
  | .mutBorrow inner => .mutBorrow (eraseExpr inner)
  | .deref inner => .deref (eraseExpr inner)
  | .slice start stop step => .slice (eraseOpt start) (eraseOpt stop) (eraseOpt step)
  | .tryExpr inner => .tryExpr (eraseExpr inner)
  | .await inner => .await (eraseExpr inner)
  | .asyncBlock body => .asyncBlock (eraseBlock body)
  | .range start stop inclusive step =>
    .range (eraseExpr start) (eraseExpr stop) inclusive (eraseOpt step)
  | .matchExpr scrutinee cases => .matchExpr (eraseExpr scrutinee) (eraseCases cases)
  | .ternary cond yes otherwise =>
    .ternary (eraseExpr cond) (eraseExpr yes) (eraseExpr otherwise)
  | .lambda params body => .lambda (eraseParams params) (eraseExpr body)
def eraseOpt : Option Expr → Option Expr
  | none => none
  | some e => some (eraseExpr e)
def eraseExprs : List Expr → List Expr
  | [] => []
  | e :: es => eraseExpr e :: eraseExprs es
def eraseFStr : List FStrPart → List FStrPart
  | [] => []
  | .mk e spec :: parts => .mk (eraseExpr e) spec :: eraseFStr parts
def eraseArgs : List CallArg → List CallArg
  | [] => []
  | .positional e :: args => .positional (eraseExpr e) :: eraseArgs args
  | .keyword name e :: args => .keyword name (eraseExpr e) :: eraseArgs args
  | .splat e :: args => .splat (eraseExpr e) :: eraseArgs args
  | .kwSplat e :: args => .kwSplat (eraseExpr e) :: eraseArgs args
def erasePairs : List DictPair → List DictPair
  | [] => []
  | .mk key value :: pairs => .mk (eraseExpr key) (eraseExpr value) :: erasePairs pairs
def eraseClauses : List CompClause → List CompClause
  | [] => []
  | .mk target iter condition :: clauses =>
    .mk target (eraseExpr iter) (eraseOpt condition) :: eraseClauses clauses
def eraseCases : List MatchCase → List MatchCase
  | [] => []
  | .mk pattern guard body :: cases =>
    .mk (erasePattern pattern) (eraseOpt guard) (eraseBlock body) :: eraseCases cases
def erasePattern : MatchPattern → MatchPattern
  | .variant name inner => .variant name (erasePatterns inner)
  | .identifier name => .identifier name
  | .literal e => .literal (eraseExpr e)
  | .wildcard => .wildcard
  | .tuple items => .tuple (erasePatterns items)
  | .structFields name fieldNames fields => .structFields name fieldNames (erasePatterns fields)
  | .list before rest after => .list (erasePatterns before) rest (erasePatterns after)
  | .range start stop inclusive => .range (eraseExpr start) (eraseExpr stop) inclusive
  | .or alts => .or (erasePatterns alts)
def erasePatterns : List MatchPattern → List MatchPattern
  | [] => []
  | p :: ps => erasePattern p :: erasePatterns ps
def eraseParams : List Param → List Param
  | [] => []
  | .mk name default kind :: params => .mk name (eraseOpt default) kind :: eraseParams params
def eraseItems : List WithItem → List WithItem
  | [] => []
  | .mk contextExpr asExpr :: items =>
    .mk (eraseExpr contextExpr) (eraseOpt asExpr) :: eraseItems items
def eraseVariants : List EnumVariant → List EnumVariant
  | [] => []
  | .mk name types value :: variants => .mk name types (eraseOpt value) :: eraseVariants variants
def eraseElifs : List ElifClause → List ElifClause
  | [] => []
  | .mk condition body :: clauses => .mk (eraseExpr condition) (eraseBlock body) :: eraseElifs clauses
def eraseStmt : Stmt → Stmt
  | .fn name typeParams params body isAsync =>
    .fn name typeParams (eraseParams params) (eraseBlock body) isAsync
  | .structDef name typeParams fields body =>
    .structDef name typeParams (eraseParams fields) (eraseBlock body)
  | .impl typeParams traitName typeName body => .impl typeParams traitName typeName (eraseBlock body)
  | .traitDef name typeParams methods => .traitDef name typeParams (eraseBlock methods)
  | .enumDef name typeParams variants body =>
    .enumDef name typeParams (eraseVariants variants) (eraseBlock body)
  | .ifStmt condition thenBody elifClauses elseBody =>
    .ifStmt (eraseExpr condition) (eraseBlock thenBody) (eraseElifs elifClauses)
      (eraseBlock elseBody)
  | .whileStmt condition body elseBody =>
    .whileStmt (eraseExpr condition) (eraseBlock body) (eraseBlock elseBody)
  | .forStmt target iter body elseBody =>
    .forStmt target (eraseExpr iter) (eraseBlock body) (eraseBlock elseBody)
  | .returnStmt value => .returnStmt (eraseOpt value)
  | .assert test msg => .assert (eraseExpr test) (eraseOpt msg)
  | .withStmt items body => .withStmt (eraseItems items) (eraseBlock body)
  | .importStmt module asName => .importStmt module asName
  | .nativeImport asName functions structs => .nativeImport asName functions structs
  | .fromImport names => .fromImport names
  | .pyImport asName => .pyImport asName
  | .letStmt name value isMut => .letStmt name (eraseExpr value) isMut
  | .multiLet names value isMut starred => .multiLet names (eraseExpr value) isMut starred
  | .const name value => .const name (eraseExpr value)
  | .multiConst names value => .multiConst names (eraseExpr value)
  | .assign target value => .assign (eraseExpr target) (eraseExpr value)
  | .augAssign target op value => .augAssign (eraseExpr target) op (eraseExpr value)
  | .pass => .pass
  | .breakStmt => .breakStmt
  | .continueStmt => .continueStmt
  | .exprStmt e => .exprStmt (eraseExpr e)
  | .unsafeBlock body => .unsafeBlock (eraseBlock body)
  | .defer e => .defer (eraseExpr e)
  | .typeAlias name target => .typeAlias name target
def eraseBlock : List Stmt → List Stmt
  | [] => []
  | s :: ss => eraseStmt s :: eraseBlock ss
end

end Ast

end Olive
