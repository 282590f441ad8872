import Olive.FreshIds
import Olive.TraitDefaults

/-! The copies of the default methods: what their ids are, and that they differ in nothing else. -/

namespace Olive

namespace TraitDefaults

open Ast

mutual
theorem refreshExpr_renumbered : ∀ (e : Expr) (c : Nat),
    Renumbered (unreachedExpr e) (exprIds (refreshExpr e c).1) c (refreshExpr e c).2
  | .mk _ kind, c => (refreshKind_renumbered kind (c + 1)).fresh
theorem refreshKind_renumbered : ∀ (kind : ExprKind) (c : Nat),
    Renumbered (unreachedKind kind) (kindIds (refreshKind kind c).1) c (refreshKind kind c).2
  | .integer _, c | .float _, c | .str _, c | .bool _, c | .null, c | .identifier _, c =>
    .rest [] c
  | .fStr parts, c => refreshFStr_renumbered parts c
  | .binOp left _ right, c =>
    (refreshExpr_renumbered left c).append (refreshExpr_renumbered right _)
  | .unaryOp _ e, c | .cast e _, c | .attr e _, c | .optAttr e _, c | .starred e, c
  | .borrow e, c | .mutBorrow e, c | .deref e, c | .tryExpr e, c | .await e, c =>
    refreshExpr_renumbered e c
  | .call callee args, c =>
    (refreshExpr_renumbered callee c).append (refreshArgs_renumbered args _)
  | .index obj index, c =>
    (refreshExpr_renumbered obj c).append (refreshExpr_renumbered index _)
  | .list items, c | .tuple items, c | .set items, c => refreshExprs_renumbered items c
  | .dict pairs, c => refreshPairs_renumbered pairs c
  | .listComp elt clauses, c | .setComp elt clauses, c =>
    (refreshExpr_renumbered elt c).append (refreshClauses_renumbered clauses _)
  | .dictComp key value clauses, c =>
    ((refreshExpr_renumbered key c).append (refreshExpr_renumbered value _)).append
      (refreshClauses_renumbered clauses _)
  | .slice start stop step, c =>
    ((refreshOpt_renumbered start c).append (refreshOpt_renumbered stop _)).append
      (refreshOpt_renumbered step _)
  | .asyncBlock body, c => refreshBlock_renumbered body c
  | .range start stop _ step, c =>
    ((refreshExpr_renumbered start c).append (refreshExpr_renumbered stop _)).append
      (.rest (optIds step) _)
  | .matchExpr scrutinee cases, c =>
    (refreshExpr_renumbered scrutinee c).append (refreshCases_renumbered cases _)
  | .ternary cond yes otherwise, c =>
    ((refreshExpr_renumbered cond c).append (refreshExpr_renumbered yes _)).append
      (refreshExpr_renumbered otherwise _)
  | .lambda params body, c =>
    (refreshParams_renumbered params c).append (refreshExpr_renumbered body _)
theorem refreshOpt_renumbered : ∀ (e : Option Expr) (c : Nat),
    Renumbered (unreachedOpt e) (optIds (refreshOpt e c).1) c (refreshOpt e c).2
  | none, c => .rest [] c
  | some e, c => refreshExpr_renumbered e c
theorem refreshExprs_renumbered : ∀ (es : List Expr) (c : Nat),
    Renumbered (unreachedExprs es) (exprsIds (refreshExprs es c).1) c (refreshExprs es c).2
  | [], c => .rest [] c
  | e :: es, c => (refreshExpr_renumbered e c).append (refreshExprs_renumbered es _)
theorem refreshFStr_renumbered : ∀ (parts : List FStrPart) (c : Nat),
    Renumbered (unreachedFStr parts) (fStrIds (refreshFStr parts c).1) c (refreshFStr parts c).2
  | [], c => .rest [] c
  | .mk e _ :: parts, c => (refreshExpr_renumbered e c).append (refreshFStr_renumbered parts _)
theorem refreshArgs_renumbered : ∀ (args : List CallArg) (c : Nat),
    Renumbered (unreachedArgs args) (argIds (refreshArgs args c).1) c (refreshArgs args c).2
  | [], c => .rest [] c
  | .positional e :: args, c | .keyword _ e :: args, c | .splat e :: args, c
  | .kwSplat e :: args, c => (refreshExpr_renumbered e c).append (refreshArgs_renumbered args _)
theorem refreshPairs_renumbered : ∀ (pairs : List DictPair) (c : Nat),
    Renumbered (unreachedPairs pairs) (pairIds (refreshPairs pairs c).1) c (refreshPairs pairs c).2
  | [], c => .rest [] c
  | .mk key value :: pairs, c =>
    ((refreshExpr_renumbered key c).append (refreshExpr_renumbered value _)).append
      (refreshPairs_renumbered pairs _)
theorem refreshClauses_renumbered : ∀ (clauses : List CompClause) (c : Nat),
    Renumbered (unreachedClauses clauses) (clauseIds (refreshClauses clauses c).1) c
      (refreshClauses clauses c).2
  | [], c => .rest [] c
  | .mk _ iter condition :: clauses, c =>
    ((refreshExpr_renumbered iter c).append (refreshOpt_renumbered condition _)).append
      (refreshClauses_renumbered clauses _)
theorem refreshPattern_renumbered : ∀ (pattern : MatchPattern) (c : Nat),
    Renumbered (unreachedPattern pattern) (patternIds (refreshPattern pattern c).1) c
      (refreshPattern pattern c).2
  | .literal e, c => refreshExpr_renumbered e c
  | .identifier _, c | .wildcard, c | .variant _ _, c | .tuple _, c | .structFields _ _ _, c
  | .list _ _ _, c | .range _ _ _, c | .or _, c => .rest _ c
theorem refreshCases_renumbered : ∀ (cases : List MatchCase) (c : Nat),
    Renumbered (unreachedCases cases) (caseIds (refreshCases cases c).1) c
      (refreshCases cases c).2
  | [], c => .rest [] c
  | .mk pattern guard body :: cases, c =>
    (((refreshPattern_renumbered pattern c).append (refreshOpt_renumbered guard _)).append
      (refreshBlock_renumbered body _)).append (refreshCases_renumbered cases _)
theorem refreshParams_renumbered : ∀ (params : List Param) (c : Nat),
    Renumbered (unreachedParams params) (paramIds (refreshParams params c).1) c
      (refreshParams params c).2
  | [], c => .rest [] c
  | .mk _ default _ :: params, c =>
    (refreshOpt_renumbered default c).append (refreshParams_renumbered params _)
theorem refreshItems_renumbered : ∀ (items : List WithItem) (c : Nat),
    Renumbered (unreachedItems items) (itemIds (refreshItems items c).1) c
      (refreshItems items c).2
  | [], c => .rest [] c
  | .mk contextExpr asExpr :: items, c =>
    ((refreshExpr_renumbered contextExpr c).append (refreshOpt_renumbered asExpr _)).append
      (refreshItems_renumbered items _)
theorem refreshElifs_renumbered : ∀ (clauses : List ElifClause) (c : Nat),
    Renumbered (unreachedElifs clauses) (elifIds (refreshElifs clauses c).1) c
      (refreshElifs clauses c).2
  | [], c => .rest [] c
  | .mk condition body :: clauses, c =>
    ((refreshExpr_renumbered condition c).append (refreshBlock_renumbered body _)).append
      (refreshElifs_renumbered clauses _)
theorem refreshStmt_renumbered : ∀ (s : Stmt) (c : Nat),
    Renumbered (unreachedStmt s) (stmtIds (refreshStmt s c).1) c (refreshStmt s c).2
  | .fn _ _ params body _, c =>
    (refreshParams_renumbered params c).append (refreshBlock_renumbered body _)
  | .structDef _ _ fields body, c =>
    (refreshParams_renumbered fields c).append (refreshBlock_renumbered body _)
  | .impl _ _ _ body, c | .traitDef _ _ body, c | .unsafeBlock body, c =>
    refreshBlock_renumbered body c
  | .enumDef _ _ variants body, c =>
    (Renumbered.rest (variantIds variants) c).append (refreshBlock_renumbered body c)
  | .ifStmt condition thenBody elifClauses elseBody, c =>
    (((refreshExpr_renumbered condition c).append (refreshBlock_renumbered thenBody _)).append
      (refreshElifs_renumbered elifClauses _)).append (refreshBlock_renumbered elseBody _)
  | .whileStmt condition body elseBody, c =>
    ((refreshExpr_renumbered condition c).append (refreshBlock_renumbered body _)).append
      (refreshBlock_renumbered elseBody _)
  | .forStmt _ iter body elseBody, c =>
    ((refreshExpr_renumbered iter c).append (refreshBlock_renumbered body _)).append
      (refreshBlock_renumbered elseBody _)
  | .returnStmt value, c => refreshOpt_renumbered value c
  | .assert test msg, c => (refreshExpr_renumbered test c).append (refreshOpt_renumbered msg _)
  | .withStmt items body, c =>
    (refreshItems_renumbered items c).append (refreshBlock_renumbered body _)
  | .letStmt _ e _, c | .multiLet _ e _ _, c | .const _ e, c | .multiConst _ e, c
  | .exprStmt e, c | .defer e, c => refreshExpr_renumbered e c
  | .assign target value, c | .augAssign target _ value, c =>
    (refreshExpr_renumbered target c).append (refreshExpr_renumbered value _)
  | .importStmt _ _, c | .nativeImport _ _ _, c | .fromImport _, c | .pyImport _, c | .pass, c
  | .breakStmt, c | .continueStmt, c | .typeAlias _ _, c => .rest [] c
theorem refreshBlock_renumbered : ∀ (ss : List Stmt) (c : Nat),
    Renumbered (unreachedBlock ss) (blockIds (refreshBlock ss c).1) c (refreshBlock ss c).2
  | [], c => .rest [] c
  | s :: ss, c => (refreshStmt_renumbered s c).append (refreshBlock_renumbered ss _)
end

mutual
theorem unreachedExpr_sub : ∀ e : Expr, (unreachedExpr e).Sublist (exprIds e)
  | .mk id kind => (unreachedKind_sub kind).cons id
theorem unreachedKind_sub : ∀ kind : ExprKind, (unreachedKind kind).Sublist (kindIds kind)
  | .integer _ | .float _ | .str _ | .bool _ | .null | .identifier _ => .refl _
  | .fStr parts => unreachedFStr_sub parts
  | .binOp left _ right => (unreachedExpr_sub left).append (unreachedExpr_sub right)
  | .unaryOp _ e | .cast e _ | .attr e _ | .optAttr e _ | .starred e | .borrow e | .mutBorrow e
  | .deref e | .tryExpr e | .await e => unreachedExpr_sub e
  | .call callee args => (unreachedExpr_sub callee).append (unreachedArgs_sub args)
  | .index obj index => (unreachedExpr_sub obj).append (unreachedExpr_sub index)
  | .list items | .tuple items | .set items => unreachedExprs_sub items
  | .dict pairs => unreachedPairs_sub pairs
  | .listComp elt clauses | .setComp elt clauses =>
    (unreachedExpr_sub elt).append (unreachedClauses_sub clauses)
  | .dictComp key value clauses =>
    ((unreachedExpr_sub key).append (unreachedExpr_sub value)).append (unreachedClauses_sub clauses)
  | .slice start stop step =>
    ((unreachedOpt_sub start).append (unreachedOpt_sub stop)).append (unreachedOpt_sub step)
  | .asyncBlock body => unreachedBlock_sub body
  | .range start stop _ step =>
    ((unreachedExpr_sub start).append (unreachedExpr_sub stop)).append (.refl (optIds step))
  | .matchExpr scrutinee cases => (unreachedExpr_sub scrutinee).append (unreachedCases_sub cases)
  | .ternary cond yes otherwise =>
    ((unreachedExpr_sub cond).append (unreachedExpr_sub yes)).append (unreachedExpr_sub otherwise)
  | .lambda params body => (unreachedParams_sub params).append (unreachedExpr_sub body)
theorem unreachedOpt_sub : ∀ e : Option Expr, (unreachedOpt e).Sublist (optIds e)
  | none => .refl _
  | some e => unreachedExpr_sub e
theorem unreachedExprs_sub : ∀ es : List Expr, (unreachedExprs es).Sublist (exprsIds es)
  | [] => .refl _
  | e :: es => (unreachedExpr_sub e).append (unreachedExprs_sub es)
theorem unreachedFStr_sub : ∀ parts : List FStrPart, (unreachedFStr parts).Sublist (fStrIds parts)
  | [] => .refl _
  | .mk e _ :: parts => (unreachedExpr_sub e).append (unreachedFStr_sub parts)
theorem unreachedArgs_sub : ∀ args : List CallArg, (unreachedArgs args).Sublist (argIds args)
  | [] => .refl _
  | .positional e :: args | .keyword _ e :: args | .splat e :: args | .kwSplat e :: args =>
    (unreachedExpr_sub e).append (unreachedArgs_sub args)
theorem unreachedPairs_sub : ∀ pairs : List DictPair, (unreachedPairs pairs).Sublist (pairIds pairs)
  | [] => .refl _
  | .mk key value :: pairs =>
    ((unreachedExpr_sub key).append (unreachedExpr_sub value)).append (unreachedPairs_sub pairs)
theorem unreachedClauses_sub : ∀ clauses : List CompClause,
    (unreachedClauses clauses).Sublist (clauseIds clauses)
  | [] => .refl _
  | .mk _ iter condition :: clauses =>
    ((unreachedExpr_sub iter).append (unreachedOpt_sub condition)).append
      (unreachedClauses_sub clauses)
theorem unreachedPattern_sub : ∀ pattern : MatchPattern,
    (unreachedPattern pattern).Sublist (patternIds pattern)
  | .literal e => unreachedExpr_sub e
  | .identifier _ | .wildcard | .variant _ _ | .tuple _ | .structFields _ _ _ | .list _ _ _
  | .range _ _ _ | .or _ => .refl _
theorem unreachedCases_sub : ∀ cases : List MatchCase, (unreachedCases cases).Sublist (caseIds cases)
  | [] => .refl _
  | .mk pattern guard body :: cases =>
    (((unreachedPattern_sub pattern).append (unreachedOpt_sub guard)).append
      (unreachedBlock_sub body)).append (unreachedCases_sub cases)
theorem unreachedParams_sub : ∀ params : List Param,
    (unreachedParams params).Sublist (paramIds params)
  | [] => .refl _
  | .mk _ default _ :: params => (unreachedOpt_sub default).append (unreachedParams_sub params)
theorem unreachedItems_sub : ∀ items : List WithItem, (unreachedItems items).Sublist (itemIds items)
  | [] => .refl _
  | .mk contextExpr asExpr :: items =>
    ((unreachedExpr_sub contextExpr).append (unreachedOpt_sub asExpr)).append
      (unreachedItems_sub items)
theorem unreachedElifs_sub : ∀ clauses : List ElifClause,
    (unreachedElifs clauses).Sublist (elifIds clauses)
  | [] => .refl _
  | .mk condition body :: clauses =>
    ((unreachedExpr_sub condition).append (unreachedBlock_sub body)).append
      (unreachedElifs_sub clauses)
theorem unreachedStmt_sub : ∀ s : Stmt, (unreachedStmt s).Sublist (stmtIds s)
  | .fn _ _ params body _ => (unreachedParams_sub params).append (unreachedBlock_sub body)
  | .structDef _ _ fields body => (unreachedParams_sub fields).append (unreachedBlock_sub body)
  | .impl _ _ _ body | .traitDef _ _ body | .unsafeBlock body => unreachedBlock_sub body
  | .enumDef _ _ variants body => (List.Sublist.refl (variantIds variants)).append
    (unreachedBlock_sub body)
  | .ifStmt condition thenBody elifClauses elseBody =>
    (((unreachedExpr_sub condition).append (unreachedBlock_sub thenBody)).append
      (unreachedElifs_sub elifClauses)).append (unreachedBlock_sub elseBody)
  | .whileStmt condition body elseBody =>
    ((unreachedExpr_sub condition).append (unreachedBlock_sub body)).append
      (unreachedBlock_sub elseBody)
  | .forStmt _ iter body elseBody =>
    ((unreachedExpr_sub iter).append (unreachedBlock_sub body)).append (unreachedBlock_sub elseBody)
  | .returnStmt value => unreachedOpt_sub value
  | .assert test msg => (unreachedExpr_sub test).append (unreachedOpt_sub msg)
  | .withStmt items body => (unreachedItems_sub items).append (unreachedBlock_sub body)
  | .letStmt _ e _ | .multiLet _ e _ _ | .const _ e | .multiConst _ e | .exprStmt e | .defer e =>
    unreachedExpr_sub e
  | .assign target value | .augAssign target _ value =>
    (unreachedExpr_sub target).append (unreachedExpr_sub value)
  | .importStmt _ _ | .nativeImport _ _ _ | .fromImport _ | .pyImport _ | .pass | .breakStmt
  | .continueStmt | .typeAlias _ _ => .refl _
theorem unreachedBlock_sub : ∀ ss : List Stmt, (unreachedBlock ss).Sublist (blockIds ss)
  | [] => .refl _
  | s :: ss => (unreachedStmt_sub s).append (unreachedBlock_sub ss)
end

theorem congr_three {α β γ δ : Type} (f : α → β → γ → δ) {a a' : α} {b b' : β} {c c' : γ}
    (ha : a = a') (hb : b = b') (hc : c = c') : f a b c = f a' b' c' := by
  rw [ha, hb, hc]

mutual
theorem refreshExpr_erased : ∀ (e : Expr) (c : Nat), eraseExpr (refreshExpr e c).1 = eraseExpr e
  | .mk _ kind, c => congrArg (Expr.mk 0) (refreshKind_erased kind (c + 1))
theorem refreshKind_erased : ∀ (kind : ExprKind) (c : Nat),
    eraseKind (refreshKind kind c).1 = eraseKind kind
  | .integer _, _ | .float _, _ | .str _, _ | .bool _, _ | .null, _ | .identifier _, _ => rfl
  | .fStr parts, c => congrArg ExprKind.fStr (refreshFStr_erased parts c)
  | .binOp left op right, c =>
    congrArg₂ (ExprKind.binOp · op ·) (refreshExpr_erased left c) (refreshExpr_erased right _)
  | .unaryOp op e, c => congrArg (ExprKind.unaryOp op) (refreshExpr_erased e c)
  | .cast e type, c => congrArg (ExprKind.cast · type) (refreshExpr_erased e c)
  | .attr e attr, c => congrArg (ExprKind.attr · attr) (refreshExpr_erased e c)
  | .optAttr e attr, c => congrArg (ExprKind.optAttr · attr) (refreshExpr_erased e c)
  | .starred e, c => congrArg ExprKind.starred (refreshExpr_erased e c)
  | .borrow e, c => congrArg ExprKind.borrow (refreshExpr_erased e c)
  | .mutBorrow e, c => congrArg ExprKind.mutBorrow (refreshExpr_erased e c)
  | .deref e, c => congrArg ExprKind.deref (refreshExpr_erased e c)
  | .tryExpr e, c => congrArg ExprKind.tryExpr (refreshExpr_erased e c)
  | .await e, c => congrArg ExprKind.await (refreshExpr_erased e c)
  | .call callee args, c =>
    congrArg₂ ExprKind.call (refreshExpr_erased callee c) (refreshArgs_erased args _)
  | .index obj index, c =>
    congrArg₂ ExprKind.index (refreshExpr_erased obj c) (refreshExpr_erased index _)
  | .list items, c => congrArg ExprKind.list (refreshExprs_erased items c)
  | .tuple items, c => congrArg ExprKind.tuple (refreshExprs_erased items c)
  | .set items, c => congrArg ExprKind.set (refreshExprs_erased items c)
  | .dict pairs, c => congrArg ExprKind.dict (refreshPairs_erased pairs c)
  | .listComp elt clauses, c =>
    congrArg₂ ExprKind.listComp (refreshExpr_erased elt c) (refreshClauses_erased clauses _)
  | .setComp elt clauses, c =>
    congrArg₂ ExprKind.setComp (refreshExpr_erased elt c) (refreshClauses_erased clauses _)
  | .dictComp key value clauses, c =>
    congr_three ExprKind.dictComp (refreshExpr_erased key c) (refreshExpr_erased value _)
      (refreshClauses_erased clauses _)
  | .slice start stop step, c =>
    congr_three ExprKind.slice (refreshOpt_erased start c) (refreshOpt_erased stop _)
      (refreshOpt_erased step _)
  | .asyncBlock body, c => congrArg ExprKind.asyncBlock (refreshBlock_erased body c)
  | .range start stop inclusive step, c =>
    congrArg₂ (ExprKind.range · · inclusive (eraseOpt step)) (refreshExpr_erased start c)
      (refreshExpr_erased stop _)
  | .matchExpr scrutinee cases, c =>
    congrArg₂ ExprKind.matchExpr (refreshExpr_erased scrutinee c) (refreshCases_erased cases _)
  | .ternary cond yes otherwise, c =>
    congr_three ExprKind.ternary (refreshExpr_erased cond c) (refreshExpr_erased yes _)
      (refreshExpr_erased otherwise _)
  | .lambda params body, c =>
    congrArg₂ ExprKind.lambda (refreshParams_erased params c) (refreshExpr_erased body _)
theorem refreshOpt_erased : ∀ (e : Option Expr) (c : Nat), eraseOpt (refreshOpt e c).1 = eraseOpt e
  | none, _ => rfl
  | some e, c => congrArg some (refreshExpr_erased e c)
theorem refreshExprs_erased : ∀ (es : List Expr) (c : Nat),
    eraseExprs (refreshExprs es c).1 = eraseExprs es
  | [], _ => rfl
  | e :: es, c => congrArg₂ List.cons (refreshExpr_erased e c) (refreshExprs_erased es _)
theorem refreshFStr_erased : ∀ (parts : List FStrPart) (c : Nat),
    eraseFStr (refreshFStr parts c).1 = eraseFStr parts
  | [], _ => rfl
  | .mk e spec :: parts, c =>
    congrArg₂ List.cons (congrArg (FStrPart.mk · spec) (refreshExpr_erased e c))
      (refreshFStr_erased parts _)
theorem refreshArgs_erased : ∀ (args : List CallArg) (c : Nat),
    eraseArgs (refreshArgs args c).1 = eraseArgs args
  | [], _ => rfl
  | .positional e :: args, c =>
    congrArg₂ List.cons (congrArg CallArg.positional (refreshExpr_erased e c))
      (refreshArgs_erased args _)
  | .keyword name e :: args, c =>
    congrArg₂ List.cons (congrArg (CallArg.keyword name) (refreshExpr_erased e c))
      (refreshArgs_erased args _)
  | .splat e :: args, c =>
    congrArg₂ List.cons (congrArg CallArg.splat (refreshExpr_erased e c))
      (refreshArgs_erased args _)
  | .kwSplat e :: args, c =>
    congrArg₂ List.cons (congrArg CallArg.kwSplat (refreshExpr_erased e c))
      (refreshArgs_erased args _)
theorem refreshPairs_erased : ∀ (pairs : List DictPair) (c : Nat),
    erasePairs (refreshPairs pairs c).1 = erasePairs pairs
  | [], _ => rfl
  | .mk key value :: pairs, c =>
    congrArg₂ List.cons
      (congrArg₂ DictPair.mk (refreshExpr_erased key c) (refreshExpr_erased value _))
      (refreshPairs_erased pairs _)
theorem refreshClauses_erased : ∀ (clauses : List CompClause) (c : Nat),
    eraseClauses (refreshClauses clauses c).1 = eraseClauses clauses
  | [], _ => rfl
  | .mk target iter condition :: clauses, c =>
    congrArg₂ List.cons
      (congrArg₂ (CompClause.mk target) (refreshExpr_erased iter c)
        (refreshOpt_erased condition _))
      (refreshClauses_erased clauses _)
theorem refreshPattern_erased : ∀ (pattern : MatchPattern) (c : Nat),
    erasePattern (refreshPattern pattern c).1 = erasePattern pattern
  | .literal e, c => congrArg MatchPattern.literal (refreshExpr_erased e c)
  | .identifier _, _ | .wildcard, _ | .variant _ _, _ | .tuple _, _ | .structFields _ _ _, _
  | .list _ _ _, _ | .range _ _ _, _ | .or _, _ => rfl
theorem refreshCases_erased : ∀ (cases : List MatchCase) (c : Nat),
    eraseCases (refreshCases cases c).1 = eraseCases cases
  | [], _ => rfl
  | .mk pattern guard body :: cases, c =>
    congrArg₂ List.cons
      (congr_three MatchCase.mk (refreshPattern_erased pattern c) (refreshOpt_erased guard _)
        (refreshBlock_erased body _))
      (refreshCases_erased cases _)
theorem refreshParams_erased : ∀ (params : List Param) (c : Nat),
    eraseParams (refreshParams params c).1 = eraseParams params
  | [], _ => rfl
  | .mk name default kind :: params, c =>
    congrArg₂ List.cons (congrArg (Param.mk name · kind) (refreshOpt_erased default c))
      (refreshParams_erased params _)
theorem refreshItems_erased : ∀ (items : List WithItem) (c : Nat),
    eraseItems (refreshItems items c).1 = eraseItems items
  | [], _ => rfl
  | .mk contextExpr asExpr :: items, c =>
    congrArg₂ List.cons
      (congrArg₂ WithItem.mk (refreshExpr_erased contextExpr c) (refreshOpt_erased asExpr _))
      (refreshItems_erased items _)
theorem refreshElifs_erased : ∀ (clauses : List ElifClause) (c : Nat),
    eraseElifs (refreshElifs clauses c).1 = eraseElifs clauses
  | [], _ => rfl
  | .mk condition body :: clauses, c =>
    congrArg₂ List.cons
      (congrArg₂ ElifClause.mk (refreshExpr_erased condition c) (refreshBlock_erased body _))
      (refreshElifs_erased clauses _)
theorem refreshStmt_erased : ∀ (s : Stmt) (c : Nat), eraseStmt (refreshStmt s c).1 = eraseStmt s
  | .fn name typeParams params body isAsync, c =>
    congrArg₂ (Stmt.fn name typeParams · · isAsync) (refreshParams_erased params c)
      (refreshBlock_erased body _)
  | .structDef name typeParams fields body, c =>
    congrArg₂ (Stmt.structDef name typeParams) (refreshParams_erased fields c)
      (refreshBlock_erased body _)
  | .impl typeParams traitName typeName body, c =>
    congrArg (Stmt.impl typeParams traitName typeName) (refreshBlock_erased body c)
  | .traitDef name typeParams methods, c =>
    congrArg (Stmt.traitDef name typeParams) (refreshBlock_erased methods c)
  | .unsafeBlock body, c => congrArg Stmt.unsafeBlock (refreshBlock_erased body c)
  | .enumDef name typeParams variants body, c =>
    congrArg (Stmt.enumDef name typeParams (eraseVariants variants)) (refreshBlock_erased body c)
  | .ifStmt condition thenBody elifClauses elseBody, c =>
    (congrArg (Stmt.ifStmt · _ _ _) (refreshExpr_erased condition c)).trans
      (congr_three (Stmt.ifStmt _) (refreshBlock_erased thenBody _)
        (refreshElifs_erased elifClauses _) (refreshBlock_erased elseBody _))
  | .whileStmt condition body elseBody, c =>
    congr_three Stmt.whileStmt (refreshExpr_erased condition c) (refreshBlock_erased body _)
      (refreshBlock_erased elseBody _)
  | .forStmt target iter body elseBody, c =>
    congr_three (Stmt.forStmt target) (refreshExpr_erased iter c) (refreshBlock_erased body _)
      (refreshBlock_erased elseBody _)
  | .returnStmt value, c => congrArg Stmt.returnStmt (refreshOpt_erased value c)
  | .assert test msg, c =>
    congrArg₂ Stmt.assert (refreshExpr_erased test c) (refreshOpt_erased msg _)
  | .withStmt items body, c =>
    congrArg₂ Stmt.withStmt (refreshItems_erased items c) (refreshBlock_erased body _)
  | .letStmt name e isMut, c => congrArg (Stmt.letStmt name · isMut) (refreshExpr_erased e c)
  | .multiLet names e isMut starred, c =>
    congrArg (Stmt.multiLet names · isMut starred) (refreshExpr_erased e c)
  | .const name e, c => congrArg (Stmt.const name) (refreshExpr_erased e c)
  | .multiConst names e, c => congrArg (Stmt.multiConst names) (refreshExpr_erased e c)
  | .exprStmt e, c => congrArg Stmt.exprStmt (refreshExpr_erased e c)
  | .defer e, c => congrArg Stmt.defer (refreshExpr_erased e c)
  | .assign target value, c =>
    congrArg₂ Stmt.assign (refreshExpr_erased target c) (refreshExpr_erased value _)
  | .augAssign target op value, c =>
    congrArg₂ (Stmt.augAssign · op ·) (refreshExpr_erased target c) (refreshExpr_erased value _)
  | .importStmt _ _, _ | .nativeImport _ _ _, _ | .fromImport _, _ | .pyImport _, _ | .pass, _
  | .breakStmt, _ | .continueStmt, _ | .typeAlias _ _, _ => rfl
theorem refreshBlock_erased : ∀ (ss : List Stmt) (c : Nat),
    eraseBlock (refreshBlock ss c).1 = eraseBlock ss
  | [], _ => rfl
  | s :: ss, c => congrArg₂ List.cons (refreshStmt_erased s c) (refreshBlock_erased ss _)
end

end TraitDefaults

end Olive
