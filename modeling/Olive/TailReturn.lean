import Mathlib.Data.List.Basic

/-! The check that a function returns a value, and the ways through a function's body. -/

namespace Olive

namespace TailReturn

mutual
/-- An expression, as far as statements run while it is evaluated. Operands are evaluated in order;
those of the second list may be left out (`and`, `or`, `??`, `?.`, comprehensions). -/
inductive Expr where
  | node (id : Nat) (operands skippable : List Expr)
  | ternary (id : Nat) (cond thenExpr otherwise : Expr)
  | asyncBlock (id : Nat) (body : List Stmt)
  /-- `exhaustive` if one of the cases always matches. -/
  | matchCases (id : Nat) (scrutinee : Expr) (guards : List Expr) (bodies : List (List Stmt))
      (exhaustive : Bool)
inductive Stmt where
  | exprStmt (e : Expr)
  | ret (value : Option Expr)
  | ifStmt (condition : Expr) (thenBody : List Stmt) (elifClauses : List Elif)
      (elseBody : Option (List Stmt))
  | whileStmt (condition : Expr) (body : List Stmt) (elseBody : Option (List Stmt))
  | forStmt (iter : Expr) (body : List Stmt) (elseBody : Option (List Stmt))
  | withStmt (items : List Expr) (body : List Stmt)
  | unsafeBlock (body : List Stmt)
  | breakStmt
  | continueStmt
  /-- Any other statement, with the expressions it evaluates. -/
  | other (exprs : List Expr)
inductive Elif where
  | mk (condition : Expr) (body : List Stmt)
end

def Expr.id : Expr → Nat
  | .node id _ _ | .ternary id _ _ _ | .asyncBlock id _ | .matchCases id _ _ _ _ => id

mutual
/-- `check_tail_return`: the expressions whose types are unified with the return type. -/
def checkTailReturn : Stmt → List Nat
  | .exprStmt e => [e.id]
  | .ifStmt _ thenBody elifClauses (some elseBody) =>
    if elseBody.isEmpty then []
    else tailOfLast thenBody ++ tailOfElifs elifClauses ++ tailOfLast elseBody
  | .unsafeBlock body => tailOfLast body
  | _ => []
def tailOfLast : List Stmt → List Nat
  | [] => []
  | [s] => checkTailReturn s
  | _ :: ss => tailOfLast ss
def tailOfElifs : List Elif → List Nat
  | [] => []
  | .mk _ body :: rest => tailOfLast body ++ tailOfElifs rest
end

mutual
def stmtReturns : Stmt → Bool
  | .ret _ => true
  | .ifStmt _ thenBody elifClauses elseBody =>
    anyReturns thenBody && elifsReturn elifClauses &&
      match elseBody with
      | some body => anyReturns body
      | none => false
  | .unsafeBlock body => anyReturns body
  | .exprStmt _ => true
  | _ => false
def anyReturns : List Stmt → Bool
  | [] => false
  | s :: ss => stmtReturns s || anyReturns ss
def elifsReturn : List Elif → Bool
  | [] => true
  | .mk _ body :: rest => anyReturns body && elifsReturn rest
end

/-- The return type of a function, substituted. -/
inductive ReturnType where
  | var
  | null
  | any
  | value
  deriving DecidableEq

/-- Whether a function is rejected with E0407. -/
def missingReturn (declared : Bool) (expected : ReturnType) (body : List Stmt) : Bool :=
  if anyReturns body then false
  else
    match expected with
    | .var => false
    | .null | .any => false
    | .value => declared

mutual
/-- Whether there is a `return` without a value, which unifies the return type with `None`. -/
def Expr.returnsNull : Expr → Bool
  | .node _ operands skippable => exprsReturnNull operands || exprsReturnNull skippable
  | .ternary _ c a b => c.returnsNull || (a.returnsNull || b.returnsNull)
  | .asyncBlock _ body => stmtsReturnNull body
  | .matchCases _ scrutinee guards bodies _ =>
    scrutinee.returnsNull || (exprsReturnNull guards || bodiesReturnNull bodies)
def exprsReturnNull : List Expr → Bool
  | [] => false
  | e :: es => e.returnsNull || exprsReturnNull es
def bodiesReturnNull : List (List Stmt) → Bool
  | [] => false
  | b :: bs => stmtsReturnNull b || bodiesReturnNull bs
def Stmt.returnsNull : Stmt → Bool
  | .exprStmt e => e.returnsNull
  | .ret none => true
  | .ret (some e) => e.returnsNull
  | .ifStmt c thenBody elifClauses elseBody =>
    c.returnsNull || (stmtsReturnNull thenBody ||
      (elifsReturnNull elifClauses || elseReturnsNull elseBody))
  | .whileStmt c body elseBody => c.returnsNull || (stmtsReturnNull body || elseReturnsNull elseBody)
  | .forStmt iter body elseBody =>
    iter.returnsNull || (stmtsReturnNull body || elseReturnsNull elseBody)
  | .withStmt items body => exprsReturnNull items || stmtsReturnNull body
  | .unsafeBlock body => stmtsReturnNull body
  | .breakStmt | .continueStmt => false
  | .other exprs => exprsReturnNull exprs
def stmtsReturnNull : List Stmt → Bool
  | [] => false
  | s :: ss => s.returnsNull || stmtsReturnNull ss
def elifsReturnNull : List Elif → Bool
  | [] => false
  | .mk c body :: rest => c.returnsNull || (stmtsReturnNull body || elifsReturnNull rest)
def elseReturnsNull : Option (List Stmt) → Bool
  | none => false
  | some body => stmtsReturnNull body
end

/-- The checker accepts a function with a declared return type other than `None` and `Any`:
`unifiesNull` if that type unifies with `None`. -/
structure Accepts (unifiesNull : Bool) (body : List Stmt) : Prop where
  e0407 : missingReturn true .value body = false
  bareReturns : stmtsReturnNull body = true → unifiesNull = true

/-- Where a way through statements or an expression leads. -/
inductive Outcome where
  /-- To what comes next, with the expression statement that it ends in. -/
  | next (value : Option Nat)
  | returned (value : Bool)
  | broke
  | continued
  /-- A fault, or a `?` that returns early. -/
  | stopped
  deriving DecidableEq

abbrev Ways := Outcome → Prop

namespace Ways

def done : Ways := (· = .next none)

def seq (P Q : Ways) : Ways
  | .next v => (∃ u, P (.next u)) ∧ Q (.next v)
  | o => P o ∨ (∃ u, P (.next u)) ∧ Q o

def either (P Q : Ways) : Ways := fun o => P o ∨ Q o

/-- The value is not that of what these ways are part of. -/
def drop (P : Ways) : Ways
  | .next v => v = none ∧ ∃ u, P (.next u)
  | o => P o

def keepIf (valued : Bool) (P : Ways) : Ways := if valued then P else drop P

/-- A loop that goes round while `test` says so; `after` is its else body. -/
inductive Loop (test body after : Ways) : Ways
  | exit {u : Option Nat} {o : Outcome} (ht : test (.next u)) (ho : after o) : Loop test body after o
  | test {o : Outcome} (ho : test o) (hleaves : ∀ v, o ≠ .next v) : Loop test body after o
  | next {u v : Option Nat} {o : Outcome} (ht : test (.next u)) (hb : body (.next v))
      (ho : Loop test body after o) : Loop test body after o
  | continued {u : Option Nat} {o : Outcome} (ht : test (.next u)) (hb : body .continued)
      (ho : Loop test body after o) : Loop test body after o
  | broke {u : Option Nat} (ht : test (.next u)) (hb : body .broke) : Loop test body after (.next none)
  | returned {u : Option Nat} {v : Bool} (ht : test (.next u)) (hb : body (.returned v)) :
      Loop test body after (.returned v)
  | stopped {u : Option Nat} (ht : test (.next u)) (hb : body .stopped) :
      Loop test body after .stopped

end Ways

mutual
/-- The ways through an expression: its conditions can come out either way, and it can stop. -/
def Expr.ways (inLoop : Bool) : Expr → Ways
  | .node _ operands skippable =>
    .either (· = .stopped) (.seq (exprsWays inLoop operands) (skippableWays inLoop skippable))
  | .ternary _ c a b => .seq (c.ways inLoop) (.either (a.ways inLoop) (b.ways inLoop))
  | .asyncBlock _ body => .drop (stmtsWays inLoop body)
  | .matchCases _ scrutinee guards bodies exhaustive =>
    .seq (scrutinee.ways inLoop) (.seq (skippableWays inLoop guards)
      (.either (.drop (bodiesWays inLoop bodies)) fun o => exhaustive = false ∧ Ways.done o))
def exprsWays (inLoop : Bool) : List Expr → Ways
  | [] => .done
  | e :: es => .seq (e.ways inLoop) (exprsWays inLoop es)
def skippableWays (inLoop : Bool) : List Expr → Ways
  | [] => .done
  | e :: es => .seq (.either .done (e.ways inLoop)) (skippableWays inLoop es)
def bodiesWays (inLoop : Bool) : List (List Stmt) → Ways
  | [] => fun _ => False
  | b :: bs => .either (stmtsWays inLoop b) (bodiesWays inLoop bs)
/-- Outside a loop `break` and `continue` do nothing. -/
def Stmt.ways (inLoop : Bool) : Stmt → Ways
  | .exprStmt e => .seq (e.ways inLoop) (· = .next (some e.id))
  | .ret none => (· = .returned false)
  | .ret (some e) => .seq (e.ways inLoop) (· = .returned true)
  | .ifStmt c thenBody elifClauses elseBody =>
    let valued := match elseBody with
      | some body => !body.isEmpty
      | none => false
    .seq (c.ways inLoop) (.keepIf valued (.either (stmtsWays inLoop thenBody)
      (elifsWays inLoop (elseWays inLoop elseBody) elifClauses)))
  | .whileStmt c body elseBody =>
    .drop (.Loop (c.ways inLoop) (stmtsWays true body) (elseWays inLoop elseBody))
  | .forStmt iter body elseBody =>
    .seq (iter.ways inLoop)
      (.drop (.Loop .done (stmtsWays true body) (elseWays inLoop elseBody)))
  | .withStmt items body => .seq (exprsWays inLoop items) (.drop (stmtsWays inLoop body))
  | .unsafeBlock body => stmtsWays inLoop body
  | .breakStmt => if inLoop then (· = .broke) else .done
  | .continueStmt => if inLoop then (· = .continued) else .done
  | .other exprs => exprsWays inLoop exprs
/-- The value of statements is that of the last one. -/
def stmtsWays (inLoop : Bool) : List Stmt → Ways
  | [] => .done
  | [s] => s.ways inLoop
  | s :: ss => .seq (s.ways inLoop) (stmtsWays inLoop ss)
def elifsWays (inLoop : Bool) (otherwise : Ways) : List Elif → Ways
  | [] => otherwise
  | .mk c body :: rest =>
    .seq (c.ways inLoop) (.either (stmtsWays inLoop body) (elifsWays inLoop otherwise rest))
def elseWays (inLoop : Bool) : Option (List Stmt) → Ways
  | none => .done
  | some body => stmtsWays inLoop body
end

/-- Every way to the end of a function's body has a `return` with a value, or ends in an expression
statement whose type has been unified with the return type. -/
def Produces (body : List Stmt) : Prop := ∀ o, stmtsWays false body o →
  match o with
  | .next value => ∃ id, value = some id ∧ id ∈ tailOfLast body
  | .returned value => value = true
  | _ => True

end TailReturn

end Olive
