import Mathlib.Data.List.Basic
import Mathlib.Data.List.Nodup
import Mathlib.Data.List.TakeDrop

/-! The operands of a call: how positional and keyword arguments reach the parameters. -/

namespace Olive

namespace CallArgs

inductive ParamKind where
  | regular
  | varArg
  | kwArg
  deriving DecidableEq

structure Param (Expr : Type) where
  name : String
  kind : ParamKind
  default : Option Expr

structure FnMeta (Expr : Type) where
  paramNames : List String
  varargIdx : Option Nat
  kwargIdx : Option Nat
  defaultExprs : List (Option Expr)

/-- An argument with its type, and the keyword that it is given under. -/
structure CallArg (Arg Ty : Type) where
  arg : Arg
  ty : Ty
  kw : Option String

/-- The types, as far as the packing looks at them: the type `Any`, the types whose values it boxes,
and the types and free names of expressions. -/
structure Typing (Expr Ty : Type) where
  any : Ty
  boxes : Ty → Prop
  typeOf : Expr → Ty
  names : Expr → List String

/-- The operands that the builder makes. A value that `Any` need not box is its own coercion, and an
expression is lowered against the locals that its names have. -/
structure Lowering (Arg Expr Ty V Op : Type) (typing : Typing Expr Ty) where
  operand : Arg → Op
  coerce : Op → Ty → Ty → Op
  lowerExprAsCopy : (String → Option V) → Expr → Op
  list : List Op → Op
  dict : List Op → Op
  str : String → Op
  int : Int → Op
  coerce_any : ∀ op ty, ¬typing.boxes ty → coerce op ty typing.any = op
  lower_congr : ∀ e vars vars', (∀ x ∈ typing.names e, vars x = vars' x) →
    lowerExprAsCopy vars e = lowerExprAsCopy vars' e

/-- The last parameter of the kind, from the parameter with the index `i` on. -/
def lastIdx {Expr : Type} (kind : ParamKind) (i : Nat) (idx : Option Nat) :
    List (Param Expr) → Option Nat
  | [] => idx
  | p :: params => lastIdx kind (i + 1) (if p.kind = kind then some i else idx) params

def registerFnMeta {Expr : Type} (params : List (Param Expr)) : FnMeta Expr where
  paramNames := params.map (·.name)
  varargIdx := lastIdx .varArg 0 none params
  kwargIdx := lastIdx .kwArg 0 none params
  defaultExprs := params.map (·.default)

section Pack

variable {Arg Expr Ty V Op : Type} {typing : Typing Expr Ty}
  (low : Lowering Arg Expr Ty V Op typing)

/-- The arguments without a keyword. -/
def positional (args : List (CallArg Arg Ty)) : List (Arg × Ty) :=
  args.filterMap fun a => if a.kw.isNone then some (a.arg, a.ty) else none

def keyword (args : List (CallArg Arg Ty)) : List (String × Arg × Ty) :=
  args.filterMap fun a => a.kw.map fun name => (name, a.arg, a.ty)

/-- The argument in the slot with the index `i`. -/
def coerceTo (paramTys : List Ty) (i : Nat) (a : Arg × Ty) : Op :=
  low.coerce (low.operand a.1) a.2 (paramTys.getD i typing.any)

/-- The next positional argument into the slot `i`. -/
def fillSlot (paramTys : List Ty) (fm : FnMeta Expr) (pos : List (Arg × Ty))
    (acc : List (Option Op) × Nat) (i : Nat) : List (Option Op) × Nat :=
  if fm.varargIdx = some i ∨ fm.kwargIdx = some i then acc else
  match pos[acc.2]? with
  | some a => (acc.1.set i (some (coerceTo low paramTys i a)), acc.2 + 1)
  | none => acc

/-- A keyword argument into the slot of the parameter that it names. -/
def fillKeyword (paramTys : List Ty) (fm : FnMeta Expr) (regularEnd : Nat)
    (result : List (Option Op)) (kw : String × Arg × Ty) : List (Option Op) :=
  match fm.paramNames.findIdx? (· == kw.1) with
  | some pos =>
    if fm.varargIdx ≠ some pos ∧ fm.kwargIdx ≠ some pos ∧ pos < regularEnd then
      result.set pos (some (coerceTo low paramTys pos kw.2))
    else result
  | none => result

/-- The keyword arguments that go to the dict of the parameter `ki`. -/
def isExtra (fm : FnMeta Expr) (regularEnd ki : Nat) (kw : String × Arg × Ty) : Bool :=
  match fm.paramNames.findIdx? (· == kw.1) with
  | some p => p == ki || regularEnd ≤ p
  | none => true

/-- The default in the slot with the index `i`, lowered where the call stands. -/
def defaultFor (paramTys : List Ty) (vars : String → Option V) (i : Nat) : Option Expr → Op
  | some e => low.coerce (low.lowerExprAsCopy vars e) (typing.typeOf e) (paramTys.getD i typing.any)
  | none => low.int 0

/-- The list of the positional arguments that are left. -/
def varArgs (pos : List (Arg × Ty)) : Op := low.list (pos.map fun a => low.operand a.1)

/-- The dict of the keyword arguments that name no parameter. -/
def kwArgs (kws : List (String × Arg × Ty)) : Op :=
  low.dict (kws.flatMap fun kw => [low.str kw.1, low.operand kw.2.1])

/-- The slot of a variadic parameter, where the function has one. -/
def fillAt (idx : Option Nat) (op : Nat → Op) (result : List (Option Op)) : List (Option Op) :=
  match idx with
  | some i => result.set i (some (op i))
  | none => result

def packFnCallArgs (fnMeta : Option (FnMeta Expr)) (args : List (CallArg Arg Ty))
    (paramTys : List Ty) (vars : String → Option V) : List Op :=
  match fnMeta with
  | none => args.mapIdx fun i a => coerceTo low paramTys i (a.arg, a.ty)
  | some fm =>
    if fm.varargIdx.isNone ∧ fm.kwargIdx.isNone ∧ (∀ a ∈ args, a.kw.isNone) ∧
        args.length = fm.paramNames.length then
      args.mapIdx fun i a => coerceTo low paramTys i (a.arg, a.ty)
    else
      let n := fm.paramNames.length
      let regularEnd := (fm.varargIdx.or fm.kwargIdx).getD n
      let pos := positional args
      let kws := keyword args
      let filled := (List.range (min regularEnd n)).foldl (fillSlot low paramTys fm pos)
        (List.replicate n none, 0)
      let result := kws.foldl (fillKeyword low paramTys fm regularEnd) filled.1
      let result := fillAt fm.varargIdx (fun _ => varArgs low (pos.drop filled.2)) result
      let result := fillAt fm.kwargIdx
        (fun ki => kwArgs low (kws.filter (isExtra fm regularEnd ki))) result
      result.mapIdx fun i slot =>
        slot.getD (defaultFor low paramTys vars i (fm.defaultExprs.getD i none))

end Pack

end CallArgs

end Olive
