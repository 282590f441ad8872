import Mathlib.Algebra.Group.Int.Defs
import Mathlib.Algebra.Group.Nat.Defs
import Mathlib.Data.List.Sort
import Olive.Ir

/-! `check_new_form_exhaustiveness`, and what patterns match. -/

namespace Olive

namespace Exhaustiveness

inductive IntType where
  | int | i8 | i16 | i32 | u8 | u16 | u32 | u64 | usize
  deriving DecidableEq

inductive Ty where
  | int (kind : IntType)
  | bool
  | str
  | list (elem : Ty)
  | tuple (fields : List Ty)
  | struct (name : String)
  | enum (name : String)

/-- An integer literal is one of `i64` without a sign. -/
inductive LitExpr where
  | integer (n : Fin (2 ^ 63))
  | neg (operand : LitExpr)
  | bool (b : Bool)
  | str (s : String)

inductive MatchPattern where
  | variant (name : String) (inner : List MatchPattern)
  | identifier (name : String)
  | literal (e : LitExpr)
  | wildcard
  | tuple (items : List MatchPattern)
  | structFields (name : String) (fields : List (String × MatchPattern))
  | list (before : List MatchPattern) (rest : Option String) (after : List MatchPattern)
  | range (start stop : LitExpr) (inclusive : Bool)
  | or (alts : List MatchPattern)

/-- The fields of the structs and the variants of the enums. -/
structure Env where
  structs : String → List (String × Ty)
  enums : String → List (String × List Ty)

def i64Min : Int := -2 ^ 63

def i64Max : Int := 2 ^ 63 - 1

def literalIntValue : LitExpr → Option Int
  | .integer n => some n.val
  | .neg operand => (literalIntValue operand).map fun n => -n
  | _ => none

/-- The loop of `first_gap` over the sorted intervals. -/
def gapFrom (fullHi : Int) : List (Int × Int) → Int → Option (Int × Int)
  | [], cursor => if cursor ≤ fullHi then some (cursor, fullHi) else none
  | (lo, hi) :: rest, cursor =>
    if cursor < lo then some (cursor, lo - 1)
    else if cursor ≤ hi then
      if hi = i64Max then none
      else if fullHi < hi + 1 then none
      else gapFrom fullHi rest (hi + 1)
    else if fullHi < cursor then none
    else gapFrom fullHi rest cursor

def firstGap (intervals : List (Int × Int)) (fullLo fullHi : Int) : Option (Int × Int) :=
  gapFrom fullHi (intervals.mergeSort fun a b => a.1 ≤ b.1) fullLo

def intInterval : MatchPattern → Option (Int × Int)
  | .literal e => (literalIntValue e).map fun v => (v, v)
  | .range start stop inclusive => do
    let lo ← literalIntValue start
    let hi ← literalIntValue stop
    some (lo, if inclusive then hi else hi - 1)
  | _ => none

/-- `i64::MAX` stands for no upper bound. -/
def listLengthInterval : MatchPattern → Option (Int × Int)
  | .list before rest after =>
    let fixed : Int := before.length + after.length
    some (fixed, if rest.isSome then i64Max else fixed)
  | _ => none

def isTriviallyExhaustive : MatchPattern → Bool
  | .wildcard | .identifier _ => true
  | _ => false

structure Gap where
  label : String
  help : String
  deriving DecidableEq

/-- What is reported missing. -/
inductive Missing where
  | ints (lo hi : Int)
  | lengths (lo hi : Int)
  | fields
  deriving DecidableEq

def Missing.gap : Missing → Gap
  | .ints lo hi =>
    let range := if lo = hi then toString lo else toString lo ++ "..=" ++ toString hi
    ⟨range ++ " is not covered",
      "add a range/literal arm covering it, or a wildcard `case _:` arm"⟩
  | .lengths lo hi =>
    let label :=
      if hi = i64Max then "lists of length " ++ toString lo ++ " or more are not covered"
      else if lo = hi then "lists of length " ++ toString lo ++ " are not covered"
      else "lists of length " ++ toString lo ++ "..=" ++ toString hi ++ " are not covered"
    ⟨label, "add a `[*rest]`-shaped arm, or a wildcard `case _:` arm"⟩
  | .fields =>
    ⟨"not every field combination is covered",
      "add a wildcard `case _:` arm, or bind every field in one arm"⟩

def isTuplePattern : MatchPattern → Bool
  | .tuple _ => true
  | _ => false

def isStructPattern (struct : String) : MatchPattern → Bool
  | .structFields name _ => name = struct
  | _ => false

/-- `check_new_form_exhaustiveness`, given which arms of a tuple or a struct cover every field. -/
def missing (covers : MatchPattern → Bool) (ty : Ty) (patterns : List MatchPattern) :
    Option Missing :=
  match ty with
  | .int _ =>
    (firstGap (patterns.filterMap intInterval) i64Min i64Max).map fun g => .ints g.1 g.2
  | .list _ =>
    let intervals := patterns.filterMap listLengthInterval
    if intervals.isEmpty then none else (firstGap intervals 0 i64Max).map fun g => .lengths g.1 g.2
  | .tuple _ =>
    if !patterns.any isTuplePattern then none else if patterns.any covers then none else some .fields
  | .struct name =>
    if !patterns.any (isStructPattern name) then none
    else if patterns.any covers then none
    else some .fields
  | _ => none

def isLiteralOrRange : MatchPattern → Bool
  | .literal _ | .range _ _ _ => true
  | _ => false

/-- `field_fully_covered`, given whether the pattern covers every field of its own. -/
def fullyCovered (pattern : MatchPattern) (fieldTy : Ty) (covers : Bool) : Bool :=
  isTriviallyExhaustive pattern ||
    ((missing (fun _ => covers) fieldTy [pattern]).isNone && !isLiteralOrRange pattern)

variable (env : Env)

mutual
/-- Whether an arm alone covers a tuple or a struct. -/
def armCovers : Ty → MatchPattern → Bool
  | .tuple fieldTys, .tuple items =>
    if items.length = fieldTys.length then allCovered items fieldTys else false
  | .struct struct, .structFields name fields =>
    if name = struct then fieldsCovered struct fields else false
  | _, pattern => isTriviallyExhaustive pattern
def allCovered : List MatchPattern → List Ty → Bool
  | item :: items, fieldTy :: fieldTys =>
    fullyCovered item fieldTy (armCovers fieldTy item) && allCovered items fieldTys
  | _, _ => true
def fieldsCovered (struct : String) : List (String × MatchPattern) → Bool
  | [] => true
  | (name, pattern) :: fields =>
    (match (env.structs struct).lookup name with
      | some fieldTy => fullyCovered pattern fieldTy (armCovers fieldTy pattern)
      | none => false) && fieldsCovered struct fields
end

def fieldFullyCovered (pattern : MatchPattern) (fieldTy : Ty) : Bool :=
  fullyCovered pattern fieldTy (armCovers env fieldTy pattern)

def checkMissing (ty : Ty) (patterns : List MatchPattern) : Option Missing :=
  missing (armCovers env ty) ty patterns

def checkNewFormExhaustiveness (ty : Ty) (patterns : List MatchPattern) : Option Gap :=
  (checkMissing env ty patterns).map Missing.gap

/-- A field is fully covered if its pattern is trivial, or passes the check alone. -/
theorem fieldFullyCovered_eq (pattern : MatchPattern) (fieldTy : Ty) :
    fieldFullyCovered env pattern fieldTy = (isTriviallyExhaustive pattern ||
      ((checkNewFormExhaustiveness env fieldTy [pattern]).isNone && !isLiteralOrRange pattern)) := by
  rw [fieldFullyCovered, fullyCovered, checkNewFormExhaustiveness, Option.isNone_map, checkMissing]
  cases fieldTy <;> simp [missing]

/-- Integers are words. -/
inductive Value where
  | int (kind : IntType) (w : Word)
  | bool (b : Bool)
  | str (s : String)
  | list (items : List Value)
  | tuple (items : List Value)
  | struct (name : String) (fields : String → Value)
  | enum (name variant : String) (payload : List Value)

/-- The number in a word. -/
def IntType.number : IntType → Word → Int
  | .u64, w => w.toNat
  | _, w => w.toInt

def IntType.fits : IntType → Word → Bool
  | .int, _ | .u64, _ | .usize, _ => true
  | .i8, w => -2 ^ 7 ≤ w.toInt ∧ w.toInt < 2 ^ 7
  | .i16, w => -2 ^ 15 ≤ w.toInt ∧ w.toInt < 2 ^ 15
  | .i32, w => -2 ^ 31 ≤ w.toInt ∧ w.toInt < 2 ^ 31
  | .u8, w => w.toNat < 2 ^ 8
  | .u16, w => w.toNat < 2 ^ 16
  | .u32, w => w.toNat < 2 ^ 32

inductive HasType (env : Env) : Ty → Value → Prop
  | int {kind : IntType} {w : Word} (hw : kind.fits w) : HasType env (.int kind) (.int kind w)
  | bool (b : Bool) : HasType env .bool (.bool b)
  | str (s : String) : HasType env .str (.str s)
  | list {elem : Ty} {items : List Value} (hlen : (items.length : Int) ≤ i64Max)
      (hitems : ∀ v ∈ items, HasType env elem v) : HasType env (.list elem) (.list items)
  | tuple {fields : List Ty} {items : List Value} (hlen : items.length = fields.length)
      (hitems : ∀ p ∈ fields.zip items, HasType env p.1 p.2) :
      HasType env (.tuple fields) (.tuple items)
  | struct {name : String} {fields : String → Value}
      (hfields : ∀ f t, (env.structs name).lookup f = some t → HasType env t (fields f)) :
      HasType env (.struct name) (.struct name fields)
  | enum {name variant : String} {tys : List Ty} {payload : List Value}
      (hvariant : (env.enums name).lookup variant = some tys) (hlen : payload.length = tys.length)
      (hpayload : ∀ p ∈ tys.zip payload, HasType env p.1 p.2) :
      HasType env (.enum name) (.enum name variant payload)

/-- The comparison `a <= b`. -/
def IntType.le : IntType → Word → Word → Bool
  | .u64, a, b => a.ule b
  | _, a, b => a.sle b

def literalWord (e : LitExpr) : Option Word := (literalIntValue e).map (BitVec.ofInt 64)

def literalMatches : LitExpr → Value → Bool
  | .bool b, .bool c => b = c
  | .str s, .str t => s = t
  | e, .int _ w => literalWord e = some w
  | _, _ => false

def rangeMatches (start stop : LitExpr) (inclusive : Bool) : Value → Bool
  | .int kind w =>
    match literalWord start, literalWord stop with
    | some lo, some hi => kind.le lo w && (if inclusive then kind.le w hi else !kind.le hi w)
    | _, _ => false
  | _ => false

mutual
/-- The tests of `lower_pattern`. -/
def matchesPattern : MatchPattern → Value → Bool
  | .wildcard, _ | .identifier _, _ => true
  | .literal e, v => literalMatches e v
  | .range start stop inclusive, v => rangeMatches start stop inclusive v
  | .variant name inner, .enum _ variant payload => name = variant && matchesAll inner payload
  | .tuple items, .tuple values => matchesAll items values
  | .structFields _ fields, .struct _ values => matchesFields fields values
  | .list before rest after, .list values =>
    let needed := before.length + after.length
    (if rest.isSome then needed ≤ values.length else values.length = needed) &&
      matchesAll before values && matchesAll after (values.drop (values.length - after.length))
  | .or alts, v => matchesAny alts v
  | _, _ => false
def matchesAll : List MatchPattern → List Value → Bool
  | [], _ => true
  | p :: ps, v :: vs => matchesPattern p v && matchesAll ps vs
  | _ :: _, [] => false
def matchesFields : List (String × MatchPattern) → (String → Value) → Bool
  | [], _ => true
  | (name, p) :: fields, values => matchesPattern p (values name) && matchesFields fields values
def matchesAny : List MatchPattern → Value → Bool
  | [], _ => false
  | p :: ps, v => matchesPattern p v || matchesAny ps v
end

def literalOk : Ty → LitExpr → Bool
  | .int _, e => (literalIntValue e).isSome
  | .bool, .bool _ => true
  | .str, .str _ => true
  | _, _ => false

mutual
/-- `check_pattern` finds nothing wrong. -/
def patternOk : Ty → MatchPattern → Bool
  | _, .wildcard | _, .identifier _ => true
  | .enum name, .variant variant inner =>
    match (env.enums name).lookup variant with
    | some tys => tys.length = inner.length && patternsOk tys inner
    | none => false
  | ty, .literal e => literalOk ty e
  | .tuple fieldTys, .tuple items => fieldTys.length = items.length && patternsOk fieldTys items
  | .struct struct, .structFields name fields => name = struct && fieldsOk struct fields
  | .list elem, .list before _ after => elemsOk elem before && elemsOk elem after
  | .int _, .range start stop _ => (literalIntValue start).isSome && (literalIntValue stop).isSome
  | ty, .or alts => elemsOk ty alts
  | _, _ => false
def patternsOk : List Ty → List MatchPattern → Bool
  | ty :: tys, p :: ps => patternOk ty p && patternsOk tys ps
  | _, _ => true
def elemsOk (ty : Ty) : List MatchPattern → Bool
  | [] => true
  | p :: ps => patternOk ty p && elemsOk ty ps
def fieldsOk (struct : String) : List (String × MatchPattern) → Bool
  | [] => true
  | (name, p) :: fields =>
    (match (env.structs struct).lookup name with
      | some fieldTy => patternOk fieldTy p
      | none => false) && fieldsOk struct fields
end

end Exhaustiveness

end Olive
