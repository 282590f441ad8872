import Mathlib.Data.List.Basic

namespace Olive

/-- A 64-bit machine word; `i64` and `u64` are its signed and unsigned readings. -/
abbrev Word := BitVec 64

/-- `rustc_hash::FxHashMap`, as the function it denotes. -/
abbrev FxHashMap (κ α : Type) := κ → Option α

def FxHashMap.empty {κ α : Type} : FxHashMap κ α := fun _ => none

def FxHashMap.insert {κ α : Type} [DecidableEq κ] (m : FxHashMap κ α) (k : κ) (v : α) :
    FxHashMap κ α := fun x => if x = k then some v else m x

def FxHashMap.remove {κ α : Type} [DecidableEq κ] (m : FxHashMap κ α) (k : κ) :
    FxHashMap κ α := fun x => if x = k then none else m x

@[simp] theorem FxHashMap.empty_apply {κ α : Type} (k : κ) :
    (FxHashMap.empty : FxHashMap κ α) k = none := rfl

@[simp] theorem FxHashMap.insert_self {κ α : Type} [DecidableEq κ] (m : FxHashMap κ α)
    (k : κ) (v : α) : m.insert k v k = some v := by
  simp [FxHashMap.insert]

theorem FxHashMap.insert_of_ne {κ α : Type} [DecidableEq κ] (m : FxHashMap κ α)
    {k x : κ} (v : α) (h : x ≠ k) : m.insert k v x = m x := by
  simp [FxHashMap.insert, h]

theorem getD_of_some {α : Type} {xs : List α} {i : Nat} {a d : α} (h : xs[i]? = some a) :
    xs.getD i d = a := by
  rw [List.getD_eq_getElem?_getD, h, Option.getD_some]

theorem getD_map {α β : Type} (g : α → β) (xs : List α) (i : Nat) (d : α) :
    (xs.map g).getD i (g d) = g (xs.getD i d) := by
  simp only [List.getD_eq_getElem?_getD, List.getElem?_map]
  cases xs[i]? <;> rfl

abbrev Local := Nat

abbrev BasicBlockId := Nat

structure Span where
  fileId : Nat
  line : Nat
  col : Nat
  start : Nat
  stop : Nat
  deriving DecidableEq, Repr

def Span.default : Span := ⟨0, 0, 0, 0, 0⟩

/-- `semantic::types::Type`. -/
inductive OliveType where
  | int | i8 | i16 | i32 | u8 | u16 | u32 | u64 | usize
  | float | f32 | str | bytes | bool | null
  | struct (name : String) (args : List OliveType) (isFfi : Bool)
  | enum (name : String) (args : List OliveType)
  | traitObject (name : String) (args : List OliveType)
  | param (name : String)
  | union (members : List OliveType)
  | fn (params : List OliveType) (ret : OliveType) (args : List OliveType)
  | tuple (items : List OliveType)
  | list (item : OliveType)
  | dict (key value : OliveType)
  | set (item : OliveType)
  | ref (target : OliveType)
  | mutRef (target : OliveType)
  | ptr (target : OliveType)
  | var (id : Nat)
  | any | never
  | vector (item : OliveType) (width : Nat)
  | future (item : OliveType)
  | pyObject
  | pyNamed (module name : String)
  | integerLiteral (id : Nat)
  | floatLiteral (id : Nat)
  deriving Repr, Inhabited

def OliveType.isMoveType : OliveType → Bool
  | .int | .i8 | .i16 | .i32 | .u8 | .u16 | .u32 | .u64 | .usize
  | .float | .f32 | .bool | .null | .never | .any
  | .ref _ | .mutRef _ | .ptr _ | .vector _ _ | .future _ | .param _
  | .integerLiteral _ | .floatLiteral _ => false
  | _ => true

def OliveType.needsDrop (ty : OliveType) : Bool :=
  ty.isMoveType || match ty with
    | .any => true
    | _ => false

def OliveType.isNull : OliveType → Bool
  | .null => true
  | _ => false

inductive BinOp where
  | add | sub | mul | div | mod | pow
  | eq | notEq | lt | ltEq | gt | gtEq
  | and | or | coalesce | isIn | notIn
  | shl | shr | bitOr | bitAnd | bitXor
  deriving DecidableEq, Repr

inductive UnaryOp where
  | neg | pos | not | bitNot
  deriving DecidableEq, Repr

inductive Constant where
  | int (v : Word)
  | float (bits : Word)
  | str (s : String)
  | bool (b : Bool)
  | function (name : String)
  | globalData (name : String)
  | none
  deriving DecidableEq, Repr

inductive Operand where
  | copy (l : Local)
  | move (l : Local)
  | const (c : Constant)
  deriving DecidableEq, Repr

/-- The local a `Copy` or `Move` operand names. -/
def Operand.local? : Operand → Option Local
  | .copy l | .move l => some l
  | .const _ => none

/-- The local an operand moves out of. -/
def Operand.moved? : Operand → Option Local
  | .move l => some l
  | _ => none

inductive AggregateKind where
  | tuple | list | set | dict
  | enumVariant (tag : Word) (count : Nat)
  | fatPtr
  deriving DecidableEq, Repr

inductive Rvalue where
  | use (op : Operand)
  | binaryOp (op : BinOp) (lhs rhs : Operand)
  | unaryOp (op : UnaryOp) (arg : Operand)
  | call (func : Operand) (args : List Operand)
  | aggregate (kind : AggregateKind) (ops : List Operand)
  | cast (op : Operand) (ty : OliveType)
  | getAttr (obj : Operand) (attr : String)
  /-- `obj[idx]`; `unchecked` is set only by bounds-check elimination. -/
  | getIndex (obj idx : Operand) (unchecked : Bool)
  | getTag (op : Operand)
  | getTypeId (op : Operand)
  | ref (l : Local)
  | mutRef (l : Local)
  | vectorSplat (op : Operand) (width : Nat)
  | vectorLoad (obj idx : Operand) (width : Nat)
  | vectorFma (a b c : Operand)
  | vectorReduce (op : BinOp) (vec : Operand) (width : Nat)
  | ptrLoad (op : Operand)
  | fatPtrData (op : Operand)
  | vtableLoad (vtable : Operand) (methodIdx : Nat)
  | genOf (op : Operand)
  deriving Repr

/-- The operands an rvalue evaluates, in codegen's order. -/
def Rvalue.operands : Rvalue → List Operand
  | .use op | .unaryOp _ op | .cast op _ | .getAttr op _ | .getTag op | .getTypeId op
  | .vectorSplat op _ | .vectorReduce _ op _ | .ptrLoad op | .genOf op | .fatPtrData op
  | .vtableLoad op _ => [op]
  | .binaryOp _ a b | .getIndex a b _ | .vectorLoad a b _ => [a, b]
  | .vectorFma a b c => [a, b, c]
  | .call f args => f :: args
  | .aggregate _ ops => ops
  | .ref _ | .mutRef _ => []

/-- The locals an rvalue reads, borrows included. -/
def Rvalue.locals : Rvalue → List Local
  | .ref l | .mutRef l => [l]
  | rval => rval.operands.filterMap Operand.local?

inductive StatementKind where
  | assign (dst : Local) (rval : Rvalue)
  | setAttr (obj : Operand) (attr : String) (val : Operand)
  | setIndex (obj idx val : Operand) (unchecked : Bool)
  | storageLive (l : Local)
  | storageDead (l : Local)
  | drop (l : Local)
  | vectorStore (obj idx val : Operand)
  | ptrStore (ptr val : Operand)
  | genCheck (value generation : Local)
  deriving Repr

structure Statement where
  kind : StatementKind
  span : Span
  deriving Repr

inductive TerminatorKind where
  | goto (target : BasicBlockId)
  | switchInt (discr : Operand) (targets : List (Word × BasicBlockId)) (otherwise : BasicBlockId)
  | ret
  | unreachable
  deriving DecidableEq, Repr

structure Terminator where
  kind : TerminatorKind
  span : Span
  deriving DecidableEq, Repr

structure BasicBlock where
  statements : List Statement
  terminator : Option Terminator
  deriving Repr

structure LocalDecl where
  ty : OliveType
  name : Option String
  span : Span
  isMut : Bool
  isOwning : Bool
  deriving Repr

structure MirFunction where
  name : String
  locals : List LocalDecl
  basicBlocks : List BasicBlock
  argCount : Nat
  varargIdx : Option Nat
  kwargIdx : Option Nat
  paramNames : List String
  isAsync : Bool
  deriving Repr

/-- `(dst, src)` of `dst = Use(Copy(src))` or `dst = Use(Move(src))`. -/
def Statement.copy? (stmt : Statement) : Option (Local × Local) :=
  match stmt.kind with
  | .assign dst (.use (.copy src)) | .assign dst (.use (.move src)) => some (dst, src)
  | _ => none

def plainStmt (kind : StatementKind) : Statement := ⟨kind, .default⟩

/-- Every statement, block by block. -/
def MirFunction.statements (f : MirFunction) : List Statement :=
  f.basicBlocks.flatMap (·.statements)

end Olive
