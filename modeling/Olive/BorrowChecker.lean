import Olive.Liveness
import Olive.Worklist

/-! The borrow checker. -/

namespace Olive

namespace BorrowChecker

open Worklist

/-- Runtime calls that mutate a container in place, with the receiver's position in the call. -/
def mutatesReceiver : List (String × Nat) :=
  [("__olive_list_append", 0), ("__olive_list_insert", 0), ("__olive_list_extend", 0),
    ("__olive_list_extend_typed", 0), ("__olive_list_remove", 0), ("__olive_list_pop", 0),
    ("__olive_list_reverse", 0), ("__olive_list_sort_int", 0), ("__olive_list_sort_float", 0),
    ("__olive_list_sort_str", 0), ("__olive_list_clear", 0), ("__olive_set_add", 0),
    ("__olive_set_add_typed", 0), ("__olive_set_remove", 0), ("__olive_set_remove_typed", 0),
    ("__olive_set_remove_checked", 0), ("__olive_set_remove_checked_typed", 0),
    ("__olive_set_clear", 0), ("__olive_obj_set", 0), ("__olive_obj_remove", 0),
    ("__olive_obj_clear", 0), ("__olive_obj_pop_default", 0),
    ("__olive_obj_pop_default_typed", 0), ("__olive_obj_pop_checked", 0),
    ("__olive_obj_pop_checked_typed", 0), ("__olive_obj_setdefault", 0),
    ("__olive_obj_setdefault_typed", 0), ("__olive_obj_update", 0),
    ("__olive_obj_update_typed", 0)]

inductive LocalState where
  | initialized | moved | dead
  deriving DecidableEq

/-- A `borrow_error`. -/
structure Diagnostic where
  code : String
  headline : String
  span : Span
  label : String
  help : String
  deriving DecidableEq

/-- The shared borrows of each local, and whether it is mutably borrowed. -/
structure FlowState where
  locals : List LocalState
  borrows : List (Nat × Bool)
  selfFields : Finset String
  deriving DecidableEq

def FlowState.get (s : FlowState) (l : Local) : LocalState := s.locals.getD l .dead

def FlowState.borrow (s : FlowState) (l : Local) : Nat × Bool := s.borrows.getD l (0, false)

def FlowState.setBorrow (s : FlowState) (l : Local) (borrow : Nat × Bool) : FlowState :=
  ⟨s.locals, s.borrows.set l borrow, s.selfFields⟩

def FlowState.set (s : FlowState) (l : Local) (state : LocalState) : Except String FlowState :=
  if l < s.locals.length then
    if (s.borrow l).1 > 0 ∨ (s.borrow l).2 = true then
      .error (if state ≠ .initialized then "cannot move or drop variable while it is borrowed"
        else "cannot reassign variable while it is borrowed")
    else .ok ⟨s.locals.set l state,
      if state ≠ .initialized then s.borrows.set l (0, false) else s.borrows, s.selfFields⟩
  else .ok s

def mergeStates (a b : LocalState) : LocalState :=
  match a, b with
  | .moved, _ | _, .moved => .moved
  | .initialized, _ | _, .initialized => .initialized
  | _, _ => .dead

def FlowState.join (s other : FlowState) : FlowState × Bool :=
  let joined : FlowState :=
    ⟨(List.range (max s.locals.length other.locals.length)).map fun l =>
        mergeStates (s.get l) (other.get l),
      (List.range (max s.borrows.length other.borrows.length)).map fun l =>
        (max (s.borrow l).1 (other.borrow l).1, (s.borrow l).2 || (other.borrow l).2),
      s.selfFields ∩ other.selfFields⟩
  (joined, joined ≠ s)

/-- The state at the entry: the return slot and the parameters hold values. -/
def FlowState.init (f : MirFunction) : FlowState :=
  ⟨(List.range f.locals.length).map fun l => if l ≤ f.argCount then .initialized else .dead,
    List.replicate f.locals.length (0, false), ∅⟩

section Checks

variable (f : MirFunction)

def localName (l : Local) : String :=
  ((f.locals[l]?).bind (·.name)).getD s!"_{l}"

def isUnnamed (l : Local) : Bool :=
  match f.locals[l]? with
  | some decl => decl.name.isNone
  | none => true

def isMut (l : Local) : Bool :=
  match f.locals[l]? with
  | some decl => decl.isMut
  | none => false

def isMoveLocal (l : Local) : Bool :=
  match f.locals[l]? with
  | some decl => decl.ty.isMoveType
  | none => false

def uninitialized (l : Local) (span : Span) : Diagnostic :=
  ⟨"E0502", s!"use of possibly-uninitialized variable `{localName f l}`", span,
    "used here before it is guaranteed to hold a value",
    s!"assign to `{localName f l}` on every path that reaches this use"⟩

def usedAfterMove (l : Local) (span : Span) : Diagnostic :=
  ⟨"E0501", s!"use of moved value `{localName f l}`", span, "value used here after move",
    s!"clone `{localName f l}` before the move, or restructure so it is not moved away"⟩

def checkOperand (op : Operand) (s : FlowState) (span : Span) : FlowState × List Diagnostic :=
  match op with
  | .const _ => (s, [])
  | .copy l =>
    match s.get l with
    | .dead => (s, if isUnnamed f l then [] else [uninitialized f l span])
    | .moved => (s, [usedAfterMove f l span])
    | .initialized => (s, [])
  | .move l =>
    match s.get l with
    | .dead => (s, if isUnnamed f l then [] else [uninitialized f l span])
    | .moved => (s, [usedAfterMove f l span])
    | .initialized =>
      if isMoveLocal f l then
        match s.set l .moved with
        | .ok s' => (s', [])
        | .error msg => (s, [⟨"E0501", "conflicting move", span, s!"{msg} `{localName f l}`",
            "a value cannot be moved more than once"⟩])
      else (s, [])

def checkOperands (span : Span) : List Operand → FlowState → FlowState × List Diagnostic
  | [], s => (s, [])
  | op :: ops, s =>
    let first := checkOperand f op s span
    let rest := checkOperands span ops first.1
    (rest.1, first.2 ++ rest.2)

def checkMutation (op : Operand) (s : FlowState) (span : Span) : List Diagnostic :=
  match op.local? with
  | some l =>
    if (s.borrow l).1 > 0 then
      [⟨"E0504", s!"cannot mutate `{localName f l}` while it is borrowed", span,
        "mutation occurs here", "let the outstanding borrow end before mutating the value"⟩]
    else []
  | none => []

/-- The receiver that a call mutates in place. -/
def mutatedReceiver (func : Operand) (args : List Operand) : Option Operand :=
  match func with
  | .const (.function name) =>
    (mutatesReceiver.lookup name).bind fun pos => args[pos]?
  | _ => none

def checkRvalue (rval : Rvalue) (s : FlowState) (span : Span) : FlowState × List Diagnostic :=
  match rval with
  | .call func args =>
    let callee := checkOperand f func s span
    let receiver := match mutatedReceiver func args with
      | some receiver => checkMutation f receiver callee.1 span
      | none => []
    let rest := checkOperands f span args callee.1
    (rest.1, callee.2 ++ receiver ++ rest.2)
  | .ref l =>
    (s.setBorrow l ((s.borrow l).1 + 1, (s.borrow l).2),
      (if s.get l ≠ .initialized then
        [⟨"E0502", s!"`{localName f l}` is borrowed before it holds a value", span,
          "borrow of possibly-uninitialized or moved value",
          s!"assign to `{localName f l}` before borrowing it"⟩]
      else []) ++
      if (s.borrow l).2 then
        [⟨"E0503", s!"cannot borrow `{localName f l}` as immutable", span,
          "already borrowed as mutable here",
          "end the mutable borrow before taking a shared borrow"⟩]
      else [])
  | .mutRef l =>
    (s.setBorrow l ((s.borrow l).1, true),
      (if s.get l ≠ .initialized then
        [⟨"E0502", s!"`{localName f l}` is mutably borrowed before it holds a value", span,
          "mutable borrow of possibly-uninitialized or moved value",
          s!"assign to `{localName f l}` before borrowing it"⟩]
      else []) ++
      (if isMut f l then []
      else [⟨"E0505", s!"cannot mutably borrow immutable variable `{localName f l}`", span,
        "this variable is not declared `mut`",
        s!"declare it mutable: `let mut {localName f l} = ...`"⟩]) ++
      if (s.borrow l).1 > 0 ∨ (s.borrow l).2 = true then
        [⟨"E0503", s!"cannot borrow `{localName f l}` as mutable more than once", span,
          "already borrowed here", "a value may have only one mutable borrow at a time"⟩]
      else [])
  | rval => checkOperands f span rval.operands s

/-- The variable to which each local refers that was last assigned a reference. -/
abbrev Provenance := List (Local × Local)

def Provenance.remove (prov : Provenance) (l : Local) : Provenance := prov.filter fun p => p.1 ≠ l

def Provenance.insert (prov : Provenance) (l target : Local) : Provenance :=
  (l, target) :: prov.remove l

/-- Calls whose result keeps aliasing their first argument. -/
def isBorrowPassthrough : Operand → Bool
  | .const (.function name) => name = "__olive_iter" || name = "iter"
  | _ => false

/-- The local whose reference the value keeps. -/
def carriedFrom : Rvalue → Option Local
  | .use op => op.local?
  | .call func args => if isBorrowPassthrough func then args.head?.bind Operand.local? else none
  | _ => none

def track (prov : Provenance) (dst : Local) : Rvalue → Provenance
  | .ref l | .mutRef l => prov.insert dst l
  | rval =>
    match (carriedFrom rval).bind fun src => List.lookup src prov with
    | some target => prov.insert dst target
    | none => prov.remove dst

def initSuffix : String := "::__init__"

def isInit : Bool := initSuffix.toList.isSuffixOf f.name.toList

/-- `trim_end_matches`, with a budget of matches. -/
def trimEndMatches (suffix : List Char) : Nat → List Char → List Char
  | 0, cs => cs
  | n + 1, cs =>
    if suffix.isSuffixOf cs then
      trimEndMatches suffix n (cs.take (cs.length - suffix.length))
    else cs

/-- The field of `self` that a statement of an `__init__` sets. -/
def setsField : StatementKind → Option String
  | .setAttr obj field _ => if isInit f ∧ obj.local? = some 1 then some field else none
  | _ => none

def transferStmt (stmt : Statement) (prov : Provenance) (s : FlowState) :
    Provenance × FlowState × List Diagnostic :=
  match stmt.kind with
  | .assign dst rval =>
    let checked := checkRvalue f rval s stmt.span
    let prov' := track prov dst rval
    match checked.1.set dst .initialized with
    | .ok s' => (prov', s', checked.2)
    | .error msg => (prov', checked.1, checked.2 ++
        [⟨"E0500", "conflicting assignment", stmt.span, s!"{msg} `{localName f dst}`",
          "each value may only be used once after it is moved"⟩])
  | .setAttr obj _ val =>
    let checked := checkOperands f stmt.span [obj, val] s
    (prov, ⟨checked.1.locals, checked.1.borrows,
        checked.1.selfFields ∪ (setsField f stmt.kind).toList.toFinset⟩,
      checkMutation f obj s stmt.span ++ checked.2)
  | .setIndex obj idx val _ | .vectorStore obj idx val =>
    let checked := checkOperands f stmt.span [obj, idx, val] s
    (prov, checked.1, checkMutation f obj s stmt.span ++ checked.2)
  | .ptrStore ptr val => (prov, checkOperands f stmt.span [ptr, val] s)
  | .storageLive l => (prov, (s.set l .initialized).toOption.getD s, [])
  | .storageDead l => (prov, (s.set l .dead).toOption.getD s, [])
  | .drop l =>
    if s.get l = .initialized then
      match s.set l .moved with
      | .ok s' => (prov, s', [])
      | .error msg =>
        (prov, s, [⟨"E0507", "value used after its lifetime ends", stmt.span,
          s!"{msg} `{localName f l}`",
          "restructure the code so the value is not used after it is dropped"⟩])
    else (prov, s, [])
  | .genCheck _ _ => (prov, s, [])

/-- A field that some path through `__init__` leaves unset, reported at each `return`. -/
def uninitializedField (structName field : String) (span : Span) : Diagnostic :=
  ⟨"E0506", s!"field `{field}` may be left uninitialized", span,
    s!"`{structName}.{field}` is not set on every path through `__init__`",
    s!"assign `self.{field} = ...` before every `return`"⟩

def checkTerminator (structFields : FxHashMap String (List String)) (term : Option Terminator)
    (s : FlowState) : FlowState × List Diagnostic :=
  match term with
  | some ⟨.switchInt discr _ _, span⟩ => checkOperand f discr s span
  | some ⟨.ret, span⟩ =>
    if isInit f then
      let structName := String.ofList
        (trimEndMatches initSuffix.toList f.name.length f.name.toList)
      let fields := (structFields structName).getD []
      (s, (fields.filter fun field => field ∉ s.selfFields).map fun field =>
        uninitializedField structName field span)
    else (s, [])
  | _ => (s, [])

/-- One reference to `l` is not used any more. -/
def FlowState.release (s : FlowState) (l : Local) : FlowState :=
  s.setBorrow l (if (s.borrow l).1 > 0 then ((s.borrow l).1 - 1, (s.borrow l).2)
    else ((s.borrow l).1, false))

def releaseDeadBorrows (prov : Provenance) (s : FlowState) (live : Finset Local) : FlowState :=
  let stillBorrowed := (prov.filter fun p => p.1 ∈ live).map Prod.snd
  (prov.filter fun p => p.1 ∉ live ∧ p.2 ∉ stillBorrowed).foldl (fun s p => s.release p.2) s

/-- What the checker keeps over the whole function. -/
structure Context where
  provenance : Provenance
  errors : List Diagnostic

variable (structFields : FxHashMap String (List String)) (liveAfter : List (List (Finset Local)))

/-- A statement, and the borrows that end with it. -/
def checkStmt (bb : BasicBlockId) (c : Context × FlowState) (stmt : Statement × Nat) :
    Context × FlowState :=
  let r := transferStmt f stmt.1 c.1.provenance c.2
  (⟨r.1, c.1.errors ++ r.2.2⟩, releaseDeadBorrows r.1 r.2.1 (liveAt liveAfter bb (stmt.2 + 1)))

/-- The block's statements before place `n`. -/
def checkStmts (bb : BasicBlockId) (n : Nat) (c : Context × FlowState) : Context × FlowState :=
  (((f.stmtsAt bb).take n).zipIdx).foldl (checkStmt f liveAfter bb) c

def checkBlock (ctx : Context) (bb : BasicBlockId) (s : FlowState) : Context × FlowState :=
  let n := (f.stmtsAt bb).length
  let body := checkStmts f liveAfter bb n (ctx, s)
  let r := checkTerminator f structFields (f.terminatorAt bb) body.2
  (⟨body.1.provenance, body.1.errors ++ r.2⟩,
    releaseDeadBorrows body.1.provenance r.1 (liveAt liveAfter bb n))

def flow : Flow FlowState Context where
  visit := checkBlock f structFields liveAfter
  join := FlowState.join
  succs := f.successors

def startLoop : LoopState FlowState Context := LoopState.single ⟨[], []⟩ 0 (FlowState.init f)

/-- The errors of `BorrowChecker::check`, with a budget of rounds for the liveness and of visits. -/
def check (fuel : Nat) : Option (List Diagnostic) :=
  (computeLiveness f fuel).bind fun liveAfter =>
    if f.basicBlocks.isEmpty then some []
    else (run (flow f structFields liveAfter) fuel (startLoop f)).map (·.ctx.errors)

end Checks

end BorrowChecker

end Olive
