import Olive.Liveness
import Olive.Lockstep

/-! Runs of a function as far as its owners go: which words its locals hold, which are released, and
which local reads as null because a pass has moved its word out. -/

namespace Olive

open Lockstep

namespace OwnedRuns

/-- An operand before and after a pass, and whether whatever takes it releases it from then on. -/
structure Read where
  before : Operand
  after : Operand
  handed : Bool
  deriving DecidableEq

def Read.promoted (r : Read) : Bool := r.before ≠ r.after

/-- A statement before and after a pass. -/
abbrev Paired := Statement × Statement

structure PairedBlock where
  stmts : List Paired
  terminator : Option Terminator

/-- The operands a statement evaluates. Elements of an aggregate, pushed elements and stored values
are handed over to what takes them. -/
def handedOperands (kind : StatementKind) : List (Operand × Bool) :=
  match kind with
  | .assign _ (.aggregate _ ops) => ops.map (·, true)
  | .assign _ (.call func args) =>
    (func, false) :: args.mapIdx fun i op =>
      (op, i == 1 && decide (func = .const (.function "__olive_list_push")))
  | .assign _ rval => rval.inputs.map (·, false)
  | .setAttr obj _ val | .ptrStore obj val => [(obj, false), (val, true)]
  | .setIndex obj idx val _ => [(obj, false), (idx, false), (val, true)]
  | .vectorStore obj idx val => [(obj, false), (idx, false), (val, false)]
  | .genCheck value generation => [(.copy value, false), (.copy generation, false)]
  | .drop _ | .storageLive _ | .storageDead _ => []

def reads (stmt : Paired) : List Read :=
  (handedOperands stmt.1.kind).zipWith (fun a b => ⟨a.1, b.1, a.2⟩) (handedOperands stmt.2.kind)

/-- The rest of the machine: the words of constants, and the answers to the questions a run asks, in
their order. -/
structure Answers where
  constant : Constant → Word
  reply : Nat → List Word → Option Word

/-- `nulled` are the locals whose word a promoted operand has moved out since they were assigned. -/
structure OwnState where
  locals : Local → Word
  nulled : Local → Bool
  released : List Word
  asked : Nat

structure OwnPoint where
  bb : BasicBlockId
  idx : Nat
  state : OwnState

inductive OwnEnd where
  | returned (v : Word) (slotNulled : Bool) (released : List Word)
  | misread (l : Local)
  | stopped

/-- Null is nobody's to release. -/
def releasing (released : List Word) (w : Word) : List Word :=
  if w = 0 then released else released ++ [w]

def OwnState.moveOut (s : OwnState) (l : Local) (r : Read) : OwnState :=
  { s with
    locals := fun x => if x = l then 0 else s.locals x
    nulled := fun x => if x = l ∧ r.promoted then true else s.nulled x
    released := if r.handed then releasing s.released (s.locals l) else s.released }

def OwnState.assign (s : OwnState) (dst : Local) (w : Word) : OwnState :=
  { s with
    locals := fun x => if x = dst then w else s.locals x
    nulled := fun x => if x = dst then false else s.nulled x }

section Exec

variable (env : Answers) (decls : List LocalDecl)

def readOperand (s : OwnState) (r : Read) : Except Local (Word × OwnState) :=
  match r.after with
  | .const c => .ok (env.constant c, s)
  | .copy l => if s.nulled l then .error l else .ok (s.locals l, s)
  | .move l => if s.nulled l then .error l else .ok (s.locals l, s.moveOut l r)

def readOperands (s : OwnState) : List Read → Except Local (List Word × OwnState)
  | [] => .ok ([], s)
  | r :: rs =>
    (readOperand env s r).bind fun first =>
      (readOperands first.2 rs).map fun rest => (first.1 :: rest.1, rest.2)

/-- A type that owns nothing releases nothing. -/
def OwnState.drop (s : OwnState) (l : Local) : OwnState :=
  if (tyOf decls l).needsDrop then
    { s with
      locals := fun x => if x = l then 0 else s.locals x
      released := releasing s.released (s.locals l) }
  else s

/-- Goes on with the answer to a question, if there is one. -/
def answered (s : OwnState) (words : List Word) (next : OwnState → Word → OwnState) :
    OwnState ⊕ OwnEnd :=
  match env.reply s.asked words with
  | some w => .inl (next { s with asked := s.asked + 1 } w)
  | none => .inr .stopped

/-- What a statement does with its operands. -/
def finish (s : OwnState) (kind : StatementKind) (words : List Word) : OwnState ⊕ OwnEnd :=
  match kind with
  | .assign dst (.use _) => .inl (s.assign dst (words.headD 0))
  | .assign dst _ => answered env s words fun s w => s.assign dst w
  | .drop l => .inl (s.drop decls l)
  | .storageLive _ | .storageDead _ => .inl s
  | _ => answered env s words fun s _ => s

def execPaired (s : OwnState) (stmt : Paired) : OwnState ⊕ OwnEnd :=
  match readOperands env s (reads stmt) with
  | .ok r => finish env decls r.2 stmt.2.kind r.1
  | .error l => .inr (.misread l)

def execTerm (s : OwnState) (term : Option Terminator) : (BasicBlockId × OwnState) ⊕ OwnEnd :=
  match term with
  | some ⟨.goto target, _⟩ => .inl (target, s)
  | some ⟨.switchInt discr targets otherwise, _⟩ =>
    match readOperand env s ⟨discr, discr, false⟩ with
    | .ok r =>
      match env.reply r.2.asked [r.1] with
      | some w => .inl ((targets.lookup w).getD otherwise, { r.2 with asked := r.2.asked + 1 })
      | none => .inr .stopped
    | .error l => .inr (.misread l)
  | some ⟨.ret, _⟩ => .inr (.returned (s.locals 0) (s.nulled 0) s.released)
  | some ⟨.unreachable, _⟩ => .inr .stopped
  | none => .inr (.returned 0 false s.released)

def step (prog : List PairedBlock) (p : OwnPoint) : OwnPoint ⊕ OwnEnd :=
  match prog[p.bb]? with
  | none => .inr .stopped
  | some block =>
    match block.stmts[p.idx]? with
    | some stmt => (execPaired env decls p.state stmt).map (fun s => ⟨p.bb, p.idx + 1, s⟩) id
    | none => (execTerm env p.state block.terminator).map (fun next => ⟨next.1, 0, next.2⟩) id

end Exec

/-- A function as it is. -/
def plain (f : MirFunction) : List PairedBlock :=
  f.basicBlocks.map fun bb => ⟨bb.statements.map fun stmt => (stmt, stmt), bb.terminator⟩

def startOwned (locals : Local → Word) : OwnPoint := ⟨0, 0, ⟨locals, fun _ => false, [], 0⟩⟩

end OwnedRuns

end Olive
