import Olive.BreadthFirst
import Olive.MachineFrame

/-! The poll function of an async function: the body cut into segments at its awaits, with all
variables kept in a frame between the polls. -/

namespace Olive

namespace AsyncSm

open FlowGraph

structure SmAwaitPoint where
  bbIdx : BasicBlockId
  stmtIdx : Nat
  resultLocal : Local
  subFutureLocal : Local
  deriving DecidableEq

/-- The result and the operand of `result = __olive_await(operand)`. -/
def awaitOf (stmt : Statement) : Option (Local × Operand) :=
  match stmt.kind with
  | .assign result (.call (.const (.function name)) (sub :: _)) =>
    if name = "__olive_await" then some (result, sub) else none
  | _ => none

def blockPoints (bb : BasicBlockId) : Nat → List Statement → Option (List SmAwaitPoint)
  | _, [] => some []
  | idx, stmt :: stmts =>
    match awaitOf stmt with
    | some (result, sub) =>
      sub.local?.bind fun subLocal =>
        (blockPoints bb (idx + 1) stmts).map (⟨bb, idx, result, subLocal⟩ :: ·)
    | none => blockPoints bb (idx + 1) stmts

def bfsOrder (f : MirFunction) : List BasicBlockId := bfs f.successors f.basicBlocks.length [0] []

/-- `None` also if an operand of an await is a constant. -/
def analyzeAsyncSm (f : MirFunction) : Option (List SmAwaitPoint) :=
  match (bfsOrder f).mapM fun bb => blockPoints bb 0 (f.stmtsAt bb) with
  | some points => if points.flatten.isEmpty then none else some points.flatten
  | none => none

/-- The types of Cranelift. -/
inductive ClType where
  | i8 | i16 | i32 | i64 | f32 | f64
  | vec (lane : ClType) (lanes : Nat)
  deriving DecidableEq

def ClType.bytes : ClType → Nat
  | .i8 => 1
  | .i16 => 2
  | .i32 | .f32 => 4
  | .i64 | .f64 => 8
  | .vec lane lanes => lane.bytes * lanes

def clType : OliveType → ClType
  | .i32 | .u32 => .i32
  | .i16 | .u16 => .i16
  | .i8 | .u8 | .bool => .i8
  | .float => .f64
  | .f32 => .f32
  | .vector item width =>
    match item with
    | .int | .u64 | .usize => .vec .i64 width
    | .i32 | .u32 => .vec .i32 width
    | .i16 | .u16 => .vec .i16 width
    | .i8 | .u8 | .bool => .vec .i8 width
    | .float => .vec .f64 width
    | .f32 => .vec .f32 width
    | _ => .i64
  | _ => .i64

/-- The slots of eight bytes that a store of the type touches. -/
def slots (ty : OliveType) : Nat := ((clType ty).bytes + 7) / 8

/-- What a slot of the frame holds: one part of a value. -/
structure Cell where
  val : Val
  part : Nat
  deriving DecidableEq

abbrev Frame := Nat → Cell

/-- `frame_off`, in slots: the state and the future awaited come first. -/
def frameOff (l : Local) : Nat := l + 2

def store (frame : Frame) (slot count : Nat) (v : Val) : Frame := fun s =>
  if slot ≤ s ∧ s < slot + count then ⟨v, s - slot⟩ else frame s

/-- The value stored, or else whatever `mixed` makes of the parts of several. -/
def load (mixed : List Cell → Val) (frame : Frame) (slot count : Nat) : Val :=
  let cells := (List.range count).map fun i => frame (slot + i)
  if cells = (List.range count).map fun i => ⟨(frame slot).val, i⟩ then (frame slot).val
  else mixed cells

inductive Label where
  | entry | dispatch
  | state (k : Nat)
  | pend (k : Nat)
  | cont (k : Nat)
  | seg (bb : BasicBlockId) (j : Nat)
  | done

inductive Inst where
  | zero (l : Local)
  | reload (l : Local)
  | spill (l : Local)
  | stmt (s : Statement)
  /-- The call of `__olive_sm_poll` on the future at offset 8. -/
  | pollSub
  | setResult (l : Local)
  /-- The store of a variable at offset 8. -/
  | storeSub (l : Local)
  | storeState (k : Word)

inductive Exit where
  | jump (target : Label)
  | switchState
  | ifPending (yes no : Label)
  | goto (target : BasicBlockId)
  | brif (discr : Operand) (yes no : BasicBlockId)
  | switch (discr : Operand) (targets : List (Word × BasicBlockId)) (otherwise : BasicBlockId)
  | retPending
  | retLocal
  | retCached
  | trap

structure CodeBlock where
  insts : List Inst
  exit : Exit

section Translate

variable (f : MirFunction) (points : List SmAwaitPoint)

/-- The await points of a block, with their places in the whole list. -/
def bbAwaits (bb : BasicBlockId) : List (SmAwaitPoint × Nat) :=
  points.zipIdx.filter fun p => p.1.bbIdx = bb

def segStart (bb : BasicBlockId) : Nat → Nat
  | 0 => 0
  | j + 1 =>
    match (bbAwaits points bb)[j]? with
    | some (ap, _) => ap.stmtIdx + 1
    | none => 0

def spills : List Inst := (List.range f.locals.length).map .spill

def reloads : List Inst := (List.range f.locals.length).map .reload

/-- The end of a block, with what comes before it. -/
def translateTerm : Option Terminator → List Inst × Exit
  | some ⟨.ret, _⟩ => ([.storeState (-1), .storeSub 0], .retLocal)
  | some ⟨.goto target, _⟩ => ([], .goto target)
  | some ⟨.switchInt discr targets otherwise, _⟩ =>
    match targets with
    | [(value, target)] =>
      ([], if value = 1 then .brif discr target otherwise else .switch discr targets otherwise)
    | _ => ([], .switch discr targets otherwise)
  | some ⟨.unreachable, _⟩ | none => ([], .trap)

/-- The statements up to the next await, or up to the end of the block. -/
def translateSeg (bb : BasicBlockId) (j : Nat) : CodeBlock :=
  match (bbAwaits points bb)[j]? with
  | some (ap, k) =>
    let stmts := ((f.stmtsAt bb).take ap.stmtIdx).drop (segStart points bb j)
    ⟨stmts.map .stmt ++ (spills f ++
      [.storeSub ap.subFutureLocal, .storeState (BitVec.ofNat 64 (k + 1))]), .retPending⟩
  | none =>
    let stmts := (f.stmtsAt bb).drop (segStart points bb j)
    let term := translateTerm (f.terminatorAt bb)
    ⟨stmts.map .stmt ++ term.1, term.2⟩

/-- The segment after an await point. -/
def resumeSeg (ap : SmAwaitPoint) (k : Nat) : Nat :=
  (bbAwaits points ap.bbIdx).findIdx (fun p => p.2 = k) + 1

def translateBlock : Label → CodeBlock
  | .entry => ⟨(List.range f.locals.length).map .zero, .jump .dispatch⟩
  | .dispatch => ⟨[], .switchState⟩
  | .state 0 => ⟨(List.range' 1 f.argCount).map .reload, .jump (.seg 0 0)⟩
  | .state (k + 1) => ⟨reloads f ++ [.pollSub], .ifPending (.pend k) (.cont k)⟩
  | .pend _ => ⟨[], .retPending⟩
  | .cont k =>
    match points[k]? with
    | some ap => ⟨reloads f ++ [.setResult ap.resultLocal], .jump (.seg ap.bbIdx (resumeSeg points ap k))⟩
    | none => ⟨[], .trap⟩
  | .seg bb j => translateSeg f points bb j
  | .done => ⟨[], .retCached⟩

/-- There is no code if the result of an await, which is a word, is assigned to a variable of another
type, or if another type is returned. -/
def translateAsyncSmPoll : Option (Label → CodeBlock) :=
  if (points.all fun ap => clType (tyOf f.locals ap.resultLocal) = .i64) ∧
      clType (tyOf f.locals 0) = .i64 then
    some (translateBlock f points)
  else none

/-- The frame that `generate_sm_wrapper` hands out, the arguments stored in fresh memory. -/
def smWrapperFrame (fresh : Frame) (args : List Val) : Frame :=
  args.zipIdx.foldl (fun frame p => store frame (p.2 + 3) (slots (tyOf f.locals (p.2 + 1))) p.1)
    (store fresh 0 1 (.word 0))

end Translate

def pollPending : Word := BitVec.intMin 64

/-- What a run performs, in order. -/
inductive Item where
  | stmt (s : Statement)
  | branch (target : BasicBlockId)
  | awaited (result : Word)

/-- The answers are the results of the awaits so far, each with the world at that time. -/
structure PollState (W : Type) where
  state : State W
  frame : Frame
  polled : Word
  trace : List Item
  answers : List (Word × World W)

def PollState.setLocals {W : Type} (p : PollState W) (locals : Local → Val) : PollState W :=
  { p with state := ⟨locals, p.state.world, p.state.log⟩ }

structure PollPoint (W : Type) where
  label : Label
  idx : Nat
  poll : PollState W

inductive PollEnd (W : Type) where
  | returned (v : Val) (poll : PollState W)
  | faulted (e : Fault) (poll : PollState W)

section Poll

variable {W : Type} (rt : Runtime W) (mixed : List Cell → Val) (f : MirFunction)
  (points : List SmAwaitPoint) (reply : Word → World W → Word × World W)

/-- A store past the end of the frame goes anywhere. -/
def storeVar (p : PollState W) (slot : Nat) (l : Local) : Except Fault (PollState W) :=
  let count := slots (tyOf f.locals l)
  if slot + count ≤ f.locals.length + 2 then
    .ok { p with frame := store p.frame slot count (p.state.locals l) }
  else .error .wild

def Inst.exec (p : PollState W) : Inst → Except Fault (PollState W)
  | .zero l => .ok (p.setLocals (setLocal p.state.locals l (.word 0)))
  | .reload l =>
    let v := load mixed p.frame (frameOff l) (slots (tyOf f.locals l))
    .ok (p.setLocals (setLocal p.state.locals l v))
  | .spill l => storeVar f p (frameOff l) l
  | .stmt s =>
    (rt.execStmt f.locals p.state s).map fun state =>
      { p with state := state, trace := p.trace ++ [.stmt s] }
  | .pollSub =>
    let r := reply (load mixed p.frame 1 1).toWord p.state.world
    .ok { p with state := ⟨p.state.locals, r.2, p.state.log⟩, polled := r.1 }
  | .setResult l =>
    .ok { p.setLocals (setLocal p.state.locals l (.word p.polled)) with
      trace := p.trace ++ [.awaited p.polled]
      answers := p.answers ++ [(p.polled, p.state.world)] }
  | .storeSub l => storeVar f p 1 l
  | .storeState k => .ok { p with frame := store p.frame 0 1 (.word k) }

/-- A jump to the first segment of a block. -/
def enter (p : PollState W) (locals : Local → Val) (target : BasicBlockId) : PollPoint W :=
  ⟨.seg target 0, 0, { p.setLocals locals with trace := p.trace ++ [.branch target] }⟩

def Exit.take (p : PollState W) : Exit → PollPoint W ⊕ PollEnd W
  | .jump target => .inl ⟨target, 0, p⟩
  | .switchState =>
    let k := (load mixed p.frame 0 1).toWord.toNat
    .inl ⟨if k ≤ points.length then .state k else .done, 0, p⟩
  | .ifPending yes no => .inl ⟨if p.polled = pollPending then yes else no, 0, p⟩
  | .goto target => .inl (enter p p.state.locals target)
  | .brif discr yes no =>
    let evaluated := rt.evalOperand p.state.locals discr
    .inl (enter p evaluated.2 (if evaluated.1.toWord ≠ 0 then yes else no))
  | .switch discr targets otherwise =>
    let evaluated := rt.evalOperand p.state.locals discr
    .inl (enter p evaluated.2 ((targets.lookup evaluated.1.toWord).getD otherwise))
  | .retPending => .inr (.returned (.word pollPending) p)
  | .retLocal => .inr (.returned (p.state.locals 0) p)
  | .retCached => .inr (.returned (load mixed p.frame 1 1) p)
  | .trap => .inr (.faulted .trap p)

def pollStep (code : Label → CodeBlock) (p : PollPoint W) : PollPoint W ⊕ PollEnd W :=
  match (code p.label).insts[p.idx]? with
  | some inst =>
    match inst.exec rt mixed f reply p.poll with
    | .ok poll => .inl ⟨p.label, p.idx + 1, poll⟩
    | .error e => .inr (.faulted e p.poll)
  | none => (code p.label).exit.take rt mixed points p.poll

end Poll

end AsyncSm

end Olive
