import Olive.Cfg
import Olive.Lockstep

namespace Olive

open Lockstep

/-- What a variable holds: a machine word, or the lanes of a vector. -/
inductive Val where
  | word (w : Word)
  | lanes (ws : List Word)
  deriving DecidableEq, Repr

def Val.toWord : Val → Word
  | .word w => w
  | .lanes ws => ws.headD 0

/-- What a moved-out variable holds. -/
def Val.zeroed : Val → Val
  | .word _ => .word 0
  | .lanes ws => .lanes (ws.map fun _ => 0)

inductive Fault where
  | divZero (isMod : Bool)
  | divOverflow (isMod : Bool)
  | bounds (idx len : Word)
  | nilIndex
  | staleRef (l : Local)
  | trap
  /-- A load or store outside any list: what the program then does is undefined. -/
  | wild
  | runtime (code : Nat)
  deriving DecidableEq, Repr

/-- What codegen tells about an operand before it runs. -/
inductive OperandClass where
  | int | u64 | vector
  | other (ty : OliveType)

inductive Event where
  | call (callee : Option String) (args : List Val)
  | store (vals : List Val)
  deriving DecidableEq, Repr

/-- The lists and byte strings by address, and all other storage. -/
structure World (W : Type) where
  lists : Word → Option (List Word)
  rest : W

/-- The runtime library and whatever else codegen leaves to the target: any functions at all. -/
structure Runtime (W : Type) where
  /-- The address of a string, function or global. -/
  address : Constant → Word
  /-- Conversion to the width of a variable narrower than a word. -/
  narrow : OliveType → Val → Val
  rvalue : Option String → Rvalue → List OperandClass → List Val → World W →
    Except Fault (Val × World W)
  store : StatementKind → List OperandClass → List Val → World W → Except Fault (World W)
  free : OliveType → Val → World W → World W
  stale : OliveType → Val → Val → World W → Bool
  /-- `__olive_py_to_int`. -/
  pyToInt : Val → World W → Word

mutual
def OliveType.isPyValue : OliveType → Bool
  | .pyObject | .pyNamed _ _ => true
  | .union members => anyPyValue members
  | .ref target | .mutRef target => target.isPyValue
  | _ => false
def anyPyValue : List OliveType → Bool
  | [] => false
  | m :: ms => m.isPyValue || anyPyValue ms
end

mutual
/-- The type behind references and optional unions. -/
def OliveType.concrete : OliveType → OliveType
  | .ref target | .mutRef target => target.concrete
  | .union members => (soleConcrete members).getD (.union members)
  | ty => ty
def soleConcrete : List OliveType → Option OliveType
  | [] => none
  | m :: ms =>
    if m.isNull then soleConcrete ms
    else if ms.all OliveType.isNull then some m.concrete else none
end

def classOf : OliveType → OperandClass
  | .int | .usize | .ptr _ => .int
  | .u64 => .u64
  | .vector _ _ => .vector
  | ty => .other ty

def tyOf (decls : List LocalDecl) (l : Local) : OliveType :=
  match decls[l]? with
  | some decl => decl.ty
  | none => .any

section Lowering

variable (decls : List LocalDecl)

def Operand.ty : Operand → OliveType
  | .copy l | .move l => tyOf decls l
  | .const _ => .any

def Operand.class : Operand → OperandClass
  | .copy l | .move l => classOf (tyOf decls l)
  | .const (.str _) => .other .str
  | .const (.float _) => .other .float
  | .const _ => .int

def OperandClass.isU64 : OperandClass → Bool
  | .u64 => true
  | _ => false

def OperandClass.isNative : OperandClass → Bool
  | .other _ => false
  | _ => true

/-- Passed on to the runtime, words have no sign. -/
def OperandClass.passed : OperandClass → OperandClass
  | .u64 => .int
  | c => c

def Rvalue.mapOperands (g : Operand → Operand) : Rvalue → Rvalue
  | .use op => .use (g op)
  | .binaryOp op a b => .binaryOp op (g a) (g b)
  | .unaryOp op a => .unaryOp op (g a)
  | .call func args => .call (g func) (args.map g)
  | .aggregate kind ops => .aggregate kind (ops.map g)
  | .cast op ty => .cast (g op) ty
  | .getAttr obj attr => .getAttr (g obj) attr
  | .getIndex obj idx unchecked => .getIndex (g obj) (g idx) unchecked
  | .getTag op => .getTag (g op)
  | .getTypeId op => .getTypeId (g op)
  | .ref l => .ref l
  | .mutRef l => .mutRef l
  | .vectorSplat op width => .vectorSplat (g op) width
  | .vectorLoad obj idx width => .vectorLoad (g obj) (g idx) width
  | .vectorFma a b c => .vectorFma (g a) (g b) (g c)
  | .vectorReduce op vec width => .vectorReduce op (g vec) width
  | .ptrLoad op => .ptrLoad (g op)
  | .fatPtrData op => .fatPtrData (g op)
  | .vtableLoad vtable idx => .vtableLoad (g vtable) idx
  | .genOf op => .genOf (g op)

/-- An rvalue without its operands: what is left of it for the runtime to tell apart. -/
def Rvalue.skeleton (rval : Rvalue) : Rvalue := rval.mapOperands fun _ => .const .none

/-- The operands evaluated, a borrowed local as a copy of its variable. -/
def Rvalue.inputs : Rvalue → List Operand
  | .ref l | .mutRef l => [.copy l]
  | rval => rval.operands

def Rvalue.callee? : Rvalue → Option String
  | .call (.const (.function name)) _ => some name
  | _ => none

/-- The operations codegen emits inline, and the calls into the runtime for all others. -/
inductive Instr where
  | move
  | binary (op : BinOp) (unsigned : Bool)
  | unary (op : UnaryOp)
  | listGet (unchecked : Bool)
  | splat (width : Nat)
  | vectorLoad (width : Nat)
  | fma
  | reduce (op : BinOp) (width : Nat)
  | runtime (callee : Option String) (rval : Rvalue) (classes : List OperandClass)

/-- The operators with an integer lowering of their own. -/
def BinOp.isNative : BinOp → Bool
  | .pow | .isIn | .notIn | .coalesce => false
  | _ => true

/-- Whether `op` is emitted in its unsigned form: the shift looks at its left operand only. -/
def BinOp.unsigned (op : BinOp) (lhs rhs : OperandClass) : Bool :=
  match op with
  | .div | .mod | .lt | .ltEq | .gt | .gtEq => lhs.isU64 || rhs.isU64
  | .shr => lhs.isU64
  | _ => false

def OliveType.isList : OliveType → Bool
  | .list _ | .tuple _ | .set _ | .bytes => true
  | _ => false

def lower (rval : Rvalue) : Instr :=
  let passed := rval.inputs.map fun op => (op.class decls).passed
  match rval with
  | .use _ | .ref _ | .mutRef _ => .move
  | .binaryOp op a b =>
    if op.isNative ∧ (a.class decls).isNative ∧ (b.class decls).isNative then
      .binary op (op.unsigned (a.class decls) (b.class decls))
    else .runtime none rval.skeleton [a.class decls, b.class decls]
  | .unaryOp op a =>
    if (a.class decls).isNative then .unary op else .runtime none rval.skeleton passed
  | .getIndex obj _ unchecked =>
    if (obj.ty decls).concrete.isList then .listGet unchecked
    else .runtime none rval.skeleton passed
  | .vectorSplat _ width => .splat width
  | .vectorLoad _ _ width => .vectorLoad width
  | .vectorFma _ _ _ => .fma
  | .vectorReduce op _ width => .reduce op width
  | _ => .runtime rval.callee? rval.skeleton passed

/-- How a store is emitted. -/
inductive StoreInstr where
  | elem (unchecked bytes : Bool)
  | lanes
  | runtime (kind : StatementKind) (classes : List OperandClass)

/-- Whether `obj[idx] = val` is emitted inline rather than as a call into the runtime. -/
def storesInline (obj val : Operand) : Bool :=
  (match (obj.ty decls).concrete with
    | .dict _ _ | .struct _ _ _ | .pyObject | .any | .enum _ _ => false
    | _ => true) &&
  (match val with
    | .copy src => !(tyOf decls src).isPyValue
    | _ => true)

def OliveType.isBytes : OliveType → Bool
  | .bytes => true
  | _ => false

/-- A statement without its operands. -/
def StatementKind.skeleton : StatementKind → StatementKind
  | .setAttr _ attr _ => .setAttr (.const .none) attr (.const .none)
  | .setIndex _ _ _ unchecked => .setIndex (.const .none) (.const .none) (.const .none) unchecked
  | .vectorStore _ _ _ => .vectorStore (.const .none) (.const .none) (.const .none)
  | .ptrStore _ _ => .ptrStore (.const .none) (.const .none)
  | kind => kind

/-- The operands a store evaluates. -/
def StatementKind.stored : StatementKind → List Operand
  | .setIndex obj idx val _ | .vectorStore obj idx val => [obj, idx, val]
  | .setAttr obj _ val | .ptrStore obj val => [obj, val]
  | _ => []

def lowerStore (kind : StatementKind) : StoreInstr :=
  match kind with
  | .setIndex obj _ val unchecked =>
    if storesInline decls obj val then .elem unchecked (obj.ty decls).concrete.isBytes
    else .runtime kind.skeleton (kind.stored.map fun op => (op.class decls).passed)
  | .vectorStore _ _ _ => .lanes
  | _ => .runtime kind.skeleton (kind.stored.map fun op => (op.class decls).passed)

end Lowering

def boolWord (b : Bool) : Word := if b then 1 else 0

/-- Integer arithmetic as release builds have it: wrapping, with the faults of division. -/
def wordBinary (op : BinOp) (unsigned : Bool) (l r : Word) : Except Fault Word :=
  match op with
  | .add => .ok (l + r)
  | .sub => .ok (l - r)
  | .mul => .ok (l * r)
  | .div =>
    if r = 0 then .error (.divZero false)
    else if unsigned then .ok (l / r)
    else if l = BitVec.intMin 64 ∧ r = -1 then .error (.divOverflow false)
    else .ok (l.sdiv r)
  | .mod =>
    if r = 0 then .error (.divZero true)
    else if unsigned then .ok (l % r)
    else if l = BitVec.intMin 64 ∧ r = -1 then .error (.divOverflow true)
    else .ok (l.srem r)
  | .eq => .ok (boolWord (l = r))
  | .notEq => .ok (boolWord (l ≠ r))
  | .lt => .ok (boolWord (if unsigned then l.ult r else l.slt r))
  | .ltEq => .ok (boolWord (if unsigned then l.ule r else l.sle r))
  | .gt => .ok (boolWord (if unsigned then r.ult l else r.slt l))
  | .gtEq => .ok (boolWord (if unsigned then r.ule l else r.sle l))
  | .and | .bitAnd => .ok (l &&& r)
  | .or | .bitOr => .ok (l ||| r)
  | .bitXor => .ok (l ^^^ r)
  | .shl => .ok (l <<< (r.toNat % 64))
  | .shr => .ok (if unsigned then l >>> (r.toNat % 64) else l.sshiftRight (r.toNat % 64))
  | .pow | .isIn | .notIn | .coalesce => .error .trap

def wordUnary (op : UnaryOp) (w : Word) : Word :=
  match op with
  | .neg => -w
  | .pos => w
  | .not => boolWord (w = 0)
  | .bitNot => ~~~w

/-- Vectors have the wrapping operators only. -/
def lanesBinary (op : BinOp) (ls rs : List Word) : Except Fault (List Word) :=
  match op with
  | .add => .ok (ls.zipWith (· + ·) rs)
  | .sub => .ok (ls.zipWith (· - ·) rs)
  | .mul => .ok (ls.zipWith (· * ·) rs)
  | .bitAnd => .ok (ls.zipWith (· &&& ·) rs)
  | .bitOr => .ok (ls.zipWith (· ||| ·) rs)
  | .bitXor => .ok (ls.zipWith (· ^^^ ·) rs)
  | _ => .error .trap

def valBinary (op : BinOp) (unsigned : Bool) : Val → Val → Except Fault Val
  | .word l, .word r => (wordBinary op unsigned l r).map .word
  | .lanes ls, .lanes rs => (lanesBinary op ls rs).map .lanes
  | _, _ => .error .trap

/-- The position a checked access goes to: negative indices count from the end. -/
def checkedIndex (idx len : Word) : Except Fault Word :=
  let final := if idx.slt 0 then idx + len else idx
  if final.ult len then .ok final else .error (.bounds idx len)

def elemIndex (unchecked : Bool) (xs : List Word) (idx : Word) : Except Fault Word :=
  if unchecked then .ok idx else checkedIndex idx (BitVec.ofNat 64 xs.length)

section Eval

variable {W : Type}

/-- The list at `obj`, which must not be null. -/
def World.listAt (w : World W) (obj : Word) : Except Fault (List Word) :=
  if obj = 0 then .error .nilIndex
  else match w.lists obj with
    | some xs => .ok xs
    | none => .error .wild

def loadElem (unchecked : Bool) (obj idx : Word) (w : World W) : Except Fault Word :=
  (w.listAt obj).bind fun xs =>
    (elemIndex unchecked xs idx).bind fun i =>
      match xs[i.toNat]? with
      | some v => .ok v
      | none => .error .wild

def storeElem (unchecked : Bool) (obj idx v : Word) (w : World W) : Except Fault (World W) :=
  (w.listAt obj).bind fun xs =>
    (elemIndex unchecked xs idx).bind fun i =>
      if i.toNat < xs.length then
        .ok { w with lists := fun a => if a = obj then some (xs.set i.toNat v) else w.lists a }
      else .error .wild

/-- `width` elements from `idx` on, with no check of any kind. -/
def loadLanes (width : Nat) (obj idx : Word) (w : World W) : Except Fault (List Word) :=
  match w.lists obj with
  | some xs =>
    if idx.toNat + width ≤ xs.length then .ok ((xs.drop idx.toNat).take width) else .error .wild
  | none => .error .wild

def setLanes (xs : List Word) (i : Nat) (ws : List Word) : List Word :=
  ws.zipIdx.foldl (fun xs p => xs.set (i + p.2) p.1) xs

def storeLanes (obj idx : Word) (ws : List Word) (w : World W) : Except Fault (World W) :=
  match w.lists obj with
  | some xs =>
    if idx.toNat + ws.length ≤ xs.length then
      .ok { w with
        lists := fun a => if a = obj then some (setLanes xs idx.toNat ws) else w.lists a }
    else .error .wild
  | none => .error .wild

def reduceLanes (op : BinOp) : List Word → Except Fault Word
  | [] => .error .trap
  | w :: ws => ws.foldlM (wordBinary op false) w

variable (rt : Runtime W)

def Instr.eval : Instr → List Val → World W → Except Fault (Val × World W)
  | .move, [v], w => .ok (v, w)
  | .binary op unsigned, [l, r], w => (valBinary op unsigned l r).map (·, w)
  | .unary op, [.word v], w => .ok (.word (wordUnary op v), w)
  | .listGet unchecked, [.word obj, .word idx], w =>
    (loadElem unchecked obj idx w).map (.word ·, w)
  | .splat width, [.word v], w => .ok (.lanes (List.replicate width v), w)
  | .vectorLoad width, [.word obj, .word idx], w => (loadLanes width obj idx w).map (.lanes ·, w)
  | .fma, [.lanes a, .lanes b, .lanes c], w =>
    .ok (.lanes ((a.zipWith (· * ·) b).zipWith (· + ·) c), w)
  | .reduce op _, [.lanes ws], w => (reduceLanes op ws).map (.word ·, w)
  | .runtime callee rval classes, vals, w => rt.rvalue callee rval classes vals w
  | _, _, _ => .error .trap

/-- Byte strings keep the low byte of what is stored. -/
def StoreInstr.exec : StoreInstr → List Val → World W → Except Fault (World W)
  | .elem unchecked bytes, [.word obj, .word idx, .word v], w =>
    storeElem unchecked obj idx (if bytes then v &&& 255 else v) w
  | .lanes, [.word obj, .word idx, .lanes ws], w => storeLanes obj idx ws w
  | .runtime kind classes, vals, w => rt.store kind classes vals w
  | _, _, _ => .error .trap

end Eval

/-- Types whose variables are not a word or a vector wide. -/
def OliveType.isNarrow : OliveType → Bool
  | .i8 | .i16 | .i32 | .u8 | .u16 | .u32 | .bool | .float | .f32 => true
  | _ => false

/-- The variables, the world, and the calls and stores so far. -/
structure State (W : Type) where
  locals : Local → Val
  world : World W
  log : List Event

/-- A statement of a block, or its terminator when `idx` is past the last one. -/
structure Point (W : Type) where
  bb : BasicBlockId
  idx : Nat
  state : State W

inductive Outcome (W : Type) where
  | returned (v : Val) (world : World W) (log : List Event)
  | faulted (e : Fault) (world : World W) (log : List Event)

def setLocal (locals : Local → Val) (l : Local) (v : Val) : Local → Val :=
  fun x => if x = l then v else locals x

def Operand.isPyObject (decls : List LocalDecl) (op : Operand) : Bool :=
  match op.ty decls with
  | .pyObject => true
  | _ => false

namespace Runtime

variable {W : Type} (rt : Runtime W) (decls : List LocalDecl)

def fit (ty : OliveType) (v : Val) : Val := if ty.isNarrow then rt.narrow ty v else v

def constant : Constant → Word
  | .int v => v
  | .float bits => bits
  | .bool b => boolWord b
  | .none => 0
  | c => rt.address c

/-- A moved-out variable is zeroed. -/
def evalOperand (locals : Local → Val) : Operand → Val × (Local → Val)
  | .copy l => (locals l, locals)
  | .move l => (locals l, setLocal locals l (locals l).zeroed)
  | .const c => (.word (rt.constant c), locals)

def evalOperands (locals : Local → Val) : List Operand → List Val × (Local → Val)
  | [] => ([], locals)
  | op :: ops =>
    let first := rt.evalOperand locals op
    let rest := evalOperands first.2 ops
    (first.1 :: rest.1, rest.2)

/-- What an rvalue adds to the log: a call, with its arguments. -/
def callEvents (rval : Rvalue) (vals : List Val) : List Event :=
  match rval with
  | .call _ _ => [.call rval.callee? vals]
  | _ => []

def runAssign (s : State W) (dst : Local) (rval : Rvalue) : Except Fault (State W) :=
  let evaluated := rt.evalOperands s.locals rval.inputs
  ((lower decls rval).eval rt evaluated.1 s.world).map fun r =>
    ⟨setLocal evaluated.2 dst (rt.fit (tyOf decls dst) r.1), r.2,
      s.log ++ callEvents rval evaluated.1⟩

def runStore (s : State W) (kind : StatementKind) : Except Fault (State W) :=
  let evaluated := rt.evalOperands s.locals kind.stored
  ((lowerStore decls kind).exec rt evaluated.1 s.world).map fun w =>
    ⟨evaluated.2, w, s.log ++ [.store evaluated.1]⟩

def runDrop (s : State W) (l : Local) : State W :=
  if (tyOf decls l).needsDrop then
    ⟨setLocal s.locals l (.word 0), rt.free (tyOf decls l) (s.locals l) s.world, s.log⟩
  else s

def execStmt (s : State W) (stmt : Statement) : Except Fault (State W) :=
  match stmt.kind with
  | .assign dst rval => rt.runAssign decls s dst rval
  | .setIndex _ _ _ _ | .vectorStore _ _ _ | .setAttr _ _ _ | .ptrStore _ _ =>
    rt.runStore decls s stmt.kind
  | .storageLive _ | .storageDead _ => .ok s
  | .drop l => .ok (rt.runDrop decls s l)
  | .genCheck value generation =>
    if rt.stale (tyOf decls value) (s.locals value) (s.locals generation) s.world then
      .error (.staleRef value)
    else .ok s

/-- The block a `SwitchInt` goes to: a Python value with one target compares for inequality unless
the target is zero. -/
def switchTarget (isPyObject : Bool) (targets : List (Word × BasicBlockId))
    (otherwise : BasicBlockId) (v : Val) (w : World W) : BasicBlockId :=
  let cond := if isPyObject then rt.pyToInt v w else v.toWord
  match isPyObject, targets with
  | true, [(value, target)] =>
    if (if value = 0 then cond = 0 else cond ≠ value) then target else otherwise
  | _, _ => (targets.lookup cond).getD otherwise

/-- A block without a terminator returns zero. -/
def execTerm (s : State W) (term : Option Terminator) : (BasicBlockId × State W) ⊕ Outcome W :=
  match term with
  | some ⟨.goto target, _⟩ => .inl (target, s)
  | some ⟨.switchInt discr targets otherwise, _⟩ =>
    let evaluated := rt.evalOperand s.locals discr
    .inl (rt.switchTarget (discr.isPyObject decls) targets otherwise evaluated.1 s.world,
      ⟨evaluated.2, s.world, s.log⟩)
  | some ⟨.ret, _⟩ => .inr (.returned (s.locals 0) s.world s.log)
  | some ⟨.unreachable, _⟩ => .inr (.faulted .trap s.world s.log)
  | none => .inr (.returned (.word 0) s.world s.log)

def step (f : MirFunction) (p : Point W) : Point W ⊕ Outcome W :=
  match f.basicBlocks[p.bb]? with
  | none => .inr (.faulted .trap p.state.world p.state.log)
  | some block =>
    match block.statements[p.idx]? with
    | some stmt =>
      match rt.execStmt f.locals p.state stmt with
      | .ok s => .inl ⟨p.bb, p.idx + 1, s⟩
      | .error e => .inr (.faulted e p.state.world p.state.log)
    | none =>
      match rt.execTerm f.locals p.state block.terminator with
      | .inl (bb, s) => .inl ⟨bb, 0, s⟩
      | .inr o => .inr o

end Runtime

/-- A runtime whose calls all fault: enough for functions on words and lists. -/
def plainRuntime : Runtime Unit where
  address := fun _ => 0
  narrow := fun _ v => v
  rvalue := fun _ _ _ _ _ => .error .trap
  store := fun _ _ _ _ => .error .trap
  free := fun _ _ w => w
  stale := fun _ _ _ _ => false
  pyToInt := fun v _ => v.toWord

def emptyWorld : World Unit := ⟨fun _ => none, ()⟩

def plainTerm (kind : TerminatorKind) : Option Terminator := some ⟨kind, .default⟩

def plainDecl (ty : OliveType) : LocalDecl := ⟨ty, none, .default, true, true⟩

/-- A function of the given parameters and locals, the return slot first. -/
def plainFunction (name : String) (argCount : Nat) (tys : List OliveType)
    (blocks : List BasicBlock) : MirFunction :=
  ⟨name, tys.map plainDecl, blocks, argCount, none, none, [], false⟩

/-- The arguments in the parameters `_1`, ..., zero in all other locals. -/
def startPoint {W : Type} (args : List Val) (w : World W) : Point W :=
  ⟨0, 0, ⟨fun l => if l = 0 then .word 0 else args.getD (l - 1) (.word 0), w, []⟩⟩

/-- The run on `args` returns `v`. -/
def Returns {W : Type} (rt : Runtime W) (f : MirFunction) (args : List Val) (w : World W) (v : Val) :
    Prop :=
  ∃ final log, Yields (rt.step f) (startPoint args w) (.returned v final log)

def returned? {W : Type} : Point W ⊕ Outcome W → Option Val
  | .inr (.returned v _ _) => some v
  | _ => none

section Returns

variable {W : Type} {rt : Runtime W} {f : MirFunction} {args : List Val} {w : World W} {v v' : Val}

theorem returns_of_runs (n : Nat)
    (h : returned? (runs (rt.step f) n (startPoint args w)) = some v) : Returns rt f args w v := by
  unfold returned? at h
  split at h
  next u final log he =>
    obtain rfl := Option.some.inj h
    exact ⟨final, log, n, he⟩
  next => simp at h

theorem not_returns_of_runs (n : Nat)
    (h : returned? (runs (rt.step f) n (startPoint args w)) = some v') (hne : v' ≠ v) :
    ¬Returns rt f args w v := by
  intro hv
  obtain ⟨final, log, m, hm⟩ := hv
  obtain ⟨final', log', n, hn⟩ := returns_of_runs n h
  have he := runs_end_unique hn hm
  exact hne (Outcome.returned.inj he).1

/-- The fault a run has ended with. -/
def faulted? {W : Type} : Point W ⊕ Outcome W → Option Fault
  | .inr (.faulted e _ _) => some e
  | _ => none

theorem not_returns_of_faults (n : Nat)
    (h : (faulted? (runs (rt.step f) n (startPoint args w))).isSome = true) :
    ¬Returns rt f args w v := by
  intro hv
  obtain ⟨final, log, m, hm⟩ := hv
  unfold faulted? at h
  split at h
  next e final' log' he =>
    have hend := runs_end_unique he hm
    simp at hend
  next => simp at h

end Returns

end Olive
