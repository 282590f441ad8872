import Olive.MachineFrame

/-! Functions that call themselves: each call is an activation of its own, whose variables have the
types that codegen declares. -/

namespace Olive

namespace Activation

inductive ClType where
  | int (width : Nat)
  | f32 | f64 | vector
  deriving DecidableEq

/-- A value in generated code. -/
inductive ClValue where
  | int (width : Nat) (v : BitVec width)
  | f32 (bits : BitVec 32)
  | f64 (bits : Word)
  | vector (lanes : List Word)
  deriving DecidableEq

def ClValue.type : ClValue → ClType
  | .int width _ => .int width
  | .f32 _ => .f32
  | .f64 _ => .f64
  | .vector _ => .vector

def isNumber : OliveType → Bool
  | .int | .i8 | .i16 | .i32 | .u8 | .u16 | .u32 | .u64 | .usize | .bool | .float | .f32 => true
  | _ => false

/-- `cl_type`. -/
def clType : OliveType → ClType
  | .i32 | .u32 => .int 32
  | .i16 | .u16 => .int 16
  | .i8 | .u8 | .bool => .int 8
  | .float => .f64
  | .f32 => .f32
  | .vector item _ => if isNumber item then .vector else .int 64
  | _ => .int 64

/-- `typed_zero`. -/
def ClType.zero : ClType → ClValue
  | .int width => .int width 0
  | .f32 => .f32 0
  | .f64 => .f64 0
  | .vector => .vector []

@[simp] theorem ClType.zero_type (t : ClType) : t.zero.type = t := by
  cases t with
  | _ => rfl

/-- What a variable of type `t` holds. -/
def ClType.read (t : ClType) (v : ClValue) : ClValue := if v.type = t then v else t.zero

theorem ClType.read_of_type {t : ClType} {v : ClValue} (h : v.type = t) : t.read v = v := if_pos h

@[simp] theorem ClType.read_type (t : ClType) (v : ClValue) : (t.read v).type = t := by
  unfold ClType.read
  split
  next h => exact h
  next => exact t.zero_type

/-- Conversions of the target machine. -/
structure FloatConversions where
  demote : Word → BitVec 32
  promote : BitVec 32 → Word
  /-- `fcvt_to_sint`. -/
  f32ToSint : (width : Nat) → BitVec 32 → BitVec width
  f64ToSint : (width : Nat) → Word → BitVec width
  /-- `fcvt_from_sint`. -/
  sintToF32 : (width : Nat) → BitVec width → BitVec 32
  sintToF64 : (width : Nat) → BitVec width → Word

/-- The runtime library and whatever else codegen leaves to the target: any functions at all. -/
structure ActivationRuntime (W : Type) where
  conversions : FloatConversions
  /-- `__olive_py_to_float`. -/
  pyToFloat : ClValue → W → Word
  /-- `__olive_py_to_int`. -/
  pyToInt : ClValue → W → Word
  /-- The address of a string, function or global. -/
  address : Constant → Word
  rvalue : Rvalue → List ClValue → W → Except Fault (ClValue × W)
  store : StatementKind → List ClValue → W → Except Fault W
  free : OliveType → ClValue → W → W
  stale : OliveType → ClValue → ClValue → W → Bool

/-- What an assignment knows of its rvalue: `PtrLoad` and `__olive_debug_load` give `f32` bits in
the low word, a call `f64` bits, and a variable of a Python object is converted by the runtime. -/
inductive Source where
  | load | call | pyObject | other
  deriving DecidableEq

def isSigned : OliveType → Bool
  | .int | .i32 | .i16 | .i8 => true
  | _ => false

section Conversions

variable {W : Type} (rt : ActivationRuntime W)

/-- The conversion of an assignment to the type of its variable. -/
def convert (source : Source) (ty : OliveType) (w : W) (v : ClValue) : ClValue :=
  if v.type = clType ty then v
  else
    match clType ty, v with
    | .f32, .int width x =>
      if source = .load ∧ width = 64 then .f32 (x.setWidth 32)
      else if source = .call ∧ width = 64 then .f32 (rt.conversions.demote (x.setWidth 64))
      else if source = .pyObject then .f32 (rt.conversions.demote (rt.pyToFloat v w))
      else if width = 32 then .f32 (x.setWidth 32)
      else .f32 (rt.conversions.sintToF32 width x)
    | .f64, .int width x =>
      if source = .pyObject then .f64 (rt.pyToFloat v w)
      else if width = 64 then .f64 (x.setWidth 64)
      else .f64 (rt.conversions.sintToF64 width x)
    | .f32, .f64 bits => .f32 (rt.conversions.demote bits)
    | .f64, .f32 bits => .f64 (rt.conversions.promote bits)
    | .int n, .int _ x => .int n (if isSigned ty then x.signExtend n else x.setWidth n)
    | .int n, .f64 bits => .int n (if n = 64 then bits.setWidth n else rt.conversions.f64ToSint n bits)
    | .int n, .f32 bits => .int n (if n = 32 then bits.setWidth n else rt.conversions.f32ToSint n bits)
    | _, v => v

/-- The conversion of an argument to the type of its parameter. -/
def pass (signed : Bool) (param : ClType) (v : ClValue) : ClValue :=
  match v, param with
  | .f64 bits, .int 64 => .int 64 bits
  | .f64 bits, .f32 => .f32 (rt.conversions.demote bits)
  | .f32 bits, .int 64 => .int 64 (bits.setWidth 64)
  | .f32 bits, .f64 => .f64 (rt.conversions.promote bits)
  | .int 64 x, .f64 => .f64 x
  | .int 64 x, .f32 => .f32 (x.setWidth 32)
  | .int width x, .int 64 =>
    if width < 64 then .int 64 (if signed then x.signExtend 64 else x.setWidth 64) else v
  | v, _ => v

end Conversions

abbrev Locals := Local → ClValue

structure ActState (W : Type) where
  locals : Locals
  world : W

structure ActPoint (W : Type) where
  bb : BasicBlockId
  idx : Nat
  state : ActState W

section Exec

variable {W : Type} (rt : ActivationRuntime W) (decls : List LocalDecl)

def readLocal (locals : Locals) (l : Local) : ClValue := (clType (tyOf decls l)).read (locals l)

def setLocal (locals : Locals) (l : Local) (v : ClValue) : Locals := fun x => if x = l then v else locals x

def constant : Constant → ClValue
  | .int v => .int 64 v
  | .float bits => .f64 bits
  | .bool b => .int 64 (boolWord b)
  | .none => .int 64 0
  | c => .int 64 (rt.address c)

def moveOut (locals : Locals) (l : Local) : Locals := setLocal locals l (clType (tyOf decls l)).zero

def evalOperand (locals : Locals) : Operand → ClValue × Locals
  | .copy l => (readLocal decls locals l, locals)
  | .move l => (readLocal decls locals l, moveOut decls locals l)
  | .const c => (constant rt c, locals)

def evalOperands (locals : Locals) : List Operand → List ClValue × Locals
  | [] => ([], locals)
  | op :: ops =>
    let first := evalOperand rt decls locals op
    let rest := evalOperands first.2 ops
    (first.1 :: rest.1, rest.2)

def source : Rvalue → Source
  | .ptrLoad _ => .load
  | .call (.const (.function name)) _ => if name = "__olive_debug_load" then .load else .call
  | .use (.copy l) | .use (.move l) =>
    match tyOf decls l with
    | .pyObject => .pyObject
    | _ => .other
  | _ => .other

def evalRvalue (rval : Rvalue) (vals : List ClValue) (w : W) : Except Fault (ClValue × W) :=
  match rval with
  | .use _ => .ok (vals.headD (.int 64 0), w)
  | _ => rt.rvalue rval vals w

/-- An assigned variable holds the converted value. -/
def assign (rval : Rvalue) (dst : Local) (locals : Locals) (v : ClValue) (w : W) : ActState W :=
  ⟨setLocal locals dst (convert rt (source decls rval) (tyOf decls dst) w v), w⟩

def execStmt (s : ActState W) (stmt : Statement) : Except Fault (ActState W) :=
  match stmt.kind with
  | .assign dst rval =>
    let evaluated := evalOperands rt decls s.locals rval.inputs
    (evalRvalue rt rval evaluated.1 s.world).map fun r => assign rt decls rval dst evaluated.2 r.1 r.2
  | .storageLive _ | .storageDead _ => .ok s
  | .drop l =>
    .ok (if (tyOf decls l).needsDrop then
      ⟨moveOut decls s.locals l, rt.free (tyOf decls l) (readLocal decls s.locals l) s.world⟩
    else s)
  | .genCheck value generation =>
    if rt.stale (tyOf decls value) (readLocal decls s.locals value)
        (readLocal decls s.locals generation) s.world then
      .error (.staleRef value)
    else .ok s
  | kind =>
    let evaluated := evalOperands rt decls s.locals kind.stored
    (rt.store kind evaluated.1 s.world).map fun w => ⟨evaluated.2, w⟩

/-- A switch compares the low bits of its targets. A Python value with one target compares for
inequality unless the target is zero. -/
def switchTarget (isPyObject : Bool) (targets : List (Word × BasicBlockId))
    (otherwise : BasicBlockId) (v : ClValue) (w : W) : BasicBlockId :=
  match isPyObject, targets with
  | true, [(value, target)] =>
    if (if value = 0 then rt.pyToInt v w = 0 else rt.pyToInt v w ≠ value) then target else otherwise
  | true, targets => (targets.lookup (rt.pyToInt v w)).getD otherwise
  | false, targets =>
    match v with
    | .int n x => ((targets.find? fun t => t.1.setWidth n = x).map (·.2)).getD otherwise
    | _ => otherwise

abbrev ActOutcome (W : Type) := Except Fault (ClValue × W)

/-- A block without a terminator returns zero. -/
def execTerm (s : ActState W) (term : Option Terminator) : (BasicBlockId × ActState W) ⊕ ActOutcome W :=
  match term with
  | some ⟨.goto target, _⟩ => .inl (target, s)
  | some ⟨.switchInt discr targets otherwise, _⟩ =>
    let evaluated := evalOperand rt decls s.locals discr
    .inl (switchTarget rt (discr.isPyObject decls) targets otherwise evaluated.1 s.world,
      ⟨evaluated.2, s.world⟩)
  | some ⟨.ret, _⟩ => .inr (.ok (readLocal decls s.locals 0, s.world))
  | some ⟨.unreachable, _⟩ => .inr (.error .trap)
  | none => .inr (.ok ((clType (tyOf decls 0)).zero, s.world))

end Exec

/-- A call of the function by itself. A call of an async function makes a future, and is the
runtime's. -/
def selfCall? (f : MirFunction) (stmt : Statement) : Option (Local × Rvalue × List Operand) :=
  match stmt.kind with
  | .assign dst (.call (.const (.function name)) args) =>
    if name = f.name ∧ args.length = f.argCount ∧ f.isAsync = false then
      some (dst, .call (.const (.function name)) args, args)
    else none
  | _ => none

section Run

variable {W : Type} (rt : ActivationRuntime W) (f : MirFunction)

/-- Arguments narrower than a word are extended by the sign of their type. -/
def isSignedOperand (decls : List LocalDecl) (op : Operand) : Bool :=
  match op.local? with
  | none => false
  | some l =>
    match (tyOf decls l).concrete with
    | .i8 | .i16 | .i32 => true
    | _ => false

def passed (args : List Operand) (vals : List ClValue) : List ClValue :=
  (args.zip vals).mapIdx fun j a =>
    pass rt (isSignedOperand f.locals a.1) (clType (tyOf f.locals (j + 1))) a.2

/-- Parameters hold the arguments, other variables zero. -/
def startLocals (vals : List ClValue) : Locals
  | 0 => (clType (tyOf f.locals 0)).zero
  | j + 1 => vals.getD j (clType (tyOf f.locals (j + 1))).zero

def start (vals : List ClValue) (w : W) : ActPoint W := ⟨0, 0, ⟨startLocals f vals, w⟩⟩

/-- `none` is a run that takes more steps, its calls' steps included. -/
def run : Nat → ActPoint W → Option (ActOutcome W)
  | 0, _ => none
  | fuel + 1, p =>
    match f.basicBlocks[p.bb]? with
    | none => some (.error .trap)
    | some block =>
      match block.statements[p.idx]? with
      | some stmt =>
        match selfCall? f stmt with
        | some (dst, rval, args) =>
          let evaluated := evalOperands rt f.locals p.state.locals args
          match run fuel (start f (passed rt f args evaluated.1) p.state.world) with
          | some (.ok (v, w)) => run fuel ⟨p.bb, p.idx + 1, assign rt f.locals rval dst evaluated.2 v w⟩
          | r => r
        | none =>
          match execStmt rt f.locals p.state stmt with
          | .ok s => run fuel ⟨p.bb, p.idx + 1, s⟩
          | .error e => some (.error e)
      | none =>
        match execTerm rt f.locals p.state block.terminator with
        | .inl (bb, s) => run fuel ⟨bb, 0, s⟩
        | .inr o => some o

theorem run_no_block {rt f} {p : ActPoint W} {n : Nat} (hb : f.basicBlocks[p.bb]? = none) :
    run rt f (n + 1) p = some (.error .trap) := by
  simp only [run, hb]

/-- The function ends on these arguments, with this outcome. -/
def Ends (vals : List ClValue) (w : W) (o : ActOutcome W) : Prop := ∃ fuel, run rt f fuel (start f vals w) = some o

end Run

end Activation

end Olive
