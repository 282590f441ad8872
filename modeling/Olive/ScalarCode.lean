import Olive.MachineFrame

/-! Functions whose locals are integers and booleans: their variables have the widths of their types,
and their operators the instructions that codegen emits inline. -/

namespace Olive

open Lockstep

namespace ScalarCode

/-- The integer family and `bool`. -/
def isIntLike : OliveType → Bool
  | .int | .i8 | .i16 | .i32 | .u8 | .u16 | .u32 | .u64 | .usize | .bool => true
  | _ => false

def isFloatLike : OliveType → Bool
  | .float | .f32 => true
  | _ => false

/-- The bits of `cl_type`. -/
def width : OliveType → Nat
  | .i32 | .u32 => 32
  | .i16 | .u16 => 16
  | .i8 | .u8 | .bool => 8
  | _ => 64

/-- A value while it is computed. -/
inductive ClValue where
  | int (width : Nat) (v : BitVec width)
  | f64 (bits : Word)

/-- Arithmetic of `f64`, in the compiler and in the code it generates. -/
structure FloatOps where
  add : Word → Word → Word
  sub : Word → Word → Word
  mul : Word → Word → Word
  div : Word → Word → Word
  eq : Word → Word → Bool
  lt : Word → Word → Bool
  le : Word → Word → Bool

/-- The runtime library and whatever else codegen leaves to the target: any functions at all. -/
structure ScalarRuntime (W : Type) where
  float : FloatOps
  address : Constant → Word
  /-- Instructions on values of two types, to which the target gives no meaning. -/
  mixed : BinOp → ClValue → ClValue → Except Fault ClValue
  mixedUnary : UnaryOp → ClValue → ClValue
  /-- `fcvt_to_sint`. -/
  toInt : (width : Nat) → Word → BitVec width
  rvalue : Rvalue → List ClValue → W → Except Fault (ClValue × W)
  stmt : StatementKind → (Local → Word) → W → Except Fault ((Local → Word) × W)

def bool (b : Bool) : ClValue := .int 64 (boolWord b)

/-- `emit_checked_arith`, or the wrapping instruction. -/
def arith (checked unsigned overflow : Bool) (kind : Nat) {n : Nat} (v : BitVec n) :
    Except Fault ClValue :=
  if checked ∧ overflow then .error (.runtime (if unsigned then kind + 3 else kind))
  else .ok (.int n v)

/-- Division and remainder: the overflow check compares with `i64::MIN` cut to the width, and on a
narrower integer the instruction itself traps. -/
def divide (unsigned isMod : Bool) {n : Nat} (l r quot : BitVec n) : Except Fault ClValue :=
  if r = 0 then .error (.divZero isMod)
  else if unsigned then .ok (.int n quot)
  else if l = (BitVec.intMin 64).setWidth n ∧ r = -1 then .error (.divOverflow isMod)
  else if l = BitVec.intMin n ∧ r = -1 ∧ isMod = false then .error .trap
  else .ok (.int n quot)

/-- An operator on two integers of one width. -/
def intBinary (checked unsigned : Bool) (op : BinOp) {n : Nat} (l r : BitVec n) :
    Except Fault ClValue :=
  match op with
  | .add => arith checked unsigned (if unsigned then l.uaddOverflow r else l.saddOverflow r) 0 (l + r)
  | .sub => arith checked unsigned (if unsigned then l.usubOverflow r else l.ssubOverflow r) 1 (l - r)
  | .mul => arith checked unsigned (if unsigned then l.umulOverflow r else l.smulOverflow r) 2 (l * r)
  | .div => divide unsigned false l r (if unsigned then l / r else l.sdiv r)
  | .mod => divide unsigned true l r (if unsigned then l % r else l.srem r)
  | .eq => .ok (bool (l = r))
  | .notEq => .ok (bool (l ≠ r))
  | .lt => .ok (bool (if unsigned then l.ult r else l.slt r))
  | .ltEq => .ok (bool (if unsigned then l.ule r else l.sle r))
  | .gt => .ok (bool (if unsigned then r.ult l else r.slt l))
  | .gtEq => .ok (bool (if unsigned then r.ule l else r.sle l))
  | .and | .bitAnd => .ok (.int n (l &&& r))
  | .or | .bitOr => .ok (.int n (l ||| r))
  | .bitXor => .ok (.int n (l ^^^ r))
  | _ => .error .trap

/-- Shifts take an amount of any width, modulo the width of what is shifted. -/
def shift (unsigned : Bool) (op : BinOp) {n : Nat} (l : BitVec n) (amount : Nat) : ClValue :=
  .int n (match op with
    | .shl => l <<< (amount % n)
    | _ => if unsigned then l >>> (amount % n) else l.sshiftRight (amount % n))

def BinOp.isShift : BinOp → Bool
  | .shl | .shr => true
  | _ => false

def floatBinary (fl : FloatOps) (op : BinOp) (l r : Word) : Option ClValue :=
  match op with
  | .add => some (.f64 (fl.add l r))
  | .sub => some (.f64 (fl.sub l r))
  | .mul => some (.f64 (fl.mul l r))
  | .div => some (.f64 (fl.div l r))
  | .eq => some (bool (fl.eq l r))
  | .notEq => some (bool (!fl.eq l r))
  | .lt => some (bool (fl.lt l r))
  | .ltEq => some (bool (fl.le l r))
  | .gt => some (bool (fl.lt r l))
  | .gtEq => some (bool (fl.le r l))
  | _ => none

def isStr : Operand → Bool
  | .const (.str _) => true
  | _ => false

/-- Operators that codegen calls the runtime for. -/
def callsRuntime (op : BinOp) (lhs rhs : Operand) : Bool :=
  match op with
  | .pow | .isIn | .notIn | .coalesce => true
  | .add => isStr lhs
  | .eq | .notEq => isStr lhs || isStr rhs
  | _ => false

/-- Whether the unsigned form of `op` is emitted. -/
def unsigned (decls : List LocalDecl) (op : BinOp) (lhs rhs : Operand) : Bool :=
  match op with
  | .shr => (lhs.class decls).isU64
  | _ => (lhs.class decls).isU64 || (rhs.class decls).isU64

/-- The variables and the world. Of a variable's word the low bits count, as many as it is wide. -/
structure ScalarState (W : Type) where
  locals : Local → Word
  world : W

structure ScalarPoint (W : Type) where
  bb : BasicBlockId
  idx : Nat
  state : ScalarState W

section Exec

variable {W : Type} (rt : ScalarRuntime W) (checked : Bool) (decls : List LocalDecl)

def readLocal (locals : Local → Word) (l : Local) : ClValue :=
  .int (width (tyOf decls l)) ((locals l).setWidth _)

def constant : Constant → ClValue
  | .int v => .int 64 v
  | .float bits => .f64 bits
  | .bool b => bool b
  | .none => .int 64 0
  | c => .int 64 (rt.address c)

def moveOut (locals : Local → Word) (l : Local) : Local → Word :=
  fun x => if x = l then 0 else locals x

def evalOperand (locals : Local → Word) : Operand → ClValue × (Local → Word)
  | .copy l => (readLocal decls locals l, locals)
  | .move l => (readLocal decls locals l, moveOut locals l)
  | .const c => (constant rt c, locals)

def evalOperands (locals : Local → Word) : List Operand → List ClValue × (Local → Word)
  | [] => ([], locals)
  | op :: ops =>
    let first := evalOperand rt decls locals op
    let rest := evalOperands first.2 ops
    (first.1 :: rest.1, rest.2)

/-- `translate_binop` after its operands. -/
def binary (op : BinOp) (isUnsigned : Bool) : ClValue → ClValue → Except Fault ClValue
  | .int n l, .int m r =>
    if BinOp.isShift op then .ok (shift isUnsigned op l r.toNat)
    else if h : m = n then intBinary checked isUnsigned op l (r.cast h)
    else rt.mixed op (.int n l) (.int m r)
  | .f64 l, .f64 r => (floatBinary rt.float op l r).elim (rt.mixed op (.f64 l) (.f64 r)) .ok
  | l, r => rt.mixed op l r

/-- `translate_unaryop`. -/
def unary (op : UnaryOp) : ClValue → ClValue
  | .int n v =>
    match op with
    | .neg => .int n (-v)
    | .not => bool (v = 0)
    | .bitNot => .int n (~~~v)
    | .pos => .int n v
  | .f64 bits =>
    match op with
    | .neg => .f64 (bits ^^^ BitVec.intMin 64)
    | .pos => .f64 bits
    | op => rt.mixedUnary op (.f64 bits)

/-- `translate_rvalue`. -/
def evalRvalue (s : ScalarState W) (rval : Rvalue) :
    Except Fault (ClValue × (Local → Word) × W) :=
  match rval with
  | .use op => .ok ((evalOperand rt decls s.locals op).1, (evalOperand rt decls s.locals op).2, s.world)
  | .unaryOp op a =>
    .ok (unary rt op (evalOperand rt decls s.locals a).1, (evalOperand rt decls s.locals a).2, s.world)
  | .binaryOp op a b =>
    let l := evalOperand rt decls s.locals a
    let r := evalOperand rt decls l.2 b
    if callsRuntime op a b then
      (rt.rvalue rval [l.1, r.1] s.world).map fun v => (v.1, r.2, v.2)
    else (binary rt checked op (unsigned decls op a b) l.1 r.1).map fun v => (v, r.2, s.world)
  | _ =>
    let vals := evalOperands rt decls s.locals rval.inputs
    (rt.rvalue rval vals.1 s.world).map fun v => (v.1, vals.2, v.2)

/-- The conversion to the type of the variable that is assigned: narrower integers are extended by
the sign of that type. -/
def convert (ty : OliveType) : ClValue → Word
  | .int _ v =>
    match ty with
    | .int | .i32 | .i16 | .i8 => ((v.signExtend (width ty)).setWidth 64)
    | _ => ((v.setWidth (width ty)).setWidth 64)
  | .f64 bits => if width ty = 64 then bits else (rt.toInt (width ty) bits).setWidth 64

def execAssign (s : ScalarState W) (dst : Local) (rval : Rvalue) :
    Except Fault (ScalarState W) :=
  (evalRvalue rt checked decls s rval).map fun r =>
    ⟨fun x => if x = dst then convert rt (tyOf decls dst) r.1 else r.2.1 x, r.2.2⟩

def execStmt (s : ScalarState W) (stmt : Statement) : Except Fault (ScalarState W) :=
  match stmt.kind with
  | .assign dst rval => execAssign rt checked decls s dst rval
  | .storageLive _ | .storageDead _ => .ok s
  | kind => (rt.stmt kind s.locals s.world).map fun r => ⟨r.1, r.2⟩

/-- Switches compare the low bits of their targets. -/
def switchTarget (targets : List (Word × BasicBlockId)) (otherwise : BasicBlockId) :
    ClValue → BasicBlockId
  | .int n v => ((targets.find? fun t => t.1.setWidth n = v).map (·.2)).getD otherwise
  | .f64 _ => otherwise

def execTerm (s : ScalarState W) (term : Option Terminator) :
    (BasicBlockId × ScalarState W) ⊕ Except Fault (Word × W) :=
  match term with
  | some ⟨.goto target, _⟩ => .inl (target, s)
  | some ⟨.switchInt discr targets otherwise, _⟩ =>
    let v := evalOperand rt decls s.locals discr
    .inl (switchTarget targets otherwise v.1, ⟨v.2, s.world⟩)
  | some ⟨.ret, _⟩ => .inr (.ok (s.locals 0, s.world))
  | some ⟨.unreachable, _⟩ => .inr (.error .trap)
  | none => .inr (.ok (0, s.world))

def step (f : MirFunction) (p : ScalarPoint W) : ScalarPoint W ⊕ Except Fault (Word × W) :=
  match f.basicBlocks[p.bb]? with
  | none => .inr (.error .trap)
  | some block =>
    match block.statements[p.idx]? with
    | some stmt =>
      match execStmt rt checked f.locals p.state stmt with
      | .ok s => .inl ⟨p.bb, p.idx + 1, s⟩
      | .error e => .inr (.error e)
    | none =>
      match execTerm rt f.locals p.state block.terminator with
      | .inl (bb, s) => .inl ⟨bb, 0, s⟩
      | .inr o => .inr o

end Exec

section Rewriting

variable {W : Type} {rt : ScalarRuntime W} {checked : Bool} {f : MirFunction}

theorem evalOperand_unmoved {decls : List LocalDecl} {locals : Local → Word} {op : Operand}
    (h : op.moved? = none) : (evalOperand rt decls locals op).2 = locals := by
  cases op with
  | move l => cases h
  | _ => rfl

/-- Statements replaced where they stand, each by one that does the same, leave the step as it is. -/
theorem step_rewritten {g : MirFunction} {p : ScalarPoint W} {rewrite : BasicBlock → List Statement}
    {at' : BasicBlock → Nat → Statement → Statement} (hlocals : g.locals = f.locals)
    (hblocks : g.basicBlocks = f.basicBlocks.map fun bb => { bb with statements := rewrite bb })
    (hstmts : ∀ block idx, (rewrite block)[idx]? = block.statements[idx]?.map (at' block idx))
    (hexec : ∀ block stmt, f.basicBlocks[p.bb]? = some block → block.statements[p.idx]? = some stmt →
      execStmt rt checked f.locals p.state (at' block p.idx stmt) =
        execStmt rt checked f.locals p.state stmt) :
    step rt checked g p = step rt checked f p := by
  unfold step
  rw [hlocals, hblocks, List.getElem?_map]
  cases hb : f.basicBlocks[p.bb]? with
  | none => rfl
  | some block =>
    simp only [Option.map_some, hstmts]
    cases hs : block.statements[p.idx]? with
    | none => rfl
    | some stmt => simp only [Option.map_some, hexec block stmt hb hs]

end Rewriting

end ScalarCode

end Olive
