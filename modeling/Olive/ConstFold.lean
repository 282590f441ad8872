import Olive.ScalarCode

/-! Constant folding. -/

namespace Olive

open Lockstep ScalarCode

namespace ConstantFolding

def foldInts (op : BinOp) (a b : Word) : Option Constant :=
  match op with
  | .add => if a.saddOverflow b then none else some (.int (a + b))
  | .sub => if a.ssubOverflow b then none else some (.int (a - b))
  | .mul => if a.smulOverflow b then none else some (.int (a * b))
  | .div =>
    if b = 0 ∨ (a = BitVec.intMin 64 ∧ b = -1) then none else some (.int (a.sdiv b))
  | .mod =>
    if b = 0 ∨ (a = BitVec.intMin 64 ∧ b = -1) then none else some (.int (a.srem b))
  | .eq => some (.bool (a = b))
  | .notEq => some (.bool (a ≠ b))
  | .lt => some (.bool (a.slt b))
  | .ltEq => some (.bool (a.sle b))
  | .gt => some (.bool (b.slt a))
  | .gtEq => some (.bool (b.sle a))
  | .shl => some (.int (a <<< (b.toNat % 64)))
  | .shr => some (.int (a.sshiftRight (b.toNat % 64)))
  | _ => none

def foldFloats (fl : FloatOps) (op : BinOp) (a b : Word) : Option Constant :=
  match op with
  | .add => some (.float (fl.add a b))
  | .sub => some (.float (fl.sub a b))
  | .mul => some (.float (fl.mul a b))
  | .div => some (.float (fl.div a b))
  | .eq => some (.bool (fl.eq a b))
  | .notEq => some (.bool (!fl.eq a b))
  | .lt => some (.bool (fl.lt a b))
  | .ltEq => some (.bool (fl.le a b))
  | .gt => some (.bool (fl.lt b a))
  | .gtEq => some (.bool (fl.le b a))
  | _ => none

def foldBools (op : BinOp) (a b : Bool) : Option Constant :=
  match op with
  | .eq => some (.bool (a = b))
  | .notEq => some (.bool (a ≠ b))
  | .and => some (.bool (a && b))
  | .or => some (.bool (a || b))
  | _ => none

def foldUnary : UnaryOp → Constant → Option Constant
  | .neg, .int a => some (.int (-a))
  | .neg, .float a => some (.float (a ^^^ BitVec.intMin 64))
  | .not, .bool a => some (.bool (!a))
  | .not, .int a => some (.bool (a = 0))
  | .pos, .int a => some (.int a)
  | .pos, .float a => some (.float a)
  | _, _ => none

def fold (fl : FloatOps) : Rvalue → Option Constant
  | .binaryOp op (.const (.int a)) (.const (.int b)) => foldInts op a b
  | .binaryOp op (.const (.float a)) (.const (.float b)) => foldFloats fl op a b
  | .binaryOp op (.const (.bool a)) (.const (.bool b)) => foldBools op a b
  | .unaryOp op (.const c) => foldUnary op c
  | _ => none

def runStmt (fl : FloatOps) (stmt : Statement) : Statement :=
  match stmt.kind with
  | .assign dst rval => { stmt with kind := .assign dst ((fold fl rval).elim rval fun c => .use (.const c)) }
  | _ => stmt

/-- `-i64::MIN`. -/
def overflows (stmt : Statement) : Bool :=
  match stmt.kind with
  | .assign _ (.unaryOp .neg (.const (.int a))) => a = BitVec.intMin 64
  | _ => false

end ConstantFolding

open ConstantFolding

/-- `ConstantFolding::run`; `none` if the compiler's own arithmetic overflows. -/
def constantFolding (fl : FloatOps) (f : MirFunction) : Option MirFunction :=
  if f.statements.any ConstantFolding.overflows then none
  else some
    { f with basicBlocks := f.basicBlocks.map fun bb =>
        { bb with statements := bb.statements.map (ConstantFolding.runStmt fl) } }

section Folding

variable {W : Type} (rt : ScalarRuntime W) {checked : Bool}

theorem divide_signed {isMod : Bool} {a b quot : Word} (hb : b ≠ 0)
    (hpair : ¬(a = BitVec.intMin 64 ∧ b = -1)) : divide false isMod a b quot = .ok (.int 64 quot) := by
  have htrap : ¬(a = BitVec.intMin 64 ∧ b = -1 ∧ isMod = false) := fun h => hpair ⟨h.1, h.2.1⟩
  simp only [divide, BitVec.setWidth_eq, if_neg hb, if_neg hpair, if_neg htrap, Bool.false_eq_true,
    if_false]

theorem binary_words (op : BinOp) (a b : Word) (hshift : BinOp.isShift op = false) :
    binary rt checked op false (.int 64 a) (.int 64 b) = intBinary checked false op a b := by
  simp [binary, hshift]

theorem arith_fits {isUnsigned overflow : Bool} {kind : Nat} {v : Word} (h : ¬overflow = true) :
    arith checked isUnsigned overflow kind v = .ok (.int 64 v) :=
  if_neg fun hover => h hover.2

theorem foldInts_correct {op : BinOp} {a b : Word} {c : Constant} (h : foldInts op a b = some c) :
    binary rt checked op false (.int 64 a) (.int 64 b) = .ok (ScalarCode.constant rt c) := by
  cases op with
  | add | sub | mul =>
    obtain ⟨hover, hc⟩ := Option.ite_none_left_eq_some.mp h
    obtain rfl := Option.some.inj hc
    rw [binary_words rt _ a b rfl]
    exact arith_fits hover
  | div | mod =>
    obtain ⟨hdiv, hc⟩ := Option.ite_none_left_eq_some.mp h
    obtain rfl := Option.some.inj hc
    obtain ⟨hb, hpair⟩ := not_or.mp hdiv
    rw [binary_words rt _ a b rfl]
    exact divide_signed hb hpair
  | shl | shr =>
    obtain rfl := Option.some.inj h
    rfl
  | eq | notEq | lt | ltEq | gt | gtEq =>
    obtain rfl := Option.some.inj h
    exact binary_words rt _ a b rfl
  | _ => cases h

theorem foldFloats_correct {op : BinOp} {a b : Word} {c : Constant} {isUnsigned : Bool}
    (h : foldFloats rt.float op a b = some c) :
    binary rt checked op isUnsigned (.f64 a) (.f64 b) = .ok (ScalarCode.constant rt c) := by
  cases op with
  | add | sub | mul | div | eq | notEq | lt | ltEq | gt | gtEq =>
    obtain rfl := Option.some.inj h
    rfl
  | _ => cases h

theorem foldBools_correct {op : BinOp} {a b : Bool} {c : Constant} (h : foldBools op a b = some c) :
    binary rt checked op false (ScalarCode.bool a) (ScalarCode.bool b) =
      .ok (ScalarCode.constant rt c) := by
  cases op with
  | eq | notEq | and | or =>
    obtain rfl := Option.some.inj h
    cases a <;> cases b <;> rfl
  | _ => cases h

theorem foldUnary_correct {op : UnaryOp} {c c' : Constant} (h : foldUnary op c = some c') :
    unary rt op (ScalarCode.constant rt c) = ScalarCode.constant rt c' := by
  unfold foldUnary at h
  split at h
  case h_3 b =>
    obtain rfl := Option.some.inj h
    cases b <;> rfl
  case h_7 => cases h
  all_goals
    obtain rfl := Option.some.inj h
    rfl

/-- A folded rvalue moves nothing and evaluates to its constant. -/
theorem evalRvalue_folded {decls : List LocalDecl} {s : ScalarState W} {rval : Rvalue} {c : Constant}
    (h : fold rt.float rval = some c) :
    evalRvalue rt checked decls s rval = .ok (ScalarCode.constant rt c, s.locals, s.world) := by
  unfold fold at h
  split at h
  next op a b =>
    have hop : callsRuntime op (.const (.int a)) (.const (.int b)) = false := by
      cases op with
      | pow | isIn | notIn | coalesce => cases h
      | _ => rfl
    have hsign : ScalarCode.unsigned decls op (.const (.int a)) (.const (.int b)) = false := by
      cases op <;> rfl
    simp only [evalRvalue, ScalarCode.evalOperand, hop, hsign, Bool.false_eq_true, if_false]
    exact congrArg (Except.map _) (foldInts_correct rt h)
  next op a b =>
    have hop : callsRuntime op (.const (.float a)) (.const (.float b)) = false := by
      cases op with
      | pow | isIn | notIn | coalesce => cases h
      | _ => rfl
    simp only [evalRvalue, ScalarCode.evalOperand, hop, Bool.false_eq_true, if_false]
    exact congrArg (Except.map _) (foldFloats_correct rt h)
  next op a b =>
    have hop : callsRuntime op (.const (.bool a)) (.const (.bool b)) = false := by
      cases op with
      | pow | isIn | notIn | coalesce => cases h
      | _ => rfl
    have hsign : ScalarCode.unsigned decls op (.const (.bool a)) (.const (.bool b)) = false := by
      cases op <;> rfl
    simp only [evalRvalue, ScalarCode.evalOperand, hop, hsign, Bool.false_eq_true, if_false]
    exact congrArg (Except.map _) (foldBools_correct rt h)
  next op c' =>
    simp only [evalRvalue, ScalarCode.evalOperand, foldUnary_correct rt h]
  next => cases h

theorem execStmt_folded {decls : List LocalDecl} {s : ScalarState W} (stmt : Statement) :
    ScalarCode.execStmt rt checked decls s (ConstantFolding.runStmt rt.float stmt) =
      ScalarCode.execStmt rt checked decls s stmt := by
  cases hk : stmt.kind with
  | assign dst rval =>
    simp only [ConstantFolding.runStmt, hk, ScalarCode.execStmt, execAssign]
    cases hc : fold rt.float rval with
    | none => rfl
    | some c => rw [evalRvalue_folded rt hc]; rfl
  | _ => simp only [ConstantFolding.runStmt, hk]

theorem step_folded {f g : MirFunction} (hg : constantFolding rt.float f = some g)
    (p : ScalarPoint W) : ScalarCode.step rt checked g p = ScalarCode.step rt checked f p := by
  unfold constantFolding at hg
  split at hg
  next => cases hg
  next =>
    obtain rfl := Option.some.inj hg
    exact @step_rewritten _ _ _ _ _ _ _ (fun _ _ => ConstantFolding.runStmt rt.float) rfl rfl
      (fun _ _ => List.getElem?_map) fun _ stmt _ _ => execStmt_folded rt stmt

end Folding

end Olive
