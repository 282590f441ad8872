import Olive.ConstFold

/-! Peephole rewriting. -/

namespace Olive

open Lockstep ScalarCode

namespace PeepholeOptimize

/-- Which locals are negations of which operands, until the scan of a block stops. -/
abbrev NotDefs := Option (FxHashMap Local Operand)

def doubleNot (defs : NotDefs) (stmt : Statement) : NotDefs × Statement :=
  match defs, stmt.kind with
  | some known, .assign out (.unaryOp .not inner) =>
    match inner.local? with
    | none => (none, stmt)
    | some l =>
      match known l with
      | some src => (some known, { stmt with kind := .assign out (.use src) })
      | none => (some (known.insert out inner), stmt)
  | defs, .storageLive _ | defs, .storageDead _ => (defs, stmt)
  | some _, _ => (some .empty, stmt)
  | none, _ => (none, stmt)

def eliminateDoubleNot : NotDefs → List Statement → List Statement
  | _, [] => []
  | defs, stmt :: stmts => (doubleNot defs stmt).2 :: eliminateDoubleNot (doubleNot defs stmt).1 stmts

def isIntLike (decls : List LocalDecl) : Operand → Bool
  | .const _ => true
  | .copy l | .move l => (decls[l]?).any fun decl => ScalarCode.isIntLike decl.ty

def isFloatLike (decls : List LocalDecl) : Operand → Bool
  | .const _ => true
  | .copy l | .move l => (decls[l]?).any fun decl => ScalarCode.isFloatLike decl.ty

def int (v : Word) : Operand := .const (.int v)

/-- `x`, where `y` is the constant `c`. -/
def identity (decls : List LocalDecl) (c : Word) (x y : Operand) : Option Operand :=
  if y = int c ∧ isIntLike decls x then some x else none

/-- Zero, where `y` is zero. -/
def absorbed (decls : List LocalDecl) (x y : Operand) : Option Operand :=
  if y = int 0 ∧ isIntLike decls x then some y else none

def reflexive (decls : List LocalDecl) (l r result : Operand) : Option Operand :=
  if l = r ∧ isIntLike decls l then some result else none

def irreflexive (decls : List LocalDecl) (l r : Operand) : Option Operand :=
  if l = r ∧ (isIntLike decls l || isFloatLike decls l) then some (.const (.bool false)) else none

/-- What an operation is replaced by. -/
def replacement (decls : List LocalDecl) (op : BinOp) (l r : Operand) : Option Operand :=
  match op with
  | .add => (identity decls 0 l r).or (identity decls 0 r l)
  | .sub => (identity decls 0 l r).or (reflexive decls l r (int 0))
  | .mul =>
    ((identity decls 1 l r).or (identity decls 1 r l)).or ((absorbed decls l r).or (absorbed decls r l))
  | .div => identity decls 1 l r
  | .eq | .ltEq | .gtEq => reflexive decls l r (.const (.bool true))
  | .notEq => reflexive decls l r (.const (.bool false))
  | .lt | .gt => irreflexive decls l r
  | .shl | .shr => identity decls 0 l r
  | .and => ((absorbed decls l r).or (absorbed decls r l)).or (reflexive decls l r l)
  | .or => ((identity decls 0 l r).or (identity decls 0 r l)).or (reflexive decls l r l)
  | _ => none

def rewrite (decls : List LocalDecl) (stmt : Statement) : Statement :=
  match stmt.kind with
  | .assign dst (.binaryOp op l r) =>
    { stmt with kind := .assign dst ((replacement decls op l r).elim (.binaryOp op l r) .use) }
  | _ => stmt

end PeepholeOptimize

open PeepholeOptimize

/-- `PeepholeOptimize::run`. -/
def peephole (f : MirFunction) : MirFunction :=
  { f with basicBlocks := f.basicBlocks.map fun bb =>
      { bb with
        statements := (eliminateDoubleNot (some .empty) bb.statements).map (rewrite f.locals) } }

/-- The negations known before the statement at `idx`. -/
def notDefsAt (stmts : List Statement) (idx : Nat) : NotDefs :=
  (stmts.take idx).foldl (fun defs stmt => (doubleNot defs stmt).1) (some .empty)

theorem eliminateDoubleNot_getElem? (defs : NotDefs) (stmts : List Statement) (idx : Nat) :
    (eliminateDoubleNot defs stmts)[idx]? = stmts[idx]?.map fun stmt =>
      (doubleNot ((stmts.take idx).foldl (fun defs stmt => (doubleNot defs stmt).1) defs) stmt).2 := by
  induction stmts generalizing defs idx with
  | nil => rfl
  | cons stmt stmts ih =>
    cases idx with
    | zero => rfl
    | succ idx =>
      simp only [eliminateDoubleNot, List.getElem?_cons_succ, ih, List.take_succ_cons,
        List.foldl_cons]

section Words

variable {n : Nat} {checked isUnsigned : Bool}

theorem arith_eq {overflow : Bool} {kind : Nat} {v : BitVec n} (h : overflow = false) :
    arith checked isUnsigned overflow kind v = .ok (.int n v) := by
  rw [h]
  exact if_neg fun hover => Bool.false_ne_true hover.2

theorem neutral_right (x : Word) :
    intBinary checked isUnsigned .add x 0 = .ok (.int 64 x) ∧
      intBinary checked isUnsigned .sub x 0 = .ok (.int 64 x) ∧
      intBinary checked isUnsigned .mul x 1 = .ok (.int 64 x) ∧
      intBinary checked isUnsigned .div x 1 = .ok (.int 64 x) := by
  have hlow := BitVec.le_toInt x
  have hhigh := BitVec.toInt_lt (x := x)
  have hnat := x.isLt
  have hadd : (if isUnsigned then x.uaddOverflow 0 else x.saddOverflow 0) = false := by
    cases isUnsigned <;> simp [BitVec.uaddOverflow, BitVec.saddOverflow] <;> omega
  have hsub : (if isUnsigned then x.usubOverflow 0 else x.ssubOverflow 0) = false := by
    cases isUnsigned <;> simp [BitVec.usubOverflow, BitVec.ssubOverflow]
    omega
  have hmul : (if isUnsigned then x.umulOverflow 1 else x.smulOverflow 1) = false := by
    cases isUnsigned <;> simp [BitVec.umulOverflow, BitVec.smulOverflow] <;> omega
  refine ⟨?_, ?_, ?_, ?_⟩
  · exact (arith_eq hadd).trans (by simp)
  · exact (arith_eq hsub).trans (by simp)
  · exact (arith_eq hmul).trans (by simp)
  · cases isUnsigned <;> simp [intBinary, divide]

theorem neutral_left (x : Word) :
    intBinary checked isUnsigned .add 0 x = .ok (.int 64 x) ∧
      intBinary checked isUnsigned .mul 1 x = .ok (.int 64 x) := by
  have hlow := BitVec.le_toInt x
  have hhigh := BitVec.toInt_lt (x := x)
  have hnat := x.isLt
  have hadd : (if isUnsigned then (0 : Word).uaddOverflow x else (0 : Word).saddOverflow x) = false := by
    cases isUnsigned <;> simp [BitVec.uaddOverflow, BitVec.saddOverflow] <;> omega
  have hmul : (if isUnsigned then (1 : Word).umulOverflow x else (1 : Word).smulOverflow x) = false := by
    cases isUnsigned <;> simp [BitVec.umulOverflow, BitVec.smulOverflow] <;> omega
  refine ⟨?_, ?_⟩
  · exact (arith_eq hadd).trans (by simp)
  · exact (arith_eq hmul).trans (by simp)

theorem mul_absorbs (x : Word) :
    intBinary checked isUnsigned .mul x 0 = .ok (.int 64 0) ∧
      intBinary checked isUnsigned .mul 0 x = .ok (.int 64 0) := by
  have hright : (if isUnsigned then x.umulOverflow 0 else x.smulOverflow 0) = false := by
    cases isUnsigned <;> simp [BitVec.umulOverflow, BitVec.smulOverflow]
  have hleft : (if isUnsigned then (0 : Word).umulOverflow x else (0 : Word).smulOverflow x) = false := by
    cases isUnsigned <;> simp [BitVec.umulOverflow, BitVec.smulOverflow]
  refine ⟨?_, ?_⟩
  · exact (arith_eq hright).trans (by simp)
  · exact (arith_eq hleft).trans (by simp)

theorem sub_self_fits (x : BitVec n) :
    (if isUnsigned then x.usubOverflow x else x.ssubOverflow x) = false := by
  have hpos : (0 : Int) < 2 ^ (n - 1) := Int.pow_pos (by decide)
  cases isUnsigned with
  | true => exact decide_eq_false (Nat.lt_irrefl x.toNat)
  | false =>
    show x.ssubOverflow x = false
    simp only [BitVec.ssubOverflow, Int.sub_self, Bool.or_eq_false_iff, decide_eq_false_iff_not]
    omega

theorem sub_self (x : BitVec n) : intBinary checked isUnsigned .sub x x = .ok (.int n 0) :=
  (arith_eq (sub_self_fits x)).trans (by simp)

theorem compare_self (x : BitVec n) :
    intBinary checked isUnsigned .eq x x = .ok (ScalarCode.bool true) ∧
      intBinary checked isUnsigned .ltEq x x = .ok (ScalarCode.bool true) ∧
      intBinary checked isUnsigned .gtEq x x = .ok (ScalarCode.bool true) ∧
      intBinary checked isUnsigned .notEq x x = .ok (ScalarCode.bool false) ∧
      intBinary checked isUnsigned .lt x x = .ok (ScalarCode.bool false) ∧
      intBinary checked isUnsigned .gt x x = .ok (ScalarCode.bool false) := by
  cases isUnsigned <;> simp [intBinary, BitVec.sle, BitVec.slt, BitVec.ule, BitVec.ult]

end Words

section Operations

variable {W : Type} {rt : ScalarRuntime W} {checked : Bool} {decls : List LocalDecl}
  {locals : Local → Word} {op : BinOp} {l r new : Operand}

def operandWidth (decls : List LocalDecl) : Operand → Nat
  | .copy l | .move l => width (tyOf decls l)
  | .const _ => 64

def isWord : Operand → Bool
  | .const (.float _) | .const (.str _) => false
  | _ => true

/-- Both operands are integers, of one width unless one shifts the other, and `new` moves the locals
that they move. -/
structure PlainOperands (decls : List LocalDecl) (op : BinOp) (l r new : Operand) : Prop where
  words : isWord l = true ∧ isWord r = true
  width : BinOp.isShift op = true ∨ operandWidth decls l = operandWidth decls r
  moves : [l, r].filterMap Operand.moved? = new.moved?.toList

/-- Two values that any variable stores alike. -/
def StoredAlike (rt : ScalarRuntime W) (v v' : ClValue) : Prop :=
  ∀ ty, convert rt ty v = convert rt ty v'

theorem storedAlike_zero (n m : Nat) : StoredAlike rt (.int n 0) (.int m 0) := by
  intro ty
  cases ty <;> simp [convert, BitVec.signExtend]

theorem value_of_word {n : Nat} (h : isWord l = true) (hn : operandWidth decls l = n) :
    ∃ v : BitVec n, (ScalarCode.evalOperand rt decls locals l).1 = .int n v := by
  subst hn
  cases l with
  | const c =>
    cases c with
    | float | str => cases h
    | _ => exact ⟨_, rfl⟩
  | _ => exact ⟨_, rfl⟩

theorem identity_eq_some {c : Word} (h : identity decls c l r = some new) : r = int c ∧ new = l := by
  obtain ⟨⟨hr, _⟩, hnew⟩ := Option.ite_none_right_eq_some.mp h
  exact ⟨hr, (Option.some.inj hnew).symm⟩

theorem absorbed_eq_some (h : absorbed decls l r = some new) : r = int 0 ∧ new = int 0 := by
  obtain ⟨⟨hr, _⟩, hnew⟩ := Option.ite_none_right_eq_some.mp h
  exact ⟨hr, (Option.some.inj hnew).symm.trans hr⟩

theorem reflexive_eq_some {result : Operand} (h : reflexive decls l r result = some new) :
    l = r ∧ new = result := by
  obtain ⟨⟨hr, _⟩, hnew⟩ := Option.ite_none_right_eq_some.mp h
  exact ⟨hr, (Option.some.inj hnew).symm⟩

theorem irreflexive_eq_some (h : irreflexive decls l r = some new) :
    l = r ∧ new = .const (.bool false) := by
  obtain ⟨⟨hr, _⟩, hnew⟩ := Option.ite_none_right_eq_some.mp h
  exact ⟨hr, (Option.some.inj hnew).symm⟩

theorem binary_same {n : Nat} {isUnsigned : Bool} (x y : BitVec n) (h : BinOp.isShift op = false) :
    binary rt checked op isUnsigned (.int n x) (.int n y) = intBinary checked isUnsigned op x y := by
  simp [binary, h]

variable (rt checked decls locals) in
/-- An operation on these operands gives what a variable stores like the value of `new`. -/
def ReplacedBy (op : BinOp) (isUnsigned : Bool) (l r new : Operand) : Prop :=
  ∃ v, binary rt checked op isUnsigned (ScalarCode.evalOperand rt decls locals l).1
      (ScalarCode.evalOperand rt decls (ScalarCode.evalOperand rt decls locals l).2 r).1 = .ok v ∧
    StoredAlike rt v (ScalarCode.evalOperand rt decls locals new).1

theorem evalOperand_int (v : Word) : (ScalarCode.evalOperand rt decls locals (int v)).2 = locals :=
  rfl

/-- One operand cannot be moved twice. -/
theorem PlainOperands.unmoved_of_same (h : PlainOperands decls op l l new) : l.moved? = none := by
  have hmoves := h.moves
  cases hl : l.moved? with
  | none => rfl
  | some m =>
    have hlen := congrArg List.length hmoves
    cases hn : new.moved? with
    | none => simp [hl, hn] at hlen
    | some x => simp [hl, hn] at hlen

theorem evalOperand_after (op : Operand) : (ScalarCode.evalOperand rt decls locals op).2 =
    op.moved?.elim locals (moveOut locals) := by
  cases op <;> rfl

/-- Evaluating the operands moves what evaluating `new` moves. -/
theorem PlainOperands.moves_alike (h : PlainOperands decls op l r new) :
    (ScalarCode.evalOperand rt decls (ScalarCode.evalOperand rt decls locals l).2 r).2 =
      (ScalarCode.evalOperand rt decls locals new).2 := by
  have hmoves := h.moves
  rw [evalOperand_after, evalOperand_after, evalOperand_after]
  cases hl : l.moved? <;> cases hr : r.moved? <;> cases hn : new.moved? <;>
    simp [hl, hr, hn] at hmoves ⊢
  · rw [hmoves]
  · rw [hmoves]

theorem replacedBy_right {isUnsigned : Bool} {c : Word} (hplain : PlainOperands decls op l r new)
    (hshift : BinOp.isShift op = false)
    (hop : ∀ x : Word, intBinary checked isUnsigned op x c = .ok (.int 64 x))
    (h : identity decls c l r = some new) : ReplacedBy rt checked decls locals op isUnsigned l r new := by
  obtain ⟨rfl, rfl⟩ := identity_eq_some h
  have hwidth := hplain.width.resolve_left (by rw [hshift]; exact Bool.false_ne_true)
  obtain ⟨x, hx⟩ := @value_of_word _ rt decls locals _ _ hplain.words.1 hwidth
  refine ⟨.int 64 x, ?_, ?_⟩
  · rw [hx]
    exact (binary_same x c hshift).trans (hop x)
  · rw [hx]
    exact fun _ => rfl

theorem replacedBy_left {isUnsigned : Bool} {c : Word} (hplain : PlainOperands decls op l r new)
    (hshift : BinOp.isShift op = false)
    (hop : ∀ x : Word, intBinary checked isUnsigned op c x = .ok (.int 64 x))
    (h : identity decls c r l = some new) : ReplacedBy rt checked decls locals op isUnsigned l r new := by
  obtain ⟨rfl, rfl⟩ := identity_eq_some h
  have hwidth := hplain.width.resolve_left (by rw [hshift]; exact Bool.false_ne_true)
  obtain ⟨x, hx⟩ := @value_of_word _ rt decls locals _ _ hplain.words.2 hwidth.symm
  refine ⟨.int 64 x, ?_, ?_⟩
  · rw [evalOperand_int, hx]
    exact (binary_same c x hshift).trans (hop x)
  · rw [hx]
    exact fun _ => rfl

theorem replacedBy_absorbed {isUnsigned : Bool} (hplain : PlainOperands decls op l r new)
    (hshift : BinOp.isShift op = false)
    (hop : ∀ x : Word, intBinary checked isUnsigned op x 0 = .ok (.int 64 0) ∧
      intBinary checked isUnsigned op 0 x = .ok (.int 64 0))
    (h : (absorbed decls l r).or (absorbed decls r l) = some new) :
    ReplacedBy rt checked decls locals op isUnsigned l r new := by
  have hwidth := hplain.width.resolve_left (by rw [hshift]; exact Bool.false_ne_true)
  rcases Option.or_eq_some_iff.mp h with h | ⟨_, h⟩
  · obtain ⟨rfl, rfl⟩ := absorbed_eq_some h
    obtain ⟨x, hx⟩ := @value_of_word _ rt decls locals _ _ hplain.words.1 hwidth
    refine ⟨.int 64 0, ?_, fun _ => rfl⟩
    rw [hx]
    exact (binary_same x 0 hshift).trans (hop x).1
  · obtain ⟨rfl, rfl⟩ := absorbed_eq_some h
    obtain ⟨x, hx⟩ := @value_of_word _ rt decls locals _ _ hplain.words.2 hwidth.symm
    refine ⟨.int 64 0, ?_, fun _ => rfl⟩
    rw [evalOperand_int, hx]
    exact (binary_same 0 x hshift).trans (hop x).2

/-- An operand with itself. -/
theorem replacedBy_self {isUnsigned : Bool} (hplain : PlainOperands decls op l l new)
    (hshift : BinOp.isShift op = false)
    (hop : ∀ (n : Nat) (x : BitVec n), (ScalarCode.evalOperand rt decls locals l).1 = .int n x →
      ∃ v, intBinary checked isUnsigned op x x = .ok v ∧
        StoredAlike rt v (ScalarCode.evalOperand rt decls locals new).1) :
    ReplacedBy rt checked decls locals op isUnsigned l l new := by
  obtain ⟨x, hx⟩ := @value_of_word _ rt decls locals _ _ hplain.words.1 rfl
  obtain ⟨v, hv, halike⟩ := hop _ x hx
  refine ⟨v, ?_, halike⟩
  rw [ScalarCode.evalOperand_unmoved (hplain.unmoved_of_same), hx]
  exact (binary_same x x hshift).trans hv

theorem replacedBy_shift {isUnsigned : Bool} (hplain : PlainOperands decls op l r new)
    (hshift : op = .shl ∨ op = .shr) (h : identity decls 0 l r = some new) :
    ReplacedBy rt checked decls locals op isUnsigned l r new := by
  obtain ⟨rfl, rfl⟩ := identity_eq_some h
  obtain ⟨x, hx⟩ := @value_of_word _ rt decls locals _ _ hplain.words.1 rfl
  have hzero : ∀ u, (ScalarCode.evalOperand rt decls u (int 0)).1 = .int 64 0 := fun _ => rfl
  refine ⟨.int _ x, ?_, ?_⟩
  · rw [hx, hzero]
    rcases hshift with rfl | rfl
    · simp [binary, BinOp.isShift, shift]
    · simp [binary, BinOp.isShift, shift]
  · rw [hx]
    exact fun _ => rfl

theorem replacement_correct (isUnsigned : Bool) (hplain : PlainOperands decls op l r new)
    (h : replacement decls op l r = some new) :
    ReplacedBy rt checked decls locals op isUnsigned l r new := by
  cases op with
  | add =>
    rcases Option.or_eq_some_iff.mp h with h | ⟨_, h⟩
    · exact replacedBy_right hplain rfl (fun x => (neutral_right x).1) h
    · exact replacedBy_left hplain rfl (fun x => (neutral_left x).1) h
  | sub =>
    rcases Option.or_eq_some_iff.mp h with h | ⟨_, h⟩
    · exact replacedBy_right hplain rfl (fun x => (neutral_right x).2.1) h
    · obtain ⟨rfl, rfl⟩ := reflexive_eq_some h
      exact replacedBy_self hplain rfl fun n x _ => ⟨_, sub_self x, storedAlike_zero n 64⟩
  | mul =>
    rcases Option.or_eq_some_iff.mp h with h | ⟨_, h⟩
    · rcases Option.or_eq_some_iff.mp h with h | ⟨_, h⟩
      · exact replacedBy_right hplain rfl (fun x => (neutral_right x).2.2.1) h
      · exact replacedBy_left hplain rfl (fun x => (neutral_left x).2) h
    · exact replacedBy_absorbed hplain rfl mul_absorbs h
  | div => exact replacedBy_right hplain rfl (fun x => (neutral_right x).2.2.2) h
  | eq =>
    obtain ⟨rfl, rfl⟩ := reflexive_eq_some h
    exact replacedBy_self hplain rfl fun n x _ => ⟨_, (compare_self x).1, fun _ => rfl⟩
  | ltEq =>
    obtain ⟨rfl, rfl⟩ := reflexive_eq_some h
    exact replacedBy_self hplain rfl fun n x _ => ⟨_, (compare_self x).2.1, fun _ => rfl⟩
  | gtEq =>
    obtain ⟨rfl, rfl⟩ := reflexive_eq_some h
    exact replacedBy_self hplain rfl fun n x _ => ⟨_, (compare_self x).2.2.1, fun _ => rfl⟩
  | notEq =>
    obtain ⟨rfl, rfl⟩ := reflexive_eq_some h
    exact replacedBy_self hplain rfl fun n x _ => ⟨_, (compare_self x).2.2.2.1, fun _ => rfl⟩
  | lt =>
    obtain ⟨rfl, rfl⟩ := irreflexive_eq_some h
    exact replacedBy_self hplain rfl fun n x _ => ⟨_, (compare_self x).2.2.2.2.1, fun _ => rfl⟩
  | gt =>
    obtain ⟨rfl, rfl⟩ := irreflexive_eq_some h
    exact replacedBy_self hplain rfl fun n x _ => ⟨_, (compare_self x).2.2.2.2.2, fun _ => rfl⟩
  | shl => exact replacedBy_shift hplain (.inl rfl) h
  | shr => exact replacedBy_shift hplain (.inr rfl) h
  | and =>
    rcases Option.or_eq_some_iff.mp h with h | ⟨_, h⟩
    · exact replacedBy_absorbed hplain rfl (fun x => by simp [intBinary]) h
    · obtain ⟨rfl, rfl⟩ := reflexive_eq_some h
      exact replacedBy_self hplain rfl fun n x hx => ⟨.int n x, by simp [intBinary], by simp [hx, StoredAlike]⟩
  | or =>
    rcases Option.or_eq_some_iff.mp h with h | ⟨_, h⟩
    · rcases Option.or_eq_some_iff.mp h with h | ⟨_, h⟩
      · exact replacedBy_right hplain rfl (fun x => by simp [intBinary]) h
      · exact replacedBy_left hplain rfl (fun x => by simp [intBinary]) h
    · obtain ⟨rfl, rfl⟩ := reflexive_eq_some h
      exact replacedBy_self hplain rfl fun n x hx => ⟨.int n x, by simp [intBinary], by simp [hx, StoredAlike]⟩
  | _ => cases h

theorem callsRuntime_eq_false (hwords : isWord l = true ∧ isWord r = true)
    (h : replacement decls op l r = some new) : callsRuntime op l r = false := by
  have hstr : ∀ o, isWord o = true → isStr o = false := by
    intro o ho
    cases o with
    | const c =>
      cases c with
      | str => cases ho
      | _ => rfl
    | _ => rfl
  cases op with
  | pow | isIn | notIn | coalesce => cases h
  | add => exact hstr l hwords.1
  | eq | notEq => simp only [callsRuntime, hstr l hwords.1, hstr r hwords.2, Bool.or_false]
  | _ => rfl

variable (rt checked decls) in
/-- Evaluated here, both rvalues give what any variable stores alike, and leave the rest alike. -/
def EvaluatedAlike (s : ScalarState W) (rval rval' : Rvalue) : Prop :=
  ∃ v v' after, evalRvalue rt checked decls s rval = .ok (v, after) ∧
    evalRvalue rt checked decls s rval' = .ok (v', after) ∧ StoredAlike rt v v'

theorem EvaluatedAlike.execAssign_eq {s : ScalarState W} {rval rval' : Rvalue}
    (h : EvaluatedAlike rt checked decls s rval rval') (dst : Local) :
    execAssign rt checked decls s dst rval' = execAssign rt checked decls s dst rval := by
  obtain ⟨v, v', after, hv, hv', halike⟩ := h
  simp only [execAssign, hv, hv', Except.map, halike (tyOf decls dst)]

theorem evaluatedAlike_replaced {s : ScalarState W} (hplain : PlainOperands decls op l r new)
    (h : replacement decls op l r = some new) :
    EvaluatedAlike rt checked decls s (.binaryOp op l r) (.use new) := by
  obtain ⟨v, hv, halike⟩ := @replacement_correct _ rt checked decls s.locals op l r new
    (ScalarCode.unsigned decls op l r) hplain h
  refine ⟨v, _, ((ScalarCode.evalOperand rt decls s.locals new).2, s.world), ?_, rfl, halike⟩
  simp only [evalRvalue, callsRuntime_eq_false hplain.words h, hv, hplain.moves_alike,
    Bool.false_eq_true, if_false, Except.map]

variable (rt decls locals) in
/-- `src` holds 1 where `inner` is zero and 0 elsewhere, and reading it moves what reading `inner`
moves. -/
structure Negates (src inner : Operand) : Prop where
  moves : (ScalarCode.evalOperand rt decls locals src).2 =
    (ScalarCode.evalOperand rt decls locals inner).2
  word : ∃ (n m : Nat) (v : BitVec n) (u : BitVec m),
    (ScalarCode.evalOperand rt decls locals inner).1 = .int n v ∧
    (ScalarCode.evalOperand rt decls locals src).1 = .int m u ∧ 1 < m ∧
    (v = 0 ∧ u = 1 ∨ v ≠ 0 ∧ u = 0)

theorem setWidth_one {n : Nat} (hn : 1 < n) (m : Nat) : (1 : BitVec n).setWidth m = 1 := by
  have hpow : 1 < 2 ^ n := Nat.one_lt_two_pow (by omega)
  apply BitVec.eq_of_toNat_eq
  simp [Nat.mod_eq_of_lt hpow]

theorem signExtend_one {n : Nat} (hn : 1 < n) (m : Nat) : (1 : BitVec n).signExtend m = 1 := by
  have hmsb : (1 : BitVec n).msb = false := by
    rw [show (1 : BitVec n) = 1#n from rfl, BitVec.msb_one]
    simp
    omega
  rw [BitVec.signExtend_eq_setWidth_of_msb_false hmsb, setWidth_one hn]

theorem storedAlike_one {n m : Nat} (hn : 1 < n) (hm : 1 < m) :
    StoredAlike rt (.int n 1) (.int m 1) := by
  intro ty
  cases ty <;> simp only [convert, signExtend_one hn, signExtend_one hm, setWidth_one hn,
    setWidth_one hm]

theorem evaluatedAlike_negated {s : ScalarState W} {src inner : Operand}
    (h : Negates rt decls s.locals src inner) :
    EvaluatedAlike rt checked decls s (.unaryOp .not inner) (.use src) := by
  obtain ⟨hmoves, n, m, v, u, hv, hu, hm, hword⟩ := h
  refine ⟨ScalarCode.bool (v = 0), .int m u, ((ScalarCode.evalOperand rt decls s.locals src).2, s.world),
    ?_, ?_, ?_⟩
  · simp only [evalRvalue, hv, unary, hmoves]
  · simp only [evalRvalue, hu]
  · rcases hword with ⟨rfl, rfl⟩ | ⟨hne, rfl⟩
    · exact storedAlike_one (by decide) hm
    · simp only [hne, decide_false]
      exact storedAlike_zero 64 m

end Operations

section Runs

variable {W : Type} (rt : ScalarRuntime W) (checked : Bool) (f : MirFunction)

/-- What the rewritten statement at a point needs: where a `not` is replaced, the recorded operand
still holds the negation of the operand, and where an operation is replaced, its operands are
plain. -/
structure Peepholes (p : ScalarPoint W) : Prop where
  doubleNot : ∀ block stmt out inner l src known, f.basicBlocks[p.bb]? = some block →
    block.statements[p.idx]? = some stmt → stmt.kind = .assign out (.unaryOp .not inner) →
    inner.local? = some l → notDefsAt block.statements p.idx = some known → known l = some src →
    Negates rt f.locals p.state.locals src inner
  operation : ∀ block stmt dst op l r new, f.basicBlocks[p.bb]? = some block →
    block.statements[p.idx]? = some stmt → stmt.kind = .assign dst (.binaryOp op l r) →
    replacement f.locals op l r = some new → PlainOperands f.locals op l r new

variable {rt checked f}

theorem execStmt_doubleNot {decls : List LocalDecl} {s : ScalarState W} {defs : NotDefs}
    {stmt : Statement} (h : ∀ out inner l src known, stmt.kind = .assign out (.unaryOp .not inner) →
      inner.local? = some l → defs = some known → known l = some src →
      Negates rt decls s.locals src inner) :
    ScalarCode.execStmt rt checked decls s (doubleNot defs stmt).2 =
      ScalarCode.execStmt rt checked decls s stmt := by
  unfold doubleNot
  split
  next known out inner hk =>
    cases hl : inner.local? with
    | none => rfl
    | some l =>
      cases hsrc : known l with
      | none => simp only [hsrc]
      | some src =>
        have hneg := h out inner l src known hk hl rfl hsrc
        simp only [hsrc, ScalarCode.execStmt, hk]
        exact (evaluatedAlike_negated hneg).execAssign_eq out
  all_goals rfl

theorem execStmt_peepholed {decls : List LocalDecl} {s : ScalarState W} {stmt : Statement}
    (h : ∀ dst op l r new, stmt.kind = .assign dst (.binaryOp op l r) →
      replacement decls op l r = some new → PlainOperands decls op l r new) :
    ScalarCode.execStmt rt checked decls s (rewrite decls stmt) =
      ScalarCode.execStmt rt checked decls s stmt := by
  unfold rewrite
  split
  next dst op l r hk =>
    cases hnew : replacement decls op l r with
    | none => simp only [ScalarCode.execStmt, hk, Option.elim]
    | some new =>
      simp only [ScalarCode.execStmt, hk, Option.elim]
      exact (evaluatedAlike_replaced (h dst op l r new hk hnew) hnew).execAssign_eq dst
  next => rfl

/-- A statement that `doubleNot` leaves an operation was that operation before. -/
theorem doubleNot_binaryOp {defs : NotDefs} {stmt : Statement} {dst : Local} {op : BinOp}
    {l r : Operand} (h : (doubleNot defs stmt).2.kind = .assign dst (.binaryOp op l r)) :
    stmt.kind = .assign dst (.binaryOp op l r) := by
  unfold doubleNot at h
  split at h
  next known out inner hk =>
    cases hl : inner.local? with
    | none => simp only [hl] at h; exact h
    | some l =>
      cases hsrc : known l with
      | none => simp only [hl, hsrc] at h; exact h
      | some src => simp only [hl, hsrc] at h; cases h
  all_goals exact h

theorem step_peephole {p : ScalarPoint W} (h : Peepholes rt f p) :
    ScalarCode.step rt checked (peephole f) p = ScalarCode.step rt checked f p := by
  refine @step_rewritten _ _ _ _ _ _ _ (fun block idx stmt =>
    rewrite f.locals (doubleNot (notDefsAt block.statements idx) stmt).2) rfl rfl ?_ ?_
  · intro block idx
    rw [List.getElem?_map, eliminateDoubleNot_getElem?, Option.map_map]
    rfl
  · intro block stmt hblock hstmt
    rw [execStmt_peepholed fun dst op l r new hk hnew =>
      h.operation block stmt dst op l r new hblock hstmt (doubleNot_binaryOp hk) hnew]
    exact execStmt_doubleNot fun out inner l src known hk hl hdefs hsrc =>
      h.doubleNot block stmt out inner l src known hblock hstmt hk hl hdefs hsrc

/-- A target without floats, strings or other calls. -/
def plainScalars : ScalarRuntime Unit where
  float := ⟨fun a _ => a, fun a _ => a, fun a _ => a, fun a _ => a, fun a b => a == b,
    fun _ _ => false, fun a b => a == b⟩
  address _ := 0
  mixed _ _ _ := .error .trap
  mixedUnary _ v := v
  toInt _ _ := 0
  rvalue _ _ _ := .error .trap
  stmt _ _ _ := .error .trap

def scalarStart (locals : List Word) : ScalarPoint Unit := ⟨0, 0, fun l => locals.getD l 0, ()⟩

/-- `_0 = !!_1`, with `between` between the two. -/
def notTwice (ty : OliveType) (between : List Statement) : MirFunction :=
  plainFunction "not_twice" 1 [.int, ty, .bool, .bool]
    [⟨plainStmt (.assign 2 (.unaryOp .not (.copy 1))) :: between ++
      [plainStmt (.assign 0 (.unaryOp .not (.copy 2)))], plainTerm .ret⟩]

theorem notTwice_peepholes {p : ScalarPoint Unit}
    (h : Reaches (ScalarCode.step plainScalars true (notTwice .bool [])) (scalarStart [0, 1]) p) :
    Peepholes plainScalars (notTwice .bool []) p := by
  have hend : runs (ScalarCode.step plainScalars true (notTwice .bool [])) 3 (scalarStart [0, 1]) =
      .inr (.ok (1, ())) := rfl
  obtain ⟨n, hn, hrun⟩ := h.lt_end hend
  obtain rfl | rfl | rfl : n = 0 ∨ n = 1 ∨ n = 2 := by omega
  · cases hrun
    refine ⟨?_, ?_⟩
    · intro block stmt out inner l src known hblock hstmt _ _ hknown hsrc
      cases hblock
      cases hknown
      cases hsrc
    · intro block stmt dst op l r new hblock hstmt hkind _
      cases hblock
      cases hstmt
      cases hkind
  · cases hrun
    refine ⟨?_, ?_⟩
    · intro block stmt out inner l src known hblock hstmt hkind hl hknown hsrc
      cases hblock
      cases hstmt
      cases hkind
      cases hl
      cases hknown
      cases hsrc
      exact ⟨rfl, 8, 8, 0, 1, rfl, rfl, by decide, .inl ⟨rfl, rfl⟩⟩
    · intro block stmt dst op l r new hblock hstmt hkind _
      cases hblock
      cases hstmt
      cases hkind
  · cases hrun
    refine ⟨?_, ?_⟩
    · intro block stmt out inner l src known hblock hstmt
      cases hblock
      cases hstmt
    · intro block stmt dst op l r new hblock hstmt
      cases hblock
      cases hstmt

/-- `_0 = -i64::MIN`. -/
def negatedMin : MirFunction :=
  plainFunction "negated_min" 0 [.int]
    [⟨[plainStmt (.assign 0 (.unaryOp .neg (.const (.int (BitVec.intMin 64)))))], plainTerm .ret⟩]

theorem not_yields_of_runs {f : MirFunction} {start : ScalarPoint Unit} {n : Nat}
    {o o' : Except Fault (Word × Unit)}
    (h : runs (ScalarCode.step plainScalars true f) n start = .inr o') (hne : o ≠ o') :
    ¬Yields (ScalarCode.step plainScalars true f) start o := by
  rintro ⟨m, hm⟩
  exact hne (runs_end_unique hm h)

end Runs

end Olive
