import Olive.ListAppend
import Olive.MachineFrame

/-! Runs in which the list of a literal stays with the local that it is assigned to, where nothing
else can point to it. -/

namespace Olive

namespace ListAppend

open Lockstep

/-- The statement does with the local no more than assign a list literal to it, append its elements
to another list, or drop it. -/
def apartIn (t : Local) (kind : StatementKind) : Bool :=
  match kind with
  | .assign _ (.aggregate .list ops) => !ops.any fun op => op.local? == some t
  | .assign dst (.call (.const (.function name)) [list, .copy _]) =>
    if name = "__olive_list_concat_move" then dst != t && list.local? != some t else !reads kind t
  | _ => !reads kind t

def apart (f : MirFunction) (t : Local) : Bool :=
  decide (f.argCount < t) && f.basicBlocks.all fun b =>
    (b.statements.all fun st => apartIn t st.kind) && !switchedOn b.terminator t

structure ListRuntime (W : Type) extends Runtime W where
  /-- The address that the next new list gets. -/
  newList : World W → Word
  newList_ne_zero : ∀ w, newList w ≠ 0

/-- The variables and the world, and the lists of the locals that nothing else can point to; `none`
is null. -/
structure HeldState (W : Type) where
  state : State W
  held : Local → Option (List Word)

structure HeldPoint (W : Type) where
  bb : BasicBlockId
  idx : Nat
  state : HeldState W

def hold (held : Local → Option (List Word)) (l : Local) (xs : Option (List Word)) :
    Local → Option (List Word) :=
  fun x => if x = l then xs else held x

def putList {W : Type} (w : World W) (a : Word) (xs : List Word) : World W :=
  { w with lists := fun x => if x = a then some xs else w.lists x }

/-- What a statement does with the lists that are held. -/
inductive ListOp where
  | literal (dst : Local) (ops : List Operand)
  | push (dst : Local) (list elem : Operand)
  | concat (dst : Local) (list : Operand) (right : Local)
  | drop (l : Local)
  | other

def listOp (P : Local → Bool) (kind : StatementKind) : ListOp :=
  match kind with
  | .assign dst (.aggregate .list ops) => if P dst then .literal dst ops else .other
  | .assign dst (.call (.const (.function name)) [list, elem]) =>
    if name = "__olive_list_push" then .push dst list elem
    else if name = "__olive_list_concat_move" then
      match elem with
      | .copy right => if P right then .concat dst list right else .other
      | _ => .other
    else .other
  | .drop l => if P l then .drop l else .other
  | _ => .other

def elemType : OliveType → OliveType
  | .list item => item
  | _ => .any

section Exec

variable {W : Type} (rt : ListRuntime W) (P : Local → Bool) (decls : List LocalDecl)

/-- `olive_list_push`. -/
def push (l v : Word) (w : World W) : Except Fault (Word × World W) :=
  if l = 0 then .ok (rt.newList w, putList w (rt.newList w) [v])
  else match w.lists l with
    | some xs => .ok (l, putList w l (xs ++ [v]))
    | none => .error .wild

/-- `olive_list_concat_move`, for a right list that is null or held. -/
def concatMove (l : Word) (right : Option (List Word)) (w : World W) : Except Fault (Word × World W) :=
  match right with
  | none => .ok (l, w)
  | some ys =>
    if l = 0 then .ok (rt.newList w, putList w (rt.newList w) ys)
    else match w.lists l with
      | some xs => .ok (l, putList w l (xs ++ ys))
      | none => .error .wild

def assignList (s : State W) (locals : Local → Val) (dst : Local) (r : Word × World W) : State W :=
  ⟨setLocal locals dst (rt.fit (tyOf decls dst) (.word r.1)), r.2, s.log⟩

def freeAll (item : OliveType) (xs : List Word) (w : World W) : World W :=
  xs.foldl (fun w x => rt.free item (.word x) w) w

def execList (s : HeldState W) (stmt : Statement) : Except Fault (HeldState W) :=
  match listOp P stmt.kind with
  | .literal dst ops =>
    let evaluated := rt.evalOperands s.state.locals ops
    .ok ⟨{ s.state with locals := evaluated.2 },
      hold s.held dst (some (evaluated.1.map Val.toWord))⟩
  | .push dst list elem =>
    let first := rt.evalOperand s.state.locals list
    let second := rt.evalOperand first.2 elem
    (push rt first.1.toWord second.1.toWord s.state.world).map fun r =>
      ⟨assignList rt decls s.state second.2 dst r, s.held⟩
  | .concat dst list right =>
    let first := rt.evalOperand s.state.locals list
    (concatMove rt first.1.toWord (s.held right) s.state.world).map fun r =>
      ⟨assignList rt decls s.state first.2 dst r, hold s.held right ((s.held right).map fun _ => [])⟩
  | .drop l =>
    .ok (if (tyOf decls l).needsDrop then
      ⟨{ s.state with
          world := freeAll rt (elemType (tyOf decls l)) ((s.held l).getD []) s.state.world },
        hold s.held l none⟩
    else s)
  | .other => (rt.execStmt decls s.state stmt).map fun state => ⟨state, s.held⟩

def heldStep (f : MirFunction) (p : HeldPoint W) : HeldPoint W ⊕ Outcome W :=
  match f.basicBlocks[p.bb]? with
  | none => .inr (.faulted .trap p.state.state.world p.state.state.log)
  | some block =>
    match block.statements[p.idx]? with
    | some stmt =>
      match execList rt P f.locals p.state stmt with
      | .ok s => .inl ⟨p.bb, p.idx + 1, s⟩
      | .error e => .inr (.faulted e p.state.state.world p.state.state.log)
    | none =>
      match rt.execTerm f.locals p.state.state block.terminator with
      | .inl (bb, s) => .inl ⟨bb, 0, ⟨s, p.state.held⟩⟩
      | .inr o => .inr o

/-- One step, with the lists held that the function keeps apart. -/
def apartStep (f : MirFunction) : HeldPoint W → HeldPoint W ⊕ Outcome W := heldStep rt (apart f) f

def heldStart (args : List Val) (w : World W) : HeldPoint W :=
  ⟨0, 0, ⟨(startPoint args w).state, fun _ => none⟩⟩

end Exec

section Lists

variable {W : Type} (rt : ListRuntime W)

/-- Pushes of one element after another. -/
def pushAll (l : Word) : List Word → World W → Except Fault (Word × World W)
  | [], w => .ok (l, w)
  | v :: vs, w => (push rt l v w).bind fun r => pushAll r.1 vs r.2

variable {rt}

theorem putList_putList (w : World W) (a : Word) (xs ys : List Word) :
    putList (putList w a xs) a ys = putList w a ys := by
  simp only [putList, World.mk.injEq, and_true]
  funext x
  split
  · rfl
  · rfl

theorem pushAll_put {a : Word} (ha : a ≠ 0) (vs xs : List Word) (w : World W) :
    pushAll rt a vs (putList w a xs) = .ok (a, putList w a (xs ++ vs)) := by
  induction vs generalizing xs with
  | nil => rw [List.append_nil]; rfl
  | cons v vs ih =>
    have hlist : (putList w a xs).lists a = some xs := if_pos rfl
    have hpush : push rt a v (putList w a xs) = .ok (a, putList w a (xs ++ [v])) := by
      simp only [push, if_neg ha, hlist, putList_putList]
    rw [pushAll, hpush]
    exact (ih (xs ++ [v])).trans (by rw [List.append_assoc]; rfl)

/-- Pushing the elements one by one is what appending them at once is. -/
theorem pushAll_eq (l v : Word) (vs : List Word) (w : World W) :
    pushAll rt l (v :: vs) w = concatMove rt l (some (v :: vs)) w := by
  by_cases hl : l = 0
  · subst hl
    simp only [pushAll, push, concatMove, if_true, Except.bind]
    exact pushAll_put (rt.newList_ne_zero w) vs [v] w
  · cases hlist : w.lists l with
    | none => simp only [pushAll, push, concatMove, if_neg hl, hlist, Except.bind]
    | some xs =>
      simp only [pushAll, push, concatMove, if_neg hl, hlist, Except.bind]
      rw [pushAll_put hl, List.append_assoc]
      rfl

end Lists

end ListAppend

end Olive
