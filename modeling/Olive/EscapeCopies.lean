import Olive.Ir

namespace Olive

/-- Packed collection tags of a py-call, with how they index the aggregate's positions. -/
inductive PyCallTagSource where
  | args (tags : Word)
  | kwargs (tags : Word)
  | kwargsFlat (tags : Word)
  deriving DecidableEq

structure PyCallShape where
  argsListPos : Nat
  collTagsPos : Nat
  kwargs : Option (Nat × Nat)
  kwFlat : Bool

def pyCallShape (name : String) : Option PyCallShape :=
  match name with
  | "__olive_py_call" | "__olive_py_call_safe" | "__olive_py_call_t" | "__olive_py_call_t_safe" =>
    some ⟨1, 2, none, false⟩
  | "__olive_py_call_kw" | "__olive_py_call_kw_safe" => some ⟨1, 2, some (3, 4), false⟩
  | "__olive_py_call_kw_v" | "__olive_py_call_kw_v_safe" => some ⟨1, 2, some (5, 6), true⟩
  | "__olive_py_call_method_kw_v" | "__olive_py_call_method_kw_v_safe" =>
    some ⟨2, 3, some (6, 7), true⟩
  | _ => none

/-- The constant tag word at `tagsPos` of a call whose argument `listPos` is `dst`. -/
def tagsOfList (args : List Operand) (dst : Local) (listPos tagsPos : Nat) : Option Word :=
  match args[listPos]?, args[tagsPos]? with
  | some op, some (.const (.int tags)) => if op.local? = some dst then some tags else none
  | _, _ => none

def pyCallTagsOfCall (dst : Local) (stmt : Statement) : Option PyCallTagSource :=
  match stmt.kind with
  | .assign _ (.call (.const (.function name)) args) =>
    match pyCallShape name with
    | none => none
    | some shape =>
      match tagsOfList args dst shape.argsListPos shape.collTagsPos with
      | some tags => some (.args tags)
      | none =>
        match shape.kwargs with
        | none => none
        | some (kwListPos, kwCollPos) =>
          (tagsOfList args dst kwListPos kwCollPos).map fun tags =>
            if shape.kwFlat then .kwargsFlat tags else .kwargs tags
  | _ => none

/-- The tags of the first later py-call of the block that consumes the aggregate `dst`. -/
def pyCallCollTags (stmts : List Statement) (idx : Nat) (dst : Local) : Option PyCallTagSource :=
  (stmts.drop (idx + 1)).findSome? (pyCallTagsOfCall dst)

def tagAt (tags : Word) (i : Nat) : Word :=
  if 16 ≤ i then 0 else tags.sshiftRight (i * 4) &&& 0xF

def pyCallTagForPos (src : PyCallTagSource) (pos : Nat) : Word :=
  match src with
  | .args tags | .kwargsFlat tags => tagAt tags pos
  | .kwargs tags => if pos % 2 = 1 then tagAt tags (pos / 2) else 0

end Olive
