import Olive.LoopUtils
import Olive.StackWalk

/-! `ListAppend`. -/

namespace Olive

namespace ListAppend

open FlowGraph UntilStable

/-- An assignment of the local counts. -/
def reads (kind : StatementKind) (t : Local) : Bool :=
  match kind with
  | .assign dst rval => dst == t || rval.locals.contains t
  | .setAttr obj _ val | .ptrStore obj val => [obj, val].any fun op => op.local? == some t
  | .setIndex obj idx val _ | .vectorStore obj idx val =>
    [obj, idx, val].any fun op => op.local? == some t
  | .genCheck value generation => value == t || generation == t
  | .storageLive _ | .storageDead _ | .drop _ => false

/-- A local that the statement moves out of is not looked at. -/
def clobbers (kind : StatementKind) (watched : List Local) : Bool :=
  match kind with
  | .assign dst _ => watched.contains dst
  | .drop l | .storageDead l => watched.contains l
  | .setAttr obj _ _ | .ptrStore obj _ | .setIndex obj _ _ _ | .vectorStore obj _ _ =>
    obj.local?.any watched.contains
  | .storageLive _ | .genCheck _ _ => false

def isMarkerFor (kind : StatementKind) (t : Local) : Bool :=
  match kind with
  | .storageLive x | .storageDead x | .drop x => x == t
  | _ => false

/-- `temp = [ops]` and, further on, `dst = __olive_list_concat_move(left, temp)`. -/
structure Site where
  defBb : BasicBlockId
  defIdx : Nat
  useBb : BasicBlockId
  useIdx : Nat
  dst : Local
  left : Local
  temp : Local
  ops : List Operand

def switchedOn (term : Option Terminator) (t : Local) : Bool :=
  match term with
  | some ⟨.switchInt discr _ _, _⟩ => discr.local? == some t
  | _ => false

def tempIsPrivate (f : MirFunction) (s : Site) : Bool :=
  f.basicBlocks.zipIdx.all fun b =>
    (b.1.statements.zipIdx.all fun st =>
      decide ((b.2, st.2) = (s.defBb, s.defIdx) ∨ (b.2, st.2) = (s.useBb, s.useIdx)) ||
        isMarkerFor st.1.kind s.temp || !reads st.1.kind s.temp) &&
    !switchedOn b.1.terminator s.temp

def Site.watched (s : Site) : List Local := s.left :: s.ops.filterMap Operand.local?

def clear (stmts : List Statement) (watched : List Local) : Bool :=
  !stmts.any fun st => clobbers st.kind watched

/-- `none` is a panic: the slice between the two statements of one block ends before it starts. -/
def pathIsClear (f : MirFunction) (s : Site) : Option Bool :=
  if s.defBb = s.useBb then
    if s.defIdx < s.useIdx then
      some (clear (((f.stmtsAt s.defBb).take s.useIdx).drop (s.defIdx + 1)) s.watched)
    else none
  else
    some (clear ((f.stmtsAt s.defBb).drop (s.defIdx + 1)) s.watched &&
      clear ((f.stmtsAt s.useBb).take s.useIdx) s.watched &&
      walkClear f.successors f.basicBlocks.length (fun b => b == s.useBb)
        (fun b => clear (f.stmtsAt b) s.watched) (f.successors s.defBb).reverse [])

/-- The list literals that are assigned to `temp`. -/
def literalsOf (f : MirFunction) (temp : Local) : List (BasicBlockId × Nat × List Operand) :=
  f.basicBlocks.zipIdx.flatMap fun b => b.1.statements.zipIdx.filterMap fun st =>
    match st.1.kind with
    | .assign dst (.aggregate .list ops) => if dst = temp then some (b.2, st.2, ops) else none
    | _ => none

/-- The only literal, in a block that dominates the concat. -/
def findLiteral (f : MirFunction) (temp : Local) (useBb : BasicBlockId) :
    Option (BasicBlockId × Nat × List Operand) :=
  match literalsOf f temp with
  | [l] =>
    if l.1 ∈ dominatorsOf (immediateDominators f) f.basicBlocks.length useBb then some l else none
  | _ => none

def siteAt (f : MirFunction) (useBb : BasicBlockId) (useIdx : Nat) (stmt : Statement) : Option Site :=
  match stmt.kind with
  | .assign dst (.call (.const (.function name)) [.move left, .copy temp]) =>
    if name = "__olive_list_concat_move" then
      (findLiteral f temp useBb).map fun l => ⟨l.1, l.2.1, useBb, useIdx, dst, left, temp, l.2.2⟩
    else none
  | _ => none

def sites (f : MirFunction) : List Site :=
  f.basicBlocks.zipIdx.flatMap fun b => b.1.statements.zipIdx.filterMap fun st =>
    siteAt f b.2 st.2 st.1

def firstClear (f : MirFunction) : List Site → Option (Option Site)
  | [] => some none
  | s :: rest =>
    if tempIsPrivate f s then
      match pathIsClear f s with
      | none => none
      | some true => some (some s)
      | some false => firstClear f rest
    else firstClear f rest

def findSite (f : MirFunction) : Option (Option Site) := firstClear f (sites f)

/-- What the concat becomes. -/
def appends (s : Site) (span : Span) : List Statement :=
  match s.ops with
  | [] => [⟨.assign s.dst (.use (.move s.left)), span⟩]
  | ops => ops.mapIdx fun i op =>
    ⟨.assign s.dst (.call (.const (.function "__olive_list_push"))
      [.move (if i = 0 then s.left else s.dst), op]), span⟩

def apply (f : MirFunction) (s : Site) : MirFunction :=
  let span := ((f.stmtsAt s.useBb)[s.useIdx]?.map (·.span)).getD .default
  let spliced := f.basicBlocks.modify s.useBb fun b => { b with
    statements := b.statements.take s.useIdx ++ appends s span ++ b.statements.drop (s.useIdx + 1) }
  let removed := spliced.modify s.defBb fun b => { b with
    statements := b.statements.eraseIdx s.defIdx }
  { f with basicBlocks := removed.map fun b => { b with
    statements := b.statements.filter fun st => !isMarkerFor st.kind s.temp } }

/-- One turn of the loop; no function is a panic. -/
def turn (f : Option MirFunction) : Option MirFunction × Bool :=
  match f with
  | none => (none, false)
  | some f =>
    match findSite f with
    | none => (none, false)
    | some none => (some f, false)
    | some (some s) => (some (apply f s), true)

def run (fuel : Nat) (f : MirFunction) : Option (Option MirFunction) := untilStable turn fuel (some f)

end ListAppend

end Olive
