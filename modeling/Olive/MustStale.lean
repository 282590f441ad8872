import Mathlib.Data.Finset.Lattice.Fold
import Mathlib.Order.Lattice.Nat
import Olive.GenSuspects

namespace Olive

open UntilStable

/-- The eligible suspects, each with its roots in ascending order: bit `i` of a suspect's mask
stands for the root at index `i`. -/
structure MustInfo where
  suspects : List Local
  rootList : List (List Local)

def fullMaskFor (len : Nat) : Word :=
  if 64 ≤ len then BitVec.allOnes 64 else (BitVec.twoPow 64 len) - 1

def sortedRoots (roots : Finset Local) : List Local :=
  (List.range (roots.sup id + 1)).filter (· ∈ roots)

/-- Suspects with a known, checkable owner and between 1 and 64 roots. -/
def mustEligible (info : List SuspectInfo) (checkable : List Bool) (i : Local) : Bool :=
  let s := info.getD i .default
  i != 0 && s.suspect && !s.isUnknown && checkable.getD i false && s.roots != ∅ &&
    decide (s.roots.card ≤ 64)

def buildMustInfo (info : List SuspectInfo) (checkable : List Bool) : MustInfo :=
  let suspects := (List.range info.length).filter (mustEligible info checkable)
  ⟨suspects, suspects.map fun l => sortedRoots (info.getD l .default).roots⟩

namespace MustInfo

variable (must : MustInfo)

def indexOf (l : Local) : Option Nat := must.suspects.findIdx? (· == l)

def fullMask (s : Nat) : Word := fullMaskFor (must.rootList.getD s []).length

def fullMasks : List Word := must.rootList.map fun roots => fullMaskFor roots.length

/-- Every suspect index and bit index that the local `r` backs. -/
def reverse (r : Local) : List (Nat × Nat) :=
  must.rootList.zipIdx.flatMap fun roots =>
    (roots.1.zipIdx.filter (·.1 == r)).map fun bit => (roots.2, bit.2)

end MustInfo

/-- One mask a suspect, and the span of the last drop seen for it. -/
structure MustState where
  masks : List Word
  spans : List (Option Span)

structure MustStaleUse where
  bb : BasicBlockId
  /-- The statement's index, or `none` for the terminator. -/
  idx : Option Nat
  stale : Local
  freeSpan : Span
  deriving DecidableEq

/-- `dst = Move(src)` hands `src` off: its bit for root `dst` does not count at this statement. -/
def selfMoveExempt (must : MustInfo) (stmt : Statement) : Option (Nat × Nat) :=
  match stmt.kind with
  | .assign dst (.use (.move src)) =>
    (must.indexOf src).bind fun s => (must.reverse dst).find? (·.1 == s)
  | _ => none

def effectiveMask (must : MustInfo) (stmt : Statement) (masks : List Word) (s : Nat) : Word :=
  match selfMoveExempt must stmt with
  | some (es, bit) =>
    if es = s then masks.getD s 0 &&& ~~~BitVec.twoPow 64 bit else masks.getD s 0
  | none => masks.getD s 0

def stmtHits (must : MustInfo) (bb : BasicBlockId) (idx : Nat) (st : MustState)
    (stmt : Statement) : List MustStaleUse :=
  stmt.uses.filterMap fun l =>
    (must.indexOf l).bind fun s =>
      if effectiveMask must stmt st.masks s = must.fullMask s then
        some ⟨bb, some idx, l, (st.spans.getD s none).getD stmt.span⟩
      else none

def killBit (st : MustState) (bit : Nat × Nat) : MustState :=
  let mask := st.masks.getD bit.1 0 &&& ~~~BitVec.twoPow 64 bit.2
  ⟨st.masks.set bit.1 mask, if mask = 0 then st.spans.set bit.1 none else st.spans⟩

def raiseBit (span : Span) (st : MustState) (bit : Nat × Nat) : MustState :=
  ⟨st.masks.set bit.1 (st.masks.getD bit.1 0 ||| BitVec.twoPow 64 bit.2),
    st.spans.set bit.1 (some span)⟩

/-- A definition clears the suspect it defines and every bit its local backs; a drop sets the
bits the dropped local backs. -/
def mustStmt (must : MustInfo) (st : MustState) (stmt : Statement) : MustState :=
  match stmt.kind with
  | .assign dst _ =>
    let cleared : MustState := match must.indexOf dst with
      | some s => ⟨st.masks.set s 0, st.spans.set s none⟩
      | none => st
    (must.reverse dst).foldl killBit cleared
  | .drop dropped => (must.reverse dropped).foldl (raiseBit stmt.span) st
  | _ => st

def mustStmts (must : MustInfo) (stmts : List Statement) (st : MustState) : MustState :=
  stmts.foldl (mustStmt must) st

def terminatorHits (must : MustInfo) (f : MirFunction) (bb : BasicBlockId) (st : MustState) :
    List MustStaleUse :=
  match f.terminatorAt bb with
  | some ⟨.switchInt discr _ _, span⟩ =>
    match discr.local?.bind fun l => (must.indexOf l).map fun s => (l, s) with
    | some (l, s) =>
      if st.masks.getD s 0 = must.fullMask s then
        [⟨bb, none, l, (st.spans.getD s none).getD span⟩]
      else []
    | none => []
  | _ => []

/-- The uses of block `bb` that read a mask already full, in order. -/
def blockHits (must : MustInfo) (f : MirFunction) (bb : BasicBlockId) (entry : MustState) :
    List MustStaleUse :=
  ((f.stmtsAt bb).zipIdx.flatMap fun stmt =>
    stmtHits must bb stmt.2 (mustStmts must ((f.stmtsAt bb).take stmt.2) entry) stmt.1) ++
  terminatorHits must f bb (mustStmts must (f.stmtsAt bb) entry)

def MustState.meet (st other : MustState) : MustState :=
  ⟨st.masks.zipWith (· &&& ·) other.masks, st.spans.zipWith Option.or other.spans⟩

def MustState.bottom (k : Nat) : MustState := ⟨List.replicate k 0, List.replicate k none⟩

def mergePreds (must : MustInfo) (f : MirFunction) (outs : List MustState) (bb : BasicBlockId) :
    MustState :=
  let k := must.suspects.length
  match f.predecessors bb with
  | [] => .bottom k
  | p :: ps => ps.foldl (fun st q => st.meet (outs.getD q (.bottom k))) (outs.getD p (.bottom k))

/-- Blocks with predecessors start at "every root dropped", the others at "none". -/
def mustSeed (must : MustInfo) (f : MirFunction) : List MustState :=
  (List.range f.basicBlocks.length).map fun bb =>
    if f.predecessors bb = [] then .bottom must.suspects.length
    else ⟨must.fullMasks, List.replicate must.suspects.length none⟩

def mustStep (must : MustInfo) (f : MirFunction) (outs : List MustState) (bb : BasicBlockId) :
    List MustState × Bool :=
  let st := mustStmts must (f.stmtsAt bb) (mergePreds must f outs bb)
  (outs.set bb st, decide ((outs[bb]?).map (·.masks) ≠ some st.masks))

def mustLoop (must : MustInfo) (f : MirFunction) (fuel : Nat) : Option (List MustState) :=
  untilStable (sweep (mustStep must f) (List.range f.basicBlocks.length)) fuel (mustSeed must f)

def findMustStale (f : MirFunction) (info : List SuspectInfo) (checkable : List Bool)
    (fuel : Nat) : Option (List MustStaleUse) :=
  let must := buildMustInfo info checkable
  if must.suspects = [] ∨ f.basicBlocks = [] then some []
  else
    (mustLoop must f fuel).map fun outs =>
      (List.range f.basicBlocks.length).flatMap fun bb =>
        blockHits must f bb (mergePreds must f outs bb)

/-- Running `stmts` drops `r`, and afterwards assigns neither `r` nor `l`. -/
def Staled (l r : Local) (stmts : List Statement) : Prop :=
  ∃ before drop after, stmts = before ++ drop :: after ∧ drop.kind = .drop r ∧
    ∀ stmt ∈ after, stmt.dst? ≠ some l ∧ stmt.dst? ≠ some r

end Olive
