import Olive.Cfg
import Olive.Flags
import Olive.RoundRobin

namespace Olive

open UntilStable RoundRobin Flags FlowGraph

/-- `RUNTIME_BORROWED_RETURNS`: runtime calls whose result is a view. -/
def runtimeBorrowedReturns : List String :=
  ["__olive_struct_unbox", "__olive_obj_get", "__olive_obj_get_typed", "__olive_obj_get_boxed",
    "__olive_obj_get_default", "__olive_obj_get_default_typed", "__olive_obj_get_default_boxed",
    "__olive_obj_get_default_boxed_typed", "__olive_obj_set", "__olive_obj_setdefault",
    "__olive_obj_setdefault_typed", "__olive_obj_update", "__olive_obj_update_typed",
    "__olive_obj_clear"]

def runtimeBorrowedReturn (name : String) : Bool :=
  runtimeBorrowedReturns.contains name

def rvalueBorrows (borrowed : Finset String) (state : List Bool) : Rvalue → Bool
  | .use (.copy src) | .use (.move src) => state[src]? == some true
  | .getIndex _ _ _ | .getAttr _ _ | .ptrLoad _ | .fatPtrData _ | .vtableLoad _ _ => true
  | .call (.const (.function name)) _ => decide (name ∈ borrowed) || runtimeBorrowedReturn name
  | _ => false

def borrowStmt (borrowed : Finset String) (state : List Bool) (stmt : Statement) : List Bool :=
  match stmt.kind with
  | .assign dst rval => state.set dst (rvalueBorrows borrowed state rval)
  | _ => state

def borrowStmts (borrowed : Finset String) (stmts : List Statement) (state : List Bool) :
    List Bool :=
  stmts.foldl (borrowStmt borrowed) state

def paramFlags (f : MirFunction) : List Bool :=
  (List.range f.locals.length).map fun l =>
    decide (1 ≤ l ∧ l < min f.argCount (f.locals.length - 1) + 1)

def orFlags (state other : List Bool) : List Bool := state.zipWith (· || ·) other

/-- A predecessor's contribution: its statements, run on its own out state. -/
def edgeFlags (f : MirFunction) (borrowed : Finset String) (states : List (List Bool × List Bool))
    (p : BasicBlockId) : List Bool :=
  borrowStmts borrowed (f.stmtsAt p) (states.getD p ([], [])).2

def borrowEntry (f : MirFunction) (borrowed : Finset String)
    (states : List (List Bool × List Bool)) (bb : BasicBlockId) : List Bool :=
  let joined := (f.predecessors bb).foldl
    (fun state p => orFlags state (edgeFlags f borrowed states p))
    (List.replicate f.locals.length false)
  if bb = 0 then orFlags joined (paramFlags f) else joined

/-- The entry and out states of block `bb`, recomputed from the other blocks' out states. -/
def borrowFlow (f : MirFunction) (borrowed : Finset String)
    (states : List (List Bool × List Bool)) (bb : BasicBlockId) : List Bool × List Bool :=
  let entry := borrowEntry f borrowed states bb
  (entry, borrowStmts borrowed (f.stmtsAt bb) entry)

/-- The parameters are marked in every block, not only in the entry block. -/
def borrowSeed (f : MirFunction) : List (List Bool × List Bool) :=
  List.replicate f.basicBlocks.length (paramFlags f, paramFlags f)

def borrowLoop (f : MirFunction) (borrowed : Finset String) (fuel : Nat) :
    Option (List (List Bool × List Bool)) :=
  solve (borrowFlow f borrowed) f.basicBlocks.length fuel (borrowSeed f)

def MirFunction.returnsMove (f : MirFunction) : Bool :=
  match f.locals.head? with
  | some decl => decl.ty.isMoveType
  | none => false

def returnsBorrow (f : MirFunction) (borrowed : Finset String) (fuel : Nat) : Option Bool :=
  if f.returnsMove then
    (borrowLoop f borrowed fuel).map fun states =>
      (List.range f.basicBlocks.length).any fun bb =>
        f.returnsAt bb && (states.getD bb ([], [])).2[0]? == some true
  else some false

/-- One function's turn; `none` stands for an inner loop that has not ended within `fuel`. -/
def borrowedStep (fuel : Nat) (borrowed : Option (Finset String)) (f : MirFunction) :
    Option (Finset String) × Bool :=
  match borrowed with
  | none => (none, true)
  | some names =>
    if f.name ∈ names then (some names, false)
    else
      match returnsBorrow f names fuel with
      | none => (none, true)
      | some true => (some (insert f.name names), true)
      | some false => (some names, false)

def computeBorrowedReturns (functions : List MirFunction) (fuel : Nat) : Option (Finset String) :=
  (untilStable (sweep (borrowedStep fuel) functions) (functions.length + 1) (some ∅)).join

/-- Rvalues whose result is a view into a value owned elsewhere. -/
inductive BorrowSource (borrowed : Finset String) : Rvalue → Prop where
  | getIndex {obj idx unchecked} : BorrowSource borrowed (.getIndex obj idx unchecked)
  | getAttr {obj attr} : BorrowSource borrowed (.getAttr obj attr)
  | ptrLoad {op} : BorrowSource borrowed (.ptrLoad op)
  | fatPtrData {op} : BorrowSource borrowed (.fatPtrData op)
  | vtableLoad {vtable idx} : BorrowSource borrowed (.vtableLoad vtable idx)
  | call {name args} : name ∈ borrowed → BorrowSource borrowed (.call (.const (.function name)) args)
  | runtimeCall {name args} : name ∈ runtimeBorrowedReturns →
      BorrowSource borrowed (.call (.const (.function name)) args)

/-- Running `stmts` from `f`'s entry leaves in local `l` a value obtained, through copies and
moves, from a parameter or a borrow source. -/
inductive HoldsBorrow (f : MirFunction) (borrowed : Finset String) :
    List Statement → Local → Prop where
  | param {i : Nat} : i < f.argCount → i + 1 < f.locals.length → HoldsBorrow f borrowed [] (i + 1)
  | keep {stmts : List Statement} {stmt : Statement} {l : Local} : HoldsBorrow f borrowed stmts l →
      stmt.dst? ≠ some l → HoldsBorrow f borrowed (stmts ++ [stmt]) l
  | copy {stmts : List Statement} {stmt : Statement} {dst src : Local} :
      HoldsBorrow f borrowed stmts src → stmt.copy? = some (dst, src) → dst < f.locals.length →
      HoldsBorrow f borrowed (stmts ++ [stmt]) dst
  | source {stmts : List Statement} {stmt : Statement} {dst : Local} {rval : Rvalue} :
      stmt.kind = .assign dst rval → BorrowSource borrowed rval → dst < f.locals.length →
      HoldsBorrow f borrowed (stmts ++ [stmt]) dst

/-- Some walk from the entry to a `Return` leaves a borrow in the return slot. -/
def BorrowsOnPath (f : MirFunction) (borrowed : Finset String) : Prop :=
  ∃ before bb, Walk f.successors before bb ∧ f.returnsAt bb = true ∧
    HoldsBorrow f borrowed (f.walkStmts before ++ f.stmtsAt bb) 0

/-- The marks along a walk whose blocks each run twice in a row. -/
def replayed (f : MirFunction) (borrowed : Finset String) (before : List BasicBlockId) :
    List Bool :=
  before.foldl
    (fun state p => borrowStmts borrowed (f.stmtsAt p) (borrowStmts borrowed (f.stmtsAt p) state))
    (paramFlags f)

/-- Some walk to a `Return` marks the return slot when every block passed runs twice in a row. -/
def BorrowsReplayed (f : MirFunction) (borrowed : Finset String) : Prop :=
  ∃ before bb, Walk f.successors before bb ∧ f.returnsAt bb = true ∧
    0 ∈ flagFacts (borrowStmts borrowed (f.stmtsAt bb) (replayed f borrowed before))

open Flags

@[simp] theorem borrowStmt_length (borrowed : Finset String) (state : List Bool)
    (stmt : Statement) : (borrowStmt borrowed state stmt).length = state.length := by
  unfold borrowStmt
  split <;> simp

@[simp] theorem borrowStmts_length (borrowed : Finset String) (stmts : List Statement)
    (state : List Bool) : (borrowStmts borrowed stmts state).length = state.length := by
  induction stmts generalizing state with
  | nil => rfl
  | cons stmt stmts ih => exact (ih _).trans (borrowStmt_length _ _ _)

theorem borrowStmts_append (borrowed : Finset String) (stmts stmts' : List Statement)
    (state : List Bool) : borrowStmts borrowed (stmts ++ stmts') state =
      borrowStmts borrowed stmts' (borrowStmts borrowed stmts state) :=
  List.foldl_append

@[simp] theorem paramFlags_length (f : MirFunction) :
    (paramFlags f).length = f.locals.length := by
  simp [paramFlags]

theorem mem_paramFlags {f : MirFunction} {l : Local} : l ∈ flagFacts (paramFlags f) ↔
    ∃ i, i < f.argCount ∧ i + 1 < f.locals.length ∧ l = i + 1 := by
  rw [mem_flagFacts, paramFlags, List.getElem?_map, Option.map_eq_some_iff]
  constructor
  · rintro ⟨k, hk, hp⟩
    have hkl : k = l := by
      obtain ⟨_, he⟩ := List.getElem?_eq_some_iff.mp hk
      simpa using he.symm
    have hlt : l < f.locals.length := by
      simpa using (List.getElem?_eq_some_iff.mp hk).1
    rw [hkl, decide_eq_true_eq] at hp
    exact ⟨l - 1, by omega, by omega, (Nat.sub_add_cancel hp.1).symm⟩
  · rintro ⟨i, hi, hl, rfl⟩
    exact ⟨i + 1, List.getElem?_range hl, decide_eq_true (by omega)⟩

theorem borrowStmt_keep {borrowed : Finset String} {state : List Bool} {stmt : Statement}
    {l : Local} (h : stmt.dst? ≠ some l) :
    l ∈ flagFacts (borrowStmt borrowed state stmt) ↔ l ∈ flagFacts state := by
  unfold borrowStmt
  split
  next dst rval hk =>
    have hne : l ≠ dst := fun he => h (Statement.dst?_eq_some.mpr ⟨rval, he ▸ hk⟩)
    rw [mem_flagFacts_set, if_neg hne]
  next => rfl

theorem borrowStmt_dst {borrowed : Finset String} {state : List Bool} {stmt : Statement}
    {dst : Local} {rval : Rvalue} (hk : stmt.kind = .assign dst rval) (hd : dst < state.length) :
    dst ∈ flagFacts (borrowStmt borrowed state stmt) ↔
      rvalueBorrows borrowed state rval = true := by
  simp [borrowStmt, hk, mem_flagFacts_set, hd]

theorem rvalueBorrows_iff {borrowed : Finset String} {state : List Bool} {rval : Rvalue} :
    rvalueBorrows borrowed state rval = true ↔
      (∃ src, (rval = .use (.copy src) ∨ rval = .use (.move src)) ∧ src ∈ flagFacts state) ∨
        BorrowSource borrowed rval := by
  constructor
  · intro h
    unfold rvalueBorrows at h
    split at h
    · exact .inl ⟨_, .inl rfl, mem_flagFacts.mpr (by simpa using h)⟩
    · exact .inl ⟨_, .inr rfl, mem_flagFacts.mpr (by simpa using h)⟩
    · exact .inr .getIndex
    · exact .inr .getAttr
    · exact .inr .ptrLoad
    · exact .inr .fatPtrData
    · exact .inr .vtableLoad
    · rcases Bool.or_eq_true_iff.mp h with h | h
      · exact .inr (.call (of_decide_eq_true h))
      · exact .inr (.runtimeCall (by simpa [runtimeBorrowedReturn] using h))
    · simp at h
  · rintro (⟨src, rfl | rfl, hs⟩ | h)
    · simpa [rvalueBorrows] using mem_flagFacts.mp hs
    · simpa [rvalueBorrows] using mem_flagFacts.mp hs
    · cases h with
      | call hn => simp [rvalueBorrows, hn]
      | runtimeCall hn => simp [rvalueBorrows, runtimeBorrowedReturn, hn]
      | _ => rfl

/-- The marks after a list of statements are the locals that hold a borrow there. -/
theorem holdsBorrow_iff {f : MirFunction} {borrowed : Finset String} {stmts : List Statement}
    {l : Local} : HoldsBorrow f borrowed stmts l ↔
      l ∈ flagFacts (borrowStmts borrowed stmts (paramFlags f)) := by
  constructor
  · intro h
    induction h with
    | param hi hl => exact mem_paramFlags.mpr ⟨_, hi, hl, rfl⟩
    | keep _ hd ih =>
      rw [borrowStmts_append]
      exact (borrowStmt_keep hd).mpr ih
    | copy _ hc hd ih =>
      rw [borrowStmts_append]
      rcases Statement.copy?_eq_some.mp hc with hk | hk
      · exact (borrowStmt_dst hk (by simpa using hd)).mpr
          (rvalueBorrows_iff.mpr (.inl ⟨_, .inl rfl, ih⟩))
      · exact (borrowStmt_dst hk (by simpa using hd)).mpr
          (rvalueBorrows_iff.mpr (.inl ⟨_, .inr rfl, ih⟩))
    | source hk hs hd =>
      rw [borrowStmts_append]
      exact (borrowStmt_dst hk (by simpa using hd)).mpr (rvalueBorrows_iff.mpr (.inr hs))
  · intro h
    induction stmts using List.reverseRecOn generalizing l with
    | nil =>
      obtain ⟨i, hi, hl, rfl⟩ := mem_paramFlags.mp h
      exact .param hi hl
    | append_singleton stmts stmt ih =>
      rw [borrowStmts_append] at h
      by_cases hd : stmt.dst? = some l
      · obtain ⟨rval, hk⟩ := Statement.dst?_eq_some.mp hd
        have hl : l < f.locals.length := by simpa using lt_length_of_mem h
        rcases rvalueBorrows_iff.mp ((borrowStmt_dst hk (by simpa using hl)).mp h) with
          ⟨src, rfl | rfl, hs⟩ | hs
        · exact .copy (ih hs) (Statement.copy?_eq_some.mpr (.inl hk)) hl
        · exact .copy (ih hs) (Statement.copy?_eq_some.mpr (.inr hk)) hl
        · exact .source hk hs hl
      · exact .keep (ih ((borrowStmt_keep hd).mp h)) hd

/-- Where a mark comes from: it is set whatever the marks before, or it copies one of them. -/
inductive MarkSource where
  | const (marked : Bool)
  | copied (l : Local)

def MarkSource.Holds (state : List Bool) : MarkSource → Prop
  | .const marked => marked = true
  | .copied l => l ∈ flagFacts state

theorem rvalueBorrows_source (borrowed : Finset String) (rval : Rvalue) :
    ∃ source : MarkSource, ∀ state, rvalueBorrows borrowed state rval = true ↔
      source.Holds state := by
  unfold rvalueBorrows
  split
  next src => exact ⟨.copied src, fun state => by simp [MarkSource.Holds, mem_flagFacts]⟩
  next src => exact ⟨.copied src, fun state => by simp [MarkSource.Holds, mem_flagFacts]⟩
  all_goals exact ⟨.const _, fun state => Iff.rfl⟩

theorem borrowStmts_source (borrowed : Finset String) (stmts : List Statement) {n l : Nat}
    (hl : l < n) : ∃ source : MarkSource, ∀ state : List Bool, state.length = n →
      (l ∈ flagFacts (borrowStmts borrowed stmts state) ↔ source.Holds state) := by
  induction stmts using List.reverseRecOn generalizing l with
  | nil => exact ⟨.copied l, fun _ _ => Iff.rfl⟩
  | append_singleton stmts stmt ih =>
    simp only [borrowStmts_append]
    by_cases hd : stmt.dst? = some l
    · obtain ⟨rval, hk⟩ := Statement.dst?_eq_some.mp hd
      obtain ⟨source, hs⟩ := rvalueBorrows_source borrowed rval
      cases source with
      | const marked =>
        refine ⟨.const marked, fun state hn => ?_⟩
        exact (borrowStmt_dst hk (by simpa [hn] using hl)).trans (hs _)
      | copied src =>
        by_cases hsrc : src < n
        · obtain ⟨source, hi⟩ := ih hsrc
          refine ⟨source, fun state hn => ?_⟩
          exact ((borrowStmt_dst hk (by simpa [hn] using hl)).trans (hs _)).trans (hi state hn)
        · refine ⟨.const false, fun state hn => ?_⟩
          refine ((borrowStmt_dst hk (by simpa [hn] using hl)).trans (hs _)).trans ?_
          simp only [MarkSource.Holds, Bool.false_eq_true, iff_false]
          intro hmem
          exact hsrc (by simpa [hn] using lt_length_of_mem hmem)
    · obtain ⟨source, hi⟩ := ih hl
      exact ⟨source, fun state hn => (borrowStmt_keep hd).trans (hi state hn)⟩

/-- More marks, and more borrowing callees, before `stmts` leave more marks after them. -/
theorem borrowStmts_mono {borrowed borrowed' : Finset String} (hb : borrowed ⊆ borrowed')
    (stmts : List Statement) {state state' : List Bool} (hlen : state.length = state'.length)
    (h : flagFacts state ⊆ flagFacts state') :
    flagFacts (borrowStmts borrowed stmts state) ⊆ flagFacts (borrowStmts borrowed' stmts state') := by
  induction stmts using List.reverseRecOn with
  | nil => exact h
  | append_singleton stmts stmt ih =>
    intro l hl
    rw [borrowStmts_append] at hl ⊢
    by_cases hd : stmt.dst? = some l
    · obtain ⟨rval, hk⟩ := Statement.dst?_eq_some.mp hd
      have hlt : l < state.length := by simpa using lt_length_of_mem hl
      refine (borrowStmt_dst hk (by simpa [← hlen] using hlt)).mpr ?_
      rcases rvalueBorrows_iff.mp ((borrowStmt_dst hk (by simpa using hlt)).mp hl) with
        ⟨src, hr, hs⟩ | hs
      · exact rvalueBorrows_iff.mpr (.inl ⟨src, hr, ih hs⟩)
      · refine rvalueBorrows_iff.mpr (.inr ?_)
        cases hs with
        | call hn => exact .call (hb hn)
        | runtimeCall hn => exact .runtimeCall hn
        | getIndex => exact .getIndex
        | getAttr => exact .getAttr
        | ptrLoad => exact .ptrLoad
        | fatPtrData => exact .fatPtrData
        | vtableLoad => exact .vtableLoad
    · exact (borrowStmt_keep hd).mpr (ih ((borrowStmt_keep hd).mp hl))

end Olive
