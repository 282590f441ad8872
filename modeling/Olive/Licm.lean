import Olive.LoopUtils
import Olive.Machine
import Olive.Counting
import Olive.MachineFrame

namespace Olive

open UntilStable

section Invariance

variable (f : MirFunction) (body : List BasicBlockId)

def assignCount (l : Local) : Nat :=
  (f.statements.filter fun stmt => decide (stmt.writes? = some l)).length

def definedIn (l : Local) : Bool :=
  body.any fun b => (f.stmtsAt b).any fun stmt => decide (stmt.writes? = some l)

def isOpInvariant (invariants : List Local) (op : Operand) : Bool :=
  match op.local? with
  | some l => !definedIn f body l || decide (l ∈ invariants)
  | none => true

def isInvariant (invariants : List Local) : Rvalue → Bool
  | .use op | .unaryOp _ op => isOpInvariant f body invariants op
  | .binaryOp _ l r | .getIndex l r _ =>
    isOpInvariant f body invariants l && isOpInvariant f body invariants r
  | _ => false

def isSafeToHoist : Rvalue → Bool
  | .use _ | .unaryOp _ _ | .binaryOp _ _ _ | .getIndex _ _ _ => true
  | _ => false

/-- Callees that only read the object in their first argument. -/
def pureReadCalls : List String := ["__olive_py_len", "__olive_py_getitem_int", "__olive_py_getitem"]

/-- The call reads `target` as its first argument and mentions it nowhere else. -/
def isPureReadOf (target : Local) : Operand → List Operand → Bool
  | .const (.function name), arg :: args =>
    decide (name ∈ pureReadCalls) && decide (arg.local? = some target) &&
      args.all fun a => decide (a.local? ≠ some target)
  | _, _ => false

/-- Whether a statement leaves what `target` points at alone: only reads of its elements do. -/
def leavesUntouched (target : Local) (stmt : Statement) : Bool :=
  let clean (ops : List Operand) := ops.all fun op => decide (op.local? ≠ some target)
  match stmt.kind with
  | .assign _ (.getIndex _ idx _) => clean [idx]
  | .assign _ (.call callee args) => isPureReadOf target callee args || clean (callee :: args)
  | .assign _ rval => clean rval.operands
  | .setAttr obj _ val | .ptrStore obj val => clean [obj, val]
  | .setIndex obj idx val _ | .vectorStore obj idx val => clean [obj, idx, val]
  | .drop l => decide (l ≠ target)
  | _ => true

def untouchedExceptReads (target : Local) : Bool :=
  body.all fun b => (f.stmtsAt b).all (leavesUntouched target)

def containerNotMutated : Rvalue → Bool
  | .getIndex obj _ _ =>
    match obj.local? with
    | some l => untouchedExceptReads f body l
    | none => false
  | _ => true

def isHoistableLenCall (invariants : List Local) : Rvalue → Bool
  | .call (.const (.function name)) [arg] =>
    decide (name = "__olive_py_len") &&
      match arg.local? with
      | some target => isOpInvariant f body invariants arg && untouchedExceptReads f body target
      | none => false
  | _ => false

/-- A statement to hoist: where it stands and what it assigns. -/
structure Hoisted where
  bb : BasicBlockId
  idx : Nat
  dst : Local
  deriving DecidableEq, Repr

/-- Only unnamed locals that own nothing are hoisted: moving a drop's value up would free it early. -/
def isHoistable (invariants : List Local) (dst : Local) (rval : Rvalue) : Bool :=
  (match f.locals[dst]? with
    | some decl => decl.name.isNone && !decl.ty.isMoveType
    | none => false) &&
  decide (assignCount f dst = 1) && decide (dst ∉ invariants) &&
  ((isInvariant f body invariants rval && isSafeToHoist rval && containerNotMutated f body rval) ||
    isHoistableLenCall f body invariants rval)

def pickInvariant (acc : List Hoisted) (site : BasicBlockId × Nat) : List Hoisted × Bool :=
  match (f.stmtsAt site.1)[site.2]? with
  | some ⟨.assign dst rval, _⟩ =>
    if isHoistable f body (acc.map (·.dst)) dst rval then (acc ++ [⟨site.1, site.2, dst⟩], true)
    else (acc, false)
  | _ => (acc, false)

/-- The places of a loop, block by block in ascending order. -/
def loopSites : List (BasicBlockId × Nat) :=
  (body.insertionSort (· ≤ ·)).flatMap fun b =>
    (List.range (f.stmtsAt b).length).map fun i => (b, i)

/-- The invariant statements in the order they are found; each round but the last finds one. -/
def invariantStmts : List Hoisted :=
  let sites := loopSites f body
  (untilStable (sweep (pickInvariant f body) sites) (sites.length + 1) []).getD []

end Invariance

section Hoist

variable (f : MirFunction) (lp : Loop) (hoisted : List Hoisted)

def TerminatorKind.retarget (header pre : BasicBlockId) : TerminatorKind → TerminatorKind
  | .goto target => .goto (if target = header then pre else target)
  | .switchInt discr targets otherwise =>
    .switchInt discr (targets.map fun t => (t.1, if t.2 = header then pre else t.2))
      (if otherwise = header then pre else otherwise)
  | kind => kind

/-- Some block outside the loop enters it. -/
def entersLoop : Bool :=
  (List.range f.basicBlocks.length).any fun b =>
    decide (b ∉ lp.body) && decide (lp.header ∈ f.successors b)

def isHoisted (b : BasicBlockId) (i : Nat) : Bool :=
  hoisted.any fun h => decide (h.bb = b ∧ h.idx = i)

/-- What is left of the statements from place `k` of block `b` on. -/
def remainingFrom (b : BasicBlockId) (k : Nat) (stmts : List Statement) : List Statement :=
  ((stmts.zipIdx k).filter fun p => !isHoisted hoisted b p.2).map (·.1)

def remaining (b : BasicBlockId) (stmts : List Statement) : List Statement :=
  remainingFrom hoisted b 0 stmts

def hoistedStmts : List Statement := hoisted.filterMap fun h => (f.stmtsAt h.bb)[h.idx]?

/-- A loop block loses its invariants; any other block enters the loop through the preheader. -/
def hoistBlock (pre : BasicBlockId) (b : BasicBlockId) (block : BasicBlock) : BasicBlock :=
  if b ∈ lp.body then { block with statements := remaining hoisted b block.statements }
  else { block with
    terminator := block.terminator.map fun t => { t with kind := t.kind.retarget lp.header pre } }

def hoistInvariants : MirFunction :=
  let pre := f.basicBlocks.length
  { f with
    basicBlocks := (f.basicBlocks.zipIdx.map fun p => hoistBlock lp hoisted pre p.2 p.1) ++
      [⟨hoistedStmts f hoisted, some ⟨.goto lp.header, .default⟩⟩] }

/-- Whether there is something to hoist and a block to hoist it from. -/
def hoists : Bool := !(invariantStmts f lp.body).isEmpty && entersLoop f lp

end Hoist

/-- The first loop of each header that hoists something, skipping the entry block. -/
def licmLoop (f : MirFunction) : List Loop → List BasicBlockId → Option Loop
  | [], _ => none
  | lp :: loops, processed =>
    if lp.header = 0 ∨ lp.header ∈ processed then licmLoop f loops processed
    else if hoists f lp then some lp
    else licmLoop f loops (lp.header :: processed)

/-- `Licm::run` changes one loop at most. -/
def licm (f : MirFunction) : MirFunction :=
  match licmLoop f (findLoops f) [] with
  | some lp => hoistInvariants f lp (invariantStmts f lp.body)
  | none => f

end Olive

/-! Which statements a loop's invariants are: each the one assignment of its local, and reading
only what the loop does not change. -/

namespace Olive

open UntilStable

variable {f : MirFunction} {body : List BasicBlockId}

section Counting

/-- A local assigned once is assigned in one place. -/
theorem assignCount_place {l : Local} (h : assignCount f l ≤ 1) {b b' : BasicBlockId} {i i' : Nat}
    {stmt stmt' : Statement} (hs : (f.stmtsAt b)[i]? = some stmt) (hw : stmt.writes? = some l)
    (hs' : (f.stmtsAt b')[i']? = some stmt') (hw' : stmt'.writes? = some l) : b = b' ∧ i = i' :=
  stmt_place_unique h hs (decide_eq_true hw) hs' (decide_eq_true hw')

end Counting

theorem Statement.writes?_of_dst {stmt : Statement} {l : Local} (h : stmt.dst? = some l) :
    stmt.writes? = some l := by
  rw [writes?, h, Option.some_or]

section Selection

/-- What the selection knows of a statement it takes after those that assign `before`. -/
structure Taken (f : MirFunction) (body : List BasicBlockId) (before : List Local) (h : Hoisted)
    (rval : Rvalue) (span : Span) : Prop where
  block : h.bb ∈ body
  stmt : (f.stmtsAt h.bb)[h.idx]? = some ⟨.assign h.dst rval, span⟩
  once : assignCount f h.dst ≤ 1
  fresh : h.dst ∉ before
  reads : ∀ op ∈ rval.inputs, ∀ l, op.local? = some l → definedIn f body l = false ∨ l ∈ before

inductive Selected (f : MirFunction) (body : List BasicBlockId) : List Hoisted → Prop
  | nil : Selected f body []
  | snoc {acc : List Hoisted} {h : Hoisted} {rval : Rvalue} {span : Span} :
      Selected f body acc → Taken f body (acc.map (·.dst)) h rval span → Selected f body (acc ++ [h])

theorem isOpInvariant_reads {invs : List Local} {op : Operand}
    (h : isOpInvariant f body invs op = true) {l : Local} (hl : op.local? = some l) :
    definedIn f body l = false ∨ l ∈ invs := by
  simpa [isOpInvariant, hl] using h

theorem isHoistable_reads {invs : List Local} {dst : Local} {rval : Rvalue}
    (h : isHoistable f body invs dst rval = true) :
    ∀ op ∈ rval.inputs, ∀ l, op.local? = some l → definedIn f body l = false ∨ l ∈ invs := by
  simp only [isHoistable, Bool.and_eq_true, Bool.or_eq_true] at h
  obtain ⟨-, hrval⟩ := h
  intro op hop l hl
  rcases hrval with ⟨⟨hinv, _⟩, _⟩ | hlen
  · cases rval with
    | use a =>
      obtain rfl := List.mem_singleton.mp hop
      exact isOpInvariant_reads hinv hl
    | unaryOp _ a =>
      obtain rfl := List.mem_singleton.mp hop
      exact isOpInvariant_reads hinv hl
    | binaryOp _ a b =>
      simp only [isInvariant, Bool.and_eq_true] at hinv
      rcases List.mem_pair.mp hop with rfl | rfl
      · exact isOpInvariant_reads hinv.1 hl
      · exact isOpInvariant_reads hinv.2 hl
    | getIndex a b _ =>
      simp only [isInvariant, Bool.and_eq_true] at hinv
      rcases List.mem_pair.mp hop with rfl | rfl
      · exact isOpInvariant_reads hinv.1 hl
      · exact isOpInvariant_reads hinv.2 hl
    | _ => simp [isInvariant] at hinv
  · unfold isHoistableLenCall at hlen
    split at hlen
    next name arg =>
      rcases List.mem_pair.mp hop with rfl | rfl
      · simp [Operand.local?] at hl
      · simp only [hl, Bool.and_eq_true] at hlen
        exact isOpInvariant_reads hlen.2.1 hl
    next => simp at hlen

theorem mem_loopSites {b : BasicBlockId} {i : Nat} :
    (b, i) ∈ loopSites f body ↔ b ∈ body ∧ i < (f.stmtsAt b).length := by
  simp [loopSites]

variable (f body) in
/-- One place either adds its statement, which is new and hoistable, or changes nothing. -/
theorem pickInvariant_cases (acc : List Hoisted) (site : BasicBlockId × Nat) :
    pickInvariant f body acc site = (acc, false) ∨
      ∃ dst rval span, (f.stmtsAt site.1)[site.2]? = some ⟨.assign dst rval, span⟩ ∧
        isHoistable f body (acc.map (·.dst)) dst rval = true ∧
        pickInvariant f body acc site = (acc ++ [⟨site.1, site.2, dst⟩], true) := by
  unfold pickInvariant
  split
  next dst rval span hs =>
    split
    next hh => exact .inr ⟨dst, rval, span, hs, hh, rfl⟩
    next => exact .inl rfl
  next => exact .inl rfl

theorem isHoistable_taken {acc : List Hoisted} {site : BasicBlockId × Nat} {dst : Local}
    {rval : Rvalue} {span : Span} (hsite : site.1 ∈ body)
    (hs : (f.stmtsAt site.1)[site.2]? = some ⟨.assign dst rval, span⟩)
    (hh : isHoistable f body (acc.map (·.dst)) dst rval = true) :
    Taken f body (acc.map (·.dst)) ⟨site.1, site.2, dst⟩ rval span := by
  have hreads := isHoistable_reads hh
  simp only [isHoistable, Bool.and_eq_true, decide_eq_true_eq] at hh
  exact ⟨hsite, hs, le_of_eq hh.1.1.2, hh.1.2, hreads⟩

theorem pickInvariant_selected {acc : List Hoisted} {site : BasicBlockId × Nat}
    (hsite : site ∈ loopSites f body) (h : Selected f body acc) :
    Selected f body (pickInvariant f body acc site).1 := by
  rcases pickInvariant_cases f body acc site with hp | ⟨dst, rval, span, hs, hh, hp⟩
  · rwa [hp]
  · rw [hp]
    exact h.snoc (isHoistable_taken (mem_loopSites.mp hsite).1 hs hh)

theorem invariantStmts_selected : Selected f body (invariantStmts f body) := by
  cases hr : untilStable (sweep (pickInvariant f body) (loopSites f body))
      ((loopSites f body).length + 1) [] with
  | none =>
    simp only [invariantStmts, hr, Option.getD_none]
    exact .nil
  | some r =>
    simp only [invariantStmts, hr, Option.getD_some]
    refine untilStable_invariant ?_ .nil hr
    intro acc hacc
    exact sweep_invariant (fun s i hi hs => pickInvariant_selected hi hs) hacc

theorem Selected.taken {hs : List Hoisted} (hsel : Selected f body hs) {h : Hoisted} (hh : h ∈ hs) :
    ∃ before rval span, before ⊆ hs.map (·.dst) ∧ Taken f body before h rval span := by
  induction hsel with
  | nil => simp at hh
  | @snoc acc h' rval span _ htaken ih =>
    rw [List.map_append]
    rcases List.mem_append.mp hh with hold | hnew
    · obtain ⟨before, rval', span', hsub, ht⟩ := ih hold
      exact ⟨before, rval', span', List.subset_append_of_subset_left _ hsub, ht⟩
    · obtain rfl := List.mem_singleton.mp hnew
      exact ⟨_, rval, span, List.subset_append_left _ _, htaken⟩

/-- The budget of rounds is enough: every round but the last takes a new place. -/
theorem invariantStmts_settles :
    ∃ hs, untilStable (sweep (pickInvariant f body) (loopSites f body))
      ((loopSites f body).length + 1) [] = some hs := by
  let facts (acc : List Hoisted) := (acc.map fun h => (h.bb, h.idx)).toFinset
  let P (acc : List Hoisted) := Selected f body acc ∧ facts acc ⊆ (loopSites f body).toFinset
  have hpick : ∀ acc, ∀ site ∈ loopSites f body, P acc →
      P (pickInvariant f body acc site).1 ∧ facts acc ⊆ facts (pickInvariant f body acc site).1 ∧
        ((pickInvariant f body acc site).2 = true →
          facts acc ⊂ facts (pickInvariant f body acc site).1) := by
    intro acc site hsite hP
    refine ⟨⟨pickInvariant_selected hsite hP.1, ?_⟩, ?_⟩ <;>
      rcases pickInvariant_cases f body acc site with
        hp | ⟨dst, rval, span, hs, hh, hp⟩ <;> rw [hp]
    · exact hP.2
    · simp only [facts, List.map_append, List.map_cons, List.map_nil, List.toFinset_append]
      exact Finset.union_subset hP.2 (by simpa using hsite)
    · exact ⟨Finset.Subset.refl _, by simp⟩
    · have htaken := isHoistable_taken (mem_loopSites.mp hsite).1 hs hh
      have hsub : facts acc ⊆ facts (acc ++ [⟨site.1, site.2, dst⟩]) := by
        simp only [facts, List.map_append, List.toFinset_append]
        exact Finset.subset_union_left
      refine ⟨hsub, fun _ => ⟨hsub, ?_⟩⟩
      intro hback
      have hnew : (site.1, site.2) ∈ facts acc := hback (by simp [facts])
      obtain ⟨h, hmem, heq⟩ := List.mem_map.mp (List.mem_toFinset.mp hnew)
      obtain ⟨_, rval', span', _, ht⟩ := hP.1.taken hmem
      have hstmt := ht.stmt
      rw [(Prod.mk.inj heq).1, (Prod.mk.inj heq).2, hs] at hstmt
      have hdst : h.dst = dst := by
        cases Option.some.inj hstmt
        rfl
      exact htaken.fresh (List.mem_map.mpr ⟨h, hmem, hdst⟩)
  refine untilStable_exists_of_grows (P := P) facts ?_ (fun s hs => hs.2) ?_
    ⟨.nil, by simp [facts]⟩ (Nat.lt_succ_of_le (List.toFinset_card_le _))
  · exact fun s hs => sweep_invariant (fun t i hi ht => (hpick t i hi ht).1) hs
  · intro s hs hc
    exact (sweep_grows facts (fun t i hi ht => (hpick t i hi ht).1)
      (fun t i hi ht => (hpick t i hi ht).2.1) (fun t i hi ht => (hpick t i hi ht).2.2) hs).2 hc

end Selection

end Olive
