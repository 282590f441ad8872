import Olive.MachineFrame

/-! Dead-code elimination: assignments to locals that no statement uses are dropped, calls apart. -/

namespace Olive

/-- The locals a statement marks as used. -/
def Statement.usage (decls : List LocalDecl) (stmt : Statement) : List Local :=
  match stmt.kind with
  | .assign _ rval => rval.locals
  | .setAttr obj _ val => [obj, val].filterMap Operand.local?
  | .setIndex obj idx val _ | .vectorStore obj idx val => [obj, idx, val].filterMap Operand.local?
  | .ptrStore ptr val => [ptr, val].filterMap Operand.local?
  | .drop l =>
    match decls[l]? with
    | some decl => if decl.ty.needsDrop then [l] else []
    | none => []
  | .genCheck value generation => [value, generation]
  | .storageLive _ | .storageDead _ => []

def Terminator.usage (term : Terminator) : List Local :=
  match term.kind with
  | .switchInt discr _ _ => discr.local?.toList
  | _ => []

def BasicBlock.usage (decls : List LocalDecl) (block : BasicBlock) : List Local :=
  block.statements.flatMap (·.usage decls) ++ block.terminator.elim [] Terminator.usage

/-- `Local(0)` and what the blocks use. -/
def MirFunction.used (f : MirFunction) : List Local :=
  0 :: f.basicBlocks.flatMap (·.usage f.locals)

def Statement.keptBy (used : List Local) (stmt : Statement) : Bool :=
  match stmt.kind with
  | .assign _ (.call _ _) => true
  | .assign dest _ => dest ∈ used
  | _ => true

/-- `DeadCodeElimination::run`. -/
def dce (f : MirFunction) : MirFunction :=
  { f with basicBlocks := f.basicBlocks.map fun bb =>
      { bb with statements := bb.statements.filter (·.keptBy f.used) } }

section Usage

variable {f : MirFunction} {bb : BasicBlockId} {block : BasicBlock} {idx : Nat} {stmt : Statement}

theorem dce_block (hb : f.basicBlocks[bb]? = some block) :
    (dce f).basicBlocks[bb]? =
      some ⟨block.statements.filter (·.keptBy f.used), block.terminator⟩ := by
  simp [dce, hb]

theorem zero_mem_used (f : MirFunction) : 0 ∈ f.used := List.mem_cons_self

theorem usage_subset_used (hb : f.basicBlocks[bb]? = some block) {l : Local}
    (hl : l ∈ block.usage f.locals) : l ∈ f.used :=
  List.mem_cons_of_mem _ (List.mem_flatMap.mpr ⟨block, List.mem_of_getElem? hb, hl⟩)

/-- What a statement that reads at all reads is used. -/
theorem reads_subset_used (hb : f.basicBlocks[bb]? = some block)
    (hs : block.statements[idx]? = some stmt)
    (hdrop : ∀ l, stmt.kind = .drop l → ∃ decl, f.locals[l]? = some decl ∧ decl.ty.needsDrop = true) :
    ∀ l ∈ stmt.reads, l ∈ f.used := by
  have husage : ∀ l ∈ stmt.usage f.locals, l ∈ f.used := by
    intro l hl
    apply usage_subset_used hb
    exact List.mem_append_left _ (List.mem_flatMap.mpr ⟨stmt, List.mem_of_getElem? hs, hl⟩)
  intro l hl
  apply husage
  unfold Statement.reads at hl
  unfold Statement.usage
  cases hk : stmt.kind with
  | assign dst rval =>
    rw [hk] at hl
    cases rval with
    | ref x => exact hl
    | mutRef x => exact hl
    | _ => exact hl
  | drop x =>
    rw [hk] at hl
    obtain ⟨decl, hdecl, hneeds⟩ := hdrop x hk
    simpa only [hdecl, hneeds, if_true] using hl
  | storageLive x =>
    rw [hk] at hl
    cases hl
  | storageDead x =>
    rw [hk] at hl
    cases hl
  | _ =>
    rw [hk] at hl
    exact hl

theorem terminator_reads_subset_used (hb : f.basicBlocks[bb]? = some block) {term : Terminator}
    (ht : block.terminator = some term) : ∀ l ∈ term.kind.reads, l ∈ f.used := by
  intro l hl
  obtain ⟨kind, span⟩ := term
  cases kind with
  | ret =>
    rw [List.mem_singleton.mp hl]
    exact zero_mem_used f
  | switchInt discr targets otherwise =>
    apply usage_subset_used hb
    apply List.mem_append_right
    rw [ht]
    exact hl
  | goto target => cases hl
  | unreachable => cases hl

/-- A statement that goes assigns a local that is not used. -/
theorem dst_not_used (hkept : stmt.keptBy f.used = false) :
    ∃ dest rval, stmt.kind = .assign dest rval ∧ dest ∉ f.used := by
  unfold Statement.keptBy at hkept
  split at hkept
  next => cases hkept
  next dest rval _ hk => exact ⟨dest, rval, hk, of_decide_eq_false hkept⟩
  next => cases hkept

end Usage

end Olive
