import Olive.GenCaptures

/-! What insertion puts around the statements of a function. -/

namespace Olive

variable {f : MirFunction} {info : List SuspectInfo} {suspects : List Local} {plan : GenPlan}

namespace GenPlan

/-- The generation locals are fresh, and belong to declared suspects. -/
structure Fits (plan : GenPlan) (f : MirFunction) (info : List SuspectInfo) : Prop where
  locals : plan.locals = f.locals.length
  declared : ∀ l ∈ plan.checked, l < f.locals.length
  suspect : ∀ l ∈ plan.checked, (info.getD l .default).suspect = true
  checks : ∀ site ∈ plan.sites, site.2.2 ∈ plan.checked
  noDefChecks : plan.defChecks = []

theorem genOf_eq_some {l g : Local} (h : plan.genOf l = some g) :
    ∃ i, g = plan.locals + i ∧ plan.checked[i]? = some l := by
  obtain ⟨i, hi, rfl⟩ := Option.map_eq_some_iff.mp h
  obtain ⟨hlt, he, _⟩ := List.findIdx?_eq_some_iff_getElem.mp hi
  exact ⟨i, rfl, by rw [List.getElem?_eq_getElem hlt, beq_iff_eq.mp he]⟩

theorem genOf_exists {l : Local} (h : l ∈ plan.checked) : ∃ g, plan.genOf l = some g := by
  cases hi : plan.checked.findIdx? (· == l) with
  | some i => exact ⟨plan.locals + i, by simp [genOf, hi]⟩
  | none =>
    have hne := List.findIdx?_eq_none_iff.mp hi l h
    simp at hne

theorem genOf_injective {l l' g : Local} (h : plan.genOf l = some g) (h' : plan.genOf l' = some g) :
    l = l' := by
  obtain ⟨i, hg, hi⟩ := genOf_eq_some h
  obtain ⟨i', hg', hi'⟩ := genOf_eq_some h'
  obtain rfl : i = i' := Nat.add_left_cancel (hg.symm.trans hg')
  exact Option.some.inj (hi.symm.trans hi')

theorem Fits.fresh (hp : plan.Fits f info) {l g : Local} (h : plan.genOf l = some g) :
    l < f.locals.length ∧ f.locals.length ≤ g := by
  obtain ⟨i, hg, hi⟩ := genOf_eq_some h
  refine ⟨hp.declared l (List.mem_of_getElem? hi), ?_⟩
  rw [hg, hp.locals]
  exact Nat.le_add_right _ i

theorem mem_checksAt {sites : List Site} {bb : BasicBlockId} {idx : Option Nat} {span : Span}
    {l g : Local} (h : (bb, idx, l) ∈ sites) (hg : plan.genOf l = some g) :
    (⟨.genCheck l g, span⟩ : Statement) ∈ plan.checksAt sites bb idx span := by
  rw [checksAt, List.mem_filterMap]
  exact ⟨_, h, by simp [hg]⟩

/-- A check of a local against its own generation. -/
def IsCheck (plan : GenPlan) (stmt : Statement) : Prop :=
  ∃ l g, plan.genOf l = some g ∧ stmt.kind = .genCheck l g

theorem isCheck_of_checksAt {sites : List Site} {bb : BasicBlockId} {idx : Option Nat} {span : Span}
    {stmt : Statement} (h : stmt ∈ plan.checksAt sites bb idx span) : plan.IsCheck stmt := by
  obtain ⟨site, _, hsite⟩ := List.mem_filterMap.mp h
  split at hsite
  · obtain ⟨g, hg, rfl⟩ := Option.map_eq_some_iff.mp hsite
    exact ⟨_, g, hg, rfl⟩
  · simp at hsite

/-- The capture of a checked local's generation. -/
def IsCapture (plan : GenPlan) (stmt : Statement) : Prop :=
  ∃ l g, plan.genOf l = some g ∧ stmt.kind = .assign g (.genOf (.copy l))

/-- The zero captures of the entry block. -/
def IsZeroCapture (plan : GenPlan) (stmt : Statement) : Prop :=
  ∃ l g, plan.genOf l = some g ∧ stmt.kind = .assign g (.use (.const (.int 0)))

/-- The entry block starts with zeros and goes on to capture every checked parameter. -/
theorem Fits.entryStmts_eq (hp : plan.Fits f info) : ∃ zeros captures,
    plan.entryStmts f info = zeros ++ captures ∧ (∀ stmt ∈ zeros, plan.IsZeroCapture stmt) ∧
      (∀ stmt ∈ captures, plan.IsCapture stmt) ∧
      ∀ l g, plan.genOf l = some g → 1 ≤ l ∧ l ≤ f.argCount →
        ∃ stmt ∈ captures, stmt.kind = .assign g (.genOf (.copy l)) := by
  refine ⟨_, _, rfl, ?_, ?_, ?_⟩
  · intro stmt h
    obtain ⟨l, _, hl⟩ := List.mem_filterMap.mp h
    obtain ⟨g, hg, rfl⟩ := Option.map_eq_some_iff.mp hl
    exact ⟨l, g, hg, rfl⟩
  · intro stmt h
    obtain ⟨l, _, hl⟩ := List.mem_filterMap.mp h
    obtain ⟨g, hg, rfl⟩ := Option.map_eq_some_iff.mp hl
    exact ⟨l, g, hg, rfl⟩
  · intro l g hg hl
    obtain ⟨i, _, hi⟩ := genOf_eq_some hg
    have hmem := List.mem_of_getElem? hi
    refine ⟨captureStmt l g .default, ?_, rfl⟩
    rw [List.mem_filterMap]
    refine ⟨l, List.mem_filter.mpr ⟨hmem, ?_⟩, by simp [hg]⟩
    simp [hl, hp.suspect l hmem, -List.getD_eq_getElem?_getD]

theorem Fits.afterStmt_eq (hp : plan.Fits f info) (bb : BasicBlockId) (i : Nat) (stmt : Statement) :
    (plan.afterStmt bb i stmt = [] ∧ ∀ l g, plan.genOf l = some g → stmt.dst? ≠ some l) ∨
      ∃ l g, stmt.dst? = some l ∧ plan.genOf l = some g ∧
        plan.afterStmt bb i stmt = [captureStmt l g stmt.span] := by
  have hnone : plan.checksAt plan.defChecks bb (some i) stmt.span = [] := by
    rw [hp.noDefChecks]
    rfl
  rw [afterStmt, hnone, List.append_nil]
  cases hd : stmt.dst? with
  | none => exact .inl ⟨by simp, by simp⟩
  | some dst =>
    cases hg : plan.genOf dst with
    | none =>
      refine .inl ⟨by simp [hg], ?_⟩
      intro l g hl he
      cases Option.some.inj he
      rw [hg] at hl
      simp at hl
    | some g => exact .inr ⟨dst, g, rfl, hg, by simp [hg]⟩

end GenPlan

section Insert

variable {sites defChecks : List Site}

theorem genInsert_block (bb : BasicBlockId) :
    (genInsert f info sites defChecks).basicBlocks[bb]? =
      f.basicBlocks[bb]?.map fun block => (genPlan f sites defChecks).rebuildBlock f info bb block := by
  simp only [genInsert, List.getElem?_map, List.getElem?_zipIdx]
  cases f.basicBlocks[bb]? <;> simp

theorem genInsert_terminatorAt (bb : BasicBlockId) :
    (genInsert f info sites defChecks).terminatorAt bb = f.terminatorAt bb := by
  simp only [MirFunction.terminatorAt, genInsert_block]
  cases f.basicBlocks[bb]? <;> simp [GenPlan.rebuildBlock]

theorem genInsert_successors : (genInsert f info sites defChecks).successors = f.successors := by
  funext bb
  simp only [MirFunction.successors, genInsert_terminatorAt]

theorem genInsert_stmtsAt {bb : BasicBlockId} (hb : bb < f.basicBlocks.length) :
    ∃ span, (genInsert f info sites defChecks).stmtsAt bb =
      (if bb = 0 then (genPlan f sites defChecks).entryStmts f info else []) ++
        (f.stmtsAt bb).zipIdx.flatMap ((genPlan f sites defChecks).rebuildStmt bb) ++
        (genPlan f sites defChecks).checksAt sites bb none span := by
  have hget := List.getElem?_eq_getElem hb
  simp only [MirFunction.stmtsAt, genInsert_block, hget, Option.map_some, GenPlan.rebuildBlock]
  exact ⟨_, rfl⟩

/-- Without sites nothing is inserted. -/
theorem genInsert_nil : genInsert f info [] [] = f := by
  have hchecked : (genPlan f [] []).checked = [] := by simp [genPlan]
  have hgen : ∀ l, (genPlan f [] []).genOf l = none := by
    intro l
    simp [GenPlan.genOf, hchecked]
  have hentry : (genPlan f [] []).entryStmts f info = [] := by
    simp [GenPlan.entryStmts, hchecked]
  have hafter : ∀ bb i stmt, (genPlan f [] []).afterStmt bb i stmt = [] := by
    intro bb i stmt
    unfold GenPlan.afterStmt
    simp only [hgen]
    cases stmt.dst? <;> rfl
  have hstmt : ∀ bb stmt, (genPlan f [] []).rebuildStmt bb stmt = [stmt.1] := by
    intro bb stmt
    rw [GenPlan.rebuildStmt, hafter, List.append_nil]
    rfl
  have hblock : ∀ bb block, (genPlan f [] []).rebuildBlock f info bb block = block := by
    intro bb block
    have hstmts : block.statements.zipIdx.flatMap ((genPlan f [] []).rebuildStmt bb) =
        block.statements := by
      simp only [funext (hstmt bb), ← List.map_eq_flatMap]
      exact List.zipIdx_map_fst 0 _
    rw [GenPlan.rebuildBlock, hentry, hstmts]
    simp [GenPlan.checksAt, genPlan]
  have hblocks : f.basicBlocks.zipIdx.map
      (fun block => (genPlan f [] []).rebuildBlock f info block.2 block.1) = f.basicBlocks := by
    simp only [hblock]
    exact List.zipIdx_map_fst 0 _
  simp only [genInsert, hblocks, hchecked, List.map_nil, List.append_nil]

end Insert

end Olive
