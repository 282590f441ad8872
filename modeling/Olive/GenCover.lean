import Olive.GenRebuild
import Olive.MustStaleSound

/-! Along every path of the instrumented function, what is proven is covered. -/

namespace Olive

open UntilStable RoundRobin FlowGraph Flags

variable {f : MirFunction} {info : List SuspectInfo} {suspects : List Local} {plan : GenPlan}

/-- After `ran`, the proven suspects are covered and every generation local is up to date. -/
structure PathState (f : MirFunction) (info : List SuspectInfo) (suspects : List Local)
    (plan : GenPlan) (ran : List Statement) (state : List Bool) : Prop where
  proven : ∀ (s : Nat) l, suspects[s]? = some l → s ∈ flagFacts state → Covered f info l ran
  captured : ∀ l g, plan.genOf l = some g → Defined f l ran → Captured f l g ran

theorem PathState.weaken {ran : List Statement} {state state' : List Bool}
    (h : PathState f info suspects plan ran state)
    (hle : ∀ s < suspects.length, s ∈ flagFacts state' → s ∈ flagFacts state) :
    PathState f info suspects plan ran state' :=
  ⟨fun s l hl hs => h.proven s l hl (hle s (List.getElem?_eq_some_iff.mp hl).1 hs), h.captured⟩

section Checks

variable {checks : List Statement}

theorem isCheck_dst {stmt : Statement} (h : plan.IsCheck stmt) : stmt.dst? = none := by
  obtain ⟨l, g, _, hk⟩ := h
  simp [Statement.dst?, hk]

theorem defined_checks (hc : ∀ stmt ∈ checks, plan.IsCheck stmt) {ran : List Statement} {l : Local}
    (h : Defined f l (ran ++ checks)) : Defined f l ran := by
  refine h.imp_right ?_
  intro ⟨stmt, hmem, hd⟩
  rcases List.mem_append.mp hmem with hmem | hmem
  · exact ⟨stmt, hmem, hd⟩
  · rw [isCheck_dst (hc stmt hmem)] at hd
    simp at hd

theorem captured_checks (hc : ∀ stmt ∈ checks, plan.IsCheck stmt) {ran : List Statement}
    {l g : Local} (h : Defined f l ran → Captured f l g ran)
    (hd : Defined f l (ran ++ checks)) : Captured f l g (ran ++ checks) := by
  refine (h (defined_checks hc hd)).append ?_
  intro stmt hmem
  simp [isCheck_dst (hc stmt hmem)]

theorem mayFree_checks (hc : ∀ stmt ∈ checks, plan.IsCheck stmt) {l : Local} :
    ∀ stmt ∈ checks, mayFree info stmt l = false := by
  intro stmt hmem
  obtain ⟨v, w, _, hk⟩ := hc stmt hmem
  exact mayFree_of_genCheck hk

/-- Checks keep what is covered, and cover what they check. -/
theorem PathState.afterChecks {ran : List Statement} {state : List Bool}
    (h : PathState f info suspects plan ran state) (hc : ∀ stmt ∈ checks, plan.IsCheck stmt) :
    PathState f info suspects plan (ran ++ checks) state ∧
      ∀ l g stmt, stmt ∈ checks → plan.genOf l = some g → stmt.kind = .genCheck l g →
        Covered f info l (ran ++ checks) := by
  refine ⟨⟨?_, ?_⟩, ?_⟩
  · intro s l hl hs
    exact (h.proven s l hl hs).append (mayFree_checks hc)
  · intro l g hg hd
    exact captured_checks hc (h.captured l g hg) hd
  · intro l g stmt hmem hg hk
    obtain ⟨first, rest, rfl⟩ := List.append_of_mem hmem
    have hfirst : ∀ stmt ∈ first, plan.IsCheck stmt := fun s hs =>
      hc s (List.mem_append_left _ hs)
    have hcap : Defined f l (ran ++ first) → Captured f l g (ran ++ first) := fun hd =>
      captured_checks hfirst (h.captured l g hg) hd
    have hrest : ∀ stmt ∈ rest, plan.IsCheck stmt := fun s hs =>
      hc s (List.mem_append_right first (List.mem_cons_of_mem stmt hs))
    have hcovered : Covered f info l (ran ++ first ++ [stmt] ++ rest) :=
      (covered_concat_check hk hcap).append (mayFree_checks hrest)
    simpa using hcovered

theorem readsCovered_checks (hc : ∀ stmt ∈ checks, plan.IsCheck stmt) {ran : List Statement} :
    ReadsCovered f info suspects ran checks := by
  apply readsCovered_of_no_uses
  intro stmt hmem
  obtain ⟨l, g, _, hk⟩ := hc stmt hmem
  simp [Statement.uses, hk]

end Checks

section Step

variable {bb : BasicBlockId}

/-- Past the checks in front of it, every suspect that the next statement uses is covered. -/
theorem PathState.uses (hn : suspects.Nodup) (hp : plan.Fits f info) {ran : List Statement}
    {acc : List Bool × List Site} (h : PathState f info suspects plan ran acc.1)
    (hlen : acc.1.length = suspects.length) {idx : Option Nat} {used : List Local} {span : Span}
    (hsites : (used.foldl (proveUse suspects bb idx) acc).2 ⊆ plan.sites) {s : Nat} {l : Local}
    (hl : suspects[s]? = some l) (hu : l ∈ used ∨ s ∈ flagFacts acc.1) :
    Covered f info l (ran ++ plan.checksAt plan.sites bb idx span) := by
  have hc : ∀ stmt ∈ plan.checksAt plan.sites bb idx span, plan.IsCheck stmt := fun _ =>
    GenPlan.isCheck_of_checksAt
  obtain ⟨hchecked, hcovers⟩ := h.afterChecks hc
  by_cases hs : s ∈ flagFacts acc.1
  · exact hchecked.proven s l hl hs
  · have hsite := hsites (proveUses_site hn used hl hlen hs (hu.resolve_right hs))
    obtain ⟨g, hg⟩ := GenPlan.genOf_exists (hp.checks _ hsite)
    exact hcovers l g _ (GenPlan.mem_checksAt hsite hg) hg rfl

/-- One statement of the source, with the checks in front of it and the capture after it. -/
theorem PathState.step (hn : suspects.Nodup) (hp : plan.Fits f info) {ran : List Statement}
    {acc : List Bool × List Site} (h : PathState f info suspects plan ran acc.1)
    (hlen : acc.1.length = suspects.length) {stmt : Statement × Nat}
    (hscope : ∀ dst, stmt.1.dst? = some dst → dst < f.locals.length)
    (hsites : (genStmt info suspects bb acc stmt).2 ⊆ plan.sites) :
    PathState f info suspects plan (ran ++ plan.rebuildStmt bb stmt)
        (genStmt info suspects bb acc stmt).1 ∧
      ReadsCovered f info suspects ran (plan.rebuildStmt bb stmt) := by
  let checks := plan.checksAt plan.sites bb (some stmt.2) stmt.1.span
  have hc : ∀ s ∈ checks, plan.IsCheck s := fun _ => GenPlan.isCheck_of_checksAt
  have hchecked := (h.afterChecks hc).1
  have hused : ∀ (s : Nat) l, suspects[s]? = some l → (l ∈ stmt.1.uses ∨ s ∈ flagFacts acc.1) →
      Covered f info l (ran ++ checks) := fun s l hl hu => h.uses hn hp hlen hsites hl hu
  -- after the statement itself
  have hproven : ∀ (s : Nat) l, suspects[s]? = some l →
      s ∈ flagFacts (genStmt info suspects bb acc stmt).1 →
      Covered f info l (ran ++ checks ++ [stmt.1]) := by
    intro s l hl hs
    rcases (genStmt_flag hn hl hlen).mp hs with hdst | ⟨hu, hfree⟩
    · exact covered_concat_assign hdst
    · exact (hused s l hl hu.symm).concat hfree
  have hreads : ReadsCovered f info suspects ran (checks ++ [stmt.1]) := by
    refine (readsCovered_checks hc).append (readsCovered_singleton ?_)
    intro l hl hs
    obtain ⟨s, hs⟩ := List.mem_iff_getElem?.mp hs
    exact hused s l hs (.inl hl)
  -- what stays captured when neither the local nor its generation is assigned
  have hkeep : ∀ l g, plan.genOf l = some g → stmt.1.dst? ≠ some l →
      Defined f l (ran ++ checks ++ [stmt.1]) → Captured f l g (ran ++ checks ++ [stmt.1]) := by
    intro l g hg hne hd
    have hd' : Defined f l (ran ++ checks) := by
      refine hd.imp_right ?_
      intro ⟨s, hmem, he⟩
      rcases List.mem_append.mp hmem with hmem | hmem
      · exact ⟨s, hmem, he⟩
      · rw [List.mem_singleton.mp hmem] at he
        exact absurd he hne
    refine (hchecked.captured l g hg hd').keep hne ?_
    intro he
    exact absurd (hscope g he) (Nat.not_lt_of_le (hp.fresh hg).2)
  have hrebuilt : plan.rebuildStmt bb stmt = checks ++ [stmt.1] ++ plan.afterStmt bb stmt.2 stmt.1 :=
    rfl
  rw [hrebuilt]
  rcases hp.afterStmt_eq bb stmt.2 stmt.1 with ⟨hafter, hnot⟩ | ⟨dst, gdst, hdst, hgdst, hafter⟩
  · rw [hafter, List.append_nil, ← List.append_assoc]
    refine ⟨⟨hproven, ?_⟩, hreads⟩
    intro l g hg hd
    exact hkeep l g hg (hnot l g hg) hd
  · have hcapture : (GenPlan.captureStmt dst gdst stmt.1.span).dst? = some gdst := rfl
    rw [hafter, ← List.append_assoc, ← List.append_assoc]
    refine ⟨⟨?_, ?_⟩, ?_⟩
    · intro s l hl hs
      exact (hproven s l hl hs).concat (mayFree_of_genOf rfl)
    · intro l g hg hd
      by_cases he : l = dst
      · subst he
        obtain rfl : g = gdst := Option.some.inj (hg.symm.trans hgdst)
        rw [List.append_assoc]
        exact .afterDef hdst rfl
      · have hne : stmt.1.dst? ≠ some l := by
          rw [hdst]
          exact fun h => he (Option.some.inj h).symm
        have hlg : gdst ≠ l := fun h =>
          absurd (hp.fresh hg).1 (Nat.not_lt_of_le (h ▸ (hp.fresh hgdst).2))
        have hd' : Defined f l (ran ++ checks ++ [stmt.1]) := by
          refine hd.imp_right ?_
          intro ⟨s, hmem, hs⟩
          rcases List.mem_append.mp hmem with hmem | hmem
          · exact ⟨s, hmem, hs⟩
          · rw [List.mem_singleton.mp hmem, hcapture] at hs
            exact absurd (Option.some.inj hs) hlg
        refine (hkeep l g hg hne hd').keep ?_ ?_
        · rw [hcapture]
          exact fun h => hlg (Option.some.inj h)
        · rw [hcapture]
          exact fun h => he (GenPlan.genOf_injective hg (Option.some.inj h ▸ hgdst))
    · refine hreads.append (readsCovered_singleton ?_)
      intro l hl _
      obtain rfl : l = dst := by
        simpa [Statement.uses, GenPlan.captureStmt, Rvalue.locals, Rvalue.operands,
          Operand.local?] using hl
      rw [← List.append_assoc]
      exact covered_concat_assign hdst

/-- The statements of a block, rebuilt. -/
theorem PathState.steps (hn : suspects.Nodup) (hp : plan.Fits f info)
    (stmts : List (Statement × Nat)) {ran : List Statement} {acc : List Bool × List Site}
    (h : PathState f info suspects plan ran acc.1) (hlen : acc.1.length = suspects.length)
    (hscope : ∀ stmt ∈ stmts, ∀ dst, stmt.1.dst? = some dst → dst < f.locals.length)
    (hsites : (stmts.foldl (genStmt info suspects bb) acc).2 ⊆ plan.sites) :
    PathState f info suspects plan (ran ++ stmts.flatMap (plan.rebuildStmt bb))
        (stmts.foldl (genStmt info suspects bb) acc).1 ∧
      ReadsCovered f info suspects ran (stmts.flatMap (plan.rebuildStmt bb)) := by
  induction stmts generalizing ran acc with
  | nil => exact ⟨by simpa using h, readsCovered_of_no_uses (by simp)⟩
  | cons stmt stmts ih =>
    have hfirst : (genStmt info suspects bb acc stmt).2 ⊆ plan.sites :=
      List.Subset.trans (genStmts_sites stmts _) hsites
    obtain ⟨hstep, hreads⟩ := h.step hn hp hlen (hscope stmt List.mem_cons_self) hfirst
    obtain ⟨hrest, hreads'⟩ := ih hstep (genStmt_length stmt hlen)
      (fun s hs => hscope s (List.mem_cons_of_mem _ hs)) hsites
    rw [List.flatMap_cons, ← List.append_assoc]
    exact ⟨hrest, hreads.append hreads'⟩

end Step

section Blocks

/-- Captures in a row at entry leave every generation among them up to date. -/
theorem captured_of_captures (hp : plan.Fits f info) {zeros captures : List Statement}
    (hz : ∀ stmt ∈ zeros, plan.IsZeroCapture stmt) (hc : ∀ stmt ∈ captures, plan.IsCapture stmt)
    {l g : Local} (hg : plan.genOf l = some g) (hl : 1 ≤ l ∧ l ≤ f.argCount)
    (hmem : ∃ stmt ∈ captures, stmt.kind = .assign g (.genOf (.copy l))) :
    Captured f l g (zeros ++ captures) := by
  induction captures using List.reverseRecOn with
  | nil => simp at hmem
  | append_singleton captures last ih =>
    have hc' : ∀ stmt ∈ captures, plan.IsCapture stmt := fun s hs =>
      hc s (List.mem_append_left _ hs)
    obtain ⟨v, w, hw, hk⟩ := hc last (List.mem_append_right _ (List.mem_singleton_self last))
    have hdst : last.dst? = some w := Statement.dst?_eq_some.mpr ⟨_, hk⟩
    rw [← List.append_assoc]
    by_cases hwg : w = g
    · -- the last capture is `l`'s own
      obtain rfl : v = l := GenPlan.genOf_injective hw (hwg ▸ hg)
      refine .atEntry hl.1 hl.2 ?_ (hwg ▸ hk)
      intro stmt hs
      rcases List.mem_append.mp hs with hs | hs
      · obtain ⟨u, x, hx, hk⟩ := hz stmt hs
        exact ⟨x, _, hk, (hp.fresh hx).2⟩
      · obtain ⟨u, x, hx, hk⟩ := hc' stmt hs
        exact ⟨x, _, hk, (hp.fresh hx).2⟩
    · have hmem' : ∃ stmt ∈ captures, stmt.kind = .assign g (.genOf (.copy l)) := by
        obtain ⟨stmt, hs, he⟩ := hmem
        rcases List.mem_append.mp hs with hs | hs
        · exact ⟨stmt, hs, he⟩
        · rw [List.mem_singleton.mp hs, hk] at he
          simp [hwg] at he
      refine (ih hc' hmem').keep ?_ ?_
      · rw [hdst]
        intro he
        exact absurd (hp.fresh hg).1 (Nat.not_lt_of_le (Option.some.inj he ▸ (hp.fresh hw).2))
      · rw [hdst]
        exact fun he => hwg (Option.some.inj he)

/-- The captures at entry: every parameter's generation is up to date, and nothing was freed. -/
theorem PathState.entry (hp : plan.Fits f info) (state : List Bool) :
    PathState f info suspects plan (plan.entryStmts f info) state ∧
      ReadsCovered f info suspects [] (plan.entryStmts f info) := by
  obtain ⟨zeros, captures, heq, hz, hc, hparams⟩ := hp.entryStmts_eq
  have hassigns : ∀ stmt ∈ plan.entryStmts f info, ∃ l g rval, plan.genOf l = some g ∧
      stmt.kind = .assign g rval ∧ ∀ l, mayFree info stmt l = false := by
    intro stmt hmem
    rw [heq] at hmem
    rcases List.mem_append.mp hmem with hmem | hmem
    · obtain ⟨v, g, hg, hk⟩ := hz stmt hmem
      exact ⟨v, g, _, hg, hk, by simp [mayFree, hk]⟩
    · obtain ⟨v, g, hg, hk⟩ := hc stmt hmem
      exact ⟨v, g, _, hg, hk, fun _ => mayFree_of_genOf hk⟩
  have hfree : ∀ l, ∀ stmt ∈ plan.entryStmts f info, mayFree info stmt l = false := by
    intro l stmt hmem
    obtain ⟨_, _, _, _, _, hfree⟩ := hassigns stmt hmem
    exact hfree l
  refine ⟨⟨?_, ?_⟩, ?_⟩
  · intro s l _ _
    exact covered_nil.append (hfree l)
  · intro l g hg hd
    have hparam : 1 ≤ l ∧ l ≤ f.argCount := by
      refine hd.resolve_right ?_
      rintro ⟨stmt, hmem, he⟩
      obtain ⟨v, w, rval, hw, hk, _⟩ := hassigns stmt hmem
      obtain rfl : w = l := by simpa [Statement.dst?, hk] using he
      exact absurd (hp.fresh hg).1 (Nat.not_lt_of_le (hp.fresh hw).2)
    rw [heq]
    exact captured_of_captures hp hz hc hg hparam (hparams l g hg hparam)
  · intro i stmt _ l _ _
    exact covered_nil.append fun s hs => hfree l s (List.mem_of_mem_take hs)

variable {out : List (List Bool)} {sites : List Site}

/-- What the analysis's sites and the insertion's plan have to do with each other. -/
structure PlanFor (f : MirFunction) (info : List SuspectInfo) (suspects : List Local)
    (out : List (List Bool)) (sites : List Site) : Prop where
  nodup : suspects.Nodup
  fits : (genPlan f sites []).Fits f info
  scope : ∀ stmt ∈ f.statements, ∀ dst, stmt.dst? = some dst → dst < f.locals.length
  sites : ∀ bb < f.basicBlocks.length,
    (genTransferBlock f info suspects bb (genEntry f suspects.length out bb)).2 ⊆ sites

/-- One block of the instrumented function, past the captures of the entry block. -/
theorem PathState.block (hs : PlanFor f info suspects out sites)
    (hv : Valued (FlagRow suspects.length) f.basicBlocks.length out) {bb : BasicBlockId}
    (hb : bb < f.basicBlocks.length) {ran : List Statement}
    (h : PathState f info suspects (genPlan f sites []) ran (genEntry f suspects.length out bb))
    (span : Span) :
    let plan := genPlan f sites []
    let body := (f.stmtsAt bb).zipIdx.flatMap (plan.rebuildStmt bb) ++
      plan.checksAt sites bb none span
    PathState f info suspects plan (ran ++ body) (genFlow f info suspects out bb) ∧
      ReadsCovered f info suspects ran body ∧
      ∀ l ∈ suspects, f.switchLocal bb = some l → Covered f info l (ran ++ body) := by
  intro plan body
  let state := genEntry f suspects.length out bb
  let final := (f.stmtsAt bb).zipIdx.foldl (genStmt info suspects bb) (state, [])
  have hlen : state.length = suspects.length := (genEntry_flag hv bb).1
  have hfinal : final.1.length = suspects.length := genStmts_length _ hlen
  have hscope : ∀ stmt ∈ (f.stmtsAt bb).zipIdx, ∀ dst, stmt.1.dst? = some dst →
      dst < f.locals.length := fun stmt hmem =>
    hs.scope stmt.1 (mem_statements (List.mem_of_getElem? (List.mem_zipIdx_iff_getElem?.mp hmem)))
  have hsites := hs.sites bb hb
  have hc : ∀ stmt ∈ plan.checksAt sites bb none span, plan.IsCheck stmt := fun _ =>
    GenPlan.isCheck_of_checksAt
  have hreadsEnd : ∀ ran, ReadsCovered f info suspects ran (plan.checksAt sites bb none span) :=
    fun _ => readsCovered_checks hc
  simp only [body, ← List.append_assoc]
  unfold genFlow genTransferBlock at *
  cases hl : f.switchLocal bb with
  | none =>
    simp only [hl] at hsites ⊢
    obtain ⟨hend, hreads⟩ := h.steps hs.nodup hs.fits _ hlen hscope hsites
    refine ⟨(hend.afterChecks hc).1, hreads.append (hreadsEnd _), ?_⟩
    intro l _ he
    simp at he
  | some used =>
    simp only [hl] at hsites ⊢
    obtain ⟨hend, hreads⟩ := h.steps hs.nodup hs.fits _ hlen hscope
      (List.Subset.trans (proveUse_sites _ used) hsites)
    have hfold : ([used].foldl (proveUse suspects bb none) final).2 ⊆ plan.sites := hsites
    have hused : ∀ (s : Nat) l, suspects[s]? = some l → (l ∈ [used] ∨ s ∈ flagFacts final.1) →
        Covered f info l (ran ++ (f.stmtsAt bb).zipIdx.flatMap (plan.rebuildStmt bb) ++
          plan.checksAt sites bb none span) := fun s l hl hu =>
      hend.uses hs.nodup hs.fits hfinal hfold hl hu
    refine ⟨⟨?_, (hend.afterChecks hc).1.captured⟩, hreads.append (hreadsEnd _), ?_⟩
    · intro s l hl hmem
      rcases (proveUse_flag hs.nodup hl hfinal).mp hmem with hmem | he
      · exact hused s l hl (.inr hmem)
      · exact hused s l hl (.inl (List.mem_singleton.mpr he))
    · intro l hmem he
      obtain ⟨s, hls⟩ := List.mem_iff_getElem?.mp hmem
      exact hused s l hls (.inl (List.mem_singleton.mpr (Option.some.inj he).symm))

end Blocks

section Paths

variable {out : List (List Bool)} {sites : List Site}

/-- Where a walk enters a block, past the captures of the entry block. -/
theorem walk_pathState (hs : PlanFor f info suspects out sites)
    (hsol : ProvenSolution f info suspects out) (h0 : f.predecessors 0 = [])
    {before : List BasicBlockId} {bb : BasicBlockId} (hw : Walk f.successors before bb) :
    PathState f info suspects (genPlan f sites [])
      ((genInsert f info sites []).walkStmts before ++
        if bb = 0 then (genPlan f sites []).entryStmts f info else [])
      (genEntry f suspects.length out bb) := by
  induction hw with
  | entry => exact (PathState.entry hs.fits _).1
  | @step before p bb _ hsucc ih =>
    have hb := MirFunction.lt_of_successors hsucc
    have hne : bb ≠ 0 := fun he => zero_not_successor h0 (he ▸ hsucc)
    obtain ⟨span, hstmts⟩ := @genInsert_stmtsAt f info sites [] p hb
    obtain ⟨hend, _, _⟩ := PathState.block hs hsol.rows hb ih span
    rw [if_neg hne, List.append_nil, MirFunction.walkStmts_concat, hstmts]
    simp only [List.append_assoc] at hend ⊢
    exact hend.weaken fun s _ hmem => hsol.edge hsucc hmem

/-- Every suspect is covered where a statement or a `SwitchInt` of `g` reads it. -/
def UsesCovered (f : MirFunction) (info : List SuspectInfo) (g : MirFunction) : Prop :=
  ∀ l ∈ genSuspects f info, ∀ before bb idx, Walk g.successors before bb → ReadsAt g bb idx l →
    Covered f info l (g.walkStmts before ++ stmtsBefore g bb idx)

theorem lt_of_readsAt {bb : BasicBlockId} {idx : Option Nat} {l : Local} (h : ReadsAt f bb idx l) :
    bb < f.basicBlocks.length := by
  by_contra hb
  have hnone := List.getElem?_eq_none (Nat.le_of_not_lt hb)
  cases idx with
  | some i => simp [ReadsAt, MirFunction.stmtsAt, hnone] at h
  | none => simp [ReadsAt, MirFunction.terminatorAt, hnone] at h

theorem genInsert_covers (hs : PlanFor f info (genSuspects f info) out sites)
    (hsol : ProvenSolution f info (genSuspects f info) out) (h0 : f.predecessors 0 = []) :
    UsesCovered f info (genInsert f info sites []) := by
  intro l hl before bb idx hw hr
  let g := genInsert f info sites []
  have hb : bb < f.basicBlocks.length := by
    have hlt := lt_of_readsAt hr
    simpa [genInsert] using hlt
  have hterm : g.terminatorAt bb = f.terminatorAt bb := genInsert_terminatorAt bb
  rw [genInsert_successors] at hw
  obtain ⟨span, hstmts⟩ := @genInsert_stmtsAt f info sites [] bb hb
  have hstate := walk_pathState hs hsol h0 hw
  obtain ⟨_, hreads, hswitch⟩ := PathState.block hs hsol.rows hb hstate span
  cases idx with
  | some i =>
    obtain ⟨stmt, hi, hu⟩ := hr
    have hall : ReadsCovered f info (genSuspects f info) (g.walkStmts before) (g.stmtsAt bb) := by
      rw [hstmts, List.append_assoc]
      by_cases hzero : bb = 0
      · subst hzero
        obtain rfl := walk_to_entry h0 hw
        exact (PathState.entry hs.fits (genEntry f (genSuspects f info).length out 0)).2.append hreads
      · rw [if_neg hzero] at hreads ⊢
        rw [List.append_nil] at hreads
        exact hreads
    exact hall i stmt hi l hu hl
  | none =>
    obtain ⟨discr, targets, otherwise, tspan, ht, hd⟩ := hr
    have hlocal : f.switchLocal bb = some l := by
      rw [hterm] at ht
      simp [MirFunction.switchLocal, ht, hd]
    have hcovered := hswitch l hl hlocal
    rw [stmtsBefore, hstmts]
    simpa only [List.append_assoc] using hcovered

end Paths

section Insertion

variable {pass : GenCheckInsertion}

theorem genSuspects_spec {l : Local} (h : l ∈ genSuspects f info) :
    l < f.locals.length ∧ (info.getD l .default).suspect = true := by
  obtain ⟨hr, hp⟩ := List.mem_filter.mp h
  simp only [Bool.and_eq_true] at hp
  exact ⟨List.mem_range.mp hr, hp.1.2⟩

theorem genTransferBlock_site_suspect {bb : BasicBlockId} {state : List Bool} {site : Site}
    (h : site ∈ (genTransferBlock f info suspects bb state).2) : site.2.2 ∈ suspects := by
  have hstmts : ∀ site ∈ ((f.stmtsAt bb).zipIdx.foldl (genStmt info suspects bb) (state, [])).2,
      site.2.2 ∈ suspects := by
    intro site hmem
    refine (genStmts_site_suspect _ hmem).resolve_left ?_
    simp
  unfold genTransferBlock at h
  split at h
  · rcases proveUse_site_suspect h with h | ⟨rfl, hmem⟩
    · exact hstmts site h
    · exact hmem
  · exact hstmts site h

/-- The sites of a solution, planned. -/
theorem genSolve_plan {fuel : Nat} {solved : List Site × List Site}
    (hscope : ∀ stmt ∈ f.statements, ∀ dst, stmt.dst? = some dst → dst < f.locals.length)
    (h : genSolve f info (genSuspects f info) fuel = some solved) :
    solved.2 = [] ∧ ∃ out, ProvenSolution f info (genSuspects f info) out ∧
      PlanFor f info (genSuspects f info) out solved.1 := by
  obtain ⟨out, hout, rfl⟩ := Option.map_eq_some_iff.mp h
  refine ⟨rfl, out, genLoop_solution hout, List.nodup_range.filter _, ?_, hscope, ?_⟩
  · have hsuspect : ∀ site ∈ (List.range f.basicBlocks.length).flatMap fun bb =>
        (genTransferBlock f info (genSuspects f info) bb
          (genEntry f (genSuspects f info).length out bb)).2,
        site.2.2 ∈ genSuspects f info := by
      intro site hmem
      obtain ⟨bb, _, hmem⟩ := List.mem_flatMap.mp hmem
      exact genTransferBlock_site_suspect hmem
    refine ⟨rfl, ?_, ?_, ?_, rfl⟩
    · intro l hl
      exact List.mem_range.mp (List.mem_filter.mp hl).1
    · intro l hl
      have hsite := of_decide_eq_true (List.mem_filter.mp hl).2
      rw [List.append_nil] at hsite
      obtain ⟨site, hmem, rfl⟩ := List.mem_map.mp hsite
      exact (genSuspects_spec (hsuspect site hmem)).2
    · intro site hmem
      refine List.mem_filter.mpr ⟨List.mem_range.mpr (genSuspects_spec (hsuspect site hmem)).1, ?_⟩
      rw [decide_eq_true_eq, List.append_nil]
      exact List.mem_map_of_mem hmem
  · intro bb hb site hmem
    exact List.mem_flatMap.mpr ⟨bb, List.mem_range.mpr hb, hmem⟩

/-- A run that reports nothing inserts what the analysis asks for, if it inserts anything. -/
theorem GenCheckInsertion.run_eq_instrument {fuel : Nat} {g : MirFunction}
    (h : pass.run f fuel = some ([], g)) :
    (f.basicBlocks = [] ∧ g = f) ∨
      (∃ info, pass.suspectInfo f = some info ∧ genSuspects f info = []) ∨
      pass.instrument f fuel = some g := by
  unfold run at h
  split at h
  next hempty => exact .inl ⟨hempty, (congrArg Prod.snd (Option.some.inj h)).symm⟩
  · right
    obtain ⟨info, hinfo, h⟩ := Option.bind_eq_some_iff.mp h
    by_cases hs : genSuspects f info = []
    · exact .inl ⟨info, hinfo, hs⟩
    · right
      simp only [if_neg hs] at h
      obtain ⟨hits, _, h⟩ := Option.bind_eq_some_iff.mp h
      obtain ⟨solved, hsolved, h⟩ := Option.map_eq_some_iff.mp h
      obtain rfl : hits = [] := by
        split at h <;> exact congrArg Prod.fst h
      simp only [List.any_nil, Bool.not_false, List.filter_true] at h
      have hg : genInsert f info solved.1 solved.2 = g := by
        split at h
        next hnone =>
          rw [hnone.1, hnone.2, genInsert_nil]
          exact congrArg Prod.snd h
        · exact congrArg Prod.snd h
      simp only [instrument, hinfo, Option.bind_some, hsolved, Option.map_some, hg]

/-- Checks cover every use of a suspect that some event may have freed. -/
theorem genCheck_covers (pass : GenCheckInsertion) (f : MirFunction) (h0 : f.predecessors 0 = [])
    (hscope : ∀ stmt ∈ f.statements, ∀ dst, stmt.dst? = some dst → dst < f.locals.length) :
    ∃ info, pass.suspectInfo f = some info ∧ (∃ fuel g, pass.instrument f fuel = some g) ∧
      ∀ fuel g, pass.instrument f fuel = some g ∨ pass.run f fuel = some ([], g) →
        UsesCovered f info g := by
  obtain ⟨info, hinfo⟩ := suspectInfo_exists pass f
  have hinstrument : ∀ fuel g, pass.instrument f fuel = some g → UsesCovered f info g := by
    intro fuel g h
    simp only [GenCheckInsertion.instrument, hinfo, Option.bind_some] at h
    obtain ⟨solved, hsolved, rfl⟩ := Option.map_eq_some_iff.mp h
    obtain ⟨hnone, out, hsol, hplan⟩ := genSolve_plan hscope hsolved
    rw [hnone]
    exact genInsert_covers hplan hsol h0
  refine ⟨info, hinfo, ?_, ?_⟩
  · have hloop : ∃ fuel out, solve (genFlow f info (genSuspects f info)) f.basicBlocks.length fuel
        (provenTop f (genSuspects f info)) = some out :=
      genLoop_exists info (List.nodup_range.filter _)
    obtain ⟨fuel, out, hout⟩ := hloop
    rw [provenTop] at hout
    refine ⟨fuel, ?_⟩
    simp only [GenCheckInsertion.instrument, hinfo, Option.bind_some, genSolve, hout,
      Option.map_some]
    exact ⟨_, rfl⟩
  · intro fuel g h
    rcases h with h | h
    · exact hinstrument fuel g h
    · rcases GenCheckInsertion.run_eq_instrument h with ⟨hempty, rfl⟩ | ⟨info', hinfo', hs⟩ | h
      · intro l _ before bb idx _ hr
        have hlt := lt_of_readsAt hr
        rw [hempty] at hlt
        simp at hlt
      · rw [hinfo] at hinfo'
        obtain rfl := Option.some.inj hinfo'
        intro l hl
        rw [hs] at hl
        simp at hl
      · exact hinstrument fuel g h

theorem genCheck_covers_readsDropped : ∃ fuel g,
    plainPass.instrument readsDropped fuel = some g ∧
      UsesCovered readsDropped (plainInfo readsDropped) g := by
  obtain ⟨info, hinfo, ⟨fuel, g, hg⟩, hcovers⟩ :=
    genCheck_covers plainPass readsDropped (by decide) (by decide)
  refine ⟨fuel, g, hg, ?_⟩
  rw [plainInfo, hinfo]
  exact hcovers fuel g (.inl hg)

end Insertion

end Olive
