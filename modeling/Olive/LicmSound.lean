import Mathlib.Tactic.IntervalCases
import Olive.LicmAhead

namespace Olive

open Lockstep

/-- What a run gives, calls and stores on the way aside. -/
def Outcome.result {W : Type} : Outcome W → (Val ⊕ Fault) × World W
  | .returned v w _ => (.inl v, w)
  | .faulted e w _ => (.inr e, w)

variable {W : Type} {rt : Runtime W} {f : MirFunction} {lp : Loop} {hs : List Hoisted}

section Blocks

variable (lp hs) in
theorem hoistInvariants_block {b : BasicBlockId} {block : BasicBlock}
    (h : f.basicBlocks[b]? = some block) :
    (hoistInvariants f lp hs).basicBlocks[b]? =
      some (hoistBlock lp hs f.basicBlocks.length b block) := by
  obtain ⟨hlt, -⟩ := List.getElem?_eq_some_iff.mp h
  rw [hoistInvariants, List.getElem?_append_left (by simpa using hlt)]
  simp [h]

variable (f lp hs) in
theorem hoistInvariants_preheader :
    (hoistInvariants f lp hs).basicBlocks[f.basicBlocks.length]? =
      some ⟨hoistedStmts f hs, some ⟨.goto lp.header, .default⟩⟩ := by
  rw [hoistInvariants, List.getElem?_append_right (by simp)]
  simp

theorem isHoisted_iff {b : BasicBlockId} {i : Nat} :
    isHoisted hs b i = true ↔ ∃ h ∈ hs, h.bb = b ∧ h.idx = i := by
  simp [isHoisted]

theorem remainingFrom_nil (b : BasicBlockId) (k : Nat) : remainingFrom hs b k [] = [] := rfl

theorem remainingFrom_cons (b : BasicBlockId) (k : Nat) (stmt : Statement) (stmts : List Statement) :
    remainingFrom hs b k (stmt :: stmts) =
      if isHoisted hs b k then remainingFrom hs b (k + 1) stmts
      else stmt :: remainingFrom hs b (k + 1) stmts := by
  simp only [remainingFrom, List.zipIdx_cons, List.filter_cons]
  cases isHoisted hs b k <;> simp

theorem remainingFrom_eq_self {b : BasicBlockId} (h : ∀ i, isHoisted hs b i = false) (k : Nat)
    (stmts : List Statement) : remainingFrom hs b k stmts = stmts := by
  induction stmts generalizing k with
  | nil => rfl
  | cons stmt stmts ih => rw [remainingFrom_cons, h k, ih (k + 1), if_neg Bool.false_ne_true]

theorem retarget_eq_mapTargets (header pre : BasicBlockId) (kind : TerminatorKind) :
    kind.retarget header pre = kind.mapTargets fun b => if b = header then pre else b := by
  cases kind <;> rfl

end Blocks

section Simulation

/-- What is known of a loop and its invariants before any run. -/
structure HoistPlan (f : MirFunction) (lp : Loop) (hs : List Hoisted) : Prop where
  selected : Selected f lp.body hs
  header : lp.header ∈ lp.body
  closed : ∀ p m, m ∈ lp.body → m ≠ lp.header → m ∈ f.successors p → p ∈ lp.body
  copies : ∀ stmt ∈ hoistedStmts f hs, stmt.clears = []

theorem HoistPlan.block (plan : HoistPlan f lp hs) {b : BasicBlockId} {i : Nat}
    (h : isHoisted hs b i = true) : b ∈ lp.body := by
  obtain ⟨h, hmem, rfl, rfl⟩ := isHoisted_iff.mp h
  obtain ⟨_, _, _, _, ht⟩ := plan.selected.taken hmem
  exact ht.block

theorem HoistPlan.statements (plan : HoistPlan f lp hs) (pre b : BasicBlockId) (block : BasicBlock) :
    (hoistBlock lp hs pre b block).statements = remainingFrom hs b 0 block.statements := by
  unfold hoistBlock
  split
  next => rfl
  next hb =>
    refine (remainingFrom_eq_self ?_ _ _).symm
    intro i
    cases hi : isHoisted hs b i with
    | false => rfl
    | true => exact absurd (plan.block hi) hb

/-- Only hoisted statements of the loop assign what the hoisted statements assign or read. -/
theorem HoistPlan.not_written (plan : HoistPlan f lp hs) {b : BasicBlockId} {i : Nat}
    {stmt : Statement} (hstmt : (f.stmtsAt b)[i]? = some stmt) (hn : isHoisted hs b i = false)
    {l : Local} (hdst : stmt.dst? = some l) :
    l ∉ hs.map (·.dst) ∧ (b ∈ lp.body → l ∉ hoistLocals f hs) := by
  have hnot : l ∉ hs.map (·.dst) := by
    intro hl
    obtain ⟨h, hmem, rfl⟩ := List.mem_map.mp hl
    obtain ⟨_, _, _, _, ht⟩ := plan.selected.taken hmem
    obtain ⟨rfl, rfl⟩ := assignCount_place ht.once ht.stmt (Statement.writes?_of_dst rfl) hstmt
      (Statement.writes?_of_dst hdst)
    rw [isHoisted_iff.mpr ⟨h, hmem, rfl, rfl⟩] at hn
    simp at hn
  refine ⟨hnot, ?_⟩
  intro hb hl
  have hread : l ∈ (hoistedStmts f hs).flatMap Statement.reads :=
    (List.mem_append.mp hl).resolve_left hnot
  obtain ⟨stmt', hmem, hl'⟩ := List.mem_flatMap.mp hread
  obtain ⟨h, hh, hstmt'⟩ := List.mem_filterMap.mp hmem
  obtain ⟨before, rval, span, hsub, ht⟩ := plan.selected.taken hh
  obtain rfl := Option.some.inj (ht.stmt.symm.trans hstmt')
  obtain ⟨op, hop, hlocal⟩ := List.mem_filterMap.mp hl'
  rcases ht.reads op hop l hlocal with hdef | hmem'
  · have hwrite : definedIn f lp.body l = true := by
      refine List.any_eq_true.mpr ⟨b, hb, List.any_eq_true.mpr ⟨stmt, List.mem_of_getElem? hstmt, ?_⟩⟩
      exact decide_eq_true (Statement.writes?_of_dst hdst)
    rw [hdef] at hwrite
    simp at hwrite
  · exact hnot (hsub hmem')

/-- The changed function has run ahead: it agrees on everything but the locals still pending. -/
structure Follows (rt : Runtime W) (f : MirFunction) (lp : Loop) (hs : List Hoisted)
    (q : Point W × Ahead) (p : Point W) : Prop where
  bb : p.bb = q.1.bb
  left : ((hoistInvariants f lp hs).stmtsAt p.bb).drop p.idx =
    remainingFrom hs q.1.bb q.1.idx ((f.stmtsAt q.1.bb).drop q.1.idx)
  world : q.1.state.world = p.state.world
  agree : AgreeOff (· ∈ q.2.pending) q.1.state.locals p.state.locals
  pending : ∀ l ∈ q.2.pending, l ∈ hs.map (·.dst)
  inside : q.1.bb ∈ lp.body → (∀ l ∈ hoistLocals f hs, p.state.locals l = q.2.saved l) ∧
    ∀ h ∈ hs, Recomputes rt f q.2.saved h

def sameResult (o o' : Outcome W) : Prop := o.result = o'.result

variable {q : Point W × Ahead} {p : Point W}

theorem trackHoisted_of_not_hoisted {p₁ p₂ : Point W} {ahead : Ahead}
    (hn : isHoisted hs p₁.bb p₁.idx = false) (he : ¬lp.entered p₁ p₂) :
    trackHoisted rt f lp hs p₁ p₂ ahead = ahead := by
  have hfind : (hs.find? fun h => decide (h.bb = p₁.bb ∧ h.idx = p₁.idx)) = none := by
    rw [List.find?_eq_none]
    intro h hmem hp
    rw [isHoisted_iff.mpr ⟨h, hmem, of_decide_eq_true hp⟩] at hn
    simp at hn
  simp only [trackHoisted, if_neg he, hfind]

/-- A hoisted statement that the loop reaches only catches up. -/
theorem Follows.hoisted (plan : HoistPlan f lp hs) (hf : Follows rt f lp hs q p)
    (hsafe : HoistsSafely rt f lp hs q) {block : BasicBlock} {stmt : Statement}
    (hb : f.basicBlocks[q.1.bb]? = some block) (hstmt : block.statements[q.1.idx]? = some stmt)
    (hh : isHoisted hs q.1.bb q.1.idx = true) :
    ∃ s, rt.step f q.1 = .inl ⟨q.1.bb, q.1.idx + 1, s⟩ ∧
      Follows rt f lp hs (⟨q.1.bb, q.1.idx + 1, s⟩,
        trackHoisted rt f lp hs q.1 ⟨q.1.bb, q.1.idx + 1, s⟩ q.2) p := by
  have hbody := plan.block hh
  have hstmts := stmtsAt_of_block hb
  have hnot : ∀ s, ¬lp.entered q.1 ⟨q.1.bb, q.1.idx + 1, s⟩ := fun s he => he.1 hbody
  cases hfind : hs.find? fun h => decide (h.bb = q.1.bb ∧ h.idx = q.1.idx) with
  | none =>
    obtain ⟨h, hmem, hplace⟩ := isHoisted_iff.mp hh
    exact absurd (decide_eq_true hplace) (List.find?_eq_none.mp hfind h hmem)
  | some h =>
    have hfound := List.find?_some hfind
    have hplace : h.bb = q.1.bb ∧ h.idx = q.1.idx := of_decide_eq_true hfound
    have hmem := List.mem_of_find?_eq_some hfind
    obtain ⟨before, rval, span, _, ht⟩ := plan.selected.taken hmem
    have hat : (f.stmtsAt q.1.bb)[q.1.idx]? = some ⟨.assign h.dst rval, span⟩ := by
      rw [← hplace.1, ← hplace.2]
      exact ht.stmt
    obtain rfl : stmt = ⟨.assign h.dst rval, span⟩ := by
      rw [hstmts, hstmt] at hat
      exact Option.some.inj hat
    have hcopies := plan.copies _ (List.mem_filterMap.mpr ⟨h, hmem, ht.stmt⟩)
    obtain ⟨hsaved, hre⟩ := hf.inside hbody
    have hops : ∀ op ∈ rval.inputs, ∀ l, op.local? = some l → q.1.state.locals l = q.2.saved l := by
      intro op hop l hl
      have hread : l ∈ (⟨.assign h.dst rval, span⟩ : Statement).reads :=
        List.mem_filterMap.mpr ⟨op, hop, hl⟩
      have hpend : l ∉ q.2.pending := hsafe.reads l (by rw [MirFunction.readsAt, hat]; exact hread)
      refine (hf.agree l hpend).trans (hsaved l ?_)
      exact List.mem_append_right _
        (List.mem_flatMap.mpr ⟨_, List.mem_filterMap.mpr ⟨h, hmem, ht.stmt⟩, hread⟩)
    have hgive : GivesAgain rt f.locals q.2.saved q.1.state h.dst rval := by
      cases hp : (lower f.locals rval).isPure with
      | true => exact hre h hmem rval span ht.stmt hp q.1.state hops
      | false => exact hsafe.again h.dst rval span hat hh hp
    obtain ⟨s, hrun, hv, hw⟩ := hgive
    refine ⟨s, step_ok hb hstmt hrun, ?_⟩
    have htrack : trackHoisted rt f lp hs q.1 ⟨q.1.bb, q.1.idx + 1, s⟩ q.2 =
        ⟨q.2.saved, q.2.pending.filter fun l => decide (l ≠ h.dst)⟩ := by
      simp only [trackHoisted, if_neg (hnot s), hfind]
    rw [htrack]
    refine ⟨hf.bb, ?_, hw.trans hf.world, ?_, ?_, fun _ => ⟨hsaved, hre⟩⟩
    · obtain ⟨hlt, hget⟩ := List.getElem?_eq_some_iff.mp hstmt
      rw [hf.left, hstmts, List.drop_eq_getElem_cons hlt, remainingFrom_cons, if_pos hh]
    · intro l hl
      simp only [List.mem_filter, decide_eq_true_eq, not_and, not_not] at hl
      by_cases hld : l = h.dst
      · subst hld
        exact hv.trans (hsaved _ (List.mem_append_left _ (List.mem_map_of_mem hmem))).symm
      · have hframe : s.locals l = q.1.state.locals l := by
          have hexec : rt.execStmt f.locals q.1.state ⟨.assign h.dst rval, span⟩ = .ok s := hrun
          apply execStmt_frame hexec
          · intro he
            exact hld (Option.some.inj he).symm
          · simp [hcopies]
        exact hframe.trans (hf.agree l fun hp => hld (hl hp))
    · intro l hl
      exact hf.pending l (List.mem_filter.mp hl).1

/-- The place the changed function is at holds what is left after the hoisted statements. -/
theorem Follows.stmt (hf : Follows rt f lp hs q p) {block : BasicBlock}
    (hb : f.basicBlocks[q.1.bb]? = some block) {stmt : Statement}
    (hstmt : block.statements[q.1.idx]? = some stmt) (hh : isHoisted hs q.1.bb q.1.idx = false) :
    ((hoistInvariants f lp hs).stmtsAt p.bb)[p.idx]? = some stmt ∧
      ((hoistInvariants f lp hs).stmtsAt p.bb).drop (p.idx + 1) =
        remainingFrom hs q.1.bb (q.1.idx + 1) ((f.stmtsAt q.1.bb).drop (q.1.idx + 1)) := by
  obtain ⟨hlt, hget⟩ := List.getElem?_eq_some_iff.mp hstmt
  have hleft := hf.left
  rw [stmtsAt_of_block hb, List.drop_eq_getElem_cons hlt, remainingFrom_cons, hh, hget,
    if_neg Bool.false_ne_true] at hleft
  have hhead := congrArg List.head? hleft
  have htail := congrArg List.tail hleft
  rw [List.head?_drop, List.head?_cons] at hhead
  rw [List.tail_drop, List.tail_cons] at htail
  rw [stmtsAt_of_block hb]
  exact ⟨hhead, htail⟩

/-- A new point of both functions at the start of the same block. -/
theorem HoistPlan.follows_start (plan : HoistPlan f lp hs) {bb : BasicBlockId} {s t : State W}
    {ahead : Ahead} (hbb : bb < f.basicBlocks.length) (hw : s.world = t.world)
    (hag : AgreeOff (· ∈ ahead.pending) s.locals t.locals)
    (hpend : ∀ l ∈ ahead.pending, l ∈ hs.map (·.dst))
    (hin : bb ∈ lp.body → (∀ l ∈ hoistLocals f hs, t.locals l = ahead.saved l) ∧
      ∀ h ∈ hs, Recomputes rt f ahead.saved h) :
    Follows rt f lp hs (⟨bb, 0, s⟩, ahead) ⟨bb, 0, t⟩ := by
  refine ⟨rfl, ?_, hw, hag, hpend, hin⟩
  have hblock := List.getElem?_eq_getElem hbb
  rw [stmtsAt_of_block hblock, stmtsAt_of_block (hoistInvariants_block lp hs hblock), plan.statements]
  simp

/-- Any other statement does the same in both functions. -/
theorem Follows.other (plan : HoistPlan f lp hs) (hf : Follows rt f lp hs q p)
    (hsafe : HoistsSafely rt f lp hs q) {block : BasicBlock} {stmt : Statement}
    (hb : f.basicBlocks[q.1.bb]? = some block) (hstmt : block.statements[q.1.idx]? = some stmt)
    (hh : isHoisted hs q.1.bb q.1.idx = false) :
    Matched (ghost (rt.step f) (trackHoisted rt f lp hs)) (rt.step (hoistInvariants f lp hs))
      (Follows rt f lp hs) sameResult q p := by
  have hstmts := stmtsAt_of_block hb
  have hat : (f.stmtsAt q.1.bb)[q.1.idx]? = some stmt := hstmts ▸ hstmt
  obtain ⟨hstmt', hleft⟩ := hf.stmt hb hstmt hh
  obtain ⟨block', hb', hget'⟩ := block_of_stmt hstmt'
  have hreads : ∀ l ∈ stmt.reads, l ∉ q.2.pending := by
    intro l hl
    exact hsafe.reads l (by rw [MirFunction.readsAt, hat]; exact hl)
  have hsame := execStmt_agrees rt f.locals hf.agree hf.world hreads
  apply Matched.one
  cases hs₁ : rt.execStmt f.locals q.1.state stmt with
  | error e =>
    cases ht₁ : rt.execStmt f.locals p.state stmt with
    | ok t => simp [hs₁, ht₁, SameResult] at hsame
    | error e' =>
      rw [hs₁, ht₁] at hsame
      obtain rfl : e = e' := hsame
      refine .inr ⟨_, _, ghost_inr (step_error hb hstmt hs₁), step_error hb' hget' ht₁, ?_⟩
      simp only [sameResult, Outcome.result, hf.world]
  | ok s =>
    cases ht₁ : rt.execStmt f.locals p.state stmt with
    | error e => simp [hs₁, ht₁, SameResult] at hsame
    | ok t =>
      rw [hs₁, ht₁] at hsame
      obtain ⟨hag, hw, -⟩ := hsame
      have hnot : ¬lp.entered q.1 ⟨q.1.bb, q.1.idx + 1, s⟩ := fun he => he.1 (he.2 ▸ plan.header)
      refine .inl ⟨_, ⟨p.bb, p.idx + 1, t⟩, ghost_inl (step_ok hb hstmt hs₁),
        step_ok hb' hget' ht₁, ?_⟩
      rw [trackHoisted_of_not_hoisted hh hnot]
      refine ⟨hf.bb, hleft, hw, hag.weaken fun l hl => hl.1, hf.pending, ?_⟩
      intro hbody
      obtain ⟨hsaved, hre⟩ := hf.inside hbody
      refine ⟨?_, hre⟩
      intro l hl
      have hframe : t.locals l = p.state.locals l := by
        apply execStmt_frame ht₁
        · intro hdst
          exact (plan.not_written hat hh hdst).2 hbody hl
        · intro hclear
          exact hsafe.clears hbody l (by rw [MirFunction.clearsAt, hat]; exact hclear) hl
      exact hframe.trans (hsaved l hl)

/-- Entering the loop, the changed function runs the hoisted statements first. -/
theorem HoistPlan.follows_enter (plan : HoistPlan f lp hs) {s s' t : State W} {ahead : Ahead}
    (hlt : lp.header < f.basicBlocks.length) (hw : s.world = t.world)
    (hag : AgreeOff (· ∈ ahead.pending) s.locals t.locals)
    (hpend : ∀ l ∈ ahead.pending, l ∈ hs.map (·.dst))
    (hrun : rt.runStmts f.locals s (hoistedStmts f hs) = .ok s') (hworld : s'.world = s.world) :
    ∃ m t', runs (rt.step (hoistInvariants f lp hs)) m ⟨f.basicBlocks.length, 0, t⟩ =
        .inl ⟨lp.header, 0, t'⟩ ∧
      Follows rt f lp hs (⟨lp.header, 0, s⟩, ⟨s'.locals, hs.map (·.dst)⟩) ⟨lp.header, 0, t'⟩ := by
  have hdefined : ∀ l, l ∈ ahead.pending → definedIn f lp.body l = true := by
    intro l hl
    obtain ⟨h, hmem, rfl⟩ := List.mem_map.mp (hpend l hl)
    obtain ⟨_, _, _, _, ht⟩ := plan.selected.taken hmem
    exact ht.defined
  obtain ⟨t', htrun, htag, htw⟩ := hoisted_agrees plan.selected hdefined hag hw hrun
  obtain ⟨hkeep, hre⟩ := hoisted_run plan.selected plan.copies hrun
  have heq : ∀ l, s'.locals l = t'.locals l := fun l => htag l fun hl => hl.2 (hpend l hl.1)
  have hpre := hoistInvariants_preheader f lp hs
  have hruns := @runs_stmts _ rt _ _ _ 0 t t' hpre htrun (Nat.zero_le _)
  have hgoto : rt.step (hoistInvariants f lp hs)
      ⟨f.basicBlocks.length, (hoistedStmts f hs).length, t'⟩ = .inl ⟨lp.header, 0, t'⟩ :=
    step_goes hpre (by simp) rfl
  refine ⟨_, t', (runs_add_inl hruns).trans ((runs_one _).trans hgoto), ?_⟩
  refine plan.follows_start hlt (hworld.symm.trans htw) ?_ (fun l hl => hl) fun _ => ⟨?_, hre⟩
  · intro l hl
    exact (hkeep l hl).symm.trans (heq l)
  · intro l _
    exact (heq l).symm

theorem not_hoisted_at_end (plan : HoistPlan f lp hs) {block : BasicBlock} {b : BasicBlockId}
    {i : Nat} (hb : f.basicBlocks[b]? = some block) (hend : block.statements[i]? = none) :
    isHoisted hs b i = false := by
  cases hi : isHoisted hs b i with
  | false => rfl
  | true =>
    obtain ⟨h, hmem, rfl, rfl⟩ := isHoisted_iff.mp hi
    obtain ⟨_, _, _, _, ht⟩ := plan.selected.taken hmem
    have hstmt := ht.stmt
    rw [stmtsAt_of_block hb, hend] at hstmt
    simp at hstmt

theorem Follows.terminator (plan : HoistPlan f lp hs) (hf : Follows rt f lp hs q p)
    (hsafe : HoistsSafely rt f lp hs q)
    (hnext : ∀ q', ghost (rt.step f) (trackHoisted rt f lp hs) q = .inl q' →
      q'.1.bb < f.basicBlocks.length)
    {block : BasicBlock} (hb : f.basicBlocks[q.1.bb]? = some block)
    (hend : block.statements[q.1.idx]? = none) :
    Matched (ghost (rt.step f) (trackHoisted rt f lp hs)) (rt.step (hoistInvariants f lp hs))
      (Follows rt f lp hs) sameResult q p := by
  have hblock' := hoistInvariants_block lp hs hb
  have hnot := not_hoisted_at_end plan hb hend
  have hterm : f.terminatorAt q.1.bb = block.terminator := by
    simp only [MirFunction.terminatorAt, hb, Option.bind_some]
  have hat : (f.stmtsAt q.1.bb)[q.1.idx]? = none := (stmtsAt_of_block hb).symm ▸ hend
  have hend' : (hoistBlock lp hs f.basicBlocks.length q.1.bb block).statements[p.idx]? = none := by
    have hleft := hf.left
    have hdrop : block.statements.drop q.1.idx = [] :=
      List.drop_eq_nil_of_le (List.getElem?_eq_none_iff.mp hend)
    rw [hf.bb, stmtsAt_of_block hblock', stmtsAt_of_block hb, hdrop, remainingFrom_nil] at hleft
    exact List.getElem?_eq_none (List.drop_eq_nil_iff.mp hleft)
  have hreads : ∀ tm, block.terminator = some tm → ∀ l ∈ tm.kind.reads, l ∉ q.2.pending := by
    intro tm htm l hl
    refine hsafe.reads l ?_
    simp only [MirFunction.readsAt, hat, hterm, htm]
    exact hl
  have hclears : q.1.bb ∈ lp.body → ∀ l ∈ hoistLocals f hs, ∀ tm, block.terminator = some tm →
      l ∉ tm.kind.clears := by
    intro hbody l hl tm htm hmem
    refine hsafe.clears hbody l ?_ hl
    simp only [MirFunction.clearsAt, hat, hterm, htm]
    exact hmem
  have hends := execTerm_agrees rt f.locals hf.agree hf.world hreads
  have hbb : (hoistInvariants f lp hs).basicBlocks[p.bb]? =
      some (hoistBlock lp hs f.basicBlocks.length q.1.bb block) := by rw [hf.bb, hblock']
  -- Outside the loop the terminator is the retargeted one; inside it is unchanged.
  have hterm' : ∀ t : State W, rt.execTerm f.locals t
      (hoistBlock lp hs f.basicBlocks.length q.1.bb block).terminator =
      if q.1.bb ∈ lp.body then rt.execTerm f.locals t block.terminator
      else (rt.execTerm f.locals t block.terminator).map
        (fun r => (if r.1 = lp.header then f.basicBlocks.length else r.1, r.2)) id := by
    intro t
    unfold hoistBlock
    split
    next => rfl
    next =>
      simp only [retarget_eq_mapTargets]
      exact execTerm_mapTargets rt _ t block.terminator
  have hstop : ∀ o o', rt.execTerm f.locals q.1.state block.terminator = .inr o →
      rt.execTerm f.locals p.state block.terminator = .inr o' → o.result = o'.result →
      Matched (ghost (rt.step f) (trackHoisted rt f lp hs)) (rt.step (hoistInvariants f lp hs))
        (Follows rt f lp hs) sameResult q p := by
    intro o o' ho ho' hres
    apply Matched.one
    refine .inr ⟨o, o', ghost_inr (step_ends hb hend ho), step_ends hbb hend' ?_, hres⟩
    refine (hterm' p.state).trans ?_
    rw [ho']
    split <;> rfl
  rcases hends with ⟨bb, s, t, hgo, hgo', hag, hws, hwt, _, _⟩ | ⟨v, hr, hr'⟩ | ⟨e, he, he'⟩
  · have hstep := step_goes hb hend hgo
    have hwst : s.world = t.world := by rw [hws, hwt, hf.world]
    have hlt := hnext _ (ghost_inl hstep)
    by_cases hbody : q.1.bb ∈ lp.body
    · have hne : ¬lp.entered q.1 ⟨bb, 0, s⟩ := fun he => he.1 hbody
      apply Matched.one
      refine .inl ⟨_, ⟨bb, 0, t⟩, ghost_inl hstep, step_goes hbb hend' ?_, ?_⟩
      · exact (hterm' p.state).trans ((if_pos hbody).trans hgo')
      · rw [trackHoisted_of_not_hoisted hnot hne]
        obtain ⟨hsaved, hre⟩ := hf.inside hbody
        refine plan.follows_start hlt hwst hag hf.pending fun _ => ⟨?_, hre⟩
        intro l hl
        have hframe := (execTerm_frame hgo').2.2 l (hclears hbody l hl)
        exact hframe.trans (hsaved l hl)
    · have hgo'' := hterm' p.state
      rw [if_neg hbody, hgo', Sum.map_inl] at hgo''
      by_cases hhead : bb = lp.header
      · subst hhead
        rw [if_pos rfl] at hgo''
        have henter : lp.entered q.1 ⟨lp.header, 0, s⟩ := ⟨hbody, rfl⟩
        obtain ⟨s', hrun, hworld⟩ := hsafe.enters _ hstep henter
        obtain ⟨m, t', hm, hfollow⟩ := plan.follows_enter hlt hwst hag hf.pending hrun hworld
        have htrack : trackHoisted rt f lp hs q.1 ⟨lp.header, 0, s⟩ q.2 =
            ⟨s'.locals, hs.map (·.dst)⟩ := by
          simp only [trackHoisted, if_pos henter, hrun]
        have hstep' := (runs_one p).trans (step_goes hbb hend' hgo'')
        refine ⟨1, 1 + m, Nat.one_pos, by omega, .inl ⟨_, ⟨lp.header, 0, t'⟩,
          (runs_one q).trans (ghost_inl hstep), (runs_add_inl hstep').trans hm, ?_⟩⟩
        rwa [htrack]
      · rw [if_neg hhead] at hgo''
        have hne : ¬lp.entered q.1 ⟨bb, 0, s⟩ := fun he => hhead he.2
        have hout : bb ∉ lp.body := by
          intro hin
          refine hbody (plan.closed _ bb hin hhead ?_)
          obtain ⟨tm, htm⟩ : ∃ tm, block.terminator = some tm := by
            cases htm : block.terminator with
            | none => simp [htm, Runtime.execTerm] at hgo
            | some tm => exact ⟨tm, rfl⟩
          rw [MirFunction.successors, hterm, htm]
          exact execTerm_target (htm ▸ hgo)
        apply Matched.one
        refine .inl ⟨_, ⟨bb, 0, t⟩, ghost_inl hstep, step_goes hbb hend' hgo'', ?_⟩
        rw [trackHoisted_of_not_hoisted hnot hne]
        exact plan.follows_start hlt hwst hag hf.pending fun hin => absurd hin hout
  · exact hstop _ _ hr hr' (by simp only [Outcome.result, hf.world])
  · exact hstop _ _ he he' (by simp only [Outcome.result, hf.world])

end Simulation

section Preservation

/-- The run in which the loop's invariants are hoisted safely from start to end. -/
structure RunHoistsSafely (rt : Runtime W) (f : MirFunction) (lp : Loop) (args : List Val)
    (w : World W) : Prop where
  entry : 0 ∉ lp.body
  copies : ∀ stmt ∈ hoistedStmts f (invariantStmts f lp.body), stmt.clears = []
  along : ∀ q, Reaches (ghost (rt.step f) (trackHoisted rt f lp (invariantStmts f lp.body)))
    (startPoint args w, ⟨(startPoint args w).state.locals, []⟩) q →
    HoistsSafely rt f lp (invariantStmts f lp.body) q

theorem findLoops_natural {lp : Loop} (h : lp ∈ findLoops f) :
    lp.header < f.basicBlocks.length ∧ ∃ n, lp = naturalLoop f n lp.header := by
  obtain ⟨b, _, hmem⟩ := List.mem_flatMap.mp h
  obtain ⟨d, hd, rfl⟩ := List.mem_map.mp hmem
  simp only [List.mem_filter, decide_eq_true_eq] at hd
  exact ⟨hd.2.1, b, rfl⟩

theorem mem_of_licmLoop {loops : List Loop} {processed : List BasicBlockId} {lp : Loop}
    (h : licmLoop f loops processed = some lp) : lp ∈ loops := by
  induction loops generalizing processed with
  | nil => simp [licmLoop] at h
  | cons first loops ih =>
    unfold licmLoop at h
    split at h
    next => exact List.mem_cons_of_mem _ (ih h)
    next =>
      split at h
      next => exact Option.some.inj h ▸ List.mem_cons_self
      next => exact List.mem_cons_of_mem _ (ih h)

theorem naturalLoop_header (n d : BasicBlockId) : d ∈ (naturalLoop f n d).body :=
  subset_growBody _ _ _ (by simp)

theorem findLoops_plan {lp : Loop} (h : lp ∈ findLoops f)
    (hcopies : ∀ stmt ∈ hoistedStmts f (invariantStmts f lp.body), stmt.clears = []) :
    HoistPlan f lp (invariantStmts f lp.body) := by
  obtain ⟨_, n, hn⟩ := findLoops_natural h
  refine ⟨invariantStmts_selected, ?_, ?_, hcopies⟩
  · rw [hn]
    exact naturalLoop_header n _
  · intro p m hm hne hp
    rw [hn] at hm ⊢
    exact naturalLoop_closed n hm hne hp

theorem hoistInvariants_preserves {args : List Val} {w : World W}
    (plan : HoistPlan f lp (invariantStmts f lp.body)) (hlt : lp.header < f.basicBlocks.length)
    (h : RunHoistsSafely rt f lp args w) (r : (Val ⊕ Fault) × World W) :
    (∃ o, Yields (rt.step f) (startPoint args w) o ∧ o.result = r) ↔
      ∃ o, Yields (rt.step (hoistInvariants f lp (invariantStmts f lp.body))) (startPoint args w) o ∧
        o.result = r := by
  let hs := invariantStmts f lp.body
  let watch := ghost (rt.step f) (trackHoisted rt f lp hs)
  let start : Point W × Ahead := (startPoint args w, ⟨(startPoint args w).state.locals, []⟩)
  let R := fun q p => Follows rt f lp hs q p ∧ Reaches watch start q
  have hmatch : ∀ q p, R q p → Matched watch (rt.step (hoistInvariants f lp hs)) R sameResult q p := by
    refine matched_of_ranked (fun q => (f.stmtsAt q.1.bb).length - q.1.idx) ?_
    intro q p hr
    obtain ⟨hf, hreach⟩ := hr
    have hsafe := h.along q hreach
    obtain ⟨block, hb⟩ : ∃ block, f.basicBlocks[q.1.bb]? = some block :=
      ⟨_, List.getElem?_eq_getElem hsafe.block⟩
    have hkeep : ∀ {q' : Point W × Ahead} {k : Nat}, runs watch k q = .inl q' → Reaches watch start q' :=
      fun hk => hreach.trans ⟨_, hk⟩
    have hlift : Matched watch (rt.step (hoistInvariants f lp hs)) (Follows rt f lp hs) sameResult q p →
        Matched watch (rt.step (hoistInvariants f lp hs)) R sameResult q p := by
      intro hm
      obtain ⟨n, m, hn, hm, hends⟩ := hm
      refine ⟨n, m, hn, hm, hends.imp_left ?_⟩
      intro ⟨q', p', hq, hp, hf'⟩
      exact ⟨q', p', hq, hp, hf', hkeep hq⟩
    cases hstmt : block.statements[q.1.idx]? with
    | none =>
      refine .inl (hlift (hf.terminator plan hsafe ?_ hb hstmt))
      intro q' hq'
      exact (h.along q' (hreach.tail hq')).block
    | some stmt =>
      cases hh : isHoisted hs q.1.bb q.1.idx with
      | false => exact .inl (hlift (hf.other plan hsafe hb hstmt hh))
      | true =>
        obtain ⟨s, hstep, hf'⟩ := hf.hoisted plan hsafe hb hstmt hh
        refine .inr ⟨_, ghost_inl hstep, ⟨hf', hreach.tail (ghost_inl hstep)⟩, ?_⟩
        obtain ⟨hidx, _⟩ := List.getElem?_eq_some_iff.mp hstmt
        rw [stmtsAt_of_block hb]
        exact Nat.sub_succ_lt_self _ _ hidx
  have hstart : R start (startPoint args w) :=
    ⟨plan.follows_start (Nat.zero_lt_of_lt hlt) rfl (fun _ _ => rfl) (by simp)
      (fun hin => absurd hin h.entry), Reaches.refl _⟩
  constructor
  · rintro ⟨o, hy, rfl⟩
    obtain ⟨o', hy', hres⟩ := yields_of_matched hmatch hstart ((yields_ghost _ _ o).mpr hy)
    exact ⟨o', hy', hres.symm⟩
  · rintro ⟨o, hy, rfl⟩
    obtain ⟨o', hy', hres⟩ := yields_of_matched (fun p q hr => (hmatch q p hr).symm) hstart hy
    exact ⟨o', (yields_ghost _ _ o').mp hy', hres⟩

/-- While `_1 > 0`, `_1` goes down by `_2 + 1`, which is computed anew each time. -/
def stepsDown : MirFunction :=
  plainFunction "steps_down" 2 [.int, .int, .int, .int, .int]
    [⟨[], plainTerm (.goto 1)⟩,
      ⟨[plainStmt (.assign 3 (.binaryOp .gt (.copy 1) (.const (.int 0))))],
        plainTerm (.switchInt (.copy 3) [(0, 3)] 2)⟩,
      ⟨[plainStmt (.assign 4 (.binaryOp .add (.copy 2) (.const (.int 1)))),
        plainStmt (.assign 1 (.binaryOp .sub (.copy 1) (.copy 4)))], plainTerm (.goto 1)⟩,
      ⟨[plainStmt (.assign 0 (.use (.copy 1)))], plainTerm .ret⟩]

def stepsDownLoop : Loop := ⟨1, [1, 2], [2], [3]⟩

def stepsDownHoisted : List Hoisted := [⟨2, 0, 4⟩]

theorem stepsDown_loop : licmLoop stepsDown (findLoops stepsDown) [] = some stepsDownLoop ∧
    invariantStmts stepsDown stepsDownLoop.body = stepsDownHoisted := by decide +kernel

theorem stepsDown_hoistsSafely {q : Point Unit × Ahead}
    (h : Reaches (ghost (plainRuntime.step stepsDown)
      (trackHoisted plainRuntime stepsDown stepsDownLoop stepsDownHoisted))
      (startPoint [.word 1, .word 0] emptyWorld,
        ⟨(startPoint [.word 1, .word 0] emptyWorld).state.locals, []⟩) q) :
    HoistsSafely plainRuntime stepsDown stepsDownLoop stepsDownHoisted q := by
  have hend : runs (ghost (plainRuntime.step stepsDown)
      (trackHoisted plainRuntime stepsDown stepsDownLoop stepsDownHoisted)) 10
      (startPoint [.word 1, .word 0] emptyWorld,
        ⟨(startPoint [.word 1, .word 0] emptyWorld).state.locals, []⟩) =
      .inr (.returned (.word 0) emptyWorld []) := rfl
  have hagain : ∀ dst rval span,
      (stepsDown.stmtsAt q.1.bb)[q.1.idx]? = some ⟨.assign dst rval, span⟩ →
      isHoisted stepsDownHoisted q.1.bb q.1.idx = true → (lower stepsDown.locals rval).isPure = false →
      GivesAgain plainRuntime stepsDown.locals q.2.saved q.1.state dst rval := by
    intro dst rval span hstmt hh hp
    obtain ⟨h, hmem, hbb, hidx⟩ := isHoisted_iff.mp hh
    obtain rfl := List.mem_singleton.mp hmem
    rw [← hbb, ← hidx] at hstmt
    cases hstmt
    simp [lower, stepsDown, plainFunction, plainDecl, Operand.class, tyOf, classOf, BinOp.isNative,
      OperandClass.isNative, Instr.isPure] at hp
  obtain ⟨n, hn, hrun⟩ := h.lt_end hend
  interval_cases n <;> cases hrun
  · refine ⟨by decide, ?_, by decide, by decide, hagain⟩
    intro p' hstep _
    cases hstep
    exact ⟨_, rfl, rfl⟩
  all_goals
    refine ⟨by decide, ?_, by decide, by decide, hagain⟩
    intro p' hstep hen
    cases hstep <;> exact absurd hen (by decide)

end Preservation

/-- Divides by `_2` while `_1 > 0`. -/
def dividesInLoop : MirFunction :=
  plainFunction "divides_in_loop" 2 [.int, .int, .int, .int, .int]
    [⟨[], plainTerm (.goto 1)⟩,
      ⟨[plainStmt (.assign 3 (.binaryOp .gt (.copy 1) (.const (.int 0))))],
        plainTerm (.switchInt (.copy 3) [(0, 3)] 2)⟩,
      ⟨[plainStmt (.assign 4 (.binaryOp .div (.const (.int 10)) (.copy 2))),
        plainStmt (.assign 1 (.binaryOp .sub (.copy 1) (.const (.int 1))))], plainTerm (.goto 1)⟩,
      ⟨[plainStmt (.assign 0 (.use (.const (.int 7))))], plainTerm .ret⟩]

/-- Stores 9 through `_2` and reads it back through `_1`, a second name of the same list. -/
def readsThroughAlias : MirFunction :=
  plainFunction "reads_through_alias" 3 [.int, .list .int, .list .int, .int, .int, .int]
    [⟨[], plainTerm (.goto 1)⟩,
      ⟨[plainStmt (.assign 5 (.binaryOp .gt (.copy 3) (.const (.int 0))))],
        plainTerm (.switchInt (.copy 5) [(0, 3)] 2)⟩,
      ⟨[plainStmt (.setIndex (.copy 2) (.const (.int 0)) (.const (.int 9)) false),
        plainStmt (.assign 4 (.getIndex (.copy 1) (.const (.int 0)) false)),
        plainStmt (.assign 3 (.binaryOp .sub (.copy 3) (.const (.int 1))))], plainTerm (.goto 1)⟩,
      ⟨[plainStmt (.assign 0 (.use (.copy 4)))], plainTerm .ret⟩]

def oneList : World Unit := ⟨fun a => if a = 8 then some [5] else none, ()⟩

end Olive
