import Olive.BorrowCheckerSound

/-! Paths through a function that the borrow checker accepts. -/

namespace Olive

namespace BorrowChecker

open Worklist

/-- Every visit of the check is fine. -/
def VisitsFine (f : MirFunction) (structFields : FxHashMap String (List String)) : Prop :=
  ∀ fuel liveAfter, computeLiveness f fuel = some liveAfter →
    ∀ s, Reached (flow f structFields liveAfter) (fun _ _ _ => True) (startLoop f) s →
      ∀ bb state, s.next = some (bb, state) → VisitFine f liveAfter s.ctx bb state

/-- A visit that was fine and found no error. -/
def Clean (f : MirFunction) (structFields : FxHashMap String (List String))
    (liveAfter : List (List (Finset Local))) (ctx : Context) (bb : BasicBlockId) (s : FlowState) :
    Prop :=
  VisitFine f liveAfter ctx bb s ∧ (checkBlock f structFields liveAfter ctx bb s).1.errors = []

variable {f : MirFunction} {structFields : FxHashMap String (List String)}
  {liveAfter : List (List (Finset Local))} {entry : Nat → Option FlowState}

/-- What an accepting check leaves behind: every block settled, from the entry on. -/
structure Accepted (f : MirFunction) (structFields : FxHashMap String (List String))
    (liveAfter : List (List (Finset Local))) (entry : Nat → Option FlowState) : Prop where
  settled : ∀ bb s, entry bb = some s →
    ∃ ctx, SettledAt (flow f structFields liveAfter) Le (Clean f structFields liveAfter) entry bb s ctx
  start : ∃ s, entry 0 = some s ∧ Le (FlowState.init f) s

theorem accepted_of_check (hne : f.basicBlocks ≠ []) (hfine : VisitsFine f structFields) {fuel : Nat}
    (h : check f structFields fuel = some []) :
    ∃ liveAfter entry, computeLiveness f fuel = some liveAfter ∧
      Accepted f structFields liveAfter entry := by
  obtain ⟨liveAfter, hlive, hrest⟩ := Option.bind_eq_some_iff.mp h
  rw [List.isEmpty_eq_false_iff.mpr hne] at hrest
  obtain ⟨last, hrun, hnil⟩ := Option.map_eq_some_iff.mp hrest
  obtain ⟨hreached, hempty⟩ := reached_of_run (hfine fuel liveAfter hlive) hrun
  have hbefore : ∀ (c : Context) (bb : Nat) (s : FlowState),
      ((flow f structFields liveAfter).visit c bb s).1.errors = [] → c.errors = [] := by
    intro c bb s hs
    exact errors_nil_of_le (c := (c, s)) (Nat.zero_le _) (Nat.le_refl _)
      (List.append_eq_nil_iff.mp hs).1
  obtain ⟨hsettled, habove⟩ := (hreached.and_before (P := (·.errors = [])) hbefore hnil).settled
    (flow_joins f structFields liveAfter) settling_single hempty
  exact ⟨liveAfter, last.entry, hlive, hsettled, habove 0 (FlowState.init f) rfl⟩

/-- The state of the last visit at a point. -/
structure StateAt (f : MirFunction) (structFields : FxHashMap String (List String))
    (liveAfter : List (List (Finset Local))) (entry : Nat → Option FlowState) (p : PathPoint)
    (ctx : Context) (s : FlowState) : Prop where
  found : entry p.bb = some s
  settled : SettledAt (flow f structFields liveAfter) Le (Clean f structFields liveAfter) entry p.bb s
    ctx
  agrees : Agrees f liveAfter p (checkStmts f liveAfter p.bb p.idx (ctx, s)).2

theorem agrees_init (f : MirFunction) (liveAfter : List (List (Finset Local))) :
    Agrees f liveAfter (entryPoint f) (FlowState.init f) where
  fates := {
    locals := by simp [FlowState.init]
    borrows := by simp [FlowState.init]
    valued := by
      intro l hl hv
      have hparam : l ≤ f.argCount := by
        by_contra hl
        simp [entryPoint, hl] at hv
      rw [FlowState.get, FlowState.init, List.getD_eq_getElem?_getD, List.getElem?_map,
        List.getElem?_range hl]
      simp [hparam]
    gone := by
      intro l hg
      simp only [entryPoint] at hg
      split at hg <;> cases hg }
  borrowed l _ r hr := by cases hr

section Points

variable (hlive : computeLiveness f fuel = some liveAfter) (hdecl : LocalsDeclared f)
  (hfirst : AssignedFirst f)

include hdecl hfirst in
/-- What the check of a statement on the way has found. -/
theorem StateAt.stmtOk {p : PathPoint} {ctx : Context} {s : FlowState}
    (h : StateAt f structFields liveAfter entry p ctx s) (hp : OnPath f p) {stmt : Statement}
    (hs : (f.stmtsAt p.bb)[p.idx]? = some stmt) :
    let before := checkStmts f liveAfter p.bb p.idx (ctx, s)
    StmtOk f p.fate stmt.kind before.2
      (transferStmt f stmt before.1.provenance before.2).2.1 := by
  intro before
  have hmem := mem_statements (List.mem_of_getElem? hs)
  have hlt := (List.getElem?_eq_some_iff.mp hs).1
  have herrors := errors_nil_of_le hlt (Nat.le_refl _)
    (List.append_eq_nil_iff.mp h.settled.met.2).1
  rw [checkStmts_succ hs] at herrors
  refine transferStmt_ok h.agrees.fates (List.append_eq_nil_iff.mp herrors).2 ?_
    (hdecl.reads stmt hmem) (hdecl.dst stmt hmem) (hdecl.drop stmt hmem)
    (hfirst.unchecked stmt hmem)
  have hread := hfirst.assigned p hp
  rwa [readAt_stmt hs (hfirst.unchecked stmt hmem)] at hread

include hfirst in
theorem StateAt.termOk {p : PathPoint} {ctx : Context} {s : FlowState}
    (h : StateAt f structFields liveAfter entry p ctx s) (hp : OnPath f p)
    (hend : p.idx = (f.stmtsAt p.bb).length) :
    let before := (checkStmts f liveAfter p.bb p.idx (ctx, s)).2
    Checked f p.fate (f.operandsAt p.bb p.idx) before
      (checkTerminator f structFields (f.terminatorAt p.bb) before).1 := by
  intro before
  have hnone : (f.stmtsAt p.bb)[p.idx]? = none := List.getElem?_eq_none (Nat.le_of_eq hend.symm)
  have herrors := (List.append_eq_nil_iff.mp h.settled.met.2).2
  rw [← hend] at herrors
  refine checkTerminator_ok h.agrees.fates hnone herrors ?_
  have hread := hfirst.assigned p hp
  rwa [readAt_end hnone] at hread

include hlive hdecl hfirst in
/-- Every path stays in what the last visits found. -/
theorem stateAt_of_onPath (hacc : Accepted f structFields liveAfter entry) {p : PathPoint}
    (hp : OnPath f p) : ∃ ctx s, StateAt f structFields liveAfter entry p ctx s := by
  induction hp with
  | entry =>
    obtain ⟨s, hs, hle⟩ := hacc.start
    obtain ⟨ctx, hsettled⟩ := hacc.settled 0 s hs
    exact ⟨ctx, s, hs, hsettled, (agrees_init f liveAfter).above hle⟩
  | @step p q hp hwalk ih =>
    obtain ⟨ctx, s, h⟩ := ih
    have hq := OnPath.step hp hwalk
    cases hwalk with
    | @stmt stmt hs =>
      have hok := h.stmtOk hdecl hfirst hp hs
      refine ⟨ctx, s, h.found, h.settled, ?_⟩
      rw [checkStmts_succ hs]
      have hafter : Agrees f liveAfter ⟨p.bb, p.idx + 1, fateAfter f p.fate stmt.kind,
          heldAfter p.time p.holds stmt.kind, p.time + 1⟩ (transferStmt f stmt
            (checkStmts f liveAfter p.bb p.idx (ctx, s)).1.provenance
            (checkStmts f liveAfter p.bb p.idx (ctx, s)).2).2.1 := by
        refine ⟨hok.agrees, fun l hl r hr => ?_⟩
        have hbefore : ∀ src, src ∈ liveAt liveAfter p.bb p.idx → p.holds src = some r → Counts _ r :=
          fun src hsrc hheld => (h.agrees.borrowed src hsrc r hheld).grows hok.grows
        cases heldAfter_cases hr with
        | kept hkill hheld => exact hbefore l ((mem_liveAt_stmt hlive hs).mpr (.inr ⟨hl, hkill⟩)) hheld
        | @carried rval src hk hsrc hheld =>
          refine hbefore src ((mem_liveAt_stmt hlive hs).mpr (.inl ?_)) hheld
          rw [readAt_assign hs hk]
          exact carriedFrom_read hsrc
        | made hk =>
          obtain ⟨hk, rfl⟩ | ⟨hk, rfl⟩ := hk
          · exact hok.made l _ _ hk (.ref _)
          · exact hok.made l _ _ hk (.mutRef _)
      refine hafter.released fun l hl r hr => ?_
      have hkept := h.settled.met.1.release _ hq rfl (.inl (Nat.succ_pos _)) l hl r hr
      rwa [checkStmts_succ hs] at hkept
    | @edge target hend ht =>
      have hok := h.termOk hfirst hp hend
      obtain ⟨t, ht', hle⟩ := h.settled.passed target ht
      obtain ⟨ctx', hsettled⟩ := hacc.settled target t ht'
      refine ⟨ctx', t, ht', hsettled, Agrees.above ?_ hle⟩
      have hafter : Agrees f liveAfter ⟨p.bb, p.idx, (f.operandsAt p.bb p.idx).foldl (moveOut f)
          p.fate, p.holds, p.time⟩ (checkTerminator f structFields (f.terminatorAt p.bb)
            (checkStmts f liveAfter p.bb p.idx (ctx, s)).2).1 :=
        ⟨hok.agrees, fun l hl r hr => (h.agrees.borrowed l hl r hr).grows hok.grows⟩
      have hreleased := hafter.released fun l hl r hr =>
        h.settled.met.1.release p hp rfl (.inr hend) l hl r hr
      have hexit : (checkBlock f structFields liveAfter ctx p.bb s).2 = releaseDeadBorrows
          (checkStmts f liveAfter p.bb p.idx (ctx, s)).1.provenance
          (checkTerminator f structFields (f.terminatorAt p.bb)
            (checkStmts f liveAfter p.bb p.idx (ctx, s)).2).1 (liveAt liveAfter p.bb p.idx) := by
        rw [hend]
        rfl
      refine ⟨?_, fun l hl r hr => ?_⟩
      · change FateAgrees f _ (checkBlock f structFields liveAfter ctx p.bb s).2
        rw [hexit]
        exact hreleased.fates
      · change Counts (checkBlock f structFields liveAfter ctx p.bb s).2 r
        rw [hexit]
        refine hreleased.borrowed l ?_ r hr
        change l ∈ liveAt liveAfter p.bb p.idx
        rw [hend]
        exact (mem_liveAt_term hlive (MirFunction.lt_of_successors ht)).mpr (.inr ⟨target, ht, hl⟩)

include hlive hdecl hfirst in
theorem readsFine_of_accepted (hacc : Accepted f structFields liveAfter entry) {p : PathPoint}
    (hp : OnPath f p) : ReadsFine f p.fate (f.readAt p.bb p.idx) := by
  obtain ⟨ctx, s, h⟩ := stateAt_of_onPath hlive hdecl hfirst hacc hp
  cases hs : (f.stmtsAt p.bb)[p.idx]? with
  | some stmt =>
    rw [readAt_stmt hs (hfirst.unchecked stmt (mem_statements (List.mem_of_getElem? hs)))]
    exact (h.stmtOk hdecl hfirst hp hs).reads
  | none =>
    have hend := Nat.le_antisymm hp.idx_le (List.getElem?_eq_none_iff.mp hs)
    rw [readAt_end hs]
    exact (h.termOk hfirst hp hend).reads

include hlive hdecl hfirst in
theorem undisturbed_of_accepted (hacc : Accepted f structFields liveAfter entry) {p : PathPoint}
    (hp : OnPath f p) {l : Local} {r : Reference} (hr : p.holds l = some r)
    (hused : UsedLater f r p) : ¬Disturbs f p r.target := by
  obtain ⟨ctx, s, h⟩ := stateAt_of_onPath hlive hdecl hfirst hacc hp
  obtain ⟨holder, hholder, hheld⟩ := hused.live hlive hp.idx_le (hp.held_before hr)
  have hborrowed := (h.agrees.borrowed holder hholder r hheld).borrowed
  intro hdisturbs
  cases hdisturbs with
  | moved hop hx =>
    cases hs : (f.stmtsAt p.bb)[p.idx]? with
    | some stmt =>
      simp only [MirFunction.operandsAt, hs] at hop
      exact hborrowed ((h.stmtOk hdecl hfirst hp hs).moved _ hop hx)
    | none =>
      have hend := Nat.le_antisymm hp.idx_le (List.getElem?_eq_none_iff.mp hs)
      exact hborrowed ((h.termOk hfirst hp hend).moved _ hop hx)
  | @dropped stmt hs hk =>
    by_cases hinit :
        (checkStmts f liveAfter p.bb p.idx (ctx, s)).2.get r.target = .initialized
    · exact hborrowed ((h.stmtOk hdecl hfirst hp hs).dropped _ hk hinit)
    · exact hborrowed (h.settled.met.1.drop p.idx stmt _ hs hk hinit)
  | @assigned stmt hs hk =>
    obtain ⟨rval, hk⟩ := Statement.dst?_eq_some.mp hk
    exact hborrowed ((h.stmtOk hdecl hfirst hp hs).assigned _ rval hk)
  | @mutated stmt hs hk =>
    exact hborrowed (Prod.ext ((h.stmtOk hdecl hfirst hp hs).mutated _ hk)
      (h.settled.met.1.mutation p.idx stmt _ hs hk))

include hlive hdecl hfirst in
/-- A new reference is made only when no older one that excludes it is still used. -/
theorem not_made_beside (hacc : Accepted f structFields liveAfter entry) {p : PathPoint}
    (hp : OnPath f p) {stmt : Statement} (hs : (f.stmtsAt p.bb)[p.idx]? = some stmt) {dst : Local}
    {rval : Rvalue} (hk : stmt.kind = .assign dst rval) {r r' : Reference}
    (hmakes : Makes rval r'.target r'.mutable) (hold : ∃ l, p.holds l = some r)
    (htarget : r.target = r'.target) (hm : r.mutable = true ∨ r'.mutable = true) :
    ¬UsedLater f r p := by
  intro hused
  obtain ⟨ctx, s, h⟩ := stateAt_of_onPath hlive hdecl hfirst hacc hp
  obtain ⟨l, hl⟩ := hold
  obtain ⟨holder, hholder, hheld⟩ := hused.live hlive hp.idx_le (hp.held_before hl)
  exact (h.stmtOk hdecl hfirst hp hs).exclusive dst rval r r' hk hmakes htarget hm
    (h.agrees.borrowed holder hholder r hheld)

/-- A reference held after a statement was held before it, or the statement makes it. -/
theorem held_or_made {time : Nat} {holds : Local → Option Reference} {kind : StatementKind} {l : Local}
    {r : Reference} (h : heldAfter time holds kind l = some r) :
    (∃ l, holds l = some r) ∨ ∃ rval, kind = .assign l rval ∧ Makes rval r.target r.mutable ∧
      r.time = time := by
  cases heldAfter_cases h with
  | kept _ h => exact .inl ⟨l, h⟩
  | carried _ _ h => exact .inl ⟨_, h⟩
  | made hk =>
    obtain ⟨hk, rfl⟩ | ⟨hk, rfl⟩ := hk
    · exact .inr ⟨_, hk, .ref _, rfl⟩
    · exact .inr ⟨_, hk, .mutRef _, rfl⟩

theorem Makes.same {rval : Rvalue} {x x' : Local} {m m' : Bool} (h : Makes rval x m)
    (h' : Makes rval x' m') : x = x' ∧ m = m' := by
  cases h <;> cases h' <;> exact ⟨rfl, rfl⟩

include hlive hdecl hfirst in
theorem exclusive_of_accepted (hacc : Accepted f structFields liveAfter entry) {p : PathPoint}
    (hp : OnPath f p) {l l' : Local} {r r' : Reference} (hl : p.holds l = some r)
    (hl' : p.holds l' = some r') (hne : r ≠ r') (htarget : r.target = r'.target)
    (hm : r.mutable = true ∨ r'.mutable = true) : ¬(UsedLater f r p ∧ UsedLater f r' p) := by
  induction hp generalizing l l' with
  | entry => cases hl
  | @step p q hp hwalk ih =>
    rintro ⟨hused, hused'⟩
    have hbefore := UsedLater.later hwalk hused
    have hbefore' := UsedLater.later hwalk hused'
    cases hwalk with
    | edge => exact ih hl hl' ⟨hbefore, hbefore'⟩
    | @stmt stmt hs =>
      obtain ⟨x, hx⟩ | ⟨rval, hk, hmakes, htime⟩ := held_or_made hl
      · obtain ⟨x', hx'⟩ | ⟨rval', hk', hmakes', _⟩ := held_or_made hl'
        · exact ih hx hx' ⟨hbefore, hbefore'⟩
        · exact not_made_beside hlive hdecl hfirst hacc hp hs hk' hmakes' ⟨x, hx⟩ htarget hm hbefore
      · obtain ⟨x', hx'⟩ | ⟨rval', hk', hmakes', htime'⟩ := held_or_made hl'
        · exact not_made_beside hlive hdecl hfirst hacc hp hs hk hmakes ⟨x', hx'⟩ htarget.symm hm.symm
            hbefore'
        · cases hk.symm.trans hk'
          obtain ⟨hsame, hmut⟩ := hmakes.same hmakes'
          obtain ⟨time, target, mutable⟩ := r
          obtain ⟨time', target', mutable'⟩ := r'
          cases hsame
          cases hmut
          cases htime.trans htime'.symm
          exact hne rfl

end Points

/-- Without blocks there is nothing on any path. -/
theorem onPath_of_no_blocks (h : f.basicBlocks = []) {p : PathPoint} (hp : OnPath f p) :
    p = entryPoint f := by
  have hstmts : ∀ bb, f.stmtsAt bb = [] := fun bb => by simp [MirFunction.stmtsAt, h]
  have hsuccs : ∀ bb, f.successors bb = [] := fun bb => by
    simp [MirFunction.successors, MirFunction.terminatorAt, h]
  cases hp with
  | entry => rfl
  | @step p q hp hwalk =>
    cases hwalk with
    | stmt hs =>
      rw [hstmts] at hs
      cases hs
    | edge hend ht =>
      rw [hsuccs] at ht
      cases ht

/-- The point after `n` statements of the first block. -/
def pointAfter (f : MirFunction) : Nat → PathPoint
  | 0 => entryPoint f
  | n + 1 =>
    let p := pointAfter f n
    match (f.stmtsAt 0)[n]? with
    | some stmt => ⟨0, n + 1, fateAfter f p.fate stmt.kind, heldAfter p.time p.holds stmt.kind,
        p.time + 1⟩
    | none => p

/-- A first block that ends the function has one path. -/
theorem onPath_straight (hend : f.successors 0 = []) {p : PathPoint} (hp : OnPath f p) :
    p.bb = 0 ∧ p = pointAfter f p.idx := by
  induction hp with
  | entry => exact ⟨rfl, rfl⟩
  | @step p q hp hwalk ih =>
    obtain ⟨hbb, hpoint⟩ := ih
    cases hwalk with
    | @stmt stmt hs =>
      rw [hbb] at hs
      refine ⟨hbb, ?_⟩
      simp only [pointAfter, hs, ← hpoint, hbb]
    | edge _ ht =>
      rw [hbb, hend] at ht
      cases ht

/-- `xs = [1]`, `r = &xs`, `print(r)`. -/
def printsBorrowed : MirFunction :=
  plainFunction "f" 0 [.any, .list .int, .ref (.list .int), .null]
    [⟨[plainStmt (.assign 1 (.aggregate .list [.const (.int 1)])),
        plainStmt (.assign 2 (.ref 1)),
        plainStmt (.assign 3 (.call (.const (.function "print")) [.copy 2]))],
      plainTerm .ret⟩]

theorem printsBorrowed_stmt {stmt : Statement} (h : stmt ∈ printsBorrowed.statements) :
    stmt = plainStmt (.assign 1 (.aggregate .list [.const (.int 1)])) ∨
      stmt = plainStmt (.assign 2 (.ref 1)) ∨
      stmt = plainStmt (.assign 3 (.call (.const (.function "print")) [.copy 2])) := by
  simpa [printsBorrowed, plainFunction, MirFunction.statements] using h

theorem printsBorrowed_declared : LocalsDeclared printsBorrowed where
  dst stmt hmem l hl := by
    obtain rfl | rfl | rfl := printsBorrowed_stmt hmem <;> cases hl <;> decide
  drop stmt hmem l hl := by
    obtain rfl | rfl | rfl := printsBorrowed_stmt hmem <;> cases hl
  reads stmt hmem l hl := by
    obtain rfl | rfl | rfl := printsBorrowed_stmt hmem
    · cases hl
    · obtain rfl := List.mem_singleton.mp hl
      decide
    · obtain rfl := List.mem_singleton.mp hl
      decide

theorem printsBorrowed_point {p : PathPoint} (hp : OnPath printsBorrowed p) :
    p = pointAfter printsBorrowed 0 ∨ p = pointAfter printsBorrowed 1 ∨
      p = pointAfter printsBorrowed 2 ∨ p = pointAfter printsBorrowed 3 := by
  obtain ⟨hbb, hpoint⟩ := onPath_straight rfl hp
  have hle : p.idx ≤ 3 := by
    have := hp.idx_le
    rwa [hbb] at this
  rw [hpoint]
  generalize p.idx = n at hle
  match n with
  | 0 | 1 | 2 | 3 => simp
  | n + 4 => omega

theorem printsBorrowed_assignedFirst : AssignedFirst printsBorrowed where
  assigned p hp l hl := by
    obtain rfl | rfl | rfl | rfl := printsBorrowed_point hp
    · cases hl
    · obtain rfl := List.mem_singleton.mp hl
      decide
    · obtain rfl := List.mem_singleton.mp hl
      decide
    · cases hl
  unchecked stmt hmem value generation hk := by
    obtain rfl | rfl | rfl := printsBorrowed_stmt hmem <;> cases hk

theorem printsBorrowed_visitsFine (structFields : FxHashMap String (List String)) :
    VisitsFine printsBorrowed structFields := by
  intro fuel liveAfter hlive s hs bb state hnext
  have hcomputed : computeLiveness printsBorrowed 3 = some [[∅, {1}, {2}, ∅]] := by decide +kernel
  obtain rfl := UntilStable.untilStable_unique hlive hcomputed
  have hempty : ∀ t : LoopState FlowState Context, t.worklist = [] →
      step (flow printsBorrowed structFields [[∅, {1}, {2}, ∅]]) t = none := by
    intro t ht
    simp only [step, ht]
  have hreached : s = startLoop printsBorrowed ∨ s.worklist = [] := by
    clear hnext
    induction hs with
    | start => exact .inl rfl
    | @step s s' _ hstep _ ih =>
      obtain rfl | hw := ih
      · obtain rfl := Option.some.inj hstep
        exact .inr rfl
      · rw [hempty s hw] at hstep
        cases hstep
  obtain rfl | hw := hreached
  · obtain ⟨rfl, rfl⟩ := Prod.mk.inj (Option.some.inj hnext)
    refine ⟨fun idx stmt x hstmt hk => ?_, fun idx stmt x hstmt hk => ?_, ?_⟩
    · obtain rfl | rfl | rfl := printsBorrowed_stmt (mem_statements (List.mem_of_getElem? hstmt))
      · cases hk
      · cases hk
      · have hnone : mutated (plainStmt (.assign 3
            (.call (.const (.function "print")) [.copy 2]))).kind = none := by decide +kernel
        rw [hnone] at hk
        cases hk
    · obtain rfl | rfl | rfl := printsBorrowed_stmt (mem_statements (List.mem_of_getElem? hstmt)) <;>
        cases hk
    · intro p hp _ _ l hl r hr hrel
      obtain rfl | rfl | rfl | rfl := printsBorrowed_point hp
      · cases hr
      · obtain rfl : l = 1 := Finset.mem_singleton.mp hl
        cases hr
      · obtain rfl : l = 2 := Finset.mem_singleton.mp hl
        obtain rfl := Option.some.inj hr
        exact hrel.2 2 List.mem_cons_self hl
      · exact absurd hl (Finset.notMem_empty l)
  · simp [LoopState.next, hw] at hnext

/-- `xs = [1]`, `r = &mut xs`, `xs.append(2)`, `print(r)`. -/
def appendsBorrowed : MirFunction :=
  plainFunction "f" 0 [.any, .list .int, .mutRef (.list .int), .null, .null]
    [⟨[plainStmt (.assign 1 (.aggregate .list [.const (.int 1)])),
        plainStmt (.assign 2 (.mutRef 1)),
        plainStmt (.assign 3 (.call (.const (.function "__olive_list_append"))
          [.copy 1, .const (.int 2)])),
        plainStmt (.assign 4 (.call (.const (.function "print")) [.copy 2]))],
      plainTerm .ret⟩]

theorem appendsBorrowed_declared : LocalsDeclared appendsBorrowed := by
  have hstmt : ∀ stmt ∈ appendsBorrowed.statements,
      stmt = plainStmt (.assign 1 (.aggregate .list [.const (.int 1)])) ∨
        stmt = plainStmt (.assign 2 (.mutRef 1)) ∨
        stmt = plainStmt (.assign 3 (.call (.const (.function "__olive_list_append"))
          [.copy 1, .const (.int 2)])) ∨
        stmt = plainStmt (.assign 4 (.call (.const (.function "print")) [.copy 2])) := by
    intro stmt h
    simpa [appendsBorrowed, plainFunction, MirFunction.statements] using h
  refine ⟨fun stmt hmem l hl => ?_, fun stmt hmem l hl => ?_, fun stmt hmem l hl => ?_⟩
  · obtain rfl | rfl | rfl | rfl := hstmt stmt hmem <;> cases hl <;> decide
  · obtain rfl | rfl | rfl | rfl := hstmt stmt hmem <;> cases hl
  · obtain rfl | rfl | rfl | rfl := hstmt stmt hmem
    · cases hl
    all_goals
      obtain rfl := List.mem_singleton.mp hl
      decide

end BorrowChecker

end Olive
