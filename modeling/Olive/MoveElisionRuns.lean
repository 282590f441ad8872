import Olive.MoveElisionSound

/-! Runs of a function before move elision and after it. -/

namespace Olive

open Lockstep OwnedRuns MoveElision

section Programs

variable {f : MirFunction} {liveAfter : List (List (Finset Local))} {bb : BasicBlockId}

/-- The statements of a block after the pass. -/
def keptStmts (f : MirFunction) (liveAfter : List (List (Finset Local))) (bb : BasicBlockId) :
    List Paired :=
  keptFrom (dropRemovals (pairedStmts f liveAfter bb)) (pairedStmts f liveAfter bb) 0

/-- The function after the pass, each statement beside what it was. -/
def elided (f : MirFunction) (liveAfter : List (List (Finset Local))) : List PairedBlock :=
  f.basicBlocks.mapIdx fun bb block => ⟨keptStmts f liveAfter bb, block.terminator⟩

theorem mapM_id_map_some {α : Type} (xs : List α) : (xs.map some).mapM id = some xs := by
  induction xs with
  | nil => rfl
  | cons x xs ih => simp [List.mapM_cons, ih]

/-- If no `Drop` is removed for two operands, the removals of the pass are in range. -/
theorem elide_eq (h : ∀ bb, (dropRemovals (pairedStmts f liveAfter bb)).Nodup) :
    elide f liveAfter = some (elided f liveAfter) := by
  have hblocks : f.basicBlocks.mapIdx (elideBlock f liveAfter) =
      (elided f liveAfter).map some := by
    refine List.ext_getElem? fun bb => ?_
    rw [elided, List.getElem?_mapIdx, List.getElem?_map, List.getElem?_mapIdx, Option.map_map]
    cases hb : f.basicBlocks[bb]? with
    | none => rfl
    | some block =>
      have hstmts : promoteBlock f liveAfter bb block.statements = pairedStmts f liveAfter bb := by
        rw [pairedStmts, stmtsAt_of_block hb]
      simp only [Option.map_some, elideBlock, hstmts, Function.comp_apply,
        removeAll_sorted (h bb) fun j => dropRemovals_lt, keptStmts]
  rw [elide, hblocks, mapM_id_map_some]

variable {env : Answers} {p : OwnPoint}

theorem plain_block {block : BasicBlock} (hb : f.basicBlocks[p.bb]? = some block) :
    (plain f)[p.bb]? = some ⟨(f.stmtsAt p.bb).map fun stmt => (stmt, stmt), block.terminator⟩ := by
  rw [plain, List.getElem?_map, hb, stmtsAt_of_block hb]
  rfl

theorem step_plain_stmt {stmt : Statement} (hs : (f.stmtsAt p.bb)[p.idx]? = some stmt) :
    OwnedRuns.step env f.locals (plain f) p =
      (execPaired env f.locals p.state (stmt, stmt)).map (fun s => ⟨p.bb, p.idx + 1, s⟩) id := by
  obtain ⟨block, hb, _⟩ := block_of_stmt hs
  simp only [OwnedRuns.step, plain_block hb, List.getElem?_map, hs, Option.map_some]

theorem step_plain_term {block : BasicBlock} (hb : f.basicBlocks[p.bb]? = some block)
    (hs : (f.stmtsAt p.bb)[p.idx]? = none) :
    OwnedRuns.step env f.locals (plain f) p =
      (OwnedRuns.execTerm env p.state block.terminator).map (fun next => ⟨next.1, 0, next.2⟩) id := by
  simp only [OwnedRuns.step, plain_block hb, List.getElem?_map, hs, Option.map_none]

theorem step_elided_stmt {stmt : Paired} (hbb : p.bb < f.basicBlocks.length)
    (hs : (keptStmts f liveAfter p.bb)[p.idx]? = some stmt) :
    OwnedRuns.step env f.locals (elided f liveAfter) p =
      (execPaired env f.locals p.state stmt).map (fun s => ⟨p.bb, p.idx + 1, s⟩) id := by
  have hb := List.getElem?_eq_getElem hbb
  simp only [OwnedRuns.step, elided, List.getElem?_mapIdx, hb, Option.map_some, hs]

theorem step_elided_term {block : BasicBlock} (hb : f.basicBlocks[p.bb]? = some block)
    (hs : (keptStmts f liveAfter p.bb)[p.idx]? = none) :
    OwnedRuns.step env f.locals (elided f liveAfter) p =
      (OwnedRuns.execTerm env p.state block.terminator).map (fun next => ⟨next.1, 0, next.2⟩) id := by
  simp only [OwnedRuns.step, elided, List.getElem?_mapIdx, hb, Option.map_some, hs]

theorem markStep_stmt {stmt : Statement} (hs : (f.stmtsAt p.bb)[p.idx]? = some stmt) (p' : OwnPoint)
    (m : Marks) : markStep f liveAfter p p' m =
      m.exec f.locals (optimized f.locals (liveAt liveAfter p.bb (p.idx + 1)) stmt) := by
  simp only [markStep, pairedStmts_getElem?, hs, Option.map_some]

theorem markStep_term (hs : (f.stmtsAt p.bb)[p.idx]? = none) (p' : OwnPoint) (m : Marks) :
    markStep f liveAfter p p' m = m := by
  simp only [markStep, pairedStmts_getElem?, hs, Option.map_none]

end Programs

section Runs

variable (f : MirFunction) (liveAfter : List (List (Finset Local)))

/-- The same value is returned, the slot is not nulled, and the words in `W` are released as often. -/
inductive EndsAlike (W : Word → Prop) : OwnEnd → OwnEnd → Prop where
  | returned {v : Word} {slotNulled : Bool} {released released' : List Word}
    (h : ∀ w, W w → released'.count w = released.count w) :
    EndsAlike W (.returned v slotNulled released) (.returned v false released')
  | stopped : EndsAlike W .stopped .stopped

/-- A run before the pass at a point, and the run after the pass at the same place. -/
structure Alongside (env : Answers) (W : Word → Prop) (start a : OwnPoint × Marks) (q : OwnPoint) :
    Prop where
  reached : Reaches (markedStep f liveAfter env) start a
  kept : Kept f.locals a.1.state a.2
  inv : Elided f liveAfter a.1 a.2
  bb : q.bb = a.1.bb
  place : (keptStmts f liveAfter a.1.bb).drop q.idx =
    keptFrom (dropRemovals (pairedStmts f liveAfter a.1.bb))
      ((pairedStmts f liveAfter a.1.bb).drop a.1.idx) a.1.idx
  state : q.state = hide a.1.state a.2 q.state.released
  balanced : ∀ w, W w → Balanced f.locals a.1.state a.2 q.state.released w

variable {f liveAfter} {fuel : Nat} {env : Answers} {W : Word → Prop} {start a : OwnPoint × Marks}
  {q : OwnPoint}
  (hW : ∀ w, W w → w ≠ 0 ∧ ∀ b, Reaches (markedStep f liveAfter env) start b →
    Paying f liveAfter b.1 b.2 w)
  (hlast : ∀ b, Reaches (markedStep f liveAfter env) start b → LastUses f liveAfter b.1 b.2)

theorem markedStep_stmt {a : OwnPoint × Marks} {stmt : Statement} {s : OwnState}
    (hs : (f.stmtsAt a.1.bb)[a.1.idx]? = some stmt)
    (hexec : execPaired env f.locals a.1.state (stmt, stmt) = .inl s) :
    markedStep f liveAfter env a = .inl (⟨a.1.bb, a.1.idx + 1, s⟩,
      a.2.exec f.locals (optimized f.locals (liveAt liveAfter a.1.bb (a.1.idx + 1)) stmt)) := by
  have hstep : OwnedRuns.step env f.locals (plain f) a.1 = .inl ⟨a.1.bb, a.1.idx + 1, s⟩ := by
    rw [step_plain_stmt hs, hexec, Sum.map_inl]
  rw [markedStep, ghost_inl hstep, markStep_stmt hs]

theorem pair_at {bb idx : Nat} {stmt : Statement} (hs : (f.stmtsAt bb)[idx]? = some stmt) :
    (pairedStmts f liveAfter bb)[idx]? =
      some (optimized f.locals (liveAt liveAfter bb (idx + 1)) stmt) := by
  rw [pairedStmts_getElem?, hs]
  rfl

theorem drop_at {bb idx : Nat} {stmt : Statement} (hs : (f.stmtsAt bb)[idx]? = some stmt) :
    (pairedStmts f liveAfter bb).drop idx =
      optimized f.locals (liveAt liveAfter bb (idx + 1)) stmt ::
        (pairedStmts f liveAfter bb).drop (idx + 1) := by
  obtain ⟨hlt, hget⟩ := List.getElem?_eq_some_iff.mp (@pair_at f liveAfter _ _ _ hs)
  rw [List.drop_eq_getElem_cons hlt, hget]

theorem drop_nulled {decls : List LocalDecl} {s : OwnState} {m : Marks} {released : List Word}
    {l : Local} (hl : m.nulled l = true) :
    (hide s m released).drop decls l = hide s m released := by
  have hnull : (hide s m released).locals l = 0 := by simp [hide, hl]
  unfold OwnState.drop
  split
  next =>
    rw [hnull]
    simp only [releasing, if_true]
    have hsame : (fun x => if x = l then 0 else (hide s m released).locals x) =
        (hide s m released).locals := by
      funext x
      split
      next hx => rw [hx, hnull]
      next => rfl
    rw [hsame]
  next => rfl

section Steps

include hW hlast

/-- At a removed `Drop` only the run before the pass goes on. -/
theorem Alongside.removed (hlive : computeLiveness f fuel = some liveAfter)
    (h : Alongside f liveAfter env W start a q) {stmt : Statement}
    (hs : (f.stmtsAt a.1.bb)[a.1.idx]? = some stmt)
    (hremoved : a.1.idx ∈ dropRemovals (pairedStmts f liveAfter a.1.bb)) :
    ∃ a', markedStep f liveAfter env a = .inl a' ∧ Alongside f liveAfter env W start a' q ∧
      a'.1.bb = a.1.bb ∧ a'.1.idx = a.1.idx + 1 := by
  obtain ⟨idx, stmt₀, src, hstmt₀, hmoved, hj⟩ := mem_dropRemovals.mp hremoved
  obtain ⟨hlt, ⟨stmt', hstmt', hdrop⟩, _⟩ := drop_found hj
  obtain rfl := Option.some.inj ((pair_at hs).symm.trans hstmt')
  have hnulled : a.2.nulled src = true :=
    h.inv.pending idx stmt₀ src a.1.idx hlt hstmt₀ hmoved hj (Nat.le_refl _)
  obtain ⟨kind, span⟩ := stmt
  obtain rfl : kind = .drop src := optimizeStatement_drop hdrop
  have hstep := @markedStep_stmt f liveAfter env a _ (a.1.state.drop f.locals src) hs rfl
  obtain ⟨released', hhide, hkept, hsame, hb⟩ := @drop_hidden f.locals a.1.state a.2 src h.kept
    q.state.released
  obtain rfl := hsame hnulled
  rw [drop_nulled hnulled] at hhide
  refine ⟨_, hstep, ⟨h.reached.tail hstep, hkept, ?_, h.bb, ?_, ?_, ?_⟩, rfl, rfl⟩
  · exact h.inv.stmt hlive (hlast a h.reached) hs _
  · rw [h.place, drop_at hs, keptFrom, if_pos hremoved]
  · exact h.state.trans hhide
  · intro w hw
    obtain ⟨hne, hpaying⟩ := hW w hw
    exact hb w hne ((hpaying a h.reached).pays _ (pair_at hs)) (h.balanced w hw)

/-- At any other statement both runs go on, or both stop. -/
theorem Alongside.stmt (hlive : computeLiveness f fuel = some liveAfter)
    (h : Alongside f liveAfter env W start a q) {stmt : Statement}
    (hs : (f.stmtsAt a.1.bb)[a.1.idx]? = some stmt)
    (hkeep : a.1.idx ∉ dropRemovals (pairedStmts f liveAfter a.1.bb)) :
    (∃ a' q', markedStep f liveAfter env a = .inl a' ∧
      OwnedRuns.step env f.locals (elided f liveAfter) q = .inl q' ∧
      Alongside f liveAfter env W start a' q') ∨
    ∃ o o', markedStep f liveAfter env a = .inr o ∧
      OwnedRuns.step env f.locals (elided f liveAfter) q = .inr o' ∧ EndsAlike W o o' := by
  have hbb : a.1.bb < f.basicBlocks.length := by
    obtain ⟨block, hb, _⟩ := block_of_stmt hs
    exact (List.getElem?_eq_some_iff.mp hb).1
  have hplace := h.place
  rw [drop_at hs, keptFrom, if_neg hkeep] at hplace
  have hat : (keptStmts f liveAfter q.bb)[q.idx]? =
      some (optimized f.locals (liveAt liveAfter a.1.bb (a.1.idx + 1)) stmt) := by
    have hzero := @List.getElem?_drop _ (keptStmts f liveAfter a.1.bb) q.idx 0
    rw [hplace] at hzero
    rw [h.bb]
    exact hzero.symm
  have hunnulled : ∀ r ∈ reads (optimized f.locals (liveAt liveAfter a.1.bb (a.1.idx + 1)) stmt),
      ∀ l, r.after.local? = some l → a.2.nulled l = false := by
    intro r hr l hl
    obtain ⟨hlocal, hmem⟩ := read_local hs hr
    exact h.inv.not_nulled hlive hbb (hlast a h.reached)
      (List.mem_filterMap.mpr ⟨r.before, hmem, hlocal ▸ hl⟩)
  have hgo := @step_elided_stmt f liveAfter env q _ (h.bb ▸ hbb) hat
  rw [h.state] at hgo
  rcases @execPaired_hidden env f.locals (liveAt liveAfter a.1.bb (a.1.idx + 1)) a.1.state a.2 stmt
    q.state.released h.kept hunnulled ((hlast a h.reached).once _ (pair_at hs)) with
    ⟨s', released', hf, hg, hkept, hb⟩ | ⟨hf, hg⟩
  · have hstep := @markedStep_stmt f liveAfter env a _ s' hs hf
    rw [hg] at hgo
    refine .inl ⟨_, ⟨q.bb, q.idx + 1, _⟩, hstep, hgo, ⟨h.reached.tail hstep, hkept, ?_, h.bb, ?_, rfl, ?_⟩⟩
    · exact h.inv.stmt hlive (hlast a h.reached) hs _
    · show (keptStmts f liveAfter a.1.bb).drop (q.idx + 1) = _
      rw [← List.drop_drop, hplace]
      rfl
    · intro w hw
      obtain ⟨hne, hpaying⟩ := hW w hw
      exact hb w hne ((hpaying a h.reached).pays _ (pair_at hs)) (h.balanced w hw)
  · rw [hg] at hgo
    have hstop : markedStep f liveAfter env a = .inr .stopped := by
      refine ghost_inr ?_
      rw [step_plain_stmt hs, hf, Sum.map_inr, id_eq]
    exact .inr ⟨_, _, hstop, hgo, .stopped⟩

omit hW hlast in
theorem earlyCount_eq_zero {decls : List LocalDecl} {s : OwnState} {m : Marks} {w : Word}
    (h : ∀ l, m.owed l = some true → s.locals l ≠ w) : earlyCount decls s m w = 0 :=
  Finset.sum_eq_zero fun l _ => if_neg fun hearly => h l hearly.2.1 hearly.2.2

/-- At the end of a block both runs go to the same block, or both end. -/
theorem Alongside.term (hlive : computeLiveness f fuel = some liveAfter)
    (h : Alongside f liveAfter env W start a q) {block : BasicBlock}
    (hblock : f.basicBlocks[a.1.bb]? = some block) (hs : (f.stmtsAt a.1.bb)[a.1.idx]? = none) :
    (∃ a' q', markedStep f liveAfter env a = .inl a' ∧
      OwnedRuns.step env f.locals (elided f liveAfter) q = .inl q' ∧
      Alongside f liveAfter env W start a' q') ∨
    ∃ o o', markedStep f liveAfter env a = .inr o ∧
      OwnedRuns.step env f.locals (elided f liveAfter) q = .inr o' ∧ EndsAlike W o o' := by
  have hterm : f.terminatorAt a.1.bb = block.terminator := by
    simp only [MirFunction.terminatorAt, hblock, Option.bind_some]
  have hat : (keptStmts f liveAfter q.bb)[q.idx]? = none := by
    have hnone : (pairedStmts f liveAfter a.1.bb).drop a.1.idx = [] := by
      refine List.drop_eq_nil_of_le (List.getElem?_eq_none_iff.mp ?_)
      rw [pairedStmts_getElem?, hs]
      rfl
    have hplace := h.place
    rw [hnone, keptFrom, List.drop_eq_nil_iff] at hplace
    rw [h.bb]
    exact List.getElem?_eq_none hplace
  have hgo := @step_elided_term f liveAfter env q block (h.bb ▸ hblock) hat
  rw [h.state] at hgo
  have hplain := @step_plain_term f env a.1 block hblock hs
  have hbb : a.1.bb < f.basicBlocks.length := (List.getElem?_eq_some_iff.mp hblock).1
  have hunnulled : ∀ discr targets otherwise span,
      block.terminator = some ⟨.switchInt discr targets otherwise, span⟩ →
      ∀ l, discr.local? = some l → a.2.nulled l = false := by
    intro discr targets otherwise span ht l hl
    refine h.inv.not_nulled hlive hbb (hlast a h.reached) (List.mem_filterMap.mpr ⟨discr, ?_, hl⟩)
    simp [MirFunction.readAt, MirFunction.operandsAt, hs, hterm, ht]
  have hslot : ∀ span, block.terminator = some ⟨.ret, span⟩ → a.2.nulled 0 = false :=
    fun span ht => (hlast a h.reached).slot span hs (hterm.trans ht)
  rcases @execTerm_hidden env f.locals a.1.state a.2 q.state.released _ h.kept hunnulled hslot with
    ⟨target, s', released', ⟨t, ht, htarget⟩, hf, hg, hkept, hb⟩ | ⟨hf, hg⟩ |
      ⟨v, slotNulled, ht, hf, hg⟩
  · have hsucc : target ∈ f.successors a.1.bb := by
      simp only [MirFunction.successors, hterm, ht]
      exact htarget
    have hstep : markedStep f liveAfter env a = .inl (⟨target, 0, s'⟩, a.2) := by
      rw [hf] at hplain
      rw [markedStep, ghost_inl hplain, markStep_term hs]
    rw [hg] at hgo
    refine .inl ⟨_, ⟨target, 0, _⟩, hstep, hgo, ⟨h.reached.tail hstep, hkept,
      h.inv.term hlive hs hsucc s', rfl, rfl, rfl, ?_⟩⟩
    intro w hw
    exact hb w (hW w hw).1 (h.balanced w hw)
  · rw [hf] at hplain
    rw [hg] at hgo
    exact .inr ⟨_, _, ghost_inr hplain, hgo, .stopped⟩
  · rw [hf] at hplain
    rw [hg] at hgo
    refine .inr ⟨_, _, ghost_inr hplain, hgo, .returned fun w hw => ?_⟩
    have hbalanced := h.balanced w hw
    have hpaid := ((hW w hw).2 a h.reached).ends hs (hterm ▸ ht)
    rw [Balanced, earlyCount_eq_zero hpaid, Nat.add_zero] at hbalanced
    exact hbalanced

theorem Alongside.matched (hlive : computeLiveness f fuel = some liveAfter)
    (h : Alongside f liveAfter env W start a q) :
    Matched (markedStep f liveAfter env) (OwnedRuns.step env f.locals (elided f liveAfter))
      (Alongside f liveAfter env W start) (EndsAlike W) a q := by
  refine matched_of_ranked (fun a => (f.stmtsAt a.1.bb).length - a.1.idx) ?_ a q h
  intro a q h
  cases hs : (f.stmtsAt a.1.bb)[a.1.idx]? with
  | some stmt =>
    by_cases hremoved : a.1.idx ∈ dropRemovals (pairedStmts f liveAfter a.1.bb)
    · obtain ⟨a', hstep, halong, hbb, hidx⟩ := h.removed hW hlast hlive hs hremoved
      have hlt := (List.getElem?_eq_some_iff.mp hs).1
      refine .inr ⟨a', hstep, halong, ?_⟩
      rw [hbb, hidx]
      omega
    · exact .inl (Matched.one (h.stmt hW hlast hlive hs hremoved))
  | none =>
    cases hblock : f.basicBlocks[a.1.bb]? with
    | some block => exact .inl (Matched.one (h.term hW hlast hlive hblock hs))
    | none =>
      refine .inl (Matched.one (.inr ⟨.stopped, .stopped, ghost_inr ?_, ?_, .stopped⟩))
      · simp only [OwnedRuns.step, plain, List.getElem?_map, hblock, Option.map_none]
      · simp only [OwnedRuns.step, elided, List.getElem?_mapIdx, h.bb, hblock, Option.map_none]

end Steps

theorem alongside_start (locals : Local → Word) :
    Alongside f liveAfter env W (startOwned locals, Marks.clear) (startOwned locals, Marks.clear)
      (startOwned locals) := by
  have hkept : Kept f.locals (startOwned locals).state Marks.clear := by
    refine ⟨rfl, ?_, ?_⟩
    · intro l b ho
      cases ho
    · intro l hl
      cases hl
  have helided : Elided f liveAfter (startOwned locals) Marks.clear := by
    refine ⟨?_, Nat.zero_le _, fun _ _ _ _ hlt => absurd hlt (Nat.not_lt_zero _)⟩
    intro l hl
    cases hl
  refine ⟨Reaches.refl _, hkept, helided, rfl, rfl, ?_, ?_⟩
  · simp [startOwned, hide, Marks.clear]
  · intro w _
    have hnone : earlyCount f.locals (startOwned locals).state Marks.clear w = 0 := by
      apply earlyCount_eq_zero
      intro l ho
      cases ho
    rw [Balanced, hnone]
    rfl

/-- If no `Drop` is removed for two operands, and at every point that a run reaches the promoted
operands are last uses, then the pass returns a function that in this run reads no nulled local and
returns no nulled slot; it returns what it did before; and it releases a word as often as before, if
the word is not dropped where its local was promoted into a variable and is dropped where it was
handed over. -/
theorem moveElision_lastUses (env : Answers) (f : MirFunction) (fuel : Nat)
    (liveAfter : List (List (Finset Local))) (locals : Local → Word)
    (hlive : computeLiveness f fuel = some liveAfter)
    (hremovals : ∀ bb, (dropRemovals (pairedStmts f liveAfter bb)).Nodup)
    (hlast : ∀ b, Reaches (markedStep f liveAfter env) (startOwned locals, Marks.clear) b →
      LastUses f liveAfter b.1 b.2) :
    ∃ blocks, elide f liveAfter = some blocks ∧
      moveElision f fuel = some { f with basicBlocks := code blocks } ∧
      (∀ l, ¬Yields (OwnedRuns.step env f.locals blocks) (startOwned locals) (.misread l)) ∧
      (∀ v slotNulled released, Yields (OwnedRuns.step env f.locals blocks) (startOwned locals)
        (.returned v slotNulled released) → slotNulled = false) ∧
      ∀ v slotNulled released, Yields (OwnedRuns.step env f.locals (plain f)) (startOwned locals)
        (.returned v slotNulled released) →
        ∃ released', Yields (OwnedRuns.step env f.locals blocks) (startOwned locals)
          (.returned v false released') ∧
          ∀ w, w ≠ 0 → (∀ b, Reaches (markedStep f liveAfter env) (startOwned locals, Marks.clear) b →
            Paying f liveAfter b.1 b.2 w) → released'.count w = released.count w := by
  have helide := elide_eq hremovals
  have hsym : ∀ o, Yields (OwnedRuns.step env f.locals (elided f liveAfter)) (startOwned locals) o →
      ∃ o', EndsAlike (fun _ => False) o' o := by
    intro o hy
    have hmatched : ∀ q a, Alongside f liveAfter env (fun _ => False)
        (startOwned locals, Marks.clear) a q → _ :=
      fun q a h => (h.matched (fun _ hw => hw.elim) hlast hlive).symm
    obtain ⟨o', _, hend⟩ := yields_of_matched hmatched (alongside_start locals) hy
    exact ⟨o', hend⟩
  refine ⟨_, helide, ?_, ?_, ?_, ?_⟩
  · simp only [moveElision, hlive, Option.bind_some, helide, Option.map_some]
  · intro l hy
    obtain ⟨o', hend⟩ := hsym _ hy
    cases hend
  · intro v slotNulled released hy
    obtain ⟨o', hend⟩ := hsym _ hy
    cases hend
    rfl
  · intro v slotNulled released hy
    have hmarked := (@yields_ghost _ _ _ _ (markStep f liveAfter) (startOwned locals) Marks.clear _).mpr hy
    obtain ⟨o', hy', hend⟩ := yields_of_matched
      (fun a q h => Alongside.matched (W := fun w => w ≠ 0 ∧
          ∀ b, Reaches (markedStep f liveAfter env) (startOwned locals, Marks.clear) b →
            Paying f liveAfter b.1 b.2 w) (fun w hw => hw) hlast hlive h)
      (alongside_start locals) hmarked
    cases hend with
    | returned hcount => exact ⟨_, hy', fun w hw hpays => hcount w ⟨hw, hpays⟩⟩

/-- `_2 = [_1]; drop(_1); drop(_2)`. -/
def wrapsArgument : MirFunction :=
  plainFunction "wraps_argument" 1 [.int, .list .int, .list (.list .int)]
    [⟨[plainStmt (.assign 2 (.aggregate .list [.copy 1])), plainStmt (.drop 1), plainStmt (.drop 2)],
      plainTerm .ret⟩]

/-- Every question is answered by an address. -/
def plainAnswers : Answers := ⟨fun _ => 0, fun _ _ => some 9⟩

def wrappedLive : List (List (Finset Local)) := [[{1}, ∅, ∅, ∅]]

theorem wrapsArgument_live : computeLiveness wrapsArgument 2 = some wrappedLive := by decide +kernel

def wrapsStart : OwnPoint := startOwned fun l => if l = 1 then 7 else 0

theorem wrapsArgument_reached {b : OwnPoint × Marks}
    (h : Reaches (markedStep wrapsArgument wrappedLive plainAnswers) (wrapsStart, Marks.clear) b) :
    ∃ n < 4, runs (markedStep wrapsArgument wrappedLive plainAnswers) n (wrapsStart, Marks.clear) =
      .inl b := by
  have hend : runs (markedStep wrapsArgument wrappedLive plainAnswers) 4 (wrapsStart, Marks.clear) =
      .inr (.returned 0 false [7, 9]) := rfl
  exact h.lt_end hend

theorem wrapsArgument_lastUses (b : OwnPoint × Marks)
    (h : Reaches (markedStep wrapsArgument wrappedLive plainAnswers) (wrapsStart, Marks.clear) b) :
    LastUses wrapsArgument wrappedLive b.1 b.2 := by
  obtain ⟨n, hn, hrun⟩ := wrapsArgument_reached h
  obtain rfl | rfl | rfl | rfl : n = 0 ∨ n = 1 ∨ n = 2 ∨ n = 3 := by omega
  · cases hrun
    refine ⟨?_, fun _ _ => rfl, ?_, fun _ hs => (nomatch hs)⟩
    · intro stmt hs
      cases hs
      exact List.pairwise_singleton _ _
    · intro stmt dst rval hs hk hmoved
      cases hs
      cases hk
      exact absurd hmoved (by decide)
  · cases hrun
    refine ⟨?_, fun _ hl => (nomatch hl), ?_, fun _ hs => (nomatch hs)⟩
    · intro stmt hs
      cases hs
      exact List.Pairwise.nil
    · intro stmt dst rval hs hk
      cases hs
      cases hk
  · cases hrun
    refine ⟨?_, fun _ hl => (nomatch hl), ?_, fun _ hs => (nomatch hs)⟩
    · intro stmt hs
      cases hs
      exact List.Pairwise.nil
    · intro stmt dst rval hs hk
      cases hs
      cases hk
  · cases hrun
    exact ⟨fun _ hs => (nomatch hs), fun _ hl => (nomatch hl), fun _ _ _ hs => (nomatch hs),
      fun _ _ _ => rfl⟩

theorem wrapsArgument_paying (b : OwnPoint × Marks)
    (h : Reaches (markedStep wrapsArgument wrappedLive plainAnswers) (wrapsStart, Marks.clear) b) :
    Paying wrapsArgument wrappedLive b.1 b.2 7 := by
  obtain ⟨n, hn, hrun⟩ := wrapsArgument_reached h
  obtain rfl | rfl | rfl | rfl : n = 0 ∨ n = 1 ∨ n = 2 ∨ n = 3 := by omega
  · cases hrun
    refine ⟨?_, fun hs => (nomatch hs)⟩
    intro stmt hs
    cases hs
    refine ⟨fun l hk => (nomatch hk), ?_⟩
    intro dst rval hk ho
    cases hk
    cases ho
  · cases hrun
    refine ⟨?_, fun hs => (nomatch hs)⟩
    intro stmt hs
    cases hs
    refine ⟨?_, fun dst rval hk => (nomatch hk)⟩
    intro l hk ho
    cases hk
    cases ho
  · cases hrun
    refine ⟨?_, fun hs => (nomatch hs)⟩
    intro stmt hs
    cases hs
    refine ⟨?_, fun dst rval hk => (nomatch hk)⟩
    intro l hk ho
    cases hk
    cases ho
  · cases hrun
    refine ⟨fun _ hs => (nomatch hs), ?_⟩
    intro _ _ l ho
    have hnone : ∀ l, (if l = 2 ∧ true = true then none else if l = 1 ∧ true = true then none
        else if l = 2 then none else if l = 1 then some true else none : Option Bool) = none := by
      intro l
      by_cases h1 : l = 1 <;> by_cases h2 : l = 2 <;> simp [h1, h2]
    cases (hnone l).symm.trans ho

theorem wrapsArgument_removals (bb : BasicBlockId) :
    (dropRemovals (pairedStmts wrapsArgument wrappedLive bb)).Nodup := by
  cases bb with
  | zero => exact List.nodup_singleton 1
  | succ bb => exact List.nodup_nil

theorem moveElision_lastUses_wrapsArgument : ∃ blocks, elide wrapsArgument wrappedLive = some blocks ∧
    (∀ l, ¬Yields (OwnedRuns.step plainAnswers wrapsArgument.locals blocks) wrapsStart (.misread l)) ∧
    ∃ released, Yields (OwnedRuns.step plainAnswers wrapsArgument.locals blocks) wrapsStart
      (.returned 0 false released) ∧ released.count 7 = 1 := by
  obtain ⟨blocks, helide, _, hread, _, hreleased⟩ := moveElision_lastUses plainAnswers wrapsArgument 2
    wrappedLive _ wrapsArgument_live wrapsArgument_removals wrapsArgument_lastUses
  obtain ⟨released, hy, hcount⟩ := hreleased 0 false [7, 9] ⟨4, rfl⟩
  exact ⟨blocks, helide, hread, released, hy, hcount 7 (by decide) wrapsArgument_paying⟩

def elidedBlocks (f : MirFunction) (fuel : Nat) : Option (List PairedBlock) :=
  (computeLiveness f fuel).bind (elide f)

/-- `_0`, `_1` and `_2` are lists, and `stmts` the only block. -/
def onLists (stmts : List StatementKind) : MirFunction :=
  plainFunction "on_lists" 1 [.list .int, .list .int, .list (.list .int)]
    [⟨stmts.map plainStmt, plainTerm .ret⟩]

/-- An operand repeated in one statement reads what the first one nulls, or the removals run out of
range; a nulled return slot; a word dropped once before the pass and never after it, because the
variable that it moves to is not dropped, or because the local that is dropped holds another word. -/
theorem moveElision_misses :
    (∃ blocks, elidedBlocks (onLists [.assign 2 (.aggregate .list [.copy 1, .copy 1]), .drop 1, .drop 2])
        2 = some blocks ∧
      Yields (OwnedRuns.step plainAnswers (onLists []).locals blocks) wrapsStart (.misread 1)) ∧
    elidedBlocks (onLists [.assign 2 (.aggregate .list [.copy 1, .copy 1]), .drop 1]) 2 = none ∧
    (∃ blocks, elidedBlocks (onLists [.assign 0 (.use (.copy 1)), .assign 2 (.aggregate .list [.copy 0])])
        2 = some blocks ∧
      Yields (OwnedRuns.step plainAnswers (onLists []).locals blocks) wrapsStart
        (.returned 0 true [7])) ∧
    (Yields (OwnedRuns.step plainAnswers (onLists []).locals
        (plain (onLists [.assign 2 (.use (.copy 1)), .drop 1]))) wrapsStart (.returned 0 false [7]) ∧
      ∃ blocks, elidedBlocks (onLists [.assign 2 (.use (.copy 1)), .drop 1]) 2 = some blocks ∧
        Yields (OwnedRuns.step plainAnswers (onLists []).locals blocks) wrapsStart
          (.returned 0 false [])) ∧
    (Yields (OwnedRuns.step plainAnswers (onLists []).locals
        (plain (onLists [.assign 1 (.aggregate .list [.copy 1]), .drop 1]))) wrapsStart
        (.returned 0 false [9]) ∧
      ∃ blocks, elidedBlocks (onLists [.assign 1 (.aggregate .list [.copy 1]), .drop 1]) 2 =
          some blocks ∧
        Yields (OwnedRuns.step plainAnswers (onLists []).locals blocks) wrapsStart
          (.returned 0 false [7])) := by
  refine ⟨⟨_, rfl, ⟨1, rfl⟩⟩, rfl, ⟨_, rfl, ⟨3, rfl⟩⟩, ⟨⟨3, rfl⟩, _, rfl, ⟨2, rfl⟩⟩,
    ⟨3, rfl⟩, _, rfl, ⟨2, rfl⟩⟩

end Runs

end Olive
