import Mathlib.Data.BitVec
import Olive.AssignedPaths
import Olive.CopyProp

namespace Olive

open Lockstep

variable {W : Type} {rt : Runtime W} {f : MirFunction} {dest src : Local}

section Safe

theorem noteCopy_eq_some {copies : FxHashMap Local Local} {stmt : Statement}
    (h : noteCopy copies stmt dest = some src) :
    copies dest = some src ∨ stmt.kind = .assign dest (.use (.copy src)) := by
  cases hk : stmt.kind with
  | assign d rval =>
    cases rval with
    | use op =>
      cases op with
      | copy s =>
        simp only [noteCopy, hk] at h
        by_cases hd : dest = d
        · subst hd
          rw [FxHashMap.insert_self] at h
          obtain rfl := Option.some.inj h
          exact .inr rfl
        · rw [FxHashMap.insert_of_ne _ _ hd] at h
          exact .inl h
      | _ =>
        simp only [noteCopy, hk] at h
        exact .inl h
    | _ =>
      simp only [noteCopy, hk] at h
      exact .inl h
  | _ =>
    simp only [noteCopy, hk] at h
    exact .inl h

theorem noteCopy_foldl (stmts : List Statement) {copies : FxHashMap Local Local}
    (h : stmts.foldl noteCopy copies dest = some src) :
    copies dest = some src ∨ ∃ stmt ∈ stmts, stmt.kind = .assign dest (.use (.copy src)) := by
  induction stmts generalizing copies with
  | nil => exact .inl h
  | cons stmt stmts ih =>
    rcases ih h with hnoted | ⟨stmt', hmem, hk⟩
    · rcases noteCopy_eq_some hnoted with hold | hk
      · exact .inl hold
      · exact .inr ⟨stmt, List.mem_cons_self, hk⟩
    · exact .inr ⟨stmt', List.mem_cons_of_mem _ hmem, hk⟩

/-- What makes a copy safe: the one assignment of `dest` copies `src`, which is assigned at most
once, and not at all if it is a parameter. -/
structure SafeCopy (f : MirFunction) (dest src : Local) : Prop where
  copied : ∃ stmt ∈ f.statements, stmt.kind = .assign dest (.use (.copy src))
  once : assignCounts f dest ≤ 1
  notParam : ¬f.isParam dest
  source : assignCounts f src ≤ 1
  entry : f.isParam src → assignCounts f src = 0

theorem safeCopy_of_safeCopies (h : safeCopies f dest = some src) : SafeCopy f dest src := by
  unfold safeCopies at h
  split at h
  next s hs =>
    split at h
    next hcounts =>
      obtain rfl := Option.some.inj h
      obtain ⟨hdest, hsrc, -⟩ := hcounts
      rcases noteCopy_foldl f.statements hs with hnone | hcopied
      · cases hnone
      obtain ⟨stmt, hmem, hk⟩ := hcopied
      have hpos : 1 ≤ assignCounts f dest := by
        apply List.length_pos_of_mem
        exact List.mem_filter.mpr ⟨hmem, decide_eq_true (Statement.dst?_eq_some.mpr ⟨_, hk⟩)⟩
      unfold defCount at hdest hsrc
      refine ⟨⟨stmt, hmem, hk⟩, ?_, ?_, ?_, ?_⟩
      · split at hdest <;> omega
      · intro hparam
        unfold MirFunction.isParam at hparam
        rw [if_pos hparam] at hdest
        omega
      · split at hsrc <;> omega
      · intro hparam
        unfold MirFunction.isParam at hparam
        rw [if_pos hparam] at hsrc
        omega
    next => cases h
  next => cases h

variable {bb bb' : BasicBlockId} {idx idx' : Nat} {stmt stmt' : Statement}

theorem place_of_stmt (h : stmt ∈ f.statements) :
    ∃ (bb : BasicBlockId) (idx : Nat), (f.stmtsAt bb)[idx]? = some stmt := by
  obtain ⟨block, hblock, hstmt⟩ := List.mem_flatMap.mp h
  obtain ⟨bb, hb⟩ := List.mem_iff_getElem?.mp hblock
  obtain ⟨idx, hs⟩ := List.mem_iff_getElem?.mp hstmt
  exact ⟨bb, idx, stmtsAt_of_block hb ▸ hs⟩

theorem assignCounts_place {l : Local} (h : assignCounts f l ≤ 1)
    (hs : (f.stmtsAt bb)[idx]? = some stmt) (hw : stmt.dst? = some l)
    (hs' : (f.stmtsAt bb')[idx']? = some stmt') (hw' : stmt'.dst? = some l) :
    bb = bb' ∧ idx = idx' :=
  stmt_place_unique h hs (decide_eq_true hw) hs' (decide_eq_true hw')

/-- The only statement that assigns `dest` is the copy. -/
theorem SafeCopy.kind (h : SafeCopy f dest src) (hs : (f.stmtsAt bb)[idx]? = some stmt)
    (hd : stmt.dst? = some dest) : stmt.kind = .assign dest (.use (.copy src)) := by
  obtain ⟨copy, hmem, hk⟩ := h.copied
  obtain ⟨bb', idx', hs'⟩ := place_of_stmt hmem
  obtain ⟨rfl, rfl⟩ := assignCounts_place h.once hs hd hs' (Statement.dst?_eq_some.mpr ⟨_, hk⟩)
  obtain rfl := Option.some.inj (hs.symm.trans hs')
  exact hk

/-- The source of a safe copy that is assigned is no parameter. -/
theorem SafeCopy.source_not_param (h : SafeCopy f dest src)
    (hs : (f.stmtsAt bb)[idx]? = some stmt) (hd : stmt.dst? = some src) : ¬f.isParam src := by
  intro hparam
  have hzero := h.entry hparam
  have hpos : 1 ≤ assignCounts f src := by
    apply List.length_pos_of_mem
    exact List.mem_filter.mpr ⟨mem_statements (List.mem_of_getElem? hs), decide_eq_true hd⟩
  omega

end Safe

section Paths

variable {bb bb' : BasicBlockId} {idx idx' : Nat} {stmt stmt' : Statement}

/-- A path reads the source of a copy before it assigns the destination, so it has assigned neither
or has been where the source is assigned without the destination. -/
theorem untouched_or (hassigned : AssignedBeforeRead f) (h : SafeCopy f dest src)
    (hs : (f.stmtsAt bb)[idx]? = some stmt) (hsrc : stmt.dst? = some src)
    (hvisited : Visited f bb' idx') :
    Untouched f (fun l => l = src ∨ l = dest) bb' idx' ∨ Untouched f (· = dest) bb idx := by
  induction hvisited with
  | entry => exact .inl .entry
  | edge _ hend ht ih => exact ih.imp_left fun hu => hu.edge hend ht
  | @stmt b i st hpath hst _ ih =>
    rcases ih with hu | hdone
    · by_cases hds : st.dst? = some src
      · obtain ⟨rfl, rfl⟩ := assignCounts_place h.source hs hsrc hst hds
        exact .inr (hu.weaken fun l hl => .inr hl)
      · by_cases hdd : st.dst? = some dest
        · -- the copy reads `src`, which this path has not assigned
          have hk := h.kind hst hdd
          have hread : Operand.copy src ∈ f.operandsAt b i := by
            simp [MirFunction.operandsAt, hst, hk, StatementKind.evaluated, Rvalue.inputs,
              Rvalue.operands]
          rcases hassigned b i _ src hread rfl with hparam | hnot
          · exact absurd hparam (h.source_not_param hs hsrc)
          · exact absurd (hu.weaken fun l hl => .inl hl) hnot
        · refine .inl (hu.stmt hst ?_)
          rintro l (rfl | rfl)
          · exact hds
          · exact hdd
    · exact .inr hdone

/-- Where the source is assigned, some path has come without the destination. -/
theorem untouched_at_source (hassigned : AssignedBeforeRead f) (h : SafeCopy f dest src)
    (hs : (f.stmtsAt bb)[idx]? = some stmt) (hsrc : stmt.dst? = some src)
    (hvisited : Visited f bb idx) : Untouched f (· = dest) bb idx :=
  (untouched_or hassigned h hs hsrc hvisited).elim (fun hu => hu.weaken fun _ hl => .inr hl) id

end Paths

/-- Some path gets to the place with the source or the destination of a copy moved out or dropped
after the destination was last assigned. -/
inductive Cleared (f : MirFunction) (dest src : Local) : BasicBlockId → Nat → Prop
  | stmt {bb : BasicBlockId} {idx : Nat} {stmt : Statement} : Visited f bb idx →
      (f.stmtsAt bb)[idx]? = some stmt →
      dest ∈ stmt.zeroes f.locals ∨ src ∈ stmt.zeroes f.locals → stmt.dst? ≠ some dest →
      Cleared f dest src bb (idx + 1)
  | term {bb : BasicBlockId} {idx : Nat} {term : Terminator} {target : BasicBlockId} :
      Visited f bb idx → (f.stmtsAt bb)[idx]? = none → f.terminatorAt bb = some term →
      dest ∈ term.kind.clears ∨ src ∈ term.kind.clears → target ∈ f.successors bb →
      Cleared f dest src target 0
  | stays {bb : BasicBlockId} {idx : Nat} {stmt : Statement} : Cleared f dest src bb idx →
      (f.stmtsAt bb)[idx]? = some stmt → stmt.dst? ≠ some dest → Cleared f dest src bb (idx + 1)
  | edge {bb : BasicBlockId} {idx : Nat} {target : BasicBlockId} : Cleared f dest src bb idx →
      (f.stmtsAt bb)[idx]? = none → target ∈ f.successors bb → Cleared f dest src target 0

/-- No path reads a propagated copy after the copy or its source was moved out or dropped. -/
def ReadsBeforeClearing (f : MirFunction) : Prop :=
  ∀ dest src, safeCopies f dest = some src → dest ≠ src →
    ∀ bb idx before after, f.rewrittenAt bb idx = before ++ .copy dest :: after →
      ¬Cleared f dest src bb idx ∧ .move dest ∉ before ∧ .move src ∉ before

/-- At `p`, a propagated copy keeps the word it copies, and codegen emits the same operation for the
source as for the copy. -/
structure CopiesFit (rt : Runtime W) (f : MirFunction) (p : Point W) : Prop where
  width : ∀ dest src stmt, safeCopies f dest = some src → (f.stmtsAt p.bb)[p.idx]? = some stmt →
    stmt.kind = .assign dest (.use (.copy src)) →
    rt.fit (tyOf f.locals dest) (p.state.locals src) = p.state.locals src
  lowering : SameLowering f (·.propagateCopies (safeCopies f)) p

/-- The source holds what the copy holds, unless the copy is not assigned or something was moved out
or dropped. -/
def Held (f : MirFunction) (dest src : Local) (p : Point W) : Prop :=
  Untouched f (· = dest) p.bb p.idx ∨ Cleared f dest src p.bb p.idx ∨
    p.state.locals dest = p.state.locals src

section Runs

theorem held_stmt (hassigned : AssignedBeforeRead f) (hsafe : safeCopies f dest = some src)
    {p q : Point W} {stmt : Statement} (hs : (f.stmtsAt p.bb)[p.idx]? = some stmt)
    (hvisited : Visited f p.bb p.idx) (hrun : rt.execStmt f.locals p.state stmt = .ok q.state)
    (hbb : q.bb = p.bb) (hidx : q.idx = p.idx + 1) (hfit : CopiesFit rt f p) (hne : dest ≠ src)
    (h : Held f dest src p) : Held f dest src q := by
  have hcopy := safeCopy_of_safeCopies hsafe
  unfold Held
  rw [hbb, hidx]
  by_cases hd : stmt.dst? = some dest
  · -- the copy itself
    have hk := hcopy.kind hs hd
    have hwidth := hfit.width dest src stmt hsafe hs hk
    refine .inr (.inr ?_)
    rw [execStmt_copy hk] at hrun
    rw [← Except.ok.inj hrun]
    show setLocal _ _ _ _ = setLocal _ _ _ _
    rw [setLocal_self, setLocal_of_ne _ hne.symm, hwidth]
  · rcases h with hu | hc | heq
    · refine .inl (hu.stmt hs ?_)
      rintro l rfl
      exact hd
    · exact .inr (.inl (hc.stays hs hd))
    · by_cases hsrc : stmt.dst? = some src
      · -- a new value for the source: some path comes here without the copy
        have hu := untouched_at_source hassigned hcopy hs hsrc hvisited
        refine .inl (hu.stmt hs ?_)
        rintro l rfl
        exact hd
      · by_cases hzero : dest ∈ stmt.zeroes f.locals ∨ src ∈ stmt.zeroes f.locals
        · exact .inr (.inl (.stmt hvisited hs hzero hd))
        · obtain ⟨hdest, hsource⟩ := not_or.mp hzero
          refine .inr (.inr ?_)
          rw [execStmt_keeps hrun hd hdest, execStmt_keeps hrun hsrc hsource, heq]

theorem held_edge {p q : Point W} {term : Terminator} (hs : (f.stmtsAt p.bb)[p.idx]? = none)
    (hvisited : Visited f p.bb p.idx) (ht : f.terminatorAt p.bb = some term)
    (hgo : q.bb ∈ f.successors p.bb) (hidx : q.idx = 0)
    (hrun : rt.execTerm f.locals p.state (some term) = .inl (q.bb, q.state))
    (h : Held f dest src p) : Held f dest src q := by
  unfold Held
  rw [hidx]
  rcases h with hu | hc | heq
  · exact .inl (hu.edge hs hgo)
  · exact .inr (.inl (hc.edge hs hgo))
  · by_cases hclear : dest ∈ term.kind.clears ∨ src ∈ term.kind.clears
    · exact .inr (.inl (.term hvisited hs ht hclear hgo))
    · obtain ⟨hdest, hsource⟩ := not_or.mp hclear
      obtain ⟨-, -, hframe⟩ := execTerm_frame hrun
      refine .inr (.inr ?_)
      rw [hframe dest (fun tm he => Option.some.inj he ▸ hdest),
        hframe src (fun tm he => Option.some.inj he ▸ hsource), heq]

/-- What every reached point has: a path that gets there, and every copy held. -/
structure CopiesHeld (f : MirFunction) (p : Point W) : Prop where
  visited : Visited f p.bb p.idx
  held : ∀ dest src, safeCopies f dest = some src → dest ≠ src → Held f dest src p

theorem CopiesHeld.step (hassigned : AssignedBeforeRead f) {p q : Point W}
    (hfit : CopiesFit rt f p) (h : CopiesHeld f p) (hstep : rt.step f p = .inl q) :
    CopiesHeld f q where
  visited := visited_step h.visited hstep
  held dest src hsafe hne := by
    have hheld := h.held dest src hsafe hne
    rcases step_place hstep with ⟨stmt, hs, hbb, hidx, hrun⟩ | ⟨hs, hgo, hidx, term, ht, hrun⟩
    · exact held_stmt hassigned hsafe hs h.visited hrun hbb hidx hfit hne hheld
    · exact held_edge hs h.visited ht hgo hidx hrun hheld

theorem rewritten_subset_operands {bb : BasicBlockId} {idx : Nat} {op : Operand}
    (h : op ∈ f.rewrittenAt bb idx) : op ∈ f.operandsAt bb idx := by
  unfold MirFunction.rewrittenAt at h
  unfold MirFunction.operandsAt
  cases hs : (f.stmtsAt bb)[idx]? with
  | some stmt =>
    rw [hs] at h
    simp only at h ⊢
    cases hk : stmt.kind with
    | assign dst rval =>
      rw [hk, StatementKind.rewritten] at h
      split at h
      next hp => rwa [StatementKind.evaluated, inputs_eq_operands hp]
      next => cases h
    | _ =>
      rw [hk] at h
      first | exact h | cases h
  | none =>
    rw [hs] at h
    simp only at h ⊢
    cases ht : f.terminatorAt bb with
    | none =>
      rw [ht] at h
      cases h
    | some term =>
      rw [ht] at h
      obtain ⟨kind, span⟩ := term
      cases kind with
      | switchInt discr targets otherwise => exact h
      | _ => cases h

/-- Where a rewritten operand reads a copy, its source holds the same. -/
theorem CopiesHeld.holds (hassigned : AssignedBeforeRead f) {p : Point W} (h : CopiesHeld f p)
    (hsafe : safeCopies f dest = some src) (hne : dest ≠ src)
    (hread : .copy dest ∈ f.rewrittenAt p.bb p.idx) (hclear : ¬Cleared f dest src p.bb p.idx) :
    p.state.locals dest = p.state.locals src := by
  have hcopy := safeCopy_of_safeCopies hsafe
  have hop := rewritten_subset_operands hread
  have hassign := (hassigned p.bb p.idx _ dest hop rfl).resolve_left hcopy.notParam
  exact ((h.held dest src hsafe hne).resolve_left hassign).resolve_left hclear

theorem CopiesHeld.reads (hassigned : AssignedBeforeRead f) (hclear : ReadsBeforeClearing f)
    {p : Point W} (h : CopiesHeld f p) :
    SameReads rt (·.propagateCopies (safeCopies f)) p.state.locals (f.rewrittenAt p.bb p.idx) := by
  intro before op after he
  cases op with
  | move l => rfl
  | const c => rfl
  | copy dest =>
    cases hsafe : safeCopies f dest with
    | none => simp [Operand.propagateCopies, hsafe]
    | some src =>
      by_cases hne : dest = src
      · subst hne
        simp [Operand.propagateCopies, hsafe]
      · obtain ⟨hnot, hdest, hsrc⟩ := hclear dest src hsafe hne p.bb p.idx before after he
        have heq := h.holds hassigned hsafe hne (by rw [he]; simp) hnot
        have hmoved : ∀ l, .move l ∉ before →
            (rt.evalOperands p.state.locals before).2 l = p.state.locals l := by
          intro l hl
          apply evalOperands_frame
          intro op hop hm
          cases op with
          | move x =>
            obtain rfl := Option.some.inj hm
            exact hl hop
          | copy x => cases hm
          | const c => cases hm
        simp only [Operand.propagateCopies, hsafe, Option.getD_some, Runtime.evalOperand,
          hmoved dest hdest, hmoved src hsrc, heq]

/-- From a state at the entry, every reached point has the copies held. -/
theorem copiesHeld_of_reaches (hassigned : AssignedBeforeRead f) {s : State W}
    (hfit : ∀ p, Reaches (rt.step f) ⟨0, 0, s⟩ p → CopiesFit rt f p) {p : Point W}
    (h : Reaches (rt.step f) ⟨0, 0, s⟩ p) : CopiesHeld f p := by
  let P := fun p : Point W => Reaches (rt.step f) ⟨0, 0, s⟩ p ∧ CopiesHeld f p
  have hstart : P ⟨0, 0, s⟩ := ⟨Reaches.refl _, .entry, fun _ _ _ _ => .inl .entry⟩
  refine (@Reaches.invariant _ _ (rt.step f) _ _ P ?_ h hstart).2
  intro p q hp hq
  exact ⟨hp.1.tail hq, hp.2.step hassigned (hfit p hp.1) hq⟩

end Runs

/-- `_2 = _1` and `_0 = _2 / 2`, with `_2` of type `ty`. -/
def halvesCopy (ty : OliveType) : MirFunction :=
  plainFunction "halves_copy" 1 [ty, .int, ty]
    [⟨[plainStmt (.assign 2 (.use (.copy 1))),
      plainStmt (.assign 0 (.binaryOp .div (.copy 2) (.const (.int 2))))], plainTerm .ret⟩]

theorem halvesCopy_untouched {ty : OliveType} {bb : BasicBlockId} {idx : Nat}
    (h : Untouched (halvesCopy ty) (· = 2) bb idx) : bb = 0 ∧ idx = 0 := by
  induction h with
  | entry => exact ⟨rfl, rfl⟩
  | stmt _ hs hdst ih =>
    obtain ⟨rfl, rfl⟩ := ih
    cases hs
    exact absurd rfl (hdst 2 rfl)
  | edge _ hs _ ih =>
    obtain ⟨rfl, rfl⟩ := ih
    cases hs

theorem halvesCopy_operands {ty : OliveType} {bb : BasicBlockId} {idx : Nat} {op : Operand}
    (h : op ∈ (halvesCopy ty).operandsAt bb idx) :
    bb = 0 ∧ idx = 0 ∧ op = .copy 1 ∨ op = .copy 2 ∨ op = .const (.int 2) := by
  cases bb with
  | succ bb => cases h
  | zero =>
    match idx with
    | 0 => exact .inl ⟨rfl, rfl, List.mem_singleton.mp h⟩
    | 1 => exact .inr (List.mem_pair.mp h)
    | _ + 2 => cases h

theorem halvesCopy_assigned (ty : OliveType) : AssignedBeforeRead (halvesCopy ty) := by
  intro bb idx op l hop hl
  rcases halvesCopy_operands hop with ⟨-, -, rfl⟩ | rfl | rfl
  · cases hl
    exact .inl ⟨Nat.le_refl _, Nat.le_refl _⟩
  · cases hl
    refine .inr fun hu => ?_
    obtain ⟨rfl, rfl⟩ := halvesCopy_untouched hu
    cases List.mem_singleton.mp hop
  · cases hl

theorem halvesCopy_safeCopies {ty : OliveType} {dest src : Local}
    (h : safeCopies (halvesCopy ty) dest = some src) : dest = 2 ∧ src = 1 := by
  obtain ⟨stmt, hmem, hk⟩ := (safeCopy_of_safeCopies h).copied
  rcases List.mem_pair.mp hmem with rfl | rfl
  · cases hk
    exact ⟨rfl, rfl⟩
  · cases hk

theorem halvesCopy_stmts {ty : OliveType} {bb : BasicBlockId} {idx : Nat} {stmt : Statement}
    (h : ((halvesCopy ty).stmtsAt bb)[idx]? = some stmt) :
    stmt = plainStmt (.assign 2 (.use (.copy 1))) ∨
      stmt = plainStmt (.assign 0 (.binaryOp .div (.copy 2) (.const (.int 2)))) :=
  List.mem_pair.mp (mem_statements (List.mem_of_getElem? h))

theorem halvesCopy_readsBeforeClearing (ty : OliveType) : ReadsBeforeClearing (halvesCopy ty) := by
  intro dest src _ _ bb idx before after he
  have hcleared : ∀ bb idx, ¬Cleared (halvesCopy ty) dest src bb idx := by
    intro bb idx h
    induction h with
    | stmt _ hs hzero _ =>
      rcases halvesCopy_stmts hs with rfl | rfl
      · rcases hzero with hzero | hzero <;> cases hzero
      · rcases hzero with hzero | hzero <;> cases hzero
    | @term bb idx term target _ _ ht hclear _ =>
      cases bb with
      | succ bb => cases ht
      | zero =>
        cases ht
        rcases hclear with hclear | hclear <;> cases hclear
    | stays _ _ _ ih => exact ih
    | edge _ _ _ ih => exact ih
  have hmove : ∀ l, .move l ∉ before := by
    intro l hl
    have hop : .move l ∈ (halvesCopy ty).operandsAt bb idx :=
      rewritten_subset_operands (by rw [he]; exact List.mem_append_left _ hl)
    rcases halvesCopy_operands hop with ⟨-, -, h⟩ | h | h <;> cases h
  exact ⟨hcleared bb idx, hmove dest, hmove src⟩

theorem halvesCopy_copiesFit (p : Point Unit) : CopiesFit plainRuntime (halvesCopy .int) p where
  width dest src stmt hsafe hs hk := by
    obtain ⟨rfl, rfl⟩ := halvesCopy_safeCopies hsafe
    rfl
  lowering := by
    have hmap : safeCopies (halvesCopy .int) = fun l => if l = 2 then some 1 else none := by
      funext l
      by_cases hl : l = 2
      · subst hl
        rfl
      · rw [if_neg hl]
        cases h : safeCopies (halvesCopy .int) l with
        | none => rfl
        | some src => exact absurd (halvesCopy_safeCopies h).1 hl
    refine ⟨?_, ?_, ?_⟩
    · intro stmt dst rval hs hk _
      rcases halvesCopy_stmts hs with rfl | rfl
      · cases hk
        rw [hmap]
        rfl
      · cases hk
        rw [hmap]
        rfl
    · intro stmt hs hne
      rcases halvesCopy_stmts hs with rfl | rfl <;> exact absurd rfl hne
    · intro discr targets otherwise span ht
      obtain ⟨bb, idx, s⟩ := p
      cases bb <;> cases ht

end Olive
