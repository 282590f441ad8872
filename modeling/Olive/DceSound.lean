import Olive.Counting
import Olive.Dce

namespace Olive

open Lockstep

variable {W : Type}

/-- What shows of an outcome: the value or the fault, and the calls and stores before it. -/
def Outcome.seen : Outcome W → (Val ⊕ Fault) × List Event
  | .returned v _ log => (.inl v, log)
  | .faulted e _ log => (.inr e, log)

/-- The same fault, or states that differ in their memories at most, and these as `E` says. -/
def SameUpTo (E : World W → World W → Prop) :
    Except Fault (State W) → Except Fault (State W) → Prop
  | .ok s, .ok t => t.locals = s.locals ∧ t.log = s.log ∧ E s.world t.world
  | .error e, .error e' => e' = e
  | _, _ => False

theorem SameUpTo.cases {E : World W → World W → Prop} {a b : Except Fault (State W)}
    (h : SameUpTo E a b) :
    (∃ s t, a = .ok s ∧ b = .ok t ∧ t.locals = s.locals ∧ t.log = s.log ∧ E s.world t.world) ∨
      ∃ e, a = .error e ∧ b = .error e := by
  cases a with
  | error e =>
    cases b with
    | error e' => exact .inr ⟨e, rfl, congrArg Except.error h⟩
    | ok t => exact h.elim
  | ok s =>
    cases b with
    | error e' => exact h.elim
    | ok t => exact .inl ⟨s, t, rfl, rfl, h⟩

/-- `E` relates a memory to what is left of it without the removed statements. At point `p` a
removed statement runs without fault and changes nothing that is used, and what is kept does not tell
related memories apart; dropped locals are declared, as codegen takes for granted. -/
structure RemovesQuietly (rt : Runtime W) (f : MirFunction) (E : World W → World W → Prop)
    (p : Point W) : Prop where
  removed : ∀ stmt, (f.stmtsAt p.bb)[p.idx]? = some stmt → stmt.keptBy f.used = false →
    ∃ s, rt.execStmt f.locals p.state stmt = .ok s ∧ (∀ w, E p.state.world w → E s.world w) ∧
      ∀ l ∈ f.used, s.locals l = p.state.locals l
  kept : ∀ stmt, (f.stmtsAt p.bb)[p.idx]? = some stmt → stmt.keptBy f.used = true →
    ∀ w, E p.state.world w → SameUpTo E (rt.execStmt f.locals p.state stmt)
      (rt.execStmt f.locals { p.state with world := w } stmt)
  branches : ∀ w, E p.state.world w → ∀ v, rt.pyToInt v w = rt.pyToInt v p.state.world
  declared : ∀ stmt l, (f.stmtsAt p.bb)[p.idx]? = some stmt → stmt.kind = .drop l →
    l < f.locals.length

section Runs

variable {rt : Runtime W} {f : MirFunction} {E : World W → World W → Prop}

/-- How many statements before `idx` are kept. -/
def MirFunction.keptBefore (f : MirFunction) (bb : BasicBlockId) (idx : Nat) : Nat :=
  (((f.stmtsAt bb).take idx).filter (·.keptBy f.used)).length

/-- The state of the run without the removed statements. -/
structure Alike (f : MirFunction) (E : World W → World W → Prop) (s t : State W) : Prop where
  locals : AgreeOff (fun l => l ∉ f.used) s.locals t.locals
  world : E s.world t.world
  log : t.log = s.log

/-- Where the run without the removed statements is. -/
def RunsAlike (f : MirFunction) (E : World W → World W → Prop) (p q : Point W) : Prop :=
  ∃ t, q = ⟨p.bb, f.keptBefore p.bb p.idx, t⟩ ∧ Alike f E p.state t

theorem log_of_removed {s s' : State W} {stmt : Statement}
    (hkept : stmt.keptBy f.used = false) (h : rt.execStmt f.locals s stmt = .ok s') :
    s'.log = s.log := by
  obtain ⟨dest, rval, hk, -⟩ := dst_not_used hkept
  have hcall : ∀ vals, Runtime.callEvents rval vals = [] := by
    intro vals
    cases rval with
    | call func args => simp [Statement.keptBy, hk] at hkept
    | _ => rfl
  simp only [Runtime.execStmt, hk, Runtime.runAssign] at h
  cases hr : (lower f.locals rval).eval rt (rt.evalOperands s.locals rval.inputs).1 s.world with
  | error e => simp [hr, Except.map] at h
  | ok r =>
    simp only [hr, Except.map, Except.ok.injEq] at h
    rw [← h, hcall, List.append_nil]

/-- A kept statement does the same on both sides. -/
theorem kept_agrees {bb : BasicBlockId} {block : BasicBlock} {idx : Nat} {stmt : Statement}
    {s t : State W} (hb : f.basicBlocks[bb]? = some block) (hs : block.statements[idx]? = some stmt)
    (hdecl : ∀ l, stmt.kind = .drop l → l < f.locals.length)
    (h : Alike f E s t) (hsame : SameUpTo E (rt.execStmt f.locals s stmt)
      (rt.execStmt f.locals { s with world := t.world } stmt)) :
    (∃ s' t', rt.execStmt f.locals s stmt = .ok s' ∧ rt.execStmt f.locals t stmt = .ok t' ∧
      Alike f E s' t') ∨
      ∃ e, rt.execStmt f.locals s stmt = .error e ∧ rt.execStmt f.locals t stmt = .error e := by
  have hmid : SameResult (fun l => l ∉ f.used) s.log t.log
      (rt.execStmt f.locals { s with world := t.world } stmt) (rt.execStmt f.locals t stmt) := by
    by_cases hreads : ∀ l, stmt.kind = .drop l →
        ∃ decl, f.locals[l]? = some decl ∧ decl.ty.needsDrop = true
    · have hex := execStmt_agrees rt f.locals (S := fun l => l ∉ f.used)
        (s := { s with world := t.world }) (t := t) h.locals rfl
        fun x hx hn => hn (reads_subset_used hb hs hreads x hx)
      rcases hex.cases with ⟨s', t', new, h₁, h₂, hag', hw, hlogs⟩ | ⟨e, h₁, h₂⟩
      · rw [h₁, h₂]
        exact ⟨hag'.weaken fun x hx => hx.1, hw, new, hlogs⟩
      · rw [h₁, h₂]
        rfl
    · push Not at hreads
      obtain ⟨l, hk, hno⟩ := hreads
      have hl := hdecl l hk
      have hty : (tyOf f.locals l).needsDrop = false := by
        have hget := List.getElem?_eq_getElem hl
        simpa [tyOf, hget] using hno _ hget
      simp only [Runtime.execStmt, hk, Runtime.runDrop, hty]
      exact ⟨h.locals, rfl, [], by simp⟩
  rcases hsame.cases with ⟨s₁, s₂, h₁, h₂, hlocals, hlog₂, hE⟩ | ⟨e, h₁, h₂⟩
  · rw [h₂] at hmid
    rcases hmid.cases with ⟨s₃, t', new, h₃, ht, hag', hw, hlog₃, hlogt⟩ | ⟨e, h₃, -⟩
    · obtain rfl := Except.ok.inj h₃
      refine .inl ⟨s₁, t', h₁, ht, hlocals ▸ hag', hw ▸ hE, ?_⟩
      rw [hlogt, h.log, ← hlog₃, hlog₂]
    · cases h₃
  · rw [h₂] at hmid
    rcases hmid.cases with ⟨s₃, t', new, h₃, -⟩ | ⟨e', h₃, ht⟩
    · cases h₃
    · obtain rfl := Except.error.inj h₃
      exact .inr ⟨e, h₁, ht⟩

theorem keptBefore_zero (f : MirFunction) (bb : BasicBlockId) : f.keptBefore bb 0 = 0 := by
  simp [MirFunction.keptBefore]

theorem keptBefore_succ {bb : BasicBlockId} {idx : Nat} {stmt : Statement}
    (hs : (f.stmtsAt bb)[idx]? = some stmt) :
    f.keptBefore bb (idx + 1) = f.keptBefore bb idx + if stmt.keptBy f.used then 1 else 0 := by
  unfold MirFunction.keptBefore
  rw [List.take_add_one, hs, List.filter_append, List.length_append]
  cases hk : stmt.keptBy f.used <;> simp [hk]

/-- Past a block's statements, past those that are kept. -/
theorem keptBefore_end {bb : BasicBlockId} {block : BasicBlock} {idx : Nat}
    (hb : f.basicBlocks[bb]? = some block) (hs : block.statements[idx]? = none) :
    (block.statements.filter (·.keptBy f.used))[f.keptBefore bb idx]? = none := by
  have hlen := List.getElem?_eq_none_iff.mp hs
  have hstmts : f.stmtsAt bb = block.statements := by simp [MirFunction.stmtsAt, hb]
  rw [MirFunction.keptBefore, hstmts, List.take_of_length_le hlen]
  exact List.getElem?_eq_none_iff.mpr (Nat.le_refl _)

theorem alike_of_removed {s s' t : State W} {stmt : Statement} (h : Alike f E s t)
    (hkept : stmt.keptBy f.used = false) (hs' : rt.execStmt f.locals s stmt = .ok s')
    (hE : ∀ w, E s.world w → E s'.world w) (hlocals : ∀ l ∈ f.used, s'.locals l = s.locals l) :
    Alike f E s' t where
  locals l hl := (hlocals l (not_not.mp hl)).trans (h.locals l hl)
  world := hE _ h.world
  log := h.log.trans (log_of_removed hkept hs').symm

/-- The terminator goes the same way on both sides. -/
theorem term_agrees {bb : BasicBlockId} {block : BasicBlock} {s t : State W}
    (hb : f.basicBlocks[bb]? = some block) (h : Alike f E s t)
    (hpy : ∀ v, rt.pyToInt v t.world = rt.pyToInt v s.world) :
    (∃ target s' t', rt.execTerm f.locals s block.terminator = .inl (target, s') ∧
      rt.execTerm f.locals t block.terminator = .inl (target, t') ∧ Alike f E s' t') ∨
      ∃ o o', rt.execTerm f.locals s block.terminator = .inr o ∧
        rt.execTerm f.locals t block.terminator = .inr o' ∧ o.seen = o'.seen := by
  cases ht : block.terminator with
  | none => exact .inr ⟨_, _, rfl, rfl, by simp only [Outcome.seen, h.log]⟩
  | some tm =>
    have hreads := terminator_reads_subset_used hb ht
    obtain ⟨kind, span⟩ := tm
    cases kind with
    | goto target => exact .inl ⟨target, s, t, rfl, rfl, h⟩
    | switchInt discr targets otherwise =>
      have hop : ∀ x, discr.local? = some x → ¬(x ∉ f.used) := by
        intro x hx hn
        exact hn (hreads x (by simp [TerminatorKind.reads, hx]))
      obtain ⟨hval, hag⟩ := evalOperand_agrees rt h.locals hop
      refine .inl ⟨_, _, ⟨(rt.evalOperand t.locals discr).2, t.world, t.log⟩, rfl, ?_, hag,
        h.world, h.log⟩
      simp only [Runtime.execTerm, Runtime.switchTarget, hpy, hval]
    | ret =>
      have hzero := h.locals 0 (fun hn => hn (zero_mem_used f))
      exact .inr ⟨_, _, rfl, rfl, by simp only [Outcome.seen, hzero, h.log]⟩
    | unreachable => exact .inr ⟨_, _, rfl, rfl, by simp only [Outcome.seen, h.log]⟩

/-- One step of the run, and of the run without the removed statements unless the next one is
removed. -/
theorem runsAlike_step {p q : Point W} (h : RunsAlike f E p q) (hq : RemovesQuietly rt f E p) :
    (∃ p' q', rt.step f p = .inl p' ∧ rt.step (dce f) q = .inl q' ∧ RunsAlike f E p' q') ∨
      (∃ o o', rt.step f p = .inr o ∧ rt.step (dce f) q = .inr o' ∧ o.seen = o'.seen) ∨
      ∃ p', rt.step f p = .inl p' ∧ RunsAlike f E p' q ∧ p'.bb = p.bb ∧ p'.idx = p.idx + 1 ∧
        p.idx < (f.stmtsAt p.bb).length := by
  obtain ⟨bb, idx, s⟩ := p
  obtain ⟨t, rfl, halike⟩ := h
  cases hb : f.basicBlocks[bb]? with
  | none =>
    have hb' : (dce f).basicBlocks[bb]? = none := by simp [dce, hb]
    refine .inr (.inl ⟨_, _, step_no_block hb, step_no_block hb', ?_⟩)
    simp only [Outcome.seen, halike.log]
  | some block =>
    have hb' := dce_block hb
    have hstmts : f.stmtsAt bb = block.statements := by simp [MirFunction.stmtsAt, hb]
    cases hs : block.statements[idx]? with
    | none =>
      have hs' := keptBefore_end hb hs
      rcases term_agrees hb halike (hq.branches _ halike.world) with
        ⟨target, s', t', hgo, hgo', halike'⟩ | ⟨o, o', hend, hend', hseen⟩
      · refine .inl ⟨_, _, step_goes hb hs hgo, step_goes hb' hs' hgo', t', ?_, halike'⟩
        rw [keptBefore_zero]
      · exact .inr (.inl ⟨o, o', step_ends hb hs hend, step_ends hb' hs' hend', hseen⟩)
    | some stmt =>
      have hat : (f.stmtsAt bb)[idx]? = some stmt := by rw [hstmts]; exact hs
      have hcount := keptBefore_succ hat
      cases hkept : stmt.keptBy f.used with
      | false =>
        obtain ⟨s', hs', hE, hlocals⟩ := hq.removed stmt hat hkept
        have hlt := (List.getElem?_eq_some_iff.mp hat).1
        refine .inr (.inr ⟨_, step_ok hb hs hs', ⟨t, ?_, ?_⟩, rfl, rfl, hlt⟩)
        · simp [hcount, hkept]
        · exact alike_of_removed halike hkept hs' hE hlocals
      | true =>
        have hs' : (block.statements.filter (·.keptBy f.used))[f.keptBefore bb idx]? = some stmt := by
          rw [MirFunction.keptBefore, hstmts]
          exact Counting.getElem?_filter hs hkept
        rcases kept_agrees hb hs (fun l => hq.declared stmt l hat) halike
            (hq.kept stmt hat hkept _ halike.world) with
          ⟨s', t', hrun, hrun', halike'⟩ | ⟨e, hrun, hrun'⟩
        · refine .inl ⟨_, _, step_ok hb hs hrun, step_ok hb' hs' hrun', t', ?_, halike'⟩
          simp [hcount, hkept]
        · refine .inr (.inl ⟨_, _, step_error hb hs hrun, step_error hb' hs' hrun', ?_⟩)
          simp only [Outcome.seen, halike.log]

/-- A removed statement that leaves memory as it is need not be looked for in it. -/
theorem removesQuietly_eq {p : Point W}
    (hremoved : ∀ stmt, (f.stmtsAt p.bb)[p.idx]? = some stmt → stmt.keptBy f.used = false →
      ∃ s, rt.execStmt f.locals p.state stmt = .ok s ∧ s.world = p.state.world ∧
        ∀ l ∈ f.used, s.locals l = p.state.locals l)
    (hdecl : ∀ stmt l, (f.stmtsAt p.bb)[p.idx]? = some stmt → stmt.kind = .drop l →
      l < f.locals.length) : RemovesQuietly rt f Eq p where
  removed stmt hs hkept := by
    obtain ⟨s, hrun, hw, hlocals⟩ := hremoved stmt hs hkept
    exact ⟨s, hrun, fun w he => hw.trans he, hlocals⟩
  kept stmt _ _ w he := by
    subst he
    cases rt.execStmt f.locals p.state stmt with
    | error e => rfl
    | ok s => exact ⟨rfl, rfl, rfl⟩
  branches w he v := by rw [he]
  declared := hdecl

end Runs

/-- `_1 = 3`, which nothing reads, and `_0 = 7`. -/
def assignsUnused : MirFunction :=
  plainFunction "assigns_unused" 0 [.int, .int]
    [⟨[plainStmt (.assign 1 (.use (.const (.int 3)))),
      plainStmt (.assign 0 (.use (.const (.int 7))))], plainTerm .ret⟩]

theorem assignsUnused_removesQuietly {p : Point Unit}
    (h : Reaches (plainRuntime.step assignsUnused) (startPoint [] emptyWorld) p) :
    RemovesQuietly plainRuntime assignsUnused Eq p := by
  have hend : runs (plainRuntime.step assignsUnused) 3 (startPoint [] emptyWorld) =
      .inr (.returned (.word 7) emptyWorld []) := rfl
  obtain ⟨n, hn, hrun⟩ := h.lt_end hend
  have hused : assignsUnused.used = [0] := by decide
  obtain rfl | rfl | rfl : n = 0 ∨ n = 1 ∨ n = 2 := by omega
  · cases hrun
    refine removesQuietly_eq ?_ ?_
    · intro stmt hs _
      cases hs
      refine ⟨_, rfl, rfl, ?_⟩
      intro l hl
      rw [hused] at hl
      rw [List.mem_singleton.mp hl]
      rfl
    · intro stmt l hs hk
      cases hs
      cases hk
  · cases hrun
    refine removesQuietly_eq ?_ ?_
    · intro stmt hs hkept
      cases hs
      exact absurd hkept (by decide)
    · intro stmt l hs hk
      cases hs
      cases hk
  · cases hrun
    refine removesQuietly_eq ?_ ?_
    · intro stmt hs
      cases hs
    · intro stmt l hs
      cases hs

/-- `_1 = 1 / 0`, which nothing reads, and `_0 = 7`. -/
def dividesUnused : MirFunction :=
  plainFunction "divides_unused" 0 [.int, .int]
    [⟨[plainStmt (.assign 1 (.binaryOp .div (.const (.int 1)) (.const (.int 0)))),
      plainStmt (.assign 0 (.use (.const (.int 7))))], plainTerm .ret⟩]

end Olive
