import Olive.Licm

/-! A loop's invariants computed ahead: what the preheader leaves behind, and what the loop then
finds. -/

namespace Olive

open Lockstep

variable {W : Type}

/-- Assigning `rval` gives `dst` its saved value and changes nothing else but locals moved out. -/
def GivesAgain (rt : Runtime W) (decls : List LocalDecl) (saved : Local → Val) (s : State W)
    (dst : Local) (rval : Rvalue) : Prop :=
  ∃ s', rt.runAssign decls s dst rval = .ok s' ∧ s'.locals dst = saved dst ∧ s'.world = s.world

/-- What the hoisted statements left in the locals when the loop was entered, and the locals the
unchanged loop has not assigned since. -/
structure Ahead where
  saved : Local → Val
  pending : List Local

section Condition

variable (rt : Runtime W) (f : MirFunction) (lp : Loop) (hs : List Hoisted)

def Loop.entered (p p' : Point W) : Prop := p.bb ∉ lp.body ∧ p'.bb = lp.header

instance (p p' : Point W) : Decidable (lp.entered p p') :=
  inferInstanceAs (Decidable (_ ∧ _))

def trackHoisted (p p' : Point W) (ahead : Ahead) : Ahead :=
  if lp.entered p p' then
    match rt.runStmts f.locals p'.state (hoistedStmts f hs) with
    | .ok s => ⟨s.locals, hs.map (·.dst)⟩
    | .error _ => ahead
  else
    match hs.find? fun h => decide (h.bb = p.bb ∧ h.idx = p.idx) with
    | some h => ⟨ahead.saved, ahead.pending.filter fun l => decide (l ≠ h.dst)⟩
    | none => ahead

/-- The locals hoisted statements assign or read. -/
def hoistLocals : List Local := hs.map (·.dst) ++ (hoistedStmts f hs).flatMap Statement.reads

/-- The hoisted statements can run where the loop is entered, without a fault or an effect; the loop
then finds what they computed: nothing reads a local before the loop assigns it, nothing moves out
or drops what they use, and reads of memory give the same again. -/
structure HoistsSafely (q : Point W × Ahead) : Prop where
  block : q.1.bb < f.basicBlocks.length
  enters : ∀ p', rt.step f q.1 = .inl p' → lp.entered q.1 p' →
    ∃ s', rt.runStmts f.locals p'.state (hoistedStmts f hs) = .ok s' ∧ s'.world = p'.state.world
  reads : ∀ l ∈ f.readsAt q.1.bb q.1.idx, l ∉ q.2.pending
  clears : q.1.bb ∈ lp.body → ∀ l ∈ f.clearsAt q.1.bb q.1.idx, l ∉ hoistLocals f hs
  again : ∀ dst rval span, (f.stmtsAt q.1.bb)[q.1.idx]? = some ⟨.assign dst rval, span⟩ →
    isHoisted hs q.1.bb q.1.idx = true → (lower f.locals rval).isPure = false →
    GivesAgain rt f.locals q.2.saved q.1.state dst rval

end Condition

variable {rt : Runtime W} {f : MirFunction} {lp : Loop} {hs : List Hoisted}
  {body : List BasicBlockId} {S : Local → Prop}

section Preheader

/-- A pure hoisted statement gives its saved value again wherever its operands are the saved ones. -/
def Recomputes (rt : Runtime W) (f : MirFunction) (saved : Local → Val) (h : Hoisted) : Prop :=
  ∀ rval span, (f.stmtsAt h.bb)[h.idx]? = some ⟨.assign h.dst rval, span⟩ →
    (lower f.locals rval).isPure = true → ∀ s : State W,
    (∀ op ∈ rval.inputs, ∀ l, op.local? = some l → s.locals l = saved l) →
    GivesAgain rt f.locals saved s h.dst rval

theorem giveAgain_of_pure {decls : List LocalDecl} {s s' t : State W} {dst : Local} {rval : Rvalue}
    (hrun : rt.runAssign decls s dst rval = .ok s') (hp : (lower decls rval).isPure = true)
    (hops : ∀ op ∈ rval.inputs, ∀ l, op.local? = some l → t.locals l = s.locals l) :
    GivesAgain rt decls s'.locals t dst rval := by
  obtain ⟨v, w, heval, rfl⟩ := runAssign_ok hrun
  have hval := eval_pure hp heval t.world
  rw [← evalOperands_congr rval.inputs hops] at hval
  refine ⟨⟨setLocal (rt.evalOperands t.locals rval.inputs).2 dst (rt.fit (tyOf decls dst) v), t.world,
    t.log ++ Runtime.callEvents rval (rt.evalOperands t.locals rval.inputs).1⟩, ?_, ?_, rfl⟩
  · simp only [Runtime.runAssign, hval, Except.map]
  · simp

theorem hoistedStmts_concat {h : Hoisted} {stmt : Statement}
    (hstmt : (f.stmtsAt h.bb)[h.idx]? = some stmt) (acc : List Hoisted) :
    hoistedStmts f (acc ++ [h]) = hoistedStmts f acc ++ [stmt] := by
  simp [hoistedStmts, hstmt]

theorem Taken.defined {before : List Local} {h : Hoisted} {rval : Rvalue} {span : Span}
    (ht : Taken f body before h rval span) : definedIn f body h.dst = true := by
  refine List.any_eq_true.mpr ⟨h.bb, ht.block, List.any_eq_true.mpr ⟨_, List.mem_of_getElem? ht.stmt, ?_⟩⟩
  exact decide_eq_true (Statement.writes?_of_dst rfl)

/-- No operand of a statement taken earlier, or of this one, is assigned by it. -/
theorem Taken.not_read {before : List Local} {h : Hoisted} {rval : Rvalue} {span : Span}
    (ht : Taken f body before h rval span) {l : Local}
    (hl : definedIn f body l = false ∨ l ∈ before) : l ≠ h.dst := by
  rintro rfl
  rcases hl with hl | hl
  · rw [ht.defined] at hl
    simp at hl
  · exact ht.fresh hl

theorem not_moved_of_clears {dst : Local} {rval : Rvalue} {span : Span}
    (h : (⟨.assign dst rval, span⟩ : Statement).clears = []) :
    ∀ op ∈ rval.inputs, op.moved? = none := by
  intro op hop
  have hnone := List.filterMap_eq_nil_iff.mp h
  exact hnone op hop

/-- The preheader assigns the hoisted locals only, and leaves each pure one ready to recompute. -/
theorem hoisted_run (hsel : Selected f body hs) {s s' : State W}
    (hclears : ∀ stmt ∈ hoistedStmts f hs, stmt.clears = [])
    (hrun : rt.runStmts f.locals s (hoistedStmts f hs) = .ok s') :
    (∀ l ∉ hs.map (·.dst), s'.locals l = s.locals l) ∧ ∀ h ∈ hs, Recomputes rt f s'.locals h := by
  induction hsel generalizing s' with
  | nil =>
    obtain rfl := Except.ok.inj hrun
    exact ⟨fun _ _ => rfl, by simp⟩
  | @snoc acc h rval span hacc ht ih =>
    rw [hoistedStmts_concat ht.stmt] at hclears hrun
    obtain ⟨s₁, hrun₁, hexec⟩ := (runStmts_concat _ _).mp hrun
    obtain ⟨hkeep, hre⟩ := ih (fun stmt hmem => hclears stmt (List.mem_append_left _ hmem)) hrun₁
    have hnone := hclears _ (List.mem_append_right _ (List.mem_singleton_self _))
    have hframe : ∀ l, l ≠ h.dst → s'.locals l = s₁.locals l := by
      intro l hl
      apply execStmt_frame hexec
      · intro he
        exact hl (Option.some.inj he).symm
      · simp [hnone]
    refine ⟨?_, ?_⟩
    · intro l hl
      rw [List.map_append, List.mem_append, not_or] at hl
      exact (hframe l (by simpa using hl.2)).trans (hkeep l hl.1)
    · intro h' hmem
      rcases List.mem_append.mp hmem with hold | hnew
      · obtain ⟨before, _, _, hsub, ht'⟩ := hacc.taken hold
        intro rval' span' hstmt hp t hops
        have hreads : ∀ op ∈ rval'.inputs, ∀ l, op.local? = some l → l ≠ h.dst := by
          intro op hop l hl
          have hrv := ht'.stmt.symm.trans hstmt
          cases hrv
          exact ht.not_read ((ht'.reads op hop l hl).imp_right fun hb => hsub hb)
        obtain ⟨t', hgive, hv, hw⟩ := hre h' hold rval' span' hstmt hp t fun op hop l hl =>
          (hops op hop l hl).trans (hframe l (hreads op hop l hl))
        refine ⟨t', hgive, hv.trans (hframe _ ?_).symm, hw⟩
        exact fun he => ht.fresh (he ▸ List.mem_map_of_mem hold)
      · obtain rfl := List.mem_singleton.mp hnew
        intro rval' span' hstmt hp t hops
        cases ht.stmt.symm.trans hstmt
        apply giveAgain_of_pure hexec hp
        intro op hop l hl
        exact (hops op hop l hl).trans (hframe l (ht.not_read (ht.reads op hop l hl)))

/-- Locals of the loop may differ before the preheader: it does not read them before it has assigned
them. -/
theorem hoisted_agrees (hsel : Selected f body hs) (hS : ∀ l, S l → definedIn f body l = true)
    {s t : State W} (h : AgreeOff S s.locals t.locals) (hw : s.world = t.world) {s' : State W}
    (hrun : rt.runStmts f.locals s (hoistedStmts f hs) = .ok s') :
    ∃ t', rt.runStmts f.locals t (hoistedStmts f hs) = .ok t' ∧
      AgreeOff (fun l => S l ∧ l ∉ hs.map (·.dst)) s'.locals t'.locals ∧ s'.world = t'.world := by
  induction hsel generalizing s' with
  | nil =>
    obtain rfl := Except.ok.inj hrun
    exact ⟨t, rfl, h.weaken fun l hl => ⟨hl, by simp⟩, hw⟩
  | @snoc acc h' rval span hacc ht ih =>
    rw [hoistedStmts_concat ht.stmt] at hrun ⊢
    obtain ⟨s₁, hrun₁, hexec⟩ := (runStmts_concat _ _).mp hrun
    obtain ⟨t₁, htrun, hag, hw₁⟩ := ih hrun₁
    have hreads : ∀ l ∈ (⟨.assign h'.dst rval, span⟩ : Statement).reads,
        ¬(S l ∧ l ∉ acc.map (·.dst)) := by
      intro l hl hno
      obtain ⟨op, hop, hlocal⟩ := List.mem_filterMap.mp hl
      rcases ht.reads op hop l hlocal with hdef | hmem
      · rw [hS l hno.1] at hdef
        simp at hdef
      · exact hno.2 hmem
    have hsame := execStmt_agrees rt f.locals hag hw₁ hreads
    rw [hexec] at hsame
    cases hexec' : rt.execStmt f.locals t₁ ⟨.assign h'.dst rval, span⟩ with
    | error e => simp [hexec', SameResult] at hsame
    | ok t' =>
      rw [hexec'] at hsame
      obtain ⟨hag', hw', _⟩ := hsame
      refine ⟨t', (runStmts_concat _ _).mpr ⟨t₁, htrun, hexec'⟩, hag'.weaken ?_, hw'⟩
      intro l hl
      refine ⟨hl.1.1, ?_⟩
      rw [List.map_append, List.mem_append, not_or]
      refine ⟨hl.1.2, ?_⟩
      intro hmem
      exact hl.2 (congrArg some (List.mem_singleton.mp hmem).symm)

end Preheader

end Olive
