import Olive.BorrowChecker

/-! What holds along a path from the entry: which locals have been moved out or dropped, and which
references they hold. -/

namespace Olive

namespace BorrowChecker

/-- A local since it was last assigned; blank before that, and after a storage statement. -/
inductive Fate where
  | blank | valued | gone
  deriving DecidableEq

/-- A reference made by one execution of `&target` or `&mut target`. -/
structure Reference where
  time : Nat
  target : Local
  mutable : Bool
  deriving DecidableEq

structure PathPoint where
  bb : BasicBlockId
  idx : Nat
  fate : Local → Fate
  holds : Local → Option Reference
  /-- The statements so far. -/
  time : Nat

section Paths

variable (f : MirFunction)

def moveOut (fate : Local → Fate) : Operand → Local → Fate
  | .move l => if isMoveLocal f l ∧ fate l = .valued then Function.update fate l .gone else fate
  | _ => fate

def fateAfter (fate : Local → Fate) (kind : StatementKind) : Local → Fate :=
  let moved := kind.evaluated.foldl (moveOut f) fate
  match kind with
  | .assign dst _ => Function.update moved dst .valued
  | .drop l => if moved l = .valued then Function.update moved l .gone else moved
  | .storageLive l | .storageDead l => Function.update moved l .blank
  | _ => moved

/-- What a variable holds after an assignment: a new reference, or the one it is copied from. -/
def assigned (time : Nat) (holds : Local → Option Reference) : Rvalue → Option Reference
  | .ref l => some ⟨time, l, false⟩
  | .mutRef l => some ⟨time, l, true⟩
  | rval => (carriedFrom rval).bind holds

def heldAfter (time : Nat) (holds : Local → Option Reference) : StatementKind → Local → Option Reference
  | .assign dst rval => Function.update holds dst (assigned time holds rval)
  | .drop l | .storageDead l => Function.update holds l none
  | _ => holds

def entryPoint : PathPoint :=
  ⟨0, 0, fun l => if l ≤ f.argCount then .valued else .blank, fun _ => none, 0⟩

inductive Walks : PathPoint → PathPoint → Prop
  | stmt {p : PathPoint} {stmt : Statement} (hs : (f.stmtsAt p.bb)[p.idx]? = some stmt) :
      Walks p ⟨p.bb, p.idx + 1, fateAfter f p.fate stmt.kind, heldAfter p.time p.holds stmt.kind,
        p.time + 1⟩
  | edge {p : PathPoint} {target : BasicBlockId} (hend : p.idx = (f.stmtsAt p.bb).length)
      (ht : target ∈ f.successors p.bb) :
      Walks p ⟨target, 0, (f.operandsAt p.bb p.idx).foldl (moveOut f) p.fate, p.holds, p.time⟩

/-- The points of all paths from the entry. -/
inductive OnPath : PathPoint → Prop
  | entry : OnPath (entryPoint f)
  | step {p q : PathPoint} (hp : OnPath p) (h : Walks f p q) : OnPath q

/-- Some way on from here reads a local that holds the reference. -/
inductive UsedLater (r : Reference) : PathPoint → Prop
  | now {p : PathPoint} {l : Local} (hl : l ∈ (f.readAt p.bb p.idx).filterMap Operand.local?)
      (hr : p.holds l = some r) : UsedLater r p
  | later {p q : PathPoint} (h : Walks f p q) (hq : UsedLater r q) : UsedLater r p

/-- No operand reads a local that is gone, also by an operand before it. -/
def ReadsFine : (Local → Fate) → List Operand → Prop
  | _, [] => True
  | fate, op :: ops => (∀ l, op.local? = some l → fate l ≠ .gone) ∧ ReadsFine (moveOut f fate op) ops

/-- The local mutated directly by a statement. -/
def mutated : StatementKind → Option Local
  | .setAttr obj _ _ | .setIndex obj _ _ _ | .vectorStore obj _ _ => obj.local?
  | .assign _ (.call func args) => (mutatedReceiver func args).bind Operand.local?
  | _ => none

/-- The point moves, drops, reassigns or directly mutates `x`. -/
inductive Disturbs (p : PathPoint) (x : Local) : Prop
  | moved (hop : .move x ∈ f.operandsAt p.bb p.idx) (hx : isMoveLocal f x = true)
  | dropped {stmt : Statement} (hs : (f.stmtsAt p.bb)[p.idx]? = some stmt)
      (hk : stmt.kind = .drop x)
  | assigned {stmt : Statement} (hs : (f.stmtsAt p.bb)[p.idx]? = some stmt)
      (hk : stmt.dst? = some x)
  | mutated {stmt : Statement} (hs : (f.stmtsAt p.bb)[p.idx]? = some stmt)
      (hk : mutated stmt.kind = some x)

/-- Along every path: nothing reads a local that is gone, what a reference refers to is left alone as
long as the reference is still used, and so is every mutable reference. -/
structure BorrowSafe : Prop where
  reads : ∀ p, OnPath f p → ReadsFine f p.fate (f.readAt p.bb p.idx)
  undisturbed : ∀ p, OnPath f p → ∀ l r, p.holds l = some r → UsedLater f r p →
    ¬Disturbs f p r.target
  exclusive : ∀ p, OnPath f p → ∀ l l' r r', p.holds l = some r → p.holds l' = some r' → r ≠ r' →
    r.target = r'.target → r.mutable = true ∨ r'.mutable = true →
    ¬(UsedLater f r p ∧ UsedLater f r' p)

end Paths

/-- The locals that statements name are declared. -/
structure LocalsDeclared (f : MirFunction) : Prop where
  dst : ∀ stmt ∈ f.statements, ∀ l : Nat, stmt.dst? = some l → l < f.locals.length
  drop : ∀ stmt ∈ f.statements, ∀ l : Nat, stmt.kind = .drop l → l < f.locals.length
  reads : ∀ stmt ∈ f.statements, ∀ l : Nat,
    l ∈ stmt.kind.evaluated.filterMap Operand.local? → l < f.locals.length

/-- Every local is assigned before it is read, after the entry and after each of its storage
statements, and there are no generation checks yet. -/
structure AssignedFirst (f : MirFunction) : Prop where
  assigned : ∀ p, OnPath f p → ∀ l ∈ (f.readAt p.bb p.idx).filterMap Operand.local?,
    p.fate l ≠ .blank
  unchecked : ∀ stmt ∈ f.statements, ∀ value generation, stmt.kind ≠ .genCheck value generation

/-- The end of the borrows of dead references takes away one of `x`. -/
def Releases (prov : Provenance) (live : Finset Local) (x : Local) : Prop :=
  (∃ l, (l, x) ∈ prov ∧ l ∉ live) ∧ ∀ l, (l, x) ∈ prov → l ∉ live

/-- A visit of a block on which the checker's three shortcuts do no harm. -/
structure VisitFine (f : MirFunction) (liveAfter : List (List (Finset Local))) (ctx : Context)
    (bb : BasicBlockId) (s : FlowState) : Prop where
  /-- No variable is directly mutated that is counted as mutably borrowed. -/
  mutation : ∀ idx stmt x, (f.stmtsAt bb)[idx]? = some stmt → mutated stmt.kind = some x →
    ((checkStmts f liveAfter bb idx (ctx, s)).2.borrow x).2 = false
  /-- No variable is dropped that is counted as borrowed and not as initialized. -/
  drop : ∀ idx stmt x, (f.stmtsAt bb)[idx]? = some stmt → stmt.kind = .drop x →
    (checkStmts f liveAfter bb idx (ctx, s)).2.get x ≠ .initialized →
    (checkStmts f liveAfter bb idx (ctx, s)).2.borrow x = (0, false)
  /-- No borrow is released of a variable to which, on some path, a live local refers. -/
  release : ∀ p, OnPath f p → p.bb = bb → (0 < p.idx ∨ p.idx = (f.stmtsAt bb).length) →
    ∀ l ∈ liveAt liveAfter bb p.idx, ∀ r, p.holds l = some r →
    ¬Releases (checkStmts f liveAfter bb p.idx (ctx, s)).1.provenance (liveAt liveAfter bb p.idx)
      r.target

section Liveness

variable {f : MirFunction} {fuel : Nat} {liveAfter : List (List (Finset Local))}

theorem OnPath.idx_le {p : PathPoint} (h : OnPath f p) : p.idx ≤ (f.stmtsAt p.bb).length := by
  induction h with
  | entry => exact Nat.zero_le _
  | step hp h ih =>
    cases h with
    | stmt hs => exact (List.getElem?_eq_some_iff.mp hs).1
    | edge => exact Nat.zero_le _

/-- Where a reference that a local holds after a statement comes from. -/
inductive HeldFrom (time : Nat) (holds : Local → Option Reference) (kind : StatementKind) (l : Local)
    (r : Reference) : Prop
  | kept (hkill : kind.kills? ≠ some l) (h : holds l = some r)
  | carried {rval : Rvalue} {src : Local} (hk : kind = .assign l rval)
      (hsrc : carriedFrom rval = some src) (h : holds src = some r)
  | made {x : Local} (hk : kind = .assign l (.ref x) ∧ r = ⟨time, x, false⟩ ∨
      kind = .assign l (.mutRef x) ∧ r = ⟨time, x, true⟩)

theorem heldAfter_cases {time : Nat} {holds : Local → Option Reference} {kind : StatementKind}
    {l : Local} {r : Reference} (h : heldAfter time holds kind l = some r) :
    HeldFrom time holds kind l r := by
  cases kind with
  | assign dst rval =>
    by_cases hl : l = dst
    · subst hl
      rw [heldAfter, Function.update_self] at h
      have hcarried : (carriedFrom rval).bind holds = some r →
          HeldFrom time holds (.assign l rval) l r := by
        intro h
        obtain ⟨src, hsrc, hheld⟩ := Option.bind_eq_some_iff.mp h
        exact .carried rfl hsrc hheld
      cases rval with
      | ref x => exact .made (x := x) (.inl ⟨rfl, (Option.some.inj h).symm⟩)
      | mutRef x => exact .made (x := x) (.inr ⟨rfl, (Option.some.inj h).symm⟩)
      | _ =>
        rw [assigned] at h
        · exact hcarried h
        all_goals
          intro _ h
          cases h
    · rw [heldAfter, Function.update_of_ne hl] at h
      exact .kept (fun hkill => hl (Option.some.inj hkill).symm) h
  | drop x | storageDead x =>
    by_cases hl : l = x
    · rw [heldAfter, hl, Function.update_self] at h
      cases h
    · rw [heldAfter, Function.update_of_ne hl] at h
      exact .kept (fun hkill => hl (Option.some.inj hkill).symm) h
  | _ => exact .kept (fun hkill => by cases hkill) h

theorem OnPath.held_before {p : PathPoint} (h : OnPath f p) {l : Local} {r : Reference}
    (hr : p.holds l = some r) : r.time < p.time := by
  induction h generalizing l with
  | entry => cases hr
  | step hp h ih =>
    cases h with
    | edge => exact ih hr
    | stmt hs =>
      cases heldAfter_cases hr with
      | kept _ h => exact Nat.lt_succ_of_lt (ih h)
      | carried _ _ h => exact Nat.lt_succ_of_lt (ih h)
      | made hk =>
        obtain ⟨_, rfl⟩ | ⟨_, rfl⟩ := hk
        · exact Nat.lt_succ_self _
        · exact Nat.lt_succ_self _

theorem readAt_assign {bb : BasicBlockId} {idx : Nat} {stmt : Statement} {dst : Local} {rval : Rvalue}
    (hs : (f.stmtsAt bb)[idx]? = some stmt) (hk : stmt.kind = .assign dst rval) :
    f.readAt bb idx = rval.inputs := by
  unfold MirFunction.readAt
  split
  next value generation span hs' =>
    cases hs.symm.trans hs'
    cases hk
  next => simp only [MirFunction.operandsAt, hs, hk, StatementKind.evaluated]

/-- A reference is carried over from an operand. -/
theorem carriedFrom_read {rval : Rvalue} {src : Local} (h : carriedFrom rval = some src) :
    src ∈ rval.inputs.filterMap Operand.local? := by
  cases rval with
  | use op => exact List.mem_filterMap.mpr ⟨op, List.mem_singleton_self op, h⟩
  | call func args =>
    rw [carriedFrom] at h
    split at h
    next =>
      obtain ⟨op, hop, hlocal⟩ := Option.bind_eq_some_iff.mp h
      exact List.mem_filterMap.mpr ⟨op, List.mem_cons_of_mem _ (List.mem_of_head? hop), hlocal⟩
    next => cases h
  | _ => cases h

theorem lt_of_mem_readAt_end {bb : BasicBlockId} {idx : Nat} {l : Local}
    (hs : (f.stmtsAt bb)[idx]? = none) (hl : l ∈ (f.readAt bb idx).filterMap Operand.local?) :
    bb < f.basicBlocks.length := by
  by_contra hbb
  have hblock := List.getElem?_eq_none (Nat.le_of_not_lt hbb)
  simp [MirFunction.readAt, MirFunction.operandsAt, hs, MirFunction.terminatorAt, hblock] at hl

/-- A reference that is used later is held by a live local. -/
theorem UsedLater.live (h : computeLiveness f fuel = some liveAfter) {p : PathPoint} {r : Reference}
    (hu : UsedLater f r p) (hp : p.idx ≤ (f.stmtsAt p.bb).length) (hr : r.time < p.time) :
    ∃ l ∈ liveAt liveAfter p.bb p.idx, p.holds l = some r := by
  induction hu with
  | @now p l hl hheld =>
    refine ⟨l, ?_, hheld⟩
    cases hs : (f.stmtsAt p.bb)[p.idx]? with
    | some stmt => exact (mem_liveAt_stmt h hs).mpr (.inl hl)
    | none =>
      have hend : p.idx = (f.stmtsAt p.bb).length :=
        Nat.le_antisymm hp (List.getElem?_eq_none_iff.mp hs)
      have hbb := lt_of_mem_readAt_end hs hl
      rw [hend] at hl ⊢
      exact (mem_liveAt_term h hbb).mpr (.inl hl)
  | @later p q hwalk hq ih =>
    cases hwalk with
    | @edge target hend ht =>
      obtain ⟨l, hlive, hheld⟩ := ih (Nat.zero_le _) hr
      refine ⟨l, ?_, hheld⟩
      rw [hend]
      exact (mem_liveAt_term h (MirFunction.lt_of_successors ht)).mpr (.inr ⟨target, ht, hlive⟩)
    | @stmt stmt hs =>
      obtain ⟨l, hlive, hheld⟩ := ih (List.getElem?_eq_some_iff.mp hs).1 (Nat.lt_succ_of_lt hr)
      cases heldAfter_cases hheld with
      | kept hkill hheld => exact ⟨l, (mem_liveAt_stmt h hs).mpr (.inr ⟨hlive, hkill⟩), hheld⟩
      | @carried rval src hk hsrc hheld =>
        refine ⟨src, (mem_liveAt_stmt h hs).mpr (.inl ?_), hheld⟩
        rw [readAt_assign hs hk]
        exact carriedFrom_read hsrc
      | made hk =>
        obtain ⟨_, rfl⟩ | ⟨_, rfl⟩ := hk
        · exact absurd hr (Nat.lt_irrefl _)
        · exact absurd hr (Nat.lt_irrefl _)

end Liveness

end BorrowChecker

end Olive
