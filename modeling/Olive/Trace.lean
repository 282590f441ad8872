import Olive.MachineFrame

/-! Runs with the statements they have performed, and when two functions have the same ones. -/

namespace Olive

open Lockstep

variable {W : Type}

/-- The statements performed so far. -/
def noteStmt (f : MirFunction) (p _ : Point W) (trace : List Statement) : List Statement :=
  match (f.stmtsAt p.bb)[p.idx]? with
  | some stmt => trace ++ [stmt]
  | none => trace

section Runs

variable (rt : Runtime W) (f : MirFunction)

/-- The steps of a function with what they have performed. -/
def tracedStep : Point W × List Statement → (Point W × List Statement) ⊕ Outcome W :=
  ghost (rt.step f) (noteStmt f)

/-- From state `s` at the entry, the run performs `trace` and is then in state `s'`. -/
def Performs (s : State W) (trace : List Statement) (s' : State W) : Prop :=
  ∃ p, Reaches (tracedStep rt f) (⟨0, 0, s⟩, []) (p, trace) ∧ p.state = s'

/-- The run performs `trace` and then ends in state `s'`. -/
def EndsAfter (s : State W) (trace : List Statement) (s' : State W) (o : Outcome W) : Prop :=
  ∃ p, Reaches (tracedStep rt f) (⟨0, 0, s⟩, []) (p, trace) ∧ p.state = s' ∧ rt.step f p = .inr o

end Runs

/-- From every initial state, `f` and `g` perform the same statements with the same states between
them, and end alike. -/
structure SameRuns (rt : Runtime W) (f g : MirFunction) : Prop where
  performs : ∀ s trace s', Performs rt f s trace s' ↔ Performs rt g s trace s'
  ends : ∀ s trace s' o, EndsAfter rt f s trace s' o ↔ EndsAfter rt g s trace s' o

variable {rt : Runtime W} {f g h : MirFunction}

theorem SameRuns.refl (rt : Runtime W) (f : MirFunction) : SameRuns rt f f :=
  ⟨fun _ _ _ => Iff.rfl, fun _ _ _ _ => Iff.rfl⟩

theorem SameRuns.trans (hfg : SameRuns rt f g) (hgh : SameRuns rt g h) : SameRuns rt f h :=
  ⟨fun s trace s' => (hfg.performs s trace s').trans (hgh.performs s trace s'),
    fun s trace s' o => (hfg.ends s trace s' o).trans (hgh.ends s trace s' o)⟩

/-- A run ends with an outcome exactly if it ends so after some statements. -/
theorem yields_iff_endsAfter (s : State W) (o : Outcome W) :
    Yields (rt.step f) ⟨0, 0, s⟩ o ↔ ∃ trace s', EndsAfter rt f s trace s' o := by
  have hghost : Yields (tracedStep rt f) (⟨0, 0, s⟩, []) o ↔ Yields (rt.step f) ⟨0, 0, s⟩ o :=
    yields_ghost _ _ o
  rw [← hghost, yields_iff_last]
  constructor
  · rintro ⟨⟨p, trace⟩, hreach, hend⟩
    exact ⟨trace, p.state, p, hreach, rfl, ghost_eq_inr.mp hend⟩
  · rintro ⟨trace, s', p, hreach, _, hend⟩
    exact ⟨(p, trace), hreach, ghost_eq_inr.mpr hend⟩

/-- What related points must have in common. -/
structure SameTrace (R : Point W → Point W → Prop) (a b : Point W × List Statement) : Prop where
  points : R a.1 b.1
  trace : a.2 = b.2

theorem sameRuns_of_simulates {R : Point W → Point W → Prop}
    (hstate : ∀ p q, R p q → p.state = q.state) (hstart : ∀ s, R ⟨0, 0, s⟩ ⟨0, 0, s⟩)
    (hfg : Simulates (tracedStep rt f) (tracedStep rt g) (SameTrace R))
    (hgf : Simulates (tracedStep rt g) (tracedStep rt f) fun b a => SameTrace R a b) :
    SameRuns rt f g := by
  have hboth : ∀ s : State W, SameTrace R (⟨0, 0, s⟩, []) (⟨0, 0, s⟩, []) := fun s =>
    ⟨hstart s, rfl⟩
  constructor
  · intro s trace s'
    constructor
    · rintro ⟨p, hreach, rfl⟩
      obtain ⟨⟨q, _⟩, hq, hr⟩ := hfg.reaches (hboth s) hreach
      obtain ⟨hpq, rfl⟩ := hr
      exact ⟨q, hq, (hstate p q hpq).symm⟩
    · rintro ⟨q, hreach, rfl⟩
      obtain ⟨⟨p, _⟩, hp, hr⟩ := hgf.reaches (hboth s) hreach
      obtain ⟨hpq, rfl⟩ := hr
      exact ⟨p, hp, hstate p q hpq⟩
  · intro s trace s' o
    constructor
    · rintro ⟨p, hreach, rfl, hend⟩
      obtain ⟨b, hb, hr⟩ := hfg.reaches (hboth s) hreach
      obtain ⟨⟨q, _⟩, hq, hrq, hend'⟩ := hfg.stops _ _ o hr (ghost_eq_inr.mpr hend)
      obtain ⟨hpq, rfl⟩ := hrq
      exact ⟨q, hb.trans hq, (hstate p q hpq).symm, ghost_eq_inr.mp hend'⟩
    · rintro ⟨q, hreach, rfl, hend⟩
      obtain ⟨a, ha, hr⟩ := hgf.reaches (hboth s) hreach
      obtain ⟨⟨p, _⟩, hp, hrp, hend'⟩ := hgf.stops _ _ o hr (ghost_eq_inr.mpr hend)
      obtain ⟨hpq, rfl⟩ := hrp
      exact ⟨p, ha.trans hp, hstate p q hpq, ghost_eq_inr.mp hend'⟩

/-- The points stand before the same statement, or before the same terminator up to the names `r`
of the blocks. -/
structure SamePlace (f g : MirFunction) (r : BasicBlockId → BasicBlockId) (p q : Point W) : Prop where
  locals : g.locals = f.locals
  state : q.state = p.state
  place : ∃ block block', f.basicBlocks[p.bb]? = some block ∧ g.basicBlocks[q.bb]? = some block' ∧
    block'.statements[q.idx]? = block.statements[p.idx]? ∧
    (block.statements[p.idx]? = none → block'.terminator =
      block.terminator.map fun t => { t with kind := t.kind.mapTargets r })

section SamePlace

variable {r : BasicBlockId → BasicBlockId} {p q : Point W} {R : Point W → Point W → Prop}

theorem SamePlace.note (hp : SamePlace f g r p q) (p' q' : Point W) (trace : List Statement) :
    noteStmt g q q' trace = noteStmt f p p' trace := by
  obtain ⟨block, block', hb, hb', hstmt, -⟩ := hp.place
  simp only [noteStmt, MirFunction.stmtsAt, hb, hb', hstmt]

/-- From the same place both functions step alike. -/
theorem SamePlace.step (rt : Runtime W) (hp : SamePlace f g r p q) :
    (∃ s stmt, (f.stmtsAt p.bb)[p.idx]? = some stmt ∧ rt.step f p = .inl ⟨p.bb, p.idx + 1, s⟩ ∧
        rt.step g q = .inl ⟨q.bb, q.idx + 1, s⟩) ∨
      (∃ bb s, (f.stmtsAt p.bb)[p.idx]? = none ∧ bb ∈ f.successors p.bb ∧
        rt.step f p = .inl ⟨bb, 0, s⟩ ∧ rt.step g q = .inl ⟨r bb, 0, s⟩) ∨
      ∃ o, rt.step f p = .inr o ∧ rt.step g q = .inr o := by
  obtain ⟨block, block', hb, hb', hstmt, hterm⟩ := hp.place
  cases hs : block.statements[p.idx]? with
  | some stmt =>
    have hs' := hstmt.trans hs
    have hat : (f.stmtsAt p.bb)[p.idx]? = some stmt := by
      simp only [MirFunction.stmtsAt, hb, hs]
    have hsame : rt.execStmt g.locals q.state stmt = rt.execStmt f.locals p.state stmt := by
      rw [hp.locals, hp.state]
    cases he : rt.execStmt f.locals p.state stmt with
    | ok s => exact .inl ⟨s, stmt, hat, step_ok hb hs he, step_ok hb' hs' (hsame.trans he)⟩
    | error e =>
      refine .inr (.inr ⟨_, step_error hb hs he, ?_⟩)
      rw [← hp.state]
      exact step_error hb' hs' (hsame.trans he)
  | none =>
    have hs' := hstmt.trans hs
    have hsame : rt.execTerm g.locals q.state block'.terminator =
        (rt.execTerm f.locals p.state block.terminator).map (fun t => (r t.1, t.2)) id := by
      rw [hterm hs, hp.locals, hp.state, execTerm_mapTargets]
    cases he : rt.execTerm f.locals p.state block.terminator with
    | inl next =>
      obtain ⟨bb, s⟩ := next
      rw [he] at hsame
      refine .inr (.inl ⟨bb, s, ?_, ?_, step_goes hb hs he, step_goes hb' hs' hsame⟩)
      · simp only [MirFunction.stmtsAt, hb, hs]
      · cases ht : block.terminator with
        | none => simp [ht, Runtime.execTerm] at he
        | some term =>
          simp only [MirFunction.successors, MirFunction.terminatorAt, hb, Option.bind_some, ht]
          exact execTerm_target (ht ▸ he)
    | inr o =>
      rw [he] at hsame
      exact .inr (.inr ⟨o, step_ends hb hs he, step_ends hb' hs' hsame⟩)

/-- Related points at the same place stay related, with the same trace. -/
theorem SamePlace.traced (hp : SamePlace f g r p q) (trace : List Statement)
    (hnext : ∀ s stmt, (f.stmtsAt p.bb)[p.idx]? = some stmt →
      R ⟨p.bb, p.idx + 1, s⟩ ⟨q.bb, q.idx + 1, s⟩)
    (hgoes : ∀ bb s, (f.stmtsAt p.bb)[p.idx]? = none → bb ∈ f.successors p.bb → R ⟨bb, 0, s⟩ ⟨r bb, 0, s⟩) :
    (∃ a b, tracedStep rt f (p, trace) = .inl a ∧ tracedStep rt g (q, trace) = .inl b ∧
      SameTrace R a b) ∨
      ∃ o, tracedStep rt f (p, trace) = .inr o ∧ tracedStep rt g (q, trace) = .inr o := by
  rcases hp.step rt with ⟨s, stmt, hs, hf, hg⟩ | ⟨bb, s, hn, hbb, hf, hg⟩ | ⟨o, hf, hg⟩
  · exact .inl ⟨_, _, ghost_inl hf, ghost_inl hg, hnext s stmt hs, (hp.note p q trace).symm⟩
  · exact .inl ⟨_, _, ghost_inl hf, ghost_inl hg, hgoes bb s hn hbb, (hp.note p q trace).symm⟩
  · exact .inr ⟨o, ghost_inr hf, ghost_inr hg⟩

end SamePlace

end Olive
