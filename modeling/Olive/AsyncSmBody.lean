import Olive.AsyncSm

/-! The body of an async function with each await replaced by the result of its future, and the polls
of one frame. -/

namespace Olive

namespace AsyncSm

open Lockstep

variable {W : Type}

structure BodyPoint (W : Type) where
  point : Point W
  /-- The results of the awaits still ahead, each with the world at that time. -/
  answers : List (Word × World W)
  trace : List Item

inductive BodyEnd (W : Type) where
  | waiting (p : BodyPoint W)
  | ended (o : Outcome W) (trace : List Item)

section Body

variable (rt : Runtime W) (f : MirFunction)

/-- One step of the machine, noted in the trace. -/
def noted (p : BodyPoint W) (item : Point W → Item) : BodyPoint W ⊕ BodyEnd W :=
  match rt.step f p.point with
  | .inl q => .inl ⟨q, p.answers, p.trace ++ [item q]⟩
  | .inr o => .inr (.ended o p.trace)

def bodyStep (p : BodyPoint W) : BodyPoint W ⊕ BodyEnd W :=
  match (f.stmtsAt p.point.bb)[p.point.idx]? with
  | some stmt =>
    match awaitOf stmt with
    | some (result, _) =>
      match p.answers with
      | [] => .inr (.waiting p)
      | (r, w) :: answers =>
        let v := rt.fit (tyOf f.locals result) (.word r)
        .inl ⟨⟨p.point.bb, p.point.idx + 1,
            ⟨setLocal p.point.state.locals result v, w, p.point.state.log⟩⟩,
          answers, p.trace ++ [.awaited r]⟩
    | none => noted rt f p fun _ => .stmt stmt
  | none => noted rt f p fun q => .branch q.bb

def bodyStart (args : List Val) (w : World W) (answers : List (Word × World W)) : BodyPoint W :=
  ⟨startPoint args w, answers, []⟩

/-- Only declared locals are assigned, moved out or dropped. -/
structure Declared (f : MirFunction) : Prop where
  args : f.argCount < f.locals.length
  dst : ∀ stmt ∈ f.statements, ∀ l : Nat, stmt.dst? = some l → l < f.locals.length
  clears : ∀ stmt ∈ f.statements, ∀ l : Nat, l ∈ stmt.clears → l < f.locals.length
  term : ∀ bb term, f.terminatorAt bb = some term →
    ∀ l : Nat, l ∈ term.kind.clears → l < f.locals.length

/-- A branch that the two ways to translate a `SwitchInt` take alike: not on a Python object, and if
its only target is 1, on 0 or 1, or with both ways the same. -/
def BranchPlain (p : Point W) : Prop :=
  (f.stmtsAt p.bb)[p.idx]? = none → p.bb < f.basicBlocks.length →
    ∃ term, f.terminatorAt p.bb = some term ∧
      ∀ discr targets otherwise, term.kind = .switchInt discr targets otherwise →
        discr.isPyObject f.locals = false ∧
          ∀ target, targets = [(1, target)] →
            (rt.evalOperand p.state.locals discr).1.toWord = 0 ∨
              (rt.evalOperand p.state.locals discr).1.toWord = 1 ∨ target = otherwise

end Body

section Steps

variable {rt : Runtime W} {f : MirFunction}

theorem dst_of_await {stmt : Statement} {result : Local} {sub : Operand}
    (h : awaitOf stmt = some (result, sub)) : stmt.dst? = some result := by
  unfold awaitOf at h
  split at h
  next hk =>
    split at h
    next =>
      cases h
      exact Statement.dst?_eq_some.mpr ⟨_, hk⟩
    next => cases h
  next => cases h

variable (rt) in
theorem bodyStep_await {p : BodyPoint W} {stmt : Statement} {result : Local} {sub : Operand}
    (hs : (f.stmtsAt p.point.bb)[p.point.idx]? = some stmt)
    (hawait : awaitOf stmt = some (result, sub)) {r : Word} {w : World W}
    {answers : List (Word × World W)} (hanswers : p.answers = (r, w) :: answers) :
    bodyStep rt f p = .inl ⟨⟨p.point.bb, p.point.idx + 1,
      ⟨setLocal p.point.state.locals result (rt.fit (tyOf f.locals result) (.word r)), w,
        p.point.state.log⟩⟩, answers, p.trace ++ [.awaited r]⟩ := by
  simp only [bodyStep, hs, hawait, hanswers]

theorem bodyStep_waiting {p : BodyPoint W} {stmt : Statement} {result : Local} {sub : Operand}
    (hs : (f.stmtsAt p.point.bb)[p.point.idx]? = some stmt)
    (hawait : awaitOf stmt = some (result, sub)) (hanswers : p.answers = []) :
    bodyStep rt f p = .inr (.waiting p) := by
  simp only [bodyStep, hs, hawait, hanswers]

variable (rt) in
theorem bodyStep_stmt {p : BodyPoint W} {stmt : Statement}
    (hs : (f.stmtsAt p.point.bb)[p.point.idx]? = some stmt) (hawait : awaitOf stmt = none) :
    bodyStep rt f p = match rt.execStmt f.locals p.point.state stmt with
      | .ok s => .inl ⟨⟨p.point.bb, p.point.idx + 1, s⟩, p.answers, p.trace ++ [.stmt stmt]⟩
      | .error e =>
        .inr (.ended (.faulted e p.point.state.world p.point.state.log) p.trace) := by
  obtain ⟨block, hb, hblock⟩ := block_of_stmt hs
  simp only [bodyStep, hs, hawait, noted]
  cases hexec : rt.execStmt f.locals p.point.state stmt with
  | ok s => rw [step_ok hb hblock hexec]
  | error e => rw [step_error hb hblock hexec]

variable (rt) in
theorem bodyStep_term {p : BodyPoint W} (hs : (f.stmtsAt p.point.bb)[p.point.idx]? = none)
    (hbb : p.point.bb < f.basicBlocks.length) :
    bodyStep rt f p = match rt.execTerm f.locals p.point.state (f.terminatorAt p.point.bb) with
      | .inl (bb, s) => .inl ⟨⟨bb, 0, s⟩, p.answers, p.trace ++ [.branch bb]⟩
      | .inr o => .inr (.ended o p.trace) := by
  have hb := List.getElem?_eq_getElem hbb
  have hblock : f.basicBlocks[p.point.bb].statements[p.point.idx]? = none := by
    rwa [stmtsAt_of_block hb] at hs
  have hterm : f.terminatorAt p.point.bb = f.basicBlocks[p.point.bb].terminator := by
    rw [MirFunction.terminatorAt, hb]
    rfl
  simp only [bodyStep, hs, noted, hterm]
  cases hexec : rt.execTerm f.locals p.point.state f.basicBlocks[p.point.bb].terminator with
  | inl t => rw [step_goes hb hblock hexec]
  | inr o => rw [step_ends hb hblock hexec]

theorem bodyStep_missing {p : BodyPoint W} (hbb : f.basicBlocks.length ≤ p.point.bb) :
    bodyStep rt f p =
      .inr (.ended (.faulted .trap p.point.state.world p.point.state.log) p.trace) := by
  have hb := List.getElem?_eq_none hbb
  have hs : (f.stmtsAt p.point.bb)[p.point.idx]? = none := by
    rw [MirFunction.stmtsAt, hb]
    rfl
  simp only [bodyStep, hs, noted, step_no_block hb]

theorem waiting_self {p q : BodyPoint W} (h : bodyStep rt f p = .inr (.waiting q)) : p = q := by
  have hnoted : ∀ item, noted rt f p item ≠ .inr (.waiting q) := by
    intro item h
    unfold noted at h
    split at h <;> cases h
  unfold bodyStep at h
  split at h
  next stmt hs =>
    split at h
    next result sub hawait =>
      split at h
      next =>
        cases h
        rfl
      next => cases h
    next => exact absurd h (hnoted _)
  next => exact absurd h (hnoted _)

def BodyPoint.addAnswers (p : BodyPoint W) (more : List (Word × World W)) : BodyPoint W :=
  { p with answers := p.answers ++ more }

theorem bodyStep_addAnswers {p q : BodyPoint W} (more : List (Word × World W))
    (h : bodyStep rt f p = .inl q) :
    bodyStep rt f (p.addAnswers more) = .inl (q.addAnswers more) := by
  have hnoted : ∀ item, noted rt f p item = .inl q →
      noted rt f (p.addAnswers more) item = .inl (q.addAnswers more) := by
    intro item h
    unfold noted at h ⊢
    split at h
    next t hstep =>
      obtain rfl := Sum.inl.inj h
      simp only [BodyPoint.addAnswers, hstep]
    next => cases h
  unfold bodyStep at h ⊢
  simp only [BodyPoint.addAnswers]
  split at h
  next stmt hs =>
    split at h
    next result sub hawait =>
      split at h
      next => cases h
      next r w answers hanswers =>
        obtain rfl := Sum.inl.inj h
        simp only [hanswers, List.cons_append]
    next => exact hnoted _ h
  next => exact hnoted _ h

/-- What the body does before its next await does not depend on the answers after it. -/
theorem reaches_addAnswers {p q : BodyPoint W} (more : List (Word × World W))
    (h : Reaches (bodyStep rt f) p q) :
    Reaches (bodyStep rt f) (p.addAnswers more) (q.addAnswers more) := by
  let P (q : BodyPoint W) := Reaches (bodyStep rt f) (p.addAnswers more) (q.addAnswers more)
  have hstep : ∀ s t, P s → bodyStep rt f s = .inl t → P t := fun s t hs hst =>
    hs.tail (bodyStep_addAnswers more hst)
  exact @Reaches.invariant _ _ (bodyStep rt f) p q P hstep h (Reaches.refl _)

/-- Locals that are not declared stay zero. -/
def UndeclaredZero (f : MirFunction) (locals : Local → Val) : Prop :=
  ∀ l : Nat, f.locals.length ≤ l → locals l = .word 0

theorem undeclaredZero_start (hdecl : Declared f) {args : List Val} (hargs : args.length = f.argCount)
    (w : World W) : UndeclaredZero f (startPoint args w).state.locals := by
  intro l hl
  have := hdecl.args
  have hne : l ≠ 0 := by omega
  simp only [startPoint, hne, if_false]
  rw [List.getD_eq_getElem?_getD, List.getElem?_eq_none (by omega)]
  rfl

theorem undeclaredZero_step (hdecl : Declared f) {p q : BodyPoint W}
    (hp : UndeclaredZero f p.point.state.locals) (h : bodyStep rt f p = .inl q) :
    UndeclaredZero f q.point.state.locals := by
  intro l hl
  cases hs : (f.stmtsAt p.point.bb)[p.point.idx]? with
  | some stmt =>
    have hmem := mem_statements (List.mem_of_getElem? hs)
    cases hawait : awaitOf stmt with
    | none =>
      rw [bodyStep_stmt rt hs hawait] at h
      split at h
      next s hexec =>
        obtain rfl := Sum.inl.inj h
        have hdst : stmt.dst? ≠ some l := fun hd => absurd (hdecl.dst stmt hmem l hd) (by omega)
        have hclear : l ∉ stmt.clears := fun hc => absurd (hdecl.clears stmt hmem l hc) (by omega)
        exact (execStmt_frame hexec hdst hclear).trans (hp l hl)
      next => cases h
    | some a =>
      obtain ⟨result, sub⟩ := a
      cases hanswers : p.answers with
      | nil =>
        rw [bodyStep_waiting hs hawait hanswers] at h
        cases h
      | cons answer answers =>
        rw [bodyStep_await rt hs hawait hanswers] at h
        obtain rfl := Sum.inl.inj h
        have hdst : stmt.dst? = some result := dst_of_await hawait
        have hlt := hdecl.dst stmt hmem result hdst
        exact (setLocal_of_ne _ (Nat.ne_of_gt (Nat.lt_of_lt_of_le hlt hl))).trans (hp l hl)
  | none =>
    obtain hbb | hbb := Nat.lt_or_ge p.point.bb f.basicBlocks.length
    · rw [bodyStep_term rt hs hbb] at h
      split at h
      next bb s hexec =>
        obtain rfl := Sum.inl.inj h
        refine ((execTerm_frame hexec).2.2 l fun term hterm hc => ?_).trans (hp l hl)
        exact absurd (hdecl.term _ term hterm l hc) (by omega)
      next => cases h
    · rw [bodyStep_missing hbb] at h
      cases h

end Steps

/-- A frame between two polls, with what all polls so far have done and returned. -/
structure Polled (W : Type) where
  frame : Frame
  log : List Event
  trace : List Item
  answers : List (Word × World W)
  returned : List Val
  /-- The world in which the first poll began. -/
  began : Option (World W)

def Polled.fresh (frame : Frame) : Polled W := ⟨frame, [], [], [], [], none⟩

/-- A poll begins in any world: other tasks have run since the last one. -/
def Polled.entry (m : Polled W) (w : World W) : PollPoint W :=
  ⟨.entry, 0, ⟨⟨fun _ => .word 0, w, m.log⟩, m.frame, 0, m.trace, m.answers⟩⟩

def Polled.after (m : Polled W) (w : World W) (v : Val) (p : PollState W) : Polled W :=
  ⟨p.frame, p.state.log, p.trace, p.answers, m.returned ++ [v], some (m.began.getD w)⟩

/-- The polls of one frame, each with any behaviour of the future it polls. -/
inductive PollRun (rt : Runtime W) (mixed : List Cell → Val) (f : MirFunction)
    (points : List SmAwaitPoint) (code : Label → CodeBlock) (frame : Frame) : Polled W → Prop
  | fresh : PollRun rt mixed f points code frame (Polled.fresh frame)
  | poll {m : Polled W} {w : World W} {reply : Word → World W → Word × World W} {v : Val}
      {p : PollState W} (h : PollRun rt mixed f points code frame m)
      (hp : Yields (pollStep rt mixed f points reply code) (m.entry w) (.returned v p)) :
      PollRun rt mixed f points code frame (m.after w v p)

/-- The polls have done what the body does, have kept its locals, and have returned nothing but
`POLL_PENDING` before its end and nothing but its value from then on. -/
inductive Mirrors (rt : Runtime W) (f : MirFunction) (args : List Val) (m : Polled W) : Prop
  | fresh (hm : m.began = none) (hr : m.returned = [])
  | waiting {w : World W} {p : BodyPoint W} (hm : m.began = some w)
      (hp : Yields (bodyStep rt f) (bodyStart args w m.answers) (.waiting p))
      (hlog : m.log = p.point.state.log) (htrace : m.trace = p.trace)
      (hlocals : ∀ l < f.locals.length, m.frame (frameOff l) = ⟨p.point.state.locals l, 0⟩)
      (hr : ∀ v ∈ m.returned, v = .word pollPending)
  | done {w w' : World W} {v : Val} {i j : Nat} (hm : m.began = some w)
      (hp : Yields (bodyStep rt f) (bodyStart args w m.answers)
        (.ended (.returned v w' m.log) m.trace))
      (hr : m.returned = List.replicate i (.word pollPending) ++ List.replicate (j + 1) v)

def BodyPoint.inWorld (p : BodyPoint W) (w : World W) : BodyPoint W :=
  { p with point := ⟨p.point.bb, p.point.idx, ⟨p.point.state.locals, w, p.point.state.log⟩⟩ }

/-- The body waits at this statement for this future. -/
structure WaitsFor (rt : Runtime W) (f : MirFunction) (args : List Val) (m : Polled W) (w : World W)
    (p : BodyPoint W) (future : Val) : Prop where
  began : m.began = some w
  waiting : Yields (bodyStep rt f) (bodyStart args w m.answers) (.waiting p)
  future : ∃ stmt result op sub, (f.stmtsAt p.point.bb)[p.point.idx]? = some stmt ∧
    awaitOf stmt = some (result, op) ∧ op.local? = some sub ∧ future = p.point.state.locals sub

/-- The next poll runs the body: from its start, or on with a result. -/
inductive Resumes (rt : Runtime W) (f : MirFunction) (args : List Val) (m : Polled W) (w : World W)
    (reply : Word → World W → Word × World W) : World W → List (Word × World W) → Prop
  | first (hm : m.began = none) : Resumes rt f args m w reply w []
  | ready {w₀ : World W} {p : BodyPoint W} {future : Val} (h : WaitsFor rt f args m w₀ p future)
      (hr : (reply future.toWord w).1 ≠ pollPending) :
      Resumes rt f args m w reply w₀ (m.answers ++ [reply future.toWord w])

/-- The next poll runs nothing of the body: its future has no result yet, or it has ended. -/
inductive Rests (rt : Runtime W) (f : MirFunction) (args : List Val) (m : Polled W) (w : World W)
    (reply : Word → World W → Word × World W) : BodyEnd W → Prop
  | pending {w₀ : World W} {p : BodyPoint W} {future : Val} (h : WaitsFor rt f args m w₀ p future)
      (hr : (reply future.toWord w).1 = pollPending) :
      Rests rt f args m w reply (.waiting (p.inWorld (reply future.toWord w).2))
  | done {w₀ w' : World W} {v : Val} {log : List Event} {trace : List Item}
      (hm : m.began = some w₀)
      (hp : Yields (bodyStep rt f) (bodyStart args w₀ m.answers)
        (.ended (.returned v w' log) trace)) :
      Rests rt f args m w reply (.ended (.returned v w log) trace)

/-- The end of a poll that stands for the next await or the end of the body. -/
inductive SameEnd : PollEnd W → BodyEnd W → Prop
  | waiting {q : PollState W} {p : BodyPoint W} (hw : q.state.world = p.point.state.world)
      (hlog : q.state.log = p.point.state.log) (htrace : q.trace = p.trace) :
      SameEnd (.returned (.word pollPending) q) (.waiting p)
  | returned {q : PollState W} {v : Val} :
      SameEnd (.returned v q) (.ended (.returned v q.state.world q.state.log) q.trace)
  | faulted {q : PollState W} {e : Fault} :
      SameEnd (.faulted e q) (.ended (.faulted e q.state.world q.state.log) q.trace)

/-- The branches that the body takes on these answers are plain. -/
def PlainOn (rt : Runtime W) (f : MirFunction) (args : List Val) (w : World W)
    (answers : List (Word × World W)) : Prop :=
  ∀ q, Reaches (bodyStep rt f) (bodyStart args w answers) q → BranchPlain rt f q.point

def PlainSoFar (rt : Runtime W) (f : MirFunction) (args : List Val) (m : Polled W) : Prop :=
  ∀ w, m.began = some w → PlainOn rt f args w m.answers

/-- The polls of a frame simulate the body, over all runs whose branches are plain. -/
structure SmSimulates (rt : Runtime W) (mixed : List Cell → Val) (f : MirFunction)
    (points : List SmAwaitPoint) (code : Label → CodeBlock) (frame : Frame) (args : List Val) :
    Prop where
  mirrors : ∀ m, PollRun rt mixed f points code frame m → PlainSoFar rt f args m →
    Mirrors rt f args m
  next : ∀ m w reply, PollRun rt mixed f points code frame m → PlainSoFar rt f args m →
    (∃ w₀ answers, Resumes rt f args m w reply w₀ answers) ∨ ∃ o, Rests rt f args m w reply o
  runs : ∀ m w reply w₀ answers, PollRun rt mixed f points code frame m →
    Resumes rt f args m w reply w₀ answers → PlainOn rt f args w₀ answers →
    (∀ e, Yields (pollStep rt mixed f points reply code) (m.entry w) e →
      ∃ o, Yields (bodyStep rt f) (bodyStart args w₀ answers) o ∧ SameEnd e o) ∧
    ∀ o, Yields (bodyStep rt f) (bodyStart args w₀ answers) o →
      ∃ e, Yields (pollStep rt mixed f points reply code) (m.entry w) e ∧ SameEnd e o
  rests : ∀ m w reply o, PollRun rt mixed f points code frame m → PlainSoFar rt f args m →
    Rests rt f args m w reply o →
    ∃ e, Yields (pollStep rt mixed f points reply code) (m.entry w) e ∧ SameEnd e o

end AsyncSm

end Olive
