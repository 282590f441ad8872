import Mathlib.Tactic.IntervalCases
import Olive.AssignedPaths
import Olive.Gvn
import Olive.OperandMap

namespace Olive

open Lockstep GlobalValueNumbering

variable {W : Type} {rt : Runtime W} {f : MirFunction} {decls : List LocalDecl}

/-- The variable of `existing` holds the value that `expr` has now. -/
def HoldsValue (rt : Runtime W) (decls : List LocalDecl) (s : State W) (expr : Rvalue)
    (existing : Local) : Prop :=
  ∃ v, (lower decls expr).eval rt (rt.evalOperands s.locals expr.inputs).1 s.world = .ok (v, s.world) ∧
    s.locals existing = rt.fit (tyOf decls existing) v

section Map

variable {map : ValueMap} {stmt : Statement} {e : Rvalue × Local}

theorem isCandidate_inputs {rval : Rvalue} (h : isCandidate f rval = true) :
    isOperation rval = true ∧ (∀ op ∈ rval.inputs, op.moved? = none) := by
  simp only [isCandidate, Bool.and_eq_true, Bool.not_eq_true'] at h
  obtain ⟨⟨hop, hmoves⟩, -⟩ := h
  refine ⟨hop, ?_⟩
  have hinputs : rval.inputs = rval.operands := by
    unfold isOperation at hop
    split at hop
    next => rfl
    next => rfl
    next => cases hop
  intro op hmem
  have hall := List.any_eq_false.mp hmoves op (hinputs ▸ hmem)
  simpa using hall

/-- A cached expression survives a statement that does not assign what it reads, or is the one the
statement assigns. -/
theorem mem_numberStmt (h : e ∈ numberStmt f map stmt) :
    (∀ dest, stmt.dst? = some dest → usesLocal e.1 dest = false) ∧
      (e ∈ map ∨ stmt.kind = .assign e.2 e.1 ∧ isCandidate f e.1 = true ∧ loopAssignCounts f e.2 = 1) := by
  have hnoted := List.mem_of_mem_filter h
  cases hk : stmt.kind with
  | assign dest rval =>
    have hdst : stmt.dst? = some dest := Statement.dst?_eq_some.mpr ⟨rval, hk⟩
    have hcase : e ∈ noteAssign f map dest rval := by
      rw [hk] at hnoted
      cases rval with
      | call func args => cases hnoted
      | _ => exact hnoted
    obtain ⟨hmem, huses⟩ := List.mem_filter.mp hcase
    refine ⟨?_, ?_⟩
    · intro d hd
      obtain rfl := Option.some.inj (hdst.symm.trans hd)
      simpa using huses
    · split at hmem
      next hnew =>
        rcases List.mem_cons.mp hmem with rfl | hold
        · exact .inr ⟨rfl, hnew.1, hnew.2.2⟩
        · exact .inl hold
      next => exact .inl hmem
  | _ =>
    refine ⟨fun d hd => ?_, .inl ?_⟩
    · rw [Statement.dst?, hk] at hd
      cases hd
    · rw [hk] at hnoted
      first | exact hnoted | exact List.mem_of_mem_filter hnoted

theorem filter_length_le_counts (p : Statement → Bool) (loops : List BasicBlockId)
    (blocks : List BasicBlock) (n : Nat) :
    ((blocks.flatMap (·.statements)).filter p).length ≤
      ((blocks.zipIdx n).map fun block => (block.1.statements.filter p).length *
        (if block.2 ∈ loops then 2 else 1)).sum := by
  induction blocks generalizing n with
  | nil => exact Nat.le_refl _
  | cons block blocks ih =>
    have hrest := ih (n + 1)
    have hweight : (block.statements.filter p).length ≤ (block.statements.filter p).length *
        (if n ∈ loops then 2 else 1) := Nat.le_mul_of_pos_right _ (by split <;> decide)
    simp only [List.flatMap_cons, List.filter_append, List.length_append, List.zipIdx_cons,
      List.map_cons, List.sum_cons]
    omega

/-- A local counted once is assigned in one place. -/
theorem counted_once_place {l : Local} (h : loopAssignCounts f l = 1) {b b' : BasicBlockId} {i i' : Nat}
    {stmt stmt' : Statement} (hs : (f.stmtsAt b)[i]? = some stmt) (hd : stmt.dst? = some l)
    (hs' : (f.stmtsAt b')[i']? = some stmt') (hd' : stmt'.dst? = some l) : b = b' ∧ i = i' := by
  have hwrites : ∀ st : Statement, st.dst? = some l → st.writes? = some l := by
    intro st hst
    rw [Statement.writes?, hst, Option.some_or]
  have hle := filter_length_le_counts (fun st => decide (st.writes? = some l)) (loopBlocks f)
    f.basicBlocks 0
  have hone : (f.statements.filter fun st => decide (st.writes? = some l)).length ≤ 1 :=
    hle.trans (Nat.le_of_eq h)
  exact stmt_place_unique hone hs (decide_eq_true (hwrites _ hd)) hs' (decide_eq_true (hwrites _ hd'))

/-- The cached locals were assigned before in the same block, and are assigned nowhere else. -/
theorem mapAt_assigned {bb : BasicBlockId} {idx : Nat} (h : e ∈ mapAt f bb idx) :
    isCandidate f e.1 = true ∧ loopAssignCounts f e.2 = 1 ∧
      ∃ i < idx, ∃ stmt, (f.stmtsAt bb)[i]? = some stmt ∧ stmt.dst? = some e.2 := by
  induction idx with
  | zero => cases h
  | succ idx ih =>
    cases hs : (f.stmtsAt bb)[idx]? with
    | none =>
      have hlen := List.getElem?_eq_none_iff.mp hs
      have hsame : mapAt f bb (idx + 1) = mapAt f bb idx := by
        rw [mapAt, mapAt, List.take_of_length_le (by omega), List.take_of_length_le hlen]
      obtain ⟨hc, hone, i, hi, hrest⟩ := ih (hsame ▸ h)
      exact ⟨hc, hone, i, by omega, hrest⟩
    | some stmt =>
      rw [mapAt_succ hs] at h
      rcases (mem_numberStmt h).2 with hold | ⟨hk, hc, hone⟩
      · obtain ⟨hc, hone, i, hi, hrest⟩ := ih hold
        exact ⟨hc, hone, i, by omega, hrest⟩
      · exact ⟨hc, hone, idx, Nat.lt_succ_self _, stmt, hs, Statement.dst?_eq_some.mpr ⟨_, hk⟩⟩

end Map

section Values

variable {s s' : State W} {expr : Rvalue} {existing : Local}

theorem usesLocal_of_input {op : Operand} {l : Local} (h : isOperation expr = true)
    (hop : op ∈ expr.inputs) (hl : op.local? = some l) : usesLocal expr l = true := by
  unfold isOperation at h
  split at h
  next b lhs rhs =>
    rcases List.mem_pair.mp hop with rfl | rfl <;> simp [usesLocal, hl]
  next u arg =>
    rw [List.mem_singleton.mp hop] at hl
    simp [usesLocal, hl]
  next => cases h

/-- A cached expression has the same operands where its locals are unchanged. -/
theorem evalOperands_candidate (hc : isCandidate f expr = true)
    (hag : ∀ l, usesLocal expr l = true → s'.locals l = s.locals l) :
    (rt.evalOperands s'.locals expr.inputs).1 = (rt.evalOperands s.locals expr.inputs).1 := by
  obtain ⟨hop, -⟩ := isCandidate_inputs hc
  apply evalOperands_congr
  intro op hmem l hl
  exact hag l (usesLocal_of_input hop hmem hl)

theorem HoldsValue.keep (h : HoldsValue rt decls s expr existing)
    (hc : isCandidate f expr = true) (hp : (lower decls expr).isPure = true)
    (hsame : s'.locals existing = s.locals existing)
    (hag : ∀ l, usesLocal expr l = true → s'.locals l = s.locals l) :
    HoldsValue rt decls s' expr existing := by
  obtain ⟨v, hv, heq⟩ := h
  refine ⟨v, ?_, hsame.trans heq⟩
  rw [evalOperands_candidate hc hag]
  exact eval_pure hp hv s'.world

end Values

section Runs

/-- Every cached operation that codegen emits inline has its value in its local. -/
def Numbered (rt : Runtime W) (f : MirFunction) (p : Point W) : Prop :=
  ∀ e ∈ mapAt f p.bb p.idx, (lower f.locals e.1).isPure = true →
    HoldsValue rt f.locals p.state e.1 e.2

/-- At `p`, a replaced operation is emitted inline and its value fits the local that replaces it, or
gives again the word that this local holds without touching memory; and what is cached past `p` is
not moved out or dropped. -/
structure ValuesFit (rt : Runtime W) (f : MirFunction) (p : Point W) : Prop where
  replaced : ∀ stmt dest rval existing, (f.stmtsAt p.bb)[p.idx]? = some stmt →
    stmt.kind = .assign dest rval → replaces? f (mapAt f p.bb p.idx) dest rval = some existing →
    (lower f.locals rval).isPure = true ∧
        (∀ v, (lower f.locals rval).eval rt (rt.evalOperands p.state.locals rval.inputs).1
            p.state.world = .ok (v, p.state.world) → rt.fit (tyOf f.locals existing) v = v) ∨
      (lower f.locals rval).eval rt (rt.evalOperands p.state.locals rval.inputs).1 p.state.world =
        .ok (p.state.locals existing, p.state.world)
  kept : ∀ stmt e, (f.stmtsAt p.bb)[p.idx]? = some stmt → e ∈ mapAt f p.bb (p.idx + 1) →
    (lower f.locals e.1).isPure = true → ∀ l, l = e.2 ∨ usesLocal e.1 l = true →
      l ∉ stmt.zeroes f.locals

/-- An operation without moves changes its destination and what it does to memory. -/
theorem execStmt_candidate {s : State W} {stmt : Statement} {dest : Local} {rval : Rvalue}
    (hk : stmt.kind = .assign dest rval) (hc : isCandidate f rval = true) :
    rt.execStmt decls s stmt =
      ((lower decls rval).eval rt (rt.evalOperands s.locals rval.inputs).1 s.world).map fun r =>
        ⟨setLocal s.locals dest (rt.fit (tyOf decls dest) r.1), r.2, s.log⟩ := by
  obtain ⟨hop, hmoves⟩ := isCandidate_inputs hc
  have hcall : ∀ vals, Runtime.callEvents rval vals = [] := by
    intro vals
    cases rval with
    | call func args => cases hop
    | _ => rfl
  have hlocals : (rt.evalOperands s.locals rval.inputs).2 = s.locals := by
    rw [evalOperands_of_not_moved _ _ hmoves]
  simp only [Runtime.execStmt, hk, Runtime.runAssign, hlocals, hcall, List.append_nil]

/-- After an operation is computed inline, its local holds its value. -/
theorem holdsValue_of_assign {s' s : State W} {stmt : Statement} {dest : Local} {rval : Rvalue}
    (hk : stmt.kind = .assign dest rval) (hc : isCandidate f rval = true)
    (hp : (lower decls rval).isPure = true) (hdest : usesLocal rval dest = false)
    (hrun : rt.execStmt decls s stmt = .ok s') : HoldsValue rt decls s' rval dest := by
  rw [execStmt_candidate hk hc] at hrun
  cases heval : (lower decls rval).eval rt (rt.evalOperands s.locals rval.inputs).1 s.world with
  | error err => simp [heval, Except.map] at hrun
  | ok r =>
    simp only [heval, Except.map, Except.ok.injEq] at hrun
    have hag : ∀ l, usesLocal rval l = true → s'.locals l = s.locals l := by
      intro l hl
      have hne : l ≠ dest := by
        rintro rfl
        rw [hdest] at hl
        cases hl
      rw [← hrun]
      exact setLocal_of_ne _ hne
    refine ⟨r.1, ?_, ?_⟩
    · rw [evalOperands_candidate hc hag]
      exact eval_pure hp heval s'.world
    · rw [← hrun]
      exact setLocal_self _ _ _

theorem Numbered.step {p q : Point W} (h : Numbered rt f p) (hfit : ValuesFit rt f p)
    (hstep : rt.step f p = .inl q) : Numbered rt f q := by
  intro e he hpure
  rcases step_place hstep with ⟨stmt, hs, hbb, hidx, hrun⟩ | ⟨-, -, hidx, -⟩
  · rw [hbb, hidx] at he
    have hkept := hfit.kept stmt e hs he hpure
    have hnoted := he
    rw [mapAt_succ hs] at hnoted
    obtain ⟨huses, hcase⟩ := mem_numberStmt hnoted
    rcases hcase with hold | ⟨hk, hc, -⟩
    · obtain ⟨hc, hone, i, hi, st, hst, hdst⟩ := mapAt_assigned hold
      have hother : stmt.dst? ≠ some e.2 := by
        intro hd
        have hplace := (counted_once_place hone hst hdst hs hd).2
        omega
      have hread : ∀ l, usesLocal e.1 l = true → stmt.dst? ≠ some l := by
        intro l hl hd
        rw [huses l hd] at hl
        cases hl
      refine (h e hold hpure).keep hc hpure ?_ ?_
      · exact execStmt_keeps hrun hother (hkept _ (.inl rfl))
      · exact fun l hl => execStmt_keeps hrun (hread l hl) (hkept l (.inr hl))
    · exact holdsValue_of_assign hk hc hpure (huses e.2 (Statement.dst?_eq_some.mpr ⟨_, hk⟩)) hrun
  · rw [hidx] at he
    cases he

theorem replaces?_eq_some {map : ValueMap} {dest existing : Local} {rval : Rvalue}
    (h : replaces? f map dest rval = some existing) :
    isCandidate f rval = true ∧ (rval, existing) ∈ map := by
  unfold replaces? at h
  split at h
  next hc =>
    obtain ⟨hlookup, -⟩ := Option.filter_eq_some_iff.mp h
    obtain ⟨e, hfind, rfl⟩ := Option.map_eq_some_iff.mp hlookup
    have hsame : e.1.sameExpr rval = true := by
      simpa using List.find?_some hfind
    exact ⟨hc, Rvalue.eq_of_sameExpr hsame ▸ List.mem_of_find?_eq_some hfind⟩
  next => cases h

/-- A replaced operation gives the word of the local that replaces it. -/
theorem execStmt_replaced {p : Point W} (h : Numbered rt f p) (hfit : ValuesFit rt f p)
    {stmt : Statement} (hs : (f.stmtsAt p.bb)[p.idx]? = some stmt) :
    rt.execStmt f.locals p.state (replaceStmt f (mapAt f p.bb p.idx) stmt) =
      rt.execStmt f.locals p.state stmt := by
  unfold replaceStmt
  split
  next dest rval hk =>
    split
    next existing hrep =>
      obtain ⟨hc, hmem⟩ := replaces?_eq_some hrep
      have heval : (lower f.locals rval).eval rt (rt.evalOperands p.state.locals rval.inputs).1
          p.state.world = .ok (p.state.locals existing, p.state.world) := by
        rcases hfit.replaced stmt dest rval existing hs hk hrep with ⟨hpure, hwide⟩ | heval
        · obtain ⟨v, hv, heq⟩ := h _ hmem hpure
          rw [hv, heq, hwide v hv]
        · exact heval
      have hcopy : { stmt with kind := .assign dest (.use (.copy existing)) }.kind =
          .assign dest (.use (.copy existing)) := rfl
      rw [execStmt_copy hcopy, execStmt_candidate hk hc, heval]
      rfl
    next => rfl
  next => rfl

theorem step_gvn {p : Point W} (h : Numbered rt f p) (hfit : ValuesFit rt f p) :
    rt.step (gvn f) p = rt.step f p := by
  have hlocals : (gvn f).locals = f.locals := rfl
  unfold Runtime.step
  cases hb : f.basicBlocks[p.bb]? with
  | none =>
    have hnone : (gvn f).basicBlocks[p.bb]? = none := by simp [gvn, hb]
    rw [hnone]
  | some block =>
    rw [gvn_block hb, hlocals]
    simp only [gvn_stmt hb]
    cases hs : block.statements[p.idx]? with
    | none => rfl
    | some stmt =>
      have hat : (f.stmtsAt p.bb)[p.idx]? = some stmt := by rw [stmtsAt_of_block hb, hs]
      simp only [Option.map_some, execStmt_replaced h hfit hat]

/-- From a state at the entry, every reached point has the cached values in their locals. -/
theorem numbered_of_reaches {s : State W}
    (hfit : ∀ p, Reaches (rt.step f) ⟨0, 0, s⟩ p → ValuesFit rt f p) {p : Point W}
    (h : Reaches (rt.step f) ⟨0, 0, s⟩ p) : Numbered rt f p := by
  let P := fun p : Point W => Reaches (rt.step f) ⟨0, 0, s⟩ p ∧ Numbered rt f p
  have hstart : P ⟨0, 0, s⟩ := by
    refine ⟨Reaches.refl _, ?_⟩
    intro e he
    cases he
  refine (@Reaches.invariant _ _ (rt.step f) _ _ P ?_ h hstart).2
  intro p q hp hq
  exact ⟨hp.1.tail hq, hp.2.step (hfit p hp.1) hq⟩

/-- Common-subexpression elimination changes nothing; global value numbering changes nothing in a run
whose replaced operations are emitted inline, on cached locals that are not moved out or dropped: the
run goes through the same points, with the same values in the locals and the same memory, to the same
end. -/
theorem cse_gvn_preserve :
    cse f = f ∧ ∀ s : State W, (∀ p, Reaches (rt.step f) ⟨0, 0, s⟩ p → ValuesFit rt f p) →
      (∀ p, Reaches (rt.step f) ⟨0, 0, s⟩ p ↔ Reaches (rt.step (gvn f)) ⟨0, 0, s⟩ p) ∧
      ∀ o, Yields (rt.step f) ⟨0, 0, s⟩ o ↔ Yields (rt.step (gvn f)) ⟨0, 0, s⟩ o := by
  refine ⟨cse_eq_self f, ?_⟩
  intro s hfit
  have hstep : ∀ p, Reaches (rt.step f) ⟨0, 0, s⟩ p → rt.step (gvn f) p = rt.step f p :=
    fun p hp => step_gvn (numbered_of_reaches hfit hp) (hfit p hp)
  exact ⟨fun p => reaches_iff_of_step_eq hstep, fun o => yields_iff_of_step_eq hstep⟩

end Runs

/-- `_2 = _1 * 2`, `_3 = _1 * 2` and `_0 = _2 + _3`. -/
def doublesTwice : MirFunction :=
  plainFunction "doubles_twice" 1 [.int, .int, .int, .int]
    [⟨[plainStmt (.assign 2 (.binaryOp .mul (.copy 1) (.const (.int 2)))),
      plainStmt (.assign 3 (.binaryOp .mul (.copy 1) (.const (.int 2)))),
      plainStmt (.assign 0 (.binaryOp .add (.copy 2) (.copy 3)))], plainTerm .ret⟩]

theorem doublesTwice_valuesFit (p : Point Unit) : ValuesFit plainRuntime doublesTwice p := by
  have hstmts : ∀ stmt, (doublesTwice.stmtsAt p.bb)[p.idx]? = some stmt →
      stmt.zeroes doublesTwice.locals = [] ∧ ∀ dest rval, stmt.kind = .assign dest rval →
        (lower doublesTwice.locals rval).isPure = true := by
    intro stmt hs
    have hmem := mem_statements (List.mem_of_getElem? hs)
    simp only [doublesTwice, plainFunction, MirFunction.statements, List.flatMap_cons,
      List.flatMap_nil, List.append_nil, List.mem_cons, List.not_mem_nil, or_false] at hmem
    rcases hmem with rfl | rfl | rfl
    all_goals
      refine ⟨by decide, ?_⟩
      intro dest rval hk
      cases hk
      decide
  refine ⟨?_, ?_⟩
  · intro stmt dest rval existing hs hk _
    exact .inl ⟨(hstmts stmt hs).2 dest rval hk, fun v _ => by unfold Runtime.fit; split <;> rfl⟩
  · intro stmt e hs _ _ l _
    rw [(hstmts stmt hs).1]
    exact List.not_mem_nil

theorem cse_gvn_preserve_doublesTwice :
    Yields (plainRuntime.step doublesTwice) (startPoint [.word 5] emptyWorld)
        (.returned (.word 20) emptyWorld []) ↔
      Yields (plainRuntime.step (gvn doublesTwice)) (startPoint [.word 5] emptyWorld)
        (.returned (.word 20) emptyWorld []) :=
  (cse_gvn_preserve.2 _ fun p _ => doublesTwice_valuesFit p).2 _

/-- The strings of a heap: the next free address, and what was allocated and not freed yet. -/
structure StringHeap where
  next : Word
  live : List Word
  /-- Some string was freed that was not allocated at the time. -/
  misused : Bool
  deriving DecidableEq

/-- `+` on two strings allocates a fresh one, and a drop frees it. -/
def stringRuntime : Runtime StringHeap where
  address := fun _ => 0
  narrow := fun _ v => v
  rvalue := fun _ rval classes _ w =>
    match rval, classes with
    | .binaryOp .add _ _, [.other .str, .other .str] =>
      .ok (.word w.rest.next, { w with
        rest := ⟨w.rest.next + 1, w.rest.next :: w.rest.live, w.rest.misused⟩ })
    | _, _ => .error .trap
  store := fun _ _ _ _ => .error .trap
  free := fun _ v w =>
    if v.toWord = 0 then w
    else { w with rest := ⟨w.rest.next, w.rest.live.erase v.toWord,
      w.rest.misused || !w.rest.live.contains v.toWord⟩ }
  stale := fun _ _ _ _ => false
  pyToInt := fun v _ => v.toWord

def emptyHeap : World StringHeap := ⟨fun _ => none, ⟨1, [], false⟩⟩

/-- Every string is freed once, and all of them in the end. -/
def FreesOnce (f : MirFunction) (args : List Val) : Prop :=
  (∀ p, Reaches (stringRuntime.step f) (startPoint args emptyHeap) p →
    p.state.world.rest.misused = false) ∧
  ∀ v w log, Yields (stringRuntime.step f) (startPoint args emptyHeap) (.returned v w log) →
    w.rest.misused = false ∧ w.rest.live = []

/-- `_1 = "a" + "b"` and `_2 = "a" + "b"`, both dropped. -/
def concatsTwice : MirFunction :=
  plainFunction "concats_twice" 0 [.int, .str, .str]
    [⟨[plainStmt (.assign 1 (.binaryOp .add (.const (.str "a")) (.const (.str "b")))),
      plainStmt (.assign 2 (.binaryOp .add (.const (.str "a")) (.const (.str "b")))),
      plainStmt (.drop 1), plainStmt (.drop 2),
      plainStmt (.assign 0 (.use (.const (.int 0))))], plainTerm .ret⟩]

theorem concatsTwice_freesOnce : FreesOnce concatsTwice [] := by
  have hend : runs (stringRuntime.step concatsTwice) 6 (startPoint [] emptyHeap) =
      .inr (.returned (.word 0) ⟨fun _ => none, ⟨3, [], false⟩⟩ []) := rfl
  refine ⟨?_, ?_⟩
  · intro p hp
    obtain ⟨n, hn, hrun⟩ := hp.lt_end hend
    interval_cases n <;> cases hrun <;> rfl
  · intro v w log hy
    obtain ⟨m, hm⟩ := hy
    cases runs_end_unique hend hm
    exact ⟨rfl, rfl⟩

theorem gvn_frees_twice : FreesOnce concatsTwice [] ∧ ¬FreesOnce (gvn concatsTwice) [] := by
  refine ⟨concatsTwice_freesOnce, ?_⟩
  intro h
  have hend : runs (stringRuntime.step (gvn concatsTwice)) 6 (startPoint [] emptyHeap) =
      .inr (.returned (.word 0) ⟨fun _ => none, ⟨2, [], true⟩⟩ []) := rfl
  have hmisused := (h.2 _ _ _ ⟨6, hend⟩).1
  cases hmisused

end Olive
