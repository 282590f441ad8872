import Olive.AsyncSmPolls

/-! The polls of a frame follow the body. -/

namespace Olive

namespace AsyncSm

open Lockstep

/-- What the state machine needs of a function: every variable fills one slot of the frame, and the
results of awaits and the value returned are words. -/
structure Translatable (f : MirFunction) (points : List SmAwaitPoint) : Prop where
  analyzed : analyzeAsyncSm f = some points
  declared : Declared f
  oneSlot : OneSlot f
  results : ∀ ap ∈ points, clType (tyOf f.locals ap.resultLocal) = .i64
  returned : clType (tyOf f.locals 0) = .i64
  /-- A `Vec` holds fewer than 2^63 elements. -/
  few : points.length < 2 ^ 63

theorem not_narrow_of_i64 {ty : OliveType} (h : clType ty = .i64) : ty.isNarrow = false := by
  cases ty <;> first | rfl | cases h

section Code

variable {f : MirFunction} {points : List SmAwaitPoint}

/-- What a segment does after its statements. -/
def segTail (f : MirFunction) (points : List SmAwaitPoint) (bb : BasicBlockId) (j : Nat) :
    List Inst × Exit :=
  match (bbAwaits points bb)[j]? with
  | some (ap, k) =>
    (spills f ++ [.storeSub ap.subFutureLocal, .storeState (BitVec.ofNat 64 (k + 1))], .retPending)
  | none => translateTerm (f.terminatorAt bb)

theorem translateSeg_eq (bb : BasicBlockId) (j : Nat) : translateSeg f points bb j =
    ⟨(((f.stmtsAt bb).take (segStop f points bb j)).drop (segStart points bb j)).map .stmt ++
      (segTail f points bb j).1, (segTail f points bb j).2⟩ := by
  cases hap : (bbAwaits points bb)[j]? with
  | none => simp only [translateSeg, segTail, segStop, hap, List.take_length]
  | some p => simp only [translateSeg, segTail, segStop, hap]

theorem segStop_le (h : analyzeAsyncSm f = some points) {bb : BasicBlockId} (hbb : Visited f bb)
    (j : Nat) : segStop f points bb j ≤ (f.stmtsAt bb).length := by
  unfold segStop
  split
  next ap k hap =>
    obtain ⟨stmt, sub, hs, _⟩ := stmt_of_point h hbb hap
    exact Nat.le_of_lt (List.getElem?_eq_some_iff.mp hs).1
  next => exact le_rfl

/-- The instruction of a statement in a segment. -/
theorem seg_inst {bb : BasicBlockId} {j i idx : Nat} (hidx : idx = segStart points bb j + i)
    (hlt : idx < segStop f points bb j) {stmt : Statement}
    (hs : (f.stmtsAt bb)[idx]? = some stmt) :
    (translateSeg f points bb j).insts[i]? = some (.stmt stmt) := by
  have hget : (((f.stmtsAt bb).take (segStop f points bb j)).drop (segStart points bb j))[i]? =
      some stmt := by
    rw [List.getElem?_drop, ← hidx, List.getElem?_take_of_lt hlt, hs]
  rw [translateSeg_eq, List.getElem?_append_left]
  · rw [List.getElem?_map, hget]
    rfl
  · rw [List.length_map]
    exact (List.getElem?_eq_some_iff.mp hget).1

/-- What is left at the end of the statements of a segment. -/
theorem seg_drop (h : analyzeAsyncSm f = some points) {bb : BasicBlockId} (hbb : Visited f bb)
    {j i : Nat} (hi : segStart points bb j + i = segStop f points bb j) :
    (translateSeg f points bb j).insts.drop i = (segTail f points bb j).1 := by
  have hlen : ((((f.stmtsAt bb).take (segStop f points bb j)).drop
      (segStart points bb j)).map Inst.stmt).length = i := by
    have := segStop_le h hbb j
    simp only [List.length_map, List.length_drop, List.length_take]
    omega
  rw [translateSeg_eq]
  exact List.drop_left' hlen

end Code

section Segments

variable {W : Type} {rt : Runtime W} {mixed : List Cell → Val} {f : MirFunction}
  {points : List SmAwaitPoint} {reply : Word → World W → Word × World W}

/-- A poll in segment `j` of a block stands where the body stands. -/
structure InSeg (f : MirFunction) (points : List SmAwaitPoint) (answers : List (Word × World W))
    (j : Nat) (p : PollPoint W) (q : BodyPoint W) : Prop where
  label : p.label = .seg q.point.bb j
  seg : j ≤ (bbAwaits points q.point.bb).length
  place : q.point.idx = segStart points q.point.bb j + p.idx
  within : q.point.idx ≤ segStop f points q.point.bb j
  visited : Visited f q.point.bb
  state : p.poll.state = q.point.state
  trace : p.poll.trace = q.trace
  none_left : q.answers = []
  answers : p.poll.answers = answers

/-- A poll has ended where the body has, and has left the frame ready for the next one. -/
inductive Parked (f : MirFunction) (points : List SmAwaitPoint) (answers : List (Word × World W)) :
    PollEnd W → BodyEnd W → Prop
  | waiting {p : PollState W} {q : BodyPoint W} {j k : Nat} {ap : SmAwaitPoint}
      (hap : (bbAwaits points q.point.bb)[j]? = some (ap, k)) (hidx : q.point.idx = ap.stmtIdx)
      (hvisited : Visited f q.point.bb) (hq : q.answers = [])
      (hstate : p.frame 0 = ⟨.word (BitVec.ofNat 64 (k + 1)), 0⟩)
      (hsub : p.frame 1 = ⟨q.point.state.locals ap.subFutureLocal, 0⟩)
      (hholds : Holds f p.frame q.point.state.locals) (hp : p.state = q.point.state)
      (htrace : p.trace = q.trace) (hanswers : p.answers = answers) :
      Parked f points answers (.returned (.word pollPending) p) (.waiting q)
  | done {p : PollState W} {v : Val} (hstate : p.frame 0 = ⟨.word (-1), 0⟩)
      (hcached : p.frame 1 = ⟨v, 0⟩) (hanswers : p.answers = answers) :
      Parked f points answers (.returned v p) (.ended (.returned v p.state.world p.state.log) p.trace)
  | faulted {p : PollState W} {e : Fault} :
      Parked f points answers (.faulted e p) (.ended (.faulted e p.state.world p.state.log) p.trace)

theorem Parked.sameEnd {answers : List (Word × World W)} {e : PollEnd W} {o : BodyEnd W}
    (h : Parked f points answers e o) : SameEnd e o := by
  cases h with
  | waiting _ _ _ _ _ _ _ hp htrace _ => exact .waiting (by rw [hp]) (by rw [hp]) htrace
  | done => exact .returned
  | faulted => exact .faulted

/-- The relation that carries a whole stretch of the body, from `start` on. -/
def Along (rt : Runtime W) (f : MirFunction) (points : List SmAwaitPoint)
    (answers : List (Word × World W)) (start : BodyPoint W) (p : PollPoint W) (q : BodyPoint W) :
    Prop :=
  Reaches (bodyStep rt f) start q ∧ ∃ j, InSeg f points answers j p q

variable {answers : List (Word × World W)} {start : BodyPoint W}

/-- A stretch goes on in the first segment of the block jumped to. -/
theorem Along.enter {p : PollPoint W} {q : BodyPoint W} {j : Nat}
    (hreach : Reaches (bodyStep rt f) start q) (h : InSeg f points answers j p q)
    {locals : Local → Val} {target : BasicBlockId}
    (htarget : target ∈ f.successors q.point.bb)
    (hstep : bodyStep rt f q = .inl ⟨⟨target, 0, ⟨locals, q.point.state.world, q.point.state.log⟩⟩,
      q.answers, q.trace ++ [.branch target]⟩) :
    ∃ a' b', Sum.inl (enter p.poll locals target) = (Sum.inl a' : PollPoint W ⊕ PollEnd W) ∧
      bodyStep rt f q = .inl b' ∧ Along rt f points answers start a' b' := by
  refine ⟨_, _, rfl, hstep, hreach.tail hstep, 0, ?_⟩
  exact {
    label := rfl
    seg := Nat.zero_le _
    place := rfl
    within := Nat.zero_le _
    visited := h.visited.succ htarget
    state := by simp only [AsyncSm.enter, PollState.setLocals, h.state]
    trace := by simp only [AsyncSm.enter, PollState.setLocals, h.trace]
    none_left := h.none_left
    answers := h.answers }

/-- One statement. -/
theorem matched_stmt (h : analyzeAsyncSm f = some points) {p : PollPoint W} {q : BodyPoint W} {j : Nat}
    (hreach : Reaches (bodyStep rt f) start q) (hseg : InSeg f points answers j p q)
    (hlt : q.point.idx < segStop f points q.point.bb j) :
    Matched (pollStep rt mixed f points reply (translateBlock f points)) (bodyStep rt f)
      (Along rt f points answers start) (Parked f points answers) p q := by
  obtain ⟨stmt, hs⟩ : ∃ stmt, (f.stmtsAt q.point.bb)[q.point.idx]? = some stmt :=
    ⟨_, List.getElem?_eq_getElem (Nat.lt_of_lt_of_le hlt (segStop_le h hseg.visited j))⟩
  have hawait : awaitOf stmt = none := not_await_of_seg h hseg.visited hseg.seg
    (by rw [hseg.place]; exact Nat.le_add_right _ _) hlt hs
  have hinst : (translateBlock f points p.label).insts[p.idx]? = some (.stmt stmt) := by
    rw [hseg.label]
    exact seg_inst hseg.place hlt hs
  have hbody := bodyStep_stmt rt hs hawait
  apply Matched.one
  simp only [pollStep, hinst, Inst.exec, hseg.state]
  cases hexec : rt.execStmt f.locals q.point.state stmt with
  | ok s =>
    rw [hexec] at hbody
    refine .inl ⟨_, _, rfl, hbody, hreach.tail hbody, j, ?_⟩
    exact {
      label := hseg.label
      seg := hseg.seg
      place := by rw [hseg.place, Nat.add_assoc]
      within := hlt
      visited := hseg.visited
      state := rfl
      trace := by rw [hseg.trace]
      none_left := hseg.none_left
      answers := hseg.answers }
  | error e =>
    rw [hexec] at hbody
    refine .inr ⟨_, _, rfl, hbody, ?_⟩
    rw [← hseg.state, ← hseg.trace]
    exact .faulted

/-- The end of a segment at an await: the frame is filled and the poll returns. -/
theorem matched_await (ht : Translatable f points) {p : PollPoint W} {q : BodyPoint W} {j k : Nat}
    {ap : SmAwaitPoint} (hseg : InSeg f points answers j p q)
    (hap : (bbAwaits points q.point.bb)[j]? = some (ap, k))
    (hidx : q.point.idx = segStop f points q.point.bb j) :
    Matched (pollStep rt mixed f points reply (translateBlock f points)) (bodyStep rt f)
      (Along rt f points answers start) (Parked f points answers) p q := by
  have hstop := segStop_await (f := f) hap
  obtain ⟨stmt, sub, hs, hawait, _⟩ := stmt_of_point ht.analyzed hseg.visited hap
  have hbody : bodyStep rt f q = .inr (.waiting q) := by
    rw [← hstop, ← hidx] at hs
    exact bodyStep_waiting hs hawait hseg.none_left
  obtain ⟨label, idx, poll⟩ := p
  obtain rfl : label = _ := hseg.label
  have hdrop : (translateBlock f points (.seg q.point.bb j)).insts.drop idx = spills f ++
      [.storeSub ap.subFutureLocal, .storeState (BitVec.ofNat 64 (k + 1))] := by
    have hd := seg_drop ht.analyzed hseg.visited (i := idx) (by rw [← hseg.place, hidx])
    simp only [segTail, hap] at hd
    exact hd
  obtain ⟨frame, hspill, hholds⟩ :=
    execAll_spills rt mixed reply ht.oneSlot poll
  let frame' := store (store frame 1 1 (poll.state.locals ap.subFutureLocal)) 0 1
    (.word (BitVec.ofNat 64 (k + 1)))
  have hexec : execAll rt mixed f reply (spills f ++
      [.storeSub ap.subFutureLocal, .storeState (BitVec.ofNat 64 (k + 1))]) poll =
      .ok { poll with frame := frame' } := by
    rw [execAll_append hspill]
    have hroom : 1 + 1 ≤ f.locals.length + 2 := by omega
    refine (execAll_cons (q := { poll with
      frame := store frame 1 1 (poll.state.locals ap.subFutureLocal) }) ?_).trans rfl
    simp only [Inst.exec, storeVar, ht.oneSlot ap.subFutureLocal, hroom, if_true]
  obtain ⟨t, hruns, hexit⟩ := reaches_exit points hdrop hexec
  have hret : (translateBlock f points (.seg q.point.bb j)).exit = .retPending := by
    rw [translateBlock, translateSeg_eq]
    simp only [segTail, hap]
  rw [hret] at hexit
  have hstate : poll.state = q.point.state := hseg.state
  refine Matched.ended (Yields.of_reaches ⟨_, hruns⟩ (Yields.one hexit)) (Yields.one hbody) ?_
  refine .waiting hap (hidx.trans hstop) hseg.visited hseg.none_left ?_ ?_ ?_ hstate hseg.trace
    hseg.answers
  · simp only [frame', store_one, if_true]
  · simp only [frame', store_one, Nat.one_ne_zero, if_false, if_true, hstate]
  · intro l hl
    have h0 : frameOff l ≠ 0 := Nat.succ_ne_zero _
    have h1 : frameOff l ≠ 1 := by
      unfold frameOff
      omega
    simp only [frame', store_one, h0, h1, if_false]
    rw [← hstate]
    exact hholds l hl

theorem switchTarget_plain (targets : List (Word × BasicBlockId)) (otherwise : BasicBlockId) (v : Val)
    (w : World W) :
    rt.switchTarget false targets otherwise v w = (targets.lookup v.toWord).getD otherwise := rfl

/-- Both translations of a plain `SwitchInt` branch alike. -/
theorem take_switch {p : PollState W} {discr : Operand} {targets : List (Word × BasicBlockId)}
    {otherwise : BasicBlockId} {span : Span}
    (hplain : ∀ target, targets = [(1, target)] →
      (rt.evalOperand p.state.locals discr).1.toWord = 0 ∨
        (rt.evalOperand p.state.locals discr).1.toWord = 1 ∨ target = otherwise) :
    (translateTerm (some ⟨.switchInt discr targets otherwise, span⟩)).2.take rt mixed points p =
      .inl (enter p (rt.evalOperand p.state.locals discr).2
        ((targets.lookup (rt.evalOperand p.state.locals discr).1.toWord).getD otherwise)) := by
  unfold translateTerm
  dsimp only
  split
  next value target =>
    split
    next hone =>
      simp only [Exit.take, Sum.inl.injEq]
      congr 1
      obtain h0 | h1 | heq := hplain target (by rw [hone])
      · rw [if_neg (not_not_intro h0), h0, hone]
        rfl
      · rw [if_pos (by rw [h1]; decide), h1, hone]
        rfl
      · rw [heq, ite_self]
        simp only [List.lookup_cons, List.lookup_nil]
        split <;> rfl
    next => rfl
  next => rfl

/-- The end of a block: a branch, or the end of the body. -/
theorem matched_term (h : analyzeAsyncSm f = some points) (hslots : OneSlot f) {p : PollPoint W}
    {q : BodyPoint W} {j : Nat} (hreach : Reaches (bodyStep rt f) start q)
    (hseg : InSeg f points answers j p q) (hnone : (bbAwaits points q.point.bb)[j]? = none)
    (hidx : q.point.idx = segStop f points q.point.bb j) (hplain : BranchPlain rt f q.point) :
    Matched (pollStep rt mixed f points reply (translateBlock f points)) (bodyStep rt f)
      (Along rt f points answers start) (Parked f points answers) p q := by
  have hs : (f.stmtsAt q.point.bb)[q.point.idx]? = none := by
    rw [hidx, segStop, hnone]
    exact List.getElem?_eq_none le_rfl
  have hdrop := seg_drop h hseg.visited (i := p.idx) (by rw [← hseg.place, hidx])
  have hexit : (translateBlock f points p.label).exit =
      (translateTerm (f.terminatorAt q.point.bb)).2 := by
    rw [hseg.label, translateBlock, translateSeg_eq]
    simp only [segTail, hnone]
  simp only [segTail, hnone] at hdrop
  rw [show translateSeg f points q.point.bb j = translateBlock f points p.label by
    rw [hseg.label, translateBlock]] at hdrop
  have hstep : (translateTerm (f.terminatorAt q.point.bb)).1 = [] →
      pollStep rt mixed f points reply (translateBlock f points) p =
        (translateTerm (f.terminatorAt q.point.bb)).2.take rt mixed points p.poll := by
    intro hnil
    rw [hnil, List.drop_eq_nil_iff] at hdrop
    simp only [pollStep, List.getElem?_eq_none hdrop, hexit]
  obtain hbb | hbb := Nat.lt_or_ge q.point.bb f.basicBlocks.length
  · obtain ⟨⟨kind, span⟩, hterm, hplain⟩ := hplain hs hbb
    have hbody := bodyStep_term rt hs hbb
    have hsucc : ∀ target ∈ kind.successors, target ∈ f.successors q.point.bb := by
      intro target ht
      rwa [MirFunction.successors, hterm]
    rw [hterm] at hbody hstep hdrop hexit
    cases kind with
    | goto target =>
      apply Matched.one
      left
      rw [hstep rfl]
      refine Along.enter hreach hseg (hsucc target (by simp [TerminatorKind.successors])) ?_
      rw [hseg.state]
      exact hbody
    | switchInt discr targets otherwise =>
      obtain ⟨hpy, hplain⟩ := hplain discr targets otherwise rfl
      have hnil : (translateTerm (some ⟨.switchInt discr targets otherwise, span⟩)).1 = [] := by
        unfold translateTerm
        dsimp only
        split <;> rfl
      simp only [Runtime.execTerm, hpy, switchTarget_plain] at hbody
      rw [← hseg.state] at hplain
      apply Matched.one
      left
      rw [hstep hnil, take_switch hplain, hseg.state]
      refine Along.enter hreach hseg (hsucc _ ?_) hbody
      exact switchTarget_mem rt false targets otherwise _ q.point.state.world
    | ret =>
      let frame := store (store p.poll.frame 0 1 (.word (-1))) 1 1 (p.poll.state.locals 0)
      have hexec : execAll rt mixed f reply [.storeState (-1), .storeSub 0] p.poll =
          .ok { p.poll with frame := frame } := by
        have hroom : 1 + 1 ≤ f.locals.length + 2 := by omega
        refine (execAll_cons rfl).trans ((execAll_cons (q := { p.poll with frame := frame }) ?_).trans
          rfl)
        simp only [Inst.exec, storeVar, hslots 0, hroom, if_true, frame]
      obtain ⟨label, idx, poll⟩ := p
      obtain ⟨t, hruns, ht⟩ := reaches_exit points hdrop hexec
      rw [hexit] at ht
      refine Matched.ended (Yields.of_reaches ⟨_, hruns⟩ (Yields.one ht)) (Yields.one hbody) ?_
      have hstate : poll.state = q.point.state := hseg.state
      have htrace : poll.trace = q.trace := hseg.trace
      rw [← hstate, ← htrace]
      refine .done (p := { poll with frame := frame }) ?_ ?_ hseg.answers
      · simp only [frame, store_one, Nat.zero_ne_one, if_false, if_true]
      · simp only [frame, store_one, if_true]
    | unreachable =>
      have hstep := hstep rfl
      refine Matched.ended (Yields.one hstep) (Yields.one hbody) ?_
      rw [← hseg.state, ← hseg.trace]
      exact .faulted
  · have hterm : f.terminatorAt q.point.bb = none := by
      rw [MirFunction.terminatorAt, List.getElem?_eq_none hbb]
      rfl
    rw [hterm] at hstep
    refine Matched.ended (Yields.one (hstep rfl)) (Yields.one (bodyStep_missing hbb)) ?_
    rw [← hseg.state, ← hseg.trace]
    exact .faulted

/-- Every step of a stretch is matched. -/
theorem matched_along (ht : Translatable f points)
    (hplain : ∀ q, Reaches (bodyStep rt f) start q → BranchPlain rt f q.point) (p : PollPoint W)
    (q : BodyPoint W) (h : Along rt f points answers start p q) :
    Matched (pollStep rt mixed f points reply (translateBlock f points)) (bodyStep rt f)
      (Along rt f points answers start) (Parked f points answers) p q := by
  obtain ⟨hreach, j, hseg⟩ := h
  obtain hlt | hge := Nat.lt_or_ge q.point.idx (segStop f points q.point.bb j)
  · exact matched_stmt ht.analyzed hreach hseg hlt
  · have hidx := Nat.le_antisymm hseg.within hge
    cases hap : (bbAwaits points q.point.bb)[j]? with
    | none => exact matched_term ht.analyzed ht.oneSlot hreach hseg hap hidx (hplain q hreach)
    | some a =>
      obtain ⟨ap, k⟩ := a
      exact matched_await ht hseg hap hidx

/-- A poll in a segment ends as the body does. -/
theorem parked_of_poll (ht : Translatable f points)
    (hplain : ∀ q, Reaches (bodyStep rt f) start q → BranchPlain rt f q.point) {p : PollPoint W}
    {q : BodyPoint W} (h : Along rt f points answers start p q) {e : PollEnd W}
    (he : Yields (pollStep rt mixed f points reply (translateBlock f points)) p e) :
    ∃ o, Yields (bodyStep rt f) start o ∧ Parked f points answers e o := by
  obtain ⟨o, ho, hparked⟩ := yields_of_matched (matched_along ht hplain) h he
  exact ⟨o, Yields.of_reaches h.1 ho, hparked⟩

theorem parked_of_body (ht : Translatable f points)
    (hplain : ∀ q, Reaches (bodyStep rt f) start q → BranchPlain rt f q.point) {p : PollPoint W}
    {q : BodyPoint W} (h : Along rt f points answers start p q) {o : BodyEnd W}
    (ho : Yields (bodyStep rt f) start o) :
    ∃ e, Yields (pollStep rt mixed f points reply (translateBlock f points)) p e ∧
      Parked f points answers e o := by
  exact yields_of_matched (fun q p hr => (matched_along ht hplain p q hr).symm) h
    (Yields.after h.1 ho)

/-! ### The answers of a poll -/

theorem exec_answers {inst : Inst} {p p' : PollState W}
    (h : inst.exec rt mixed f reply p = .ok p') :
    p.answers <+: p'.answers ∧ ((∀ l, inst ≠ .setResult l) → p'.answers = p.answers) := by
  have hstore : ∀ slot l, storeVar f p slot l = .ok p' → p'.answers = p.answers := by
    intro slot l h
    unfold storeVar at h
    dsimp only at h
    split at h
    next =>
      obtain rfl := Except.ok.inj h
      rfl
    next => cases h
  have hsame : p'.answers = p.answers →
      p.answers <+: p'.answers ∧ ((∀ l, inst ≠ .setResult l) → p'.answers = p.answers) :=
    fun he => ⟨he ▸ List.prefix_rfl, fun _ => he⟩
  cases inst with
  | zero l =>
    obtain rfl := Except.ok.inj h
    exact hsame rfl
  | reload l =>
    obtain rfl := Except.ok.inj h
    exact hsame rfl
  | spill l => exact hsame (hstore _ _ h)
  | stmt s =>
    simp only [Inst.exec] at h
    cases hexec : rt.execStmt f.locals p.state s with
    | ok t =>
      rw [hexec] at h
      obtain rfl := Except.ok.inj h
      exact hsame rfl
    | error e =>
      rw [hexec] at h
      cases h
  | pollSub =>
    obtain rfl := Except.ok.inj h
    exact hsame rfl
  | setResult l =>
    obtain rfl := Except.ok.inj h
    exact ⟨List.prefix_append _ _, fun hne => absurd rfl (hne l)⟩
  | storeSub l => exact hsame (hstore _ _ h)
  | storeState k =>
    obtain rfl := Except.ok.inj h
    exact hsame rfl

theorem take_answers {exit : Exit} {p : PollState W} {t : PollPoint W}
    (h : exit.take rt mixed points p = .inl t) : t.poll.answers = p.answers := by
  cases exit <;> first
    | (obtain rfl := Sum.inl.inj h; rfl)
    | cases h

theorem take_end {exit : Exit} {p p' : PollState W} {v : Val}
    (h : exit.take rt mixed points p = .inr (.returned v p')) : p' = p := by
  cases exit <;> first
    | (cases h; rfl)
    | cases h

variable {code : Label → CodeBlock}

theorem pollStep_answers {p t : PollPoint W}
    (h : pollStep rt mixed f points reply code p = .inl t) : p.poll.answers <+: t.poll.answers := by
  unfold pollStep at h
  split at h
  next inst hinst =>
    split at h
    next poll hexec =>
      obtain rfl := Sum.inl.inj h
      exact (exec_answers hexec).1
    next => cases h
  next => exact take_answers h ▸ List.prefix_rfl

theorem pollStep_end {p : PollPoint W} {v : Val} {p' : PollState W}
    (h : pollStep rt mixed f points reply code p = .inr (.returned v p')) : p' = p.poll := by
  unfold pollStep at h
  split at h
  next inst hinst =>
    split at h
    next => cases h
    next => cases h
  next => exact take_end h

/-- A poll only adds to the answers. -/
theorem answers_prefix {p : PollPoint W} {v : Val} {p' : PollState W}
    (h : Yields (pollStep rt mixed f points reply code) p (.returned v p')) :
    p.poll.answers <+: p'.answers := by
  obtain ⟨t, ht, hend⟩ := yields_iff_last.mp h
  rw [pollStep_end hend]
  let P (t : PollPoint W) := p.poll.answers <+: t.poll.answers
  have hstep : ∀ s t, P s → pollStep rt mixed f points reply code s = .inl t → P t :=
    fun s t hs hst => hs.trans (pollStep_answers hst)
  exact @Reaches.invariant _ _ _ p t P hstep ht List.prefix_rfl

theorem term_no_result {term : Option Terminator} {inst : Inst}
    (h : inst ∈ (translateTerm term).1) (l : Local) : inst ≠ .setResult l := by
  intro he
  subst he
  unfold translateTerm at h
  split at h <;> try split at h
  all_goals simp at h

theorem seg_no_result {bb : BasicBlockId} {j : Nat} {inst : Inst}
    (h : inst ∈ (translateSeg f points bb j).insts) (l : Local) : inst ≠ .setResult l := by
  rw [translateSeg_eq, List.mem_append] at h
  obtain h | h := h
  · obtain ⟨stmt, _, rfl⟩ := List.mem_map.mp h
    exact fun he => by cases he
  · unfold segTail at h
    split at h
    next =>
      intro he
      subst he
      simp [spills] at h
    next => exact term_no_result h l

/-- Segments are left for segments only. -/
theorem seg_exit {bb : BasicBlockId} {j : Nat} {p : PollState W} {t : PollPoint W}
    (h : (translateSeg f points bb j).exit.take rt mixed points p = .inl t) :
    ∃ target, t.label = .seg target 0 := by
  rw [translateSeg_eq] at h
  unfold segTail at h
  dsimp only at h
  split at h
  next => cases h
  next =>
    unfold translateTerm at h
    split at h
    next => cases h
    next =>
      obtain rfl := Sum.inl.inj h
      exact ⟨_, rfl⟩
    next =>
      split at h
      next =>
        dsimp only at h
        split at h
        all_goals
          obtain rfl := Sum.inl.inj h
          exact ⟨_, rfl⟩
      next =>
        obtain rfl := Sum.inl.inj h
        exact ⟨_, rfl⟩
    next => cases h
    next => cases h

/-- A poll in a segment adds no answer. -/
theorem seg_answers {p : PollPoint W} {bb : BasicBlockId} {j : Nat} (hlabel : p.label = .seg bb j)
    {v : Val} {p' : PollState W}
    (h : Yields (pollStep rt mixed f points reply (translateBlock f points)) p (.returned v p')) :
    p'.answers = p.poll.answers := by
  obtain ⟨t, ht, hend⟩ := yields_iff_last.mp h
  rw [pollStep_end hend]
  let P (t : PollPoint W) := (∃ bb j, t.label = .seg bb j) ∧ t.poll.answers = p.poll.answers
  have hstep : ∀ s t, P s →
      pollStep rt mixed f points reply (translateBlock f points) s = .inl t → P t := by
    intro s t hs hst
    obtain ⟨⟨bb, j, hl⟩, hs⟩ := hs
    unfold pollStep at hst
    rw [hl] at hst
    split at hst
    next inst hinst =>
      split at hst
      next poll hexec =>
        obtain rfl := Sum.inl.inj hst
        have hsame := (exec_answers hexec).2 (seg_no_result (List.mem_of_getElem? hinst))
        exact ⟨⟨bb, j, rfl⟩, hsame.trans hs⟩
      next => cases hst
    next =>
      obtain ⟨target, hl⟩ := seg_exit hst
      exact ⟨⟨target, 0, hl⟩, (take_answers hst).trans hs⟩
  exact (@Reaches.invariant _ _ _ p t P hstep ht ⟨⟨bb, j, hlabel⟩, rfl⟩).2

end Segments

end AsyncSm

end Olive
