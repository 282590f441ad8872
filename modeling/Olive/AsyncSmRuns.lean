import Olive.AsyncSmSound

/-! Runs of polls on one frame. -/

namespace Olive

namespace AsyncSm

open FlowGraph Lockstep

/-- The frame of the wrapper: state 0, and the arguments in their slots. -/
theorem smWrapperFrame_slots {f : MirFunction} (hslots : OneSlot f) (fresh : Frame) (args : List Val) :
    smWrapperFrame f fresh args 0 = ⟨.word 0, 0⟩ ∧
      ∀ i < args.length, smWrapperFrame f fresh args (i + 3) = ⟨args.getD i (.word 0), 0⟩ := by
  have hfold : ∀ (args : List Val) (k : Nat) (frame : Frame),
      (∀ s < k + 3, (args.zipIdx k).foldl (fun frame p =>
        store frame (p.2 + 3) (slots (tyOf f.locals (p.2 + 1))) p.1) frame s = frame s) ∧
      ∀ i < args.length, (args.zipIdx k).foldl (fun frame p =>
        store frame (p.2 + 3) (slots (tyOf f.locals (p.2 + 1))) p.1) frame (k + i + 3) =
          ⟨args.getD i (.word 0), 0⟩ := by
    intro args
    induction args with
    | nil => exact fun k frame => ⟨fun _ _ => rfl, fun i hi => absurd hi (Nat.not_lt_zero i)⟩
    | cons arg args ih =>
      intro k frame
      rw [List.zipIdx_cons, List.foldl_cons, hslots (k + 1), store_one]
      obtain ⟨hbelow, hargs⟩ := ih (k + 1) fun s => if s = k + 3 then ⟨arg, 0⟩ else frame s
      refine ⟨fun s hs => ?_, fun i hi => ?_⟩
      · rw [hbelow s (by omega)]
        exact if_neg (by omega)
      · cases i with
        | zero =>
          rw [hbelow _ (by omega)]
          exact if_pos (by omega)
        | succ i =>
          have h := hargs i (by simpa using hi)
          rw [show k + 1 + i + 3 = k + (i + 1) + 3 by omega] at h
          exact h
  obtain ⟨hbelow, hargs⟩ := hfold args 0 (store fresh 0 1 (.word 0))
  refine ⟨?_, fun i hi => ?_⟩
  · refine (hbelow 0 (by omega)).trans ?_
    rw [store_one]
    exact if_pos rfl
  · have h := hargs i hi
    rwa [Nat.zero_add] at h

section Runs

variable {W : Type} {rt : Runtime W} {mixed : List Cell → Val} {f : MirFunction}
  {points : List SmAwaitPoint} {reply : Word → World W → Word × World W} {args : List Val}
  {frame : Frame}

theorem PlainOn.of_prefix {w : World W} {answers more : List (Word × World W)}
    (h : PlainOn rt f args w (answers ++ more)) : PlainOn rt f args w answers :=
  fun q hq => h (q.addAnswers more) (reaches_addAnswers more hq)

/-- A frame between two polls stands for the body at an await or at its end. -/
inductive Kept (rt : Runtime W) (f : MirFunction) (points : List SmAwaitPoint) (args : List Val)
    (frame : Frame) (m : Polled W) : Prop
  | fresh (hm : m = Polled.fresh frame)
  | waiting {w : World W} {q : BodyPoint W} {j k : Nat} {ap : SmAwaitPoint} (hbegan : m.began = some w)
      (hreach : Reaches (bodyStep rt f) (bodyStart args w m.answers) q)
      (hap : (bbAwaits points q.point.bb)[j]? = some (ap, k)) (hidx : q.point.idx = ap.stmtIdx)
      (hvisited : Visited f q.point.bb) (hq : q.answers = [])
      (hstate : m.frame 0 = ⟨.word (BitVec.ofNat 64 (k + 1)), 0⟩)
      (hsub : m.frame 1 = ⟨q.point.state.locals ap.subFutureLocal, 0⟩)
      (hholds : Holds f m.frame q.point.state.locals) (hlog : m.log = q.point.state.log)
      (htrace : m.trace = q.trace) (hr : ∀ v ∈ m.returned, v = .word pollPending)
  | done {w w' : World W} {v : Val} {i j : Nat} (hbegan : m.began = some w)
      (hbody : Yields (bodyStep rt f) (bodyStart args w m.answers)
        (.ended (.returned v w' m.log) m.trace))
      (hstate : m.frame 0 = ⟨.word (-1), 0⟩) (hcached : m.frame 1 = ⟨v, 0⟩)
      (hr : m.returned = List.replicate i (.word pollPending) ++ List.replicate (j + 1) v)

variable (rt mixed reply) in
/-- The first poll enters the body. -/
theorem first_along (ht : Translatable f points) (hargs : args.length = f.argCount) (w : World W)
    (fresh : Frame) :
    ∃ p, Reaches (pollStep rt mixed f points reply (translateBlock f points))
        ((Polled.fresh (smWrapperFrame f fresh args)).entry w) p ∧
      p.label = .seg 0 0 ∧ p.poll.answers = [] ∧
      Along rt f points [] (bodyStart args w []) p (bodyStart args w []) := by
  obtain ⟨hzero, hslot⟩ := smWrapperFrame_slots ht.oneSlot fresh args
  let m : Polled W := Polled.fresh (smWrapperFrame f fresh args)
  have hdispatch := reaches_state rt mixed f points reply m w hzero
  have hfirst := reaches_first rt mixed f points reply ht.oneSlot w (p := (m.entry w).poll) rfl hargs
    hslot
  refine ⟨_, hdispatch.trans hfirst, rfl, rfl, Reaches.refl _, 0, ?_⟩
  exact {
    label := rfl
    seg := Nat.zero_le _
    place := rfl
    within := Nat.zero_le _
    visited := visited_entry f
    state := rfl
    trace := rfl
    none_left := rfl
    answers := rfl }

variable (rt mixed) in
/-- A poll after a suspension dispatches to the await and asks its future. -/
theorem waiting_polled (ht : Translatable f points) {m : Polled W} (w : World W) {q : BodyPoint W}
    {j k : Nat} {ap : SmAwaitPoint} (hzero : UndeclaredZero f q.point.state.locals)
    (hap : (bbAwaits points q.point.bb)[j]? = some (ap, k))
    (hstate : m.frame 0 = ⟨.word (BitVec.ofNat 64 (k + 1)), 0⟩)
    (hsub : m.frame 1 = ⟨q.point.state.locals ap.subFutureLocal, 0⟩)
    (hholds : Holds f m.frame q.point.state.locals) {r : Word} {w' : World W}
    (hreply : reply (q.point.state.locals ap.subFutureLocal).toWord w = (r, w')) :
    Reaches (pollStep rt mixed f points reply (translateBlock f points)) (m.entry w)
      ⟨if r = pollPending then .pend k else .cont k, 0,
        ⟨⟨q.point.state.locals, w', m.log⟩, m.frame, r, m.trace, m.answers⟩⟩ := by
  have hk : k < points.length := (List.getElem?_eq_some_iff.mp (bbAwaits_point hap).1).1
  have hnat : (BitVec.ofNat 64 (k + 1)).toNat = k + 1 := by
    have := ht.few
    rw [BitVec.toNat_ofNat, Nat.mod_eq_of_lt (by omega)]
  have hdispatch := reaches_state rt mixed f points reply m w hstate
  rw [hnat, if_pos (by omega)] at hdispatch
  have hpolled := reaches_polled rt mixed f points reply ht.oneSlot k (p := (m.entry w).poll) hholds
    (fun l hl => (hzero l hl).symm) hsub
  have hworld : (m.entry w).poll.state.world = w := rfl
  rw [hworld, hreply] at hpolled
  exact hdispatch.trans hpolled

variable (mixed) in
/-- A poll whose future has a result goes on in the body. -/
theorem waiting_along (ht : Translatable f points) {m : Polled W} (w : World W) {start : BodyPoint W}
    {q : BodyPoint W} {j k : Nat} {ap : SmAwaitPoint} (hzero : UndeclaredZero f q.point.state.locals)
    {r : Word} {w' : World W}
    (hreach : Reaches (bodyStep rt f) start (q.addAnswers [(r, w')]))
    (hap : (bbAwaits points q.point.bb)[j]? = some (ap, k)) (hidx : q.point.idx = ap.stmtIdx)
    (hvisited : Visited f q.point.bb) (hq : q.answers = [])
    (hstate : m.frame 0 = ⟨.word (BitVec.ofNat 64 (k + 1)), 0⟩)
    (hsub : m.frame 1 = ⟨q.point.state.locals ap.subFutureLocal, 0⟩)
    (hholds : Holds f m.frame q.point.state.locals) (hlog : m.log = q.point.state.log)
    (htrace : m.trace = q.trace)
    (hreply : reply (q.point.state.locals ap.subFutureLocal).toWord w = (r, w'))
    (hready : r ≠ pollPending) :
    ∃ p q', Reaches (pollStep rt mixed f points reply (translateBlock f points)) (m.entry w) p ∧
      p.label = .seg q.point.bb (j + 1) ∧ p.poll.answers = m.answers ++ [(r, w')] ∧
      Along rt f points (m.answers ++ [(r, w')]) start p q' := by
  obtain ⟨hpoint, hbb⟩ := bbAwaits_point hap
  have hpolled := waiting_polled rt mixed ht w hzero hap hstate hsub hholds hreply
  rw [if_neg hready] at hpolled
  have hresumed := reaches_resumed rt mixed f points reply ht.oneSlot
    (p := ⟨⟨q.point.state.locals, w', m.log⟩, m.frame, r, m.trace, m.answers⟩) hpoint hholds
  rw [hbb, resumeSeg_eq hap] at hresumed
  obtain ⟨stmt, sub, hs, hawait, _⟩ := stmt_of_point ht.analyzed hvisited hap
  have hanswers : (q.addAnswers [(r, w')]).answers = [(r, w')] := by
    rw [BodyPoint.addAnswers, hq]
    rfl
  rw [← hidx] at hs
  have hbody := bodyStep_await rt (p := q.addAnswers [(r, w')]) hs hawait hanswers
  have hmem : ap ∈ points := List.mem_of_getElem? hpoint
  have hfit : rt.fit (tyOf f.locals ap.resultLocal) (.word r) = .word r := by
    rw [Runtime.fit, not_narrow_of_i64 (ht.results ap hmem)]
    rfl
  have hj : j + 1 ≤ (bbAwaits points q.point.bb).length := (List.getElem?_eq_some_iff.mp hap).1
  refine ⟨_, _, hpolled.trans hresumed, rfl, rfl, hreach.tail hbody, j + 1, ?_⟩
  exact {
    label := rfl
    seg := hj
    place := (congrArg Nat.succ hidx).trans (segStart_succ hap).symm
    within := by
      have hle := segStart_le_segStop ht.analyzed hvisited hj
      rw [segStart_succ hap, ← hidx] at hle
      exact hle
    visited := hvisited
    state := by
      simp only [PollState.setLocals, hfit, hlog]
      rfl
    trace := by
      simp only [htrace]
      rfl
    none_left := rfl
    answers := rfl }

variable (rt mixed reply) in
/-- A poll after the end returns the value again. -/
theorem done_poll (ht : Translatable f points) {m : Polled W} (w : World W) {v : Val}
    (hstate : m.frame 0 = ⟨.word (-1), 0⟩) (hcached : m.frame 1 = ⟨v, 0⟩) :
    Yields (pollStep rt mixed f points reply (translateBlock f points)) (m.entry w)
      (.returned v (m.entry w).poll) := by
  have hdispatch := reaches_state rt mixed f points reply m w hstate
  have hout : ¬(-1 : Word).toNat ≤ points.length := by
    have := ht.few
    have hmax : (-1 : Word).toNat = 2 ^ 64 - 1 := by decide
    omega
  rw [if_neg hout] at hdispatch
  have hload : load mixed (m.entry w).poll.frame 1 1 = v := load_one mixed hcached
  refine Yields.of_reaches hdispatch (yields_block rfl ?_)
  rw [← hload]
  rfl

theorem began_after {m : Polled W} {w w₀ : World W} {v : Val} {p : PollState W}
    (h : m.began = some w₀) : (m.after w v p).began = some w₀ := by
  simp only [Polled.after, h, Option.getD_some]

theorem undeclaredZero_reached (hdecl : Declared f) (hargs : args.length = f.argCount) {w : World W}
    {answers : List (Word × World W)} {q : BodyPoint W}
    (h : Reaches (bodyStep rt f) (bodyStart args w answers) q) :
    UndeclaredZero f q.point.state.locals := by
  let P (q : BodyPoint W) := UndeclaredZero f q.point.state.locals
  have hstep : ∀ s t, P s → bodyStep rt f s = .inl t → P t := fun s t hs hst =>
    undeclaredZero_step hdecl hs hst
  exact @Reaches.invariant _ _ _ _ q P hstep h (undeclaredZero_start hdecl hargs w)

/-- A stretch of the body that a poll has run ends in a frame that is kept. -/
theorem kept_of_parked {m : Polled W} {w w₀ : World W} {v : Val} {p : PollState W} {o : BodyEnd W}
    (hbegan : m.began.getD w = w₀)
    (hpending : ∀ v ∈ m.returned, v = .word pollPending)
    (hbody : Yields (bodyStep rt f) (bodyStart args w₀ p.answers) o)
    (h : Parked f points p.answers (.returned v p) o) :
    Kept rt f points args frame (m.after w v p) := by
  have hafter : (m.after w v p).began = some w₀ := by
    simp only [Polled.after, hbegan]
  cases h with
  | @waiting _ q j k ap hap hidx hvisited hq hstate hsub hholds hp htrace _ =>
    obtain ⟨t, hreach, hend⟩ := yields_iff_last.mp hbody
    obtain rfl := waiting_self hend
    refine .waiting hafter hreach hap hidx hvisited hq hstate hsub hholds ?_ htrace ?_
    · simp only [Polled.after, hp]
    · intro v hv
      obtain hv | hv := List.mem_append.mp hv
      · exact hpending v hv
      · exact List.mem_singleton.mp hv
  | done hstate hcached _ =>
    refine .done (i := m.returned.length) (j := 0) hafter hbody hstate hcached ?_
    rw [Polled.after, List.eq_replicate_of_mem hpending, List.length_replicate]
    rfl

/-- One more poll. -/
theorem kept_poll (ht : Translatable f points) (hargs : args.length = f.argCount) {fresh : Frame}
    {m : Polled W} {w : World W} {v : Val} {p : PollState W}
    (hk : Kept rt f points args (smWrapperFrame f fresh args) m)
    (hp : Yields (pollStep rt mixed f points reply (translateBlock f points)) (m.entry w)
      (.returned v p))
    (hplain : ∀ w₀, (m.after w v p).began = some w₀ → PlainOn rt f args w₀ p.answers) :
    Kept rt f points args (smWrapperFrame f fresh args) (m.after w v p) := by
  cases hk with
  | fresh hm =>
    subst hm
    obtain ⟨t, hreach, hlabel, hanswers, halong⟩ :=
      first_along rt mixed reply ht hargs w fresh
    have hrest := Yields.after hreach hp
    have hsame : p.answers = [] := (seg_answers hlabel hrest).trans hanswers
    have hbranch := hplain w rfl
    rw [hsame] at hbranch
    obtain ⟨o, hbody, hparked⟩ := parked_of_poll ht hbranch halong hrest
    rw [← hsame] at hbody hparked
    exact kept_of_parked rfl (by simp [Polled.fresh]) hbody hparked
  | @waiting w₀ q j k ap hbegan hreach hap hidx hvisited hq hstate hsub hholds hlog htrace hr =>
    have hzero := undeclaredZero_reached ht.declared hargs hreach
    cases hreply : reply (q.point.state.locals ap.subFutureLocal).toWord w with
    | mk r w' =>
      by_cases hready : r = pollPending
      · have hpolled := waiting_polled rt mixed ht w hzero hap hstate hsub hholds hreply
        rw [if_pos hready] at hpolled
        have hend := Yields.of_reaches hpolled (yields_block (o := .returned (.word pollPending)
          ⟨⟨q.point.state.locals, w', m.log⟩, m.frame, r, m.trace, m.answers⟩) rfl rfl)
        obtain ⟨n, hn⟩ := hend
        obtain ⟨n', hn'⟩ := hp
        cases runs_end_unique hn hn'
        refine .waiting (began_after hbegan) hreach hap hidx hvisited hq hstate hsub hholds hlog htrace
          fun v hv => ?_
        obtain hv | hv := List.mem_append.mp hv
        · exact hr v hv
        · exact List.mem_singleton.mp hv
      · have hmore : Reaches (bodyStep rt f) (bodyStart args w₀ (m.answers ++ [(r, w')]))
            (q.addAnswers [(r, w')]) := reaches_addAnswers [(r, w')] hreach
        obtain ⟨t, q', hpoll, hlabel, hanswers, halong⟩ := waiting_along mixed ht w hzero
          hmore hap hidx hvisited hq hstate hsub hholds hlog htrace hreply hready
        have hrest := Yields.after hpoll hp
        have hsame : p.answers = m.answers ++ [(r, w')] := (seg_answers hlabel hrest).trans hanswers
        have hbranch := hplain w₀ (began_after hbegan)
        rw [hsame] at hbranch
        obtain ⟨o, hbody, hparked⟩ := parked_of_poll ht hbranch halong hrest
        rw [← hsame] at hbody hparked
        exact kept_of_parked (by rw [hbegan, Option.getD_some]) hr hbody hparked
  | @done w₀ w' v' i j hbegan hbody hstate hcached hr =>
    have hend := done_poll rt mixed reply ht w hstate hcached
    obtain ⟨n, hn⟩ := hend
    obtain ⟨n', hn'⟩ := hp
    cases runs_end_unique hn hn'
    refine .done (i := i) (j := j + 1) (began_after hbegan) hbody hstate hcached ?_
    rw [Polled.after, hr, List.append_assoc, ← List.replicate_succ']

theorem kept_of_run (ht : Translatable f points) (hargs : args.length = f.argCount) {fresh : Frame}
    {m : Polled W}
    (h : PollRun rt mixed f points (translateBlock f points) (smWrapperFrame f fresh args) m)
    (hplain : PlainSoFar rt f args m) :
    Kept rt f points args (smWrapperFrame f fresh args) m := by
  induction h with
  | fresh => exact .fresh rfl
  | @poll m w reply v p hrun hp ih =>
    refine kept_poll ht hargs (ih fun w₀ hw₀ => ?_) hp hplain
    obtain ⟨more, hmore⟩ := answers_prefix hp
    have h := hplain w₀ (began_after hw₀)
    rw [Polled.after, ← hmore] at h
    exact h.of_prefix

/-- The body at an await, between two polls. -/
theorem Kept.waiting_yields (ht : Translatable f points) {w : World W} {answers : List (Word × World W)}
    {q : BodyPoint W} {j k : Nat} {ap : SmAwaitPoint}
    (hreach : Reaches (bodyStep rt f) (bodyStart args w answers) q)
    (hap : (bbAwaits points q.point.bb)[j]? = some (ap, k)) (hidx : q.point.idx = ap.stmtIdx)
    (hvisited : Visited f q.point.bb) (hq : q.answers = []) :
    Yields (bodyStep rt f) (bodyStart args w answers) (.waiting q) := by
  obtain ⟨stmt, sub, hs, hawait, _⟩ := stmt_of_point ht.analyzed hvisited hap
  rw [← hidx] at hs
  exact yields_iff_last.mpr ⟨q, hreach, bodyStep_waiting hs hawait hq⟩

theorem mirrors_of_kept (ht : Translatable f points) {m : Polled W}
    (h : Kept rt f points args frame m) : Mirrors rt f args m := by
  cases h with
  | fresh hm =>
    subst hm
    exact .fresh rfl rfl
  | waiting hbegan hreach hap hidx hvisited hq hstate hsub hholds hlog htrace hr =>
    exact .waiting hbegan (Kept.waiting_yields ht hreach hap hidx hvisited hq) hlog htrace hholds hr
  | done hbegan hbody hstate hcached hr => exact .done hbegan hbody hr

/-- The future that the body waits for is the one in the frame. -/
theorem waitsFor_of_kept (ht : Translatable f points) {m : Polled W} {w : World W} {q : BodyPoint W}
    {j k : Nat} {ap : SmAwaitPoint} (hbegan : m.began = some w)
    (hreach : Reaches (bodyStep rt f) (bodyStart args w m.answers) q)
    (hap : (bbAwaits points q.point.bb)[j]? = some (ap, k)) (hidx : q.point.idx = ap.stmtIdx)
    (hvisited : Visited f q.point.bb) (hq : q.answers = []) :
    WaitsFor rt f args m w q (q.point.state.locals ap.subFutureLocal) where
  began := hbegan
  waiting := Kept.waiting_yields ht hreach hap hidx hvisited hq
  future := by
    obtain ⟨stmt, sub, hs, hawait, hsub⟩ := stmt_of_point ht.analyzed hvisited hap
    rw [← hidx] at hs
    exact ⟨stmt, _, sub, _, hs, hawait, hsub, rfl⟩

theorem WaitsFor.unique {m : Polled W} {w w' : World W} {p p' : BodyPoint W} {future future' : Val}
    (h : WaitsFor rt f args m w p future) (h' : WaitsFor rt f args m w' p' future') :
    w = w' ∧ p = p' ∧ future = future' := by
  obtain rfl := Option.some.inj (h.began.symm.trans h'.began)
  obtain ⟨n, hn⟩ := h.waiting
  obtain ⟨n', hn'⟩ := h'.waiting
  cases runs_end_unique hn hn'
  obtain ⟨stmt, result, op, sub, hs, hawait, hsub, rfl⟩ := h.future
  obtain ⟨stmt', result', op', sub', hs', hawait', hsub', rfl⟩ := h'.future
  cases hs.symm.trans hs'
  cases hawait.symm.trans hawait'
  cases hsub.symm.trans hsub'
  exact ⟨rfl, rfl, rfl⟩

theorem next_of_kept (ht : Translatable f points) {m : Polled W} (w : World W)
    (reply : Word → World W → Word × World W) (h : Kept rt f points args frame m) :
    (∃ w₀ answers, Resumes rt f args m w reply w₀ answers) ∨ ∃ o, Rests rt f args m w reply o := by
  cases h with
  | fresh hm =>
    subst hm
    exact .inl ⟨w, [], .first rfl⟩
  | @waiting w₀ q j k ap hbegan hreach hap hidx hvisited hq hstate hsub hholds hlog htrace hr =>
    have hwaits := waitsFor_of_kept ht hbegan hreach hap hidx hvisited hq
    by_cases hready : (reply (q.point.state.locals ap.subFutureLocal).toWord w).1 = pollPending
    · exact .inr ⟨_, .pending hwaits hready⟩
    · exact .inl ⟨_, _, .ready hwaits hready⟩
  | done hbegan hbody hstate hcached hr => exact .inr ⟨_, .done hbegan hbody⟩

variable (mixed) in
/-- A poll that runs the body gets to where the body goes on. -/
theorem along_of_resumes (ht : Translatable f points) (hargs : args.length = f.argCount)
    {fresh : Frame} {m : Polled W} {w w₀ : World W} {answers : List (Word × World W)}
    (hk : Kept rt f points args (smWrapperFrame f fresh args) m)
    (h : Resumes rt f args m w reply w₀ answers) :
    ∃ p q, Reaches (pollStep rt mixed f points reply (translateBlock f points)) (m.entry w) p ∧
      Along rt f points answers (bodyStart args w₀ answers) p q := by
  cases h with
  | first hm =>
    cases hk with
    | fresh hm' =>
      subst hm'
      obtain ⟨p, hreach, _, _, halong⟩ := first_along rt mixed reply ht hargs w fresh
      exact ⟨p, _, hreach, halong⟩
    | waiting hbegan =>
      rw [hm] at hbegan
      cases hbegan
    | done hbegan =>
      rw [hm] at hbegan
      cases hbegan
  | @ready _ p future hwaits hready =>
    cases hk with
    | fresh hm' =>
      subst hm'
      cases hwaits.began
    | @waiting w' q j k ap hbegan hreach hap hidx hvisited hq hstate hsub hholds hlog htrace hr =>
      obtain ⟨rfl, rfl, rfl⟩ :=
        hwaits.unique (waitsFor_of_kept ht hbegan hreach hap hidx hvisited hq)
      have hzero := undeclaredZero_reached ht.declared hargs hreach
      cases hreply : reply (p.point.state.locals ap.subFutureLocal).toWord w with
      | mk r w'' =>
        rw [hreply] at hready
        obtain ⟨t, q', hpoll, _, _, halong⟩ := waiting_along mixed ht w hzero
          (reaches_addAnswers _ hreach) hap hidx hvisited hq hstate hsub hholds hlog htrace hreply
          hready
        exact ⟨t, q', hpoll, halong⟩
    | done hbegan hbody =>
      obtain rfl := Option.some.inj (hwaits.began.symm.trans hbegan)
      obtain ⟨n, hn⟩ := hwaits.waiting
      obtain ⟨n', hn'⟩ := hbody
      cases runs_end_unique hn hn'

/-- A poll that runs nothing of the body returns at once. -/
theorem poll_of_rests (ht : Translatable f points) (hargs : args.length = f.argCount)
    {m : Polled W} {w : World W} {o : BodyEnd W} (hk : Kept rt f points args frame m)
    (h : Rests rt f args m w reply o) :
    ∃ e, Yields (pollStep rt mixed f points reply (translateBlock f points)) (m.entry w) e ∧
      SameEnd e o := by
  cases h with
  | @pending _ p future hwaits hpending =>
    cases hk with
    | fresh hm =>
      subst hm
      cases hwaits.began
    | @waiting w' q j k ap hbegan hreach hap hidx hvisited hq hstate hsub hholds hlog htrace hr =>
      obtain ⟨rfl, rfl, rfl⟩ :=
        hwaits.unique (waitsFor_of_kept ht hbegan hreach hap hidx hvisited hq)
      have hzero := undeclaredZero_reached ht.declared hargs hreach
      cases hreply : reply (p.point.state.locals ap.subFutureLocal).toWord w with
      | mk r w'' =>
        rw [hreply] at hpending
        have hpolled := waiting_polled rt mixed ht w hzero hap hstate hsub hholds hreply
        rw [if_pos hpending] at hpolled
        exact ⟨_, Yields.of_reaches hpolled (yields_block rfl rfl), .waiting rfl hlog htrace⟩
    | done hbegan hbody =>
      obtain rfl := Option.some.inj (hwaits.began.symm.trans hbegan)
      obtain ⟨n, hn⟩ := hwaits.waiting
      obtain ⟨n', hn'⟩ := hbody
      cases runs_end_unique hn hn'
  | @done w₀ w' v log trace hm hp =>
    cases hk with
    | fresh hm' =>
      subst hm'
      cases hm
    | waiting hbegan hreach hap hidx hvisited hq =>
      obtain rfl := Option.some.inj (hm.symm.trans hbegan)
      obtain ⟨n, hn⟩ := hp
      obtain ⟨n', hn'⟩ := Kept.waiting_yields ht hreach hap hidx hvisited hq
      cases runs_end_unique hn hn'
    | done hbegan hbody hstate hcached =>
      obtain rfl := Option.some.inj (hm.symm.trans hbegan)
      obtain ⟨n, hn⟩ := hp
      obtain ⟨n', hn'⟩ := hbody
      cases runs_end_unique hn hn'
      exact ⟨_, done_poll rt mixed reply ht w hstate hcached, .returned⟩

/-- The generated code simulates the body, whatever the futures do. -/
theorem smSimulates (rt : Runtime W) (mixed : List Cell → Val) (f : MirFunction)
    (points : List SmAwaitPoint) (ht : Translatable f points) (fresh : Frame) (args : List Val)
    (hargs : args.length = f.argCount) :
    ∃ code, translateAsyncSmPoll f points = some code ∧
      SmSimulates rt mixed f points code (smWrapperFrame f fresh args) args := by
  refine ⟨translateBlock f points, ?_, ?_⟩
  · refine if_pos ⟨List.all_eq_true.mpr fun ap hap => ?_, ht.returned⟩
    exact decide_eq_true (ht.results ap hap)
  · exact {
      mirrors := fun m hm hplain => mirrors_of_kept ht (kept_of_run ht hargs hm hplain)
      next := fun m w reply hm hplain => next_of_kept ht w reply (kept_of_run ht hargs hm hplain)
      runs := by
        intro m w reply w₀ answers hm hresumes hplain
        have hsofar : PlainSoFar rt f args m := by
          intro w₁ hw₁
          cases hresumes with
          | first hnone =>
            rw [hnone] at hw₁
            cases hw₁
          | ready hwaits _ =>
            obtain rfl := Option.some.inj (hwaits.began.symm.trans hw₁)
            exact hplain.of_prefix
        obtain ⟨p, q, hpoll, halong⟩ :=
          along_of_resumes mixed ht hargs (kept_of_run ht hargs hm hsofar) hresumes
        constructor
        · intro e he
          obtain ⟨o, ho, hparked⟩ := parked_of_poll ht hplain halong (Yields.after hpoll he)
          exact ⟨o, ho, hparked.sameEnd⟩
        · intro o ho
          obtain ⟨e, he, hparked⟩ := parked_of_body ht hplain halong ho
          exact ⟨e, Yields.of_reaches hpoll he, hparked.sameEnd⟩
      rests := fun m w reply o hm hplain h =>
        poll_of_rests ht hargs (kept_of_run ht hargs hm hplain) h }

end Runs

/-- Awaits `_1` and then tells case 1 of the tag `_2` from the others, as a `match` does. -/
def awaitsThenMatches : MirFunction :=
  { plainFunction "f" 2 [.int, .future .int, .int, .int]
      [⟨[⟨.assign 3 (.call (.const (.function "__olive_await")) [.copy 1]), .default⟩],
          plainTerm (.switchInt (.copy 2) [(1, 1)] 2)⟩,
        ⟨[⟨.assign 0 (.use (.const (.int 10))), .default⟩], plainTerm .ret⟩,
        ⟨[⟨.assign 0 (.use (.const (.int 20))), .default⟩], plainTerm .ret⟩] with
    isAsync := true }

theorem awaitsThenMatches_translatable : Translatable awaitsThenMatches [⟨0, 0, 3, 1⟩] where
  analyzed := by
    have hbfs : bfsOrder awaitsThenMatches = [0, 1, 2] := by
      have hzero : bfs awaitsThenMatches.successors 3 [0] [] =
          bfs awaitsThenMatches.successors 3 [1, 2] [0] := by
        rw [bfs, dif_neg (by decide)]
        rfl
      have hone : bfs awaitsThenMatches.successors 3 [1, 2] [0] =
          bfs awaitsThenMatches.successors 3 [2] [0, 1] := by
        rw [bfs, dif_neg (by decide)]
        rfl
      have htwo : bfs awaitsThenMatches.successors 3 [2] [0, 1] =
          bfs awaitsThenMatches.successors 3 [] [0, 1, 2] := by
        rw [bfs.eq_2, dif_neg (by decide)]
        rfl
      exact hzero.trans (hone.trans (htwo.trans (bfs.eq_1 _ _ _)))
    rw [analyzeAsyncSm, hbfs]
    rfl
  declared := {
    args := by decide
    dst := by
      intro stmt hmem l hl
      simp only [awaitsThenMatches, plainFunction, MirFunction.statements] at hmem
      obtain rfl | rfl | rfl := by simpa using hmem
      all_goals
        cases hl
        decide
    clears := by
      intro stmt hmem l hl
      simp only [awaitsThenMatches, plainFunction, MirFunction.statements] at hmem
      obtain rfl | rfl | rfl := by simpa using hmem
      all_goals cases hl
    term := by
      intro bb term hterm l hl
      rcases bb with _ | _ | _ | bb
      iterate 3
        cases hterm
        cases hl
      cases hterm }
  oneSlot := by
    intro l
    rcases l with _ | _ | _ | _ | l
    iterate 4 rfl
    rw [tyOf, List.getElem?_eq_none (by exact Nat.le_add_left 4 l)]
    rfl
  results := by decide
  returned := rfl
  few := by decide

theorem smSimulates_awaitsThenMatches :
    ∃ code, translateAsyncSmPoll awaitsThenMatches [⟨0, 0, 3, 1⟩] = some code ∧
      SmSimulates plainRuntime (fun _ => .word 0) awaitsThenMatches [⟨0, 0, 3, 1⟩] code
        (smWrapperFrame awaitsThenMatches (fun _ => ⟨.word 0, 0⟩) [.word 5, .word 1])
        [.word 5, .word 1] :=
  smSimulates plainRuntime (fun _ => .word 0) awaitsThenMatches _ awaitsThenMatches_translatable
    (fun _ => ⟨.word 0, 0⟩) [.word 5, .word 1] rfl

section Counterexample

variable {W : Type} (rt : Runtime W) (mixed : List Cell → Val) (f : MirFunction)
  (points : List SmAwaitPoint) (code : Label → CodeBlock)

/-- One poll, within `n` steps. -/
def pollOnce (n : Nat) (reply : Word → World W → Word × World W) (w : World W) (m : Polled W) :
    Option (Polled W) :=
  match runs (pollStep rt mixed f points reply code) n (m.entry w) with
  | .inr (.returned v p) => some (m.after w v p)
  | _ => none

variable {rt mixed f points code}

theorem PollRun.once {frame : Frame} {n : Nat} {reply : Word → World W → Word × World W}
    {w : World W} {m m' : Polled W} (h : PollRun rt mixed f points code frame m)
    (hm : pollOnce rt mixed f points code n reply w m = some m') :
    PollRun rt mixed f points code frame m' := by
  unfold pollOnce at hm
  split at hm
  next v p he =>
    obtain rfl := Option.some.inj hm
    exact .poll h ⟨n, he⟩
  next => cases hm

/-- On a tag of 2 the poll takes the way of tag 1. -/
theorem awaitsThenMatches_mistaken :
    ¬∀ (rt : Runtime Unit) (mixed : List Cell → Val) (f : MirFunction)
      (points : List SmAwaitPoint) (fresh : Frame) (args : List Val),
      analyzeAsyncSm f = some points → Declared f → args.length = f.argCount →
      ∃ code, translateAsyncSmPoll f points = some code ∧
        ∀ m, PollRun rt mixed f points code (smWrapperFrame f fresh args) m →
          Mirrors rt f args m := by
  intro h
  obtain ⟨code, hcode, hmirrors⟩ := h plainRuntime (fun _ => .word 0) awaitsThenMatches
    [⟨0, 0, 3, 1⟩] (fun _ => ⟨.word 0, 0⟩) [.word 5, .word 2]
    awaitsThenMatches_translatable.analyzed awaitsThenMatches_translatable.declared rfl
  obtain rfl := Option.some.inj hcode
  let poll := pollOnce plainRuntime (fun _ => .word 0) awaitsThenMatches [⟨0, 0, 3, 1⟩]
    (translateBlock awaitsThenMatches [⟨0, 0, 3, 1⟩])
  let frame := smWrapperFrame awaitsThenMatches (fun _ => ⟨.word 0, 0⟩) [.word 5, .word 2]
  have hpolls : ((poll 30 (fun _ w => (7, w)) emptyWorld (Polled.fresh frame)).bind
      fun m => (poll 30 (fun _ w => (7, w)) emptyWorld m).map
        fun m => (m.returned, m.answers.map Prod.fst)) =
      some ([.word pollPending, .word 10], [7]) := by decide +kernel
  obtain ⟨m, hm, hrest⟩ := Option.bind_eq_some_iff.mp hpolls
  obtain ⟨m', hm', hends⟩ := Option.map_eq_some_iff.mp hrest
  obtain ⟨hreturned, hanswers⟩ := Prod.mk.inj hends
  have hpending : Val.word 10 ≠ .word pollPending := by decide
  cases hmirrors m' ((PollRun.fresh.once hm).once hm') with
  | fresh _ hr =>
    rw [hr] at hreturned
    cases hreturned
  | waiting _ _ _ _ _ hr => exact hpending (hr _ (by simp [hreturned]))
  | @done w w' v i j _ hbody hr =>
    have hlast : v = .word 10 := by
      have hgot : m'.returned.getLast? = some v := by
        rw [hr, List.replicate_succ', ← List.append_assoc, List.getLast?_concat]
      rw [hreturned] at hgot
      exact (Option.some.inj hgot).symm
    obtain ⟨⟨r, w''⟩, hanswer, hr'⟩ := List.map_eq_singleton_iff.mp hanswers
    obtain rfl : r = 7 := hr'
    obtain ⟨n, hn⟩ := hbody
    rw [hanswer, hlast] at hn
    have htwenty : ∃ log trace, runs (bodyStep plainRuntime awaitsThenMatches) 4
        (bodyStart [.word 5, .word 2] w [(7, w'')]) =
        .inr (.ended (.returned (.word 20) w'' log) trace) := ⟨_, _, rfl⟩
    obtain ⟨log, trace, hrun⟩ := htwenty
    cases runs_end_unique hn hrun

end Counterexample

end AsyncSm

end Olive
