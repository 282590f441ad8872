import Olive.ExecutorKept

namespace Olive

open Interleaving

namespace OliveExecutor

variable {heap : ExecHeap} {ex ex' : OliveExecutor} {w : ExecThread} {t : TaskId}

/-- A thread goes on with the one task in its hands. -/
theorem Tracked.carry {pc₀ pc : ExecPc} (h : Tracked ex) (hpc : ex.pc w = pc₀)
    (hhands : pc.hands = pc₀.hands) (hfound : pc.found ⊆ pc₀.found)
    (hdrives : pc.drives? = pc₀.drives?) (hpopped : ∀ t, pc₀ = .popped t → (ex.tasks t).queued = false) :
    Tracked (ex.goto w pc) := by
  refine h.goto hpc ?_ ?_ hdrives hpopped
  · rw [hhands]
    exact List.Subset.refl _
  · rintro u (hu | hu)
    · rw [hhands] at hu
      exact .inl hu
    · exact .inr (.inl (hfound hu))

theorem Tracked.goWorker (h : Tracked ex)
    (hpc : ex.pc w = .idle ∨ ex.pc w = .popped t ∨ ex.pc w = .cleared t ∨ ex.pc w = .rerun t)
    (hgo : ex.go heap w = some ex') : Tracked ex' := by
  unfold go at hgo
  rcases hpc with hpc | hpc | hpc | hpc
  · simp only [hpc] at hgo
    split at hgo
    next => cases hgo
    next u ready hready =>
      obtain rfl := Option.some.inj hgo
      exact h.pop hpc hready
  · simp only [hpc] at hgo
    obtain rfl := Option.some.inj hgo
    have hcleared := @Tracked.modify ex t h (fun task => { task with queued := false })
      ⟨rfl, (fun hq => by cases hq), rfl, rfl, rfl⟩ rfl
    refine hcleared.carry hpc rfl (List.nil_subset _) rfl fun u hu => ?_
    cases hu
    rw [modify_self]
  · simp only [hpc] at hgo
    split at hgo
    next v hv =>
      obtain rfl := Option.some.inj hgo
      have htaken := @Tracked.modify ex t h (fun task => { task with pendingResult := none })
        ⟨rfl, id, rfl, rfl, rfl⟩ rfl
      exact htaken.carry hpc rfl (List.nil_subset _) rfl fun u hu => by cases hu
    next =>
      obtain rfl := Option.some.inj hgo
      exact h.carry hpc rfl (List.nil_subset _) rfl fun u hu => by cases hu
  · simp only [hpc] at hgo
    obtain rfl := Option.some.inj hgo
    exact h.enqueueGoto hpc rfl rfl rfl fun u hu => by cases hu

theorem Tracked.goDrive {resumed : Resumed} {v result : Word} (h : Tracked ex)
    (hpc : ex.pc w = .claim t resumed ∨ ex.pc w = .restore t v ∨ ex.pc w = .polled t resumed result)
    (hgo : ex.go heap w = some ex') : Tracked ex' := by
  unfold go at hgo
  rcases hpc with hpc | hpc | hpc
  · simp only [hpc] at hgo
    split at hgo
    next hdriving =>
      cases resumed with
      | drive =>
        obtain rfl := Option.some.inj hgo
        exact h.carry hpc rfl (List.nil_subset _) rfl fun u hu => by cases hu
      | completeWaker v =>
        -- the task stays in the hands of the thread that polls it
        obtain rfl := Option.some.inj hgo
        refine h.leave hpc ⟨rfl, rfl⟩ rfl (fun u hu => by cases hu) ?_
        intro u hu
        obtain rfl := List.mem_singleton.mp hu
        obtain ⟨x, hx⟩ := h.driven.driving u hdriving
        refine .inr (.inr (.inl ⟨x, ?_, ?_⟩))
        · rintro rfl
          rw [hpc] at hx
          cases hx
        · cases hxpc : ex.pc x with
          | polling y resumed | polled y resumed result =>
            rw [hxpc] at hx
            obtain rfl := Option.some.inj hx
            exact List.mem_singleton_self _
          | _ =>
            rw [hxpc] at hx
            cases hx
    next hfree =>
      obtain rfl := Option.some.inj hgo
      exact h.take hpc (by simpa using hfree)
  · simp only [hpc] at hgo
    obtain rfl := Option.some.inj hgo
    have hgiven := @Tracked.modify ex t h (fun task => { task with pendingResult := some v })
      ⟨rfl, id, rfl, rfl, rfl⟩ rfl
    exact hgiven.carry hpc rfl (List.nil_subset _) rfl fun u hu => by cases hu
  · simp only [hpc] at hgo
    obtain rfl := Option.some.inj hgo
    split
    · exact h.release hpc rfl rfl rfl
    · exact h.release hpc rfl rfl rfl

theorem Tracked.goPark {resumed : Resumed} {sub : Word} (h : Tracked ex)
    (hcareful : Careful heap ex (w, .go))
    (hpc : ex.pc w = .park t resumed ∨ ex.pc w = .parkFuture t resumed sub ∨
      ex.pc w = .parkTask t resumed sub) (hgo : ex.go heap w = some ex') : Tracked ex' := by
  have hdropped := hcareful.requeued rfl
  unfold discards at hdropped
  unfold go at hgo
  rcases hpc with hpc | hpc | hpc
  · simp only [hpc] at hgo hdropped
    have hkept : ¬(ex.subFuture (ex.tasks t).smFuture ≠ 0 ∧
        (heap.kind (ex.subFuture (ex.tasks t).smFuture) = kindFuture ∨
          heap.kind (ex.subFuture (ex.tasks t).smFuture) = kindSmFuture)) →
        ∀ v, resumed = .completeWaker v → (ex.tasks t).queued = true ∨ Registered ex t := by
      rintro hsub v rfl
      exact .inl (hdropped t (if_neg hsub))
    split at hgo
    next hzero =>
      obtain rfl := Option.some.inj hgo
      exact h.returns resumed hpc rfl rfl (fun u hu => by cases hu) (hkept fun hsub => hsub.1 hzero)
    next =>
      split at hgo
      next =>
        obtain rfl := Option.some.inj hgo
        exact h.carry hpc rfl (List.nil_subset _) rfl fun u hu => by cases hu
      next hfuture =>
        split at hgo
        next =>
          obtain rfl := Option.some.inj hgo
          exact h.carry hpc rfl (List.nil_subset _) rfl fun u hu => by cases hu
        next hmachine =>
          obtain rfl := Option.some.inj hgo
          refine h.returns resumed hpc rfl rfl (fun u hu => by cases hu) (hkept fun hsub => ?_)
          exact hsub.2.elim hfuture hmachine
  · simp only [hpc] at hgo
    split at hgo
    next =>
      obtain rfl := Option.some.inj hgo
      refine h.returns resumed hpc rfl rfl (fun u hu => by cases hu) ?_
      rintro v rfl
      simp only [hpc] at hdropped
      exact .inl (hdropped t rfl)
    next => cases hgo
  · simp only [hpc] at hgo
    obtain rfl := Option.some.inj hgo
    exact h.lookUp hpc (hcareful.renewed rfl sub (by rw [hpc]; rfl)) rfl rfl rfl fun u hu => by cases hu

theorem Tracked.goSub {resumed : Resumed} {sub : TaskId} {v : Word} (h : Tracked ex)
    (hcareful : Careful heap ex (w, .go))
    (hpc : ex.pc w = .parkTake t resumed sub ∨ ex.pc w = .parkGive t resumed v ∨
      ex.pc w = .parkRegister t resumed sub ∨ ex.pc w = .parkEnqueue t resumed sub)
    (hgo : ex.go heap w = some ex') : Tracked ex' := by
  have hdropped := hcareful.requeued rfl
  unfold discards at hdropped
  unfold go at hgo
  rcases hpc with hpc | hpc | hpc | hpc
  · simp only [hpc] at hgo
    split at hgo
    next =>
      obtain rfl := Option.some.inj hgo
      have htaken := @Tracked.modify ex sub h (fun task => { task with pendingResult := none })
        ⟨rfl, id, rfl, rfl, rfl⟩ rfl
      exact htaken.carry hpc rfl (List.nil_subset _) rfl fun u hu => by cases hu
    next =>
      obtain rfl := Option.some.inj hgo
      exact h.carry hpc rfl (List.Subset.refl _) rfl fun u hu => by cases hu
  · simp only [hpc] at hgo
    obtain rfl := Option.some.inj hgo
    have hgiven := @Tracked.modify ex t h (fun task => { task with pendingResult := some v })
      ⟨rfl, id, rfl, rfl, rfl⟩ rfl
    refine hgiven.returns resumed hpc rfl rfl (fun u hu => by cases hu) ?_
    rintro x rfl
    simp only [hpc] at hdropped
    rw [modify_self]
    exact .inl (hdropped t rfl)
  · simp only [hpc] at hgo
    split at hgo
    next hnot =>
      obtain rfl := Option.some.inj hgo
      refine h.returns resumed hpc rfl rfl (fun u hu => by cases hu) ?_
      rintro x rfl
      simp only [hpc] at hdropped
      cases hdone : (ex.tasks sub).done with
      | true => exact .inl (hdropped t (if_pos hdone))
      | false =>
        rw [hdone] at hnot
        exact .inr ⟨sub, hnot.resolve_left (by decide), hdone⟩
    next hnot =>
      obtain rfl := Option.some.inj hgo
      exact h.register hpc (Bool.eq_false_iff.mpr fun hdone => hnot (.inl hdone))
  · simp only [hpc] at hgo
    obtain rfl := Option.some.inj hgo
    have hidle : resumed.returns t .parked = .idle := by cases resumed <;> rfl
    rw [hidle]
    exact h.enqueueGoto hpc rfl rfl rfl fun u hu => by cases hu

/-- A thread lets go of a task that is done, and keeps its waiters. -/
theorem Tracked.letGo {v : Word} {waiters : List TaskId} (h : Tracked ex)
    (hpc : ex.pc w = .wake v (t :: waiters)) (hdone : (ex.tasks t).done = true) :
    Tracked (ex.goto w (.unmap t v waiters)) := by
  refine ⟨h.placed.goto ?_ ?_ ?_, h.driven.goto (by rw [hpc]; rfl)⟩
  · rintro u (hu | hu)
    · refine .inl (.inr (.inl ⟨w, .inl ?_⟩))
      rw [hpc]
      exact List.mem_cons_of_mem _ hu
    · cases hu
  · intro u hu
    rw [hpc] at hu
    cases hu
  · intro u hu
    rw [hpc] at hu
    rcases List.mem_cons.mp hu with rfl | hu
    · exact .inr (.inl hdone)
    · exact .inl hu

theorem Tracked.goComplete {v : Word} {u : TaskId} {waiters : List TaskId} (h : Tracked ex)
    (hpc : ex.pc w = .cache t v ∨ ex.pc w = .deliver t v ∨ ex.pc w = .finish t v ∨
      ex.pc w = .unmap t v waiters ∨ ex.pc w = .wake v waiters ∨ ex.pc w = .wakeEnqueue v u waiters)
    (hgo : ex.go heap w = some ex') : Tracked ex' := by
  unfold go at hgo
  rcases hpc with hpc | hpc | hpc | hpc | hpc | hpc
  · simp only [hpc] at hgo
    obtain rfl := Option.some.inj hgo
    have hcached : Tracked { ex with subFuture := fun m =>
        if m = (ex.tasks t).smFuture then heap.relocate v else ex.subFuture m } :=
      ⟨h.placed.congr rfl rfl rfl rfl fun u => .refl _, h.driven.congr (fun _ => rfl) fun _ => rfl⟩
    exact hcached.carry hpc rfl (List.nil_subset _) rfl fun u hu => by cases hu
  · simp only [hpc] at hgo
    obtain rfl := Option.some.inj hgo
    have htaken := @Tracked.modify ex t h (fun task => { task with completions := [] })
      ⟨rfl, id, rfl, rfl, rfl⟩ rfl
    have hdelivered : Tracked { ex.modify t fun task => { task with completions := [] } with
        completed := fun u => if u ∈ (ex.tasks t).completions then some v else ex.completed u } :=
      ⟨htaken.placed.congr rfl rfl rfl rfl fun u => .refl _,
        htaken.driven.congr (fun _ => rfl) fun _ => rfl⟩
    exact hdelivered.carry hpc rfl (List.nil_subset _) rfl fun u hu => by cases hu
  · simp only [hpc] at hgo
    obtain rfl := Option.some.inj hgo
    -- the task and its waiters are in the same hands until it is done
    have hmoved : Tracked (ex.goto w (.wake v (t :: (ex.tasks t).smWaiters))) := by
      refine h.goto hpc ?_ ?_ rfl fun u hu => by cases hu
      · intro u hu
        obtain rfl := List.mem_singleton.mp hu
        exact List.mem_cons_self
      · rintro u (hu | hu)
        · rcases List.mem_cons.mp hu with rfl | hu
          · exact .inl (List.mem_singleton_self u)
          · exact .inr (.inr (.inl (.inr (.inr ⟨t, hu⟩))))
        · cases hu
    have hfinished := @Tracked.finish _ w t hmoved fun u hu => by
      rw [goto_pc_self]
      exact List.mem_cons_of_mem _ hu
    have hleft := hfinished.letGo (goto_pc_self _) (by rw [modify_self])
    rw [show ((ex.goto w (.wake v (t :: (ex.tasks t).smWaiters))).modify t fun task =>
      { task with done := true, smWaiters := [] }).goto w (.unmap t v (ex.tasks t).smWaiters) =
        ((ex.modify t fun task => { task with done := true, smWaiters := [] }).goto w
          (.wake v (t :: (ex.tasks t).smWaiters))).goto w (.unmap t v (ex.tasks t).smWaiters) from rfl,
      goto_goto] at hleft
    exact hleft
  · simp only [hpc] at hgo
    obtain rfl := Option.some.inj hgo
    have hunmapped : Tracked { ex with taskMap := ex.taskMap.remove (ex.tasks t).smFuture } := h.unmap
    exact hunmapped.carry hpc rfl (List.nil_subset _) rfl fun u hu => by cases hu
  · simp only [hpc] at hgo
    cases waiters with
    | nil =>
      obtain rfl := Option.some.inj hgo
      exact h.carry hpc rfl (List.nil_subset _) rfl fun u hu => by cases hu
    | cons u waiters =>
      obtain rfl := Option.some.inj hgo
      have hgiven := @Tracked.modify ex u h (fun task => { task with pendingResult := some v })
        ⟨rfl, id, rfl, rfl, rfl⟩ rfl
      exact hgiven.carry hpc rfl (List.nil_subset _) rfl fun u hu => by cases hu
  · simp only [hpc] at hgo
    obtain rfl := Option.some.inj hgo
    exact h.enqueueGoto hpc rfl rfl rfl fun u hu => by cases hu

theorem Tracked.goAwait {future : Word} (h : Tracked ex) (hcareful : Careful heap ex (w, .go))
    (hpc : ex.pc w = .awaitTask future ∨ ex.pc w = .awaitPush t ∨ ex.pc w = .awaitEnqueue t ∨
      ex.pc w = .awaiting) (hgo : ex.go heap w = some ex') : Tracked ex' := by
  unfold go at hgo
  rcases hpc with hpc | hpc | hpc | hpc
  · simp only [hpc] at hgo
    obtain rfl := Option.some.inj hgo
    exact h.lookUp hpc (hcareful.renewed rfl future (by rw [hpc]; rfl)) rfl rfl rfl
      fun u hu => by cases hu
  · simp only [hpc] at hgo
    obtain rfl := Option.some.inj hgo
    have hmoved : Tracked (ex.goto w (.awaitEnqueue t)) := by
      refine h.goto hpc (List.nil_subset _) ?_ rfl fun u hu => by cases hu
      rintro u (hu | hu)
      · exact .inr (.inl hu)
      · cases hu
    exact @Tracked.ask _ t (fun task => { task with completions := task.completions ++ [w], asked := true })
      hmoved ⟨w, by rw [goto_pc_self]; exact List.mem_singleton_self t⟩
      fun _ => ⟨rfl, rfl, rfl, rfl, rfl⟩
  · simp only [hpc] at hgo
    obtain rfl := Option.some.inj hgo
    exact h.enqueueGoto hpc rfl rfl rfl fun u hu => by cases hu
  · simp only [hpc] at hgo
    split at hgo
    next =>
      obtain rfl := Option.some.inj hgo
      exact h.carry hpc rfl (List.nil_subset _) rfl fun u hu => by cases hu
    next => cases hgo

theorem Tracked.go (h : Tracked ex) (hcareful : Careful heap ex (w, .go))
    (hgo : ex.go heap w = some ex') : Tracked ex' := by
  cases hpc : ex.pc w with
  | idle => exact @Tracked.goWorker heap ex ex' w 0 h (.inl hpc) hgo
  | popped t => exact h.goWorker (.inr (.inl hpc)) hgo
  | cleared t => exact h.goWorker (.inr (.inr (.inl hpc))) hgo
  | rerun t => exact h.goWorker (.inr (.inr (.inr hpc))) hgo
  | claim t resumed => exact @Tracked.goDrive heap ex ex' w t resumed 0 0 h (.inl hpc) hgo
  | restore t v => exact @Tracked.goDrive heap ex ex' w t .drive v 0 h (.inr (.inl hpc)) hgo
  | polling t resumed =>
    unfold OliveExecutor.go at hgo
    simp only [hpc] at hgo
    cases hgo
  | polled t resumed result =>
    exact @Tracked.goDrive heap ex ex' w t resumed 0 result h (.inr (.inr hpc)) hgo
  | park t resumed => exact @Tracked.goPark heap ex ex' w t resumed 0 h hcareful (.inl hpc) hgo
  | parkFuture t resumed sub => exact h.goPark hcareful (.inr (.inl hpc)) hgo
  | parkTask t resumed sub => exact h.goPark hcareful (.inr (.inr hpc)) hgo
  | parkTake t resumed sub =>
    exact @Tracked.goSub heap ex ex' w t resumed sub 0 h hcareful (.inl hpc) hgo
  | parkGive t resumed v =>
    exact @Tracked.goSub heap ex ex' w t resumed 0 v h hcareful (.inr (.inl hpc)) hgo
  | parkRegister t resumed sub =>
    exact @Tracked.goSub heap ex ex' w t resumed sub 0 h hcareful (.inr (.inr (.inl hpc))) hgo
  | parkEnqueue t resumed sub =>
    exact @Tracked.goSub heap ex ex' w t resumed sub 0 h hcareful (.inr (.inr (.inr hpc))) hgo
  | cache t v => exact @Tracked.goComplete heap ex ex' w t v 0 [] h (.inl hpc) hgo
  | deliver t v => exact @Tracked.goComplete heap ex ex' w t v 0 [] h (.inr (.inl hpc)) hgo
  | finish t v => exact @Tracked.goComplete heap ex ex' w t v 0 [] h (.inr (.inr (.inl hpc))) hgo
  | unmap t v waiters =>
    exact @Tracked.goComplete heap ex ex' w t v 0 waiters h (.inr (.inr (.inr (.inl hpc)))) hgo
  | wake v waiters =>
    exact @Tracked.goComplete heap ex ex' w 0 v 0 waiters h (.inr (.inr (.inr (.inr (.inl hpc))))) hgo
  | wakeEnqueue v u waiters =>
    exact @Tracked.goComplete heap ex ex' w 0 v u waiters h (.inr (.inr (.inr (.inr (.inr hpc))))) hgo
  | awaitTask future => exact @Tracked.goAwait heap ex ex' w 0 future h hcareful (.inl hpc) hgo
  | awaitPush t => exact @Tracked.goAwait heap ex ex' w t 0 h hcareful (.inr (.inl hpc)) hgo
  | awaitEnqueue t => exact @Tracked.goAwait heap ex ex' w t 0 h hcareful (.inr (.inr (.inl hpc))) hgo
  | awaiting => exact @Tracked.goAwait heap ex ex' w 0 0 h hcareful (.inr (.inr (.inr hpc))) hgo

theorem Tracked.next {step : ExecThread × ExecAction} (h : Tracked ex) (hcareful : Careful heap ex step)
    (hnext : ex.next heap step = some ex') : Tracked ex' := by
  obtain ⟨w, action⟩ := step
  cases action with
  | go => exact h.go hcareful hnext
  | poll result sub =>
    unfold OliveExecutor.next at hnext
    cases hpc : ex.pc w with
    | polling t resumed =>
      simp only [hpc] at hnext
      obtain rfl := Option.some.inj hnext
      have hleft : Tracked { ex with subFuture := fun m =>
          if m = (ex.tasks t).smFuture then sub else ex.subFuture m } :=
        ⟨h.placed.congr rfl rfl rfl rfl fun u => .refl _, h.driven.congr (fun _ => rfl) fun _ => rfl⟩
      exact hleft.carry hpc rfl (List.nil_subset _) rfl fun u hu => by cases hu
    | _ =>
      simp only [hpc] at hnext
      cases hnext
  | await future =>
    unfold OliveExecutor.next at hnext
    cases hpc : ex.pc w with
    | idle =>
      simp only [hpc] at hnext
      obtain rfl := Option.some.inj hnext
      have hleft : Tracked { ex with completed := fun u => if u = w then none else ex.completed u } :=
        ⟨h.placed.congr rfl rfl rfl rfl fun u => .refl _, h.driven.congr (fun _ => rfl) fun _ => rfl⟩
      exact hleft.carry hpc rfl (List.nil_subset _) rfl fun u hu => by cases hu
    | _ =>
      simp only [hpc] at hnext
      cases hnext
  | makeReady future =>
    obtain rfl := Option.some.inj hnext
    exact ⟨h.placed.congr rfl rfl rfl rfl fun u => .refl _, h.driven.congr (fun _ => rfl) fun _ => rfl⟩

theorem tracked_executorNew : Tracked executorNew := by
  have hnone : ∀ t, ¬Around executorNew t := by
    rintro t ((ht | ⟨w, ht | ht⟩ | ⟨u, ht⟩) | ⟨m, ht⟩) <;> cases ht
  refine ⟨⟨?_, ?_, fun t ht => absurd ht (hnone t), fun _ _ => rfl, ?_, ?_⟩, ⟨?_, ?_, ?_⟩⟩
  · intro t ht
    cases ht
  · intro t ht
    cases ht
  · intro m t ht
    cases ht
  · intro t t' ht
    exact absurd ht (hnone t)
  · intro w t ht
    cases ht
  · intro w w' t ht
    cases ht
  · intro t ht
    cases ht

/-- A task that has been awaited or enqueued is done, queued, in a thread's hands or a waiter of a task
that is not done; and no machine is polled twice at once. -/
structure KeepsTasks (ex : OliveExecutor) : Prop where
  kept : ∀ t, (ex.tasks t).asked = true → (ex.tasks t).done = false →
    t ∈ ex.ready ∨ (∃ w, t ∈ (ex.pc w).hands) ∨ Registered ex t
  alone : ∀ w w' t t' resumed resumed', ex.pc w = .polling t resumed →
    ex.pc w' = .polling t' resumed' → (ex.tasks t).smFuture = (ex.tasks t').smFuture → w = w'

theorem Tracked.keepsTasks (h : Tracked ex) : KeepsTasks ex := by
  refine ⟨h.placed.kept, ?_⟩
  intro w w' t t' resumed resumed' hw hw' heq
  have hin : ∀ {u v r}, ex.pc u = .polling v r → Around ex v := by
    intro u v r hu
    refine .inl (.inr (.inl ⟨u, .inl ?_⟩))
    rw [hu]
    exact List.mem_singleton_self v
  obtain rfl := h.placed.single t t' (hin hw) (hin hw') heq
  exact h.driven.alone w w' t (by rw [hw]; rfl) (by rw [hw']; rfl)

end OliveExecutor

open OliveExecutor

/-- In every run in which a dropped task has been queued again and a machine gets a new task only when
no task of it is in use, the executor keeps its tasks. -/
theorem executor_keeps_tasks (heap : ExecHeap) {ex : OliveExecutor}
    (h : Reachable (next heap) (Careful heap) executorNew ex) : KeepsTasks ex :=
  (h.invariant tracked_executorNew fun _ _ _ htracked hcareful hnext =>
    htracked.next hcareful hnext).keepsTasks

/-- A machine is awaited, polled once and done. -/
theorem executor_keeps_tasks_awaited :
    ∃ ex : OliveExecutor, ex.completed 0 = some 7 ∧ KeepsTasks ex := by
  let heap : ExecHeap := ⟨fun _ => kindSmFuture, id⟩
  let p : OliveExecutor → ExecThread × ExecAction → Bool := fun ex step =>
    (ex.discards heap step.1).isNone && (ex.pc step.1).looksUp?.isNone
  have hp : ∀ ex step, p ex step = true → Careful heap ex step := by
    intro ex step h
    obtain ⟨hdiscards, hlooks⟩ := Bool.and_eq_true_iff.mp h
    refine ⟨fun _ t ht => ?_, fun _ m hm => ?_⟩
    · rw [ht] at hdiscards
      cases hdiscards
    · rw [hm] at hlooks
      cases hlooks
  -- the executor has no task when the machine is looked up
  let asks : OliveExecutor := { executorNew with
    completed := fun u => if u = 0 then none else none }.goto 0 (.awaitTask 9)
  have hasks : Reachable (next heap) (Careful heap) executorNew asks :=
    Reachable.step (a := (0, .await 9)) .start (hp _ _ rfl) rfl
  have hempty : ∀ t, ¬InUse asks t := by
    rintro t (ht | ⟨w, hw⟩ | ⟨u, hu⟩)
    · cases ht
    · by_cases h0 : w = 0
      · subst h0
        rw [goto_pc_self] at hw
        rcases hw with hw | hw <;> cases hw
      · rw [goto_pc_of_ne _ h0] at hw
        rcases hw with hw | hw <;> cases hw
    · cases hu
  have hcareful : Careful heap asks (0, .go) :=
    ⟨fun _ t ht => (by cases ht), fun _ m _ _ t ht => absurd ht (hempty t)⟩
  have hfound : Reachable (next heap) (Careful heap) executorNew
      ((asks.getOrCreate 9).2.goto 0 (.awaitPush 0)) :=
    Reachable.step (a := (0, .go)) hasks hcareful rfl
  let steps : List (ExecThread × ExecAction) :=
    [(0, .go), (0, .go), (1, .go), (1, .go), (1, .go), (1, .go), (1, .poll 7 0), (1, .go), (1, .go),
      (1, .go)]
  have hend : (schedule (next heap) p ((asks.getOrCreate 9).2.goto 0 (.awaitPush 0)) steps).map
      (fun ex => ex.completed 0) = some (some 7) := rfl
  obtain ⟨ex, hex, hread⟩ := Option.map_eq_some_iff.mp hend
  exact ⟨ex, hread, executor_keeps_tasks heap (reachable_of_schedule hp hfound hex)⟩

/-- A machine whose awaited machine has finished waits for a plain future next, and is dropped. -/
theorem executor_loses_task :
    ¬ ∀ heap ex, Reachable (next heap) (fun _ _ => True) executorNew ex → KeepsTasks ex := by
  intro hall
  let heap : ExecHeap := ⟨fun a => if a = 3 then kindFuture else kindSmFuture, id⟩
  let steps : List (ExecThread × ExecAction) :=
    [(0, .await 1), (0, .go), (0, .go), (0, .go)] ++
    -- the first machine awaits the second
    [(1, .go), (1, .go), (1, .go), (1, .go), (1, .poll pollPending 2), (1, .go), (1, .go), (1, .go),
      (1, .go), (1, .go), (1, .go)] ++
    -- the second finishes and wakes the first
    [(1, .go), (1, .go), (1, .go), (1, .go), (1, .poll 7 0), (1, .go), (1, .go), (1, .go), (1, .go),
      (1, .go), (1, .go), (1, .go), (1, .go)] ++
    -- the first awaits a plain future
    [(1, .go), (1, .go), (1, .go), (1, .go), (1, .poll pollPending 3), (1, .go), (1, .go),
      (2, .makeReady 3), (1, .go)]
  obtain ⟨ex, hex⟩ := Option.isSome_iff_exists.mp
    (rfl : (schedule (next heap) (fun _ _ => true) executorNew steps).isSome = true)
  have hkept := (hall heap ex (reachable_of_schedule (fun _ _ _ => trivial) .start hex)).kept 0
  have hhands : ∀ w, (ex.pc w).hands = [] := by
    cases hex
    intro w
    rcases w with _ | _ | w <;> rfl
  have hwaiters : ∀ u, (ex.tasks u).smWaiters = [] := by
    cases hex
    intro u
    rcases u with _ | _ | u <;> rfl
  have hleft : (ex.tasks 0).asked = true ∧ (ex.tasks 0).done = false ∧ ex.ready = [] := by
    cases hex
    exact ⟨rfl, rfl, rfl⟩
  obtain ⟨hasked, hdone, hready⟩ := hleft
  rcases hkept hasked hdone with hr | ⟨w, hw⟩ | ⟨u, hu, -⟩
  · rw [hready] at hr
    cases hr
  · rw [hhands w] at hw
    cases hw
  · rw [hwaiters u] at hu
    cases hu

/-- Without the second condition: a task left in the queue is polled beside the new one of its
machine. -/
theorem executor_polls_twice : ¬ ∀ heap ex, Reachable (next heap) (fun ex step => step.2 = .go →
    ∀ t, ex.discards heap step.1 = some t → (ex.tasks t).queued = true) executorNew ex →
      KeepsTasks ex := by
  intro hall
  let heap : ExecHeap := ⟨fun _ => kindSmFuture, id⟩
  let steps : List (ExecThread × ExecAction) :=
    [(0, .await 1), (0, .go), (0, .go), (0, .go), (1, .go), (1, .go), (1, .go), (1, .go)] ++
    -- awaited again while it is polled for the first time
    [(3, .await 1), (3, .go), (3, .go), (3, .go), (1, .poll 7 0), (1, .go), (1, .go), (1, .go),
      (1, .go), (1, .go), (1, .go)] ++
    -- its task is done, and still queued
    [(1, .go), (1, .go), (1, .go), (1, .go), (4, .await 1), (4, .go), (4, .go), (4, .go), (2, .go),
      (2, .go), (2, .go), (2, .go)]
  let p : OliveExecutor → ExecThread × ExecAction → Bool := fun ex step =>
    (ex.discards heap step.1).isNone
  have hp : ∀ ex step, p ex step = true → step.2 = .go →
      ∀ t, ex.discards heap step.1 = some t → (ex.tasks t).queued = true := by
    intro ex step h _ t ht
    have hnone : (ex.discards heap step.1).isNone = true := h
    rw [ht] at hnone
    cases hnone
  obtain ⟨ex, hex⟩ := Option.isSome_iff_exists.mp
    (rfl : (schedule (next heap) p executorNew steps).isSome = true)
  have halone := (hall heap ex (reachable_of_schedule hp .start hex)).alone 1 2 0 1 .drive .drive
  cases hex
  exact absurd (halone rfl rfl rfl) (by decide)

end Olive
