import Olive.Channel

namespace Olive

open Interleaving

def ChanPc.holdsLock : ChanPc → Bool
  | .sendPush _ _ | .sendUnlock _ _ | .recvPop | .recvLoad | .recvWait | .tryPop | .unlock _ => true
  | _ => false

/-- On the way to a queued message: about to wake a receiver for it, or to look for it. -/
def ChanPc.coming : ChanPc → Bool
  | .sendUnlock _ _ | .sendNotify _ _ | .recvWoken | .recvPop => true
  | _ => false

/-- The message of a send that has not returned. -/
def ChanPc.sending? : ChanPc → Option Message
  | .sendLoad msg _ | .sendLock msg _ | .sendPush msg _ | .sendUnlock msg _ | .sendNotify msg _ =>
    some msg
  | _ => none

/-- The message of a send that has queued it and not returned. -/
def ChanPc.pushed? : ChanPc → Option Message
  | .sendUnlock msg _ | .sendNotify msg _ => some msg
  | _ => none

/-- Past the check of `closed`, in a send called after a close had returned. -/
def ChanPc.passedLate : ChanPc → Bool
  | .sendLock _ late | .sendPush _ late | .sendUnlock _ late | .sendNotify _ late => late
  | _ => false

/-- In a close that has still to wake the receivers. -/
def ChanPc.closing : ChanPc → Bool
  | .closeStore | .closeNotify => true
  | _ => false

/-- In `wait`, or past the last check before it. -/
def ChanPc.waits : ChanPc → Bool
  | .recvWait | .recvWaiting => true
  | _ => false

namespace OliveChannel

variable {ch ch' : OliveChannel} {t : ThreadId}

@[simp] theorem goto_pc_self (pc : ChanPc) : (ch.goto t pc).pc t = pc := if_pos rfl

theorem goto_pc_of_ne (pc : ChanPc) {u : ThreadId} (h : u ≠ t) : (ch.goto t pc).pc u = ch.pc u :=
  if_neg h

/-- A fact about program counters is kept by a move that keeps it for the thread that moves. -/
theorem goto_pc_congr {α : Type} (f : ChanPc → α) {pc : ChanPc} (h : f pc = f (ch.pc t))
    (u : ThreadId) : f ((ch.goto t pc).pc u) = f (ch.pc u) := by
  by_cases hu : u = t
  · subst hu
    rw [goto_pc_self]
    exact h
  · rw [goto_pc_of_ne pc hu]

theorem notifyAll_pc_congr {α : Type} (f : ChanPc → α) (h : f .recvWoken = f .recvWaiting)
    (hw : ∀ u, u ∈ ch.waiters → ch.pc u = .recvWaiting) (u : ThreadId) :
    f (ch.notifyAll.pc u) = f (ch.pc u) := by
  unfold notifyAll
  dsimp only
  split
  next hu =>
    rw [hw u hu]
    exact h
  next => rfl

/-! ### The lock and the waiters -/

/-- Who holds the lock and who waits. -/
structure Locked (ch : OliveChannel) : Prop where
  lock : ∀ u, (ch.pc u).holdsLock = true ↔ ch.lock = some u
  nodup : ch.waiters.Nodup
  waiters : ∀ u, u ∈ ch.waiters ↔ ch.pc u = .recvWaiting
  empty : ∀ u, ch.pc u = .recvLoad ∨ ch.pc u = .recvWait → ch.queue = []

theorem Locked.alone (h : Locked ch) {u : ThreadId} (ht : (ch.pc t).holdsLock = true)
    (hu : (ch.pc u).holdsLock = true) : u = t :=
  Option.some.inj (((h.lock u).mp hu).symm.trans ((h.lock t).mp ht))

theorem locked_chanNew : Locked chanNew where
  lock _ := by simp [chanNew, ChanPc.holdsLock]
  nodup := List.nodup_nil
  waiters _ := by simp [chanNew]
  empty _ := by simp [chanNew]


theorem locked_lock (h : Locked ch) (hstep : StepOf ch t ch') :
    ∀ u, (ch'.pc u).holdsLock = true ↔ ch'.lock = some u := by
  have hlock := h.lock
  have hwaiters := h.waiters
  cases hstep with
  | move hpc hm => cases hm <;> grind [goto, ChanPc.holdsLock]
  | call val hi => grind [goto, ChanPc.holdsLock]
  | refuse => grind [goto, sendReturns, ChanPc.holdsLock]
  | lock hpc hl => cases hl <;> grind [goto, ChanPc.holdsLock]
  | unlock hpc hl => cases hl <;> grind [goto, release, ChanPc.holdsLock]
  | push => grind [goto, ChanPc.holdsLock]
  | pop hpc hp => cases hp <;> grind [goto, ChanPc.holdsLock]
  | wait => grind [goto, release, ChanPc.holdsLock]
  | notify => grind [goto, wake, sendReturns, ChanPc.holdsLock]
  | notifyNone => grind [goto, sendReturns, ChanPc.holdsLock]
  | store => grind [goto, ChanPc.holdsLock]
  | notifyAll => grind [goto, notifyAll, ChanPc.holdsLock]

theorem locked_nodup (h : Locked ch) (hstep : StepOf ch t ch') : ch'.waiters.Nodup := by
  have hnodup := h.nodup
  cases hstep with
  | wait hpc =>
    have hnot : t ∉ ch.waiters := by
      intro hmem
      have hpc' := (h.waiters t).mp hmem
      rw [hpc] at hpc'
      cases hpc'
    exact List.nodup_cons.mpr ⟨hnot, hnodup⟩
  | notify => exact hnodup.erase _
  | notifyAll => exact List.nodup_nil
  | _ => exact hnodup

theorem locked_waiters (h : Locked ch) (hstep : StepOf ch t ch') :
    ∀ u, u ∈ ch'.waiters ↔ ch'.pc u = .recvWaiting := by
  have hwaiters := h.waiters
  have hnodup := h.nodup
  cases hstep with
  | move hpc hm => cases hm <;> grind [goto]
  | call val hi => grind [goto]
  | refuse => grind [goto, sendReturns]
  | lock hpc hl => cases hl <;> grind [goto]
  | unlock hpc hl => cases hl <;> grind [goto, release]
  | push => grind [goto]
  | pop hpc hp => cases hp <;> grind [goto]
  | wait => grind [goto, release]
  | notify => grind [goto, wake, sendReturns]
  | notifyNone => grind [goto, sendReturns]
  | store => grind [goto]
  | notifyAll => grind [goto, notifyAll]

/-- Only a thread that holds the lock changes the queue. -/
theorem locked_empty (h : Locked ch) (hstep : StepOf ch t ch') :
    ∀ u, ch'.pc u = .recvLoad ∨ ch'.pc u = .recvWait → ch'.queue = [] := by
  have hempty := h.empty
  have halone := @h.alone
  cases hstep with
  | move hpc hm => cases hm <;> grind [goto]
  | call val hi => grind [goto]
  | refuse => grind [goto, sendReturns]
  | lock hpc hl => cases hl <;> grind [goto]
  | unlock hpc hl => cases hl <;> grind [goto, release]
  | push => grind [goto, ChanPc.holdsLock]
  | pop hpc hp => cases hp <;> grind [goto, ChanPc.holdsLock]
  | wait => grind [goto, release]
  | notify => grind [goto, wake, sendReturns]
  | notifyNone => grind [goto, sendReturns]
  | store => grind [goto]
  | notifyAll => grind [goto, notifyAll]

theorem Locked.step (h : Locked ch) (hstep : StepOf ch t ch') : Locked ch' where
  lock := locked_lock h hstep
  nodup := locked_nodup h hstep
  waiters := locked_waiters h hstep
  empty := locked_empty h hstep

/-! ### The messages -/

/-- Every queued message was sent by a call of its own, in the order of receipt. -/
structure Sends (ch : OliveChannel) : Prop where
  order : ch.received ++ ch.queue = ch.sent
  once : (ch.sent.map Message.call).Nodup
  old : ∀ msg ∈ ch.sent, msg.call < ch.calls
  busy : ∀ u msg, (ch.pc u).sending? = some msg → msg.call < ch.calls
  apart : ∀ u v msg msg', (ch.pc u).sending? = some msg → (ch.pc v).sending? = some msg' →
    msg.call = msg'.call → u = v
  flight : ∀ u msg, (ch.pc u).sending? = some msg →
    (msg.call ∈ ch.sent.map Message.call ↔ (ch.pc u).pushed? = some msg)
  ended : ∀ r ∈ ch.results, r.call < ch.calls ∧ ∀ u msg, (ch.pc u).sending? = some msg →
    msg.call ≠ r.call
  results : ∀ r ∈ ch.results, (r.ok = true ↔ r.call ∈ ch.sent.map Message.call)
  returned : ∀ msg ∈ ch.sent, (∃ r ∈ ch.results, r.call = msg.call ∧ r.ok = true) ∨
    ∃ u, (ch.pc u).pushed? = some msg

theorem sends_chanNew : Sends chanNew where
  order := rfl
  once := List.nodup_nil
  old _ h := by cases h
  busy _ _ h := by cases h
  apart _ _ _ _ h := by cases h
  flight _ _ h := by cases h
  ended _ h := by cases h
  results _ h := by cases h
  returned _ h := by cases h

/-- A step outside the sends keeps `Sends`. -/
theorem Sends.congr (h : Sends ch) (horder : ch'.received ++ ch'.queue = ch'.sent)
    (hsent : ch'.sent = ch.sent) (hcalls : ch'.calls = ch.calls) (hresults : ch'.results = ch.results)
    (hsending : ∀ u, (ch'.pc u).sending? = (ch.pc u).sending?)
    (hpushed : ∀ u, (ch'.pc u).pushed? = (ch.pc u).pushed?) : Sends ch' := by
  constructor <;> simp only [hsent, hcalls, hresults, hsending, hpushed]
  · exact hsent ▸ horder
  · exact h.once
  · exact h.old
  · exact h.busy
  · exact h.apart
  · exact h.flight
  · exact h.ended
  · exact h.results
  · exact h.returned

theorem pushed?_le {pc : ChanPc} {msg : Message} (h : pc.pushed? = some msg) :
    pc.sending? = some msg := by
  cases pc with
  | sendUnlock => exact h
  | sendNotify => exact h
  | _ => cases h

theorem Moves.sends {pc₀ pc : ChanPc} (h : Moves ch pc₀ pc) :
    pc.sending? = pc₀.sending? ∧ pc.pushed? = pc₀.pushed? := by
  cases h <;> exact ⟨rfl, rfl⟩

theorem Locks.sends {pc₀ pc : ChanPc} (h : Locks pc₀ pc) :
    pc.sending? = pc₀.sending? ∧ pc.pushed? = pc₀.pushed? := by
  cases h <;> exact ⟨rfl, rfl⟩

theorem Unlocks.sends {pc₀ pc : ChanPc} (h : Unlocks pc₀ pc) :
    pc.sending? = pc₀.sending? ∧ pc.pushed? = pc₀.pushed? := by
  cases h <;> exact ⟨rfl, rfl⟩

theorem Pops.sends {pc₀ : ChanPc} (h : Pops pc₀) (result : Option Message) :
    (ChanPc.unlock result).sending? = pc₀.sending? ∧
      (ChanPc.unlock result).pushed? = pc₀.pushed? := by
  cases h <;> exact ⟨rfl, rfl⟩

theorem Sends.goto {pc₀ pc : ChanPc} (h : Sends ch) (hpc : ch.pc t = pc₀)
    (hs : pc.sending? = pc₀.sending? ∧ pc.pushed? = pc₀.pushed?) : Sends (ch.goto t pc) := by
  subst hpc
  exact h.congr h.order rfl rfl rfl (goto_pc_congr _ hs.1) (goto_pc_congr _ hs.2)

/-- `Sends` does not read the lock, the waiters and the flags. -/
theorem Sends.of_flags (h : Sends ch) (lock : Option ThreadId) (waiters : List ThreadId)
    (closed closeDone : Bool) : Sends { ch with
      lock := lock
      waiters := waiters
      closed := closed
      closeDone := closeDone } :=
  h.congr h.order rfl rfl rfl (fun _ => rfl) (fun _ => rfl)

/-- A new call sends a new message. -/
theorem sends_call (h : Sends ch) (val : Word) (hpc : ch.pc t = .idle) :
    Sends ({ ch with calls := ch.calls + 1 }.goto t (.sendLoad ⟨ch.calls, val⟩ ch.closeDone)) where
  order := h.order
  once := h.once
  old msg hmsg := Nat.lt_succ_of_lt (h.old msg hmsg)
  busy := by
    have hbusy := h.busy
    grind [goto, ChanPc.sending?]
  apart := by
    have hbusy := h.busy
    have hapart := h.apart
    grind [goto, ChanPc.sending?]
  flight := by
    have hold := h.old
    have hflight := h.flight
    grind [goto, ChanPc.sending?, ChanPc.pushed?]
  ended := by
    have hended := h.ended
    grind [goto, ChanPc.sending?]
  results := h.results
  returned msg hmsg := by
    refine (h.returned msg hmsg).imp_right ?_
    rintro ⟨u, hu⟩
    have hne : u ≠ t := by
      rintro rfl
      rw [hpc] at hu
      cases hu
    exact ⟨u, by rwa [goto_pc_of_ne _ hne]⟩

theorem sends_push (h : Sends ch) {msg : Message} {late : Bool} (hpc : ch.pc t = .sendPush msg late) :
    Sends ({ ch with queue := ch.queue ++ [msg], sent := ch.sent ++ [msg] }.goto t
      (.sendUnlock msg late)) where
  order := by
    change ch.received ++ (ch.queue ++ [msg]) = ch.sent ++ [msg]
    rw [← List.append_assoc, h.order]
  once := by
    have hnew := h.flight t msg (by rw [hpc]; rfl)
    rw [hpc] at hnew
    have := h.once
    grind [goto, ChanPc.pushed?]
  old := by
    have hnew := h.busy t msg (by rw [hpc]; rfl)
    have hold := h.old
    grind [goto]
  busy := by
    have hbusy := h.busy
    grind [goto, ChanPc.sending?]
  apart := by
    have hapart := h.apart
    grind [goto, ChanPc.sending?]
  flight := by
    have hflight := h.flight
    have hapart := h.apart
    grind [goto, ChanPc.sending?, ChanPc.pushed?]
  ended := by
    have hended := h.ended
    grind [goto, ChanPc.sending?]
  results := by
    have hended := h.ended
    have hresults := h.results
    grind [goto, ChanPc.sending?]
  returned m hm := by
    rcases List.mem_append.mp hm with hold | hnew
    · refine (h.returned m hold).imp_right ?_
      rintro ⟨u, hu⟩
      have hne : u ≠ t := by
        rintro rfl
        rw [hpc] at hu
        cases hu
      exact ⟨u, by rwa [goto_pc_of_ne _ hne]⟩
    · obtain rfl := List.mem_singleton.mp hnew
      exact .inr ⟨t, by rw [goto_pc_self]; rfl⟩

/-- A send returns what it says: `ok` exactly when its message is queued. -/
theorem sends_sendReturns (h : Sends ch) {msg : Message} {late ok : Bool}
    (hpc : (ch.pc t).sending? = some msg) (hok : ok = true ↔ (ch.pc t).pushed? = some msg) :
    Sends (ch.sendReturns t msg.call late ok) where
  order := h.order
  once := h.once
  old := h.old
  busy := by
    have hbusy := h.busy
    grind [goto, sendReturns, ChanPc.sending?]
  apart := by
    have hapart := h.apart
    grind [goto, sendReturns, ChanPc.sending?]
  flight := by
    have hflight := h.flight
    grind [goto, sendReturns, ChanPc.sending?]
  ended := by
    have hold := h.busy t msg hpc
    have hended := h.ended
    have hapart := h.apart
    grind [goto, sendReturns, ChanPc.sending?]
  results r hr := by
    rcases List.mem_cons.mp hr with rfl | hr
    · exact hok.trans (h.flight t msg hpc).symm
    · exact h.results r hr
  returned m hm := by
    rcases h.returned m hm with ⟨r, hr, hcall⟩ | ⟨u, hu⟩
    · exact .inl ⟨r, List.mem_cons_of_mem _ hr, hcall⟩
    · by_cases hne : u = t
      · subst hne
        have heq : m = msg := Option.some.inj ((pushed?_le hu).symm.trans hpc)
        subst heq
        exact .inl ⟨_, List.mem_cons_self, rfl, hok.mpr hu⟩
      · exact .inr ⟨u, by rwa [sendReturns, goto_pc_of_ne _ hne]⟩

theorem Sends.step (h : Sends ch) (hl : Locked ch) (hstep : StepOf ch t ch') : Sends ch' := by
  cases hstep with
  | move hpc hm => exact h.goto hpc hm.sends
  | call val hpc => exact sends_call h val hpc
  | refuse hpc hc =>
    exact sends_sendReturns h (by rw [hpc]; rfl) (by simp [hpc, ChanPc.pushed?])
  | lock hpc hk => exact (h.of_flags (some t) ch.waiters ch.closed ch.closeDone).goto hpc hk.sends
  | unlock hpc hu => exact (h.of_flags none ch.waiters ch.closed ch.closeDone).goto hpc hu.sends
  | push hpc => exact sends_push h hpc
  | @pop pc₀ msg queue hpc hp hq =>
    have hpopped : Sends { ch with queue := queue, received := ch.received ++ [msg] } := by
      refine h.congr ?_ rfl rfl rfl (fun _ => rfl) (fun _ => rfl)
      change ch.received ++ [msg] ++ queue = ch.sent
      rw [← h.order, hq, List.append_assoc, List.singleton_append]
    exact hpopped.goto hpc (hp.sends (some msg))
  | wait hpc =>
    exact (h.of_flags none (t :: ch.waiters) ch.closed ch.closeDone).goto hpc ⟨rfl, rfl⟩
  | @notify msg late waiter hpc hw =>
    have hwait := (hl.waiters waiter).mp hw
    have hne : t ≠ waiter := by
      rintro rfl
      rw [hpc] at hwait
      cases hwait
    have hwoken : Sends (ch.wake waiter) :=
      (h.of_flags ch.lock (ch.waiters.erase waiter) ch.closed ch.closeDone).goto hwait ⟨rfl, rfl⟩
    have hpc' : (ch.wake waiter).pc t = .sendNotify msg late := (goto_pc_of_ne _ hne).trans hpc
    exact sends_sendReturns hwoken (by rw [hpc']; rfl) (by simp [hpc', ChanPc.pushed?])
  | notifyNone hpc hw =>
    exact sends_sendReturns h (by rw [hpc]; rfl) (by simp [hpc, ChanPc.pushed?])
  | store hpc => exact (h.of_flags ch.lock ch.waiters true ch.closeDone).goto hpc ⟨rfl, rfl⟩
  | notifyAll hpc =>
    have hw : ∀ u ∈ ch.waiters, ch.pc u = .recvWaiting := fun u => (hl.waiters u).mp
    have hwoken : Sends ch.notifyAll := h.congr h.order rfl rfl rfl
      (notifyAll_pc_congr _ rfl hw) (notifyAll_pc_congr _ rfl hw)
    have hpc' : ch.notifyAll.pc t = .closeNotify := by
      refine (if_neg ?_).trans hpc
      intro hmem
      rw [hw t hmem] at hpc
      cases hpc
    exact (hwoken.of_flags ch.lock [] ch.closed true).goto hpc' ⟨rfl, rfl⟩

/-! ### After a close -/

/-- A close that has returned has set the flag, so a later send stops at its check. -/
structure Closing (ch : OliveChannel) : Prop where
  storing : ∀ u, ch.pc u = .closeNotify → ch.closed = true
  done : ch.closeDone = true → ch.closed = true
  late : ∀ u msg, ch.pc u = .sendLoad msg true → ch.closeDone = true
  passed : ∀ u, (ch.pc u).passedLate = false
  refused : ∀ r ∈ ch.results, r.late = true → r.ok = false

theorem closing_chanNew : Closing chanNew where
  storing _ h := by cases h
  done h := by cases h
  late _ _ h := by cases h
  passed _ := rfl
  refused _ h := by cases h

theorem Closing.goto {pc : ChanPc} (h : Closing ch) (hstore : pc = .closeNotify → ch.closed = true)
    (hlate : ∀ msg, pc = .sendLoad msg true → ch.closeDone = true) (hpassed : pc.passedLate = false) :
    Closing (ch.goto t pc) where
  storing u hu := by
    by_cases hut : u = t
    · rw [hut, goto_pc_self] at hu
      exact hstore hu
    · rw [goto_pc_of_ne _ hut] at hu
      exact h.storing u hu
  done := h.done
  late u msg hu := by
    by_cases hut : u = t
    · rw [hut, goto_pc_self] at hu
      exact hlate msg hu
    · rw [goto_pc_of_ne _ hut] at hu
      exact h.late u msg hu
  passed u := by
    by_cases hut : u = t
    · rw [hut, goto_pc_self]
      exact hpassed
    · rw [goto_pc_of_ne _ hut]
      exact h.passed u
  refused := h.refused

theorem Closing.of_queue (h : Closing ch) (lock : Option ThreadId) (waiters : List ThreadId)
    (queue sent received : List Message) : Closing { ch with
      lock := lock
      waiters := waiters
      queue := queue
      sent := sent
      received := received } where
  storing := h.storing
  done := h.done
  late := h.late
  passed := h.passed
  refused := h.refused

theorem Moves.closing {pc₀ pc : ChanPc} (hm : Moves ch pc₀ pc) (h : Closing ch)
    (hpc : ch.pc t = pc₀) : Closing (ch.goto t pc) := by
  cases hm with
  | «open» msg late hopen =>
    have hearly : late = false := by
      cases late with
      | false => rfl
      | true => exact absurd (h.done (h.late t msg hpc)) (by simp [hopen])
    exact h.goto (fun hs => by cases hs) (fun _ hs => by cases hs) hearly
  | _ => exact h.goto (fun hs => by cases hs) (fun _ hs => by cases hs) rfl

theorem closing_sendReturns (h : Closing ch) {late ok : Bool} (call : Nat)
    (hr : late = true → ok = false) : Closing (ch.sendReturns t call late ok) := by
  have hreturned : Closing { ch with results := ⟨call, late, ok⟩ :: ch.results } :=
    { storing := h.storing
      done := h.done
      late := h.late
      passed := h.passed
      refused := by
        intro r hmem
        rcases List.mem_cons.mp hmem with rfl | hmem
        · exact hr
        · exact h.refused r hmem }
  exact hreturned.goto (fun hs => by cases hs) (fun _ hs => by cases hs) rfl

/-- The flag is set before a close returns, so a send called later is refused. -/
theorem Closing.step (h : Closing ch) (hl : Locked ch) (hstep : StepOf ch t ch') : Closing ch' := by
  cases hstep with
  | move hpc hm => exact hm.closing h hpc
  | call val hpc =>
    have hcalled : Closing { ch with calls := ch.calls + 1 } :=
      ⟨h.storing, h.done, h.late, h.passed, h.refused⟩
    refine hcalled.goto (fun hs => by cases hs) (fun msg hs => ?_) rfl
    exact (ChanPc.sendLoad.inj hs).2
  | refuse hpc hc => exact closing_sendReturns h _ (fun _ => rfl)
  | lock hpc hk =>
    have hkeeps := h.passed t
    have hlocked := h.of_queue (some t) ch.waiters ch.queue ch.sent ch.received
    refine hlocked.goto (fun hs => ?_) (fun _ hs => ?_) ?_
    · cases hk <;> cases hs
    · cases hk <;> cases hs
    · rw [hpc] at hkeeps
      cases hk <;> exact hkeeps
  | unlock hpc hu =>
    have hkeeps := h.passed t
    have hfree := h.of_queue none ch.waiters ch.queue ch.sent ch.received
    refine hfree.goto (fun hs => ?_) (fun _ hs => ?_) ?_
    · cases hu <;> cases hs
    · cases hu <;> cases hs
    · rw [hpc] at hkeeps
      cases hu <;> exact hkeeps
  | @push msg late hpc =>
    have hkeeps := h.passed t
    rw [hpc] at hkeeps
    have hqueued := h.of_queue ch.lock ch.waiters (ch.queue ++ [msg]) (ch.sent ++ [msg]) ch.received
    exact hqueued.goto (fun hs => by cases hs) (fun _ hs => by cases hs) hkeeps
  | @pop pc₀ msg queue hpc hp hq =>
    have hpopped := h.of_queue ch.lock ch.waiters queue ch.sent (ch.received ++ [msg])
    exact hpopped.goto (fun hs => by cases hs) (fun _ hs => by cases hs) rfl
  | wait hpc =>
    have hfree := h.of_queue none (t :: ch.waiters) ch.queue ch.sent ch.received
    exact hfree.goto (fun hs => by cases hs) (fun _ hs => by cases hs) rfl
  | @notify msg late waiter hpc hw =>
    have hearly := h.passed t
    rw [hpc] at hearly
    have hwoken : Closing (ch.wake waiter) :=
      (h.of_queue ch.lock (ch.waiters.erase waiter) ch.queue ch.sent ch.received).goto
        (fun hs => by cases hs) (fun _ hs => by cases hs) rfl
    exact closing_sendReturns hwoken _ (fun hs => absurd (hs.symm.trans hearly) (by decide))
  | @notifyNone msg late hpc hw =>
    have hearly := h.passed t
    rw [hpc] at hearly
    exact closing_sendReturns h _ (fun hs => absurd (hs.symm.trans hearly) (by decide))
  | store hpc =>
    have hclosed : Closing { ch with closed := true } :=
      ⟨fun _ _ => rfl, fun _ => rfl, h.late, h.passed, h.refused⟩
    exact hclosed.goto (fun _ => rfl) (fun _ hs => by cases hs) rfl
  | notifyAll hpc =>
    have hclosed := h.storing t hpc
    have hdone : Closing { ch.notifyAll with closeDone := true } :=
      { storing := fun _ _ => hclosed
        done := fun _ => hclosed
        late := fun _ _ _ => rfl
        passed := fun u => (notifyAll_pc_congr _ rfl (fun u => (hl.waiters u).mp) u).trans (h.passed u)
        refused := h.refused }
    exact hdone.goto (fun hs => by cases hs) (fun _ hs => by cases hs) rfl

end OliveChannel

end Olive
