import Olive.ChannelSends

namespace Olive

open Interleaving

namespace OliveChannel

variable {ch ch' : OliveChannel} {t : ThreadId}

/-! ### Every queued message has a thread on its way -/

/-- As many threads on their way to the queue as there are messages in it. -/
def Attended (ch : OliveChannel) : Prop :=
  ∃ us : List ThreadId, us.Nodup ∧ (∀ u ∈ us, (ch.pc u).coming = true) ∧
    ch.queue.length ≤ us.length

/-- Nothing waits past a message that no thread comes for. -/
def Covered (ch : OliveChannel) : Prop :=
  ch.waiters ≠ [] → Attended ch

theorem attended_of_empty (h : ch.queue = []) : Attended ch :=
  ⟨[], List.nodup_nil, fun _ hu => absurd hu List.not_mem_nil, by rw [h]; exact Nat.le_refl _⟩

theorem Covered.congr (h : Covered ch) (hwaiters : ch'.waiters ≠ [] → ch.waiters ≠ [])
    (hqueue : ch'.queue = ch.queue)
    (hcoming : ∀ u, (ch.pc u).coming = true → (ch'.pc u).coming = true) : Covered ch' := by
  intro hw
  obtain ⟨us, hnodup, hus, hlen⟩ := h (hwaiters hw)
  exact ⟨us, hnodup, fun u hu => hcoming u (hus u hu), by rwa [hqueue]⟩

theorem Covered.goto {pc₀ pc : ChanPc} (h : Covered ch) (hpc : ch.pc t = pc₀)
    (hc : pc₀.coming = true → pc.coming = true) : Covered (ch.goto t pc) := by
  refine h.congr id rfl fun u hu => ?_
  by_cases hut : u = t
  · subst hut
    rw [goto_pc_self]
    exact hc (hpc ▸ hu)
  · rwa [goto_pc_of_ne _ hut]

theorem Moves.covered {pc₀ pc : ChanPc} (h : Moves ch pc₀ pc) (hcov : Covered ch)
    (hpc : ch.pc t = pc₀) : Covered (ch.goto t pc) := by
  cases h with
  | empty hq => exact fun _ => attended_of_empty hq
  | _ => exact hcov.goto hpc (fun hc => by cases hc)

theorem covered_push (h : Covered ch) {msg : Message} {late : Bool}
    (hpc : ch.pc t = .sendPush msg late) :
    Covered ({ ch with queue := ch.queue ++ [msg], sent := ch.sent ++ [msg] }.goto t
      (.sendUnlock msg late)) := by
  intro hw
  obtain ⟨us, hnodup, hus, hlen⟩ := h hw
  have ht : t ∉ us := by
    intro hmem
    have hc := hus t hmem
    rw [hpc] at hc
    cases hc
  refine ⟨t :: us, List.nodup_cons.mpr ⟨ht, hnodup⟩, ?_, ?_⟩
  · intro u hu
    rcases List.mem_cons.mp hu with rfl | hu
    · rw [goto_pc_self]
      rfl
    · rw [goto_pc_of_ne _ (ne_of_mem_of_not_mem hu ht)]
      exact hus u hu
  · change (ch.queue ++ [msg]).length ≤ _
    rw [List.length_append, List.length_singleton, List.length_cons]
    omega

theorem covered_pop (h : Covered ch) {msg : Message} {queue : List Message} {result : Option Message}
    (hq : ch.queue = msg :: queue) :
    Covered ({ ch with queue := queue, received := ch.received ++ [msg] }.goto t
      (.unlock result)) := by
  intro hw
  obtain ⟨us, hnodup, hus, hlen⟩ := h hw
  refine ⟨us.erase t, hnodup.erase t, ?_, ?_⟩
  · intro u hu
    have hmem := hnodup.mem_erase_iff.mp hu
    rw [goto_pc_of_ne _ hmem.1]
    exact hus u hmem.2
  · have herase : us.length - 1 ≤ (us.erase t).length := List.le_length_erase
    rw [hq, List.length_cons] at hlen
    change queue.length ≤ _
    omega

/-- The thread that notifies leaves, the waiter it wakes comes in its place. -/
theorem covered_notify (h : Covered ch) {waiter : ThreadId} {call : Nat} {late : Bool}
    (hne : t ≠ waiter) (hpc : ch.pc waiter = .recvWaiting) (hw : waiter ∈ ch.waiters) :
    Covered ((ch.wake waiter).sendReturns t call late true) := by
  intro _
  obtain ⟨us, hnodup, hus, hlen⟩ := h (List.ne_nil_of_mem hw)
  have hnot : waiter ∉ us := by
    intro hmem
    have hc := hus waiter hmem
    rw [hpc] at hc
    cases hc
  refine ⟨waiter :: us.erase t, ?_, ?_, ?_⟩
  · exact List.nodup_cons.mpr ⟨fun hmem => hnot (List.mem_of_mem_erase hmem), hnodup.erase t⟩
  · intro u hu
    rcases List.mem_cons.mp hu with rfl | hu
    · rw [sendReturns, goto_pc_of_ne _ hne.symm, wake]
      change (OliveChannel.goto _ u .recvWoken |>.pc u).coming = true
      rw [goto_pc_self]
      rfl
    · have hmem := hnodup.mem_erase_iff.mp hu
      rw [sendReturns, goto_pc_of_ne _ hmem.1, wake]
      change (OliveChannel.goto _ waiter .recvWoken |>.pc u).coming = true
      rw [goto_pc_of_ne _ (ne_of_mem_of_not_mem hmem.2 hnot)]
      exact hus u hmem.2
  · have herase : us.length - 1 ≤ (us.erase t).length := List.le_length_erase
    change ch.queue.length ≤ _
    rw [List.length_cons]
    omega

theorem covered_of_no_waiters (h : ch.waiters = []) : Covered ch :=
  fun hw => absurd h hw

theorem Covered.step (h : Covered ch) (hl : Locked ch) (hstep : StepOf ch t ch') : Covered ch' := by
  cases hstep with
  | move hpc hm => exact Moves.covered hm h hpc
  | call val hpc =>
    have hcalled : Covered { ch with calls := ch.calls + 1 } := h
    exact hcalled.goto hpc (fun hc => by cases hc)
  | @refuse msg late hpc hc =>
    have hrefused : Covered { ch with results := ⟨msg.call, late, false⟩ :: ch.results } := h
    exact hrefused.goto hpc (fun hc => by cases hc)
  | lock hpc hk =>
    have hlocked : Covered { ch with lock := some t } := h
    exact hlocked.goto hpc (fun hc => by cases hk <;> first | rfl | cases hc)
  | unlock hpc hu =>
    have hfree : Covered { ch with lock := none } := h
    exact hfree.goto hpc (fun hc => by cases hu <;> first | rfl | cases hc)
  | push hpc => exact covered_push h hpc
  | pop hpc hp hq => exact covered_pop h hq
  | wait hpc => exact fun _ => attended_of_empty (hl.empty t (.inr hpc))
  | @notify msg late waiter hpc hw =>
    have hwait := (hl.waiters waiter).mp hw
    have hne : t ≠ waiter := by
      rintro rfl
      rw [hpc] at hwait
      cases hwait
    exact covered_notify h hne hwait hw
  | notifyNone hpc hw => exact covered_of_no_waiters hw
  | store hpc =>
    have hclosed : Covered { ch with closed := true } := h
    exact hclosed.goto hpc (fun hc => by cases hc)
  | notifyAll hpc => exact covered_of_no_waiters rfl

/-! ### Closing wakes every receiver -/

/-- A close wakes the receivers after all those that read the flag unset have begun to wait, unless
another close has still to wake them. -/
def NotifiesLate (ch : OliveChannel) (step : ThreadId × ChanAction) : Prop :=
  ch.pc step.1 = .closeNotify → ∀ r, ch.pc r = .recvWait →
    ∃ u, u ≠ step.1 ∧ (ch.pc u).closing = true

/-- While a receiver waits at a closed channel, some close has still to wake it. -/
def Notifying (ch : OliveChannel) : Prop :=
  ch.closed = true → ∀ r, (ch.pc r).waits = true → ∃ u, (ch.pc u).closing = true

theorem Notifying.goto {pc₀ pc : ChanPc} (h : Notifying ch) (hpc : ch.pc t = pc₀)
    (hw : pc.waits = true → pc₀.waits = true) (hc : pc₀.closing = true → pc.closing = true) :
    Notifying (ch.goto t pc) := by
  subst hpc
  intro hclosed r hr
  have hr₀ : (ch.pc r).waits = true := by
    by_cases hrt : r = t
    · subst hrt
      rw [goto_pc_self] at hr
      exact hw hr
    · rwa [goto_pc_of_ne _ hrt] at hr
  obtain ⟨u, hu⟩ := h hclosed r hr₀
  refine ⟨u, ?_⟩
  by_cases hut : u = t
  · subst hut
    rw [goto_pc_self]
    exact hc hu
  · rwa [goto_pc_of_ne _ hut]

theorem Moves.notifying {pc₀ pc : ChanPc} (hm : Moves ch pc₀ pc) (h : Notifying ch)
    (hpc : ch.pc t = pc₀) : Notifying (ch.goto t pc) := by
  cases hm with
  | waits hopen =>
    intro hclosed
    cases hopen.symm.trans hclosed
  | _ => exact h.goto hpc (fun hw => by cases hw) (fun hc => by cases hc)

theorem notifying_store :
    Notifying ({ ch with closed := true }.goto t .closeNotify) :=
  fun _ _ _ => ⟨t, by rw [goto_pc_self]; rfl⟩

theorem notifying_notifyAll (hl : Locked ch)
    (hok : ∀ r, ch.pc r = .recvWait → ∃ u, u ≠ t ∧ (ch.pc u).closing = true) :
    Notifying ({ ch.notifyAll with closeDone := true }.goto t .idle) := by
  have hkeeps : ∀ u, (ch.pc u).closing = true → u ∉ ch.waiters := by
    intro u hu hmem
    rw [(hl.waiters u).mp hmem] at hu
    cases hu
  intro hclosed r hr
  have hrt : r ≠ t := by
    rintro rfl
    rw [goto_pc_self] at hr
    cases hr
  rw [goto_pc_of_ne _ hrt] at hr
  change (if r ∈ ch.waiters then ChanPc.recvWoken else ch.pc r).waits = true at hr
  split at hr
  next => cases hr
  next hmem =>
    have hwait : ch.pc r = .recvWait := by
      have hnot := fun hw => hmem ((hl.waiters r).mpr hw)
      cases hpc : ch.pc r with
      | recvWait => rfl
      | recvWaiting => exact absurd hpc hnot
      | _ =>
        rw [hpc] at hr
        cases hr
    obtain ⟨u, hut, hu⟩ := hok r hwait
    refine ⟨u, ?_⟩
    rw [goto_pc_of_ne _ hut]
    change (if u ∈ ch.waiters then ChanPc.recvWoken else ch.pc u).closing = true
    rwa [if_neg (hkeeps u hu)]

theorem Notifying.step (h : Notifying ch) (hl : Locked ch) (hstep : StepOf ch t ch')
    (hok : ch.pc t = .closeNotify → ∀ r, ch.pc r = .recvWait →
      ∃ u, u ≠ t ∧ (ch.pc u).closing = true) : Notifying ch' := by
  cases hstep with
  | move hpc hm => exact Moves.notifying hm h hpc
  | call val hpc =>
    have hcalled : Notifying { ch with calls := ch.calls + 1 } := h
    exact hcalled.goto hpc (fun hw => by cases hw) (fun hc => by cases hc)
  | @refuse msg late hpc hc =>
    have hrefused : Notifying { ch with results := ⟨msg.call, late, false⟩ :: ch.results } := h
    exact hrefused.goto hpc (fun hw => by cases hw) (fun hc => by cases hc)
  | lock hpc hk =>
    have hlocked : Notifying { ch with lock := some t } := h
    exact hlocked.goto hpc (fun hw => by cases hk <;> cases hw) (fun hc => by cases hk <;> cases hc)
  | unlock hpc hu =>
    have hfree : Notifying { ch with lock := none } := h
    exact hfree.goto hpc (fun hw => by cases hu <;> cases hw) (fun hc => by cases hu <;> cases hc)
  | @push msg late hpc =>
    have hqueued : Notifying { ch with queue := ch.queue ++ [msg], sent := ch.sent ++ [msg] } := h
    exact hqueued.goto hpc (fun hw => by cases hw) (fun hc => by cases hc)
  | @pop pc₀ msg queue hpc hp hq =>
    have hpopped : Notifying { ch with queue := queue, received := ch.received ++ [msg] } := h
    exact hpopped.goto hpc (fun hw => by cases hw) (fun hc => by cases hp <;> cases hc)
  | wait hpc =>
    have hfree : Notifying { ch with waiters := t :: ch.waiters, lock := none } := h
    exact hfree.goto hpc (fun _ => rfl) (fun hc => by cases hc)
  | @notify msg late waiter hpc hw =>
    have hwait := (hl.waiters waiter).mp hw
    have hne : t ≠ waiter := by
      rintro rfl
      rw [hpc] at hwait
      cases hwait
    have herased : Notifying { ch with waiters := ch.waiters.erase waiter } := h
    have hwoken : Notifying (ch.wake waiter) :=
      herased.goto hwait (fun hw => by cases hw) (fun hc => by cases hc)
    have hpc' : (ch.wake waiter).pc t = .sendNotify msg late := (goto_pc_of_ne _ hne).trans hpc
    have hreturned : Notifying { ch.wake waiter with
        results := ⟨msg.call, late, true⟩ :: (ch.wake waiter).results } := hwoken
    exact hreturned.goto hpc' (fun hw => by cases hw) (fun hc => by cases hc)
  | @notifyNone msg late hpc hw =>
    have hreturned : Notifying { ch with results := ⟨msg.call, late, true⟩ :: ch.results } := h
    exact hreturned.goto hpc (fun hw => by cases hw) (fun hc => by cases hc)
  | store hpc => exact notifying_store
  | notifyAll hpc => exact notifying_notifyAll hl (hok hpc)

/-! ### Runs -/

/-- `r` is blocked while the queue holds a message that no thread comes for, or the channel is closed
and no close has still to wake it. -/
def Stranded (ch : OliveChannel) (r : ThreadId) : Prop :=
  ch.pc r = .recvWaiting ∧
    (¬ Attended ch ∨ ch.closed = true ∧ ∀ u, (ch.pc u).closing = false)

/-- Receives take the messages of the successful sends in order and once, a send called after a
close fails, and no receiver is stranded. -/
structure Delivers (ch : OliveChannel) : Prop where
  order : ch.received ++ ch.queue = ch.sent
  once : (ch.sent.map Message.call).Nodup
  results : ∀ r ∈ ch.results, (r.ok = true ↔ r.call ∈ ch.sent.map Message.call)
  returned : ∀ msg ∈ ch.sent, (∃ r ∈ ch.results, r.call = msg.call ∧ r.ok = true) ∨
    ∃ u, (ch.pc u).pushed? = some msg
  late : ∀ r ∈ ch.results, r.late = true → r.ok = false
  awake : ∀ r, ¬ Stranded ch r

/-- What every step keeps. -/
structure Sound (ch : OliveChannel) : Prop where
  locked : Locked ch
  sends : Sends ch
  closing : Closing ch
  covered : Covered ch

theorem sound_chanNew : Sound chanNew where
  locked := locked_chanNew
  sends := sends_chanNew
  closing := closing_chanNew
  covered := covered_of_no_waiters rfl

theorem Sound.step (h : Sound ch) (hstep : StepOf ch t ch') : Sound ch' where
  locked := h.locked.step hstep
  sends := h.sends.step h.locked hstep
  closing := h.closing.step h.locked hstep
  covered := h.covered.step h.locked hstep

theorem sound_of_reachable {ok : OliveChannel → ThreadId × ChanAction → Prop}
    (h : Reachable next ok chanNew ch) : Sound ch :=
  h.invariant sound_chanNew fun _ _ _ hs _ hnext => hs.step (stepOf_next hnext)

theorem notifying_of_reachable (h : Reachable next NotifiesLate chanNew ch) : Notifying ch := by
  refine (h.invariant (P := fun ch => Sound ch ∧ Notifying ch) ⟨sound_chanNew, ?_⟩ ?_).2
  · intro hclosed
    cases hclosed
  · intro ch step ch' hs hok hnext
    have hstep := stepOf_next hnext
    exact ⟨hs.1.step hstep, hs.2.step hs.1.locked hstep hok⟩

theorem not_stranded (h : Sound ch) (hnotifying : Notifying ch) (r : ThreadId) :
    ¬ Stranded ch r := by
  rintro ⟨hpc, hleft⟩
  rcases hleft with halone | ⟨hclosed, hnone⟩
  · exact halone (h.covered (List.ne_nil_of_mem ((h.locked.waiters r).mpr hpc)))
  · obtain ⟨u, hu⟩ := hnotifying hclosed r (by rw [hpc]; rfl)
    rw [hnone u] at hu
    cases hu

/-- Where the last close wakes the receivers while `r` has not begun to wait, `r` waits for ever. -/
theorem stranded_of_notifies_early {ok : OliveChannel → ThreadId × ChanAction → Prop}
    (h : Reachable next ok chanNew ch) {r : ThreadId} (ht : ch.pc t = .closeNotify)
    (hr : ch.pc r = .recvWait) (hnone : ∀ u, u ≠ t → (ch.pc u).closing = false) :
    ∃ ch', schedule next (fun _ _ => true) ch [(t, .go t), (r, .go r)] = some ch' ∧
      Stranded ch' r := by
  have hs := sound_of_reachable h
  have hclosed := hs.closing.storing t ht
  have hrt : r ≠ t := by
    rintro rfl
    rw [hr] at ht
    cases ht
  let ch₁ : OliveChannel := { ch.notifyAll with closeDone := true }.goto t .idle
  have hnext : ch.next (t, .go t) = some ch₁ := by simp [next, go, ht, ch₁]
  have hr₁ : ch₁.pc r = .recvWait := by
    have hmem : r ∉ ch.waiters := by
      rw [hs.locked.waiters r, hr]
      exact fun h => by cases h
    rw [goto_pc_of_ne _ hrt]
    exact (if_neg hmem).trans hr
  have hwait : ch₁.next (r, .go r) =
      some ({ ch₁ with waiters := r :: ch₁.waiters }.release r .recvWaiting) := by
    simp [next, go, hr₁]
  refine ⟨{ ch₁ with waiters := r :: ch₁.waiters }.release r .recvWaiting, ?_, ?_, .inr ⟨hclosed, ?_⟩⟩
  · rw [schedule, if_pos rfl, hnext, Option.bind_some, schedule, if_pos rfl, hwait]
    rfl
  · exact goto_pc_self _
  · intro u
    by_cases hur : u = r
    · subst hur
      rw [release, goto_pc_self]
      rfl
    · rw [release, goto_pc_of_ne _ hur]
      by_cases hut : u = t
      · subst hut
        exact congrArg ChanPc.closing (goto_pc_self _)
      · change (ch₁.pc u).closing = false
        rw [goto_pc_of_ne _ hut]
        change (if u ∈ ch.waiters then ChanPc.recvWoken else ch.pc u).closing = false
        split
        next => rfl
        next => exact hnone u hut

end OliveChannel

open OliveChannel

/-- In every run in which the receivers have begun to wait before the last close wakes them, a channel
delivers. -/
theorem chan_delivers {ch : OliveChannel} (h : Reachable next NotifiesLate chanNew ch) :
    Delivers ch :=
  have hs := sound_of_reachable h
  { order := hs.sends.order
    once := hs.sends.once
    results := hs.sends.results
    returned := hs.sends.returned
    late := hs.closing.refused
    awake := not_stranded hs (notifying_of_reachable h) }

/-- A receiver waits, is woken by a send and takes its message, and the channel is closed. -/
theorem chan_delivers_woken :
    ∃ ch : OliveChannel, ch.received = [⟨0, 7⟩] ∧ ch.closed = true ∧ Delivers ch := by
  let p : OliveChannel → ThreadId × ChanAction → Bool :=
    fun ch step => decide (ch.pc step.1 ≠ .closeNotify)
  let steps : List (ThreadId × ChanAction) :=
    [(1, .recv), (1, .go 0), (1, .go 0), (1, .go 0), (1, .go 0), (2, .send 7), (2, .go 0),
      (2, .go 0), (2, .go 0), (2, .go 0), (2, .go 1), (1, .go 0), (1, .go 0), (1, .go 0),
      (0, .close), (0, .go 0)]
  have hend : (schedule next p chanNew steps).map (fun ch => (ch.received, ch.closed)) =
      some ([⟨0, 7⟩], true) := rfl
  obtain ⟨ch, hch, hread⟩ := Option.map_eq_some_iff.mp hend
  have hp : ∀ ch step, p ch step = true → NotifiesLate ch step := by
    intro ch step h hpc
    exact absurd hpc (of_decide_eq_true h)
  obtain ⟨hreceived, hclosed⟩ := Prod.mk.inj hread
  exact ⟨ch, hreceived, hclosed, chan_delivers (reachable_of_schedule hp .start hch)⟩

/-- A close between a receiver's last check and its wait leaves the receiver waiting for ever. -/
theorem chan_strands_recv :
    ¬ ∀ ch : OliveChannel, Reachable next (fun _ _ => True) chanNew ch → Delivers ch := by
  intro hall
  let steps : List (ThreadId × ChanAction) :=
    [(0, .recv), (0, .go 0), (0, .go 0), (0, .go 0), (1, .close), (1, .go 0), (1, .go 0), (0, .go 0)]
  obtain ⟨ch, hch⟩ := Option.isSome_iff_exists.mp
    (rfl : (schedule next (fun _ _ => true) chanNew steps).isSome = true)
  have hd := hall ch (reachable_of_schedule (fun _ _ _ => trivial) .start hch)
  refine hd.awake 0 ⟨?_, .inr ⟨?_, ?_⟩⟩
  · cases hch
    rfl
  · cases hch
    rfl
  · cases hch
    intro u
    by_cases h0 : u = 0
    · subst h0
      rfl
    · by_cases h1 : u = 1
      · subst h1
        rfl
      · simp [goto, release, notifyAll, chanNew, h0, h1, ChanPc.closing]

end Olive
