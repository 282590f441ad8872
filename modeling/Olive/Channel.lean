import Olive.Interleaving
import Olive.Ir

/-! `OliveChannel`: a queue under a lock, a condition variable and a flag outside the lock, used by
any number of threads one atomic step at a time. -/

namespace Olive

abbrev ThreadId := Nat

/-- A sent value with the call that sends it. -/
structure Message where
  call : Nat
  val : Word
  deriving DecidableEq, Repr

/-- Where a thread is in `olive_chan_send`, `olive_chan_recv`, `olive_chan_try_recv` or
`olive_chan_close`; `late` marks the sends called after some close had returned. -/
inductive ChanPc where
  | idle
  | sendLoad (msg : Message) (late : Bool)
  | sendLock (msg : Message) (late : Bool)
  | sendPush (msg : Message) (late : Bool)
  | sendUnlock (msg : Message) (late : Bool)
  | sendNotify (msg : Message) (late : Bool)
  | recvLock
  | recvPop
  | recvLoad
  | recvWait
  | recvWaiting
  | recvWoken
  | tryLock
  | tryPop
  | unlock (result : Option Message)
  | closeStore
  | closeNotify
  deriving DecidableEq, Repr

structure SendResult where
  call : Nat
  late : Bool
  ok : Bool
  deriving DecidableEq, Repr

/-- The channel, its threads, and what has happened so far. -/
structure OliveChannel where
  queue : List Message
  lock : Option ThreadId
  closed : Bool
  waiters : List ThreadId
  pc : ThreadId → ChanPc
  calls : Nat
  closeDone : Bool
  sent : List Message
  received : List Message
  results : List SendResult

/-- `olive_chan_new`. -/
def chanNew : OliveChannel :=
  ⟨[], none, false, [], fun _ => .idle, 0, false, [], [], []⟩

/-- What a thread does next: call a function, or take the next step of the one it is in, which for a
notification names the waiter to wake. -/
inductive ChanAction where
  | send (val : Word)
  | recv
  | tryRecv
  | close
  | go (waiter : ThreadId)

namespace OliveChannel

def goto (ch : OliveChannel) (t : ThreadId) (pc : ChanPc) : OliveChannel :=
  { ch with pc := fun u => if u = t then pc else ch.pc u }

def acquire (ch : OliveChannel) (t : ThreadId) (pc : ChanPc) : Option OliveChannel :=
  match ch.lock with
  | none => some ({ ch with lock := some t }.goto t pc)
  | some _ => none

def release (ch : OliveChannel) (t : ThreadId) (pc : ChanPc) : OliveChannel :=
  { ch with lock := none }.goto t pc

def sendReturns (ch : OliveChannel) (t : ThreadId) (call : Nat) (late ok : Bool) : OliveChannel :=
  { ch with results := ⟨call, late, ok⟩ :: ch.results }.goto t .idle

/-- Takes the first message, if there is one. -/
def popFront (ch : OliveChannel) : Option (Message × OliveChannel) :=
  match ch.queue with
  | [] => none
  | msg :: queue => some (msg, { ch with queue := queue, received := ch.received ++ [msg] })

def wake (ch : OliveChannel) (waiter : ThreadId) : OliveChannel :=
  { ch with waiters := ch.waiters.erase waiter }.goto waiter .recvWoken

/-- `notify_one`: some waiter wakes, if there is one. -/
def notifyOne (ch : OliveChannel) (waiter : ThreadId) : Option OliveChannel :=
  if waiter ∈ ch.waiters then some (ch.wake waiter)
  else if ch.waiters = [] then some ch
  else none

def notifyAll (ch : OliveChannel) : OliveChannel :=
  { ch with
    waiters := []
    pc := fun u => if u ∈ ch.waiters then .recvWoken else ch.pc u }

/-- A step inside a function. -/
def go (ch : OliveChannel) (t waiter : ThreadId) : Option OliveChannel :=
  match ch.pc t with
  | .idle | .recvWaiting => none
  | .sendLoad msg late =>
    some (if ch.closed then ch.sendReturns t msg.call late false else ch.goto t (.sendLock msg late))
  | .sendLock msg late => ch.acquire t (.sendPush msg late)
  | .sendPush msg late =>
    some ({ ch with queue := ch.queue ++ [msg], sent := ch.sent ++ [msg] }.goto t
      (.sendUnlock msg late))
  | .sendUnlock msg late => some (ch.release t (.sendNotify msg late))
  | .sendNotify msg late =>
    (ch.notifyOne waiter).map fun ch' => ch'.sendReturns t msg.call late true
  | .recvLock | .recvWoken => ch.acquire t .recvPop
  | .recvPop =>
    match ch.popFront with
    | some (msg, ch') => some (ch'.goto t (.unlock (some msg)))
    | none => some (ch.goto t .recvLoad)
  | .recvLoad => some (ch.goto t (if ch.closed then .unlock none else .recvWait))
  | .recvWait => some ({ ch with waiters := t :: ch.waiters }.release t .recvWaiting)
  | .tryLock => ch.acquire t .tryPop
  | .tryPop =>
    match ch.popFront with
    | some (msg, ch') => some (ch'.goto t (.unlock (some msg)))
    | none => some (ch.goto t (.unlock none))
  | .unlock _ => some (ch.release t .idle)
  | .closeStore => some ({ ch with closed := true }.goto t .closeNotify)
  | .closeNotify => some ({ ch.notifyAll with closeDone := true }.goto t .idle)

/-- One atomic step of thread `t`. -/
def next (ch : OliveChannel) (step : ThreadId × ChanAction) : Option OliveChannel :=
  let t := step.1
  match step.2 with
  | .go waiter => ch.go t waiter
  | .send val =>
    if ch.pc t = .idle then
      some ({ ch with calls := ch.calls + 1 }.goto t (.sendLoad ⟨ch.calls, val⟩ ch.closeDone))
    else none
  | .recv => if ch.pc t = .idle then some (ch.goto t .recvLock) else none
  | .tryRecv => if ch.pc t = .idle then some (ch.goto t .tryLock) else none
  | .close => if ch.pc t = .idle then some (ch.goto t .closeStore) else none

end OliveChannel

end Olive

/-! What one step of a channel's threads can do. -/

namespace Olive

namespace OliveChannel

/-- Steps that only move the thread. -/
inductive Moves (ch : OliveChannel) : ChanPc → ChanPc → Prop
  | recv : Moves ch .idle .recvLock
  | tryRecv : Moves ch .idle .tryLock
  | close : Moves ch .idle .closeStore
  | open (msg : Message) (late : Bool) : ch.closed = false →
      Moves ch (.sendLoad msg late) (.sendLock msg late)
  | empty : ch.queue = [] → Moves ch .recvPop .recvLoad
  | ended : ch.closed = true → Moves ch .recvLoad (.unlock none)
  | waits : ch.closed = false → Moves ch .recvLoad .recvWait
  | tryEmpty : Moves ch .tryPop (.unlock none)

inductive Locks : ChanPc → ChanPc → Prop
  | send (msg : Message) (late : Bool) : Locks (.sendLock msg late) (.sendPush msg late)
  | recv : Locks .recvLock .recvPop
  | woken : Locks .recvWoken .recvPop
  | tryRecv : Locks .tryLock .tryPop

inductive Unlocks : ChanPc → ChanPc → Prop
  | send (msg : Message) (late : Bool) : Unlocks (.sendUnlock msg late) (.sendNotify msg late)
  | recv (result : Option Message) : Unlocks (.unlock result) .idle

inductive Pops : ChanPc → Prop
  | recv : Pops .recvPop
  | tryRecv : Pops .tryPop

/-- What a step of thread `t` can do. -/
inductive StepOf (ch : OliveChannel) (t : ThreadId) : OliveChannel → Prop
  | move {pc₀ pc : ChanPc} : ch.pc t = pc₀ → Moves ch pc₀ pc → StepOf ch t (ch.goto t pc)
  | call (val : Word) : ch.pc t = .idle →
      StepOf ch t ({ ch with calls := ch.calls + 1 }.goto t
        (.sendLoad ⟨ch.calls, val⟩ ch.closeDone))
  | refuse {msg : Message} {late : Bool} : ch.pc t = .sendLoad msg late → ch.closed = true →
      StepOf ch t (ch.sendReturns t msg.call late false)
  | lock {pc₀ pc : ChanPc} : ch.pc t = pc₀ → Locks pc₀ pc → ch.lock = none →
      StepOf ch t ({ ch with lock := some t }.goto t pc)
  | unlock {pc₀ pc : ChanPc} : ch.pc t = pc₀ → Unlocks pc₀ pc → StepOf ch t (ch.release t pc)
  | push {msg : Message} {late : Bool} : ch.pc t = .sendPush msg late →
      StepOf ch t ({ ch with queue := ch.queue ++ [msg], sent := ch.sent ++ [msg] }.goto t
        (.sendUnlock msg late))
  | pop {pc₀ : ChanPc} {msg : Message} {queue : List Message} : ch.pc t = pc₀ → Pops pc₀ →
      ch.queue = msg :: queue →
      StepOf ch t ({ ch with queue := queue, received := ch.received ++ [msg] }.goto t
        (.unlock (some msg)))
  | wait : ch.pc t = .recvWait →
      StepOf ch t ({ ch with waiters := t :: ch.waiters }.release t .recvWaiting)
  | notify {msg : Message} {late : Bool} {waiter : ThreadId} : ch.pc t = .sendNotify msg late →
      waiter ∈ ch.waiters → StepOf ch t ((ch.wake waiter).sendReturns t msg.call late true)
  | notifyNone {msg : Message} {late : Bool} : ch.pc t = .sendNotify msg late →
      ch.waiters = [] → StepOf ch t (ch.sendReturns t msg.call late true)
  | store : ch.pc t = .closeStore → StepOf ch t ({ ch with closed := true }.goto t .closeNotify)
  | notifyAll : ch.pc t = .closeNotify →
      StepOf ch t ({ ch.notifyAll with closeDone := true }.goto t .idle)

variable {ch ch' : OliveChannel} {t : ThreadId}

theorem acquire_eq_some {pc : ChanPc} (h : ch.acquire t pc = some ch') :
    ch.lock = none ∧ { ch with lock := some t }.goto t pc = ch' := by
  unfold acquire at h
  split at h
  next hl => exact ⟨hl, Option.some.inj h⟩
  next => simp at h

theorem popFront_eq_some {msg : Message} (h : ch.popFront = some (msg, ch')) :
    ∃ queue, ch.queue = msg :: queue ∧
      { ch with queue := queue, received := ch.received ++ [msg] } = ch' := by
  unfold popFront at h
  split at h
  next => simp at h
  next m queue hq =>
    obtain ⟨rfl, rfl⟩ := Prod.mk.inj (Option.some.inj h)
    exact ⟨queue, hq, rfl⟩

theorem popFront_eq_none (h : ch.popFront = none) : ch.queue = [] := by
  unfold popFront at h
  split at h
  next hq => exact hq
  next => simp at h

theorem stepOf_go {waiter : ThreadId} (h : ch.go t waiter = some ch') : StepOf ch t ch' := by
  have hlock : ∀ {pc pc'}, ch.pc t = pc → Locks pc pc' → ch.acquire t pc' = some ch' →
      StepOf ch t ch' := by
    intro pc pc' hpc hl ha
    obtain ⟨hnone, rfl⟩ := acquire_eq_some ha
    exact .lock hpc hl hnone
  have hpop : ∀ {pc}, ch.pc t = pc → Pops pc → ∀ msg ch₁, ch.popFront = some (msg, ch₁) →
      StepOf ch t (ch₁.goto t (.unlock (some msg))) := by
    intro pc hpc hp msg ch₁ hq
    obtain ⟨queue, hqueue, rfl⟩ := popFront_eq_some hq
    exact .pop hpc hp hqueue
  unfold go at h
  split at h
  next => simp at h
  next => simp at h
  next msg late hpc =>
    obtain rfl := Option.some.inj h
    split
    next hc => exact .refuse hpc hc
    next hc => exact .move hpc (.open msg late (by simpa using hc))
  next msg late hpc => exact hlock hpc (.send msg late) h
  next msg late hpc =>
    obtain rfl := Option.some.inj h
    exact .push hpc
  next msg late hpc =>
    obtain rfl := Option.some.inj h
    exact .unlock hpc (.send msg late)
  next msg late hpc =>
    obtain ⟨ch₁, hn, rfl⟩ := Option.map_eq_some_iff.mp h
    unfold notifyOne at hn
    split at hn
    next hw =>
      obtain rfl := Option.some.inj hn
      exact .notify hpc hw
    next =>
      split at hn
      next hw =>
        obtain rfl := Option.some.inj hn
        exact .notifyNone hpc hw
      next => simp at hn
  next hpc => exact hlock hpc .recv h
  next hpc => exact hlock hpc .woken h
  next hpc =>
    split at h
    next msg ch₁ hq => exact Option.some.inj h ▸ hpop hpc .recv msg ch₁ hq
    next hq => exact Option.some.inj h ▸ .move hpc (.empty (popFront_eq_none hq))
  next hpc =>
    obtain rfl := Option.some.inj h
    refine .move hpc ?_
    split
    next hc => exact .ended hc
    next hc => exact .waits (by simpa using hc)
  next hpc =>
    obtain rfl := Option.some.inj h
    exact .wait hpc
  next hpc => exact hlock hpc .tryRecv h
  next hpc =>
    split at h
    next msg ch₁ hq => exact Option.some.inj h ▸ hpop hpc .tryRecv msg ch₁ hq
    next hq => exact Option.some.inj h ▸ .move hpc .tryEmpty
  next result hpc =>
    obtain rfl := Option.some.inj h
    exact .unlock hpc (.recv result)
  next hpc =>
    obtain rfl := Option.some.inj h
    exact .store hpc
  next hpc =>
    obtain rfl := Option.some.inj h
    exact .notifyAll hpc

theorem stepOf_next {step : ThreadId × ChanAction} (h : ch.next step = some ch') :
    StepOf ch step.1 ch' := by
  obtain ⟨t, action⟩ := step
  have hidle : ∀ ch₁ : OliveChannel, (if ch.pc t = .idle then some ch₁ else none) = some ch' →
      ch.pc t = .idle ∧ ch₁ = ch' := by
    intro ch₁ h₁
    split at h₁
    next hi => exact ⟨hi, Option.some.inj h₁⟩
    next => simp at h₁
  cases action with
  | go waiter => exact stepOf_go h
  | send val =>
    obtain ⟨hi, rfl⟩ := hidle _ h
    exact .call val hi
  | recv =>
    obtain ⟨hi, rfl⟩ := hidle _ h
    exact .move hi .recv
  | tryRecv =>
    obtain ⟨hi, rfl⟩ := hidle _ h
    exact .move hi .tryRecv
  | close =>
    obtain ⟨hi, rfl⟩ := hidle _ h
    exact .move hi .close

end OliveChannel

end Olive
