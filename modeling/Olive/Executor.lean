import Olive.Interleaving
import Olive.Ir

/-! `OliveExecutor`: workers that poll state machines from a queue, and threads that await them, one
section under a lock or a compare-and-swap at a time. -/

namespace Olive

abbrev TaskId := Nat

abbrev ExecThread := Nat

def kindFuture : Word := 4

def kindSmFuture : Word := 5

/-- `i64::MIN`. -/
def pollPending : Word := BitVec.intMin 64

/-- `OliveTask`, with whether it has been awaited or enqueued so far. -/
structure OliveTask where
  smFuture : Word
  queued : Bool
  driving : Bool
  done : Bool
  pendingResult : Option Word
  /-- The threads whose `Completion` waits for the task. -/
  completions : List ExecThread
  smWaiters : List TaskId
  asked : Bool

def newTask (smFuture : Word) : OliveTask :=
  ⟨smFuture, false, false, false, none, [], [], false⟩

inductive DriveOutcome where
  | completed
  | rerun
  | parked

/-- The function that has taken a task up: `executor_drive`, or `executor_complete_waker` with the
result it delivers. -/
inductive Resumed where
  | drive
  | completeWaker (result : Word)

/-- What a thread does next. -/
inductive ExecPc where
  | idle
  /-- `executor_worker` has taken `t` from the queue. -/
  | popped (t : TaskId)
  | cleared (t : TaskId)
  | rerun (t : TaskId)
  /-- `executor_drive` or `executor_complete_waker`. -/
  | claim (t : TaskId) (resumed : Resumed)
  | restore (t : TaskId) (result : Word)
  | polling (t : TaskId) (resumed : Resumed)
  | polled (t : TaskId) (resumed : Resumed) (result : Word)
  /-- `park_after_pending`. -/
  | park (t : TaskId) (resumed : Resumed)
  | parkFuture (t : TaskId) (resumed : Resumed) (sub : Word)
  | parkTask (t : TaskId) (resumed : Resumed) (sub : Word)
  | parkTake (t : TaskId) (resumed : Resumed) (sub : TaskId)
  | parkGive (t : TaskId) (resumed : Resumed) (v : Word)
  | parkRegister (t : TaskId) (resumed : Resumed) (sub : TaskId)
  | parkEnqueue (t : TaskId) (resumed : Resumed) (sub : TaskId)
  /-- `executor_complete`. -/
  | cache (t : TaskId) (delivered : Word)
  | deliver (t : TaskId) (delivered : Word)
  | finish (t : TaskId) (delivered : Word)
  | unmap (t : TaskId) (delivered : Word) (waiters : List TaskId)
  | wake (delivered : Word) (waiters : List TaskId)
  | wakeEnqueue (delivered : Word) (waiter : TaskId) (waiters : List TaskId)
  /-- `olive_await_future` of a state machine. -/
  | awaitTask (future : Word)
  | awaitPush (t : TaskId)
  | awaitEnqueue (t : TaskId)
  | awaiting

/-- What becomes of an outcome: `executor_worker` enqueues a task that is to be run again,
`executor_complete_waker` returns. -/
def Resumed.returns (t : TaskId) : Resumed → DriveOutcome → ExecPc
  | .drive, .rerun => .rerun t
  | _, _ => .idle

/-- What a thread reads of the heap: the kind word at an address, and where
`relocate_across_boundary` puts a value. -/
structure ExecHeap where
  kind : Word → Word
  relocate : Word → Word

/-- `OliveExecutor` with its tasks, the frames' sub-future words, the plain futures and the threads. -/
structure OliveExecutor where
  ready : List TaskId
  taskMap : FxHashMap Word TaskId
  tasks : TaskId → OliveTask
  created : Nat
  /-- The word at `frame + 8` of a machine. -/
  subFuture : Word → Word
  futureReady : Word → Bool
  completed : ExecThread → Option Word
  pc : ExecThread → ExecPc

/-- `olive_executor`. -/
def executorNew : OliveExecutor :=
  ⟨[], .empty, fun _ => newTask 0, 0, fun _ => 0, fun _ => false, fun _ => none, fun _ => .idle⟩

/-- What happens next: a thread takes the next step of the function it is in, or the first task if it
is in none; the poll it is in returns, with the frame's sub-future word left as `sub`; it awaits a
state machine; or it makes a plain future ready. -/
inductive ExecAction where
  | go
  | poll (result sub : Word)
  | await (future : Word)
  | makeReady (future : Word)

namespace OliveExecutor

def goto (ex : OliveExecutor) (w : ExecThread) (pc : ExecPc) : OliveExecutor :=
  { ex with pc := fun u => if u = w then pc else ex.pc u }

def modify (ex : OliveExecutor) (t : TaskId) (f : OliveTask → OliveTask) : OliveExecutor :=
  { ex with tasks := fun u => if u = t then f (ex.tasks t) else ex.tasks u }

/-- `executor_enqueue`. -/
def enqueue (ex : OliveExecutor) (t : TaskId) : OliveExecutor :=
  let ex' := ex.modify t fun task => { task with queued := true, asked := true }
  if (ex.tasks t).queued then ex' else { ex' with ready := ex.ready ++ [t] }

def create (ex : OliveExecutor) (smFuture : Word) : OliveExecutor :=
  { ex.modify ex.created fun _ => newTask smFuture with
    taskMap := ex.taskMap.insert smFuture ex.created
    created := ex.created + 1 }

/-- `executor_get_or_create_task`. -/
def getOrCreate (ex : OliveExecutor) (smFuture : Word) : TaskId × OliveExecutor :=
  match ex.taskMap smFuture with
  | some t => (t, ex)
  | none => (ex.created, ex.create smFuture)

/-- A step inside a function; `executor_worker` waits while there is no task. -/
def go (heap : ExecHeap) (ex : OliveExecutor) (w : ExecThread) : Option OliveExecutor :=
  match ex.pc w with
  | .idle =>
    match ex.ready with
    | [] => none
    | t :: ready => some ({ ex with ready := ready }.goto w (.popped t))
  | .popped t => some ((ex.modify t fun task => { task with queued := false }).goto w (.cleared t))
  | .cleared t =>
    match (ex.tasks t).pendingResult with
    | some v =>
      some ((ex.modify t fun task => { task with pendingResult := none }).goto w
        (.claim t (.completeWaker v)))
    | none => some (ex.goto w (.claim t .drive))
  | .rerun t => some ((ex.enqueue t).goto w .idle)
  | .claim t resumed =>
    if (ex.tasks t).driving then
      match resumed with
      | .drive => some (ex.goto w (Resumed.drive.returns t .rerun))
      | .completeWaker v => some (ex.goto w (.restore t v))
    else some ((ex.modify t fun task => { task with driving := true }).goto w (.polling t resumed))
  | .restore t v =>
    some ((ex.modify t fun task => { task with pendingResult := some v }).goto w .idle)
  | .polling _ _ => none
  | .polled t resumed result =>
    some ((ex.modify t fun task => { task with driving := false }).goto w
      (if result = pollPending then .park t resumed else .cache t result))
  | .park t resumed =>
    let sub := ex.subFuture (ex.tasks t).smFuture
    if sub = 0 then some (ex.goto w (resumed.returns t .rerun))
    else if heap.kind sub = kindFuture then some (ex.goto w (.parkFuture t resumed sub))
    else if heap.kind sub = kindSmFuture then some (ex.goto w (.parkTask t resumed sub))
    else some (ex.goto w (resumed.returns t .rerun))
  | .parkFuture t resumed sub =>
    if ex.futureReady sub then some (ex.goto w (resumed.returns t .rerun)) else none
  | .parkTask t resumed sub =>
    some ((ex.getOrCreate sub).2.goto w (.parkTake t resumed (ex.getOrCreate sub).1))
  | .parkTake t resumed sub =>
    match (ex.tasks sub).pendingResult with
    | some v =>
      some ((ex.modify sub fun task => { task with pendingResult := none }).goto w
        (.parkGive t resumed v))
    | none => some (ex.goto w (.parkRegister t resumed sub))
  | .parkGive t resumed v =>
    some ((ex.modify t fun task => { task with pendingResult := some v }).goto w
      (resumed.returns t .rerun))
  | .parkRegister t resumed sub =>
    if (ex.tasks sub).done = true ∨ t ∈ (ex.tasks sub).smWaiters then
      some (ex.goto w (resumed.returns t .rerun))
    else
      some ((ex.modify sub fun task =>
        { task with smWaiters := task.smWaiters ++ [t], asked := true }).goto w
          (.parkEnqueue t resumed sub))
  | .parkEnqueue t resumed sub => some ((ex.enqueue sub).goto w (resumed.returns t .parked))
  | .cache t result =>
    let delivered := heap.relocate result
    some ({ ex with
      subFuture := fun m => if m = (ex.tasks t).smFuture then delivered else ex.subFuture m }.goto w
        (.deliver t delivered))
  | .deliver t delivered =>
    some ({ ex.modify t fun task => { task with completions := [] } with
      completed := fun u =>
        if u ∈ (ex.tasks t).completions then some delivered else ex.completed u }.goto w
          (.finish t delivered))
  | .finish t delivered =>
    some ((ex.modify t fun task => { task with done := true, smWaiters := [] }).goto w
      (.unmap t delivered (ex.tasks t).smWaiters))
  | .unmap t delivered waiters =>
    some ({ ex with taskMap := ex.taskMap.remove (ex.tasks t).smFuture }.goto w
      (.wake delivered waiters))
  | .wake _ [] => some (ex.goto w .idle)
  | .wake delivered (waiter :: waiters) =>
    some ((ex.modify waiter fun task => { task with pendingResult := some delivered }).goto w
      (.wakeEnqueue delivered waiter waiters))
  | .wakeEnqueue delivered waiter waiters =>
    some ((ex.enqueue waiter).goto w (.wake delivered waiters))
  | .awaitTask future =>
    some ((ex.getOrCreate future).2.goto w (.awaitPush (ex.getOrCreate future).1))
  | .awaitPush t =>
    some ((ex.modify t fun task =>
      { task with completions := task.completions ++ [w], asked := true }).goto w (.awaitEnqueue t))
  | .awaitEnqueue t => some ((ex.enqueue t).goto w .awaiting)
  | .awaiting =>
    match ex.completed w with
    | some _ => some (ex.goto w .idle)
    | none => none

/-- One atomic step of thread `w`. -/
def next (heap : ExecHeap) (ex : OliveExecutor) (step : ExecThread × ExecAction) :
    Option OliveExecutor :=
  let w := step.1
  match step.2 with
  | .go => ex.go heap w
  | .poll result sub =>
    match ex.pc w with
    | .polling t resumed =>
      some ({ ex with
        subFuture := fun m => if m = (ex.tasks t).smFuture then sub else ex.subFuture m }.goto w
          (.polled t resumed result))
    | _ => none
  | .await future =>
    match ex.pc w with
    | .idle =>
      some ({ ex with completed := fun u => if u = w then none else ex.completed u }.goto w
        (.awaitTask future))
    | _ => none
  | .makeReady future =>
    some { ex with futureReady := fun f => if f = future then true else ex.futureReady f }

end OliveExecutor

end Olive
