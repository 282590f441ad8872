import Mathlib.Logic.Function.Basic
import Olive.Executor

/-! `olive_gather` and `olive_select`: the polls of combinators over plain futures, compiled state
machines and other combinators, and what `executor_complete` writes into their frames. -/

namespace Olive

/-- What a compiled machine does next: await a future and go on with its result, or return. -/
inductive MachineStep (σ : Type) where
  | await (sub : Word) (resume : Word → σ)
  | ret (v : Word)

structure GatherFrame where
  state : Word
  futuresList : Word
  results : Word

structure SelectFrame where
  state : Word
  futuresList : Word

/-- What the address of a future leads to: the state of its `FutureShared`, the frame of a compiled
machine (no state once it has returned) with its second word, or the frame of a combinator. -/
inductive FutureObj (σ : Type) where
  | plain (result : Option Word)
  | machine (state : Option σ) (slot : Word)
  | gather (frame : GatherFrame)
  | select (frame : SelectFrame)

/-- What has happened to a future. -/
inductive FutureEvent where
  /-- A combinator over the futures `fs` has been made. -/
  | created (fs : List Word)
  /-- A poll of it has returned `r`. -/
  | polled (r : Word)
  /-- `olive_gather_poll` has read the list of its futures, and polled the `i`-th of them. -/
  | gatherRead
  | gatherAsked (i : Nat) (sub r : Word)
  | selectRead
  | selectAsked (i : Nat) (sub r : Word)
  /-- `executor_complete` has run on it. -/
  | completed
  deriving DecidableEq

/-- The futures, the lists in memory, what has happened to each future (the last first), and the
results `executor_drive` has seen but `executor_complete` has not delivered. -/
structure FutureWorld (σ : Type) where
  futures : Word → Option (FutureObj σ)
  lists : Word → Option (List Word)
  history : Word → List FutureEvent
  finishing : List (Word × Word)

variable {σ : Type}

def FutureWorld.empty : FutureWorld σ := ⟨fun _ => none, fun _ => none, fun _ => [], []⟩

namespace FutureWorld

def record (w : FutureWorld σ) (f : Word) (e : FutureEvent) : FutureWorld σ :=
  { w with history := Function.update w.history f (e :: w.history f) }

def setFuture (w : FutureWorld σ) (f : Word) (obj : FutureObj σ) : FutureWorld σ :=
  { w with futures := Function.update w.futures f (some obj) }

def setList (w : FutureWorld σ) (a : Word) (contents : List Word) : FutureWorld σ :=
  { w with lists := Function.update w.lists a (some contents) }

end FutureWorld

/-- A way to poll futures: `none` is a poll that does not return, or that reads a word that is no
future or no list. -/
abbrev Poll (σ : Type) := FutureWorld σ → Word → Option (FutureWorld σ × Word)

/-- The loop of `olive_gather_poll`, with `n` futures to go from the `i`-th on. -/
def gatherLoop (poll : Poll σ) (g : Word) (f : GatherFrame) :
    Nat → Nat → Bool → FutureWorld σ → Option (FutureWorld σ × Bool)
  | 0, _, anyPending, w => some (w, anyPending)
  | n + 1, i, anyPending, w => do
    let results ← w.lists f.results
    let res ← results[i]?
    if res = pollPending then
      let list ← w.lists f.futuresList
      let fut ← list[i]?
      let (w, r) ← poll w fut
      let w := w.record g (.gatherAsked i fut r)
      if r ≠ pollPending then
        let results ← w.lists f.results
        gatherLoop poll g f n (i + 1) anyPending (w.setList f.results (results.set i r))
      else gatherLoop poll g f n (i + 1) true w
    else gatherLoop poll g f n (i + 1) anyPending w

def gatherPoll (poll : Poll σ) (w : FutureWorld σ) (g : Word) (f : GatherFrame) :
    Option (FutureWorld σ × Word) :=
  if f.state = -1 then some (w, f.results)
  else do
    let list ← w.lists f.futuresList
    let (w, anyPending) ← gatherLoop poll g f list.length 0 false (w.record g .gatherRead)
    if anyPending then some (w, pollPending)
    else some (w.setFuture g (.gather { f with state := -1 }), f.results)

def selectLoop (poll : Poll σ) (s : Word) (f : SelectFrame) :
    Nat → Nat → FutureWorld σ → Option (FutureWorld σ × Word)
  | 0, _, w => some (w, pollPending)
  | n + 1, i, w => do
    let list ← w.lists f.futuresList
    let fut ← list[i]?
    let (w, r) ← poll w fut
    let w := w.record s (.selectAsked i fut r)
    if r ≠ pollPending then some (w, r) else selectLoop poll s f n (i + 1) w

def selectPoll (poll : Poll σ) (w : FutureWorld σ) (s : Word) (f : SelectFrame) :
    Option (FutureWorld σ × Word) := do
  let list ← w.lists f.futuresList
  selectLoop poll s f list.length 0 (w.record s .selectRead)

/-- The generated poll of a machine: it polls what it awaits, keeps that in the second word of its
frame while it is pending, and in its place the value it returns. -/
def machinePoll (poll : Poll σ) (code : σ → MachineStep σ) (m : Word) :
    Nat → σ → FutureWorld σ → Option (FutureWorld σ × Word)
  | 0, _, _ => none
  | n + 1, s, w =>
    match code s with
    | .ret v => some (w.setFuture m (.machine none v), v)
    | .await sub resume => do
      let (w, r) ← poll w sub
      if r = pollPending then some (w.setFuture m (.machine (some s) sub), pollPending)
      else machinePoll poll code m n (resume r) w

/-- `olive_sm_poll` without the record of its result. -/
def pollFuture (poll : Poll σ) (code : Word → σ → MachineStep σ) (fuel : Nat) (w : FutureWorld σ)
    (f : Word) : Option (FutureWorld σ × Word) :=
  if f = 0 then some (w, 0)
  else
    match w.futures f with
    | none => none
    | some (.plain result) => some (w, result.getD pollPending)
    | some (.machine none slot) => some (w, slot)
    | some (.machine (some s) _) => machinePoll poll (code f) f fuel s w
    | some (.gather frame) => gatherPoll poll w f frame
    | some (.select frame) => selectPoll poll w f frame

/-- `olive_sm_poll`. -/
def smPoll (code : Word → σ → MachineStep σ) : Nat → Poll σ
  | 0, _, _ => none
  | fuel + 1, w, f =>
    (pollFuture (smPoll code fuel) code fuel w f).map fun (w, r) => (w.record f (.polled r), r)

/-- What `executor_complete` does to the frame of a future: its second word becomes the delivered
result. -/
def FutureObj.deliver (delivered : Word) : FutureObj σ → FutureObj σ
  | .plain result => .plain result
  | .machine state _ => .machine state delivered
  | .gather f => .gather { f with futuresList := delivered }
  | .select f => .select { f with futuresList := delivered }

inductive FutureOp (σ : Type) where
  | list (a : Word) (contents : List Word)
  | plain (f : Word)
  | machine (f : Word) (s : σ)
  | gather (g list results : Word)
  | select (s list : Word)
  | resolve (f v : Word)
  /-- A poll by another machine, or by anyone but the executor. -/
  | poll (fuel : Nat) (f : Word)
  /-- A poll by `executor_drive`. -/
  | drive (fuel : Nat) (f : Word)
  | complete (f r : Word)

namespace FutureWorld

def NewFuture (w : FutureWorld σ) (f : Word) : Prop := f ≠ 0 ∧ (w.futures f).isNone

def NewList (w : FutureWorld σ) (a : Word) : Prop := a ≠ pollPending ∧ (w.lists a).isNone

instance (w : FutureWorld σ) (f : Word) : Decidable (w.NewFuture f) :=
  inferInstanceAs (Decidable (_ ∧ _))

instance (w : FutureWorld σ) (a : Word) : Decidable (w.NewList a) :=
  inferInstanceAs (Decidable (_ ∧ _))

end FutureWorld

/-- One step of the program, of a producer of a plain future, or of the executor. -/
def futureStep (code : Word → σ → MachineStep σ) (relocate : Word → Word)
    (w : FutureWorld σ) : FutureOp σ → Option (FutureWorld σ)
  | .list a contents => if w.NewList a then some (w.setList a contents) else none
  | .plain f => if w.NewFuture f then some (w.setFuture f (.plain none)) else none
  | .machine f s => if w.NewFuture f then some (w.setFuture f (.machine (some s) 0)) else none
  | .gather g list results =>
    if w.NewFuture g ∧ w.NewList results then
      (w.lists list).map fun fs =>
        (((w.setFuture g (.gather ⟨0, list, results⟩)).setList results
          (List.replicate fs.length pollPending))).record g (.created fs)
    else none
  | .select s list =>
    if w.NewFuture s then
      (w.lists list).map fun fs =>
        (w.setFuture s (.select ⟨0, list⟩)).record s (.created fs)
    else none
  | .resolve f v =>
    match w.futures f with
    | some (.plain none) => some (w.setFuture f (.plain (some v)))
    | _ => none
  | .poll fuel f => (smPoll code fuel w f).map (·.1)
  | .drive fuel f => (smPoll code fuel w f).map fun (w, r) =>
      if r = pollPending then w else { w with finishing := (f, r) :: w.finishing }
  | .complete f r =>
    if (f, r) ∈ w.finishing then
      (w.futures f).map fun obj =>
        { (w.setFuture f (obj.deliver (relocate r))).record f .completed with
          finishing := w.finishing.erase (f, r) }
    else none

end Olive
