import Olive.Executor

/-! The executor keeps its tasks, as long as no resumed task is dropped and no machine is given a
second task while the first is about. -/

namespace Olive

open Interleaving

namespace ExecPc

/-- The tasks in the hands of a thread, which it polls, parks, completes or enqueues. -/
def hands : ExecPc → List TaskId
  | .popped t | .cleared t | .rerun t | .claim t _ | .polling t _ | .polled t _ _ | .park t _
  | .parkFuture t _ _ | .parkTask t _ _ | .parkTake t _ _ | .parkGive t _ _ | .parkRegister t _ _
  | .cache t _ | .deliver t _ | .finish t _ | .awaitEnqueue t => [t]
  | .parkEnqueue _ _ sub => [sub]
  | .unmap _ _ waiters | .wake _ waiters => waiters
  | .wakeEnqueue _ waiter waiters => waiter :: waiters
  | .idle | .restore _ _ | .awaitTask _ | .awaitPush _ | .awaiting => []

/-- The task a thread has found for a machine. -/
def found : ExecPc → List TaskId
  | .parkTake _ _ sub | .parkRegister _ _ sub => [sub]
  | .awaitPush t => [t]
  | _ => []

/-- The task whose `driving` flag a thread has set. -/
def drives? : ExecPc → Option TaskId
  | .polling t _ | .polled t _ _ => some t
  | _ => none

/-- The machine a thread asks the task map for. -/
def looksUp? : ExecPc → Option Word
  | .parkTask _ _ sub => some sub
  | .awaitTask future => some future
  | _ => none

end ExecPc

namespace OliveExecutor

variable {ex ex' : OliveExecutor} {w : ExecThread} {t : TaskId} {pc : ExecPc}

/-- `t` is a waiter of a task that is not done. -/
def Registered (ex : OliveExecutor) (t : TaskId) : Prop :=
  ∃ u, t ∈ (ex.tasks u).smWaiters ∧ (ex.tasks u).done = false

/-- `t` is queued, in a thread's hands, found by a thread or a waiter. -/
def InUse (ex : OliveExecutor) (t : TaskId) : Prop :=
  t ∈ ex.ready ∨ (∃ w, t ∈ (ex.pc w).hands ∨ t ∈ (ex.pc w).found) ∨
    ∃ u, t ∈ (ex.tasks u).smWaiters

def Around (ex : OliveExecutor) (t : TaskId) : Prop :=
  InUse ex t ∨ ∃ m, ex.taskMap m = some t

/-- Every task is where the flags and the map say. -/
structure Placed (ex : OliveExecutor) : Prop where
  queued : ∀ t, (ex.tasks t).queued = true → t ∈ ex.ready ∨ ∃ w, ex.pc w = .popped t
  kept : ∀ t, (ex.tasks t).asked = true → (ex.tasks t).done = false →
    t ∈ ex.ready ∨ (∃ w, t ∈ (ex.pc w).hands) ∨ Registered ex t
  known : ∀ t, Around ex t → t < ex.created
  fresh : ∀ t, ex.created ≤ t → (ex.tasks t).smWaiters = []
  mapped : ∀ m t, ex.taskMap m = some t → (ex.tasks t).smFuture = m
  single : ∀ t t', Around ex t → Around ex t' →
    (ex.tasks t).smFuture = (ex.tasks t').smFuture → t = t'

/-- The `driving` flag of a task is set by one thread, while that thread polls it. -/
structure Driven (ex : OliveExecutor) : Prop where
  drives : ∀ w t, (ex.pc w).drives? = some t → (ex.tasks t).driving = true
  alone : ∀ w w' t, (ex.pc w).drives? = some t → (ex.pc w').drives? = some t → w = w'
  driving : ∀ t, (ex.tasks t).driving = true → ∃ w, (ex.pc w).drives? = some t

/-- What every step keeps. -/
structure Tracked (ex : OliveExecutor) : Prop where
  placed : Placed ex
  driven : Driven ex

theorem goto_pc_self (pc : ExecPc) : (ex.goto w pc).pc w = pc := if_pos rfl

theorem goto_pc_of_ne (pc : ExecPc) {u : ExecThread} (h : u ≠ w) : (ex.goto w pc).pc u = ex.pc u :=
  if_neg h

theorem goto_goto {pc' : ExecPc} : (ex.goto w pc).goto w pc' = ex.goto w pc' := by
  have hpc : ((ex.goto w pc).goto w pc').pc = (ex.goto w pc').pc := by
    funext u
    by_cases hu : u = w
    · subst hu
      rw [goto_pc_self, goto_pc_self]
    · rw [goto_pc_of_ne _ hu, goto_pc_of_ne _ hu, goto_pc_of_ne _ hu]
  exact congrArg (fun pc => { ex with pc := pc }) hpc

theorem modify_self {f : OliveTask → OliveTask} : (ex.modify t f).tasks t = f (ex.tasks t) :=
  if_pos rfl

theorem modify_of_ne {f : OliveTask → OliveTask} {u : TaskId} (h : u ≠ t) :
    (ex.modify t f).tasks u = ex.tasks u :=
  if_neg h

theorem modify_modify {f g : OliveTask → OliveTask} :
    (ex.modify t f).modify t g = ex.modify t fun task => g (f task) := by
  have htasks : ((ex.modify t f).modify t g).tasks = (ex.modify t fun task => g (f task)).tasks := by
    funext u
    by_cases hu : u = t
    · subst hu
      rw [modify_self, modify_self, modify_self]
    · rw [modify_of_ne hu, modify_of_ne hu, modify_of_ne hu]
  exact congrArg (fun tasks => { ex with tasks := tasks }) htasks

/-! ### Steps that only touch results, and steps that only move a thread -/

/-- Tasks that differ in their results, their completions and `driving` at most, and one of which may
have been taken from the queue. -/
structure Alike (task task' : OliveTask) : Prop where
  smFuture : task'.smFuture = task.smFuture
  queued : task'.queued = true → task.queued = true
  done : task'.done = task.done
  smWaiters : task'.smWaiters = task.smWaiters
  asked : task'.asked = task.asked

theorem Alike.refl (task : OliveTask) : Alike task task := ⟨rfl, id, rfl, rfl, rfl⟩

theorem alike_modify {f : OliveTask → OliveTask} (hf : Alike (ex.tasks t) (f (ex.tasks t))) (u : TaskId) :
    Alike (ex.tasks u) ((ex.modify t f).tasks u) := by
  by_cases hu : u = t
  · subst hu
    rw [modify_self]
    exact hf
  · rw [modify_of_ne hu]
    exact .refl _

theorem Placed.congr (h : Placed ex) (hready : ex'.ready = ex.ready)
    (hmap : ex'.taskMap = ex.taskMap) (hcreated : ex'.created = ex.created) (hpc : ex'.pc = ex.pc)
    (htasks : ∀ t, Alike (ex.tasks t) (ex'.tasks t)) : Placed ex' := by
  have haround : ∀ t, Around ex' t → Around ex t := by
    intro t ht
    simp only [Around, InUse, hready, hmap, hpc, (htasks _).smWaiters] at ht ⊢
    exact ht
  refine ⟨?_, ?_, ?_, ?_, ?_, ?_⟩
  · intro t ht
    rw [hready, hpc]
    exact h.queued t ((htasks t).queued ht)
  · intro t hasked hdone
    simp only [Registered, hready, hpc, (htasks _).smWaiters, (htasks _).done]
    exact h.kept t ((htasks t).asked ▸ hasked) ((htasks t).done ▸ hdone)
  · intro t ht
    rw [hcreated]
    exact h.known t (haround t ht)
  · intro t ht
    rw [(htasks t).smWaiters]
    exact h.fresh t (hcreated ▸ ht)
  · intro m t ht
    rw [(htasks t).smFuture]
    exact h.mapped m t (hmap ▸ ht)
  · intro t t' ht ht' heq
    rw [(htasks t).smFuture, (htasks t').smFuture] at heq
    exact h.single t t' (haround t ht) (haround t' ht') heq

theorem Placed.modify (h : Placed ex) {f : OliveTask → OliveTask}
    (hf : Alike (ex.tasks t) (f (ex.tasks t))) : Placed (ex.modify t f) :=
  h.congr rfl rfl rfl rfl (alike_modify hf)

/-- A thread moves on: what it lets go of is done, queued, in other hands or registered. -/
theorem Placed.goto (h : Placed ex) (haround : ∀ t, t ∈ pc.hands ∨ t ∈ pc.found → Around ex t)
    (hpopped : ∀ t, ex.pc w = .popped t → (ex.tasks t).queued = false)
    (hhands : ∀ t ∈ (ex.pc w).hands, t ∈ pc.hands ∨ (ex.tasks t).done = true ∨ t ∈ ex.ready ∨
      (∃ u, u ≠ w ∧ t ∈ (ex.pc u).hands) ∨ Registered ex t) : Placed (ex.goto w pc) := by
  have haround' : ∀ t, Around (ex.goto w pc) t → Around ex t := by
    intro t ht
    rcases ht with (hr | ⟨u, hu⟩ | hw) | hm
    · exact .inl (.inl hr)
    · by_cases huw : u = w
      · subst huw
        rw [goto_pc_self] at hu
        exact haround t hu
      · rw [goto_pc_of_ne pc huw] at hu
        exact .inl (.inr (.inl ⟨u, hu⟩))
    · exact .inl (.inr (.inr hw))
    · exact .inr hm
  refine ⟨?_, ?_, fun t ht => h.known t (haround' t ht), h.fresh, h.mapped, ?_⟩
  · intro t ht
    rcases h.queued t ht with hr | ⟨u, hu⟩
    · exact .inl hr
    · refine .inr ⟨u, ?_⟩
      have huw : u ≠ w := by
        rintro rfl
        have hfalse : (ex.tasks t).queued = false := hpopped t hu
        have htrue : (ex.tasks t).queued = true := ht
        rw [hfalse] at htrue
        cases htrue
      rw [goto_pc_of_ne pc huw]
      exact hu
  · intro t hasked hdone
    have hothers : ∀ u, u ≠ w → t ∈ (ex.pc u).hands → ∃ u, t ∈ ((ex.goto w pc).pc u).hands :=
      fun u huw hu => ⟨u, by rw [goto_pc_of_ne pc huw]; exact hu⟩
    rcases h.kept t hasked hdone with hr | ⟨u, hu⟩ | hreg
    · exact .inl hr
    · by_cases huw : u = w
      · subst huw
        rcases hhands t hu with hpc | hd | hr | ⟨u', hne, hu'⟩ | hreg
        · exact .inr (.inl ⟨u, by rw [goto_pc_self]; exact hpc⟩)
        · rw [show (ex.tasks t).done = false from hdone] at hd
          cases hd
        · exact .inl hr
        · exact .inr (.inl (hothers u' hne hu'))
        · exact .inr (.inr hreg)
      · exact .inr (.inl (hothers u huw hu))
    · exact .inr (.inr hreg)
  · intro t t' ht ht'
    exact h.single t t' (haround' t ht) (haround' t' ht')

theorem Driven.congr (h : Driven ex) (hpc : ∀ u, (ex'.pc u).drives? = (ex.pc u).drives?)
    (hdriving : ∀ t, (ex'.tasks t).driving = (ex.tasks t).driving) : Driven ex' := by
  refine ⟨?_, ?_, ?_⟩
  · intro w t ht
    rw [hpc] at ht
    rw [hdriving]
    exact h.drives w t ht
  · intro w w' t ht ht'
    rw [hpc] at ht ht'
    exact h.alone w w' t ht ht'
  · intro t ht
    rw [hdriving] at ht
    obtain ⟨w, hw⟩ := h.driving t ht
    exact ⟨w, (hpc w).trans hw⟩

theorem Driven.goto (h : Driven ex) (hdrives : pc.drives? = (ex.pc w).drives?) :
    Driven (ex.goto w pc) := by
  refine h.congr (fun u => ?_) fun _ => rfl
  by_cases huw : u = w
  · subst huw
    rw [goto_pc_self, hdrives]
  · rw [goto_pc_of_ne pc huw]

theorem Driven.modify (h : Driven ex) {f : OliveTask → OliveTask}
    (hf : (f (ex.tasks t)).driving = (ex.tasks t).driving) : Driven (ex.modify t f) := by
  refine h.congr (fun _ => rfl) fun u => ?_
  by_cases hu : u = t
  · subst hu
    rw [modify_self, hf]
  · rw [modify_of_ne hu]

theorem Tracked.modify (h : Tracked ex) {f : OliveTask → OliveTask}
    (hf : Alike (ex.tasks t) (f (ex.tasks t)))
    (hdriving : (f (ex.tasks t)).driving = (ex.tasks t).driving) : Tracked (ex.modify t f) :=
  ⟨h.placed.modify hf, h.driven.modify hdriving⟩

/-- A thread moves on with the same tasks in hand. -/
theorem Tracked.goto {pc₀ : ExecPc} (h : Tracked ex) (hpc : ex.pc w = pc₀)
    (hhands : pc₀.hands ⊆ pc.hands)
    (haround : ∀ t, t ∈ pc.hands ∨ t ∈ pc.found → t ∈ pc₀.hands ∨ t ∈ pc₀.found ∨ Around ex t)
    (hdrives : pc.drives? = pc₀.drives?)
    (hpopped : ∀ t, pc₀ = .popped t → (ex.tasks t).queued = false) : Tracked (ex.goto w pc) := by
  subst hpc
  refine ⟨h.placed.goto ?_ hpopped fun t ht => .inl (hhands ht), h.driven.goto hdrives⟩
  intro t ht
  rcases haround t ht with h | h | h
  · exact .inl (.inr (.inl ⟨w, .inl h⟩))
  · exact .inl (.inr (.inl ⟨w, .inr h⟩))
  · exact h

/-- A thread lets go of what is done, queued, in other hands or registered. -/
theorem Tracked.leave {pc₀ : ExecPc} (h : Tracked ex) (hpc : ex.pc w = pc₀)
    (hempty : pc.hands = [] ∧ pc.found = []) (hdrives : pc.drives? = pc₀.drives?)
    (hpopped : ∀ t, pc₀ ≠ .popped t)
    (hhands : ∀ t ∈ pc₀.hands, (ex.tasks t).done = true ∨ t ∈ ex.ready ∨
      (∃ u, u ≠ w ∧ t ∈ (ex.pc u).hands) ∨ Registered ex t) : Tracked (ex.goto w pc) := by
  subst hpc
  refine ⟨h.placed.goto ?_ (fun t ht => absurd ht (hpopped t)) fun t ht => .inr (hhands t ht),
    h.driven.goto hdrives⟩
  intro t ht
  rw [hempty.1, hempty.2] at ht
  rcases ht with ht | ht <;> cases ht

/-! ### The queue -/

theorem Tracked.pop {ready : List TaskId} (h : Tracked ex) (hpc : ex.pc w = .idle)
    (hready : ex.ready = t :: ready) : Tracked ({ ex with ready := ready }.goto w (.popped t)) := by
  have hmem : t ∈ ex.ready := by
    rw [hready]
    exact List.mem_cons_self
  have hmoved : Tracked (ex.goto w (.popped t)) := by
    refine h.goto hpc (fun t ht => by cases ht) ?_ rfl (fun t ht => by cases ht)
    intro u hu
    rcases hu with hu | hu
    · obtain rfl := List.mem_singleton.mp hu
      exact .inr (.inr (.inl (.inl hmem)))
    · cases hu
  have hself : (ex.goto w (.popped t)).pc w = .popped t := goto_pc_self _
  have hrest : ∀ u, u ∈ ex.ready → u ∈ ready ∨ u = t := by
    intro u hu
    rw [hready] at hu
    exact (List.mem_cons.mp hu).symm
  have haround : ∀ u, Around ({ ex with ready := ready }.goto w (.popped t)) u →
      Around (ex.goto w (.popped t)) u := by
    intro u hu
    rcases hu with (hr | hu) | hm
    · refine .inl (.inl ?_)
      show u ∈ ex.ready
      rw [hready]
      exact List.mem_cons_of_mem _ hr
    · exact .inl (.inr hu)
    · exact .inr hm
  refine ⟨⟨?_, ?_, fun u hu => hmoved.placed.known u (haround u hu), hmoved.placed.fresh,
    hmoved.placed.mapped, ?_⟩, hmoved.driven.congr (fun _ => rfl) fun _ => rfl⟩
  · intro u hu
    rcases hmoved.placed.queued u hu with hr | hpop
    · rcases hrest u hr with hr | rfl
      · exact .inl hr
      · exact .inr ⟨w, hself⟩
    · exact .inr hpop
  · intro u hasked hdone
    rcases hmoved.placed.kept u hasked hdone with hr | hrest'
    · rcases hrest u hr with hr | rfl
      · exact .inl hr
      · refine .inr (.inl ⟨w, ?_⟩)
        show u ∈ ((ex.goto w (.popped u)).pc w).hands
        rw [hself]
        exact List.mem_singleton_self u
    · exact .inr hrest'
  · intro u u' hu hu'
    exact hmoved.placed.single u u' (haround u hu) (haround u' hu')

theorem enqueue_tasks (u : TaskId) : (ex.enqueue t).tasks u =
    if u = t then { ex.tasks t with queued := true, asked := true } else ex.tasks u := by
  unfold enqueue
  split <;> rfl

theorem enqueue_ready (hqueued : (ex.tasks t).queued = false) : (ex.enqueue t).ready = ex.ready ++ [t] := by
  rw [enqueue, hqueued]
  rfl

theorem enqueue_grows : ex.ready ⊆ (ex.enqueue t).ready := by
  unfold enqueue
  split
  · exact List.Subset.refl _
  · exact List.subset_append_left _ _

theorem mem_enqueue_ready {u : TaskId} (h : u ∈ (ex.enqueue t).ready) : u ∈ ex.ready ∨ u = t := by
  unfold enqueue at h
  split at h
  · exact .inl h
  · rcases List.mem_append.mp h with h | h
    · exact .inl h
    · exact .inr (List.mem_singleton.mp h)

theorem enqueue_pc : (ex.enqueue t).pc = ex.pc := by
  unfold enqueue
  split <;> rfl

theorem enqueue_taskMap : (ex.enqueue t).taskMap = ex.taskMap := by
  unfold enqueue
  split <;> rfl

theorem enqueue_created : (ex.enqueue t).created = ex.created := by
  unfold enqueue
  split <;> rfl

theorem enqueue_core (u : TaskId) : ((ex.enqueue t).tasks u).smFuture = (ex.tasks u).smFuture ∧
    ((ex.enqueue t).tasks u).driving = (ex.tasks u).driving ∧
    ((ex.enqueue t).tasks u).done = (ex.tasks u).done ∧
    ((ex.enqueue t).tasks u).smWaiters = (ex.tasks u).smWaiters := by
  rw [enqueue_tasks]
  split
  · subst_vars
    exact ⟨rfl, rfl, rfl, rfl⟩
  · exact ⟨rfl, rfl, rfl, rfl⟩

/-- A queued task is in the queue, or has just been taken from it. -/
theorem Placed.queued_or_held (h : Placed ex) (ht : (ex.tasks t).queued = true) :
    t ∈ ex.ready ∨ ∃ w, ex.pc w = .popped t ∧ t ∈ (ex.pc w).hands := by
  rcases h.queued t ht with hr | ⟨w, hw⟩
  · exact .inl hr
  · refine .inr ⟨w, hw, ?_⟩
    rw [hw]
    exact List.mem_singleton_self t

theorem Tracked.enqueue (h : Tracked ex) (ht : Around ex t) : Tracked (ex.enqueue t) := by
  have haround : ∀ u, Around (ex.enqueue t) u → Around ex u := by
    intro u hu
    simp only [Around, InUse, enqueue_pc, enqueue_taskMap, (enqueue_core _).2.2.2] at hu
    rcases hu with (hr | hu) | hm
    · rcases mem_enqueue_ready hr with hr | rfl
      · exact .inl (.inl hr)
      · exact ht
    · exact .inl (.inr hu)
    · exact .inr hm
  have hself : t ∈ (ex.enqueue t).ready ∨ ∃ w, ex.pc w = .popped t ∧ t ∈ (ex.pc w).hands := by
    cases hq : (ex.tasks t).queued with
    | false =>
      rw [enqueue_ready hq]
      exact .inl (List.mem_append_right _ (List.mem_singleton_self t))
    | true => exact (h.placed.queued_or_held hq).imp_left fun hr => enqueue_grows hr
  refine ⟨⟨?_, ?_, ?_, ?_, ?_, ?_⟩, h.driven.congr (fun u => by rw [enqueue_pc]) fun u =>
    (enqueue_core u).2.1⟩
  · intro u hu
    rw [enqueue_pc]
    by_cases hut : u = t
    · subst hut
      exact hself.imp_right fun ⟨w, hw, _⟩ => ⟨w, hw⟩
    · rw [enqueue_tasks, if_neg hut] at hu
      exact (h.placed.queued u hu).imp_left fun hr => enqueue_grows hr
  · intro u hasked hdone
    simp only [Registered, enqueue_pc, (enqueue_core _).2.2.1, (enqueue_core _).2.2.2] at hdone ⊢
    by_cases hut : u = t
    · subst hut
      rcases hself with hr | ⟨w, -, hw⟩
      · exact .inl hr
      · exact .inr (.inl ⟨w, hw⟩)
    · rw [enqueue_tasks, if_neg hut] at hasked
      exact (h.placed.kept u hasked hdone).imp_left fun hr => enqueue_grows hr
  · intro u hu
    rw [enqueue_created]
    exact h.placed.known u (haround u hu)
  · intro u hu
    rw [enqueue_created] at hu
    rw [(enqueue_core u).2.2.2]
    exact h.placed.fresh u hu
  · intro m u hu
    rw [enqueue_taskMap] at hu
    rw [(enqueue_core u).1]
    exact h.placed.mapped m u hu
  · intro u u' hu hu' heq
    rw [(enqueue_core u).1, (enqueue_core u').1] at heq
    exact h.placed.single u u' (haround u hu) (haround u' hu') heq

/-! ### Polls -/

theorem Tracked.take {resumed : Resumed} (h : Tracked ex) (hpc : ex.pc w = .claim t resumed)
    (hfree : (ex.tasks t).driving = false) :
    Tracked ((ex.modify t fun task => { task with driving := true }).goto w (.polling t resumed)) := by
  have hnone : ∀ u, (ex.pc u).drives? ≠ some t := by
    intro u hu
    rw [h.driven.drives u t hu] at hfree
    cases hfree
  have hmodified := @Placed.modify ex t h.placed (fun task => { task with driving := true })
    ⟨rfl, id, rfl, rfl, rfl⟩
  have hdrives : ∀ u u', (((ex.modify t fun task => { task with driving := true }).goto w
      (.polling t resumed)).pc u).drives? = some u' →
      (u = w ∧ u' = t) ∨ (u ≠ w ∧ u' ≠ t ∧ (ex.pc u).drives? = some u') := by
    intro u u' hu
    by_cases huw : u = w
    · subst huw
      rw [goto_pc_self] at hu
      exact .inl ⟨rfl, (Option.some.inj hu).symm⟩
    · rw [goto_pc_of_ne _ huw] at hu
      refine .inr ⟨huw, ?_, hu⟩
      rintro rfl
      exact hnone u hu
  refine ⟨hmodified.goto ?_ ?_ ?_, ?_, ?_, ?_⟩
  · intro u hu
    refine .inl (.inr (.inl ⟨w, .inl ?_⟩))
    show u ∈ (ex.pc w).hands
    rw [hpc]
    rcases hu with hu | hu
    · exact hu
    · cases hu
  · intro u hu
    rw [show ex.pc w = .popped u from hu] at hpc
    cases hpc
  · intro u hu
    have hmem : u ∈ (ex.pc w).hands := hu
    rw [hpc] at hmem
    exact .inl hmem
  · intro u u' hu
    rcases hdrives u u' hu with ⟨-, rfl⟩ | ⟨-, hne, hu⟩
    · show ((ex.modify u' fun task => { task with driving := true }).tasks u').driving = true
      rw [modify_self]
    · show ((ex.modify t fun task => { task with driving := true }).tasks u').driving = true
      rw [modify_of_ne hne]
      exact h.driven.drives u u' hu
  · intro u u' v hu hu'
    rcases hdrives u v hu with ⟨rfl, rfl⟩ | ⟨-, hne, hu⟩
    · rcases hdrives u' v hu' with ⟨rfl, -⟩ | ⟨-, hne, -⟩
      · rfl
      · exact absurd rfl hne
    · rcases hdrives u' v hu' with ⟨-, rfl⟩ | ⟨-, -, hu'⟩
      · exact absurd rfl hne
      · exact h.driven.alone u u' v hu hu'
  · intro u hu
    by_cases hut : u = t
    · subst hut
      exact ⟨w, by rw [goto_pc_self]; rfl⟩
    · have hdriving : ((ex.modify t fun task => { task with driving := true }).tasks u).driving =
        true := hu
      rw [modify_of_ne hut] at hdriving
      obtain ⟨v, hv⟩ := h.driven.driving u hdriving
      have hvw : v ≠ w := by
        rintro rfl
        rw [hpc] at hv
        cases hv
      exact ⟨v, by rw [goto_pc_of_ne _ hvw]; exact hv⟩

theorem Tracked.release {resumed : Resumed} {result : Word} (h : Tracked ex)
    (hpc : ex.pc w = .polled t resumed result) (hhands : pc.hands = [t]) (hfound : pc.found = [])
    (hdrives : pc.drives? = none) :
    Tracked ((ex.modify t fun task => { task with driving := false }).goto w pc) := by
  have hself : (ex.pc w).drives? = some t := by
    rw [hpc]
    rfl
  have hmodified := @Placed.modify ex t h.placed (fun task => { task with driving := false })
    ⟨rfl, id, rfl, rfl, rfl⟩
  have hdrives : ∀ u u', (((ex.modify t fun task => { task with driving := false }).goto w pc).pc
      u).drives? = some u' → u ≠ w ∧ u' ≠ t ∧ (ex.pc u).drives? = some u' := by
    intro u u' hu
    have huw : u ≠ w := by
      rintro rfl
      rw [goto_pc_self, hdrives] at hu
      cases hu
    rw [goto_pc_of_ne _ huw] at hu
    refine ⟨huw, ?_, hu⟩
    rintro rfl
    exact huw (h.driven.alone u w u' hu hself)
  refine ⟨hmodified.goto ?_ ?_ ?_, ?_, ?_, ?_⟩
  · intro u hu
    refine .inl (.inr (.inl ⟨w, .inl ?_⟩))
    show u ∈ (ex.pc w).hands
    rw [hpc]
    rcases hu with hu | hu
    · rw [hhands] at hu
      exact hu
    · rw [hfound] at hu
      cases hu
  · intro u hu
    rw [show ex.pc w = .popped u from hu] at hpc
    cases hpc
  · intro u hu
    have hmem : u ∈ (ex.pc w).hands := hu
    rw [hpc] at hmem
    rw [hhands]
    exact .inl hmem
  · intro u u' hu
    obtain ⟨-, hne, hu⟩ := hdrives u u' hu
    show ((ex.modify t fun task => { task with driving := false }).tasks u').driving = true
    rw [modify_of_ne hne]
    exact h.driven.drives u u' hu
  · intro u u' v hu hu'
    exact h.driven.alone u u' v (hdrives u v hu).2.2 (hdrives u' v hu').2.2
  · intro u hu
    have hdriving : ((ex.modify t fun task => { task with driving := false }).tasks u).driving =
      true := hu
    by_cases hut : u = t
    · subst hut
      rw [modify_self] at hdriving
      cases hdriving
    · rw [modify_of_ne hut] at hdriving
      obtain ⟨v, hv⟩ := h.driven.driving u hdriving
      have hvw : v ≠ w := by
        rintro rfl
        rw [hpc] at hv
        exact hut (Option.some.inj hv).symm
      exact ⟨v, by rw [goto_pc_of_ne _ hvw]; exact hv⟩

/-! ### The task map -/

theorem create_self (m : Word) : (ex.create m).tasks ex.created = newTask m := if_pos rfl

theorem create_of_ne {m : Word} (h : t ≠ ex.created) : (ex.create m).tasks t = ex.tasks t := if_neg h

/-- A new task, while no other task of the machine is about. -/
theorem Tracked.create {m : Word} (h : Tracked ex) (hnone : ex.taskMap m = none)
    (hrenewed : ∀ t, InUse ex t → (ex.tasks t).smFuture ≠ m) : Tracked (ex.create m) := by
  have hnew : ∀ t, Around ex t → t ≠ ex.created := by
    intro t ht
    exact Nat.ne_of_lt (h.placed.known t ht)
  have hwaiters : ∀ u, ((ex.create m).tasks u).smWaiters = (ex.tasks u).smWaiters := by
    intro u
    by_cases hu : u = ex.created
    · subst hu
      rw [create_self, h.placed.fresh ex.created (Nat.le_refl _)]
      rfl
    · rw [create_of_ne hu]
  have hinuse : ∀ t, InUse (ex.create m) t → InUse ex t := by
    intro t ht
    simp only [InUse, hwaiters] at ht
    exact ht
  have haround : ∀ t, Around (ex.create m) t → t = ex.created ∨ Around ex t := by
    intro t ht
    rcases ht with ht | ⟨m', hm⟩
    · exact .inr (.inl (hinuse t ht))
    · have hm' : ex.taskMap.insert m ex.created m' = some t := hm
      by_cases hmm : m' = m
      · subst hmm
        rw [FxHashMap.insert_self] at hm'
        exact .inl (Option.some.inj hm').symm
      · rw [FxHashMap.insert_of_ne _ _ hmm] at hm'
        exact .inr (.inr ⟨m', hm'⟩)
  have hother : ∀ t, Around ex t → (ex.tasks t).smFuture ≠ m := by
    intro t ht heq
    rcases ht with ht | ⟨m', hm⟩
    · exact hrenewed t ht heq
    · have hmapped := h.placed.mapped m' t hm
      rw [← hmapped, heq, hnone] at hm
      cases hm
  have hpolled : ∀ w t, (ex.pc w).drives? = some t → Around ex t := by
    intro w t ht
    refine .inl (.inr (.inl ⟨w, .inl ?_⟩))
    cases hpc : ex.pc w with
    | polling u resumed | polled u resumed result =>
      rw [hpc] at ht
      obtain rfl := Option.some.inj ht
      exact List.mem_singleton_self _
    | _ =>
      rw [hpc] at ht
      cases ht
  refine ⟨⟨?_, ?_, ?_, ?_, ?_, ?_⟩, ⟨?_, h.driven.alone, ?_⟩⟩
  · intro t ht
    by_cases htc : t = ex.created
    · subst htc
      rw [create_self] at ht
      cases ht
    · rw [create_of_ne htc] at ht
      exact h.placed.queued t ht
  · intro t hasked hdone
    by_cases htc : t = ex.created
    · subst htc
      rw [create_self] at hasked
      cases hasked
    · rw [create_of_ne htc] at hasked hdone
      rcases h.placed.kept t hasked hdone with hr | hw | ⟨u, hu, hud⟩
      · exact .inl hr
      · exact .inr (.inl hw)
      · refine .inr (.inr ⟨u, by rw [hwaiters]; exact hu, ?_⟩)
        have huc : u ≠ ex.created := by
          rintro rfl
          rw [h.placed.fresh ex.created (Nat.le_refl _)] at hu
          cases hu
        rw [create_of_ne huc]
        exact hud
  · intro t ht
    show t < ex.created + 1
    rcases haround t ht with rfl | ht
    · exact Nat.lt_succ_self _
    · exact Nat.lt_succ_of_lt (h.placed.known t ht)
  · intro t ht
    rw [hwaiters]
    exact h.placed.fresh t (Nat.le_of_succ_le ht)
  · intro m' t ht
    have hm : ex.taskMap.insert m ex.created m' = some t := ht
    by_cases hmm : m' = m
    · subst hmm
      rw [FxHashMap.insert_self] at hm
      rw [← Option.some.inj hm, create_self]
      rfl
    · rw [FxHashMap.insert_of_ne _ _ hmm] at hm
      rw [create_of_ne (hnew t (.inr ⟨m', hm⟩))]
      exact h.placed.mapped m' t hm
  · intro t t' ht ht' heq
    rcases haround t ht with rfl | ht
    · rcases haround t' ht' with rfl | ht'
      · rfl
      · rw [create_self, create_of_ne (hnew t' ht')] at heq
        exact absurd heq.symm (hother t' ht')
    · rcases haround t' ht' with rfl | ht'
      · rw [create_self, create_of_ne (hnew t ht)] at heq
        exact absurd heq (hother t ht)
      · rw [create_of_ne (hnew t ht), create_of_ne (hnew t' ht')] at heq
        exact h.placed.single t t' ht ht' heq
  · intro w t ht
    rw [create_of_ne (hnew t (hpolled w t ht))]
    exact h.driven.drives w t ht
  · intro t ht
    by_cases htc : t = ex.created
    · subst htc
      rw [create_self] at ht
      cases ht
    · rw [create_of_ne htc] at ht
      exact h.driven.driving t ht

theorem getOrCreate_pc (m : Word) : (ex.getOrCreate m).2.pc = ex.pc := by
  unfold getOrCreate
  split <;> rfl

theorem getOrCreate_mapped (m : Word) :
    (ex.getOrCreate m).2.taskMap m = some (ex.getOrCreate m).1 := by
  unfold getOrCreate
  split
  next hm => exact hm
  next => exact FxHashMap.insert_self _ _ _

theorem Tracked.getOrCreate {m : Word} (h : Tracked ex)
    (hrenewed : ex.taskMap m = none → ∀ t, InUse ex t → (ex.tasks t).smFuture ≠ m) :
    Tracked (ex.getOrCreate m).2 := by
  unfold OliveExecutor.getOrCreate
  split
  next => exact h
  next hm => exact h.create hm (hrenewed hm)

theorem Tracked.unmap {m : Word} (h : Tracked ex) :
    Tracked { ex with taskMap := ex.taskMap.remove m } := by
  have hmap : ∀ m' t, ex.taskMap.remove m m' = some t → ex.taskMap m' = some t := by
    intro m' t ht
    unfold FxHashMap.remove at ht
    split at ht
    · cases ht
    · exact ht
  have haround : ∀ t, Around { ex with taskMap := ex.taskMap.remove m } t → Around ex t := by
    intro t ht
    rcases ht with ht | ⟨m', hm⟩
    · exact .inl ht
    · exact .inr ⟨m', hmap m' t hm⟩
  exact ⟨⟨h.placed.queued, h.placed.kept, fun t ht => h.placed.known t (haround t ht), h.placed.fresh,
    fun m' t ht => h.placed.mapped m' t (hmap m' t ht),
    fun t t' ht ht' => h.placed.single t t' (haround t ht) (haround t' ht')⟩,
    h.driven.congr (fun _ => rfl) fun _ => rfl⟩

/-! ### Waiters -/

/-- A task that is asked for while it is in a thread's hands. -/
theorem Tracked.ask {f : OliveTask → OliveTask} (h : Tracked ex) (ht : ∃ w, t ∈ (ex.pc w).hands)
    (hf : ∀ task, (f task).smFuture = task.smFuture ∧ (f task).queued = task.queued ∧
      (f task).done = task.done ∧ (f task).smWaiters = task.smWaiters ∧
      (f task).driving = task.driving) : Tracked (ex.modify t f) := by
  have hcore : ∀ u, ((ex.modify t f).tasks u).smFuture = (ex.tasks u).smFuture ∧
      ((ex.modify t f).tasks u).queued = (ex.tasks u).queued ∧
      ((ex.modify t f).tasks u).done = (ex.tasks u).done ∧
      ((ex.modify t f).tasks u).smWaiters = (ex.tasks u).smWaiters := by
    intro u
    by_cases hu : u = t
    · subst hu
      rw [modify_self]
      obtain ⟨hm, hq, hd, hw, -⟩ := hf (ex.tasks u)
      exact ⟨hm, hq, hd, hw⟩
    · rw [modify_of_ne hu]
      exact ⟨rfl, rfl, rfl, rfl⟩
  have haround : ∀ u, Around (ex.modify t f) u → Around ex u := by
    intro u hu
    simp only [Around, InUse, (hcore _).2.2.2] at hu
    exact hu
  refine ⟨⟨?_, ?_, fun u hu => h.placed.known u (haround u hu), ?_, ?_, ?_⟩,
    h.driven.modify (hf _).2.2.2.2⟩
  · intro u hu
    rw [(hcore u).2.1] at hu
    exact h.placed.queued u hu
  · intro u hasked hdone
    simp only [Registered, (hcore _).2.2.1, (hcore _).2.2.2] at hdone ⊢
    by_cases hut : u = t
    · subst hut
      exact .inr (.inl ht)
    · rw [modify_of_ne hut] at hasked
      exact h.placed.kept u hasked hdone
  · intro u hu
    rw [(hcore u).2.2.2]
    exact h.placed.fresh u hu
  · intro m u hu
    rw [(hcore u).1]
    exact h.placed.mapped m u hu
  · intro u u' hu hu' heq
    rw [(hcore u).1, (hcore u').1] at heq
    exact h.placed.single u u' (haround u hu) (haround u' hu') heq

/-- A task in a thread's hands is registered as a waiter. -/
theorem Tracked.push {sub : TaskId} (h : Tracked ex) (hsub : sub < ex.created) (ht : Around ex t) :
    Tracked (ex.modify sub fun task => { task with smWaiters := task.smWaiters ++ [t] }) := by
  have hcore : ∀ u, ((ex.modify sub fun task => { task with smWaiters := task.smWaiters ++ [t] }).tasks
        u).smFuture = (ex.tasks u).smFuture ∧
      ((ex.modify sub fun task => { task with smWaiters := task.smWaiters ++ [t] }).tasks u).queued =
        (ex.tasks u).queued ∧
      ((ex.modify sub fun task => { task with smWaiters := task.smWaiters ++ [t] }).tasks u).done =
        (ex.tasks u).done ∧
      ((ex.modify sub fun task => { task with smWaiters := task.smWaiters ++ [t] }).tasks u).asked =
        (ex.tasks u).asked := by
    intro u
    by_cases hu : u = sub
    · subst hu
      rw [modify_self]
      exact ⟨rfl, rfl, rfl, rfl⟩
    · rw [modify_of_ne hu]
      exact ⟨rfl, rfl, rfl, rfl⟩
  have hwaiters : ∀ u v, v ∈ ((ex.modify sub fun task =>
      { task with smWaiters := task.smWaiters ++ [t] }).tasks u).smWaiters →
      v ∈ (ex.tasks u).smWaiters ∨ v = t := by
    intro u v hv
    by_cases hu : u = sub
    · subst hu
      rw [modify_self] at hv
      rcases List.mem_append.mp hv with hv | hv
      · exact .inl hv
      · exact .inr (List.mem_singleton.mp hv)
    · rw [modify_of_ne hu] at hv
      exact .inl hv
  have hkeeps : ∀ u v, v ∈ (ex.tasks u).smWaiters → v ∈ ((ex.modify sub fun task =>
      { task with smWaiters := task.smWaiters ++ [t] }).tasks u).smWaiters := by
    intro u v hv
    by_cases hu : u = sub
    · subst hu
      rw [modify_self]
      exact List.mem_append_left _ hv
    · rw [modify_of_ne hu]
      exact hv
  have haround : ∀ u, Around (ex.modify sub fun task =>
      { task with smWaiters := task.smWaiters ++ [t] }) u → Around ex u := by
    intro u hu
    rcases hu with (hr | hu | ⟨v, hv⟩) | hm
    · exact .inl (.inl hr)
    · exact .inl (.inr (.inl hu))
    · rcases hwaiters v u hv with hv | rfl
      · exact .inl (.inr (.inr ⟨v, hv⟩))
      · exact ht
    · exact .inr hm
  refine ⟨⟨?_, ?_, fun u hu => h.placed.known u (haround u hu), ?_, ?_, ?_⟩, h.driven.modify rfl⟩
  · intro u hu
    rw [(hcore u).2.1] at hu
    exact h.placed.queued u hu
  · intro u hasked hdone
    rw [(hcore u).2.2.2] at hasked
    rw [(hcore u).2.2.1] at hdone
    rcases h.placed.kept u hasked hdone with hr | hw | ⟨v, hv, hvd⟩
    · exact .inl hr
    · exact .inr (.inl hw)
    · exact .inr (.inr ⟨v, hkeeps v u hv, by rw [(hcore v).2.2.1]; exact hvd⟩)
  · intro u hu
    have hne : u ≠ sub := by
      rintro rfl
      exact absurd hsub (Nat.not_lt.mpr hu)
    rw [modify_of_ne hne]
    exact h.placed.fresh u hu
  · intro m u hu
    rw [(hcore u).1]
    exact h.placed.mapped m u hu
  · intro u u' hu hu' heq
    rw [(hcore u).1, (hcore u').1] at heq
    exact h.placed.single u u' (haround u hu) (haround u' hu') heq

/-- A task is done, and its waiters are in the hands of a thread. -/
theorem Tracked.finish (h : Tracked ex) (hw : ∀ u ∈ (ex.tasks t).smWaiters, u ∈ (ex.pc w).hands) :
    Tracked (ex.modify t fun task => { task with done := true, smWaiters := [] }) := by
  have hcore : ∀ u, ((ex.modify t fun task => { task with done := true, smWaiters := [] }).tasks
        u).smFuture = (ex.tasks u).smFuture ∧
      ((ex.modify t fun task => { task with done := true, smWaiters := [] }).tasks u).queued =
        (ex.tasks u).queued ∧
      ((ex.modify t fun task => { task with done := true, smWaiters := [] }).tasks u).asked =
        (ex.tasks u).asked := by
    intro u
    by_cases hu : u = t
    · subst hu
      rw [modify_self]
      exact ⟨rfl, rfl, rfl⟩
    · rw [modify_of_ne hu]
      exact ⟨rfl, rfl, rfl⟩
  have hwaiters : ∀ u, ((ex.modify t fun task =>
      { task with done := true, smWaiters := [] }).tasks u).smWaiters ⊆ (ex.tasks u).smWaiters := by
    intro u
    by_cases hu : u = t
    · subst hu
      rw [modify_self]
      exact List.nil_subset _
    · rw [modify_of_ne hu]
      exact List.Subset.refl _
  have haround : ∀ u, Around (ex.modify t fun task =>
      { task with done := true, smWaiters := [] }) u → Around ex u := by
    intro u hu
    rcases hu with (hr | hu | ⟨v, hv⟩) | hm
    · exact .inl (.inl hr)
    · exact .inl (.inr (.inl hu))
    · exact .inl (.inr (.inr ⟨v, hwaiters v hv⟩))
    · exact .inr hm
  refine ⟨⟨?_, ?_, fun u hu => h.placed.known u (haround u hu), ?_, ?_, ?_⟩, h.driven.modify rfl⟩
  · intro u hu
    rw [(hcore u).2.1] at hu
    exact h.placed.queued u hu
  · intro u hasked hdone
    rw [(hcore u).2.2] at hasked
    have hut : u ≠ t := by
      rintro rfl
      rw [modify_self] at hdone
      cases hdone
    rw [modify_of_ne hut] at hdone
    rcases h.placed.kept u hasked hdone with hr | hhands | ⟨v, hv, hvd⟩
    · exact .inl hr
    · exact .inr (.inl hhands)
    · by_cases hvt : v = t
      · subst hvt
        exact .inr (.inl ⟨w, hw u hv⟩)
      · refine .inr (.inr ⟨v, ?_, ?_⟩)
        · rw [modify_of_ne hvt]
          exact hv
        · rw [modify_of_ne hvt]
          exact hvd
  · intro u hu
    have hnone := hwaiters u
    rw [h.placed.fresh u hu] at hnone
    exact List.eq_nil_of_subset_nil hnone
  · intro m u hu
    rw [(hcore u).1]
    exact h.placed.mapped m u hu
  · intro u u' hu hu' heq
    rw [(hcore u).1, (hcore u').1] at heq
    exact h.placed.single u u' (haround u hu) (haround u' hu') heq

/-! ### What a run must not do -/

/-- The task whose `Rerun` the next step of `executor_complete_waker` drops: it waits for nothing, for
a plain future, or for a task that has its result or is done. -/
def discards (heap : ExecHeap) (ex : OliveExecutor) (w : ExecThread) : Option TaskId :=
  match ex.pc w with
  | .park t (.completeWaker _) =>
    let sub := ex.subFuture (ex.tasks t).smFuture
    if sub ≠ 0 ∧ (heap.kind sub = kindFuture ∨ heap.kind sub = kindSmFuture) then none else some t
  | .parkFuture t (.completeWaker _) _ => some t
  | .parkGive t (.completeWaker _) _ => some t
  | .parkRegister t (.completeWaker _) sub => if (ex.tasks sub).done then some t else none
  | _ => none

/-- A task whose `Rerun` is dropped has been queued again by then, and a machine is given a new task
only when no task of it is in use. -/
structure Careful (heap : ExecHeap) (ex : OliveExecutor) (step : ExecThread × ExecAction) : Prop where
  requeued : step.2 = .go → ∀ t, ex.discards heap step.1 = some t → (ex.tasks t).queued = true
  renewed : step.2 = .go → ∀ m, (ex.pc step.1).looksUp? = some m → ex.taskMap m = none →
    ∀ t, InUse ex t → (ex.tasks t).smFuture ≠ m

/-! ### Steps -/

theorem Tracked.enqueueGoto {pc₀ : ExecPc} (h : Tracked ex) (hpc : ex.pc w = pc₀)
    (hhands : pc₀.hands = t :: pc.hands) (hfound : pc.found = []) (hdrives : pc.drives? = pc₀.drives?)
    (hpopped : ∀ t, pc₀ ≠ .popped t) : Tracked ((ex.enqueue t).goto w pc) := by
  subst hpc
  have hheld : ∀ u, u ∈ (ex.pc w).hands → Around ex u :=
    fun u hu => .inl (.inr (.inl ⟨w, .inl hu⟩))
  have henqueued := h.enqueue (hheld t (by rw [hhands]; exact List.mem_cons_self))
  have hqueued : ((ex.enqueue t).tasks t).queued = true := by rw [enqueue_tasks, if_pos rfl]
  refine ⟨henqueued.placed.goto ?_ ?_ ?_, henqueued.driven.goto (by rw [enqueue_pc, hdrives])⟩
  · intro u hu
    rw [hfound] at hu
    rcases hu with hu | hu
    · refine .inl (.inr (.inl ⟨w, .inl ?_⟩))
      rw [enqueue_pc, hhands]
      exact List.mem_cons_of_mem _ hu
    · cases hu
  · intro u hu
    rw [enqueue_pc] at hu
    exact absurd hu (hpopped u)
  · intro u hu
    rw [enqueue_pc, hhands] at hu
    rcases List.mem_cons.mp hu with rfl | hu
    · rcases henqueued.placed.queued_or_held hqueued with hr | ⟨v, hv, hmem⟩
      · exact .inr (.inr (.inl hr))
      · refine .inr (.inr (.inr (.inl ⟨v, ?_, hmem⟩)))
        rintro rfl
        rw [enqueue_pc] at hv
        exact hpopped u hv
    · exact .inl hu

/-- `Rerun`: from `executor_drive` the task is enqueued next, from `executor_complete_waker` it is let
go of. -/
theorem Tracked.returns {pc₀ : ExecPc} (resumed : Resumed) (h : Tracked ex) (hpc : ex.pc w = pc₀)
    (hhands : pc₀.hands = [t]) (hdrives : pc₀.drives? = none) (hpopped : ∀ t, pc₀ ≠ .popped t)
    (hkept : ∀ v, resumed = .completeWaker v → (ex.tasks t).queued = true ∨ Registered ex t) :
    Tracked (ex.goto w (resumed.returns t .rerun)) := by
  cases resumed with
  | drive =>
    refine h.goto hpc ?_ ?_ hdrives.symm fun u hu => absurd hu (hpopped u)
    · rw [hhands]
      exact List.Subset.refl _
    · rintro u (hu | hu)
      · rw [hhands]
        exact .inl hu
      · cases hu
  | completeWaker v =>
    refine h.leave hpc ⟨rfl, rfl⟩ hdrives.symm hpopped ?_
    intro u hu
    rw [hhands] at hu
    obtain rfl := List.mem_singleton.mp hu
    rcases hkept v rfl with hq | hreg
    · rcases h.placed.queued_or_held hq with hr | ⟨x, hx, hmem⟩
      · exact .inr (.inl hr)
      · refine .inr (.inr (.inl ⟨x, ?_, hmem⟩))
        rintro rfl
        exact hpopped u (hpc.symm.trans hx)
    · exact .inr (.inr (.inr hreg))

/-- A thread finds the task of the machine it asks for, with the tasks in its hands. -/
theorem Tracked.lookUp {pc₀ : ExecPc} {m : Word} (h : Tracked ex) (hpc : ex.pc w = pc₀)
    (hrenewed : ex.taskMap m = none → ∀ t, InUse ex t → (ex.tasks t).smFuture ≠ m)
    (hhands : pc.hands = pc₀.hands) (hfound : pc.found = [(ex.getOrCreate m).1])
    (hdrives : pc.drives? = pc₀.drives?) (hpopped : ∀ t, pc₀ ≠ .popped t) :
    Tracked ((ex.getOrCreate m).2.goto w pc) := by
  have hpc' : (ex.getOrCreate m).2.pc w = pc₀ := by rw [getOrCreate_pc, hpc]
  refine (h.getOrCreate hrenewed).goto hpc' ?_ ?_ hdrives fun t ht => absurd ht (hpopped t)
  · rw [hhands]
    exact List.Subset.refl _
  · rintro t (ht | ht)
    · rw [hhands] at ht
      exact .inl ht
    · rw [hfound] at ht
      obtain rfl := List.mem_singleton.mp ht
      exact .inr (.inr (.inr ⟨m, getOrCreate_mapped m⟩))

theorem Tracked.register {resumed : Resumed} {sub : TaskId} (h : Tracked ex)
    (hpc : ex.pc w = .parkRegister t resumed sub) (hdone : (ex.tasks sub).done = false) :
    Tracked ((ex.modify sub fun task =>
      { task with smWaiters := task.smWaiters ++ [t], asked := true }).goto w
        (.parkEnqueue t resumed sub)) := by
  have hheld : Around ex t := .inl (.inr (.inl ⟨w, .inl (by rw [hpc]; exact List.mem_singleton_self t)⟩))
  have hfound : Around ex sub :=
    .inl (.inr (.inl ⟨w, .inr (by rw [hpc]; exact List.mem_singleton_self sub)⟩))
  have hpushed := h.push (h.placed.known sub hfound) hheld
  have hwaits : Registered (ex.modify sub fun task =>
      { task with smWaiters := task.smWaiters ++ [t] }) t := by
    refine ⟨sub, ?_, ?_⟩
    · rw [modify_self]
      exact List.mem_append_right _ (List.mem_singleton_self t)
    · rw [modify_self]
      exact hdone
  have hmoved : Tracked ((ex.modify sub fun task =>
      { task with smWaiters := task.smWaiters ++ [t] }).goto w (.parkEnqueue t resumed sub)) := by
    refine ⟨hpushed.placed.goto ?_ ?_ ?_, hpushed.driven.goto ?_⟩
    · rintro u (hu | hu)
      · obtain rfl := List.mem_singleton.mp hu
        refine .inl (.inr (.inl ⟨w, .inr ?_⟩))
        show u ∈ (ex.pc w).found
        rw [hpc]
        exact List.mem_singleton_self u
      · cases hu
    · intro u hu
      rw [show ex.pc w = .popped u from hu] at hpc
      cases hpc
    · intro u hu
      have hmem : u ∈ (ex.pc w).hands := hu
      rw [hpc] at hmem
      obtain rfl := List.mem_singleton.mp hmem
      exact .inr (.inr (.inr (.inr hwaits)))
    · show none = (ex.pc w).drives?
      rw [hpc]
      rfl
  have hasked := @Tracked.ask _ sub (fun task => { task with asked := true }) hmoved
    ⟨w, by rw [goto_pc_self]; exact List.mem_singleton_self sub⟩ fun _ => ⟨rfl, rfl, rfl, rfl, rfl⟩
  have htwice : ((ex.modify sub fun task => { task with smWaiters := task.smWaiters ++ [t] }).modify sub
      fun task => { task with asked := true }).goto w (.parkEnqueue t resumed sub) =
      (ex.modify sub fun task => { task with smWaiters := task.smWaiters ++ [t], asked := true }).goto w
        (.parkEnqueue t resumed sub) := by
    rw [modify_modify]
  rw [← htwice]
  exact hasked

end OliveExecutor

end Olive
