import Mathlib.Data.List.Basic

/-! Worklists: entry states of the nodes of a graph, joined along its edges until nothing changes. Every
visit of a node also changes a context that is kept over the whole run. -/

namespace Worklist

variable {α κ : Type}

structure Flow (α κ : Type) where
  /-- What a visit makes of the context and of the node's entry state. -/
  visit : κ → Nat → α → κ × α
  /-- The joined state, and whether it differs from the first one. -/
  join : α → α → α × Bool
  succs : Nat → List Nat

/-- Vectors with one place a node are the functions they denote. -/
structure LoopState (α κ : Type) where
  ctx : κ
  entry : Nat → Option α
  worklist : List Nat
  inWorklist : Nat → Bool

variable (F : Flow α κ)

/-- The state of a successor after `out` has come in, and whether it is new. -/
def Flow.joined (existing : Option α) (out : α) : α × Bool :=
  match existing with
  | none => (out, true)
  | some a => F.join a out

/-- Passes the exit state of a node on to a successor, which is queued if this changes it. -/
def push (out : α) (s : LoopState α κ) (succ : Nat) : LoopState α κ :=
  let joined := F.joined (s.entry succ) out
  let queues := joined.2 && !s.inWorklist succ
  ⟨s.ctx, Function.update s.entry succ (some joined.1),
    if queues then s.worklist ++ [succ] else s.worklist,
    Function.update s.inWorklist succ (s.inWorklist succ || queues)⟩

/-- Takes the first node off the worklist; nothing happens to one without an entry state. -/
def step (s : LoopState α κ) : Option (LoopState α κ) :=
  match s.worklist with
  | [] => none
  | b :: rest =>
    let inWorklist := Function.update s.inWorklist b false
    match s.entry b with
    | none => some ⟨s.ctx, s.entry, rest, inWorklist⟩
    | some a =>
      let visited := F.visit s.ctx b a
      some ((F.succs b).foldl (push F visited.2) ⟨visited.1, s.entry, rest, inWorklist⟩)

/-- The loop until its worklist is empty, with a budget of steps. -/
def run : Nat → LoopState α κ → Option (LoopState α κ)
  | 0, _ => none
  | fuel + 1, s =>
    match step F s with
    | none => some s
    | some s' => run fuel s'

/-- The visit that the next step makes. -/
def LoopState.next (s : LoopState α κ) : Option (Nat × α) :=
  s.worklist.head?.bind fun b => (s.entry b).map (b, ·)

/-- The loops reached from `start` by steps whose visits meet `ok`. -/
inductive Reached (ok : κ → Nat → α → Prop) (start : LoopState α κ) : LoopState α κ → Prop
  | start : Reached ok start start
  | step {s s' : LoopState α κ} : Reached ok start s → step F s = some s' →
      (∀ b a, s.next = some (b, a) → ok s.ctx b a) → Reached ok start s'

variable {F} {ok : κ → Nat → α → Prop} {start s s' : LoopState α κ}

theorem worklist_of_step_none (h : step F s = none) : s.worklist = [] := by
  unfold step at h
  split at h
  next hw => exact hw
  next =>
    split at h <;> cases h

theorem reached_of_run (hok : ∀ s, Reached F (fun _ _ _ => True) start s → ∀ b a,
      s.next = some (b, a) → ok s.ctx b a) {fuel : Nat} {r : LoopState α κ}
    (h : run F fuel start = some r) : Reached F ok start r ∧ r.worklist = [] := by
  have hall : ∀ (fuel : Nat) (s : LoopState α κ), Reached F (fun _ _ _ => True) start s →
      Reached F ok start s → run F fuel s = some r → Reached F ok start r ∧ r.worklist = [] := by
    intro fuel
    induction fuel with
    | zero =>
      intro s _ _ h
      cases h
    | succ fuel ih =>
      intro s hs hs' h
      unfold run at h
      cases hstep : step F s with
      | none =>
        rw [hstep] at h
        obtain rfl := Option.some.inj h
        exact ⟨hs', worklist_of_step_none hstep⟩
      | some t =>
        rw [hstep] at h
        exact ih t (hs.step hstep fun _ _ _ => trivial) (hs'.step hstep (hok s hs)) h
  exact hall fuel start .start .start h

theorem ctx_of_pushes {out : α} (succs : List Nat) (s : LoopState α κ) :
    (succs.foldl (push F out) s).ctx = s.ctx := by
  induction succs generalizing s with
  | nil => rfl
  | cons succ succs ih => rw [List.foldl_cons, ih]; rfl

/-- A step visits the next node, if it has a state, and changes the context in no other way. -/
theorem step_ctx (h : step F s = some s') :
    (∃ b a, s.next = some (b, a) ∧ s'.ctx = (F.visit s.ctx b a).1) ∨
      s.next = none ∧ s'.ctx = s.ctx := by
  unfold step at h
  split at h
  next => cases h
  next b rest hw =>
    split at h
    next hstate =>
      obtain rfl := Option.some.inj h
      exact .inr ⟨by simp [LoopState.next, hw, hstate], rfl⟩
    next a hstate =>
      obtain rfl := Option.some.inj h
      refine .inl ⟨b, a, by simp [LoopState.next, hw, hstate], ?_⟩
      rw [ctx_of_pushes]

/-- What must have held of the context before every visit if it holds after the last. -/
theorem Reached.and_before {P : κ → Prop} (hP : ∀ c b a, P (F.visit c b a).1 → P c)
    (h : Reached F ok start s) (hs : P s.ctx) :
    Reached F (fun c b a => ok c b a ∧ P (F.visit c b a).1) start s := by
  induction h with
  | start => exact .start
  | @step s s' _ hstep hok ih =>
    obtain ⟨b, a, hnext, hctx⟩ | ⟨hnext, hctx⟩ := step_ctx hstep
    · rw [hctx] at hs
      refine (ih (hP _ _ _ hs)).step hstep fun b' a' hnext' => ?_
      obtain ⟨rfl, rfl⟩ := Prod.mk.inj (Option.some.inj (hnext.symm.trans hnext'))
      exact ⟨hok b a hnext, hs⟩
    · rw [hctx] at hs
      refine (ih hs).step hstep fun b' a' hnext' => ?_
      rw [hnext] at hnext'
      cases hnext'

section Settled

variable {Le : α → α → Prop}

/-- Joins go up, and report every change. -/
structure Joins (F : Flow α κ) (Le : α → α → Prop) : Prop where
  refl : ∀ a, Le a a
  trans : ∀ a b c, Le a b → Le b c → Le a c
  left : ∀ a b, Le a (F.join a b).1
  right : ∀ a b, Le b (F.join a b).1
  same : ∀ a b, (F.join a b).2 = false → (F.join a b).1 = a

/-- A visit from the present entry state of `b`, with a context that met `ok`, has reached all its
successors. -/
structure SettledAt (F : Flow α κ) (Le : α → α → Prop) (ok : κ → Nat → α → Prop)
    (entry : Nat → Option α) (b : Nat) (a : α) (c : κ) : Prop where
  met : ok c b a
  passed : ∀ succ ∈ F.succs b, ∃ a', entry succ = some a' ∧ Le (F.visit c b a).2 a'

/-- Every node with a state is queued, or settled. -/
structure Settling (F : Flow α κ) (Le : α → α → Prop) (ok : κ → Nat → α → Prop) (s : LoopState α κ) :
    Prop where
  listed : ∀ b, s.inWorklist b = true → b ∈ s.worklist
  settled : ∀ b a, s.entry b = some a →
    b ∈ s.worklist ∨ ∃ c, SettledAt F Le ok s.entry b a c

/-- States only go up, and what is new is queued. -/
structure Grown (Le : α → α → Prop) (s s' : LoopState α κ) : Prop where
  above : ∀ b a, s.entry b = some a → ∃ a', s'.entry b = some a' ∧ Le a a'
  queued : ∀ b a, s'.entry b = some a → s.entry b = some a ∨ b ∈ s'.worklist
  kept : ∀ b ∈ s.worklist, b ∈ s'.worklist
  listed : ∀ b, s'.inWorklist b = true → b ∈ s'.worklist

theorem Grown.refl (hF : Joins F Le) {s : LoopState α κ}
    (hlisted : ∀ b, s.inWorklist b = true → b ∈ s.worklist) : Grown Le s s :=
  ⟨fun _ a ha => ⟨a, ha, hF.refl a⟩, fun _ _ ha => .inl ha, fun _ hb => hb, hlisted⟩

theorem Grown.trans (hF : Joins F Le) {s t u : LoopState α κ} (h : Grown Le s t) (h' : Grown Le t u) :
    Grown Le s u where
  above b a ha := by
    obtain ⟨a', ha', hle⟩ := h.above b a ha
    obtain ⟨a'', ha'', hle'⟩ := h'.above b a' ha'
    exact ⟨a'', ha'', hF.trans _ _ _ hle hle'⟩
  queued b a ha := by
    obtain hb | hb := h'.queued b a ha
    · exact (h.queued b a hb).imp_right (h'.kept b)
    · exact .inr hb
  kept b hb := h'.kept b (h.kept b hb)
  listed := h'.listed

theorem push_kept (out : α) (s : LoopState α κ) (succ : Nat) :
    ∀ b ∈ s.worklist, b ∈ (push F out s succ).worklist := by
  intro b hb
  unfold push
  dsimp only
  split
  · exact List.mem_append_left _ hb
  · exact hb

/-- The state pushed to is above what it was and what is pushed. -/
theorem push_entry (hF : Joins F Le) (out : α) (s : LoopState α κ) (succ : Nat) :
    ∃ a', (push F out s succ).entry succ = some a' ∧ Le out a' ∧
      ∀ a, s.entry succ = some a → Le a a' := by
  refine ⟨_, Function.update_self succ _ _, ?_⟩
  cases hentry : s.entry succ with
  | none => exact ⟨hF.refl out, fun a ha => by cases ha⟩
  | some existing =>
    refine ⟨hF.right existing out, fun a ha => ?_⟩
    obtain rfl := Option.some.inj ha
    exact hF.left _ _

theorem push_entry_of_ne (out : α) (s : LoopState α κ) {succ b : Nat} (hb : b ≠ succ) :
    (push F out s succ).entry b = s.entry b :=
  Function.update_of_ne hb _ _

theorem push_queued (hF : Joins F Le) (out : α) (s : LoopState α κ) (succ : Nat)
    (hlisted : ∀ b, s.inWorklist b = true → b ∈ s.worklist) {a : α}
    (ha : (push F out s succ).entry succ = some a) :
    s.entry succ = some a ∨ succ ∈ (push F out s succ).worklist := by
  cases hin : s.inWorklist succ with
  | true => exact .inr (push_kept out s succ succ (hlisted succ hin))
  | false =>
    unfold push at ha ⊢
    simp only [Function.update_self, hin, Bool.not_false, Bool.and_true] at ha ⊢
    cases hchanged : (F.joined (s.entry succ) out).2 with
    | true => exact .inr (by simp)
    | false =>
      cases hentry : s.entry succ with
      | none =>
        rw [hentry] at hchanged
        cases hchanged
      | some existing =>
        rw [hentry] at ha hchanged
        exact .inl (by rw [← ha, Flow.joined, hF.same _ _ hchanged])

theorem push_listed (out : α) (s : LoopState α κ) (succ : Nat)
    (hlisted : ∀ b, s.inWorklist b = true → b ∈ s.worklist) :
    ∀ b, (push F out s succ).inWorklist b = true → b ∈ (push F out s succ).worklist := by
  intro b hb
  by_cases hne : b = succ
  · subst hne
    cases hin : s.inWorklist b with
    | true => exact push_kept out s b b (hlisted b hin)
    | false =>
      unfold push at hb ⊢
      simp only [Function.update_self, hin, Bool.false_or] at hb ⊢
      rw [if_pos hb]
      exact List.mem_append_right _ (List.mem_singleton_self b)
  · refine push_kept out s succ b (hlisted b ?_)
    unfold push at hb
    simpa only [Function.update_of_ne hne] using hb

theorem push_grown (hF : Joins F Le) (out : α) (s : LoopState α κ) (succ : Nat)
    (hlisted : ∀ b, s.inWorklist b = true → b ∈ s.worklist) : Grown Le s (push F out s succ) where
  above b a ha := by
    by_cases hb : b = succ
    · subst hb
      obtain ⟨a', ha', _, hle⟩ := push_entry hF out s b
      exact ⟨a', ha', hle a ha⟩
    · exact ⟨a, (push_entry_of_ne out s hb).trans ha, hF.refl a⟩
  queued b a ha := by
    by_cases hb : b = succ
    · subst hb
      exact push_queued hF out s b hlisted ha
    · exact .inl ((push_entry_of_ne out s hb).symm.trans ha)
  kept := push_kept out s succ
  listed := push_listed out s succ hlisted

theorem pushes_grown (hF : Joins F Le) (out : α) (succs : List Nat) (s : LoopState α κ)
    (hlisted : ∀ b, s.inWorklist b = true → b ∈ s.worklist) :
    Grown Le s (succs.foldl (push F out) s) ∧
      ∀ succ ∈ succs, ∃ a', (succs.foldl (push F out) s).entry succ = some a' ∧ Le out a' := by
  induction succs generalizing s with
  | nil => exact ⟨Grown.refl hF hlisted, fun _ h => by cases h⟩
  | cons first succs ih =>
    have hfirst := push_grown hF out s first hlisted
    obtain ⟨hrest, hpassed⟩ := ih (push F out s first) hfirst.listed
    refine ⟨hfirst.trans hF hrest, fun succ hsucc => ?_⟩
    obtain rfl | hsucc := List.mem_cons.mp hsucc
    · obtain ⟨a, ha, hle, _⟩ := push_entry hF out s succ
      obtain ⟨a', ha', hle'⟩ := hrest.above succ a ha
      exact ⟨a', ha', hF.trans _ _ _ hle hle'⟩
    · exact hpassed succ hsucc

theorem SettledAt.of_above (hF : Joins F Le) {entry entry' : Nat → Option α} {b : Nat} {a : α} {c : κ}
    (h : SettledAt F Le ok entry b a c)
    (habove : ∀ b a, entry b = some a → ∃ a', entry' b = some a' ∧ Le a a') :
    SettledAt F Le ok entry' b a c where
  met := h.met
  passed succ hsucc := by
    obtain ⟨a', ha', hle⟩ := h.passed succ hsucc
    obtain ⟨a'', ha'', hle'⟩ := habove succ a' ha'
    exact ⟨a'', ha'', hF.trans _ _ _ hle hle'⟩

/-- What a step does: it takes a node off the worklist and passes on what its visit leaves. -/
theorem step_cases (hlisted : ∀ b, s.inWorklist b = true → b ∈ s.worklist)
    (h : step F s = some s') :
    ∃ b t, (∀ c ∈ s.worklist, c ≠ b → c ∈ t.worklist) ∧ t.entry = s.entry ∧
      (∀ c, t.inWorklist c = true → c ∈ t.worklist) ∧
      (s.entry b = none ∧ s' = t ∨
        ∃ a, s.next = some (b, a) ∧ s.entry b = some a ∧
          s' = (F.succs b).foldl (push F (F.visit s.ctx b a).2) t) := by
  unfold step at h
  split at h
  next => cases h
  next b rest hw =>
    have hmem : ∀ c ∈ s.worklist, c ≠ b → c ∈ rest := by
      intro c hc hcb
      rw [hw] at hc
      exact (List.mem_cons.mp hc).resolve_left hcb
    have hrest : ∀ c, Function.update s.inWorklist b false c = true → c ∈ rest := by
      intro c hc
      by_cases hcb : c = b
      · rw [hcb, Function.update_self] at hc
        cases hc
      · rw [Function.update_of_ne hcb] at hc
        exact hmem c (hlisted c hc) hcb
    split at h
    next hstate =>
      obtain rfl := Option.some.inj h
      exact ⟨b, ⟨s.ctx, s.entry, rest, Function.update s.inWorklist b false⟩, hmem, rfl, hrest,
        .inl ⟨hstate, rfl⟩⟩
    next a hstate =>
      obtain rfl := Option.some.inj h
      exact ⟨b, ⟨(F.visit s.ctx b a).1, s.entry, rest, Function.update s.inWorklist b false⟩, hmem,
        rfl, hrest, .inr ⟨a, by simp [LoopState.next, hw, hstate], hstate, rfl⟩⟩

theorem Settling.step (hF : Joins F Le) (h : Settling F Le ok s) (hstep : step F s = some s')
    (hok : ∀ b a, s.next = some (b, a) → ok s.ctx b a) :
    Settling F Le ok s' ∧ ∀ b a, s.entry b = some a → ∃ a', s'.entry b = some a' ∧ Le a a' := by
  obtain ⟨b, t, hmem, hentry, hlisted, hcase⟩ := step_cases h.listed hstep
  have hothers : ∀ c a, c ≠ b → s.entry c = some a →
      c ∈ t.worklist ∨ ∃ ctx, SettledAt F Le ok s.entry c a ctx := fun c a hcb ha =>
    (h.settled c a ha).imp_left fun hc => hmem c hc hcb
  obtain ⟨hstate, rfl⟩ | ⟨a, hnext, hstate, rfl⟩ := hcase
  · refine ⟨⟨hlisted, fun c a ha => ?_⟩, fun c a ha => ⟨a, by rwa [hentry], hF.refl a⟩⟩
    rw [hentry] at ha ⊢
    refine hothers c a (fun hcb => ?_) ha
    rw [hcb, hstate] at ha
    cases ha
  · obtain ⟨hgrown, hpassed⟩ := pushes_grown hF (F.visit s.ctx b a).2 (F.succs b) t hlisted
    have habove := hgrown.above
    rw [hentry] at habove
    refine ⟨⟨hgrown.listed, fun c a' ha' => ?_⟩, habove⟩
    obtain hold | hqueued := hgrown.queued c a' ha'
    · rw [hentry] at hold
      by_cases hcb : c = b
      · subst hcb
        obtain rfl := Option.some.inj (hstate.symm.trans hold)
        exact .inr ⟨s.ctx, hok c a hnext, hpassed⟩
      · obtain hrest | ⟨ctx, hsettled⟩ := hothers c a' hcb hold
        · exact .inl (hgrown.kept c hrest)
        · exact .inr ⟨ctx, hsettled.of_above hF habove⟩
    · exact .inl hqueued

/-- Once the worklist is empty, every node is settled, and the states are above those at the start. -/
theorem Reached.settled (hF : Joins F Le) (hstart : Settling F Le ok start)
    (h : Reached F ok start s) (hw : s.worklist = []) :
    (∀ b a, s.entry b = some a → ∃ c, SettledAt F Le ok s.entry b a c) ∧
      ∀ b a, start.entry b = some a → ∃ a', s.entry b = some a' ∧ Le a a' := by
  have hall : Settling F Le ok s ∧
      ∀ b a, start.entry b = some a → ∃ a', s.entry b = some a' ∧ Le a a' := by
    clear hw
    induction h with
    | start => exact ⟨hstart, fun _ a ha => ⟨a, ha, hF.refl a⟩⟩
    | step _ hstep hok ih =>
      obtain ⟨hsettling, habove⟩ := ih.1.step hF hstep hok
      refine ⟨hsettling, fun b a ha => ?_⟩
      obtain ⟨a', ha', hle⟩ := ih.2 b a ha
      obtain ⟨a'', ha'', hle'⟩ := habove b a' ha'
      exact ⟨a'', ha'', hF.trans _ _ _ hle hle'⟩
  refine ⟨fun b a ha => (hall.1.settled b a ha).resolve_left fun hb => ?_, hall.2⟩
  rw [hw] at hb
  cases hb

/-- A start with one queued node. -/
def LoopState.single (ctx : κ) (b : Nat) (a : α) : LoopState α κ :=
  ⟨ctx, Function.update (fun _ => none) b (some a), [b], Function.update (fun _ => false) b true⟩

theorem settling_single {ctx : κ} {b : Nat} {a : α} : Settling F Le ok (LoopState.single ctx b a) where
  listed c hc := by
    by_cases hcb : c = b
    · rw [hcb]
      exact List.mem_singleton_self b
    · simp [LoopState.single, Function.update_of_ne hcb] at hc
  settled c a' ha := by
    by_cases hcb : c = b
    · rw [hcb]
      exact .inl (List.mem_singleton_self b)
    · simp [LoopState.single, Function.update_of_ne hcb] at ha

end Settled

end Worklist
