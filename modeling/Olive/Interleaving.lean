import Mathlib.Logic.Basic

/-! Systems whose threads take atomic steps in any order: reachable states and their invariants. -/

namespace Interleaving

variable {σ α : Type}

/-- The states reached by steps that are all allowed by `ok`. -/
inductive Reachable (next : σ → α → Option σ) (ok : σ → α → Prop) (start : σ) : σ → Prop
  | start : Reachable next ok start start
  | step {s s' : σ} {a : α} : Reachable next ok start s → ok s a → next s a = some s' →
      Reachable next ok start s'

variable {next : σ → α → Option σ} {ok : σ → α → Prop} {start s : σ}

/-- What holds at the start and is kept by every allowed step holds in every state reached. -/
theorem Reachable.invariant {P : σ → Prop} (h : Reachable next ok start s) (hstart : P start)
    (hstep : ∀ s a s', P s → ok s a → next s a = some s' → P s') : P s := by
  induction h with
  | start => exact hstart
  | step _ hok hnext ih => exact hstep _ _ _ ih hok hnext

theorem Reachable.weaken {ok' : σ → α → Prop} (hle : ∀ s a, ok s a → ok' s a)
    (h : Reachable next ok start s) : Reachable next ok' start s := by
  induction h with
  | start => exact .start
  | step _ hok hnext ih => exact ih.step (hle _ _ hok) hnext

/-- The steps of a schedule, if all of them can be taken and `p` allows them. -/
def schedule (next : σ → α → Option σ) (p : σ → α → Bool) : σ → List α → Option σ
  | s, [] => some s
  | s, a :: as => if p s a then (next s a).bind fun s' => schedule next p s' as else none

theorem reachable_of_schedule {p : σ → α → Bool} (hp : ∀ s a, p s a = true → ok s a) {as : List α}
    (hs : Reachable next ok start s) {s' : σ} (h : schedule next p s as = some s') :
    Reachable next ok start s' := by
  induction as generalizing s with
  | nil => exact Option.some.inj h ▸ hs
  | cons a as ih =>
    unfold schedule at h
    split at h
    next hpa =>
      obtain ⟨t, ht, hrest⟩ := Option.bind_eq_some_iff.mp h
      exact ih (hs.step (hp s a hpa) ht) hrest
    next => cases h

end Interleaving
