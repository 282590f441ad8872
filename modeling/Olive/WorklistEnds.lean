import Mathlib.Algebra.Order.BigOperators.Group.Finset
import Olive.Worklist

/-! When the loops over worklists end: what is left to rise at the nodes is bounded, and every change of
a state takes from it. -/

namespace Worklist

variable {α κ : Type} {F : Flow α κ} {ok : κ → Nat → α → Prop} {start s s' : LoopState α κ}

/-- A loop with an invariant under which it always has a next step never returns. -/
theorem run_diverges {P : LoopState α κ → Prop} (hP : ∀ s, P s → ∃ s', step F s = some s' ∧ P s')
    {s : LoopState α κ} (h0 : P s) (fuel : Nat) : run F fuel s = none := by
  induction fuel generalizing s with
  | zero => rfl
  | succ fuel ih =>
    obtain ⟨s', hstep, h⟩ := hP s h0
    rw [run, hstep]
    exact ih h

/-- What every visit keeps of the context holds throughout. -/
theorem Reached.ctx_invariant {P : κ → Prop} (hP : ∀ c b a, P c → P (F.visit c b a).1)
    (h : Reached F ok start s) (h0 : P start.ctx) : P s.ctx := by
  induction h with
  | start => exact h0
  | step _ hstep _ ih =>
    rcases step_ctx hstep with ⟨b, a, -, hctx⟩ | ⟨-, hctx⟩
    · rw [hctx]
      exact hP _ b a ih
    · rw [hctx]
      exact ih

theorem single_entry {ctx : κ} {b c : Nat} {a a' : α}
    (h : (LoopState.single ctx b a).entry c = some a') : c = b ∧ a = a' := by
  change Function.update (fun _ => none) b (some a) c = some a' at h
  by_cases hcb : c = b
  · rw [hcb, Function.update_self] at h
    exact ⟨hcb, Option.some.inj h⟩
  · rw [Function.update_of_ne hcb] at h
    exact absurd h (fun h => nomatch h)

theorem next_entry {b : Nat} {a : α} (h : s.next = some (b, a)) : s.entry b = some a := by
  obtain ⟨c, -, hentry⟩ := Option.bind_eq_some_iff.mp h
  obtain ⟨a', ha', heq⟩ := Option.map_eq_some_iff.mp hentry
  obtain ⟨rfl, rfl⟩ := Prod.mk.inj heq
  exact ha'

/-- All entry states meet `Good`. -/
def AllGood (Good : α → Prop) (s : LoopState α κ) : Prop :=
  ∀ b a, s.entry b = some a → Good a

/-- How much the states of the nodes can still rise, where a node without a state counts for more than
any that has one. -/
def remaining (nodes : Finset Nat) (rest : α → Nat) (most : Nat) (s : LoopState α κ) : Nat :=
  ∑ b ∈ nodes, match s.entry b with
    | some a => rest a
    | none => most + 1

/-- The steps that are left at most. -/
def stepsLeft (nodes : Finset Nat) (rest : α → Nat) (most : Nat) (s : LoopState α κ) : Nat :=
  2 * remaining nodes rest most s + s.worklist.length

/-- Joins of good states are good, and a state that changes has less left to rise. -/
structure Rises (F : Flow α κ) (Good : α → Prop) (rest : α → Nat) (most : Nat) : Prop where
  good : ∀ a b, Good a → Good b → Good (F.join a b).1
  bound : ∀ a, Good a → rest a ≤ most
  falls : ∀ a b, Good a → Good b → (F.join a b).2 = true → rest (F.join a b).1 < rest a
  same : ∀ a b, (F.join a b).2 = false → (F.join a b).1 = a

section Push

variable {Good : α → Prop} {rest : α → Nat} {most : Nat} {nodes : Finset Nat} {out : α} {b : Nat}

theorem Rises.joined (hr : Rises F Good rest most) (hs : AllGood Good s) (hout : Good out) (b : Nat) :
    Good (F.joined (s.entry b) out).1 ∧
      ((F.joined (s.entry b) out).2 = true → rest (F.joined (s.entry b) out).1 <
        (match s.entry b with
          | some a => rest a
          | none => most + 1)) ∧
      ((F.joined (s.entry b) out).2 = false →
        some (F.joined (s.entry b) out).1 = s.entry b) := by
  cases hentry : s.entry b with
  | none => exact ⟨hout, fun _ => Nat.lt_succ_of_le (hr.bound out hout), fun h => nomatch h⟩
  | some a =>
    have ha := hs b a hentry
    exact ⟨hr.good a out ha hout, hr.falls a out ha hout, fun h => congrArg some (hr.same a out h)⟩

theorem push_entry_self : (push F out s b).entry b = some (F.joined (s.entry b) out).1 :=
  Function.update_self b _ _

theorem Rises.push_good (hr : Rises F Good rest most) (hs : AllGood Good s) (hout : Good out)
    (b : Nat) : AllGood Good (push F out s b) := by
  intro c a hc
  by_cases hcb : c = b
  · subst hcb
    rw [push_entry_self] at hc
    rw [← Option.some.inj hc]
    exact (hr.joined hs hout c).1
  · rw [push_entry_of_ne out s hcb] at hc
    exact hs c a hc

theorem Rises.push_left (hr : Rises F Good rest most) (hs : AllGood Good s) (hout : Good out)
    (hb : b ∈ nodes) :
    stepsLeft nodes rest most (push F out s b) ≤ stepsLeft nodes rest most s := by
  obtain ⟨-, hfalls, hsame⟩ := hr.joined hs hout b
  have hlen : (push F out s b).worklist.length ≤
      s.worklist.length + if (F.joined (s.entry b) out).2 then 1 else 0 := by
    unfold push
    dsimp only
    split
    · next hqueues =>
      rw [Bool.and_eq_true] at hqueues
      rw [if_pos hqueues.1, List.length_append]
      exact Nat.le_refl _
    · exact Nat.le_add_right _ _
  cases hchanged : (F.joined (s.entry b) out).2 with
  | false =>
    have hentry : (push F out s b).entry = s.entry := by
      funext c
      by_cases hcb : c = b
      · rw [hcb, push_entry_self, hsame hchanged]
      · exact push_entry_of_ne out s hcb
    rw [hchanged, if_neg Bool.false_ne_true] at hlen
    simp only [stepsLeft, remaining, hentry]
    omega
  | true =>
    have hless : remaining nodes rest most (push F out s b) < remaining nodes rest most s := by
      refine Finset.sum_lt_sum ?_ ⟨b, hb, ?_⟩
      · intro c _
        by_cases hcb : c = b
        · rw [hcb, push_entry_self]
          exact Nat.le_of_lt (hfalls hchanged)
        · rw [push_entry_of_ne out s hcb]
      · rw [push_entry_self]
        exact hfalls hchanged
    rw [hchanged, if_pos rfl] at hlen
    simp only [stepsLeft]
    omega

theorem Rises.pushes (hr : Rises F Good rest most) (hout : Good out) {succs : List Nat}
    (hsuccs : ∀ b ∈ succs, b ∈ nodes) {s : LoopState α κ} (hs : AllGood Good s) :
    AllGood Good (succs.foldl (push F out) s) ∧
      stepsLeft nodes rest most (succs.foldl (push F out) s) ≤ stepsLeft nodes rest most s := by
  induction succs generalizing s with
  | nil => exact ⟨hs, Nat.le_refl _⟩
  | cons b succs ih =>
    obtain ⟨hgood, hleft⟩ := ih (fun c hc => hsuccs c (List.mem_cons_of_mem _ hc))
      (hr.push_good hs hout b)
    exact ⟨hgood, hleft.trans (hr.push_left hs hout (hsuccs b List.mem_cons_self))⟩

end Push

section Ends

variable {Good : α → Prop} {rest : α → Nat} {most : Nat} {nodes : Finset Nat}

theorem Rises.step (hr : Rises F Good rest most) (hsuccs : ∀ b, ∀ c ∈ F.succs b, c ∈ nodes)
    (hs : AllGood Good s) (hvisit : ∀ b a, s.next = some (b, a) → Good (F.visit s.ctx b a).2)
    (hstep : step F s = some s') :
    AllGood Good s' ∧ stepsLeft nodes rest most s' < stepsLeft nodes rest most s := by
  unfold Worklist.step at hstep
  split at hstep
  next => cases hstep
  next b others hw =>
    have hlen : s.worklist.length = others.length + 1 := by rw [hw, List.length_cons]
    split at hstep
    next hstate =>
      obtain rfl := Option.some.inj hstep
      refine ⟨hs, ?_⟩
      simp only [stepsLeft, remaining]
      omega
    next a hstate =>
      obtain rfl := Option.some.inj hstep
      have hnext : s.next = some (b, a) := by simp [LoopState.next, hw, hstate]
      have hbefore : AllGood Good (⟨(F.visit s.ctx b a).1, s.entry, others,
          Function.update s.inWorklist b false⟩ : LoopState α κ) := hs
      obtain ⟨hgood, hleft⟩ := hr.pushes (hvisit b a hnext) (hsuccs b) hbefore
      refine ⟨hgood, Nat.lt_of_le_of_lt hleft ?_⟩
      simp only [stepsLeft, remaining]
      omega

/-- A loop whose visits leave good states returns. -/
theorem Rises.run_ends (hr : Rises F Good rest most) (hsuccs : ∀ b, ∀ c ∈ F.succs b, c ∈ nodes)
    (h0 : AllGood Good start)
    (hvisit : ∀ s, Reached F (fun _ _ _ => True) start s → AllGood Good s → ∀ b a,
      s.next = some (b, a) → Good (F.visit s.ctx b a).2) :
    (∃ fuel r, run F fuel start = some r) ∧
      ∀ s, Reached F (fun _ _ _ => True) start s → AllGood Good s := by
  have hall : ∀ s, Reached F (fun _ _ _ => True) start s → AllGood Good s := by
    intro s hs
    induction hs with
    | start => exact h0
    | step hreached hstep _ ih => exact (hr.step hsuccs ih (hvisit _ hreached ih) hstep).1
  have hruns : ∀ n s, Reached F (fun _ _ _ => True) start s → stepsLeft nodes rest most s = n →
      ∃ fuel r, run F fuel s = some r := by
    intro n
    induction n using Nat.strong_induction_on with
    | _ n ih =>
      intro s hs hn
      cases hstep : Worklist.step F s with
      | none => exact ⟨1, s, by rw [run, hstep]⟩
      | some s' =>
        have hlt := (hr.step hsuccs (hall s hs) (hvisit s hs (hall s hs)) hstep).2
        obtain ⟨fuel, r, hrun⟩ := ih _ (hn ▸ hlt) s' (hs.step hstep fun _ _ _ => trivial) rfl
        exact ⟨fuel + 1, r, by rw [run, hstep]; exact hrun⟩
  exact ⟨hruns _ start .start rfl, hall⟩

end Ends

end Worklist
