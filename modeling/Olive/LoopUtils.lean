import Mathlib.Data.List.Sort
import Olive.Cfg
import Olive.UntilStable

namespace Olive

open UntilStable

/-- A natural loop; the body is in the order its blocks are found. -/
structure Loop where
  header : BasicBlockId
  body : List BasicBlockId
  latches : List BasicBlockId
  exits : List BasicBlockId
  deriving DecidableEq, Repr

/-- Successors in ascending order, each once. -/
def cfgSuccs (f : MirFunction) (bb : BasicBlockId) : List BasicBlockId :=
  ((f.successors bb).insertionSort (· ≤ ·)).dedup

def cfgPreds (f : MirFunction) (bb : BasicBlockId) : List BasicBlockId :=
  (List.range f.basicBlocks.length).filter fun p => decide (bb ∈ cfgSuccs f p)

section Dominance

variable (f : MirFunction)

/-- Depth-first postorder with an explicit stack of blocks and next children. -/
def postorder : Nat → List (BasicBlockId × Nat) → List BasicBlockId → List BasicBlockId →
    List BasicBlockId
  | 0, _, _, order => order
  | _ + 1, [], _, order => order
  | fuel + 1, (node, child) :: stack, visited, order =>
    match (cfgSuccs f node)[child]? with
    | some next =>
      if next < f.basicBlocks.length ∧ next ∉ visited then
        postorder fuel ((next, 0) :: (node, child + 1) :: stack) (next :: visited) order
      else postorder fuel ((node, child + 1) :: stack) visited order
    | none => postorder fuel stack visited (order ++ [node])

/-- Each turn takes an edge or ends a block. -/
def postorderBudget : Nat :=
  (List.range f.basicBlocks.length).foldl (fun n bb => n + (cfgSuccs f bb).length + 1) 1

def reversePostorder : List BasicBlockId :=
  (postorder f (postorderBudget f) [(0, 0)] [0] []).reverse

/-- The nearest common dominator, walking up the block that comes later in `rpo`. -/
def intersect (rpo : List BasicBlockId) (idom : List (Option BasicBlockId)) :
    Nat → BasicBlockId → BasicBlockId → BasicBlockId
  | 0, a, _ => a
  | fuel + 1, a, b =>
    if a = b then a
    else if rpo.idxOf a > rpo.idxOf b then intersect rpo idom fuel ((idom.getD a none).getD 0) b
    else intersect rpo idom fuel a ((idom.getD b none).getD 0)

def idomStep (rpo : List BasicBlockId) (idom : List (Option BasicBlockId)) (b : BasicBlockId) :
    List (Option BasicBlockId) × Bool :=
  match (cfgPreds f b).filter fun p => (idom.getD p none).isSome with
  | [] => (idom, false)
  | first :: rest =>
    let new := rest.foldl (fun new p => intersect rpo idom (2 * f.basicBlocks.length) new p) first
    if idom.getD b none = some new then (idom, false) else (idom.set b (some new), true)

def immediateDominators : List (Option BasicBlockId) :=
  let n := f.basicBlocks.length
  let rpo := reversePostorder f
  let start := (List.replicate n none).set 0 (some 0)
  (untilStable (sweep (idomStep f rpo) rpo.tail) (n * n + 1) start).getD start

/-- A block and its dominators, walking up from it. -/
def dominatorsOf (idom : List (Option BasicBlockId)) : Nat → BasicBlockId → List BasicBlockId
  | 0, b => [b]
  | fuel + 1, b =>
    match idom.getD b none with
    | some d => if d ≠ b then b :: dominatorsOf idom fuel d else [b]
    | none => [b]

end Dominance

/-- Everything that reaches a block on the stack without passing through the header `d`. -/
def growBody (f : MirFunction) (d : BasicBlockId) :
    Nat → List BasicBlockId → List BasicBlockId → List BasicBlockId
  | 0, _, body => body
  | _ + 1, [], body => body
  | fuel + 1, m :: stack, body =>
    let new := (cfgPreds f m).filter fun p => decide (p ≠ d ∧ p ∉ body)
    growBody f d fuel (new.reverse ++ stack) (body ++ new)

/-- The loop of the back edge from `n` to `d`. -/
def naturalLoop (f : MirFunction) (n d : BasicBlockId) : Loop :=
  let body := growBody f d (f.basicBlocks.length + 1) [n] [d, n].dedup
  ⟨d, body, [n], body.flatMap fun b => (cfgSuccs f b).filter fun s => decide (s ∉ body)⟩

def findLoops (f : MirFunction) : List Loop :=
  let n := f.basicBlocks.length
  let idom := immediateDominators f
  (List.range n).flatMap fun b =>
    ((cfgSuccs f b).filter fun d => decide (d < n ∧ d ∈ dominatorsOf idom n b)).map
      (naturalLoop f b)

theorem mem_cfgSuccs {f : MirFunction} {p bb : BasicBlockId} :
    bb ∈ cfgSuccs f p ↔ bb ∈ f.successors p := by
  rw [cfgSuccs, List.mem_dedup, List.mem_insertionSort]

theorem mem_cfgPreds {f : MirFunction} {p bb : BasicBlockId} :
    p ∈ cfgPreds f bb ↔ bb ∈ f.successors p := by
  rw [cfgPreds, List.mem_filter, List.mem_range, decide_eq_true_eq, mem_cfgSuccs]
  exact ⟨And.right, fun h => ⟨MirFunction.lt_of_successors h, h⟩⟩

section Body

variable {f : MirFunction} {d : BasicBlockId}

theorem subset_growBody (fuel : Nat) (stack body : List BasicBlockId) :
    body ⊆ growBody f d fuel stack body := by
  induction fuel generalizing stack body with
  | zero => exact List.Subset.refl _
  | succ fuel ih =>
    cases stack with
    | nil => exact List.Subset.refl _
    | cons m stack => exact List.Subset.trans (List.subset_append_left _ _) (ih _ _)

/-- The blocks not in `body` yet, and those still on the stack, bound the turns left. -/
theorem growBody_closed (fuel : Nat) {stack body : List BasicBlockId}
    (hfuel : ((List.range f.basicBlocks.length).filter (· ∉ body)).length + stack.length ≤ fuel)
    (hd : d ∈ body)
    (hdone : ∀ m ∈ body, m ≠ d → m ∉ stack → ∀ p ∈ cfgPreds f m, p ∈ body) :
    ∀ m ∈ growBody f d fuel stack body, m ≠ d → ∀ p ∈ cfgPreds f m,
      p ∈ growBody f d fuel stack body := by
  induction fuel generalizing stack body with
  | zero =>
    have hstack : stack = [] := List.length_eq_zero_iff.mp (by omega)
    intro m hm hne
    exact hdone m hm hne (by simp [hstack])
  | succ fuel ih =>
    cases stack with
    | nil =>
      intro m hm hne
      exact hdone m hm hne (by simp)
    | cons m stack =>
      obtain ⟨new, hdef⟩ : ∃ new, new = (cfgPreds f m).filter fun p => decide (p ≠ d ∧ p ∉ body) :=
        ⟨_, rfl⟩
      have hnew : ∀ p, p ∈ new ↔ p ∈ cfgPreds f m ∧ p ≠ d ∧ p ∉ body := by
        intro p
        simp only [hdef, List.mem_filter, decide_eq_true_eq]
      have hnodup : new.Nodup := hdef ▸ (List.nodup_range.filter _).filter _
      simp only [growBody, ← hdef]
      have hcount : ((List.range f.basicBlocks.length).filter (· ∉ body ++ new)).length +
          new.length ≤ ((List.range f.basicBlocks.length).filter (· ∉ body)).length := by
        have hsub : (List.range f.basicBlocks.length).filter (· ∉ body ++ new) ++ new ⊆
            (List.range f.basicBlocks.length).filter (· ∉ body) := by
          intro p hp
          rcases List.mem_append.mp hp with hp | hp
          · simp only [List.mem_filter, decide_eq_true_eq, List.mem_append, not_or] at hp ⊢
            exact ⟨hp.1, hp.2.1⟩
          · obtain ⟨hpred, _, hbody⟩ := (hnew p).mp hp
            simp only [List.mem_filter, decide_eq_true_eq]
            exact ⟨(List.mem_filter.mp hpred).1, hbody⟩
        have hdisjoint : ((List.range f.basicBlocks.length).filter (· ∉ body ++ new) ++ new).Nodup := by
          refine (List.nodup_range.filter _).append hnodup ?_
          intro p hp hq
          simp only [List.mem_filter, decide_eq_true_eq, List.mem_append, not_or] at hp
          exact hp.2.2 hq
        have hlen := (List.subperm_of_subset hdisjoint hsub).length_le
        rwa [List.length_append] at hlen
      refine ih ?_ (List.mem_append_left _ hd) ?_
      · simp only [List.length_append, List.length_reverse, List.length_cons] at hfuel ⊢
        omega
      · intro b hb hne hstack p hp
        rw [List.mem_append, List.mem_reverse, not_or] at hstack
        have hbody : b ∈ body := (List.mem_append.mp hb).resolve_right hstack.1
        by_cases hbm : b = m
        · subst hbm
          by_cases hin : p ∈ body
          · exact List.mem_append_left _ hin
          · by_cases hpd : p = d
            · exact List.mem_append_left _ (hpd ▸ hd)
            · exact List.mem_append_right _ ((hnew p).mpr ⟨hp, hpd, hin⟩)
        · refine List.mem_append_left _ (hdone b hbody hne ?_ p hp)
          simp [hbm, hstack.2]

/-- Only the header of a natural loop can be entered from outside. -/
theorem naturalLoop_closed (n : BasicBlockId) {m p : BasicBlockId}
    (hm : m ∈ (naturalLoop f n d).body) (hne : m ≠ d) (hp : m ∈ f.successors p) :
    p ∈ (naturalLoop f n d).body := by
  refine growBody_closed _ ?_ (by simp) ?_ m hm hne p (mem_cfgPreds.mpr hp)
  · have hle := List.length_filter_le (fun b => decide (b ∉ [d, n].dedup))
      (List.range f.basicBlocks.length)
    rw [List.length_range] at hle
    simp only [List.length_singleton]
    omega
  · intro b hb hbd hstack
    simp [hbd] at hb
    simp [hb] at hstack

end Body

end Olive
