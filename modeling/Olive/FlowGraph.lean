import Mathlib.Data.List.Basic

/-! Walks of a graph given by successor lists, and its predecessor lists. -/

namespace FlowGraph

variable {succ : Nat → List Nat}

/-- A walk from node 0 to `b`, with the nodes passed before `b` in order. -/
inductive Walk (succ : Nat → List Nat) : List Nat → Nat → Prop where
  | entry : Walk succ [] 0
  | step {before : List Nat} {p b : Nat} : Walk succ before p → b ∈ succ p →
      Walk succ (before ++ [p]) b

/-- The predecessors of `b` among the first `n` nodes, once an edge. -/
def preds (succ : Nat → List Nat) (n b : Nat) : List Nat :=
  (List.range n).flatMap fun p => (succ p).filter (· == b) |>.map fun _ => p

theorem mem_preds {n b p : Nat} : p ∈ preds succ n b ↔ p < n ∧ b ∈ succ p := by
  simp only [preds, List.mem_flatMap, List.mem_range, List.mem_map, List.mem_filter, beq_iff_eq]
  constructor
  · rintro ⟨q, hq, c, ⟨hc, rfl⟩, rfl⟩
    exact ⟨hq, hc⟩
  · rintro ⟨hp, hb⟩
    exact ⟨p, hp, b, ⟨hb, rfl⟩, rfl⟩

end FlowGraph
