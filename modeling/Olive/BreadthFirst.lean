import Mathlib.Data.List.Nodup
import Olive.FlowGraph

/-! The breadth-first order of a graph given by successor lists. -/

namespace FlowGraph

variable {succ : Nat → List Nat} {n : Nat}

def unvisited (n : Nat) (order : List Nat) : List Nat :=
  (List.range n).filter fun b => b ∉ order

theorem unvisited_lt {order : List Nat} {b : Nat} (hb : b ∉ order) (hn : b < n) :
    (unvisited n (order ++ [b])).length < (unvisited n order).length := by
  have hsub : unvisited n (order ++ [b]) = (unvisited n order).filter fun x => x ≠ b := by
    simp only [unvisited, List.filter_filter]
    exact List.filter_congr fun x _ => by simp [and_comm]
  rw [hsub, List.length_filter_lt_length_iff_exists]
  exact ⟨b, List.mem_filter.mpr ⟨List.mem_range.mpr hn, by simpa using hb⟩, by simp⟩

/-- The nodes below `n`, in the order in which they first come off the queue. -/
def bfs (succ : Nat → List Nat) (n : Nat) : List Nat → List Nat → List Nat
  | [], order => order
  | b :: queue, order =>
    if _h : b ∈ order ∨ n ≤ b then bfs succ n queue order
    else bfs succ n (queue ++ succ b) (order ++ [b])
termination_by queue order => ((unvisited n order).length, queue.length)
decreasing_by
  · exact Prod.Lex.right _ (by simp)
  · rw [not_or, Nat.not_le] at _h
    exact Prod.Lex.left _ _ (unvisited_lt _h.1 _h.2)

theorem bfs_nodup (queue order : List Nat) (h : order.Nodup) : (bfs succ n queue order).Nodup := by
  induction queue, order using bfs.induct succ n with
  | case1 order => rwa [bfs]
  | case2 b queue order hb ih =>
    rw [bfs, dif_pos hb]
    exact ih h
  | case3 b queue order hb ih =>
    rw [bfs, dif_neg hb]
    rw [not_or] at hb
    refine ih (List.nodup_append.mpr ⟨h, List.nodup_singleton b, ?_⟩)
    intro x hx y hy
    rw [List.mem_singleton.mp hy]
    exact fun he => hb.1 (he ▸ hx)

theorem bfs_lt {queue order : List Nat} (h : ∀ b ∈ order, b < n) {b : Nat}
    (hb : b ∈ bfs succ n queue order) : b < n := by
  induction queue, order using bfs.induct succ n with
  | case1 order =>
    rw [bfs] at hb
    exact h b hb
  | case2 c queue order hc ih =>
    rw [bfs, dif_pos hc] at hb
    exact ih h hb
  | case3 c queue order hc ih =>
    rw [bfs, dif_neg hc] at hb
    rw [not_or, Nat.not_le] at hc
    refine ih (fun x hx => ?_) hb
    obtain hx | hx := List.mem_append.mp hx
    · exact h x hx
    · rw [List.mem_singleton.mp hx]
      exact hc.2

/-- What is queued or visited at the start is visited at the end. -/
theorem mem_bfs {queue order : List Nat} {b : Nat} (h : b ∈ order ∨ b ∈ queue ∧ b < n) :
    b ∈ bfs succ n queue order := by
  induction queue, order using bfs.induct succ n with
  | case1 order =>
    rw [bfs]
    exact h.resolve_right (by simp)
  | case2 c queue order hc ih =>
    rw [bfs, dif_pos hc]
    refine ih ?_
    obtain h | ⟨h, hlt⟩ := h
    · exact .inl h
    · obtain rfl | h := List.mem_cons.mp h
      · exact .inl (hc.resolve_right (by omega))
      · exact .inr ⟨h, hlt⟩
  | case3 c queue order hc ih =>
    rw [bfs, dif_neg hc]
    refine ih ?_
    obtain h | ⟨h, hlt⟩ := h
    · exact .inl (List.mem_append_left _ h)
    · obtain rfl | h := List.mem_cons.mp h
      · exact .inl (by simp)
      · exact .inr ⟨List.mem_append_left _ h, hlt⟩

/-- The successors of what is visited are visited. -/
theorem bfs_closed {queue order : List Nat}
    (h : ∀ b ∈ order, ∀ c ∈ succ b, c < n → c ∈ order ∨ c ∈ queue) {b c : Nat}
    (hb : b ∈ bfs succ n queue order) (hc : c ∈ succ b) (hn : c < n) :
    c ∈ bfs succ n queue order := by
  induction queue, order using bfs.induct succ n with
  | case1 order =>
    rw [bfs] at hb ⊢
    exact (h b hb c hc hn).resolve_right (by simp)
  | case2 d queue order hd ih =>
    rw [bfs, dif_pos hd] at hb ⊢
    refine ih (fun x hx y hy hlt => ?_) hb
    obtain hmem | hmem := h x hx y hy hlt
    · exact .inl hmem
    · obtain rfl | hmem := List.mem_cons.mp hmem
      · exact .inl (hd.resolve_right (by omega))
      · exact .inr hmem
  | case3 d queue order hd ih =>
    rw [bfs, dif_neg hd] at hb ⊢
    refine ih (fun x hx y hy hlt => ?_) hb
    obtain hx | hx := List.mem_append.mp hx
    · obtain hmem | hmem := h x hx y hy hlt
      · exact .inl (List.mem_append_left _ hmem)
      · obtain rfl | hmem := List.mem_cons.mp hmem
        · exact .inl (by simp)
        · exact .inr (List.mem_append_left _ hmem)
    · rw [List.mem_singleton.mp hx] at hy
      exact .inr (List.mem_append_right _ hy)

end FlowGraph
