import Olive.BreadthFirst

/-! A walk with a stack that goes no further at some nodes, and fails at the first other node that a
test rejects. -/

namespace FlowGraph

def walkClear (succ : Nat → List Nat) (n : Nat) (stop ok : Nat → Bool) : List Nat → List Nat → Bool
  | [], _ => true
  | b :: stack, seen =>
    if _h : stop b = true ∨ b ∈ seen ∨ n ≤ b then walkClear succ n stop ok stack seen
    else if ok b then walkClear succ n stop ok ((succ b).reverse ++ stack) (seen ++ [b])
    else false
termination_by stack seen => ((unvisited n seen).length, stack.length)
decreasing_by
  · exact Prod.Lex.right _ (by simp)
  · simp only [not_or, Nat.not_le] at _h
    exact Prod.Lex.left _ _ (unvisited_lt _h.2.1 _h.2.2)

variable {succ : Nat → List Nat} {n : Nat} {stop ok : Nat → Bool}

/-- The walk goes no further at the node, or the node is in `R`. -/
def Covered (n : Nat) (stop : Nat → Bool) (R : List Nat) (b : Nat) : Prop :=
  stop b = true ∨ n ≤ b ∨ b ∈ R

theorem Covered.mono {R R' : List Nat} {b : Nat} (h : Covered n stop R b) (hle : ∀ x ∈ R, x ∈ R') :
    Covered n stop R' b := h.imp_right fun h => h.imp_right (hle b)

/-- A walk that fails nowhere has gone through a set of nodes that pass the test, and that no edge
leaves but to where the walk goes no further. -/
theorem walkClear_covers {stack seen : List Nat}
    (hseen : ∀ b ∈ seen, ok b = true ∧ ∀ c ∈ succ b, Covered n stop (seen ++ stack) c)
    (h : walkClear succ n stop ok stack seen = true) :
    ∃ R : List Nat, (∀ c ∈ stack, Covered n stop R c) ∧ (∀ b ∈ seen, b ∈ R) ∧
      ∀ b ∈ R, ok b = true ∧ ∀ c ∈ succ b, Covered n stop R c := by
  induction stack, seen using walkClear.induct succ n stop ok with
  | case1 seen =>
    refine ⟨seen, fun c hc => absurd hc List.not_mem_nil, fun b hb => hb, fun b hb => ?_⟩
    simpa using hseen b hb
  | case2 b stack seen hb ih =>
    rw [walkClear, dif_pos hb] at h
    have hskip : ∀ c, Covered n stop (seen ++ b :: stack) c → Covered n stop (seen ++ stack) c := by
      intro c hc
      rcases hc with hc | hc | hc
      · exact .inl hc
      · exact .inr (.inl hc)
      · rcases List.mem_append.mp hc with hc | hc
        · exact .inr (.inr (List.mem_append_left _ hc))
        · rcases List.mem_cons.mp hc with rfl | hc
          · exact hb.imp_right fun hb => hb.symm.imp_right fun hb => List.mem_append_left _ hb
          · exact .inr (.inr (List.mem_append_right _ hc))
    obtain ⟨R, hstack, hsub, hclosed⟩ :=
      ih (fun x hx => ⟨(hseen x hx).1, fun c hc => hskip c ((hseen x hx).2 c hc)⟩) h
    refine ⟨R, fun c hc => ?_, hsub, hclosed⟩
    rcases List.mem_cons.mp hc with rfl | hc
    · exact hb.imp_right fun hb => hb.symm.imp_right (hsub c)
    · exact hstack c hc
  | case3 b stack seen hb hok ih =>
    rw [walkClear, dif_neg hb, if_pos hok] at h
    have hnext : ∀ x ∈ seen ++ [b], ok x = true ∧
        ∀ c ∈ succ x, Covered n stop (seen ++ [b] ++ ((succ b).reverse ++ stack)) c := by
      intro x hx
      rcases List.mem_append.mp hx with hx | hx
      · refine ⟨(hseen x hx).1, fun c hc => ((hseen x hx).2 c hc).mono fun y hy => ?_⟩
        simp only [List.mem_append, List.mem_cons, List.not_mem_nil, or_false] at hy ⊢
        tauto
      · rw [List.mem_singleton.mp hx]
        exact ⟨hok, fun c hc => .inr (.inr (by simp [hc]))⟩
    obtain ⟨R, hstack, hsub, hclosed⟩ := ih hnext h
    refine ⟨R, fun c hc => ?_, fun x hx => hsub x (List.mem_append_left _ hx), hclosed⟩
    rcases List.mem_cons.mp hc with rfl | hc
    · exact .inr (.inr (hsub c (List.mem_append_right _ List.mem_cons_self)))
    · exact hstack c (List.mem_append_right _ hc)
  | case4 b stack seen hb hok =>
    rw [walkClear, dif_neg hb, if_neg hok] at h
    cases h

end FlowGraph
