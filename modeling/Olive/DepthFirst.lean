import Mathlib.Algebra.BigOperators.Group.Finset.Basic
import Mathlib.Algebra.GroupWithZero.Nat
import Olive.DominatorTree

/-! The depth-first postorder of a graph given by successor lists, by a stack of nodes and next
children. -/

namespace FlowGraph

open DominatorTree

/-- The nodes below `n`, with the edges between them. -/
def inside (succ : Nat → List Nat) (n b : Nat) : List Nat :=
  (succ b).filter fun c => decide (c < n)

theorem mem_inside {succ : Nat → List Nat} {n b c : Nat} :
    c ∈ inside succ n b ↔ c ∈ succ b ∧ c < n := by
  rw [inside, List.mem_filter, decide_eq_true_eq]

def postorder? (succ : Nat → List Nat) (n : Nat) :
    Nat → List (Nat × Nat) → List Nat → List Nat → Option (List Nat)
  | 0, _, _, _ => none
  | _ + 1, [], _, order => some order
  | fuel + 1, (node, child) :: stack, visited, order =>
    match (succ node)[child]? with
    | some next =>
      if next < n ∧ next ∉ visited then
        postorder? succ n fuel ((next, 0) :: (node, child + 1) :: stack) (next :: visited) order
      else postorder? succ n fuel ((node, child + 1) :: stack) visited order
    | none => postorder? succ n fuel stack visited (order ++ [node])

variable {succ : Nat → List Nat} {n : Nat}

section Turns

/-- The edges and blocks that are still to be taken. -/
def turns (succ : Nat → List Nat) (n : Nat) (stack : List (Nat × Nat)) (visited : List Nat) : Nat :=
  ∑ b ∈ (Finset.range n).filter (· ∉ visited), ((succ b).length + 1) +
    (stack.map fun s => (succ s.1).length + 1 - s.2).sum

theorem turns_push {stack : List (Nat × Nat)} {visited : List Nat} {next : Nat} (hn : next < n)
    (h : next ∉ visited) :
    turns succ n ((next, 0) :: stack) (next :: visited) = turns succ n stack visited := by
  have hmem : next ∈ (Finset.range n).filter (· ∉ visited) :=
    Finset.mem_filter.mpr ⟨Finset.mem_range.mpr hn, h⟩
  have herase : (Finset.range n).filter (· ∉ next :: visited) =
      ((Finset.range n).filter (· ∉ visited)).erase next := by
    ext b
    simp only [Finset.mem_filter, List.mem_cons, not_or, Finset.mem_erase]
    exact ⟨fun ⟨hb, hne, hv⟩ => ⟨hne, hb, hv⟩, fun ⟨hne, hb, hv⟩ => ⟨hb, hne, hv⟩⟩
  have hsum := Finset.add_sum_erase _ (fun b => (succ b).length + 1) hmem
  simp only [turns, herase, List.map_cons, List.sum_cons] at hsum ⊢
  omega

theorem turns_child {stack : List (Nat × Nat)} {visited : List Nat} {node child next : Nat}
    (h : (succ node)[child]? = some next) :
    turns succ n ((node, child + 1) :: stack) visited + 1 =
      turns succ n ((node, child) :: stack) visited := by
  obtain ⟨hlt, -⟩ := List.getElem?_eq_some_iff.mp h
  simp only [turns, List.map_cons, List.sum_cons]
  omega

theorem turns_pop {stack : List (Nat × Nat)} {visited : List Nat} {node child : Nat}
    (hle : child ≤ (succ node).length) :
    turns succ n stack visited < turns succ n ((node, child) :: stack) visited := by
  simp only [turns, List.map_cons, List.sum_cons]
  omega

end Turns

/-- Every node of the stack but node 0 is a successor of one below it. -/
def Linked (succ : Nat → List Nat) : List (Nat × Nat) → Prop
  | [] => True
  | s :: stack => (s.1 = 0 ∨ ∃ p ∈ stack.map Prod.fst, s.1 ∈ succ p) ∧ Linked succ stack

/-- What holds between the turns of the search. -/
structure Search (succ : Nat → List Nat) (n : Nat) (stack : List (Nat × Nat))
    (visited order : List Nat) : Prop where
  zero : 0 ∈ visited
  visited_iff : ∀ x, x ∈ visited ↔ x ∈ order ∨ x ∈ stack.map Prod.fst
  nodup : (order ++ stack.map Prod.fst).Nodup
  lt : ∀ x ∈ visited, x < n
  reachable : ∀ x ∈ visited, Reachable (inside succ n) x
  child_le : ∀ s ∈ stack, s.2 ≤ (succ s.1).length
  tried : ∀ s ∈ stack, ∀ y ∈ (succ s.1).take s.2, y < n → y ∈ visited
  done : ∀ x ∈ order, ∀ y ∈ succ x, y < n → y ∈ visited
  parent : ∀ x ∈ order, x ≠ 0 → ∃ p, x ∈ succ p ∧ (p ∈ stack.map Prod.fst ∨ [x, p].Sublist order)
  linked : Linked succ stack

section Step

variable {stack : List (Nat × Nat)} {visited order : List Nat} {node child next : Nat}

theorem Search.start (hn : 0 < n) : Search succ n [(0, 0)] [0] [] where
  zero := List.mem_cons_self
  visited_iff x := by simp
  nodup := by simp
  lt x hx := by
    rw [List.mem_singleton.mp hx]
    exact hn
  reachable x hx := by
    rw [List.mem_singleton.mp hx]
    exact reachable_zero
  child_le s hs := by
    rw [List.mem_singleton.mp hs]
    exact Nat.zero_le _
  tried s hs y hy := by
    rw [List.mem_singleton.mp hs] at hy
    simp at hy
  done x hx := by simp at hx
  parent x hx := by simp at hx
  linked := ⟨.inl rfl, trivial⟩

theorem mem_take_succ {xs : List Nat} {y : Nat} (h : xs[child]? = some next) :
    y ∈ xs.take (child + 1) ↔ y ∈ xs.take child ∨ y = next := by
  rw [List.take_add_one, h, List.mem_append]
  simp

/-- The next child has been visited before, or is outside. -/
theorem Search.skip (hs : Search succ n ((node, child) :: stack) visited order)
    (h : (succ node)[child]? = some next) (hnext : next < n → next ∈ visited) :
    Search succ n ((node, child + 1) :: stack) visited order where
  zero := hs.zero
  visited_iff := hs.visited_iff
  nodup := hs.nodup
  lt := hs.lt
  reachable := hs.reachable
  child_le s hmem := by
    rcases List.mem_cons.mp hmem with rfl | hmem
    · exact (List.getElem?_eq_some_iff.mp h).1
    · exact hs.child_le s (List.mem_cons_of_mem _ hmem)
  tried s hmem y hy hlt := by
    rcases List.mem_cons.mp hmem with rfl | hmem
    · rcases (mem_take_succ h).mp hy with hy | rfl
      · exact hs.tried _ List.mem_cons_self y hy hlt
      · exact hnext hlt
    · exact hs.tried s (List.mem_cons_of_mem _ hmem) y hy hlt
  done := hs.done
  parent := hs.parent
  linked := hs.linked

theorem Search.push (hs : Search succ n ((node, child) :: stack) visited order)
    (h : (succ node)[child]? = some next) (hlt : next < n) (hnew : next ∉ visited) :
    Search succ n ((next, 0) :: (node, child + 1) :: stack) (next :: visited) order where
  zero := List.mem_cons_of_mem _ hs.zero
  visited_iff x := by
    have hx := hs.visited_iff x
    simp only [List.map_cons, List.mem_cons] at hx ⊢
    rw [hx]
    exact ⟨fun h => by tauto, fun h => by tauto⟩
  nodup := by
    have hnodup := hs.nodup
    have hout : next ∉ order ++ (node :: stack.map Prod.fst) := fun hmem =>
      hnew ((hs.visited_iff next).mpr (List.mem_append.mp hmem))
    simp only [List.map_cons] at hnodup ⊢
    exact List.nodup_middle.mpr (List.nodup_cons.mpr ⟨hout, hnodup⟩)
  lt x hx := by
    rcases List.mem_cons.mp hx with rfl | hx
    · exact hlt
    · exact hs.lt x hx
  reachable x hx := by
    rcases List.mem_cons.mp hx with rfl | hx
    · have hnode : node ∈ visited := (hs.visited_iff node).mpr (.inr List.mem_cons_self)
      exact (hs.reachable node hnode).step (mem_inside.mpr ⟨List.mem_of_getElem? h, hlt⟩)
    · exact hs.reachable x hx
  child_le s hmem := by
    rcases List.mem_cons.mp hmem with rfl | hmem
    · exact Nat.zero_le _
    · rcases List.mem_cons.mp hmem with rfl | hmem
      · exact (List.getElem?_eq_some_iff.mp h).1
      · exact hs.child_le s (List.mem_cons_of_mem _ hmem)
  tried s hmem y hy hy' := by
    rcases List.mem_cons.mp hmem with rfl | hmem
    · simp at hy
    · rcases List.mem_cons.mp hmem with rfl | hmem
      · rcases (mem_take_succ h).mp hy with hy | rfl
        · exact List.mem_cons_of_mem _ (hs.tried _ List.mem_cons_self y hy hy')
        · exact List.mem_cons_self
      · exact List.mem_cons_of_mem _ (hs.tried s (List.mem_cons_of_mem _ hmem) y hy hy')
  done x hx y hy hy' := List.mem_cons_of_mem _ (hs.done x hx y hy hy')
  parent x hx hzero := by
    obtain ⟨p, hp, hwhere⟩ := hs.parent x hx hzero
    exact ⟨p, hp, hwhere.imp_left (List.mem_cons_of_mem _)⟩
  linked := ⟨.inr ⟨node, List.mem_cons_self, List.mem_of_getElem? h⟩, hs.linked⟩

/-- A node ends after its last child; its parent is still on the stack. -/
theorem Search.pop (hs : Search succ n ((node, child) :: stack) visited order)
    (h : (succ node)[child]? = none) : Search succ n stack visited (order ++ [node]) where
  zero := hs.zero
  visited_iff x := by
    rw [hs.visited_iff x, List.mem_append, List.map_cons, List.mem_cons, List.mem_singleton,
      or_assoc]
  nodup := by
    have hnodup := hs.nodup
    rwa [List.map_cons, List.append_cons] at hnodup
  lt := hs.lt
  reachable := hs.reachable
  child_le s hmem := hs.child_le s (List.mem_cons_of_mem _ hmem)
  tried s hmem := hs.tried s (List.mem_cons_of_mem _ hmem)
  done x hx y hy hlt := by
    rcases List.mem_append.mp hx with hx | hx
    · exact hs.done x hx y hy hlt
    · obtain rfl := List.mem_singleton.mp hx
      refine hs.tried _ List.mem_cons_self y ?_ hlt
      rwa [List.take_of_length_le (List.getElem?_eq_none_iff.mp h)]
  parent x hx hzero := by
    rcases List.mem_append.mp hx with hx | hx
    · obtain ⟨p, hp, hwhere⟩ := hs.parent x hx hzero
      refine ⟨p, hp, ?_⟩
      rcases hwhere with hstack | hsub
      · rcases List.mem_cons.mp hstack with heq | hstack
        · right
          rw [show p = node from heq]
          exact (List.singleton_sublist.mpr hx).append (List.Sublist.refl [node])
        · exact .inl hstack
      · exact .inr (hsub.trans (List.sublist_append_left order [node]))
    · obtain rfl := List.mem_singleton.mp hx
      obtain ⟨p, hp, hsucc⟩ := hs.linked.1.resolve_left hzero
      exact ⟨p, hsucc, .inl hp⟩
  linked := hs.linked.2

end Step

/-- The nodes that are reachable from node 0, every other one before one of its predecessors. -/
structure Postorder (succ : Nat → List Nat) (n : Nat) (order : List Nat) : Prop where
  nodup : order.Nodup
  lt : ∀ x ∈ order, x < n
  mem_iff : ∀ x, x ∈ order ↔ Reachable (inside succ n) x
  parent : ∀ x ∈ order, x ≠ 0 → ∃ p, x ∈ succ p ∧ [x, p].Sublist order

theorem Search.finish {visited order : List Nat} (hs : Search succ n [] visited order) :
    Postorder succ n order where
  nodup := by simpa using hs.nodup
  lt x hx := hs.lt x ((hs.visited_iff x).mpr (.inl hx))
  mem_iff x := by
    have hall : ∀ y, y ∈ visited ↔ y ∈ order := fun y => by simpa using hs.visited_iff y
    constructor
    · exact fun hx => hs.reachable x ((hall x).mpr hx)
    · rintro ⟨before, hw⟩
      induction hw with
      | entry => exact (hall 0).mp hs.zero
      | step _ hb ih =>
        obtain ⟨hb, hlt⟩ := mem_inside.mp hb
        exact (hall _).mp (hs.done _ ih _ hb hlt)
  parent x hx hzero := by
    obtain ⟨p, hp, hwhere⟩ := hs.parent x hx hzero
    exact ⟨p, hp, hwhere.resolve_left List.not_mem_nil⟩

theorem Search.postorder?_some {stack : List (Nat × Nat)} {visited order : List Nat} {fuel : Nat}
    (hs : Search succ n stack visited order) (hfuel : turns succ n stack visited < fuel) :
    ∃ r, postorder? succ n fuel stack visited order = some r ∧ Postorder succ n r := by
  induction fuel generalizing stack visited order with
  | zero => omega
  | succ fuel ih =>
    cases stack with
    | nil => exact ⟨order, rfl, hs.finish⟩
    | cons top stack =>
      obtain ⟨node, child⟩ := top
      simp only [postorder?]
      cases hnext : (succ node)[child]? with
      | none =>
        have hle : child ≤ (succ node).length := hs.child_le _ List.mem_cons_self
        have hturns : turns succ n stack visited < turns succ n ((node, child) :: stack) visited :=
          turns_pop hle
        exact ih (hs.pop hnext) (by omega)
      | some next =>
        have hturns : turns succ n ((node, child + 1) :: stack) visited + 1 =
            turns succ n ((node, child) :: stack) visited := turns_child hnext
        by_cases hnew : next < n ∧ next ∉ visited
        · simp only [if_pos hnew]
          have hpush : turns succ n ((next, 0) :: (node, child + 1) :: stack) (next :: visited) =
              turns succ n ((node, child + 1) :: stack) visited := turns_push hnew.1 hnew.2
          exact ih (hs.push hnext hnew.1 hnew.2) (by omega)
        · simp only [if_neg hnew]
          have hseen : next < n → next ∈ visited := fun hlt =>
            Classical.not_not.mp fun hout => hnew ⟨hlt, hout⟩
          exact ih (hs.skip hnext hseen) (by omega)

/-- The search from node 0 ends within one turn for each node and edge, and one. -/
theorem postorder?_start (hn : 0 < n) {fuel : Nat}
    (hfuel : ∑ b ∈ Finset.range n, ((succ b).length + 1) < fuel) :
    ∃ order, postorder? succ n fuel [(0, 0)] [0] [] = some order ∧ Postorder succ n order := by
  refine (Search.start hn).postorder?_some ?_
  have hpush : turns succ n [(0, 0)] [0] = turns succ n [] [] := turns_push hn List.not_mem_nil
  rw [hpush]
  simpa [turns] using hfuel

section Order

theorem idxOf_lt_of_sublist {a b : Nat} {xs : List Nat} (hnodup : xs.Nodup)
    (h : [a, b].Sublist xs) : xs.idxOf a < xs.idxOf b := by
  induction xs with
  | nil => simp at h
  | cons x xs ih =>
    obtain ⟨hx, hnodup⟩ := List.nodup_cons.mp hnodup
    cases h with
    | cons _ h =>
      have ha : a ∈ xs := h.subset List.mem_cons_self
      have hb : b ∈ xs := h.subset (List.mem_cons_of_mem _ List.mem_cons_self)
      have hxa : x ≠ a := fun heq => hx (heq ▸ ha)
      have hxb : x ≠ b := fun heq => hx (heq ▸ hb)
      rw [List.idxOf_cons_ne _ hxa, List.idxOf_cons_ne _ hxb]
      exact Nat.succ_lt_succ (ih hnodup h)
    | cons_cons _ h =>
      have hb : b ∈ xs := h.subset List.mem_cons_self
      have hab : a ≠ b := fun heq => hx (heq ▸ hb)
      rw [List.idxOf_cons_self, List.idxOf_cons_ne _ hab]
      exact Nat.succ_pos _

variable {order : List Nat} {preds : Nat → List Nat}

theorem Postorder.length_le (ho : Postorder succ n order) : order.length ≤ n := by
  have hsub : order ⊆ List.range n := fun x hx => List.mem_range.mpr (ho.lt x hx)
  have hlen := (List.subperm_of_subset ho.nodup hsub).length_le
  rwa [List.length_range] at hlen

theorem Postorder.idxOf_lt (ho : Postorder succ n order) {b : Nat}
    (hb : Reachable (inside succ n) b) : order.reverse.idxOf b < order.length := by
  rw [← List.length_reverse]
  exact List.idxOf_lt_length_iff.mpr (List.mem_reverse.mpr ((ho.mem_iff b).mpr hb))

theorem Postorder.reverse_parent (ho : Postorder succ n order) {b : Nat}
    (hb : Reachable (inside succ n) b) (hzero : b ≠ 0) :
    ∃ p, b ∈ inside succ n p ∧ Reachable (inside succ n) p ∧
      order.reverse.idxOf p < order.reverse.idxOf b := by
  have hmem := (ho.mem_iff b).mpr hb
  obtain ⟨p, hsucc, hsub⟩ := ho.parent b hmem hzero
  have hp : p ∈ order := hsub.subset (List.mem_cons_of_mem _ List.mem_cons_self)
  refine ⟨p, mem_inside.mpr ⟨hsucc, ho.lt b hmem⟩, (ho.mem_iff p).mp hp, ?_⟩
  exact idxOf_lt_of_sublist (List.nodup_reverse.mpr ho.nodup) (List.reverse_sublist.mpr hsub)

/-- Node 0 ends last: any other node that did would have a predecessor after it. -/
theorem Postorder.reverse_eq (ho : Postorder succ n order) :
    order.reverse = 0 :: order.reverse.tail := by
  have hzero : 0 ∈ order.reverse := List.mem_reverse.mpr ((ho.mem_iff 0).mpr reachable_zero)
  cases hrev : order.reverse with
  | nil =>
    rw [hrev] at hzero
    exact absurd hzero List.not_mem_nil
  | cons first rest =>
    have hmem : first ∈ order.reverse := hrev ▸ List.mem_cons_self
    have hfirst := (ho.mem_iff first).mp (List.mem_reverse.mp hmem)
    by_cases h : first = 0
    · rw [h, List.tail_cons]
    · obtain ⟨p, -, -, hlt⟩ := ho.reverse_parent hfirst h
      rw [hrev, List.idxOf_cons_self] at hlt
      exact absurd hlt (Nat.not_lt_zero _)

theorem Postorder.forwardTree (ho : Postorder succ n order)
    (hpreds : ∀ b, b < n → ∀ p, p ∈ preds b ↔ b ∈ succ p) :
    ∃ parent, ForwardTree (inside succ n) preds order.reverse.idxOf parent (n - 1) := by
  classical
  have hmem : ∀ b, Reachable (inside succ n) b → ∀ p, p ∈ preds b ↔ b ∈ inside succ n p := by
    intro b hb p
    have hlt := ho.lt b ((ho.mem_iff b).mpr hb)
    rw [hpreds b hlt p, mem_inside]
    exact ⟨fun h => ⟨h, hlt⟩, And.left⟩
  have hchoice : ∀ b, ∃ p, b ≠ 0 → Reachable (inside succ n) b → b ∈ inside succ n p ∧
      Reachable (inside succ n) p ∧ order.reverse.idxOf p < order.reverse.idxOf b := by
    intro b
    by_cases h : b ≠ 0 ∧ Reachable (inside succ n) b
    · obtain ⟨p, hp⟩ := ho.reverse_parent h.2 h.1
      exact ⟨p, fun _ _ => hp⟩
    · exact ⟨0, fun hzero hb => absurd ⟨hzero, hb⟩ h⟩
  choose up hup using hchoice
  refine ⟨fun b => if b = 0 then 0 else up b, ?_⟩
  constructor
  case mem_preds => exact hmem
  case parent_zero => exact if_pos rfl
  case parent_pred =>
    intro b hb hzero
    rw [if_neg hzero]
    exact (hmem b hb _).mpr (hup b hzero hb).1
  case parent_reachable =>
    intro b hb
    by_cases hzero : b = 0
    · rw [if_pos hzero]
      exact reachable_zero
    · rw [if_neg hzero]
      exact (hup b hzero hb).2.1
  case parent_lt =>
    intro b hb hzero
    rw [if_neg hzero]
    exact (hup b hzero hb).2.2
  case rank_inj =>
    intro a b ha _ heq
    exact (List.idxOf_inj (List.mem_reverse.mpr ((ho.mem_iff a).mpr ha))).mp heq
  case rank_le =>
    intro b hb
    have hlt := ho.idxOf_lt hb
    have hle := ho.length_le
    omega

end Order

end FlowGraph
