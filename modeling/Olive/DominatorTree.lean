import Mathlib.Algebra.Group.Action.Defs
import Mathlib.Algebra.Order.BigOperators.Group.Finset
import Mathlib.Logic.Function.Basic
import Olive.FlowGraph
import Olive.MeetTree

/-! Immediate dominators by iteration over an order in which every node but the entry comes after one of
its predecessors: each round walks up the tree that the table has so far. -/

namespace DominatorTree

open FlowGraph MeetTree

section Dominance

variable {succ : Nat → List Nat} {b d p x : Nat}

def Reachable (succ : Nat → List Nat) (b : Nat) : Prop :=
  ∃ before, Walk succ before b

/-- Every walk from node 0 to `b` passes `d`, or ends there. -/
def Dominates (succ : Nat → List Nat) (d b : Nat) : Prop :=
  ∀ before, Walk succ before b → d = b ∨ d ∈ before

theorem reachable_zero : Reachable succ 0 :=
  ⟨[], .entry⟩

theorem Reachable.step (hp : Reachable succ p) (h : b ∈ succ p) : Reachable succ b := by
  obtain ⟨before, hw⟩ := hp
  exact ⟨before ++ [p], hw.step h⟩

theorem Dominates.refl (b : Nat) : Dominates succ b b :=
  fun _ _ => .inl rfl

theorem dominates_zero (h : Dominates succ d 0) : d = 0 :=
  (h [] .entry).resolve_right List.not_mem_nil

/-- A dominator other than the node itself dominates the predecessors. -/
theorem Dominates.pred (h : Dominates succ d b) (hne : d ≠ b) (hp : b ∈ succ p) :
    Dominates succ d p := by
  intro before hw
  rcases h _ (hw.step hp) with heq | hmem
  · exact absurd heq hne
  · rcases List.mem_append.mp hmem with hmem | hmem
    · exact .inr hmem
    · exact .inl (List.mem_singleton.mp hmem)

end Dominance

/-- An order of the reachable nodes by rank, with a tree of edges that go forward in it. -/
structure ForwardTree (succ : Nat → List Nat) (preds : Nat → List Nat) (rank parent : Nat → Nat)
    (bound : Nat) : Prop where
  mem_preds : ∀ b, Reachable succ b → ∀ p, p ∈ preds b ↔ b ∈ succ p
  parent_zero : parent 0 = 0
  parent_pred : ∀ b, Reachable succ b → b ≠ 0 → parent b ∈ preds b
  parent_reachable : ∀ b, Reachable succ b → Reachable succ (parent b)
  parent_lt : ∀ b, Reachable succ b → b ≠ 0 → rank (parent b) < rank b
  rank_inj : ∀ a b, Reachable succ a → Reachable succ b → rank a = rank b → a = b
  rank_le : ∀ b, Reachable succ b → rank b ≤ bound

theorem ForwardTree.climbs {succ preds : Nat → List Nat} {rank parent : Nat → Nat} {bound : Nat}
    (ht : ForwardTree succ preds rank parent bound) : Climbs (Reachable succ) parent rank 0 where
  up_root := ht.parent_zero
  up_mem := ht.parent_reachable
  falls := ht.parent_lt

/-- A table of the immediate dominators found so far. -/
abbrev Table := Nat → Option Nat

def up (T : Table) (b : Nat) : Nat := (T b).getD 0

def Assigned (T : Table) (b : Nat) : Prop := (T b).isSome = true

/-- What rounds keep: the entries are ancestors in the forward tree, at or below the immediate
dominators, and not below what is above all predecessors. -/
structure Valid (succ preds : Nat → List Nat) (parent : Nat → Nat) (T : Table) : Prop where
  zero : T 0 = some 0
  reachable : ∀ b, Assigned T b → Reachable succ b
  closed : ∀ b, Assigned T b → Assigned T (up T b)
  ancestor : ∀ b, Assigned T b → b ≠ 0 → Above parent (parent b) (up T b)
  dominated : ∀ b, Assigned T b → b ≠ 0 → ∀ x, x ≠ b → Dominates succ x b → Dominates succ x (up T b)
  late : ∀ b, Assigned T b → b ≠ 0 → ∀ x, (∀ p ∈ preds b, Assigned T p → Above (up T) p x) →
    Above parent (up T b) x

/-- The nodes of rank below `n` have entries that this round made. -/
structure Swept (succ : Nat → List Nat) (rank parent : Nat → Nat) (T : Table) (n : Nat) : Prop where
  assigned : ∀ b, Reachable succ b → rank b < n → Assigned T b
  parent_above : ∀ b, Reachable succ b → b ≠ 0 → rank b < n → Above (up T) (parent b) (up T b)

section Table

variable {succ preds : Nat → List Nat} {rank parent : Nat → Nat} {bound b x y : Nat} {T : Table}

theorem assigned_zero (hv : Valid succ preds parent T) : Assigned T 0 := by
  rw [Assigned, hv.zero]
  rfl

theorem Valid.climbs (ht : ForwardTree succ preds rank parent bound)
    (hv : Valid succ preds parent T) : Climbs (Assigned T) (up T) rank 0 where
  up_root := by rw [up, hv.zero]; rfl
  up_mem := hv.closed
  falls b hb hne :=
    Nat.lt_of_le_of_lt
      (ht.climbs.rank_le (ht.parent_reachable b (hv.reachable b hb)) (hv.ancestor b hb hne))
      (ht.parent_lt b (hv.reachable b hb) hne)

theorem Valid.above_parent (ht : ForwardTree succ preds rank parent bound)
    (hv : Valid succ preds parent T) (hx : Assigned T x) (h : Above (up T) x y) :
    Above parent x y := by
  obtain ⟨k, rfl⟩ := h
  induction k generalizing x with
  | zero => exact .refl x
  | succ k ih =>
    have hrest := ih (hv.closed x hx)
    by_cases hzero : x = 0
    · subst hzero
      rw [Function.iterate_fixed (hv.climbs ht).up_root]
      exact .refl 0
    · exact (above_up x).trans ((hv.ancestor x hx hzero).trans hrest)

/-- Every dominator of a node is on its way up. -/
theorem Valid.above_of_dominates (ht : ForwardTree succ preds rank parent bound)
    (hv : Valid succ preds parent T) (hx : Assigned T x) (h : Dominates succ y x) :
    Above (up T) x y := by
  induction hr : rank x using Nat.strong_induction_on generalizing x with
  | _ r ih =>
    by_cases heq : y = x
    · rw [heq]
      exact .refl x
    · have hzero : x ≠ 0 := by
        rintro rfl
        exact heq (dominates_zero h)
      have hlt := (hv.climbs ht).falls x hx hzero
      exact (above_up x).trans
        (ih _ (hr ▸ hlt) (hv.closed x hx) (hv.dominated x hx hzero y heq h) rfl)

/-- A dominator of `x` dominates what is above `x` and not above itself. -/
theorem Valid.dominates_above (ht : ForwardTree succ preds rank parent bound)
    (hv : Valid succ preds parent T) {d : Nat} (hx : Assigned T x) (h : Above (up T) x y)
    (hd : Dominates succ d x) (hrank : rank d ≤ rank y) : Dominates succ d y := by
  have hc := hv.climbs ht
  induction hr : rank x using Nat.strong_induction_on generalizing x with
  | _ r ih =>
    rcases above_iff.mp h with rfl | hup
    · exact hd
    · by_cases heq : x = y
      · rwa [← heq]
      · have hlow := hc.rank_lt hx h heq
        have hzero : x ≠ 0 := hc.ne_root (hc.mem_of_above hx h) hlow
        have hne : d ≠ x := by
          rintro rfl
          omega
        exact ih _ (hr ▸ hc.falls x hx hzero) (hv.closed x hx) hup
          (hv.dominated x hx hzero d hne hd) rfl

/-- Among nodes that this round has passed, the ways up do not cross the forward tree's. -/
theorem Swept.above_between (ht : ForwardTree succ preds rank parent bound) {n u : Nat} (hs : Swept succ rank parent T n)
    (hx : Reachable succ x) (hn : rank x < n) (hy : Above (up T) x y) (hu : Above parent x u)
    (huy : Above parent u y) : Above (up T) u y := by
  obtain ⟨k, hk⟩ := hu
  induction k generalizing x with
  | zero =>
    obtain rfl : x = u := hk
    exact hy
  | succ k ih =>
    have hu : Above parent (parent x) u := ⟨k, hk⟩
    by_cases hzero : x = 0
    · subst hzero
      rw [ht.parent_zero] at hu
      rwa [ht.climbs.above_root_iff.mp hu]
    · have hparent := ht.parent_reachable x hx
      have hlt := ht.parent_lt x hx hzero
      have hbelow : Above (up T) (parent x) y := by
        rcases above_iff.mp hy with rfl | hup
        · have hle := ht.climbs.rank_le hparent (hu.trans huy)
          omega
        · exact (hs.parent_above x hx hzero hn).trans hup
      exact ih hparent (by omega) hbelow hk

end Table

section Step

variable {succ preds : Nat → List Nat} {rank parent : Nat → Nat} {bound b x y new : Nat} {T : Table}

/-- `new` is what a round assigns to `b`, after the nodes before it. -/
structure Entry (succ preds : Nat → List Nat) (rank parent : Nat → Nat) (T : Table) (b new : Nat) :
    Prop where
  reachable : Reachable succ b
  ne_zero : b ≠ 0
  swept : Swept succ rank parent T (rank b)
  meet : IsMeet (up T) ((preds b).filter fun p => (T p).isSome) new

theorem Entry.parent_assigned (ht : ForwardTree succ preds rank parent bound)
    (he : Entry succ preds rank parent T b new) : Assigned T (parent b) :=
  he.swept.assigned _ (ht.parent_reachable b he.reachable) (ht.parent_lt b he.reachable he.ne_zero)

theorem Entry.above (he : Entry succ preds rank parent T b new) {p : Nat} (hp : p ∈ preds b)
    (ha : Assigned T p) : Above (up T) p new :=
  he.meet.above p (List.mem_filter.mpr ⟨hp, ha⟩)

theorem Entry.nearest (he : Entry succ preds rank parent T b new)
    (h : ∀ p ∈ preds b, Assigned T p → Above (up T) p y) : Above (up T) new y := by
  apply he.meet.nearest
  intro p hp
  obtain ⟨hmem, ha⟩ := List.mem_filter.mp hp
  exact h p hmem ha

theorem Entry.parent_above (ht : ForwardTree succ preds rank parent bound)
    (he : Entry succ preds rank parent T b new) : Above (up T) (parent b) new :=
  he.above (ht.parent_pred b he.reachable he.ne_zero) (he.parent_assigned ht)

theorem Entry.assigned (ht : ForwardTree succ preds rank parent bound)
    (hv : Valid succ preds parent T) (he : Entry succ preds rank parent T b new) : Assigned T new :=
  (hv.climbs ht).mem_of_above (he.parent_assigned ht) (he.parent_above ht)

/-- An entry only moves up the tree. -/
theorem Entry.above_old (ht : ForwardTree succ preds rank parent bound)
    (hv : Valid succ preds parent T) (he : Entry succ preds rank parent T b new)
    (hb : Assigned T b) : Above (up T) (up T b) new :=
  he.swept.above_between ht (ht.parent_reachable b he.reachable)
    (ht.parent_lt b he.reachable he.ne_zero) (he.parent_above ht) (hv.ancestor b hb he.ne_zero)
    (hv.late b hb he.ne_zero new fun _ hp ha => he.above hp ha)

theorem up_update_self : up (Function.update T b (some new)) b = new := by
  rw [up, Function.update_self]
  rfl

theorem up_update_of_ne (h : x ≠ b) : up (Function.update T b (some new)) x = up T x := by
  rw [up, Function.update_of_ne h]
  rfl

theorem assigned_update :
    Assigned (Function.update T b (some new)) x ↔ x = b ∨ Assigned T x := by
  unfold Assigned
  by_cases h : x = b
  · subst h
    simp
  · simp [h]

theorem Entry.above_of_update (ht : ForwardTree succ preds rank parent bound)
    (hv : Valid succ preds parent T) (he : Entry succ preds rank parent T b new)
    (hx : Assigned T x) (h : Above (up (Function.update T b (some new))) x y) :
    Above (up T) x y := by
  obtain ⟨k, hk⟩ := h
  induction k generalizing x with
  | zero =>
    rw [show x = y from hk]
    exact .refl y
  | succ k ih =>
    rw [Function.iterate_succ_apply] at hk
    by_cases heq : x = b
    · subst heq
      rw [up_update_self] at hk
      exact (above_up x).trans ((he.above_old ht hv hx).trans (ih (he.assigned ht hv) hk))
    · rw [up_update_of_ne heq] at hk
      exact (above_up x).trans (ih (hv.closed x hx) hk)

/-- The new entry is out of sight of the nodes before it. -/
theorem above_update_of_lt (ht : ForwardTree succ preds rank parent bound)
    (hv : Valid succ preds parent T) (hx : Assigned T x) (hlt : rank x < rank b)
    (h : Above (up T) x y) : Above (up (Function.update T b (some new))) x y := by
  obtain ⟨k, hk⟩ := h
  induction k generalizing x with
  | zero =>
    rw [show x = y from hk]
    exact .refl y
  | succ k ih =>
    have hne : x ≠ b := by
      rintro rfl
      omega
    have hle := (hv.climbs ht).rank_le hx (above_up x)
    have hrest := ih (hv.closed x hx) (by omega) hk
    rw [above_iff, up_update_of_ne hne]
    exact .inr hrest

theorem Entry.valid (ht : ForwardTree succ preds rank parent bound)
    (hv : Valid succ preds parent T) (he : Entry succ preds rank parent T b new) :
    Valid succ preds parent (Function.update T b (some new)) where
  zero := by rw [Function.update_of_ne he.ne_zero.symm, hv.zero]
  reachable x hx := by
    rcases assigned_update.mp hx with rfl | hx
    · exact he.reachable
    · exact hv.reachable x hx
  closed x hx := by
    rw [assigned_update]
    by_cases heq : x = b
    · rw [heq, up_update_self]
      exact .inr (he.assigned ht hv)
    · rw [up_update_of_ne heq]
      exact .inr (hv.closed x ((assigned_update.mp hx).resolve_left heq))
  ancestor x hx hzero := by
    by_cases heq : x = b
    · rw [heq, up_update_self]
      exact hv.above_parent ht (he.parent_assigned ht) (he.parent_above ht)
    · rw [up_update_of_ne heq]
      exact hv.ancestor x ((assigned_update.mp hx).resolve_left heq) hzero
  dominated x hx hzero d hne hd := by
    by_cases heq : x = b
    · subst heq
      rw [up_update_self]
      have hpreds : ∀ p ∈ preds x, Dominates succ d p := fun p hp =>
        hd.pred hne ((ht.mem_preds x he.reachable p).mp hp)
      have hnew : Above (up T) new d := he.nearest fun p hp ha =>
        hv.above_of_dominates ht ha (hpreds p hp)
      exact hv.dominates_above ht (he.parent_assigned ht) (he.parent_above ht)
        (hpreds _ (ht.parent_pred x he.reachable hzero))
        ((hv.climbs ht).rank_le (he.assigned ht hv) hnew)
    · rw [up_update_of_ne heq]
      exact hv.dominated x ((assigned_update.mp hx).resolve_left heq) hzero d hne hd
  late a ha hzero x hx := by
    have hx' : ∀ p ∈ preds a, Assigned T p → Above (up T) p x := fun p hp hpa =>
      he.above_of_update ht hv hpa (hx p hp (assigned_update.mpr (.inr hpa)))
    by_cases heq : a = b
    · subst heq
      rw [up_update_self]
      exact hv.above_parent ht (he.assigned ht hv) (he.nearest hx')
    · rw [up_update_of_ne heq]
      exact hv.late a ((assigned_update.mp ha).resolve_left heq) hzero x hx'

theorem Entry.extends_swept (ht : ForwardTree succ preds rank parent bound)
    (hv : Valid succ preds parent T) (he : Entry succ preds rank parent T b new) :
    Swept succ rank parent (Function.update T b (some new)) (rank b + 1) where
  assigned x hx hlt := by
    rw [assigned_update]
    by_cases heq : rank x = rank b
    · exact .inl (ht.rank_inj x b hx he.reachable heq)
    · exact .inr (he.swept.assigned x hx (by omega))
  parent_above x hx hzero hlt := by
    have hparent := ht.parent_lt x hx hzero
    have ha := he.swept.assigned _ (ht.parent_reachable x hx) (by omega)
    refine above_update_of_lt ht hv ha (by omega) ?_
    by_cases heq : x = b
    · rw [heq, up_update_self]
      exact he.parent_above ht
    · rw [up_update_of_ne heq]
      have hne : rank x ≠ rank b := fun hrank =>
        heq (ht.rank_inj x b hx he.reachable hrank)
      exact he.swept.parent_above x hx hzero (by omega)

/-- How far the entries of the first `n` nodes still are from the root. -/
def weight (rank : Nat → Nat) (bound n : Nat) (T : Table) : Nat :=
  ∑ b ∈ Finset.range n, match T b with
    | some d => rank d
    | none => bound + 1

theorem weight_le {n : Nat} (h : ∀ b d, T b = some d → rank d ≤ bound) :
    weight rank bound n T ≤ n * (bound + 1) := by
  have hall : ∀ b ∈ Finset.range n, (match T b with
      | some d => rank d
      | none => bound + 1) ≤ bound + 1 := by
    intro b _
    split
    · next d hd => exact Nat.le_succ_of_le (h b d hd)
    · exact Nat.le_refl _
  have hsum := Finset.sum_le_card_nsmul _ _ _ hall
  rwa [Finset.card_range, smul_eq_mul] at hsum

theorem Entry.weight_lt (ht : ForwardTree succ preds rank parent bound)
    (hv : Valid succ preds parent T) (he : Entry succ preds rank parent T b new) {n : Nat}
    (hn : b < n) (hne : T b ≠ some new) :
    weight rank bound n (Function.update T b (some new)) < weight rank bound n T := by
  have hnew := he.assigned ht hv
  have hlow : rank new ≤ bound := ht.rank_le new (hv.reachable new hnew)
  have hself : rank new < (match T b with
      | some d => rank d
      | none => bound + 1) := by
    split
    · next old hold =>
      have hup : up T b = old := by
        rw [up, hold]
        rfl
      have ha : Assigned T b := by
        rw [Assigned, hold]
        rfl
      have habove := he.above_old ht hv ha
      have hclosed := hv.closed b ha
      rw [hup] at habove hclosed
      refine (hv.climbs ht).rank_lt hclosed habove ?_
      rintro rfl
      exact hne hold
    · exact Nat.lt_succ_of_le hlow
  refine Finset.sum_lt_sum ?_ ⟨b, Finset.mem_range.mpr hn, ?_⟩
  · intro x _
    by_cases heq : x = b
    · rw [heq, Function.update_self]
      exact Nat.le_of_lt hself
    · rw [Function.update_of_ne heq]
  · rw [Function.update_self]
    exact hself

/-- A table in which every reachable node has the meet of its predecessors. -/
structure Settled (succ preds : Nat → List Nat) (T : Table) : Prop where
  assigned : ∀ b, Reachable succ b → Assigned T b
  meet : ∀ b, Reachable succ b → b ≠ 0 → ∀ p ∈ preds b, Assigned T p → Above (up T) p (up T b)

theorem Settled.dominates_of_above (ht : ForwardTree succ preds rank parent bound)
    (hv : Valid succ preds parent T) (hs : Settled succ preds T) (h : Above (up T) b x) :
    Dominates succ x b := by
  intro before hw
  induction hw with
  | entry => exact .inl ((hv.climbs ht).above_root_iff.mp h)
  | step hw hb ih =>
    rename_i before p b
    rcases above_iff.mp h with rfl | hup
    · exact .inl rfl
    · by_cases hzero : b = 0
      · subst hzero
        exact .inl ((hv.climbs ht).above_root_iff.mp h)
      · have hp : Reachable succ p := ⟨before, hw⟩
        have hmeet := hs.meet b (hp.step hb) hzero p ((ht.mem_preds b (hp.step hb) p).mpr hb) (hs.assigned p hp)
        right
        rcases ih (hmeet.trans hup) with rfl | hmem
        · exact List.mem_append_right _ List.mem_cons_self
        · exact List.mem_append_left _ hmem

/-- Once the rounds have settled, the way up from a node passes exactly its dominators. -/
theorem Settled.above_iff_dominates (ht : ForwardTree succ preds rank parent bound)
    (hv : Valid succ preds parent T) (hs : Settled succ preds T) (hb : Reachable succ b) :
    Above (up T) b x ↔ Dominates succ x b :=
  ⟨hs.dominates_of_above ht hv, hv.above_of_dominates ht (hs.assigned b hb)⟩

end Step

end DominatorTree
