import Mathlib.Algebra.BigOperators.Group.List.Basic
import Mathlib.Algebra.GroupWithZero.Nat
import Mathlib.Data.List.Nodup
import Mathlib.Data.List.Range

/-! Lists in which a property holds once, marked positions, and places after a filter. -/

namespace Counting

theorem filter_one_index {α : Type} {xs : List α} {p : α → Bool} (h : (xs.filter p).length ≤ 1)
    {i j : Nat} {x y : α} (hx : xs[i]? = some x) (hy : xs[j]? = some y) (hpx : p x = true)
    (hpy : p y = true) : i = j := by
  induction xs generalizing i j with
  | nil => simp at hx
  | cons a xs ih =>
    have hrest : ∀ (k : Nat) (z : α), xs[k]? = some z → p z = true → p a = true → False := by
      intro k z hz hpz hpa
      have hmem : z ∈ xs.filter p := List.mem_filter.mpr ⟨List.mem_of_getElem? hz, hpz⟩
      have hpos := List.length_pos_of_mem hmem
      rw [List.filter_cons_of_pos hpa, List.length_cons] at h
      omega
    have hle : (xs.filter p).length ≤ 1 :=
      (((List.sublist_cons_self a xs).filter p).length_le).trans h
    cases i with
    | zero =>
      cases j with
      | zero => rfl
      | succ j =>
        obtain rfl := Option.some.inj hx
        exact (hrest j y hy hpy hpx).elim
    | succ i =>
      cases j with
      | zero =>
        obtain rfl := Option.some.inj hy
        exact (hrest i x hx hpx hpy).elim
      | succ j => rw [ih hle hx hy]

theorem filter_one_block {α β : Type} {xs : List α} {g : α → List β} {p : β → Bool}
    (h : ((xs.flatMap g).filter p).length ≤ 1) {i j : Nat} {x y : α} (hx : xs[i]? = some x)
    (hy : xs[j]? = some y) (hpx : ∃ b ∈ g x, p b = true) (hpy : ∃ b ∈ g y, p b = true) :
    i = j := by
  have hany : ∀ (zs : List β), (∃ b ∈ zs, p b = true) → 1 ≤ (zs.filter p).length := by
    intro zs hz
    obtain ⟨b, hb, hpb⟩ := hz
    exact List.length_pos_of_mem (List.mem_filter.mpr ⟨hb, hpb⟩)
  induction xs generalizing i j with
  | nil => simp at hx
  | cons a xs ih =>
    rw [List.flatMap_cons, List.filter_append, List.length_append] at h
    have hrest : ∀ (k : Nat) (z : α), xs[k]? = some z → (∃ b ∈ g z, p b = true) →
        (∃ b ∈ g a, p b = true) → False := by
      intro k z hz hpz hpa
      obtain ⟨b, hb, hpb⟩ := hpz
      have hfirst := hany _ hpa
      have hsecond := hany (xs.flatMap g)
        ⟨b, List.mem_flatMap.mpr ⟨z, List.mem_of_getElem? hz, hb⟩, hpb⟩
      omega
    cases i with
    | zero =>
      cases j with
      | zero => rfl
      | succ j =>
        obtain rfl := Option.some.inj hx
        exact (hrest j y hy hpy hpx).elim
    | succ i =>
      cases j with
      | zero =>
        obtain rfl := Option.some.inj hy
        exact (hrest i x hx hpx hpy).elim
      | succ j => rw [ih (by omega) hx hy]

/-- Replacing one summand. -/
theorem sum_set_add {xs : List Nat} {i x : Nat} (h : xs[i]? = some x) (a : Nat) :
    (xs.set i a).sum + x = xs.sum + a := by
  induction xs generalizing i with
  | nil => simp at h
  | cons y ys ih =>
    cases i with
    | zero =>
      obtain rfl := Option.some.inj h
      simp only [List.set_cons_zero, List.sum_cons]
      omega
    | succ i =>
      have hi := ih h
      simp only [List.set_cons_succ, List.sum_cons]
      omega

/-- How many of the first `n` numbers are not marked. -/
def unmarked (n : Nat) (marked : List Nat) : Nat := ((List.range n).filter (· ∉ marked)).length

theorem unmarked_le (n : Nat) (marked : List Nat) : unmarked n marked ≤ n :=
  (List.length_filter_le _ _).trans (le_of_eq List.length_range)

/-- Marking `new` leaves that many fewer unmarked. -/
theorem unmarked_append {n : Nat} {marked new : List Nat} (hnodup : new.Nodup)
    (hnew : ∀ b ∈ new, b < n ∧ b ∉ marked) :
    unmarked n (new ++ marked) + new.length ≤ unmarked n marked := by
  have hsub : (List.range n).filter (· ∉ new ++ marked) ++ new ⊆
      (List.range n).filter (· ∉ marked) := by
    intro b hb
    rcases List.mem_append.mp hb with hb | hb
    · simp only [List.mem_filter, decide_eq_true_eq, List.mem_append, not_or] at hb ⊢
      exact ⟨hb.1, hb.2.2⟩
    · simp only [List.mem_filter, decide_eq_true_eq, List.mem_range]
      exact hnew b hb
  have hdisjoint : ((List.range n).filter (· ∉ new ++ marked) ++ new).Nodup := by
    refine (List.nodup_range.filter _).append hnodup ?_
    intro b hb hb'
    simp only [List.mem_filter, decide_eq_true_eq, List.mem_append, not_or] at hb
    exact hb.2.1 hb'
  have hlen := (List.subperm_of_subset hdisjoint hsub).length_le
  rwa [List.length_append] at hlen

/-- Where an element is after a filter: behind those kept before it. -/
theorem getElem?_filter {α : Type} {xs : List α} {p : α → Bool} {i : Nat} {x : α}
    (h : xs[i]? = some x) (hp : p x = true) :
    (xs.filter p)[((xs.take i).filter p).length]? = some x := by
  obtain ⟨hlt, hget⟩ := List.getElem?_eq_some_iff.mp h
  have hsplit : xs = xs.take i ++ x :: xs.drop (i + 1) := by
    rw [← hget, ← List.drop_eq_getElem_cons hlt, List.take_append_drop]
  have hfilter : xs.filter p = (xs.take i).filter p ++ x :: (xs.drop (i + 1)).filter p := by
    conv_lhs => rw [hsplit]
    rw [List.filter_append, List.filter_cons_of_pos hp]
  rw [hfilter, List.getElem?_append_right le_rfl, Nat.sub_self]
  rfl

/-- A count over the first numbers, when one of them gets the property. -/
theorem countP_flip {n k : Nat} {p q : Nat → Bool} (hk : k < n) (hother : ∀ i < n, i ≠ k → q i = p i)
    (hp : p k = false) (hq : q k = true) :
    (List.range n).countP q = (List.range n).countP p + 1 := by
  induction n with
  | zero => simp at hk
  | succ n ih =>
    rw [List.range_succ, List.countP_append, List.countP_append, List.countP_singleton,
      List.countP_singleton]
    rcases Nat.lt_succ_iff_lt_or_eq.mp hk with hlt | rfl
    · rw [ih hlt fun i hi => hother i (by omega), hother n (by omega) (by omega)]
      omega
    · have hsame : (List.range k).countP q = (List.range k).countP p :=
        List.countP_congr fun i hi => by
          rw [hother i (by have := List.mem_range.mp hi; omega)
            (by have := List.mem_range.mp hi; omega)]
      simp [hsame, hp, hq]

end Counting
