import Mathlib.Data.Char
import Mathlib.Data.List.Lex
import Mathlib.Data.List.Sort
import Mathlib.Data.Prod.Lex
import Mathlib.Order.Bounds.Defs

/-! The distance between a mistyped name and a known one, computed in three rows, and the names that
are suggested for it. -/

namespace Olive

namespace Suggest

section Rows

variable (a b : List Char)

/-- The rows of the distances from the last two prefixes of `a`, and the one being written. -/
structure Rows where
  prevPrev : List Nat
  prev : List Nat
  curr : List Nat

/-- Two neighbours of `a` that stand in `b` the other way round, before positions `i` and `j`. -/
def swapped (i j : Nat) : Bool :=
  decide (1 < i ∧ 1 < j ∧ a[i - 1]? = b[j - 2]? ∧ a[i - 2]? = b[j - 1]?)

def fillCell (i : Nat) (rows : Rows) (acc : List Nat × Nat) (j : Nat) : List Nat × Nat :=
  let cost := if a[i - 1]? ≠ b[j - 1]? then 1 else 0
  let d := min (min (rows.prev.getD j 0 + 1) (acc.1.getD (j - 1) 0 + 1))
    (rows.prev.getD (j - 1) 0 + cost)
  let d := if swapped a b i j then min d (rows.prevPrev.getD (j - 2) 0 + 1) else d
  (acc.1.set j d, min acc.2 d)

/-- The row of `i` and its least distance. -/
def fillRow (i : Nat) (rows : Rows) : List Nat × Nat :=
  (List.range' 1 b.length).foldl (fillCell a b i rows) (rows.curr.set 0 i, i)

/-- The rows after the ones of `steps`, none where one of them has no distance up to `max`. -/
def fillRows (max : Nat) : List Nat → Rows → Option Rows
  | [], rows => some rows
  | i :: steps, rows =>
    let row := fillRow a b i rows
    if max < row.2 then none else fillRows max steps ⟨rows.prev, row.1, rows.prevPrev⟩

def editDistance (max : Nat) : Nat :=
  if max < a.length - b.length ∨ max < b.length - a.length then max + 1
  else if a = [] then b.length
  else if b = [] then a.length
  else
    let zeros := List.replicate (b.length + 1) 0
    match fillRows a b max (List.range' 1 a.length) ⟨zeros, List.range (b.length + 1), zeros⟩ with
    | some rows => rows.prev.getD b.length 0
    | none => max + 1

/-- So many edits turn the first `i` characters of `a` into the first `j` of `b`: each changes,
deletes or inserts one character, or swaps two neighbours. -/
inductive Edits : Nat → Nat → Nat → Prop
  | start : Edits 0 0 0
  | keep {i j n : Nat} : Edits i j n → i < a.length → a[i]? = b[j]? → Edits (i + 1) (j + 1) n
  | change {i j n : Nat} : Edits i j n → i < a.length → j < b.length →
      Edits (i + 1) (j + 1) (n + 1)
  | delete {i j n : Nat} : Edits i j n → i < a.length → Edits (i + 1) j (n + 1)
  | insert {i j n : Nat} : Edits i j n → j < b.length → Edits i (j + 1) (n + 1)
  | swap {i j n : Nat} : Edits i j n → i + 1 < a.length → a[i]? = b[j + 1]? → a[i + 1]? = b[j]? →
      Edits (i + 2) (j + 2) (n + 1)

/-- The recurrence that the rows follow. -/
def dist : Nat → Nat → Nat
  | 0, j => j
  | i + 1, 0 => i + 1
  | i + 1, j + 1 =>
    let d := min (min (dist i (j + 1) + 1) (dist (i + 1) j + 1))
      (dist i j + if a[i]? ≠ b[j]? then 1 else 0)
    if swapped a b (i + 1) (j + 1) then min d (dist (i - 1) (j - 1) + 1) else d
termination_by i j => i + j

end Rows

variable {a b : List Char} {i j n : Nat}

theorem dist_unfold :
    (∀ j, dist a b 0 j = j) ∧ (∀ i, dist a b (i + 1) 0 = i + 1) ∧
      ∀ i j, dist a b (i + 1) (j + 1) =
        let d := min (min (dist a b i (j + 1) + 1) (dist a b (i + 1) j + 1))
          (dist a b i j + if a[i]? ≠ b[j]? then 1 else 0)
        if swapped a b (i + 1) (j + 1) then min d (dist a b (i - 1) (j - 1) + 1) else d := by
  refine ⟨fun j => ?_, fun i => ?_, fun i j => ?_⟩ <;> rw [dist]

theorem dist_zero (j : Nat) : dist a b 0 j = j := dist_unfold.1 j

theorem dist_zero_right (i : Nat) : dist a b i 0 = i := by
  cases i with
  | zero => exact dist_zero 0
  | succ i => exact dist_unfold.2.1 i

theorem dist_succ (i j : Nat) : dist a b (i + 1) (j + 1) =
    let d := min (min (dist a b i (j + 1) + 1) (dist a b (i + 1) j + 1))
      (dist a b i j + if a[i]? ≠ b[j]? then 1 else 0)
    if swapped a b (i + 1) (j + 1) then min d (dist a b (i - 1) (j - 1) + 1) else d :=
  dist_unfold.2.2 i j

theorem swapped_iff : swapped a b (i + 1) (j + 1) = true ↔
    ∃ i' j', i = i' + 1 ∧ j = j' + 1 ∧ a[i' + 1]? = b[j']? ∧ a[i']? = b[j' + 1]? := by
  unfold swapped
  rw [decide_eq_true_eq]
  constructor
  · rintro ⟨hi, hj, hab, hba⟩
    obtain ⟨i', rfl⟩ : ∃ i', i = i' + 1 := ⟨i - 1, by omega⟩
    obtain ⟨j', rfl⟩ : ∃ j', j = j' + 1 := ⟨j - 1, by omega⟩
    exact ⟨i', j', rfl, rfl, by simpa using hab, by simpa using hba⟩
  · rintro ⟨i', j', rfl, rfl, hab, hba⟩
    exact ⟨by omega, by omega, by simpa using hab, by simpa using hba⟩

theorem dist_le_delete : dist a b (i + 1) (j + 1) ≤ dist a b i (j + 1) + 1 := by
  rw [dist_succ]
  dsimp only
  split_ifs <;> omega

theorem dist_le_insert : dist a b (i + 1) (j + 1) ≤ dist a b (i + 1) j + 1 := by
  rw [dist_succ]
  dsimp only
  split_ifs <;> omega

theorem dist_le_change :
    dist a b (i + 1) (j + 1) ≤ dist a b i j + if a[i]? ≠ b[j]? then 1 else 0 := by
  rw [dist_succ]
  dsimp only
  split_ifs <;> omega

theorem dist_le_swap (h : swapped a b (i + 1) (j + 1) = true) :
    dist a b (i + 1) (j + 1) ≤ dist a b (i - 1) (j - 1) + 1 := by
  rw [dist_succ, if_pos h]
  exact min_le_right _ _

/-- One of the four ways gives the distance. -/
theorem dist_cases (i j : Nat) :
    dist a b (i + 1) (j + 1) = dist a b i (j + 1) + 1 ∨
    dist a b (i + 1) (j + 1) = dist a b (i + 1) j + 1 ∨
    dist a b (i + 1) (j + 1) = dist a b i j + (if a[i]? ≠ b[j]? then 1 else 0) ∨
    swapped a b (i + 1) (j + 1) = true ∧
      dist a b (i + 1) (j + 1) = dist a b (i - 1) (j - 1) + 1 := by
  rw [dist_succ]
  dsimp only
  generalize dist a b i j + (if a[i]? ≠ b[j]? then 1 else 0) = changed
  split_ifs with h
  · simp only [h, true_and]
    omega
  · omega

theorem dist_le_of_edits (h : Edits a b i j n) : dist a b i j ≤ n := by
  induction h with
  | start => rw [dist_zero]
  | @keep i j n _ _ heq ih =>
    have hle : dist a b (i + 1) (j + 1) ≤ _ := dist_le_change
    rw [if_neg (not_not.mpr heq)] at hle
    omega
  | @change i j n _ _ _ ih =>
    have hle : dist a b (i + 1) (j + 1) ≤ _ := dist_le_change
    split_ifs at hle <;> omega
  | @delete i j n _ _ ih =>
    cases j with
    | zero =>
      rw [dist_zero_right] at ih ⊢
      omega
    | succ j => exact dist_le_delete.trans (by omega)
  | @insert i j n _ _ ih =>
    cases i with
    | zero =>
      rw [dist_zero] at ih ⊢
      omega
    | succ i => exact dist_le_insert.trans (by omega)
  | @swap i j n _ _ hab hba ih =>
    have hswap : swapped a b (i + 1 + 1) (j + 1 + 1) = true :=
      swapped_iff.mpr ⟨i, j, rfl, rfl, hba, hab⟩
    exact (dist_le_swap hswap).trans (by simpa using ih)

theorem edits_insert (hj : j ≤ b.length) : Edits a b 0 j j := by
  induction j with
  | zero => exact .start
  | succ j ih => exact (ih (by omega)).insert (by omega)

theorem edits_delete (hi : i ≤ a.length) : Edits a b i 0 i := by
  induction i with
  | zero => exact .start
  | succ i ih => exact (ih (by omega)).delete (by omega)

theorem edits_dist (hi : i ≤ a.length) (hj : j ≤ b.length) : Edits a b i j (dist a b i j) := by
  obtain ⟨n, hn⟩ : ∃ n, n = i + j := ⟨_, rfl⟩
  induction n using Nat.strong_induction_on generalizing i j with
  | _ n ih =>
    cases i with
    | zero =>
      rw [dist_zero]
      exact edits_insert hj
    | succ i =>
      cases j with
      | zero =>
        rw [dist_zero_right]
        exact edits_delete hi
      | succ j =>
        rcases @dist_cases a b i j with h | h | h | ⟨hswap, h⟩
        · rw [h]
          exact (ih (i + (j + 1)) (by omega) (by omega) hj rfl).delete (by omega)
        · rw [h]
          exact (ih (i + 1 + j) (by omega) hi (by omega) rfl).insert (by omega)
        · have hrec : Edits a b i j (dist a b i j) :=
            ih (i + j) (by omega) (by omega) (by omega) rfl
          rw [h]
          split_ifs with hne
          · exact hrec.change (by omega) (by omega)
          · exact hrec.keep (by omega) (not_not.mp hne)
        · obtain ⟨i', j', rfl, rfl, hab, hba⟩ := swapped_iff.mp hswap
          rw [h]
          exact (ih (i' + j') (by omega) (by omega) (by omega) rfl).swap (by omega) hba hab

/-- The edits of a script make up for the difference in length. -/
theorem length_le_dist (i j : Nat) : i ≤ j + dist a b i j ∧ j ≤ i + dist a b i j := by
  obtain ⟨n, hn⟩ : ∃ n, n = i + j := ⟨_, rfl⟩
  induction n using Nat.strong_induction_on generalizing i j with
  | _ n ih =>
    cases i with
    | zero =>
      rw [dist_zero]
      omega
    | succ i =>
      cases j with
      | zero =>
        rw [dist_zero_right]
        omega
      | succ j =>
        have hdelete := ih (i + (j + 1)) (by omega) i (j + 1) rfl
        have hinsert := ih (i + 1 + j) (by omega) (i + 1) j rfl
        have hchange := ih (i + j) (by omega) i j rfl
        rcases @dist_cases a b i j with h | h | h | ⟨hswap, h⟩
        · omega
        · omega
        · split_ifs at h <;> omega
        · obtain ⟨i', j', rfl, rfl, _, _⟩ := swapped_iff.mp hswap
          have hswapped := ih (i' + j') (by omega) i' j' rfl
          simp only [Nat.add_sub_cancel] at h
          omega

/-- Each distance in a row is at least one of the row before. -/
theorem exists_le_next (i j : Nat) : ∃ k ≤ j, dist a b i k ≤ dist a b (i + 1) j := by
  induction j with
  | zero =>
    refine ⟨0, le_rfl, ?_⟩
    rw [dist_zero_right, dist_zero_right]
    omega
  | succ j ih =>
    obtain ⟨k, hk, hle⟩ := ih
    rcases @dist_cases a b i j with h | h | h | ⟨hswap, h⟩
    · exact ⟨j + 1, le_rfl, by omega⟩
    · exact ⟨k, by omega, by omega⟩
    · exact ⟨j, by omega, by omega⟩
    · -- The row between is at most one edit away from the swap.
      obtain ⟨i', j', rfl, rfl, _, _⟩ := swapped_iff.mp hswap
      refine ⟨j' + 1, by omega, ?_⟩
      have hchange : dist a b (i' + 1) (j' + 1) ≤ _ := dist_le_change
      simp only [Nat.add_sub_cancel] at h
      split_ifs at hchange <;> omega

/-- A row where all distances are over the bound has only such rows after it. -/
theorem above_next {max m : Nat} (h : ∀ k ≤ j, max < dist a b i k) :
    ∀ k ≤ j, max < dist a b (i + m) k := by
  induction m with
  | zero => exact h
  | succ m ih =>
    intro k hk
    obtain ⟨k', hk', hle⟩ := @exists_le_next a b (i + m) k
    exact (ih k' (by omega)).trans_le hle

/-- The distances from the first `i` characters. -/
structure IsRow (a b : List Char) (i : Nat) (row : List Nat) : Prop where
  length : row.length = b.length + 1
  entry : ∀ k ≤ b.length, row.getD k 0 = dist a b i k

/-- The rows before row `i + 1`; what is in the one to be written does not matter. -/
structure Rows.Before (a b : List Char) (i : Nat) (rows : Rows) : Prop where
  prev : IsRow a b i rows.prev
  prevPrev : 0 < i → IsRow a b (i - 1) rows.prevPrev
  prevPrev_length : rows.prevPrev.length = b.length + 1
  curr_length : rows.curr.length = b.length + 1

/-- The first distances of row `i`, and the least of them. -/
structure Filled (a b : List Char) (i m : Nat) (acc : List Nat × Nat) : Prop where
  length : acc.1.length = b.length + 1
  entry : ∀ k ≤ m, acc.1.getD k 0 = dist a b i k
  best_le : ∀ k ≤ m, acc.2 ≤ dist a b i k
  best : ∃ k ≤ m, acc.2 = dist a b i k

variable {rows : Rows} {acc : List Nat × Nat} {m : Nat}

theorem getD_set (row : List Nat) {k k' : Nat} (d : Nat) (hk : k < row.length) :
    (row.set k d).getD k' 0 = if k = k' then d else row.getD k' 0 := by
  rw [List.getD_eq_getElem?_getD, List.getD_eq_getElem?_getD, List.getElem?_set]
  split_ifs with heq
  · rfl
  · rfl

theorem Filled.fillCell (hrows : rows.Before a b i) (h : Filled a b (i + 1) m acc)
    (hm : m < b.length) : Filled a b (i + 1) (m + 1) (fillCell a b (i + 1) rows acc (m + 1)) := by
  have hcell : (Suggest.fillCell a b (i + 1) rows acc (m + 1)) =
      (acc.1.set (m + 1) (dist a b (i + 1) (m + 1)), min acc.2 (dist a b (i + 1) (m + 1))) := by
    have hup := hrows.prev.entry (m + 1) hm
    have hleft := h.entry m le_rfl
    have hdiag := hrows.prev.entry m hm.le
    unfold Suggest.fillCell
    rw [dist_succ]
    simp only [Nat.add_sub_cancel, hup, hleft, hdiag]
    by_cases hswap : swapped a b (i + 1) (m + 1) = true
    · obtain ⟨i', m', rfl, rfl, _, _⟩ := swapped_iff.mp hswap
      have hpair := (hrows.prevPrev (by omega)).entry m' (by omega)
      simp only [Nat.add_sub_cancel] at hpair
      have hplace : m' + 1 + 1 - 2 = m' := by omega
      simp only [hswap, if_true, hplace, hpair, Nat.add_sub_cancel]
    · simp only [hswap, Bool.false_eq_true, if_false]
  have hplace : m + 1 < acc.1.length := by
    rw [h.length]
    omega
  rw [hcell]
  refine ⟨by simp [h.length], fun k hk => ?_, fun k hk => ?_, ?_⟩
  · rw [getD_set _ _ hplace]
    split_ifs with heq
    · rw [heq]
    · exact h.entry k (by omega)
  · rcases Nat.lt_or_eq_of_le hk with hlt | rfl
    · exact (min_le_left _ _).trans (h.best_le k (by omega))
    · exact min_le_right _ _
  · obtain ⟨k, hk, hbest⟩ := h.best
    rcases Nat.le_total acc.2 (dist a b (i + 1) (m + 1)) with hle | hle
    · exact ⟨k, by omega, (min_eq_left hle).trans hbest⟩
    · exact ⟨m + 1, le_rfl, min_eq_right hle⟩

theorem fillRow_filled (hrows : rows.Before a b i) :
    Filled a b (i + 1) b.length (fillRow a b (i + 1) rows) := by
  have hprefix : ∀ m ≤ b.length, Filled a b (i + 1) m
      ((List.range' 1 m).foldl (Suggest.fillCell a b (i + 1) rows)
        (rows.curr.set 0 (i + 1), i + 1)) := by
    intro m
    induction m with
    | zero =>
      intro _
      have hzero : 0 < rows.curr.length := by
        rw [hrows.curr_length]
        omega
      refine ⟨by simp [hrows.curr_length], fun k hk => ?_, fun k hk => ?_, ⟨0, le_rfl, ?_⟩⟩
      · obtain rfl : k = 0 := by omega
        rw [List.range'_zero, List.foldl_nil, getD_set _ _ hzero, if_pos rfl, dist_zero_right]
      · obtain rfl : k = 0 := by omega
        rw [dist_zero_right]
        rfl
      · rw [dist_zero_right]
        rfl
    | succ m ih =>
      intro hm
      rw [List.range'_concat, List.foldl_append, Nat.one_mul, Nat.add_comm 1 m]
      exact (ih (by omega)).fillCell hrows hm
  exact hprefix b.length le_rfl

theorem fillRows_spec {max : Nat} (hrows : rows.Before a b i) :
    (∀ rows', fillRows a b max (List.range' (i + 1) m) rows = some rows' →
      IsRow a b (i + m) rows'.prev) ∧
    (fillRows a b max (List.range' (i + 1) m) rows = none →
      ∀ k ≤ b.length, max < dist a b (i + m) k) := by
  induction m generalizing i rows with
  | zero =>
    refine ⟨fun rows' h => ?_, nofun⟩
    cases h
    exact hrows.prev
  | succ m ih =>
    have hfilled := fillRow_filled hrows
    have hplace : i + 1 + m = i + (m + 1) := by omega
    rw [List.range'_succ, fillRows]
    split_ifs with hlarge
    · refine ⟨nofun, fun _ k hk => ?_⟩
      have habove : ∀ k ≤ b.length, max < dist a b (i + 1) k :=
        fun k hk => hlarge.trans_le (hfilled.best_le k hk)
      have hrest := @above_next a b (i + 1) b.length max m habove k hk
      rwa [hplace] at hrest
    · have hnext : Rows.Before a b (i + 1)
          ⟨rows.prev, (fillRow a b (i + 1) rows).1, rows.prevPrev⟩ :=
        ⟨⟨hfilled.length, hfilled.entry⟩, fun _ => hrows.prev, hrows.prev.length,
          hrows.prevPrev_length⟩
      have hrest := ih hnext
      rwa [hplace] at hrest

theorem start_before (a b : List Char) :
    Rows.Before a b 0 ⟨List.replicate (b.length + 1) 0, List.range (b.length + 1),
      List.replicate (b.length + 1) 0⟩ := by
  refine ⟨⟨List.length_range, fun k hk => ?_⟩, fun h => absurd h (Nat.lt_irrefl 0),
    List.length_replicate, List.length_replicate⟩
  rw [dist_zero, List.getD_eq_getElem?_getD, List.getElem?_range (by omega), Option.getD_some]

/-- The distance, unless it is over the bound. -/
theorem editDistance_eq (a b : List Char) (max : Nat) :
    editDistance a b max = dist a b a.length b.length ∨
      max < editDistance a b max ∧ max < dist a b a.length b.length := by
  have hlength := @length_le_dist a b a.length b.length
  unfold editDistance
  split_ifs with hfar ha hb
  · exact .inr ⟨by omega, by omega⟩
  · left
    rw [ha, List.length_nil, dist_zero]
  · left
    rw [hb, List.length_nil, dist_zero_right]
  · have hrows := @fillRows_spec a b 0 _ a.length max (start_before a b)
    rw [Nat.zero_add, Nat.zero_add] at hrows
    dsimp only
    split
    next rows' hsome => exact .inl ((hrows.1 rows' hsome).entry b.length le_rfl)
    next hnone => exact .inr ⟨by omega, hrows.2 hnone b.length le_rfl⟩

/-- The distance computed is up to the bound exactly if so many edits turn the one text into the
other, and is then the least number that does. -/
theorem edit_distance_least (a b : List Char) (max : Nat) :
    (editDistance a b max ≤ max ↔ ∃ n ≤ max, Edits a b a.length b.length n) ∧
      (editDistance a b max ≤ max →
        IsLeast {n | Edits a b a.length b.length n} (editDistance a b max)) := by
  have hleast : IsLeast {n | Edits a b a.length b.length n} (dist a b a.length b.length) :=
    ⟨edits_dist le_rfl le_rfl, fun n hn => dist_le_of_edits hn⟩
  rcases editDistance_eq a b max with heq | ⟨hover, hdist⟩
  · rw [heq]
    refine ⟨⟨fun h => ⟨_, h, hleast.1⟩, ?_⟩, fun _ => hleast⟩
    rintro ⟨n, hn, hedits⟩
    exact (hleast.2 hedits).trans hn
  · refine ⟨⟨fun h => absurd h (by omega), ?_⟩, fun h => absurd h (by omega)⟩
    rintro ⟨n, hn, hedits⟩
    have := hleast.2 hedits
    omega

/-- The least number of edits that turn `a` into `b`. -/
def IsDistance (a b : List Char) (n : Nat) : Prop :=
  IsLeast {n | Edits a b a.length b.length n} n

def maxDistance (target : List Char) : Nat := max 1 (min 3 (target.length / 3))

/-- Where the names that the compiler makes up start. -/
def internal : List Char := "__olive_".toList

/-- A candidate with its distance, which a name near enough has. -/
def hit (target cand : List Char) : Option (Nat ×ₗ List Char) :=
  if cand = target ∨ internal.isPrefixOf cand then none
  else
    let d := editDistance target cand (maxDistance target)
    if d ≤ maxDistance target then some (toLex (d, cand)) else none

def hits (target : List Char) (candidates : List (List Char)) : List (Nat ×ₗ List Char) :=
  (candidates.filterMap (hit target)).mergeSort (fun x y => decide (x ≤ y))

def unambiguous : List (Nat ×ₗ List Char) → Bool
  | [] => false
  | [_] => true
  | x :: y :: _ => decide ((ofLex x).1 < (ofLex y).1)

/-- The names suggested, and whether the first is the one that is meant. -/
def ranked (target : List Char) (candidates : List (List Char)) (n : Nat) :
    List (List Char) × Bool :=
  let sorted := hits target candidates
  ((sorted.take n).map fun x => (ofLex x).2, unambiguous sorted)

/-- The candidates that `ranked` lists. -/
def near (target cand : List Char) : Bool := (hit target cand).isSome

variable {target cand : List Char} {candidates : List (List Char)} {x : Nat ×ₗ List Char}

theorem hit_eq_some (h : hit target cand = some x) :
    (ofLex x).2 = cand ∧ IsDistance target cand (ofLex x).1 := by
  unfold hit at h
  dsimp only at h
  split_ifs at h with hskip hle
  rw [← Option.some.inj h]
  exact ⟨rfl, (edit_distance_least target cand (maxDistance target)).2 hle⟩

theorem near_iff : near target cand = true ↔ cand ≠ target ∧ ¬ internal <+: cand ∧
    ∃ n ≤ maxDistance target, Edits target cand target.length cand.length n := by
  have hleast := (edit_distance_least target cand (maxDistance target)).1
  unfold near hit
  dsimp only
  split_ifs with hskip hle
  · rw [List.isPrefixOf_iff_prefix] at hskip
    refine ⟨nofun, fun h => ?_⟩
    rcases hskip with heq | hinternal
    · exact absurd heq h.1
    · exact absurd hinternal h.2.1
  · rw [List.isPrefixOf_iff_prefix, not_or] at hskip
    exact ⟨fun _ => ⟨hskip.1, hskip.2, hleast.mp hle⟩, fun _ => rfl⟩
  · exact ⟨nofun, fun h => absurd (hleast.mpr h.2.2) hle⟩

theorem map_filterMap_hit (candidates : List (List Char)) :
    (candidates.filterMap (hit target)).map (fun x => (ofLex x).2) =
      candidates.filter (near target) := by
  induction candidates with
  | nil => rfl
  | cons cand candidates ih =>
    rw [List.filterMap_cons, List.filter_cons, near]
    cases hhit : hit target cand with
    | none => exact ih
    | some x =>
      rw [Option.isSome_some, if_pos rfl, List.map_cons, ih, (hit_eq_some hhit).1]

theorem hits_perm (candidates : List (List Char)) :
    (hits target candidates).Perm (candidates.filterMap (hit target)) :=
  List.mergeSort_perm _ _

theorem hits_pairwise (candidates : List (List Char)) :
    (hits target candidates).Pairwise (· ≤ ·) :=
  List.pairwise_mergeSort' (· ≤ ·) _

/-- The order in which the candidates come does not matter. -/
theorem hits_eq_of_perm {candidates' : List (List Char)} (h : candidates'.Perm candidates) :
    hits target candidates' = hits target candidates := by
  have hperm : (hits target candidates').Perm (hits target candidates) :=
    ((hits_perm candidates').trans (h.filterMap _)).trans (hits_perm candidates).symm
  exact hperm.eq_of_pairwise' (hits_pairwise candidates') (hits_pairwise candidates)

theorem unambiguous_iff {sorted : List (Nat ×ₗ List Char)} (h : sorted.Pairwise (· ≤ ·)) :
    unambiguous sorted = true ↔
      ∃ x rest, sorted = x :: rest ∧ ∀ y ∈ rest, (ofLex x).1 < (ofLex y).1 := by
  rcases sorted with _ | ⟨x, _ | ⟨y, rest⟩⟩
  · exact ⟨nofun, fun ⟨_, _, heq, _⟩ => nomatch heq⟩
  · exact ⟨fun _ => ⟨x, [], rfl, nofun⟩, fun _ => rfl⟩
  · have hrest := (List.pairwise_cons.mp (List.pairwise_cons.mp h).2).1
    rw [unambiguous, decide_eq_true_eq]
    constructor
    · intro hlt
      refine ⟨x, y :: rest, rfl, fun z hz => ?_⟩
      rcases List.mem_cons.mp hz with rfl | hz
      · exact hlt
      · have hyz : y ≤ z := hrest z hz
        rw [Prod.Lex.le_iff] at hyz
        omega
    · rintro ⟨x', rest', heq, hall⟩
      obtain ⟨rfl, rfl⟩ := List.cons.inj heq
      exact hall y (List.mem_cons_self ..)

/-- The names suggested are the first of those near enough, in the order of their distances and then
of the names, whatever order they came in; the first is taken for the one meant exactly if each
other candidate near enough is farther away, so never where it was given twice. -/
theorem ranked_suggests (target : List Char) (candidates : List (List Char)) (n : Nat) :
    (∀ cand, near target cand = true ↔ cand ≠ target ∧ ¬ internal <+: cand ∧
      ∃ n ≤ maxDistance target, Edits target cand target.length cand.length n) ∧
    ∃ order : List (Nat ×ₗ List Char),
      (order.map fun x => (ofLex x).2).Perm (candidates.filter (near target)) ∧
      (∀ x ∈ order, IsDistance target (ofLex x).2 (ofLex x).1) ∧
      order.Pairwise (· ≤ ·) ∧
      (∀ candidates', candidates'.Perm candidates →
        (ranked target candidates' n).1 = (order.take n).map fun x => (ofLex x).2) ∧
      ∀ candidates', candidates'.Perm candidates →
        ((ranked target candidates' n).2 = true ↔
          ∃ x rest, order = x :: rest ∧ ∀ y ∈ rest, (ofLex x).1 < (ofLex y).1) := by
  refine ⟨fun cand => near_iff, hits target candidates, ?_, fun x hx => ?_,
    hits_pairwise candidates, fun candidates' hperm => ?_, fun candidates' hperm => ?_⟩
  · rw [← map_filterMap_hit]
    exact (hits_perm candidates).map _
  · obtain ⟨cand, _, hhit⟩ := List.mem_filterMap.mp ((hits_perm candidates).mem_iff.mp hx)
    rw [(hit_eq_some hhit).1]
    exact (hit_eq_some hhit).2
  · rw [ranked, hits_eq_of_perm hperm]
  · rw [ranked, hits_eq_of_perm hperm]
    exact unambiguous_iff (hits_pairwise candidates)

end Suggest

end Olive
