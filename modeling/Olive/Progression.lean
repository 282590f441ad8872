import Mathlib.Data.List.Range
import Mathlib.Data.List.Pairwise
import Mathlib.Tactic.Ring
import Mathlib.Tactic.Linarith

/-! Arithmetic progressions of integers that end before a bound, in the direction of their step. -/

namespace Progression

/-- `x` lies before `stop` for a walk of steps `step`. -/
def Before (step x stop : Int) : Prop :=
  (0 < step ∧ x < stop) ∨ (step < 0 ∧ stop < x)

instance (step x stop : Int) : Decidable (Before step x stop) :=
  inferInstanceAs (Decidable (_ ∨ _))

/-- How many of `start`, `start + step`, … lie before `stop`. -/
def count (start stop step : Int) : Nat :=
  if 0 < step then ((stop - start + step - 1) / step).toNat
  else ((start - stop - step - 1) / -step).toNat

def terms (start stop step : Int) : List Int :=
  (List.range (count start stop step)).map fun k : Nat => start + k * step

variable {start stop step x : Int} {k : Nat}

theorem lt_quotient_iff {d p : Int} (hp : 0 < p) : k < ((d + p - 1) / p).toNat ↔ k * p < d := by
  have hcast : k < ((d + p - 1) / p).toNat ↔ (k : Int) + 1 ≤ (d + p - 1) / p := by omega
  rw [hcast, Int.le_ediv_iff_mul_le hp, add_mul, one_mul]
  omega

theorem lt_count_iff : k < count start stop step ↔ Before step (start + k * step) stop := by
  unfold count Before
  rcases lt_trichotomy step 0 with hneg | rfl | hpos
  · rw [if_neg (by omega), show start - stop - step - 1 = (start - stop) + -step - 1 by ring,
      lt_quotient_iff (by omega), mul_neg]
    omega
  · simp
  · rw [if_pos hpos, lt_quotient_iff hpos]
    omega

theorem mem_terms : x ∈ terms start stop step ↔
    ∃ k : Nat, x = start + k * step ∧ Before step x stop := by
  simp only [terms, List.mem_map, List.mem_range, lt_count_iff]
  constructor
  · rintro ⟨k, hk, rfl⟩
    exact ⟨k, rfl, hk⟩
  · rintro ⟨k, rfl, hk⟩
    exact ⟨k, hk, rfl⟩

@[simp] theorem length_terms : (terms start stop step).length = count start stop step := by
  simp [terms]

theorem count_eq_zero_iff : count start stop step = 0 ↔ ¬ Before step start stop := by
  have h : 0 < count start stop step ↔ Before step (start + (0 : Nat) * step) stop := lt_count_iff
  simp only [Nat.cast_zero, zero_mul, add_zero] at h
  rw [← h]
  omega

theorem terms_of_not_before (h : ¬ Before step start stop) : terms start stop step = [] := by
  rw [← List.length_eq_zero_iff, length_terms]
  exact count_eq_zero_iff.mpr h

theorem count_step (h : Before step start stop) :
    count start stop step = count (start + step) stop step + 1 := by
  apply Nat.le_antisymm
  · by_contra hlt
    have hk : count (start + step) stop step + 1 < count start stop step := by omega
    rw [lt_count_iff] at hk
    have hnot : ¬ count (start + step) stop step < count (start + step) stop step := by omega
    rw [lt_count_iff] at hnot
    apply hnot
    have heq : start + step + (count (start + step) stop step : Int) * step =
        start + ((count (start + step) stop step + 1 : Nat) : Int) * step := by push_cast; ring
    rwa [heq]
  · rw [Nat.succ_le_iff, lt_count_iff]
    cases hc : count (start + step) stop step with
    | zero => simpa using h
    | succ m =>
      have hm : m < count (start + step) stop step := by omega
      rw [lt_count_iff] at hm
      have heq : start + ((m + 1 : Nat) : Int) * step = start + step + (m : Int) * step := by
        push_cast; ring
      rwa [heq]

/-- One round of a loop that counts from `start` in steps. -/
theorem terms_of_before (h : Before step start stop) :
    terms start stop step = start :: terms (start + step) stop step := by
  unfold terms
  rw [count_step h, List.range_succ_eq_map, List.map_cons, List.map_map]
  congr 1
  · simp
  · apply List.map_congr_left
    intro k _
    simp only [Function.comp_apply]
    push_cast
    ring

theorem before_of_mem (h : x ∈ terms start stop step) : Before step x stop := by
  obtain ⟨_, _, hx⟩ := mem_terms.mp h
  exact hx

theorem terms_increasing (hstep : 0 < step) : (terms start stop step).Pairwise (· < ·) := by
  unfold terms
  rw [List.pairwise_map]
  refine List.pairwise_lt_range.imp ?_
  intro a b hab
  have : (a : Int) * step < b * step := by
    apply mul_lt_mul_of_pos_right _ hstep
    exact_mod_cast hab
  omega

theorem terms_decreasing (hstep : step < 0) : (terms start stop step).Pairwise (· > ·) := by
  unfold terms
  rw [List.pairwise_map]
  refine List.pairwise_lt_range.imp ?_
  intro a b hab
  have : (b : Int) * step < a * step := by
    apply mul_lt_mul_of_neg_right _ hstep
    exact_mod_cast hab
  omega

/-- A walk down from `start` never goes past it, nor one up. -/
theorem mem_terms_bounds (h : x ∈ terms start stop step) :
    (0 < step → start ≤ x ∧ x < stop) ∧ (step < 0 → stop < x ∧ x ≤ start) := by
  obtain ⟨k, rfl, hb⟩ := mem_terms.mp h
  constructor
  · intro hpos
    have : 0 ≤ (k : Int) * step := by positivity
    rcases hb with ⟨_, hb⟩ | ⟨hneg, _⟩ <;> omega
  · intro hneg
    have : (k : Int) * step ≤ 0 := mul_nonpos_of_nonneg_of_nonpos (by positivity) (by omega)
    rcases hb with ⟨hpos, _⟩ | ⟨_, hb⟩ <;> omega

theorem count_le_span : count start stop step ≤ (max (stop - start) (start - stop)).toNat := by
  cases hc : count start stop step with
  | zero => omega
  | succ m =>
    have hm : m < count start stop step := by omega
    rcases lt_count_iff.mp hm with ⟨hpos, hb⟩ | ⟨hneg, hb⟩
    · have : (m : Int) * 1 ≤ m * step := by
        apply mul_le_mul_of_nonneg_left _ (by positivity)
        omega
      omega
    · have : (m : Int) * step ≤ m * (-1) := by
        apply mul_le_mul_of_nonneg_left _ (by positivity)
        omega
      omega

end Progression
