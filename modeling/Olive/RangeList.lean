import Olive.Progression
import Olive.WrappingInt

/-! `olive_range_list` against the elements of Python's `range`. -/

namespace Olive

open Progression I64

namespace RangeList

/-- `olive_list_new`: as many zeros, none where a `Vec` cannot hold that many words. -/
def oliveListNew (len : Int) : Option (List Int) :=
  if 0 ≤ len ∧ 8 * len < 2 ^ 63 then some (List.replicate len.toNat 0) else none

/-- The number of elements that the range has, none where an operator stops the program. -/
def rangeCount (start stop inclusive step : Int) : Option Int :=
  let count :=
    if 0 < step then
      let last := if inclusive ≠ 0 then wrappingAdd stop 1 else stop
      (checkedSub step 1).bind fun short =>
        checkedDiv (wrappingAdd (wrappingSub last start) short) step
    else
      let last := if inclusive ≠ 0 then wrappingSub stop 1 else stop
      (checkedAdd step 1).bind fun short =>
        checkedDiv (wrappingAdd (wrappingSub last start) short) step
  count.map (max · 0)

def oliveRangeList (start stop inclusive step : Int) : Option (List Int) :=
  (rangeCount start stop inclusive step).bind fun count =>
    (oliveListNew count).map fun list =>
      (List.range count.toNat).foldl
        (fun list i => list.set i (wrappingAdd start (wrappingMul i step))) list

/-- The bound that the elements of a range lie strictly before. -/
def pyLast (stop inclusive step : Int) : Int :=
  if inclusive ≠ 0 then (if 0 < step then stop + 1 else stop - 1) else stop

/-- `range(start, last, step)`. -/
def pyRange (start stop inclusive step : Int) : List Int :=
  terms start (pyLast stop inclusive step) step

/-- The numerator that the count is the quotient of. -/
def numerator (start stop inclusive step : Int) : Int :=
  pyLast stop inclusive step - start + (if 0 < step then step - 1 else step + 1)

variable {start stop inclusive step : Int}

theorem foldl_set {α : Type} (f : Nat → α) (list : List α) {n : Nat} (h : n ≤ list.length) :
    (List.range n).foldl (fun list i => list.set i (f i)) list =
      (List.range n).map f ++ list.drop n := by
  induction n with
  | zero => rfl
  | succ n ih =>
    have hlen : ((List.range n).map f).length = n := by simp
    rw [List.range_succ, List.foldl_append, ih (by omega), List.map_append, List.append_assoc,
      List.foldl_cons, List.foldl_nil, List.set_append_right _ _ hlen.le, hlen, Nat.sub_self,
      List.drop_eq_getElem_cons (show n < list.length by omega), List.set_cons_zero]
    rfl

theorem max_tdiv_of_pos {x p : Int} (hp : 0 < p) : max (x.tdiv p) 0 = (x / p).toNat := by
  rcases le_or_gt 0 x with hx | hx
  · rw [Int.tdiv_eq_ediv_of_nonneg hx]
    omega
  · have hneg : 0 ≤ (-x).tdiv p := Int.tdiv_nonneg (by omega) hp.le
    rw [Int.neg_tdiv] at hneg
    have hneg' : x / p < 0 := Int.ediv_neg_of_neg_of_pos hx hp
    omega

theorem max_tdiv_of_neg {x p : Int} (hp : p < 0) : max (x.tdiv p) 0 = (-x / -p).toNat := by
  rw [← max_tdiv_of_pos (by omega : 0 < -p), Int.neg_tdiv_neg]

/-- Two numerators far apart do not have the same count. -/
theorem quotient_eq_iff {x y p : Int} (hp : 0 < p)
    (h : x = y ∨ (x ≤ y - p ∧ p ≤ y) ∨ (y < 0 ∧ p ≤ x)) :
    (x / p).toNat = (y / p).toNat ↔ x = y := by
  constructor
  · intro heq
    rcases h with h | ⟨hlow, hy⟩ | ⟨hy, hx⟩
    · exact h
    · have hless : x / p ≤ (y - p) / p := Int.ediv_le_ediv hp hlow
      have hone : 1 ≤ y / p := (Int.le_ediv_iff_mul_le hp).mpr (by omega)
      rw [show y - p = y + -1 * p by ring, Int.add_mul_ediv_right _ _ hp.ne'] at hless
      omega
    · have hneg : y / p < 0 := Int.ediv_neg_of_neg_of_pos hy hp
      have hone : 1 ≤ x / p := (Int.le_ediv_iff_mul_le hp).mpr (by omega)
      omega
  · rintro rfl
    rfl

/-- The elements before the bound, counted by the numerator. -/
def quotient (step x : Int) : Nat :=
  if 0 < step then (x / step).toNat else (-x / -step).toNat

theorem max_tdiv_eq {x : Int} (h : step ≠ 0) : max (x.tdiv step) 0 = quotient step x := by
  unfold quotient
  split_ifs with hpos
  · exact max_tdiv_of_pos hpos
  · exact max_tdiv_of_neg (by omega)

theorem count_eq_quotient : count start (pyLast stop inclusive step) step =
    quotient step (numerator start stop inclusive step) := by
  unfold count quotient numerator
  split_ifs with hpos
  · congr 2
    omega
  · congr 2
    omega

theorem rangeCount_eq (hstep : I64.Fits step) :
    rangeCount start stop inclusive step =
      (checkedDiv (wrap (numerator start stop inclusive step)) step).map (max · 0) := by
  unfold I64.Fits at hstep
  unfold rangeCount numerator pyLast
  by_cases hpos : 0 < step
  · have hshort : checkedSub step 1 = some (step - 1) := if_pos ⟨by omega, by omega⟩
    simp only [if_pos hpos, hshort, Option.bind_some, wrappingAdd, wrappingSub]
    split_ifs
    · rw [wrap_sub_wrap_left, wrap_add_wrap_left]
    · rw [wrap_add_wrap_left]
  · have hshort : checkedAdd step 1 = some (step + 1) := if_pos ⟨by omega, by omega⟩
    simp only [if_neg hpos, hshort, Option.bind_some, wrappingAdd, wrappingSub]
    split_ifs
    · rw [wrap_sub_wrap_left, wrap_add_wrap_left]
    · rw [wrap_add_wrap_left]

/-- Where the numerator does not fit, the one that wrapped is a multiple of 2^64 away, and on the
other side of the bound. -/
theorem quotient_wrap_iff (hstart : I64.Fits start) (hstop : I64.Fits stop) (hstep : I64.Fits step)
    (h : step ≠ 0) :
    quotient step (wrap (numerator start stop inclusive step)) =
        quotient step (numerator start stop inclusive step) ↔
      I64.Fits (numerator start stop inclusive step) := by
  have hfits : wrap (numerator start stop inclusive step) = numerator start stop inclusive step ↔
      I64.Fits (numerator start stop inclusive step) := by
    constructor
    · intro heq
      rw [← heq]
      exact wrap_fits _
    · exact wrap_of_fits
  rw [← hfits]
  unfold I64.Fits at hstart hstop hstep
  unfold quotient
  by_cases hpos : 0 < step
  · have hlow : step - 2 ^ 64 ≤ numerator start stop inclusive step := by
      unfold numerator pyLast
      split_ifs <;> omega
    have hhigh : numerator start stop inclusive step < 2 ^ 63 + 2 ^ 64 := by
      unfold numerator pyLast
      split_ifs <;> omega
    rw [if_pos hpos, if_pos hpos]
    apply quotient_eq_iff hpos
    unfold wrap
    omega
  · have hlow : -2 ^ 63 - 2 ^ 64 < numerator start stop inclusive step := by
      unfold numerator pyLast
      split_ifs <;> omega
    have hhigh : numerator start stop inclusive step ≤ 2 ^ 64 + step := by
      unfold numerator pyLast
      split_ifs <;> omega
    have hneg : step < 0 := lt_of_le_of_ne (not_lt.mp hpos) h
    rw [if_neg hpos, if_neg hpos, quotient_eq_iff (by omega)]
    · omega
    · unfold wrap
      omega

theorem term_fits (hstart : I64.Fits start) (hstop : I64.Fits stop) {i : Nat}
    (hi : i < count start (pyLast stop inclusive step) step) : I64.Fits (start + i * step) := by
  have hmem : start + i * step ∈ pyRange start stop inclusive step :=
    mem_terms.mpr ⟨i, rfl, lt_count_iff.mp hi⟩
  have hlast : (0 < step → pyLast stop inclusive step ≤ stop + 1) ∧
      (step < 0 → stop - 1 ≤ pyLast stop inclusive step) := by
    unfold pyLast
    constructor <;> intro _ <;> (split_ifs <;> omega)
  have hbetween := mem_terms_bounds hmem
  unfold I64.Fits at hstart hstop ⊢
  rcases before_of_mem hmem with ⟨hpos, _⟩ | ⟨hneg, _⟩
  · have := hbetween.1 hpos
    have := hlast.1 hpos
    omega
  · have := hbetween.2 hneg
    have := hlast.2 hneg
    omega

theorem wrapped_term {x : Int} (hfits : I64.Fits (start + x * step)) :
    wrappingAdd start (wrappingMul x step) = start + x * step := by
  unfold wrappingAdd wrappingMul
  rw [wrap_add_wrap_right, wrap_of_fits hfits]

theorem oliveRangeList_eq_some {list : List Int} (hstep : I64.Fits step) (h : step ≠ 0)
    (hlist : oliveRangeList start stop inclusive step = some list) :
    list = (List.range (quotient step (wrap (numerator start stop inclusive step)))).map
      fun i : Nat => wrappingAdd start (wrappingMul i step) := by
  unfold oliveRangeList at hlist
  rw [rangeCount_eq hstep] at hlist
  obtain ⟨n, hn, hlist⟩ := Option.bind_eq_some_iff.mp hlist
  obtain ⟨q, hq, rfl⟩ := Option.map_eq_some_iff.mp hn
  unfold checkedDiv at hq
  split_ifs at hq
  cases hq
  rw [max_tdiv_eq h] at hlist
  obtain ⟨zeros, hzeros, rfl⟩ := Option.map_eq_some_iff.mp hlist
  unfold oliveListNew at hzeros
  split_ifs at hzeros
  cases hzeros
  rw [Int.toNat_natCast, foldl_set _ _ (by simp)]
  simp

theorem rangeCount_of_fits (hstep : I64.Fits step) (h : step ≠ 0)
    (hfits : I64.Fits (numerator start stop inclusive step))
    (hfew : count start (pyLast stop inclusive step) step ≤ 2 ^ 32) :
    rangeCount start stop inclusive step =
      some (count start (pyLast stop inclusive step) step : Int) := by
  rw [rangeCount_eq hstep, wrap_of_fits hfits, count_eq_quotient, ← max_tdiv_eq h]
  rw [count_eq_quotient] at hfew
  have hmax := max_tdiv_eq (x := numerator start stop inclusive step) h
  have hsmall := Int.natAbs_tdiv_le_natAbs (numerator start stop inclusive step) step
  have hquot : I64.Fits ((numerator start stop inclusive step).tdiv step) := by
    unfold I64.Fits at hfits ⊢
    omega
  unfold checkedDiv
  rw [if_neg (by simp [h, hquot])]
  rfl

theorem oliveRangeList_of_fits (hstart : I64.Fits start) (hstop : I64.Fits stop)
    (hstep : I64.Fits step) (h : step ≠ 0) (hfits : I64.Fits (numerator start stop inclusive step))
    (hfew : count start (pyLast stop inclusive step) step ≤ 2 ^ 32) :
    oliveRangeList start stop inclusive step = some (pyRange start stop inclusive step) := by
  unfold oliveRangeList
  rw [rangeCount_of_fits hstep h hfits hfew]
  have hnew : oliveListNew (count start (pyLast stop inclusive step) step) =
      some (List.replicate (count start (pyLast stop inclusive step) step) 0) := by
    unfold oliveListNew
    rw [if_pos (by omega), Int.toNat_natCast]
  rw [Option.bind_some, hnew, Option.map_some, Int.toNat_natCast, foldl_set _ _ (by simp)]
  simp only [List.drop_replicate, Nat.sub_self, List.replicate_zero, List.append_nil,
    Option.some.injEq]
  apply List.map_congr_left
  intro i hi
  exact wrapped_term (term_fits hstart hstop (List.mem_range.mp hi))

/-- The list is Python's range exactly where the numerator of the count does not wrap. -/
theorem oliveRangeList_python_iff (hstart : I64.Fits start) (hstop : I64.Fits stop)
    (hstep : I64.Fits step)
    (h : step ≠ 0) (hfew : (pyRange start stop inclusive step).length ≤ 2 ^ 32) :
    oliveRangeList start stop inclusive step = some (pyRange start stop inclusive step) ↔
      I64.Fits (numerator start stop inclusive step) := by
  rw [pyRange, length_terms] at hfew
  constructor
  · intro hlist
    have hlen := congrArg List.length (oliveRangeList_eq_some hstep h hlist)
    rw [pyRange, length_terms, List.length_map, List.length_range, count_eq_quotient] at hlen
    exact (quotient_wrap_iff hstart hstop hstep h).mp hlen.symm
  · intro hfits
    exact oliveRangeList_of_fits hstart hstop hstep h hfits hfew

theorem oliveRangeList_counts_down :
    oliveRangeList 7 1 1 (-3) = some (pyRange 7 1 1 (-3)) :=
  (oliveRangeList_python_iff (by decide) (by decide) (by decide) (by decide) (by decide)).mpr
    (by decide)

/-- From the largest word up to the smallest there is nothing, and the runtime makes one element. -/
theorem oliveRangeList_wraps :
    pyRange (2 ^ 63 - 1) (-2 ^ 63) 0 1 = [] ∧
      oliveRangeList (2 ^ 63 - 1) (-2 ^ 63) 0 1 = some [2 ^ 63 - 1] ∧
      oliveRangeList (2 ^ 63 - 1) (-2 ^ 63) 0 1 ≠ some (pyRange (2 ^ 63 - 1) (-2 ^ 63) 0 1) := by
  decide

end RangeList

end Olive
