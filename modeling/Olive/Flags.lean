import Mathlib.Data.Finset.Basic
import Mathlib.Data.Finset.Range
import Mathlib.Data.Finset.Filter

/-! Flag vectors (`Vec<bool>`), read as the set of positions that are set. -/

namespace Flags

/-- The positions of `flags` that are set. -/
def flagFacts (flags : List Bool) : Finset Nat :=
  (Finset.range flags.length).filter fun i => flags[i]? = some true

variable {flags flags' : List Bool} {i k : Nat}

theorem mem_flagFacts : i ∈ flagFacts flags ↔ flags[i]? = some true := by
  simp only [flagFacts, Finset.mem_filter, Finset.mem_range, and_iff_right_iff_imp]
  intro h
  exact (List.getElem?_eq_some_iff.mp h).1

theorem lt_length_of_mem (h : i ∈ flagFacts flags) : i < flags.length :=
  (List.getElem?_eq_some_iff.mp (mem_flagFacts.mp h)).1

theorem flagFacts_subset_range : flagFacts flags ⊆ Finset.range flags.length :=
  Finset.filter_subset _ _

theorem flagFacts_injective (hlen : flags.length = flags'.length)
    (h : flagFacts flags = flagFacts flags') : flags = flags' := by
  apply List.ext_getElem hlen
  intro i h1 h2
  have hiff : flags[i] = true ↔ flags'[i] = true := by
    have hmem := Finset.ext_iff.mp h i
    simpa [mem_flagFacts, List.getElem?_eq_getElem h1, List.getElem?_eq_getElem h2] using hmem
  cases hb : flags[i] <;> cases hb' : flags'[i] <;> simp_all

theorem mem_flagFacts_set {v : Bool} : i ∈ flagFacts (flags.set k v) ↔
    if i = k then i < flags.length ∧ v = true else i ∈ flagFacts flags := by
  rw [mem_flagFacts, List.getElem?_set]
  by_cases hk : k = i
  · subst hk
    by_cases hl : k < flags.length <;> simp [hl]
  · simp [hk, Ne.symm hk, mem_flagFacts]

theorem mem_flagFacts_or (hlen : flags.length = flags'.length) :
    i ∈ flagFacts (flags.zipWith (· || ·) flags') ↔ i ∈ flagFacts flags ∨ i ∈ flagFacts flags' := by
  simp only [mem_flagFacts, List.getElem?_zipWith]
  by_cases hi : i < flags.length
  · have hi' : i < flags'.length := by omega
    simp [List.getElem?_eq_getElem hi, List.getElem?_eq_getElem hi']
  · simp [List.getElem?_eq_none (Nat.le_of_not_lt hi),
      List.getElem?_eq_none (show flags'.length ≤ i by omega)]

theorem mem_flagFacts_and :
    i ∈ flagFacts (flags.zipWith (· && ·) flags') ↔ i ∈ flagFacts flags ∧ i ∈ flagFacts flags' := by
  simp only [mem_flagFacts, List.getElem?_zipWith]
  cases flags[i]? <;> cases flags'[i]? <;> simp

theorem mem_flagFacts_replicate_true {n : Nat} :
    i ∈ flagFacts (List.replicate n true) ↔ i < n := by
  simp [mem_flagFacts, List.getElem?_replicate]

/-- The positions of `flags` that are not set. -/
def unsetFacts (flags : List Bool) : Finset Nat :=
  (Finset.range flags.length).filter fun i => i ∉ flagFacts flags

theorem unsetFacts_subset_iff (hlen : flags.length = flags'.length) :
    unsetFacts flags ⊆ unsetFacts flags' ↔ flagFacts flags' ⊆ flagFacts flags := by
  constructor
  · intro h i hi
    by_contra hn
    have hlt : i < flags.length := lt_of_lt_of_eq (lt_length_of_mem hi) hlen.symm
    have hmem := h (Finset.mem_filter.mpr ⟨Finset.mem_range.mpr hlt, hn⟩)
    exact (Finset.mem_filter.mp hmem).2 hi
  · intro h i hi
    obtain ⟨hr, hn⟩ := Finset.mem_filter.mp hi
    exact Finset.mem_filter.mpr ⟨hlen ▸ hr, fun hi => hn (h hi)⟩

theorem unsetFacts_injective (hlen : flags.length = flags'.length)
    (h : unsetFacts flags = unsetFacts flags') : flags = flags' := by
  apply flagFacts_injective hlen
  apply Finset.Subset.antisymm
  · exact (unsetFacts_subset_iff hlen.symm).mp h.symm.subset
  · exact (unsetFacts_subset_iff hlen).mp h.subset

theorem flagFacts_replicate_false {n : Nat} : flagFacts (List.replicate n false) = ∅ := by
  ext i
  simp [mem_flagFacts, List.getElem?_replicate]

end Flags
