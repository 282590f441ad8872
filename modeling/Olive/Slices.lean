import Olive.Progression
import Olive.StrMethods

/-! `slice_indices` against the index sequence of Python's slices. -/

namespace Olive

open Progression

namespace StrMethods

/-- The operands of a slice, the presence of each read from the bits of `flags`. -/
def Slice.ofFlags (start stop step : Int) (flags : BitVec 64) : Slice where
  start := start
  stop := stop
  step := step
  hasStart := flags &&& 1 != 0
  hasStop := flags &&& 2 != 0
  hasStep := flags &&& 4 != 0

/-- `slice_indices`, with as many rounds of its loop as `fuel` allows. -/
def sliceIndices (fuel : Nat) (len : Int) (s : Slice) : Option (List Int) :=
  (sliceBounds len s).bind fun (start, stop, step) => sliceWalk stop step fuel start

/-- The element at an index that the runtime takes for unsigned, none past the end. -/
def readAt {α : Type} (items : List α) (i : Int) : Option α :=
  if i < 0 then none else items[i.toNat]?

/-- `olive_list_getslice`, none where it reads past the elements. -/
def oliveListGetslice {α : Type} (items : List α) (s : Slice) : Option (List α) :=
  (sliceIndices (items.length + 1) items.length s).bind fun idxs => idxs.mapM (readAt items)

namespace Slice

variable (s : Slice)

/-- The step, one where it is left out. -/
def stride : Int :=
  if s.hasStep then s.step else 1

/-- Where Python has a bound of a sequence of `n` elements: a negative one counts from the end, and
no bound is farther out than the place before the first or after the last element. -/
def place (n v : Int) : Int :=
  let counted := if v < 0 then n + v else v
  if 0 < s.stride then max 0 (min n counted) else max (-1) (min (n - 1) counted)

/-- The end of a sequence that a walk begins at, and the one it goes to. -/
def first (n : Int) : Int :=
  if 0 < s.stride then 0 else n - 1

def last (n : Int) : Int :=
  if 0 < s.stride then n else -1

def pyStart (n : Int) : Int :=
  if s.hasStart then s.place n s.start else s.first n

def pyStop (n : Int) : Int :=
  if s.hasStop then s.place n s.stop else s.last n

/-- `range(*slice(start, stop, step).indices(n))`. -/
def pyIndices (n : Int) : List Int :=
  terms (s.pyStart n) (s.pyStop n) s.stride

/-- The elements that Python selects. -/
def pyItems {α : Type} (items : List α) : List α :=
  (s.pyIndices items.length).filterMap (readAt items)

end Slice

variable {s : Slice} {n : Int}

theorem sliceBounds_eq (hn : 0 ≤ n) (h : s.stride ≠ 0) :
    sliceBounds n s = some (s.pyStart n, s.pyStop n, s.stride) := by
  have hstep : (if s.hasStep then s.step else 1) = s.stride := rfl
  unfold sliceBounds Slice.pyStart Slice.pyStop Slice.place Slice.first Slice.last
  simp only [hstep, if_neg h, Option.some.injEq, Prod.mk.injEq, and_true]
  constructor <;> (split_ifs <;> omega)

/-- The loop walks the progression, and fails where the index after one of its terms does not fit. -/
theorem sliceWalk_eq {stop step i : Int} {fuel : Nat} (hfuel : count i stop step < fuel) :
    sliceWalk stop step fuel i =
      if ∀ x ∈ terms i stop step, -2 ^ 63 ≤ x + step ∧ x + step < 2 ^ 63
      then some (terms i stop step) else none := by
  induction fuel generalizing i with
  | zero => omega
  | succ fuel ih =>
    unfold sliceWalk
    by_cases hb : Before step i stop
    · rw [if_pos (show (0 < step ∧ i < stop) ∨ (step < 0 ∧ stop < i) from hb), terms_of_before hb]
      have hlt : count (i + step) stop step < fuel := by
        have := count_step hb
        omega
      by_cases hfits : -2 ^ 63 ≤ i + step ∧ i + step < 2 ^ 63
      · rw [if_pos hfits, ih hlt]
        simp only [List.forall_mem_cons]
        split_ifs with hall hboth hboth
        · rfl
        · exact absurd ⟨hfits, hall⟩ hboth
        · exact absurd hboth.2 hall
        · rfl
      · rw [if_neg hfits, if_neg]
        intro hall
        exact hfits (hall i List.mem_cons_self)
    · rw [if_neg (show ¬ ((0 < step ∧ i < stop) ∨ (step < 0 ∧ stop < i)) from hb),
        terms_of_not_before hb]
      simp

theorem sliceIndices_eq {fuel : Nat} (hn : 0 ≤ n) (h : s.stride ≠ 0)
    (hfuel : (s.pyIndices n).length < fuel) :
    sliceIndices fuel n s =
      if ∀ x ∈ s.pyIndices n, -2 ^ 63 ≤ x + s.stride ∧ x + s.stride < 2 ^ 63
      then some (s.pyIndices n) else none := by
  unfold sliceIndices
  rw [sliceBounds_eq hn h]
  apply sliceWalk_eq
  simpa [Slice.pyIndices] using hfuel

theorem pyStart_bounds (hn : 0 ≤ n) :
    (0 < s.stride → 0 ≤ s.pyStart n ∧ s.pyStart n ≤ n) ∧
      (s.stride < 0 → -1 ≤ s.pyStart n ∧ s.pyStart n ≤ n - 1) := by
  unfold Slice.pyStart Slice.place Slice.first
  dsimp only
  constructor <;> intro h <;> (split_ifs <;> omega)

theorem pyStop_bounds (hn : 0 ≤ n) :
    (0 < s.stride → 0 ≤ s.pyStop n ∧ s.pyStop n ≤ n) ∧
      (s.stride < 0 → -1 ≤ s.pyStop n ∧ s.pyStop n ≤ n - 1) := by
  unfold Slice.pyStop Slice.place Slice.last
  dsimp only
  constructor <;> intro h <;> (split_ifs <;> omega)

theorem pyIndices_inBounds (hn : 0 ≤ n) {i : Int} (hi : i ∈ s.pyIndices n) : 0 ≤ i ∧ i < n := by
  have hstart := pyStart_bounds (s := s) hn
  have hstop := pyStop_bounds (s := s) hn
  have hbetween := mem_terms_bounds hi
  rcases before_of_mem hi with ⟨hpos, _⟩ | ⟨hneg, _⟩
  · have := hbetween.1 hpos
    have := hstart.1 hpos
    have := hstop.1 hpos
    omega
  · have := hbetween.2 hneg
    have := hstart.2 hneg
    have := hstop.2 hneg
    omega

theorem length_pyIndices_le (hn : 0 ≤ n) : (s.pyIndices n).length ≤ n.toNat := by
  have hstart := pyStart_bounds (s := s) hn
  have hstop := pyStop_bounds (s := s) hn
  have hspan : count (s.pyStart n) (s.pyStop n) s.stride ≤
      (max (s.pyStop n - s.pyStart n) (s.pyStart n - s.pyStop n)).toNat := count_le_span
  rw [Slice.pyIndices, length_terms]
  rcases lt_trichotomy s.stride 0 with hneg | hzero | hpos
  · have := hstart.2 hneg
    have := hstop.2 hneg
    omega
  · have hnone : ¬ Before s.stride (s.pyStart n) (s.pyStop n) := by
      rintro (⟨h, _⟩ | ⟨h, _⟩) <;> omega
    rw [count_eq_zero_iff.mpr hnone]
    omega
  · have := hstart.1 hpos
    have := hstop.1 hpos
    omega

theorem mapM_readAt {α : Type} {items : List α} {idxs : List Int}
    (h : ∀ i ∈ idxs, 0 ≤ i ∧ i < items.length) :
    idxs.mapM (readAt items) = some (idxs.filterMap (readAt items)) := by
  induction idxs with
  | nil => rfl
  | cons i idxs ih =>
    obtain ⟨hlo, hhi⟩ := h i List.mem_cons_self
    have hlt : i.toNat < items.length := by omega
    have hread : readAt items i = some items[i.toNat] := by
      unfold readAt
      rw [if_neg (by omega), List.getElem?_eq_getElem]
    rw [List.mapM_cons, hread, List.filterMap_cons_some hread,
      ih fun j hj => h j (List.mem_cons_of_mem _ hj)]
    rfl

/-- A contiguous walk reads a range. -/
theorem filterMap_readAt_range {α : Type} {items : List α} {start stop : Int} (hstart : 0 ≤ start)
    (hstop : stop ≤ items.length) :
    (terms start stop 1).filterMap (readAt items) =
      (items.take stop.toNat).drop start.toNat := by
  generalize hc : count start stop 1 = c
  induction c generalizing start with
  | zero =>
    have hnot := count_eq_zero_iff.mp hc
    have hle : stop ≤ start := by
      by_contra hlt
      exact hnot (Or.inl ⟨by omega, by omega⟩)
    rw [terms_of_not_before hnot, List.drop_eq_nil_of_le]
    · rfl
    · rw [List.length_take]
      omega
  | succ c ih =>
    have hb : Before 1 start stop := by
      by_contra hnot
      rw [count_eq_zero_iff.mpr hnot] at hc
      omega
    have hlt : start < stop := by
      rcases hb with ⟨_, hlt⟩ | ⟨h, _⟩ <;> omega
    have hlen : start.toNat < (items.take stop.toNat).length := by
      rw [List.length_take]
      omega
    have hread : readAt items start = some (items.take stop.toNat)[start.toNat] := by
      unfold readAt
      rw [if_neg (by omega), List.getElem_take, List.getElem?_eq_getElem]
    have hnext : count (start + 1) stop 1 = c := by
      have := count_step hb
      omega
    rw [terms_of_before hb, List.filterMap_cons_some hread, ih (by omega) hnext,
      List.drop_eq_getElem_cons hlen]
    congr 2
    omega

/-- Slicing a sequence of `n` elements as Python does: the indices however long the loop may run,
and the reads of lists, bytes and strings at them. -/
structure MatchesPython (s : Slice) (n : Nat) : Prop where
  returns : ∀ fuel, n < fuel → sliceIndices fuel n s = some (s.pyIndices n)
  inBounds : ∀ i ∈ s.pyIndices n, 0 ≤ i ∧ i < n
  ascending : 0 < s.stride → (s.pyIndices n).Pairwise (· < ·)
  descending : s.stride < 0 → (s.pyIndices n).Pairwise (· > ·)
  lists : ∀ items : List (BitVec 64), items.length = n →
    oliveListGetslice items s = some (s.pyItems items)
  bytes : ∀ items : List UInt8, items.length = n → sliceOf items s = some (s.pyItems items)
  strings : ∀ text : List Char, text.length = n → sliceOf text s = some (s.pyItems text)

section

variable {n : Nat}

theorem sliceIndices_of_fits {fuel : Nat} (hstep : -2 ^ 63 ≤ s.step) (h : s.stride ≠ 0)
    (hfits : ∀ i ∈ s.pyIndices n, i + s.stride < 2 ^ 63) (hfuel : n < fuel) :
    sliceIndices fuel n s = some (s.pyIndices n) := by
  have hlen := length_pyIndices_le (s := s) (Int.natCast_nonneg n)
  rw [sliceIndices_eq (Int.natCast_nonneg n) h (by omega), if_pos]
  intro i hi
  have hpos := (pyIndices_inBounds (Int.natCast_nonneg n) hi).1
  have hlow : -2 ^ 63 ≤ s.stride := by
    unfold Slice.stride
    split_ifs <;> omega
  exact ⟨by omega, hfits i hi⟩

theorem mapM_pyIndices {α : Type} (items : List α) :
    (s.pyIndices items.length).mapM (readAt items) = some (s.pyItems items) :=
  mapM_readAt fun _ hi => pyIndices_inBounds (Int.natCast_nonneg _) hi

theorem sliceOf_of_fits {α : Type} {items : List α} (hstep : -2 ^ 63 ≤ s.step) (h : s.stride ≠ 0)
    (hfits : ∀ i ∈ s.pyIndices items.length, i + s.stride < 2 ^ 63) :
    sliceOf items s = some (s.pyItems items) := by
  have hread := sliceIndices_of_fits hstep h hfits (Nat.lt_succ_self _)
  have hbounds := sliceBounds_eq (s := s) (Int.natCast_nonneg items.length) h
  unfold sliceIndices at hread
  rw [hbounds] at hread
  unfold sliceOf
  rw [hbounds]
  simp only [Option.bind_some] at hread ⊢
  by_cases hone : s.stride = 1
  · have hstart := (pyStart_bounds (s := s) (Int.natCast_nonneg items.length)).1 (by omega)
    have hstop := (pyStop_bounds (s := s) (Int.natCast_nonneg items.length)).1 (by omega)
    rw [if_pos hone, Slice.pyItems, Slice.pyIndices, hone,
      filterMap_readAt_range hstart.1 hstop.2]
  · rw [if_neg hone, hread]
    exact mapM_pyIndices items

/-- Slicing is Python's exactly where no selected index is so near the largest word that the step
leaves it. -/
theorem sliceIndices_python_iff {start stop step : Int} {flags : BitVec 64}
    (hstep : -2 ^ 63 ≤ step) (h : (Slice.ofFlags start stop step flags).stride ≠ 0) :
    MatchesPython (Slice.ofFlags start stop step flags) n ↔
      ∀ i ∈ (Slice.ofFlags start stop step flags).pyIndices n,
        i + (Slice.ofFlags start stop step flags).stride < 2 ^ 63 := by
  have hstep' : -2 ^ 63 ≤ (Slice.ofFlags start stop step flags).step := hstep
  generalize Slice.ofFlags start stop step flags = s at *
  constructor
  · intro hmatch i hi
    have hlen := length_pyIndices_le (s := s) (Int.natCast_nonneg n)
    have hreturns := hmatch.returns (n + 1) (Nat.lt_succ_self n)
    rw [sliceIndices_eq (Int.natCast_nonneg n) h (by omega)] at hreturns
    split_ifs at hreturns with hall
    exact (hall i hi).2
  · intro hfits
    refine ⟨?_, ?_, terms_increasing, terms_decreasing, ?_, ?_, ?_⟩
    · intro fuel hfuel
      exact sliceIndices_of_fits hstep' h hfits hfuel
    · intro i hi
      exact pyIndices_inBounds (Int.natCast_nonneg n) hi
    · rintro items rfl
      unfold oliveListGetslice
      rw [sliceIndices_of_fits hstep' h hfits (Nat.lt_succ_self _)]
      exact mapM_pyIndices items
    · rintro items rfl
      exact sliceOf_of_fits hstep' h hfits
    · rintro text rfl
      exact sliceOf_of_fits hstep' h hfits

theorem sliceIndices_python_backwards :
    MatchesPython (Slice.ofFlags (-1) 0 (-2) 5) 5 :=
  (sliceIndices_python_iff (by decide) (by decide)).mpr (by decide)

/-- `xs[1::9223372036854775807]` of five elements: the index after 1 is past the largest word. -/
theorem sliceIndices_longest_step : ¬ MatchesPython (Slice.ofFlags 1 0 (2 ^ 63 - 1) 5) 5 := by
  intro hmatch
  have hfails : sliceIndices 6 5 (Slice.ofFlags 1 0 (2 ^ 63 - 1) 5) = none := by decide
  have hreturns := hmatch.returns 6 (by decide)
  rw [show ((5 : Nat) : Int) = 5 from rfl, hfails] at hreturns
  cases hreturns

end

end StrMethods

end Olive
