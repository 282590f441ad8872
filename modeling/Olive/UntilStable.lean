import Mathlib.Data.Finset.Card

/-! Loops of the shape `loop { changed = false; ...; if !changed { break } }`, over any state. -/

namespace UntilStable

variable {σ ι α : Type}

/-- Repeats `body` until a round reports no change, with a budget of rounds. -/
def untilStable (body : σ → σ × Bool) : Nat → σ → Option σ
  | 0, _ => none
  | fuel + 1, s => if (body s).2 then untilStable body fuel (body s).1 else some (body s).1

/-- One round over `items`; the flag records whether some item reported a change. -/
def sweep (step : σ → ι → σ × Bool) (items : List ι) (s : σ) : σ × Bool :=
  items.foldl (fun acc i => ((step acc.1 i).1, acc.2 || (step acc.1 i).2)) (s, false)

theorem untilStable_succ {body : σ → σ × Bool} (fuel : Nat) (s : σ) :
    untilStable body (fuel + 1) s =
      if (body s).2 then untilStable body fuel (body s).1 else some (body s).1 := rfl

theorem untilStable_last {body : σ → σ × Bool} {P : σ → Prop} (hP : ∀ s, P s → P (body s).1)
    {fuel : Nat} {s r : σ} (h0 : P s) (h : untilStable body fuel s = some r) :
    ∃ t, P t ∧ body t = (r, false) := by
  induction fuel generalizing s with
  | zero => cases h
  | succ fuel ih =>
    rw [untilStable_succ] at h
    split at h
    next => exact ih (hP s h0) h
    next hb =>
      refine ⟨s, h0, ?_⟩
      rw [← Option.some.inj h]
      exact Prod.ext rfl (by simpa using hb)

theorem untilStable_invariant {body : σ → σ × Bool} {P : σ → Prop} (hP : ∀ s, P s → P (body s).1)
    {fuel : Nat} {s r : σ} (h0 : P s) (h : untilStable body fuel s = some r) : P r := by
  obtain ⟨t, ht, hb⟩ := untilStable_last hP h0 h
  have hr := hP t ht
  rwa [hb] at hr

/-- A larger budget changes nothing once the loop has returned. -/
theorem untilStable_mono {body : σ → σ × Bool} {fuel more : Nat} {s r : σ} (hle : fuel ≤ more)
    (h : untilStable body fuel s = some r) : untilStable body more s = some r := by
  induction fuel generalizing more s with
  | zero => cases h
  | succ fuel ih =>
    obtain ⟨n, rfl⟩ : ∃ n, more = n + 1 := ⟨more - 1, by omega⟩
    rw [untilStable_succ] at h ⊢
    split at h
    next hb => rw [if_pos hb]; exact ih (by omega) h
    next hb => rw [if_neg hb]; exact h

theorem untilStable_unique {body : σ → σ × Bool} {fuel fuel' : Nat} {s r r' : σ}
    (h : untilStable body fuel s = some r) (h' : untilStable body fuel' s = some r') : r = r' := by
  rcases Nat.le_total fuel fuel' with hle | hle
  · exact Option.some.inj ((untilStable_mono hle h).symm.trans h')
  · exact Option.some.inj (h.symm.trans (untilStable_mono hle h'))

/-- A loop whose every changing round decreases a measure returns within its budget. -/
theorem untilStable_exists {body : σ → σ × Bool} {P : σ → Prop} (μ : σ → Nat)
    (hP : ∀ s, P s → P (body s).1)
    (hμ : ∀ s, P s → (body s).2 = true → μ (body s).1 < μ s)
    {fuel : Nat} {s : σ} (h0 : P s) (hf : μ s < fuel) : ∃ r, untilStable body fuel s = some r := by
  induction fuel generalizing s with
  | zero => omega
  | succ fuel ih =>
    rw [untilStable_succ]
    split
    next hb =>
      have hd := hμ s h0 hb
      exact ih (hP s h0) (by omega)
    next => exact ⟨_, rfl⟩

/-- A loop with an invariant under which every round reports a change never returns. -/
theorem untilStable_diverges {body : σ → σ × Bool} {P : σ → Prop}
    (hP : ∀ s, P s → (body s).2 = true ∧ P (body s).1) {s : σ} (h0 : P s) (fuel : Nat) :
    untilStable body fuel s = none := by
  induction fuel generalizing s with
  | zero => rfl
  | succ fuel ih =>
    have hb := hP s h0
    rw [untilStable_succ, if_pos hb.1, ih hb.2]

/-- The loop only depends on what its rounds do to a view of the state. -/
theorem untilStable_map {τ : Type} {body : σ → σ × Bool} {view : σ → τ} {body' : τ → τ × Bool}
    (hbody : ∀ s, body' (view s) = (view (body s).1, (body s).2)) (fuel : Nat) (s : σ) :
    (untilStable body fuel s).map view = untilStable body' fuel (view s) := by
  induction fuel generalizing s with
  | zero => rfl
  | succ fuel ih =>
    rw [untilStable_succ, untilStable_succ, hbody]
    by_cases hb : (body s).2 = true
    · simpa [hb] using ih (body s).1
    · simp [hb]

theorem sweep_nil (step : σ → ι → σ × Bool) (s : σ) : sweep step [] s = (s, false) := rfl

theorem sweep_concat (step : σ → ι → σ × Bool) (items : List ι) (i : ι) (s : σ) :
    sweep step (items ++ [i]) s =
      ((step (sweep step items s).1 i).1,
        (sweep step items s).2 || (step (sweep step items s).1 i).2) := by
  simp [sweep]

theorem sweep_cons (step : σ → ι → σ × Bool) (i : ι) (items : List ι) (s : σ) :
    (sweep step (i :: items) s).1 = (sweep step items (step s i).1).1 := by
  induction items using List.reverseRecOn with
  | nil => rfl
  | append_singleton items j ih =>
    rw [← List.cons_append, sweep_concat, sweep_concat, ih]

theorem sweep_invariant {step : σ → ι → σ × Bool} {P : σ → Prop} {items : List ι}
    (hP : ∀ s, ∀ i ∈ items, P s → P (step s i).1) {s : σ} (h0 : P s) :
    P (sweep step items s).1 := by
  induction items using List.reverseRecOn with
  | nil => exact h0
  | append_singleton items i ih =>
    rw [sweep_concat]
    exact hP _ i (by simp) (ih (fun s j hj => hP s j (by simp [hj])))

/-- A round only depends on what its items do to a view of the state. -/
theorem sweep_map {τ : Type} {step : σ → ι → σ × Bool} {step' : τ → ι → τ × Bool} {view : σ → τ}
    (h : ∀ s i, step' (view s) i = (view (step s i).1, (step s i).2)) (items : List ι) (s : σ) :
    sweep step' items (view s) = (view (sweep step items s).1, (sweep step items s).2) := by
  induction items using List.reverseRecOn with
  | nil => rfl
  | append_singleton items i ih =>
    rw [sweep_concat, sweep_concat, ih]
    simp only [h]

/-- A round that reports no change ran every item on the unchanged state. -/
theorem sweep_unchanged {step : σ → ι → σ × Bool}
    (hkeep : ∀ s i, (step s i).2 = false → (step s i).1 = s) {items : List ι} {s : σ}
    (h : (sweep step items s).2 = false) :
    (sweep step items s).1 = s ∧ ∀ i ∈ items, step s i = (s, false) := by
  induction items using List.reverseRecOn with
  | nil => exact ⟨rfl, by simp⟩
  | append_singleton items i ih =>
    rw [sweep_concat] at h ⊢
    simp only [Bool.or_eq_false_iff] at h
    obtain ⟨hs, hall⟩ := ih h.1
    rw [hs] at h ⊢
    have hi := hkeep s i h.2
    refine ⟨hi, ?_⟩
    intro j hj
    rcases List.mem_append.mp hj with hj | hj
    · exact hall j hj
    · obtain rfl : j = i := by simpa using hj
      exact Prod.ext hi h.2

/-- Facts that no item removes, and that an item adds to when it reports a change. -/
theorem sweep_grows {step : σ → ι → σ × Bool} {P : σ → Prop} (facts : σ → Finset α)
    {items : List ι} (hP : ∀ s, ∀ i ∈ items, P s → P (step s i).1)
    (hle : ∀ s, ∀ i ∈ items, P s → facts s ⊆ facts (step s i).1)
    (hlt : ∀ s, ∀ i ∈ items, P s → (step s i).2 = true → facts s ⊂ facts (step s i).1)
    {s : σ} (h0 : P s) :
    facts s ⊆ facts (sweep step items s).1 ∧
      ((sweep step items s).2 = true → facts s ⊂ facts (sweep step items s).1) := by
  induction items using List.reverseRecOn with
  | nil => exact ⟨Finset.Subset.refl _, by simp [sweep]⟩
  | append_singleton items i ih =>
    obtain ⟨h1, h2⟩ := ih (fun s j hj => hP s j (by simp [hj]))
      (fun s j hj => hle s j (by simp [hj])) (fun s j hj => hlt s j (by simp [hj]))
    have hp : P (sweep step items s).1 :=
      sweep_invariant (fun s j hj => hP s j (by simp [hj])) h0
    rw [sweep_concat]
    refine ⟨h1.trans (hle _ i (by simp) hp), ?_⟩
    intro hc
    rcases Bool.or_eq_true_iff.mp hc with hc | hc
    · exact (h2 hc).trans_subset (hle _ i (by simp) hp)
    · exact h1.trans_ssubset (hlt _ i (by simp) hp hc)

/-- A loop that only adds facts of a finite universe returns within that many rounds and one. -/
theorem untilStable_exists_of_grows [DecidableEq α] {body : σ → σ × Bool} {P : σ → Prop}
    {univ : Finset α} (facts : σ → Finset α) (hP : ∀ s, P s → P (body s).1)
    (huniv : ∀ s, P s → facts s ⊆ univ)
    (hlt : ∀ s, P s → (body s).2 = true → facts s ⊂ facts (body s).1)
    {fuel : Nat} {s : σ} (h0 : P s) (hf : univ.card < fuel) :
    ∃ r, untilStable body fuel s = some r := by
  refine untilStable_exists (fun s => (univ \ facts s).card) hP ?_ h0
    ((Finset.card_le_card Finset.sdiff_subset).trans_lt hf)
  intro s hs hc
  obtain ⟨x, hxt, hxs⟩ := Finset.exists_of_ssubset (hlt s hs hc)
  apply Finset.card_lt_card
  refine ⟨Finset.sdiff_subset_sdiff le_rfl (hlt s hs hc).1, ?_⟩
  intro h
  have hx := h (Finset.mem_sdiff.mpr ⟨huniv _ (hP s hs) hxt, hxs⟩)
  exact (Finset.mem_sdiff.mp hx).2 hxt

end UntilStable
