import Mathlib.Data.Finset.Prod
import Olive.Ir
import Olive.UntilStable

/-! The alias fixpoint of `params_escaping`: which parameters a local may hold. -/

namespace Olive

open UntilStable

/-- The bit of parameter `i`; the parameters past 63 share the top bit. -/
def paramBit (i : Nat) : Word := BitVec.twoPow 64 (min i 63)

def seedTaint (f : MirFunction) : List Word :=
  (List.range f.locals.length).map fun l =>
    if 1 ≤ l ∧ l < f.argCount + 1 then paramBit (l - 1) else 0

def aliasStep (taint : List Word) (stmt : Statement) : List Word × Bool :=
  match stmt.copy? with
  | some (dst, src) =>
    if dst < taint.length ∧ src < taint.length then
      let merged := taint.getD dst 0 ||| taint.getD src 0
      if merged = taint.getD dst 0 then (taint, false) else (taint.set dst merged, true)
    else (taint, false)
  | none => (taint, false)

def aliasLoop (f : MirFunction) (fuel : Nat) : Option (List Word) :=
  untilStable (sweep aliasStep f.statements) fuel (seedTaint f)

/-- Parameter `i` flows into local `l` along some chain of copies and moves of `f`. -/
inductive ParamFlows (f : MirFunction) (i : Nat) : Local → Prop where
  | param : i < f.argCount → i + 1 < f.locals.length → ParamFlows f i (i + 1)
  | copy {stmt : Statement} {dst src : Local} : ParamFlows f i src → stmt ∈ f.statements →
      stmt.copy? = some (dst, src) → dst < f.locals.length → ParamFlows f i dst

theorem ParamFlows.declared {f : MirFunction} {i : Nat} {l : Local} (h : ParamFlows f i l) :
    l < f.locals.length := by
  cases h <;> assumption

theorem ParamFlows.lt_argCount {f : MirFunction} {i : Nat} {l : Local} (h : ParamFlows f i l) :
    i < f.argCount := by
  induction h with
  | param hi _ => exact hi
  | copy _ _ _ _ ih => exact ih

/-- The bits of a taint vector, as pairs of a local and a bit position. -/
def taintFacts (taint : List Word) : Finset (Nat × Nat) :=
  (Finset.range taint.length ×ˢ Finset.range 64).filter
    fun p => (taint.getD p.1 0).getLsbD p.2 = true

theorem getD_set {α : Type} (xs : List α) (k j : Nat) (a d : α) :
    (xs.set k a).getD j d = if k = j ∧ j < xs.length then a else xs.getD j d := by
  simp only [List.getD_eq_getElem?_getD, List.getElem?_set]
  by_cases hk : k = j
  · subst k
    by_cases hj : j < xs.length <;> simp [hj]
  · simp [hk]

theorem aliasStep_length (taint : List Word) (stmt : Statement) :
    (aliasStep taint stmt).1.length = taint.length := by
  unfold aliasStep
  split
  · split
    · dsimp only
      split <;> simp
    · rfl
  · rfl

theorem aliasStep_unchanged {taint : List Word} {stmt : Statement}
    (h : (aliasStep taint stmt).2 = false) : (aliasStep taint stmt).1 = taint := by
  unfold aliasStep at h ⊢
  split
  · split
    · dsimp only
      split
      · rfl
      next hm => simp_all
    · rfl
  · rfl

/-- A step that reports a change merges the source's bits into the destination's. -/
theorem aliasStep_changed {taint : List Word} {stmt : Statement}
    (h : (aliasStep taint stmt).2 = true) :
    ∃ dst src, stmt.copy? = some (dst, src) ∧ dst < taint.length ∧ src < taint.length ∧
      taint.getD dst 0 ||| taint.getD src 0 ≠ taint.getD dst 0 ∧
      (aliasStep taint stmt).1 = taint.set dst (taint.getD dst 0 ||| taint.getD src 0) := by
  unfold aliasStep at h ⊢
  split at h
  next dst src hc =>
    split at h
    next hb =>
      dsimp only at h
      split at h
      · simp at h
      next hm =>
        exact ⟨dst, src, hc, hb.1, hb.2, hm, by rw [if_pos hb, if_neg hm]⟩
    · simp at h
  · simp at h

theorem aliasStep_keeps {taint : List Word} {stmt : Statement} {l b : Nat}
    (h : (taint.getD l 0).getLsbD b = true) :
    ((aliasStep taint stmt).1.getD l 0).getLsbD b = true := by
  cases hc : (aliasStep taint stmt).2 with
  | false => rwa [aliasStep_unchanged hc]
  | true =>
    obtain ⟨dst, src, _, _, _, _, he⟩ := aliasStep_changed hc
    rw [he, getD_set]
    split
    next hd => rw [hd.1, BitVec.getLsbD_or, h, Bool.true_or]
    next => exact h

theorem taintFacts_subset_of_keeps {taint taint' : List Word} (hl : taint'.length = taint.length)
    (hk : ∀ l b, (taint.getD l 0).getLsbD b = true → (taint'.getD l 0).getLsbD b = true) :
    taintFacts taint ⊆ taintFacts taint' := by
  intro p hp
  simp only [taintFacts, Finset.mem_filter, hl] at hp ⊢
  exact ⟨hp.1, hk _ _ hp.2⟩

theorem aliasStep_facts_ssubset {taint : List Word} {stmt : Statement}
    (h : (aliasStep taint stmt).2 = true) :
    taintFacts taint ⊂ taintFacts (aliasStep taint stmt).1 := by
  refine ⟨taintFacts_subset_of_keeps (aliasStep_length _ _) (fun _ _ => aliasStep_keeps), ?_⟩
  obtain ⟨dst, src, _, hd, _, hm, he⟩ := aliasStep_changed h
  intro hs
  apply hm
  apply BitVec.eq_of_getLsbD_eq
  intro b hb
  rw [BitVec.getLsbD_or]
  by_contra hne
  have hsrc : (taint.getD src 0).getLsbD b = true := by
    cases hx : (taint.getD src 0).getLsbD b <;> simp_all
  have hdst : ¬(taint.getD dst 0).getLsbD b = true := by
    intro hx; simp only [hx, Bool.true_or, not_true_eq_false] at hne
  have hnew : (dst, b) ∈ taintFacts (aliasStep taint stmt).1 := by
    simp only [taintFacts, Finset.mem_filter, Finset.mem_product, Finset.mem_range, he, getD_set,
      List.length_set, BitVec.getLsbD_or, hsrc, Bool.or_true, hd, hb, and_self, ↓reduceIte]
  have hold := hs hnew
  simp only [taintFacts, Finset.mem_filter] at hold
  exact hdst hold.2

/-- 64 rounds a local, and a last one that finds nothing to do, are enough. -/
theorem aliasLoop_returns (f : MirFunction) : ∃ taint,
    aliasLoop f (64 * f.locals.length + 1) = some taint := by
  let P := fun taint : List Word => taint.length = f.locals.length
  have hP : ∀ taint, ∀ stmt ∈ f.statements, P taint → P (aliasStep taint stmt).1 :=
    fun taint stmt _ h => (aliasStep_length taint stmt).trans h
  have huniv : ∀ taint, P taint →
      taintFacts taint ⊆ Finset.range f.locals.length ×ˢ Finset.range 64 := by
    intro taint h
    rw [taintFacts, show taint.length = f.locals.length from h]
    exact Finset.filter_subset _ _
  have hgrows := fun taint => sweep_grows (s := taint) taintFacts hP
    (fun _ _ _ _ => taintFacts_subset_of_keeps (aliasStep_length _ _) fun _ _ => aliasStep_keeps)
    (fun _ _ _ _ => aliasStep_facts_ssubset)
  refine untilStable_exists_of_grows taintFacts (fun _ h => sweep_invariant hP h) huniv
    (fun taint h => (hgrows taint h).2) (show P (seedTaint f) by simp [P, seedTaint]) ?_
  simp only [Finset.card_product, Finset.card_range]
  omega

/-- `taint` once its loop has ended: the parameters each local may alias. -/
def aliasTaint (f : MirFunction) : List Word :=
  (aliasLoop f (64 * f.locals.length + 1)).get
    (Option.isSome_iff_exists.mpr (aliasLoop_returns f))

theorem aliasTaint_eq (f : MirFunction) :
    aliasLoop f (64 * f.locals.length + 1) = some (aliasTaint f) :=
  (Option.some_get _).symm

theorem paramBit_getLsbD (i b : Nat) : (paramBit i).getLsbD b = true ↔ min i 63 = b := by
  simp only [paramBit, BitVec.getLsbD_twoPow]
  constructor
  · intro h
    simp at h
    omega
  · intro h
    simp
    omega

theorem seedTaint_bit {f : MirFunction} {l b : Nat} :
    ((seedTaint f).getD l 0).getLsbD b = true ↔
      ∃ i, min i 63 = b ∧ i < f.argCount ∧ i + 1 < f.locals.length ∧ l = i + 1 := by
  simp only [seedTaint, List.getD_eq_getElem?_getD, List.getElem?_map]
  by_cases hl : l < f.locals.length
  · rw [List.getElem?_range hl]
    simp only [Option.map_some, Option.getD_some]
    split
    next hp =>
      rw [paramBit_getLsbD]
      constructor
      · intro h
        exact ⟨l - 1, h, by omega, by omega, by omega⟩
      · rintro ⟨i, hi, _, _, rfl⟩
        exact hi
    next hp =>
      constructor
      · intro h
        simp at h
      · rintro ⟨i, _, ha, _, rfl⟩
        exact absurd ⟨by omega, by omega⟩ hp
  · have hn : (List.range f.locals.length)[l]? = none := by simpa using hl
    constructor
    · intro h
      simp [hn] at h
    · rintro ⟨i, _, _, hb, rfl⟩
      exact absurd hb hl

/-- Every bit is the bit of a parameter that flows there: kept by each step. -/
def TaintJustified (f : MirFunction) (taint : List Word) : Prop :=
  taint.length = f.locals.length ∧
    ∀ l b, (taint.getD l 0).getLsbD b = true → ∃ i, min i 63 = b ∧ ParamFlows f i l

theorem aliasStep_justified {f : MirFunction} {taint : List Word} {stmt : Statement}
    (hs : stmt ∈ f.statements) (h : TaintJustified f taint) :
    TaintJustified f (aliasStep taint stmt).1 := by
  refine ⟨(aliasStep_length _ _).trans h.1, ?_⟩
  intro l b hb
  cases hc : (aliasStep taint stmt).2 with
  | false => exact h.2 l b (by rwa [aliasStep_unchanged hc] at hb)
  | true =>
    obtain ⟨dst, src, hcopy, hd, _, _, he⟩ := aliasStep_changed hc
    rw [he, getD_set] at hb
    split at hb
    next hl =>
      rw [BitVec.getLsbD_or, Bool.or_eq_true] at hb
      rcases hb with hb | hb
      · exact h.2 l b (hl.1 ▸ hb)
      · obtain ⟨i, hi, hf⟩ := h.2 src b hb
        exact ⟨i, hi, hl.1 ▸ ParamFlows.copy hf hs hcopy (h.1 ▸ hd)⟩
    next => exact h.2 l b hb

/-- A local carries a bit exactly when a parameter of that bit flows into it. -/
theorem aliasTaint_bit {f : MirFunction} {l b : Nat} :
    ((aliasTaint f).getD l 0).getLsbD b = true ↔ ∃ i, min i 63 = b ∧ ParamFlows f i l := by
  let P := fun taint => TaintJustified f taint ∧
    ∀ l b, ((seedTaint f).getD l 0).getLsbD b = true → (taint.getD l 0).getLsbD b = true
  have hP : ∀ taint, P taint → P (sweep aliasStep f.statements taint).1 := by
    intro taint h
    refine sweep_invariant (P := P) ?_ h
    intro taint stmt hs h
    exact ⟨aliasStep_justified hs h.1, fun l b hb => aliasStep_keeps (h.2 l b hb)⟩
  have h0 : P (seedTaint f) := by
    refine ⟨⟨by simp [seedTaint], ?_⟩, fun _ _ h => h⟩
    intro l b hb
    obtain ⟨i, hi, ha, hl, rfl⟩ := seedTaint_bit.mp hb
    exact ⟨i, hi, .param ha hl⟩
  obtain ⟨taint, ht, hlast⟩ := untilStable_last hP h0 (aliasTaint_eq f)
  obtain ⟨hsame, hall⟩ := sweep_unchanged (fun _ _ => aliasStep_unchanged) (congrArg Prod.snd hlast)
  have he : aliasTaint f = taint := by rw [← hsame, hlast]
  rw [he]
  refine ⟨ht.1.2 l b, ?_⟩
  rintro ⟨i, hi, hf⟩
  induction hf with
  | param ha hl => exact ht.2 _ _ (seedTaint_bit.mpr ⟨i, hi, ha, hl, rfl⟩)
  | @copy stmt dst src hsrc hs hc hd ih =>
    have hstep := hall stmt hs
    unfold aliasStep at hstep
    simp only [hc, ht.1.1, hd, hsrc.declared, and_self, ↓reduceIte] at hstep
    split at hstep
    next hm =>
      rw [← hm, BitVec.getLsbD_or, ih, Bool.or_true]
    next => simp at hstep

end Olive
