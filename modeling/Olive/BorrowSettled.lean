import Mathlib.Data.Fintype.Prod
import Olive.BorrowLoop

/-! Functions on which the marking loop of `returns_borrow` ends, with exactly the marks that
walks bring. -/

namespace Olive

open UntilStable RoundRobin Flags FlowGraph

/-- Every block is reachable from the entry, and none takes the mark off a parameter. -/
structure Settled (f : MirFunction) : Prop where
  reachable : ∀ bb < f.basicBlocks.length, ∃ before, Walk f.successors before bb
  keeps : ∀ bb, flagFacts (paramFlags f) ⊆
    flagFacts (borrowStmts ∅ (f.stmtsAt bb) (paramFlags f))

variable {f : MirFunction} {borrowed : Finset String}

theorem Settled.params_subset (hf : Settled f) {state : List Bool}
    (hlen : state.length = f.locals.length) (h : flagFacts (paramFlags f) ⊆ flagFacts state)
    (bb : BasicBlockId) :
    flagFacts (paramFlags f) ⊆ flagFacts (borrowStmts borrowed (f.stmtsAt bb) state) :=
  (hf.keeps bb).trans
    (borrowStmts_mono (Finset.empty_subset _) _ ((paramFlags_length f).trans hlen.symm) h)

theorem Settled.params_replayed (hf : Settled f) (before : List BasicBlockId) :
    flagFacts (paramFlags f) ⊆ flagFacts (replayed f borrowed before) := by
  induction before using List.reverseRecOn with
  | nil => exact Finset.Subset.refl _
  | append_singleton before p ih =>
    rw [replayed_concat]
    exact hf.params_subset (by simp) (hf.params_subset (replayed_length _ _ _) ih p) p

/-- The seed lies below the first recomputation of every block. -/
theorem Settled.seed_growing (hf : Settled f) :
    Growing stateMarks (borrowFlow f borrowed) (borrowSeed f) := by
  intro bb v hv
  obtain ⟨hb, rfl⟩ := borrowSeed_at hv
  have hentry : flagFacts (paramFlags f) ⊆
      flagFacts (borrowEntry f borrowed (borrowSeed f) bb) := by
    intro l hl
    rw [mem_borrowEntry (borrowSeed_valued f)]
    obtain ⟨before, hw⟩ := hf.reachable bb hb
    cases hw with
    | entry => exact .inr ⟨rfl, hl⟩
    | step _ hs =>
      obtain ⟨v, hget, _⟩ := blockState_of_pred (borrowSeed_valued f) hs
      obtain ⟨_, rfl⟩ := borrowSeed_at hget
      refine .inl ⟨_, hs, ?_⟩
      rw [edgeFlags_eq hget]
      exact hf.params_subset (paramFlags_length f) (Finset.Subset.refl _) _ hl
  exact stateMarks_subset_iff.mpr ⟨hentry,
    hf.params_subset (borrowEntry_length (borrowSeed_valued f) bb) hentry bb⟩

/-- Every mark of the block states comes along some walk whose blocks run twice. -/
def MarksJustified (f : MirFunction) (borrowed : Finset String)
    (states : List (List Bool × List Bool)) : Prop :=
  ∀ (bb : Nat) v, states[bb]? = some v →
    (∀ l ∈ flagFacts v.1, ∃ before, Walk f.successors before bb ∧
      l ∈ flagFacts (replayed f borrowed before)) ∧
    (∀ l ∈ flagFacts v.2, ∃ before, Walk f.successors before bb ∧
      l ∈ flagFacts (borrowStmts borrowed (f.stmtsAt bb) (replayed f borrowed before)))

/-- Running `stmts` moves a justification along: the new mark has one old mark, or none. -/
theorem justified_borrowStmts {bb : BasicBlockId} {state : List Bool} {stmts : List Statement}
    {run : List BasicBlockId → List Bool} (hrun : ∀ before, (run before).length = f.locals.length)
    (hreach : ∃ before, Walk f.successors before bb) (hlen : state.length = f.locals.length)
    (h : ∀ l ∈ flagFacts state, ∃ before, Walk f.successors before bb ∧ l ∈ flagFacts (run before)) :
    ∀ l ∈ flagFacts (borrowStmts borrowed stmts state), ∃ before, Walk f.successors before bb ∧
      l ∈ flagFacts (borrowStmts borrowed stmts (run before)) := by
  intro l hl
  have hlt : l < f.locals.length := by simpa [hlen] using lt_length_of_mem hl
  obtain ⟨source, hs⟩ := borrowStmts_source borrowed stmts hlt
  have hsource := (hs state hlen).mp hl
  cases source with
  | const marked =>
    obtain ⟨before, hw⟩ := hreach
    exact ⟨before, hw, (hs _ (hrun before)).mpr hsource⟩
  | copied src =>
    obtain ⟨before, hw, hsrc⟩ := h src hsource
    exact ⟨before, hw, (hs _ (hrun before)).mpr hsrc⟩

theorem Settled.flow_justified (hf : Settled f) {states : List (List Bool × List Bool)}
    (hv : Valued (BlockState f) f.basicBlocks.length states)
    (h : MarksJustified f borrowed states) {bb : BasicBlockId} (hb : bb < f.basicBlocks.length) :
    (∀ l ∈ flagFacts (borrowEntry f borrowed states bb), ∃ before, Walk f.successors before bb ∧
      l ∈ flagFacts (replayed f borrowed before)) ∧
    (∀ l ∈ flagFacts (borrowFlow f borrowed states bb).2, ∃ before, Walk f.successors before bb ∧
      l ∈ flagFacts (borrowStmts borrowed (f.stmtsAt bb) (replayed f borrowed before))) := by
  have hentry : ∀ l ∈ flagFacts (borrowEntry f borrowed states bb), ∃ before,
      Walk f.successors before bb ∧ l ∈ flagFacts (replayed f borrowed before) := by
    intro l hl
    rcases (mem_borrowEntry hv).mp hl with ⟨p, hs, hp⟩ | ⟨rfl, hp⟩
    · obtain ⟨v, hget, hstate⟩ := blockState_of_pred hv hs
      rw [edgeFlags_eq hget] at hp
      obtain ⟨before, hw, hm⟩ := justified_borrowStmts (by simp)
        (hf.reachable p (MirFunction.lt_of_successors hs)) hstate.2 (h p v hget).2 l hp
      exact ⟨before ++ [p], hw.step hs, by rwa [replayed_concat]⟩
    · exact ⟨[], .entry, hp⟩
  exact ⟨hentry, justified_borrowStmts (replayed_length f borrowed) (hf.reachable bb hb)
    (borrowEntry_length hv bb) hentry⟩

theorem Settled.loop_justified (hf : Settled f) {fuel : Nat}
    {states : List (List Bool × List Bool)} (h : borrowLoop f borrowed fuel = some states) :
    MarksJustified f borrowed states := by
  let P := fun s : List (List Bool × List Bool) =>
    Valued (BlockState f) f.basicBlocks.length s ∧ MarksJustified f borrowed s
  have h0 : P (borrowSeed f) := by
    refine ⟨borrowSeed_valued f, ?_⟩
    intro bb v hv
    obtain ⟨hb, rfl⟩ := borrowSeed_at hv
    obtain ⟨before, hw⟩ := hf.reachable bb hb
    exact ⟨fun l hl => ⟨before, hw, hf.params_replayed before hl⟩, fun l hl => ⟨before, hw,
      hf.params_subset (replayed_length _ _ _) (hf.params_replayed before) bb hl⟩⟩
  refine (solve_invariant (P := P) ?_ h0 h).2
  intro s b hs
  refine ⟨relax_valued (fun _ b hv => borrowFlow_valid hv b) hs.1, ?_⟩
  intro c v hc
  rcases relax_value hc with ⟨rfl, rfl⟩ | hold
  · have hb := (List.getElem?_eq_some_iff.mp hc).1
    rw [relax_length, hs.1.length] at hb
    exact hf.flow_justified hs.1 hs.2 hb
  · exact hs.2 c v hold

/-- Rounds enough for every function of at most this many blocks and locals. -/
def borrowBudget (f : MirFunction) : Nat := f.basicBlocks.length * (2 * f.locals.length) + 1

theorem Settled.loop_exists (hf : Settled f) (borrowed : Finset String) {fuel : Nat}
    (hfuel : borrowBudget f ≤ fuel) :
    ∃ states, borrowLoop f borrowed fuel = some states := by
  refine solve_exists stateMarks (BlockState f) (Finset.univ ×ˢ Finset.range f.locals.length)
    ?_ ?_
    (fun _ b hv => borrowFlow_valid hv b) (fun _ _ b hv hv' hle => borrowFlow_mono hv hv' hle b)
    (borrowSeed_valued f) hf.seed_growing ?_
  · rintro v hv ⟨out, l⟩ hl
    simp only [Finset.mem_product, Finset.mem_univ, true_and, Finset.mem_range]
    cases out
    · exact hv.1 ▸ lt_length_of_mem (mem_stateMarks.1.mp hl)
    · exact hv.2 ▸ lt_length_of_mem (mem_stateMarks.2.mp hl)
  · rintro v v' hv hv' he
    have h1 := stateMarks_subset_iff.mp he.subset
    have h2 := stateMarks_subset_iff.mp he.symm.subset
    exact Prod.ext
      (flagFacts_injective (hv.1.trans hv'.1.symm) (Finset.Subset.antisymm h1.1 h2.1))
      (flagFacts_injective (hv.2.trans hv'.2.symm) (Finset.Subset.antisymm h1.2 h2.2))
  · simp only [Finset.card_product, Finset.card_univ, Fintype.card_bool, Finset.card_range]
    simp only [borrowBudget] at hfuel
    omega

/-- On a settled function the analysis answers, and says whether some walk brings a borrow. -/
theorem Settled.returnsBorrow_exact (hf : Settled f) (borrowed : Finset String) {fuel : Nat}
    (hfuel : borrowBudget f ≤ fuel) :
    ∃ result, returnsBorrow f borrowed fuel = some result ∧
      (result = true ↔ f.returnsMove = true ∧ BorrowsReplayed f borrowed) := by
  cases hm : f.returnsMove with
  | false => exact ⟨false, by simp [returnsBorrow, hm], by simp⟩
  | true =>
    obtain ⟨states, hloop⟩ := hf.loop_exists borrowed hfuel
    obtain ⟨result, hresult, hiff⟩ := returnsBorrow_eq hm hloop
    refine ⟨result, hresult, ?_, fun h => returnsBorrow_of_replayed hresult hm h.2⟩
    intro h
    obtain ⟨bb, hret, hmark⟩ := hiff.mp h
    obtain ⟨before, hw, hrun⟩ := (hf.flow_justified (borrowLoop_stable hloop).1
      (hf.loop_justified hloop) (MirFunction.lt_of_returnsAt hret)).2 0 hmark
    exact ⟨rfl, before, bb, hw, hret, hrun⟩

end Olive
