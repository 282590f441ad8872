import Olive.BorrowedReturns

/-! The block states `returns_borrow` iterates: what they contain, and when they settle. -/

namespace Olive

open UntilStable RoundRobin Flags FlowGraph

/-- The entry and out marks of a block as one set. -/
def stateMarks (state : List Bool × List Bool) : Finset (Bool × Nat) :=
  (flagFacts state.1).image (false, ·) ∪ (flagFacts state.2).image (true, ·)

def BlockState (f : MirFunction) (state : List Bool × List Bool) : Prop :=
  state.1.length = f.locals.length ∧ state.2.length = f.locals.length

theorem mem_stateMarks {state : List Bool × List Bool} {l : Nat} :
    ((false, l) ∈ stateMarks state ↔ l ∈ flagFacts state.1) ∧
      ((true, l) ∈ stateMarks state ↔ l ∈ flagFacts state.2) := by
  simp [stateMarks]

theorem stateMarks_subset_iff {state state' : List Bool × List Bool} :
    stateMarks state ⊆ stateMarks state' ↔
      flagFacts state.1 ⊆ flagFacts state'.1 ∧ flagFacts state.2 ⊆ flagFacts state'.2 := by
  constructor
  · intro h
    exact ⟨fun l hl => mem_stateMarks.1.mp (h (mem_stateMarks.1.mpr hl)),
      fun l hl => mem_stateMarks.2.mp (h (mem_stateMarks.2.mpr hl))⟩
  · rintro ⟨h1, h2⟩ ⟨out, l⟩ hm
    cases out
    · exact mem_stateMarks.1.mpr (h1 (mem_stateMarks.1.mp hm))
    · exact mem_stateMarks.2.mpr (h2 (mem_stateMarks.2.mp hm))

theorem orFlags_length {state other : List Bool} (h : state.length = other.length) :
    (orFlags state other).length = state.length := by
  simp [orFlags, h]

section Equations

variable {f : MirFunction} {borrowed : Finset String} {states : List (List Bool × List Bool)}

theorem edgeFlags_eq {p : BasicBlockId} {v : List Bool × List Bool} (h : states[p]? = some v) :
    edgeFlags f borrowed states p = borrowStmts borrowed (f.stmtsAt p) v.2 := by
  simp [edgeFlags, List.getD_eq_getElem?_getD, h]

theorem blockState_of_pred (hv : Valued (BlockState f) f.basicBlocks.length states)
    {p bb : BasicBlockId} (hs : bb ∈ f.successors p) :
    ∃ v, states[p]? = some v ∧ BlockState f v := by
  have hp : p < states.length := hv.length ▸ MirFunction.lt_of_successors hs
  exact ⟨states[p], List.getElem?_eq_getElem hp, hv.values p _ (List.getElem?_eq_getElem hp)⟩

theorem edgeFlags_length (hv : Valued (BlockState f) f.basicBlocks.length states)
    {bb : BasicBlockId} : ∀ p ∈ f.predecessors bb,
      (edgeFlags f borrowed states p).length = f.locals.length := by
  intro p hp
  obtain ⟨v, hget, hstate⟩ := blockState_of_pred hv (MirFunction.mem_predecessors.mp hp)
  rw [edgeFlags_eq hget, borrowStmts_length, hstate.2]

theorem orFold_facts (edge : BasicBlockId → List Bool) {n : Nat} (ps : List BasicBlockId)
    (hedge : ∀ p ∈ ps, (edge p).length = n) {init : List Bool} (hinit : init.length = n) :
    (ps.foldl (fun state p => orFlags state (edge p)) init).length = n ∧
      ∀ l, l ∈ flagFacts (ps.foldl (fun state p => orFlags state (edge p)) init) ↔
        l ∈ flagFacts init ∨ ∃ p ∈ ps, l ∈ flagFacts (edge p) := by
  induction ps generalizing init with
  | nil => simp [hinit]
  | cons p ps ih =>
    have hp : init.length = (edge p).length := hinit.trans (hedge p (by simp)).symm
    have hor : (orFlags init (edge p)).length = n := (orFlags_length hp).trans hinit
    obtain ⟨hl, hm⟩ := ih (fun q hq => hedge q (by simp [hq])) hor
    refine ⟨hl, fun l => (hm l).trans ?_⟩
    rw [orFlags, mem_flagFacts_or hp]
    simp [or_assoc]

theorem borrowEntry_length (hv : Valued (BlockState f) f.basicBlocks.length states) (bb : BasicBlockId) :
    (borrowEntry f borrowed states bb).length = f.locals.length := by
  have hfold := orFold_facts (edgeFlags f borrowed states) (f.predecessors bb)
    (edgeFlags_length hv)
    (List.length_replicate (n := f.locals.length) (a := false))
  unfold borrowEntry
  split
  · rw [orFlags_length (hfold.1.trans (paramFlags_length f).symm)]
    exact hfold.1
  · exact hfold.1

/-- A block's entry marks: those its predecessors' edges bring, and the parameters at block 0. -/
theorem mem_borrowEntry (hv : Valued (BlockState f) f.basicBlocks.length states) {bb : BasicBlockId} {l : Local} :
    l ∈ flagFacts (borrowEntry f borrowed states bb) ↔
      (∃ p, bb ∈ f.successors p ∧ l ∈ flagFacts (edgeFlags f borrowed states p)) ∨
        (bb = 0 ∧ l ∈ flagFacts (paramFlags f)) := by
  obtain ⟨hl, hm⟩ := orFold_facts (edgeFlags f borrowed states) (f.predecessors bb)
    (edgeFlags_length hv)
    (List.length_replicate (n := f.locals.length) (a := false))
  simp only [flagFacts_replicate_false, Finset.notMem_empty, false_or,
    MirFunction.mem_predecessors] at hm
  unfold borrowEntry
  split
  next h0 =>
    rw [orFlags, mem_flagFacts_or (hl.trans (paramFlags_length f).symm), hm]
    simp [h0]
  next h0 =>
    rw [hm]
    simp [h0]

theorem borrowFlow_valid (hv : Valued (BlockState f) f.basicBlocks.length states) (bb : BasicBlockId) :
    BlockState f (borrowFlow f borrowed states bb) :=
  ⟨borrowEntry_length hv bb,
    (borrowStmts_length _ _ _).trans (borrowEntry_length hv bb)⟩

theorem borrowFlow_mono {states' : List (List Bool × List Bool)}
    (hv : Valued (BlockState f) f.basicBlocks.length states)
    (hv' : Valued (BlockState f) f.basicBlocks.length states')
    (hle : Below stateMarks states states') (bb : BasicBlockId) :
    stateMarks (borrowFlow f borrowed states bb) ⊆ stateMarks (borrowFlow f borrowed states' bb) := by
  have hentry : flagFacts (borrowEntry f borrowed states bb) ⊆
      flagFacts (borrowEntry f borrowed states' bb) := by
    intro l hl
    rw [mem_borrowEntry hv] at hl
    rw [mem_borrowEntry hv']
    refine hl.imp ?_ id
    rintro ⟨p, hs, hp⟩
    obtain ⟨v, hget, hstate⟩ := blockState_of_pred hv hs
    obtain ⟨v', hget', hstate'⟩ := blockState_of_pred hv' hs
    refine ⟨p, hs, ?_⟩
    rw [edgeFlags_eq hget] at hp
    rw [edgeFlags_eq hget']
    exact borrowStmts_mono (Finset.Subset.refl _) _ (hstate.2.trans hstate'.2.symm)
      (stateMarks_subset_iff.mp (hle p _ _ hget hget')).2 hp
  refine stateMarks_subset_iff.mpr ⟨hentry, ?_⟩
  exact borrowStmts_mono (Finset.Subset.refl _) _
    ((borrowEntry_length hv bb).trans (borrowEntry_length hv' bb).symm) hentry

end Equations

@[simp] theorem replayed_length (f : MirFunction) (borrowed : Finset String)
    (before : List BasicBlockId) : (replayed f borrowed before).length = f.locals.length := by
  induction before using List.reverseRecOn with
  | nil => exact paramFlags_length f
  | append_singleton before p ih => simpa [replayed] using ih

theorem replayed_concat (f : MirFunction) (borrowed : Finset String) (before : List BasicBlockId)
    (p : BasicBlockId) : replayed f borrowed (before ++ [p]) =
      borrowStmts borrowed (f.stmtsAt p)
        (borrowStmts borrowed (f.stmtsAt p) (replayed f borrowed before)) := by
  simp [replayed]

theorem borrowSeed_at {f : MirFunction} {b : Nat} {v : List Bool × List Bool}
    (h : (borrowSeed f)[b]? = some v) :
    b < f.basicBlocks.length ∧ v = (paramFlags f, paramFlags f) := by
  obtain ⟨hb, he⟩ : b < f.basicBlocks.length ∧ (paramFlags f, paramFlags f) = v := by
    simpa [borrowSeed, List.getElem?_replicate] using h
  exact ⟨hb, he.symm⟩

theorem borrowSeed_valued (f : MirFunction) :
    Valued (BlockState f) f.basicBlocks.length (borrowSeed f) := by
  refine ⟨List.length_replicate, ?_⟩
  intro b v h
  rw [(borrowSeed_at h).2]
  exact ⟨paramFlags_length f, paramFlags_length f⟩

/-- The settled states solve the block equations. -/
theorem borrowLoop_stable {f : MirFunction} {borrowed : Finset String} {fuel : Nat}
    {states : List (List Bool × List Bool)} (h : borrowLoop f borrowed fuel = some states) :
    Valued (BlockState f) f.basicBlocks.length states ∧
      ∀ bb < f.basicBlocks.length, states[bb]? = some (borrowFlow f borrowed states bb) := by
  have hseed := borrowSeed_valued f
  refine ⟨?_, fun bb hb => solve_stable h hb (hseed.length ▸ hb)⟩
  exact solve_invariant
    (fun _ _ hs => relax_valued (fun _ b hv => borrowFlow_valid hv b) hs) hseed h

/-- The settled entry states contain the marks of every walk whose blocks run twice. -/
theorem replayed_subset_entry {f : MirFunction} {borrowed : Finset String} {fuel : Nat}
    {states : List (List Bool × List Bool)} (h : borrowLoop f borrowed fuel = some states)
    {before : List BasicBlockId} {bb : BasicBlockId} (hw : Walk f.successors before bb) :
    flagFacts (replayed f borrowed before) ⊆ flagFacts (borrowEntry f borrowed states bb) := by
  obtain ⟨hv, heq⟩ := borrowLoop_stable h
  induction hw with
  | entry => exact fun l hl => (mem_borrowEntry hv).mpr (.inr ⟨rfl, hl⟩)
  | @step before p b _ hs ih =>
    intro l hl
    have hp := MirFunction.lt_of_successors hs
    refine (mem_borrowEntry hv).mpr (.inl ⟨p, hs, ?_⟩)
    rw [edgeFlags_eq (heq p hp), borrowFlow]
    rw [replayed_concat] at hl
    have hle : (replayed f borrowed before).length =
        (borrowEntry f borrowed states p).length := by
      rw [replayed_length, borrowEntry_length hv]
    exact borrowStmts_mono (Finset.Subset.refl _) _ (by simpa using hle)
      (borrowStmts_mono (Finset.Subset.refl _) _ hle ih) hl

/-- Once the loop has ended, the answer is whether a return block's out state marks slot 0. -/
theorem returnsBorrow_eq {f : MirFunction} {borrowed : Finset String} {fuel : Nat}
    {states : List (List Bool × List Bool)} (hm : f.returnsMove = true)
    (h : borrowLoop f borrowed fuel = some states) :
    ∃ result, returnsBorrow f borrowed fuel = some result ∧
      (result = true ↔ ∃ bb, f.returnsAt bb = true ∧
        0 ∈ flagFacts (borrowFlow f borrowed states bb).2) := by
  obtain ⟨_, heq⟩ := borrowLoop_stable h
  refine ⟨_, by rw [returnsBorrow, if_pos hm, h]; rfl, ?_⟩
  have hout : ∀ bb < f.basicBlocks.length, ((states.getD bb ([], [])).2[0]? == some true) = true ↔
      0 ∈ flagFacts (borrowFlow f borrowed states bb).2 := by
    intro bb hb
    simp [List.getD_eq_getElem?_getD, heq bb hb, mem_flagFacts]
  simp only [List.any_eq_true, List.mem_range, Bool.and_eq_true]
  constructor
  · rintro ⟨bb, hb, hret, hmark⟩
    exact ⟨bb, hret, (hout bb hb).mp hmark⟩
  · rintro ⟨bb, hret, hmark⟩
    have hb := MirFunction.lt_of_returnsAt hret
    exact ⟨bb, hb, hret, (hout bb hb).mpr hmark⟩

theorem returnsBorrow_of_replayed {f : MirFunction} {borrowed : Finset String} {fuel : Nat}
    {result : Bool} (h : returnsBorrow f borrowed fuel = some result)
    (hm : f.returnsMove = true) (hr : BorrowsReplayed f borrowed) : result = true := by
  have hloop := h
  rw [returnsBorrow, if_pos hm, Option.map_eq_some_iff] at hloop
  obtain ⟨states, hloop, _⟩ := hloop
  obtain ⟨result', h', hiff⟩ := returnsBorrow_eq hm hloop
  obtain rfl := Option.some.inj (h.symm.trans h')
  obtain ⟨before, bb, hw, hret, hmark⟩ := hr
  obtain ⟨hv, _⟩ := borrowLoop_stable hloop
  refine hiff.mpr ⟨bb, hret, ?_⟩
  exact borrowStmts_mono (Finset.Subset.refl _) _
    (by rw [replayed_length, borrowEntry_length hv]) (replayed_subset_entry hloop hw) hmark

end Olive
