import Olive.EqTypedReturns
import Olive.HashTyped

/-! A hash ends: it visits every live slot at most once. -/

namespace Olive

namespace HashTyped

variable {h : TypedHeap} {fx : FxHasher} {T : Shape → Word → Prop} {s : Shape} {w : Word}
  {visited : List Word}

local instance lawfulWord : LawfulBEq Word := inferInstance

/-- The live slots a walk has not visited. -/
def unvisited (h : TypedHeap) (visited : List Word) : Finset Word := h.live.filter (· ∉ visited)

theorem unvisited_mono {visited' : List Word} (hsub : visited ⊆ visited') :
    (unvisited h visited').card ≤ (unvisited h visited).card :=
  Finset.card_le_card (Finset.monotone_filter_right _ fun _ _ hw hmem => hw (hsub hmem))

theorem unvisited_cons {o : SlotContents} (hw : h.find w = some o) (hnew : w ∉ visited) :
    (unvisited h (w :: visited)).card < (unvisited h visited).card := by
  refine Finset.card_lt_card (Finset.ssubset_iff_of_subset ?_ |>.mpr ⟨w, ?_, ?_⟩)
  · exact Finset.monotone_filter_right _ fun _ _ hv hmem => hv (List.mem_cons_of_mem _ hmem)
  · simp [unvisited, TypedHeap.mem_live hw, hnew]
  · simp [unvisited]

/-- A walk that returns from values with at most `n` slots to visit. -/
def Returns (h : TypedHeap) (T : Shape → Word → Prop) (hash : Hash) (n : Nat) : Prop :=
  ∀ s w visited, T s w → (unvisited h visited).card ≤ n →
    ∃ x visited', hash s w visited = some (x, visited') ∧ visited ⊆ visited'

section Returns

variable {β : Type} {hash : Hash} {n : Nat}

theorem hashAll_returns {f : β → List Word → Option (Word × List Word)} {items : List β}
    (hf : ∀ b ∈ items, ∀ visited, (unvisited h visited).card ≤ n →
      ∃ x visited', f b visited = some (x, visited') ∧ visited ⊆ visited')
    (hn : (unvisited h visited).card ≤ n) :
    ∃ xs visited', hashAll f items visited = some (xs, visited') ∧ visited ⊆ visited' := by
  induction items generalizing visited with
  | nil => exact ⟨[], visited, rfl, List.Subset.refl _⟩
  | cons b items ih =>
    obtain ⟨x, visited₁, hrun, hsub⟩ := hf b (by simp) visited hn
    obtain ⟨xs, visited₂, hrest, hsub'⟩ := ih (fun c hc => hf c (List.mem_cons_of_mem _ hc))
      ((unvisited_mono hsub).trans hn)
    exact ⟨x :: xs, visited₂, by simp [hashAll, hrun, hrest], List.Subset.trans hsub hsub'⟩

theorem hashEntry_returns (fx : FxHasher) (hhash : Returns h T hash n) {key value : Shape} {e : Word × Word}
    (hk : T key e.1) (hv : T value e.2) (hn : (unvisited h visited).card ≤ n) :
    ∃ x visited', hashEntry fx hash key value e visited = some (x, visited') ∧
      visited ⊆ visited' := by
  obtain ⟨kh, visited₁, hrun, hsub⟩ := hhash key e.1 visited hk hn
  obtain ⟨vh, visited₂, hrun', hsub'⟩ := hhash value e.2 visited₁ hv ((unvisited_mono hsub).trans hn)
  exact ⟨seq fx [kh, vh], visited₂, by simp [hashEntry, hrun, hrun'], List.Subset.trans hsub hsub'⟩

/-- The parts of a value that has just been visited. -/
theorem parts_return {f : β → List Word → Option (Word × List Word)} {items : List β}
    (hf : ∀ m < n, ∀ b ∈ items, ∀ visited, (unvisited h visited).card ≤ m →
      ∃ x visited', f b visited = some (x, visited') ∧ visited ⊆ visited')
    {o : SlotContents} (hw : h.find w = some o) (hnew : w ∉ visited)
    (hn : (unvisited h visited).card ≤ n) :
    ∃ xs visited', hashAll f items (w :: visited) = some (xs, visited') ∧ visited ⊆ visited' := by
  have hlt := (unvisited_cons hw hnew).trans_le hn
  obtain ⟨xs, visited', hrun, hsub⟩ := hashAll_returns (hf _ hlt) le_rfl
  exact ⟨xs, visited', hrun, List.Subset.trans (List.subset_cons_self ..) hsub⟩

/-- What a walk visits at `w` before it looks at the type. -/
def begun (h : TypedHeap) (w : Word) (visited : List Word) : List Word :=
  if (h.find w).isSome then w :: visited else visited

theorem begun_some {o : SlotContents} (hw : h.find w = some o) :
    begun h w visited = w :: visited := by simp [begun, hw]

theorem subset_begun : visited ⊆ begun h w visited := by
  unfold begun
  split
  next => exact List.subset_cons_self ..
  next => exact List.Subset.refl _

variable (hnew : ¬ ((h.find w).isSome ∧ w ∈ visited)) (hn : (unvisited h visited).card ≤ n)
include hnew hn

theorem hashParts_returns (hhash : ∀ m < n, Returns h T hash m)
    (hs : ∀ o, h.find w = some o →
      ∃ items, TypedHeap.parts s o = some items ∧ ∀ p ∈ items, T p.1 p.2) :
    ∃ x visited', hashParts h fx hash s w (begun h w visited) = some (x, visited') ∧
      visited ⊆ visited' := by
  unfold hashParts
  split
  next => exact ⟨_, _, rfl, subset_begun⟩
  next o hw =>
    obtain ⟨items, hitems, ht⟩ := hs o hw
    obtain ⟨xs, visited', hrun, hsub⟩ := parts_return (f := hashPart hash)
      (fun m hm p hp visited => hhash m hm p.1 p.2 visited (ht p hp)) hw (by simpa [hw] using hnew) hn
    exact ⟨seq fx xs, visited', by simp [hitems, begun_some hw, hrun], hsub⟩

theorem hashSet_returns (hhash : ∀ m < n, Returns h T hash m) {item : Shape}
    (hs : ∀ o, h.find w = some o → ∃ items, o = .hashSet items ∧ ∀ v ∈ items, T item v) :
    ∃ x visited', hashSet h fx hash item w (begun h w visited) = some (x, visited') ∧
      visited ⊆ visited' := by
  unfold hashSet
  cases hw : h.find w with
  | none => exact ⟨_, _, rfl, subset_begun⟩
  | some o =>
    obtain ⟨items, rfl, ht⟩ := hs o hw
    obtain ⟨xs, visited', hrun, hsub⟩ := parts_return
      (fun m hm v hv visited => hhash m hm item v visited (ht v hv)) hw (by simpa [hw] using hnew) hn
    exact ⟨commutative xs, visited', by simp [begun_some hw, hrun], hsub⟩

theorem hashDict_returns (hhash : ∀ m < n, Returns h T hash m) {key value : Shape}
    (hs : ∀ o, h.find w = some o → ∃ entries, o = .obj entries ∧
      ∀ e ∈ entries, T key e.1 ∧ T value e.2) :
    ∃ x visited', hashDict h fx hash key value w (begun h w visited) = some (x, visited') ∧
      visited ⊆ visited' := by
  unfold hashDict
  cases hw : h.find w with
  | none => exact ⟨_, _, rfl, subset_begun⟩
  | some o =>
    obtain ⟨entries, rfl, ht⟩ := hs o hw
    obtain ⟨xs, visited', hrun, hsub⟩ := parts_return
      (fun m hm e he visited hn => hashEntry_returns fx (hhash m hm) (ht e he).1 (ht e he).2 hn) hw
      (by simpa [hw] using hnew) hn
    exact ⟨commutative xs, visited', by simp [begun_some hw, hrun], hsub⟩

theorem hashEnum_returns (hhash : ∀ m < n, Returns h T hash m) {variants : List (List Shape)}
    (hs : ∀ o, h.find w = some o → ∃ tag payload, o = .enum tag payload ∧
      payload.length = (TypedHeap.payloadShapes variants tag).length ∧
      ∀ p ∈ (TypedHeap.payloadShapes variants tag).zip payload, T p.1 p.2) :
    ∃ x visited', hashEnum h fx hash variants w (begun h w visited) = some (x, visited') ∧
      visited ⊆ visited' := by
  unfold hashEnum
  cases hw : h.find w with
  | none => exact ⟨_, _, rfl, subset_begun⟩
  | some o =>
    obtain ⟨tag, payload, rfl, _, ht⟩ := hs o hw
    obtain ⟨xs, visited', hrun, hsub⟩ := parts_return (f := hashPart hash)
      (fun m hm p hp visited => hhash m hm p.1 p.2 visited (ht p hp)) hw (by simpa [hw] using hnew) hn
    exact ⟨seq fx (one fx tag :: xs), visited', by simp [begun_some hw, hrun], hsub⟩

end Returns

theorem hashVal_returns (fx : FxHasher) (ht : h.WellTyped T) (n fuel : Nat) (hfuel : 2 * n + 2 ≤ fuel) :
    Returns h T (hashVal h fx fuel) n := by
  induction n using Nat.strong_induction_on generalizing fuel with
  | _ n ih =>
    -- a type that is no back-reference needs one call less
    have hstep : ∀ fuel, 2 * n ≤ fuel → ∀ s w visited, (∀ t, s ≠ .backref t) → T s w →
        (unvisited h visited).card ≤ n → ∃ x visited',
          hashVal h fx (fuel + 1) s w visited = some (x, visited') ∧ visited ⊆ visited' := by
      intro fuel hfuel s w visited hs hw hn
      have hhash : ∀ m < n, Returns h T (hashVal h fx fuel) m :=
        fun m hm => ih m hm fuel (by omega)
      unfold hashVal
      split
      next => exact ⟨0, visited, rfl, List.Subset.refl _⟩
      next hnew =>
        cases s with
        | leaf => exact ⟨_, _, rfl, subset_begun⟩
        | str => exact ⟨_, _, rfl, subset_begun⟩
        | any => exact ⟨_, _, rfl, subset_begun⟩
        | list item => exact hashParts_returns hnew hn hhash (ht _ _ hw)
        | set item => exact hashSet_returns hnew hn hhash (ht _ _ hw)
        | tuple items => exact hashParts_returns hnew hn hhash (ht _ _ hw)
        | dict key value => exact hashDict_returns hnew hn hhash (ht _ _ hw)
        | struct fields => exact hashParts_returns hnew hn hhash (ht _ _ hw)
        | enum variants => exact hashEnum_returns hnew hn hhash (ht _ _ hw)
        | backref target => exact absurd rfl (hs target)
    intro s w visited hw hn
    obtain ⟨fuel, rfl⟩ : ∃ k, fuel = k + 2 := ⟨fuel - 2, by omega⟩
    by_cases hs : ∃ target, s = .backref target
    · obtain ⟨target, rfl⟩ := hs
      obtain ⟨hnot, htw⟩ := ht _ _ hw
      unfold hashVal
      split
      next => exact ⟨0, visited, rfl, List.Subset.refl _⟩
      next =>
        obtain ⟨x, visited', hrun, hsub⟩ := hstep fuel (by omega) _ _ (begun h w visited) hnot htw
          ((unvisited_mono subset_begun).trans hn)
        exact ⟨x, visited', hrun, List.Subset.trans subset_begun hsub⟩
    · exact hstep (fuel + 1) (by omega) s w visited (fun t heq => hs ⟨t, heq⟩) hw hn

theorem hashKey_returns (fx : FxHasher) (ht : h.WellTyped T) (hw : T s w) {fuel : Nat}
    (hfuel : 2 * h.live.card + 2 ≤ fuel) : ∃ x, hashKey h fx fuel s w = some x := by
  obtain ⟨x, visited', hrun, _⟩ := hashVal_returns fx ht _ fuel hfuel s w [] hw
    (Finset.card_filter_le ..)
  exact ⟨x, by simp [hashKey, hrun]⟩

end HashTyped

end Olive
