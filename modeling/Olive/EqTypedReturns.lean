import Mathlib.Data.Finset.Prod
import Olive.EqTyped

/-! A comparison ends: it begins with every pair of live slots at most once on its way down. -/

namespace Olive

variable {h : TypedHeap} {T : Shape → Word → Prop}

/-- The live slots. -/
def TypedHeap.live (h : TypedHeap) : Finset Word := (h.slots.map (·.1)).toFinset

theorem TypedHeap.mem_live {w : Word} {o : SlotContents} (hw : h.find w = some o) : w ∈ h.live := by
  unfold TypedHeap.find at hw
  split at hw
  next => cases hw
  next =>
    obtain ⟨before, after, heq, -⟩ := List.lookup_eq_some_iff.mp hw
    simp [TypedHeap.live, heq]

namespace EqTyped

local instance lawfulVisited : LawfulBEq (Word × Word) := inferInstance

/-- The pairs of live slots a comparison has not begun with. -/
def unvisited (h : TypedHeap) (st : EqState) : Finset (Word × Word) :=
  (h.live ×ˢ h.live).filter fun p => p ∉ st.visited

/-- Nothing that had been visited is forgotten. -/
def Before (st st' : EqState) : Prop := ∀ p ∈ st.visited, p ∈ st'.visited

theorem Before.refl (st : EqState) : Before st st := fun _ hp => hp

theorem Before.trans {st st' st'' : EqState} (hb : Before st st') (hb' : Before st' st'') :
    Before st st'' := fun p hp => hb' p (hb p hp)

theorem before_visit {st st' : EqState} {a b : Word} (hb : Before (st.visit a b) st') :
    Before st st' := fun p hp => hb p (List.mem_cons_of_mem _ hp)

theorem unvisited_mono {st st' : EqState} (hb : Before st st') :
    (unvisited h st').card ≤ (unvisited h st).card :=
  Finset.card_le_card (Finset.monotone_filter_right _ fun p _ hp hmem => hp (hb p hmem))

theorem unvisited_visit {st : EqState} {a b : Word} {oa ob : SlotContents}
    (ha : h.find a = some oa) (hb : h.find b = some ob)
    (hnew : ¬ ((h.find a).isSome ∧ (h.find b).isSome ∧ (a, b) ∈ st.visited)) :
    (unvisited h (st.visit a b)).card < (unvisited h st).card := by
  simp only [ha, hb, Option.isSome_some, true_and] at hnew
  refine Finset.card_lt_card (Finset.ssubset_iff_of_subset ?_ |>.mpr ⟨(a, b), ?_, ?_⟩)
  · exact Finset.monotone_filter_right _ fun _ _ hp hmem => hp (List.mem_cons_of_mem _ hmem)
  · simp [unvisited, TypedHeap.mem_live ha, TypedHeap.mem_live hb, hnew]
  · simp [unvisited, EqState.visit]

/-- A test that returns on values with at most `n` pairs of slots to begin with. -/
def Returns (h : TypedHeap) (T : Shape → Word → Prop) (eq : Test) (n : Nat) : Prop :=
  ∀ s a b st, T s a → T s b → (unvisited h st).card ≤ n →
    ∃ r st', eq s a b st = some (r, st') ∧ Before st st'

variable {eq : Test} {n : Nat} {st : EqState} {a b : Word}

theorem eqFields_returns (heq : Returns h T eq n) {items : List ((Shape × Word) × Shape × Word)}
    (equal : Bool) (hitems : ∀ p ∈ items, T p.1.1 p.1.2 ∧ T p.1.1 p.2.2)
    (hn : (unvisited h st).card ≤ n) :
    ∃ r st', eqFields eq items equal st = some (r, st') ∧ Before st st' := by
  induction items generalizing equal st with
  | nil => exact ⟨equal, st, rfl, .refl st⟩
  | cons p items ih =>
    obtain ⟨hpa, hpb⟩ := hitems p (by simp)
    obtain ⟨r, st₁, hrun, hb⟩ := heq p.1.1 p.1.2 p.2.2 st hpa hpb hn
    obtain ⟨r', st₂, hrest, hb'⟩ := ih (equal && r)
      (fun q hq => hitems q (List.mem_cons_of_mem _ hq)) ((unvisited_mono hb).trans hn)
    exact ⟨r', st₂, by simp [eqFields, hrun, hrest], hb.trans hb'⟩

theorem zip_typed {as bs : List (Shape × Word)} (hshape : ∀ p ∈ as.zip bs, p.1.1 = p.2.1)
    (hta : ∀ p ∈ as, T p.1 p.2) (htb : ∀ p ∈ bs, T p.1 p.2) :
    ∀ p ∈ as.zip bs, T p.1.1 p.1.2 ∧ T p.1.1 p.2.2 := by
  intro p hp
  obtain ⟨hpa, hpb⟩ := List.of_mem_zip hp
  exact ⟨hta p.1 hpa, hshape p hp ▸ htb p.2 hpb⟩

theorem eqParts_returns (heq : ∀ m < n, Returns h T eq m) {s : Shape}
    (hs : ∀ {w}, T s w → ∀ o, h.find w = some o →
      ∃ items, TypedHeap.parts s o = some items ∧ ∀ p ∈ items, T p.1 p.2)
    (ha : T s a) (hb : T s b) (hnew : ¬ ((h.find a).isSome ∧ (h.find b).isSome ∧ (a, b) ∈ st.visited)) (hn : (unvisited h st).card ≤ n) :
    ∃ r st', eqParts h eq s a b st = some (r, st') ∧ Before st st' := by
  unfold eqParts
  split
  next oa ob hfa hfb =>
    obtain ⟨as, has, hta⟩ := hs ha oa hfa
    obtain ⟨bs, hbs, htb⟩ := hs hb ob hfb
    simp only [has, hbs, Option.bind_eq_bind, Option.bind_some]
    split
    next => exact ⟨false, st, rfl, .refl st⟩
    next =>
      have hlt := (unvisited_visit hfa hfb hnew).trans_le hn
      obtain ⟨r, st', hrun, hbefore⟩ := eqFields_returns (heq _ hlt) true
        (zip_typed (parts_shape has hbs) hta htb) le_rfl
      exact ⟨r, st', hrun, before_visit hbefore⟩
  next => exact ⟨_, st, rfl, .refl st⟩

/-- A search through the elements of two live slots. -/
theorem pairAll_returns {β : Type}
    {test : β → β → EqState → Option (Bool × EqState)} {as bs : List β}
    (htest : ∀ m < n, ∀ x ∈ as, ∀ y ∈ bs, ∀ st, (unvisited h st).card ≤ m →
      ∃ r st', test x y st = some (r, st') ∧ Before st st')
    {oa ob : SlotContents} (hfa : h.find a = some oa) (hfb : h.find b = some ob)
    (hnew : ¬ ((h.find a).isSome ∧ (h.find b).isSome ∧ (a, b) ∈ st.visited)) (hn : (unvisited h st).card ≤ n) :
    ∃ r st', Pairing.pairAll test as bs (st.visit a b) = some (r, st') ∧ Before st st' := by
  have hlt := (unvisited_visit hfa hfb hnew).trans_le hn
  have hreturns : ∃ r st', Pairing.pairAll test as bs (st.visit a b) = some (r, st') ∧
      Before (st.visit a b) st' := by
    refine Pairing.pairAll_returns (fun x hx y hy st₁ hst₁ => ?_) (.refl _)
    obtain ⟨r, st₂, hrun, hb⟩ := htest _ hlt x hx y hy st₁ (unvisited_mono hst₁)
    exact ⟨r, st₂, hrun, hst₁.trans hb⟩
  obtain ⟨r, st', hrun, hbefore⟩ := hreturns
  exact ⟨r, st', hrun, before_visit hbefore⟩

theorem eqSet_returns (heq : ∀ m < n, Returns h T eq m) {item : Shape}
    (hs : ∀ {w}, T (.set item) w → ∀ o, h.find w = some o →
      ∃ items, o = .hashSet items ∧ ∀ v ∈ items, T item v)
    (ha : T (.set item) a) (hb : T (.set item) b) (hnew : ¬ ((h.find a).isSome ∧ (h.find b).isSome ∧ (a, b) ∈ st.visited))
    (hn : (unvisited h st).card ≤ n) :
    ∃ r st', eqSet h eq item a b st = some (r, st') ∧ Before st st' := by
  unfold eqSet
  cases hfa : h.find a with
  | none => exact ⟨_, st, rfl, .refl st⟩
  | some oa =>
    obtain ⟨as, rfl, hta⟩ := hs ha oa hfa
    cases hfb : h.find b with
    | none => exact ⟨_, st, rfl, .refl st⟩
    | some ob =>
      obtain ⟨bs, rfl, htb⟩ := hs hb ob hfb
      dsimp only
      split
      next => exact ⟨false, st, rfl, .refl st⟩
      next =>
        exact pairAll_returns (fun m hm x hx y hy st hst =>
          heq m hm item x y st (hta x hx) (htb y hy) hst) hfa hfb hnew hn

theorem eqEntry_returns (heq : Returns h T eq n) {key value : Shape} {x y : Word × Word}
    (hx : T key x.1 ∧ T value x.2) (hy : T key y.1 ∧ T value y.2)
    (hn : (unvisited h st).card ≤ n) :
    ∃ r st', eqEntry eq key value x y st = some (r, st') ∧ Before st st' := by
  obtain ⟨rk, st₁, hk, hb⟩ := heq key x.1 y.1 st hx.1 hy.1 hn
  cases rk with
  | false => exact ⟨false, st₁, by simp [eqEntry, hk], hb⟩
  | true =>
    obtain ⟨rv, st₂, hv, hb'⟩ := heq value x.2 y.2 st₁ hx.2 hy.2 ((unvisited_mono hb).trans hn)
    exact ⟨rv, st₂, by simp [eqEntry, hk, hv], hb.trans hb'⟩

theorem eqDict_returns (heq : ∀ m < n, Returns h T eq m) {key value : Shape}
    (hs : ∀ {w}, T (.dict key value) w → ∀ o, h.find w = some o →
      ∃ entries, o = .obj entries ∧ ∀ e ∈ entries, T key e.1 ∧ T value e.2)
    (ha : T (.dict key value) a) (hb : T (.dict key value) b) (hnew : ¬ ((h.find a).isSome ∧ (h.find b).isSome ∧ (a, b) ∈ st.visited))
    (hn : (unvisited h st).card ≤ n) :
    ∃ r st', eqDict h eq key value a b st = some (r, st') ∧ Before st st' := by
  unfold eqDict
  cases hfa : h.find a with
  | none => exact ⟨_, st, rfl, .refl st⟩
  | some oa =>
    obtain ⟨as, rfl, hta⟩ := hs ha oa hfa
    cases hfb : h.find b with
    | none => exact ⟨_, st, rfl, .refl st⟩
    | some ob =>
      obtain ⟨bs, rfl, htb⟩ := hs hb ob hfb
      dsimp only
      split
      next => exact ⟨false, st, rfl, .refl st⟩
      next =>
        exact pairAll_returns (fun m hm x hx y hy st hst =>
          eqEntry_returns (heq m hm) (hta x hx) (htb y hy) hst) hfa hfb hnew hn

theorem eqEnum_returns (heq : ∀ m < n, Returns h T eq m) {variants : List (List Shape)}
    (hs : ∀ {w}, T (.enum variants) w → ∀ o, h.find w = some o →
      ∃ tag payload, o = .enum tag payload ∧
        payload.length = (TypedHeap.payloadShapes variants tag).length ∧
        ∀ p ∈ (TypedHeap.payloadShapes variants tag).zip payload, T p.1 p.2)
    (ha : T (.enum variants) a) (hb : T (.enum variants) b) (hnew : ¬ ((h.find a).isSome ∧ (h.find b).isSome ∧ (a, b) ∈ st.visited))
    (hn : (unvisited h st).card ≤ n) :
    ∃ r st', eqEnum h eq variants a b st = some (r, st') ∧ Before st st' := by
  unfold eqEnum
  cases hfa : h.find a with
  | none => exact ⟨_, st, rfl, .refl st⟩
  | some oa =>
    obtain ⟨aTag, aPayload, rfl, _, hta⟩ := hs ha oa hfa
    cases hfb : h.find b with
    | none => exact ⟨_, st, rfl, .refl st⟩
    | some ob =>
      obtain ⟨bTag, bPayload, rfl, _, htb⟩ := hs hb ob hfb
      have hlt := (unvisited_visit hfa hfb hnew).trans_le hn
      by_cases htag : aTag = bTag
      · subst htag
        obtain ⟨r, st', hrun, hbefore⟩ := eqFields_returns (heq _ hlt) true
          (zip_typed zip_shape hta htb) le_rfl
        exact ⟨r, st', by simp [hrun], before_visit hbefore⟩
      · refine ⟨false, st.visit a b, ?_, before_visit (.refl _)⟩
        simp [htag, eqFields]

theorem eqVal_returns (ht : h.WellTyped T) (n fuel : Nat) (hfuel : 2 * n + 2 ≤ fuel) :
    Returns h T (eqVal h fuel) n := by
  induction n using Nat.strong_induction_on generalizing fuel with
  | _ n ih =>
    -- a type that is no back-reference needs one call less
    have hstep : ∀ fuel, 2 * n ≤ fuel → ∀ s a b st, (∀ t, s ≠ .backref t) → T s a → T s b →
        (unvisited h st).card ≤ n →
        ∃ r st', eqVal h (fuel + 1) s a b st = some (r, st') ∧ Before st st' := by
      intro fuel hfuel s a b st hs ha hb hn
      have heq : ∀ m < n, Returns h T (eqVal h fuel) m :=
        fun m hm => ih m hm fuel (by omega)
      unfold eqVal
      split
      next => exact ⟨true, st, rfl, .refl st⟩
      next =>
        split
        next => exact ⟨true, st.take s a b, rfl, .refl st⟩
        next hnew =>
          cases s with
          | leaf => exact ⟨_, st, rfl, .refl st⟩
          | str => exact ⟨_, st, rfl, .refl st⟩
          | any => exact ⟨_, st, rfl, .refl st⟩
          | list item => exact eqParts_returns heq (ht _ _) ha hb hnew hn
          | set item => exact eqSet_returns heq (ht _ _) ha hb hnew hn
          | tuple items => exact eqParts_returns heq (ht _ _) ha hb hnew hn
          | dict key value => exact eqDict_returns heq (ht _ _) ha hb hnew hn
          | struct fields => exact eqParts_returns heq (ht _ _) ha hb hnew hn
          | enum variants => exact eqEnum_returns heq (ht _ _) ha hb hnew hn
          | backref target => exact absurd rfl (hs target)
    intro s a b st ha hb hn
    obtain ⟨fuel, rfl⟩ : ∃ k, fuel = k + 2 := ⟨fuel - 2, by omega⟩
    by_cases hs : ∃ target, s = .backref target
    · obtain ⟨target, rfl⟩ := hs
      obtain ⟨hnot, hta⟩ := ht _ _ ha
      obtain ⟨_, htb⟩ := ht _ _ hb
      unfold eqVal
      split
      next => exact ⟨true, st, rfl, .refl st⟩
      next =>
        split
        next => exact ⟨true, _, rfl, .refl st⟩
        next => exact hstep fuel (by omega) _ _ _ st hnot hta htb hn
    · exact hstep (fuel + 1) (by omega) s a b st (fun t heq => hs ⟨t, heq⟩) ha hb hn

/-- A depth that is enough for any comparison. -/
def depth (h : TypedHeap) : Nat := 2 * (h.live.card * h.live.card) + 2

theorem oliveEqTyped_returns (ht : h.WellTyped T) {s : Shape} (ha : T s a) (hb : T s b) {fuel : Nat}
    (hfuel : depth h ≤ fuel) : ∃ r st', oliveEqTyped h fuel s a b = some (r, st') := by
  have hcard : (unvisited h .empty).card ≤ h.live.card * h.live.card :=
    (Finset.card_filter_le ..).trans (Finset.card_product ..).le
  obtain ⟨r, st', hrun, _⟩ := eqVal_returns ht _ fuel hfuel s a b .empty ha hb hcard
  exact ⟨r, st', hrun⟩

end EqTyped

end Olive
