import Olive.EqTyped
import Olive.StructuralEq

/-! A comparison that answers no pair wrongly from what it has visited is right. -/

namespace Olive

variable {h : TypedHeap} {W : Word → Prop}

theorem Unfolds.of_parts {s : Shape} {w : Word} {t : Tree} {o : SlotContents}
    {items : List (Shape × Word)} (ht : Unfolds h s w t) (hw : h.find w = some o)
    (hitems : TypedHeap.parts s o = some items) :
    ∃ tree : Shape × Word → Tree, t = .seq w (items.map tree) ∧
      ∀ p ∈ items, Unfolds h p.1 p.2 (tree p) := by
  cases ht with
  | gone hs hnone => simp [hw] at hnone
  | seq hw' hitems' tree ht =>
    cases hw.symm.trans hw'
    cases hitems.symm.trans hitems'
    exact ⟨tree, rfl, ht⟩
  | _ => cases hitems

theorem Unfolds.of_set {item : Shape} {w : Word} {t : Tree} {items : List Word}
    (ht : Unfolds h (.set item) w t) (hw : h.find w = some (.hashSet items)) :
    ∃ tree : Word → Tree, t = .bag w (items.map tree) ∧ ∀ v ∈ items, Unfolds h item v (tree v) := by
  cases ht with
  | gone hs hnone => simp [hw] at hnone
  | seq _ hitems => cases hitems
  | set hw' tree ht =>
    cases hw.symm.trans hw'
    exact ⟨tree, rfl, ht⟩

theorem Unfolds.of_dict {key value : Shape} {w : Word} {t : Tree} {entries : List (Word × Word)}
    (ht : Unfolds h (.dict key value) w t) (hw : h.find w = some (.obj entries)) :
    ∃ keyTree valueTree : Word → Tree,
      t = .bag w (entries.map fun e => .seq 0 [keyTree e.1, valueTree e.2]) ∧
      ∀ e ∈ entries, Unfolds h key e.1 (keyTree e.1) ∧ Unfolds h value e.2 (valueTree e.2) := by
  cases ht with
  | gone hs hnone => simp [hw] at hnone
  | seq _ hitems => cases hitems
  | dict hw' keyTree valueTree hk hv =>
    cases hw.symm.trans hw'
    exact ⟨keyTree, valueTree, rfl, fun e he => ⟨hk e he, hv e he⟩⟩

theorem Unfolds.of_enum {variants : List (List Shape)} {w tag : Word} {t : Tree}
    {payload : List Word} (ht : Unfolds h (.enum variants) w t)
    (hw : h.find w = some (.enum tag payload)) :
    payload.length = (TypedHeap.payloadShapes variants tag).length ∧
      ∃ tree : Shape × Word → Tree,
        t = .variant w tag (((TypedHeap.payloadShapes variants tag).zip payload).map tree) ∧
        ∀ p ∈ (TypedHeap.payloadShapes variants tag).zip payload, Unfolds h p.1 p.2 (tree p) := by
  cases ht with
  | gone hs hnone => simp [hw] at hnone
  | seq _ hitems => cases hitems
  | enum hw' hlen tree ht =>
    cases hw.symm.trans hw'
    exact ⟨hlen, tree, rfl, ht⟩

theorem Unfolds.of_backref {target : Nat} {w : Word} {t : Tree}
    (ht : Unfolds h (.backref target) w t) : Unfolds h (h.shapes target) w t := by
  cases ht with
  | gone hs => cases hs
  | seq _ hitems => cases hitems
  | backref ht => exact ht

theorem Unfolds.of_gone {s : Shape} {w : Word} {t : Tree} (ht : Unfolds h s w t)
    (hs : s.isAggregate) (hw : h.find w = none) : t = .gone w s.isEnum := by
  cases ht with
  | gone => rfl
  | seq hw' => simp [hw] at hw'
  | set hw' => simp [hw] at hw'
  | dict hw' => simp [hw] at hw'
  | enum hw' => simp [hw] at hw'
  | _ => cases hs

theorem Unfolds.ne_gone {s : Shape} {w v : Word} {e : Bool} {t : Tree} (ht : Unfolds h s w t)
    (hs : s.isAggregate) {o : SlotContents} (hw : h.find w = some o) : t ≠ .gone v e := by
  cases ht with
  | gone _ hw' => simp [hw] at hw'
  | seq => simp
  | set => simp
  | dict => simp
  | enum => simp
  | _ => cases hs

/-- What is no live slot equals only itself. -/
theorem not_same_of_gone {anyEq : Word → Word → Bool} {s : Shape} {a b : Word} {ta tb : Tree}
    (hs : s.isAggregate) (hab : a ≠ b) (ha : Unfolds h s a ta) (hb : Unfolds h s b tb)
    (hgone : h.find a = none ∨ h.find b = none) : ¬ ta.Same anyEq tb := by
  intro hsame
  cases hfa : h.find a with
  | none =>
    obtain rfl := ha.of_gone hs hfa
    have htb := Tree.same_gone.mp hsame
    cases hfb : h.find b with
    | none => exact hab (Tree.gone.inj (htb.symm.trans (hb.of_gone hs hfb))).1
    | some o => exact hb.ne_gone hs hfb htb
  | some o =>
    have hfb := hgone.resolve_left (by simp [hfa])
    obtain rfl := hb.of_gone hs hfb
    cases ta with
    | gone w e => exact ha.ne_gone hs hfa rfl
    | _ => simp [Tree.Same] at hsame

namespace EqTyped

/-- Every pair answered from what has been visited is a pair of equal values. -/
def Right (h : TypedHeap) (st : EqState) : Prop :=
  ∀ p ∈ st.taken, ∀ ta tb, Unfolds h p.1 p.2.1 ta → Unfolds h p.1 p.2.2 tb → ta.Same h.anyEq tb

def RightTest (h : TypedHeap) (W : Word → Prop) (eq : Test) : Prop :=
  ∀ {s a b st r st' ta tb}, eq s a b st = some (r, st') → Unfolds h s a ta → Unfolds h s b tb →
    ta.Within W → tb.Within W → Right h st' → Right h st ∧ (r = true ↔ ta.Same h.anyEq tb)

variable {eq : Test}

theorem eqFields_right (heq : RightTest h W eq) {items : List ((Shape × Word) × Shape × Word)}
    {treeA treeB : Shape × Word → Tree} {equal r : Bool} {st st' : EqState}
    (hshape : ∀ p ∈ items, p.1.1 = p.2.1)
    (hA : ∀ p ∈ items, Unfolds h p.1.1 p.1.2 (treeA p.1) ∧ (treeA p.1).Within W)
    (hB : ∀ p ∈ items, Unfolds h p.2.1 p.2.2 (treeB p.2) ∧ (treeB p.2).Within W)
    (hrun : eqFields eq items equal st = some (r, st')) (hgood : Right h st') :
    Right h st ∧
      (r = true ↔ equal = true ∧ ∀ p ∈ items, (treeA p.1).Same h.anyEq (treeB p.2)) := by
  induction items generalizing equal st with
  | nil =>
    cases hrun
    exact ⟨hgood, by simp⟩
  | cons p items ih =>
    simp only [eqFields] at hrun
    obtain ⟨⟨r₁, st₁⟩, htest, hrun⟩ := Option.bind_eq_some_iff.mp hrun
    obtain ⟨hst₁, hrest⟩ := ih (fun q hq => hshape q (List.mem_cons_of_mem _ hq))
      (fun q hq => hA q (List.mem_cons_of_mem _ hq))
      (fun q hq => hB q (List.mem_cons_of_mem _ hq)) hrun
    obtain ⟨hua, hwa⟩ := hA p (by simp)
    obtain ⟨hub, hwb⟩ := hB p (by simp)
    obtain ⟨hst, hiff⟩ := heq htest hua (hshape p (by simp) ▸ hub) hwa hwb hst₁
    refine ⟨hst, hrest.trans ?_⟩
    rw [Bool.and_eq_true, hiff, List.forall_mem_cons, and_assoc]

theorem right_visit {st : EqState} {a b : Word} (hr : Right h (st.visit a b)) : Right h st := hr

theorem forall₂_trees {as bs : List (Shape × Word)} {treeA treeB : Shape × Word → Tree}
    {r : Tree → Tree → Prop} (hlen : as.length = bs.length) :
    List.Forall₂ r (as.map treeA) (bs.map treeB) ↔
      ∀ p ∈ as.zip bs, r (treeA p.1) (treeB p.2) := by
  rw [List.forall₂_map_left_iff, List.forall₂_map_right_iff, List.forall₂_iff_zip]
  exact ⟨fun hall p hp => hall.2 hp, fun hall => ⟨hlen, fun hp => hall _ hp⟩⟩

theorem within_map {β : Type} {t : Tree} {xs : List β} {tree : β → Tree}
    (ht : t.Within W) (hwords : t.anyWords = Tree.anyWordsAll (xs.map tree)) :
    ∀ x ∈ xs, (tree x).Within W :=
  fun _ hx => ht.item hwords (List.mem_map_of_mem hx)

/-- When the slots are not both live, the walk compares the words. -/
theorem gone_right {s : Shape} {a b : Word} {ta tb : Tree} (hs : s.isAggregate) (hab : a ≠ b)
    (ha : Unfolds h s a ta) (hb : Unfolds h s b tb)
    (hgone : ∀ oa ob, h.find a = some oa → h.find b ≠ some ob) :
    decide (a = b) = true ↔ ta.Same h.anyEq tb := by
  simp only [hab, decide_false, Bool.false_eq_true, false_iff]
  refine not_same_of_gone hs hab ha hb ?_
  cases hfa : h.find a with
  | none => exact .inl rfl
  | some oa =>
    cases hfb : h.find b with
    | none => exact .inr rfl
    | some ob => exact (hgone oa ob hfa hfb).elim

theorem eqParts_right (heq : RightTest h W eq) {s : Shape} {a b : Word} {st st' : EqState} {r : Bool}
    {ta tb : Tree} (hs : s.isAggregate) (hab : a ≠ b) (hrun : eqParts h eq s a b st = some (r, st'))
    (ha : Unfolds h s a ta) (hb : Unfolds h s b tb) (hta : ta.Within W) (htb : tb.Within W)
    (hgood : Right h st') : Right h st ∧ (r = true ↔ ta.Same h.anyEq tb) := by
  unfold eqParts at hrun
  split at hrun
  next oa ob hfa hfb =>
    obtain ⟨as, has, hrun⟩ := Option.bind_eq_some_iff.mp hrun
    obtain ⟨bs, hbs, hrun⟩ := Option.bind_eq_some_iff.mp hrun
    obtain ⟨treeA, rfl, hua⟩ := ha.of_parts hfa has
    obtain ⟨treeB, rfl, hub⟩ := hb.of_parts hfb hbs
    have hsame : (Tree.seq a (as.map treeA)).Same h.anyEq (.seq b (bs.map treeB)) ↔
        List.Forall₂ (Tree.Same h.anyEq) (as.map treeA) (bs.map treeB) := by
      rw [Tree.Same, Tree.sameAll_iff]
    split at hrun
    next hlen =>
      cases hrun
      refine ⟨hgood, ?_⟩
      rw [hsame]
      simp only [Bool.false_eq_true, false_iff]
      intro hall
      exact hlen (by simpa using hall.length_eq)
    next hlen =>
      rw [ne_eq, Decidable.not_not] at hlen
      have hwa : ∀ p ∈ as, (treeA p).Within W := within_map hta rfl
      have hwb : ∀ p ∈ bs, (treeB p).Within W := within_map htb rfl
      obtain ⟨hst, hiff⟩ := eqFields_right heq (parts_shape has hbs)
        (fun p hp => ⟨hua p.1 (List.of_mem_zip hp).1, hwa p.1 (List.of_mem_zip hp).1⟩)
        (fun p hp => ⟨hub p.2 (List.of_mem_zip hp).2, hwb p.2 (List.of_mem_zip hp).2⟩) hrun hgood
      refine ⟨right_visit hst, hiff.trans ?_⟩
      rw [hsame, forall₂_trees hlen]
      simp
  next hnone =>
    cases hrun
    exact ⟨hgood, gone_right hs hab ha hb hnone⟩

theorem rectangular_map (hW : Tree.AnyRegular h.anyEq W) {β γ : Type} {as : List β} {bs : List γ}
    {treeA : β → Tree} {treeB : γ → Tree} (ha : ∀ x ∈ as, (treeA x).Within W)
    (hb : ∀ y ∈ bs, (treeB y).Within W) :
    Pairing.Rectangular (fun x y => (treeA x).Same h.anyEq (treeB y)) (as : Multiset β) bs := by
  intro x hx a haa b hbb c hc
  have hrect := Tree.same_rectangular hW (List.forall_mem_map.mpr ha) (List.forall_mem_map.mpr hb)
  exact hrect _ (List.mem_map_of_mem hx) _ (List.mem_map_of_mem haa) _ (List.mem_map_of_mem hbb) _
    (List.mem_map_of_mem hc)

theorem eqSet_right (hW : Tree.AnyRegular h.anyEq W) (heq : RightTest h W eq) {item : Shape}
    {a b : Word} {st st' : EqState} {r : Bool} {ta tb : Tree} (hab : a ≠ b)
    (hrun : eqSet h eq item a b st = some (r, st')) (ha : Unfolds h (.set item) a ta)
    (hb : Unfolds h (.set item) b tb) (hta : ta.Within W) (htb : tb.Within W)
    (hgood : Right h st') : Right h st ∧ (r = true ↔ ta.Same h.anyEq tb) := by
  unfold eqSet at hrun
  split at hrun
  next as bs hfa hfb =>
    obtain ⟨treeA, rfl, hua⟩ := ha.of_set hfa
    obtain ⟨treeB, rfl, hub⟩ := hb.of_set hfb
    have hwa : ∀ v ∈ as, (treeA v).Within W := within_map hta rfl
    have hwb : ∀ v ∈ bs, (treeB v).Within W := within_map htb rfl
    have hsame : (Tree.bag a (as.map treeA)).Same h.anyEq (.bag b (bs.map treeB)) ↔
        Multiset.Rel (fun x y => (treeA x).Same h.anyEq (treeB y)) (as : Multiset Word) bs := by
      rw [Tree.Same, Tree.sameBag_iff, ← Multiset.map_coe, ← Multiset.map_coe, Multiset.rel_map]
    split at hrun
    next hlen =>
      cases hrun
      refine ⟨hgood, ?_⟩
      rw [hsame]
      simp only [Bool.false_eq_true, false_iff]
      exact fun hrel => hlen (by simpa using Multiset.card_eq_card_of_rel hrel)
    next hlen =>
      rw [ne_eq, Decidable.not_not] at hlen
      obtain ⟨hst, hiff⟩ := Pairing.pairAll_right (Right h)
        (rectangular_map hW hwa hwb) hlen
        (fun x hx y hy st st' r htest hst' =>
          heq htest (hua x hx) (hub y hy) (hwa x hx) (hwb y hy) hst') hrun hgood
      exact ⟨right_visit hst, hiff.trans hsame.symm⟩
  next => cases hrun
  next _ hnone =>
    cases hrun
    exact ⟨hgood, gone_right rfl hab ha hb hnone⟩

theorem eqEntry_right (heq : RightTest h W eq) {key value : Shape} {x y : Word × Word}
    {kx ky vx vy : Tree} {st st' : EqState} {r : Bool}
    (hrun : eqEntry eq key value x y st = some (r, st')) (hkx : Unfolds h key x.1 kx)
    (hky : Unfolds h key y.1 ky) (hvx : Unfolds h value x.2 vx) (hvy : Unfolds h value y.2 vy)
    (hwx : (Tree.seq 0 [kx, vx]).Within W) (hwy : (Tree.seq 0 [ky, vy]).Within W)
    (hgood : Right h st') : Right h st ∧
      (r = true ↔ (Tree.seq 0 [kx, vx]).Same h.anyEq (.seq 0 [ky, vy])) := by
  have hsame : (Tree.seq 0 [kx, vx]).Same h.anyEq (.seq 0 [ky, vy]) ↔
      kx.Same h.anyEq ky ∧ vx.Same h.anyEq vy := by simp [Tree.Same, Tree.SameAll]
  have hwkx : kx.Within W := hwx.item rfl (by simp)
  have hwky : ky.Within W := hwy.item rfl (by simp)
  have hwvx : vx.Within W := hwx.item rfl (by simp)
  have hwvy : vy.Within W := hwy.item rfl (by simp)
  obtain ⟨⟨rk, st₁⟩, hk, hrun⟩ := Option.bind_eq_some_iff.mp hrun
  dsimp only at hrun
  split at hrun
  next hrk =>
    obtain ⟨hst₁, hv⟩ := heq hrun hvx hvy hwvx hwvy hgood
    obtain ⟨hst, hiff⟩ := heq hk hkx hky hwkx hwky hst₁
    exact ⟨hst, hv.trans (hsame.trans (and_iff_right (hiff.mp hrk))).symm⟩
  next hrk =>
    cases hrun
    obtain ⟨hst, hiff⟩ := heq hk hkx hky hwkx hwky hgood
    refine ⟨hst, ?_⟩
    rw [hsame]
    simp only [Bool.false_eq_true, false_iff]
    exact fun hboth => hrk (hiff.mpr hboth.1)

theorem eqDict_right (hW : Tree.AnyRegular h.anyEq W) (heq : RightTest h W eq) {key value : Shape}
    {a b : Word} {st st' : EqState} {r : Bool} {ta tb : Tree} (hab : a ≠ b)
    (hrun : eqDict h eq key value a b st = some (r, st')) (ha : Unfolds h (.dict key value) a ta)
    (hb : Unfolds h (.dict key value) b tb) (hta : ta.Within W) (htb : tb.Within W)
    (hgood : Right h st') : Right h st ∧ (r = true ↔ ta.Same h.anyEq tb) := by
  unfold eqDict at hrun
  split at hrun
  next as bs hfa hfb =>
    obtain ⟨keyA, valueA, rfl, hua⟩ := ha.of_dict hfa
    obtain ⟨keyB, valueB, rfl, hub⟩ := hb.of_dict hfb
    have hwa : ∀ e ∈ as, (Tree.seq 0 [keyA e.1, valueA e.2]).Within W := within_map hta rfl
    have hwb : ∀ e ∈ bs, (Tree.seq 0 [keyB e.1, valueB e.2]).Within W := within_map htb rfl
    rw [Tree.Same, Tree.sameBag_iff, ← Multiset.map_coe, ← Multiset.map_coe, Multiset.rel_map]
    split at hrun
    next hlen =>
      cases hrun
      refine ⟨hgood, ?_⟩
      simp only [Bool.false_eq_true, false_iff]
      exact fun hrel => hlen (by simpa using Multiset.card_eq_card_of_rel hrel)
    next hlen =>
      rw [ne_eq, Decidable.not_not] at hlen
      have htest : ∀ x ∈ as, ∀ y ∈ bs, ∀ st st' r, eqEntry eq key value x y st = some (r, st') →
          Right h st' → Right h st ∧ (r = true ↔
            (Tree.seq 0 [keyA x.1, valueA x.2]).Same h.anyEq (.seq 0 [keyB y.1, valueB y.2])) :=
        fun x hx y hy st st' r htest hst' => eqEntry_right heq htest (hua x hx).1 (hub y hy).1
          (hua x hx).2 (hub y hy).2 (hwa x hx) (hwb y hy) hst'
      obtain ⟨hst, hiff⟩ :=
        Pairing.pairAll_right (Right h) (rectangular_map hW hwa hwb) hlen htest hrun hgood
      exact ⟨right_visit hst, hiff⟩
  next => cases hrun
  next _ hnone =>
    cases hrun
    exact ⟨hgood, gone_right rfl hab ha hb hnone⟩

theorem eqEnum_right (heq : RightTest h W eq) {variants : List (List Shape)} {a b : Word}
    {st st' : EqState} {r : Bool} {ta tb : Tree} (hab : a ≠ b)
    (hrun : eqEnum h eq variants a b st = some (r, st')) (ha : Unfolds h (.enum variants) a ta)
    (hb : Unfolds h (.enum variants) b tb) (hta : ta.Within W) (htb : tb.Within W)
    (hgood : Right h st') : Right h st ∧ (r = true ↔ ta.Same h.anyEq tb) := by
  unfold eqEnum at hrun
  split at hrun
  next aTag aPayload bTag bPayload hfa hfb =>
    obtain ⟨⟨payloadEqual, st₁⟩, hfields, hrun⟩ := Option.bind_eq_some_iff.mp hrun
    cases hrun
    obtain ⟨hla, treeA, rfl, hua⟩ := ha.of_enum hfa
    obtain ⟨hlb, treeB, rfl, hub⟩ := hb.of_enum hfb
    have hwa : ∀ p ∈ (TypedHeap.payloadShapes variants aTag).zip aPayload, (treeA p).Within W :=
      within_map hta rfl
    have hwb : ∀ p ∈ (TypedHeap.payloadShapes variants bTag).zip bPayload, (treeB p).Within W :=
      within_map htb rfl
    rw [Tree.Same, Tree.sameAll_iff]
    by_cases htag : aTag = bTag
    · subst htag
      rw [if_pos rfl] at hfields
      obtain ⟨hst, hiff⟩ := eqFields_right heq zip_shape
        (fun p hp => ⟨hua p.1 (List.of_mem_zip hp).1, hwa p.1 (List.of_mem_zip hp).1⟩)
        (fun p hp => ⟨hub p.2 (List.of_mem_zip hp).2, hwb p.2 (List.of_mem_zip hp).2⟩) hfields hgood
      refine ⟨right_visit hst, ?_⟩
      rw [forall₂_trees (by simp [hla, hlb])]
      simpa using hiff
    · rw [if_neg htag] at hfields
      cases hfields
      exact ⟨hgood, by simp [htag]⟩
  next => cases hrun
  next _ hnone =>
    cases hrun
    exact ⟨hgood, gone_right rfl hab ha hb hnone⟩

theorem strEq_right {anyEq : Word → Word → Bool} {a b : Word} {ta tb : Tree} (hab : a ≠ b)
    (ha : Unfolds h .str a ta) (hb : Unfolds h .str b tb) :
    strEq h a b = true ↔ ta.Same anyEq tb := by
  cases ha with
  | gone hs => cases hs
  | seq _ hitems => cases hitems
  | null =>
    cases hb with
    | gone hs => cases hs
    | seq _ hitems => cases hitems
    | null => exact absurd rfl hab
    | str hb =>
      unfold strEq
      rw [if_neg hab, if_pos (.inl rfl)]
      simp [Tree.Same]
  | str ha =>
    cases hb with
    | gone hs => cases hs
    | seq _ hitems => cases hitems
    | null =>
      unfold strEq
      rw [if_neg hab, if_pos (.inr rfl)]
      simp [Tree.Same]
    | str hb =>
      unfold strEq
      rw [if_neg hab, if_neg (not_or.mpr ⟨ha, hb⟩)]
      simp [Tree.Same]

theorem any_right {anyEq : Word → Word → Bool} {a b : Word} {ta tb : Tree} (hab : a ≠ b)
    (ha : Unfolds h .any a ta) (hb : Unfolds h .any b tb) :
    anyEq a b = true ↔ ta.Same anyEq tb := by
  cases ha with
  | gone hs => cases hs
  | seq _ hitems => cases hitems
  | any =>
    cases hb with
    | gone hs => cases hs
    | seq _ hitems => cases hitems
    | any => simp [Tree.Same, hab]

theorem leaf_right {anyEq : Word → Word → Bool} {a b : Word} {ta tb : Tree} (hab : a ≠ b)
    (ha : Unfolds h .leaf a ta) (hb : Unfolds h .leaf b tb) : ¬ ta.Same anyEq tb := by
  cases ha with
  | gone hs => cases hs
  | seq _ hitems => cases hitems
  | leaf =>
    cases hb with
    | gone hs => cases hs
    | seq _ hitems => cases hitems
    | leaf => simp [Tree.Same, hab]

theorem eqVal_right (hW : Tree.AnyRegular h.anyEq W) (fuel : Nat) : RightTest h W (eqVal h fuel) := by
  induction fuel with
  | zero =>
    intro s a b st r st' ta tb hrun
    cases hrun
  | succ fuel ih =>
    intro s a b st r st' ta tb hrun ha hb hta htb hgood
    unfold eqVal at hrun
    split at hrun
    next hab =>
      cases hrun
      subst hab
      obtain rfl := ha.unique hb
      exact ⟨hgood, iff_of_true rfl (Tree.Same.refl ta)⟩
    next hab =>
      split at hrun
      next =>
        cases hrun
        refine ⟨fun p hp => hgood p (List.mem_cons_of_mem _ hp), iff_of_true rfl ?_⟩
        exact hgood (s, a, b) (List.mem_cons_self ..) ta tb ha hb
      next =>
        cases s with
        | leaf =>
          cases hrun
          exact ⟨hgood, iff_of_false (by simp) (leaf_right hab ha hb)⟩
        | str =>
          cases hrun
          exact ⟨hgood, strEq_right hab ha hb⟩
        | any =>
          cases hrun
          exact ⟨hgood, any_right hab ha hb⟩
        | list item => exact eqParts_right ih rfl hab hrun ha hb hta htb hgood
        | set item => exact eqSet_right hW ih hab hrun ha hb hta htb hgood
        | tuple items => exact eqParts_right ih rfl hab hrun ha hb hta htb hgood
        | dict key value => exact eqDict_right hW ih hab hrun ha hb hta htb hgood
        | struct fields => exact eqParts_right ih rfl hab hrun ha hb hta htb hgood
        | enum variants => exact eqEnum_right ih hab hrun ha hb hta htb hgood
        | backref target => exact ih hrun ha.of_backref hb.of_backref hta htb hgood

end EqTyped

end Olive
