import Mathlib.Data.List.Flatten
import Olive.EqTypedRight

/-! Between values in which no slot is reached twice, no pair is met again. -/

namespace Olive

variable {h : TypedHeap}

theorem Tree.occupiedAll_eq (ts : List Tree) :
    Tree.occupiedAll h ts = ts.flatMap (Tree.occupied h) := by
  induction ts with
  | nil => rfl
  | cons t ts ih => rw [occupiedAll, ih, List.flatMap_cons]

/-- A live slot is reached at the top of its own value. -/
theorem Unfolds.mem_occupied {s : Shape} {w : Word} {t : Tree} (ht : Unfolds h s w t)
    (hw : (h.find w).isSome) : w ∈ t.occupied h := by
  induction ht with
  | backref _ ih => exact ih hw
  | null =>
    rw [Tree.occupied, if_pos hw]
    exact List.mem_singleton_self _
  | leaf => simp [Tree.occupied, hw]
  | str => simp [Tree.occupied, hw]
  | any => simp [Tree.occupied, hw]
  | gone => simp [Tree.occupied, hw]
  | seq => simp [Tree.occupied, hw]
  | set => simp [Tree.occupied, hw]
  | dict => simp [Tree.occupied, hw]
  | enum => simp [Tree.occupied, hw]

namespace EqTyped

/-- No pair of slots, one from each list, has been visited. -/
def Untouched (st : EqState) (xs ys : List Word) : Prop :=
  ∀ x ∈ xs, ∀ y ∈ ys, (x, y) ∉ st.visited

/-- A step that takes no answer, and visits only pairs from the two lists. -/
def Adds (st st' : EqState) (xs ys : List Word) : Prop :=
  st'.taken = st.taken ∧ ∀ p ∈ st'.visited, p ∈ st.visited ∨ (p.1 ∈ xs ∧ p.2 ∈ ys)

theorem Adds.refl (st : EqState) (xs ys : List Word) : Adds st st xs ys := ⟨rfl, fun _ hp => .inl hp⟩

theorem Adds.trans {st st' st'' : EqState} {xs ys : List Word} (h₁ : Adds st st' xs ys)
    (h₂ : Adds st' st'' xs ys) : Adds st st'' xs ys :=
  ⟨h₂.1.trans h₁.1, fun p hp => (h₂.2 p hp).elim (h₁.2 p) .inr⟩

theorem Adds.mono {st st' : EqState} {xs ys xs' ys' : List Word} (ha : Adds st st' xs ys)
    (hx : ∀ x ∈ xs, x ∈ xs') (hy : ∀ y ∈ ys, y ∈ ys') : Adds st st' xs' ys' :=
  ⟨ha.1, fun p hp => (ha.2 p hp).imp_right fun hin => ⟨hx _ hin.1, hy _ hin.2⟩⟩

theorem Untouched.mono {st : EqState} {xs ys xs' ys' : List Word} (hu : Untouched st xs ys)
    (hx : ∀ x ∈ xs', x ∈ xs) (hy : ∀ y ∈ ys', y ∈ ys) : Untouched st xs' ys' :=
  fun x hxs y hys => hu x (hx x hxs) y (hy y hys)

/-- What a step has not visited stays untouched when one of its sides is apart. -/
theorem Untouched.after {st st' : EqState} {xs ys us vs : List Word} (hu : Untouched st us vs)
    (ha : Adds st st' xs ys) (hapart : us.Disjoint xs ∨ vs.Disjoint ys) : Untouched st' us vs := by
  intro x hx y hy hmem
  rcases ha.2 _ hmem with hold | ⟨hxs, hys⟩
  · exact hu x hx y hy hold
  · rcases hapart with hd | hd
    · exact hd hx hxs
    · exact hd hy hys

variable {β : Type} {test : β → β → EqState → Option (Bool × EqState)} {xs ys : β → List Word}

theorem takeFirst_adds {a : β} {bs : List β} {st st' : EqState} {left : Option (List β)}
    (htest : ∀ b ∈ bs, ∀ st st' r, test a b st = some (r, st') → Untouched st (xs a) (ys b) →
      Adds st st' (xs a) (ys b))
    (hnodup : (bs.flatMap ys).Nodup) (hu : Untouched st (xs a) (bs.flatMap ys))
    (h : Pairing.takeFirst test a bs st = some (left, st')) :
    Adds st st' (xs a) (bs.flatMap ys) ∧ ∀ bs', left = some bs' → bs'.Sublist bs := by
  induction bs generalizing st left with
  | nil =>
    cases h
    exact ⟨.refl _ _ _, by simp⟩
  | cons b bs ih =>
    rw [List.flatMap_cons] at hnodup hu ⊢
    obtain ⟨_, hrest, hdisj⟩ := List.nodup_append'.mp hnodup
    simp only [Pairing.takeFirst] at h
    obtain ⟨⟨r, st₁⟩, ht, h⟩ := Option.bind_eq_some_iff.mp h
    have hadds := htest b (by simp) _ _ _ ht (hu.mono (fun _ hx => hx) (by simp +contextual))
    have hadds₁ : Adds st st₁ (xs a) (ys b ++ bs.flatMap ys) :=
      hadds.mono (fun _ hx => hx) (by simp +contextual)
    dsimp only at h
    split at h
    next =>
      cases h
      exact ⟨hadds₁, by simp⟩
    next =>
      obtain ⟨⟨left₁, st₂⟩, hfind, h⟩ := Option.bind_eq_some_iff.mp h
      cases h
      have hu₁ : Untouched st₁ (xs a) (bs.flatMap ys) :=
        (hu.mono (fun _ hx => hx) (by simp +contextual)).after hadds (.inr fun _ hy hb => hdisj hb hy)
      obtain ⟨hadds₂, hsub⟩ :=
        ih (fun c hc => htest c (List.mem_cons_of_mem _ hc)) hrest hu₁ hfind
      refine ⟨hadds₁.trans (hadds₂.mono (fun _ hx => hx) (by simp +contextual)), fun bs' heq => ?_⟩
      obtain ⟨bs₁, hbs₁, rfl⟩ := Option.map_eq_some_iff.mp heq
      exact (hsub bs₁ hbs₁).cons_cons b

theorem pairAll_adds {as bs : List β} {st st' : EqState} {paired : Bool}
    (htest : ∀ a ∈ as, ∀ b ∈ bs, ∀ st st' r, test a b st = some (r, st') →
      Untouched st (xs a) (ys b) → Adds st st' (xs a) (ys b))
    (hxs : (as.flatMap xs).Nodup) (hys : (bs.flatMap ys).Nodup)
    (hu : Untouched st (as.flatMap xs) (bs.flatMap ys))
    (h : Pairing.pairAll test as bs st = some (paired, st')) :
    Adds st st' (as.flatMap xs) (bs.flatMap ys) := by
  induction as generalizing bs st with
  | nil =>
    cases h
    exact .refl _ _ _
  | cons a as ih =>
    rw [List.flatMap_cons] at hxs hu ⊢
    obtain ⟨_, hrest, hdisj⟩ := List.nodup_append'.mp hxs
    simp only [Pairing.pairAll] at h
    obtain ⟨⟨left, st₁⟩, hfind, h⟩ := Option.bind_eq_some_iff.mp h
    obtain ⟨hadds, hsub⟩ := takeFirst_adds (htest a (by simp)) hys
      (hu.mono (by simp +contextual) fun _ hy => hy) hfind
    have hadds₁ : Adds st st₁ (xs a ++ as.flatMap xs) (bs.flatMap ys) :=
      hadds.mono (by simp +contextual) fun _ hy => hy
    dsimp only at h
    split at h
    next =>
      cases h
      exact hadds₁
    next bs' =>
      have hsublist := hsub bs' rfl
      have hmem : ∀ y ∈ bs'.flatMap ys, y ∈ bs.flatMap ys := by
        intro y hy
        obtain ⟨b, hb, hyb⟩ := List.mem_flatMap.mp hy
        exact List.mem_flatMap.mpr ⟨b, hsublist.subset hb, hyb⟩
      have hu₁ : Untouched st₁ (as.flatMap xs) (bs'.flatMap ys) :=
        (hu.mono (by simp +contextual) hmem).after hadds (.inl fun _ hx ha => hdisj ha hx)
      refine hadds₁.trans ((ih (fun x hx b hb => htest x (List.mem_cons_of_mem _ hx) b
        (hsublist.subset hb)) hrest (hys.sublist (hsublist.flatMap ys)) hu₁ h).mono
        (by simp +contextual) hmem)

theorem eqFields_adds {eq : Test} {as bs : List (Shape × Word)} {xs ys : Shape × Word → List Word}
    {equal r : Bool} {st st' : EqState}
    (htest : ∀ p ∈ as.zip bs, ∀ st st' r, eq p.1.1 p.1.2 p.2.2 st = some (r, st') →
      Untouched st (xs p.1) (ys p.2) → Adds st st' (xs p.1) (ys p.2))
    (hxs : (as.flatMap xs).Nodup) (hu : Untouched st (as.flatMap xs) (bs.flatMap ys))
    (h : eqFields eq (as.zip bs) equal st = some (r, st')) :
    Adds st st' (as.flatMap xs) (bs.flatMap ys) := by
  induction as generalizing bs equal st with
  | nil =>
    cases h
    exact .refl _ _ _
  | cons a as ih =>
    cases bs with
    | nil =>
      cases h
      exact .refl _ _ _
    | cons b bs =>
      rw [List.flatMap_cons, List.flatMap_cons] at *
      obtain ⟨_, hrest, hdisj⟩ := List.nodup_append'.mp hxs
      simp only [List.zip_cons_cons, eqFields] at h
      obtain ⟨⟨r₁, st₁⟩, ht, h⟩ := Option.bind_eq_some_iff.mp h
      rw [List.zip_cons_cons, List.forall_mem_cons] at htest
      have hadds := htest.1 _ _ _ ht (hu.mono (by simp +contextual) (by simp +contextual))
      have hu₁ : Untouched st₁ (as.flatMap xs) (bs.flatMap ys) :=
        (hu.mono (by simp +contextual) (by simp +contextual)).after hadds
          (.inl fun _ hx ha => hdisj ha hx)
      exact (hadds.mono (by simp +contextual) (by simp +contextual)).trans
        ((ih htest.2 hrest hu₁ h).mono (by simp +contextual) (by simp +contextual))

theorem untouched_visit {st : EqState} {a b : Word} {us vs : List Word}
    (hu : Untouched st (a :: us) (b :: vs)) (ha : a ∉ us) : Untouched (st.visit a b) us vs := by
  intro x hx y hy hmem
  rcases List.mem_cons.mp hmem with heq | hold
  · exact ha ((Prod.mk.inj heq).1 ▸ hx)
  · exact hu x (List.mem_cons_of_mem _ hx) y (List.mem_cons_of_mem _ hy) hold

theorem adds_visit {st st' : EqState} {a b : Word} {us vs : List Word}
    (hadds : Adds (st.visit a b) st' us vs) : Adds st st' (a :: us) (b :: vs) := by
  refine ⟨hadds.1, fun p hp => ?_⟩
  rcases hadds.2 p hp with hold | ⟨hx, hy⟩
  · rcases List.mem_cons.mp hold with rfl | hold
    · exact .inr ⟨List.mem_cons_self .., List.mem_cons_self ..⟩
    · exact .inl hold
  · exact .inr ⟨List.mem_cons_of_mem _ hx, List.mem_cons_of_mem _ hy⟩

/-- The slots of a live node are its own and those of its parts. -/
theorem occupied_node {γ : Type} {w : Word} {t : Tree} {o : SlotContents} {items : List γ}
    {tree : γ → Tree} (hw : h.find w = some o)
    (ht : t.occupied h =
      (if (h.find w).isSome then [w] else []) ++ Tree.occupiedAll h (items.map tree)) :
    t.occupied h = w :: items.flatMap fun x => (tree x).occupied h := by
  rw [ht, hw, Tree.occupiedAll_eq, List.flatMap_map]
  rfl

def FreshTest (h : TypedHeap) (eq : Test) : Prop :=
  ∀ s a b st r st' ta tb, eq s a b st = some (r, st') → Unfolds h s a ta → Unfolds h s b tb →
    (ta.occupied h).Nodup → (tb.occupied h).Nodup →
    Untouched st (ta.occupied h) (tb.occupied h) →
    Adds st st' (ta.occupied h) (tb.occupied h)

variable {eq : Test}

theorem nodup_part {γ : Type} {items : List γ} {tree : γ → Tree} {x : γ}
    (hn : (items.flatMap fun x => (tree x).occupied h).Nodup) (hx : x ∈ items) :
    ((tree x).occupied h).Nodup := (List.nodup_flatMap.mp hn).1 x hx

theorem eqParts_adds (heq : FreshTest h eq) {s : Shape} {a b : Word} {st st' : EqState} {r : Bool}
    {ta tb : Tree} (hrun : eqParts h eq s a b st = some (r, st')) (ha : Unfolds h s a ta)
    (hb : Unfolds h s b tb) (hna : (ta.occupied h).Nodup) (hnb : (tb.occupied h).Nodup)
    (hu : Untouched st (ta.occupied h) (tb.occupied h)) :
    Adds st st' (ta.occupied h) (tb.occupied h) := by
  unfold eqParts at hrun
  split at hrun
  next oa ob hfa hfb =>
    obtain ⟨as, has, hrun⟩ := Option.bind_eq_some_iff.mp hrun
    obtain ⟨bs, hbs, hrun⟩ := Option.bind_eq_some_iff.mp hrun
    obtain ⟨treeA, rfl, hua⟩ := ha.of_parts hfa has
    obtain ⟨treeB, rfl, hub⟩ := hb.of_parts hfb hbs
    split at hrun
    next =>
      cases hrun
      exact .refl _ _ _
    next =>
      have hoa : (Tree.seq a (as.map treeA)).occupied h = _ := occupied_node hfa rfl
      have hob : (Tree.seq b (bs.map treeB)).occupied h = _ := occupied_node hfb rfl
      rw [hoa] at hna hu ⊢
      rw [hob] at hnb hu ⊢
      obtain ⟨hnot, hna⟩ := List.nodup_cons.mp hna
      obtain ⟨_, hnb⟩ := List.nodup_cons.mp hnb
      refine adds_visit (eqFields_adds (fun p hp st st' r htest hu => ?_) hna
        (untouched_visit hu hnot) hrun)
      obtain ⟨hpa, hpb⟩ := List.of_mem_zip hp
      exact heq _ _ _ _ _ _ _ _ htest (hua p.1 hpa) (parts_shape has hbs p hp ▸ hub p.2 hpb)
        (nodup_part hna hpa) (nodup_part hnb hpb) hu
  next =>
    cases hrun
    exact .refl _ _ _

theorem eqSet_adds (heq : FreshTest h eq) {item : Shape} {a b : Word} {st st' : EqState} {r : Bool}
    {ta tb : Tree} (hrun : eqSet h eq item a b st = some (r, st')) (ha : Unfolds h (.set item) a ta)
    (hb : Unfolds h (.set item) b tb) (hna : (ta.occupied h).Nodup) (hnb : (tb.occupied h).Nodup)
    (hu : Untouched st (ta.occupied h) (tb.occupied h)) :
    Adds st st' (ta.occupied h) (tb.occupied h) := by
  unfold eqSet at hrun
  split at hrun
  next as bs hfa hfb =>
    obtain ⟨treeA, rfl, hua⟩ := ha.of_set hfa
    obtain ⟨treeB, rfl, hub⟩ := hb.of_set hfb
    split at hrun
    next =>
      cases hrun
      exact .refl _ _ _
    next =>
      have hoa : (Tree.bag a (as.map treeA)).occupied h = _ := occupied_node hfa rfl
      have hob : (Tree.bag b (bs.map treeB)).occupied h = _ := occupied_node hfb rfl
      rw [hoa] at hna hu ⊢
      rw [hob] at hnb hu ⊢
      obtain ⟨hnot, hna⟩ := List.nodup_cons.mp hna
      obtain ⟨_, hnb⟩ := List.nodup_cons.mp hnb
      exact adds_visit (pairAll_adds (fun x hx y hy st st' r htest hu =>
        heq _ _ _ _ _ _ _ _ htest (hua x hx) (hub y hy) (nodup_part hna hx) (nodup_part hnb hy) hu)
        hna hnb (untouched_visit hu hnot) hrun)
  next => cases hrun
  next =>
    cases hrun
    exact .refl _ _ _

/-- The node of an entry is no slot. -/
theorem occupied_entry (k v : Tree) :
    (Tree.seq 0 [k, v]).occupied h = k.occupied h ++ v.occupied h := by
  simp [Tree.occupied, Tree.occupiedAll, TypedHeap.find]

theorem eqEntry_adds (heq : FreshTest h eq) {key value : Shape} {x y : Word × Word}
    {kx ky vx vy : Tree} {st st' : EqState} {r : Bool}
    (hrun : eqEntry eq key value x y st = some (r, st')) (hkx : Unfolds h key x.1 kx)
    (hky : Unfolds h key y.1 ky) (hvx : Unfolds h value x.2 vx) (hvy : Unfolds h value y.2 vy)
    (hnx : ((Tree.seq 0 [kx, vx]).occupied h).Nodup)
    (hny : ((Tree.seq 0 [ky, vy]).occupied h).Nodup)
    (hu : Untouched st ((Tree.seq 0 [kx, vx]).occupied h) ((Tree.seq 0 [ky, vy]).occupied h)) :
    Adds st st' ((Tree.seq 0 [kx, vx]).occupied h) ((Tree.seq 0 [ky, vy]).occupied h) := by
  rw [occupied_entry] at *
  obtain ⟨hnkx, hnvx, hdisj⟩ := List.nodup_append'.mp hnx
  rw [occupied_entry] at *
  obtain ⟨hnky, hnvy, _⟩ := List.nodup_append'.mp hny
  obtain ⟨⟨rk, st₁⟩, hk, hrun⟩ := Option.bind_eq_some_iff.mp hrun
  have hadds := heq _ _ _ _ _ _ _ _ hk hkx hky hnkx hnky
    (hu.mono (by simp +contextual) (by simp +contextual))
  have hadds₁ : Adds st st₁ (kx.occupied h ++ vx.occupied h) (ky.occupied h ++ vy.occupied h) :=
    hadds.mono (by simp +contextual) (by simp +contextual)
  dsimp only at hrun
  split at hrun
  next =>
    have hu₁ : Untouched st₁ (vx.occupied h) (vy.occupied h) :=
      (hu.mono (by simp +contextual) (by simp +contextual)).after hadds
        (.inl fun _ hx ha => hdisj ha hx)
    exact hadds₁.trans ((heq _ _ _ _ _ _ _ _ hrun hvx hvy hnvx hnvy hu₁).mono
      (by simp +contextual) (by simp +contextual))
  next =>
    cases hrun
    exact hadds₁

theorem eqDict_adds (heq : FreshTest h eq) {key value : Shape} {a b : Word} {st st' : EqState}
    {r : Bool} {ta tb : Tree} (hrun : eqDict h eq key value a b st = some (r, st'))
    (ha : Unfolds h (.dict key value) a ta) (hb : Unfolds h (.dict key value) b tb)
    (hna : (ta.occupied h).Nodup) (hnb : (tb.occupied h).Nodup)
    (hu : Untouched st (ta.occupied h) (tb.occupied h)) :
    Adds st st' (ta.occupied h) (tb.occupied h) := by
  unfold eqDict at hrun
  split at hrun
  next as bs hfa hfb =>
    obtain ⟨keyA, valueA, rfl, hua⟩ := ha.of_dict hfa
    obtain ⟨keyB, valueB, rfl, hub⟩ := hb.of_dict hfb
    split at hrun
    next =>
      cases hrun
      exact .refl _ _ _
    next =>
      have hoa : (Tree.bag a (as.map fun e => .seq 0 [keyA e.1, valueA e.2])).occupied h = _ :=
        occupied_node hfa rfl
      have hob : (Tree.bag b (bs.map fun e => .seq 0 [keyB e.1, valueB e.2])).occupied h = _ :=
        occupied_node hfb rfl
      rw [hoa] at hna hu ⊢
      rw [hob] at hnb hu ⊢
      obtain ⟨hnot, hna⟩ := List.nodup_cons.mp hna
      obtain ⟨_, hnb⟩ := List.nodup_cons.mp hnb
      exact adds_visit (pairAll_adds (fun x hx y hy st st' r htest hu =>
        eqEntry_adds heq htest (hua x hx).1 (hub y hy).1 (hua x hx).2 (hub y hy).2
          ((List.nodup_flatMap.mp hna).1 x hx) ((List.nodup_flatMap.mp hnb).1 y hy) hu) hna hnb (untouched_visit hu hnot) hrun)
  next => cases hrun
  next =>
    cases hrun
    exact .refl _ _ _

theorem eqEnum_adds (heq : FreshTest h eq) {variants : List (List Shape)} {a b : Word}
    {st st' : EqState} {r : Bool} {ta tb : Tree}
    (hrun : eqEnum h eq variants a b st = some (r, st')) (ha : Unfolds h (.enum variants) a ta)
    (hb : Unfolds h (.enum variants) b tb) (hna : (ta.occupied h).Nodup)
    (hnb : (tb.occupied h).Nodup) (hu : Untouched st (ta.occupied h) (tb.occupied h)) :
    Adds st st' (ta.occupied h) (tb.occupied h) := by
  unfold eqEnum at hrun
  split at hrun
  next aTag aPayload bTag bPayload hfa hfb =>
    obtain ⟨⟨payloadEqual, st₁⟩, hfields, hrun⟩ := Option.bind_eq_some_iff.mp hrun
    cases hrun
    obtain ⟨_, treeA, rfl, hua⟩ := ha.of_enum hfa
    obtain ⟨_, treeB, rfl, hub⟩ := hb.of_enum hfb
    have hoa := occupied_node (t := .variant a aTag
      (((TypedHeap.payloadShapes variants aTag).zip aPayload).map treeA)) hfa rfl
    have hob := occupied_node (t := .variant b bTag
      (((TypedHeap.payloadShapes variants bTag).zip bPayload).map treeB)) hfb rfl
    rw [hoa] at hna hu ⊢
    rw [hob] at hnb hu ⊢
    obtain ⟨hnot, hna⟩ := List.nodup_cons.mp hna
    obtain ⟨_, hnb⟩ := List.nodup_cons.mp hnb
    by_cases htag : aTag = bTag
    · subst htag
      rw [if_pos rfl] at hfields
      refine adds_visit (eqFields_adds (fun p hp st st' r htest hu => ?_) hna
        (untouched_visit hu hnot) hfields)
      obtain ⟨hpa, hpb⟩ := List.of_mem_zip hp
      exact heq _ _ _ _ _ _ _ _ htest (hua p.1 hpa) (zip_shape p hp ▸ hub p.2 hpb)
        (nodup_part hna hpa) (nodup_part hnb hpb) hu
    · rw [if_neg htag] at hfields
      cases hfields
      exact adds_visit (.refl _ _ _)
  next => cases hrun
  next =>
    cases hrun
    exact .refl _ _ _

theorem eqVal_adds (fuel : Nat) : FreshTest h (eqVal h fuel) := by
  induction fuel with
  | zero =>
    intro s a b st r st' ta tb hrun
    cases hrun
  | succ fuel ih =>
    intro s a b st r st' ta tb hrun ha hb hna hnb hu
    unfold eqVal at hrun
    split at hrun
    next =>
      cases hrun
      exact .refl _ _ _
    next =>
      split at hrun
      next hvisited =>
        exact absurd hvisited.2.2 (hu a (ha.mem_occupied hvisited.1) b
          (hb.mem_occupied hvisited.2.1))
      next =>
        cases s with
        | leaf =>
          cases hrun
          exact .refl _ _ _
        | str =>
          cases hrun
          exact .refl _ _ _
        | any =>
          cases hrun
          exact .refl _ _ _
        | list item => exact eqParts_adds ih hrun ha hb hna hnb hu
        | set item => exact eqSet_adds ih hrun ha hb hna hnb hu
        | tuple items => exact eqParts_adds ih hrun ha hb hna hnb hu
        | dict key value => exact eqDict_adds ih hrun ha hb hna hnb hu
        | struct fields => exact eqParts_adds ih hrun ha hb hna hnb hu
        | enum variants => exact eqEnum_adds ih hrun ha hb hna hnb hu
        | backref target =>
          exact ih _ _ _ _ _ _ _ _ hrun ha.of_backref hb.of_backref hna hnb hu

/-- Between values in which no slot is reached twice, the comparison takes no answer. -/
theorem taken_of_unshared {fuel : Nat} {s : Shape} {a b : Word} {r : Bool} {st : EqState}
    {ta tb : Tree} (hrun : oliveEqTyped h fuel s a b = some (r, st)) (ha : Unfolds h s a ta)
    (hb : Unfolds h s b tb) (hna : (ta.occupied h).Nodup) (hnb : (tb.occupied h).Nodup) :
    st.taken = [] :=
  (eqVal_adds fuel _ _ _ _ _ _ _ _ hrun ha hb hna hnb fun _ _ _ _ hmem => by cases hmem).1

end EqTyped

end Olive
