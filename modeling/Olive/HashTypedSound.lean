import Olive.EqTypedSound
import Olive.HashTypedReturns

/-! What `hash_val` gives values that are equal. -/

namespace Olive

variable {h : TypedHeap}

namespace HashTyped

variable {fx : FxHasher} {T : Shape → Word → Prop}

/-- Equal also when the `Any` and bytes leaves are compared as words. -/
abbrev Identical : Tree → Tree → Prop := Tree.Same fun _ _ => false

/-- Every slot that a walk visits is one of the value. -/
def Visits (h : TypedHeap) (hash : Hash) : Prop :=
  ∀ s w visited x visited' t, hash s w visited = some (x, visited') → Unfolds h s w t →
    ∀ v ∈ visited', v ∈ visited ∨ v ∈ t.occupied h

theorem commutative_perm {xs ys : List Word} (hp : xs.Perm ys) : commutative xs = commutative ys := by
  have : RightCommutative (fun x y : Word => x ^^^ y) := ⟨fun x y z => by
    rw [BitVec.xor_assoc, BitVec.xor_comm y z, ← BitVec.xor_assoc]⟩
  exact hp.foldl_eq 0

section Parts

variable {β : Type} {f : β → List Word → Option (Word × List Word)} {occ : β → List Word}
  {items : List β} {visited visited' xs : List Word}

/-- The hash of a part when none of its slots has been visited. -/
def Hashed (f : β → List Word → Option (Word × List Word)) (occ : β → List Word) (b : β) (x : Word) :
    Prop := ∃ visited visited', f b visited = some (x, visited') ∧ (occ b).Disjoint visited

theorem hashAll_visits
    (hf : ∀ b ∈ items, ∀ visited x visited', f b visited = some (x, visited') →
      ∀ v ∈ visited', v ∈ visited ∨ v ∈ occ b)
    (hrun : hashAll f items visited = some (xs, visited')) :
    ∀ v ∈ visited', v ∈ visited ∨ v ∈ items.flatMap occ := by
  induction items generalizing visited xs with
  | nil =>
    cases hrun
    exact fun v hv => .inl hv
  | cons b items ih =>
    simp only [hashAll] at hrun
    obtain ⟨⟨x, visited₁⟩, hb, hrun⟩ := Option.bind_eq_some_iff.mp hrun
    obtain ⟨⟨ys, visited₂⟩, hrest, hrun⟩ := Option.bind_eq_some_iff.mp hrun
    cases hrun
    intro v hv
    rw [List.flatMap_cons, List.mem_append]
    rcases ih (fun c hc => hf c (List.mem_cons_of_mem _ hc)) hrest v hv with hv | hv
    · rcases hf b (by simp) _ _ _ hb v hv with hv | hv
      · exact .inl hv
      · exact .inr (.inl hv)
    · exact .inr (.inr hv)

/-- Each part of a value in which no slot is reached twice is hashed when none of its slots has been
visited. -/
theorem hashAll_fresh
    (hf : ∀ b ∈ items, ∀ visited x visited', f b visited = some (x, visited') →
      ∀ v ∈ visited', v ∈ visited ∨ v ∈ occ b)
    (hnodup : (items.flatMap occ).Nodup) (hnew : (items.flatMap occ).Disjoint visited)
    (hrun : hashAll f items visited = some (xs, visited')) :
    List.Forall₂ (Hashed f occ) items xs := by
  induction items generalizing visited xs with
  | nil =>
    cases hrun
    exact .nil
  | cons b items ih =>
    simp only [hashAll] at hrun
    obtain ⟨⟨x, visited₁⟩, hb, hrun⟩ := Option.bind_eq_some_iff.mp hrun
    obtain ⟨⟨ys, visited₂⟩, hrest, hrun⟩ := Option.bind_eq_some_iff.mp hrun
    cases hrun
    rw [List.flatMap_cons] at hnodup hnew
    obtain ⟨_, hnodup, hapart⟩ := List.nodup_append'.mp hnodup
    rw [List.disjoint_append_left] at hnew
    refine .cons ⟨visited, visited₁, hb, hnew.1⟩
      (ih (fun c hc => hf c (List.mem_cons_of_mem _ hc)) hnodup ?_ hrest)
    intro v hv hv₁
    rcases hf b (by simp) _ _ _ hb v hv₁ with hold | hown
    · exact hnew.2 hv hold
    · exact hapart hown hv

variable {γ : Type} {f' : γ → List Word → Option (Word × List Word)} {occ' : γ → List Word}
  {items' : List γ} {ys : List Word} {r : β → γ → Prop}

theorem hashed_agree (hx : List.Forall₂ (Hashed f occ) items xs)
    (hy : List.Forall₂ (Hashed f' occ') items' ys) (hr : List.Forall₂ r items items')
    (hagree : ∀ b ∈ items, ∀ c ∈ items', r b c → ∀ x y, Hashed f occ b x → Hashed f' occ' c y → x = y) :
    xs = ys := by
  have hxr : List.Forall₂ (fun x c => ∃ b ∈ items, Hashed f occ b x ∧ r b c) xs items' :=
    Pairing.forall₂_trans_on (fun x _ b hb c _ hbx hbc => ⟨b, hb, hbx, hbc⟩) hx.flip hr
  have heq : List.Forall₂ Eq xs ys := by
    refine Pairing.forall₂_trans_on (fun x _ c hc y _ hxc hcy => ?_) hxr hy
    obtain ⟨b, hb, hbx, hbc⟩ := hxc
    exact hagree b hb c hc hbc x y hbx hcy
  rwa [List.forall₂_eq_eq_eq] at heq

theorem hashed_agree_bag (hx : List.Forall₂ (Hashed f occ) items xs)
    (hy : List.Forall₂ (Hashed f' occ') items' ys)
    (hr : Multiset.Rel r (items : Multiset β) (items' : Multiset γ))
    (hagree : ∀ b ∈ items, ∀ c ∈ items', r b c → ∀ x y, Hashed f occ b x → Hashed f' occ' c y → x = y) :
    commutative xs = commutative ys := by
  have hxr : Multiset.Rel (fun x c => ∃ b ∈ items, Hashed f occ b x ∧ r b c) (xs : Multiset Word)
      (items' : Multiset γ) :=
    Pairing.rel_trans_on (fun x _ b hb c _ hbx hbc => ⟨b, hb, hbx, hbc⟩)
      (Pairing.rel_of_forall₂ hx.flip) hr
  have heq : Multiset.Rel Eq (xs : Multiset Word) (ys : Multiset Word) := by
    refine Pairing.rel_trans_on (fun x _ c hc y _ hxc hcy => ?_) hxr (Pairing.rel_of_forall₂ hy)
    obtain ⟨b, hb, hbx, hbc⟩ := hxc
    exact hagree b hb c hc hbc x y hbx hcy
  rw [Multiset.rel_eq, Multiset.coe_eq_coe] at heq
  exact commutative_perm heq

end Parts

section Visits

variable {hash : Hash} {s : Shape} {w x : Word} {visited visited' : List Word} {t : Tree}

theorem hashParts_visits (hv : Visits h hash) (ht : Unfolds h s w t)
    (hrun : hashParts h fx hash s w visited = some (x, visited')) :
    ∀ v ∈ visited', v ∈ visited ∨ v ∈ t.occupied h := by
  unfold hashParts at hrun
  split at hrun
  next =>
    cases hrun
    exact fun v hv => .inl hv
  next o hw =>
    obtain ⟨items, hitems, hrun⟩ := Option.bind_eq_some_iff.mp hrun
    obtain ⟨⟨xs, visited₁⟩, hall, hrun⟩ := Option.bind_eq_some_iff.mp hrun
    cases hrun
    obtain ⟨tree, rfl, hu⟩ := ht.of_parts hw hitems
    rw [show (Tree.seq w (items.map tree)).occupied h = _ from EqTyped.occupied_node hw rfl]
    intro v hmem
    refine (hashAll_visits (fun p hp visited x visited' hrun => ?_) hall v hmem).imp_right
      (List.mem_cons_of_mem w)
    exact hv p.1 p.2 visited x visited' (tree p) hrun (hu p hp)

theorem hashSet_visits (hv : Visits h hash) {item : Shape} (ht : Unfolds h (.set item) w t)
    (hrun : hashSet h fx hash item w visited = some (x, visited')) :
    ∀ v ∈ visited', v ∈ visited ∨ v ∈ t.occupied h := by
  unfold hashSet at hrun
  split at hrun
  next =>
    cases hrun
    exact fun v hv => .inl hv
  next items hw =>
    obtain ⟨⟨xs, visited₁⟩, hall, hrun⟩ := Option.bind_eq_some_iff.mp hrun
    cases hrun
    obtain ⟨tree, rfl, hu⟩ := ht.of_set hw
    rw [show (Tree.bag w (items.map tree)).occupied h = _ from EqTyped.occupied_node hw rfl]
    intro v hmem
    refine (hashAll_visits (fun u hu' visited x visited' hrun => ?_) hall v hmem).imp_right
      (List.mem_cons_of_mem w)
    exact hv item u visited x visited' (tree u) hrun (hu u hu')
  next => cases hrun

theorem hashEntry_visits (hv : Visits h hash) {key value : Shape} {e : Word × Word} {tk tv : Tree}
    (hk : Unfolds h key e.1 tk) (hval : Unfolds h value e.2 tv)
    (hrun : hashEntry fx hash key value e visited = some (x, visited')) :
    ∀ v ∈ visited', v ∈ visited ∨ v ∈ (Tree.seq 0 [tk, tv]).occupied h := by
  obtain ⟨⟨kh, visited₁⟩, hkey, hrun⟩ := Option.bind_eq_some_iff.mp hrun
  obtain ⟨⟨vh, visited₂⟩, hvalue, hrun⟩ := Option.bind_eq_some_iff.mp hrun
  cases hrun
  intro v hmem
  rw [EqTyped.occupied_entry, List.mem_append]
  rcases hv value e.2 visited₁ vh visited' tv hvalue hval v hmem with hold | hown
  · exact (hv key e.1 visited kh visited₁ tk hkey hk v hold).imp_right .inl
  · exact .inr (.inr hown)

theorem hashDict_visits (hv : Visits h hash) {key value : Shape}
    (ht : Unfolds h (.dict key value) w t)
    (hrun : hashDict h fx hash key value w visited = some (x, visited')) :
    ∀ v ∈ visited', v ∈ visited ∨ v ∈ t.occupied h := by
  unfold hashDict at hrun
  split at hrun
  next =>
    cases hrun
    exact fun v hv => .inl hv
  next entries hw =>
    obtain ⟨⟨xs, visited₁⟩, hall, hrun⟩ := Option.bind_eq_some_iff.mp hrun
    cases hrun
    obtain ⟨keyTree, valueTree, rfl, hu⟩ := ht.of_dict hw
    rw [show (Tree.bag w (entries.map fun e => .seq 0 [keyTree e.1, valueTree e.2])).occupied h = _
      from EqTyped.occupied_node hw rfl]
    intro v hmem
    refine (hashAll_visits (fun e he visited x visited' hrun => ?_) hall v hmem).imp_right
      (List.mem_cons_of_mem w)
    exact hashEntry_visits hv (hu e he).1 (hu e he).2 hrun
  next => cases hrun

theorem hashEnum_visits (hv : Visits h hash) {variants : List (List Shape)}
    (ht : Unfolds h (.enum variants) w t)
    (hrun : hashEnum h fx hash variants w visited = some (x, visited')) :
    ∀ v ∈ visited', v ∈ visited ∨ v ∈ t.occupied h := by
  unfold hashEnum at hrun
  split at hrun
  next =>
    cases hrun
    exact fun v hv => .inl hv
  next tag payload hw =>
    obtain ⟨⟨xs, visited₁⟩, hall, hrun⟩ := Option.bind_eq_some_iff.mp hrun
    cases hrun
    obtain ⟨_, tree, rfl, hu⟩ := ht.of_enum hw
    rw [EqTyped.occupied_node (t := .variant w tag
      (((TypedHeap.payloadShapes variants tag).zip payload).map tree)) hw rfl]
    intro v hmem
    refine (hashAll_visits (fun p hp visited x visited' hrun => ?_) hall v hmem).imp_right
      (List.mem_cons_of_mem w)
    exact hv p.1 p.2 visited x visited' (tree p) hrun (hu p hp)
  next => cases hrun

theorem hashVal_visits (fx : FxHasher) (fuel : Nat) : Visits h (hashVal h fx fuel) := by
  induction fuel with
  | zero =>
    intro s w visited x visited' t hrun
    cases hrun
  | succ fuel ih =>
    intro s w visited x visited' t hrun ht
    unfold hashVal at hrun
    split at hrun
    next =>
      cases hrun
      exact fun v hv => .inl hv
    next =>
      have hbegun : ∀ v ∈ begun h w visited, v ∈ visited ∨ v ∈ t.occupied h := by
        intro v hv
        unfold begun at hv
        split at hv
        next hw =>
          rcases List.mem_cons.mp hv with rfl | hv
          · exact .inr (ht.mem_occupied hw)
          · exact .inl hv
        next => exact .inl hv
      have hrest : ∀ v ∈ visited', v ∈ begun h w visited ∨ v ∈ t.occupied h := by
        cases s with
        | leaf =>
          cases hrun
          exact fun v hv => .inl hv
        | str =>
          cases hrun
          exact fun v hv => .inl hv
        | any =>
          cases hrun
          exact fun v hv => .inl hv
        | list item => exact hashParts_visits ih ht hrun
        | set item => exact hashSet_visits ih ht hrun
        | tuple items => exact hashParts_visits ih ht hrun
        | dict key value => exact hashDict_visits ih ht hrun
        | struct fields => exact hashParts_visits ih ht hrun
        | enum variants => exact hashEnum_visits ih ht hrun
        | backref target => exact ih _ _ _ _ _ _ hrun ht.of_backref
      intro v hv
      exact (hrest v hv).elim (hbegun v) .inr

end Visits

/-- Identical values that are fresh have one hash. -/
def Agrees (h : TypedHeap) (T : Shape → Word → Prop) (hash hash' : Hash) : Prop :=
  ∀ s a b ta tb x y, T s a → T s b → Unfolds h s a ta → Unfolds h s b tb → (ta.occupied h).Nodup →
    (tb.occupied h).Nodup → Identical ta tb → Hashed (hash s) (fun _ => ta.occupied h) a x →
    Hashed (hash' s) (fun _ => tb.occupied h) b y → x = y

section Agrees

variable {hash hash' : Hash} {s : Shape} {a b x y : Word} {ta tb : Tree} {va va' vb vb' : List Word}

theorem live_together (hs : s.isAggregate) (ha : Unfolds h s a ta) (hb : Unfolds h s b tb)
    (hsame : Identical ta tb) :
    (h.find a = none ∧ h.find b = none) ∨ ∃ oa ob, h.find a = some oa ∧ h.find b = some ob := by
  cases hfa : h.find a with
  | none =>
    cases hfb : h.find b with
    | none => exact .inl ⟨rfl, rfl⟩
    | some ob =>
      have hab : a ≠ b := fun heq => by simp [← heq, hfa] at hfb
      exact absurd hsame (not_same_of_gone hs hab ha hb (.inl hfa))
  | some oa =>
    cases hfb : h.find b with
    | none =>
      have hab : a ≠ b := fun heq => by simp [← heq, hfa] at hfb
      exact absurd hsame (not_same_of_gone hs hab ha hb (.inr hfb))
    | some ob => exact .inr ⟨oa, ob, rfl, rfl⟩

/-- What is left of a live node once it has been visited. -/
theorem rest_fresh {visited rest : List Word} {w : Word} {t : Tree} (hnodup : (t.occupied h).Nodup)
    (hnew : (t.occupied h).Disjoint visited) (ht : t.occupied h = w :: rest) :
    rest.Nodup ∧ rest.Disjoint (w :: visited) := by
  rw [ht] at hnodup hnew
  obtain ⟨hnot, hnodup⟩ := List.nodup_cons.mp hnodup
  rw [List.disjoint_cons_left] at hnew
  exact ⟨hnodup, List.disjoint_cons_right.mpr ⟨hnot, hnew.2⟩⟩

theorem hashStr_same (ha : Unfolds h .str a ta) (hb : Unfolds h .str b tb)
    (hsame : Identical ta tb) : hashStr h fx a = hashStr h fx b := by
  by_cases hab : a = b
  · rw [hab]
  · have heq := (EqTyped.strEq_right hab ha hb).mpr hsame
    unfold EqTyped.strEq at heq
    rw [if_neg hab] at heq
    split at heq
    next => cases heq
    next hne =>
      obtain ⟨hna, hnb⟩ := not_or.mp hne
      rw [hashStr, hashStr, if_neg hna, if_neg hnb, of_decide_eq_true heq]

theorem hashVal_visited {fuel : Nat} {w : Word} {o : SlotContents} {visited visited' : List Word}
    (hw : h.find w = some o)
    (hrun : hashVal h fx fuel s w (if (h.find w).isSome then w :: visited else visited) =
      some (x, visited')) : x = 0 := by
  cases fuel with
  | zero => cases hrun
  | succ fuel =>
    simp only [hw, Option.isSome_some, if_true, hashVal, List.mem_cons_self, and_self,
      Option.some.injEq, Prod.mk.injEq] at hrun
    exact hrun.1.symm

section Parts

variable {as bs : List (Shape × Word)} {treeA treeB : Shape × Word → Tree} {xs ys : List Word}

/-- Parts whose number and order the type gives. -/
theorem parts_agree (hagree : Agrees h T hash hash') (hvis : Visits h hash)
    (hvis' : Visits h hash') (hshape : ∀ p ∈ as.zip bs, p.1.1 = p.2.1)
    (hta : ∀ p ∈ as, T p.1 p.2) (htb : ∀ p ∈ bs, T p.1 p.2)
    (hua : ∀ p ∈ as, Unfolds h p.1 p.2 (treeA p)) (hub : ∀ p ∈ bs, Unfolds h p.1 p.2 (treeB p))
    (hna : (as.flatMap fun p => (treeA p).occupied h).Nodup)
    (hnb : (bs.flatMap fun p => (treeB p).occupied h).Nodup)
    (hda : (as.flatMap fun p => (treeA p).occupied h).Disjoint va)
    (hdb : (bs.flatMap fun p => (treeB p).occupied h).Disjoint vb)
    (hsame : List.Forall₂ Identical (as.map treeA) (bs.map treeB))
    (hxs : hashAll (hashPart hash) as va = some (xs, va'))
    (hys : hashAll (hashPart hash') bs vb = some (ys, vb')) : xs = ys := by
  have hx := hashAll_fresh (fun p hp v x v' hrun => hvis p.1 p.2 v x v' (treeA p) hrun (hua p hp))
    hna hda hxs
  have hy := hashAll_fresh (fun p hp v y v' hrun => hvis' p.1 p.2 v y v' (treeB p) hrun (hub p hp))
    hnb hdb hys
  rw [List.forall₂_map_left_iff, List.forall₂_map_right_iff, List.forall₂_iff_zip] at hsame
  have hr : List.Forall₂ (fun p q => p.1 = q.1 ∧ Identical (treeA p) (treeB q)) as bs :=
    List.forall₂_iff_zip.mpr ⟨hsame.1, fun hmem => ⟨hshape _ hmem, hsame.2 hmem⟩⟩
  refine hashed_agree hx hy hr ?_
  rintro ⟨s, u⟩ hp ⟨_, v⟩ hq ⟨rfl, hsame⟩ x y hx hy
  exact hagree s u v _ _ x y (hta _ hp) (htb _ hq) (hua _ hp) (hub _ hq)
    (EqTyped.nodup_part hna hp) (EqTyped.nodup_part hnb hq) hsame hx hy

end Parts

section Entry

variable {key value : Shape} {e e' : Word × Word} {ka kb wa wb : Tree}

theorem hashEntry_agrees (hagree : Agrees h T hash hash') (hvis : Visits h hash)
    (hvis' : Visits h hash') (hka : T key e.1) (hwa : T value e.2) (hkb : T key e'.1)
    (hwb : T value e'.2) (huka : Unfolds h key e.1 ka) (huwa : Unfolds h value e.2 wa)
    (hukb : Unfolds h key e'.1 kb) (huwb : Unfolds h value e'.2 wb)
    (hna : ((Tree.seq 0 [ka, wa]).occupied h).Nodup)
    (hnb : ((Tree.seq 0 [kb, wb]).occupied h).Nodup)
    (hsame : Identical (.seq 0 [ka, wa]) (.seq 0 [kb, wb]))
    (hx : Hashed (hashEntry fx hash key value) (fun _ => (Tree.seq 0 [ka, wa]).occupied h) e x)
    (hy : Hashed (hashEntry fx hash' key value) (fun _ => (Tree.seq 0 [kb, wb]).occupied h) e' y) :
    x = y := by
  simp only [EqTyped.occupied_entry] at *
  obtain ⟨hsk, hsw, _⟩ := hsame
  obtain ⟨va, va', hx, hda⟩ := hx
  obtain ⟨vb, vb', hy, hdb⟩ := hy
  obtain ⟨⟨kx, va₁⟩, hkx, hx⟩ := Option.bind_eq_some_iff.mp hx
  obtain ⟨⟨wx, va₂⟩, hwx, hx⟩ := Option.bind_eq_some_iff.mp hx
  obtain ⟨⟨ky, vb₁⟩, hky, hy⟩ := Option.bind_eq_some_iff.mp hy
  obtain ⟨⟨wy, vb₂⟩, hwy, hy⟩ := Option.bind_eq_some_iff.mp hy
  cases hx
  cases hy
  obtain ⟨hnka, hnwa, hapa⟩ := List.nodup_append'.mp hna
  obtain ⟨hnkb, hnwb, hapb⟩ := List.nodup_append'.mp hnb
  rw [List.disjoint_append_left] at hda hdb
  have hda₁ : (wa.occupied h).Disjoint va₁ := fun v hv hmem =>
    (hvis key e.1 va kx va₁ ka hkx huka v hmem).elim (hda.2 hv) fun hown => hapa hown hv
  have hdb₁ : (wb.occupied h).Disjoint vb₁ := fun v hv hmem =>
    (hvis' key e'.1 vb ky vb₁ kb hky hukb v hmem).elim (hdb.2 hv) fun hown => hapb hown hv
  have hk : kx = ky := hagree key e.1 e'.1 ka kb kx ky hka hkb huka hukb hnka hnkb hsk
    ⟨va, va₁, hkx, hda.1⟩ ⟨vb, vb₁, hky, hdb.1⟩
  have hw : wx = wy := hagree value e.2 e'.2 wa wb wx wy hwa hwb huwa huwb hnwa hnwb hsw
    ⟨va₁, va', hwx, hda₁⟩ ⟨vb₁, vb', hwy, hdb₁⟩
  rw [hk, hw]

end Entry

section Node

variable (hagree : Agrees h T hash hash') (hvis : Visits h hash) (hvis' : Visits h hash')
  (hna : (ta.occupied h).Nodup) (hnb : (tb.occupied h).Nodup) (hsame : Identical ta tb)
  (hda : (ta.occupied h).Disjoint va) (hdb : (tb.occupied h).Disjoint vb)
include hagree hvis hvis' hna hnb hsame hda hdb

theorem hashParts_agrees (hs : s.isAggregate) (ha : Unfolds h s a ta) (hb : Unfolds h s b tb)
    (hta : ∀ o, h.find a = some o →
      ∃ items, TypedHeap.parts s o = some items ∧ ∀ p ∈ items, T p.1 p.2)
    (htb : ∀ o, h.find b = some o →
      ∃ items, TypedHeap.parts s o = some items ∧ ∀ p ∈ items, T p.1 p.2)
    (hx : hashParts h fx hash s a (begun h a va) = some (x, va'))
    (hy : hashParts h fx hash' s b (begun h b vb) = some (y, vb')) : x = y := by
  rcases live_together hs ha hb hsame with ⟨hfa, hfb⟩ | ⟨oa, ob, hfa, hfb⟩
  · simp only [hashParts, hfa, hfb, Option.some.injEq, Prod.mk.injEq] at hx hy
    exact hx.1.symm.trans hy.1
  · obtain ⟨as, has, hta⟩ := hta oa hfa
    obtain ⟨bs, hbs, htb⟩ := htb ob hfb
    simp only [hashParts, hfa, hfb, has, hbs, Option.bind_eq_bind, Option.bind_some,
      begun_some hfa, begun_some hfb] at hx hy
    obtain ⟨⟨xs, _⟩, hxs, hx⟩ := Option.bind_eq_some_iff.mp hx
    obtain ⟨⟨ys, _⟩, hys, hy⟩ := Option.bind_eq_some_iff.mp hy
    cases hx
    cases hy
    obtain ⟨treeA, rfl, hua⟩ := ha.of_parts hfa has
    obtain ⟨treeB, rfl, hub⟩ := hb.of_parts hfb hbs
    obtain ⟨hna, hda⟩ := rest_fresh hna hda (EqTyped.occupied_node hfa rfl)
    obtain ⟨hnb, hdb⟩ := rest_fresh hnb hdb (EqTyped.occupied_node hfb rfl)
    rw [parts_agree hagree hvis hvis' (EqTyped.parts_shape has hbs) hta htb hua hub hna hnb hda hdb
      (Tree.sameAll_iff.mp hsame) hxs hys]

theorem hashSet_agrees {item : Shape} (ha : Unfolds h (.set item) a ta)
    (hb : Unfolds h (.set item) b tb)
    (hta : ∀ o, h.find a = some o → ∃ items, o = .hashSet items ∧ ∀ v ∈ items, T item v)
    (htb : ∀ o, h.find b = some o → ∃ items, o = .hashSet items ∧ ∀ v ∈ items, T item v)
    (hx : hashSet h fx hash item a (begun h a va) = some (x, va'))
    (hy : hashSet h fx hash' item b (begun h b vb) = some (y, vb')) : x = y := by
  rcases live_together rfl ha hb hsame with ⟨hfa, hfb⟩ | ⟨oa, ob, hfa, hfb⟩
  · simp only [hashSet, hfa, hfb, Option.some.injEq, Prod.mk.injEq] at hx hy
    exact hx.1.symm.trans hy.1
  · obtain ⟨as, rfl, hta⟩ := hta oa hfa
    obtain ⟨bs, rfl, htb⟩ := htb ob hfb
    simp only [hashSet, hfa, hfb, begun_some hfa, begun_some hfb] at hx hy
    obtain ⟨⟨xs, _⟩, hxs, hx⟩ := Option.bind_eq_some_iff.mp hx
    obtain ⟨⟨ys, _⟩, hys, hy⟩ := Option.bind_eq_some_iff.mp hy
    cases hx
    cases hy
    obtain ⟨treeA, rfl, hua⟩ := ha.of_set hfa
    obtain ⟨treeB, rfl, hub⟩ := hb.of_set hfb
    obtain ⟨hna, hda⟩ := rest_fresh hna hda (EqTyped.occupied_node hfa rfl)
    obtain ⟨hnb, hdb⟩ := rest_fresh hnb hdb (EqTyped.occupied_node hfb rfl)
    have hxs := hashAll_fresh (fun v hv vs x vs' hrun => hvis item v vs x vs' _ hrun (hua v hv))
      hna hda hxs
    have hys := hashAll_fresh (fun v hv vs x vs' hrun => hvis' item v vs x vs' _ hrun (hub v hv))
      hnb hdb hys
    have hrel : Multiset.Rel (fun u v => Identical (treeA u) (treeB v)) (as : Multiset Word)
        (bs : Multiset Word) := by
      have hbag := Tree.sameBag_iff.mp hsame
      rwa [← Multiset.map_coe, ← Multiset.map_coe, Multiset.rel_map] at hbag
    exact hashed_agree_bag hxs hys hrel fun u hu v hv hsame x y hx hy =>
      hagree item u v _ _ x y (hta u hu) (htb v hv) (hua u hu) (hub v hv)
        (EqTyped.nodup_part hna hu) (EqTyped.nodup_part hnb hv) hsame hx hy

theorem hashDict_agrees {key value : Shape} (ha : Unfolds h (.dict key value) a ta)
    (hb : Unfolds h (.dict key value) b tb)
    (hta : ∀ o, h.find a = some o → ∃ entries, o = .obj entries ∧
      ∀ e ∈ entries, T key e.1 ∧ T value e.2)
    (htb : ∀ o, h.find b = some o → ∃ entries, o = .obj entries ∧
      ∀ e ∈ entries, T key e.1 ∧ T value e.2)
    (hx : hashDict h fx hash key value a (begun h a va) = some (x, va'))
    (hy : hashDict h fx hash' key value b (begun h b vb) = some (y, vb')) : x = y := by
  rcases live_together rfl ha hb hsame with ⟨hfa, hfb⟩ | ⟨oa, ob, hfa, hfb⟩
  · simp only [hashDict, hfa, hfb, Option.some.injEq, Prod.mk.injEq] at hx hy
    exact hx.1.symm.trans hy.1
  · obtain ⟨as, rfl, hta⟩ := hta oa hfa
    obtain ⟨bs, rfl, htb⟩ := htb ob hfb
    simp only [hashDict, hfa, hfb, begun_some hfa, begun_some hfb] at hx hy
    obtain ⟨⟨xs, _⟩, hxs, hx⟩ := Option.bind_eq_some_iff.mp hx
    obtain ⟨⟨ys, _⟩, hys, hy⟩ := Option.bind_eq_some_iff.mp hy
    cases hx
    cases hy
    obtain ⟨keyA, valueA, rfl, hua⟩ := ha.of_dict hfa
    obtain ⟨keyB, valueB, rfl, hub⟩ := hb.of_dict hfb
    obtain ⟨hna, hda⟩ := rest_fresh hna hda (EqTyped.occupied_node hfa rfl)
    obtain ⟨hnb, hdb⟩ := rest_fresh hnb hdb (EqTyped.occupied_node hfb rfl)
    have hxs := hashAll_fresh (fun e he vs x vs' hrun =>
      hashEntry_visits hvis (hua e he).1 (hua e he).2 hrun) hna hda hxs
    have hys := hashAll_fresh (fun e he vs x vs' hrun =>
      hashEntry_visits hvis' (hub e he).1 (hub e he).2 hrun) hnb hdb hys
    have hrel : Multiset.Rel (fun e e' : Word × Word => Identical
        (.seq 0 [keyA e.1, valueA e.2]) (.seq 0 [keyB e'.1, valueB e'.2])) (as : Multiset (Word × Word)) bs := by
      have hbag := Tree.sameBag_iff.mp hsame
      rwa [← Multiset.map_coe, ← Multiset.map_coe, Multiset.rel_map] at hbag
    exact hashed_agree_bag hxs hys hrel fun e he e' he' hsame x y hx hy =>
      hashEntry_agrees hagree hvis hvis' (hta e he).1 (hta e he).2 (htb e' he').1 (htb e' he').2
        (hua e he).1 (hua e he).2 (hub e' he').1 (hub e' he').2
        ((List.nodup_flatMap.mp hna).1 e he) ((List.nodup_flatMap.mp hnb).1 e' he') hsame hx hy

theorem hashEnum_agrees {variants : List (List Shape)} (ha : Unfolds h (.enum variants) a ta)
    (hb : Unfolds h (.enum variants) b tb)
    (hta : ∀ o, h.find a = some o → ∃ tag payload, o = .enum tag payload ∧
      payload.length = (TypedHeap.payloadShapes variants tag).length ∧
      ∀ p ∈ (TypedHeap.payloadShapes variants tag).zip payload, T p.1 p.2)
    (htb : ∀ o, h.find b = some o → ∃ tag payload, o = .enum tag payload ∧
      payload.length = (TypedHeap.payloadShapes variants tag).length ∧
      ∀ p ∈ (TypedHeap.payloadShapes variants tag).zip payload, T p.1 p.2)
    (hx : hashEnum h fx hash variants a (begun h a va) = some (x, va'))
    (hy : hashEnum h fx hash' variants b (begun h b vb) = some (y, vb')) : x = y := by
  rcases live_together rfl ha hb hsame with ⟨hfa, hfb⟩ | ⟨oa, ob, hfa, hfb⟩
  · simp only [hashEnum, hfa, hfb, Option.some.injEq, Prod.mk.injEq] at hx hy
    exact hx.1.symm.trans hy.1
  · obtain ⟨aTag, aPayload, rfl, _, hta⟩ := hta oa hfa
    obtain ⟨bTag, bPayload, rfl, _, htb⟩ := htb ob hfb
    simp only [hashEnum, hfa, hfb, begun_some hfa, begun_some hfb] at hx hy
    obtain ⟨⟨xs, _⟩, hxs, hx⟩ := Option.bind_eq_some_iff.mp hx
    obtain ⟨⟨ys, _⟩, hys, hy⟩ := Option.bind_eq_some_iff.mp hy
    cases hx
    cases hy
    obtain ⟨_, treeA, rfl, hua⟩ := ha.of_enum hfa
    obtain ⟨_, treeB, rfl, hub⟩ := hb.of_enum hfb
    obtain ⟨hna, hda⟩ := rest_fresh hna hda (EqTyped.occupied_node hfa rfl)
    obtain ⟨hnb, hdb⟩ := rest_fresh hnb hdb (EqTyped.occupied_node hfb rfl)
    obtain ⟨rfl, hsame⟩ := hsame
    rw [parts_agree hagree hvis hvis' EqTyped.zip_shape hta htb hua hub hna hnb hda hdb
      (Tree.sameAll_iff.mp hsame) hxs hys]

end Node

/-- A back-reference to a value in a live slot is hashed as visited before. -/
theorem hashVal_agrees (fx : FxHasher) (ht : h.WellTyped T)
    (hback : ∀ target w, T (.backref target) w → (h.shapes target).isAggregate) (fuel fuel' : Nat) :
    Agrees h T (hashVal h fx fuel) (hashVal h fx fuel') := by
  induction fuel generalizing fuel' with
  | zero =>
    rintro s a b ta tb x y _ _ _ _ _ _ _ ⟨_, _, hx, _⟩
    cases hx
  | succ fuel ih =>
    cases fuel' with
    | zero =>
      rintro s a b ta tb x y _ _ _ _ _ _ _ _ ⟨_, _, hy, _⟩
      cases hy
    | succ fuel' =>
      rintro s a b ta tb x y hta htb ha hb hna hnb hsame ⟨va, va', hx, hda⟩ ⟨vb, vb', hy, hdb⟩
      have hagree := ih fuel'
      have hvis : Visits h (hashVal h fx fuel) := hashVal_visits fx fuel
      have hvis' : Visits h (hashVal h fx fuel') := hashVal_visits fx fuel'
      unfold hashVal at hx hy
      rw [if_neg fun hold => hda (ha.mem_occupied hold.1) hold.2] at hx
      rw [if_neg fun hold => hdb (hb.mem_occupied hold.1) hold.2] at hy
      cases s with
      | leaf =>
        have hab : a = b := by
          by_contra hab
          exact EqTyped.leaf_right hab ha hb hsame
        cases hx
        cases hy
        rw [hab]
      | str =>
        cases hx
        cases hy
        exact hashStr_same ha hb hsame
      | any =>
        have hab : a = b := by
          by_contra hab
          cases (EqTyped.any_right hab ha hb).mpr hsame
        cases hx
        cases hy
        rw [hab]
      | list item =>
        exact hashParts_agrees hagree hvis hvis' hna hnb hsame hda hdb rfl ha hb (ht _ _ hta)
          (ht _ _ htb) hx hy
      | set item =>
        exact hashSet_agrees hagree hvis hvis' hna hnb hsame hda hdb ha hb (ht _ _ hta) (ht _ _ htb)
          hx hy
      | tuple items =>
        exact hashParts_agrees hagree hvis hvis' hna hnb hsame hda hdb rfl ha hb (ht _ _ hta)
          (ht _ _ htb) hx hy
      | dict key value =>
        exact hashDict_agrees hagree hvis hvis' hna hnb hsame hda hdb ha hb (ht _ _ hta) (ht _ _ htb)
          hx hy
      | struct fields =>
        exact hashParts_agrees hagree hvis hvis' hna hnb hsame hda hdb rfl ha hb (ht _ _ hta)
          (ht _ _ htb) hx hy
      | enum variants =>
        exact hashEnum_agrees hagree hvis hvis' hna hnb hsame hda hdb ha hb (ht _ _ hta) (ht _ _ htb)
          hx hy
      | backref target =>
        have hs := hback target a hta
        have hua := ha.of_backref
        have hub := hb.of_backref
        dsimp only at hx hy
        rcases live_together hs hua hub hsame with ⟨hfa, hfb⟩ | ⟨oa, ob, hfa, hfb⟩
        · simp only [hfa, hfb, Option.isSome_none, Bool.false_eq_true, if_false] at hx hy
          exact hagree _ a b ta tb x y (ht _ _ hta).2 (ht _ _ htb).2 hua hub hna hnb hsame
            ⟨va, va', hx, hda⟩ ⟨vb, vb', hy, hdb⟩
        · have hx' := hashVal_visited hfa hx
          have hy' := hashVal_visited hfb hy
          rw [hx', hy']

end Agrees

section Keys

variable {s : Shape} {a b w v : Word} {fuel : Nat}

theorem classifyKey_raw (hw : classifyKey h w = .raw v) : v = w := by
  unfold classifyKey at hw
  split at hw
  next => cases hw
  next =>
    split at hw
    next => cases hw
    next =>
      cases hw
      rfl
    next => cases hw

/-- Keys of one type. -/
structure PlainKeys (h : TypedHeap) (T : Shape → Word → Prop) (s : Shape) (keys : List Word)
    (tree : Word → Tree) : Prop where
  typed : ∀ k ∈ keys, T s k
  unfolds : ∀ k ∈ keys, Unfolds h s k (tree k)
  /-- No live slot is reached twice inside a key. -/
  unshared : ∀ k ∈ keys, ((tree k).occupied h).Nodup
  regular : EqTyped.Regular h (keys.map tree)
  /-- Equal keys have the same words for their `Any` and bytes leaves. -/
  identical : ∀ k ∈ keys, ∀ l ∈ keys, (tree k).Same h.anyEq (tree l) → Identical (tree k) (tree l)

/-- The equality of keys: of their classes, or of the values in their slots. -/
def EqualKeys (h : TypedHeap) (tree : Word → Tree) (a b : Word) : Prop :=
  classifyKey h a = classifyKey h b ∨
    (classifyKey h a = .raw a ∧ classifyKey h b = .raw b ∧ (tree a).Same h.anyEq (tree b))

variable {keys : List Word} {tree : Word → Tree}

theorem within_keys (ha : a ∈ keys) :
    (tree a).Within fun w => ∃ t ∈ keys.map tree, w ∈ t.anyWords :=
  EqTyped.Regular.within (List.mem_map_of_mem ha)

theorem PlainKeys.eqTyped_iff (hk : PlainKeys h T s keys tree) (ha : a ∈ keys) (hb : b ∈ keys)
    {r : Bool} {st : EqState} (hrun : EqTyped.oliveEqTyped h fuel s a b = some (r, st)) :
    r = true ↔ (tree a).Same h.anyEq (tree b) := by
  have hua := hk.unfolds a ha
  have hub := hk.unfolds b hb
  have hright : EqTyped.Right h st := by
    intro p hp
    rw [EqTyped.taken_of_unshared hrun hua hub (hk.unshared a ha) (hk.unshared b hb)] at hp
    cases hp
  exact (EqTyped.eqVal_right hk.regular fuel hrun hua hub (within_keys ha) (within_keys hb) hright).2

theorem PlainKeys.keyEq_iff (hk : PlainKeys h T s keys tree) (ht : h.WellTyped T)
    (hfuel : EqTyped.depth h ≤ fuel) (ha : a ∈ keys) (hb : b ∈ keys) :
    ∃ r, keyEq h fuel s a b = some r ∧ (r = true ↔ EqualKeys h tree a b) := by
  unfold keyEq EqualKeys
  split
  next hab => exact ⟨true, rfl, iff_of_true rfl (.inl (by rw [hab]))⟩
  next hab =>
    split
    next x y hx hy => exact ⟨_, rfl, by simp [hx, hy]⟩
    next k x l y hx hy => exact ⟨_, rfl, by simp [hx, hy]⟩
    next x y hx hy =>
      obtain rfl := classifyKey_raw hx
      obtain rfl := classifyKey_raw hy
      obtain ⟨r, st, hrun⟩ := EqTyped.oliveEqTyped_returns ht (hk.typed _ ha) (hk.typed _ hb) hfuel
      refine ⟨r, by simp [hrun], ?_⟩
      rw [hk.eqTyped_iff ha hb hrun]
      simp [hx, hy, hab]
    next hstr hscalar hraw =>
      refine ⟨false, rfl, iff_of_false (by simp) ?_⟩
      rintro (heq | ⟨hx, hy, _⟩)
      · cases hx : classifyKey h a with
        | str x => exact hstr x x hx (heq ▸ hx)
        | scalar k x => exact hscalar k x k x hx (heq ▸ hx)
        | raw x => exact hraw x x hx (heq ▸ hx)
      · exact hraw _ _ hx hy

theorem PlainKeys.symm (hk : PlainKeys h T s keys tree) (ha : a ∈ keys) (hb : b ∈ keys)
    (hab : EqualKeys h tree a b) : EqualKeys h tree b a := by
  rcases hab with heq | ⟨hx, hy, hsame⟩
  · exact .inl heq.symm
  · exact .inr ⟨hy, hx, hsame.symm hk.regular (within_keys ha) (within_keys hb)⟩

theorem PlainKeys.trans (hk : PlainKeys h T s keys tree) {c : Word} (ha : a ∈ keys) (hb : b ∈ keys)
    (hc : c ∈ keys) (hab : EqualKeys h tree a b) (hbc : EqualKeys h tree b c) :
    EqualKeys h tree a c := by
  rcases hab with heq | ⟨hx, hy, hsame⟩
  · rcases hbc with heq' | ⟨hy', hz, hsame'⟩
    · exact .inl (heq.trans heq')
    · obtain rfl := classifyKey_raw (heq.trans hy')
      exact .inr ⟨hy', hz, hsame'⟩
  · rcases hbc with heq' | ⟨_, hz, hsame'⟩
    · obtain rfl := classifyKey_raw (heq'.symm.trans hy)
      exact .inr ⟨hx, hy, hsame⟩
    · exact .inr ⟨hx, hz, hsame.trans hk.regular (within_keys ha) (within_keys hb) (within_keys hc) hsame'⟩

/-- Equal keys have one hash. -/
theorem PlainKeys.hashKey_eq (hk : PlainKeys h T s keys tree) (ht : h.WellTyped T)
    (hback : ∀ target w, T (.backref target) w → (h.shapes target).isAggregate) (ha : a ∈ keys)
    (hb : b ∈ keys) (hsame : (tree a).Same h.anyEq (tree b)) {x y : Word}
    (hx : hashKey h fx fuel s a = some x) (hy : hashKey h fx fuel s b = some y) : x = y := by
  obtain ⟨⟨x, va⟩, hrunx, rfl⟩ := Option.map_eq_some_iff.mp hx
  obtain ⟨⟨y, vb⟩, hruny, rfl⟩ := Option.map_eq_some_iff.mp hy
  exact hashVal_agrees fx ht hback fuel fuel s a b (tree a) (tree b) x y (hk.typed a ha)
    (hk.typed b hb) (hk.unfolds a ha) (hk.unfolds b hb) (hk.unshared a ha) (hk.unshared b hb)
    (hk.identical a ha b hb hsame) ⟨[], va, hrunx, List.disjoint_nil_right _⟩
    ⟨[], vb, hruny, List.disjoint_nil_right _⟩

theorem depth_le : 2 * h.live.card + 2 ≤ EqTyped.depth h := by
  have hsquare := Nat.le_mul_self h.live.card
  unfold EqTyped.depth
  omega

theorem PlainKeys.keyHash_returns (fx : FxHasher) (hk : PlainKeys h T s keys tree)
    (ht : h.WellTyped T) (hfuel : EqTyped.depth h ≤ fuel) (ha : a ∈ keys) : ∃ x, keyHash h fx fuel s a = some x := by
  unfold keyHash
  split
  next => exact ⟨_, rfl⟩
  next => exact ⟨_, rfl⟩
  next w hw =>
    obtain rfl := classifyKey_raw hw
    obtain ⟨x, hx⟩ := hashKey_returns fx ht (hk.typed _ ha) (depth_le.trans hfuel)
    exact ⟨_, by rw [hx, Option.map_some]⟩

theorem PlainKeys.keyHash_eq (hk : PlainKeys h T s keys tree) (ht : h.WellTyped T)
    (hback : ∀ target w, T (.backref target) w → (h.shapes target).isAggregate)
    (hfuel : EqTyped.depth h ≤ fuel) (ha : a ∈ keys) (hb : b ∈ keys)
    (hab : EqualKeys h tree a b) : keyHash h fx fuel s a = keyHash h fx fuel s b := by
  rcases hab with heq | ⟨hx, hy, hsame⟩
  · unfold keyHash
    rw [heq]
  · obtain ⟨x, hhx⟩ := hashKey_returns fx ht (hk.typed _ ha) (depth_le.trans hfuel)
    obtain ⟨y, hhy⟩ := hashKey_returns fx ht (hk.typed _ hb) (depth_le.trans hfuel)
    have hxy := hk.hashKey_eq ht hback ha hb hsame hhx hhy
    simp only [keyHash, hx, hy, hhx, hhy, hxy]

theorem PlainKeys.lawful (fx : FxHasher) (hk : PlainKeys h T s keys tree) (ht : h.WellTyped T)
    (hback : ∀ target w, T (.backref target) w → (h.shapes target).isAggregate)
    (hfuel : EqTyped.depth h ≤ fuel) :
    HashTable.Lawful (keyHash h fx fuel s) (keyEq h fuel s) (· ∈ keys)
      (fun a b => keyEq h fuel s a b == some true) fun a => (keyHash h fx fuel s a).getD 0 := by
  have hiff : ∀ a ∈ keys, ∀ b ∈ keys,
      (keyEq h fuel s a b == some true) = true ↔ EqualKeys h tree a b := by
    intro a ha b hb
    obtain ⟨r, hr, hiff⟩ := hk.keyEq_iff ht hfuel ha hb
    rw [hr, beq_iff_eq, Option.some.injEq, hiff]
  exact {
    hash := fun a ha => by
      obtain ⟨x, hx⟩ := hk.keyHash_returns fx ht hfuel ha
      rw [hx, Option.getD_some]
    eq := fun a b ha hb => by
      obtain ⟨r, hr, _⟩ := hk.keyEq_iff ht hfuel ha hb
      cases r with
      | true => simp [hr]
      | false => simp [hr]
    respects := fun a b ha hb hab => by
      rw [hk.keyHash_eq ht hback hfuel ha hb ((hiff a ha b hb).mp hab)]
    symm := fun a b ha hb hab =>
      (hiff b hb a ha).mpr (hk.symm ha hb ((hiff a ha b hb).mp hab))
    trans := fun a b c ha hb hc hab hbc =>
      (hiff a ha c hc).mpr (hk.trans ha hb hc ((hiff a ha b hb).mp hab) ((hiff b hb c hc).mp hbc)) }

/-- Values in live slots are no strings and no scalars. -/
theorem classifyKey_live (ht : h.WellTyped T) (haligned : ∀ w, (h.find w).isSome → w &&& 1 = 0)
    (hs : s.isAggregate) (hw : T s w) {o : SlotContents} (hfind : h.find w = some o) :
    classifyKey h w = .raw w := by
  have htag : isTaggedStrKey w = false := by
    unfold isTaggedStrKey
    rw [haligned w (by simp [hfind])]
    simp
  have hholds := ht s w hw
  unfold classifyKey
  rw [htag, if_neg (by simp), hfind]
  cases o with
  | boxed kind bits =>
    exfalso
    cases s with
    | leaf => cases hs
    | str => cases hs
    | any => cases hs
    | backref target => cases hs
    | list item =>
      obtain ⟨_, hparts, _⟩ := hholds _ hfind
      cases hparts
    | tuple items =>
      obtain ⟨_, hparts, _⟩ := hholds _ hfind
      cases hparts
    | struct fields =>
      obtain ⟨_, hparts, _⟩ := hholds _ hfind
      cases hparts
    | set item =>
      obtain ⟨_, heq, _⟩ := hholds _ hfind
      cases heq
    | dict key value =>
      obtain ⟨_, heq, _⟩ := hholds _ hfind
      cases heq
    | enum variants =>
      obtain ⟨_, _, heq, _⟩ := hholds _ hfind
      cases heq
  | _ => rfl

/-- Values of a key type that `olive_eq_typed` finds equal are equal keys. -/
theorem PlainKeys.keyEq_of_eqTyped (hk : PlainKeys h T s keys tree) (ht : h.WellTyped T)
    (haligned : ∀ w, (h.find w).isSome → w &&& 1 = 0) (hs : s.isAggregate) (ha : a ∈ keys)
    (hb : b ∈ keys) {st : EqState} (hrun : EqTyped.oliveEqTyped h fuel s a b = some (true, st)) :
    keyEq h fuel s a b = some true := by
  by_cases hab : a = b
  · unfold keyEq
    rw [if_pos hab]
  · have hsame := (hk.eqTyped_iff ha hb hrun).mp rfl
    have hlive : ∀ {c}, h.find c ≠ none → ∃ o, h.find c = some o :=
      fun hne => Option.ne_none_iff_exists'.mp hne
    have hgone := fun hnone => not_same_of_gone hs hab (hk.unfolds a ha) (hk.unfolds b hb) hnone hsame
    obtain ⟨oa, hfa⟩ := hlive fun hnone => hgone (.inl hnone)
    obtain ⟨ob, hfb⟩ := hlive fun hnone => hgone (.inr hnone)
    unfold keyEq
    rw [if_neg hab, classifyKey_live ht haligned hs (hk.typed a ha) hfa,
      classifyKey_live ht haligned hs (hk.typed b hb) hfb]
    simp [hrun]

end Keys

structure HashRespects (h : TypedHeap) (T : Shape → Word → Prop) (fx : FxHasher) : Prop where
  /-- Cycles included. -/
  returns : ∀ s a, T s a → ∀ fuel, EqTyped.depth h ≤ fuel → ∃ x, hashKey h fx fuel s a = some x
  equal : ∀ s a b tree, a = b ∨ PlainKeys h T s [a, b] tree →
    ∀ fuel st, EqTyped.oliveEqTyped h fuel s a b = some (true, st) →
    ∀ fuel x y, hashKey h fx fuel s a = some x → hashKey h fx fuel s b = some y → x = y
  /-- The value is the last that was set under an equal key. -/
  finds : ∀ s keys tree, s.isAggregate → PlainKeys h T s keys tree →
    ∀ fuel, EqTyped.depth h ≤ fuel → ∀ items, (∀ e ∈ items, e.1 ∈ keys) → ∀ key ∈ keys,
    ∃ table, HashTable.insertAll (keyHash h fx fuel s) (keyEq h fuel s) items [] = some table ∧
      getTyped h fx fuel s table key =
        some (HashTable.latest (fun k => keyEq h fuel s key k == some true) items) ∧
      ∀ e ∈ items, ∀ st, EqTyped.oliveEqTyped h fuel s key e.1 = some (true, st) →
        ∃ value, getTyped h fx fuel s table key = some (some value)

/-- `FxHasher` of words; no string is hashed below. -/
def fxHasher : FxHasher where
  State := Word
  start := 0
  writeU64 state w := (state + w) * 0xf1357aea2e62a9c5
  write state _ := state
  finish state := state.rotateLeft 26

/-- (t, t) at 24 and ((7,), (7,)) at 32, where t is (7,). -/
def twiceHeap : TypedHeap where
  slots := [(8, .vec [7]), (16, .vec [7]), (24, .vec [8, 8]), (32, .vec [8, 16])]
  text _ := []
  anyEq _ _ := false
  shapes _ := .leaf

def twiceShape : Shape := .tuple [EqTyped.oneShape, EqTyped.oneShape]

def TwiceTyping (s : Shape) (w : Word) : Prop :=
  s = .leaf ∨ s = EqTyped.oneShape ∧ w ∈ [(8 : Word), 16] ∨ s = twiceShape ∧ w ∈ [(24 : Word), 32]

theorem twice_typed : twiceHeap.WellTyped TwiceTyping := by
  intro s w hw
  rcases hw with rfl | ⟨rfl, hw⟩ | ⟨rfl, hw⟩
  · trivial
  all_goals
    intro o ho
    simp only [List.mem_cons, List.not_mem_nil, or_false] at hw
    rcases hw with rfl | rfl <;> cases ho <;>
      exact ⟨_, rfl, by simp [TwiceTyping, TypedHeap.padded]⟩

end HashTyped

end Olive
