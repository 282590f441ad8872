import Olive.Pairing
import Olive.TypedHeap

/-! Structural equality of values without cycles. -/

namespace Olive

namespace Tree

mutual
/-- Equality of everything but the addresses: elements in order, except in sets and dicts. -/
def Same (anyEq : Word → Word → Bool) : Tree → Tree → Prop
  | .word a, .word b => a = b
  | .gone a e, .gone b e' => a = b ∧ e = e'
  | .str _ x, .str _ y => x = y
  | .any a, .any b => a = b ∨ anyEq a b = true
  | .seq _ ts, .seq _ us => SameAll anyEq ts us
  | .bag _ ts, .bag _ us => SameBag anyEq ts us
  | .variant _ i ts, .variant _ j us => i = j ∧ SameAll anyEq ts us
  | _, _ => False
def SameAll (anyEq : Word → Word → Bool) : List Tree → List Tree → Prop
  | [], [] => True
  | t :: ts, u :: us => Same anyEq t u ∧ SameAll anyEq ts us
  | _, _ => False
/-- Some order of the second list pairs it with the first. -/
def SameBag (anyEq : Word → Word → Bool) : List Tree → List Tree → Prop
  | [], us => us = []
  | t :: ts, us => ∃ before u after, us = before ++ u :: after ∧ Same anyEq t u ∧
      SameBag anyEq ts (before ++ after)
end

theorem same_word {anyEq : Word → Word → Bool} {a : Word} {t : Tree} : Same anyEq (.word a) t ↔ t = .word a := by
  cases t with
  | word b => simp [Same, eq_comm]
  | _ => simp [Same]

mutual
/-- The words that `olive_any_eq` compares. -/
def anyWords : Tree → List Word
  | .word _ | .gone _ _ | .str _ _ => []
  | .any w => [w]
  | .seq _ ts | .bag _ ts | .variant _ _ ts => anyWordsAll ts
def anyWordsAll : List Tree → List Word
  | [] => []
  | t :: ts => anyWords t ++ anyWordsAll ts
end

mutual
/-- The live slots of a value, each as often as it is reached. -/
def occupied (h : TypedHeap) : Tree → List Word
  | .word w | .gone w _ | .str w _ | .any w => if (h.find w).isSome then [w] else []
  | .seq w ts | .bag w ts | .variant w _ ts =>
    (if (h.find w).isSome then [w] else []) ++ occupiedAll h ts
def occupiedAll (h : TypedHeap) : List Tree → List Word
  | [] => []
  | t :: ts => occupied h t ++ occupiedAll h ts
end

theorem induction {P : Tree → Prop} (word : ∀ w, P (.word w)) (gone : ∀ w e, P (.gone w e))
    (str : ∀ w bytes, P (.str w bytes)) (any : ∀ w, P (.any w)) (seq : ∀ w ts, (∀ t ∈ ts, P t) → P (.seq w ts))
    (bag : ∀ w ts, (∀ t ∈ ts, P t) → P (.bag w ts))
    (variant : ∀ w tag ts, (∀ t ∈ ts, P t) → P (.variant w tag ts)) (t : Tree) : P t :=
  match t with
  | .word w => word w
  | .gone w e => gone w e
  | .str w bytes => str w bytes
  | .any w => any w
  | .seq w ts => seq w ts fun t _ => induction word gone str any seq bag variant t
  | .bag w ts => bag w ts fun t _ => induction word gone str any seq bag variant t
  | .variant w tag ts => variant w tag ts fun t _ => induction word gone str any seq bag variant t
termination_by sizeOf t

variable {anyEq : Word → Word → Bool} {h : TypedHeap}

theorem mem_anyWordsAll {ts : List Tree} {w : Word} :
    w ∈ anyWordsAll ts ↔ ∃ t ∈ ts, w ∈ t.anyWords := by
  induction ts with
  | nil => simp [anyWordsAll]
  | cons t ts ih => simp [anyWordsAll, ih]

theorem sameAll_iff {ts us : List Tree} :
    SameAll anyEq ts us ↔ List.Forall₂ (Same anyEq) ts us := by
  induction ts generalizing us with
  | nil =>
    cases us with
    | nil => simp [SameAll]
    | cons u us => simp [SameAll]
  | cons t ts ih =>
    cases us with
    | nil => simp [SameAll]
    | cons u us => simp [SameAll, ih]

theorem sameBag_iff {ts us : List Tree} :
    SameBag anyEq ts us ↔ Multiset.Rel (Same anyEq) (ts : Multiset Tree) us := by
  induction ts generalizing us with
  | nil => simp [SameBag]
  | cons t ts ih =>
    rw [SameBag, ← Multiset.cons_coe, Multiset.rel_cons_left]
    constructor
    · rintro ⟨before, u, after, rfl, htu, hrest⟩
      refine ⟨u, ((before ++ after : List Tree) : Multiset Tree), htu, ih.mp hrest, ?_⟩
      rw [Multiset.cons_coe, Multiset.coe_eq_coe]
      exact List.perm_middle
    · rintro ⟨u, us', htu, hrest, heq⟩
      have hmem : u ∈ us := Multiset.mem_coe.mp (heq ▸ Multiset.mem_cons_self ..)
      obtain ⟨before, after, rfl⟩ := List.append_of_mem hmem
      refine ⟨before, u, after, rfl, htu, ih.mpr ?_⟩
      have hcons : u ::ₘ ((before ++ after : List Tree) : Multiset Tree) = u ::ₘ us' := by
        rw [← heq, Multiset.cons_coe, Multiset.coe_eq_coe]
        exact List.perm_middle.symm
      rwa [(Multiset.cons_inj_right u).mp hcons]

theorem Same.refl (t : Tree) : Same anyEq t t := by
  induction t using Tree.induction with
  | word w => simp [Same]
  | gone w e => simp [Same]
  | str w bytes => simp [Same]
  | any w => simp [Same]
  | seq w ts ih =>
    rw [Same, sameAll_iff]
    exact List.forall₂_same.mpr ih
  | bag w ts ih =>
    rw [Same, sameBag_iff]
    exact Multiset.rel_refl_of_refl_on ih
  | variant w tag ts ih =>
    rw [Same, sameAll_iff]
    exact ⟨rfl, List.forall₂_same.mpr ih⟩

theorem same_gone {a : Word} {e : Bool} {t : Tree} :
    Same anyEq (.gone a e) t ↔ t = .gone a e := by
  cases t with
  | gone b e' => simp [Same, eq_comm]
  | _ => simp [Same]

theorem same_str {w : Word} {x : List UInt8} {t : Tree} :
    Same anyEq (.str w x) t ↔ ∃ w', t = .str w' x := by
  cases t with
  | str w' y => simp [Same, eq_comm]
  | _ => simp [Same]

theorem same_any {a : Word} {t : Tree} :
    Same anyEq (.any a) t ↔ ∃ b, t = .any b ∧ (a = b ∨ anyEq a b = true) := by
  cases t with
  | any b => simp [Same]
  | _ => simp [Same]

theorem same_seq {w : Word} {ts : List Tree} {t : Tree} : Same anyEq (.seq w ts) t ↔
    ∃ w' us, t = .seq w' us ∧ List.Forall₂ (Same anyEq) ts us := by
  cases t with
  | seq w' us => simp [Same, sameAll_iff]
  | _ => simp [Same]

theorem same_bag {w : Word} {ts : List Tree} {t : Tree} : Same anyEq (.bag w ts) t ↔
    ∃ w' us, t = .bag w' us ∧ Multiset.Rel (Same anyEq) (ts : Multiset Tree) us := by
  cases t with
  | bag w' us => simp [Same, sameBag_iff]
  | _ => simp [Same]

theorem same_variant {w tag : Word} {ts : List Tree} {t : Tree} :
    Same anyEq (.variant w tag ts) t ↔
      ∃ w' us, t = .variant w' tag us ∧ List.Forall₂ (Same anyEq) ts us := by
  cases t with
  | variant w' tag' us =>
    simp only [Same, sameAll_iff, variant.injEq]
    constructor
    · rintro ⟨rfl, hall⟩
      exact ⟨w', us, ⟨rfl, rfl, rfl⟩, hall⟩
    · rintro ⟨_, _, ⟨_, rfl, rfl⟩, hall⟩
      exact ⟨rfl, hall⟩
  | _ => simp [Same]

/-- `olive_any_eq` is an equality between the words in `W`. -/
structure AnyRegular (anyEq : Word → Word → Bool) (W : Word → Prop) : Prop where
  symm : ∀ a b, W a → W b → anyEq a b = true → anyEq b a = true
  trans : ∀ a b c, W a → W b → W c → anyEq a b = true → anyEq b c = true →
    a = c ∨ anyEq a c = true

/-- All the words that `olive_any_eq` compares in a value are in `W`. -/
def Within (W : Word → Prop) (t : Tree) : Prop := ∀ w ∈ t.anyWords, W w

variable {W : Word → Prop}

theorem Within.item {t u : Tree} {ts : List Tree} (ht : t.Within W)
    (hwords : t.anyWords = anyWordsAll ts) (hu : u ∈ ts) : u.Within W := by
  intro w hw
  refine ht w ?_
  rw [hwords]
  exact mem_anyWordsAll.mpr ⟨u, hu, hw⟩

theorem Same.symm (hW : AnyRegular anyEq W) {t u : Tree} (ht : t.Within W) (hu : u.Within W)
    (hs : Same anyEq t u) : Same anyEq u t := by
  induction t using Tree.induction generalizing u with
  | word a =>
    obtain rfl := same_word.mp hs
    exact hs
  | gone a e =>
    obtain rfl := same_gone.mp hs
    exact hs
  | str w x =>
    obtain ⟨w', rfl⟩ := same_str.mp hs
    exact same_str.mpr ⟨w, rfl⟩
  | any a =>
    obtain ⟨b, rfl, rfl | heq⟩ := same_any.mp hs
    · exact hs
    · exact same_any.mpr ⟨a, rfl,
        .inr (hW.symm a b (ht a (by simp [anyWords])) (hu b (by simp [anyWords])) heq)⟩
  | seq w ts ih =>
    obtain ⟨w', us, rfl, hall⟩ := same_seq.mp hs
    exact same_seq.mpr ⟨w, ts, rfl, Pairing.forall₂_symm_on (fun t htm u hum hst =>
      ih t htm (ht.item rfl htm) (hu.item rfl hum) hst) hall⟩
  | bag w ts ih =>
    obtain ⟨w', us, rfl, hrel⟩ := same_bag.mp hs
    exact same_bag.mpr ⟨w, ts, rfl, Pairing.rel_symm_on (fun t htm u hum hst =>
      ih t htm (ht.item rfl htm) (hu.item rfl hum) hst) hrel⟩
  | variant w tag ts ih =>
    obtain ⟨w', us, rfl, hall⟩ := same_variant.mp hs
    exact same_variant.mpr ⟨w, ts, rfl, Pairing.forall₂_symm_on (fun t htm u hum hst =>
      ih t htm (ht.item rfl htm) (hu.item rfl hum) hst) hall⟩

theorem Same.trans (hW : AnyRegular anyEq W) {t u v : Tree} (ht : t.Within W) (hu : u.Within W)
    (hv : v.Within W) (htu : Same anyEq t u) (huv : Same anyEq u v) : Same anyEq t v := by
  induction t using Tree.induction generalizing u v with
  | word a =>
    obtain rfl := same_word.mp htu
    exact huv
  | gone a e =>
    obtain rfl := same_gone.mp htu
    exact huv
  | str w x =>
    obtain ⟨_, rfl⟩ := same_str.mp htu
    obtain ⟨w', rfl⟩ := same_str.mp huv
    exact same_str.mpr ⟨w', rfl⟩
  | any a =>
    obtain ⟨b, rfl, hab⟩ := same_any.mp htu
    obtain ⟨c, rfl, hbc⟩ := same_any.mp huv
    refine same_any.mpr ⟨c, rfl, ?_⟩
    rcases hab with rfl | hab
    · exact hbc
    · rcases hbc with rfl | hbc
      · exact .inr hab
      · exact hW.trans a b c (ht a (by simp [anyWords])) (hu b (by simp [anyWords]))
          (hv c (by simp [anyWords])) hab hbc
  | seq w ts ih =>
    obtain ⟨_, us, rfl, htus⟩ := same_seq.mp htu
    obtain ⟨w', vs, rfl, huvs⟩ := same_seq.mp huv
    exact same_seq.mpr ⟨w', vs, rfl, Pairing.forall₂_trans_on (fun x hx y hy z hz hxy hyz =>
      ih x hx (ht.item rfl hx) (hu.item rfl hy) (hv.item rfl hz) hxy hyz) htus huvs⟩
  | bag w ts ih =>
    obtain ⟨_, us, rfl, htus⟩ := same_bag.mp htu
    obtain ⟨w', vs, rfl, huvs⟩ := same_bag.mp huv
    refine same_bag.mpr ⟨w', vs, rfl, Pairing.rel_trans_on (fun x hx y hy z hz hxy hyz => ?_) htus
      huvs⟩
    rw [Multiset.mem_coe] at hx hy hz
    exact ih x hx (ht.item rfl hx) (hu.item rfl hy) (hv.item rfl hz) hxy hyz
  | variant w tag ts ih =>
    obtain ⟨_, us, rfl, htus⟩ := same_variant.mp htu
    obtain ⟨w', vs, rfl, huvs⟩ := same_variant.mp huv
    exact same_variant.mpr ⟨w', vs, rfl, Pairing.forall₂_trans_on (fun x hx y hy z hz hxy hyz =>
      ih x hx (ht.item rfl hx) (hu.item rfl hy) (hv.item rfl hz) hxy hyz) htus huvs⟩

theorem same_rectangular (hW : AnyRegular anyEq W) {ts us : List Tree}
    (ht : ∀ t ∈ ts, t.Within W) (hu : ∀ u ∈ us, u.Within W) :
    Pairing.Rectangular (Same anyEq) (ts : Multiset Tree) (us : Multiset Tree) := by
  intro x hx a ha b hb c hc hxb hab hac
  exact (hxb.trans hW (ht x hx) (hu b hb) (ht a ha) (hab.symm hW (ht a ha) (hu b hb))).trans hW
    (ht x hx) (ht a ha) (hu c hc) hac

end Tree

/-- A word has at most one tree. -/
theorem Unfolds.unique {h : TypedHeap} {s : Shape} {w : Word} {t t' : Tree} (ht : Unfolds h s w t)
    (ht' : Unfolds h s w t') : t = t' := by
  induction ht generalizing t' with
  | leaf w =>
    cases ht' with
    | leaf => rfl
    | gone hs => cases hs
    | seq _ hitems => cases hitems
  | null =>
    cases ht' with
    | null => rfl
    | str hw => exact absurd rfl hw
    | gone hs => cases hs
    | seq _ hitems => cases hitems
  | str hw =>
    cases ht' with
    | null => exact absurd rfl hw
    | str => rfl
    | gone hs => cases hs
    | seq _ hitems => cases hitems
  | any w =>
    cases ht' with
    | any => rfl
    | gone hs => cases hs
    | seq _ hitems => cases hitems
  | backref _ ih =>
    cases ht' with
    | backref ht' => exact ih ht'
    | gone hs => cases hs
    | seq _ hitems => cases hitems
  | gone hs hw =>
    cases ht' with
    | gone => rfl
    | seq hw' => simp [hw] at hw'
    | set hw' => simp [hw] at hw'
    | dict hw' => simp [hw] at hw'
    | enum hw' => simp [hw] at hw'
    | _ => cases hs
  | seq hw hitems tree ht ih =>
    cases ht' with
    | gone hs hw' => simp [hw] at hw'
    | seq hw' hitems' tree' ht' =>
      cases hw.symm.trans hw'
      cases hitems.symm.trans hitems'
      rw [List.map_congr_left fun p hp => ih p hp (ht' p hp)]
    | _ => cases hitems
  | set hw tree ht ih =>
    cases ht' with
    | gone hs hw' => simp [hw] at hw'
    | seq _ hitems => cases hitems
    | set hw' tree' ht' =>
      cases hw.symm.trans hw'
      rw [List.map_congr_left fun v hv => ih v hv (ht' v hv)]
  | dict hw kt vt hk hv ihk ihv =>
    cases ht' with
    | gone hs hw' => simp [hw] at hw'
    | seq _ hitems => cases hitems
    | dict hw' kt' vt' hk' hv' =>
      cases hw.symm.trans hw'
      congr 1
      refine List.map_congr_left fun e he => ?_
      rw [ihk e he (hk' e he), ihv e he (hv' e he)]
  | enum hw hlen tree ht ih =>
    cases ht' with
    | gone hs hw' => simp [hw] at hw'
    | seq _ hitems => cases hitems
    | enum hw' hlen' tree' ht' =>
      cases hw.symm.trans hw'
      rw [List.map_congr_left fun p hp => ih p hp (ht' p hp)]

end Olive
