import Olive.RuntimeSets
import Olive.HashTypedSound

/-! What the two parts of a runtime set agree on, over runs of set operations. -/

namespace Olive

open HashTable

namespace RuntimeSets

variable {store store' : Store} {p q r a b : Pointer} {s s' : OliveHashSet} {o : Object}

section Store

theorem readSet_alloc : readSet (alloc store (.set s)).1 (alloc store (.set s)).2 = some s := by
  simp [alloc, readSet]

theorem readSet_of_alloc (h : readSet (alloc store o).1 p = some s) :
    readSet store p = some s ∨ p = (alloc store o).2 ∧ o = .set s := by
  cases p with
  | zero => cases h
  | succ i =>
    simp only [alloc, readSet] at h ⊢
    rcases Nat.lt_trichotomy i store.length with hi | rfl | hi
    · rw [List.getElem?_append_left hi] at h
      exact .inl h
    · rw [List.getElem?_concat_length] at h
      cases o with
      | set s =>
        cases h
        exact .inr ⟨rfl, rfl⟩
      | list items => cases h
    · rw [List.getElem?_eq_none (by simp; omega)] at h
      cases h

theorem readSet_alloc_old (h : readSet store p = some s) : readSet (alloc store o).1 p = some s := by
  cases p with
  | zero => cases h
  | succ i =>
    simp only [alloc, readSet] at h ⊢
    have hi : i < store.length := by
      by_contra hi
      rw [List.getElem?_eq_none (by omega)] at h
      cases h
    rw [List.getElem?_append_left hi]
    exact h

theorem readSet_alloc_list {items : List Word} :
    readSet (alloc store (.list items)).1 (alloc store (.list items)).2 = none := by
  simp [alloc, readSet]

theorem readSet_writeSet (h : readSet store p = some s') :
    readSet (writeSet store s p) q = if q = p then some s else readSet store q := by
  cases p with
  | zero => cases h
  | succ i =>
    have hi : i < store.length := by
      by_contra hi
      simp only [readSet, List.getElem?_eq_none (Nat.le_of_not_lt hi)] at h
      cases h
    cases q with
    | zero => rfl
    | succ j =>
      simp only [readSet, writeSet, List.getElem?_set]
      by_cases hj : i = j
      · simp [hj, hj ▸ hi]
      · simp [hj, Ne.symm hj]

end Store

section Parts

variable {hash : Word → Option Word} {eq : Word → Word → Option Bool} {S : Word → Prop}
  {same : Word → Word → Bool} {code : Word → Word} {val k : Word}

/-- Both parts of a set have the same keys, each once. -/
structure Agree (S : Word → Prop) (same : Word → Word → Bool) (code : Word → Word)
    (s : OliveHashSet) : Prop where
  elems : ∀ e ∈ s.elems, S e
  inner : Holds S code s.inner
  apart : Apart same s.elems
  keys : Apart same (keysOf s.inner)
  both : ∀ k, S k → (Has same s.elems k ↔ Has same (keysOf s.inner) k)

theorem agree_empty : Agree S same code empty where
  elems := List.forall_mem_nil _
  inner := List.forall_mem_nil _
  apart := List.Pairwise.nil
  keys := List.Pairwise.nil
  both _ _ := Iff.rfl

theorem Agree.contains_iff (hl : Lawful hash eq S same code) (hs : Agree S same code s) (hval : S val) :
    ∃ r, contains hash eq s.inner val = some r ∧ (r = true ↔ Has same s.elems val) := by
  obtain ⟨r, hr, hiff⟩ := hl.contains_iff hs.inner hval
  exact ⟨r, hr, hiff.trans (hs.both val hval).symm⟩

theorem Agree.addKey (hl : Lawful hash eq S same code) (hs : Agree S same code s) (hval : S val) :
    ∃ s', addKey hash eq s val = some s' ∧ Agree S same code s' ∧
      ∀ k, S k → (Has same s'.elems k ↔ Has same s.elems k ∨ same k val = true) := by
  obtain ⟨hold, hnew⟩ := hl.inserts hs.inner hval
  by_cases hhas : Has same (keysOf s.inner) val
  · refine ⟨s, ?_, hs, fun k hk => ⟨.inl, ?_⟩⟩
    · rw [RuntimeSets.addKey, hold hhas]
      rfl
    · rintro (h | h)
      · exact h
      · exact hl.has_of_same hs.elems hval hk h ((hs.both val hval).mpr hhas)
  · have helem : ¬ Has same s.elems val := fun h => hhas ((hs.both val hval).mp h)
    have hmem : ∀ k, Has same (s.elems ++ [val]) k ↔ Has same s.elems k ∨ same k val = true := by
      intro k
      rw [has_append, has_cons]
      exact or_congr_right (or_iff_left has_nil)
    refine ⟨⟨s.elems ++ [val], s.inner ++ [(code val, val, ())]⟩, ?_, ?_, fun k _ => hmem k⟩
    · rw [RuntimeSets.addKey, hnew hhas]
      rfl
    · exact {
        elems := fun e he => by
          rcases List.mem_append.mp he with he | he
          · exact hs.elems e he
          · exact List.mem_singleton.mp he ▸ hval
        inner := fun e he => by
          rcases List.mem_append.mp he with he | he
          · exact hs.inner e he
          · rw [List.mem_singleton.mp he]
            exact ⟨hval, rfl⟩
        apart := hl.apart_append hs.elems hval hs.apart helem
        keys := by
          rw [keysOf_append]
          exact hl.apart_append hs.inner.mem hval hs.keys hhas
        both := fun k hk => by
          rw [hmem, hs.both k hk, keysOf_append, has_append]
          exact or_congr_right (has_cons.trans (or_iff_left has_nil)).symm }

theorem Agree.dropKey (hl : Lawful hash eq S same code) (hs : Agree S same code s) (hval : S val) :
    ∃ s', dropKey hash eq s val = some s' ∧ Agree S same code s' ∧
      ∀ k, S k → (Has same s'.elems k ↔ Has same s.elems k ∧ same k val = false) := by
  have hremove : removeKey hash eq s.inner val = erase eq (code val) val s.inner := by
    rw [removeKey, hl.hash val hval]
    rfl
  rcases hl.erases hs.inner hval with ⟨hnot, herase⟩ | ⟨before, e, after, hinner, hse, herase⟩
  · refine ⟨s, ?_, hs, fun k hk => ⟨fun h => ⟨h, ?_⟩, And.left⟩⟩
    · rw [RuntimeSets.dropKey, hremove, herase]
      rfl
    · rw [← Bool.not_eq_true]
      intro hsame
      have hback := hl.has_of_same hs.elems hk hval (hl.symm k val hk hval hsame) h
      exact hnot ((hs.both val hval).mp hback)
  · -- the value is in both parts, and goes from both
    have hkeys : keysOf s.inner = keysOf before ++ e.2.1 :: keysOf after := by
      simp [keysOf, hinner]
    have hhas : Has same (keysOf s.inner) val :=
      ⟨e.2.1, by rw [hkeys]; exact List.mem_append_right _ List.mem_cons_self, hse⟩
    obtain ⟨i, hi, hfound, hat⟩ := hl.position_iff hs.elems hval
    obtain ⟨n, rfl⟩ := Option.isSome_iff_exists.mp (hfound.mpr ((hs.both val hval).mpr hhas))
    obtain ⟨x, hx, hsx⟩ := hat n rfl
    obtain ⟨hn, hxe⟩ := List.getElem?_eq_some_iff.mp hx
    have hsplit : s.elems = s.elems.take n ++ x :: s.elems.drop (n + 1) := by
      rw [← hxe, List.getElem_cons_drop, List.take_append_drop]
    have hrest : s.elems.eraseIdx n = s.elems.take n ++ s.elems.drop (n + 1) :=
      List.eraseIdx_eq_take_drop_succ s.elems n
    have hmem : ∀ k, S k → (Has same (s.elems.eraseIdx n) k ↔
        Has same s.elems k ∧ same k val = false) := by
      intro k hk
      rw [hrest, hl.has_without (by rw [← hsplit]; exact hs.elems) hval
        (by rw [← hsplit]; exact hs.apart) hsx hk, ← hsplit]
    have hmem' : ∀ k, S k → (Has same (keysOf (before ++ after)) k ↔
        Has same (keysOf s.inner) k ∧ same k val = false) := by
      intro k hk
      have hinS := hs.inner.mem
      have hapart := hs.keys
      rw [hkeys] at hinS hapart ⊢
      rw [keysOf_append]
      exact hl.has_without hinS hval hapart hse hk
    refine ⟨⟨s.elems.eraseIdx n, before ++ after⟩, ?_, ?_, hmem⟩
    · rw [RuntimeSets.dropKey, hremove, herase]
      change (position eq val s.elems).bind _ = _
      rw [hi]
      rfl
    · exact {
        elems := fun e he => hs.elems e (List.mem_of_mem_eraseIdx he)
        inner := fun e' he => hs.inner e' (by
          rw [hinner]
          rcases List.mem_append.mp he with he | he
          · exact List.mem_append_left _ he
          · exact List.mem_append_right _ (List.mem_cons_of_mem _ he))
        apart := hs.apart.sublist (List.eraseIdx_sublist ..)
        keys := by
          have hapart := hs.keys
          rw [hkeys] at hapart
          rw [keysOf_append]
          exact hapart.sublist ((List.Sublist.refl _).append (List.sublist_cons_self ..))
        both := fun k hk => by rw [hmem k hk, hmem' k hk, hs.both k hk] }

/-- The values that are kept come to the set. -/
theorem Agree.addWhere (hl : Lawful hash eq S same code) {keep : Word → Option Bool}
    {kept : Word → Prop} {vals : List Word} (hvals : ∀ v ∈ vals, S v)
    (hkeep : ∀ v ∈ vals, ∃ r, keep v = some r ∧ (r = true ↔ kept v)) (hs : Agree S same code s) :
    ∃ s', addWhere hash eq keep vals s = some s' ∧ Agree S same code s' ∧
      ∀ k, S k → (Has same s'.elems k ↔ Has same s.elems k ∨ ∃ v ∈ vals, kept v ∧ same k v = true) := by
  induction vals generalizing s with
  | nil => exact ⟨s, rfl, hs, fun k _ => by simp⟩
  | cons v rest ih =>
    have hv := hvals v List.mem_cons_self
    have hrest : ∀ v ∈ rest, S v := fun v hv => hvals v (List.mem_cons_of_mem _ hv)
    have hkeep' := fun v hv => hkeep v (List.mem_cons_of_mem _ hv)
    obtain ⟨r, hr, hkept⟩ := hkeep v List.mem_cons_self
    cases r with
    | true =>
      obtain ⟨s₁, hadd, hs₁, hmem₁⟩ := hs.addKey hl hv
      obtain ⟨s', hall, hs', hmem⟩ := ih hrest hkeep' hs₁
      refine ⟨s', ?_, hs', fun k hk => ?_⟩
      · rw [RuntimeSets.addWhere, hr]
        change (RuntimeSets.addKey hash eq s v).bind _ = _
        rw [hadd]
        exact hall
      · rw [hmem k hk, hmem₁ k hk, or_assoc]
        simp only [List.mem_cons, exists_eq_or_imp, hkept.mp rfl, true_and]
    | false =>
      obtain ⟨s', hall, hs', hmem⟩ := ih hrest hkeep' hs
      refine ⟨s', ?_, hs', fun k hk => ?_⟩
      · rw [RuntimeSets.addWhere, hr]
        exact hall
      · have hnot : ¬ kept v := fun h => Bool.false_ne_true (hkept.mpr h)
        rw [hmem k hk]
        simp only [List.mem_cons, exists_eq_or_imp, hnot, false_and, false_or]

end Parts

section Results

variable {hash : Word → Option Word} {eq : Word → Word → Option Bool} {S : Word → Prop}
  {same : Word → Word → Bool} {code : Word → Word} {val k : Word} {A : Word → Prop}

/-- The members of the value at a pointer. Null has none. -/
def Members (same : Word → Word → Bool) (store : Store) (p : Pointer) (k : Word) : Prop :=
  ∃ s, readSet store p = some s ∧ Has same s.elems k

theorem members_of_readSet (h : readSet store p = some s) : Members same store p k ↔ Has same s.elems k := by
  constructor
  · rintro ⟨s', hs', hk⟩
    rw [h] at hs'
    exact Option.some.inj hs' ▸ hk
  · exact fun hk => ⟨s, h, hk⟩

theorem not_members_null : ¬ Members same store 0 k := by
  rintro ⟨s, hs, -⟩
  cases hs

/-- A set of the state `store`, or null. -/
def Operand (store : Store) (p : Pointer) : Prop := p = 0 ∨ ∃ s, readSet store p = some s

def AgreeAll (S : Word → Prop) (same : Word → Word → Bool) (code : Word → Word) (store : Store) : Prop :=
  ∀ p s, readSet store p = some s → Agree S same code s

/-- The other sets are what they were. -/
def Frame (store store' : Store) (r : Pointer) : Prop :=
  ∀ p s, p ≠ r → readSet store p = some s → readSet store' p = some s

/-- The set at `r` has the members `A`. -/
structure Made (S : Word → Prop) (same : Word → Word → Bool) (code : Word → Word)
    (store store' : Store) (r : Pointer) (A : Word → Prop) : Prop where
  agree : AgreeAll S same code store'
  frame : Frame store store' r
  result : ∃ s, readSet store' r = some s ∧ ∀ k, S k → (Has same s.elems k ↔ A k)

theorem Made.alloc (hall : AgreeAll S same code store) (hs : Agree S same code s)
    (hA : ∀ k, S k → (Has same s.elems k ↔ A k)) :
    Made S same code store (alloc store (.set s)).1 (alloc store (.set s)).2 A where
  agree p s' hp := by
    rcases readSet_of_alloc hp with h | ⟨-, ho⟩
    · exact hall p s' h
    · cases ho
      exact hs
  frame p s' _ hp := readSet_alloc_old hp
  result := ⟨s, readSet_alloc, hA⟩

theorem Made.writeSet (hall : AgreeAll S same code store) (hp : readSet store p = some s')
    (hs : Agree S same code s) (hA : ∀ k, S k → (Has same s.elems k ↔ A k)) :
    Made S same code store (writeSet store s p) p A where
  agree q s₁ hq := by
    rw [readSet_writeSet hp] at hq
    split at hq
    next =>
      cases hq
      exact hs
    next => exact hall q s₁ hq
  frame q s₁ hne hq := by
    rw [readSet_writeSet hp, if_neg hne]
    exact hq
  result := ⟨s, by rw [readSet_writeSet hp, if_pos rfl], hA⟩

/-- A list is no set. -/
theorem AgreeAll.alloc_list (hall : AgreeAll S same code store) {items : List Word} :
    AgreeAll S same code (alloc store (.list items)).1 := by
  intro p s hp
  rcases readSet_of_alloc hp with h | ⟨-, ho⟩
  · exact hall p s h
  · cases ho

theorem oliveSetItems_list (hp : Operand store p) :
    ∃ items, oliveSetItems store p = some (alloc store (.list items)) := by
  rcases hp with rfl | ⟨s, hs⟩
  · exact ⟨[], rfl⟩
  · have hne : p ≠ 0 := fun h => by
      subst h
      cases hs
    refine ⟨s.elems, ?_⟩
    rw [oliveSetItems, if_neg hne, hs]
    rfl

theorem ne_null (h : readSet store p = some s) : p ≠ 0 := by
  rintro rfl
  cases h

theorem add_made (hl : Lawful hash eq S same code) (hall : AgreeAll S same code store)
    (hp : readSet store p = some s) (hval : S val) :
    ∃ store', oliveSetAdd hash eq store p val = some store' ∧
      Made S same code store store' p fun k => Members same store p k ∨ same k val = true := by
  obtain ⟨s', hadd, hs', hmem⟩ := (hall p s hp).addKey hl hval
  refine ⟨writeSet store s' p, ?_, .writeSet hall hp hs' fun k hk => ?_⟩
  · rw [oliveSetAdd, if_neg (ne_null hp), hp]
    change (addKey hash eq s val).bind _ = _
    rw [hadd]
    rfl
  · rw [hmem k hk, members_of_readSet hp]

theorem remove_made (hl : Lawful hash eq S same code) (hall : AgreeAll S same code store)
    (hp : readSet store p = some s) (hval : S val) :
    ∃ store', oliveSetRemove hash eq store p val = some (store', val) ∧
      Made S same code store store' p fun k => Members same store p k ∧ same k val = false := by
  obtain ⟨s', hdrop, hs', hmem⟩ := (hall p s hp).dropKey hl hval
  refine ⟨writeSet store s' p, ?_, .writeSet hall hp hs' fun k hk => ?_⟩
  · rw [oliveSetRemove, if_neg (ne_null hp), hp]
    change (dropKey hash eq s val).bind _ = _
    rw [hdrop]
    rfl
  · rw [hmem k hk, members_of_readSet hp]

/-- A value that is absent is a fault, and the set stays. -/
theorem removeChecked_made (hl : Lawful hash eq S same code) (hall : AgreeAll S same code store)
    (hp : readSet store p = some s) (hval : S val) :
    ∃ r, oliveSetRemoveChecked hash eq store p val = some r ∧
      Made S same code store r.1 p fun k => Members same store p k ∧ same k val = false := by
  have hs := hall p s hp
  obtain ⟨present, hpresent, hiff⟩ := hs.contains_iff hl hval
  have hchecked : oliveSetRemoveChecked hash eq store p val =
      (contains hash eq s.inner val).bind fun present =>
        if present then (oliveSetRemove hash eq store p val).bind fun r => some (r.1, .ok r.2)
        else some (store, .error s.elems.length) := by
    rw [oliveSetRemoveChecked, if_neg (ne_null hp), hp]
    rfl
  rw [hchecked, hpresent]
  cases present with
  | true =>
    obtain ⟨store', hremove, hmade⟩ := remove_made hl hall hp hval
    exact ⟨(store', .ok val), by simp [hremove], hmade⟩
  | false =>
    refine ⟨(store, .error s.elems.length), rfl, hall, fun _ _ _ hq => hq, s, hp, fun k hk => ?_⟩
    rw [members_of_readSet hp]
    refine ⟨fun h => ⟨h, ?_⟩, And.left⟩
    rw [← Bool.not_eq_true]
    exact fun hsame => Bool.false_ne_true
      (hiff.mpr (hl.has_of_same hs.elems hk hval (hl.symm k val hk hval hsame) h))

theorem clear_made (hall : AgreeAll S same code store) (hp : readSet store p = some s) :
    oliveSetClear store p = some (writeSet store empty p, p) ∧
      Made S same code store (writeSet store empty p) p fun _ => False := by
  refine ⟨?_, .writeSet hall hp agree_empty fun k _ => iff_of_false has_nil not_false⟩
  rw [oliveSetClear, if_neg (ne_null hp), hp]
  rfl

theorem recycle_made (hall : AgreeAll S same code store) (hp : readSet store p = some s) :
    ∃ store', (oliveClearTyped store p).bind (oliveSetNewReuse · p) = some (store', p) ∧
      Made S same code store store' p fun _ => False := by
  have hcleared : readSet (writeSet store empty p) p = some empty := by
    rw [readSet_writeSet hp, if_pos rfl]
  have hmade : Made S same code store (writeSet store empty p) p fun _ => False :=
    .writeSet hall hp agree_empty fun k _ => iff_of_false has_nil not_false
  have hagain : Made S same code (writeSet store empty p) (writeSet (writeSet store empty p) empty p) p
      fun _ => False :=
    .writeSet hmade.agree hcleared agree_empty fun k _ => iff_of_false has_nil not_false
  refine ⟨writeSet (writeSet store empty p) empty p, ?_, hagain.agree, ?_, hagain.result⟩
  · rw [oliveClearTyped, if_neg (ne_null hp), hp]
    change oliveSetNewReuse (writeSet store empty p) p = _
    rw [oliveSetNewReuse, if_neg (ne_null hp), hcleared]
    rfl
  · exact fun q s hne hq => hagain.frame q s hne (hmade.frame q s hne hq)

theorem keepAll_iff (v : Word) : ∃ r, keepAll v = some r ∧ (r = true ↔ True) :=
  ⟨true, rfl, iff_of_true rfl trivial⟩

theorem keepOut_iff (hl : Lawful hash eq S same code) (hs : Agree S same code s) (hval : S val) :
    ∃ r, keepOut hash eq s val = some r ∧ (r = true ↔ ¬ Has same s.elems val) := by
  obtain ⟨r, hr, hiff⟩ := hs.contains_iff hl hval
  refine ⟨!r, by rw [keepOut, hr]; rfl, ?_⟩
  rw [← hiff, Bool.not_eq_true', Bool.not_eq_true]

/-- The keys that are the same as an element with a property are the elements with it. -/
theorem has_where (hl : Lawful hash eq S same code) {elems : List Word} {kept : Word → Prop}
    (helems : ∀ e ∈ elems, S e) (hkept : ∀ v w, S v → S w → same v w = true → kept w → kept v)
    (hk : S k) : (∃ v ∈ elems, kept v ∧ same k v = true) ↔ Has same elems k ∧ kept k := by
  constructor
  · rintro ⟨v, hv, hgood, hs⟩
    exact ⟨⟨v, hv, hs⟩, hkept k v hk (helems v hv) hs hgood⟩
  · rintro ⟨⟨v, hv, hs⟩, hgood⟩
    exact ⟨v, hv, hkept v k (helems v hv) hk (hl.symm k v hk (helems v hv) hs) hgood, hs⟩

theorem has_all {elems : List Word} :
    (∃ v ∈ elems, True ∧ same k v = true) ↔ Has same elems k := by
  simp only [true_and, Has]

theorem empty_or {P : Prop} : Has same empty.elems k ∨ P ↔ P := or_iff_right has_nil

section Algebra

variable (hl : Lawful hash eq S same code) (hall : AgreeAll S same code store)
  (ha : readSet store a = some s) (hb : readSet store b = some s')

include hl hall ha hb

theorem union_made :
    ∃ r, oliveSetUnion hash eq store a b = some r ∧
      Made S same code store r.1 r.2 fun k => Members same store a k ∨ Members same store b k := by
  obtain ⟨s₁, hadd₁, hs₁, hmem₁⟩ :=
    agree_empty.addWhere hl (hall a s ha).elems fun v _ => keepAll_iff v
  obtain ⟨s₂, hadd₂, hs₂, hmem₂⟩ := hs₁.addWhere hl (hall b s' hb).elems fun v _ => keepAll_iff v
  refine ⟨alloc store (.set s₂), ?_, .alloc hall hs₂ fun k hk => ?_⟩
  · rw [oliveSetUnion, if_neg (ne_null ha), if_neg (ne_null hb), ha, hb]
    change (addWhere hash eq keepAll s.elems empty).bind _ = _
    rw [hadd₁]
    change (addWhere hash eq keepAll s'.elems s₁).bind _ = _
    rw [hadd₂]
    rfl
  · rw [hmem₂ k hk, hmem₁ k hk, has_all, has_all, members_of_readSet ha, members_of_readSet hb]
    exact or_congr_left empty_or

theorem intersection_made :
    ∃ r, oliveSetIntersection hash eq store a b = some r ∧
      Made S same code store r.1 r.2 fun k => Members same store a k ∧ Members same store b k := by
  obtain ⟨s₁, hadd₁, hs₁, hmem₁⟩ := agree_empty.addWhere hl (hall a s ha).elems
    fun v hv => (hall b s' hb).contains_iff hl ((hall a s ha).elems v hv)
  refine ⟨alloc store (.set s₁), ?_, .alloc hall hs₁ fun k hk => ?_⟩
  · rw [oliveSetIntersection, if_neg (not_or_intro (ne_null ha) (ne_null hb)), ha, hb]
    change (addWhere hash eq (contains hash eq s'.inner) s.elems empty).bind _ = _
    rw [hadd₁]
    rfl
  · rw [hmem₁ k hk, has_where hl (hall a s ha).elems _ hk, members_of_readSet ha, members_of_readSet hb]
    · exact empty_or
    · exact fun v w hv hw hs h => hl.has_of_same (hall b s' hb).elems hw hv hs h

theorem diff_made :
    ∃ r, oliveSetDiff hash eq store a b = some r ∧
      Made S same code store r.1 r.2 fun k => Members same store a k ∧ ¬ Members same store b k := by
  obtain ⟨s₁, hadd₁, hs₁, hmem₁⟩ := agree_empty.addWhere hl (hall a s ha).elems
    fun v hv => keepOut_iff hl (hall b s' hb) ((hall a s ha).elems v hv)
  refine ⟨alloc store (.set s₁), ?_, .alloc hall hs₁ fun k hk => ?_⟩
  · rw [oliveSetDiff, if_neg (ne_null ha), if_neg (ne_null hb), ha, hb]
    change (addWhere hash eq (keepOut hash eq s') s.elems empty).bind _ = _
    rw [hadd₁]
    rfl
  · rw [hmem₁ k hk, has_where hl (hall a s ha).elems _ hk, members_of_readSet ha, members_of_readSet hb]
    · exact empty_or
    · exact fun v w hv hw hs h h' =>
        h (hl.has_of_same (hall b s' hb).elems hv hw (hl.symm v w hv hw hs) h')

theorem symDiff_made :
    ∃ r, oliveSetSymDiff hash eq store a b = some r ∧
      Made S same code store r.1 r.2 fun k => Members same store a k ∧ ¬ Members same store b k ∨
        Members same store b k ∧ ¬ Members same store a k := by
  obtain ⟨s₁, hadd₁, hs₁, hmem₁⟩ := agree_empty.addWhere hl (hall a s ha).elems
    fun v hv => keepOut_iff hl (hall b s' hb) ((hall a s ha).elems v hv)
  obtain ⟨s₂, hadd₂, hs₂, hmem₂⟩ := hs₁.addWhere hl (hall b s' hb).elems
    fun v hv => keepOut_iff hl (hall a s ha) ((hall b s' hb).elems v hv)
  have houtside : ∀ {t : OliveHashSet}, Agree S same code t → ∀ v w, S v → S w → same v w = true →
      ¬ Has same t.elems w → ¬ Has same t.elems v :=
    fun ht v w hv hw hs h h' => h (hl.has_of_same ht.elems hv hw (hl.symm v w hv hw hs) h')
  refine ⟨alloc store (.set s₂), ?_, .alloc hall hs₂ fun k hk => ?_⟩
  · rw [oliveSetSymDiff, if_neg (ne_null ha), if_neg (ne_null hb), ha, hb]
    change (addWhere hash eq (keepOut hash eq s') s.elems empty).bind _ = _
    rw [hadd₁]
    change (addWhere hash eq (keepOut hash eq s) s'.elems s₁).bind _ = _
    rw [hadd₂]
    rfl
  · rw [hmem₂ k hk, hmem₁ k hk, has_where hl (hall a s ha).elems (houtside (hall b s' hb)) hk,
      has_where hl (hall b s' hb).elems (houtside (hall a s ha)) hk, members_of_readSet ha,
      members_of_readSet hb]
    exact or_congr_left empty_or

end Algebra

theorem copy_made (hl : Lawful hash eq S same code) (hall : AgreeAll S same code store)
    (hp : readSet store p = some s) {copyVal : Word → Word} (hcopy : ∀ v, S v → S (copyVal v)) :
    ∃ r, copySet hash eq copyVal store p = some r ∧
      Made S same code store r.1 r.2 fun k => ∃ e ∈ s.elems, same k (copyVal e) = true := by
  have hcopies : ∀ v ∈ s.elems.map copyVal, S v := by
    intro v hv
    obtain ⟨e, he, rfl⟩ := List.mem_map.mp hv
    exact hcopy e ((hall p s hp).elems e he)
  obtain ⟨s₁, hadd₁, hs₁, hmem₁⟩ := agree_empty.addWhere hl hcopies fun v _ => keepAll_iff v
  refine ⟨alloc store (.set s₁), ?_, .alloc hall hs₁ fun k hk => ?_⟩
  · rw [copySet, if_neg (ne_null hp), hp]
    change (addWhere hash eq keepAll (s.elems.map copyVal) empty).bind _ = _
    rw [hadd₁]
    rfl
  · rw [hmem₁ k hk, has_all, empty_or]
    simp only [Has, List.mem_map, exists_exists_and_eq_and]

end Results

section Runs

variable (h : TypedHeap) (fx : FxHasher) (fuel : Nat) (copyVal : Word → Word) (mode : Option Shape)
  (S : Word → Prop)

/-- Equality as the key mode has it. -/
def sameKey (a b : Word) : Bool := activeEq h fuel mode a b == some true

/-- The set `s` is the set `A` of keys, in both of its parts. -/
structure Is (s : OliveHashSet) (A : Word → Prop) : Prop where
  apart : Apart (sameKey h fuel mode) s.elems
  elems : ∀ x, S x → (Has (sameKey h fuel mode) s.elems x ↔ A x)
  inner : ∀ x, S x →
    (contains (activeHash h fx fuel mode) (activeEq h fuel mode) s.inner x = some true ↔ A x)

/-- The operands are null or sets, the values are keys, and the key mode is the set's. -/
def Op.Fits (store : Store) : Op → Prop
  | .new => True
  | .add desc p val | .remove desc p val | .removeChecked desc p val =>
    desc = mode ∧ Operand store p ∧ S val
  | .clear p | .recycle p => Operand store p
  | .union a b | .intersection a b | .diff a b | .symDiff a b =>
    mode = none ∧ Operand store a ∧ Operand store b
  | .copy p => mode = none ∧ Operand store p

/-- There is no set to change or to copy. -/
def Op.OnNull : Op → Prop
  | .add _ p _ | .remove _ p _ | .removeChecked _ p _ | .clear p | .copy p => p = 0
  | _ => False

/-- What the operation means for sets, where null is the empty set. -/
def Op.meaning (store : Store) (x : Word) : Op → Prop
  | .new | .clear _ | .recycle _ => False
  | .add _ p val => Members (sameKey h fuel mode) store p x ∨ sameKey h fuel mode x val = true
  | .remove _ p val | .removeChecked _ p val =>
    Members (sameKey h fuel mode) store p x ∧ sameKey h fuel mode x val = false
  | .union a b => Members (sameKey h fuel mode) store a x ∨ Members (sameKey h fuel mode) store b x
  | .intersection a b =>
    Members (sameKey h fuel mode) store a x ∧ Members (sameKey h fuel mode) store b x
  | .diff a b => Members (sameKey h fuel mode) store a x ∧ ¬ Members (sameKey h fuel mode) store b x
  | .symDiff a b =>
    Members (sameKey h fuel mode) store a x ∧ ¬ Members (sameKey h fuel mode) store b x ∨
      Members (sameKey h fuel mode) store b x ∧ ¬ Members (sameKey h fuel mode) store a x
  | .copy p => ∃ s, readSet store p = some s ∧ ∃ e ∈ s.elems, sameKey h fuel mode x (copyVal e) = true

/-- The operation gives the set that it means, and changes no other set. -/
structure Right (store : Store) (op : Op) (store' : Store) (r : Pointer) : Prop where
  result : op.OnNull ∧ r = 0 ∧ store' = store ∨ ¬ op.OnNull ∧ ∃ s, readSet store' r = some s ∧
    Is h fx fuel mode S s fun x => op.meaning h fuel copyVal mode store x
  frame : Frame store store' r

inductive Reached : Store → Prop
  | start : Reached []
  | next {store store' : Store} {op : Op} {r : Pointer} : Reached store → op.Fits mode S store →
    step h fx fuel copyVal store op = some (store', r) → Reached store'

/-- A null operand makes a list of the other operand's elements. -/
def Op.ListsInstead : Op → Prop
  | .union a b | .symDiff a b => a = 0 ∨ b = 0
  | .diff a b => a ≠ 0 ∧ b = 0
  | _ => False

/-- What holds of runs in one key mode. -/
structure SetsAgree : Prop where
  /-- In every state each set is one set in both parts. -/
  whole : ∀ store, Reached h fx fuel copyVal mode S store → ∀ p s, readSet store p = some s →
    Is h fx fuel mode S s (Members (sameKey h fuel mode) store p)
  steps : ∀ store op, Reached h fx fuel copyVal mode S store → op.Fits mode S store →
    ∃ store' r, step h fx fuel copyVal store op = some (store', r) ∧
      (Right h fx fuel copyVal mode S store op store' r ↔ ¬ op.ListsInstead)
  /-- A copy has the same members where each copied element is the same key. -/
  copied : ∀ store p s store' r, Reached h fx fuel copyVal mode S store → mode = none →
    readSet store p = some s → (∀ e ∈ s.elems, sameKey h fuel mode (copyVal e) e = true) →
    step h fx fuel copyVal store (.copy p) = some (store', r) →
    ∀ x, S x → (Members (sameKey h fuel mode) store' r x ↔ Members (sameKey h fuel mode) store p x)
  contains : ∀ store p x, Reached h fx fuel copyVal mode S store → Operand store p → S x →
    ∃ r, oliveSetContains (activeHash h fx fuel mode) (activeEq h fuel mode) store p x = some r ∧
      (r = true ↔ Members (sameKey h fuel mode) store p x)

section Steps

variable {h fx fuel copyVal mode S} {code : Word → Word} {op : Op} {A : Word → Prop}

/-- A step, with the sets that it leaves. -/
def Stepped (h : TypedHeap) (fx : FxHasher) (fuel : Nat) (copyVal : Word → Word) (mode : Option Shape)
    (S : Word → Prop) (code : Word → Word) (store : Store) (op : Op) : Prop :=
  ∃ store' r, step h fx fuel copyVal store op = some (store', r) ∧
    AgreeAll S (sameKey h fuel mode) code store' ∧
    (Right h fx fuel copyVal mode S store op store' r ↔ ¬ op.ListsInstead)

theorem Agree.is (hl : Lawful (activeHash h fx fuel mode) (activeEq h fuel mode) S (sameKey h fuel mode) code)
    (hs : Agree S (sameKey h fuel mode) code s)
    (hA : ∀ x, S x → (Has (sameKey h fuel mode) s.elems x ↔ A x)) : Is h fx fuel mode S s A where
  apart := hs.apart
  elems := hA
  inner x hx := by
    obtain ⟨r, hr, hiff⟩ := hs.contains_iff hl hx
    rw [hr, Option.some.injEq, hiff, hA x hx]

theorem Stepped.null (hall : AgreeAll S (sameKey h fuel mode) code store) (hnull : op.OnNull)
    (hlists : ¬ op.ListsInstead) (hstep : step h fx fuel copyVal store op = some (store, 0)) :
    Stepped h fx fuel copyVal mode S code store op :=
  ⟨store, 0, hstep, hall, iff_of_true ⟨.inl ⟨hnull, rfl, rfl⟩, fun _ _ _ hp => hp⟩ hlists⟩

theorem Stepped.list (hall : AgreeAll S (sameKey h fuel mode) code store) {items : List Word}
    (hset : ¬ op.OnNull) (hlists : op.ListsInstead)
    (hstep : step h fx fuel copyVal store op = some (alloc store (.list items))) :
    Stepped h fx fuel copyVal mode S code store op := by
  refine ⟨_, _, hstep, hall.alloc_list, iff_of_false (fun hright => ?_) (not_not_intro hlists)⟩
  rcases hright.result with ⟨hnull, -⟩ | ⟨-, s, hs, -⟩
  · exact hset hnull
  · have hnone : readSet (alloc store (.list items)).1 (alloc store (.list items)).2 = none :=
      readSet_alloc_list
    cases hnone.symm.trans hs

theorem Stepped.made
    (hl : Lawful (activeHash h fx fuel mode) (activeEq h fuel mode) S (sameKey h fuel mode) code)
    (hset : ¬ op.OnNull) (hlists : ¬ op.ListsInstead)
    (hstep : step h fx fuel copyVal store op = some (store', r))
    (hmade : Made S (sameKey h fuel mode) code store store' r A)
    (hA : ∀ x, A x ↔ op.meaning h fuel copyVal mode store x) :
    Stepped h fx fuel copyVal mode S code store op := by
  obtain ⟨s, hs, hmem⟩ := hmade.result
  have his : Is h fx fuel mode S s fun x => op.meaning h fuel copyVal mode store x :=
    (hmade.agree r s hs).is hl fun x hx => (hmem x hx).trans (hA x)
  exact ⟨store', r, hstep, hmade.agree, iff_of_true ⟨.inr ⟨hset, s, hs, his⟩, hmade.frame⟩ hlists⟩

theorem new_made (hall : AgreeAll S (sameKey h fuel mode) code store) :
    Made S (sameKey h fuel mode) code store (oliveSetNew store).1 (oliveSetNew store).2 fun _ => False :=
  .alloc hall agree_empty fun _ _ => iff_of_false has_nil not_false

/-- Every operation, by what it does with null and with sets. -/
theorem stepped
    (hl : Lawful (activeHash h fx fuel mode) (activeEq h fuel mode) S (sameKey h fuel mode) code)
    (hcopy : mode = none → ∀ v, S v → S (copyVal v))
    (hall : AgreeAll S (sameKey h fuel mode) code store) (hfits : op.Fits mode S store) :
    Stepped h fx fuel copyVal mode S code store op := by
  cases op with
  | new => exact .made hl id id rfl (new_made hall) fun x => Iff.rfl
  | add desc p val =>
    obtain ⟨rfl, rfl | ⟨s, hp⟩, hval⟩ := hfits
    · exact .null hall rfl id rfl
    · obtain ⟨store', hadd, hmade⟩ := add_made hl hall hp hval
      exact .made hl (ne_null hp) id (by rw [step, hadd]; rfl) hmade fun x => Iff.rfl
  | remove desc p val =>
    obtain ⟨rfl, rfl | ⟨s, hp⟩, hval⟩ := hfits
    · exact .null hall rfl id rfl
    · obtain ⟨store', hremove, hmade⟩ := remove_made hl hall hp hval
      exact .made hl (ne_null hp) id (by rw [step, hremove]; rfl) hmade fun x => Iff.rfl
  | removeChecked desc p val =>
    obtain ⟨rfl, rfl | ⟨s, hp⟩, hval⟩ := hfits
    · exact .null hall rfl id rfl
    · obtain ⟨r, hremove, hmade⟩ := removeChecked_made hl hall hp hval
      exact .made hl (ne_null hp) id (by rw [step, hremove]; rfl) hmade fun x => Iff.rfl
  | clear p =>
    rcases hfits with rfl | ⟨s, hp⟩
    · exact .null hall rfl id rfl
    · obtain ⟨hclear, hmade⟩ := clear_made hall hp
      exact .made hl (ne_null hp) id hclear hmade fun x => Iff.rfl
  | union a b =>
    obtain ⟨rfl, ha, hb⟩ := hfits
    rcases ha with rfl | ⟨sa, ha⟩
    · obtain ⟨items, hitems⟩ := oliveSetItems_list hb
      exact .list hall id (.inl rfl) hitems
    · rcases hb with rfl | ⟨sb, hb⟩
      · obtain ⟨items, hitems⟩ := oliveSetItems_list (.inr ⟨sa, ha⟩)
        have hstep : step h fx fuel copyVal store (.union a 0) = some (alloc store (.list items)) := by
          rw [step, oliveSetUnion, if_neg (ne_null ha), if_pos rfl, hitems]
        exact .list hall id (.inr rfl) hstep
      · obtain ⟨r, hunion, hmade⟩ := union_made hl hall ha hb
        exact .made hl id (not_or_intro (ne_null ha) (ne_null hb)) hunion hmade fun x => Iff.rfl
  | intersection a b =>
    obtain ⟨rfl, ha, hb⟩ := hfits
    rcases ha with rfl | ⟨sa, ha⟩
    · exact .made hl id id rfl (new_made hall) fun x => iff_of_false id fun hx => not_members_null hx.1
    · rcases hb with rfl | ⟨sb, hb⟩
      · refine .made hl id id ?_ (new_made hall) fun x => iff_of_false id fun hx => not_members_null hx.2
        rw [step, oliveSetIntersection, if_pos (.inr rfl)]
      · obtain ⟨r, hboth, hmade⟩ := intersection_made hl hall ha hb
        exact .made hl id id hboth hmade fun x => Iff.rfl
  | diff a b =>
    obtain ⟨rfl, ha, hb⟩ := hfits
    rcases ha with rfl | ⟨sa, ha⟩
    · exact .made hl id (fun hlists => hlists.1 rfl) rfl (new_made hall)
        fun x => iff_of_false id fun hx => not_members_null hx.1
    · rcases hb with rfl | ⟨sb, hb⟩
      · obtain ⟨items, hitems⟩ := oliveSetItems_list (.inr ⟨sa, ha⟩)
        have hstep : step h fx fuel copyVal store (.diff a 0) = some (alloc store (.list items)) := by
          rw [step, oliveSetDiff, if_neg (ne_null ha), if_pos rfl, hitems]
        exact .list hall id ⟨ne_null ha, rfl⟩ hstep
      · obtain ⟨r, hdiff, hmade⟩ := diff_made hl hall ha hb
        exact .made hl id (fun hlists => ne_null hb hlists.2) hdiff hmade fun x => Iff.rfl
  | symDiff a b =>
    obtain ⟨rfl, ha, hb⟩ := hfits
    rcases ha with rfl | ⟨sa, ha⟩
    · obtain ⟨items, hitems⟩ := oliveSetItems_list hb
      exact .list hall id (.inl rfl) hitems
    · rcases hb with rfl | ⟨sb, hb⟩
      · obtain ⟨items, hitems⟩ := oliveSetItems_list (.inr ⟨sa, ha⟩)
        have hstep : step h fx fuel copyVal store (.symDiff a 0) = some (alloc store (.list items)) := by
          rw [step, oliveSetSymDiff, if_neg (ne_null ha), if_pos rfl, hitems]
        exact .list hall id (.inr rfl) hstep
      · obtain ⟨r, hdiff, hmade⟩ := symDiff_made hl hall ha hb
        exact .made hl id (not_or_intro (ne_null ha) (ne_null hb)) hdiff hmade fun x => Iff.rfl
  | copy p =>
    obtain ⟨rfl, rfl | ⟨s, hp⟩⟩ := hfits
    · exact .null hall rfl id rfl
    · obtain ⟨r, hcopied, hmade⟩ := copy_made hl hall hp (hcopy rfl)
      refine .made hl (ne_null hp) id hcopied hmade fun x => ⟨fun hx => ⟨s, hp, hx⟩, ?_⟩
      rintro ⟨s', hs', hx⟩
      rw [hp] at hs'
      exact Option.some.inj hs' ▸ hx
  | recycle p =>
    rcases hfits with rfl | ⟨s, hp⟩
    · exact .made hl id id rfl (new_made hall) fun x => Iff.rfl
    · obtain ⟨store', hrecycle, hmade⟩ := recycle_made hall hp
      exact .made hl id id hrecycle hmade fun x => Iff.rfl

theorem Reached.agree
    (hl : Lawful (activeHash h fx fuel mode) (activeEq h fuel mode) S (sameKey h fuel mode) code)
    (hcopy : mode = none → ∀ v, S v → S (copyVal v))
    (hreached : Reached h fx fuel copyVal mode S store) :
    AgreeAll S (sameKey h fuel mode) code store := by
  induction hreached with
  | start =>
    intro p s hp
    cases p with
    | zero => cases hp
    | succ i => cases hp
  | next _ hfits hstep ih =>
    obtain ⟨store', r, hstep', hall, -⟩ := stepped hl hcopy ih hfits
    rw [hstep] at hstep'
    cases hstep'
    exact hall

theorem setsAgree_of_lawful
    (hl : Lawful (activeHash h fx fuel mode) (activeEq h fuel mode) S (sameKey h fuel mode) code)
    (hcopy : mode = none → ∀ v, S v → S (copyVal v)) : SetsAgree h fx fuel copyVal mode S where
  whole store hreached p s hp :=
    (hreached.agree hl hcopy p s hp).is hl fun x _ => (members_of_readSet hp).symm
  steps store op hreached hfits := by
    obtain ⟨store', r, hstep, -, hright⟩ := stepped hl hcopy (hreached.agree hl hcopy) hfits
    exact ⟨store', r, hstep, hright⟩
  copied store p s store' r hreached hmode hp hsame hstep x hx := by
    subst hmode
    have hall := hreached.agree hl hcopy
    obtain ⟨r', hcopied, hmade⟩ := copy_made hl hall hp (hcopy rfl)
    obtain rfl : r' = (store', r) := Option.some.inj (hcopied.symm.trans hstep)
    obtain ⟨s', hs', hmem⟩ := hmade.result
    rw [members_of_readSet hs', members_of_readSet hp, hmem x hx]
    refine exists_congr fun e => and_congr_right fun he => ?_
    have heS := (hall p s hp).elems e he
    have hcS := hcopy rfl e heS
    constructor
    · exact fun h => hl.trans x _ e hx hcS heS h (hsame e he)
    · exact fun h => hl.trans x e _ hx heS hcS h (hl.symm _ e hcS heS (hsame e he))
  contains store p x hreached hoperand hx := by
    rcases hoperand with rfl | ⟨s, hp⟩
    · exact ⟨false, rfl, iff_of_false Bool.false_ne_true not_members_null⟩
    · obtain ⟨r, hr, hiff⟩ := (hreached.agree hl hcopy p s hp).contains_iff hl hx
      refine ⟨r, ?_, hiff.trans (members_of_readSet hp).symm⟩
      rw [oliveSetContains, if_neg (ne_null hp), hp]
      exact hr

end Steps

section Keys

/-- With no descriptor, keys are equal where they are of one class. -/
theorem activeEq_none (a b : Word) : activeEq h fuel none a b =
    some (decide (HashTyped.classifyKey h a = HashTyped.classifyKey h b)) := by
  simp only [activeEq]
  split
  next hab => rw [hab, decide_eq_true rfl]
  next hab =>
    split
    next x y hx hy => simp [hx, hy]
    next k x l y hx hy => simp [hx, hy]
    next hstr hscalar =>
      have hne : HashTyped.classifyKey h a ≠ HashTyped.classifyKey h b := by
        intro heq
        cases hx : HashTyped.classifyKey h a with
        | str x => exact hstr x x hx (heq ▸ hx)
        | scalar k x => exact hscalar k x k x hx (heq ▸ hx)
        | raw x =>
          have hb := HashTyped.classifyKey_raw (heq ▸ hx)
          exact hab ((HashTyped.classifyKey_raw hx).symm.trans hb)
      rw [decide_eq_false hne]

theorem sameKey_none {a b : Word} :
    sameKey h fuel none a b = true ↔ HashTyped.classifyKey h a = HashTyped.classifyKey h b := by
  simp only [sameKey, activeEq_none, beq_iff_eq, Option.some.injEq, decide_eq_true_eq]

/-- The keys of every scalar set are lawful. -/
theorem lawful_none : Lawful (activeHash h fx fuel none) (activeEq h fuel none) (fun _ => True)
    (sameKey h fuel none) fun w => (activeHash h fx fuel none w).getD 0 where
  hash w _ := rfl
  eq a b _ _ := by
    rw [activeEq_none, Option.some.injEq, Bool.eq_iff_iff, sameKey_none h fuel, decide_eq_true_eq]
  respects a b _ _ hab := by
    simp only [activeHash]
    rw [(sameKey_none h fuel).mp hab]
  symm a b _ _ hab := (sameKey_none h fuel).mpr ((sameKey_none h fuel).mp hab).symm
  trans a b c _ _ _ hab hbc := (sameKey_none h fuel).mpr (((sameKey_none h fuel).mp hab).trans ((sameKey_none h fuel).mp hbc))

/-- The keys of one type are lawful. -/
theorem setsAgree_of_plain {T : Shape → Word → Prop} {s : Shape} {keys : List Word}
    {tree : Word → Tree} (hk : HashTyped.PlainKeys h T s keys tree) (ht : h.WellTyped T)
    (hback : ∀ target w, T (.backref target) w → (h.shapes target).isAggregate)
    (hfuel : EqTyped.depth h ≤ fuel) : SetsAgree h fx fuel copyVal (some s) (· ∈ keys) :=
  setsAgree_of_lawful (hk.lawful fx ht hback hfuel) fun hmode => nomatch hmode

/-- In one key mode whose equality is an equivalence that the hash respects, as it is for every
scalar set, the two parts of a set agree and each operation gives what it means, unless a null
operand makes a list. -/
theorem sets_agree : SetsAgree h fx fuel copyVal none (fun _ => True) ∧
    ∀ s S code, Lawful (HashTyped.keyHash h fx fuel s) (HashTyped.keyEq h fuel s) S
      (sameKey h fuel (some s)) code → SetsAgree h fx fuel copyVal (some s) S :=
  ⟨setsAgree_of_lawful (lawful_none h fx fuel) fun _ _ _ => trivial,
    fun _ _ _ hl => setsAgree_of_lawful hl fun hmode => nomatch hmode⟩

end Keys

end Runs

/-- Keys that are all equal. -/
theorem lawful_of_equal {hash : Word → Option Word} {eq : Word → Word → Option Bool} {S : Word → Prop}
    {x : Word} (hhash : ∀ a, S a → hash a = some x) (heq : ∀ a, S a → ∀ b, S b → eq a b = some true) :
    Lawful hash eq S (fun a b => eq a b == some true) fun _ => x where
  hash := hhash
  eq a b ha hb := by rw [heq a ha b hb]; rfl
  respects _ _ _ _ _ := rfl
  symm a b ha hb _ := by rw [heq b hb a ha]; rfl
  trans a b c ha _ hc _ _ := by rw [heq a ha c hc]; rfl

theorem pairs_lawful : ∃ x, Lawful
    (HashTyped.keyHash EqTyped.pairHeap HashTyped.fxHasher 4 EqTyped.pairShape)
    (HashTyped.keyEq EqTyped.pairHeap 4 EqTyped.pairShape) (· ∈ [(32 : Word), 56])
    (sameKey EqTyped.pairHeap 4 (some EqTyped.pairShape)) fun _ => x := by
  have hmem : ∀ a ∈ [(32 : Word), 56], a = 32 ∨ a = 56 := by simp
  refine ⟨16996906911347802403, lawful_of_equal (fun a ha => ?_) fun a ha b hb => ?_⟩
  · rcases hmem a ha with rfl | rfl
    · decide +kernel
    · decide +kernel
  · rcases hmem a ha with rfl | rfl <;> rcases hmem b hb with rfl | rfl <;> decide +kernel

/-- Of two equal pairs a set keeps the first. -/
theorem sets_agree_pairs :
    SetsAgree EqTyped.pairHeap HashTyped.fxHasher 4 id (some EqTyped.pairShape) (· ∈ [(32 : Word), 56]) ∧
    ((addKey (HashTyped.keyHash EqTyped.pairHeap HashTyped.fxHasher 4 EqTyped.pairShape)
      (HashTyped.keyEq EqTyped.pairHeap 4 EqTyped.pairShape) empty 32).bind fun s =>
      (addKey (HashTyped.keyHash EqTyped.pairHeap HashTyped.fxHasher 4 EqTyped.pairShape)
        (HashTyped.keyEq EqTyped.pairHeap 4 EqTyped.pairShape) s 56).map (·.elems)) = some [32] :=
  ⟨(sets_agree EqTyped.pairHeap HashTyped.fxHasher 4 id).2 _ _ _ pairs_lawful.choose_spec,
    by decide +kernel⟩

/-- The union of null and a set is a list. -/
theorem union_with_null : ¬ ∀ store op store' r,
    Reached EqTyped.pairHeap HashTyped.fxHasher 4 id none (fun _ => True) store →
    op.Fits none (fun _ => True) store →
    step EqTyped.pairHeap HashTyped.fxHasher 4 id store op = some (store', r) →
    Right EqTyped.pairHeap HashTyped.fxHasher 4 id none (fun _ => True) store op store' r := by
  intro hclaim
  have hreached : Reached EqTyped.pairHeap HashTyped.fxHasher 4 id none (fun _ => True) [.set empty] :=
    .next .start (show Op.new.Fits none (fun _ => True) [] from trivial) rfl
  have hright := hclaim _ (.union 0 1) _ _ hreached ⟨rfl, .inl rfl, .inr ⟨empty, rfl⟩⟩ rfl
  rcases hright.result with ⟨hnull, -⟩ | ⟨-, s, hs, -⟩
  · exact hnull
  · cases hs

end RuntimeSets

end Olive
