import Mathlib.Data.Multiset.MapFold

/-! Multisets paired element by element, and the search that pairs each element with the first one
left that a test accepts. -/

namespace Pairing

variable {α β σ : Type} {r : α → β → Prop}

/-- The first of the second elements that the test accepts for `a` is taken out. -/
def takeFirst (test : α → β → σ → Option (Bool × σ)) (a : α) :
    List β → σ → Option (Option (List β) × σ)
  | [], st => some (none, st)
  | b :: bs, st => do
    let (equal, st) ← test a b st
    if equal then some (some bs, st)
    else
      let (left, st) ← takeFirst test a bs st
      some (left.map (b :: ·), st)

/-- Every first element takes a second one. -/
def pairAll (test : α → β → σ → Option (Bool × σ)) :
    List α → List β → σ → Option (Bool × σ)
  | [], _, st => some (true, st)
  | a :: as, bs, st => do
    let (left, st) ← takeFirst test a bs st
    match left with
    | none => some (false, st)
    | some bs => pairAll test as bs st

/-- A relation that relates everything on one side to the same elements of the other, as far as it
relates anything: an equality between two sides. -/
def Rectangular (r : α → β → Prop) (as : Multiset α) (bs : Multiset β) : Prop :=
  ∀ x ∈ as, ∀ a ∈ as, ∀ b ∈ bs, ∀ c ∈ bs, r x b → r a b → r a c → r x c

theorem Rectangular.mono {as as' : Multiset α} {bs bs' : Multiset β} (h : Rectangular r as bs)
    (ha : ∀ a ∈ as', a ∈ as) (hb : ∀ b ∈ bs', b ∈ bs) : Rectangular r as' bs' :=
  fun x hx a haa b hbb c hc => h x (ha x hx) a (ha a haa) b (hb b hbb) c (hb c hc)

/-- Two related elements can be taken out of paired multisets. -/
theorem rel_cancel {a : α} {b : β} {as : Multiset α} {bs : Multiset β}
    (hr : Rectangular r (a ::ₘ as) (b ::ₘ bs)) (hab : r a b) :
    Multiset.Rel r (a ::ₘ as) (b ::ₘ bs) ↔ Multiset.Rel r as bs := by
  refine ⟨fun h => ?_, fun h => .cons hab h⟩
  obtain ⟨c, cs, hac, hrest, heq⟩ := Multiset.rel_cons_left.mp h
  rcases Multiset.cons_eq_cons.mp heq with ⟨rfl, rfl⟩ | ⟨_, ds, rfl, rfl⟩
  · exact hrest
  · -- `b` was paired with another element, which is then related to `c`
    obtain ⟨x, xs, hxb, hxs, rfl⟩ := Multiset.rel_cons_right.mp hrest
    refine .cons (hr x (by simp) a (by simp) b (by simp) c (by simp) hxb hab hac) hxs

theorem rel_trans_on {γ : Type} {q : β → γ → Prop} {p : α → γ → Prop} {as : Multiset α}
    {bs : Multiset β} {cs : Multiset γ}
    (h : ∀ a ∈ as, ∀ b ∈ bs, ∀ c ∈ cs, r a b → q b c → p a c) (hr : Multiset.Rel r as bs)
    (hq : Multiset.Rel q bs cs) : Multiset.Rel p as cs := by
  induction hr generalizing cs with
  | zero =>
    rw [Multiset.rel_zero_left] at hq
    exact hq ▸ .zero
  | cons hab _ ih =>
    obtain ⟨c, cs', hbc, hrest, rfl⟩ := Multiset.rel_cons_left.mp hq
    refine .cons (h _ (by simp) _ (by simp) c (by simp) hab hbc) (ih (fun x hx y hy z hz => ?_) hrest)
    exact h x (Multiset.mem_cons_of_mem hx) y (Multiset.mem_cons_of_mem hy) z
      (Multiset.mem_cons_of_mem hz)

theorem rel_symm_on {p : β → α → Prop} {as : Multiset α} {bs : Multiset β}
    (h : ∀ a ∈ as, ∀ b ∈ bs, r a b → p b a) (hr : Multiset.Rel r as bs) :
    Multiset.Rel p bs as := by
  refine Multiset.rel_flip.mp (hr.mono fun a ha b hb hab => ?_)
  exact h a ha b hb hab

theorem rel_of_forall₂ {as : List α} {bs : List β} (hr : List.Forall₂ r as bs) :
    Multiset.Rel r (as : Multiset α) (bs : Multiset β) := by
  induction hr with
  | nil => exact .zero
  | cons hab _ ih => exact .cons hab ih

theorem forall₂_symm_on {p : β → α → Prop} {as : List α} {bs : List β}
    (h : ∀ a ∈ as, ∀ b ∈ bs, r a b → p b a) (hr : List.Forall₂ r as bs) :
    List.Forall₂ p bs as := by
  induction hr with
  | nil => exact .nil
  | cons hab _ ih =>
    refine .cons (h _ (by simp) _ (by simp) hab) (ih fun a ha b hb => ?_)
    exact h a (List.mem_cons_of_mem _ ha) b (List.mem_cons_of_mem _ hb)

theorem forall₂_trans_on {γ : Type} {q : β → γ → Prop} {p : α → γ → Prop} {as : List α}
    {bs : List β} {cs : List γ} (h : ∀ a ∈ as, ∀ b ∈ bs, ∀ c ∈ cs, r a b → q b c → p a c)
    (hr : List.Forall₂ r as bs) (hq : List.Forall₂ q bs cs) : List.Forall₂ p as cs := by
  induction hr generalizing cs with
  | nil =>
    cases hq
    exact .nil
  | cons hab _ ih =>
    cases hq with
    | cons hbc hrest =>
      refine .cons (h _ (by simp) _ (by simp) _ (by simp) hab hbc) (ih (fun x hx y hy z hz => ?_) hrest)
      exact h x (List.mem_cons_of_mem _ hx) y (List.mem_cons_of_mem _ hy) z
        (List.mem_cons_of_mem _ hz)

section Search

variable {test : α → β → σ → Option (Bool × σ)} {good : σ → Prop}

/-- A search takes out one element, whatever the test says. -/
theorem takeFirst_perm {a : α} {bs bs' : List β} {st st' : σ}
    (h : takeFirst test a bs st = some (some bs', st')) :
    ∃ b, (bs : Multiset β) = b ::ₘ (bs' : Multiset β) := by
  induction bs generalizing st bs' with
  | nil => cases h
  | cons b bs ih =>
    simp only [takeFirst] at h
    obtain ⟨⟨equal, st₁⟩, _, h⟩ := Option.bind_eq_some_iff.mp h
    dsimp only at h
    split at h
    next =>
      cases h
      exact ⟨b, rfl⟩
    next =>
      obtain ⟨⟨left, st₂⟩, hrest, h⟩ := Option.bind_eq_some_iff.mp h
      cases left with
      | none => cases h
      | some left =>
        cases h
        obtain ⟨c, heq⟩ := ih hrest
        refine ⟨c, ?_⟩
        rw [← Multiset.cons_coe, heq, Multiset.cons_swap, Multiset.cons_coe]

/-- What a search finds, when the states up to its end are good and the test is right there. -/
theorem takeFirst_right {a : α} {bs : List β} {st st' : σ} {left : Option (List β)}
    (htest : ∀ b ∈ bs, ∀ st st' equal, test a b st = some (equal, st') → good st' →
      good st ∧ (equal = true ↔ r a b))
    (h : takeFirst test a bs st = some (left, st')) (hgood : good st') :
    good st ∧ ((left = none ∧ ∀ b ∈ bs, ¬ r a b) ∨
      ∃ b bs', left = some bs' ∧ r a b ∧ (bs : Multiset β) = b ::ₘ (bs' : Multiset β)) := by
  induction bs generalizing st left with
  | nil =>
    cases h
    exact ⟨hgood, .inl ⟨rfl, by simp⟩⟩
  | cons b bs ih =>
    simp only [takeFirst] at h
    obtain ⟨⟨equal, st₁⟩, ht, h⟩ := Option.bind_eq_some_iff.mp h
    dsimp only at h
    split at h
    next heq =>
      cases h
      obtain ⟨hst, hiff⟩ := htest b (by simp) _ _ _ ht hgood
      exact ⟨hst, .inr ⟨b, bs, rfl, hiff.mp heq, rfl⟩⟩
    next hne =>
      obtain ⟨⟨left₁, st₂⟩, hrest, h⟩ := Option.bind_eq_some_iff.mp h
      cases h
      obtain ⟨hst₁, hfound⟩ := ih (fun c hc => htest c (List.mem_cons_of_mem _ hc)) hrest
      obtain ⟨hst, hiff⟩ := htest b (by simp) _ _ _ ht hst₁
      have hb : ¬ r a b := fun hr => hne (hiff.mpr hr)
      refine ⟨hst, ?_⟩
      rcases hfound with ⟨rfl, hnone⟩ | ⟨c, bs', rfl, hc, heq⟩
      · exact .inl ⟨rfl, List.forall_mem_cons.mpr ⟨hb, hnone⟩⟩
      · refine .inr ⟨c, b :: bs', rfl, hc, ?_⟩
        rw [← Multiset.cons_coe, heq, Multiset.cons_swap, Multiset.cons_coe]

/-- For an equality, taking the first is as good as any pairing. -/
theorem pairAll_right (good : σ → Prop) {as : List α} {bs : List β} {st st' : σ} {paired : Bool}
    (hr : Rectangular r as bs) (hlen : as.length = bs.length)
    (htest : ∀ a ∈ as, ∀ b ∈ bs, ∀ st st' equal, test a b st = some (equal, st') → good st' →
      good st ∧ (equal = true ↔ r a b))
    (h : pairAll test as bs st = some (paired, st')) (hgood : good st') :
    good st ∧ (paired = true ↔ Multiset.Rel r as bs) := by
  induction as generalizing bs st with
  | nil =>
    cases h
    have hnil : bs = [] := List.length_eq_zero_iff.mp hlen.symm
    subst hnil
    exact ⟨hgood, by simp⟩
  | cons a as ih =>
    simp only [pairAll] at h
    obtain ⟨⟨left, st₁⟩, hfind, h⟩ := Option.bind_eq_some_iff.mp h
    have htesta := htest a (by simp)
    dsimp only at h
    split at h
    next =>
      cases h
      obtain ⟨hst, ⟨_, hnone⟩ | ⟨_, _, heq, _⟩⟩ := takeFirst_right htesta hfind hgood
      · refine ⟨hst, ?_⟩
        simp only [Bool.false_eq_true, false_iff, ← Multiset.cons_coe]
        intro hrel
        obtain ⟨b, _, hab, _, heq⟩ := Multiset.rel_cons_left.mp hrel
        have hb : b ∈ (bs : Multiset β) := heq ▸ Multiset.mem_cons_self ..
        exact hnone b (Multiset.mem_coe.mp hb) hab
      · cases heq
    next bs' =>
      obtain ⟨_, hperm⟩ := takeFirst_perm hfind
      have hsub : ∀ b ∈ bs', b ∈ bs := fun b hb => by
        have hb' : b ∈ (bs : Multiset β) := hperm ▸ Multiset.mem_cons_of_mem (Multiset.mem_coe.mpr hb)
        exact Multiset.mem_coe.mp hb'
      have hcard : bs.length = bs'.length + 1 := by
        have := congrArg Multiset.card hperm
        simpa using this
      obtain ⟨hst₁, hiff⟩ := ih (hr.mono (fun _ hx => Multiset.mem_cons_of_mem hx) hsub)
        (by simpa [hcard] using hlen)
        (fun x hx b hb => htest x (List.mem_cons_of_mem _ hx) b (hsub b hb)) h
      obtain ⟨hst, ⟨heq, _⟩ | ⟨b, _, heq, hab, hbs⟩⟩ := takeFirst_right htesta hfind hst₁
      · cases heq
      · cases heq
        refine ⟨hst, hiff.trans ?_⟩
        rw [← Multiset.cons_coe, hbs]
        exact (rel_cancel (hbs ▸ hr) hab).symm

/-- A search whose tests return from any state that is `good` returns, and ends in such a state. -/
theorem takeFirst_returns {a : α} {bs : List β} {st : σ}
    (htest : ∀ b ∈ bs, ∀ st, good st → ∃ equal st', test a b st = some (equal, st') ∧ good st')
    (hst : good st) :
    ∃ left st', takeFirst test a bs st = some (left, st') ∧ good st' := by
  induction bs generalizing st with
  | nil => exact ⟨none, st, rfl, hst⟩
  | cons b bs ih =>
    obtain ⟨equal, st₁, ht, hst₁⟩ := htest b (by simp) st hst
    cases equal with
    | true => exact ⟨some bs, st₁, by simp [takeFirst, ht], hst₁⟩
    | false =>
      obtain ⟨left, st₂, hrest, hst₂⟩ := ih (fun c hc => htest c (List.mem_cons_of_mem _ hc)) hst₁
      exact ⟨left.map (b :: ·), st₂, by simp [takeFirst, ht, hrest], hst₂⟩

theorem pairAll_returns {as : List α} {bs : List β} {st : σ}
    (htest : ∀ a ∈ as, ∀ b ∈ bs, ∀ st, good st →
      ∃ equal st', test a b st = some (equal, st') ∧ good st') (hst : good st) :
    ∃ paired st', pairAll test as bs st = some (paired, st') ∧ good st' := by
  induction as generalizing bs st with
  | nil => exact ⟨true, st, rfl, hst⟩
  | cons a as ih =>
    obtain ⟨left, st₁, hfind, hst₁⟩ := takeFirst_returns (htest a (by simp)) hst
    cases left with
    | none => exact ⟨false, st₁, by simp [pairAll, hfind], hst₁⟩
    | some bs' =>
      obtain ⟨_, hperm⟩ := takeFirst_perm hfind
      have hsub : ∀ b ∈ bs', b ∈ bs := fun b hb => by
        have hb' : b ∈ (bs : Multiset β) := hperm ▸ Multiset.mem_cons_of_mem (Multiset.mem_coe.mpr hb)
        exact Multiset.mem_coe.mp hb'
      have hreturns : ∃ paired st₂, pairAll test as bs' st₁ = some (paired, st₂) ∧ good st₂ :=
        ih (fun x hx b hb => htest x (List.mem_cons_of_mem _ hx) b (hsub b hb)) hst₁
      obtain ⟨paired, st₂, hrest, hst₂⟩ := hreturns
      exact ⟨paired, st₂, by simp [pairAll, hfind, hrest], hst₂⟩

end Search

end Pairing
