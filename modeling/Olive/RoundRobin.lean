import Mathlib.Data.Finset.Prod
import Olive.UntilStable

/-! Round-robin iteration of equations `value of b = F values b` over the nodes `0, ..., n - 1`. -/

namespace RoundRobin

open UntilStable

variable {α β : Type} [DecidableEq α] {F : List α → Nat → α}

/-- Recomputes the value of one node in place. -/
def relax (F : List α → Nat → α) (out : List α) (b : Nat) : List α × Bool :=
  if out[b]? = some (F out b) then (out, false) else (out.set b (F out b), true)

def solve (F : List α → Nat → α) (n fuel : Nat) (out : List α) : Option (List α) :=
  untilStable (sweep (relax F) (List.range n)) fuel out

@[simp] theorem relax_length (out : List α) (b : Nat) : (relax F out b).1.length = out.length := by
  unfold relax
  split <;> simp

theorem relax_unchanged {out : List α} {b : Nat} (h : (relax F out b).2 = false) :
    (relax F out b).1 = out := by
  unfold relax at h ⊢
  split
  · rfl
  next hn => simp [hn] at h

theorem relax_at {out : List α} {b : Nat} (hb : b < out.length) :
    (relax F out b).1[b]? = some (F out b) := by
  unfold relax
  split
  next h => exact h
  next => simp [hb]

theorem relax_of_ne {out : List α} {b c : Nat} (h : c ≠ b) :
    (relax F out b).1[c]? = out[c]? := by
  unfold relax
  split
  · rfl
  · rw [List.getElem?_set_ne (Ne.symm h)]

/-- What a relaxed node holds is either its new value or what it held. -/
theorem relax_value {out : List α} {b c : Nat} {v : α} (h : (relax F out b).1[c]? = some v) :
    (c = b ∧ v = F out b) ∨ out[c]? = some v := by
  by_cases hc : c = b
  · subst c
    have hb := (List.getElem?_eq_some_iff.mp h).1
    rw [relax_length] at hb
    rw [relax_at hb] at h
    exact .inl ⟨rfl, (Option.some.inj h).symm⟩
  · rw [relax_of_ne hc] at h
    exact .inr h

theorem solve_invariant {P : List α → Prop} (hP : ∀ out b, P out → P (relax F out b).1)
    {n fuel : Nat} {out r : List α} (h0 : P out) (h : solve F n fuel out = some r) : P r :=
  untilStable_invariant (fun _ hs => sweep_invariant (fun s i _ => hP s i) hs) h0 h

theorem solve_length {n fuel : Nat} {out r : List α} (h : solve F n fuel out = some r) :
    r.length = out.length :=
  solve_invariant (P := fun s => s.length = out.length)
    (fun s b hs => (relax_length s b).trans hs) rfl h

/-- Rounds over any nodes end with values that solve their equations. -/
theorem stable_of_sweeps {items : List Nat} {fuel : Nat} {out r : List α}
    (h : untilStable (sweep (relax F) items) fuel out = some r) {b : Nat} (hb : b ∈ items)
    (hlen : b < r.length) : r[b]? = some (F r b) := by
  obtain ⟨t, _, hlast⟩ := untilStable_last (P := fun _ => True) (fun _ _ => trivial) trivial h
  obtain ⟨hsame, hall⟩ := sweep_unchanged (fun _ _ => relax_unchanged) (congrArg Prod.snd hlast)
  obtain rfl : r = t := by rw [← hsame, hlast]
  have hstep : (relax F r b).1[b]? = some (F r b) := relax_at hlen
  rwa [congrArg Prod.fst (hall b hb)] at hstep

/-- The values returned solve the equations. -/
theorem solve_stable {n fuel : Nat} {out r : List α} (h : solve F n fuel out = some r) {b : Nat}
    (hn : b < n) (hb : b < out.length) : r[b]? = some (F r b) :=
  stable_of_sweeps h (List.mem_range.mpr hn) (by rwa [solve_length h])

/-- A round from node 0 on reaches whatever holds after its first step and is kept by the rest. -/
theorem sweep_first {P : List α → Prop} (hP : ∀ out b, P out → P (relax F out b).1) {n : Nat}
    (hn : 0 < n) {out : List α} (h : P (relax F out 0).1) :
    P (sweep (relax F) (List.range n) out).1 := by
  obtain ⟨m, rfl⟩ : ∃ m, n = m + 1 := ⟨n - 1, by omega⟩
  rw [List.range_succ_eq_map, sweep_cons]
  exact sweep_invariant (fun s b _ => hP s b) h

/-- What the first step of every round establishes and the others keep holds of the result. -/
theorem solve_invariant_first {P Q : List α → Prop} (hfirst : ∀ out, Q out → P (relax F out 0).1)
    (hP : ∀ out b, P out → P (relax F out b).1) (hPQ : ∀ out, P out → Q out) {n fuel : Nat}
    (hn : 0 < n) {out r : List α} (h0 : Q out) (h : solve F n fuel out = some r) : P r := by
  have hround : ∀ s, Q s → P (sweep (relax F) (List.range n) s).1 := fun s hs =>
    sweep_first hP hn (hfirst s hs)
  obtain ⟨last, hlast, he⟩ := untilStable_last (fun s hs => hPQ _ (hround s hs)) h0 h
  have hr := hround last hlast
  rwa [he] at hr

theorem solve_exists_succ {n fuel : Nat} {out : List α}
    (h : ∃ r, solve F n fuel (sweep (relax F) (List.range n) out).1 = some r) :
    ∃ r, solve F n (fuel + 1) out = some r := by
  unfold solve untilStable
  split
  · exact h
  · exact ⟨_, rfl⟩

section Growing

variable (facts : α → Finset β) (valid : α → Prop)

/-- Node by node, the facts of `out` are among those of `out'`. -/
def Below (out out' : List α) : Prop :=
  ∀ (b : Nat) (v v' : α), out[b]? = some v → out'[b]? = some v' → facts v ⊆ facts v'

/-- `n` values, all of them valid. -/
structure Valued (n : Nat) (out : List α) : Prop where
  length : out.length = n
  values : ∀ (b : Nat) (v : α), out[b]? = some v → valid v

/-- Recomputing a node of `out` only ever adds facts to it. -/
def Growing (F : List α → Nat → α) (out : List α) : Prop :=
  ∀ (b : Nat) (v : α), out[b]? = some v → facts v ⊆ facts (F out b)

open scoped Classical in
noncomputable def stateFacts (univ : Finset β) (n : Nat) (out : List α) : Finset (Nat × β) :=
  (Finset.range n ×ˢ univ).filter fun p => ∃ v, out[p.1]? = some v ∧ p.2 ∈ facts v

omit [DecidableEq α] in
theorem stateFacts_subset (univ : Finset β) (n : Nat) (out : List α) :
    stateFacts facts univ n out ⊆ Finset.range n ×ˢ univ := by
  intro p hp
  simp only [stateFacts, Finset.mem_filter] at hp
  exact hp.1

variable {facts valid} {n : Nat}

theorem relax_valued (hcomputed : ∀ out b, Valued valid n out → valid (F out b)) {out : List α}
    {b : Nat} (h : Valued valid n out) : Valued valid n (relax F out b).1 := by
  refine ⟨(relax_length out b).trans h.length, ?_⟩
  intro c v hv
  rcases relax_value hv with ⟨_, rfl⟩ | hold
  · exact hcomputed out b h
  · exact h.values c v hold

theorem relax_below {out : List α} {b : Nat} (h : Growing facts F out) :
    Below facts out (relax F out b).1 := by
  intro c v v' hv hv'
  rcases relax_value hv' with ⟨rfl, rfl⟩ | hold
  · exact h c v hv
  · rw [hv] at hold
    cases Option.some.inj hold
    exact Finset.Subset.refl _

theorem relax_growing (hcomputed : ∀ out b, Valued valid n out → valid (F out b))
    (hmono : ∀ out out' b, Valued valid n out → Valued valid n out' → Below facts out out' →
      facts (F out b) ⊆ facts (F out' b))
    {out : List α} {b : Nat} (hv : Valued valid n out) (h : Growing facts F out) :
    Growing facts F (relax F out b).1 := by
  intro c v hc
  have hle := hmono out _ c hv (relax_valued (b := b) hcomputed hv) (relax_below h)
  rcases relax_value hc with ⟨rfl, rfl⟩ | hold
  · exact hle
  · exact (h c v hold).trans hle

omit [DecidableEq α] in
/-- Writing more facts into one place adds to the facts of the whole. -/
theorem stateFacts_set_ssubset {univ : Finset β} {out : List α} {b : Nat} {v w : α} (hb : b < n)
    (hget : out[b]? = some v) (hw : facts w ⊆ univ) (hle : facts v ⊆ facts w)
    (hne : ¬facts w ⊆ facts v) :
    stateFacts facts univ n out ⊂ stateFacts facts univ n (out.set b w) := by
  have hbl := (List.getElem?_eq_some_iff.mp hget).1
  have hset : (out.set b w)[b]? = some w := List.getElem?_set_self hbl
  refine ⟨?_, ?_⟩
  · intro p hp
    simp only [stateFacts, Finset.mem_filter] at hp ⊢
    obtain ⟨hr, u, hu, hi⟩ := hp
    refine ⟨hr, ?_⟩
    by_cases hpb : p.1 = b
    · rw [hpb, hget] at hu
      cases Option.some.inj hu
      exact ⟨w, by rw [hpb, hset], hle hi⟩
    · exact ⟨u, by rw [List.getElem?_set_ne (Ne.symm hpb)]; exact hu, hi⟩
  · intro hsub
    apply hne
    intro i hi
    have hmem : (b, i) ∈ stateFacts facts univ n (out.set b w) := by
      simp only [stateFacts, Finset.mem_filter, Finset.mem_product, Finset.mem_range]
      exact ⟨⟨hb, hw hi⟩, w, hset, hi⟩
    have hback := hsub hmem
    simp only [stateFacts, Finset.mem_filter, hget] at hback
    obtain ⟨_, u, hu, hiu⟩ := hback
    cases Option.some.inj hu
    exact hiu

theorem relax_facts_ssubset {univ : Finset β} {out : List α} {b : Nat} (hb : b < n)
    (huniv : ∀ v, valid v → facts v ⊆ univ)
    (hstrict : ∀ out b v, Valued valid n out → out[b]? = some v → facts v = facts (F out b) →
      v = F out b)
    (hcomputed : ∀ out b, Valued valid n out → valid (F out b))
    (hv : Valued valid n out) (h : Growing facts F out) (hc : (relax F out b).2 = true) :
    stateFacts facts univ n out ⊂ stateFacts facts univ n (relax F out b).1 := by
  have hbl : b < out.length := hv.length ▸ hb
  have hget := List.getElem?_eq_getElem hbl
  unfold relax at hc ⊢
  split at hc
  next => simp at hc
  next hn =>
    rw [if_neg hn]
    refine stateFacts_set_ssubset hb hget (huniv _ (hcomputed out b hv)) (h b _ hget) ?_
    intro hsub
    exact hn (hget.trans (congrArg some
      (hstrict out b _ hv hget (Finset.Subset.antisymm (h b _ hget) hsub))))

/-- Equations under which recomputing only adds facts are solved in boundedly many rounds, over the
nodes in any order. -/
theorem sweeps_exist_of_growing (facts : α → Finset β) (valid : α → Prop) (univ : Finset β)
    {P : List α → Prop} {items : List Nat} {out : List α} (hitems : ∀ b ∈ items, b < n)
    (huniv : ∀ v, valid v → facts v ⊆ univ)
    (hstrict : ∀ out b v, Valued valid n out → out[b]? = some v → facts v = facts (F out b) →
      v = F out b)
    (hcomputed : ∀ out b, Valued valid n out → valid (F out b))
    (hP : ∀ out b, Valued valid n out → P out → P (relax F out b).1)
    (hgrow : ∀ out, Valued valid n out → P out → Growing facts F out)
    (hv : Valued valid n out) (h : P out) {fuel : Nat} (hf : n * univ.card < fuel) :
    ∃ r, untilStable (sweep (relax F) items) fuel out = some r := by
  let Q := fun s : List α => Valued valid n s ∧ P s
  have hQ : ∀ s, ∀ b ∈ items, Q s → Q (relax F s b).1 := fun s b _ hs =>
    ⟨relax_valued hcomputed hs.1, hP s b hs.1 hs.2⟩
  have hlt : ∀ s, ∀ b ∈ items, Q s → (relax F s b).2 = true →
      stateFacts facts univ n s ⊂ stateFacts facts univ n (relax F s b).1 := fun s b hb hs hc =>
    relax_facts_ssubset (hitems b hb) huniv hstrict hcomputed hs.1 (hgrow s hs.1 hs.2) hc
  have hle : ∀ s, ∀ b ∈ items, Q s →
      stateFacts facts univ n s ⊆ stateFacts facts univ n (relax F s b).1 := by
    intro s b hb hs
    cases hc : (relax F s b).2 with
    | true => exact (hlt s b hb hs hc).subset
    | false => rw [relax_unchanged hc]
  classical
  refine untilStable_exists_of_grows (stateFacts facts univ n) (fun _ hs => sweep_invariant hQ hs)
    (fun s _ => stateFacts_subset facts univ n s)
    (fun s hs => (sweep_grows (stateFacts facts univ n) hQ hle hlt hs).2)
    (show Q out from ⟨hv, h⟩) ?_
  rwa [Finset.card_product, Finset.card_range]

theorem solve_exists_of_growing (facts : α → Finset β) (valid : α → Prop) (univ : Finset β)
    {P : List α → Prop} {out : List α} (huniv : ∀ v, valid v → facts v ⊆ univ)
    (hstrict : ∀ out b v, Valued valid n out → out[b]? = some v → facts v = facts (F out b) →
      v = F out b)
    (hcomputed : ∀ out b, Valued valid n out → valid (F out b))
    (hP : ∀ out b, Valued valid n out → P out → P (relax F out b).1)
    (hgrow : ∀ out, Valued valid n out → P out → Growing facts F out)
    (hv : Valued valid n out) (h : P out) {fuel : Nat} (hf : n * univ.card < fuel) :
    ∃ r, solve F n fuel out = some r :=
  sweeps_exist_of_growing facts valid univ (fun _ hb => List.mem_range.mp hb) huniv hstrict hcomputed
    hP hgrow hv h hf

/-- Monotone equations, started below their own value, are solved in boundedly many rounds. -/
theorem solve_exists (facts : α → Finset β) (valid : α → Prop) (univ : Finset β) {out : List α}
    (huniv : ∀ v, valid v → facts v ⊆ univ)
    (hinj : ∀ v v', valid v → valid v' → facts v = facts v' → v = v')
    (hcomputed : ∀ out b, Valued valid n out → valid (F out b))
    (hmono : ∀ out out' b, Valued valid n out → Valued valid n out' → Below facts out out' →
      facts (F out b) ⊆ facts (F out' b))
    (hv : Valued valid n out) (h : Growing facts F out) {fuel : Nat}
    (hf : n * univ.card < fuel) : ∃ r, solve F n fuel out = some r := by
  have hstrict : ∀ out b v, Valued valid n out → out[b]? = some v → facts v = facts (F out b) →
      v = F out b := fun out b v hv hb he => hinj v _ (hv.values b v hb) (hcomputed out b hv) he
  exact solve_exists_of_growing facts valid univ huniv hstrict hcomputed
    (fun _ _ hv h => relax_growing hcomputed hmono hv h) (fun _ _ h => h) hv h hf

end Growing

end RoundRobin
