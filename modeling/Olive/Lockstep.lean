import Mathlib.Data.List.Basic

/-! Deterministic step functions: their runs, their invariants, and when two of them end alike. -/

namespace Lockstep

variable {α β ω : Type}

/-- `n` steps from `s`, or fewer when the run ends before. -/
def runs (step : α → α ⊕ ω) : Nat → α → α ⊕ ω
  | 0, s => .inl s
  | n + 1, s =>
    match step s with
    | .inl t => runs step n t
    | .inr o => .inr o

/-- The run from `s` ends with `o`. -/
def Yields (step : α → α ⊕ ω) (s : α) (o : ω) : Prop := ∃ n, runs step n s = .inr o

/-- The run from `s` gets to `t`. -/
def Reaches (step : α → α ⊕ ω) (s t : α) : Prop := ∃ n, runs step n s = .inl t

section Runs

variable {step : α → α ⊕ ω} {s t u : α} {o : ω} {n m : Nat}

theorem runs_succ_inl (h : step s = .inl t) : runs step (n + 1) s = runs step n t := by
  simp only [runs, h]

theorem runs_succ_inr (h : step s = .inr o) : runs step (n + 1) s = .inr o := by
  simp only [runs, h]

theorem runs_add_inl (h : runs step n s = .inl t) : runs step (n + m) s = runs step m t := by
  induction n generalizing s with
  | zero =>
    obtain rfl := Sum.inl.inj h
    rw [Nat.zero_add]
  | succ n ih =>
    rw [Nat.add_right_comm]
    cases hs : step s with
    | inl u =>
      rw [runs_succ_inl hs] at h ⊢
      exact ih h
    | inr o =>
      rw [runs_succ_inr hs] at h
      simp at h

theorem runs_add_inr (h : runs step n s = .inr o) : runs step (n + m) s = .inr o := by
  induction n generalizing s with
  | zero => simp [runs] at h
  | succ n ih =>
    rw [Nat.add_right_comm]
    cases hs : step s with
    | inl u =>
      rw [runs_succ_inl hs] at h ⊢
      exact ih h
    | inr o' =>
      rw [runs_succ_inr hs] at h ⊢
      exact h

theorem runs_one (s : α) : runs step 1 s = step s := by
  cases hs : step s with
  | inl t => exact (runs_succ_inl hs).trans rfl
  | inr o => exact runs_succ_inr hs

/-- A run has one end. -/
theorem runs_end_unique {o' : ω} (h : runs step n s = .inr o) (h' : runs step m s = .inr o') :
    o = o' := by
  have hn : runs step (n + m) s = .inr o := runs_add_inr h
  have hm : runs step (m + n) s = .inr o' := runs_add_inr h'
  rw [Nat.add_comm, hm] at hn
  exact (Sum.inr.inj hn).symm

/-- Before its end a run only shortens. -/
theorem runs_rest (h : runs step n s = .inl t) (hend : runs step m s = .inr o) :
    ∃ k, m = n + k ∧ 0 < k ∧ runs step k t = .inr o := by
  have hlt : n < m := by
    by_contra hle
    obtain ⟨k, hk⟩ := Nat.exists_eq_add_of_le (Nat.le_of_not_lt hle)
    rw [hk, runs_add_inr hend] at h
    simp at h
  obtain ⟨k, hk⟩ := Nat.exists_eq_add_of_lt hlt
  refine ⟨k + 1, by omega, Nat.succ_pos k, ?_⟩
  rwa [show m = n + (k + 1) by omega, runs_add_inl h] at hend

/-- A run that ends in `m` steps gets to a state in fewer. -/
theorem Reaches.lt_end (h : Reaches step s t) (hend : runs step m s = .inr o) :
    ∃ n < m, runs step n s = .inl t := by
  obtain ⟨n, hn⟩ := h
  obtain ⟨k, hk, hpos, _⟩ := runs_rest hn hend
  exact ⟨n, by omega, hn⟩

theorem Reaches.refl (s : α) : Reaches step s s := ⟨0, rfl⟩

theorem Reaches.trans (h : Reaches step s t) (h' : Reaches step t u) : Reaches step s u := by
  obtain ⟨n, hn⟩ := h
  obtain ⟨m, hm⟩ := h'
  exact ⟨n + m, (runs_add_inl hn).trans hm⟩

theorem Reaches.tail (h : Reaches step s t) {t' : α} (ht : step t = .inl t') :
    Reaches step s t' :=
  h.trans ⟨1, (runs_one t).trans ht⟩

/-- What holds at the start and is kept by every step holds of every state reached. -/
theorem Reaches.invariant {P : α → Prop} (hP : ∀ s t, P s → step s = .inl t → P t)
    (h : Reaches step s t) (hs : P s) : P t := by
  obtain ⟨n, hn⟩ := h
  induction n generalizing s with
  | zero =>
    obtain rfl := Sum.inl.inj hn
    exact hs
  | succ n ih =>
    cases hstep : step s with
    | inl u =>
      rw [runs_succ_inl hstep] at hn
      exact ih (hP s u hs hstep) hn
    | inr o =>
      rw [runs_succ_inr hstep] at hn
      simp at hn

theorem Yields.of_reaches (h : Reaches step s t) (hy : Yields step t o) : Yields step s o := by
  obtain ⟨n, hn⟩ := h
  obtain ⟨m, hm⟩ := hy
  exact ⟨n + m, (runs_add_inl hn).trans hm⟩

theorem Yields.after (h : Reaches step s t) (hy : Yields step s o) : Yields step t o := by
  obtain ⟨n, hn⟩ := h
  obtain ⟨m, hm⟩ := hy
  obtain ⟨k, _, _, hk⟩ := runs_rest hn hm
  exact ⟨k, hk⟩

/-- A run ends in the step after the last state it gets to. -/
theorem yields_iff_last : Yields step s o ↔ ∃ t, Reaches step s t ∧ step t = .inr o := by
  constructor
  · rintro ⟨n, hn⟩
    induction n generalizing s with
    | zero => simp [runs] at hn
    | succ n ih =>
      cases hs : step s with
      | inl u =>
        rw [runs_succ_inl hs] at hn
        obtain ⟨t, ht, hend⟩ := ih hn
        exact ⟨t, Reaches.trans ⟨1, (runs_one s).trans hs⟩ ht, hend⟩
      | inr o' =>
        rw [runs_succ_inr hs] at hn
        obtain rfl := Sum.inr.inj hn
        exact ⟨s, Reaches.refl s, hs⟩
  · rintro ⟨t, ht, hend⟩
    exact Yields.of_reaches ht ⟨1, (runs_one t).trans hend⟩

end Runs

section Simulation

variable {ω' : Type} (sa : α → α ⊕ ω) (sb : β → β ⊕ ω') (R : α → β → Prop) (Q : ω → ω' → Prop)

/-- Both sides take at least one step to related states, or to related ends. -/
def Matched (a : α) (b : β) : Prop :=
  ∃ n m, 0 < n ∧ 0 < m ∧
    ((∃ a' b', runs sa n a = .inl a' ∧ runs sb m b = .inl b' ∧ R a' b') ∨
      ∃ o o', runs sa n a = .inr o ∧ runs sb m b = .inr o' ∧ Q o o')

variable {sa sb R Q}

theorem Matched.symm {a : α} {b : β} (h : Matched sa sb R Q a b) :
    Matched sb sa (fun b a => R a b) (fun o' o => Q o o') b a := by
  obtain ⟨n, m, hn, hm, h⟩ := h
  refine ⟨m, n, hm, hn, ?_⟩
  rcases h with ⟨a', b', ha, hb, hr⟩ | ⟨o, o', ha, hb, hq⟩
  · exact .inl ⟨b', a', hb, ha, hr⟩
  · exact .inr ⟨o', o, hb, ha, hq⟩

/-- One step on each side. -/
theorem Matched.one {a : α} {b : β}
    (h : (∃ a' b', sa a = .inl a' ∧ sb b = .inl b' ∧ R a' b') ∨
      ∃ o o', sa a = .inr o ∧ sb b = .inr o' ∧ Q o o') : Matched sa sb R Q a b := by
  refine ⟨1, 1, Nat.one_pos, Nat.one_pos, ?_⟩
  rwa [runs_one, runs_one]

theorem runs_inr_pos {step : α → α ⊕ ω} {s : α} {o : ω} {n : Nat} (h : runs step n s = .inr o) :
    0 < n := by
  cases n with
  | zero => cases h
  | succ n => exact Nat.succ_pos n

/-- Both sides end. -/
theorem Matched.ended {a : α} {b : β} {o : ω} {o' : ω'} (ha : Yields sa a o) (hb : Yields sb b o')
    (hq : Q o o') : Matched sa sb R Q a b := by
  obtain ⟨n, hn⟩ := ha
  obtain ⟨m, hm⟩ := hb
  exact ⟨n, m, runs_inr_pos hn, runs_inr_pos hm, .inr ⟨o, o', hn, hm, hq⟩⟩

theorem Yields.one {step : α → α ⊕ ω} {s : α} {o : ω} (h : step s = .inr o) : Yields step s o :=
  ⟨1, (runs_one s).trans h⟩

/-- Steps of the left side alone may come first. -/
theorem Matched.after_left {a a' : α} {b : β} {k : Nat} (ha : runs sa k a = .inl a')
    (h : Matched sa sb R Q a' b) : Matched sa sb R Q a b := by
  obtain ⟨n, m, hn, hm, h⟩ := h
  refine ⟨k + n, m, by omega, hm, ?_⟩
  rwa [runs_add_inl ha]

theorem Matched.after_right {a : α} {b b' : β} {k : Nat} (hb : runs sb k b = .inl b')
    (h : Matched sa sb R Q a b') : Matched sa sb R Q a b := by
  obtain ⟨n, m, hn, hm, h⟩ := h
  refine ⟨n, k + m, hn, by omega, ?_⟩
  rwa [runs_add_inl hb]

/-- The left side may step alone as long as a rank goes down. -/
theorem matched_of_ranked (rank : α → Nat)
    (h : ∀ a b, R a b → Matched sa sb R Q a b ∨ ∃ a', sa a = .inl a' ∧ R a' b ∧ rank a' < rank a) :
    ∀ a b, R a b → Matched sa sb R Q a b := by
  intro a
  induction hk : rank a using Nat.strongRecOn generalizing a with
  | ind k ih =>
    intro b hr
    rcases h a b hr with hm | ⟨a', ha, hr', hlt⟩
    · exact hm
    · exact (ih (rank a') (by omega) a' rfl b hr').after_left ((runs_one a).trans ha)

theorem yields_of_matched (h : ∀ a b, R a b → Matched sa sb R Q a b) {a : α} {b : β} {o : ω}
    (hr : R a b) (hy : Yields sa a o) : ∃ o', Yields sb b o' ∧ Q o o' := by
  obtain ⟨N, hN⟩ := hy
  induction N using Nat.strongRecOn generalizing a b with
  | ind N ih =>
    obtain ⟨n, m, hn, _, hmatch⟩ := h a b hr
    rcases hmatch with ⟨a', b', ha, hb, hr'⟩ | ⟨o₁, o₂, ha, hb, hq⟩
    · obtain ⟨k, hk, _, hrest⟩ := runs_rest ha hN
      obtain ⟨o', hy, hq⟩ := ih k (by omega) hr' hrest
      exact ⟨o', Yields.of_reaches ⟨m, hb⟩ hy, hq⟩
    · obtain rfl := runs_end_unique ha hN
      exact ⟨o₂, ⟨m, hb⟩, hq⟩

end Simulation

/-- Runs from states that are matched again and again end alike, or both do not end. -/
theorem yields_iff_of_matched {sa : α → α ⊕ ω} {sb : β → β ⊕ ω} {R : α → β → Prop}
    (h : ∀ a b, R a b → Matched sa sb R Eq a b) {a : α} {b : β} (hr : R a b) (o : ω) :
    Yields sa a o ↔ Yields sb b o := by
  constructor
  · intro hy
    obtain ⟨o', hy', rfl⟩ := yields_of_matched h hr hy
    exact hy'
  · intro hy
    obtain ⟨o', hy', rfl⟩ := yields_of_matched (fun b a hr => (h a b hr).symm) hr hy
    exact hy'

section Following

variable {ω : Type} (sa : α → α ⊕ ω) (sb : β → β ⊕ ω) (R : α → β → Prop)

/-- The right side goes along with every step of the left side, and ends when it does. -/
structure Simulates : Prop where
  goes : ∀ a b a', R a b → sa a = .inl a' → ∃ b', Reaches sb b b' ∧ R a' b'
  stops : ∀ a b o, R a b → sa a = .inr o → ∃ b', Reaches sb b b' ∧ R a b' ∧ sb b' = .inr o

variable {sa sb R}

theorem Simulates.reaches (h : Simulates sa sb R) {a a' : α} {b : β} (hr : R a b)
    (ha : Reaches sa a a') : ∃ b', Reaches sb b b' ∧ R a' b' := by
  let P (x : α) := ∃ b', Reaches sb b b' ∧ R x b'
  refine @Reaches.invariant _ _ sa a a' P ?_ ha ⟨b, Reaches.refl b, hr⟩
  intro x y hx hy
  obtain ⟨c, hc, hxc⟩ := hx
  obtain ⟨d, hd, hyd⟩ := h.goes x c y hxc hy
  exact ⟨d, hc.trans hd, hyd⟩

/-- Both sides go along with each other if they step together, except that the left side catches up
by a step of its own where it lags behind. -/
theorem simulates_of_lag (lag : α → Prop)
    (hlag : ∀ a b, R a b → lag a → ∃ a', sa a = .inl a' ∧ R a' b ∧ ¬lag a')
    (h : ∀ a b, R a b → ¬lag a → (∃ a' b', sa a = .inl a' ∧ sb b = .inl b' ∧ R a' b') ∨
      ∃ o, sa a = .inr o ∧ sb b = .inr o) :
    Simulates sa sb R ∧ Simulates sb sa fun b a => R a b := by
  have hcatch : ∀ a b, R a b → ∃ a', Reaches sa a a' ∧ R a' b ∧ ¬lag a' := by
    intro a b hr
    by_cases hl : lag a
    · obtain ⟨a', ha, hr', hn⟩ := hlag a b hr hl
      exact ⟨a', (Reaches.refl a).tail ha, hr', hn⟩
    · exact ⟨a, Reaches.refl a, hr, hl⟩
  refine ⟨⟨?_, ?_⟩, ⟨?_, ?_⟩⟩
  · intro a b a' hr ha
    by_cases hl : lag a
    · obtain ⟨x, hx, hr', _⟩ := hlag a b hr hl
      obtain rfl := Sum.inl.inj (ha.symm.trans hx)
      exact ⟨b, Reaches.refl b, hr'⟩
    · rcases h a b hr hl with ⟨x, y, hx, hy, hxy⟩ | ⟨o, ho, _⟩
      · obtain rfl := Sum.inl.inj (ha.symm.trans hx)
        exact ⟨y, (Reaches.refl b).tail hy, hxy⟩
      · rw [ho] at ha
        simp at ha
  · intro a b o hr ha
    by_cases hl : lag a
    · obtain ⟨x, hx, _, _⟩ := hlag a b hr hl
      rw [hx] at ha
      simp at ha
    · rcases h a b hr hl with ⟨x, y, hx, _, _⟩ | ⟨o', ho, ho'⟩
      · rw [hx] at ha
        simp at ha
      · obtain rfl := Sum.inr.inj (ha.symm.trans ho)
        exact ⟨b, Reaches.refl b, hr, ho'⟩
  · intro b a b' hr hb
    obtain ⟨a', ha', hr', hn⟩ := hcatch a b hr
    rcases h a' b hr' hn with ⟨x, y, hx, hy, hxy⟩ | ⟨o, _, ho⟩
    · obtain rfl := Sum.inl.inj (hb.symm.trans hy)
      exact ⟨x, ha'.tail hx, hxy⟩
    · rw [ho] at hb
      simp at hb
  · intro b a o hr hb
    obtain ⟨a', ha', hr', hn⟩ := hcatch a b hr
    rcases h a' b hr' hn with ⟨x, y, _, hy, _⟩ | ⟨o', ho, ho'⟩
    · rw [hy] at hb
      simp at hb
    · obtain rfl := Sum.inr.inj (hb.symm.trans ho')
      exact ⟨a', ha', hr', ho⟩

end Following

section SameSteps

variable {sa sb : α → α ⊕ ω} {s t : α} {o : ω}

/-- Two step functions that agree on every state reached have the same runs. -/
theorem runs_eq_of_step_eq (h : ∀ t, Reaches sa s t → sb t = sa t) (n : Nat) :
    runs sb n s = runs sa n s := by
  induction n generalizing s with
  | zero => rfl
  | succ n ih =>
    have hs := h s (Reaches.refl s)
    cases hstep : sa s with
    | inl t =>
      rw [runs_succ_inl hstep, runs_succ_inl (hs.trans hstep)]
      exact ih fun u hu => h u (Reaches.trans ⟨1, (runs_one s).trans hstep⟩ hu)
    | inr o => rw [runs_succ_inr hstep, runs_succ_inr (hs.trans hstep)]

theorem reaches_iff_of_step_eq (h : ∀ t, Reaches sa s t → sb t = sa t) :
    Reaches sa s t ↔ Reaches sb s t := by
  simp only [Reaches, runs_eq_of_step_eq h]

theorem yields_iff_of_step_eq (h : ∀ t, Reaches sa s t → sb t = sa t) :
    Yields sa s o ↔ Yields sb s o := by
  simp only [Yields, runs_eq_of_step_eq h]

end SameSteps

section Ghost

variable {γ : Type} (step : α → α ⊕ ω) (upd : α → α → γ → γ)

/-- Steps that also keep a record of the run. -/
def ghost (a : α × γ) : (α × γ) ⊕ ω :=
  match step a.1 with
  | .inl t => .inl (t, upd a.1 t a.2)
  | .inr o => .inr o

variable {step upd}

theorem ghost_inl {a : α × γ} {t : α} (h : step a.1 = .inl t) :
    ghost step upd a = .inl (t, upd a.1 t a.2) := by
  simp only [ghost, h]

theorem ghost_eq_inr {a : α × γ} {o : ω} : ghost step upd a = .inr o ↔ step a.1 = .inr o := by
  unfold ghost
  cases step a.1 <;> simp

theorem ghost_inr {a : α × γ} {o : ω} (h : step a.1 = .inr o) : ghost step upd a = .inr o := by
  simp only [ghost, h]

/-- The record does not change the run. -/
theorem yields_ghost (s : α) (c : γ) (o : ω) : Yields (ghost step upd) (s, c) o ↔ Yields step s o := by
  have hmatch : ∀ (a : α × γ) b, a.1 = b → Matched (ghost step upd) step (fun a b => a.1 = b) Eq a b := by
    intro a b hab
    apply Matched.one
    subst hab
    cases hs : step a.1 with
    | inl t => exact .inl ⟨_, t, ghost_inl hs, rfl, rfl⟩
    | inr o => exact .inr ⟨o, o, ghost_inr hs, rfl, rfl⟩
  exact yields_iff_of_matched hmatch rfl o

end Ghost

end Lockstep
