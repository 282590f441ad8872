import Olive.RangeList
import Olive.Lockstep

/-! `lower_for_range`, the counted loop for a range, against a loop over the range's elements. -/

namespace Olive

open Lockstep Progression I64

namespace ForRange

/-- How one run of the body ends: at its last statement, or at a `continue`, a `break` or a
`return`. -/
inductive Flow
  | fallsThrough
  | continues
  | breaks
  | returns
  deriving DecidableEq, Repr

/-- The locals that the loop sets up before its first block, and its code: the body as a function
of the loop variable and of the other locals. -/
structure RangeLoop (σ : Type) where
  endLocal : Int
  inclusive : Bool
  stepLocal : Option Int
  body : Int → σ → Flow × Int × σ
  elseBody : Option (σ → σ)

/-- The loop's blocks; the one that joins both directions reads the condition that they set. -/
inductive Block
  | entry
  | cond
  | fwd
  | bwd
  | merge (cond : Bool)
  | body
  | latch
  | after
  deriving DecidableEq, Repr

structure State (σ : Type) where
  block : Block
  i : Int
  user : σ
  /-- The values of the loop variable that the body started with. -/
  seen : List Int
  deriving DecidableEq, Repr

inductive Outcome (σ : Type)
  | exit (seen : List Int) (elseRan : Bool) (user : σ)
  | returned (seen : List Int) (user : σ)
  | overflow (seen : List Int)
  | zeroStep
  deriving DecidableEq, Repr

variable {σ : Type}

/-- The elements that the body has started with, whichever way the loop ended. -/
def Outcome.seen : Outcome σ → List Int
  | .exit seen _ _ => seen
  | .returned seen _ => seen
  | .overflow seen => seen
  | .zeroStep => []

/-- `+` on 64-bit integers: it stops the program in the code that the JIT compiles, and wraps in
the code compiled ahead of time. -/
def translateAdd (checked : Bool) (a b : Int) : Option Int :=
  if checked then checkedAdd a b else some (wrappingAdd a b)

/-- The state at the loop's first block: the loop variable holds the range's start. -/
def State.enter (start : Int) (user : σ) : State σ := ⟨.entry, start, user, []⟩

namespace RangeLoop

def cmp (l : RangeLoop σ) (i : Int) : Bool :=
  if l.inclusive then i ≤ l.endLocal else i < l.endLocal

def rcmp (l : RangeLoop σ) (i : Int) : Bool :=
  if l.inclusive then l.endLocal ≤ i else l.endLocal < i

def increment (l : RangeLoop σ) : Int := l.stepLocal.getD 1

/-- The `SwitchInt` on the loop's condition. -/
def switchCond (l : RangeLoop σ) (cond : Bool) (s : State σ) : State σ ⊕ Outcome σ :=
  if cond then .inl { s with block := .body }
  else if l.elseBody.isSome then .inl { s with block := .after }
  else .inr (.exit s.seen false s.user)

def runBody (l : RangeLoop σ) (s : State σ) : State σ ⊕ Outcome σ :=
  match l.body s.i s.user with
  | (.breaks, _, user) => .inr (.exit (s.seen ++ [s.i]) false user)
  | (.returns, _, user) => .inr (.returned (s.seen ++ [s.i]) user)
  | (_, i, user) => .inl { s with block := .latch, i, user, seen := s.seen ++ [s.i] }

/-- One block of the loop. -/
def step (checked : Bool) (l : RangeLoop σ) (s : State σ) : State σ ⊕ Outcome σ :=
  match s.block with
  | .entry => if l.stepLocal = some 0 then .inr .zeroStep else .inl { s with block := .cond }
  | .cond =>
    match l.stepLocal with
    | none => l.switchCond (l.cmp s.i) s
    | some n => .inl { s with block := if 0 < n then .fwd else .bwd }
  | .fwd => .inl { s with block := .merge (l.cmp s.i) }
  | .bwd => .inl { s with block := .merge (l.rcmp s.i) }
  | .merge cond => l.switchCond cond s
  | .body => l.runBody s
  | .latch =>
    match translateAdd checked s.i l.increment with
    | some i => .inl { s with block := .cond, i }
    | none => .inr (.overflow s.seen)
  | .after => .inr (.exit s.seen true ((l.elseBody.getD id) s.user))

/-- A loop over a list of elements, where the body's assignments to its variable reach neither the
next element nor the end. -/
def forEach (l : RangeLoop σ) : List Int → List Int → σ → Outcome σ
  | [], seen, user => .exit seen l.elseBody.isSome ((l.elseBody.getD id) user)
  | x :: xs, seen, user =>
    match l.body x user with
    | (.breaks, _, user) => .exit (seen ++ [x]) false user
    | (.returns, _, user) => .returned (seen ++ [x]) user
    | (_, _, user) => l.forEach xs (seen ++ [x]) user

/-- The elements of the range. -/
def elements (l : RangeLoop σ) (start : Int) : List Int :=
  RangeList.pyRange start l.endLocal (if l.inclusive then 1 else 0) l.increment

/-- Where the loop goes on after its body: the loop variable and the other locals. -/
def goesOn (l : RangeLoop σ) (x : Int) (user : σ) : Option (Int × σ) :=
  match l.body x user with
  | (.breaks, _, _) => none
  | (.returns, _, _) => none
  | (_, i, user) => some (i, user)

/-- `w` lies past the end, in the direction of the step. -/
def PastEnd (l : RangeLoop σ) (w : Int) : Prop :=
  ¬ Before l.increment w (RangeList.pyLast l.endLocal (if l.inclusive then 1 else 0) l.increment)

/-- Wherever the body goes on, it leaves the loop variable at its element if there are more
elements, and after the last one at a value whose sum with the step is past the end. -/
def Keeps (checked : Bool) (l : RangeLoop σ) : List Int → σ → Prop
  | [], _ => True
  | x :: xs, user => ∀ i user', l.goesOn x user = some (i, user') →
      (if xs = [] then ∃ w, translateAdd checked i l.increment = some w ∧ l.PastEnd w else i = x) ∧
        l.Keeps checked xs user'

end RangeLoop

variable {checked : Bool} {l : RangeLoop σ} {s t : State σ} {o : Outcome σ}

theorem yields_of_step (h : l.step checked s = .inl t) :
    Yields (l.step checked) s o ↔ Yields (l.step checked) t o := by
  have hreach : Reaches (l.step checked) s t := ⟨1, (runs_one s).trans h⟩
  constructor
  · intro hy
    exact hy.after hreach
  · intro hy
    exact .of_reaches hreach hy

theorem yields_of_end {o' : Outcome σ} (h : l.step checked s = .inr o') :
    Yields (l.step checked) s o ↔ o' = o := by
  constructor
  · rintro ⟨n, hn⟩
    exact runs_end_unique ((runs_one s).trans h) hn
  · rintro rfl
    exact .one h

/-- Both comparisons ask whether the value lies before the end. -/
theorem before_iff_cmp (hpos : 0 < l.increment) (i : Int) :
    l.cmp i = true ↔ ¬ l.PastEnd i := by
  unfold RangeLoop.PastEnd Before RangeList.pyLast RangeLoop.cmp
  have hnot : ¬ l.increment < 0 := by omega
  cases l.inclusive with
  | false => simp [hpos, hnot]
  | true => simp [hpos, hnot, Int.lt_add_one_iff]

theorem before_iff_rcmp (hneg : l.increment < 0) (i : Int) :
    l.rcmp i = true ↔ ¬ l.PastEnd i := by
  unfold RangeLoop.PastEnd Before RangeList.pyLast RangeLoop.rcmp
  have hnot : ¬ 0 < l.increment := by omega
  cases l.inclusive with
  | false => simp [hneg, hnot]
  | true => simp [hneg, hnot, Int.sub_one_lt_iff]

/-- What follows the loop's condition. -/
def Decided (checked : Bool) (l : RangeLoop σ) (i : Int) (user : σ) (seen : List Int)
    (o : Outcome σ) : Prop :=
  (¬ l.PastEnd i ∧ Yields (l.step checked) ⟨.body, i, user, seen⟩ o) ∨
    (l.PastEnd i ∧ l.forEach [] seen user = o)

variable {i : Int} {user : σ} {seen : List Int}

theorem yields_switchCond {c : Bool} {b : Block} (hc : c = true ↔ ¬ l.PastEnd i)
    (h : l.step checked s = l.switchCond c ⟨b, i, user, seen⟩) :
    Yields (l.step checked) s o ↔ Decided checked l i user seen o := by
  unfold Decided
  cases c with
  | true =>
    have hbefore : ¬ l.PastEnd i := hc.mp rfl
    rw [yields_of_step (h.trans (if_pos rfl))]
    simp [hbefore]
  | false =>
    have hpast : l.PastEnd i := by simpa using hc
    simp only [hpast, not_true_eq_false, false_and, true_and, false_or]
    unfold RangeLoop.switchCond at h
    cases he : l.elseBody with
    | none =>
      rw [he] at h
      rw [yields_of_end h, RangeLoop.forEach, he]
      rfl
    | some e =>
      rw [he] at h
      have hafter : l.step checked ⟨.after, i, user, seen⟩ = .inr (.exit seen true (e user)) := by
        simp [RangeLoop.step, he]
      rw [yields_of_step h, yields_of_end hafter, RangeLoop.forEach, he]
      rfl

/-- The condition's blocks decide on the next element, whichever way the step goes. -/
theorem yields_cond (hstep : l.increment ≠ 0) :
    Yields (l.step checked) ⟨.cond, i, user, seen⟩ o ↔ Decided checked l i user seen o := by
  cases hl : l.stepLocal with
  | none =>
    have hone : l.increment = 1 := by simp [RangeLoop.increment, hl]
    apply yields_switchCond (b := .cond) (before_iff_cmp (by omega) i)
    simp only [RangeLoop.step, hl]
  | some n =>
    have hn : l.increment = n := by simp [RangeLoop.increment, hl]
    have hcond : l.step checked ⟨.cond, i, user, seen⟩ =
        .inl ⟨if 0 < n then .fwd else .bwd, i, user, seen⟩ := by simp only [RangeLoop.step, hl]
    rw [yields_of_step hcond]
    split_ifs with hpos
    · rw [yields_of_step (t := ⟨.merge (l.cmp i), i, user, seen⟩) rfl]
      exact yields_switchCond (before_iff_cmp (by omega) i) rfl
    · rw [yields_of_step (t := ⟨.merge (l.rcmp i), i, user, seen⟩) rfl]
      exact yields_switchCond (before_iff_rcmp (by omega) i) rfl

theorem goesOn_eq_none {x : Int} (h : l.goesOn x user = none) (seen : List Int) :
    ∃ o, l.runBody ⟨.body, x, user, seen⟩ = .inr o ∧ ∀ xs, l.forEach (x :: xs) seen user = o := by
  unfold RangeLoop.goesOn at h
  simp only [RangeLoop.runBody, RangeLoop.forEach]
  split at h <;> simp_all

theorem goesOn_eq_some {x : Int} {user' : σ} (h : l.goesOn x user = some (i, user'))
    (seen : List Int) :
    l.runBody ⟨.body, x, user, seen⟩ = .inl ⟨.latch, i, user', seen ++ [x]⟩ ∧
      ∀ xs, l.forEach (x :: xs) seen user = l.forEach xs (seen ++ [x]) user' := by
  unfold RangeLoop.goesOn at h
  simp only [RangeLoop.runBody, RangeLoop.forEach]
  split at h <;> simp_all

theorem goesOn_fits {x : Int} {user' : σ}
    (hbody : ∀ x user, I64.Fits x → I64.Fits (l.body x user).2.1) (hx : I64.Fits x)
    (h : l.goesOn x user = some (i, user')) : I64.Fits i := by
  have hfits := hbody x user hx
  unfold RangeLoop.goesOn at h
  split at h <;> simp_all

theorem forEach_seen (xs seen : List Int) (user : σ) : seen <+: (l.forEach xs seen user).seen := by
  induction xs generalizing seen user with
  | nil => exact List.prefix_refl seen
  | cons x xs ih =>
    cases hgo : l.goesOn x user with
    | none =>
      unfold RangeLoop.goesOn at hgo
      rw [RangeLoop.forEach]
      split at hgo <;> simp_all [Outcome.seen]
    | some next =>
      rw [(goesOn_eq_some hgo _).2]
      exact (List.prefix_append seen [x]).trans (ih _ _)

theorem forEach_cons_seen (x : Int) (xs seen : List Int) (user : σ) :
    seen ++ [x] <+: (l.forEach (x :: xs) seen user).seen := by
  cases hgo : l.goesOn x user with
  | none =>
    unfold RangeLoop.goesOn at hgo
    rw [RangeLoop.forEach]
    split at hgo <;> simp_all [Outcome.seen]
  | some next =>
    rw [(goesOn_eq_some hgo _).2]
    exact forEach_seen _ _ _

theorem forEach_ne_overflow (xs seen seen' : List Int) (user : σ) :
    l.forEach xs seen user ≠ .overflow seen' := by
  induction xs generalizing seen user with
  | nil => simp [RangeLoop.forEach]
  | cons x xs ih =>
    rw [RangeLoop.forEach]
    split <;> simp_all

/-- What a step leads to has seen all of `pre`, and is not the loop's entry. -/
def Grows (pre : List Int) : State σ ⊕ Outcome σ → Prop
  | .inl t => t.block ≠ .entry ∧ pre <+: t.seen
  | .inr o => pre <+: o.seen

theorem switchCond_grows {pre : List Int} (c : Bool) (hpre : pre <+: s.seen) :
    Grows pre (l.switchCond c s) := by
  unfold RangeLoop.switchCond
  split_ifs
  · exact ⟨nofun, hpre⟩
  · exact ⟨nofun, hpre⟩
  · exact hpre

theorem runBody_grows {pre : List Int} (hpre : pre <+: s.seen) : Grows pre (l.runBody s) := by
  have hmore : pre <+: s.seen ++ [s.i] := hpre.trans (List.prefix_append _ _)
  unfold RangeLoop.runBody
  split
  · exact hmore
  · exact hmore
  · exact ⟨nofun, hmore⟩

theorem step_grows {pre : List Int} (hentry : s.block ≠ .entry) (hpre : pre <+: s.seen) :
    Grows pre (l.step checked s) := by
  unfold RangeLoop.step
  split
  next h => exact absurd h hentry
  next =>
    split
    · exact switchCond_grows _ hpre
    · refine ⟨?_, hpre⟩
      dsimp only
      split_ifs <;> exact nofun
  next => exact ⟨nofun, hpre⟩
  next => exact ⟨nofun, hpre⟩
  next => exact switchCond_grows _ hpre
  next => exact runBody_grows hpre
  next =>
    split
    · exact ⟨nofun, hpre⟩
    · exact hpre
  next => exact hpre

/-- The loop never forgets an element that its body started with. -/
theorem yields_seen {pre : List Int} (hentry : s.block ≠ .entry) (hpre : pre <+: s.seen)
    (h : Yields (l.step checked) s o) : pre <+: o.seen := by
  obtain ⟨t, hreach, hend⟩ := yields_iff_last.mp h
  have hkept : ∀ u v, Grows pre (.inl u : State σ ⊕ Outcome σ) → l.step checked u = .inl v →
      Grows pre (.inl v : State σ ⊕ Outcome σ) := by
    intro u v hu hv
    rw [← hv]
    exact step_grows hu.1 hu.2
  have ht := hreach.invariant hkept ⟨hentry, hpre⟩
  have hlast : Grows pre (l.step checked t) := step_grows ht.1 ht.2
  rwa [hend] at hlast

theorem step_body (checked : Bool) (l : RangeLoop σ) (i : Int) (user : σ) (seen : List Int) :
    l.step checked ⟨.body, i, user, seen⟩ = l.runBody ⟨.body, i, user, seen⟩ := rfl

theorem body_sees (h : Yields (l.step checked) ⟨.body, i, user, seen⟩ o) :
    seen ++ [i] <+: o.seen := by
  have hgrows : Grows (seen ++ [i]) (l.runBody ⟨.body, i, user, seen⟩) := by
    unfold RangeLoop.runBody
    split
    · exact List.prefix_refl _
    · exact List.prefix_refl _
    · exact ⟨nofun, List.prefix_refl _⟩
  cases hrun : l.runBody ⟨.body, i, user, seen⟩ with
  | inl t =>
    rw [hrun] at hgrows
    exact yields_seen hgrows.1 hgrows.2 ((yields_of_step ((step_body ..).trans hrun)).mp h)
  | inr o' =>
    rw [hrun] at hgrows
    rwa [(yields_of_end ((step_body ..).trans hrun)).mp h] at hgrows

theorem translateAdd_of_fits {a b : Int} (h : I64.Fits (a + b)) :
    translateAdd checked a b = some (a + b) := by
  unfold translateAdd wrappingAdd checkedAdd
  rw [if_pos h, wrap_of_fits h, ite_self]

theorem translateAdd_inj {a b c : Int} (ha : I64.Fits a) (hb : I64.Fits b)
    (hadd : translateAdd checked a c = some (b + c)) : a = b := by
  unfold translateAdd at hadd
  cases checked with
  | true =>
    have hsum := (checkedAdd_eq_some.mp hadd).2
    omega
  | false =>
    have hsum : wrap (a + c) = b + c := Option.some.inj hadd
    unfold wrap at hsum
    unfold I64.Fits at ha hb
    omega

theorem elements_of_pastEnd {start : Int} (h : l.PastEnd start) : l.elements start = [] :=
  terms_of_not_before h

theorem elements_cons {start : Int} (h : ¬ l.PastEnd start) :
    l.elements start = start :: l.elements (start + l.increment) :=
  terms_of_before (not_not.mp h)

theorem fits_of_mem_elements {start x : Int} (hstart : I64.Fits start) (hend : I64.Fits l.endLocal)
    (h : x ∈ l.elements start) : I64.Fits x := by
  obtain ⟨k, rfl, hb⟩ := mem_terms.mp h
  exact RangeList.term_fits hstart hend (lt_count_iff.mpr hb)

/-- The latch's value goes to the condition. -/
theorem yields_latch_some {w : Int} (hstep : l.increment ≠ 0)
    (hadd : translateAdd checked i l.increment = some w) :
    Yields (l.step checked) ⟨.latch, i, user, seen⟩ o ↔ Decided checked l w user seen o := by
  have hlatch : l.step checked ⟨.latch, i, user, seen⟩ = .inl ⟨.cond, w, user, seen⟩ := by
    simp only [RangeLoop.step, hadd]
  rw [yields_of_step hlatch, yields_cond hstep]

theorem yields_latch_none (hadd : translateAdd checked i l.increment = none) :
    Yields (l.step checked) ⟨.latch, i, user, seen⟩ o ↔ .overflow seen = o := by
  have hlatch : l.step checked ⟨.latch, i, user, seen⟩ = .inr (.overflow seen) := by
    simp only [RangeLoop.step, hadd]
  exact yields_of_end hlatch

/-- After the last element the loop ends exactly if the next value is past the end. -/
theorem yields_latch_last (hstep : l.increment ≠ 0) :
    Yields (l.step checked) ⟨.latch, i, user, seen⟩ (l.forEach [] seen user) ↔
      ∃ w, translateAdd checked i l.increment = some w ∧ l.PastEnd w := by
  cases hadd : translateAdd checked i l.increment with
  | none =>
    rw [yields_latch_none hadd]
    simp only [reduceCtorEq, false_and, exists_false, iff_false]
    exact fun h => forEach_ne_overflow [] seen seen user h.symm
  | some w =>
    rw [yields_latch_some hstep hadd]
    simp only [Option.some.injEq, exists_eq_left']
    constructor
    · rintro (⟨_, hbody⟩ | ⟨hpast, _⟩)
      · -- The body would have started once more.
        have hlen := (body_sees hbody).length_le
        simp [RangeLoop.forEach, Outcome.seen] at hlen
      · exact hpast
    · intro hpast
      exact .inr ⟨hpast, rfl⟩

/-- Before another element the loop goes on to it exactly if the latch gives its value. -/
theorem yields_latch_next {x : Int} {xs : List Int} (hstep : l.increment ≠ 0)
    (hbefore : ¬ l.PastEnd x) :
    Yields (l.step checked) ⟨.latch, i, user, seen⟩ (l.forEach (x :: xs) seen user) ↔
      translateAdd checked i l.increment = some x ∧
        Yields (l.step checked) ⟨.cond, x, user, seen⟩ (l.forEach (x :: xs) seen user) := by
  rw [yields_cond hstep]
  cases hadd : translateAdd checked i l.increment with
  | none =>
    rw [yields_latch_none hadd]
    simp only [reduceCtorEq, false_and, iff_false]
    exact fun h => forEach_ne_overflow _ seen seen user h.symm
  | some w =>
    rw [yields_latch_some hstep hadd, Option.some.injEq]
    constructor
    · rintro (⟨hw, hbody⟩ | ⟨_, hnil⟩)
      · have hsame : seen ++ [w] = seen ++ [x] :=
          (List.prefix_of_prefix_length_le (body_sees hbody) (forEach_cons_seen x xs seen user)
            (by simp)).eq_of_length (by simp)
        obtain rfl : w = x := by simpa using hsame
        exact ⟨rfl, .inl ⟨hw, hbody⟩⟩
      · have hlen := (forEach_cons_seen (l := l) x xs seen user).length_le
        rw [← hnil] at hlen
        simp [RangeLoop.forEach, Outcome.seen] at hlen
    · rintro ⟨rfl, h⟩
      exact h

/-- From the condition on, the loop does to the elements what a loop over their list does exactly
if its body keeps the loop variable. -/
theorem yields_forEach_iff (hend : I64.Fits l.endLocal) (hstep : l.increment ≠ 0)
    (hbody : ∀ x user, I64.Fits x → I64.Fits (l.body x user).2.1) (elems : List Int) {start : Int}
    (hstart : I64.Fits start) (h : l.elements start = elems) :
    Yields (l.step checked) ⟨.cond, start, user, seen⟩ (l.forEach elems seen user) ↔
      l.Keeps checked elems user := by
  induction elems generalizing start user seen with
  | nil =>
    have hpast : l.PastEnd start := by
      by_contra hbefore
      rw [elements_cons hbefore] at h
      cases h
    rw [yields_cond hstep]
    exact iff_of_true (.inr ⟨hpast, rfl⟩) trivial
  | cons x xs ih =>
    have hbefore : ¬ l.PastEnd start := by
      intro hpast
      rw [elements_of_pastEnd hpast] at h
      cases h
    have hmem : ∀ y ∈ x :: xs, I64.Fits y := fun y hy => fits_of_mem_elements hstart hend (h ▸ hy)
    rw [elements_cons hbefore] at h
    obtain ⟨rfl, hrest⟩ := List.cons.inj h
    have hcond : Yields (l.step checked) ⟨.cond, start, user, seen⟩
        (l.forEach (start :: xs) seen user) ↔
        Yields (l.step checked) ⟨.body, start, user, seen⟩
          (l.forEach (start :: xs) seen user) := by
      rw [yields_cond hstep]
      simp [Decided, hbefore]
    rw [hcond, RangeLoop.Keeps]
    cases hgo : l.goesOn start user with
    | none =>
      obtain ⟨o, hrun, hfor⟩ := goesOn_eq_none hgo seen
      rw [yields_of_end ((step_body ..).trans hrun), hfor]
      simp
    | some next =>
      obtain ⟨i, user'⟩ := next
      obtain ⟨hrun, hfor⟩ := goesOn_eq_some hgo seen
      rw [yields_of_step ((step_body ..).trans hrun), hfor]
      have hi : I64.Fits i := goesOn_fits hbody hstart hgo
      simp only [Option.some.injEq, Prod.mk.injEq, and_imp]
      cases xs with
      | nil =>
        rw [yields_latch_last hstep]
        simp [RangeLoop.Keeps]
      | cons y ys =>
        have hy : I64.Fits y := hmem y (by simp)
        have hnext : ¬ l.PastEnd (start + l.increment) := by
          intro hpast
          rw [elements_of_pastEnd hpast] at hrest
          cases hrest
        obtain rfl : start + l.increment = y := by
          rw [elements_cons hnext] at hrest
          exact (List.cons.inj hrest).1
        have hsame : translateAdd checked i l.increment = some (start + l.increment) ↔
            i = start := by
          constructor
          · exact translateAdd_inj hi hstart
          · rintro rfl
            exact translateAdd_of_fits hy
        rw [yields_latch_next hstep hnext, hsame, ih hy hrest]
        simp

/-- The loop that is built for a range does to its locals what a loop over the list of the range's
elements does, and ends as that does, exactly if its body keeps the loop variable and the value
after the last element is one that a word holds. -/
theorem for_range_visits_iff (l : RangeLoop σ) (checked : Bool) {start : Int} (user : σ)
    (hstart : I64.Fits start) (hend : I64.Fits l.endLocal) (hstep : l.stepLocal ≠ some 0)
    (hbody : ∀ x user, I64.Fits x → I64.Fits (l.body x user).2.1) :
    Yields (l.step checked) (.enter start user) (l.forEach (l.elements start) [] user) ↔
      l.Keeps checked (l.elements start) user := by
  have henter : l.step checked (.enter start user) = .inl ⟨.cond, start, user, []⟩ := if_neg hstep
  have hincrement : l.increment ≠ 0 := by
    unfold RangeLoop.increment
    cases hl : l.stepLocal with
    | none => simp
    | some n =>
      rw [hl] at hstep
      simpa using hstep
  rw [yields_of_step henter]
  exact yields_forEach_iff hend hincrement hbody _ hstart rfl

/-- `for i in 7..=1 by -3`, with a body that counts its runs. -/
def countDown : RangeLoop Nat where
  endLocal := 1
  inclusive := true
  stepLocal := some (-3)
  body x n := (.continues, x, n + 1)
  elseBody := some (· + 10)

theorem for_range_visits_down :
    Yields (countDown.step true) (.enter 7 0) (.exit [7, 4, 1] true 13) := by
  have helements : countDown.elements 7 = [7, 4, 1] := by decide
  refine (for_range_visits_iff countDown true 0 (by decide) (by decide) (by decide)
    (fun _ _ hx => hx)).mpr ?_
  rw [helements]
  simp only [RangeLoop.Keeps, RangeLoop.goesOn, countDown, Option.some.injEq, Prod.mk.injEq]
  rintro _ _ ⟨rfl, rfl⟩
  refine ⟨rfl, ?_⟩
  rintro _ _ ⟨rfl, rfl⟩
  refine ⟨rfl, ?_⟩
  rintro _ _ ⟨rfl, rfl⟩
  exact ⟨⟨-2, by decide, by unfold RangeLoop.PastEnd; decide⟩, trivial⟩

/-- `for i in 9223372036854775807..=9223372036854775807`, with a body that counts its runs. -/
def lastWord : RangeLoop Nat where
  endLocal := 2 ^ 63 - 1
  inclusive := true
  stepLocal := none
  body x n := (.fallsThrough, x, n + 1)
  elseBody := some (· + 10)

/-- The range has one element; after it the counter does not fit, and the else clause never
runs. -/
theorem for_range_visits_fails :
    lastWord.forEach (lastWord.elements (2 ^ 63 - 1)) [] 0 = .exit [2 ^ 63 - 1] true 11 ∧
      Yields (lastWord.step true) (.enter (2 ^ 63 - 1) 0) (.overflow [2 ^ 63 - 1]) ∧
      ∀ checked, ¬ Yields (lastWord.step checked) (.enter (2 ^ 63 - 1) 0)
        (lastWord.forEach (lastWord.elements (2 ^ 63 - 1)) [] 0) := by
  have helements : lastWord.elements (2 ^ 63 - 1) = [2 ^ 63 - 1] := by decide
  refine ⟨by decide, ⟨4, by decide⟩, ?_⟩
  intro checked h
  have hkeeps := (for_range_visits_iff lastWord checked 0 (by decide) (by decide) (by decide)
    (fun _ _ hx => hx)).mp h
  rw [helements] at hkeeps
  obtain ⟨⟨w, hadd, hpast⟩, _⟩ := hkeeps (2 ^ 63 - 1) 1 rfl
  cases checked with
  | true =>
    have hnone : translateAdd true (2 ^ 63 - 1) lastWord.increment = none := by decide
    rw [hnone] at hadd
    cases hadd
  | false =>
    have hwraps : translateAdd false (2 ^ 63 - 1) lastWord.increment = some (-2 ^ 63) := by decide
    rw [hwraps] at hadd
    cases hadd
    exact hpast (.inl (by decide))

end ForRange

end Olive
