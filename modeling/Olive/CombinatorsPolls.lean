import Olive.CombinatorsInv

/-! A poll keeps the invariant of the futures, whatever it polls in turn. -/

namespace Olive

variable {σ α : Type} {rank : Word → Nat} {val : Word → α} {w w' w₁ : FutureWorld σ}
  {p : Poll σ} {code : Word → σ → MachineStep σ}

def Poll.Extends (p : Poll σ) : Prop :=
  ∀ w f w' r, p w f = some (w', r) → w.Extends w'

/-- What a poll of `f` that returns `r` keeps and does. -/
structure Answered (rank : Word → Nat) (val : Word → α) (w : FutureWorld σ) (f : Word)
    (w' : FutureWorld σ) (r : Word) : Prop where
  inv : FutureInv rank val w'
  grows : Grows rank (rank f + 1) w w'
  last : ∃ earlier, w'.history f = .polled r :: earlier ∧ w.history f <:+ earlier

def Poll.Sound (rank : Word → Nat) (val : Word → α) (p : Poll σ) (n : Nat) : Prop :=
  ∀ w f w' r, rank f < n → FutureInv rank val w → p w f = some (w', r) → w'.Kept val →
    Answered rank val w f w' r

theorem Answered.polled {f r : Word} (h : Answered rank val w f w' r) :
    .polled r ∈ w'.history f := by
  obtain ⟨_, heq, _⟩ := h.last
  simp [heq]

/-- A future that has returned a value returns an equal one. -/
theorem Answered.steady {f r v : Word} (h : Answered rank val w f w' r)
    (hv : .polled v ∈ w.history f) (hne : v ≠ pollPending) : r ≠ pollPending ∧ val r = val v := by
  obtain ⟨earlier, heq, hsuf⟩ := h.last
  have hs := h.inv.steady f
  rw [heq] at hs
  exact (List.pairwise_cons.mp hs).1 _ (hsuf.subset hv) v r rfl hne rfl

/-- What one round of the loop of `olive_gather_poll` does. -/
theorem gatherLoop_succ {g : Word} {f : GatherFrame} {n i : Nat} {any : Bool}
    {x : FutureWorld σ × Bool} (h : gatherLoop p g f (n + 1) i any w = some x) :
    ∃ results res, w.lists f.results = some results ∧ results[i]? = some res ∧
      ((res ≠ pollPending ∧ gatherLoop p g f n (i + 1) any w = some x) ∨
        (res = pollPending ∧ ∃ list fut w₁ r, w.lists f.futuresList = some list ∧
          list[i]? = some fut ∧ p w fut = some (w₁, r) ∧
          ((r = pollPending ∧
              gatherLoop p g f n (i + 1) true (w₁.record g (.gatherAsked i fut r)) = some x) ∨
            (r ≠ pollPending ∧ ∃ results', w₁.lists f.results = some results' ∧
              gatherLoop p g f n (i + 1) any ((w₁.record g (.gatherAsked i fut r)).setList f.results
                (results'.set i r)) = some x)))) := by
  simp only [gatherLoop, Option.bind_eq_bind] at h
  obtain ⟨results, hresults, h⟩ := Option.bind_eq_some_iff.mp h
  obtain ⟨res, hres, h⟩ := Option.bind_eq_some_iff.mp h
  refine ⟨results, res, hresults, hres, ?_⟩
  split at h
  next hpending =>
    obtain ⟨list, hlist, h⟩ := Option.bind_eq_some_iff.mp h
    obtain ⟨fut, hfut, h⟩ := Option.bind_eq_some_iff.mp h
    obtain ⟨⟨w₁, r⟩, hp, h⟩ := Option.bind_eq_some_iff.mp h
    refine .inr ⟨hpending, list, fut, w₁, r, hlist, hfut, hp, ?_⟩
    split at h
    next hr =>
      obtain ⟨results', hresults', h⟩ := Option.bind_eq_some_iff.mp h
      exact .inr ⟨hr, results', hresults', h⟩
    next hr => exact .inl ⟨of_not_not hr, h⟩
  next hready => exact .inl ⟨hready, h⟩

theorem selectLoop_succ {s : Word} {f : SelectFrame} {n i : Nat} {x : FutureWorld σ × Word}
    (h : selectLoop p s f (n + 1) i w = some x) :
    ∃ list fut w₁ r, w.lists f.futuresList = some list ∧ list[i]? = some fut ∧
      p w fut = some (w₁, r) ∧
      ((r ≠ pollPending ∧ x = (w₁.record s (.selectAsked i fut r), r)) ∨
        (r = pollPending ∧
          selectLoop p s f n (i + 1) (w₁.record s (.selectAsked i fut r)) = some x)) := by
  simp only [selectLoop, Option.bind_eq_bind] at h
  obtain ⟨list, hlist, h⟩ := Option.bind_eq_some_iff.mp h
  obtain ⟨fut, hfut, h⟩ := Option.bind_eq_some_iff.mp h
  obtain ⟨⟨w₁, r⟩, hp, h⟩ := Option.bind_eq_some_iff.mp h
  refine ⟨list, fut, w₁, r, hlist, hfut, hp, ?_⟩
  split at h
  next hr => exact .inl ⟨hr, (Option.some.inj h).symm⟩
  next hr => exact .inr ⟨of_not_not hr, h⟩

theorem machinePoll_succ {m : Word} {n : Nat} {c : σ → MachineStep σ} {s : σ}
    {x : FutureWorld σ × Word} (h : machinePoll p c m (n + 1) s w = some x) :
    (∃ v, c s = .ret v ∧ x = (w.setFuture m (.machine none v), v)) ∨
      ∃ sub resume w₁ r, c s = .await sub resume ∧ p w sub = some (w₁, r) ∧
        ((r = pollPending ∧ x = (w₁.setFuture m (.machine (some s) sub), pollPending)) ∨
          (r ≠ pollPending ∧ machinePoll p c m n (resume r) w₁ = some x)) := by
  simp only [machinePoll] at h
  split at h
  next v hv => exact .inl ⟨v, hv, (Option.some.inj h).symm⟩
  next sub resume hs =>
    obtain ⟨⟨w₁, r⟩, hp, h⟩ := Option.bind_eq_some_iff.mp h
    refine .inr ⟨sub, resume, w₁, r, hs, hp, ?_⟩
    dsimp only at h
    split at h
    next hr => exact .inl ⟨hr, (Option.some.inj h).symm⟩
    next hr => exact .inr ⟨hr, h⟩

theorem gatherLoop_extends (hp : p.Extends) {g : Word} {f : GatherFrame} {n i : Nat}
    {any any' : Bool} (h : gatherLoop p g f n i any w = some (w', any')) : w.Extends w' := by
  induction n generalizing i any w with
  | zero => exact (Prod.mk.inj (Option.some.inj h)).1 ▸ .refl w
  | succ n ih =>
    obtain ⟨_, _, _, _, ⟨_, h⟩ | ⟨_, _, _, w₁, r, _, _, hpoll, ⟨_, h⟩ | ⟨_, _, _, h⟩⟩⟩ :=
      gatherLoop_succ h
    · exact ih h
    · exact ((hp _ _ _ _ hpoll).trans (w₁.extends_record g _)).trans (ih h)
    · have hrest := ih h
      exact fun a => ((hp _ _ _ _ hpoll a).trans (w₁.extends_record g _ a)).trans (hrest a)

theorem selectLoop_extends (hp : p.Extends) {s : Word} {f : SelectFrame} {n i : Nat} {r : Word}
    (h : selectLoop p s f n i w = some (w', r)) : w.Extends w' := by
  induction n generalizing i w with
  | zero => exact (Prod.mk.inj (Option.some.inj h)).1 ▸ .refl w
  | succ n ih =>
    obtain ⟨_, _, w₁, _, _, _, hpoll, ⟨_, heq⟩ | ⟨_, h⟩⟩ := selectLoop_succ h
    · exact (Prod.mk.inj heq).1 ▸ (hp _ _ _ _ hpoll).trans (w₁.extends_record s _)
    · exact ((hp _ _ _ _ hpoll).trans (w₁.extends_record s _)).trans (ih h)

theorem machinePoll_extends (hp : p.Extends) {m : Word} {c : σ → MachineStep σ} {n : Nat} {s : σ}
    {r : Word} (h : machinePoll p c m n s w = some (w', r)) : w.Extends w' := by
  induction n generalizing s w with
  | zero => cases h
  | succ n ih =>
    obtain ⟨v, _, heq⟩ | ⟨_, _, w₁, _, _, hpoll, ⟨_, heq⟩ | ⟨_, h⟩⟩ := machinePoll_succ h
    · exact (Prod.mk.inj heq).1 ▸ .refl _
    · have hext := hp _ _ _ _ hpoll
      exact (Prod.mk.inj heq).1 ▸ hext
    · exact (hp _ _ _ _ hpoll).trans (ih h)

/-- What `olive_sm_poll` does, by the kind of the future. -/
inductive PollCase (p : Poll σ) (code : Word → σ → MachineStep σ) (fuel : Nat) (w : FutureWorld σ)
    (f : Word) (w' : FutureWorld σ) (r : Word) : Prop
  | null (hf : f = 0) (hw : w' = w) (hr : r = 0)
  | plain (result : Option Word) (hf : w.futures f = some (.plain result)) (hw : w' = w)
      (hr : r = result.getD pollPending)
  | returned (slot : Word) (hf : w.futures f = some (.machine none slot)) (hw : w' = w)
      (hr : r = slot)
  | machine (s : σ) (slot : Word) (hf : w.futures f = some (.machine (some s) slot))
      (h : machinePoll p (code f) f fuel s w = some (w', r))
  | gathered (frame : GatherFrame) (hf : w.futures f = some (.gather frame)) (hs : frame.state = -1)
      (hw : w' = w) (hr : r = frame.results)
  | gather (frame : GatherFrame) (list : List Word) (w₁ : FutureWorld σ) (any : Bool)
      (hf : w.futures f = some (.gather frame)) (hs : frame.state ≠ -1)
      (hlist : w.lists frame.futuresList = some list)
      (hloop : gatherLoop p f frame list.length 0 false (w.record f .gatherRead) = some (w₁, any))
      (h : if any then w' = w₁ ∧ r = pollPending
        else w' = w₁.setFuture f (.gather { frame with state := -1 }) ∧ r = frame.results)
  | select (frame : SelectFrame) (list : List Word) (hf : w.futures f = some (.select frame))
      (hlist : w.lists frame.futuresList = some list)
      (h : selectLoop p f frame list.length 0 (w.record f .selectRead) = some (w', r))

theorem pollFuture_cases {fuel : Nat} {f r : Word} (h : pollFuture p code fuel w f = some (w', r)) :
    PollCase p code fuel w f w' r := by
  unfold pollFuture at h
  split at h
  next hf =>
    cases h
    exact .null hf rfl rfl
  next =>
    split at h
    next => cases h
    next result hf =>
      cases h
      exact .plain result hf rfl rfl
    next hf =>
      cases h
      exact .returned _ hf rfl rfl
    next s slot hf => exact .machine s slot hf h
    next frame hf =>
      unfold gatherPoll at h
      split at h
      next hs =>
        cases h
        exact .gathered frame hf hs rfl rfl
      next hs =>
        obtain ⟨list, hlist, h⟩ := Option.bind_eq_some_iff.mp h
        obtain ⟨⟨w₁, any⟩, hloop, h⟩ := Option.bind_eq_some_iff.mp h
        refine .gather frame list w₁ any hf hs hlist hloop ?_
        cases any with
        | true =>
          cases h
          exact ⟨rfl, rfl⟩
        | false =>
          cases h
          exact ⟨rfl, rfl⟩
    next frame hf =>
      obtain ⟨list, hlist, h⟩ := Option.bind_eq_some_iff.mp h
      exact .select frame list hf hlist h

theorem pollFuture_extends (hp : p.Extends) {fuel : Nat} {f r : Word}
    (h : pollFuture p code fuel w f = some (w', r)) : w.Extends w' := by
  cases pollFuture_cases h with
  | null _ hw _ => exact hw ▸ .refl w
  | plain _ _ hw _ => exact hw ▸ .refl w
  | returned _ _ hw _ => exact hw ▸ .refl w
  | machine s slot _ h => exact machinePoll_extends hp h
  | gathered _ _ _ hw _ => exact hw ▸ .refl w
  | gather frame list w₁ any _ _ _ hloop h =>
    have hext := (w.extends_record f .gatherRead).trans (gatherLoop_extends hp hloop)
    cases any with
    | true => exact h.1 ▸ hext
    | false => exact h.1 ▸ hext
  | select frame list _ _ h =>
    exact (w.extends_record f .selectRead).trans (selectLoop_extends hp h)

theorem smPoll_succ {fuel : Nat} {f r : Word} (h : smPoll code (fuel + 1) w f = some (w', r)) :
    ∃ w₁, pollFuture (smPoll code fuel) code fuel w f = some (w₁, r) ∧
      w' = w₁.record f (.polled r) := by
  simp only [smPoll] at h
  obtain ⟨⟨w₁, r₁⟩, hp, heq⟩ := Option.map_eq_some_iff.mp h
  cases heq
  exact ⟨w₁, hp, rfl⟩

theorem smPoll_extends (fuel : Nat) : (smPoll code fuel).Extends := by
  induction fuel with
  | zero => exact fun _ _ _ _ h => by cases h
  | succ fuel ih =>
    intro w f w' r h
    obtain ⟨w₁, hp, rfl⟩ := smPoll_succ h
    exact (pollFuture_extends ih hp).trans (w₁.extends_record f _)

theorem GatherInv.unique {g : Word} {f f' : GatherFrame} {fs fs' cs cs' : List Word}
    (h : GatherInv rank w g f fs cs) (h' : GatherInv rank w g f' fs' cs')
    (hf : f'.results = f.results) : fs' = fs ∧ cs' = cs := by
  have hmade := h.made.symm.trans h'.made
  have hcells := h'.cells
  rw [hf, h.cells] at hcells
  simp only [Option.some.injEq, FutureEvent.created.injEq] at hmade hcells
  exact ⟨hmade.symm, hcells.symm⟩

/-- A gather after one of its futures has been polled. -/
theorem GatherInv.ask {g : Word} {f : GatherFrame} {fs cs : List Word}
    (h : GatherInv rank w g f fs cs) (hstate : f.state ≠ -1) {i : Nat} {sub r : Word}
    (hsub : fs[i]? = some sub) (hcell : cs[i]? = some pollPending)
    (hpolled : .polled r ∈ w.history sub)
    (hhist : w'.history g = .gatherAsked i sub r :: w.history g) (hext : w.Extends w')
    (hcells : w'.lists f.results = some (cs.set i r))
    (hlist : w'.lists f.futuresList = w.lists f.futuresList) :
    GatherInv rank w' g f fs (cs.set i r) := by
  have hlt : i < cs.length := (List.getElem?_eq_some_iff.mp hcell).1
  have hnone : ∀ sub' r', .gatherAsked i sub' r' ∈ w.history g → r' = pollPending := by
    intro sub' r' ha
    by_contra hne
    have heq := (h.asked i sub' r' ha).2.2 hne
    rw [hcell] at heq
    exact hne (Option.some.inj heq).symm
  have hsuffix : ∀ r' earlier, FutureEvent.polled r' :: earlier <:+ w'.history g →
      .polled r' :: earlier <:+ w.history g := by
    intro r' earlier hs
    rw [hhist] at hs
    rcases List.suffix_cons_iff.mp hs with heq | hs
    · cases heq
    · exact hs
  have hmade : w.history g ≠ [] := fun hnil => by
    have := h.made
    simp [hnil] at this
  exact {
    made := by
      rw [hhist, List.getLast?_cons_of_ne_nil hmade]
      exact h.made
    ranked := h.ranked
    address := h.address
    cells := hcells
    length := by rw [List.length_set, h.length]
    list := fun hc => by
      rw [hlist]
      exact h.list fun hmem => hc (by simp [hhist, hmem])
    done := fun hc => by
      rw [hhist] at hc
      rcases List.mem_cons.mp hc with heq | hc
      · cases heq
      · exact h.done hc
    full := fun hs => absurd hs hstate
    asked := fun j sub' r' ha => by
      rw [hhist] at ha
      rcases List.mem_cons.mp ha with heq | ha
      · cases heq
        exact ⟨hsub, (hext sub).subset hpolled, fun _ => by simp [hlt]⟩
      · obtain ⟨hfs, hpolled', hcs⟩ := h.asked j sub' r' ha
        refine ⟨hfs, (hext sub').subset hpolled', fun hne => ?_⟩
        have hij : i ≠ j := fun heq => hne (hnone sub' r' (heq ▸ ha))
        rw [List.getElem?_set_ne hij]
        exact hcs hne
    cell := fun j c hc hne => by
      rw [hhist]
      rcases eq_or_ne i j with rfl | hij
      · rw [List.getElem?_set_self hlt] at hc
        obtain rfl := Option.some.inj hc
        exact ⟨sub, by simp⟩
      · rw [List.getElem?_set_ne hij] at hc
        obtain ⟨sub', hsub'⟩ := h.cell j c hc hne
        exact ⟨sub', List.mem_cons_of_mem _ hsub'⟩
    once := by
      rw [hhist]
      refine List.pairwise_cons.mpr ⟨fun e he j sub' r' sub'' r'' heq hne heq' => ?_, h.once⟩
      cases heq
      cases heq'
      exact hne (hnone _ _ he)
    unread := by
      rw [hhist]
      exact List.pairwise_cons.mpr ⟨fun _ _ _ heq => (by cases heq), h.unread⟩
    answered := fun r' hr hne => by
      rw [hhist] at hr
      rcases List.mem_cons.mp hr with heq | hr
      · cases heq
      · exact h.answered r' hr hne
    pending := fun earlier hs => h.pending earlier (hsuffix _ _ hs)
    ready := fun earlier r' hne hs => h.ready earlier r' hne (hsuffix _ _ hs) }

/-- A poll of a lower future leaves a gather and its lists as they are. -/
theorem GatherInv.grows {n : Nat} (hi : FutureInv rank val w) (hi' : FutureInv rank val w')
    (hgrows : Grows rank n w w') {g : Word} {f : GatherFrame} {fs cs : List Word}
    (hg : w.futures g = some (.gather f)) (h : GatherInv rank w g f fs cs) (hn : n ≤ rank g) :
    w'.futures g = some (.gather f) ∧ GatherInv rank w' g f fs cs := by
  have hg' : w'.futures g = some (.gather f) := (hgrows.futures g hn).trans hg
  obtain ⟨fs', cs', h'⟩ := hi'.obj g _ hg'
  have hmade := h'.made
  rw [hgrows.history g hn, h.made] at hmade
  have hcells := hgrows.lists f.results cs h.cells fun g' f' hg' hlt _ heq => by
    have := hi.results g' g f' f hg' hg heq
    subst this
    omega
  rw [h'.cells] at hcells
  cases hmade
  cases hcells
  exact ⟨hg', h'⟩

theorem gatherLoop_sound {g : Word} (hp : p.Sound rank val (rank g)) (hext : p.Extends)
    {f : GatherFrame} {fs cs : List Word} {n i : Nat} {any any' : Bool}
    (hi : FutureInv rank val w) (hg : w.futures g = some (.gather f)) (hstate : f.state ≠ -1)
    (hinv : GatherInv rank w g f fs cs) (hlen : i + n = fs.length)
    (hany : any = true ↔ ∃ j < i, cs[j]? = some pollPending)
    (hasked : any = true →
      ∃ j sub, .gatherAsked j sub pollPending ∈ sinceRead .gatherRead (w.history g))
    (h : gatherLoop p g f n i any w = some (w', any')) (hk : w'.Kept val) :
    ∃ cs', FutureInv rank val w' ∧ Grows rank (rank g + 1) w w' ∧
      w'.futures g = some (.gather f) ∧ GatherInv rank w' g f fs cs' ∧
      (∀ r, .polled r ∈ w'.history g → .polled r ∈ w.history g) ∧
      (any' = true ↔ ∃ j < fs.length, cs'[j]? = some pollPending) ∧
      (any' = true →
        ∃ j sub, .gatherAsked j sub pollPending ∈ sinceRead .gatherRead (w'.history g)) := by
  induction n generalizing i any w cs with
  | zero =>
    cases h
    exact ⟨cs, hi, .refl _ _, hg, hinv, fun _ hr => hr, by rwa [← hlen], hasked⟩
  | succ n ih =>
    obtain ⟨results, res, hresults, hres, hcase⟩ := gatherLoop_succ h
    rw [hinv.cells] at hresults
    cases hresults
    have hnext : ∀ P : Nat → Prop, (∃ j < i + 1, P j) ↔ ((∃ j < i, P j) ∨ P i) := by
      intro P
      constructor
      · rintro ⟨j, hj, hP⟩
        rcases Nat.lt_succ_iff_lt_or_eq.mp hj with hlt | rfl
        · exact .inl ⟨j, hlt, hP⟩
        · exact .inr hP
      · rintro (⟨j, hj, hP⟩ | hP)
        · exact ⟨j, by omega, hP⟩
        · exact ⟨i, by omega, hP⟩
    rcases hcase with ⟨hne, h⟩ | ⟨rfl, list, fut, w₁, r, hlist, hfut, hpoll, hrest⟩
    · refine ih hi hg hinv (by omega) ?_ hasked h
      rw [hany, hnext, hres]
      simp [hne]
    · have hopen : .completed ∉ w.history g := fun hc => hstate (hinv.done hc)
      rw [hinv.list hopen] at hlist
      cases hlist
      have hrank : rank fut < rank g := hinv.ranked fut (List.mem_of_getElem? hfut)
      have hk₁ : w₁.Kept val := by
        refine hk.of_extends ?_
        rcases hrest with ⟨_, h⟩ | ⟨_, _, _, h⟩
        · exact (w₁.extends_record g _).trans (gatherLoop_extends hext h)
        · have hloop := gatherLoop_extends hext h
          exact fun a => (w₁.extends_record g _ a).trans (hloop a)
      have hans := hp w fut w₁ r hrank hi hpoll hk₁
      obtain ⟨hg₁, hinv₁⟩ := hinv.grows hi hans.inv hans.grows hg hrank
      have hgrows := hans.grows.weaken (Nat.succ_le_succ (Nat.le_of_lt hrank))
      have hlt : i < cs.length := (List.getElem?_eq_some_iff.mp hres).1
      have hsteady : Steady val (.gatherAsked i fut r :: w₁.history g) :=
        steady_cons (hans.inv.steady g) (by simp)
      have hsince : sinceRead .gatherRead ((w₁.record g (.gatherAsked i fut r)).history g) =
          .gatherAsked i fut r :: sinceRead .gatherRead (w.history g) := by
        rw [record_history_self, hans.grows.history g hrank, sinceRead_cons _ (by simp)]
      rcases hrest with ⟨rfl, h⟩ | ⟨hr, results', hresults', h⟩
      · have hsame : cs.set i pollPending = cs := by
          rw [← (List.getElem?_eq_some_iff.mp hres).2, List.set_getElem_self]
        have hinv₂ : GatherInv rank (w₁.record g (.gatherAsked i fut pollPending)) g f fs
            (cs.set i pollPending) :=
          hinv₁.ask hstate hfut hres hans.polled (record_history_self ..) (w₁.extends_record g _)
            (hsame.symm ▸ hinv₁.cells) rfl
        rw [hsame] at hinv₂
        obtain ⟨cs', hi', hgrows', hg', hinv', hpolled', hany'⟩ :=
          ih (hans.inv.record hg₁ ⟨fs, cs, hinv₂⟩ hsteady) hg₁ hinv₂ (by omega)
            (by simp only [true_iff]; exact ⟨i, by omega, hres⟩)
            (fun _ => ⟨i, fut, hsince ▸ List.mem_cons_self ..⟩) h
        refine ⟨cs', hi', (hgrows.trans (.record w₁ g _)).trans hgrows', hg', hinv',
          fun r hr => ?_, hany'⟩
        have hr' := hpolled' r hr
        rw [record_history_self, hans.grows.history g hrank] at hr'
        simpa using hr'
      · rw [hinv₁.cells] at hresults'
        cases hresults'
        have hdiff : f.futuresList ≠ f.results :=
          hans.inv.gatherApart g g f f hg₁ hg₁ hstate fun hc => hstate (hinv₁.done hc)
        have hinv₂ : GatherInv rank ((w₁.record g (.gatherAsked i fut r)).setList f.results
            (cs.set i r)) g f fs (cs.set i r) :=
          hinv₁.ask hstate hfut hres hans.polled (record_history_self ..) (w₁.extends_record g _)
            (Function.update_self ..) (Function.update_of_ne hdiff ..)
        have hi₂ : FutureInv rank val ((w₁.record g (.gatherAsked i fut r)).setList f.results
            (cs.set i r)) :=
          hans.inv.change hg₁ hg₁ ((FutureObj.Follows.refl _).moved _)
            (fun _ hne => ⟨rfl, record_history_ne w₁ _ hne⟩) (w₁.extends_record g _)
            (fun a ha => Function.update_of_ne (ha f rfl hstate) ..) ⟨fs, _, hinv₂⟩
            (record_history_self w₁ g _ ▸ hsteady) fun _ hq => hq
        obtain ⟨cs', hi', hgrows', hg', hinv', hpolled', hany'⟩ :=
          ih hi₂ hg₁ hinv₂ (by omega) (by
            rw [hany, hnext, List.getElem?_set_self hlt]
            simp only [Option.some.injEq, hr, or_false]
            refine exists_congr fun j => and_congr_right fun hj => ?_
            rw [List.getElem?_set_ne (by omega)])
            (fun ha => by
              obtain ⟨j, sub, hj⟩ := hasked ha
              exact ⟨j, sub, hsince ▸ List.mem_cons_of_mem _ hj⟩) h
        have hset : Grows rank (rank g + 1) (w₁.record g (.gatherAsked i fut r))
            ((w₁.record g (.gatherAsked i fut r)).setList f.results (cs.set i r)) :=
          .setList (w := w₁.record g _) hg₁ hstate rfl _
        refine ⟨cs', hi', ((hgrows.trans (.record w₁ g _)).trans hset).trans hgrows', hg', hinv',
          fun r' hr' => ?_, hany'⟩
        have hr'' : .polled r' ∈ (w₁.record g (.gatherAsked i fut r)).history g := hpolled' r' hr'
        rw [record_history_self, hans.grows.history g hrank] at hr''
        simpa using hr''

/-- A select after anything that happens to it. -/
theorem SelectInv.event {s : Word} {f f' : SelectFrame} {fs : List Word} {e : FutureEvent}
    (h : SelectInv rank w s f fs) (hhist : w'.history s = e :: w.history s) (hext : w.Extends w')
    (hlists : w'.lists = w.lists) (hlist : e ≠ .completed → f'.futuresList = f.futuresList)
    (hasked : ∀ i sub r, e = .selectAsked i sub r →
      fs[i]? = some sub ∧ .polled r ∈ w.history sub)
    (hchosen : ∀ v, e = .polled v → v ≠ pollPending →
      ∃ i sub, .selectAsked i sub v ∈ sinceRead .selectRead (w.history s))
    (hpending : e = .polled pollPending → ∀ i < fs.length,
      ∃ sub, .selectAsked i sub pollPending ∈ sinceRead .selectRead (w.history s)) :
    SelectInv rank w' s f' fs := by
  have hmade : w.history s ≠ [] := fun hnil => by
    have := h.made
    simp [hnil] at this
  have hsuffix : ∀ {r earlier}, FutureEvent.polled r :: earlier <:+ w'.history s →
      (e = .polled r ∧ earlier = w.history s) ∨ .polled r :: earlier <:+ w.history s := by
    intro r earlier hs
    rw [hhist] at hs
    rcases List.suffix_cons_iff.mp hs with heq | hs
    · cases heq
      exact .inl ⟨rfl, rfl⟩
    · exact .inr hs
  exact {
    made := by
      rw [hhist, List.getLast?_cons_of_ne_nil hmade]
      exact h.made
    ranked := h.ranked
    list := fun hc => by
      rw [hhist, List.mem_cons, not_or] at hc
      rw [hlists, hlist (Ne.symm hc.1)]
      exact h.list hc.2
    asked := fun i sub r ha => by
      rw [hhist] at ha
      have hold : fs[i]? = some sub ∧ .polled r ∈ w.history sub :=
        (List.mem_cons.mp ha).elim (fun heq => hasked i sub r heq.symm) (h.asked i sub r)
      exact ⟨hold.1, (hext sub).subset hold.2⟩
    chosen := fun earlier v hne hs => by
      rcases hsuffix hs with ⟨he, rfl⟩ | hs
      · exact hchosen v he hne
      · exact h.chosen earlier v hne hs
    pending := fun earlier hs => by
      rcases hsuffix hs with ⟨he, rfl⟩ | hs
      · exact hpending he
      · exact h.pending earlier hs }

theorem SelectInv.grows {n : Nat} (hi' : FutureInv rank val w') (hgrows : Grows rank n w w')
    {s : Word} {f : SelectFrame} {fs : List Word} (hs : w.futures s = some (.select f))
    (h : SelectInv rank w s f fs) (hn : n ≤ rank s) :
    w'.futures s = some (.select f) ∧ SelectInv rank w' s f fs := by
  have hs' : w'.futures s = some (.select f) := (hgrows.futures s hn).trans hs
  obtain ⟨fs', h'⟩ := hi'.obj s _ hs'
  have hmade := h'.made
  rw [hgrows.history s hn, h.made] at hmade
  cases hmade
  exact ⟨hs', h'⟩

/-- The loop of `olive_select_poll` goes no further than the future whose value an earlier poll has
returned, and stops before it only at an equal value. -/
theorem selectLoop_sound {s : Word} (hp : p.Sound rank val (rank s)) (hext : p.Extends)
    {f : SelectFrame} {fs : List Word} {n i : Nat} {r : Word} (hi : FutureInv rank val w)
    (hs : w.futures s = some (.select f)) (hinv : SelectInv rank w s f fs)
    (hopen : .completed ∉ w.history s) (hlen : i + n = fs.length)
    (hbefore : ∀ k sub v, .selectAsked k sub v ∈ w.history s → v ≠ pollPending → i ≤ k)
    (hasked : ∀ j < i, ∃ sub, .selectAsked j sub pollPending ∈ sinceRead .selectRead (w.history s))
    (h : selectLoop p s f n i w = some (w', r)) (hk : w'.Kept val) :
    FutureInv rank val w' ∧ Grows rank (rank s + 1) w w' ∧ w'.futures s = some (.select f) ∧
      SelectInv rank w' s f fs ∧ (∀ v, .polled v ∈ w'.history s → .polled v ∈ w.history s) ∧
      (r ≠ pollPending →
        ∃ j sub, .selectAsked j sub r ∈ sinceRead .selectRead (w'.history s)) ∧
      (r = pollPending → ∀ j < fs.length,
        ∃ sub, .selectAsked j sub pollPending ∈ sinceRead .selectRead (w'.history s)) ∧
      ∀ k sub v, .selectAsked k sub v ∈ w.history s → v ≠ pollPending →
        r ≠ pollPending ∧ val r = val v := by
  induction n generalizing i w with
  | zero =>
    cases h
    refine ⟨hi, .refl _ _, hs, hinv, fun _ hr => hr, fun hr => absurd rfl hr,
      fun _ j hj => hasked j (by omega), ?_⟩
    intro k sub v ha hv
    have hle := hbefore k sub v ha hv
    have hlt := (List.getElem?_eq_some_iff.mp (hinv.asked k sub v ha).1).1
    omega
  | succ n ih =>
    obtain ⟨list, fut, w₁, r₁, hlist, hfut, hpoll, hrest⟩ := selectLoop_succ h
    rw [hinv.list hopen] at hlist
    cases hlist
    have hrank : rank fut < rank s := hinv.ranked fut (List.mem_of_getElem? hfut)
    have hk₂ : (w₁.record s (.selectAsked i fut r₁)).Kept val := by
      refine hk.of_extends ?_
      rcases hrest with ⟨_, heq⟩ | ⟨_, h⟩
      · exact (Prod.mk.inj heq).1 ▸ .refl _
      · exact selectLoop_extends hext h
    have hans := hp w fut w₁ r₁ hrank hi hpoll (hk₂.of_extends (w₁.extends_record s _))
    obtain ⟨hs₁, hinv₁⟩ := hinv.grows hans.inv hans.grows hs hrank
    have hhist : w₁.history s = w.history s := hans.grows.history s hrank
    have hinv₂ : SelectInv rank (w₁.record s (.selectAsked i fut r₁)) s f fs :=
      hinv₁.event (record_history_self ..) (w₁.extends_record s _) rfl (fun _ => rfl)
        (fun j sub r heq => by
          cases heq
          exact ⟨hfut, hans.polled⟩) (by simp) (by simp)
    have hsince : sinceRead .selectRead ((w₁.record s (.selectAsked i fut r₁)).history s) =
        .selectAsked i fut r₁ :: sinceRead .selectRead (w.history s) := by
      rw [record_history_self, hhist, sinceRead_cons _ (by simp)]
    have hi₂ := hans.inv.record hs₁ ⟨fs, hinv₂⟩ (steady_cons (hans.inv.steady s) (by simp))
    have hgrows := (hans.grows.weaken (Nat.succ_le_succ (Nat.le_of_lt hrank))).trans
      (.record w₁ s (.selectAsked i fut r₁))
    -- the future whose value has been returned before answers with an equal value
    have hat : ∀ sub v, .selectAsked i sub v ∈ w.history s → v ≠ pollPending →
        r₁ ≠ pollPending ∧ val r₁ = val v := by
      intro sub v ha hv
      obtain ⟨hsub, hpolled⟩ := hinv.asked i sub v ha
      rw [hfut] at hsub
      cases hsub
      exact hans.steady hpolled hv
    rcases hrest with ⟨hr, heq⟩ | ⟨rfl, h⟩
    · cases heq
      refine ⟨hi₂, hgrows, hs₁, hinv₂, fun v hv => ?_,
        fun _ => ⟨i, fut, hsince ▸ List.mem_cons_self ..⟩, fun hp => absurd hp hr, ?_⟩
      · rw [record_history_self, hhist] at hv
        simpa using hv
      · intro k sub v ha hv
        rcases Nat.lt_or_eq_of_le (hbefore k sub v ha hv) with hlt | rfl
        · have hkept := hk₂ s
          rw [record_history_self, hhist] at hkept
          exact ⟨hr, ((List.pairwise_cons.mp hkept).1 _ ha).2 k sub v i fut r rfl hv rfl hr hlt⟩
        · exact hat sub v ha hv
    · have hmem : ∀ {e}, e ∈ (w₁.record s (.selectAsked i fut pollPending)).history s →
          e = .selectAsked i fut pollPending ∨ e ∈ w.history s := by
        intro e he
        rw [record_history_self, hhist] at he
        exact List.mem_cons.mp he
      obtain ⟨hi', hgrows', hs', hinv', hpolled', hchosen, hpending, hvals⟩ := ih hi₂ hs₁ hinv₂
        (fun hc => (hmem hc).elim (by simp) hopen) (by omega)
        (fun k sub v ha hv => by
          rcases hmem ha with heq | ha
          · cases heq
            exact absurd rfl hv
          · rcases Nat.lt_or_eq_of_le (hbefore k sub v ha hv) with hlt | rfl
            · exact hlt
            · exact absurd rfl (hat sub v ha hv).1)
        (fun j hj => by
          rw [hsince]
          rcases Nat.lt_succ_iff_lt_or_eq.mp hj with hlt | rfl
          · obtain ⟨sub, ha⟩ := hasked j hlt
            exact ⟨sub, List.mem_cons_of_mem _ ha⟩
          · exact ⟨fut, List.mem_cons_self ..⟩) h
      refine ⟨hi', hgrows.trans hgrows', hs', hinv', fun v hv => ?_, hchosen, hpending, ?_⟩
      · exact (hmem (hpolled' v hv)).resolve_left (by simp)
      · intro k sub v ha hv
        refine hvals k sub v ?_ hv
        rw [record_history_self, hhist]
        exact List.mem_cons_of_mem _ ha

theorem machinePoll_sound {m : Word} (hp : p.Sound rank val (rank m)) (hext : p.Extends)
    (hcode : ∀ s sub resume, code m s = .await sub resume → rank sub < rank m) {n : Nat} {s : σ}
    {r : Word} (hi : FutureInv rank val w)
    (hm : ∃ s' slot, w.futures m = some (.machine (some s') slot))
    (h : machinePoll p (code m) m n s w = some (w', r)) (hk : w'.Kept val) :
    FutureInv rank val w' ∧ Grows rank (rank m + 1) w w' ∧ w'.history m = w.history m ∧
      ∃ state slot, w'.futures m = some (.machine state slot) ∧
        (r ≠ pollPending → state = none ∧ slot = r) := by
  induction n generalizing s w with
  | zero => cases h
  | succ n ih =>
    obtain ⟨s', slot, hm⟩ := hm
    -- a machine that runs has not returned
    have hrunning : ∀ {w : FutureWorld σ} (o : FutureObj σ), FutureInv rank val w →
        w.futures m = some (.machine (some s') slot) → ∀ state slot', o = .machine state slot' →
        ObjInv rank val w m o := by
      intro w o hi hm state slot' ho
      subst ho
      intro v hv hne
      exact absurd (hi.obj m _ hm v hv hne).1 (by simp)
    obtain ⟨v, _, heq⟩ | ⟨sub, resume, w₁, r₁, hs, hpoll, hrest⟩ := machinePoll_succ h
    · cases heq
      have hfol : (FutureObj.machine none r : FutureObj σ).Follows (.machine (some s') slot) :=
        ⟨none, r, rfl⟩
      exact ⟨hi.setFuture hm (hfol.moved _) (hrunning _ hi hm _ _ rfl), .setFuture hm hfol, rfl, none, r,
        Function.update_self .., fun _ => ⟨rfl, rfl⟩⟩
    · have hrank := hcode s sub resume hs
      have hk₁ : w₁.Kept val := by
        refine hk.of_extends ?_
        rcases hrest with ⟨_, heq⟩ | ⟨_, h⟩
        · cases heq
          exact .refl _
        · exact machinePoll_extends hext h
      have hans := hp w sub w₁ r₁ hrank hi hpoll hk₁
      have hm₁ : w₁.futures m = some (.machine (some s') slot) :=
        (hans.grows.futures m hrank).trans hm
      have hhist : w₁.history m = w.history m := hans.grows.history m hrank
      have hgrows := hans.grows.weaken (Nat.succ_le_succ (Nat.le_of_lt hrank))
      rcases hrest with ⟨_, heq⟩ | ⟨_, h⟩
      · cases heq
        have hfol : (FutureObj.machine (some s) sub).Follows (.machine (some s') slot) :=
          ⟨some s, sub, rfl⟩
        exact ⟨hans.inv.setFuture hm₁ (hfol.moved _) (hrunning _ hans.inv hm₁ _ _ rfl),
          hgrows.trans (.setFuture hm₁ hfol), hhist, some s, sub, Function.update_self ..,
          fun hr => absurd rfl hr⟩
      · obtain ⟨hi', hgrows', hhist', hrest⟩ := ih hans.inv ⟨s', slot, hm₁⟩ h
        exact ⟨hi', hgrows.trans hgrows', hhist'.trans hhist, hrest⟩

/-- A gather after anything else that happens to it. -/
theorem GatherInv.event {g : Word} {f f' : GatherFrame} {fs cs : List Word} {e : FutureEvent}
    (h : GatherInv rank w g f fs cs) (hhist : w'.history g = e :: w.history g)
    (hext : w.Extends w') (hlists : w'.lists = w.lists) (hasked : ∀ i sub r, e ≠ .gatherAsked i sub r)
    (hresults : f'.results = f.results) (hlist : e ≠ .completed → f'.futuresList = f.futuresList)
    (hstate : f'.state = f.state) (hdone : e = .completed → f.state = -1)
    (hread : e = .gatherRead → .completed ∉ w.history g)
    (hanswer : ∀ r, e = .polled r → r ≠ pollPending → f.state = -1 ∧ r = f.results)
    (hpending : e = .polled pollPending →
      ∃ i sub, .gatherAsked i sub pollPending ∈ sinceRead .gatherRead (w.history g)) :
    GatherInv rank w' g f' fs cs := by
  have hready : ∀ {r}, e = .polled r → r ≠ pollPending →
      ∀ i < fs.length, ∃ sub c, .gatherAsked i sub c ∈ w.history g ∧ c ≠ pollPending := by
    intro r he hne i hlt
    rw [← h.length] at hlt
    have hc := h.full (hanswer r he hne).1 cs[i] (List.getElem_mem hlt)
    obtain ⟨sub, ha⟩ := h.cell i cs[i] (List.getElem?_eq_getElem hlt) hc
    exact ⟨sub, cs[i], ha, hc⟩
  have hold : ∀ {i sub r}, .gatherAsked i sub r ∈ w'.history g →
      .gatherAsked i sub r ∈ w.history g := by
    intro i sub r ha
    rw [hhist] at ha
    exact (List.mem_cons.mp ha).resolve_left fun heq => hasked i sub r heq.symm
  have hsuffix : ∀ {r earlier}, FutureEvent.polled r :: earlier <:+ w'.history g →
      (e = .polled r ∧ earlier = w.history g) ∨ .polled r :: earlier <:+ w.history g := by
    intro r earlier hs
    rw [hhist] at hs
    rcases List.suffix_cons_iff.mp hs with heq | hs
    · cases heq
      exact .inl ⟨rfl, rfl⟩
    · exact .inr hs
  have hmade : w.history g ≠ [] := fun hnil => by
    have := h.made
    simp [hnil] at this
  exact {
    made := by
      rw [hhist, List.getLast?_cons_of_ne_nil hmade]
      exact h.made
    ranked := h.ranked
    address := hresults ▸ h.address
    cells := by rw [hlists, hresults, h.cells]
    length := h.length
    list := fun hc => by
      rw [hhist, List.mem_cons, not_or] at hc
      rw [hlists, hlist (Ne.symm hc.1)]
      exact h.list hc.2
    done := fun hc => by
      rw [hhist] at hc
      rw [hstate]
      exact (List.mem_cons.mp hc).elim (fun heq => hdone heq.symm) h.done
    full := hstate ▸ h.full
    asked := fun i sub r ha => by
      obtain ⟨hfs, hpolled, hcs⟩ := h.asked i sub r (hold ha)
      exact ⟨hfs, (hext sub).subset hpolled, hcs⟩
    cell := fun i c hc hne => by
      obtain ⟨sub, ha⟩ := h.cell i c hc hne
      exact ⟨sub, hhist ▸ List.mem_cons_of_mem _ ha⟩
    once := by
      rw [hhist]
      exact List.pairwise_cons.mpr ⟨fun _ _ i _ _ sub' r' _ _ => hasked i sub' r', h.once⟩
    unread := by
      rw [hhist]
      exact List.pairwise_cons.mpr ⟨fun _ ha hc heq => hread heq (hc ▸ ha), h.unread⟩
    answered := fun r hr hne => by
      rw [hhist] at hr
      rw [hstate, hresults]
      exact (List.mem_cons.mp hr).elim (fun heq => hanswer r heq.symm hne)
        fun hr => h.answered r hr hne
    pending := fun earlier hs => by
      rcases hsuffix hs with ⟨he, rfl⟩ | hs
      · exact hpending he
      · exact h.pending earlier hs
    ready := fun earlier r hne hs => by
      rcases hsuffix hs with ⟨he, rfl⟩ | hs
      · exact hready he hne
      · exact h.ready earlier r hne hs }

/-- A gather that has found no pending future is done. -/
theorem GatherInv.finish {g : Word} {f : GatherFrame} {fs cs : List Word}
    (h : GatherInv rank w g f fs cs) (hfull : ∀ c ∈ cs, c ≠ pollPending) :
    GatherInv rank w g { f with state := -1 } fs cs :=
  { h with
    done := fun _ => rfl
    full := fun _ => hfull
    answered := fun r hr hne => ⟨rfl, (h.answered r hr hne).2⟩ }

theorem steady_polled {h : List FutureEvent} {r : Word} (hs : Steady val h)
    (hr : ∀ v, .polled v ∈ h → v ≠ pollPending → r ≠ pollPending ∧ val r = val v) :
    Steady val (.polled r :: h) := by
  refine List.pairwise_cons.mpr ⟨fun older ho v r' heq hne heq' => ?_, hs⟩
  cases heq'
  exact hr v (heq ▸ ho) hne

/-- What is left to do after a poll is to record its result. -/
structure Recordable (rank : Word → Nat) (val : Word → α) (w w' : FutureWorld σ) (f r : Word) :
    Prop where
  inv : FutureInv rank val w'
  grows : Grows rank (rank f + 1) w w'
  next : FutureInv rank val (w'.record f (.polled r))

theorem Recordable.of_obj {f r : Word} {o : FutureObj σ} (hi : FutureInv rank val w')
    (hgrows : Grows rank (rank f + 1) w w') (hf : w'.futures f = some o)
    (hobj : ObjInv rank val (w'.record f (.polled r)) f o)
    (hr : ∀ v, .polled v ∈ w'.history f → v ≠ pollPending → r ≠ pollPending ∧ val r = val v) :
    Recordable rank val w w' f r :=
  ⟨hi, hgrows, hi.record hf hobj (steady_polled (hi.steady f) hr)⟩

/-- The null future answers 0. -/
theorem Recordable.null (hi : FutureInv rank val w) : Recordable rank val w w 0 0 := by
  refine ⟨hi, .refl _ _, ?_⟩
  have hne : ∀ {h o}, w.futures h = some o → h ≠ 0 := fun hh h0 => by
    rw [h0, hi.zero.1] at hh
    cases hh
  have hmem : ∀ {f e}, e ∈ w.history f → e ∈ (w.record 0 (.polled 0)).history f :=
    fun he => (w.extends_record 0 _ _).subset he
  exact {
    obj := fun h o hh => (hi.obj h o hh).mono (record_history_ne w _ (hne hh))
      (w.extends_record 0 _) fun _ _ => rfl
    absent := fun h hh h0 => (record_history_ne w _ h0).trans (hi.absent h hh h0)
    zero := ⟨hi.zero.1, fun e he => by
      rw [record_history_self] at he
      exact (List.mem_cons.mp he).elim id (hi.zero.2 e)⟩
    results := hi.results
    gatherApart := fun g g' f f' hg hg' hs hc =>
      hi.gatherApart g g' f f' hg hg' hs fun he => hc (hmem he)
    selectApart := fun g s f f' hg hs' hs hc =>
      hi.selectApart g s f f' hg hs' hs fun he => hc (hmem he)
    steady := fun f => by
      rcases eq_or_ne f 0 with rfl | h0
      · rw [record_history_self]
        refine steady_polled (hi.steady 0) fun v hv _ => ?_
        cases hi.zero.2 _ hv
        exact ⟨by decide, rfl⟩
      · rw [record_history_ne w _ h0]
        exact hi.steady f
    finishing := fun q hq => ⟨(hi.finishing q hq).1, hmem (hi.finishing q hq).2⟩ }

theorem gatherPoll_sound {g : Word} (hp : p.Sound rank val (rank g)) (hext : p.Extends)
    {f : GatherFrame} {fs : List Word} {any : Bool} {r : Word} (hi : FutureInv rank val w)
    (hg : w.futures g = some (.gather f)) (hstate : f.state ≠ -1)
    (hlist : w.lists f.futuresList = some fs)
    (hloop : gatherLoop p g f fs.length 0 false (w.record g .gatherRead) = some (w₁, any))
    (h : if any then w' = w₁ ∧ r = pollPending
      else w' = w₁.setFuture g (.gather { f with state := -1 }) ∧ r = f.results)
    (hk : w₁.Kept val) : Recordable rank val w w' g r := by
  obtain ⟨fs', cs, hinv⟩ := hi.obj g _ hg
  have hopen : .completed ∉ w.history g := fun hc => hstate (hinv.done hc)
  rw [hinv.list hopen] at hlist
  cases hlist
  have hinv₀ : GatherInv rank (w.record g .gatherRead) g f fs cs :=
    hinv.event (record_history_self ..) (w.extends_record g _) rfl (by simp) rfl (fun _ => rfl) rfl
      (by simp) (fun _ => hopen) (by simp) (by simp)
  have hi₀ := hi.record hg ⟨fs, cs, hinv₀⟩ (steady_cons (hi.steady g) (by simp))
  obtain ⟨cs', hi₁, hgrows, hg₁, hinv₁, -, hany, hasked⟩ := gatherLoop_sound hp hext hi₀ hg hstate
    hinv₀ (Nat.zero_add _) (by simp) (by simp) hloop hk
  have hgrows₁ := (Grows.record w g .gatherRead).trans hgrows
  have hnone : ∀ v, .polled v ∈ w₁.history g → v = pollPending := by
    intro v hv
    by_contra hne
    exact hstate (hinv₁.answered v hv hne).1
  cases any with
  | true =>
    obtain ⟨rfl, rfl⟩ := h
    refine .of_obj hi₁ hgrows₁ hg₁ ⟨fs, cs', ?_⟩ fun v hv hne => absurd (hnone v hv) hne
    exact hinv₁.event (record_history_self ..) (w'.extends_record g _) rfl (by simp) rfl
      (fun _ => rfl) rfl (by simp) (by simp) (fun r hr hne => absurd (by simpa using hr.symm) hne)
      fun _ => hasked rfl
  | false =>
    obtain ⟨rfl, rfl⟩ := h
    have hfull : ∀ c ∈ cs', c ≠ pollPending := by
      intro c hc heq
      obtain ⟨j, hj, hget⟩ := List.getElem_of_mem hc
      refine absurd (hany.mpr ⟨j, hinv₁.length ▸ hj, ?_⟩) (by simp)
      rw [List.getElem?_eq_getElem hj, hget, heq]
    have hfol : (FutureObj.gather { f with state := -1 } : FutureObj σ).Follows (.gather f) :=
      ⟨-1, rfl, fun _ => rfl⟩
    have hfin := hinv₁.finish hfull
    have hi₂ := hi₁.setFuture hg₁ (hfol.moved _) ⟨fs, cs', hfin⟩
    refine .of_obj hi₂ (hgrows₁.trans (.setFuture hg₁ hfol)) (Function.update_self ..)
      ⟨fs, cs', ?_⟩ fun v hv hne => absurd (hnone v hv) hne
    exact hfin.event (record_history_self ..) (w₁.extends_record g _) rfl (by simp) rfl
      (fun _ => rfl) rfl (by simp) (by simp) (fun r hr _ => ⟨rfl, by simpa using hr.symm⟩)
      fun hr => absurd (by simpa using hr) hinv₁.address

theorem selectPoll_sound {s : Word} (hp : p.Sound rank val (rank s)) (hext : p.Extends)
    {f : SelectFrame} {fs : List Word} {r : Word} (hi : FutureInv rank val w)
    (hs : w.futures s = some (.select f)) (hlist : w.lists f.futuresList = some fs)
    (h : selectLoop p s f fs.length 0 (w.record s .selectRead) = some (w', r))
    (hk : w'.Kept val) : Recordable rank val w w' s r := by
  obtain ⟨fs', hinv⟩ := hi.obj s _ hs
  have hopen : .completed ∉ w.history s := by
    intro hc
    have hkept := hk.of_extends (selectLoop_extends hext h) s
    rw [record_history_self] at hkept
    exact ((List.pairwise_cons.mp hkept).1 _ hc).1 rfl rfl
  rw [hinv.list hopen] at hlist
  cases hlist
  have hmem : ∀ {e}, e ∈ (w.record s .selectRead).history s → e = .selectRead ∨ e ∈ w.history s :=
    fun he => List.mem_cons.mp (record_history_self w s _ ▸ he)
  have hinv₀ : SelectInv rank (w.record s .selectRead) s f fs :=
    hinv.event (record_history_self ..) (w.extends_record s _) rfl (fun _ => rfl) (by simp)
      (by simp) (by simp)
  have hi₀ := hi.record hs ⟨fs, hinv₀⟩ (steady_cons (hi.steady s) (by simp))
  obtain ⟨hi₁, hgrows, hs₁, hinv₁, hpolled, hchosen, hpending, hvals⟩ :=
    selectLoop_sound hp hext hi₀ hs hinv₀ (fun hc => (hmem hc).elim (by simp) hopen)
      (Nat.zero_add _) (fun _ _ _ _ _ => Nat.zero_le _) (by simp) h hk
  refine .of_obj hi₁ ((Grows.record w s .selectRead).trans hgrows) hs₁ ⟨fs, ?_⟩ fun v hv hne => ?_
  · refine hinv₁.event (record_history_self ..) (w'.extends_record s _) rfl (fun _ => rfl) (by simp)
      (fun v heq hne => ?_) fun heq => hpending (FutureEvent.polled.inj heq)
    cases heq
    exact hchosen hne
  · obtain ⟨earlier, hsuf⟩ := suffix_of_mem (hpolled v hv)
    obtain ⟨k, sub, ha⟩ := hinv₀.chosen earlier v hne hsuf
    have ha' : .selectAsked k sub v ∈ earlier := mem_of_mem_sinceRead ha
    exact hvals k sub v (hsuf.subset (List.mem_cons_of_mem _ ha')) hne

theorem pollFuture_sound {f : Word} (hp : p.Sound rank val (rank f)) (hext : p.Extends)
    (hcode : ∀ m s sub resume, code m s = .await sub resume → rank sub < rank m) {fuel : Nat}
    {r : Word} (hi : FutureInv rank val w) (h : pollFuture p code fuel w f = some (w', r))
    (hk : w'.Kept val) : Recordable rank val w w' f r := by
  cases pollFuture_cases h with
  | null hf hw hr =>
    subst hf hw hr
    exact .null hi
  | plain result hf hw hr =>
    subst hw hr
    refine .of_obj hi (.refl _ _) hf (fun v hv hne => ?_) fun v hv hne => ?_
    · rw [record_history_self] at hv
      rcases List.mem_cons.mp hv with heq | hv
      · cases heq
        cases result with
        | none => exact absurd rfl hne
        | some v => rfl
      · exact hi.obj f _ hf v hv hne
    · have hv' : result = some v := hi.obj f _ hf v hv hne
      subst hv'
      exact ⟨hne, rfl⟩
  | returned slot hf hw hr =>
    subst hw hr
    refine .of_obj hi (.refl _ _) hf (fun v hv hne => ?_) fun v hv hne => ?_
    · rw [record_history_self] at hv
      rcases List.mem_cons.mp hv with heq | hv
      · cases heq
        exact ⟨rfl, hne, rfl⟩
      · exact hi.obj f _ hf v hv hne
    · exact (hi.obj f _ hf v hv hne).2
  | machine s slot hf h =>
    obtain ⟨hi', hgrows, hhist, state, slot', hf', hret⟩ :=
      machinePoll_sound hp hext (hcode f) hi ⟨s, slot, hf⟩ h hk
    have hnone : ∀ v, .polled v ∈ w'.history f → v = pollPending := by
      intro v hv
      by_contra hne
      rw [hhist] at hv
      exact absurd (hi.obj f _ hf v hv hne).1 (by simp)
    refine .of_obj hi' hgrows hf' (fun v hv hne => ?_) fun v hv hne => absurd (hnone v hv) hne
    rw [record_history_self] at hv
    rcases List.mem_cons.mp hv with heq | hv
    · cases heq
      obtain ⟨rfl, rfl⟩ := hret hne
      exact ⟨rfl, hne, rfl⟩
    · exact absurd (hnone v hv) hne
  | gathered frame hf hs hw hr =>
    subst hw hr
    obtain ⟨fs, cs, hinv⟩ := hi.obj f _ hf
    refine .of_obj hi (.refl _ _) hf ⟨fs, cs, ?_⟩ fun v hv hne => ?_
    · exact hinv.event (record_history_self ..) (w'.extends_record f _) rfl (by simp) rfl
        (fun _ => rfl) rfl (by simp) (by simp) (fun r hr _ => ⟨hs, by simpa using hr.symm⟩)
        fun hr => absurd (by simpa using hr) hinv.address
    · obtain ⟨_, rfl⟩ := hinv.answered v hv hne
      exact ⟨hne, rfl⟩
  | gather frame list w₁ any hf hs hlist hloop h =>
    refine gatherPoll_sound hp hext hi hf hs hlist hloop h (hk.of_extends ?_)
    cases any with
    | true => exact h.1 ▸ .refl _
    | false => exact h.1 ▸ .refl _
  | select frame list hf hlist h => exact selectPoll_sound hp hext hi hf hlist h hk

/-- A poll keeps the invariant. The machines wait on each other in no cycle. -/
theorem smPoll_sound
    (hcode : ∀ m s sub resume, code m s = .await sub resume → rank sub < rank m) (fuel n : Nat) :
    (smPoll code fuel).Sound rank val n := by
  induction fuel generalizing n with
  | zero => exact fun _ _ _ _ _ _ h => by cases h
  | succ fuel ih =>
    intro w f w' r _ hi h hk
    obtain ⟨w₁, hp, rfl⟩ := smPoll_succ h
    have hrec := pollFuture_sound (ih (rank f)) (smPoll_extends fuel) hcode hi hp
      (hk.of_extends (w₁.extends_record f _))
    exact ⟨hrec.next, hrec.grows.trans (.record w₁ f _), w₁.history f, record_history_self ..,
      hrec.grows.longer f⟩

end Olive
