import Olive.CombinatorsPolls
import Olive.Interleaving

/-! Gathers and selects over any run: what they return, and that they go on returning it. -/

namespace Olive

open Interleaving (Reachable)

variable {σ α : Type} {rank : Word → Nat} {val : Word → α} {w w' : FutureWorld σ}
  {code : Word → σ → MachineStep σ} {relocate : Word → Word}

/-- A list that the program can have: not the results of a gather that is not done. -/
def FutureWorld.Given (w : FutureWorld σ) (a : Word) : Prop :=
  ∀ g f, w.futures g = some (.gather f) → f.state ≠ -1 → f.results ≠ a

/-- A combinator is made over a list that the program has, of futures that do not wait for it. -/
def FutureWorld.Allows (rank : Word → Nat) (w : FutureWorld σ) : FutureOp σ → Prop
  | .gather f list _ | .select f list =>
    w.Given list ∧ ∀ fs, w.lists list = some fs → ∀ sub ∈ fs, rank sub < rank f
  | _ => True

/-- The steps of a run in which no select is polled after `executor_complete` has run on it, and no
future before the one a select has returned the value of answers it with another value later. -/
def KeepsSelects (code : Word → σ → MachineStep σ) (relocate : Word → Word) (rank : Word → Nat)
    (val : Word → α) (w : FutureWorld σ) (op : FutureOp σ) : Prop :=
  w.Allows rank op ∧ ∀ w', futureStep code relocate w op = some w' → w'.Kept val

theorem ObjInv.reads {f a : Word} {o : FutureObj σ} (h : ObjInv rank val w f o)
    (ha : o.Reads (w.history f) a) : ∃ cs, w.lists a = some cs := by
  cases o with
  | plain result => cases ha
  | machine state slot => cases ha
  | gather frame =>
    obtain ⟨fs, cs, hg⟩ := h
    rcases ha with rfl | ⟨hc, rfl⟩
    · exact ⟨cs, hg.cells⟩
    · exact ⟨fs, hg.list hc⟩
  | select frame =>
    obtain ⟨fs, hs⟩ := h
    obtain ⟨hc, rfl⟩ := ha
    exact ⟨fs, hs.list hc⟩

theorem future_empty : FutureInv rank val (.empty : FutureWorld σ) where
  obj f o h := by cases h
  absent f _ _ := rfl
  zero := ⟨rfl, fun e he => by cases he⟩
  results g g' f f' h := by cases h
  gatherApart g g' f f' h := by cases h
  selectApart g s f f' h := by cases h
  steady _ := .nil
  finishing q hq := by cases hq

/-- A new list changes none of those that are there. -/
theorem FutureInv.addList (hi : FutureInv rank val w) {a : Word} (ha : w.lists a = none)
    (cs : List Word) : FutureInv rank val (w.setList a cs) where
  obj f o hf := by
    refine (hi.obj f o hf).mono rfl (.refl _) fun b hb => Function.update_of_ne (fun heq => ?_) ..
    obtain ⟨_, hsome⟩ := (hi.obj f o hf).reads hb
    rw [heq, ha] at hsome
    cases hsome
  absent := hi.absent
  zero := hi.zero
  results := hi.results
  gatherApart := hi.gatherApart
  selectApart := hi.selectApart
  steady := hi.steady
  finishing := hi.finishing

/-- A new future of any kind. -/
theorem FutureInv.addFuture (hi : FutureInv rank val w) {f : Word} {o : FutureObj σ}
    (hnew : w.futures f = none) (hzero : f ≠ 0) (hf : w'.futures f = some o)
    (hother : ∀ h, h ≠ f → w'.futures h = w.futures h ∧ w'.history h = w.history h)
    (hlists : ∀ a cs, w.lists a = some cs → w'.lists a = some cs)
    (hobj : ObjInv rank val w' f o) (hsteady : Steady val (w'.history f))
    (hresults : ∀ frame, o = .gather frame →
      w.lists frame.results = none ∧ w.Given frame.futuresList ∧
        (w.lists frame.futuresList).isSome)
    (hselect : ∀ frame, o = .select frame → w.Given frame.futuresList)
    (hfin : w'.finishing = w.finishing) : FutureInv rank val w' := by
  have hext : w.Extends w' := by
    intro h
    rcases eq_or_ne h f with rfl | hne
    · rw [hi.absent h hnew hzero]
      exact List.nil_suffix
    · rw [(hother h hne).2]
  have hmem : ∀ sub e, e ∈ w.history sub → e ∈ w'.history sub :=
    fun sub e he => (hext sub).subset he
  have hsome : ∀ g frame, w.futures g = some (.gather frame) →
      ∃ cs, w.lists frame.results = some cs :=
    fun g frame hg => (hi.obj g _ hg).reads (.inl rfl)
  have hlist : ∀ g frame, w.futures g = some (.gather frame) → .completed ∉ w.history g →
      ∃ fs, w.lists frame.futuresList = some fs :=
    fun g frame hg hc => (hi.obj g _ hg).reads (.inr ⟨hc, rfl⟩)
  have hlist' : ∀ s frame, w.futures s = some (.select frame) → .completed ∉ w.history s →
      ∃ fs, w.lists frame.futuresList = some fs :=
    fun s frame hs hc => (hi.obj s _ hs).reads ⟨hc, rfl⟩
  have hcases : ∀ {h p}, w'.futures h = some p → (h = f ∧ p = o) ∨ w.futures h = some p := by
    intro h p hp
    rcases eq_or_ne h f with rfl | hne
    · rw [hf] at hp
      exact .inl ⟨rfl, (Option.some.inj hp).symm⟩
    · exact .inr ((hother h hne).1 ▸ hp)
  -- the results of a new gather are at a new address
  have hfresh : ∀ {frame a}, o = .gather frame → (∃ cs, w.lists a = some cs) →
      a ≠ frame.results := by
    rintro frame a ho ⟨cs, ha⟩ rfl
    rw [(hresults frame ho).1] at ha
    cases ha
  refine ⟨fun h p hp => ?_, fun h hh h0 => ?_, ?_, fun g g' a a' hg hg' heq => ?_,
    fun g g' a a' hg hg' ha hc => ?_, fun g s a a' hg hs ha hc => ?_, fun h => ?_, ?_⟩
  · rcases hcases hp with ⟨rfl, rfl⟩ | hp'
    · exact hobj
    · have hne : h ≠ f := fun heq => by
        rw [heq, hnew] at hp'
        cases hp'
      refine (hi.obj h p hp').mono (hother h hne).2 hext fun a ha => ?_
      obtain ⟨cs, hcs⟩ := (hi.obj h p hp').reads ha
      rw [hlists a cs hcs, hcs]
  · rcases eq_or_ne h f with rfl | hne
    · rw [hf] at hh
      cases hh
    · rw [(hother h hne).2]
      exact hi.absent h ((hother h hne).1 ▸ hh) h0
  · rw [(hother 0 hzero.symm).1, (hother 0 hzero.symm).2]
    exact hi.zero
  · rcases hcases hg with ⟨rfl, ho⟩ | hg₀ <;> rcases hcases hg' with ⟨rfl, ho'⟩ | hg₀'
    · rfl
    · exact absurd heq.symm (hfresh ho.symm (hsome g' a' hg₀'))
    · exact absurd heq (hfresh ho'.symm (hsome g a hg₀))
    · exact hi.results g g' a a' hg₀ hg₀' heq
  · rcases hcases hg with ⟨rfl, ho⟩ | hg₀ <;> rcases hcases hg' with ⟨rfl, ho'⟩ | hg₀'
    · cases ho.trans ho'.symm
      exact hfresh ho.symm (Option.isSome_iff_exists.mp (hresults a ho.symm).2.2)
    · exact hfresh ho.symm (hlist g' a' hg₀' fun hc' => hc (hmem g' _ hc'))
    · exact fun heq => (hresults a' ho'.symm).2.1 g a hg₀ ha heq.symm
    · exact hi.gatherApart g g' a a' hg₀ hg₀' ha fun hc' => hc (hmem g' _ hc')
  · rcases hcases hg with ⟨rfl, ho⟩ | hg₀ <;> rcases hcases hs with ⟨rfl, ho'⟩ | hs₀
    · cases ho.trans ho'.symm
    · exact hfresh ho.symm (hlist' s a' hs₀ fun hc' => hc (hmem s _ hc'))
    · exact fun heq => hselect a' ho'.symm g a hg₀ ha heq.symm
    · exact hi.selectApart g s a a' hg₀ hs₀ ha fun hc' => hc (hmem s _ hc')
  · rcases eq_or_ne h f with rfl | hne
    · exact hsteady
    · rw [(hother h hne).2]
      exact hi.steady h
  · rw [hfin]
    exact fun q hq => ⟨(hi.finishing q hq).1, hmem q.1 _ (hi.finishing q hq).2⟩

/-- A future without a frame of lists, before anything has happened to it. -/
theorem FutureInv.setNew (hi : FutureInv rank val w) {f : Word} {o : FutureObj σ}
    (hnew : w.NewFuture f) (ho : (∀ frame, o ≠ .gather frame) ∧ ∀ frame, o ≠ .select frame) :
    FutureInv rank val (w.setFuture f o) := by
  have habsent : w.futures f = none := Option.isNone_iff_eq_none.mp hnew.2
  have hnil : w.history f = [] := hi.absent f habsent hnew.1
  refine hi.addFuture (o := o) habsent hnew.1 (Function.update_self ..)
    (fun h hne => ⟨Function.update_of_ne hne .., rfl⟩) (fun _ _ h => h) ?_
    (hi.steady f) (fun frame h => absurd h (ho.1 frame)) (fun frame h => absurd h (ho.2 frame)) rfl
  cases o with
  | plain result =>
    intro v hv
    simp [FutureWorld.setFuture, hnil] at hv
  | machine state slot =>
    intro v hv
    simp [FutureWorld.setFuture, hnil] at hv
  | gather frame => exact absurd rfl (ho.1 frame)
  | select frame => exact absurd rfl (ho.2 frame)

theorem steady_created {fs : List Word} : Steady val [.created fs] :=
  List.pairwise_singleton ..

theorem FutureInv.addSelect (hi : FutureInv rank val w) {s list : Word} {fs : List Word}
    (hnew : w.NewFuture s) (hall : w.Allows rank (.select s list)) (hlist : w.lists list = some fs)
    (hs : w'.futures s = some (.select ⟨0, list⟩))
    (hother : ∀ h, h ≠ s → w'.futures h = w.futures h ∧ w'.history h = w.history h)
    (hhist : w'.history s = [.created fs]) (hlists : w'.lists = w.lists)
    (hfin : w'.finishing = w.finishing) : FutureInv rank val w' := by
  have hnever : ∀ {e earlier}, e :: earlier <:+ w'.history s → e = .created fs := by
    intro e earlier hsuf
    have := hsuf.subset (List.mem_cons_self ..)
    rw [hhist] at this
    exact List.mem_singleton.mp this
  refine hi.addFuture (Option.isNone_iff_eq_none.mp hnew.2) hnew.1 hs hother
    (fun _ _ h => hlists ▸ h) ⟨fs, ?_⟩ (hhist ▸ steady_created) (by simp) (fun frame h => ?_) hfin
  · exact {
      made := by simp [hhist]
      ranked := hall.2 fs hlist
      list := fun _ => hlists ▸ hlist
      asked := fun i sub r ha => by simp [hhist] at ha
      chosen := fun earlier v _ hsuf => by cases hnever hsuf
      pending := fun earlier hsuf => by cases hnever hsuf }
  · cases h
    exact hall.1

theorem FutureInv.addGather (hi : FutureInv rank val w) {g list results : Word} {fs : List Word}
    (hnew : w.NewFuture g) (hresults : w.NewList results)
    (hall : w.Allows rank (.gather g list results)) (hlist : w.lists list = some fs)
    (hg : w'.futures g = some (.gather ⟨0, list, results⟩))
    (hother : ∀ h, h ≠ g → w'.futures h = w.futures h ∧ w'.history h = w.history h)
    (hhist : w'.history g = [.created fs])
    (hlists : w'.lists = Function.update w.lists results
      (some (List.replicate fs.length pollPending)))
    (hfin : w'.finishing = w.finishing) : FutureInv rank val w' := by
  have hnone : w.lists results = none := Option.isNone_iff_eq_none.mp hresults.2
  have hkept : ∀ a cs, w.lists a = some cs → w'.lists a = some cs := by
    intro a cs ha
    rw [hlists, Function.update_of_ne, ha]
    rintro rfl
    rw [hnone] at ha
    cases ha
  have hnever : ∀ {e earlier}, e :: earlier <:+ w'.history g → e = .created fs := by
    intro e earlier hsuf
    have := hsuf.subset (List.mem_cons_self ..)
    rw [hhist] at this
    exact List.mem_singleton.mp this
  refine hi.addFuture (Option.isNone_iff_eq_none.mp hnew.2) hnew.1 hg hother hkept
    ⟨fs, List.replicate fs.length pollPending, ?_⟩ (hhist ▸ steady_created) (fun frame h => ?_)
    (by simp) hfin
  · exact {
      made := by simp [hhist]
      ranked := hall.2 fs hlist
      address := hresults.1
      cells := hlists ▸ Function.update_self ..
      length := List.length_replicate ..
      list := fun _ => hkept list fs hlist
      done := fun hc => by simp [hhist] at hc
      full := fun hs => absurd hs (show (0 : Word) ≠ -1 by decide)
      asked := fun i sub r ha => by simp [hhist] at ha
      cell := fun i c hc hne => by
        rw [List.getElem?_replicate] at hc
        split at hc
        next => exact absurd (Option.some.inj hc).symm hne
        next => cases hc
      once := by
        rw [hhist]
        exact List.pairwise_singleton ..
      unread := by
        rw [hhist]
        exact List.pairwise_singleton ..
      answered := fun r hr => by simp [hhist] at hr
      pending := fun earlier hsuf => by cases hnever hsuf
      ready := fun earlier r _ hsuf => by cases hnever hsuf }
  · cases h
    exact ⟨hnone, hall.1, by simp [hlist]⟩

/-- A producer makes a plain future ready. -/
theorem FutureInv.resolve (hi : FutureInv rank val w) {f v : Word}
    (hf : w.futures f = some (.plain none)) :
    FutureInv rank val (w.setFuture f (.plain (some v))) := by
  refine hi.setFuture hf ⟨some v, rfl⟩ fun u hu hne => ?_
  have hnone : none = some u := hi.obj f _ hf u hu hne
  cases hnone

theorem FutureInv.finish (hi : FutureInv rank val w) {f r : Word} (hr : r ≠ pollPending)
    (hpolled : .polled r ∈ w.history f) :
    FutureInv rank val { w with finishing := (f, r) :: w.finishing } where
  obj h o hh := (hi.obj h o hh).mono rfl (.refl _) fun _ _ => rfl
  absent := hi.absent
  zero := hi.zero
  results := hi.results
  gatherApart := hi.gatherApart
  selectApart := hi.selectApart
  steady := hi.steady
  finishing q hq := by
    rcases List.mem_cons.mp hq with rfl | hq
    · exact ⟨hr, hpolled⟩
    · exact hi.finishing q hq

/-- `executor_complete` writes the second word of a frame. -/
theorem FutureInv.complete (hval : ∀ v, val (relocate v) = val v)
    (hready : ∀ v, v ≠ pollPending → relocate v ≠ pollPending) (hi : FutureInv rank val w)
    {f r : Word} {o : FutureObj σ} (hfin : (f, r) ∈ w.finishing) (hf : w.futures f = some o) :
    FutureInv rank val { (w.setFuture f (o.deliver (relocate r))).record f .completed with
      finishing := w.finishing.erase (f, r) } := by
  obtain ⟨hr, hpolled⟩ := hi.finishing _ hfin
  have hhist := record_history_self (w.setFuture f (o.deliver (relocate r))) f .completed
  have hext := (w.setFuture f (o.deliver (relocate r))).extends_record f .completed
  have hsteady : Steady val (.completed :: w.history f) := steady_cons (hi.steady f) (by simp)
  have hmem : ∀ {v}, .polled v ∈ .completed :: w.history f → .polled v ∈ w.history f :=
    fun hv => (List.mem_cons.mp hv).resolve_left (by simp)
  have hf' : Function.update w.futures f (some (o.deliver (relocate r))) f =
      some (o.deliver (relocate r)) := Function.update_self ..
  refine hi.change hf hf' ?_
    (fun h hne => ⟨Function.update_of_ne hne .., record_history_ne _ _ hne⟩) hext
    (fun _ _ => rfl) ?_ (hhist ▸ hsteady) fun q hq => List.mem_of_mem_erase hq
  · cases o with
    | plain result => exact ⟨result, rfl⟩
    | machine state slot => exact ⟨state, _, rfl⟩
    | gather frame =>
      exact ⟨_, rfl, rfl, fun hc => absurd (hhist ▸ List.mem_cons_self ..) hc, id⟩
    | select frame => exact ⟨_, rfl, fun hc => absurd (hhist ▸ List.mem_cons_self ..) hc⟩
  · cases o with
    | plain result => exact fun v hv hne => hi.obj f _ hf v (hmem (hhist ▸ hv)) hne
    | machine state slot =>
      intro v hv hne
      obtain ⟨hstate, _, hv⟩ := hi.obj f _ hf v (hmem (hhist ▸ hv)) hne
      obtain ⟨_, _, hr'⟩ := hi.obj f _ hf r hpolled hr
      exact ⟨hstate, hready r hr, (hval r).trans (hr'.symm.trans hv)⟩
    | gather frame =>
      obtain ⟨fs, cs, hg⟩ := hi.obj f _ hf
      obtain ⟨hdone, _⟩ := hg.answered r hpolled hr
      exact ⟨fs, cs, hg.event hhist hext rfl (by simp) rfl (fun hne => absurd rfl hne) rfl
        (fun _ => hdone) (by simp) (by simp) (by simp)⟩
    | select frame =>
      obtain ⟨fs, hs⟩ := hi.obj f _ hf
      exact ⟨fs, hs.event hhist hext rfl (fun hne => absurd rfl hne) (by simp) (by simp) (by simp)⟩

/-- A step that uses selects as it has to keeps the invariant. -/
theorem future_step (hcode : ∀ m s sub resume, code m s = .await sub resume → rank sub < rank m)
    (hval : ∀ v, val (relocate v) = val v)
    (hready : ∀ v, v ≠ pollPending → relocate v ≠ pollPending) (hi : FutureInv rank val w)
    {op : FutureOp σ} (hall : w.Allows rank op) (hstep : futureStep code relocate w op = some w')
    (hk : w'.Kept val) : FutureInv rank val w' := by
  cases op with
  | list a contents =>
    simp only [futureStep] at hstep
    split at hstep
    next hnew =>
      cases hstep
      exact hi.addList (Option.isNone_iff_eq_none.mp hnew.2) contents
    next => cases hstep
  | plain f =>
    simp only [futureStep] at hstep
    split at hstep
    next hnew =>
      cases hstep
      exact hi.setNew hnew (by simp)
    next => cases hstep
  | machine f s =>
    simp only [futureStep] at hstep
    split at hstep
    next hnew =>
      cases hstep
      exact hi.setNew hnew (by simp)
    next => cases hstep
  | gather g list results =>
    simp only [futureStep] at hstep
    split at hstep
    next hnew =>
      obtain ⟨fs, hlist, rfl⟩ := Option.map_eq_some_iff.mp hstep
      have hnil := hi.absent g (Option.isNone_iff_eq_none.mp hnew.1.2) hnew.1.1
      refine hi.addGather hnew.1 hnew.2 hall hlist (Function.update_self ..)
        (fun h hne => ⟨Function.update_of_ne hne .., record_history_ne _ _ hne⟩) ?_ rfl rfl
      exact (record_history_self ..).trans (congrArg _ hnil)
    next => cases hstep
  | select s list =>
    simp only [futureStep] at hstep
    split at hstep
    next hnew =>
      obtain ⟨fs, hlist, rfl⟩ := Option.map_eq_some_iff.mp hstep
      have hnil := hi.absent s (Option.isNone_iff_eq_none.mp hnew.2) hnew.1
      refine hi.addSelect hnew hall hlist (Function.update_self ..)
        (fun h hne => ⟨Function.update_of_ne hne .., record_history_ne _ _ hne⟩) ?_ rfl rfl
      exact (record_history_self ..).trans (congrArg _ hnil)
    next => cases hstep
  | resolve f v =>
    simp only [futureStep] at hstep
    split at hstep
    next hf =>
      cases hstep
      exact hi.resolve hf
    next => cases hstep
  | poll fuel f =>
    obtain ⟨⟨w₁, r⟩, hpoll, rfl⟩ := Option.map_eq_some_iff.mp hstep
    exact (smPoll_sound hcode fuel (rank f + 1) w f w₁ r (Nat.lt_succ_self _) hi hpoll hk).inv
  | drive fuel f =>
    obtain ⟨⟨w₁, r⟩, hpoll, rfl⟩ := Option.map_eq_some_iff.mp hstep
    have hk₁ : w₁.Kept val := by
      dsimp only at hk
      split at hk
      next => exact hk
      next => exact hk
    have hans := smPoll_sound hcode fuel (rank f + 1) w f w₁ r (Nat.lt_succ_self _) hi hpoll hk₁
    dsimp only
    split
    next => exact hans.inv
    next hr =>
      exact hans.inv.finish hr hans.polled
  | complete f r =>
    simp only [futureStep] at hstep
    split at hstep
    next hfin =>
      obtain ⟨o, hf, rfl⟩ := Option.map_eq_some_iff.mp hstep
      exact hi.complete hval hready hfin hf
    next => cases hstep

/-- What a gather over the futures `fs` answers to its polls. -/
structure GatherCorrect (w : FutureWorld σ) (g : Word) (fs : List Word) : Prop where
  asked : ∀ i sub r, .gatherAsked i sub r ∈ w.history g →
    fs[i]? = some sub ∧ .polled r ∈ w.history sub
  /-- `Pending` while there is a future that is not ready. -/
  pending : ∀ earlier, .polled pollPending :: earlier <:+ w.history g →
    ∃ i sub, .gatherAsked i sub pollPending ∈ sinceRead .gatherRead earlier
  /-- And then the list of their results. -/
  result : ∀ earlier r, r ≠ pollPending → .polled r :: earlier <:+ w.history g →
    ∃ cs, w.lists r = some cs ∧ cs.length = fs.length ∧ ∀ i < fs.length, ∃ sub c,
      fs[i]? = some sub ∧ cs[i]? = some c ∧ c ≠ pollPending ∧ .polled c ∈ w.history sub ∧
        .gatherAsked i sub c ∈ earlier
  once : AskedOnce (w.history g)
  unread : GatherUnread (w.history g)

/-- What a select over the futures `fs` answers to its polls. -/
structure SelectCorrect (w : FutureWorld σ) (s : Word) (fs : List Word) : Prop where
  asked : ∀ i sub r, .selectAsked i sub r ∈ w.history s →
    fs[i]? = some sub ∧ .polled r ∈ w.history sub
  pending : ∀ earlier, .polled pollPending :: earlier <:+ w.history s → ∀ i < fs.length,
    ∃ sub, .selectAsked i sub pollPending ∈ sinceRead .selectRead earlier
  result : ∀ earlier v, v ≠ pollPending → .polled v :: earlier <:+ w.history s →
    ∃ i sub, .selectAsked i sub v ∈ sinceRead .selectRead earlier
  unread : (w.history s).Pairwise fun newer older => older = .completed → newer ≠ .selectRead

/-- Every combinator answers as it has to, and every future goes on returning what it has returned. -/
structure CombinatorsCorrect (val : Word → α) (w : FutureWorld σ) : Prop where
  steady : ∀ f, Steady val (w.history f)
  gather : ∀ g frame, w.futures g = some (.gather frame) →
    ∃ fs, (w.history g).getLast? = some (.created fs) ∧ GatherCorrect w g fs
  select : ∀ s frame, w.futures s = some (.select frame) →
    ∃ fs, (w.history s).getLast? = some (.created fs) ∧ SelectCorrect w s fs

theorem GatherInv.correct {g : Word} {f : GatherFrame} {fs cs : List Word}
    (h : GatherInv rank w g f fs cs) : GatherCorrect w g fs where
  asked i sub r ha := ⟨(h.asked i sub r ha).1, (h.asked i sub r ha).2.1⟩
  pending := h.pending
  result earlier r hr hs := by
    obtain ⟨_, rfl⟩ := h.answered r (hs.subset (List.mem_cons_self ..)) hr
    refine ⟨cs, h.cells, h.length, fun i hlt => ?_⟩
    obtain ⟨sub, c, ha, hc⟩ := h.ready earlier _ hr hs i hlt
    obtain ⟨hsub, hpolled, hcell⟩ :=
      h.asked i sub c (hs.subset (List.mem_cons_of_mem _ ha))
    exact ⟨sub, c, hsub, hcell hc, hc, hpolled, ha⟩
  once := h.once
  unread := h.unread

theorem FutureInv.correct (hi : FutureInv rank val w) (hk : w.Kept val) :
    CombinatorsCorrect val w where
  steady := hi.steady
  gather g frame hg := by
    obtain ⟨fs, cs, h⟩ := hi.obj g _ hg
    exact ⟨fs, h.made, h.correct⟩
  select s frame hs := by
    obtain ⟨fs, h⟩ := hi.obj s _ hs
    exact ⟨fs, h.made, h.asked, h.pending, h.chosen, (hk s).imp fun hrel => hrel.1⟩

theorem kept_empty : (.empty : FutureWorld σ).Kept val := fun _ => .nil

theorem combinators_correct
    (hcode : ∀ m s sub resume, code m s = .await sub resume → rank sub < rank m)
    (hval : ∀ v, val (relocate v) = val v)
    (hready : ∀ v, v ≠ pollPending → relocate v ≠ pollPending)
    (h : Reachable (futureStep code relocate) (KeepsSelects code relocate rank val) .empty w) :
    CombinatorsCorrect val w := by
  have hinv : FutureInv rank val w ∧ w.Kept val := by
    refine h.invariant (P := fun w => FutureInv rank val w ∧ w.Kept val) ⟨future_empty, kept_empty⟩
      fun w op w' hw hok hstep => ?_
    have hk := hok.2 w' hstep
    exact ⟨future_step hcode hval hready hw.1 hok.1 hstep hk, hk⟩
  exact hinv.1.correct hinv.2

theorem futureStep_extends {op : FutureOp σ} (h : futureStep code relocate w op = some w') :
    w.Extends w' := by
  cases op with
  | list a contents =>
    simp only [futureStep] at h
    split at h
    next =>
      cases h
      exact .refl _
    next => cases h
  | plain f =>
    simp only [futureStep] at h
    split at h
    next =>
      cases h
      exact .refl _
    next => cases h
  | machine f s =>
    simp only [futureStep] at h
    split at h
    next =>
      cases h
      exact .refl _
    next => cases h
  | gather g list results =>
    simp only [futureStep] at h
    split at h
    next =>
      obtain ⟨fs, _, rfl⟩ := Option.map_eq_some_iff.mp h
      exact FutureWorld.extends_record ((w.setFuture g (.gather ⟨0, list, results⟩)).setList results
        (List.replicate fs.length pollPending)) g _
    next => cases h
  | select s list =>
    simp only [futureStep] at h
    split at h
    next =>
      obtain ⟨fs, _, rfl⟩ := Option.map_eq_some_iff.mp h
      exact FutureWorld.extends_record (w.setFuture s (.select ⟨0, list⟩)) s _
    next => cases h
  | resolve f v =>
    simp only [futureStep] at h
    split at h
    next =>
      cases h
      exact .refl _
    next => cases h
  | poll fuel f =>
    obtain ⟨⟨w₁, r⟩, hpoll, rfl⟩ := Option.map_eq_some_iff.mp h
    exact smPoll_extends fuel w f w₁ r hpoll
  | drive fuel f =>
    obtain ⟨⟨w₁, r⟩, hpoll, rfl⟩ := Option.map_eq_some_iff.mp h
    have hext := smPoll_extends fuel w f w₁ r hpoll
    dsimp only
    split
    next => exact hext
    next => exact hext
  | complete f r =>
    simp only [futureStep] at h
    split at h
    next =>
      obtain ⟨o, _, rfl⟩ := Option.map_eq_some_iff.mp h
      exact FutureWorld.extends_record (w.setFuture f (o.deliver (relocate r))) f _
    next => cases h

/-- A run that has kept its selects in the end has kept them at every step. -/
theorem reachable_of_kept
    (h : Reachable (futureStep code relocate) (fun w op => w.Allows rank op) .empty w)
    (hk : w.Kept val) :
    Reachable (futureStep code relocate) (KeepsSelects code relocate rank val) .empty w := by
  induction h with
  | start => exact .start
  | step _ hok hnext ih =>
    refine (ih (hk.of_extends (futureStep_extends hnext))).step ⟨hok, fun w' hw' => ?_⟩ hnext
    cases hw'.symm.trans hnext
    exact hk

/-- A machine that awaits the future at 1, to be polled by a gather and a select. -/
def sampleCode (m s : Word) : MachineStep Word := if m = 5 ∧ s = 0 then .await 1 id else .ret s

def SampleRun (w : FutureWorld Word) : Prop :=
  Reachable (futureStep sampleCode id) (fun w op => w.Allows BitVec.toNat op) .empty w

theorem SampleRun.next {w w' : FutureWorld Word} (h : SampleRun w) (op : FutureOp Word)
    (hok : w.Allows BitVec.toNat op) (hstep : futureStep sampleCode id w op = some w') :
    SampleRun w' := h.step hok hstep

def sampleFutures : FutureWorld Word :=
  ((FutureWorld.empty.setList 100 [5]).setFuture 1 (.plain none)).setFuture 5 (.machine (some 0) 0)

def sampleGather : FutureWorld Word :=
  ((sampleFutures.setFuture 8 (.gather ⟨0, 100, 101⟩)).setList 101 [pollPending]).record 8
    (.created [5])

def sampleSelect : FutureWorld Word :=
  (sampleGather.setFuture 9 (.select ⟨0, 100⟩)).record 9 (.created [5])

def sampleGathered : FutureWorld Word :=
  ((((((((sampleSelect.setFuture 1 (.plain (some 7))).record 8 .gatherRead).record 1
    (.polled 7)).setFuture 5 (.machine none 7)).record 5 (.polled 7)).record 8
    (.gatherAsked 0 5 7)).setList 101 [7]).setFuture 8 (.gather ⟨-1, 100, 101⟩)).record 8
    (.polled 101)

def sampleSelected : FutureWorld Word :=
  (((sampleGathered.record 9 .selectRead).record 5 (.polled 7)).record 9
    (.selectAsked 0 5 7)).record 9 (.polled 7)

theorem sampleGather_gathers (g : Word) (f : GatherFrame)
    (hg : sampleGather.futures g = some (.gather f)) : f.results = 101 := by
  simp only [sampleGather, sampleFutures, FutureWorld.setFuture, FutureWorld.setList,
    FutureWorld.record, FutureWorld.empty, Function.update_apply] at hg
  grind

theorem sample_kept : sampleSelected.Kept (id : Word → Word) := by
  intro f
  have hfirst : ∀ e ∈ sampleSelected.history f,
      e ≠ .completed ∧ ∀ k sub v, e = .selectAsked k sub v → k = 0 := by
    simp only [sampleSelected, sampleGathered, sampleSelect, sampleGather, sampleFutures,
      FutureWorld.record, FutureWorld.setFuture, FutureWorld.setList, FutureWorld.empty,
      Function.update_apply]
    grind
  refine List.pairwise_of_forall_mem_list fun newer _ older ho => ?_
  refine ⟨fun hc => absurd hc (hfirst older ho).1, fun k sub v i _ _ heq _ _ _ hlt => ?_⟩
  have := (hfirst older ho).2 k sub v heq
  omega

theorem sample_run : SampleRun sampleSelected := by
  have hstart : SampleRun .empty := Reachable.start
  have hfutures : SampleRun sampleFutures :=
    ((hstart.next (.list 100 [5]) trivial rfl).next (.plain 1) trivial rfl).next (.machine 5 0)
      trivial rfl
  have hbelow : ∀ f : Word, 5 < f.toNat → ∀ fs, some [5] = some fs →
      ∀ sub ∈ fs, BitVec.toNat (sub : Word) < f.toNat := by
    intro f hf fs hfs sub hsub
    cases hfs
    rw [List.mem_singleton.mp hsub]
    exact hf
  have hgather : sampleFutures.Allows BitVec.toNat (.gather 8 100 101) := by
    refine ⟨fun g f hg => ?_, hbelow 8 (by decide)⟩
    simp only [sampleFutures, FutureWorld.setFuture, FutureWorld.setList, FutureWorld.empty,
      Function.update_apply] at hg
    grind
  have hselect : sampleGather.Allows BitVec.toNat (.select 9 100) := by
    refine ⟨fun g f hg _ => ?_, hbelow 9 (by decide)⟩
    rw [sampleGather_gathers g f hg]
    decide
  have hmade : SampleRun sampleSelect :=
    (hfutures.next _ hgather (rfl : _ = some sampleGather)).next _ hselect rfl
  have hgathered : SampleRun sampleGathered :=
    (hmade.next (.resolve 1 7) trivial rfl).next (.poll 4 8) trivial rfl
  exact hgathered.next (.poll 4 9) trivial rfl

theorem combinators_correct_sample :
    CombinatorsCorrect id sampleSelected ∧ sampleSelected.lists 101 = some [7] := by
  have hcode : ∀ m s sub resume, sampleCode m s = .await sub resume → sub.toNat < m.toNat := by
    intro m s sub resume h
    simp only [sampleCode] at h
    split at h
    next hm =>
      cases h
      rw [hm.1]
      decide
    next => cases h
  exact ⟨combinators_correct hcode (fun _ => rfl) (fun _ h => h)
    (reachable_of_kept sample_run sample_kept), rfl⟩

/-- A select whose future has returned the list at 4096. -/
def staleSelect : FutureWorld Word :=
  (((((FutureWorld.empty.setList 4096 [0]).setList 8 [16]).setFuture 16 (.plain none)).setFuture 24
    (.select ⟨0, 8⟩)).record 24 (.created [16])).setFuture 16 (.plain (some 4096))

theorem stale_run : SampleRun staleSelect := by
  have hstart : SampleRun .empty := Reachable.start
  have hfutures := ((hstart.next (.list 4096 [0]) trivial rfl).next (.list 8 [16]) trivial
    rfl).next (.plain 16) trivial rfl
  refine (hfutures.next (.select 24 8) ⟨fun g f hg => ?_, fun fs hfs sub hsub => ?_⟩ rfl).next
    (.resolve 16 4096) trivial rfl
  · simp only [FutureWorld.setFuture, FutureWorld.setList, FutureWorld.empty,
      Function.update_apply] at hg
    grind
  · cases hfs
    rw [List.mem_singleton.mp hsub]
    decide

/-- Once the executor has written the result of a select over the address of its futures, the next
poll takes the result for that list. -/
theorem select_unsteady : ¬ ∀ w, SampleRun w → CombinatorsCorrect (id : Word → Word) w := by
  intro h
  have hrun := ((stale_run.next (.drive 2 24) trivial rfl).next (.complete 24 4096) trivial
    rfl).next (.poll 2 24) trivial rfl
  have hsteady : Steady id [.polled 0, .selectAsked 0 0 0, .selectRead, .completed, .polled 4096,
    .selectAsked 0 16 4096, .selectRead, .created [16]] := (h _ hrun).steady 24
  have hcontra := (List.pairwise_cons.mp hsteady).1 (.polled 4096) (by simp) 4096 0 rfl (by decide) rfl
  exact absurd hcontra.2 (by decide)

end Olive
