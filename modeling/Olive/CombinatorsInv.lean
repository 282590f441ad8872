import Mathlib.Data.List.Infix
import Olive.Combinators

/-! What holds of futures between two polls. -/

namespace Olive

variable {σ α : Type} {rank : Word → Nat} {val : Word → α} {w w' : FutureWorld σ}

/-- Once a poll has returned a value, every later poll returns an equal one. -/
def Steady (val : Word → α) (history : List FutureEvent) : Prop :=
  history.Pairwise fun newer older => ∀ v r, older = .polled v → v ≠ pollPending →
    newer = .polled r → r ≠ pollPending ∧ val r = val v

/-- No future is polled again after its poll has returned a value. -/
def AskedOnce (history : List FutureEvent) : Prop :=
  history.Pairwise fun newer older => ∀ i sub r sub' r', older = .gatherAsked i sub r →
    r ≠ pollPending → newer ≠ .gatherAsked i sub' r'

/-- The list of futures is not read after the executor has overwritten its address. -/
def GatherUnread (history : List FutureEvent) : Prop :=
  history.Pairwise fun newer older => older = .completed → newer ≠ .gatherRead

/-- A select is not polled after `executor_complete` has run on it, and when it is polled again, the
futures before the one whose value it has returned have become ready with that value only. -/
def SelectKept (val : Word → α) (history : List FutureEvent) : Prop :=
  history.Pairwise fun newer older => (older = .completed → newer ≠ .selectRead) ∧
    ∀ k sub v i sub' r, older = .selectAsked k sub v → v ≠ pollPending →
      newer = .selectAsked i sub' r → r ≠ pollPending → i < k → val r = val v

/-- What happened in the last poll, newest first, when each poll starts with `read`. -/
def sinceRead (read : FutureEvent) (history : List FutureEvent) : List FutureEvent :=
  history.takeWhile (· ≠ read)

/-- A gather over the futures `fs` with the results `cs` so far. -/
structure GatherInv (rank : Word → Nat) (w : FutureWorld σ) (g : Word) (f : GatherFrame)
    (fs cs : List Word) : Prop where
  made : (w.history g).getLast? = some (.created fs)
  ranked : ∀ sub ∈ fs, rank sub < rank g
  address : f.results ≠ pollPending
  cells : w.lists f.results = some cs
  length : cs.length = fs.length
  list : .completed ∉ w.history g → w.lists f.futuresList = some fs
  done : .completed ∈ w.history g → f.state = -1
  full : f.state = -1 → ∀ c ∈ cs, c ≠ pollPending
  asked : ∀ i sub r, .gatherAsked i sub r ∈ w.history g →
    fs[i]? = some sub ∧ .polled r ∈ w.history sub ∧ (r ≠ pollPending → cs[i]? = some r)
  cell : ∀ i c, cs[i]? = some c → c ≠ pollPending →
    ∃ sub, .gatherAsked i sub c ∈ w.history g
  once : AskedOnce (w.history g)
  unread : GatherUnread (w.history g)
  answered : ∀ r, .polled r ∈ w.history g → r ≠ pollPending → f.state = -1 ∧ r = f.results
  pending : ∀ earlier, .polled pollPending :: earlier <:+ w.history g →
    ∃ i sub, .gatherAsked i sub pollPending ∈ sinceRead .gatherRead earlier
  ready : ∀ earlier r, r ≠ pollPending → .polled r :: earlier <:+ w.history g →
    ∀ i < fs.length, ∃ sub c, .gatherAsked i sub c ∈ earlier ∧ c ≠ pollPending

/-- A select over the futures `fs`. -/
structure SelectInv (rank : Word → Nat) (w : FutureWorld σ) (s : Word) (f : SelectFrame)
    (fs : List Word) : Prop where
  made : (w.history s).getLast? = some (.created fs)
  ranked : ∀ sub ∈ fs, rank sub < rank s
  list : .completed ∉ w.history s → w.lists f.futuresList = some fs
  asked : ∀ i sub r, .selectAsked i sub r ∈ w.history s →
    fs[i]? = some sub ∧ .polled r ∈ w.history sub
  chosen : ∀ earlier v, v ≠ pollPending → .polled v :: earlier <:+ w.history s →
    ∃ i sub, .selectAsked i sub v ∈ sinceRead .selectRead earlier
  pending : ∀ earlier, .polled pollPending :: earlier <:+ w.history s → ∀ i < fs.length,
    ∃ sub, .selectAsked i sub pollPending ∈ sinceRead .selectRead earlier

def ObjInv (rank : Word → Nat) (val : Word → α) (w : FutureWorld σ) (f : Word) :
    FutureObj σ → Prop
  | .plain result => ∀ v, .polled v ∈ w.history f → v ≠ pollPending → result = some v
  | .machine state slot => ∀ v, .polled v ∈ w.history f → v ≠ pollPending →
      state.isNone ∧ slot ≠ pollPending ∧ val slot = val v
  | .gather frame => ∃ fs cs, GatherInv rank w f frame fs cs
  | .select frame => ∃ fs, SelectInv rank w f frame fs

structure FutureInv (rank : Word → Nat) (val : Word → α) (w : FutureWorld σ) : Prop where
  obj : ∀ f o, w.futures f = some o → ObjInv rank val w f o
  absent : ∀ f, w.futures f = none → f ≠ 0 → w.history f = []
  zero : w.futures 0 = none ∧ ∀ e ∈ w.history 0, e = .polled 0
  results : ∀ g g' f f', w.futures g = some (.gather f) → w.futures g' = some (.gather f') →
    f.results = f'.results → g = g'
  gatherApart : ∀ g g' f f', w.futures g = some (.gather f) → w.futures g' = some (.gather f') →
    f.state ≠ -1 → .completed ∉ w.history g' → f'.futuresList ≠ f.results
  selectApart : ∀ g s f f', w.futures g = some (.gather f) → w.futures s = some (.select f') →
    f.state ≠ -1 → .completed ∉ w.history s → f'.futuresList ≠ f.results
  steady : ∀ f, Steady val (w.history f)
  finishing : ∀ p ∈ w.finishing, p.2 ≠ pollPending ∧ .polled p.2 ∈ w.history p.1

/-- What a poll may not change of a future: what it is, where its lists are, that it is done. -/
def FutureObj.Follows (o' o : FutureObj σ) : Prop :=
  match o with
  | .plain result => o' = .plain result
  | .machine none slot => o' = .machine none slot
  | .machine (some _) _ => ∃ state slot, o' = .machine state slot
  | .gather f => ∃ state, o' = .gather { f with state := state } ∧ (f.state = -1 → state = -1)
  | .select f => o' = .select f

theorem FutureObj.Follows.refl (o : FutureObj σ) : o.Follows o := by
  cases o with
  | plain result => rfl
  | machine state slot =>
    cases state with
    | none => rfl
    | some s => exact ⟨some s, slot, rfl⟩
  | gather f => exact ⟨f.state, rfl, id⟩
  | select f => rfl

theorem FutureObj.Follows.trans {o o' o'' : FutureObj σ} (h : o'.Follows o) (h' : o''.Follows o') :
    o''.Follows o := by
  cases o with
  | plain result =>
    cases h
    exact h'
  | machine state slot =>
    cases state with
    | none =>
      cases h
      exact h'
    | some s =>
      obtain ⟨state', slot', rfl⟩ := h
      cases state' with
      | none => exact ⟨none, slot', h'⟩
      | some s' => exact h'
  | gather f =>
    obtain ⟨state, rfl, hdone⟩ := h
    obtain ⟨state', rfl, hdone'⟩ := h'
    exact ⟨state', rfl, fun hf => hdone' (hdone hf)⟩
  | select f =>
    cases h
    exact h'

/-- Histories only grow. -/
def FutureWorld.Extends (w w' : FutureWorld σ) : Prop := ∀ f, w.history f <:+ w'.history f

theorem FutureWorld.Extends.refl (w : FutureWorld σ) : w.Extends w := fun _ => List.suffix_refl _

theorem FutureWorld.Extends.trans {w'' : FutureWorld σ} (h : w.Extends w') (h' : w'.Extends w'') :
    w.Extends w'' := fun f => (h f).trans (h' f)

theorem FutureWorld.extends_record (w : FutureWorld σ) (f : Word) (e : FutureEvent) :
    w.Extends (w.record f e) := by
  intro h
  simp only [FutureWorld.record]
  rcases eq_or_ne h f with rfl | hne
  · rw [Function.update_self]
    exact List.suffix_cons ..
  · rw [Function.update_of_ne hne]

/-- All selects are used as they have to be. -/
def FutureWorld.Kept (val : Word → α) (w : FutureWorld σ) : Prop :=
  ∀ f, SelectKept val (w.history f)

theorem FutureWorld.Kept.of_extends (hk : w'.Kept val) (h : w.Extends w') : w.Kept val :=
  fun f => (hk f).sublist (h f).sublist

/-- What a poll of a future whose rank is below `n` leaves as it was. -/
structure Grows (rank : Word → Nat) (n : Nat) (w w' : FutureWorld σ) : Prop where
  futures : ∀ h, n ≤ rank h → w'.futures h = w.futures h
  history : ∀ h, n ≤ rank h → w'.history h = w.history h
  longer : w.Extends w'
  lists : ∀ a cs, w.lists a = some cs → (∀ g f, w.futures g = some (.gather f) → rank g < n →
    f.state ≠ -1 → f.results ≠ a) → w'.lists a = some cs
  kind : ∀ h o, w.futures h = some o → ∃ o', w'.futures h = some o' ∧ o'.Follows o
  absent : ∀ h, w.futures h = none → w'.futures h = none
  finishing : w'.finishing = w.finishing

theorem Grows.refl (n : Nat) (w : FutureWorld σ) : Grows rank n w w where
  futures _ _ := rfl
  history _ _ := rfl
  longer := .refl w
  lists _ _ h _ := h
  kind _ o h := ⟨o, h, .refl o⟩
  absent _ h := h
  finishing := rfl

/-- An unfinished gather was one before. -/
theorem Grows.gather_before {n : Nat} (h : Grows rank n w w') {g : Word} {f : GatherFrame}
    (hg : w'.futures g = some (.gather f)) (hf : f.state ≠ -1) :
    ∃ f', w.futures g = some (.gather f') ∧ f'.state ≠ -1 ∧ f'.results = f.results := by
  cases hw : w.futures g with
  | none => simp [h.absent g hw] at hg
  | some o =>
    obtain ⟨o', ho', hfol⟩ := h.kind g o hw
    rw [hg] at ho'
    cases ho'
    cases o with
    | plain result => cases hfol
    | machine state slot =>
      cases state with
      | none => cases hfol
      | some s =>
        obtain ⟨_, _, heq⟩ := hfol
        cases heq
    | gather f' =>
      obtain ⟨state, heq, hdone⟩ := hfol
      cases heq
      exact ⟨f', rfl, fun hd => hf (hdone hd), rfl⟩
    | select f' => cases hfol

theorem Grows.trans {n : Nat} {w'' : FutureWorld σ} (h : Grows rank n w w')
    (h' : Grows rank n w' w'') : Grows rank n w w'' where
  futures a ha := (h'.futures a ha).trans (h.futures a ha)
  history a ha := (h'.history a ha).trans (h.history a ha)
  longer := h.longer.trans h'.longer
  lists a cs hcs hout := by
    refine h'.lists a cs (h.lists a cs hcs hout) fun g f hg hr hf => ?_
    obtain ⟨f', hg', hf', heq⟩ := h.gather_before hg hf
    exact heq ▸ hout g f' hg' hr hf'
  kind a o ho := by
    obtain ⟨o', ho', hfol⟩ := h.kind a o ho
    obtain ⟨o'', ho'', hfol'⟩ := h'.kind a o' ho'
    exact ⟨o'', ho'', hfol.trans hfol'⟩
  absent a ha := h'.absent a (h.absent a ha)
  finishing := h'.finishing.trans h.finishing

theorem Grows.weaken {n m : Nat} (h : Grows rank n w w') (hle : n ≤ m) : Grows rank m w w' where
  futures a ha := h.futures a (hle.trans ha)
  history a ha := h.history a (hle.trans ha)
  longer := h.longer
  lists a cs hcs hout := h.lists a cs hcs fun g f hg hr => hout g f hg (Nat.lt_of_lt_of_le hr hle)
  kind := h.kind
  absent := h.absent
  finishing := h.finishing

theorem Grows.record (w : FutureWorld σ) (f : Word) (e : FutureEvent) :
    Grows rank (rank f + 1) w (w.record f e) where
  futures _ _ := rfl
  history h hh := by
    have hne : h ≠ f := fun heq => by
      subst heq
      omega
    exact Function.update_of_ne hne ..
  longer := w.extends_record f e
  lists _ _ h _ := h
  kind _ o h := ⟨o, h, .refl o⟩
  absent _ h := h
  finishing := rfl

theorem Grows.setFuture {f : Word} {o o' : FutureObj σ} (hf : w.futures f = some o)
    (hfol : o'.Follows o) : Grows rank (rank f + 1) w (w.setFuture f o') where
  futures h hh := by
    have hne : h ≠ f := fun heq => by
      subst heq
      omega
    exact Function.update_of_ne hne ..
  history _ _ := rfl
  longer := .refl _
  lists _ _ h _ := h
  kind h p hp := by
    rcases eq_or_ne h f with rfl | hne
    · rw [hf] at hp
      cases hp
      exact ⟨o', Function.update_self .., hfol⟩
    · exact ⟨p, (Function.update_of_ne hne ..).trans hp, .refl p⟩
  absent h hh := by
    have hne : h ≠ f := fun heq => by
      subst heq
      simp [hf] at hh
    exact (Function.update_of_ne hne ..).trans hh
  finishing := rfl

theorem Grows.setList {g a : Word} {f : GatherFrame} (hg : w.futures g = some (.gather f))
    (hf : f.state ≠ -1) (ha : f.results = a) (cs : List Word) :
    Grows rank (rank g + 1) w (w.setList a cs) where
  futures _ _ := rfl
  history _ _ := rfl
  longer := .refl _
  lists b cs' hcs hout := by
    have hne : b ≠ a := fun heq => hout g f hg (Nat.lt_succ_self _) hf (ha.trans heq.symm)
    exact (Function.update_of_ne hne ..).trans hcs
  kind _ o h := ⟨o, h, .refl o⟩
  absent _ h := h
  finishing := rfl

/-- The lists that the invariant of a future is about. -/
def FutureObj.Reads (history : List FutureEvent) : FutureObj σ → Word → Prop
  | .gather f, a => a = f.results ∨ (.completed ∉ history ∧ a = f.futuresList)
  | .select f, a => .completed ∉ history ∧ a = f.futuresList
  | _, _ => False

theorem ObjInv.mono {f : Word} {o : FutureObj σ} (h : ObjInv rank val w f o)
    (hhist : w'.history f = w.history f) (hext : w.Extends w')
    (hlists : ∀ a, o.Reads (w.history f) a → w'.lists a = w.lists a) :
    ObjInv rank val w' f o := by
  have hmem : ∀ sub e, e ∈ w.history sub → e ∈ w'.history sub :=
    fun sub e he => (hext sub).subset he
  cases o with
  | plain result =>
    simp only [ObjInv, hhist]
    exact h
  | machine state slot =>
    simp only [ObjInv, hhist]
    exact h
  | gather frame =>
    obtain ⟨fs, cs, hg⟩ := h
    refine ⟨fs, cs, ?_⟩
    exact {
      made := hhist ▸ hg.made
      ranked := hg.ranked
      address := hg.address
      cells := (hlists _ (.inl rfl)).trans hg.cells
      length := hg.length
      list := fun hc => by
        rw [hhist] at hc
        exact (hlists _ (.inr ⟨hc, rfl⟩)).trans (hg.list hc)
      done := hhist ▸ hg.done
      full := hg.full
      asked := fun i sub r ha => by
        obtain ⟨hfs, hpolled, hcs⟩ := hg.asked i sub r (hhist ▸ ha)
        exact ⟨hfs, hmem sub _ hpolled, hcs⟩
      cell := hhist ▸ hg.cell
      once := hhist ▸ hg.once
      unread := hhist ▸ hg.unread
      answered := hhist ▸ hg.answered
      pending := hhist ▸ hg.pending
      ready := hhist ▸ hg.ready }
  | select frame =>
    obtain ⟨fs, hs⟩ := h
    refine ⟨fs, ?_⟩
    exact {
      made := hhist ▸ hs.made
      ranked := hs.ranked
      list := fun hc => by
        rw [hhist] at hc
        exact (hlists _ ⟨hc, rfl⟩).trans (hs.list hc)
      asked := fun i sub r ha => by
        obtain ⟨hfs, hpolled⟩ := hs.asked i sub r (hhist ▸ ha)
        exact ⟨hfs, hmem sub _ hpolled⟩
      chosen := hhist ▸ hs.chosen
      pending := hhist ▸ hs.pending }

/-- What a step may not change of a future, with its first list kept as long as `executor_complete`
has not run on it. -/
def FutureObj.Moved (completed : Prop) (o' o : FutureObj σ) : Prop :=
  match o with
  | .plain _ => ∃ result, o' = .plain result
  | .machine _ _ => ∃ state slot, o' = .machine state slot
  | .gather f => ∃ f', o' = .gather f' ∧ f'.results = f.results ∧
      (¬ completed → f'.futuresList = f.futuresList) ∧ (f.state = -1 → f'.state = -1)
  | .select f => ∃ f', o' = .select f' ∧ (¬ completed → f' = f)

theorem FutureObj.Follows.moved {o o' : FutureObj σ} (h : o'.Follows o) (completed : Prop) :
    o'.Moved completed o := by
  cases o with
  | plain result => exact ⟨result, h⟩
  | machine state slot =>
    cases state with
    | none => exact ⟨none, slot, h⟩
    | some s => exact h
  | gather f =>
    obtain ⟨state, rfl, hdone⟩ := h
    exact ⟨_, rfl, rfl, fun _ => rfl, hdone⟩
  | select f => exact ⟨f, h, fun _ => rfl⟩

theorem FutureObj.Moved.gather_before {completed : Prop} {o : FutureObj σ} {f : GatherFrame}
    (h : (FutureObj.gather f).Moved completed o) : ∃ f', o = .gather f' ∧ f'.results = f.results ∧
      (¬ completed → f'.futuresList = f.futuresList) ∧ (f.state ≠ -1 → f'.state ≠ -1) := by
  cases o with
  | plain result =>
    obtain ⟨_, heq⟩ := h
    cases heq
  | machine state slot =>
    obtain ⟨_, _, heq⟩ := h
    cases heq
  | gather f' =>
    obtain ⟨_, heq, hresults, hlist, hdone⟩ := h
    cases heq
    exact ⟨f', rfl, hresults.symm, fun hc => (hlist hc).symm, fun hf hd => hf (hdone hd)⟩
  | select f' =>
    obtain ⟨_, heq, _⟩ := h
    cases heq

theorem FutureObj.Moved.select_before {completed : Prop} {o : FutureObj σ} {f : SelectFrame}
    (h : (FutureObj.select f).Moved completed o) :
    ∃ f', o = .select f' ∧ (¬ completed → f' = f) := by
  cases o with
  | plain result =>
    obtain ⟨_, heq⟩ := h
    cases heq
  | machine state slot =>
    obtain ⟨_, _, heq⟩ := h
    cases heq
  | gather f' =>
    obtain ⟨_, heq, _⟩ := h
    cases heq
  | select f' =>
    obtain ⟨_, heq, hsame⟩ := h
    cases heq
    exact ⟨f', rfl, fun hc => (hsame hc).symm⟩

/-- A change of one future: its frame, its history, and the results of a gather that is not done. -/
theorem FutureInv.change (hi : FutureInv rank val w) {f : Word} {o o' : FutureObj σ}
    (hf : w.futures f = some o) (hf' : w'.futures f = some o')
    (hmoved : o'.Moved (.completed ∈ w'.history f) o)
    (hother : ∀ h, h ≠ f → w'.futures h = w.futures h ∧ w'.history h = w.history h)
    (hext : w.Extends w')
    (hlists : ∀ a, (∀ frame, o = .gather frame → frame.state ≠ -1 → a ≠ frame.results) →
      w'.lists a = w.lists a)
    (hobj : ObjInv rank val w' f o') (hsteady : Steady val (w'.history f))
    (hfin : ∀ q ∈ w'.finishing, q ∈ w.finishing) : FutureInv rank val w' := by
  have hmem : ∀ sub e, e ∈ w.history sub → e ∈ w'.history sub :=
    fun sub e he => (hext sub).subset he
  have hgather : ∀ g frame, w'.futures g = some (.gather frame) → ∃ frame',
      w.futures g = some (.gather frame') ∧ frame'.results = frame.results ∧
        (.completed ∉ w'.history g → frame'.futuresList = frame.futuresList) ∧
        (frame.state ≠ -1 → frame'.state ≠ -1) := by
    intro g frame hg
    rcases eq_or_ne g f with rfl | hne
    · rw [hf'] at hg
      cases hg
      obtain ⟨frame', rfl, hrest⟩ := hmoved.gather_before
      exact ⟨frame', hf, hrest⟩
    · rw [(hother g hne).1] at hg
      exact ⟨frame, hg, rfl, fun _ => rfl, id⟩
  have hselect : ∀ s frame, w'.futures s = some (.select frame) → .completed ∉ w'.history s →
      w.futures s = some (.select frame) := by
    intro s frame hs hc
    rcases eq_or_ne s f with rfl | hne
    · rw [hf'] at hs
      cases hs
      obtain ⟨frame', rfl, hsame⟩ := hmoved.select_before
      rw [hf, hsame hc]
    · rwa [(hother s hne).1] at hs
  have hzero : f ≠ 0 := fun hz => by
    rw [hz, hi.zero.1] at hf
    cases hf
  refine ⟨fun h p hp => ?_, fun h hh h0 => ?_, ?_, fun g g' a a' hg hg' heq => ?_,
    fun g g' a a' hg hg' ha hc => ?_, fun g s a a' hg hs ha hc => ?_, fun h => ?_, ?_⟩
  · rcases eq_or_ne h f with rfl | hne
    · rw [hf'] at hp
      cases hp
      exact hobj
    · rw [(hother h hne).1] at hp
      refine (hi.obj h p hp).mono (hother h hne).2 hext fun a ha => hlists a fun frame ho hstate => ?_
      subst ho
      cases p with
      | plain result => cases ha
      | machine state slot => cases ha
      | gather frame' =>
        rcases ha with rfl | ⟨hc, rfl⟩
        · exact fun heq => hne (hi.results h f _ _ hp hf heq)
        · exact hi.gatherApart f h _ _ hf hp hstate hc
      | select frame' =>
        obtain ⟨hc, rfl⟩ := ha
        exact hi.selectApart f h _ _ hf hp hstate hc
  · rcases eq_or_ne h f with rfl | hne
    · simp [hf'] at hh
    · rw [(hother h hne).2]
      exact hi.absent h ((hother h hne).1 ▸ hh) h0
  · rw [(hother 0 hzero.symm).1, (hother 0 hzero.symm).2]
    exact hi.zero
  · obtain ⟨b, hb, hbr, _⟩ := hgather g a hg
    obtain ⟨b', hb', hbr', _⟩ := hgather g' a' hg'
    exact hi.results g g' b b' hb hb' (hbr.trans (heq.trans hbr'.symm))
  · obtain ⟨b, hb, hbr, _, hstate⟩ := hgather g a hg
    obtain ⟨b', hb', _, hbl, _⟩ := hgather g' a' hg'
    rw [← hbr, ← hbl hc]
    exact hi.gatherApart g g' b b' hb hb' (hstate ha) fun hc' => hc (hmem g' _ hc')
  · obtain ⟨b, hb, hbr, _, hstate⟩ := hgather g a hg
    rw [← hbr]
    exact hi.selectApart g s b a' hb (hselect s a' hs hc) (hstate ha) fun hc' => hc (hmem s _ hc')
  · rcases eq_or_ne h f with rfl | hne
    · exact hsteady
    · rw [(hother h hne).2]
      exact hi.steady h
  · exact fun q hq => ⟨(hi.finishing q (hfin q hq)).1, hmem q.1 _ (hi.finishing q (hfin q hq)).2⟩

theorem record_history_self (w : FutureWorld σ) (f : Word) (e : FutureEvent) :
    (w.record f e).history f = e :: w.history f := Function.update_self ..

theorem record_history_ne (w : FutureWorld σ) {f h : Word} (e : FutureEvent) (hne : h ≠ f) :
    (w.record f e).history h = w.history h := Function.update_of_ne hne ..

theorem steady_cons {h : List FutureEvent} {e : FutureEvent} (hs : Steady val h)
    (he : ∀ r, e ≠ .polled r) : Steady val (e :: h) :=
  List.pairwise_cons.mpr ⟨fun _ _ _ r _ _ hr => absurd hr (he r), hs⟩

theorem sinceRead_cons {e read : FutureEvent} (h : List FutureEvent) (hne : e ≠ read) :
    sinceRead read (e :: h) = e :: sinceRead read h := by
  simp [sinceRead, hne]

theorem mem_of_mem_sinceRead {e read : FutureEvent} {h : List FutureEvent}
    (he : e ∈ sinceRead read h) : e ∈ h := (List.takeWhile_sublist _).subset he

theorem suffix_of_mem {e : FutureEvent} {h : List FutureEvent} (he : e ∈ h) :
    ∃ earlier, e :: earlier <:+ h := by
  obtain ⟨newer, earlier, heq⟩ := List.append_of_mem he
  exact ⟨earlier, newer, heq.symm⟩

/-- Recording what happens to a future, when its own invariant still holds. -/
theorem FutureInv.record (hi : FutureInv rank val w) {f : Word} {o : FutureObj σ} {e : FutureEvent}
    (hf : w.futures f = some o) (hobj : ObjInv rank val (w.record f e) f o)
    (hsteady : Steady val (e :: w.history f)) : FutureInv rank val (w.record f e) :=
  hi.change hf hf ((FutureObj.Follows.refl o).moved _)
    (fun _ hne => ⟨rfl, record_history_ne w e hne⟩) (w.extends_record f e) (fun _ _ => rfl) hobj
    (record_history_self w f e ▸ hsteady) fun _ hq => hq

theorem FutureInv.setFuture (hi : FutureInv rank val w) {f : Word} {o o' : FutureObj σ}
    (hf : w.futures f = some o) (hmoved : o'.Moved (.completed ∈ w.history f) o)
    (hobj : ObjInv rank val w f o') : FutureInv rank val (w.setFuture f o') :=
  hi.change hf (Function.update_self ..) hmoved
    (fun _ hne => ⟨Function.update_of_ne hne .., rfl⟩) (.refl _) (fun _ _ => rfl)
    (ObjInv.mono (w := w) hobj rfl (.refl _) fun _ _ => rfl) (hi.steady f) fun _ hq => hq

end Olive
