import Olive.GenSuspects

/-! The two closures of the suspect records only add facts, and end. -/

namespace Olive

open UntilStable RoundRobin

/-- The flags and roots of a record that the closures add to. -/
def suspectFacts (s : SuspectInfo) : Finset (Nat ⊕ Local) :=
  (if s.suspect then {.inl 0} else ∅) ∪ (if s.isUnknown then {.inl 1} else ∅) ∪
    (if s.borrowSpan.isSome then {.inl 2} else ∅) ∪ s.roots.image .inr

/-- Every fact a record with these roots can have. -/
def suspectUniverse (locals : Finset Local) : Finset (Nat ⊕ Local) :=
  suspectFacts ⟨true, true, locals, some .default⟩

theorem mem_flag {α : Type} [DecidableEq α] {flag : Bool} {x y : α} :
    x ∈ (if flag then {y} else ∅ : Finset α) ↔ flag = true ∧ x = y := by
  cases flag with
  | false => simp
  | true => simp

theorem mem_suspectFacts {s : SuspectInfo} {fact : Nat ⊕ Local} : fact ∈ suspectFacts s ↔
    s.suspect = true ∧ fact = .inl 0 ∨ s.isUnknown = true ∧ fact = .inl 1 ∨
      s.borrowSpan.isSome = true ∧ fact = .inl 2 ∨ ∃ r ∈ s.roots, .inr r = fact := by
  simp only [suspectFacts, Finset.mem_union, mem_flag, Finset.mem_image, or_assoc]

theorem suspectFacts_subset_iff {s t : SuspectInfo} : suspectFacts s ⊆ suspectFacts t ↔
    (s.suspect = true → t.suspect = true) ∧ (s.isUnknown = true → t.isUnknown = true) ∧
      (s.borrowSpan.isSome = true → t.borrowSpan.isSome = true) ∧ s.roots ⊆ t.roots := by
  constructor
  · intro h
    have hsub {fact : Nat ⊕ Local} (hf : fact ∈ suspectFacts s) := mem_suspectFacts.mp (h hf)
    refine ⟨fun hs => ?_, fun hs => ?_, fun hs => ?_, fun r hr => ?_⟩
    · simpa using hsub (mem_suspectFacts.mpr (.inl ⟨hs, rfl⟩))
    · simpa using hsub (mem_suspectFacts.mpr (.inr (.inl ⟨hs, rfl⟩)))
    · simpa using hsub (mem_suspectFacts.mpr (.inr (.inr (.inl ⟨hs, rfl⟩))))
    · simpa using hsub (mem_suspectFacts.mpr (.inr (.inr (.inr ⟨r, hr, rfl⟩))))
  · rintro ⟨hsuspect, hunknown, hspan, hroots⟩ fact hf
    rw [mem_suspectFacts] at hf ⊢
    obtain ⟨hs, hfact⟩ | ⟨hs, hfact⟩ | ⟨hs, hfact⟩ | ⟨r, hr, hfact⟩ := hf
    · exact .inl ⟨hsuspect hs, hfact⟩
    · exact .inr (.inl ⟨hunknown hs, hfact⟩)
    · exact .inr (.inr (.inl ⟨hspan hs, hfact⟩))
    · exact .inr (.inr (.inr ⟨r, hroots hr, hfact⟩))

theorem suspectFacts_subset_universe {s : SuspectInfo} {locals : Finset Local}
    (h : s.roots ⊆ locals) : suspectFacts s ⊆ suspectUniverse locals :=
  suspectFacts_subset_iff.mpr ⟨fun _ => rfl, fun _ => rfl, fun _ => rfl, h⟩

theorem suspectUniverse_card (locals : Finset Local) :
    (suspectUniverse locals).card ≤ locals.card + 3 := by
  have h3 : suspectUniverse locals =
      ({.inl 0} ∪ {.inl 1} ∪ {.inl 2}) ∪ locals.image .inr := rfl
  have himage := Finset.card_image_le (s := locals) (f := (Sum.inr : Local → Nat ⊕ Local))
  rw [h3]
  refine (Finset.card_union_le _ _).trans ?_
  have hflags : ({.inl 0} ∪ {.inl 1} ∪ {.inl 2} : Finset (Nat ⊕ Local)).card ≤ 3 := by decide
  omega

/-- The closures keep `n` records whose roots are among `locals`. -/
def RootsIn (locals : Finset Local) (s : SuspectInfo) : Prop := s.roots ⊆ locals

theorem rootsIn_getD {locals : Finset Local} {n : Nat} {info : List SuspectInfo}
    (h : Valued (RootsIn locals) n info) (x : Local) :
    (info.getD x .default).roots ⊆ locals := by
  rw [List.getD_eq_getElem?_getD]
  cases hx : info[x]? with
  | none => exact Finset.empty_subset _
  | some s => exact h.values x s hx

theorem rootUniverse_valued (info : List SuspectInfo) :
    Valued (RootsIn (rootUniverse info)) info.length info := by
  refine ⟨rfl, ?_⟩
  intro b s hs
  have hmem := List.mem_of_getElem? hs
  clear hs
  induction info with
  | nil => simp at hmem
  | cons t info ih =>
    have hcons : rootUniverse (t :: info) = t.roots ∪ rootUniverse info := rfl
    rw [RootsIn, hcons]
    rcases List.mem_cons.mp hmem with rfl | hmem
    · exact Finset.subset_union_left
    · exact (ih hmem).trans Finset.subset_union_right

theorem closed_rootsIn {locals : Finset Local} {n : Nat} {info : List SuspectInfo}
    (h : Valued (RootsIn locals) n info) (i : Local) : RootsIn locals (closed info i) := by
  refine Finset.union_subset (rootsIn_getD h i) (Finset.biUnion_subset.mpr ?_)
  exact fun r _ => (Finset.erase_subset _ _).trans (rootsIn_getD h r)

theorem closed_eq {info : List SuspectInfo} {i : Local} {s : SuspectInfo}
    (h : info[i]? = some s) : closed info i =
      { s with
        isUnknown := s.isUnknown ||
          decide (∃ r ∈ s.roots.erase i, (info.getD r .default).isUnknown = true)
        roots := s.roots ∪ (s.roots.erase i).biUnion fun r => (info.getD r .default).roots.erase i } := by
  rw [← getD_of_some h]
  rfl

theorem closed_grows {info : List SuspectInfo} {i : Local} {s : SuspectInfo}
    (h : info[i]? = some s) : suspectFacts s ⊆ suspectFacts (closed info i) := by
  rw [closed_eq h]
  exact suspectFacts_subset_iff.mpr ⟨id, fun hs => Bool.or_eq_true_iff.mpr (.inl hs), id,
    Finset.subset_union_left⟩

theorem closeRoots_exists (info : List SuspectInfo) :
    ∃ r, closeRoots info (suspectBudget info) = some r := by
  have hcard := suspectUniverse_card (rootUniverse info)
  refine solve_exists_of_growing suspectFacts (RootsIn (rootUniverse info))
    (suspectUniverse (rootUniverse info)) (P := fun _ => True)
    (fun _ h => suspectFacts_subset_universe h) ?_ (fun _ b hv => closed_rootsIn hv b)
    (fun _ _ _ _ => trivial) (fun _ _ _ b s hs => closed_grows hs) (rootUniverse_valued info)
    trivial ?_
  · intro out b s _ hs he
    obtain ⟨_, hu, _, hr⟩ := suspectFacts_subset_iff.mp he.symm.subset
    obtain ⟨_, hu', _, hr'⟩ := suspectFacts_subset_iff.mp he.subset
    have hroots := Finset.Subset.antisymm hr' hr
    have hunknown := Bool.eq_iff_iff.mpr ⟨hu', hu⟩
    calc s = { s with isUnknown := (closed out b).isUnknown, roots := (closed out b).roots } := by
          rw [← hunknown, ← hroots]
      _ = closed out b := by rw [closed_eq hs]
  · exact Nat.lt_succ_of_le (Nat.mul_le_mul_left _ hcard)

theorem aliased_rootsIn {locals : Finset Local} {n : Nat} {info : List SuspectInfo}
    (h : Valued (RootsIn locals) n info) (x y : Local) : RootsIn locals (aliased info x y) :=
  Finset.union_subset (rootsIn_getD h x) ((Finset.erase_subset _ _).trans (rootsIn_getD h y))

theorem aliased_eq {info : List SuspectInfo} {x : Local} {s : SuspectInfo}
    (h : info[x]? = some s) (y : Local) : ∃ t : SuspectInfo, aliased info x y =
      ⟨s.suspect || t.suspect, s.isUnknown || t.isUnknown, s.roots ∪ t.roots.erase x,
        s.borrowSpan.or t.borrowSpan⟩ := by
  refine ⟨info.getD y .default, ?_⟩
  rw [← getD_of_some h]
  rfl

theorem aliased_grows {info : List SuspectInfo} {x : Local} {s : SuspectInfo}
    (h : info[x]? = some s) (y : Local) :
    suspectFacts s ⊆ suspectFacts (aliased info x y) := by
  obtain ⟨t, ht⟩ := aliased_eq h y
  rw [ht]
  refine suspectFacts_subset_iff.mpr ⟨?_, ?_, ?_, Finset.subset_union_left⟩
  · exact fun hs => Bool.or_eq_true_iff.mpr (.inl hs)
  · exact fun hs => Bool.or_eq_true_iff.mpr (.inl hs)
  · exact fun hs => by simp [hs]

theorem aliased_unchanged {info : List SuspectInfo} {x : Local} {s : SuspectInfo}
    (h : info[x]? = some s) {y : Local} (hle : suspectFacts (aliased info x y) ⊆ suspectFacts s) :
    aliased info x y = s := by
  obtain ⟨t, ht⟩ := aliased_eq h y
  rw [ht] at hle ⊢
  obtain ⟨hs, hu, hb, hr⟩ := suspectFacts_subset_iff.mp hle
  obtain ⟨suspect, isUnknown, roots, borrowSpan⟩ := s
  have hroots : roots ∪ t.roots.erase x = roots :=
    Finset.Subset.antisymm hr Finset.subset_union_left
  simp only [hroots, SuspectInfo.mk.injEq, true_and]
  refine ⟨?_, ?_, ?_⟩
  · cases suspect <;> simp_all
  · cases isUnknown <;> simp_all
  · cases borrowSpan with
    | some span => rfl
    | none => simpa using hb

theorem aliasInto_cases (info : List SuspectInfo) (pair : Local × Local) :
    info[pair.1]? = some (aliased info pair.1 pair.2) ∧ aliasInto info pair = (info, false) ∨
      info[pair.1]? ≠ some (aliased info pair.1 pair.2) ∧
        aliasInto info pair = (info.set pair.1 (aliased info pair.1 pair.2), true) := by
  by_cases h : info[pair.1]? = some (aliased info pair.1 pair.2)
  · exact .inl ⟨h, if_pos h⟩
  · exact .inr ⟨h, if_neg h⟩

theorem aliasInto_valued {locals : Finset Local} {n : Nat} {info : List SuspectInfo}
    (h : Valued (RootsIn locals) n info) (pair : Local × Local) :
    Valued (RootsIn locals) n (aliasInto info pair).1 := by
  obtain ⟨-, heq⟩ | ⟨-, heq⟩ := aliasInto_cases info pair
  · rwa [heq]
  · rw [heq]
    refine ⟨by simpa using h.length, ?_⟩
    intro b s hs
    rcases List.mem_or_eq_of_mem_set (List.mem_of_getElem? hs) with hmem | rfl
    · obtain ⟨c, hc⟩ := List.mem_iff_getElem?.mp hmem
      exact h.values c s hc
    · exact aliased_rootsIn h _ _

theorem aliasInto_facts_ssubset {locals : Finset Local} {n : Nat} {info : List SuspectInfo}
    (h : Valued (RootsIn locals) n info) {pair : Local × Local} (hx : pair.1 < n)
    (hc : (aliasInto info pair).2 = true) :
    stateFacts suspectFacts (suspectUniverse locals) n info ⊂
      stateFacts suspectFacts (suspectUniverse locals) n (aliasInto info pair).1 := by
  have hlt : pair.1 < info.length := h.length ▸ hx
  have hget := List.getElem?_eq_getElem hlt
  obtain ⟨-, heq⟩ | ⟨hn, heq⟩ := aliasInto_cases info pair
  · rw [heq] at hc
    cases hc
  · rw [heq]
    refine stateFacts_set_ssubset hx hget
      (suspectFacts_subset_universe (aliased_rootsIn h _ _)) (aliased_grows hget _) ?_
    intro hsub
    exact hn (hget.trans (congrArg some (aliased_unchanged hget hsub).symm))

theorem mergeAliases_exists {info : List SuspectInfo} {aliases : List (Local × Local)}
    (hin : ∀ p ∈ aliases, p.1 < info.length ∧ p.2 < info.length) :
    ∃ r, mergeAliases info aliases (suspectBudget info) = some r ∧ r.length = info.length := by
  let locals := rootUniverse info
  let facts := stateFacts suspectFacts (suspectUniverse locals) info.length
  let pairs := aliases.flatMap fun p => [(p.1, p.2), (p.2, p.1)]
  have hpairs : ∀ p ∈ pairs, p.1 < info.length := by
    intro p hp
    obtain ⟨q, hq, hm⟩ := List.mem_flatMap.mp hp
    rcases List.mem_pair.mp hm with rfl | rfl
    · exact (hin q hq).1
    · exact (hin q hq).2
  have hvalued : ∀ s, ∀ p ∈ pairs, Valued (RootsIn locals) info.length s →
      Valued (RootsIn locals) info.length (aliasInto s p).1 := fun s p _ h => aliasInto_valued h p
  have hround : ∀ s, Valued (RootsIn locals) info.length s →
      Valued (RootsIn locals) info.length (sweep aliasInto pairs s).1 := fun s h =>
    sweep_invariant hvalued h
  have hlt : ∀ s, ∀ p ∈ pairs, Valued (RootsIn locals) info.length s →
      (aliasInto s p).2 = true → facts s ⊂ facts (aliasInto s p).1 := fun s p hp h hc =>
    aliasInto_facts_ssubset h (hpairs p hp) hc
  have hle : ∀ s, ∀ p ∈ pairs, Valued (RootsIn locals) info.length s →
      facts s ⊆ facts (aliasInto s p).1 := by
    intro s p hp h
    cases hc : (aliasInto s p).2 with
    | true => exact (hlt s p hp h hc).subset
    | false =>
      obtain ⟨-, heq⟩ | ⟨-, heq⟩ := aliasInto_cases s p
      · rw [heq]
      · rw [heq] at hc
        cases hc
  have h0 := rootUniverse_valued info
  have hcard := suspectUniverse_card locals
  have hbudget : (Finset.range info.length ×ˢ suspectUniverse locals).card < suspectBudget info := by
    rw [Finset.card_product, Finset.card_range]
    exact Nat.lt_succ_of_le (Nat.mul_le_mul_left _ hcard)
  obtain ⟨r, hr⟩ := untilStable_exists_of_grows facts hround
    (fun s _ => stateFacts_subset suspectFacts (suspectUniverse locals) info.length s)
    (fun s h => (sweep_grows facts hvalued hle hlt h).2) h0 hbudget
  exact ⟨r, hr, (untilStable_invariant hround h0 hr).length⟩

theorem escape_length (tracked : List Bool) (span : Span) (owner : Option Local)
    (info : List SuspectInfo) (op : Operand) :
    (escape tracked span owner info op).length = info.length := by
  unfold escape
  split
  · split <;> simp
  · rfl

theorem escapeFold_length (tracked : List Bool) (span : Span) (owner : Option Local)
    (ops : List Operand) (info : List SuspectInfo) :
    (ops.foldl (escape tracked span owner) info).length = info.length := by
  induction ops generalizing info with
  | nil => rfl
  | cons op ops ih => exact (ih _).trans (escape_length _ _ _ _ _)

theorem escapeStmt_length (pass : GenCheckInsertion) (tracked : List Bool)
    (info : List SuspectInfo) (stmt : Statement) :
    (pass.escapeStmt tracked info stmt).length = info.length := by
  unfold GenCheckInsertion.escapeStmt
  split
  · exact escape_length _ _ _ _ _
  · exact escape_length _ _ _ _ _
  · split
    · rfl
    · exact escapeFold_length _ _ _ _ _
  · exact escapeFold_length _ _ _ _ _
  · rfl

theorem lt_of_getD_true {flags : List Bool} {l : Nat} (h : flags.getD l false = true) :
    l < flags.length := by
  by_contra hl
  simp [List.getD_eq_getElem?_getD, List.getElem?_eq_none (Nat.le_of_not_lt hl)] at h

theorem defineStmt_spec (pass : GenCheckInsertion) (tracked : List Bool)
    (info : List SuspectInfo) (stmt : Statement) :
    (pass.defineStmt tracked info stmt).1.length = info.length ∧
      ∀ p ∈ (pass.defineStmt tracked info stmt).2, p.1 < tracked.length ∧ p.2 < tracked.length := by
  unfold GenCheckInsertion.defineStmt
  split
  next dst rval hk =>
    split
    · simp
    next hd =>
      obtain ⟨_, hdst⟩ : ¬dst = 0 ∧ tracked.getD dst false = true := by simpa using hd
      have hlt := lt_of_getD_true hdst
      dsimp only
      split
      · split
        next hs => simpa using ⟨hlt, lt_of_getD_true hs.1⟩
        next => simp
      · split
        next hs => simpa using ⟨hlt, lt_of_getD_true hs.1⟩
        next => simp
      · simp
      · simp
      · simp
      · simp
      · split <;> simp
      · simp
  · simp

theorem collectSuspects_spec (pass : GenCheckInsertion) (f : MirFunction) :
    (pass.collectSuspects f).1.length = f.locals.length ∧
      ∀ p ∈ (pass.collectSuspects f).2, p.1 < f.locals.length ∧ p.2 < f.locals.length := by
  unfold GenCheckInsertion.collectSuspects
  dsimp only
  refine List.foldlRecOn (motive := fun acc : List SuspectInfo × List (Local × Local) =>
    acc.1.length = f.locals.length ∧ ∀ p ∈ acc.2, p.1 < f.locals.length ∧ p.2 < f.locals.length)
    f.statements _ (by simp) ?_
  rintro ⟨info, aliases⟩ ⟨hlen, hin⟩ stmt _
  have hdef := defineStmt_spec pass (trackedLocals f)
    (pass.escapeStmt (trackedLocals f) info stmt) stmt
  refine ⟨hdef.1.trans ((escapeStmt_length _ _ _ _).trans hlen), ?_⟩
  intro p hp
  rcases List.mem_append.mp hp with hp | hp
  · exact hin p hp
  · simpa [trackedLocals] using hdef.2 p hp

theorem suspectInfo_exists (pass : GenCheckInsertion) (f : MirFunction) :
    ∃ info, pass.suspectInfo f = some info := by
  obtain ⟨hlen, hin⟩ := collectSuspects_spec pass f
  rw [← hlen] at hin
  obtain ⟨merged, hm, _⟩ := mergeAliases_exists hin
  obtain ⟨info, hi⟩ := closeRoots_exists merged
  exact ⟨info, by simp [GenCheckInsertion.suspectInfo, hm, hi]⟩

end Olive
