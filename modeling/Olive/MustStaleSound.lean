import Mathlib.Logic.Relation
import Olive.MustSettled

namespace Olive

open UntilStable RoundRobin FlowGraph

theorem mem_sortedRoots {roots : Finset Local} {r : Local} :
    r ∈ sortedRoots roots ↔ r ∈ roots := by
  simp only [sortedRoots, List.mem_filter, List.mem_range, decide_eq_true_eq,
    and_iff_right_iff_imp]
  intro h
  exact Nat.lt_succ_of_le (Finset.le_sup (f := id) h)

theorem sortedRoots_length (roots : Finset Local) : (sortedRoots roots).length = roots.card := by
  have hnodup : (sortedRoots roots).Nodup := List.nodup_range.filter _
  rw [← List.toFinset_card_of_nodup hnodup]
  congr 1
  ext r
  rw [List.mem_toFinset, mem_sortedRoots]

section Build

variable {info : List SuspectInfo} {checkable : List Bool}

theorem buildMustInfo_wellFormed : (buildMustInfo info checkable).WellFormed := by
  refine ⟨List.length_map _, ?_, List.nodup_range.filter _⟩
  intro roots hr
  obtain ⟨l, hl, rfl⟩ := List.mem_map.mp hr
  have he := (List.mem_filter.mp hl).2
  simp only [mustEligible, Bool.and_eq_true, decide_eq_true_eq] at he
  rw [sortedRoots_length]
  exact he.2

theorem buildMustInfo_suspect {l : Local} {s : Nat}
    (h : (buildMustInfo info checkable).indexOf l = some s) :
    mustEligible info checkable l = true ∧
      (buildMustInfo info checkable).suspects[s]? = some l ∧
      ∀ r, (∃ b, (buildMustInfo info checkable).rootAt s b = some r) ↔
        r ∈ (info.getD l .default).roots := by
  have hget := buildMustInfo_wellFormed.indexOf_iff.mp h
  have hmem := List.mem_of_getElem? hget
  refine ⟨(List.mem_filter.mp hmem).2, hget, ?_⟩
  intro r
  have hroots : (buildMustInfo info checkable).rootList[s]? =
      some (sortedRoots (info.getD l .default).roots) := by
    rw [buildMustInfo, List.getElem?_map]
    exact congrArg _ hget
  simp only [MustInfo.rootAt, getD_of_some hroots]
  rw [← List.mem_iff_getElem?, mem_sortedRoots]

theorem buildMustInfo_indexOf {l : Local} (h : mustEligible info checkable l = true) :
    ∃ s, (buildMustInfo info checkable).indexOf l = some s := by
  have hlt : l < info.length := by
    by_contra hl
    simp [mustEligible, List.getD_eq_getElem?_getD, List.getElem?_eq_none (Nat.le_of_not_lt hl),
      SuspectInfo.default] at h
  have hmem : l ∈ (buildMustInfo info checkable).suspects :=
    List.mem_filter.mpr ⟨List.mem_range.mpr hlt, h⟩
  obtain ⟨s, hs⟩ := List.mem_iff_getElem?.mp hmem
  exact ⟨s, buildMustInfo_wellFormed.indexOf_iff.mpr hs⟩

end Build

/-- On every walk to the use, each root is dropped after its own and `l`'s last assignment. -/
def StaleOnEveryPath (f : MirFunction) (roots : Finset Local) (bb : BasicBlockId)
    (idx : Option Nat) (l : Local) : Prop :=
  ∀ before, Walk f.successors before bb → ∀ r ∈ roots,
    Staled l r (f.walkStmts before ++ stmtsBefore f bb idx)

/-- The use is `dst = Move(l)` for a root `dst` of `l`. -/
def HandsOff (f : MirFunction) (roots : Finset Local) (bb : BasicBlockId) (idx : Option Nat)
    (l : Local) : Prop :=
  ∃ i stmt dst, idx = some i ∧ (f.stmtsAt bb)[i]? = some stmt ∧
    stmt.kind = .assign dst (.use (.move l)) ∧ dst ∈ roots

section Hits

variable {must : MustInfo} {f : MirFunction} {outs : List MustState}

/-- Before `stmts` of block `bb`: the state the loop's result gives. -/
def pointState (must : MustInfo) (f : MirFunction) (outs : List MustState) (bb : BasicBlockId)
    (idx : Option Nat) : MustState :=
  mustStmts must (stmtsBefore f bb idx) (mergePreds must f outs bb)

theorem mask_eq_full_iff (hm : must.WellFormed)
    (hv : Valued (MaskRow must) f.basicBlocks.length (outs.map (·.masks)))
    {bb : BasicBlockId} {idx : Option Nat} {s : Nat} (hs : s < must.suspects.length) :
    (pointState must f outs bb idx).masks.getD s 0 = must.fullMask s ↔
      ∀ b r, must.rootAt s b = some r →
        pointBit must f (outs.map (·.masks)) s b bb (stmtsBefore f bb idx) = true := by
  have hmerged := (mergeMasks_bit hv bb).1
  have hrow := mergedStmts_row hm hv bb (stmtsBefore f bb idx)
  have hmasks : (pointState must f outs bb idx).masks = maskStmts must (stmtsBefore f bb idx)
      (mergeMasks must.suspects.length (f.predecessors bb) (outs.map (·.masks))) := by
    rw [pointState, mustStmts_masks_eq, mergePreds_masks]
  have hbit : ∀ b, bitAt (pointState must f outs bb idx).masks s b =
      pointBit must f (outs.map (·.masks)) s b bb (stmtsBefore f bb idx) := by
    intro b
    rw [hmasks, maskStmts_bit hm _ (lt_of_lt_of_eq hs hmerged.symm)]
    rfl
  constructor
  · intro he b r hr
    rw [← hbit, bitAt, he, fullMask_bit hm, hr]
    rfl
  · intro h
    apply BitVec.eq_of_getLsbD_eq
    intro b _
    rw [fullMask_bit hm]
    cases hr : must.rootAt s b with
    | none =>
      have hzero := hrow.2 s b hr
      rw [← hmasks] at hzero
      exact hzero
    | some r => exact (hbit b).trans (h b r hr)

theorem effectiveMask_full (hm : must.WellFormed) {stmt : Statement} {masks : List Word} {s : Nat}
    (h : effectiveMask must stmt masks s = must.fullMask s) :
    masks.getD s 0 = must.fullMask s := by
  unfold effectiveMask at h
  split at h
  next es bit hex =>
    split at h
    next hes =>
      -- the exempted bit is one of the roots, so the full mask has it
      have hrev : ∃ dst, (es, bit) ∈ must.reverse dst := by
        unfold selfMoveExempt at hex
        split at hex
        next dst src _ =>
          obtain ⟨_, _, hfind⟩ := Option.bind_eq_some_iff.mp hex
          exact ⟨dst, List.mem_of_find?_eq_some hfind⟩
        next => simp at hex
      obtain ⟨dst, hdst⟩ := hrev
      have hroot := MustInfo.mem_reverse.mp hdst
      have hset := congrArg (·.getLsbD bit) h
      simp only [getLsbD_clear, fullMask_bit hm, ← hes, hroot] at hset
      simp at hset
    next => exact h
  next => exact h

theorem effectiveMask_of_not_exempt {stmt : Statement} {masks : List Word} {s : Nat}
    (h : ∀ bit, selfMoveExempt must stmt ≠ some (s, bit)) :
    effectiveMask must stmt masks s = masks.getD s 0 := by
  unfold effectiveMask
  split
  next es bit hex =>
    split
    next hes => exact absurd (hes ▸ hex) (h bit)
    next => rfl
  next => rfl

/-- A hit reads a local whose mask is full at that point. -/
theorem blockHits_sound (hm : must.WellFormed) {bb : BasicBlockId} {hit : MustStaleUse}
    (h : hit ∈ blockHits must f bb (mergePreds must f outs bb)) :
    hit.bb = bb ∧ ReadsAt f bb hit.idx hit.stale ∧ ∃ s, must.indexOf hit.stale = some s ∧
      (pointState must f outs bb hit.idx).masks.getD s 0 = must.fullMask s := by
  rcases List.mem_append.mp h with h | h
  · obtain ⟨⟨stmt, i⟩, hstmt, hmem⟩ := List.mem_flatMap.mp h
    have hget := List.mem_zipIdx_iff_getElem?.mp hstmt
    obtain ⟨l, hl, hhit⟩ := List.mem_filterMap.mp hmem
    obtain ⟨s, hs, hfull⟩ := Option.bind_eq_some_iff.mp hhit
    split at hfull
    next he =>
      cases Option.some.inj hfull
      exact ⟨rfl, ⟨stmt, hget, hl⟩, s, hs, effectiveMask_full hm he⟩
    next => simp at hfull
  · unfold terminatorHits at h
    split at h
    next discr targets otherwise span hterm =>
      split at h
      next l s hls =>
        obtain ⟨l', hl', hs'⟩ := Option.bind_eq_some_iff.mp hls
        obtain ⟨t, ht, he⟩ := Option.map_eq_some_iff.mp hs'
        cases he
        split at h
        next hfull =>
          obtain rfl := List.mem_singleton.mp h
          exact ⟨rfl, ⟨discr, targets, otherwise, span, hterm, hl'⟩, _, ht, hfull⟩
        next => simp at h
      next => simp at h
    next => simp at h

/-- A read of a full mask is a hit, unless it hands the value off to one of its roots. -/
theorem blockHits_complete (hm : must.WellFormed) {bb : BasicBlockId} {idx : Option Nat}
    {l : Local} {s : Nat} {roots : Finset Local} (hread : ReadsAt f bb idx l)
    (hs : must.indexOf l = some s) (hroots : ∀ r, (∃ b, must.rootAt s b = some r) → r ∈ roots)
    (hnot : ¬HandsOff f roots bb idx l)
    (hfull : (pointState must f outs bb idx).masks.getD s 0 = must.fullMask s) :
    ∃ hit ∈ blockHits must f bb (mergePreds must f outs bb),
      hit.bb = bb ∧ hit.idx = idx ∧ hit.stale = l := by
  cases idx with
  | some i =>
    obtain ⟨stmt, hget, hl⟩ := hread
    have hexempt : ∀ bit, selfMoveExempt must stmt ≠ some (s, bit) := by
      intro bit he
      unfold selfMoveExempt at he
      split at he
      next dst src hk =>
        obtain ⟨t, ht, hfind⟩ := Option.bind_eq_some_iff.mp he
        have hst : s = t := by simpa using List.find?_some hfind
        have hsrc := hm.indexOf_iff.mp (hst ▸ ht)
        rw [hm.indexOf_iff.mp hs] at hsrc
        have hroot := MustInfo.mem_reverse.mp (List.mem_of_find?_eq_some hfind)
        refine hnot ⟨i, stmt, dst, rfl, hget, ?_, hroots dst ⟨bit, hroot⟩⟩
        rw [hk, Option.some.inj hsrc]
      next => simp at he
    refine ⟨⟨bb, some i, l, _⟩, List.mem_append.mpr (.inl (List.mem_flatMap.mpr
      ⟨(stmt, i), List.mem_zipIdx_iff_getElem?.mpr hget, List.mem_filterMap.mpr
        ⟨l, hl, Option.bind_eq_some_iff.mpr ⟨s, hs, if_pos ?_⟩⟩⟩)), rfl, rfl, rfl⟩
    rw [effectiveMask_of_not_exempt hexempt]
    exact hfull
  | none =>
    obtain ⟨discr, targets, otherwise, span, hterm, hl⟩ := hread
    let st := mustStmts must (f.stmtsAt bb) (mergePreds must f outs bb)
    have hend : st.masks.getD s 0 = must.fullMask s := hfull
    have hmem : ⟨bb, none, l, (st.spans.getD s none).getD span⟩ ∈
        terminatorHits must f bb st := by
      simp only [terminatorHits, hterm, hl, hs, Option.bind_some, Option.map_some, hend,
        ↓reduceIte, List.mem_singleton]
    exact ⟨_, List.mem_append.mpr (.inr hmem), rfl, rfl, rfl⟩

end Hits

/-- Every block from which `bb` can be reached is itself reachable from the entry. -/
def ReachedOnlyFromEntry (f : MirFunction) (bb : BasicBlockId) : Prop :=
  ∀ p, Relation.ReflTransGen (fun a b => b ∈ f.successors a) p bb →
    ∃ before, Walk f.successors before p

theorem ReachedOnlyFromEntry.closed {f : MirFunction} {bb : BasicBlockId}
    (h : ReachedOnlyFromEntry f bb) :
    ReachableClosed f fun p => Relation.ReflTransGen (fun a b => b ∈ f.successors a) p bb :=
  ⟨h, fun _ _ hb hs => Relation.ReflTransGen.head hs hb⟩

/-- Either there is nothing to analyse, or the uses come from the blocks of a settled loop. -/
theorem findMustStale_cases {f : MirFunction} {info : List SuspectInfo} {checkable : List Bool}
    {fuel : Nat} {hits : List MustStaleUse}
    (h : findMustStale f info checkable fuel = some hits) :
    (hits = [] ∧ ((buildMustInfo info checkable).suspects = [] ∨ f.basicBlocks = [])) ∨
      ∃ outs : List MustState, 0 < f.basicBlocks.length ∧
        solve (maskFlow (buildMustInfo info checkable) f) f.basicBlocks.length fuel
          (maskSeed (buildMustInfo info checkable) f) = some (outs.map (·.masks)) ∧
        ∀ hit, hit ∈ hits ↔ ∃ bb < f.basicBlocks.length,
          hit ∈ blockHits (buildMustInfo info checkable) f bb
            (mergePreds (buildMustInfo info checkable) f outs bb) := by
  unfold findMustStale at h
  dsimp only at h
  split at h
  next hempty => exact .inl ⟨(Option.some.inj h).symm, hempty⟩
  next hne =>
    obtain ⟨outs, hloop, rfl⟩ := Option.map_eq_some_iff.mp h
    refine .inr ⟨outs, ?_, ?_, ?_⟩
    · exact List.length_pos_iff.mpr fun he => hne (.inr he)
    · rw [← mustLoop_masks, hloop]
      rfl
    · intro hit
      simp [List.mem_flatMap]

/-- Reported uses are stale on every path. Conversely a use that is stale on every path is
reported, unless it hands the value off to one of its roots or some block leading to it is
unreachable; and where only the entry block lacks a predecessor the analysis ends. -/
theorem findMustStale_exact {f : MirFunction} {info : List SuspectInfo} {checkable : List Bool}
    (h0 : f.predecessors 0 = []) :
    (∀ fuel hits, findMustStale f info checkable fuel = some hits →
      (∀ hit ∈ hits, ReadsAt f hit.bb hit.idx hit.stale ∧
        StaleOnEveryPath f (info.getD hit.stale .default).roots hit.bb hit.idx hit.stale) ∧
      (∀ bb idx l, ReadsAt f bb idx l → mustEligible info checkable l = true →
        ReachedOnlyFromEntry f bb → ¬HandsOff f (info.getD l .default).roots bb idx l →
        StaleOnEveryPath f (info.getD l .default).roots bb idx l →
        ∃ hit ∈ hits, hit.bb = bb ∧ hit.idx = idx ∧ hit.stale = l)) ∧
    ((∀ bb < f.basicBlocks.length, bb ≠ 0 → f.predecessors bb ≠ []) →
      ∃ fuel hits, findMustStale f info checkable fuel = some hits) := by
  have hm : (buildMustInfo info checkable).WellFormed := buildMustInfo_wellFormed
  refine ⟨?_, ?_⟩
  · intro fuel hits hret
    rcases findMustStale_cases hret with ⟨rfl, hempty⟩ | ⟨outs, hn, hsolve, hmem⟩
    · refine ⟨by simp, ?_⟩
      intro bb idx l hread hel _ _ _
      obtain ⟨s, hs⟩ := buildMustInfo_indexOf hel
      have hget := hm.indexOf_iff.mp hs
      rcases hempty with hnone | hblocks
      · simp [hnone] at hget
      · cases idx with
        | some i =>
          obtain ⟨stmt, hstmt, _⟩ := hread
          simp [MirFunction.stmtsAt, hblocks] at hstmt
        | none =>
          obtain ⟨_, _, _, _, hterm, _⟩ := hread
          simp [MirFunction.terminatorAt, hblocks] at hterm
    · obtain ⟨hv, heq⟩ := solveMasks_stable hm hsolve
      refine ⟨?_, ?_⟩
      · intro hit hhit
        obtain ⟨bb, hbb, hblock⟩ := (hmem hit).mp hhit
        obtain ⟨rfl, hread, s, hs, hfull⟩ := blockHits_sound hm hblock
        obtain ⟨_, hget, hroots⟩ := buildMustInfo_suspect hs
        have hlt := (List.getElem?_eq_some_iff.mp hget).1
        refine ⟨hread, ?_⟩
        intro before hw r hr
        obtain ⟨b, hb⟩ := (hroots r).mpr hr
        exact pointBit_sound hm h0 hget hb hv heq hw _
          ((mask_eq_full_iff hm hv hlt).mp hfull b r hb)
      · intro bb idx l hread hel hreach hnot hstale
        obtain ⟨s, hs⟩ := buildMustInfo_indexOf hel
        obtain ⟨_, hget, hroots⟩ := buildMustInfo_suspect hs
        have hlt := (List.getElem?_eq_some_iff.mp hget).1
        have hclosed := hreach.closed
        have hfull : (pointState (buildMustInfo info checkable) f outs bb idx).masks.getD s 0 =
            (buildMustInfo info checkable).fullMask s := by
          refine (mask_eq_full_iff hm hv hlt).mpr ?_
          intro b r hb
          by_contra hunset
          have hj := solveMasks_justified hm h0 hn hget hb hclosed hsolve
          obtain ⟨before, hw, hns⟩ := pointBit_justified hget hb hclosed.reach hv
            Relation.ReflTransGen.refl
            (fun p masks hsucc => hj p masks (.single hsucc)) _ (by simpa using hunset)
          exact hns (hstale before hw r ((hroots r).mp ⟨b, hb⟩))
        have hbb : bb < f.basicBlocks.length := by
          by_contra hge
          have hnone := List.getElem?_eq_none (Nat.le_of_not_lt hge)
          cases idx with
          | some i =>
            obtain ⟨stmt, hstmt, _⟩ := hread
            simp [MirFunction.stmtsAt, hnone] at hstmt
          | none =>
            obtain ⟨_, _, _, _, hterm, _⟩ := hread
            simp [MirFunction.terminatorAt, hnone] at hterm
        obtain ⟨hit, hblock, hpos⟩ :=
          blockHits_complete hm hread hs (fun r hr => (hroots r).mp hr) hnot hfull
        exact ⟨hit, (hmem hit).mpr ⟨bb, hbb, hblock⟩, hpos⟩
  · intro hpreds
    obtain ⟨fuel, masks, hsolve⟩ := solveMasks_exists hm h0 hpreds
    by_cases hempty : (buildMustInfo info checkable).suspects = [] ∨ f.basicBlocks = []
    · exact ⟨0, [], by rw [findMustStale]; exact if_pos hempty⟩
    · rw [← mustLoop_masks, Option.map_eq_some_iff] at hsolve
      obtain ⟨outs, hloop, _⟩ := hsolve
      exact ⟨fuel, _, by rw [findMustStale]; simp only [if_neg hempty, hloop]; rfl⟩

/-- List locals `_1`, `_2`, `_3`, and the given blocks. -/
def listFunction (name : String) (blocks : List BasicBlock) : MirFunction :=
  ⟨name, List.replicate 4 ⟨.list .int, none, .default, false, true⟩, blocks, 0, none, none, [],
    false⟩

def checkableLocals (f : MirFunction) : List Bool := f.locals.map fun d => checkable d.ty

/-- No call borrows or lets a parameter escape. -/
def plainPass : GenCheckInsertion := ⟨∅, FxHashMap.empty⟩

def plainInfo (f : MirFunction) : List SuspectInfo := (plainPass.suspectInfo f).getD []

/-- `_1` is read after the drop of `_2`, which it views. -/
def readsDropped : MirFunction :=
  listFunction "reads_dropped"
    [⟨[plainStmt (.assign 1 (.use (.copy 2))), plainStmt (.drop 2),
      plainStmt (.assign 3 (.getAttr (.copy 1) "x"))], some ⟨.ret, .default⟩⟩]

theorem findMustStale_exact_readsDropped :
    ∃ fuel hits, findMustStale readsDropped (plainInfo readsDropped) (checkableLocals readsDropped)
      fuel = some hits ∧ ∃ hit ∈ hits, hit.bb = 0 ∧ hit.idx = some 2 ∧ hit.stale = 1 := by
  have h0 : readsDropped.predecessors 0 = [] := by decide
  have hexact := @findMustStale_exact _ (plainInfo readsDropped) (checkableLocals readsDropped) h0
  obtain ⟨fuel, hits, hret⟩ := hexact.2 (by decide)
  refine ⟨fuel, hits, hret, ?_⟩
  have hroots : ((plainInfo readsDropped).getD 1 .default).roots = {2} := by decide +kernel
  refine (hexact.1 fuel hits hret).2 0 (some 2) 1 ⟨_, rfl, by decide⟩ (by decide +kernel) ?_ ?_ ?_
  · intro p hp
    rcases Relation.ReflTransGen.cases_tail hp with rfl | ⟨q, _, hq⟩
    · exact ⟨[], .entry⟩
    · have hmem := MirFunction.mem_predecessors.mpr hq
      rw [h0] at hmem
      simp at hmem
  · rintro ⟨i, stmt, dst, hi, hget, hk, _⟩
    cases Option.some.inj hi
    cases Option.some.inj hget
    simp [plainStmt] at hk
  · intro before hw r hr
    rw [walk_to_entry h0 hw]
    rw [hroots, Finset.mem_singleton] at hr
    exact ⟨[_], _, [], rfl, by rw [hr]; rfl, by simp⟩

/-- `_2` is dropped while `_1` still views it, then `_1` is moved back into `_2`. -/
def handsOff : MirFunction :=
  listFunction "hands_off"
    [⟨[plainStmt (.assign 1 (.use (.copy 2))), plainStmt (.drop 2),
      plainStmt (.assign 2 (.use (.move 1)))], some ⟨.ret, .default⟩⟩]

/-- `_1` is read after its root is dropped, in a block that an unreachable block also enters. -/
def joinsUnreachable : MirFunction :=
  listFunction "joins_unreachable"
    [⟨[plainStmt (.assign 1 (.use (.copy 2))), plainStmt (.drop 2)], some ⟨.goto 1, .default⟩⟩,
      ⟨[plainStmt (.assign 3 (.getAttr (.copy 1) "x"))], some ⟨.ret, .default⟩⟩,
      ⟨[], some ⟨.goto 1, .default⟩⟩]

/-- The use of `l` is stale on every path to a reachable block, and not reported. -/
def MissedUse (f : MirFunction) (bb : BasicBlockId) (idx : Option Nat) (l : Local) : Prop :=
  f.predecessors 0 = [] ∧ findMustStale f (plainInfo f) (checkableLocals f) 5 = some [] ∧
    mustEligible (plainInfo f) (checkableLocals f) l = true ∧ ReadsAt f bb idx l ∧
    (∃ before, Walk f.successors before bb) ∧
    StaleOnEveryPath f ((plainInfo f).getD l .default).roots bb idx l

theorem findMustStale_misses_stale_uses :
    MissedUse handsOff 0 (some 2) 1 ∧ MissedUse joinsUnreachable 1 (some 0) 1 := by
  constructor
  · have h0 : handsOff.predecessors 0 = [] := by decide
    have hroots : ((plainInfo handsOff).getD 1 .default).roots = {2} := by decide +kernel
    refine ⟨h0, by decide +kernel, by decide +kernel, ⟨_, rfl, by decide⟩, ⟨[], .entry⟩, ?_⟩
    intro before hw r hr
    rw [walk_to_entry h0 hw]
    rw [hroots, Finset.mem_singleton] at hr
    exact ⟨[_], _, [], rfl, by rw [hr]; rfl, by simp⟩
  · have h0 : joinsUnreachable.predecessors 0 = [] := by decide
    have hroots : ((plainInfo joinsUnreachable).getD 1 .default).roots = {2} := by decide +kernel
    have h1 : joinsUnreachable.predecessors 1 = [0, 2] := by decide
    have h2 : joinsUnreachable.predecessors 2 = [] := by decide
    refine ⟨h0, by decide +kernel, by decide +kernel, ⟨_, rfl, by decide⟩,
      ⟨[0], Walk.entry.step (by decide)⟩, ?_⟩
    intro before hw r hr
    rw [hroots, Finset.mem_singleton] at hr
    cases hw with
    | @step before p _ hw hs =>
      have hp := MirFunction.mem_predecessors.mpr hs
      rw [h1] at hp
      rcases List.mem_pair.mp hp with rfl | rfl
      · rw [walk_to_entry h0 hw]
        exact ⟨[_], _, [], rfl, by rw [hr]; rfl, by simp⟩
      · cases hw with
        | step _ hs =>
          have hq := MirFunction.mem_predecessors.mpr hs
          rw [h2] at hq
          simp at hq

end Olive
