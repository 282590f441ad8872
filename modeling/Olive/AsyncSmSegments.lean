import Olive.AsyncSm

/-! The segments of a block are the statements between its awaits. -/

namespace Olive

namespace AsyncSm

open FlowGraph

/-- The await points of the statements from `idx` on: in order, and all of them. -/
structure PointsOf (bb : BasicBlockId) (idx : Nat) (stmts : List Statement)
    (points : List SmAwaitPoint) : Prop where
  sorted : points.Pairwise fun a b => a.stmtIdx < b.stmtIdx
  block : ∀ ap ∈ points, ap.bbIdx = bb
  stmt : ∀ ap ∈ points, ∃ i stmt sub, ap.stmtIdx = idx + i ∧ stmts[i]? = some stmt ∧
    awaitOf stmt = some (ap.resultLocal, sub) ∧ sub.local? = some ap.subFutureLocal
  complete : ∀ i stmt, stmts[i]? = some stmt → (awaitOf stmt).isSome →
    ∃ ap ∈ points, ap.stmtIdx = idx + i

theorem PointsOf.skip {bb : BasicBlockId} {idx : Nat} {first : Statement} {stmts : List Statement}
    {points : List SmAwaitPoint} (h : PointsOf bb (idx + 1) stmts points)
    (hfirst : awaitOf first = none) : PointsOf bb idx (first :: stmts) points where
  sorted := h.sorted
  block := h.block
  stmt ap hap := by
    obtain ⟨i, stmt, sub, hi, hs, hrest⟩ := h.stmt ap hap
    exact ⟨i + 1, stmt, sub, by omega, by rwa [List.getElem?_cons_succ], hrest⟩
  complete i stmt hs hawait := by
    cases i with
    | zero =>
      obtain rfl := Option.some.inj hs
      rw [hfirst] at hawait
      cases hawait
    | succ i =>
      obtain ⟨ap, hap, hi⟩ := h.complete i stmt hs hawait
      exact ⟨ap, hap, by omega⟩

theorem PointsOf.cons {bb : BasicBlockId} {idx : Nat} {first : Statement} {stmts : List Statement}
    {points : List SmAwaitPoint} (h : PointsOf bb (idx + 1) stmts points) {result subLocal : Local}
    {sub : Operand} (hfirst : awaitOf first = some (result, sub)) (hsub : sub.local? = some subLocal) :
    PointsOf bb idx (first :: stmts) (⟨bb, idx, result, subLocal⟩ :: points) where
  sorted := by
    refine List.pairwise_cons.mpr ⟨fun ap hap => ?_, h.sorted⟩
    obtain ⟨i, _, _, hi, _⟩ := h.stmt ap hap
    dsimp only
    omega
  block ap hap := by
    obtain rfl | hap := List.mem_cons.mp hap
    · rfl
    · exact h.block ap hap
  stmt ap hap := by
    obtain rfl | hap := List.mem_cons.mp hap
    · exact ⟨0, first, sub, rfl, rfl, hfirst, hsub⟩
    · obtain ⟨i, stmt, sub, hi, hs, hrest⟩ := h.stmt ap hap
      exact ⟨i + 1, stmt, sub, by omega, by rwa [List.getElem?_cons_succ], hrest⟩
  complete i stmt hs hawait := by
    cases i with
    | zero => exact ⟨_, List.mem_cons_self .., rfl⟩
    | succ i =>
      obtain ⟨ap, hap, hi⟩ := h.complete i stmt hs hawait
      exact ⟨ap, List.mem_cons_of_mem _ hap, by omega⟩

theorem blockPoints_pointsOf {bb : BasicBlockId} {idx : Nat} {stmts : List Statement}
    {points : List SmAwaitPoint} (h : blockPoints bb idx stmts = some points) :
    PointsOf bb idx stmts points := by
  induction stmts generalizing idx points with
  | nil =>
    obtain rfl := Option.some.inj h
    exact ⟨List.Pairwise.nil, by simp, by simp, by simp⟩
  | cons first stmts ih =>
    rw [blockPoints] at h
    split at h
    next result sub hfirst =>
      obtain ⟨subLocal, hsub, h⟩ := Option.bind_eq_some_iff.mp h
      obtain ⟨rest, hrest, rfl⟩ := Option.map_eq_some_iff.mp h
      exact (ih hrest).cons hfirst hsub
    next hfirst => exact (ih h).skip hfirst

theorem mapM_some_mem {α β : Type} {g : α → Option β} {xs : List α} {ys : List β}
    (h : xs.mapM g = some ys) {y : β} (hy : y ∈ ys) : ∃ x ∈ xs, g x = some y := by
  induction xs generalizing ys with
  | nil =>
    obtain rfl := Option.some.inj h
    cases hy
  | cons x xs ih =>
    rw [List.mapM_cons] at h
    obtain ⟨z, hz, h⟩ := Option.bind_eq_some_iff.mp h
    obtain ⟨zs, hzs, h⟩ := Option.bind_eq_some_iff.mp h
    obtain rfl := Option.some.inj h
    obtain rfl | hy := List.mem_cons.mp hy
    · exact ⟨x, List.mem_cons_self .., hz⟩
    · obtain ⟨x', hx', hg⟩ := ih hzs hy
      exact ⟨x', List.mem_cons_of_mem _ hx', hg⟩

theorem filter_flatten_nil {bb : BasicBlockId} {lists : List (List SmAwaitPoint)}
    (h : ∀ ps ∈ lists, ∀ ap ∈ ps, ap.bbIdx ≠ bb) :
    lists.flatten.filter (fun ap => ap.bbIdx = bb) = [] := by
  rw [List.filter_eq_nil_iff]
  intro ap hap
  obtain ⟨ps, hps, hmem⟩ := List.mem_flatten.mp hap
  simpa using h ps hps ap hmem

/-- The points of one block among those of distinct blocks. -/
theorem filter_flatten_mapM {bb : BasicBlockId} {blocks : List BasicBlockId}
    {g : BasicBlockId → Option (List SmAwaitPoint)} (hnodup : blocks.Nodup)
    (hblock : ∀ b ps, g b = some ps → ∀ ap ∈ ps, ap.bbIdx = b) {lists : List (List SmAwaitPoint)}
    (h : blocks.mapM g = some lists) (hmem : bb ∈ blocks) :
    g bb = some (lists.flatten.filter fun ap => ap.bbIdx = bb) := by
  induction blocks generalizing lists with
  | nil => cases hmem
  | cons b blocks ih =>
    rw [List.mapM_cons] at h
    obtain ⟨ps, hps, h⟩ := Option.bind_eq_some_iff.mp h
    obtain ⟨rest, hrest, h⟩ := Option.bind_eq_some_iff.mp h
    obtain rfl := Option.some.inj h
    rw [List.nodup_cons] at hnodup
    rw [List.flatten_cons, List.filter_append]
    by_cases hb : b = bb
    · subst hb
      have hself : ps.filter (fun ap => ap.bbIdx = b) = ps := by
        rw [List.filter_eq_self]
        intro ap hap
        simpa using hblock b ps hps ap hap
      have hother : rest.flatten.filter (fun ap => ap.bbIdx = b) = [] := by
        apply filter_flatten_nil
        intro ps' hps' ap hap he
        obtain ⟨c, hc, hg⟩ := mapM_some_mem hrest hps'
        exact hnodup.1 ((hblock c ps' hg ap hap).symm.trans he ▸ hc)
      rw [hself, hother, List.append_nil, hps]
    · have hnone : ps.filter (fun ap => ap.bbIdx = bb) = [] := by
        rw [List.filter_eq_nil_iff]
        intro ap hap
        simpa [hblock b ps hps ap hap] using hb
      rw [hnone, List.nil_append]
      exact ih hnodup.2 hrest ((List.mem_cons.mp hmem).resolve_left (Ne.symm hb))

section Segments

variable {f : MirFunction} {points : List SmAwaitPoint}

/-- The blocks a run of the body gets to, and those that do not exist. -/
def Visited (f : MirFunction) (bb : BasicBlockId) : Prop :=
  bb ∈ bfsOrder f ∨ f.basicBlocks.length ≤ bb

theorem visited_entry (f : MirFunction) : Visited f 0 := by
  by_cases h : f.basicBlocks.length ≤ 0
  · exact .inr h
  · exact .inl (mem_bfs (.inr ⟨by simp, by omega⟩))

theorem Visited.succ {bb target : BasicBlockId} (h : Visited f bb) (ht : target ∈ f.successors bb) :
    Visited f target := by
  by_cases hlt : f.basicBlocks.length ≤ target
  · exact .inr hlt
  · obtain h | h := h
    · exact .inl (bfs_closed (by simp) h ht (by omega))
    · exact absurd (MirFunction.lt_of_successors ht) (Nat.not_lt.mpr h)

theorem bfsOrder_lt {bb : BasicBlockId} (h : bb ∈ bfsOrder f) : bb < f.basicBlocks.length :=
  bfs_lt (by simp) h

theorem analyze_points (h : analyzeAsyncSm f = some points) :
    ∃ lists, ((bfsOrder f).mapM fun bb => blockPoints bb 0 (f.stmtsAt bb)) = some lists ∧
      points = lists.flatten := by
  unfold analyzeAsyncSm at h
  split at h
  next lists hlists =>
    split at h
    next => cases h
    next => exact ⟨lists, hlists, (Option.some.inj h).symm⟩
  next => cases h

/-- The points of a visited block are the awaits of its statements. -/
theorem pointsOf_block (h : analyzeAsyncSm f = some points) {bb : BasicBlockId} (hbb : Visited f bb) :
    PointsOf bb 0 (f.stmtsAt bb) (points.filter fun ap => ap.bbIdx = bb) := by
  obtain ⟨lists, hlists, rfl⟩ := analyze_points h
  have hblock : ∀ b ps, blockPoints b 0 (f.stmtsAt b) = some ps → ∀ ap ∈ ps, ap.bbIdx = b :=
    fun b ps hps => (blockPoints_pointsOf hps).block
  obtain hmem | hout := hbb
  · exact blockPoints_pointsOf
      (filter_flatten_mapM (bfs_nodup _ _ List.nodup_nil) hblock hlists hmem)
  · have hnone : lists.flatten.filter (fun ap => ap.bbIdx = bb) = [] := by
      apply filter_flatten_nil
      intro ps hps ap hap he
      obtain ⟨b, hb, hg⟩ := mapM_some_mem hlists hps
      rw [← (hblock b ps hg ap hap).symm.trans he] at hout
      exact absurd (bfsOrder_lt hb) (Nat.not_lt.mpr hout)
    have hstmts : f.stmtsAt bb = [] := by
      rw [MirFunction.stmtsAt, List.getElem?_eq_none hout]
    rw [hnone, hstmts]
    exact ⟨List.Pairwise.nil, by simp, by simp, by simp⟩

theorem bbAwaits_map (points : List SmAwaitPoint) (bb : BasicBlockId) :
    (bbAwaits points bb).map Prod.fst = points.filter fun ap => ap.bbIdx = bb := by
  conv_rhs => rw [← List.zipIdx_map_fst 0 points, List.filter_map]
  rfl

theorem bbAwaits_point {bb : BasicBlockId} {j k : Nat} {ap : SmAwaitPoint}
    (h : (bbAwaits points bb)[j]? = some (ap, k)) : points[k]? = some ap ∧ ap.bbIdx = bb := by
  obtain ⟨hmem, hbb⟩ := List.mem_filter.mp (List.mem_of_getElem? h)
  exact ⟨List.mem_zipIdx_iff_getElem?.mp hmem, by simpa using hbb⟩

/-- An await point has one place in its block. -/
theorem resumeSeg_eq {bb : BasicBlockId} {j k : Nat} {ap : SmAwaitPoint}
    (h : (bbAwaits points bb)[j]? = some (ap, k)) : resumeSeg points ap k = j + 1 := by
  have hbb := (bbAwaits_point h).2
  subst hbb
  have hsorted : ((bbAwaits points ap.bbIdx).map Prod.snd).Pairwise (· < ·) := by
    refine List.Pairwise.sublist (List.filter_sublist.map Prod.snd) ?_
    rw [List.zipIdx_map_snd]
    exact List.pairwise_lt_range'
  have hlen := (List.getElem?_eq_some_iff.mp h).1
  rw [resumeSeg, Nat.add_right_cancel_iff, List.findIdx_eq hlen]
  have hself : (bbAwaits points ap.bbIdx)[j] = (ap, k) := (List.getElem?_eq_some_iff.mp h).2
  refine ⟨by simp [hself], fun i hi => ?_⟩
  have hlt := List.pairwise_iff_getElem.mp hsorted i j (by simp; omega) (by simpa using hlen) hi
  simp only [List.getElem_map, hself] at hlt
  simp only [decide_eq_false_iff_not]
  omega

theorem bbAwaits_getElem? (bb : BasicBlockId) (j : Nat) :
    (points.filter fun ap => ap.bbIdx = bb)[j]? = ((bbAwaits points bb)[j]?).map Prod.fst := by
  rw [← bbAwaits_map, List.getElem?_map]

/-- The place where segment `j` of a block ends. -/
def segStop (f : MirFunction) (points : List SmAwaitPoint) (bb : BasicBlockId) (j : Nat) : Nat :=
  match (bbAwaits points bb)[j]? with
  | some (ap, _) => ap.stmtIdx
  | none => (f.stmtsAt bb).length

theorem segStop_await {bb : BasicBlockId} {j k : Nat} {ap : SmAwaitPoint}
    (h : (bbAwaits points bb)[j]? = some (ap, k)) : segStop f points bb j = ap.stmtIdx := by
  rw [segStop, h]

theorem segStart_succ {bb : BasicBlockId} {j k : Nat} {ap : SmAwaitPoint}
    (h : (bbAwaits points bb)[j]? = some (ap, k)) :
    segStart points bb (j + 1) = ap.stmtIdx + 1 := by
  rw [segStart, h]

/-- The statement of an await point. -/
theorem stmt_of_point (h : analyzeAsyncSm f = some points) {bb : BasicBlockId} (hbb : Visited f bb)
    {j k : Nat} {ap : SmAwaitPoint} (hap : (bbAwaits points bb)[j]? = some (ap, k)) :
    ∃ stmt sub, (f.stmtsAt bb)[ap.stmtIdx]? = some stmt ∧
      awaitOf stmt = some (ap.resultLocal, sub) ∧ sub.local? = some ap.subFutureLocal := by
  have hmem : ap ∈ points.filter fun ap => ap.bbIdx = bb :=
    List.mem_of_getElem? (i := j) (by rw [bbAwaits_getElem?, hap]; rfl)
  obtain ⟨i, stmt, sub, hi, hrest⟩ := (pointsOf_block h hbb).stmt ap hmem
  rw [Nat.zero_add] at hi
  exact ⟨stmt, sub, hi ▸ hrest⟩

theorem segStart_le_segStop (h : analyzeAsyncSm f = some points) {bb : BasicBlockId}
    (hbb : Visited f bb) {j : Nat} (hj : j ≤ (bbAwaits points bb).length) :
    segStart points bb j ≤ segStop f points bb j := by
  cases j with
  | zero => exact Nat.zero_le _
  | succ j =>
    obtain ⟨⟨ap, k⟩, hap⟩ : ∃ p, (bbAwaits points bb)[j]? = some p :=
      ⟨_, List.getElem?_eq_getElem (by omega)⟩
    rw [segStart_succ hap]
    cases hnext : (bbAwaits points bb)[j + 1]? with
    | none =>
      obtain ⟨stmt, sub, hs, _⟩ := stmt_of_point h hbb hap
      rw [segStop, hnext]
      exact (List.getElem?_eq_some_iff.mp hs).1
    | some p =>
      obtain ⟨next, k'⟩ := p
      rw [segStop_await hnext]
      have h₁ : (points.filter fun ap => ap.bbIdx = bb)[j]? = some ap := by
        rw [bbAwaits_getElem?, hap]
        rfl
      have h₂ : (points.filter fun ap => ap.bbIdx = bb)[j + 1]? = some next := by
        rw [bbAwaits_getElem?, hnext]
        rfl
      obtain ⟨hl₁, he₁⟩ := List.getElem?_eq_some_iff.mp h₁
      obtain ⟨hl₂, he₂⟩ := List.getElem?_eq_some_iff.mp h₂
      have hlt := List.pairwise_iff_getElem.mp (pointsOf_block h hbb).sorted j (j + 1) hl₁ hl₂
        (Nat.lt_succ_self j)
      rwa [he₁, he₂] at hlt

/-- No statement of a segment is an await. -/
theorem not_await_of_seg (h : analyzeAsyncSm f = some points) {bb : BasicBlockId}
    (hbb : Visited f bb) {j i : Nat} (hj : j ≤ (bbAwaits points bb).length)
    (hstart : segStart points bb j ≤ i) (hstop : i < segStop f points bb j) {stmt : Statement}
    (hs : (f.stmtsAt bb)[i]? = some stmt) : awaitOf stmt = none := by
  by_contra hne
  have hpoints := pointsOf_block h hbb
  obtain ⟨ap, hap, hi⟩ := hpoints.complete i stmt hs (Option.ne_none_iff_isSome.mp hne)
  rw [Nat.zero_add] at hi
  obtain ⟨m, hm⟩ := List.mem_iff_getElem?.mp hap
  obtain ⟨hml, hme⟩ := List.getElem?_eq_some_iff.mp hm
  have hlater : ∀ {m' ap'}, (points.filter fun ap => ap.bbIdx = bb)[m']? = some ap' → m < m' →
      ap.stmtIdx < ap'.stmtIdx := by
    intro m' ap' hm' hlt
    obtain ⟨hml', hme'⟩ := List.getElem?_eq_some_iff.mp hm'
    have := List.pairwise_iff_getElem.mp hpoints.sorted m m' hml hml' hlt
    rwa [hme, hme'] at this
  have hearlier : ∀ {m' ap'}, (points.filter fun ap => ap.bbIdx = bb)[m']? = some ap' → m' ≤ m →
      ap'.stmtIdx ≤ ap.stmtIdx := by
    intro m' ap' hm' hle
    obtain ⟨hml', hme'⟩ := List.getElem?_eq_some_iff.mp hm'
    obtain rfl | hlt := Nat.eq_or_lt_of_le hle
    · rw [← hme, ← hme']
    · have := List.pairwise_iff_getElem.mp hpoints.sorted m' m hml' hml hlt
      rw [hme, hme'] at this
      exact Nat.le_of_lt this
  -- the point before the segment is at or past this one, or the point after it is at or before
  obtain hlt | hge := Nat.lt_or_ge m j
  · cases j with
    | zero => omega
    | succ j =>
      obtain ⟨⟨prev, k⟩, hprev⟩ : ∃ p, (bbAwaits points bb)[j]? = some p :=
        ⟨_, List.getElem?_eq_getElem (by omega)⟩
      rw [segStart_succ hprev] at hstart
      have hle : ap.stmtIdx ≤ prev.stmtIdx := by
        obtain rfl | hlt := Nat.eq_or_lt_of_le (Nat.le_of_lt_succ hlt)
        · rw [bbAwaits_getElem?, hprev] at hm
          obtain rfl := Option.some.inj hm
          exact le_rfl
        · exact Nat.le_of_lt (hlater (by rw [bbAwaits_getElem?, hprev]; rfl) hlt)
      omega
  · cases hnext : (bbAwaits points bb)[j]? with
    | none =>
      have := List.getElem?_eq_none_iff.mp hnext
      have hlen : (points.filter fun ap => ap.bbIdx = bb).length = (bbAwaits points bb).length := by
        rw [← bbAwaits_map, List.length_map]
      omega
    | some p =>
      obtain ⟨next, k⟩ := p
      rw [segStop_await hnext] at hstop
      have := hearlier (by rw [bbAwaits_getElem?, hnext]; rfl) hge
      dsimp only at this
      omega

end Segments

end AsyncSm

end Olive
