import Mathlib.Algebra.Order.BigOperators.Group.List
import Mathlib.Algebra.Order.Ring.Nat
import Olive.ListAppend
import Olive.MachineFrame

/-! What `ListAppend` finds, and the function it makes. -/

namespace Olive

namespace ListAppend

open FlowGraph UntilStable

variable {f : MirFunction} {s : Site} {bb : BasicBlockId} {idx : Nat} {stmt : Statement}

structure Found (f : MirFunction) (s : Site) : Prop where
  literal : ∃ span, (f.stmtsAt s.defBb)[s.defIdx]? =
    some ⟨.assign s.temp (.aggregate .list s.ops), span⟩
  concat : ∃ span, (f.stmtsAt s.useBb)[s.useIdx]? =
    some ⟨.assign s.dst (.call (.const (.function "__olive_list_concat_move"))
      [.move s.left, .copy s.temp]), span⟩
  isPrivate : tempIsPrivate f s = true
  clear : pathIsClear f s = some true

section Finding

theorem mem_literalsOf {temp : Local} {l : BasicBlockId × Nat × List Operand}
    (h : l ∈ literalsOf f temp) :
    ∃ span, (f.stmtsAt l.1)[l.2.1]? = some ⟨.assign temp (.aggregate .list l.2.2), span⟩ := by
  obtain ⟨b, hb, hl⟩ := List.mem_flatMap.mp h
  obtain ⟨st, hst, hl⟩ := List.mem_filterMap.mp hl
  have hblock := List.mem_zipIdx_iff_getElem?.mp hb
  have hstmt := List.mem_zipIdx_iff_getElem?.mp hst
  split at hl
  next dst ops hk =>
    split at hl
    next hd =>
      obtain rfl := Option.some.inj hl
      refine ⟨st.1.span, ?_⟩
      rw [stmtsAt_of_block hblock, hstmt, ← hd, ← hk]
    next => cases hl
  next => cases hl

theorem siteAt_some (h : siteAt f bb idx stmt = some s) :
    (s.useBb = bb ∧ s.useIdx = idx) ∧
      stmt.kind = .assign s.dst (.call (.const (.function "__olive_list_concat_move"))
        [.move s.left, .copy s.temp]) ∧
      ∃ span, (f.stmtsAt s.defBb)[s.defIdx]? =
        some ⟨.assign s.temp (.aggregate .list s.ops), span⟩ := by
  unfold siteAt at h
  split at h
  next dst name left temp hk =>
    split at h
    next hname =>
      obtain ⟨l, hl, rfl⟩ := Option.map_eq_some_iff.mp h
      refine ⟨⟨rfl, rfl⟩, by rw [hk, hname], mem_literalsOf ?_⟩
      unfold findLiteral at hl
      split at hl
      next l' hlit =>
        split at hl
        next =>
          obtain rfl := Option.some.inj hl
          rw [hlit]
          exact List.mem_singleton_self _
        next => cases hl
      next => cases hl
    next => cases h
  next => cases h

theorem firstClear_some {candidates : List Site} (h : firstClear f candidates = some (some s)) :
    s ∈ candidates ∧ tempIsPrivate f s = true ∧ pathIsClear f s = some true := by
  induction candidates with
  | nil => cases h
  | cons c rest ih =>
    have hrest : firstClear f rest = some (some s) →
        s ∈ c :: rest ∧ tempIsPrivate f s = true ∧ pathIsClear f s = some true :=
      fun h => (ih h).imp_left (List.mem_cons_of_mem c)
    unfold firstClear at h
    split at h
    next hprivate =>
      split at h
      next => cases h
      next hclear =>
        obtain rfl := Option.some.inj (Option.some.inj h)
        exact ⟨List.mem_cons_self, hprivate, hclear⟩
      next => exact hrest h
    next => exact hrest h

theorem found_of_findSite (h : findSite f = some (some s)) : Found f s := by
  obtain ⟨hmem, hprivate, hclear⟩ := firstClear_some h
  obtain ⟨b, hb, hs⟩ := List.mem_flatMap.mp hmem
  obtain ⟨st, hst, hs⟩ := List.mem_filterMap.mp hs
  obtain ⟨⟨hbb, hidx⟩, hk, hliteral⟩ := siteAt_some hs
  refine ⟨hliteral, ⟨st.1.span, ?_⟩, hprivate, hclear⟩
  rw [hbb, hidx, stmtsAt_of_block (List.mem_zipIdx_iff_getElem?.mp hb),
    List.mem_zipIdx_iff_getElem?.mp hst, ← hk]

theorem Found.ordered (h : Found f s) (hsame : s.defBb = s.useBb) : s.defIdx < s.useIdx := by
  have hclear := h.clear
  unfold pathIsClear at hclear
  rw [if_pos hsame] at hclear
  split at hclear
  next hlt => exact hlt
  next => cases hclear

end Finding

section Rebuilding

/-- What a statement becomes. -/
def rewritten (s : Site) (bb : BasicBlockId) (idx : Nat) (stmt : Statement) : List Statement :=
  if (bb, idx) = (s.useBb, s.useIdx) then appends s stmt.span
  else if (bb, idx) = (s.defBb, s.defIdx) then []
  else if isMarkerFor stmt.kind s.temp then [] else [stmt]

/-- What the statements of block `bb` from `idx` on become. -/
def rebuild (s : Site) (bb : BasicBlockId) : Nat → List Statement → List Statement
  | _, [] => []
  | idx, stmt :: rest => rewritten s bb idx stmt ++ rebuild s bb (idx + 1) rest

def keeps (s : Site) (stmts : List Statement) : List Statement :=
  stmts.filter fun st => !isMarkerFor st.kind s.temp

theorem rebuild_append (xs ys : List Statement) :
    rebuild s bb idx (xs ++ ys) = rebuild s bb idx xs ++ rebuild s bb (idx + xs.length) ys := by
  induction xs generalizing idx with
  | nil => rfl
  | cons x xs ih =>
    rw [List.cons_append, rebuild, ih, rebuild, List.append_assoc, List.length_cons,
      Nat.add_right_comm, Nat.add_assoc]

theorem forall_rebuild {Q : Statement → Prop} {xs : List Statement} :
    (∀ a ∈ rebuild s bb idx xs, Q a) ↔
      ∀ k stmt, xs[k]? = some stmt → ∀ a ∈ rewritten s bb (idx + k) stmt, Q a := by
  induction xs generalizing idx with
  | nil => exact ⟨fun _ k stmt h => (nomatch h), fun _ a ha => (nomatch ha)⟩
  | cons x xs ih =>
    rw [rebuild]
    constructor
    · intro h k stmt hk
      cases k with
      | zero =>
        obtain rfl := Option.some.inj hk
        exact fun a ha => h a (List.mem_append_left _ ha)
      | succ k =>
        have hrest := ih.mp (fun a ha => h a (List.mem_append_right _ ha)) k stmt hk
        rwa [Nat.add_right_comm, Nat.add_assoc] at hrest
    · intro h a ha
      rcases List.mem_append.mp ha with ha | ha
      · exact h 0 x rfl a ha
      · refine ih.mpr (fun k stmt hk => ?_) a ha
        rw [Nat.add_right_comm, Nat.add_assoc]
        exact h (k + 1) stmt hk

theorem rebuild_keeps {xs : List Statement}
    (huse : ∀ k, k < xs.length → (bb, idx + k) ≠ (s.useBb, s.useIdx))
    (hdef : ∀ k, k < xs.length → (bb, idx + k) ≠ (s.defBb, s.defIdx)) :
    rebuild s bb idx xs = keeps s xs := by
  induction xs generalizing idx with
  | nil => rfl
  | cons x xs ih =>
    have hrest : rebuild s bb (idx + 1) xs = keeps s xs := by
      refine ih (fun k hk => ?_) (fun k hk => ?_)
      · rw [Nat.add_right_comm, Nat.add_assoc]
        exact huse (k + 1) (Nat.succ_lt_succ hk)
      · rw [Nat.add_right_comm, Nat.add_assoc]
        exact hdef (k + 1) (Nat.succ_lt_succ hk)
    have huse₀ : (bb, idx) ≠ (s.useBb, s.useIdx) := huse 0 (Nat.succ_pos _)
    have hdef₀ : (bb, idx) ≠ (s.defBb, s.defIdx) := hdef 0 (Nat.succ_pos _)
    rw [rebuild, hrest, rewritten, if_neg huse₀, if_neg hdef₀, keeps, keeps,
      List.filter_cons]
    cases isMarkerFor x.kind s.temp with
    | true => rfl
    | false => rfl

theorem appends_kind {span : Span} {a : Statement} (h : a ∈ appends s span) :
    ∃ rval, a.kind = .assign s.dst rval ∧
      (rval = .use (.move s.left) ∨ ∃ src op, op ∈ s.ops ∧
        rval = .call (.const (.function "__olive_list_push")) [.move src, op] ∧
        (src = s.left ∨ src = s.dst)) := by
  unfold appends at h
  split at h
  next =>
    rw [List.mem_singleton.mp h]
    exact ⟨_, rfl, .inl rfl⟩
  next hne =>
    obtain ⟨i, hi, rfl⟩ := List.mem_mapIdx.mp h
    refine ⟨_, rfl, .inr ⟨_, _, List.getElem_mem hi, rfl, ?_⟩⟩
    split
    · exact .inl rfl
    · exact .inr rfl

theorem keeps_appends (span : Span) : keeps s (appends s span) = appends s span := by
  refine List.filter_eq_self.mpr fun a ha => ?_
  obtain ⟨rval, hk, -⟩ := appends_kind ha
  rw [hk]
  rfl

def splice (s : Site) (span : Span) (stmts : List Statement) : List Statement :=
  stmts.take s.useIdx ++ appends s span ++ stmts.drop (s.useIdx + 1)

theorem splice_at {span : Span} {pre post : List Statement} (hpre : pre.length = s.useIdx) :
    splice s span (pre ++ stmt :: post) = pre ++ appends s span ++ post := by
  have hdrop : (pre ++ stmt :: post).drop (s.useIdx + 1) = post := by
    rw [← hpre, List.drop_append, Nat.add_sub_cancel_left, List.drop_eq_nil_of_le (Nat.le_succ _)]
    rfl
  rw [splice, List.take_left' hpre, hdrop]

/-- The two edits of block `bb` and the sweep for markers. -/
def edited (s : Site) (bb : BasicBlockId) (span : Span) (stmts : List Statement) : List Statement :=
  keeps s (if s.defBb = bb then
    (if s.useBb = bb then splice s span stmts else stmts).eraseIdx s.defIdx
  else if s.useBb = bb then splice s span stmts else stmts)

theorem split_at {stmts : List Statement} (h : stmts[idx]? = some stmt) :
    ∃ pre post, stmts = pre ++ stmt :: post ∧ pre.length = idx := by
  obtain ⟨hlt, rfl⟩ := List.getElem?_eq_some_iff.mp h
  refine ⟨stmts.take idx, stmts.drop (idx + 1), ?_, List.length_take_of_le hlt.le⟩
  rw [List.getElem_cons_drop, List.take_append_drop]

theorem rewritten_use (span : Span) (kind : StatementKind) :
    rewritten s s.useBb s.useIdx ⟨kind, span⟩ = appends s span := if_pos rfl

theorem rewritten_def (hne : (s.defBb, s.defIdx) ≠ (s.useBb, s.useIdx)) :
    rewritten s s.defBb s.defIdx stmt = [] := by
  rw [rewritten, if_neg hne, if_pos rfl]

theorem ne_of_block {bb' : BasicBlockId} {i j : Nat} (h : bb' ≠ bb) : (bb, i) ≠ (bb', j) :=
  fun he => h (congrArg Prod.fst he).symm

theorem ne_of_idx {i j : Nat} (h : i ≠ j) : (bb, i) ≠ (bb, j) := fun he => h (congrArg Prod.snd he)

theorem erase_at {pre post : List Statement} (hpre : pre.length = idx) :
    (pre ++ stmt :: post).eraseIdx idx = pre ++ post := by
  rw [List.eraseIdx_append_of_length_le hpre.le, hpre, Nat.sub_self, List.eraseIdx_cons_zero]

theorem keeps_append (xs ys : List Statement) : keeps s (xs ++ ys) = keeps s xs ++ keeps s ys :=
  List.filter_append ..

/-- Block with both statements. -/
theorem edited_both (h : Found f s) (hsame : s.defBb = s.useBb) {span : Span} {kind : StatementKind}
    (huse : (f.stmtsAt s.useBb)[s.useIdx]? = some ⟨kind, span⟩) :
    edited s s.useBb span (f.stmtsAt s.useBb) = rebuild s s.useBb 0 (f.stmtsAt s.useBb) := by
  obtain ⟨dspan, hdef⟩ := h.literal
  have hlt := h.ordered hsame
  rw [hsame] at hdef
  obtain ⟨pre, rest, hstmts, hpre⟩ := split_at hdef
  -- the concat stands behind the literal
  have hrest : rest[s.useIdx - (s.defIdx + 1)]? = some ⟨kind, span⟩ := by
    rw [hstmts, List.getElem?_append_right (by omega), hpre,
      show s.useIdx - s.defIdx = s.useIdx - (s.defIdx + 1) + 1 by omega] at huse
    exact huse
  obtain ⟨mid, post, rfl, hmid⟩ := split_at hrest
  have hlit : rewritten s s.useBb s.defIdx ⟨.assign s.temp (.aggregate .list s.ops), dspan⟩ = [] := by
    have hne : (s.defBb, s.defIdx) ≠ (s.useBb, s.useIdx) := by
      rw [hsame]
      exact ne_of_idx hlt.ne
    rw [← hsame, rewritten_def hne]
  have hplace : s.defIdx + 1 + (s.useIdx - (s.defIdx + 1)) = s.useIdx := by omega
  have hkeep : ∀ i xs, i + xs.length ≤ s.defIdx ∨ s.defIdx < i ∧ i + xs.length ≤ s.useIdx ∨
      s.useIdx < i → rebuild s s.useBb i xs = keeps s xs := by
    intro i xs hi
    refine rebuild_keeps (fun k hk => ne_of_idx (by omega)) fun k hk => ?_
    rw [hsame]
    exact ne_of_idx (by omega)
  have hsplice : splice s span (pre ++ ⟨.assign s.temp (.aggregate .list s.ops), dspan⟩ ::
      (mid ++ ⟨kind, span⟩ :: post)) =
        pre ++ ⟨.assign s.temp (.aggregate .list s.ops), dspan⟩ :: (mid ++ appends s span ++ post) := by
    rw [← List.cons_append, ← List.append_assoc, splice_at]
    · simp only [List.append_assoc, List.cons_append]
    · simp only [List.length_append, List.length_cons]
      omega
  rw [edited, if_pos hsame, if_pos rfl, hstmts, hsplice, erase_at hpre]
  rw [rebuild_append, rebuild, rebuild_append, rebuild, Nat.zero_add, hpre, hlit, hmid, hplace,
    rewritten_use, hkeep 0 pre (by omega), hkeep _ mid (by omega), hkeep _ post (by omega)]
  simp only [keeps_append, keeps_appends, List.nil_append, List.append_assoc]

theorem edited_use (hne : s.defBb ≠ s.useBb) {span : Span} {kind : StatementKind}
    (huse : (f.stmtsAt s.useBb)[s.useIdx]? = some ⟨kind, span⟩) :
    edited s s.useBb span (f.stmtsAt s.useBb) = rebuild s s.useBb 0 (f.stmtsAt s.useBb) := by
  obtain ⟨pre, post, hstmts, hpre⟩ := split_at huse
  have hkeep : ∀ i xs, i + xs.length ≤ s.useIdx ∨ s.useIdx < i → rebuild s s.useBb i xs = keeps s xs :=
    fun i xs hi => rebuild_keeps (fun k hk => ne_of_idx (by omega)) fun k hk => ne_of_block hne
  rw [edited, if_neg hne, if_pos rfl, hstmts, splice_at hpre]
  rw [rebuild_append, rebuild, Nat.zero_add, hpre, rewritten_use, hkeep 0 pre (by omega),
    hkeep _ post (by omega)]
  simp only [keeps_append, keeps_appends, List.append_assoc]

theorem edited_def (h : Found f s) (hne : s.useBb ≠ s.defBb) (span : Span) :
    edited s s.defBb span (f.stmtsAt s.defBb) = rebuild s s.defBb 0 (f.stmtsAt s.defBb) := by
  obtain ⟨dspan, hdef⟩ := h.literal
  obtain ⟨pre, post, hstmts, hpre⟩ := split_at hdef
  have hkeep : ∀ i xs, i + xs.length ≤ s.defIdx ∨ s.defIdx < i → rebuild s s.defBb i xs = keeps s xs :=
    fun i xs hi => rebuild_keeps (fun k hk => ne_of_block hne) fun k hk => ne_of_idx (by omega)
  rw [edited, if_pos rfl, if_neg hne, hstmts, erase_at hpre]
  rw [rebuild_append, rebuild, Nat.zero_add, hpre, rewritten_def (ne_of_block hne),
    hkeep 0 pre (by omega), hkeep _ post (by omega)]
  simp only [keeps_append, List.nil_append]

theorem edited_eq (h : Found f s) {span : Span} {kind : StatementKind}
    (huse : (f.stmtsAt s.useBb)[s.useIdx]? = some ⟨kind, span⟩) (bb : BasicBlockId) :
    edited s bb span (f.stmtsAt bb) = rebuild s bb 0 (f.stmtsAt bb) := by
  by_cases hu : s.useBb = bb
  · subst hu
    by_cases hsame : s.defBb = s.useBb
    · exact edited_both h hsame huse
    · exact edited_use hsame huse
  · by_cases hd : s.defBb = bb
    · subst hd
      exact edited_def h hu span
    · rw [edited, if_neg hd, if_neg hu,
        rebuild_keeps (fun k _ => ne_of_block hu) (fun k _ => ne_of_block hd)]

theorem apply_block {span : Span} {kind : StatementKind}
    (huse : (f.stmtsAt s.useBb)[s.useIdx]? = some ⟨kind, span⟩) (bb : BasicBlockId) :
    (apply f s).basicBlocks[bb]? = f.basicBlocks[bb]?.map fun b =>
      { b with statements := edited s bb span b.statements } := by
  have hspan : ((f.stmtsAt s.useBb)[s.useIdx]?.map (·.span)).getD .default = span := by
    rw [huse]
    rfl
  simp only [apply, hspan, List.getElem?_map, List.getElem?_modify]
  cases f.basicBlocks[bb]? with
  | none => rfl
  | some b =>
    simp only [Option.map_eq_map, Option.map_some, edited, splice, keeps]
    split
    · split <;> rfl
    · split <;> rfl

theorem apply_stmtsAt (h : Found f s) (bb : BasicBlockId) :
    (apply f s).stmtsAt bb = rebuild s bb 0 (f.stmtsAt bb) := by
  obtain ⟨span, huse⟩ := h.concat
  have hedited := edited_eq h huse bb
  cases hb : f.basicBlocks[bb]? with
  | none =>
    have hstmts : f.stmtsAt bb = [] := by simp only [MirFunction.stmtsAt, hb]
    simp only [MirFunction.stmtsAt, apply_block huse, hb, Option.map_none]
    rfl
  | some b =>
    rw [← hedited, stmtsAt_of_block hb]
    simp only [MirFunction.stmtsAt, apply_block huse, hb, Option.map_some]

theorem apply_terminatorAt (h : Found f s) (bb : BasicBlockId) :
    (apply f s).terminatorAt bb = f.terminatorAt bb := by
  obtain ⟨span, huse⟩ := h.concat
  simp only [MirFunction.terminatorAt, apply_block huse]
  cases f.basicBlocks[bb]? with
  | none => rfl
  | some b => rfl

theorem apply_successors (h : Found f s) : (apply f s).successors = f.successors := by
  funext bb
  rw [MirFunction.successors, apply_terminatorAt h, MirFunction.successors]

end Rebuilding

section Ending

/-- A call that `ListAppend` looks for. -/
def isConcat (stmt : Statement) : Bool :=
  match stmt.kind with
  | .assign _ (.call (.const (.function name)) _) => name == "__olive_list_concat_move"
  | _ => false

theorem appends_not_concat {span : Span} : (appends s span).countP isConcat = 0 := by
  rw [List.countP_eq_zero]
  intro a ha
  obtain ⟨rval, hk, hrval⟩ := appends_kind ha
  rcases hrval with rfl | ⟨src, op, -, rfl, -⟩
  · simp [isConcat, hk]
  · simp [isConcat, hk]

theorem rewritten_count (bb : BasicBlockId) (idx : Nat) (stmt : Statement) :
    (rewritten s bb idx stmt).countP isConcat ≤ [stmt].countP isConcat := by
  unfold rewritten
  split
  · rw [appends_not_concat]
    exact Nat.zero_le _
  · split
    · exact Nat.zero_le _
    · split
      · exact Nat.zero_le _
      · exact Nat.le_refl _

theorem rebuild_count (bb : BasicBlockId) (idx : Nat) (stmts : List Statement) :
    (rebuild s bb idx stmts).countP isConcat ≤ stmts.countP isConcat := by
  induction stmts generalizing idx with
  | nil => exact Nat.le_refl _
  | cons stmt rest ih =>
    have hstmt := rewritten_count (s := s) bb idx stmt
    have hrest := ih (idx + 1)
    rw [rebuild, List.countP_append, ← List.singleton_append, List.countP_append]
    omega

theorem rebuild_count_lt (h : Found f s) :
    (rebuild s s.useBb 0 (f.stmtsAt s.useBb)).countP isConcat <
      (f.stmtsAt s.useBb).countP isConcat := by
  obtain ⟨span, huse⟩ := h.concat
  obtain ⟨pre, post, hstmts, hpre⟩ := split_at huse
  have hleft := rebuild_count (s := s) s.useBb 0 pre
  have hright := rebuild_count (s := s) s.useBb (s.useIdx + 1) post
  rw [hstmts, rebuild_append, rebuild, Nat.zero_add, hpre, rewritten_use, List.countP_append,
    List.countP_append, appends_not_concat, List.countP_append, List.countP_cons]
  simp only [isConcat, beq_self_eq_true, if_true]
  omega

/-- The calls that are left. -/
def concats (f : MirFunction) : Nat :=
  ((List.range f.basicBlocks.length).map fun bb => (f.stmtsAt bb).countP isConcat).sum

theorem apply_length : (apply f s).basicBlocks.length = f.basicBlocks.length := by
  simp [apply]

theorem concats_apply (h : Found f s) : concats (apply f s) < concats f := by
  obtain ⟨span, huse⟩ := h.concat
  have hlt : s.useBb < f.basicBlocks.length := by
    by_contra hge
    rw [MirFunction.stmtsAt, List.getElem?_eq_none (Nat.le_of_not_lt hge)] at huse
    cases huse
  rw [concats, concats, apply_length]
  refine List.sum_lt_sum _ _ (fun bb _ => ?_) ⟨s.useBb, List.mem_range.mpr hlt, ?_⟩
  · rw [apply_stmtsAt h]
    exact rebuild_count bb 0 _
  · rw [apply_stmtsAt h]
    exact rebuild_count_lt h

/-- The loop ends. -/
theorem run_ends (f : MirFunction) : ∃ fuel r, run fuel f = some r := by
  have hturn : ∀ o : Option MirFunction, True → (turn o).2 = true →
      (turn o).1.elim 0 concats < o.elim 0 concats := by
    intro o _ hturn
    cases o with
    | none => cases hturn
    | some g =>
      unfold turn at hturn ⊢
      simp only at hturn ⊢
      split
      next hpanic => simp [hpanic] at hturn
      next hnone => simp [hnone] at hturn
      next s hsome => exact concats_apply (found_of_findSite hsome)
  obtain ⟨r, hr⟩ := untilStable_exists (fun o : Option MirFunction => o.elim 0 concats)
    (fun _ h => h) hturn (s := some f) trivial (Nat.lt_succ_self _)
  exact ⟨_, r, hr⟩

end Ending

end ListAppend

end Olive
