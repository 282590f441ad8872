import Mathlib.Data.Finset.Lattice.Fold
import Mathlib.Data.Finset.Option
import Mathlib.Data.List.GetD
import Mathlib.Logic.Relation
import Mathlib.Order.Lattice.Nat
import Olive.Liveness

/-! A local is live where some path on from there reads it before its value ends: that is what the
rounds compute, and they end. -/

namespace Olive

open UntilStable RoundRobin

/-- A statement of a block, or its terminator. -/
structure Place where
  bb : BasicBlockId
  idx : Nat

section Paths

variable (f : MirFunction)

/-- Control goes on from a place to the next one, and `l` keeps its value. -/
inductive GoesOn (l : Local) : Place → Place → Prop
  | stmt {p : Place} {stmt : Statement} (hs : (f.stmtsAt p.bb)[p.idx]? = some stmt)
      (hk : stmt.kind.kills? ≠ some l) : GoesOn l p ⟨p.bb, p.idx + 1⟩
  | edge {p : Place} {succ : BasicBlockId} (hend : p.idx = (f.stmtsAt p.bb).length)
      (hsucc : succ ∈ f.successors p.bb) : GoesOn l p ⟨succ, 0⟩

/-- A path from here comes to a read of `l` before an assignment, a drop or a storage end of it. -/
def ReadLater (l : Local) (p : Place) : Prop :=
  ∃ q, Relation.ReflTransGen (GoesOn f l) p q ∧ l ∈ (f.readAt q.bb q.idx).filterMap Operand.local?

/-- Every target is a block of the function. -/
def TargetsInRange : Prop :=
  ∀ bb, ∀ succ ∈ f.successors bb, succ < f.basicBlocks.length

end Paths

variable {f : MirFunction} {l : Local}

theorem ReadLater.of_read {p : Place} (h : l ∈ (f.readAt p.bb p.idx).filterMap Operand.local?) :
    ReadLater f l p :=
  ⟨p, .refl, h⟩

theorem ReadLater.of_goesOn {p q : Place} (h : GoesOn f l p q) (hq : ReadLater f l q) :
    ReadLater f l p := by
  obtain ⟨r, hpath, hread⟩ := hq
  exact ⟨r, .head h hpath, hread⟩

theorem mem_liveAt {out : List (List (Finset Local))} {bb : BasicBlockId} {idx : Nat} :
    l ∈ liveAt out bb idx ↔ ∃ live, out[bb]? = some live ∧ l ∈ live.getD idx ∅ := by
  rw [liveAt, List.getD_eq_getElem?_getD (l := out)]
  cases out[bb]? with
  | none => simp
  | some live => simp

/-- What is live in a block, from its end backward: a property of what is read and of what is live
where the block goes holds of all of it, if the statements on the way keep it. -/
theorem liveBlock_backward {liveAfter : List (List (Finset Local))} {bb : BasicBlockId}
    {P : Nat → Local → Prop}
    (hread : ∀ idx ≤ (f.stmtsAt bb).length, ∀ l,
      l ∈ (f.readAt bb idx).filterMap Operand.local? → P idx l)
    (hstmt : ∀ idx stmt l, (f.stmtsAt bb)[idx]? = some stmt → stmt.kind.kills? ≠ some l →
      P (idx + 1) l → P idx l)
    (hsucc : ∀ succ ∈ f.successors bb, ∀ l ∈ liveAt liveAfter succ 0, P (f.stmtsAt bb).length l)
    {idx : Nat} {l : Local} (hl : l ∈ (liveBlock f liveAfter bb).getD idx ∅) : P idx l := by
  obtain hlt | rfl | hgt := Nat.lt_trichotomy idx (f.stmtsAt bb).length
  · obtain ⟨stmt, hs⟩ : ∃ stmt, (f.stmtsAt bb)[idx]? = some stmt :=
      ⟨_, List.getElem?_eq_getElem hlt⟩
    rcases (mem_liveBlock_stmt hs).mp hl with h | ⟨h, hk⟩
    · exact hread idx hlt.le l h
    · exact hstmt idx stmt l hs hk (liveBlock_backward hread hstmt hsucc h)
  · rcases mem_liveBlock_term.mp hl with h | ⟨succ, hmem, h⟩
    · exact hread _ (Nat.le_refl _) l h
    · exact hsucc succ hmem l h
  · have hlen : (liveBlock f liveAfter bb).length ≤ idx := by
      rw [liveBlock, liveThrough_length]
      omega
    rw [List.getD_eq_default _ _ hlen] at hl
    exact absurd hl (Finset.notMem_empty l)
termination_by (f.stmtsAt bb).length - idx

section Ends

/-- The places of a block's list, and what is live at each. -/
def liveFacts (live : List (Finset Local)) : Finset (Nat × Option Local) :=
  (Finset.range live.length).biUnion fun idx =>
    insert (idx, none) ((live.getD idx ∅).image fun l => (idx, some l))

theorem mem_liveFacts_none {live : List (Finset Local)} {idx : Nat} :
    (idx, none) ∈ liveFacts live ↔ idx < live.length := by
  simp [liveFacts]

theorem mem_liveFacts_some {live : List (Finset Local)} {idx : Nat} :
    (idx, some l) ∈ liveFacts live ↔ l ∈ live.getD idx ∅ := by
  simp only [liveFacts, Finset.mem_biUnion, Finset.mem_range, Finset.mem_insert, Prod.mk.injEq,
    reduceCtorEq, and_false, Finset.mem_image, Option.some.injEq, false_or]
  constructor
  · rintro ⟨_, _, _, h, rfl, rfl⟩
    exact h
  · intro h
    refine ⟨idx, ?_, l, h, rfl, rfl⟩
    by_contra hlen
    rw [List.getD_eq_default _ _ (Nat.le_of_not_lt hlen)] at h
    exact absurd h (Finset.notMem_empty l)

theorem liveFacts_injective {live live' : List (Finset Local)}
    (h : liveFacts live = liveFacts live') : live = live' := by
  have hlen : live.length = live'.length := by
    have hiff : ∀ idx, idx < live.length ↔ idx < live'.length := by
      intro idx
      rw [← mem_liveFacts_none, h, mem_liveFacts_none]
    have h1 := hiff live.length
    have h2 := hiff live'.length
    omega
  apply List.ext_getElem hlen
  intro idx hi hi'
  ext l
  have hl : l ∈ live.getD idx ∅ ↔ l ∈ live'.getD idx ∅ := by
    rw [← mem_liveFacts_some, h, mem_liveFacts_some]
  simpa only [List.getD_eq_getElem _ _ hi, List.getD_eq_getElem _ _ hi'] using hl

/-- The locals that the function reads somewhere. -/
def readLocals (f : MirFunction) : Finset Local :=
  (Finset.range f.basicBlocks.length).biUnion fun bb =>
    (Finset.range ((f.stmtsAt bb).length + 1)).biUnion fun idx =>
      ((f.readAt bb idx).filterMap Operand.local?).toFinset

/-- More places than any block has. -/
def placeBound (f : MirFunction) : Nat :=
  (Finset.range f.basicBlocks.length).sup (fun bb => (f.stmtsAt bb).length) + 2

structure BlockBounded (f : MirFunction) (live : List (Finset Local)) : Prop where
  places : live.length < placeBound f
  locals : ∀ idx, live.getD idx ∅ ⊆ readLocals f

theorem stmtsAt_bound (f : MirFunction) (bb : BasicBlockId) :
    (f.stmtsAt bb).length + 1 < placeBound f := by
  unfold placeBound
  by_cases hbb : bb < f.basicBlocks.length
  · have hle : (f.stmtsAt bb).length ≤
        (Finset.range f.basicBlocks.length).sup (fun bb => (f.stmtsAt bb).length) :=
      Finset.le_sup (f := fun bb => (f.stmtsAt bb).length) (Finset.mem_range.mpr hbb)
    omega
  · simp only [MirFunction.stmtsAt, List.getElem?_eq_none (Nat.le_of_not_lt hbb), List.length_nil]
    omega

theorem readAt_readLocals {bb : BasicBlockId} {idx : Nat} (hidx : idx ≤ (f.stmtsAt bb).length)
    (hl : l ∈ (f.readAt bb idx).filterMap Operand.local?) : l ∈ readLocals f := by
  have hbb : bb < f.basicBlocks.length := by
    by_contra hbb
    have hnone : f.basicBlocks[bb]? = none := List.getElem?_eq_none (Nat.le_of_not_lt hbb)
    simp [MirFunction.readAt, MirFunction.operandsAt, MirFunction.stmtsAt,
      MirFunction.terminatorAt, hnone] at hl
  simp only [readLocals, Finset.mem_biUnion, Finset.mem_range, List.mem_toFinset]
  exact ⟨bb, hbb, idx, by omega, hl⟩

theorem liveFacts_bounded {live : List (Finset Local)} (h : BlockBounded f live) :
    liveFacts live ⊆ Finset.range (placeBound f) ×ˢ Finset.insertNone (readLocals f) := by
  rintro ⟨idx, place⟩ hmem
  cases place with
  | none =>
    have hlt := mem_liveFacts_none.mp hmem
    have hbound := h.places
    simp only [Finset.mem_product, Finset.mem_range, Finset.none_mem_insertNone, and_true]
    omega
  | some l =>
    have hl := mem_liveFacts_some.mp hmem
    have hlt : idx < live.length := by
      by_contra hlen
      rw [List.getD_eq_default _ _ (Nat.le_of_not_lt hlen)] at hl
      exact absurd hl (Finset.notMem_empty l)
    have hbound := h.places
    simp only [Finset.mem_product, Finset.mem_range, Finset.some_mem_insertNone]
    exact ⟨by omega, h.locals idx hl⟩

theorem liveAt_bounded {n : Nat} {out : List (List (Finset Local))}
    (h : Valued (BlockBounded f) n out) (bb : BasicBlockId) (idx : Nat) :
    liveAt out bb idx ⊆ readLocals f := by
  intro l hl
  obtain ⟨live, hlive, hl⟩ := mem_liveAt.mp hl
  exact (h.values bb live hlive).locals idx hl

theorem liveBlock_bounded {n : Nat} {out : List (List (Finset Local))}
    (h : Valued (BlockBounded f) n out) (bb : BasicBlockId) : BlockBounded f (liveBlock f out bb) where
  places := by
    rw [liveBlock, liveThrough_length]
    exact stmtsAt_bound f bb
  locals := by
    intro idx l hl
    exact liveBlock_backward (P := fun _ l => l ∈ readLocals f)
      (fun idx hidx l hread => readAt_readLocals hidx hread) (fun _ _ _ _ _ hlater => hlater)
      (fun succ _ l hsucc => liveAt_bounded h succ 0 hsucc) hl

theorem liveAt_below {n : Nat} {out out' : List (List (Finset Local))}
    (h : Valued (BlockBounded f) n out) (h' : Valued (BlockBounded f) n out')
    (hle : Below liveFacts out out') {bb : BasicBlockId} {idx : Nat} (hl : l ∈ liveAt out bb idx) :
    l ∈ liveAt out' bb idx := by
  obtain ⟨live, hlive, hl⟩ := mem_liveAt.mp hl
  have hbb : bb < out'.length := by
    rw [h'.length, ← h.length]
    exact (List.getElem?_eq_some_iff.mp hlive).1
  have hlive' := List.getElem?_eq_getElem hbb
  exact mem_liveAt.mpr ⟨_, hlive',
    mem_liveFacts_some.mp (hle bb _ _ hlive hlive' (mem_liveFacts_some.mpr hl))⟩

theorem liveBlock_below {n : Nat} {out out' : List (List (Finset Local))}
    (h : Valued (BlockBounded f) n out) (h' : Valued (BlockBounded f) n out')
    (hle : Below liveFacts out out') (bb : BasicBlockId) :
    liveFacts (liveBlock f out bb) ⊆ liveFacts (liveBlock f out' bb) := by
  rintro ⟨idx, place⟩ hmem
  cases place with
  | none =>
    rw [mem_liveFacts_none, liveBlock, liveThrough_length] at hmem ⊢
    exact hmem
  | some l =>
    rw [mem_liveFacts_some] at hmem ⊢
    refine liveBlock_backward (P := fun idx l => l ∈ (liveBlock f out' bb).getD idx ∅) ?_ ?_ ?_ hmem
    · intro idx hidx l hread
      rcases Nat.lt_or_eq_of_le hidx with hlt | rfl
      · exact (mem_liveBlock_stmt (List.getElem?_eq_getElem hlt)).mpr (.inl hread)
      · exact mem_liveBlock_term.mpr (.inl hread)
    · intro idx stmt l hs hk hlater
      exact (mem_liveBlock_stmt hs).mpr (.inr ⟨hlater, hk⟩)
    · intro succ hsucc l hl
      exact mem_liveBlock_term.mpr (.inr ⟨succ, hsucc, liveAt_below h h' hle hl⟩)

/-- The state that the rounds start from. -/
def nothingLive (f : MirFunction) : List (List (Finset Local)) :=
  f.basicBlocks.map fun block => List.replicate (block.statements.length + 1) ∅

theorem nothingLive_at {bb : BasicBlockId} {live : List (Finset Local)}
    (h : (nothingLive f)[bb]? = some live) :
    live = List.replicate ((f.stmtsAt bb).length + 1) ∅ := by
  rw [nothingLive, List.getElem?_map, Option.map_eq_some_iff] at h
  obtain ⟨block, hb, rfl⟩ := h
  rw [stmtsAt_of_block hb]

theorem mem_replicate_empty {n idx : Nat} : l ∉ (List.replicate n (∅ : Finset Local)).getD idx ∅ := by
  rw [List.getD_eq_getElem?_getD, List.getElem?_replicate]
  split <;> exact Finset.notMem_empty l

theorem nothingLive_valued :
    Valued (BlockBounded f) f.basicBlocks.length (nothingLive f) where
  length := by rw [nothingLive, List.length_map]
  values := by
    intro bb live hlive
    rw [nothingLive_at hlive]
    refine ⟨?_, fun idx l hl => absurd hl mem_replicate_empty⟩
    rw [List.length_replicate]
    exact stmtsAt_bound f bb

theorem nothingLive_growing : Growing liveFacts (liveBlock f) (nothingLive f) := by
  intro bb live hlive
  rw [nothingLive_at hlive]
  rintro ⟨idx, place⟩ hmem
  cases place with
  | none =>
    rw [mem_liveFacts_none, List.length_replicate] at hmem
    rwa [mem_liveFacts_none, liveBlock, liveThrough_length]
  | some l => exact absurd (mem_liveFacts_some.mp hmem) mem_replicate_empty

/-- The rounds end: each of them but the last finds a local that is live at a place more. -/
theorem computeLiveness_exists (f : MirFunction) {fuel : Nat}
    (hfuel : f.basicBlocks.length * (placeBound f * ((readLocals f).card + 1)) < fuel) :
    ∃ liveAfter, computeLiveness f fuel = some liveAfter := by
  refine sweeps_exist_of_growing (P := Growing liveFacts (liveBlock f)) liveFacts (BlockBounded f)
    (Finset.range (placeBound f) ×ˢ Finset.insertNone (readLocals f)) ?_
    (fun live h => liveFacts_bounded h)
    (fun out bb live _ _ hsame => liveFacts_injective hsame)
    (fun out bb h => liveBlock_bounded h bb)
    (fun out bb hv h => relax_growing (fun out bb h => liveBlock_bounded h bb)
      (fun out out' bb h h' hle => liveBlock_below h h' hle bb) hv h)
    (fun out _ h => h) nothingLive_valued nothingLive_growing ?_
  · intro bb hbb
    exact List.mem_range.mp (List.mem_reverse.mp hbb)
  · rwa [Finset.card_product, Finset.card_range, Finset.card_insertNone]

end Ends

section Exact

variable {fuel : Nat} {liveAfter : List (List (Finset Local))}

/-- Nothing is ever taken for live that is not read later. -/
theorem computeLiveness_sound (h : computeLiveness f fuel = some liveAfter) {bb : BasicBlockId}
    {idx : Nat} (hl : l ∈ liveAt liveAfter bb idx) : ReadLater f l ⟨bb, idx⟩ := by
  let Sound := fun out => ∀ bb idx l, l ∈ liveAt out bb idx → ReadLater f l ⟨bb, idx⟩
  have hrelax : ∀ out, ∀ b ∈ (List.range f.basicBlocks.length).reverse, Sound out →
      Sound (relax (liveBlock f) out b).1 := by
    intro out b _ hout bb idx l hl
    obtain ⟨live, hlive, hl⟩ := mem_liveAt.mp hl
    rcases relax_value hlive with ⟨rfl, rfl⟩ | hold
    · exact liveBlock_backward (P := fun idx l => ReadLater f l ⟨bb, idx⟩)
        (fun idx _ l hread => .of_read hread)
        (fun idx stmt l hs hk hlater => .of_goesOn (.stmt hs hk) hlater)
        (fun succ hsucc l hsl => .of_goesOn (.edge rfl hsucc) (hout succ 0 l hsl)) hl
    · exact hout bb idx l (mem_liveAt.mpr ⟨live, hold, hl⟩)
  have hstart : Sound (nothingLive f) := by
    intro bb idx l hl
    obtain ⟨live, hlive, hl⟩ := mem_liveAt.mp hl
    rw [nothingLive_at hlive] at hl
    exact absurd hl mem_replicate_empty
  exact untilStable_invariant (P := Sound) (fun out hout => sweep_invariant hrelax hout) hstart h
    bb idx l hl

theorem computeLiveness_complete (h : computeLiveness f fuel = some liveAfter)
    (htargets : TargetsInRange f) {p : Place} (hbb : p.bb < f.basicBlocks.length)
    (hidx : p.idx ≤ (f.stmtsAt p.bb).length) (hl : ReadLater f l p) :
    l ∈ liveAt liveAfter p.bb p.idx := by
  obtain ⟨q, hpath, hread⟩ := hl
  induction hpath using Relation.ReflTransGen.head_induction_on with
  | refl =>
    rcases Nat.lt_or_eq_of_le hidx with hlt | heq
    · exact (mem_liveAt_stmt h (List.getElem?_eq_getElem hlt)).mpr (.inl hread)
    · rw [heq] at hread ⊢
      exact (mem_liveAt_term h hbb).mpr (.inl hread)
  | head hstep _ ih =>
    cases hstep with
    | stmt hs hk =>
      have hlt := (List.getElem?_eq_some_iff.mp hs).1
      exact (mem_liveAt_stmt h hs).mpr (.inr ⟨ih hbb hlt, hk⟩)
    | edge hend hsucc =>
      rw [hend]
      exact (mem_liveAt_term h hbb).mpr
        (.inr ⟨_, hsucc, ih (htargets _ _ hsucc) (Nat.zero_le _)⟩)

end Exact

/-- The rounds end, and then a local is live at a place just when it is read later from there. -/
theorem liveness_exact (f : MirFunction) (htargets : TargetsInRange f) :
    ∃ fuel liveAfter, computeLiveness f fuel = some liveAfter ∧
      liveAfter.length = f.basicBlocks.length ∧
      ∀ bb < f.basicBlocks.length, (liveAfter.getD bb []).length = (f.stmtsAt bb).length + 1 ∧
        ∀ idx ≤ (f.stmtsAt bb).length, ∀ l,
          l ∈ liveAt liveAfter bb idx ↔ ReadLater f l ⟨bb, idx⟩ := by
  obtain ⟨liveAfter, h⟩ := computeLiveness_exists f (Nat.lt_succ_self _)
  refine ⟨_, liveAfter, h, computeLiveness_length h, ?_⟩
  intro bb hbb
  constructor
  · rw [liveAfter_block h hbb, liveBlock, liveThrough_length]
  · intro idx hidx l
    exact ⟨computeLiveness_sound h, computeLiveness_complete h htargets hbb hidx⟩

/-- `x = 1; while x { x = x - 1 }`, with `x` in local 1. -/
def countsDown : MirFunction where
  name := "countsDown"
  locals := []
  basicBlocks := [
    ⟨[plainStmt (.assign 1 (.use (.const (.int 1))))], some ⟨.goto 1, .default⟩⟩,
    ⟨[], some ⟨.switchInt (.copy 1) [(0, 3)] 2, .default⟩⟩,
    ⟨[plainStmt (.assign 1 (.binaryOp .sub (.copy 1) (.const (.int 1))))], some ⟨.goto 1, .default⟩⟩,
    ⟨[], some ⟨.ret, .default⟩⟩]
  argCount := 0
  varargIdx := none
  kwargIdx := none
  paramNames := []
  isAsync := false

theorem countsDown_inRange : TargetsInRange countsDown := by
  intro bb succ hsucc
  have hall : ∀ bb < 4, ∀ succ ∈ countsDown.successors bb, succ < 4 := by decide
  exact hall bb (MirFunction.lt_of_successors hsucc) succ hsucc

theorem liveness_exact_countsDown : ∃ fuel liveAfter, computeLiveness countsDown fuel = some liveAfter ∧
    liveAfter.length = countsDown.basicBlocks.length ∧
    ∀ bb < countsDown.basicBlocks.length,
      (liveAfter.getD bb []).length = (countsDown.stmtsAt bb).length + 1 ∧
        ∀ idx ≤ (countsDown.stmtsAt bb).length, ∀ l,
          l ∈ liveAt liveAfter bb idx ↔ ReadLater countsDown l ⟨bb, idx⟩ :=
  liveness_exact countsDown countsDown_inRange

end Olive
