import Olive.MustStale
import Olive.ParamAlias

/-! One bit of the staleness masks: the local it stands for, and what a statement does to it. -/

namespace Olive

def bitAt (masks : List Word) (s b : Nat) : Bool := (masks.getD s 0).getLsbD b

/-- The root that bit `b` of suspect index `s` stands for. -/
def MustInfo.rootAt (must : MustInfo) (s b : Nat) : Option Local :=
  (must.rootList.getD s [])[b]?

/-- One root list a suspect, each fitting its mask. -/
structure MustInfo.WellFormed (must : MustInfo) : Prop where
  length : must.rootList.length = must.suspects.length
  fits : ∀ roots ∈ must.rootList, roots.length ≤ 64
  nodup : must.suspects.Nodup

theorem bitAt_set {masks : List Word} {s t b : Nat} {w : Word} (hs : s < masks.length) :
    bitAt (masks.set t w) s b = if s = t then w.getLsbD b else bitAt masks s b := by
  unfold bitAt
  rw [getD_set]
  by_cases ht : t = s
  · rw [if_pos ⟨ht, hs⟩, if_pos ht.symm]
  · rw [if_neg (fun h => ht h.1), if_neg (fun h => ht h.symm)]

theorem MustInfo.mem_reverse {must : MustInfo} {r : Local} {s b : Nat} :
    (s, b) ∈ must.reverse r ↔ must.rootAt s b = some r := by
  simp only [reverse, List.mem_flatMap, List.mem_map, List.mem_filter, beq_iff_eq, Prod.exists,
    List.mem_zipIdx_iff_getElem?, Prod.mk.injEq, rootAt]
  constructor
  · rintro ⟨roots, _, hroots, _, _, ⟨hb, rfl⟩, rfl, rfl⟩
    rw [getD_of_some hroots]
    exact hb
  · intro h
    cases hroots : must.rootList[s]? with
    | none => simp [List.getD_eq_getElem?_getD, hroots] at h
    | some roots =>
      rw [getD_of_some hroots] at h
      exact ⟨roots, s, hroots, r, b, ⟨h, rfl⟩, rfl, rfl⟩

theorem MustInfo.WellFormed.rootAt_lt {must : MustInfo} (h : must.WellFormed) {s b : Nat}
    {r : Local} (hr : must.rootAt s b = some r) : s < must.suspects.length ∧ b < 64 := by
  unfold rootAt at hr
  cases hroots : must.rootList[s]? with
  | none => simp [List.getD_eq_getElem?_getD, hroots] at hr
  | some roots =>
    rw [getD_of_some hroots] at hr
    have hs := (List.getElem?_eq_some_iff.mp hroots).1
    have hb := (List.getElem?_eq_some_iff.mp hr).1
    have hfit := h.fits roots (List.mem_of_getElem? hroots)
    exact ⟨h.length ▸ hs, by omega⟩

theorem MustInfo.WellFormed.indexOf_iff {must : MustInfo} (h : must.WellFormed) {l : Local}
    {s : Nat} : must.indexOf l = some s ↔ must.suspects[s]? = some l := by
  unfold indexOf
  rw [List.findIdx?_eq_some_iff_getElem]
  constructor
  · rintro ⟨hs, he, _⟩
    rw [List.getElem?_eq_getElem hs, beq_iff_eq.mp he]
  · intro hl
    obtain ⟨hs, he⟩ := List.getElem?_eq_some_iff.mp hl
    refine ⟨hs, beq_iff_eq.mpr he, ?_⟩
    intro j hj
    simp only [beq_iff_eq]
    intro hjl
    have hjlen : j < must.suspects.length := by omega
    have heq := h.nodup.getElem_inj_iff.mp (hjl.trans he.symm)
    omega

theorem getLsbD_clear (mask : Word) (b c : Nat) :
    (mask &&& ~~~BitVec.twoPow 64 c).getLsbD b = (mask.getLsbD b && !decide (b = c)) := by
  rw [BitVec.getLsbD_and, BitVec.getLsbD_not, BitVec.getLsbD_twoPow]
  by_cases hb : b < 64
  · have hbc : decide (c = b) = decide (b = c) := decide_eq_decide.mpr eq_comm
    by_cases hc : b = c
    · simp [hb, ← hc]
    · simp [hb, hc, Ne.symm hc]
  · simp [BitVec.getLsbD_of_ge mask b (by omega)]

theorem getLsbD_raise (mask : Word) (b : Nat) {c : Nat} (hc : c < 64) :
    (mask ||| BitVec.twoPow 64 c).getLsbD b = (mask.getLsbD b || decide (b = c)) := by
  rw [BitVec.getLsbD_or, BitVec.getLsbD_twoPow]
  have hbc : decide (c = b) = decide (b = c) := decide_eq_decide.mpr eq_comm
  simp [hc, hbc]

theorem killBit_bitAt {st : MustState} {bit : Nat × Nat} {s b : Nat} (hs : s < st.masks.length) :
    bitAt (killBit st bit).masks s b = (bitAt st.masks s b && !decide ((s, b) = bit)) := by
  obtain ⟨t, c⟩ := bit
  unfold killBit
  rw [bitAt_set hs]
  by_cases ht : s = t
  · subst t
    simp only [↓reduceIte, getLsbD_clear, bitAt, Prod.mk.injEq, true_and]
  · simp [ht]

theorem raiseBit_bitAt {span : Span} {st : MustState} {bit : Nat × Nat} {s b : Nat}
    (hs : s < st.masks.length) (hb : bit.2 < 64) :
    bitAt (raiseBit span st bit).masks s b = (bitAt st.masks s b || decide ((s, b) = bit)) := by
  obtain ⟨t, c⟩ := bit
  unfold raiseBit
  rw [bitAt_set hs]
  by_cases ht : s = t
  · subst t
    simp only [↓reduceIte, getLsbD_raise _ _ hb, bitAt, Prod.mk.injEq, true_and]
  · simp [ht]

theorem killBits_length (bits : List (Nat × Nat)) (st : MustState) :
    (bits.foldl killBit st).masks.length = st.masks.length := by
  induction bits generalizing st with
  | nil => rfl
  | cons bit bits ih => exact (ih _).trans List.length_set

theorem raiseBits_length (span : Span) (bits : List (Nat × Nat)) (st : MustState) :
    (bits.foldl (raiseBit span) st).masks.length = st.masks.length := by
  induction bits generalizing st with
  | nil => rfl
  | cons bit bits ih => exact (ih _).trans List.length_set

theorem killBits_bitAt (bits : List (Nat × Nat)) {st : MustState} {s b : Nat}
    (hs : s < st.masks.length) : bitAt (bits.foldl killBit st).masks s b =
      (bitAt st.masks s b && !decide ((s, b) ∈ bits)) := by
  induction bits generalizing st with
  | nil => simp
  | cons bit bits ih =>
    have hlen : (killBit st bit).masks.length = st.masks.length := List.length_set
    rw [List.foldl_cons, ih (hlen ▸ hs), killBit_bitAt hs]
    by_cases h1 : (s, b) = bit <;> by_cases h2 : (s, b) ∈ bits <;> simp [h1, h2]

theorem raiseBits_bitAt (span : Span) (bits : List (Nat × Nat)) (hbits : ∀ bit ∈ bits, bit.2 < 64)
    {st : MustState} {s b : Nat} (hs : s < st.masks.length) :
    bitAt (bits.foldl (raiseBit span) st).masks s b =
      (bitAt st.masks s b || decide ((s, b) ∈ bits)) := by
  induction bits generalizing st with
  | nil => simp
  | cons bit bits ih =>
    have hlen : (raiseBit span st bit).masks.length = st.masks.length := List.length_set
    rw [List.foldl_cons, ih (fun c hc => hbits c (by simp [hc])) (hlen ▸ hs),
      raiseBit_bitAt hs (hbits bit (by simp))]
    by_cases h1 : (s, b) = bit <;> by_cases h2 : (s, b) ∈ bits <;> simp [h1, h2]

/-- What a statement does to the bit of suspect `s` for root `b`. -/
def bitAfter (must : MustInfo) (s b : Nat) (old : Bool) (stmt : Statement) : Bool :=
  match stmt.kind with
  | .assign dst _ =>
    old && !decide (must.suspects[s]? = some dst) && !decide (must.rootAt s b = some dst)
  | .drop dropped => old || decide (must.rootAt s b = some dropped)
  | _ => old

theorem mustStmt_length (must : MustInfo) (st : MustState) (stmt : Statement) :
    (mustStmt must st stmt).masks.length = st.masks.length := by
  cases hk : stmt.kind with
  | assign dst rval =>
    simp only [mustStmt, hk, killBits_length]
    cases must.indexOf dst <;> simp
  | drop dropped => simp only [mustStmt, hk, raiseBits_length]
  | _ => simp [mustStmt, hk]

theorem mustStmt_bitAt {must : MustInfo} (hm : must.WellFormed) {st : MustState}
    {stmt : Statement} {s : Nat} (b : Nat) (hs : s < st.masks.length) :
    bitAt (mustStmt must st stmt).masks s b = bitAfter must s b (bitAt st.masks s b) stmt := by
  cases hk : stmt.kind with
  | assign dst rval =>
    simp only [mustStmt, bitAfter, hk]
    cases hd : must.indexOf dst with
    | none =>
      have hne : must.suspects[s]? ≠ some dst := by
        intro he
        rw [← hm.indexOf_iff, hd] at he
        simp at he
      simp [killBits_bitAt _ hs, hne, MustInfo.mem_reverse]
    | some t =>
      have ht := hm.indexOf_iff.mp hd
      let cleared : MustState := ⟨st.masks.set t 0, st.spans.set t none⟩
      have hcleared : s < cleared.masks.length := by simpa [cleared] using hs
      rw [killBits_bitAt _ hcleared, bitAt_set hs]
      by_cases hst : s = t
      · simp [hst, ht]
      · have hne : must.suspects[s]? ≠ some dst := by
          intro he
          have hsome := hm.indexOf_iff.mpr he
          rw [hd] at hsome
          exact hst (Option.some.inj hsome).symm
        simp [hst, hne, MustInfo.mem_reverse]
  | drop dropped =>
    simp only [mustStmt, bitAfter, hk]
    have hbits : ∀ bit ∈ must.reverse dropped, bit.2 < 64 :=
      fun _ hbit => (hm.rootAt_lt (MustInfo.mem_reverse.mp hbit)).2
    simp [raiseBits_bitAt stmt.span _ hbits hs, MustInfo.mem_reverse]
  | _ => simp [mustStmt, bitAfter, hk]

theorem mustStmts_length (must : MustInfo) (stmts : List Statement) (st : MustState) :
    (mustStmts must stmts st).masks.length = st.masks.length := by
  induction stmts generalizing st with
  | nil => rfl
  | cons stmt stmts ih => exact (ih _).trans (mustStmt_length must st stmt)

theorem mustStmts_bitAt {must : MustInfo} (hm : must.WellFormed) (stmts : List Statement)
    {st : MustState} {s : Nat} (b : Nat) (hs : s < st.masks.length) :
    bitAt (mustStmts must stmts st).masks s b =
      stmts.foldl (bitAfter must s b) (bitAt st.masks s b) := by
  induction stmts generalizing st with
  | nil => rfl
  | cons stmt stmts ih =>
    have hs' : s < (mustStmt must st stmt).masks.length := (mustStmt_length must st stmt) ▸ hs
    exact (ih hs').trans (by rw [mustStmt_bitAt hm b hs]; rfl)

end Olive

/-! The masks of the staleness loop, without the spans that only feed the diagnostic. -/

namespace Olive

open UntilStable RoundRobin

def maskStmts (must : MustInfo) (stmts : List Statement) (masks : List Word) : List Word :=
  (mustStmts must stmts ⟨masks, []⟩).masks

def mergeMasks (k : Nat) (preds : List BasicBlockId) (outs : List (List Word)) : List Word :=
  match preds with
  | [] => List.replicate k 0
  | p :: ps =>
    ps.foldl (fun masks q => masks.zipWith (· &&& ·) (outs.getD q (List.replicate k 0)))
      (outs.getD p (List.replicate k 0))

/-- The masks at the end of block `bb`, recomputed from the other blocks' masks. -/
def maskFlow (must : MustInfo) (f : MirFunction) (outs : List (List Word)) (bb : BasicBlockId) :
    List Word :=
  maskStmts must (f.stmtsAt bb) (mergeMasks must.suspects.length (f.predecessors bb) outs)

theorem killBits_masks_congr (bits : List (Nat × Nat)) {st st' : MustState}
    (h : st.masks = st'.masks) : (bits.foldl killBit st).masks = (bits.foldl killBit st').masks := by
  induction bits generalizing st st' with
  | nil => exact h
  | cons bit bits ih => exact ih (by simp [killBit, h])

theorem raiseBits_masks_congr (span : Span) (bits : List (Nat × Nat)) {st st' : MustState}
    (h : st.masks = st'.masks) :
    (bits.foldl (raiseBit span) st).masks = (bits.foldl (raiseBit span) st').masks := by
  induction bits generalizing st st' with
  | nil => exact h
  | cons bit bits ih => exact ih (by simp [raiseBit, h])

theorem mustStmt_masks_congr (must : MustInfo) (stmt : Statement) {st st' : MustState}
    (h : st.masks = st'.masks) : (mustStmt must st stmt).masks = (mustStmt must st' stmt).masks := by
  cases hk : stmt.kind with
  | assign dst rval =>
    simp only [mustStmt, hk]
    cases must.indexOf dst with
    | none => exact killBits_masks_congr _ h
    | some s => exact killBits_masks_congr _ (by simp [h])
  | drop dropped =>
    simp only [mustStmt, hk]
    exact raiseBits_masks_congr _ _ h
  | _ => simpa only [mustStmt, hk] using h

theorem mustStmts_masks_eq (must : MustInfo) (stmts : List Statement) (st : MustState) :
    (mustStmts must stmts st).masks = maskStmts must stmts st.masks := by
  have hcongr : ∀ st st' : MustState, st.masks = st'.masks →
      (mustStmts must stmts st).masks = (mustStmts must stmts st').masks := by
    induction stmts with
    | nil => exact fun _ _ h => h
    | cons stmt stmts ih => exact fun _ _ h => ih _ _ (mustStmt_masks_congr must stmt h)
  exact hcongr _ _ rfl

theorem mergePreds_masks (must : MustInfo) (f : MirFunction) (outs : List MustState)
    (bb : BasicBlockId) : (mergePreds must f outs bb).masks =
      mergeMasks must.suspects.length (f.predecessors bb) (outs.map (·.masks)) := by
  have hget : ∀ q, (outs.map (·.masks)).getD q (List.replicate must.suspects.length 0) =
      (outs.getD q (.bottom must.suspects.length)).masks :=
    fun q => getD_map MustState.masks outs q (.bottom must.suspects.length)
  unfold mergePreds mergeMasks
  cases f.predecessors bb with
  | nil => rfl
  | cons p ps =>
    simp only [hget]
    generalize outs.getD p (.bottom must.suspects.length) = st
    induction ps generalizing st with
    | nil => rfl
    | cons q ps ih => exact ih _

/-- One block's turn changes the masks as a round-robin step does. -/
theorem mustStep_masks (must : MustInfo) (f : MirFunction) (outs : List MustState)
    (bb : BasicBlockId) : relax (maskFlow must f) (outs.map (·.masks)) bb =
      ((mustStep must f outs bb).1.map (·.masks), (mustStep must f outs bb).2) := by
  have hflow : maskFlow must f (outs.map (·.masks)) bb =
      (mustStmts must (f.stmtsAt bb) (mergePreds must f outs bb)).masks := by
    rw [maskFlow, mustStmts_masks_eq, mergePreds_masks]
  unfold relax mustStep
  rw [hflow, List.getElem?_map]
  dsimp only
  split
  next h =>
    refine Prod.ext ?_ (by simp [h])
    obtain ⟨hb, he⟩ := List.getElem?_eq_some_iff.mp
      ((List.getElem?_map (f := MustState.masks) (l := outs) (i := bb)).trans h)
    rw [List.map_set, ← he, List.set_getElem_self]
  next h => exact Prod.ext (by simp [List.map_set]) (by simp [h])

def maskSeed (must : MustInfo) (f : MirFunction) : List (List Word) :=
  (List.range f.basicBlocks.length).map fun bb =>
    if f.predecessors bb = [] then List.replicate must.suspects.length 0 else must.fullMasks

/-- The loop on states with spans is the loop on masks. -/
theorem mustLoop_masks (must : MustInfo) (f : MirFunction) (fuel : Nat) :
    (mustLoop must f fuel).map (List.map (·.masks)) =
      solve (maskFlow must f) f.basicBlocks.length fuel (maskSeed must f) := by
  have hseed : (mustSeed must f).map (·.masks) = maskSeed must f := by
    simp only [mustSeed, maskSeed, List.map_map]
    refine List.map_congr_left fun bb _ => ?_
    simp only [Function.comp]
    split <;> rfl
  rw [mustLoop, solve, ← hseed]
  exact untilStable_map (fun s => sweep_map (mustStep_masks must f) _ s) fuel _

end Olive
