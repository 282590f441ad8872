import Olive.MustFlow

/-! Along which walks the bit of a root is set: the soundness and the exactness of the masks. -/

namespace Olive

open UntilStable RoundRobin FlowGraph

theorem staled_concat {l r : Local} {stmts : List Statement} {stmt : Statement} :
    Staled l r (stmts ++ [stmt]) ↔ stmt.kind = .drop r ∨
      (Staled l r stmts ∧ stmt.dst? ≠ some l ∧ stmt.dst? ≠ some r) := by
  constructor
  · intro h
    obtain ⟨before, drop, after, he, hd, hkeep⟩ := h
    cases after using List.reverseRecOn with
    | nil =>
      obtain ⟨_, hs⟩ := List.append_inj' he rfl
      cases List.singleton_inj.mp hs
      exact .inl hd
    | append_singleton after last =>
      have hsplit : stmts ++ [stmt] = (before ++ drop :: after) ++ [last] := by simpa using he
      obtain ⟨hpre, hs⟩ := List.append_inj' hsplit rfl
      cases List.singleton_inj.mp hs
      exact .inr ⟨⟨before, drop, after, hpre, hd, fun s hs => hkeep s (by simp [hs])⟩,
        hkeep stmt (by simp)⟩
  · intro h
    rcases h with hd | ⟨⟨before, drop, after, he, hd, hkeep⟩, hl⟩
    · exact ⟨stmts, stmt, [], rfl, hd, by simp⟩
    · refine ⟨before, drop, after ++ [stmt], by simp [he], hd, ?_⟩
      intro s hs
      rcases List.mem_append.mp hs with hs | hs
      · exact hkeep s hs
      · obtain rfl : s = stmt := by simpa using hs
        exact hl

theorem not_staled_nil {l r : Local} : ¬Staled l r [] := by
  intro h
  obtain ⟨before, drop, after, he, _⟩ := h
  simp at he

section Bit

variable {must : MustInfo} {s b : Nat} {l r : Local}

theorem bitAfter_iff (hl : must.suspects[s]? = some l) (hr : must.rootAt s b = some r)
    {old : Bool} {stmt : Statement} : bitAfter must s b old stmt = true ↔
      stmt.kind = .drop r ∨ (old = true ∧ stmt.dst? ≠ some l ∧ stmt.dst? ≠ some r) := by
  cases hk : stmt.kind with
  | assign dst rval =>
    simp [bitAfter, hk, hl, hr, Statement.dst?, and_assoc, @eq_comm _ l, @eq_comm _ r]
  | drop dropped =>
    simp [bitAfter, hk, hr, Statement.dst?, or_comm, @eq_comm _ r]
  | _ => simp [bitAfter, hk, Statement.dst?]

theorem foldBits_sound (hl : must.suspects[s]? = some l) (hr : must.rootAt s b = some r)
    (stmts : List Statement) {old : Bool} {ran : List Statement}
    (h : old = true → Staled l r ran) :
    stmts.foldl (bitAfter must s b) old = true → Staled l r (ran ++ stmts) := by
  induction stmts using List.reverseRecOn with
  | nil => simpa using h
  | append_singleton stmts stmt ih =>
    rw [List.foldl_concat, bitAfter_iff hl hr, ← List.append_assoc, staled_concat]
    exact Or.imp_right fun hb => ⟨ih hb.1, hb.2⟩

theorem foldBits_complete (hl : must.suspects[s]? = some l) (hr : must.rootAt s b = some r)
    (stmts : List Statement) {old : Bool} {ran : List Statement}
    (h : Staled l r ran → old = true) :
    Staled l r (ran ++ stmts) → stmts.foldl (bitAfter must s b) old = true := by
  induction stmts using List.reverseRecOn with
  | nil => simpa using h
  | append_singleton stmts stmt ih =>
    rw [List.foldl_concat, bitAfter_iff hl hr, ← List.append_assoc, staled_concat]
    exact Or.imp_right fun hb => ⟨ih hb.1, hb.2⟩

end Bit

/-- Masks for `k` suspects, with no bit set beyond a suspect's roots. -/
def MaskRow (must : MustInfo) (masks : List Word) : Prop :=
  masks.length = must.suspects.length ∧
    ∀ s b, must.rootAt s b = none → bitAt masks s b = false

section Rows

variable {must : MustInfo} {f : MirFunction} {outs : List (List Word)}

theorem maskStmts_length (must : MustInfo) (stmts : List Statement) (masks : List Word) :
    (maskStmts must stmts masks).length = masks.length :=
  mustStmts_length must stmts ⟨masks, []⟩

theorem maskStmts_bit (hm : must.WellFormed) (stmts : List Statement) {masks : List Word}
    {s : Nat} (hs : s < masks.length) (b : Nat) :
    bitAt (maskStmts must stmts masks) s b =
      stmts.foldl (bitAfter must s b) (bitAt masks s b) :=
  mustStmts_bitAt hm stmts b hs

theorem bitAt_replicate_zero (k s b : Nat) : bitAt (List.replicate k 0) s b = false := by
  have hzero : (List.replicate k (0 : Word)).getD s 0 = 0 := by
    rw [List.getD_eq_getElem?_getD, List.getElem?_replicate]
    split <;> rfl
  rw [bitAt, hzero]
  exact BitVec.getLsbD_zero

theorem meetFold_bit {k : Nat} (ps : List BasicBlockId) (row : BasicBlockId → List Word)
    (hrow : ∀ p ∈ ps, (row p).length = k) {masks : List Word} (hk : masks.length = k) :
    (ps.foldl (fun masks p => masks.zipWith (· &&& ·) (row p)) masks).length = k ∧
      ∀ s b, bitAt (ps.foldl (fun masks p => masks.zipWith (· &&& ·) (row p)) masks) s b = true ↔
        bitAt masks s b = true ∧ ∀ p ∈ ps, bitAt (row p) s b = true := by
  induction ps generalizing masks with
  | nil => simp [hk]
  | cons p ps ih =>
    have hp := hrow p (by simp)
    have hlen : (masks.zipWith (· &&& ·) (row p)).length = k := by simp [hk, hp]
    obtain ⟨h1, h2⟩ := ih (fun q hq => hrow q (by simp [hq])) hlen
    refine ⟨h1, fun s b => (h2 s b).trans ?_⟩
    have hmeet : bitAt (masks.zipWith (· &&& ·) (row p)) s b =
        (bitAt masks s b && bitAt (row p) s b) := by
      unfold bitAt
      by_cases hs : s < k
      · have h1 : s < masks.length := hk ▸ hs
        have h2 : s < (row p).length := hp ▸ hs
        simp [List.getD_eq_getElem?_getD, h1, h2]
      · have h1 : masks.length ≤ s := by omega
        simp [List.getD_eq_getElem?_getD, List.getElem?_zipWith, List.getElem?_eq_none h1]
    simp [hmeet, and_assoc]

/-- A block's entry bit: set at the end of every predecessor, and unset without one. -/
theorem mergeMasks_bit (hv : Valued (MaskRow must) f.basicBlocks.length outs)
    (bb : BasicBlockId) :
    (mergeMasks must.suspects.length (f.predecessors bb) outs).length = must.suspects.length ∧
      ∀ s b, bitAt (mergeMasks must.suspects.length (f.predecessors bb) outs) s b = true ↔
        f.predecessors bb ≠ [] ∧ ∀ p masks, bb ∈ f.successors p → outs[p]? = some masks →
          bitAt masks s b = true := by
  have hget : ∀ p, bb ∈ f.successors p → ∃ masks, outs[p]? = some masks ∧
      outs.getD p (List.replicate must.suspects.length 0) = masks ∧ MaskRow must masks := by
    intro p hp
    have hlt : p < outs.length := hv.length ▸ MirFunction.lt_of_successors hp
    have hsome := List.getElem?_eq_getElem hlt
    exact ⟨_, hsome, getD_of_some hsome, hv.values p _ hsome⟩
  have hrow : ∀ p ∈ f.predecessors bb,
      (outs.getD p (List.replicate must.suspects.length 0)).length = must.suspects.length := by
    intro p hp
    obtain ⟨masks, _, he, hm⟩ := hget p (MirFunction.mem_predecessors.mp hp)
    rw [he]
    exact hm.1
  have hall : ∀ s b, (∀ p ∈ f.predecessors bb,
      bitAt (outs.getD p (List.replicate must.suspects.length 0)) s b = true) ↔
        ∀ p masks, bb ∈ f.successors p → outs[p]? = some masks → bitAt masks s b = true := by
    intro s b
    constructor
    · intro h p masks hp hm
      have hbit := h p (MirFunction.mem_predecessors.mpr hp)
      rwa [getD_of_some hm] at hbit
    · intro h p hp
      have hs := MirFunction.mem_predecessors.mp hp
      obtain ⟨masks, hm, he, _⟩ := hget p hs
      rw [he]
      exact h p masks hs hm
  simp only [← hall]
  unfold mergeMasks
  cases hpreds : f.predecessors bb with
  | nil =>
    refine ⟨List.length_replicate, fun s b => ?_⟩
    rw [bitAt_replicate_zero]
    simp
  | cons p ps =>
    rw [hpreds] at hrow
    obtain ⟨h1, h2⟩ := meetFold_bit ps
      (fun q => outs.getD q (List.replicate must.suspects.length 0))
      (fun q hq => hrow q (by simp [hq])) (hrow p (by simp))
    exact ⟨h1, fun s b => (h2 s b).trans (by simp)⟩

theorem foldBits_none {s b : Nat} (h : must.rootAt s b = none) (stmts : List Statement)
    {old : Bool} (ho : old = false) : stmts.foldl (bitAfter must s b) old = false := by
  induction stmts generalizing old with
  | nil => exact ho
  | cons stmt stmts ih =>
    refine ih ?_
    unfold bitAfter
    split <;> simp [h, ho]

theorem mergedStmts_row (hm : must.WellFormed)
    (hv : Valued (MaskRow must) f.basicBlocks.length outs) (bb : BasicBlockId)
    (stmts : List Statement) : MaskRow must
      (maskStmts must stmts (mergeMasks must.suspects.length (f.predecessors bb) outs)) := by
  obtain ⟨hlen, hbit⟩ := mergeMasks_bit hv bb
  have hrow := (maskStmts_length must stmts _).trans hlen
  refine ⟨hrow, ?_⟩
  intro s b hnone
  by_cases hs : s < must.suspects.length
  · rw [maskStmts_bit hm _ (lt_of_lt_of_eq hs hlen.symm)]
    refine foldBits_none hnone _ ?_
    by_contra hset
    obtain ⟨hne, hall⟩ := (hbit s b).mp (by simpa using hset)
    obtain ⟨p, hp⟩ := List.exists_mem_of_ne_nil _ hne
    have hsucc := MirFunction.mem_predecessors.mp hp
    have hlt : p < outs.length := hv.length ▸ MirFunction.lt_of_successors hsucc
    have hget := List.getElem?_eq_getElem hlt
    have htrue := hall p _ hsucc hget
    rw [(hv.values p _ hget).2 s b hnone] at htrue
    simp at htrue
  · have hzero : (maskStmts must stmts
        (mergeMasks must.suspects.length (f.predecessors bb) outs)).getD s 0 = 0 := by
      rw [List.getD_eq_getElem?_getD, List.getElem?_eq_none (by omega)]
      rfl
    rw [bitAt, hzero]
    exact BitVec.getLsbD_zero

theorem maskFlow_row (hm : must.WellFormed) (hv : Valued (MaskRow must) f.basicBlocks.length outs)
    (bb : BasicBlockId) : MaskRow must (maskFlow must f outs bb) :=
  mergedStmts_row hm hv bb (f.stmtsAt bb)

/-- The bit of block `bb` after `stmts`, its leading statements. -/
def pointBit (must : MustInfo) (f : MirFunction) (outs : List (List Word)) (s b : Nat)
    (bb : BasicBlockId) (stmts : List Statement) : Bool :=
  stmts.foldl (bitAfter must s b)
    (bitAt (mergeMasks must.suspects.length (f.predecessors bb) outs) s b)

variable {s b : Nat} {l r : Local}

/-- In settled masks a set bit means the root is stale along every walk. -/
theorem pointBit_sound (hm : must.WellFormed) (h0 : f.predecessors 0 = [])
    (hl : must.suspects[s]? = some l) (hr : must.rootAt s b = some r)
    (hv : Valued (MaskRow must) f.basicBlocks.length outs)
    (heq : ∀ bb < f.basicBlocks.length, outs[bb]? = some (maskFlow must f outs bb))
    {before : List BasicBlockId} {bb : BasicBlockId} (hw : Walk f.successors before bb)
    (stmts : List Statement) (h : pointBit must f outs s b bb stmts = true) :
    Staled l r (f.walkStmts before ++ stmts) := by
  have hs := (List.getElem?_eq_some_iff.mp hl).1
  refine foldBits_sound hl hr stmts ?_ h
  clear h
  induction hw with
  | entry =>
    intro hbit
    exact absurd h0 ((mergeMasks_bit hv 0).2 s b |>.mp hbit).1
  | @step before p bb hw hsucc ih =>
    intro hbit
    have hout := heq p (MirFunction.lt_of_successors hsucc)
    have hp := ((mergeMasks_bit hv bb).2 s b).mp hbit |>.2 p _ hsucc hout
    rw [maskFlow, maskStmts_bit hm _ (lt_of_lt_of_eq hs (mergeMasks_bit hv p).1.symm)] at hp
    rw [MirFunction.walkStmts_concat]
    exact foldBits_sound hl hr _ ih hp

/-- An unset bit at the end of a block of `blocks` has a walk along which the root is not stale. -/
def BitsJustified (f : MirFunction) (s b : Nat) (l r : Local)
    (blocks : BasicBlockId → Prop) (outs : List (List Word)) : Prop :=
  ∀ (bb : Nat) masks, blocks bb → outs[bb]? = some masks → bitAt masks s b = false →
    ∃ before, Walk f.successors before bb ∧ ¬Staled l r (f.walkStmts before ++ f.stmtsAt bb)

theorem pointBit_justified (hl : must.suspects[s]? = some l)
    (hr : must.rootAt s b = some r) {blocks : BasicBlockId → Prop}
    (hreach : ∀ bb, blocks bb → ∃ before, Walk f.successors before bb)
    (hv : Valued (MaskRow must) f.basicBlocks.length outs) {bb : BasicBlockId} (hb : blocks bb)
    (hj : ∀ p masks, bb ∈ f.successors p → outs[p]? = some masks → bitAt masks s b = false →
      ∃ before, Walk f.successors before p ∧ ¬Staled l r (f.walkStmts before ++ f.stmtsAt p))
    (stmts : List Statement) (h : pointBit must f outs s b bb stmts = false) :
    ∃ before, Walk f.successors before bb ∧ ¬Staled l r (f.walkStmts before ++ stmts) := by
  have hrun : ∀ before, (Staled l r (f.walkStmts before) →
      bitAt (mergeMasks must.suspects.length (f.predecessors bb) outs) s b = true) →
      ¬Staled l r (f.walkStmts before ++ stmts) := by
    intro before hold hst
    have hset := foldBits_complete hl hr stmts hold hst
    rw [pointBit, hset] at h
    simp at h
  by_cases hin : bitAt (mergeMasks must.suspects.length (f.predecessors bb) outs) s b = true
  · obtain ⟨before, hw⟩ := hreach bb hb
    exact ⟨before, hw, hrun before fun _ => hin⟩
  · by_cases hpreds : f.predecessors bb = []
    · obtain ⟨before, hw⟩ := hreach bb hb
      cases hw with
      | entry => exact ⟨[], .entry, hrun [] fun hst => absurd hst not_staled_nil⟩
      | @step _ p _ _ hsucc =>
        have hmem := MirFunction.mem_predecessors.mpr hsucc
        rw [hpreds] at hmem
        simp at hmem
    · have hsome : ∃ p masks, bb ∈ f.successors p ∧ outs[p]? = some masks ∧
          bitAt masks s b = false := by
        by_contra hnone
        apply hin
        refine ((mergeMasks_bit hv bb).2 s b).mpr ⟨hpreds, ?_⟩
        intro p masks hsucc hget
        by_contra hf
        exact hnone ⟨p, masks, hsucc, hget, by simpa using hf⟩
      obtain ⟨p, masks, hsucc, hget, hfalse⟩ := hsome
      obtain ⟨before, hw, hns⟩ := hj p masks hsucc hget hfalse
      refine ⟨before ++ [p], hw.step hsucc, hrun (before ++ [p]) ?_⟩
      rw [MirFunction.walkStmts_concat]
      exact fun hst => absurd hst hns

end Rows

theorem BitsJustified.relax {must : MustInfo} {f : MirFunction} {s b : Nat} {l r : Local}
    {blocks : BasicBlockId → Prop} {outs : List (List Word)} (hm : must.WellFormed)
    (hl : must.suspects[s]? = some l) (hr : must.rootAt s b = some r)
    (hreach : ∀ bb, blocks bb → ∃ before, Walk f.successors before bb)
    (hclosed : ∀ bb p, blocks bb → bb ∈ f.successors p → blocks p)
    (hv : Valued (MaskRow must) f.basicBlocks.length outs) {bb : BasicBlockId}
    (hj : ∀ p, bb ∈ f.successors p → ∀ masks, blocks p → outs[p]? = some masks →
      bitAt masks s b = false →
      ∃ before, Walk f.successors before p ∧ ¬Staled l r (f.walkStmts before ++ f.stmtsAt p))
    (hother : ∀ (c : Nat) masks, c ≠ bb → blocks c → outs[c]? = some masks →
      bitAt masks s b = false →
      ∃ before, Walk f.successors before c ∧ ¬Staled l r (f.walkStmts before ++ f.stmtsAt c)) :
    BitsJustified f s b l r blocks (RoundRobin.relax (maskFlow must f) outs bb).1 := by
  have hs := (List.getElem?_eq_some_iff.mp hl).1
  intro c masks hc hget hfalse
  by_cases hcb : c = bb
  · subst c
    have hlt : bb < outs.length := by
      simpa using (List.getElem?_eq_some_iff.mp hget).1
    rw [relax_at hlt] at hget
    cases Option.some.inj hget
    refine pointBit_justified hl hr hreach hv hc
      (fun p masks hsucc => hj p hsucc masks (hclosed bb p hc hsucc)) _ ?_
    rwa [maskFlow, maskStmts_bit hm _ (lt_of_lt_of_eq hs (mergeMasks_bit hv bb).1.symm)] at hfalse
  · rw [relax_of_ne hcb] at hget
    exact hother c masks hcb hc hget hfalse

end Olive
