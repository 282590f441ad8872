import Olive.MustPaths

/-! The loop on masks from its seed: what it returns, and when it does. -/

namespace Olive

open UntilStable RoundRobin FlowGraph

theorem getLsbD_fullMaskFor {len : Nat} (hlen : len ≤ 64) (b : Nat) :
    (fullMaskFor len).getLsbD b = decide (b < len) := by
  unfold fullMaskFor
  split
  next h =>
    obtain rfl : len = 64 := by omega
    exact BitVec.getLsbD_allOnes
  next h =>
    have hpow : BitVec.twoPow 64 len - 1 = BitVec.ofNat 64 (2 ^ len - 1) := by
      have hlt : 2 ^ len < 2 ^ 64 := Nat.pow_lt_pow_right (by omega) (by omega)
      have hpos : 0 < 2 ^ len := Nat.two_pow_pos len
      apply BitVec.eq_of_toNat_eq
      rw [BitVec.toNat_sub, BitVec.toNat_twoPow, BitVec.toNat_ofNat]
      simp
      omega
    rw [hpow, BitVec.getLsbD_ofNat, Nat.testBit_two_pow_sub_one]
    by_cases hb : b < len
    · simp [hb, show b < 64 by omega]
    · simp [hb]

variable {must : MustInfo} {f : MirFunction}

theorem fullMask_bit (hm : must.WellFormed) (s b : Nat) :
    (must.fullMask s).getLsbD b = (must.rootAt s b).isSome := by
  have hlen : (must.rootList.getD s []).length ≤ 64 := by
    cases hs : must.rootList[s]? with
    | none => simp [List.getD_eq_getElem?_getD, hs]
    | some roots =>
      rw [getD_of_some hs]
      exact hm.fits roots (List.mem_of_getElem? hs)
  rw [MustInfo.fullMask, getLsbD_fullMaskFor hlen, MustInfo.rootAt]
  by_cases hb : b < (must.rootList.getD s []).length
  · rw [List.getElem?_eq_getElem hb, decide_eq_true hb]
    rfl
  · rw [List.getElem?_eq_none (Nat.le_of_not_lt hb), decide_eq_false hb]
    rfl

theorem fullMasks_bit (hm : must.WellFormed) (s b : Nat) :
    bitAt must.fullMasks s b = (must.rootAt s b).isSome := by
  have hget : must.fullMasks.getD s 0 = must.fullMask s := by
    have hzero : fullMaskFor ([] : List Local).length = 0 := by decide
    rw [MustInfo.fullMasks, MustInfo.fullMask, ← hzero]
    exact getD_map (fun roots : List Local => fullMaskFor roots.length) must.rootList s []
  rw [bitAt, hget, fullMask_bit hm]

theorem maskSeed_at {bb : Nat} {masks : List Word} (h : (maskSeed must f)[bb]? = some masks) :
    bb < f.basicBlocks.length ∧ masks =
      if f.predecessors bb = [] then List.replicate must.suspects.length 0 else must.fullMasks := by
  rw [maskSeed, List.getElem?_map, Option.map_eq_some_iff] at h
  obtain ⟨c, hc, rfl⟩ := h
  obtain ⟨hlt, he⟩ := List.getElem?_eq_some_iff.mp hc
  obtain rfl : bb = c := by simpa using he
  exact ⟨by simpa using hlt, rfl⟩

theorem maskSeed_valued (hm : must.WellFormed) :
    Valued (MaskRow must) f.basicBlocks.length (maskSeed must f) := by
  refine ⟨by simp [maskSeed], ?_⟩
  intro bb masks h
  rw [(maskSeed_at h).2]
  split
  · exact ⟨List.length_replicate, fun s b _ => bitAt_replicate_zero _ _ _⟩
  · refine ⟨by simp [MustInfo.fullMasks, hm.length], fun s b hnone => ?_⟩
    rw [fullMasks_bit hm, hnone]
    rfl

theorem solveMasks_stable (hm : must.WellFormed) {fuel : Nat} {outs : List (List Word)}
    (h : solve (maskFlow must f) f.basicBlocks.length fuel (maskSeed must f) = some outs) :
    Valued (MaskRow must) f.basicBlocks.length outs ∧
      ∀ bb < f.basicBlocks.length, outs[bb]? = some (maskFlow must f outs bb) := by
  have hseed := maskSeed_valued (f := f) hm
  refine ⟨?_, fun bb hb => solve_stable h hb (lt_of_lt_of_eq hb hseed.length.symm)⟩
  exact solve_invariant (fun _ _ hs => relax_valued (fun _ b hv => maskFlow_row hm hv b) hs) hseed h

/-- Every block that can be followed back from a block of the set is in it, and is reachable. -/
structure ReachableClosed (f : MirFunction) (blocks : BasicBlockId → Prop) : Prop where
  reach : ∀ bb, blocks bb → ∃ before, Walk f.successors before bb
  closed : ∀ bb p, blocks bb → bb ∈ f.successors p → blocks p

theorem ReachableClosed.preds_of_ne {blocks : BasicBlockId → Prop} (hb : ReachableClosed f blocks)
    {bb : BasicBlockId} (h : blocks bb) (hne : bb ≠ 0) : f.predecessors bb ≠ [] := by
  obtain ⟨before, hw⟩ := hb.reach bb h
  cases hw with
  | entry => exact absurd rfl hne
  | step _ hs => exact List.ne_nil_of_mem (MirFunction.mem_predecessors.mpr hs)

/-- In the masks returned, an unset bit has a walk along which the root is not stale. -/
theorem solveMasks_justified (hm : must.WellFormed) (h0 : f.predecessors 0 = [])
    (hn : 0 < f.basicBlocks.length) {s b : Nat} {l r : Local} (hl : must.suspects[s]? = some l)
    (hr : must.rootAt s b = some r) {blocks : BasicBlockId → Prop}
    (hb : ReachableClosed f blocks) {fuel : Nat} {outs : List (List Word)}
    (h : solve (maskFlow must f) f.basicBlocks.length fuel (maskSeed must f) = some outs) :
    BitsJustified f s b l r blocks outs := by
  let P := fun out : List (List Word) =>
    Valued (MaskRow must) f.basicBlocks.length out ∧ BitsJustified f s b l r blocks out
  let Q := fun out : List (List Word) => Valued (MaskRow must) f.basicBlocks.length out ∧
    BitsJustified f s b l r (fun bb => blocks bb ∧ bb ≠ 0) out
  have hvalued : ∀ out bb, Valued (MaskRow must) f.basicBlocks.length out →
      Valued (MaskRow must) f.basicBlocks.length (relax (maskFlow must f) out bb).1 :=
    fun out bb hv => relax_valued (fun _ b hv => maskFlow_row hm hv b) hv
  -- the entry block has no predecessor, so its own turn justifies it whatever it held
  have hfirst : ∀ out, Q out → P (relax (maskFlow must f) out 0).1 := by
    intro out hq
    refine ⟨hvalued out 0 hq.1, ?_⟩
    refine BitsJustified.relax hm hl hr hb.reach hb.closed hq.1 ?_ ?_
    · intro p hp
      have hmem := MirFunction.mem_predecessors.mpr hp
      rw [h0] at hmem
      simp at hmem
    · exact fun c masks hc hbc => hq.2 c masks ⟨hbc, hc⟩
  have hstep : ∀ out bb, P out → P (relax (maskFlow must f) out bb).1 := by
    intro out bb hp
    refine ⟨hvalued out bb hp.1, ?_⟩
    exact BitsJustified.relax hm hl hr hb.reach hb.closed hp.1 (fun p _ masks => hp.2 p masks)
      (fun c masks _ => hp.2 c masks)
  have hweak : ∀ out, P out → Q out := fun out hp =>
    ⟨hp.1, fun bb masks hbb => hp.2 bb masks hbb.1⟩
  have hseed : Q (maskSeed must f) := by
    refine ⟨maskSeed_valued hm, ?_⟩
    intro bb masks hbb hget hfalse
    obtain ⟨_, rfl⟩ := maskSeed_at hget
    rw [if_neg (hb.preds_of_ne hbb.1 hbb.2), fullMasks_bit hm, hr] at hfalse
    simp at hfalse
  exact (solve_invariant_first hfirst hstep hweak hn hseed h).2

/-- The bits of a row that are not set. -/
def unsetBits (k : Nat) (masks : List Word) : Finset (Nat × Nat) :=
  (Finset.range k ×ˢ Finset.range 64).filter fun p => bitAt masks p.1 p.2 = false

theorem unsetBits_subset_iff {k : Nat} {masks masks' : List Word} :
    unsetBits k masks ⊆ unsetBits k masks' ↔
      ∀ s < k, ∀ b < 64, bitAt masks' s b = true → bitAt masks s b = true := by
  constructor
  · intro h s hs b hb hset
    by_contra hne
    have hmem : (s, b) ∈ unsetBits k masks := by
      simp only [unsetBits, Finset.mem_filter, Finset.mem_product, Finset.mem_range]
      exact ⟨⟨hs, hb⟩, by simpa using hne⟩
    have hback := h hmem
    simp only [unsetBits, Finset.mem_filter] at hback
    rw [hset] at hback
    simp at hback
  · intro h p hp
    simp only [unsetBits, Finset.mem_filter, Finset.mem_product, Finset.mem_range] at hp ⊢
    refine ⟨hp.1, ?_⟩
    by_contra hne
    have hset := h p.1 hp.1.1 p.2 hp.1.2 (by simpa using hne)
    rw [hp.2] at hset
    simp at hset

theorem unsetBits_injective {masks masks' : List Word} (hr : MaskRow must masks)
    (hr' : MaskRow must masks')
    (h : unsetBits must.suspects.length masks = unsetBits must.suspects.length masks') :
    masks = masks' := by
  apply List.ext_getElem (hr.1.trans hr'.1.symm)
  intro s hs hs'
  apply BitVec.eq_of_getLsbD_eq
  intro b hb
  have h1 := unsetBits_subset_iff.mp h.subset s (hr.1 ▸ hs) b hb
  have h2 := unsetBits_subset_iff.mp h.symm.subset s (hr.1 ▸ hs) b hb
  rw [bitAt, bitAt, getD_of_some (List.getElem?_eq_getElem hs),
    getD_of_some (List.getElem?_eq_getElem hs')] at h1 h2
  exact Bool.eq_iff_iff.mpr ⟨h2, h1⟩

theorem foldBits_mono (s b : Nat) (stmts : List Statement) {old old' : Bool}
    (h : old = true → old' = true) :
    stmts.foldl (bitAfter must s b) old = true → stmts.foldl (bitAfter must s b) old' = true := by
  induction stmts generalizing old old' with
  | nil => exact h
  | cons stmt stmts ih =>
    refine ih ?_
    unfold bitAfter
    split
    · simp only [Bool.and_eq_true]
      exact fun hb => ⟨⟨h hb.1.1, hb.1.2⟩, hb.2⟩
    · simp only [Bool.or_eq_true]
      exact Or.imp_left h
    · exact h

theorem maskFlow_mono (hm : must.WellFormed) {outs outs' : List (List Word)} (bb : BasicBlockId)
    (hv : Valued (MaskRow must) f.basicBlocks.length outs)
    (hv' : Valued (MaskRow must) f.basicBlocks.length outs')
    (hle : Below (unsetBits must.suspects.length) outs outs') :
    unsetBits must.suspects.length (maskFlow must f outs bb) ⊆
      unsetBits must.suspects.length (maskFlow must f outs' bb) := by
  obtain ⟨hlen, hbit⟩ := mergeMasks_bit hv bb
  obtain ⟨hlen', hbit'⟩ := mergeMasks_bit hv' bb
  refine unsetBits_subset_iff.mpr ?_
  intro s hs b hb
  rw [maskFlow, maskFlow, maskStmts_bit hm _ (lt_of_lt_of_eq hs hlen.symm),
    maskStmts_bit hm _ (lt_of_lt_of_eq hs hlen'.symm)]
  refine foldBits_mono s b _ ?_
  intro hset
  obtain ⟨hne, hall⟩ := (hbit' s b).mp hset
  refine (hbit s b).mpr ⟨hne, ?_⟩
  intro p masks hsucc hget
  have hlt : p < outs'.length := hv'.length ▸ MirFunction.lt_of_successors hsucc
  have hget' := List.getElem?_eq_getElem hlt
  exact unsetBits_subset_iff.mp (hle p _ _ hget hget') s hs b hb (hall p _ hsucc hget')

/-- Where only the entry block has no predecessor, the masks only ever lose bits, and settle. -/
theorem solveMasks_exists (hm : must.WellFormed) (h0 : f.predecessors 0 = [])
    (hpreds : ∀ bb < f.basicBlocks.length, bb ≠ 0 → f.predecessors bb ≠ []) :
    ∃ fuel outs, solve (maskFlow must f) f.basicBlocks.length fuel (maskSeed must f) =
      some outs := by
  let k := must.suspects.length
  let n := f.basicBlocks.length
  by_cases hn : 0 < n
  · have hcomputed : ∀ out bb, Valued (MaskRow must) n out → MaskRow must (maskFlow must f out bb) :=
      fun out bb hv => maskFlow_row hm hv bb
    have hseed : Valued (MaskRow must) n (maskSeed must f) := maskSeed_valued hm
    have hinj : ∀ v v', MaskRow must v → MaskRow must v' → unsetBits k v = unsetBits k v' →
        v = v' := fun v v' hv hv' he => unsetBits_injective hv hv' he
    have hmono : ∀ out out' bb, Valued (MaskRow must) n out → Valued (MaskRow must) n out' →
        Below (unsetBits k) out out' →
        unsetBits k (maskFlow must f out bb) ⊆ unsetBits k (maskFlow must f out' bb) :=
      fun _ _ bb hv hv' hle => maskFlow_mono hm bb hv hv' hle
    let P := fun out : List (List Word) =>
      Valued (MaskRow must) n out ∧ Growing (unsetBits k) (maskFlow must f) out
    have hstep : ∀ out bb, P out → P (relax (maskFlow must f) out bb).1 := fun out bb hp =>
      ⟨relax_valued hcomputed hp.1, relax_growing hcomputed hmono hp.1 hp.2⟩
    have hfirst : P (relax (maskFlow must f) (maskSeed must f) 0).1 := by
      refine ⟨relax_valued hcomputed hseed, ?_⟩
      intro bb masks hget
      have hb : bb < n := by
        have hlt := (List.getElem?_eq_some_iff.mp hget).1
        rwa [relax_length, hseed.length] at hlt
      by_cases hbb : bb = 0
      · subst bb
        rw [relax_at (lt_of_lt_of_eq hn hseed.length.symm)] at hget
        cases Option.some.inj hget
        rw [maskFlow, maskFlow, h0]
        exact Finset.Subset.refl _
      · rw [relax_of_ne hbb] at hget
        rw [(maskSeed_at hget).2, if_neg (hpreds bb hb hbb)]
        refine unsetBits_subset_iff.mpr ?_
        intro s _ b _ hset
        have hrow := hcomputed _ bb (relax_valued (b := 0) hcomputed hseed)
        rw [fullMasks_bit hm]
        by_contra hnone
        rw [hrow.2 s b (by simpa using hnone)] at hset
        simp at hset
    have hround : P (sweep (relax (maskFlow must f)) (List.range n) (maskSeed must f)).1 :=
      sweep_first hstep hn hfirst
    obtain ⟨outs, hret⟩ := solve_exists_succ (solve_exists (unsetBits k) (MaskRow must)
      (Finset.range k ×ˢ Finset.range 64) (fun _ _ => Finset.filter_subset _ _) hinj hcomputed hmono
      hround.1 hround.2 (Nat.lt_succ_self _))
    exact ⟨_, outs, hret⟩
  · obtain hzero : n = 0 := by omega
    refine ⟨1, maskSeed must f, ?_⟩
    simp only [n] at hzero
    simp [solve, untilStable, hzero, sweep]

end Olive
