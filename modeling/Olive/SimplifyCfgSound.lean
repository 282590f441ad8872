import Olive.Counting
import Olive.MachineFrame
import Olive.SimplifyCfg
import Olive.Trace

namespace Olive

open Counting FlowGraph Lockstep

/-- Every terminator targets an existing block. -/
def MirFunction.Closed (f : MirFunction) : Prop :=
  ∀ b, ∀ t ∈ f.successors b, t < f.basicBlocks.length

/-- A switch that can only go to one block does not move its discriminant out. -/
def MirFunction.KeepsDiscr (f : MirFunction) : Prop :=
  ∀ b discr targets otherwise span,
    f.terminatorAt b = some ⟨.switchInt discr targets otherwise, span⟩ →
    (∀ t ∈ targets, t.2 = otherwise) → discr.moved? = none

variable {W : Type} {rt : Runtime W} {f : MirFunction}

section Branches

theorem switchTo_eq_lookup (v : Word) (targets : List (Word × BasicBlockId))
    (otherwise : BasicBlockId) :
    switchTo v targets otherwise = (targets.lookup v).getD otherwise := by
  unfold switchTo
  induction targets with
  | nil => rfl
  | cons t targets ih =>
    obtain ⟨value, target⟩ := t
    by_cases hv : value = v
    · simp [hv]
    · have hne : (v == value) = false := by simpa using fun h : v = value => hv h.symm
      simp only [List.find?_cons, decide_eq_false hv, List.lookup_cons, hne]
      exact ih

variable (rt) in
theorem switchTarget_const (targets : List (Word × BasicBlockId)) (otherwise : BasicBlockId)
    (v : Word) (w : World W) :
    rt.switchTarget false targets otherwise (.word v) w = switchTo v targets otherwise :=
  (switchTo_eq_lookup v targets otherwise).symm

theorem switchTarget_uniform {targets : List (Word × BasicBlockId)} {otherwise : BasicBlockId}
    (h : ∀ t ∈ targets, t.2 = otherwise) (isPyObject : Bool) (v : Val) (w : World W) :
    rt.switchTarget isPyObject targets otherwise v w = otherwise := by
  rcases List.mem_append.mp (switchTarget_mem rt isPyObject targets otherwise v w) with hm | hm
  · obtain ⟨t, ht, he⟩ := List.mem_map.mp hm
    exact he.symm.trans (h t ht)
  · exact List.mem_singleton.mp hm

variable (rt) in
theorem execTerm_simplify (decls : List LocalDecl) (s : State W) {term : Option Terminator}
    (h : ∀ discr targets otherwise span, term = some ⟨.switchInt discr targets otherwise, span⟩ →
      (∀ t ∈ targets, t.2 = otherwise) → discr.moved? = none) :
    rt.execTerm decls s (term.map fun t => { t with kind := t.kind.simplify }) =
      rt.execTerm decls s term := by
  -- The last case of the pass: no constant is looked at, the targets are.
  have huniform : ∀ discr targets otherwise span,
      term = some ⟨.switchInt discr targets otherwise, span⟩ →
      rt.execTerm decls s (some ⟨if targets.all fun t => decide (t.2 = otherwise) then .goto otherwise
        else .switchInt discr targets otherwise, span⟩) =
      rt.execTerm decls s (some ⟨.switchInt discr targets otherwise, span⟩) := by
    intro discr targets otherwise span hterm
    split
    next hall =>
      have hsame : ∀ t ∈ targets, t.2 = otherwise := by simpa using hall
      have hkeep := @evalOperand_of_not_moved _ rt _ (h discr targets otherwise span hterm hsame)
        s.locals
      simp only [Runtime.execTerm, switchTarget_uniform hsame, hkeep]
    next => rfl
  cases term with
  | none => rfl
  | some t =>
    obtain ⟨kind, span⟩ := t
    cases kind with
    | switchInt discr targets otherwise =>
      have hcase := huniform discr targets otherwise span rfl
      cases discr with
      | copy l => exact hcase
      | move l => exact hcase
      | const c =>
        cases c with
        | bool b =>
          have hgo := switchTarget_const rt targets otherwise (boolWord b) s.world
          exact congrArg (fun bb => (Sum.inl (bb, s) : (BasicBlockId × State W) ⊕ Outcome W)) hgo.symm
        | int v =>
          have hgo := switchTarget_const rt targets otherwise v s.world
          exact congrArg (fun bb => (Sum.inl (bb, s) : (BasicBlockId × State W) ⊕ Outcome W)) hgo.symm
        | _ => exact hcase
    | _ => rfl

theorem step_branchSimplification (h : f.KeepsDiscr) (p : Point W) :
    rt.step (branchSimplification f) p = rt.step f p := by
  have hlocals : (branchSimplification f).locals = f.locals := rfl
  have hblock : (branchSimplification f).basicBlocks[p.bb]? =
      f.basicBlocks[p.bb]?.map BasicBlock.simplifyBranch := List.getElem?_map
  unfold Runtime.step
  rw [hblock, hlocals]
  cases hb : f.basicBlocks[p.bb]? with
  | none => rfl
  | some block =>
    simp only [Option.map_some, BasicBlock.simplifyBranch]
    have hkeeps : ∀ discr targets otherwise span,
        block.terminator = some ⟨.switchInt discr targets otherwise, span⟩ →
        (∀ t ∈ targets, t.2 = otherwise) → discr.moved? = none := by
      intro discr targets otherwise span ht
      refine h p.bb discr targets otherwise span ?_
      simp only [MirFunction.terminatorAt, hb, Option.bind_some, ht]
    rw [execTerm_simplify rt f.locals p.state hkeeps]

theorem stmtsAt_branchSimplification (b : BasicBlockId) :
    (branchSimplification f).stmtsAt b = f.stmtsAt b := by
  simp only [MirFunction.stmtsAt, branchSimplification, List.getElem?_map]
  cases f.basicBlocks[b]? <;> rfl

theorem branchSimplification_sameRuns (h : f.KeepsDiscr) :
    SameRuns rt f (branchSimplification f) := by
  have hstep : tracedStep rt (branchSimplification f) = tracedStep rt f := by
    funext a
    simp only [tracedStep, ghost, step_branchSimplification h, noteStmt, stmtsAt_branchSimplification]
  have hend : rt.step (branchSimplification f) = rt.step f := funext (step_branchSimplification h)
  constructor
  · intro s trace s'
    rw [Performs, Performs, hstep]
  · intro s trace s' o
    rw [EndsAfter, EndsAfter, hstep, hend]

end Branches

section Merging

/-- Block `i` jumps to `t`, which nothing else goes to. -/
structure Mergeable (f : MirFunction) (i t : BasicBlockId) (block target : BasicBlock) : Prop where
  here : f.basicBlocks[i]? = some block
  there : f.basicBlocks[t]? = some target
  jump : ∃ span, block.terminator = some ⟨.goto t, span⟩
  ne : t ≠ i
  entry : t ≠ 0
  only : ∀ b, t ∈ f.successors b → b = i

variable {i t : BasicBlockId} {block target : BasicBlock}

theorem Mergeable.merged (h : Mergeable f i t block target) : mergeBlocks f i t =
    { f with basicBlocks := (f.basicBlocks.set i (block.absorb target)).set t absorbed } := by
  simp only [mergeBlocks, h.here, h.there]

theorem Mergeable.merged_block (h : Mergeable f i t block target) :
    (mergeBlocks f i t).basicBlocks[i]? = some (block.absorb target) := by
  obtain ⟨hlt, -⟩ := List.getElem?_eq_some_iff.mp h.here
  simp [h.merged, h.ne, hlt]

theorem Mergeable.other_block (h : Mergeable f i t block target) {b : BasicBlockId} (hi : b ≠ i)
    (ht : b ≠ t) : (mergeBlocks f i t).basicBlocks[b]? = f.basicBlocks[b]? := by
  simp [h.merged, hi.symm, ht.symm]

theorem map_mapTargets_id (term : Option Terminator) :
    (term.map fun t => { t with kind := t.kind.mapTargets id }) = term := by
  cases term with
  | none => rfl
  | some t =>
    obtain ⟨kind, span⟩ := t
    cases kind <;> simp [TerminatorKind.mapTargets]

/-- The statements of `t` now stand behind those of `i`. -/
structure MergedAt (i t : BasicBlockId) (len : Nat) (p q : Point W) : Prop where
  state : p.state = q.state
  place : (p.bb = t ∧ q.bb = i ∧ q.idx = len + p.idx) ∨
    (p.bb ≠ t ∧ q.bb = p.bb ∧ q.idx = p.idx ∧ (p.bb = i → p.idx ≤ len))

theorem Mergeable.follows (h : Mergeable f i t block target) {p q : Point W}
    (hr : MergedAt i t block.statements.length p q) (trace : List Statement)
    (hlag : ¬(p.bb = i ∧ p.idx = block.statements.length)) :
    (∃ a b, tracedStep rt f (p, trace) = .inl a ∧
      tracedStep rt (mergeBlocks f i t) (q, trace) = .inl b ∧
      SameTrace (MergedAt i t block.statements.length) a b) ∨
      ∃ o, tracedStep rt f (p, trace) = .inr o ∧
        tracedStep rt (mergeBlocks f i t) (q, trace) = .inr o := by
  have hlocals : (mergeBlocks f i t).locals = f.locals := by rw [h.merged]
  -- Only block `i` goes to `t`, and its jump is where the original lags.
  have hgoes : p.bb ≠ i → ∀ (bb : BasicBlockId) (s : State W),
      (f.stmtsAt p.bb)[p.idx]? = none → bb ∈ f.successors p.bb →
      MergedAt i t block.statements.length ⟨bb, 0, s⟩ ⟨id bb, 0, s⟩ := by
    intro hpi bb s _ hbb
    refine ⟨rfl, .inr ⟨?_, rfl, rfl, fun _ => Nat.zero_le _⟩⟩
    intro he
    exact hpi (h.only p.bb (he ▸ hbb))
  obtain ⟨hstate, ⟨hp, hq, hidx⟩ | ⟨hp, hq, hidx, hle⟩⟩ := hr
  · have hplace : SamePlace f (mergeBlocks f i t) id p q := by
      refine ⟨hlocals, hstate.symm, target, block.absorb target, hp ▸ h.there, ?_, ?_, ?_⟩
      · rw [hq]
        exact h.merged_block
      · rw [hidx, BasicBlock.absorb, List.getElem?_append_right (Nat.le_add_right _ _),
          Nat.add_sub_cancel_left]
      · intro _
        rw [map_mapTargets_id]
        rfl
    refine hplace.traced trace ?_ (hgoes (hp ▸ h.ne))
    intro s stmt _
    exact ⟨rfl, .inl ⟨hp, hq, by rw [hidx]; rfl⟩⟩
  · by_cases hpi : p.bb = i
    · have hlt : p.idx < block.statements.length := by
        have hne : p.idx ≠ block.statements.length := fun he => hlag ⟨hpi, he⟩
        have hle' := hle hpi
        omega
      have hstmt : block.statements[p.idx]? = some block.statements[p.idx] :=
        List.getElem?_eq_getElem hlt
      have hb : f.basicBlocks[p.bb]? = some block := hpi ▸ h.here
      have hsome : (f.stmtsAt p.bb)[p.idx]? ≠ none := by
        simp only [MirFunction.stmtsAt, hb, hstmt]
        simp
      have hplace : SamePlace f (mergeBlocks f i t) id p q := by
        refine ⟨hlocals, hstate.symm, block, block.absorb target, hb, ?_, ?_, ?_⟩
        · rw [hq, hpi]
          exact h.merged_block
        · rw [hidx, BasicBlock.absorb, List.getElem?_append_left hlt]
        · intro hn
          rw [hstmt] at hn
          simp at hn
      refine hplace.traced trace ?_ fun _ _ hn => absurd hn hsome
      intro s stmt _
      exact ⟨rfl, .inr ⟨hp, hq, by rw [hidx], fun _ => hlt⟩⟩
    · have hother := h.other_block hpi hp
      cases hb : f.basicBlocks[p.bb]? with
      | none =>
        rw [hb, ← hq] at hother
        refine .inr ⟨_, ghost_inr (step_no_block hb), ghost_inr ?_⟩
        rw [hstate]
        exact step_no_block hother
      | some b =>
        have hplace : SamePlace f (mergeBlocks f i t) id p q := by
          refine ⟨hlocals, hstate.symm, b, b, hb, ?_, by rw [hidx], ?_⟩
          · rw [hq, hother, hb]
          · intro _
            rw [map_mapTargets_id]
        refine hplace.traced trace ?_ (hgoes hpi)
        intro s stmt _
        exact ⟨rfl, .inr ⟨hp, hq, by rw [hidx], fun hi => absurd hi hpi⟩⟩

theorem Mergeable.sameRuns (h : Mergeable f i t block target) :
    SameRuns rt f (mergeBlocks f i t) := by
  let lag (a : Point W × List Statement) := a.1.bb = i ∧ a.1.idx = block.statements.length
  have hsim := @simulates_of_lag _ _ _ (tracedStep rt f) (tracedStep rt (mergeBlocks f i t))
    (SameTrace (MergedAt i t block.statements.length)) lag ?_ ?_
  · refine sameRuns_of_simulates (fun p q hr => hr.state) ?_ hsim.1 hsim.2
    intro s
    exact ⟨rfl, .inr ⟨h.entry.symm, rfl, rfl, fun _ => Nat.zero_le _⟩⟩
  · rintro ⟨p, trace⟩ ⟨q, _⟩ ⟨hr, rfl⟩ ⟨hpi, hidx⟩
    obtain ⟨hstate, ⟨hp, -, -⟩ | ⟨hp, hq, hqidx, -⟩⟩ := hr
    · exact absurd (hp.symm.trans hpi) h.ne
    · obtain ⟨span, hjump⟩ := h.jump
      have hb : f.basicBlocks[p.bb]? = some block := hpi ▸ h.here
      have hend : block.statements[p.idx]? = none := by
        rw [List.getElem?_eq_none_iff]
        exact le_of_eq hidx.symm
      have hgo : rt.execTerm f.locals p.state block.terminator = .inl (t, p.state) := by
        rw [hjump]
        rfl
      have hstep : rt.step f p = .inl ⟨t, 0, p.state⟩ := step_goes hb hend hgo
      refine ⟨_, ghost_inl hstep, ⟨⟨hstate, .inl ⟨rfl, hq.trans hpi, ?_⟩⟩, ?_⟩, ?_⟩
      · rw [hqidx]
        exact hidx
      · simp only [noteStmt, MirFunction.stmtsAt, hb, hend]
      · exact fun hl => h.ne hl.1
  · rintro ⟨p, trace⟩ ⟨q, _⟩ ⟨hr, rfl⟩ hlag
    exact h.follows hr trace hlag

theorem successors_of_block {b : BasicBlockId} (h : f.basicBlocks[b]? = some block) :
    f.successors b = block.successors := by
  simp only [MirFunction.successors, MirFunction.terminatorAt, h, Option.bind_some]
  cases hterm : block.terminator <;> simp [BasicBlock.successors, hterm]

theorem block_of_successor {b : BasicBlockId} (h : t ∈ f.successors b) :
    ∃ block, f.basicBlocks[b]? = some block ∧ t ∈ block.successors := by
  have hb := List.getElem?_eq_getElem (MirFunction.lt_of_successors h)
  exact ⟨_, hb, successors_of_block hb ▸ h⟩

/-- Merging moves the edges of `t` to `i` and takes the edge between them away. -/
theorem Mergeable.predCount_le (h : Mergeable f i t block target) (x : BasicBlockId) :
    predCount (mergeBlocks f i t) x ≤ predCount f x := by
  obtain ⟨hlt, -⟩ := List.getElem?_eq_some_iff.mp h.here
  let count (b : BasicBlock) := b.successors.count x
  have hfirst : ((f.basicBlocks.map count).set i (count target)).sum + count block =
      (f.basicBlocks.map count).sum + count target :=
    sum_set_add (by rw [List.getElem?_map, h.here]; rfl) _
  have hthere : ((f.basicBlocks.map count).set i (count target))[t]? = some (count target) := by
    rw [List.getElem?_set_ne h.ne.symm, List.getElem?_map, h.there]
    rfl
  have hsecond := sum_set_add hthere 0
  have hmap : (mergeBlocks f i t).basicBlocks.map count =
      ((f.basicBlocks.map count).set i (count target)).set t 0 := by
    rw [h.merged, List.map_set, List.map_set]
    rfl
  have hcount : ∀ g : MirFunction, predCount g x =
      (if x = 0 then 1 else 0) + (g.basicBlocks.map count).sum := fun _ => rfl
  rw [hcount, hcount, hmap]
  omega

/-- A count of one means that no other block has an edge to `t`. -/
theorem only_of_predCount (hle : predCount f t ≤ 1) {i b : BasicBlockId} (hi : t ∈ f.successors i)
    (hb : t ∈ f.successors b) : b = i := by
  obtain ⟨block, hblock, hmem⟩ := block_of_successor hi
  obtain ⟨block', hblock', hmem'⟩ := block_of_successor hb
  have hcount : ((f.basicBlocks.flatMap BasicBlock.successors).filter fun s => s == t).length ≤ 1 := by
    rw [← List.countP_eq_length_filter]
    have hsum := List.count_flatMap (l := f.basicBlocks) (f := BasicBlock.successors) (x := t)
    have hpred : (f.basicBlocks.flatMap BasicBlock.successors).count t ≤ predCount f t := by
      rw [hsum, predCount]
      exact Nat.le_add_left _ _
    exact hpred.trans hle
  exact filter_one_block hcount hblock' hblock ⟨t, hmem', by simp⟩ ⟨t, hmem, by simp⟩

theorem mergeTarget_mergeable {counts : BasicBlockId → Nat}
    (hcounts : ∀ x, predCount f x ≤ counts x) (h : mergeTarget counts f i = some t) :
    ∃ block target, Mergeable f i t block target := by
  unfold mergeTarget at h
  split at h
  next t' span hterm =>
    split at h
    next hc =>
      obtain rfl := Option.some.inj h
      obtain ⟨hne, hlt, hentry, hone⟩ := hc
      have hsucc : t' ∈ f.successors i := by
        simp [MirFunction.successors, hterm, TerminatorKind.successors]
      obtain ⟨block, hblock, _⟩ := block_of_successor hsucc
      refine ⟨block, _, hblock, List.getElem?_eq_getElem hlt, ⟨span, ?_⟩, hne, hentry, ?_⟩
      · simpa only [MirFunction.terminatorAt, hblock, Option.bind_some] using hterm
      · intro b hb
        exact only_of_predCount ((hcounts t').trans (le_of_eq hone)) hsucc hb
    next => simp at h
  next => simp at h

theorem Mergeable.length (h : Mergeable f i t block target) :
    (mergeBlocks f i t).basicBlocks.length = f.basicBlocks.length := by
  rw [h.merged, List.length_set, List.length_set]

theorem Mergeable.closed (h : Mergeable f i t block target) (hf : f.Closed) :
    (mergeBlocks f i t).Closed := by
  intro b s hs
  rw [h.length]
  obtain ⟨b', hb', hmem⟩ := block_of_successor hs
  by_cases hbt : b = t
  · rw [hbt, h.merged] at hb'
    obtain ⟨hlt, hget⟩ := List.getElem?_eq_some_iff.mp hb'
    simp only [List.getElem_set_self] at hget
    rw [← hget] at hmem
    simp [absorbed, BasicBlock.successors, TerminatorKind.successors] at hmem
  · by_cases hbi : b = i
    · rw [hbi, h.merged_block] at hb'
      obtain rfl := Option.some.inj hb'
      have htarget : s ∈ f.successors t := (successors_of_block h.there).symm ▸ hmem
      exact hf t s htarget
    · rw [h.other_block hbi hbt] at hb'
      have hother : s ∈ f.successors b := (successors_of_block hb').symm ▸ hmem
      exact hf b s hother

/-- What every merge keeps of the function before all of them. -/
structure MergedFrom (rt : Runtime W) (f g : MirFunction) : Prop where
  runs : SameRuns rt f g
  counts : ∀ x, predCount g x ≤ predCount f x
  closed : f.Closed → g.Closed

theorem mergeLinearBlocks_mergedFrom (rt : Runtime W) (f : MirFunction) :
    MergedFrom rt f (mergeLinearBlocks f) := by
  have hself : MergedFrom rt f f := ⟨SameRuns.refl rt f, fun _ => le_rfl, id⟩
  unfold mergeLinearBlocks
  split
  next => exact hself
  next =>
    refine List.foldlRecOn _ _ hself ?_
    intro g hg i _
    unfold mergeAt
    split
    next t ht =>
      obtain ⟨block, target, hm⟩ := mergeTarget_mergeable hg.counts ht
      exact ⟨hg.runs.trans hm.sameRuns, fun x => (hm.predCount_le x).trans (hg.counts x),
        fun hf => hm.closed (hg.closed hf)⟩
    next => exact hg

end Merging

section Elimination

/-- Some walk from the entry gets to the block. -/
def MirFunction.Reached (f : MirFunction) (b : BasicBlockId) : Prop :=
  ∃ before, Walk f.successors before b

theorem markSuccessors (succs marked worklist : List BasicBlockId) :
    ∃ new, succs.foldl (markSuccessor f) (marked, worklist) = (new ++ marked, new ++ worklist) ∧
      new.Nodup ∧ (∀ s ∈ new, s ∈ succs ∧ s < f.basicBlocks.length ∧ s ∉ marked) ∧
      ∀ s ∈ succs, s < f.basicBlocks.length → s ∈ new ++ marked := by
  induction succs generalizing marked worklist with
  | nil => exact ⟨[], rfl, List.nodup_nil, by simp, by simp⟩
  | cons s succs ih =>
    rw [List.foldl_cons, markSuccessor]
    split
    next hs =>
      obtain ⟨new, heq, hnodup, hnew, hall⟩ := ih (s :: marked) (s :: worklist)
      refine ⟨new ++ [s], by simp [heq], ?_, ?_, ?_⟩
      · refine List.nodup_append.mpr ⟨hnodup, List.nodup_singleton s, ?_⟩
        intro a ha b hb
        rw [List.mem_singleton.mp hb]
        intro he
        exact (hnew a ha).2.2 (he ▸ List.mem_cons_self)
      · intro a ha
        rcases List.mem_append.mp ha with ha | ha
        · obtain ⟨hmem, hlt, hn⟩ := hnew a ha
          exact ⟨List.mem_cons_of_mem _ hmem, hlt, fun hm => hn (List.mem_cons_of_mem _ hm)⟩
        · rw [List.mem_singleton.mp ha]
          exact ⟨List.mem_cons_self, hs⟩
      · intro a ha hlt
        rw [List.append_assoc, List.singleton_append]
        rcases List.mem_cons.mp ha with rfl | ha
        · exact List.mem_append_right _ List.mem_cons_self
        · exact hall a ha hlt
    next hs =>
      obtain ⟨new, heq, hnodup, hnew, hall⟩ := ih marked worklist
      refine ⟨new, heq, hnodup, ?_, ?_⟩
      · intro a ha
        obtain ⟨hmem, hrest⟩ := hnew a ha
        exact ⟨List.mem_cons_of_mem _ hmem, hrest⟩
      · intro a ha hlt
        rcases List.mem_cons.mp ha with rfl | ha
        · have hm : a ∈ marked := by
            by_contra hn
            exact hs ⟨hlt, hn⟩
          exact List.mem_append_right _ hm
        · exact hall a ha hlt

/-- The marked blocks are reached, and closed under successors once the worklist is empty. -/
theorem markReachable_spec (fuel : Nat) {marked worklist : List BasicBlockId}
    (hfuel : unmarked f.basicBlocks.length marked + worklist.length ≤ fuel)
    (hsub : worklist ⊆ marked)
    (hreached : ∀ b ∈ marked, b < f.basicBlocks.length ∧ f.Reached b)
    (hdone : ∀ b ∈ marked, b ∉ worklist → ∀ s ∈ f.successors b, s < f.basicBlocks.length →
      s ∈ marked) :
    marked ⊆ markReachable f fuel marked worklist ∧
      (∀ b ∈ markReachable f fuel marked worklist, b < f.basicBlocks.length ∧ f.Reached b) ∧
      ∀ b ∈ markReachable f fuel marked worklist, ∀ s ∈ f.successors b, s < f.basicBlocks.length →
        s ∈ markReachable f fuel marked worklist := by
  induction fuel generalizing marked worklist with
  | zero =>
    have hnil : worklist = [] := List.length_eq_zero_iff.mp (by omega)
    exact ⟨List.Subset.refl _, hreached, fun b hb => hdone b hb (by simp [hnil])⟩
  | succ fuel ih =>
    cases worklist with
    | nil => exact ⟨List.Subset.refl _, hreached, fun b hb => hdone b hb (by simp)⟩
    | cons idx worklist =>
      obtain ⟨new, heq, hnodup, hnew, hall⟩ := @markSuccessors f (f.successors idx) marked worklist
      have hcount := unmarked_append hnodup fun b hb => (hnew b hb).2
      have hidx := hsub List.mem_cons_self
      have hfuel' : unmarked f.basicBlocks.length (new ++ marked) + (new ++ worklist).length ≤
          fuel := by
        simp only [List.length_append, List.length_cons] at hfuel ⊢
        omega
      have hsub' : new ++ worklist ⊆ new ++ marked := by
        intro b hb
        rcases List.mem_append.mp hb with hb | hb
        · exact List.mem_append_left _ hb
        · exact List.mem_append_right _ (hsub (List.mem_cons_of_mem _ hb))
      have hreached' : ∀ b ∈ new ++ marked, b < f.basicBlocks.length ∧ f.Reached b := by
        intro b hb
        rcases List.mem_append.mp hb with hb | hb
        · obtain ⟨hsucc, hlt, _⟩ := hnew b hb
          obtain ⟨_, before, hwalk⟩ := hreached idx hidx
          exact ⟨hlt, _, hwalk.step hsucc⟩
        · exact hreached b hb
      have hdone' : ∀ b ∈ new ++ marked, b ∉ new ++ worklist → ∀ s ∈ f.successors b,
          s < f.basicBlocks.length → s ∈ new ++ marked := by
        intro b hb hwork s hs hlt
        rw [List.mem_append, not_or] at hwork
        have hmarked : b ∈ marked := (List.mem_append.mp hb).resolve_left hwork.1
        by_cases hbi : b = idx
        · exact hall s (hbi ▸ hs) hlt
        · exact List.mem_append_right _ (hdone b hmarked (by simp [hbi, hwork.2]) s hs hlt)
      obtain ⟨hkeep, hgood⟩ := ih hfuel' hsub' hreached' hdone'
      simp only [markReachable, heq]
      exact ⟨List.Subset.trans (List.subset_append_right _ _) hkeep, hgood⟩

structure Reachable (f : MirFunction) (reachable : List BasicBlockId) : Prop where
  entry : 0 ∈ reachable
  reached : ∀ b ∈ reachable, b < f.basicBlocks.length ∧ f.Reached b
  closed : ∀ b ∈ reachable, ∀ s ∈ f.successors b, s < f.basicBlocks.length → s ∈ reachable

theorem reachableBlocks_reachable (h : 0 < f.basicBlocks.length) :
    Reachable f (reachableBlocks f) := by
  have hfuel : unmarked f.basicBlocks.length [0] + [0].length ≤ f.basicBlocks.length + 1 :=
    Nat.add_le_add_right (unmarked_le _ _) 1
  obtain ⟨hsub, hreached, hclosed⟩ := markReachable_spec (f.basicBlocks.length + 1) hfuel
    (List.Subset.refl _) (by simpa using ⟨h, [], Walk.entry⟩) (by simp)
  exact ⟨hsub (List.mem_singleton_self 0), hreached, hclosed⟩

variable {reachable : List BasicBlockId} {b : BasicBlockId} {block : BasicBlock}

theorem kept_place (hmem : b ∈ reachable) (hb : f.basicBlocks[b]? = some block) :
    (f.basicBlocks.zipIdx.filter fun p => decide (p.2 ∈ reachable))[remap reachable b]? =
      some (block, b) := by
  obtain ⟨hlt, -⟩ := List.getElem?_eq_some_iff.mp hb
  have hzip : f.basicBlocks.zipIdx[b]? = some (block, b) := by
    simp [List.getElem?_zipIdx, hb]
  have hbefore : (f.basicBlocks.zipIdx.take b).map Prod.snd = List.range b := by
    rw [List.map_take, List.zipIdx_map_snd, ← List.range_eq_range', List.take_range,
      Nat.min_eq_left (Nat.le_of_lt hlt)]
  have hcount : ((f.basicBlocks.zipIdx.take b).filter fun p => decide (p.2 ∈ reachable)).length =
      remap reachable b := by
    rw [remap, if_pos hmem, ← hbefore, List.filter_map, List.length_map]
    rfl
  rw [← hcount]
  exact getElem?_filter hzip (decide_eq_true hmem)

theorem keepBlocks_block (hmem : b ∈ reachable) (hb : f.basicBlocks[b]? = some block) :
    (keepBlocks f reachable).basicBlocks[remap reachable b]? =
      some (block.mapTargets (remap reachable)) := by
  rw [keepBlocks, List.getElem?_map, kept_place hmem hb]
  rfl

/-- Every block that stays is an old one. -/
theorem keepBlocks_origin {j : Nat} {block' : BasicBlock}
    (h : (keepBlocks f reachable).basicBlocks[j]? = some block') :
    ∃ b block, b ∈ reachable ∧ f.basicBlocks[b]? = some block ∧ remap reachable b = j ∧
      block' = block.mapTargets (remap reachable) := by
  rw [keepBlocks, List.getElem?_map, Option.map_eq_some_iff] at h
  obtain ⟨⟨block, b⟩, hj, rfl⟩ := h
  have hin := List.mem_filter.mp (List.mem_of_getElem? hj)
  have hmem : b ∈ reachable := of_decide_eq_true hin.2
  have hb : f.basicBlocks[b]? = some block := (List.mem_zipIdx_iff_getElem?.mp hin.1)
  have hnodup : (f.basicBlocks.zipIdx.filter fun p => decide (p.2 ∈ reachable)).Nodup := by
    refine List.Nodup.filter _ (List.Nodup.of_map Prod.snd ?_)
    rw [List.zipIdx_map_snd, ← List.range_eq_range']
    exact List.nodup_range
  obtain ⟨hlt, -⟩ := List.getElem?_eq_some_iff.mp hj
  have hsame := (List.getElem?_inj hlt hnodup).mp (hj.trans (kept_place hmem hb).symm)
  exact ⟨b, block, hmem, hb, hsame.symm, rfl⟩

theorem successors_mapTargets (g : BasicBlockId → BasicBlockId) (block : BasicBlock) :
    (block.mapTargets g).successors = block.successors.map g := by
  obtain ⟨stmts, term⟩ := block
  cases term with
  | none => rfl
  | some t =>
    obtain ⟨kind, span⟩ := t
    cases kind <;>
      simp [BasicBlock.mapTargets, BasicBlock.successors, TerminatorKind.mapTargets,
        TerminatorKind.successors]

theorem keepBlocks_successors (hmem : b ∈ reachable) (hb : f.basicBlocks[b]? = some block) :
    (keepBlocks f reachable).successors (remap reachable b) =
      (f.successors b).map (remap reachable) := by
  rw [successors_of_block (keepBlocks_block hmem hb), successors_mapTargets, successors_of_block hb]

theorem remap_zero : remap reachable 0 = 0 := by
  simp [remap]

/-- A walk of the old function through blocks that stay is one of the new function. -/
theorem Reachable.reached_remap (h : Reachable f reachable) (hf : f.Closed) (hb : f.Reached b) :
    b ∈ reachable ∧ (keepBlocks f reachable).Reached (remap reachable b) := by
  obtain ⟨before, hwalk⟩ := hb
  induction hwalk with
  | entry =>
    refine ⟨h.entry, [], ?_⟩
    rw [remap_zero]
    exact Walk.entry
  | @step before p b _ hsucc ih =>
    obtain ⟨hp, before', hwalk'⟩ := ih
    obtain ⟨blockp, hblockp, _⟩ := block_of_successor hsucc
    refine ⟨h.closed p hp b hsucc (hf p b hsucc), _, hwalk'.step ?_⟩
    rw [keepBlocks_successors hp hblockp]
    exact List.mem_map_of_mem hsucc

/-- The same place in a block that stays. -/
structure KeptAt (reachable : List BasicBlockId) (p q : Point W) : Prop where
  kept : p.bb ∈ reachable
  bb : q.bb = remap reachable p.bb
  idx : q.idx = p.idx
  state : p.state = q.state

theorem Reachable.follows (h : Reachable f reachable) (hf : f.Closed) {p q : Point W}
    (hr : KeptAt reachable p q) (trace : List Statement) :
    (∃ a b, tracedStep rt f (p, trace) = .inl a ∧
      tracedStep rt (keepBlocks f reachable) (q, trace) = .inl b ∧
      SameTrace (KeptAt reachable) a b) ∨
      ∃ o, tracedStep rt f (p, trace) = .inr o ∧
        tracedStep rt (keepBlocks f reachable) (q, trace) = .inr o := by
  obtain ⟨hlt, _⟩ := h.reached p.bb hr.kept
  have hb := List.getElem?_eq_getElem hlt
  have hb' := keepBlocks_block hr.kept hb
  have hplace : SamePlace f (keepBlocks f reachable) (remap reachable) p q :=
    ⟨rfl, hr.state.symm, _, _, hb, hr.bb ▸ hb', by rw [hr.idx]; rfl, fun _ => rfl⟩
  refine hplace.traced trace ?_ ?_
  · intro s stmt _
    exact ⟨hr.kept, hr.bb, by rw [hr.idx], rfl⟩
  · intro bb s _ hbb
    exact ⟨h.closed p.bb hr.kept bb hbb (hf p.bb bb hbb), rfl, rfl, rfl⟩

theorem Reachable.sameRuns (h : Reachable f reachable) (hf : f.Closed) :
    SameRuns rt f (keepBlocks f reachable) := by
  have hsim := @simulates_of_lag _ _ _ (tracedStep rt f) (tracedStep rt (keepBlocks f reachable))
    (SameTrace (KeptAt reachable)) (fun _ => False) ?_ ?_
  · refine sameRuns_of_simulates (fun p q hr => hr.state) ?_ hsim.1 hsim.2
    intro s
    exact ⟨h.entry, remap_zero.symm, rfl, rfl⟩
  · intro a b _ hlag
    exact hlag.elim
  · rintro ⟨p, trace⟩ ⟨q, _⟩ ⟨hr, rfl⟩ _
    exact h.follows hf hr trace

theorem Reachable.keepBlocks_closed (h : Reachable f reachable) (hf : f.Closed) :
    (keepBlocks f reachable).Closed := by
  intro j t ht
  obtain ⟨block', hj, hmem⟩ := block_of_successor ht
  obtain ⟨b, block, hb, hblock, rfl, rfl⟩ := keepBlocks_origin hj
  rw [successors_mapTargets] at hmem
  obtain ⟨s, hs, rfl⟩ := List.mem_map.mp hmem
  have hsucc : s ∈ f.successors b := (successors_of_block hblock).symm ▸ hs
  have hlt := hf b s hsucc
  have hkept := h.closed b hb s hsucc hlt
  obtain ⟨hlt', -⟩ := List.getElem?_eq_some_iff.mp
    (keepBlocks_block hkept (List.getElem?_eq_getElem hlt))
  exact hlt'

/-- Every terminator targets an existing block, and every block is reached from the entry. -/
structure Tidy (f : MirFunction) : Prop where
  closed : f.Closed
  reached : ∀ b < f.basicBlocks.length, f.Reached b

theorem unreachableBlockElimination_sound (rt : Runtime W) (hf : f.Closed) :
    SameRuns rt f (unreachableBlockElimination f) ∧ Tidy (unreachableBlockElimination f) := by
  unfold unreachableBlockElimination
  split
  next hkeep =>
    refine ⟨SameRuns.refl rt f, hf, ?_⟩
    intro b hb
    rcases hkeep with hone | hall
    · obtain rfl : b = 0 := by omega
      exact ⟨[], Walk.entry⟩
    · have hr := reachableBlocks_reachable (Nat.zero_lt_of_lt hb)
      exact (hr.reached b (hall b (List.mem_range.mpr hb))).2
  next hkeep =>
    have hpos : 0 < f.basicBlocks.length := by
      rw [not_or] at hkeep
      omega
    have hr := reachableBlocks_reachable hpos
    refine ⟨hr.sameRuns hf, hr.keepBlocks_closed hf, ?_⟩
    intro j hj
    obtain ⟨b, block, hb, _, rfl, _⟩ := keepBlocks_origin (List.getElem?_eq_getElem hj)
    exact (hr.reached_remap hf (hr.reached b hb).2).2

end Elimination

theorem switchTo_mem (v : Word) (targets : List (Word × BasicBlockId)) (otherwise : BasicBlockId) :
    switchTo v targets otherwise ∈ targets.map (·.2) ++ [otherwise] := by
  unfold switchTo
  cases hfind : targets.find? fun t => decide (t.1 = v) with
  | none => simp
  | some t =>
    refine List.mem_append_left _ (List.mem_map.mpr ⟨t, List.mem_of_find?_eq_some hfind, rfl⟩)

theorem simplify_successors (kind : TerminatorKind) :
    ∀ t ∈ kind.simplify.successors, t ∈ kind.successors := by
  intro t ht
  unfold TerminatorKind.simplify at ht
  split at ht
  next => exact List.mem_singleton.mp ht ▸ switchTo_mem _ _ _
  next => exact List.mem_singleton.mp ht ▸ switchTo_mem _ _ _
  next =>
    split at ht
    · rw [List.mem_singleton.mp ht]
      simp [TerminatorKind.successors]
    · exact ht
  next => exact ht

theorem branchSimplification_closed (hf : f.Closed) : (branchSimplification f).Closed := by
  intro b t ht
  obtain ⟨block', hb', hmem⟩ := block_of_successor ht
  rw [branchSimplification, List.getElem?_map, Option.map_eq_some_iff] at hb'
  obtain ⟨block, hb, rfl⟩ := hb'
  have hold : t ∈ block.successors := by
    cases hterm : block.terminator with
    | none => simp [BasicBlock.successors, BasicBlock.simplifyBranch, hterm] at hmem
    | some term =>
      simp only [BasicBlock.successors, BasicBlock.simplifyBranch, hterm, Option.map_some,
        Option.elim_some] at hmem ⊢
      exact simplify_successors term.kind t hmem
  have hlt := hf b t ((successors_of_block hb).symm ▸ hold)
  rwa [branchSimplification, List.length_map]

/-- Simplifying the control flow keeps every run: the statements performed, the states between them
and the end; and leaves only blocks that the entry reaches. -/
theorem simplifyCfg_sound (rt : Runtime W) (f : MirFunction) (hf : f.Closed) (hd : f.KeepsDiscr) :
    SameRuns rt f (simplifyCfg f) ∧ Tidy (simplifyCfg f) := by
  have hmerged := mergeLinearBlocks_mergedFrom rt (branchSimplification f)
  have hclosed := hmerged.closed (branchSimplification_closed hf)
  obtain ⟨hruns, htidy⟩ := unreachableBlockElimination_sound rt hclosed
  exact ⟨((branchSimplification_sameRuns hd).trans hmerged.runs).trans hruns, htidy⟩

/-- A switch with one target, over an unreachable block. -/
def jumpsOver : MirFunction :=
  plainFunction "jumps_over" 1 [.int, .int]
    [⟨[], plainTerm (.switchInt (.copy 1) [(0, 2)] 2)⟩, ⟨[], plainTerm (.goto 2)⟩,
      ⟨[plainStmt (.assign 0 (.use (.copy 1)))], plainTerm .ret⟩]

theorem simplifyCfg_sound_jumpsOver :
    SameRuns plainRuntime jumpsOver (simplifyCfg jumpsOver) ∧ Tidy (simplifyCfg jumpsOver) := by
  refine simplifyCfg_sound plainRuntime jumpsOver ?_ ?_
  · have hall : ∀ b < 3, ∀ t ∈ jumpsOver.successors b, t < 3 := by decide
    exact fun b t ht => hall b (MirFunction.lt_of_successors ht) t ht
  · intro b discr targets otherwise span hterm _
    match b with
    | 0 => cases hterm; rfl
    | 1 => cases hterm
    | 2 => cases hterm
    | b + 3 => cases hterm

/-- A switch with one target moves `_1` out, which is returned then. -/
def movesDiscr : MirFunction :=
  plainFunction "moves_discr" 1 [.int, .int]
    [⟨[], plainTerm (.switchInt (.move 1) [(0, 1)] 1)⟩,
      ⟨[plainStmt (.assign 0 (.use (.copy 1)))], plainTerm .ret⟩]

theorem simplifyCfg_changes_state : movesDiscr.Closed ∧
    Returns plainRuntime movesDiscr [.word 5] emptyWorld (.word 0) ∧
    ¬Returns plainRuntime (simplifyCfg movesDiscr) [.word 5] emptyWorld (.word 0) := by
  refine ⟨?_, ?_, ?_⟩
  · have hall : ∀ b < 2, ∀ t ∈ movesDiscr.successors b, t < 2 := by decide
    exact fun b t ht => hall b (MirFunction.lt_of_successors ht) t ht
  · exact returns_of_runs 3 (by decide +kernel)
  · exact @not_returns_of_runs _ _ _ _ _ _ (.word 5) 2 (by decide +kernel) (by decide)

end Olive
