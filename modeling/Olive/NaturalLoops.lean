import Olive.Dominators

namespace Olive

open FlowGraph DominatorTree

/-- A path from `b` to `n` on which no block is `d`. -/
inductive ReachesAvoiding (f : MirFunction) (d : BasicBlockId) : BasicBlockId → BasicBlockId → Prop where
  | refl {n : BasicBlockId} : n ≠ d → ReachesAvoiding f d n n
  | step {p b n : BasicBlockId} : p ≠ d → b ∈ f.successors p → ReachesAvoiding f d b n →
      ReachesAvoiding f d p n

/-- The loops are the natural loops of the code that control can reach. -/
structure LiveLoops (f : MirFunction) (loops : List Loop) : Prop where
  latch : ∀ l ∈ loops, ∃ n, l.latches = [n] ∧ l.header ∈ f.successors n
  dominates : ∀ l ∈ loops, ∀ b ∈ l.body, DominatorTree.Dominates f.successors l.header b
  body : ∀ l ∈ loops, ∀ b, b ∈ l.body ↔ b = l.header ∨
    DominatorTree.Reachable f.successors b ∧ ∃ n ∈ l.latches, ReachesAvoiding f l.header b n
  exits : ∀ l ∈ loops, ∀ e, e ∈ l.exits ↔ e ∉ l.body ∧ ∃ b ∈ l.body, e ∈ f.successors b
  live : ∀ l ∈ loops, ∀ b ∈ l.body, DominatorTree.Reachable f.successors b
  reported : ∀ n d, DominatorTree.Reachable f.successors n → d ∈ f.successors n →
    DominatorTree.Dominates f.successors d n →
    ∃ l ∈ loops, l.header = d ∧ l.latches = [n]

/-- No dead block jumps to itself, a live one that does has no other predecessor, and the blocks that
come to a latch inside the loop are live. -/
structure LiveEntries (f : MirFunction) : Prop where
  self_live : ∀ n, n ∈ f.successors n → DominatorTree.Reachable f.successors n
  self_only : ∀ n, n ∈ f.successors n → ∀ p, n ∈ f.successors p → p = n
  latch_live : ∀ n d, DominatorTree.Reachable f.successors n → d ∈ f.successors n →
    DominatorTree.Dominates f.successors d n →
    n ≠ d → ∀ b, ReachesAvoiding f d b n → DominatorTree.Reachable f.successors b

section Paths

variable {f : MirFunction} {b d n p : BasicBlockId}

theorem ReachesAvoiding.ne_start (h : ReachesAvoiding f d b n) : b ≠ d := by
  cases h <;> assumption

theorem ReachesAvoiding.ne_end (h : ReachesAvoiding f d b n) : n ≠ d := by
  induction h with
  | refl hne => exact hne
  | step _ _ _ ih => exact ih

/-- A walk to `b` that misses `d` goes on to a walk to `n` that does. -/
theorem ReachesAvoiding.walk (h : ReachesAvoiding f d b n) {before : List BasicBlockId}
    (hw : Walk f.successors before b) (hout : d ∉ before) :
    ∃ before', Walk f.successors before' n ∧ d ∉ before' := by
  induction h generalizing before with
  | refl => exact ⟨before, hw, hout⟩
  | step hne hsucc _ ih =>
    refine ih (hw.step hsucc) ?_
    rw [List.mem_append, List.mem_singleton, not_or]
    exact ⟨hout, hne.symm⟩

/-- The header of a back edge dominates whatever comes to the latch without it. -/
theorem ReachesAvoiding.dominates (h : ReachesAvoiding f d b n)
    (hd : DominatorTree.Dominates f.successors d n) : DominatorTree.Dominates f.successors d b := by
  intro before hw
  by_contra hnot
  rw [not_or] at hnot
  obtain ⟨before', hw', hout⟩ := h.walk hw hnot.2
  rcases hd before' hw' with heq | hmem
  · exact h.ne_end heq.symm
  · exact hout hmem

theorem dominates_lt (hd : DominatorTree.Dominates f.successors d n)
    (hr : DominatorTree.Reachable f.successors n)
    (hn : n < f.basicBlocks.length) : d < f.basicBlocks.length := by
  obtain ⟨before, hw⟩ := hr
  have hall : ∀ x ∈ before, x < f.basicBlocks.length := by
    clear hd hn
    induction hw with
    | entry => exact fun x hx => absurd hx List.not_mem_nil
    | step _ hsucc ih =>
      intro x hx
      rcases List.mem_append.mp hx with hx | hx
      · exact ih x hx
      · rw [List.mem_singleton.mp hx]
        exact MirFunction.lt_of_successors hsucc
  rcases hd before hw with rfl | hmem
  · exact hn
  · exact hall d hmem

end Paths

section Growth

variable {f : MirFunction} {b d n p : BasicBlockId}

/-- What the backward walk adds has come from the stack. -/
theorem growBody_subset {P : BasicBlockId → Prop} (hP : ∀ m p, P m → p ∈ cfgPreds f m → p ≠ d → P p)
    (fuel : Nat) {stack body : List BasicBlockId} (hstack : ∀ m ∈ stack, P m) :
    ∀ b ∈ growBody f d fuel stack body, b ∈ body ∨ P b := by
  induction fuel generalizing stack body with
  | zero => exact fun b hb => .inl hb
  | succ fuel ih =>
    cases stack with
    | nil => exact fun b hb => .inl hb
    | cons m stack =>
      have hnew : ∀ p ∈ (cfgPreds f m).filter fun p => decide (p ≠ d ∧ p ∉ body), P p := by
        intro p hp
        obtain ⟨hpred, hcond⟩ := List.mem_filter.mp hp
        exact hP m p (hstack m List.mem_cons_self) hpred (of_decide_eq_true hcond).1
      intro b hb
      simp only [growBody] at hb
      refine (ih ?_ b hb).elim ?_ .inr
      · intro x hx
        rcases List.mem_append.mp hx with hx | hx
        · exact hnew x (List.mem_reverse.mp hx)
        · exact hstack x (List.mem_cons_of_mem _ hx)
      · intro hmem
        rcases List.mem_append.mp hmem with hmem | hmem
        · exact .inl hmem
        · exact .inr (hnew b hmem)

theorem header_mem_body : d ∈ (naturalLoop f n d).body :=
  subset_growBody _ _ _ (by simp)

theorem latch_mem_body : n ∈ (naturalLoop f n d).body :=
  subset_growBody _ _ _ (by simp)

/-- With a latch apart from the header, the body is what comes to the latch. -/
theorem mem_naturalLoop_body (hne : n ≠ d) :
    b ∈ (naturalLoop f n d).body ↔ b = d ∨ ReachesAvoiding f d b n := by
  constructor
  · intro hb
    have hstack : ∀ m ∈ [n], ReachesAvoiding f d m n := by
      intro m hm
      rw [List.mem_singleton.mp hm]
      exact .refl hne
    have hgrow : b ∈ [d, n].dedup ∨ ReachesAvoiding f d b n :=
      growBody_subset (P := fun b => ReachesAvoiding f d b n)
        (fun m p hm hp hpd => .step hpd (mem_cfgPreds.mp hp) hm) _ hstack b hb
    rcases hgrow with hstart | hreach
    · rw [List.mem_dedup, List.mem_cons, List.mem_singleton] at hstart
      rcases hstart with rfl | rfl
      · exact .inl rfl
      · exact .inr (.refl hne)
    · exact .inr hreach
  · rintro (rfl | hreach)
    · exact header_mem_body
    · induction hreach with
      | refl => exact latch_mem_body
      | step _ hsucc hrest ih => exact naturalLoop_closed _ (ih hne) hrest.ne_start hsucc

/-- The predecessors of a block that jumps to itself are taken for the body of its loop. -/
theorem pred_mem_self_loop (hp : d ∈ f.successors p) : p ∈ (naturalLoop f d d).body := by
  by_cases heq : p = d
  · rw [heq]
    exact header_mem_body
  · have hmem : p ∈ [d, d].dedup ++
        (cfgPreds f d).filter fun q => decide (q ≠ d ∧ q ∉ [d, d].dedup) := by
      apply List.mem_append_right
      rw [List.mem_filter, decide_eq_true_eq]
      exact ⟨mem_cfgPreds.mpr hp, heq, by simp [heq]⟩
    exact subset_growBody f.basicBlocks.length _ _ hmem

theorem self_loop_body (honly : ∀ p, d ∈ f.successors p → p = d) :
    b ∈ (naturalLoop f d d).body ↔ b = d := by
  constructor
  · intro hb
    have hgrow : b ∈ [d, d].dedup ∨ b = d :=
      growBody_subset (P := fun b => b = d)
        (fun m p hm hp hpd => absurd (honly p (hm ▸ mem_cfgPreds.mp hp)) hpd) _
        (fun m hm => List.mem_singleton.mp hm) b hb
    rcases hgrow with hstart | heq
    · simpa using hstart
    · exact heq
  · rintro rfl
    exact header_mem_body

theorem mem_naturalLoop_exits {e : BasicBlockId} :
    e ∈ (naturalLoop f n d).exits ↔ e ∉ (naturalLoop f n d).body ∧
      ∃ b ∈ (naturalLoop f n d).body, e ∈ f.successors b := by
  simp only [naturalLoop, List.mem_flatMap, List.mem_filter, decide_eq_true_eq, mem_cfgSuccs]
  exact ⟨fun ⟨b, hb, he, hout⟩ => ⟨hout, b, hb, he⟩, fun ⟨hout, b, hb, he⟩ => ⟨b, hb, he, hout⟩⟩

end Growth

section Found

variable {f : MirFunction} {n d : BasicBlockId}

/-- The back edges of live blocks are found, and the dead blocks that jump to themselves. -/
theorem mem_findLoops {l : Loop} :
    l ∈ findLoops f ↔ ∃ n d, d ∈ f.successors n ∧ l = naturalLoop f n d ∧
      (DominatorTree.Reachable f.successors n ∧ DominatorTree.Dominates f.successors d n ∨
        ¬ DominatorTree.Reachable f.successors n ∧ d = n) := by
  simp only [findLoops, List.mem_flatMap, List.mem_range, List.mem_map, List.mem_filter,
    decide_eq_true_eq, mem_cfgSuccs]
  constructor
  · rintro ⟨n, hn, d, ⟨hsucc, hd, hdom⟩, rfl⟩
    refine ⟨n, d, hsucc, rfl, ?_⟩
    by_cases hr : DominatorTree.Reachable f.successors n
    · exact .inl ⟨hr, ((mem_dominatorsOf hn).1 hr d).mp hdom⟩
    · exact .inr ⟨hr, ((mem_dominatorsOf hn).2 hr d).mp hdom⟩
  · rintro ⟨n, d, hsucc, rfl, hcase⟩
    have hn : n < f.basicBlocks.length := MirFunction.lt_of_successors hsucc
    refine ⟨n, hn, d, ⟨hsucc, ?_⟩, rfl⟩
    rcases hcase with ⟨hr, hdom⟩ | ⟨hr, rfl⟩
    · exact ⟨dominates_lt hdom hr hn, ((mem_dominatorsOf hn).1 hr d).mpr hdom⟩
    · exact ⟨hn, ((mem_dominatorsOf hn).2 hr d).mpr rfl⟩

theorem findLoops_reported (hr : DominatorTree.Reachable f.successors n) (hsucc : d ∈ f.successors n)
    (hdom : DominatorTree.Dominates f.successors d n) : naturalLoop f n d ∈ findLoops f :=
  mem_findLoops.mpr ⟨n, d, hsucc, rfl, .inl ⟨hr, hdom⟩⟩

/-- The body of a back edge of live code is live and as the definition of natural loops has it. -/
theorem LiveEntries.body (he : LiveEntries f) (hr : DominatorTree.Reachable f.successors n)
    (hsucc : d ∈ f.successors n) (hdom : DominatorTree.Dominates f.successors d n) {b : BasicBlockId} :
    b ∈ (naturalLoop f n d).body ↔
      b = d ∨ DominatorTree.Reachable f.successors b ∧ ReachesAvoiding f d b n := by
  by_cases hne : n = d
  · subst hne
    rw [self_loop_body (he.self_only n hsucc)]
    exact ⟨.inl, fun h => h.resolve_right fun hreach => hreach.2.ne_end rfl⟩
  · rw [mem_naturalLoop_body hne]
    exact or_congr_right ⟨fun h => ⟨he.latch_live n d hr hsucc hdom hne b h, h⟩, And.right⟩

theorem LiveEntries.liveLoops (he : LiveEntries f) : LiveLoops f (findLoops f) := by
  have hfound : ∀ l ∈ findLoops f, ∃ n d, d ∈ f.successors n ∧ l = naturalLoop f n d ∧
      DominatorTree.Reachable f.successors n ∧ DominatorTree.Dominates f.successors d n := by
    intro l hl
    obtain ⟨n, d, hsucc, heq, hcase⟩ := mem_findLoops.mp hl
    refine ⟨n, d, hsucc, heq, hcase.resolve_right ?_⟩
    rintro ⟨hdead, rfl⟩
    exact hdead (he.self_live d hsucc)
  constructor
  case latch =>
    intro l hl
    obtain ⟨n, d, hsucc, rfl, -⟩ := hfound l hl
    exact ⟨n, rfl, hsucc⟩
  case dominates =>
    intro l hl b hb
    obtain ⟨n, d, hsucc, rfl, hr, hdom⟩ := hfound l hl
    rcases (he.body hr hsucc hdom).mp hb with rfl | ⟨-, hreach⟩
    · exact .refl _
    · exact hreach.dominates hdom
  case body =>
    intro l hl b
    obtain ⟨n, d, hsucc, rfl, hr, hdom⟩ := hfound l hl
    rw [he.body hr hsucc hdom]
    simp only [naturalLoop, List.mem_singleton, exists_eq_left]
  case exits =>
    intro l hl e
    obtain ⟨n, d, -, rfl, -⟩ := hfound l hl
    exact mem_naturalLoop_exits
  case live =>
    intro l hl b hb
    obtain ⟨n, d, hsucc, rfl, hr, hdom⟩ := hfound l hl
    rcases (he.body hr hsucc hdom).mp hb with rfl | ⟨hlive, -⟩
    · exact hr.step hsucc
    · exact hlive
  case reported =>
    intro n d hr hsucc hdom
    exact ⟨_, findLoops_reported hr hsucc hdom, rfl, rfl⟩

/-- The loops found are the live natural loops exactly where dead code does not come into them and no
live block that jumps to itself is entered from elsewhere. -/
theorem findLoops_live_iff (f : MirFunction) : LiveLoops f (findLoops f) ↔ LiveEntries f := by
  constructor
  · intro h
    have hself : ∀ n, n ∈ f.successors n → DominatorTree.Reachable f.successors n := by
      intro n hsucc
      by_contra hdead
      have hl : naturalLoop f n n ∈ findLoops f :=
        mem_findLoops.mpr ⟨n, n, hsucc, rfl, .inr ⟨hdead, rfl⟩⟩
      exact hdead (h.live _ hl n header_mem_body)
    refine ⟨hself, ?_, ?_⟩
    · intro n hsucc p hp
      have hl := findLoops_reported (hself n hsucc) hsucc (.refl n)
      rcases (h.body _ hl p).mp (pred_mem_self_loop hp) with heq | ⟨-, m, hm, hreach⟩
      · exact heq
      · rw [List.mem_singleton.mp hm] at hreach
        exact absurd rfl hreach.ne_end
    · intro n d hr hsucc hdom hne b hreach
      have hl := findLoops_reported hr hsucc hdom
      exact h.live _ hl b ((mem_naturalLoop_body hne).mpr (.inr hreach))
  · exact LiveEntries.liveLoops

/-- Block 1 jumps to itself, and block 0 comes before it. -/
def spinning : MirFunction :=
  ⟨"spinning", [], [⟨[], some ⟨.goto 1, .default⟩⟩, ⟨[], some ⟨.goto 1, .default⟩⟩], 0, none, none, [],
    false⟩

theorem findLoops_takes_the_entry : ¬ LiveLoops spinning (findLoops spinning) := by
  intro h
  have hfound : findLoops spinning = [⟨1, [1, 0], [1], []⟩] := by decide
  rw [hfound] at h
  rcases (h.body _ List.mem_cons_self 0).mp (by decide) with heq | ⟨-, n, hn, hreach⟩
  · exact absurd heq (by decide)
  · rw [List.mem_singleton.mp hn] at hreach
    exact hreach.ne_end rfl

end Found

end Olive
