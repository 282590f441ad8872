import Olive.BorrowLoop

/-! When running a block's assignments a second time loses no mark. -/

namespace Olive

open Flags FlowGraph

def ReplayStable (stmts : List Statement) : Prop :=
  ∀ (borrowed : Finset String) (state : List Bool),
    flagFacts (borrowStmts borrowed stmts state) ⊆
      flagFacts (borrowStmts borrowed stmts (borrowStmts borrowed stmts state))

/-- No statement assigns a local that an earlier one copies from. -/
def KeepsSources (stmts : List Statement) : Prop :=
  stmts.Pairwise fun stmt later => ∀ dst src, stmt.copy? = some (dst, src) → later.dst? ≠ some src

/-- Without a copy from `d`, the mark of `d` only matters for `d` itself. -/
theorem borrowStmts_subset_off {borrowed : Finset String} {stmts : List Statement} {d : Local}
    (hd : ∀ stmt ∈ stmts, ∀ dst, stmt.copy? ≠ some (dst, d)) {state state' : List Bool}
    (hlen : state.length = state'.length)
    (h : ∀ l ≠ d, l ∈ flagFacts state → l ∈ flagFacts state') :
    ∀ l ≠ d, l ∈ flagFacts (borrowStmts borrowed stmts state) →
      l ∈ flagFacts (borrowStmts borrowed stmts state') := by
  induction stmts using List.reverseRecOn with
  | nil => exact h
  | append_singleton stmts stmt ih =>
    have hprev := ih fun s hs => hd s (by simp [hs])
    intro l hl hm
    rw [borrowStmts_append] at hm ⊢
    by_cases hdst : stmt.dst? = some l
    · obtain ⟨rval, hk⟩ := Statement.dst?_eq_some.mp hdst
      have hlt : l < state.length := by simpa using lt_length_of_mem hm
      refine (borrowStmt_dst hk (by simpa [← hlen] using hlt)).mpr ?_
      rcases rvalueBorrows_iff.mp ((borrowStmt_dst hk (by simpa using hlt)).mp hm) with
        ⟨src, hr, hs⟩ | hs
      · have hsrc : src ≠ d := by
          rintro rfl
          refine hd stmt (by simp) l (Statement.copy?_eq_some.mpr ?_)
          rcases hr with rfl | rfl
          · exact .inl hk
          · exact .inr hk
        exact rvalueBorrows_iff.mpr (.inl ⟨src, hr, hprev src hsrc hs⟩)
      · exact rvalueBorrows_iff.mpr (.inr hs)
    · exact (borrowStmt_keep hdst).mpr (hprev l hl ((borrowStmt_keep hdst).mp hm))

theorem borrowStmt_subset {borrowed : Finset String} {stmt : Statement} {state state' : List Bool}
    (hlen : state.length = state'.length) (h : flagFacts state ⊆ flagFacts state') :
    flagFacts (borrowStmt borrowed state stmt) ⊆ flagFacts (borrowStmt borrowed state' stmt) :=
  borrowStmts_mono (Finset.Subset.refl _) [stmt] hlen h

/-- A block that never overwrites what it copied from loses no mark when replayed. -/
theorem KeepsSources.replayStable {stmts : List Statement} (h : KeepsSources stmts) :
    ReplayStable stmts := by
  intro borrowed state
  induction stmts using List.reverseRecOn with
  | nil => exact Finset.Subset.refl _
  | append_singleton stmts stmt ih =>
    obtain ⟨hpre, _, hlast⟩ := List.pairwise_append.mp h
    have hih := ih hpre
    rw [borrowStmts_append, borrowStmts_append]
    change flagFacts (borrowStmt borrowed (borrowStmts borrowed stmts state) stmt) ⊆
      flagFacts (borrowStmt borrowed (borrowStmts borrowed stmts
        (borrowStmt borrowed (borrowStmts borrowed stmts state) stmt)) stmt)
    cases hd : stmt.dst? with
    | none =>
      have hkeep : ∀ (st : List Bool) l, l ∈ flagFacts (borrowStmt borrowed st stmt) ↔
          l ∈ flagFacts st := fun st l => borrowStmt_keep (by simp [hd])
      intro l hl
      rw [hkeep] at hl ⊢
      have hle : flagFacts (borrowStmts borrowed stmts state) ⊆
          flagFacts (borrowStmt borrowed (borrowStmts borrowed stmts state) stmt) :=
        fun l hl => (hkeep _ l).mpr hl
      exact borrowStmts_mono (Finset.Subset.refl _) stmts (by simp) hle (hih hl)
    | some d =>
      obtain ⟨rval, hk⟩ := Statement.dst?_eq_some.mp hd
      -- the replay of `stmts` starts from marks that differ from its own at `d` only
      have hoff : ∀ l ≠ d, l ∈ flagFacts (borrowStmts borrowed stmts state) →
          l ∈ flagFacts (borrowStmts borrowed stmts
            (borrowStmt borrowed (borrowStmts borrowed stmts state) stmt)) := by
        intro l hl hm
        refine borrowStmts_subset_off (d := d) ?_ (by simp) ?_ l hl (hih hm)
        · intro s hs dst hc
          exact hlast s hs stmt (by simp) dst d hc hd
        · exact fun l hl hm => (borrowStmt_keep (by simpa [hd] using Ne.symm hl)).mpr hm
      intro l hl
      by_cases hld : l = d
      · subst l
        have hlt : d < state.length := by simpa using lt_length_of_mem hl
        refine (borrowStmt_dst hk (by simpa using hlt)).mpr ?_
        rcases rvalueBorrows_iff.mp ((borrowStmt_dst hk (by simpa using hlt)).mp hl) with
          ⟨src, hr, hs⟩ | hs
        · refine rvalueBorrows_iff.mpr (.inl ⟨src, hr, ?_⟩)
          by_cases hsrc : src = d
          · subst src
            refine borrowStmts_mono (Finset.Subset.refl _) stmts (by simp) ?_ (hih hs)
            intro l hl'
            by_cases hld : l = d
            · exact hld ▸ hl
            · exact (borrowStmt_keep (by simpa [hd] using Ne.symm hld)).mpr hl'
          · exact hoff src hsrc hs
        · exact rvalueBorrows_iff.mpr (.inr hs)
      · have hne : stmt.dst? ≠ some l := by simpa [hd] using Ne.symm hld
        exact (borrowStmt_keep hne).mpr (hoff l hld ((borrowStmt_keep hne).mp hl))

/-- Along replay-stable blocks a borrow survives the replay. -/
theorem walkStmts_subset_replayed {f : MirFunction} {borrowed : Finset String}
    (before : List BasicBlockId) (h : ∀ p ∈ before, ReplayStable (f.stmtsAt p)) :
    flagFacts (borrowStmts borrowed (f.walkStmts before) (paramFlags f)) ⊆
      flagFacts (replayed f borrowed before) := by
  induction before using List.reverseRecOn with
  | nil => exact Finset.Subset.refl _
  | append_singleton before p ih =>
    have hprev := ih fun q hq => h q (by simp [hq])
    rw [replayed_concat, MirFunction.walkStmts_concat, borrowStmts_append]
    refine (borrowStmts_mono (Finset.Subset.refl _) _ (by simp) hprev).trans ?_
    exact h p (by simp) borrowed _

theorem borrowsReplayed_of_stable {f : MirFunction} {borrowed : Finset String}
    {before : List BasicBlockId} {bb : BasicBlockId} (hw : Walk f.successors before bb)
    (hret : f.returnsAt bb = true) (hs : ∀ p ∈ before, ReplayStable (f.stmtsAt p))
    (hb : HoldsBorrow f borrowed (f.walkStmts before ++ f.stmtsAt bb) 0) :
    BorrowsReplayed f borrowed := by
  refine ⟨before, bb, hw, hret, ?_⟩
  rw [holdsBorrow_iff, borrowStmts_append] at hb
  exact borrowStmts_mono (Finset.Subset.refl _) _ (by simp) (walkStmts_subset_replayed before hs) hb

end Olive
