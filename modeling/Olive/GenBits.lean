import Olive.Flags
import Olive.GenCheck

/-! What a block does to one flag of the proven set, and the loop that solves for all of them. -/

namespace Olive

open UntilStable RoundRobin Flags

variable {info : List SuspectInfo} {suspects : List Local} {f : MirFunction}

theorem suspectIndex_iff (hn : suspects.Nodup) {l : Local} {s : Nat} :
    suspectIndex suspects l = some s ↔ suspects[s]? = some l := by
  unfold suspectIndex
  rw [List.findIdx?_eq_some_iff_getElem]
  constructor
  · intro h
    obtain ⟨hs, he, _⟩ := h
    rw [List.getElem?_eq_getElem hs, beq_iff_eq.mp he]
  · intro hl
    obtain ⟨hs, he⟩ := List.getElem?_eq_some_iff.mp hl
    refine ⟨hs, beq_iff_eq.mpr he, ?_⟩
    intro j hj
    simp only [beq_iff_eq]
    intro hjl
    have hjlen : j < suspects.length := by omega
    have heq := hn.getElem_inj_iff.mp (hjl.trans he.symm)
    omega

theorem suspectIndex_lt {l : Local} {s : Nat} (h : suspectIndex suspects l = some s) :
    s < suspects.length :=
  (List.findIdx?_eq_some_iff_getElem.mp h).1

theorem mem_flagFacts_of_getD {flags : List Bool} {s : Nat} (hs : s < flags.length)
    (h : flags.getD s true = true) : s ∈ flagFacts flags := by
  rw [getD_of_some (List.getElem?_eq_getElem hs)] at h
  rw [mem_flagFacts, List.getElem?_eq_getElem hs, h]

section Uses

variable {bb : BasicBlockId} {idx : Option Nat}

@[simp] theorem proveUse_length (acc : List Bool × List Site) (l : Local) :
    (proveUse suspects bb idx acc l).1.length = acc.1.length := by
  unfold proveUse
  split
  · split <;> simp
  · rfl

theorem proveUse_flag (hn : suspects.Nodup) {acc : List Bool × List Site} {s : Nat} {l used : Local}
    (hl : suspects[s]? = some l) (hlen : acc.1.length = suspects.length) :
    s ∈ flagFacts (proveUse suspects bb idx acc used).1 ↔ s ∈ flagFacts acc.1 ∨ l = used := by
  have hs : s < acc.1.length := by
    have hlt := (List.getElem?_eq_some_iff.mp hl).1
    omega
  unfold proveUse
  cases hi : suspectIndex suspects used with
  | none =>
    have hne : l ≠ used := by
      intro he
      rw [(suspectIndex_iff hn).mpr (he ▸ hl)] at hi
      simp at hi
    simp [hne]
  | some t =>
    have ht := (suspectIndex_iff hn).mp hi
    have htl : t < acc.1.length := lt_of_lt_of_eq (suspectIndex_lt hi) hlen.symm
    have hiff : l = used ↔ s = t := by
      constructor
      · intro he
        rw [he, ← suspectIndex_iff hn, hi] at hl
        exact (Option.some.inj hl).symm
      · intro he
        rw [he, ht] at hl
        exact (Option.some.inj hl).symm
    rw [hiff]
    by_cases hset : acc.1.getD t true = true
    · have hmem := mem_flagFacts_of_getD htl hset
      simp only [hset, if_true]
      constructor
      · exact .inl
      · intro h
        rcases h with h | h
        · exact h
        · rw [h]
          exact hmem
    · simp only [hset]
      rw [if_neg (by simp), mem_flagFacts_set]
      by_cases hst : s = t
      · simp [hst, htl]
      · simp [hst]

theorem proveUses_length (used : List Local) (acc : List Bool × List Site) :
    (used.foldl (proveUse suspects bb idx) acc).1.length = acc.1.length := by
  induction used generalizing acc with
  | nil => rfl
  | cons l used ih => exact (ih _).trans (proveUse_length acc l)

theorem proveUses_flag (hn : suspects.Nodup) (used : List Local) {acc : List Bool × List Site}
    {s : Nat} {l : Local} (hl : suspects[s]? = some l) (hlen : acc.1.length = suspects.length) :
    s ∈ flagFacts (used.foldl (proveUse suspects bb idx) acc).1 ↔
      s ∈ flagFacts acc.1 ∨ l ∈ used := by
  induction used generalizing acc with
  | nil => simp
  | cons u used ih =>
    rw [List.foldl_cons, ih ((proveUse_length acc u).trans hlen), proveUse_flag hn hl hlen,
      List.mem_cons, or_assoc]

/-- The flags do not depend on the sites recorded before. -/
theorem proveUse_flags (acc : List Bool × List Site) (l : Local) :
    (proveUse suspects bb idx acc l).1 = (proveUse suspects bb idx (acc.1, []) l).1 := by
  unfold proveUse
  split
  · split <;> rfl
  · rfl

theorem proveUse_sites (acc : List Bool × List Site) (l : Local) :
    acc.2 ⊆ (proveUse suspects bb idx acc l).2 := by
  unfold proveUse
  split
  · split
    · exact List.Subset.refl _
    · exact List.subset_append_left _ _
  · exact List.Subset.refl _

theorem proveUses_sites (used : List Local) (acc : List Bool × List Site) :
    acc.2 ⊆ (used.foldl (proveUse suspects bb idx) acc).2 := by
  induction used generalizing acc with
  | nil => exact List.Subset.refl _
  | cons l used ih => exact List.Subset.trans (proveUse_sites acc l) (ih _)

/-- A use of a suspect that is not proven records a site. -/
theorem proveUse_site (hn : suspects.Nodup) {acc : List Bool × List Site} {s : Nat} {l : Local}
    (hl : suspects[s]? = some l) (hlen : acc.1.length = suspects.length)
    (hs : s ∉ flagFacts acc.1) : (bb, idx, l) ∈ (proveUse suspects bb idx acc l).2 := by
  have hlt : s < acc.1.length := by
    have hlt := (List.getElem?_eq_some_iff.mp hl).1
    omega
  have hunset : ¬acc.1.getD s true = true := fun h => hs (mem_flagFacts_of_getD hlt h)
  unfold proveUse
  rw [(suspectIndex_iff hn).mpr hl]
  simp only [if_neg hunset]
  exact List.mem_append_right _ (List.mem_singleton_self _)

theorem proveUses_site (hn : suspects.Nodup) (used : List Local) {acc : List Bool × List Site}
    {s : Nat} {l : Local} (hl : suspects[s]? = some l) (hlen : acc.1.length = suspects.length)
    (hs : s ∉ flagFacts acc.1) (hu : l ∈ used) :
    (bb, idx, l) ∈ (used.foldl (proveUse suspects bb idx) acc).2 := by
  induction used generalizing acc with
  | nil => simp at hu
  | cons u used ih =>
    by_cases he : l = u
    · exact proveUses_sites used _ (he ▸ proveUse_site hn hl hlen hs)
    · refine ih ((proveUse_length acc u).trans hlen) ?_ ?_
      · intro h
        rcases (proveUse_flag hn hl hlen).mp h with h | h
        · exact hs h
        · exact he h
      · exact (List.mem_cons.mp hu).resolve_left he

/-- Every site recorded is a suspect at the place given. -/
theorem proveUse_site_suspect {acc : List Bool × List Site} {l : Local} {site : Site}
    (h : site ∈ (proveUse suspects bb idx acc l).2) :
    site ∈ acc.2 ∨ (site = (bb, idx, l) ∧ l ∈ suspects) := by
  unfold proveUse at h
  split at h
  next s hi =>
    split at h
    · exact .inl h
    · rcases List.mem_append.mp h with h | h
      · exact .inl h
      · obtain ⟨hs, he, _⟩ := List.findIdx?_eq_some_iff_getElem.mp hi
        have hmem := List.getElem_mem hs
        rw [beq_iff_eq.mp he] at hmem
        exact .inr ⟨List.mem_singleton.mp h, hmem⟩
  · exact .inl h

theorem proveUses_site_suspect (used : List Local) {acc : List Bool × List Site} {site : Site}
    (h : site ∈ (used.foldl (proveUse suspects bb idx) acc).2) :
    site ∈ acc.2 ∨ site.2.2 ∈ suspects := by
  induction used generalizing acc with
  | nil => exact .inl h
  | cons u used ih =>
    rcases ih h with h | h
    · rcases proveUse_site_suspect h with h | ⟨rfl, hu⟩
      · exact .inl h
      · exact .inr hu
    · exact .inr h

end Uses

section Effects

@[simp] theorem unprove_length (mayFree : Local → Bool) {state : List Bool}
    (h : state.length = suspects.length) :
    (unprove suspects mayFree state).length = suspects.length := by
  simp [unprove, h]

theorem unprove_flag {mayFree : Local → Bool} {state : List Bool} {s : Nat} {l : Local}
    (hl : suspects[s]? = some l) :
    s ∈ flagFacts (unprove suspects mayFree state) ↔ s ∈ flagFacts state ∧ mayFree l = false := by
  simp only [mem_flagFacts, unprove, List.getElem?_zipWith, hl]
  cases state[s]? with
  | none => simp
  | some proven => simp

theorem genEffect_length {state : List Bool} (stmt : Statement)
    (h : state.length = suspects.length) :
    (genEffect info suspects state stmt).length = suspects.length := by
  unfold genEffect
  split
  · simp only
    split <;> simp [h]
  · exact unprove_length _ h
  · exact h

theorem genEffect_flag (hn : suspects.Nodup) {state : List Bool} {stmt : Statement} {s : Nat}
    {l : Local} (hl : suspects[s]? = some l) (hlen : state.length = suspects.length) :
    s ∈ flagFacts (genEffect info suspects state stmt) ↔
      stmt.dst? = some l ∨ (s ∈ flagFacts state ∧ mayFree info stmt l = false) := by
  unfold genEffect
  cases hk : stmt.kind with
  | assign dst rval =>
    have hdst : stmt.dst? = some dst := by simp [Statement.dst?, hk]
    simp only [hdst, Option.some.injEq]
    cases hi : suspectIndex suspects dst with
    | none =>
      have hne : dst ≠ l := by
        intro he
        rw [(suspectIndex_iff hn).mpr (he ▸ hl)] at hi
        simp at hi
      simp [hne, unprove_flag hl]
    | some t =>
      have ht := (suspectIndex_iff hn).mp hi
      have htl := suspectIndex_lt hi
      simp only [mem_flagFacts_set, unprove_flag hl]
      by_cases hst : s = t
      · subst hst
        have he : dst = l := Option.some.inj (ht.symm.trans hl)
        simp [he, hlen, htl]
      · have hne : dst ≠ l := by
          intro he
          have hs := (suspectIndex_iff hn).mpr hl
          rw [← he, hi] at hs
          exact hst (Option.some.inj hs).symm
        simp [hst, hne]
  | drop dropped => simp [Statement.dst?, hk, unprove_flag hl]
  | _ => simp [Statement.dst?, mayFree, hk]

end Effects

section Blocks

variable {bb : BasicBlockId}

theorem genStmt_length {acc : List Bool × List Site} (stmt : Statement × Nat)
    (h : acc.1.length = suspects.length) :
    (genStmt info suspects bb acc stmt).1.length = suspects.length :=
  genEffect_length _ ((proveUses_length _ acc).trans h)

theorem genStmt_flag (hn : suspects.Nodup) {acc : List Bool × List Site} {stmt : Statement × Nat}
    {s : Nat} {l : Local} (hl : suspects[s]? = some l) (hlen : acc.1.length = suspects.length) :
    s ∈ flagFacts (genStmt info suspects bb acc stmt).1 ↔ stmt.1.dst? = some l ∨
      ((s ∈ flagFacts acc.1 ∨ l ∈ stmt.1.uses) ∧ mayFree info stmt.1 l = false) := by
  rw [genStmt, genEffect_flag hn hl ((proveUses_length _ acc).trans hlen),
    proveUses_flag hn _ hl hlen]

theorem genStmt_sites (acc : List Bool × List Site) (stmt : Statement × Nat) :
    acc.2 ⊆ (genStmt info suspects bb acc stmt).2 :=
  proveUses_sites _ acc

theorem genStmts_length (stmts : List (Statement × Nat)) {acc : List Bool × List Site}
    (h : acc.1.length = suspects.length) :
    (stmts.foldl (genStmt info suspects bb) acc).1.length = suspects.length := by
  induction stmts generalizing acc with
  | nil => exact h
  | cons stmt stmts ih => exact ih (genStmt_length stmt h)

theorem genStmts_sites (stmts : List (Statement × Nat)) (acc : List Bool × List Site) :
    acc.2 ⊆ (stmts.foldl (genStmt info suspects bb) acc).2 := by
  induction stmts generalizing acc with
  | nil => exact List.Subset.refl _
  | cons stmt stmts ih => exact List.Subset.trans (genStmt_sites acc stmt) (ih _)

theorem genStmts_site_suspect (stmts : List (Statement × Nat)) {acc : List Bool × List Site}
    {site : Site} (h : site ∈ (stmts.foldl (genStmt info suspects bb) acc).2) :
    site ∈ acc.2 ∨ site.2.2 ∈ suspects := by
  induction stmts generalizing acc with
  | nil => exact .inl h
  | cons stmt stmts ih =>
    rcases ih h with h | h
    · exact proveUses_site_suspect _ h
    · exact .inr h

/-- More proven before a block means more proven after it. -/
theorem genStmts_mono (hn : suspects.Nodup) (stmts : List (Statement × Nat))
    {acc acc' : List Bool × List Site} (hlen : acc.1.length = suspects.length)
    (hlen' : acc'.1.length = suspects.length) (h : flagFacts acc.1 ⊆ flagFacts acc'.1) :
    flagFacts (stmts.foldl (genStmt info suspects bb) acc).1 ⊆
      flagFacts (stmts.foldl (genStmt info suspects bb) acc').1 := by
  induction stmts generalizing acc acc' with
  | nil => exact h
  | cons stmt stmts ih =>
    refine ih (genStmt_length stmt hlen) (genStmt_length stmt hlen') ?_
    intro s hs
    have hlt : s < suspects.length :=
      lt_of_lt_of_eq (lt_length_of_mem hs) (genStmt_length stmt hlen)
    have hl := List.getElem?_eq_getElem hlt
    rw [genStmt_flag hn hl hlen] at hs
    rw [genStmt_flag hn hl hlen']
    exact hs.imp_right (And.imp_left (Or.imp_left fun hs => h hs))

theorem genTransferBlock_length {state : List Bool} (h : state.length = suspects.length) :
    (genTransferBlock f info suspects bb state).1.length = suspects.length := by
  have hstmts : ((f.stmtsAt bb).zipIdx.foldl (genStmt info suspects bb) (state, [])).1.length =
      suspects.length := genStmts_length _ h
  unfold genTransferBlock
  split
  · exact (proveUse_length _ _).trans hstmts
  · exact hstmts

theorem genTransferBlock_mono (hn : suspects.Nodup) {state state' : List Bool}
    (hlen : state.length = suspects.length) (hlen' : state'.length = suspects.length)
    (h : flagFacts state ⊆ flagFacts state') :
    flagFacts (genTransferBlock f info suspects bb state).1 ⊆
      flagFacts (genTransferBlock f info suspects bb state').1 := by
  let acc : List Bool × List Site := (state, [])
  let acc' : List Bool × List Site := (state', [])
  let final := fun acc => (f.stmtsAt bb).zipIdx.foldl (genStmt info suspects bb) acc
  have hstmts : flagFacts (final acc).1 ⊆ flagFacts (final acc').1 := genStmts_mono hn _ hlen hlen' h
  have hend : (final acc).1.length = suspects.length := genStmts_length _ hlen
  have hend' : (final acc').1.length = suspects.length := genStmts_length _ hlen'
  unfold genTransferBlock
  split
  next used _ =>
    intro s hs
    have hlt := lt_length_of_mem hs
    rw [proveUse_length, hend] at hlt
    have hl := List.getElem?_eq_getElem hlt
    rw [proveUse_flag hn hl hend] at hs
    rw [proveUse_flag hn hl hend']
    exact hs.imp_left fun hs => hstmts hs
  · exact hstmts

end Blocks

end Olive
