import Olive.MoveElisionMarks

/-! Which drops move elision removes, and where a local that it nulls is dead. -/

namespace Olive

open Lockstep OwnedRuns MoveElision

section Removals

/-- The statements from place `k` on that are not removed. -/
def keptFrom (removed : List Nat) : List Paired → Nat → List Paired
  | [], _ => []
  | stmt :: stmts, k =>
    if k ∈ removed then keptFrom removed stmts (k + 1)
    else stmt :: keptFrom removed stmts (k + 1)

variable {stmts : List Paired} {removed : List Nat}

theorem keptFrom_congr {removed' : List Nat} (h : ∀ j, j ∈ removed ↔ j ∈ removed') (k : Nat) :
    keptFrom removed stmts k = keptFrom removed' stmts k := by
  induction stmts generalizing k with
  | nil => rfl
  | cons stmt stmts ih =>
    simp only [keptFrom, ih, h]

theorem keptFrom_none {k : Nat} (h : ∀ j ∈ removed, j < k) : keptFrom removed stmts k = stmts := by
  induction stmts generalizing k with
  | nil => rfl
  | cons stmt stmts ih =>
    have hk : k ∉ removed := fun hmem => Nat.lt_irrefl k (h k hmem)
    rw [keptFrom, if_neg hk, ih fun j hj => Nat.lt_succ_of_lt (h j hj)]

/-- Removing the last of the places first leaves the others where they are. -/
theorem keptFrom_eraseIdx {d : Nat} (hd : d < stmts.length) (k : Nat)
    (h : ∀ j ∈ removed, j < k + d) :
    keptFrom removed (stmts.eraseIdx d) k = keptFrom ((k + d) :: removed) stmts k := by
  induction stmts generalizing d k with
  | nil => cases hd
  | cons stmt stmts ih =>
    cases d with
    | zero =>
      rw [Nat.add_zero] at h ⊢
      have hrest : ∀ j ∈ k :: removed, j < k + 1 := by
        intro j hj
        rcases List.mem_cons.mp hj with rfl | hj
        · omega
        · have := h j hj
          omega
      rw [List.eraseIdx_cons_zero, keptFrom_none h, keptFrom, if_pos List.mem_cons_self,
        keptFrom_none hrest]
    | succ d =>
      have hk : k ∈ (k + (d + 1)) :: removed ↔ k ∈ removed := by
        rw [List.mem_cons]
        exact or_iff_right (by omega)
      have hih := ih (Nat.lt_of_succ_lt_succ hd) (k + 1) fun j hj => by
        have := h j hj
        omega
      have hplace : k + 1 + d = k + (d + 1) := by omega
      rw [hplace] at hih
      simp only [List.eraseIdx_cons_succ, keptFrom, hih, hk]

/-- Places removed from the last on: what is left are the other statements. -/
theorem removeAll_descending {places : List Nat} (hsorted : places.Pairwise (fun a b => b < a))
    (hlt : ∀ j ∈ places, j < stmts.length) :
    removeAll stmts places = some (keptFrom places stmts 0) := by
  induction places generalizing stmts with
  | nil => exact congrArg some (keptFrom_none fun j hj => absurd hj List.not_mem_nil).symm
  | cons d places ih =>
    obtain ⟨hbelow, hsorted⟩ := List.pairwise_cons.mp hsorted
    have hd : d < stmts.length := hlt d List.mem_cons_self
    have hlength : (stmts.eraseIdx d).length = stmts.length - 1 := List.length_eraseIdx_of_lt hd
    have hrest : removeAll (stmts.eraseIdx d) places =
        some (keptFrom places (stmts.eraseIdx d) 0) := by
      refine ih hsorted fun j hj => ?_
      have := hbelow j hj
      omega
    have herase := @keptFrom_eraseIdx stmts places d hd 0 fun j hj => by
      have := hbelow j hj
      omega
    rw [Nat.zero_add] at herase
    rw [← herase, ← hrest]
    simp only [removeAll, List.foldlM_cons, hd, if_true]
    rfl

theorem removeAll_sorted {places : List Nat} (hnodup : places.Nodup)
    (hlt : ∀ j ∈ places, j < stmts.length) :
    removeAll stmts (places.insertionSort (· ≥ ·)) = some (keptFrom places stmts 0) := by
  have hperm := List.perm_insertionSort (· ≥ ·) places
  have hsorted : (places.insertionSort (· ≥ ·)).Pairwise (fun a b => b < a) := by
    have hge := List.pairwise_insertionSort (· ≥ ·) places
    have hne := hperm.nodup_iff.mpr hnodup
    exact (hge.and hne).imp fun h => by
      have := h.1
      omega
  rw [removeAll_descending hsorted fun j hj => hlt j (hperm.mem_iff.mp hj)]
  exact congrArg some (keptFrom_congr (fun j => hperm.mem_iff) 0)

end Removals

section Drops

variable {src : Local} {stmts : List Paired} {k j : Nat}

/-- Whether a statement drops `src` or assigns it. -/
def Settles (stmt : Paired) (src : Local) : Prop :=
  stmt.2.kind = .drop src ∨ ∃ rval, stmt.2.kind = .assign src rval

theorem dropFrom_eq_some (h : dropFrom src stmts k = some j) :
    ∃ i stmt, j = k + i ∧ stmts[i]? = some stmt ∧ stmt.2.kind = .drop src ∧
      ∀ i' stmt', i' < i → stmts[i']? = some stmt' → ¬Settles stmt' src := by
  induction stmts generalizing k with
  | nil => cases h
  | cons stmt stmts ih =>
    have hnext : ¬Settles stmt src → dropFrom src stmts (k + 1) = some j →
        ∃ i st, j = k + i ∧ (stmt :: stmts)[i]? = some st ∧ st.2.kind = .drop src ∧
          ∀ i' st', i' < i → (stmt :: stmts)[i']? = some st' → ¬Settles st' src := by
      intro hstmt h
      obtain ⟨i, st, hj, hst, hdrop, hbefore⟩ := ih h
      refine ⟨i + 1, st, by omega, hst, hdrop, ?_⟩
      intro i' st' hi' hst'
      cases i' with
      | zero =>
        cases hst'
        exact hstmt
      | succ i' => exact hbefore i' st' (by omega) hst'
    unfold dropFrom at h
    split at h
    next l hk =>
      split at h
      next hl =>
        cases h
        exact ⟨0, stmt, rfl, rfl, by rw [hk, hl], fun _ _ hi' => absurd hi' (Nat.not_lt_zero _)⟩
      next hl =>
        refine hnext ?_ h
        rintro (hs | ⟨rval, hs⟩)
        · rw [hk] at hs
          cases hs
          exact hl rfl
        · rw [hk] at hs
          cases hs
    next d rval hk =>
      split at h
      next => cases h
      next hd =>
        refine hnext ?_ h
        rintro (hs | ⟨rval', hs⟩)
        · rw [hk] at hs
          cases hs
        · rw [hk] at hs
          cases hs
          exact hd rfl
    next hdrop hassign =>
      refine hnext ?_ h
      rintro (hs | ⟨rval, hs⟩)
      · exact hdrop _ hs
      · exact hassign _ _ hs

theorem mem_dropRemovals : j ∈ dropRemovals stmts ↔ ∃ idx stmt src, stmts[idx]? = some stmt ∧
    src ∈ movedLocals stmt ∧ dropFrom src (stmts.drop (idx + 1)) (idx + 1) = some j := by
  simp only [dropRemovals, List.mem_flatMap, List.mem_filterMap]
  constructor
  · rintro ⟨⟨stmt, idx⟩, hmem, src, hsrc, hj⟩
    exact ⟨idx, stmt, src, List.mem_zipIdx_iff_getElem?.mp hmem, hsrc, hj⟩
  · rintro ⟨idx, stmt, src, hstmt, hsrc, hj⟩
    exact ⟨(stmt, idx), List.mem_zipIdx_iff_getElem?.mpr hstmt, src, hsrc, hj⟩

/-- The `Drop` found for an operand comes after it, and nothing settles its local in between. -/
theorem drop_found {idx : Nat} (h : dropFrom src (stmts.drop (idx + 1)) (idx + 1) = some j) :
    idx < j ∧ (∃ stmt, stmts[j]? = some stmt ∧ stmt.2.kind = .drop src) ∧
      ∀ i stmt, idx < i → i < j → stmts[i]? = some stmt → ¬Settles stmt src := by
  obtain ⟨i, stmt, rfl, hstmt, hdrop, hbefore⟩ := dropFrom_eq_some h
  rw [List.getElem?_drop] at hstmt
  refine ⟨by omega, ⟨stmt, hstmt, hdrop⟩, ?_⟩
  intro i' stmt' hlow hhigh hstmt'
  refine hbefore (i' - (idx + 1)) stmt' (by omega) ?_
  rw [List.getElem?_drop, show idx + 1 + (i' - (idx + 1)) = i' by omega]
  exact hstmt'

theorem dropRemovals_lt (h : j ∈ dropRemovals stmts) : j < stmts.length := by
  obtain ⟨idx, stmt, src, _, _, hj⟩ := mem_dropRemovals.mp h
  obtain ⟨_, ⟨stmt', hstmt', _⟩, _⟩ := drop_found hj
  exact (List.getElem?_eq_some_iff.mp hstmt').1

end Drops

section Marking

variable {decls : List LocalDecl} {m : Marks} {stmt : Paired} {l : Local}

theorem mem_movedLocals : l ∈ movedLocals stmt ↔
    ∃ r ∈ reads stmt, r.promoted = true ∧ r.after.local? = some l := by
  simp only [movedLocals, List.mem_filterMap, Option.ite_none_right_eq_some]

theorem read_nulled (r : Read) : (m.read r).nulled l = true ↔
    m.nulled l = true ∨ r.promoted = true ∧ r.after.local? = some l := by
  unfold Marks.read
  split
  next l' hp hl =>
    by_cases hx : l = l'
    · simp [Marks.owe, hp, hl, hx]
    · simp [Marks.owe, hp, hl, hx, Ne.symm hx]
  next h =>
    have hnot : ¬(r.promoted = true ∧ r.after.local? = some l) := fun hr => h l hr.1 hr.2
    simp [hnot]

theorem foldl_read_nulled (rs : List Read) : (rs.foldl Marks.read m).nulled l = true ↔
    m.nulled l = true ∨ ∃ r ∈ rs, r.promoted = true ∧ r.after.local? = some l := by
  induction rs generalizing m with
  | nil => simp
  | cons r rs ih =>
    rw [List.foldl_cons, ih, read_nulled]
    simp [or_assoc]

theorem read_ended (r : Read) : (m.read r).ended = m.ended := by
  unfold Marks.read
  split <;> rfl

theorem foldl_read_ended (rs : List Read) : (rs.foldl Marks.read m).ended = m.ended := by
  induction rs generalizing m with
  | nil => rfl
  | cons r rs ih => rw [List.foldl_cons, ih, read_ended]

/-- A local is nulled until it is assigned. -/
theorem exec_nulled : (m.exec decls stmt).nulled l = true ↔
    (m.nulled l = true ∨ l ∈ movedLocals stmt) ∧ ∀ rval, stmt.1.kind ≠ .assign l rval := by
  have hreads := @foldl_read_nulled m l (reads stmt)
  rw [← mem_movedLocals] at hreads
  rw [← hreads]
  unfold Marks.exec Marks.finish
  cases hk : stmt.1.kind with
  | assign dst rval =>
    by_cases hl : l = dst
    · simp [hl]
    · simp [hl, Ne.symm hl]
  | _ => simp

/-- A local is ended by its `Drop`, or with its storage, until it is assigned. -/
theorem exec_ended (hassign : ∀ rval, stmt.1.kind ≠ .assign l rval)
    (h : m.ended l = true ∨ stmt.1.kind.kills? = some l) : (m.exec decls stmt).ended l = true := by
  have hreads := @foldl_read_ended m (reads stmt)
  unfold Marks.exec Marks.finish
  cases hk : stmt.1.kind with
  | assign dst rval =>
    have hl : l ≠ dst := fun hl => hassign rval (by rw [hk, hl])
    have hended : m.ended l = true := h.resolve_right fun hkill => by
      simp only [hk, StatementKind.kills?, Option.some.injEq] at hkill
      exact hl hkill.symm
    simp only [hl, if_false, hreads, hended]
  | drop x =>
    simp only [hk, StatementKind.kills?, Option.some.injEq] at h
    by_cases hl : l = x
    · simp [hl]
    · simpa [hl, hreads, Ne.symm hl] using h
  | storageDead x =>
    simp only [hk, StatementKind.kills?, Option.some.injEq] at h
    by_cases hl : l = x
    · simp [hl]
    · simpa [hl, hreads, Ne.symm hl] using h
  | _ => simpa [hk, StatementKind.kills?, hreads] using h

end Marking

section Points

variable (f : MirFunction) (liveAfter : List (List (Finset Local)))

/-- The statements of a block before the pass and after it, the removed ones still there. -/
def pairedStmts (bb : BasicBlockId) : List Paired := promoteBlock f liveAfter bb (f.stmtsAt bb)

def markStep (p _ : OwnPoint) (m : Marks) : Marks :=
  match (pairedStmts f liveAfter p.bb)[p.idx]? with
  | some stmt => m.exec f.locals stmt
  | none => m

/-- The function as it is, with the marks of the operands that are promoted. -/
def markedStep (env : Answers) : OwnPoint × Marks → (OwnPoint × Marks) ⊕ OwnEnd :=
  ghost (OwnedRuns.step env f.locals (plain f)) (markStep f liveAfter)

/-- What a point needs for the operands that are promoted to be last uses: no statement reads what it
promotes once more, no operand reads a local after its `Drop` or its storage, a statement assigns a
promoted local of its own only if no `Drop` is removed for it, and the return slot is assigned again
before the function returns. -/
structure LastUses (p : OwnPoint) (m : Marks) : Prop where
  once : ∀ stmt, (pairedStmts f liveAfter p.bb)[p.idx]? = some stmt → ReadOnce (reads stmt)
  living : ∀ l ∈ (f.readAt p.bb p.idx).filterMap Operand.local?, m.ended l = false
  other : ∀ stmt dst rval, (pairedStmts f liveAfter p.bb)[p.idx]? = some stmt →
    stmt.1.kind = .assign dst rval → dst ∈ movedLocals stmt →
    dropFrom dst ((pairedStmts f liveAfter p.bb).drop (p.idx + 1)) (p.idx + 1) = none
  slot : ∀ span, (f.stmtsAt p.bb)[p.idx]? = none → f.terminatorAt p.bb = some ⟨.ret, span⟩ →
    m.nulled 0 = false

/-- What a point needs for the word `w`: it is not dropped where its local was promoted into a
variable, and where it was handed over it is dropped before its local is assigned and before the
function returns. -/
structure Paying (p : OwnPoint) (m : Marks) (w : Word) : Prop where
  pays : ∀ stmt, (pairedStmts f liveAfter p.bb)[p.idx]? = some stmt →
    Pays f.locals p.state ((reads stmt).foldl Marks.read m) stmt.1.kind w
  ends : (f.stmtsAt p.bb)[p.idx]? = none →
    (f.terminatorAt p.bb = none ∨ ∃ span, f.terminatorAt p.bb = some ⟨.ret, span⟩) →
    ∀ l, m.owed l = some true → p.state.locals l ≠ w

end Points

section Invariant

theorem optimizeStatement_drop {decls : List LocalDecl} {live : Finset Local} {stmt : Statement}
    {l : Local} (h : (optimized decls live stmt).2.kind = .drop l) : stmt.kind = .drop l := by
  have h : optimizeStatement decls live stmt.kind = .drop l := h
  unfold optimizeStatement at h
  split at h
  · split at h <;> cases h
  · cases h
  · split at h <;> cases h
  · cases h
  · cases h
  · cases h
  · exact h

theorem optimizeStatement_assign {decls : List LocalDecl} {live : Finset Local} (dst : Local)
    (rval : Rvalue) :
    ∃ rval', optimizeStatement decls live (.assign dst rval) = .assign dst rval' := by
  cases rval with
  | use op =>
    simp only [optimizeStatement]
    split
    next => exact ⟨_, rfl⟩
    next => exact ⟨_, rfl⟩
  | call func args =>
    simp only [optimizeStatement]
    split
    next => exact ⟨_, rfl⟩
    next => exact ⟨_, rfl⟩
  | _ => exact ⟨_, rfl⟩

variable {f : MirFunction} {fuel : Nat} {liveAfter : List (List (Finset Local))} {p : OwnPoint}
  {m : Marks} {l : Local}

theorem pairedStmts_getElem? (bb idx : Nat) : (pairedStmts f liveAfter bb)[idx]? =
    (f.stmtsAt bb)[idx]?.map (optimized f.locals (liveAt liveAfter bb (idx + 1))) := by
  simp only [pairedStmts, promoteBlock, List.getElem?_mapIdx]
  rfl

/-- What is nulled at a point is dead or ended there, and where a removed `Drop` is still to come, its
local is nulled. -/
structure Elided (f : MirFunction) (liveAfter : List (List (Finset Local))) (p : OwnPoint)
    (m : Marks) : Prop where
  dead : ∀ l, m.nulled l = true → l ∉ liveAt liveAfter p.bb p.idx ∨ m.ended l = true
  bound : p.idx ≤ (f.stmtsAt p.bb).length
  pending : ∀ idx stmt src j, idx < p.idx → (pairedStmts f liveAfter p.bb)[idx]? = some stmt →
    src ∈ movedLocals stmt →
    dropFrom src ((pairedStmts f liveAfter p.bb).drop (idx + 1)) (idx + 1) = some j → p.idx ≤ j →
    m.nulled src = true

theorem mem_readAt_of_stmt {bb idx : Nat} {stmt : Statement} (hs : (f.stmtsAt bb)[idx]? = some stmt) :
    (handedOperands stmt.kind).map Prod.fst = f.readAt bb idx := by
  obtain ⟨kind, span⟩ := stmt
  cases kind with
  | genCheck value generation => simp [MirFunction.readAt, hs, handedOperands]
  | assign dst rval =>
    have hread : f.readAt bb idx = rval.inputs := by
      simp [MirFunction.readAt, MirFunction.operandsAt, hs, StatementKind.evaluated]
    rw [hread]
    cases rval with
    | call func args =>
      refine congrArg (func :: ·) (List.ext_getElem? fun i => ?_)
      simp only [List.getElem?_map, List.getElem?_mapIdx, Option.map_map]
      cases args[i]? <;> rfl
    | _ => simp [handedOperands, Rvalue.inputs, Rvalue.operands, Function.comp_def]
  | _ =>
    simp [MirFunction.readAt, MirFunction.operandsAt, hs, StatementKind.evaluated,
      StatementKind.stored, handedOperands]

theorem read_local {bb idx : Nat} {stmt : Statement} (hs : (f.stmtsAt bb)[idx]? = some stmt)
    {live : Finset Local} {r : Read} (hr : r ∈ reads (optimized f.locals live stmt)) :
    r.after.local? = r.before.local? ∧ r.before ∈ f.readAt bb idx := by
  obtain ⟨hopt, horiginal⟩ := @reads_optimized f.locals live stmt
  refine ⟨?_, ?_⟩
  · rcases hopt r hr with hsame | ⟨l, hbefore, hafter, _⟩
    · rw [hsame]
    · rw [hbefore, hafter]
      rfl
  · have hmem : r.original ∈ reads (stmt, stmt) := horiginal ▸ List.mem_map_of_mem hr
    rw [← mem_readAt_of_stmt hs]
    have hself : reads (stmt, stmt) =
        (handedOperands stmt.kind).map fun a => (⟨a.1, a.1, a.2⟩ : Read) := by
      simp only [reads, List.zipWith_self]
    rw [hself] at hmem
    obtain ⟨a, ha, hra⟩ := List.mem_map.mp hmem
    have hbefore : r.before = a.1 := (congrArg Read.before hra).symm
    rw [hbefore]
    exact List.mem_map_of_mem ha

/-- At a point where the operands are last uses, none of them reads a nulled local. -/
theorem Elided.not_nulled (hlive : computeLiveness f fuel = some liveAfter)
    (h : Elided f liveAfter p m) (hbb : p.bb < f.basicBlocks.length) (hlast : LastUses f liveAfter p m)
    (hread : l ∈ (f.readAt p.bb p.idx).filterMap Operand.local?) : m.nulled l = false := by
  cases hl : m.nulled l with
  | false => rfl
  | true =>
    have hended := hlast.living l hread
    rcases h.dead l hl with hdead | hend
    · refine absurd ?_ hdead
      cases hs : (f.stmtsAt p.bb)[p.idx]? with
      | some stmt => exact (mem_liveAt_stmt hlive hs).mpr (.inl hread)
      | none =>
        have hidx : p.idx = (f.stmtsAt p.bb).length :=
          Nat.le_antisymm h.bound (List.getElem?_eq_none_iff.mp hs)
        rw [hidx] at hread ⊢
        exact (mem_liveAt_term hlive hbb).mpr (.inl hread)
    · rw [hended] at hend
      cases hend

theorem Elided.stmt (hlive : computeLiveness f fuel = some liveAfter) (h : Elided f liveAfter p m)
    (hlast : LastUses f liveAfter p m) {stmt : Statement} (hs : (f.stmtsAt p.bb)[p.idx]? = some stmt)
    (s : OwnState) : Elided f liveAfter ⟨p.bb, p.idx + 1, s⟩
      (m.exec f.locals (optimized f.locals (liveAt liveAfter p.bb (p.idx + 1)) stmt)) := by
  have hpair : (pairedStmts f liveAfter p.bb)[p.idx]? =
      some (optimized f.locals (liveAt liveAfter p.bb (p.idx + 1)) stmt) := by
    rw [pairedStmts_getElem?, hs]
    rfl
  refine ⟨?_, ?_, ?_⟩
  · intro l hl
    obtain ⟨hnulled, hassign⟩ := exec_nulled.mp hl
    rcases hnulled with hnulled | hmoved
    · rcases h.dead l hnulled with hdead | hended
      · by_cases hkill : stmt.kind.kills? = some l
        · exact .inr (exec_ended hassign (.inr hkill))
        · exact .inl fun hnext => hdead ((mem_liveAt_stmt hlive hs).mpr (.inr ⟨hnext, hkill⟩))
      · exact .inr (exec_ended hassign (.inl hended))
    · obtain ⟨r, hr, hp, hrl⟩ := mem_movedLocals.mp hmoved
      rcases (reads_optimized stmt).1 r hr with hsame | ⟨l', _, hafter, hdead, _⟩
      · simp [Read.promoted, hsame] at hp
      · rw [hafter] at hrl
        obtain rfl := Option.some.inj hrl
        exact .inl hdead
  · exact (List.getElem?_eq_some_iff.mp hs).1
  · intro idx stmt' src j hidx hstmt' hmoved hj hle
    obtain ⟨_, _, hbetween⟩ := drop_found hj
    refine exec_nulled.mpr ⟨?_, ?_⟩
    · rcases Nat.lt_succ_iff_lt_or_eq.mp hidx with hlt | rfl
      · exact .inl (h.pending idx stmt' src j hlt hstmt' hmoved hj (Nat.le_of_succ_le hle))
      · obtain rfl := Option.some.inj (hpair.symm.trans hstmt')
        exact .inr hmoved
    · intro rval hassign
      rcases Nat.lt_succ_iff_lt_or_eq.mp hidx with hlt | rfl
      · refine hbetween p.idx _ hlt hle hpair (.inr ?_)
        simp only [optimized] at hassign ⊢
        rw [hassign]
        exact optimizeStatement_assign src rval
      · obtain rfl := Option.some.inj (hpair.symm.trans hstmt')
        have hnone := hlast.other _ src rval hpair hassign hmoved
        rw [hj] at hnone
        cases hnone

/-- At the end of a block, what is nulled stays dead or ended. -/
theorem Elided.term (hlive : computeLiveness f fuel = some liveAfter) (h : Elided f liveAfter p m)
    (hs : (f.stmtsAt p.bb)[p.idx]? = none) {succ : BasicBlockId} (hsucc : succ ∈ f.successors p.bb)
    (s : OwnState) : Elided f liveAfter ⟨succ, 0, s⟩ m := by
  have hidx : p.idx = (f.stmtsAt p.bb).length :=
    Nat.le_antisymm h.bound (List.getElem?_eq_none_iff.mp hs)
  refine ⟨?_, Nat.zero_le _, fun idx _ _ _ hlt => absurd hlt (Nat.not_lt_zero idx)⟩
  intro l hl
  rcases h.dead l hl with hdead | hended
  · rw [hidx] at hdead
    exact .inl fun hnext => hdead
      ((mem_liveAt_term hlive (MirFunction.lt_of_successors hsucc)).mpr (.inr ⟨succ, hsucc, hnext⟩))
  · exact .inr hended

end Invariant

end Olive
