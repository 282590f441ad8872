import Mathlib.Algebra.Group.Action.Defs
import Olive.BorrowCheckerSound
import Olive.WorklistEnds

/-! When the borrow checker's loop stops. -/

namespace Olive

namespace BorrowChecker

open Worklist

/-- The number of references to `x`. -/
def refs (prov : Provenance) (x : Local) : Nat := (prov.filter fun p => p.2 = x).length

/-- The locals that can come to hold a reference. -/
def assignedLocals (f : MirFunction) : Finset Local := (f.statements.filterMap Statement.dst?).toFinset

def settableFields (f : MirFunction) : Finset String :=
  (f.statements.filterMap fun stmt => setsField f stmt.kind).toFinset

section Conditions

variable (f : MirFunction) (structFields : FxHashMap String (List String))
  (liveAfter : List (List (Finset Local)))

/-- The loop comes to the statement, with this provenance and state before it. -/
inductive ComesTo (stmt : Statement) : Provenance → FlowState → Prop
  | visit {t : LoopState FlowState Context} {b n : Nat} {a : FlowState} :
    Reached (flow f structFields liveAfter) (fun _ _ _ => True) (startLoop f) t →
    t.next = some (b, a) → (f.stmtsAt b)[n]? = some stmt →
    ComesTo stmt (checkStmts f liveAfter b n (t.ctx, a)).1.provenance
      (checkStmts f liveAfter b n (t.ctx, a)).2

/-- The loop stops, and the borrows counted for a local are bounded by the references there are: by those
to it when it is borrowed, and always by the locals that can hold one. -/
structure StopsBounded : Prop where
  stops : ∃ fuel last, run (flow f structFields liveAfter) fuel (startLoop f) = some last
  bounded : ∀ t, Reached (flow f structFields liveAfter) (fun _ _ _ => True) (startLoop f) t →
    ∀ b a, t.entry b = some a → ∀ x, (a.borrow x).1 ≤ (assignedLocals f).card
  counted : ∀ dst x span prov s, ComesTo f structFields liveAfter ⟨.assign dst (.ref x), span⟩ prov s →
    ((transferStmt f ⟨.assign dst (.ref x), span⟩ prov s).2.1.borrow x).1 ≤
      refs (transferStmt f ⟨.assign dst (.ref x), span⟩ prov s).1 x

/-- No reference is assigned over while its own borrow is still counted: what is counted for `x` before
`dst = &x` is covered by the other references to it. -/
def FreshBorrows : Prop :=
  ∀ dst x span prov s, ComesTo f structFields liveAfter ⟨.assign dst (.ref x), span⟩ prov s →
    (s.borrow x).1 ≤ refs (prov.remove dst) x

end Conditions

section References

variable {f : MirFunction} {prov : Provenance} {dst x : Local}

/-- Each local that can hold a reference holds one at most. -/
def Tracked (f : MirFunction) (prov : Provenance) : Prop :=
  (prov.map Prod.fst).Nodup ∧ ∀ p ∈ prov, p.1 ∈ assignedLocals f

theorem Tracked.refs_le (h : Tracked f prov) (x : Local) : refs prov x ≤ (assignedLocals f).card := by
  have hnodup : ((prov.filter fun p => p.2 = x).map Prod.fst).Nodup :=
    h.1.sublist (List.filter_sublist.map _)
  have hsub : ((prov.filter fun p => p.2 = x).map Prod.fst).toFinset ⊆ assignedLocals f := by
    intro l hl
    obtain ⟨p, hp, rfl⟩ := List.mem_map.mp (List.mem_toFinset.mp hl)
    exact h.2 p (List.mem_of_mem_filter hp)
  have hcard := Finset.card_le_card hsub
  rwa [List.toFinset_card_of_nodup hnodup, List.length_map] at hcard

theorem Tracked.remove (h : Tracked f prov) (dst : Local) : Tracked f (prov.remove dst) :=
  ⟨h.1.sublist (List.filter_sublist.map _), fun p hp => h.2 p (List.mem_of_mem_filter hp)⟩

theorem Tracked.insert (h : Tracked f prov) (hdst : dst ∈ assignedLocals f) (x : Local) :
    Tracked f (prov.insert dst x) := by
  obtain ⟨hnodup, hmem⟩ := h.remove dst
  refine ⟨List.nodup_cons.mpr ⟨?_, hnodup⟩, ?_⟩
  · intro hin
    obtain ⟨p, hp, heq⟩ := List.mem_map.mp hin
    exact of_decide_eq_true (List.mem_filter.mp hp).2 heq
  · intro p hp
    rcases List.mem_cons.mp hp with rfl | hp
    · exact hdst
    · exact hmem p hp

theorem Tracked.track (h : Tracked f prov) (hdst : dst ∈ assignedLocals f) (rval : Rvalue) :
    Tracked f (track prov dst rval) := by
  unfold BorrowChecker.track
  split
  · exact h.insert hdst _
  · exact h.insert hdst _
  · split
    · exact h.insert hdst _
    · exact h.remove dst

theorem mem_assignedLocals {stmt : Statement} (h : stmt ∈ f.statements)
    (hdst : stmt.dst? = some dst) : dst ∈ assignedLocals f :=
  List.mem_toFinset.mpr (List.mem_filterMap.mpr ⟨stmt, h, hdst⟩)

theorem refs_insert : refs (prov.insert dst x) x = refs (prov.remove dst) x + 1 := by
  have hself : (decide ((dst, x).2 = x)) = true := decide_eq_true rfl
  rw [refs, Provenance.insert, List.filter_cons, if_pos hself]
  rfl

end References

section Calm

variable {f : MirFunction} {s s' s'' : FlowState} {span : Span}

/-- A change of the state that counts no new borrow and sets no field. -/
structure Calm (s s' : FlowState) : Prop where
  locals : s'.locals.length = s.locals.length
  borrows : s'.borrows.length = s.borrows.length
  counted : ∀ x, (s'.borrow x).1 ≤ (s.borrow x).1
  fields : s'.selfFields = s.selfFields

theorem Calm.refl (s : FlowState) : Calm s s :=
  ⟨rfl, rfl, fun _ => Nat.le_refl _, rfl⟩

theorem Calm.trans (h : Calm s s') (h' : Calm s' s'') : Calm s s'' where
  locals := h'.locals.trans h.locals
  borrows := h'.borrows.trans h.borrows
  counted x := (h'.counted x).trans (h.counted x)
  fields := h'.fields.trans h.fields

theorem calm_set {l : Local} {state : LocalState} (h : s.set l state = .ok s') : Calm s s' := by
  obtain ⟨-, hborrow, hlocals, hborrows⟩ := set_ok h
  refine ⟨hlocals, hborrows, fun x => by rw [hborrow x], ?_⟩
  unfold FlowState.set at h
  split at h
  · split at h
    · cases h
    · rw [← Except.ok.inj h]
  · rw [← Except.ok.inj h]

theorem calm_storage (s : FlowState) (l : Local) (state : LocalState) :
    Calm s ((s.set l state).toOption.getD s) := by
  cases h : s.set l state with
  | error msg => exact .refl s
  | ok s' => exact calm_set h

theorem calm_checkOperand (op : Operand) : Calm s (checkOperand f op s span).1 := by
  unfold checkOperand
  split
  · exact .refl s
  · split <;> exact .refl s
  · split
    · exact .refl s
    · exact .refl s
    · split
      · split
        · next h => exact calm_set h
        · exact .refl s
      · exact .refl s

theorem calm_checkOperands (ops : List Operand) : Calm s (checkOperands f span ops s).1 := by
  induction ops generalizing s with
  | nil => exact .refl s
  | cons op ops ih => exact (calm_checkOperand op).trans ih

theorem calm_setBorrow {l : Local} {borrow : Nat × Bool} (h : borrow.1 ≤ (s.borrow l).1) :
    Calm s (s.setBorrow l borrow) where
  locals := rfl
  borrows := List.length_set
  counted x := by
    by_cases hl : l < s.borrows.length
    · rw [borrow_setBorrow hl]
      by_cases hx : x = l
      · rwa [if_pos hx, hx]
      · rw [if_neg hx]
    · rw [FlowState.borrow, FlowState.setBorrow, List.set_eq_of_length_le (Nat.le_of_not_lt hl)]
      exact Nat.le_refl _
  fields := rfl

theorem calm_release (s : FlowState) (l : Local) : Calm s (s.release l) := by
  apply calm_setBorrow
  split
  · exact Nat.sub_le _ _
  · exact Nat.le_refl _

theorem calm_releaseDeadBorrows (prov : Provenance) (s : FlowState) (live : Finset Local) :
    Calm s (releaseDeadBorrows prov s live) := by
  unfold releaseDeadBorrows
  dsimp only
  generalize (prov.filter fun p => p.1 ∉ live ∧
    p.2 ∉ (prov.filter fun p => p.1 ∈ live).map Prod.snd) = dead
  induction dead generalizing s with
  | nil => exact .refl s
  | cons p dead ih => exact (calm_release s p.2).trans (ih (s.release p.2))

theorem calm_checkTerminator {structFields : FxHashMap String (List String)}
    {term : Option Terminator} : Calm s (checkTerminator f structFields term s).1 := by
  unfold checkTerminator
  split
  · exact calm_checkOperand _
  · split <;> exact .refl s
  · exact .refl s

/-- Only a shared borrow counts. -/
theorem calm_checkRvalue {rval : Rvalue} (h : ∀ x, rval ≠ .ref x) :
    Calm s (checkRvalue f rval s span).1 := by
  unfold checkRvalue
  split
  · exact (calm_checkOperand _).trans (calm_checkOperands _)
  · next x => exact absurd rfl (h x)
  · exact calm_setBorrow (Nat.le_refl _)
  · exact calm_checkOperands _

end Calm

section Transfer

variable {f : MirFunction} {s : FlowState} {stmt : Statement} {prov : Provenance}

/-- The states of a run in which at most `most` borrows of any local are counted. -/
structure Within (f : MirFunction) (most : Nat) (s : FlowState) : Prop where
  locals : s.locals.length = f.locals.length
  borrows : s.borrows.length = f.locals.length
  counted : ∀ x, (s.borrow x).1 ≤ most
  fields : s.selfFields ⊆ settableFields f

theorem Within.calm {most : Nat} {s' : FlowState} (h : Within f most s) (hc : Calm s s') :
    Within f most s' where
  locals := hc.locals.trans h.locals
  borrows := hc.borrows.trans h.borrows
  counted x := (hc.counted x).trans (h.counted x)
  fields := hc.fields ▸ h.fields

/-- A shared borrow counts for its local, and assigns the reference. -/
theorem transferStmt_ref {dst x : Local} {span : Span} :
    (transferStmt f ⟨.assign dst (.ref x), span⟩ prov s).1 = prov.insert dst x ∧
      Calm (s.setBorrow x ((s.borrow x).1 + 1, (s.borrow x).2))
        (transferStmt f ⟨.assign dst (.ref x), span⟩ prov s).2.1 := by
  simp only [transferStmt, checkRvalue, track]
  split
  · next h => exact ⟨rfl, calm_set h⟩
  · exact ⟨rfl, .refl _⟩

theorem transferStmt_counted {dst x : Local} {span : Span} (hx : x < s.borrows.length) :
    ((transferStmt f ⟨.assign dst (.ref x), span⟩ prov s).2.1.borrow x).1 = (s.borrow x).1 + 1 := by
  have hself : (s.setBorrow x ((s.borrow x).1 + 1, (s.borrow x).2)).borrow x =
      ((s.borrow x).1 + 1, (s.borrow x).2) := by
    rw [borrow_setBorrow hx, if_pos rfl]
  simp only [transferStmt, checkRvalue]
  split
  · next h => rw [(set_ok h).2.1 x, hself]
  · rw [hself]

theorem calm_transferStmt (href : ∀ dst x, stmt.kind ≠ .assign dst (.ref x))
    (hattr : ∀ obj field val, stmt.kind ≠ .setAttr obj field val) :
    Calm s (transferStmt f stmt prov s).2.1 := by
  unfold transferStmt
  split
  · next dst rval hk =>
    have hcalm : Calm s (checkRvalue f rval s stmt.span).1 :=
      calm_checkRvalue fun x h => href dst x (h ▸ hk)
    dsimp only
    split
    · next h => exact hcalm.trans (calm_set h)
    · exact hcalm
  · next obj field val hk => exact absurd hk (hattr obj field val)
  · exact calm_checkOperands _
  · exact calm_checkOperands _
  · exact calm_checkOperands _
  · exact calm_storage s _ _
  · exact calm_storage s _ _
  · split
    · split
      · next h => exact calm_set h
      · exact .refl s
    · exact .refl s
  · exact .refl s

theorem transferStmt_within {most : Nat} (hs : Within f most s) (hmem : stmt ∈ f.statements)
    (hroom : ∀ dst x, stmt.kind = .assign dst (.ref x) → (s.borrow x).1 + 1 ≤ most) :
    Within f most (transferStmt f stmt prov s).2.1 := by
  by_cases href : ∃ dst x, stmt.kind = .assign dst (.ref x)
  · obtain ⟨dst, x, hk⟩ := href
    have hcount := hroom dst x hk
    obtain ⟨kind, span⟩ := stmt
    obtain rfl : kind = .assign dst (.ref x) := hk
    have hmore : Within f most (s.setBorrow x ((s.borrow x).1 + 1, (s.borrow x).2)) := by
      refine ⟨hs.locals, List.length_set.trans hs.borrows, ?_, hs.fields⟩
      intro l
      by_cases hx : x < s.borrows.length
      · rw [borrow_setBorrow hx]
        split
        · exact hcount
        · exact hs.counted l
      · rw [FlowState.borrow, FlowState.setBorrow, List.set_eq_of_length_le (Nat.le_of_not_lt hx)]
        exact hs.counted l
    exact hmore.calm transferStmt_ref.2
  · by_cases hattr : ∃ obj field val, stmt.kind = .setAttr obj field val
    · obtain ⟨obj, field, val, hk⟩ := hattr
      have hchecked : Within f most (checkOperands f stmt.span [obj, val] s).1 :=
        hs.calm (calm_checkOperands [obj, val])
      have hstate : (transferStmt f stmt prov s).2.1 =
          ⟨(checkOperands f stmt.span [obj, val] s).1.locals,
            (checkOperands f stmt.span [obj, val] s).1.borrows,
            (checkOperands f stmt.span [obj, val] s).1.selfFields ∪
              (setsField f stmt.kind).toList.toFinset⟩ := by
        simp only [transferStmt, hk]
      rw [hstate]
      refine ⟨hchecked.locals, hchecked.borrows, hchecked.counted, ?_⟩
      apply Finset.union_subset hchecked.fields
      intro name hname
      rw [List.mem_toFinset, Option.mem_toList] at hname
      exact List.mem_toFinset.mpr (List.mem_filterMap.mpr ⟨stmt, hmem, hname⟩)
    · exact hs.calm (calm_transferStmt (fun dst x h => href ⟨dst, x, h⟩)
        fun obj field val h => hattr ⟨obj, field, val, h⟩)

theorem transferStmt_tracked (h : Tracked f prov) (hmem : stmt ∈ f.statements) :
    Tracked f (transferStmt f stmt prov s).1 := by
  unfold transferStmt
  split
  · next dst rval hk =>
    have hdst : dst ∈ assignedLocals f :=
      mem_assignedLocals hmem (Statement.dst?_eq_some.mpr ⟨rval, hk⟩)
    dsimp only
    split <;> exact h.track hdst rval
  · exact h
  · exact h
  · exact h
  · exact h
  · exact h
  · exact h
  · split
    · split <;> exact h
    · exact h
  · exact h

end Transfer

section Rest

variable {f : MirFunction} {most : Nat}

def LocalState.rest : LocalState → Nat
  | .dead => 2
  | .initialized => 1
  | .moved => 0

theorem mergeStates_rest (a b : LocalState) :
    (mergeStates a b).rest ≤ a.rest ∧ ((mergeStates a b).rest = a.rest → mergeStates a b = a) := by
  cases a <;> cases b <;> decide

/-- How much the state and the borrows of one local can still rise. -/
def localRest (most : Nat) (state : LocalState) (borrow : Nat × Bool) : Nat :=
  state.rest + (most - borrow.1) + if borrow.2 then 0 else 1

theorem localRest_le (state : LocalState) (borrow : Nat × Bool) :
    localRest most state borrow ≤ most + 3 := by
  have hstate : state.rest ≤ 2 := by cases state <;> decide
  unfold localRest
  split <;> omega

theorem localRest_join {a b : LocalState} {c d : Nat × Bool} (hc : c.1 ≤ most) (hd : d.1 ≤ most) :
    localRest most (mergeStates a b) (max c.1 d.1, c.2 || d.2) ≤ localRest most a c ∧
      (localRest most (mergeStates a b) (max c.1 d.1, c.2 || d.2) = localRest most a c →
        mergeStates a b = a ∧ (max c.1 d.1, c.2 || d.2) = c) := by
  obtain ⟨hle, hsame⟩ := mergeStates_rest a b
  obtain ⟨c1, c2⟩ := c
  obtain ⟨d1, d2⟩ := d
  dsimp only at hc hd
  have hmax : c1 ≤ max c1 d1 := Nat.le_max_left c1 d1
  have hmost : max c1 d1 ≤ most := Nat.max_le.mpr ⟨hc, hd⟩
  simp only [localRest]
  cases c2 with
  | true =>
    simp only [Bool.true_or, if_true]
    refine ⟨by omega, fun h => ⟨hsame (by omega), ?_⟩⟩
    exact Prod.ext (by dsimp only; omega) rfl
  | false =>
    cases d2 with
    | true =>
      simp only [Bool.or_true, if_true, Bool.false_eq_true, if_false]
      refine ⟨by omega, fun h => ?_⟩
      omega
    | false =>
      simp only [Bool.or_false, Bool.false_eq_true, if_false]
      refine ⟨by omega, fun h => ⟨hsame (by omega), ?_⟩⟩
      exact Prod.ext (by dsimp only; omega) rfl

/-- How much a state can still rise: fields only leave it. -/
def stateRest (f : MirFunction) (most : Nat) (s : FlowState) : Nat :=
  ∑ l ∈ Finset.range f.locals.length, localRest most (s.get l) (s.borrow l) + s.selfFields.card

theorem list_eq_of_getD {α : Type} {xs ys : List α} {d : α} (hlen : xs.length = ys.length)
    (h : ∀ l < xs.length, xs.getD l d = ys.getD l d) : xs = ys := by
  apply List.ext_getElem hlen
  intro l hx hy
  have hl := h l hx
  rwa [List.getD_eq_getElem?_getD, List.getD_eq_getElem?_getD, List.getElem?_eq_getElem hx,
    List.getElem?_eq_getElem hy] at hl

theorem rises (f : MirFunction) (structFields : FxHashMap String (List String))
    (liveAfter : List (List (Finset Local))) (most : Nat) :
    Rises (flow f structFields liveAfter) (Within f most) (stateRest f most)
      (f.locals.length * (most + 3) + (settableFields f).card) where
  good s t hs ht := by
    refine ⟨?_, ?_, ?_, ?_⟩
    · simp [flow, FlowState.join, hs.locals, ht.locals]
    · simp [flow, FlowState.join, hs.borrows, ht.borrows]
    · intro x
      change ((s.join t).1.borrow x).1 ≤ most
      rw [join_borrow]
      exact Nat.max_le.mpr ⟨hs.counted x, ht.counted x⟩
    · exact fun name hname => hs.fields (Finset.mem_inter.mp hname).1
  bound s hs := by
    have hsum := Finset.sum_le_card_nsmul (Finset.range f.locals.length)
      (fun l => localRest most (s.get l) (s.borrow l)) (most + 3) fun l _ => localRest_le _ _
    rw [Finset.card_range, smul_eq_mul] at hsum
    exact Nat.add_le_add hsum (Finset.card_le_card hs.fields)
  falls s t hs ht hchanged := by
    have hne : (s.join t).1 ≠ s := of_decide_eq_true hchanged
    have hlocal : ∀ l, localRest most ((s.join t).1.get l) ((s.join t).1.borrow l) ≤
        localRest most (s.get l) (s.borrow l) ∧
        (localRest most ((s.join t).1.get l) ((s.join t).1.borrow l) =
          localRest most (s.get l) (s.borrow l) →
          (s.join t).1.get l = s.get l ∧ (s.join t).1.borrow l = s.borrow l) := by
      intro l
      rw [join_get, join_borrow]
      exact localRest_join (hs.counted l) (ht.counted l)
    have hsum : ∑ l ∈ Finset.range f.locals.length,
        localRest most ((s.join t).1.get l) ((s.join t).1.borrow l) ≤
        ∑ l ∈ Finset.range f.locals.length, localRest most (s.get l) (s.borrow l) :=
      Finset.sum_le_sum fun l _ => (hlocal l).1
    have hinter : (s.join t).1.selfFields ⊆ s.selfFields := Finset.inter_subset_left
    have hcard := Finset.card_le_card hinter
    change stateRest f most (s.join t).1 < stateRest f most s
    unfold stateRest
    -- otherwise every part is what it was
    by_contra hge
    have hsumeq : ∑ l ∈ Finset.range f.locals.length,
        localRest most ((s.join t).1.get l) ((s.join t).1.borrow l) =
        ∑ l ∈ Finset.range f.locals.length, localRest most (s.get l) (s.borrow l) := by omega
    have heach := (Finset.sum_eq_sum_iff_of_le fun l _ => (hlocal l).1).mp hsumeq
    have hfields : (s.join t).1.selfFields = s.selfFields :=
      Finset.eq_of_subset_of_card_le hinter (by omega)
    have hlocals : (s.join t).1.locals.length = s.locals.length := by
      simp [FlowState.join, hs.locals, ht.locals]
    have hborrows : (s.join t).1.borrows.length = s.borrows.length := by
      simp [FlowState.join, hs.borrows, ht.borrows]
    have hget : (s.join t).1.locals = s.locals := list_eq_of_getD (d := .dead) hlocals fun l hl =>
      ((hlocal l).2 (heach l (Finset.mem_range.mpr (by rwa [hlocals, hs.locals] at hl)))).1
    have hborrow : (s.join t).1.borrows = s.borrows := list_eq_of_getD (d := (0, false)) hborrows
      fun l hl =>
        ((hlocal l).2 (heach l (Finset.mem_range.mpr (by rwa [hborrows, hs.borrows] at hl)))).2
    apply hne
    calc (s.join t).1 = ⟨(s.join t).1.locals, (s.join t).1.borrows, (s.join t).1.selfFields⟩ := rfl
      _ = ⟨s.locals, s.borrows, s.selfFields⟩ := by rw [hget, hborrow, hfields]
  same s t h := not_not.mp (of_decide_eq_false h)

end Rest

section Visits

variable {f : MirFunction} {structFields : FxHashMap String (List String)}
  {liveAfter : List (List (Finset Local))} {b : BasicBlockId} {c : Context × FlowState}

theorem checkStmts_tracked (h : Tracked f c.1.provenance) (n : Nat)
    (hn : n ≤ (f.stmtsAt b).length) : Tracked f (checkStmts f liveAfter b n c).1.provenance := by
  induction n with
  | zero => exact h
  | succ n ih =>
    have hs := List.getElem?_eq_getElem (Nat.lt_of_succ_le hn)
    rw [checkStmts_succ hs]
    exact transferStmt_tracked (ih (Nat.le_of_succ_le hn))
      (mem_statements (List.mem_of_getElem? hs))

theorem checkStmts_within {most : Nat} (hc : Within f most c.2)
    (hroom : ∀ n dst x span, (f.stmtsAt b)[n]? = some ⟨.assign dst (.ref x), span⟩ →
      ((checkStmts f liveAfter b n c).2.borrow x).1 + 1 ≤ most) (n : Nat)
    (hn : n ≤ (f.stmtsAt b).length) : Within f most (checkStmts f liveAfter b n c).2 := by
  induction n with
  | zero => exact hc
  | succ n ih =>
    have hs := List.getElem?_eq_getElem (Nat.lt_of_succ_le hn)
    rw [checkStmts_succ hs]
    refine Within.calm ?_ (calm_releaseDeadBorrows _ _ _)
    refine transferStmt_within (ih (Nat.le_of_succ_le hn))
      (mem_statements (List.mem_of_getElem? hs)) ?_
    intro dst x hk
    exact hroom n dst x _ (hs.trans (congrArg (fun kind => some (Statement.mk kind _)) hk))

theorem visit_tracked (ctx : Context) (b : Nat) (a : FlowState) (h : Tracked f ctx.provenance) :
    Tracked f ((flow f structFields liveAfter).visit ctx b a).1.provenance :=
  checkStmts_tracked (c := (ctx, a)) h _ (Nat.le_refl _)

theorem reached_tracked {t : LoopState FlowState Context}
    (h : Reached (flow f structFields liveAfter) (fun _ _ _ => True) (startLoop f) t) :
    Tracked f t.ctx.provenance :=
  h.ctx_invariant (P := fun ctx : Context => Tracked f ctx.provenance) visit_tracked
    ⟨List.nodup_nil, fun _ hp => absurd hp List.not_mem_nil⟩

theorem ComesTo.tracked {stmt : Statement} {prov : Provenance} {s : FlowState}
    (h : ComesTo f structFields liveAfter stmt prov s) :
    Tracked f prov ∧ stmt ∈ f.statements := by
  obtain ⟨ht, -, hs⟩ := h
  exact ⟨checkStmts_tracked (reached_tracked ht) _
    (Nat.le_of_lt (List.getElem?_eq_some_iff.mp hs).1), mem_statements (List.mem_of_getElem? hs)⟩

/-- A fresh borrow leaves room: the reference that it assigns is one more. -/
theorem FreshBorrows.room (h : FreshBorrows f structFields liveAfter) {dst x : Local} {span : Span}
    {prov : Provenance} {s : FlowState}
    (hcomes : ComesTo f structFields liveAfter ⟨.assign dst (.ref x), span⟩ prov s) :
    (s.borrow x).1 + 1 ≤ (assignedLocals f).card := by
  have hfresh := h dst x span prov s hcomes
  obtain ⟨htracked, hmem⟩ := hcomes.tracked
  have hdst : dst ∈ assignedLocals f := mem_assignedLocals hmem rfl
  have hrefs := (htracked.insert hdst x).refs_le x
  rw [refs_insert] at hrefs
  omega

theorem init_within : Within f (assignedLocals f).card (FlowState.init f) where
  locals := by simp [FlowState.init]
  borrows := by simp [FlowState.init]
  counted x := by
    have hzero : (FlowState.init f).borrow x = (0, false) := by
      rw [FlowState.borrow, FlowState.init, List.getD_eq_getElem?_getD, List.getElem?_replicate]
      split <;> rfl
    rw [hzero]
    exact Nat.zero_le _
  fields := Finset.empty_subset _

def flowNodes (f : MirFunction) : Finset Nat :=
  ((List.range f.basicBlocks.length).flatMap f.successors).toFinset

theorem mem_flowNodes {b c : BasicBlockId} (h : c ∈ f.successors b) : c ∈ flowNodes f :=
  List.mem_toFinset.mpr (List.mem_flatMap.mpr
    ⟨b, List.mem_range.mpr (MirFunction.lt_of_successors h), h⟩)

theorem FreshBorrows.runs (h : FreshBorrows f structFields liveAfter) :
    (∃ fuel last, run (flow f structFields liveAfter) fuel (startLoop f) = some last) ∧
      ∀ t, Reached (flow f structFields liveAfter) (fun _ _ _ => True) (startLoop f) t →
        AllGood (Within f (assignedLocals f).card) t := by
  have hsuccs : ∀ b, ∀ c ∈ (flow f structFields liveAfter).succs b, c ∈ flowNodes f :=
    fun _ _ => mem_flowNodes
  refine (rises f structFields liveAfter _).run_ends hsuccs ?_ ?_
  · intro b a ha
    rw [← (single_entry ha).2]
    exact init_within
  · intro t ht hgood b a hnext
    have ha : Within f (assignedLocals f).card (t.ctx, a).2 := hgood b a (next_entry hnext)
    have hstmts : Within f (assignedLocals f).card
        (checkStmts f liveAfter b (f.stmtsAt b).length (t.ctx, a)).2 :=
      checkStmts_within ha (fun n dst x span hs => h.room (.visit ht hnext hs)) _ (Nat.le_refl _)
    exact (hstmts.calm calm_checkTerminator).calm (calm_releaseDeadBorrows _ _ _)

end Visits

section Diverges

variable {f : MirFunction} {s : FlowState} {prov : Provenance} {x : Local}

/-- Every reference is to `x`. -/
def AllTo (x : Local) (prov : Provenance) : Prop := ∀ p ∈ prov, p.2 = x

theorem AllTo.remove (h : AllTo x prov) (dst : Local) : AllTo x (prov.remove dst) :=
  fun p hp => h p (List.mem_of_mem_filter hp)

theorem AllTo.insert (h : AllTo x prov) (dst : Local) : AllTo x (prov.insert dst x) := by
  intro p hp
  rcases List.mem_cons.mp hp with rfl | hp
  · rfl
  · exact h.remove dst p hp

/-- Nothing ends while a reference is live, where all are to one local. -/
theorem AllTo.release_live (h : AllTo x prov) {dst : Local} (hmem : (dst, x) ∈ prov)
    {live : Finset Local} (hlive : dst ∈ live) : releaseDeadBorrows prov s live = s := by
  have hnone : (prov.filter fun p => p.1 ∉ live ∧
      p.2 ∉ (prov.filter fun p => p.1 ∈ live).map Prod.snd) = [] := by
    rw [List.filter_eq_nil_iff]
    intro p hp hdead
    refine (of_decide_eq_true hdead).2 ?_
    rw [h p hp]
    exact List.mem_map.mpr ⟨(dst, x), List.mem_filter.mpr ⟨hmem, decide_eq_true hlive⟩, rfl⟩
  unfold releaseDeadBorrows
  dsimp only
  rw [hnone]
  rfl

theorem checkOperand_copy (l : Local) (span : Span) : (checkOperand f (.copy l) s span).1 = s := by
  simp only [checkOperand]
  split <;> rfl

/-- `while x == 1 { r = &x }`, and `print(r)` after it. -/
def reborrows : MirFunction :=
  plainFunction "reborrows" 1 [.null, .int, .ref .int]
    [⟨[plainStmt (.assign 2 (.ref 1))], plainTerm (.switchInt (.copy 1) [(1, 0)] 1)⟩,
      ⟨[plainStmt (.assign 0 (.call (.const (.function "print")) [.copy 2]))], plainTerm .ret⟩]

def reborrowsLive : List (List (Finset Local)) := [[{1}, {1, 2}], [{2}, ∅]]

theorem computeLiveness_reborrows : computeLiveness reborrows 4 = some reborrowsLive := by
  decide +kernel

variable (structFields : FxHashMap String (List String))

theorem reborrows_first (ctx : Context) (hp : AllTo 1 ctx.provenance) (ha : s.borrows.length = 3) :
    ((checkBlock reborrows structFields reborrowsLive ctx 0 s).2.borrow 1).1 = (s.borrow 1).1 + 1 ∧
      (checkBlock reborrows structFields reborrowsLive ctx 0 s).2.borrows.length = 3 ∧
      AllTo 1 (checkBlock reborrows structFields reborrowsLive ctx 0 s).1.provenance := by
  obtain ⟨r, hr⟩ : ∃ r, r = transferStmt reborrows (plainStmt (.assign 2 (.ref 1))) ctx.provenance s :=
    ⟨_, rfl⟩
  have hprov : r.1 = ctx.provenance.insert 2 1 := hr ▸ transferStmt_ref.1
  have hcalm : Calm (s.setBorrow 1 ((s.borrow 1).1 + 1, (s.borrow 1).2)) r.2.1 :=
    hr ▸ transferStmt_ref.2
  have hdeclared : 1 < s.borrows.length := by omega
  have hcount : (r.2.1.borrow 1).1 = (s.borrow 1).1 + 1 := hr ▸ transferStmt_counted hdeclared
  have hall : AllTo 1 r.1 := hprov ▸ hp.insert 2
  have hmem : ((2, 1) : Local × Local) ∈ r.1 := hprov ▸ List.mem_cons_self
  have hstmts : checkStmts reborrows reborrowsLive 0 1 (ctx, s) =
      (⟨r.1, ctx.errors ++ r.2.2⟩, r.2.1) := by
    have hsucc : checkStmts reborrows reborrowsLive 0 1 (ctx, s) =
        checkStmt reborrows reborrowsLive 0 (checkStmts reborrows reborrowsLive 0 0 (ctx, s))
          (plainStmt (.assign 2 (.ref 1)), 0) := checkStmts_succ rfl
    have hrelease : releaseDeadBorrows r.1 r.2.1 (liveAt reborrowsLive 0 1) = r.2.1 :=
      hall.release_live hmem (show 2 ∈ liveAt reborrowsLive 0 1 by decide)
    rw [hsucc]
    simp only [checkStmt, checkStmts, List.take_zero, List.zipIdx_nil, List.foldl_nil, ← hr,
      Nat.zero_add, hrelease]
  have hblock : checkBlock reborrows structFields reborrowsLive ctx 0 s =
      (⟨r.1, ctx.errors ++ r.2.2 ++
        (checkTerminator reborrows structFields (reborrows.terminatorAt 0) r.2.1).2⟩, r.2.1) := by
    have hterm : (checkTerminator reborrows structFields (reborrows.terminatorAt 0) r.2.1).1 =
        r.2.1 := checkOperand_copy 1 _
    have hrelease : releaseDeadBorrows r.1 r.2.1 (liveAt reborrowsLive 0 1) = r.2.1 :=
      hall.release_live hmem (show 2 ∈ liveAt reborrowsLive 0 1 by decide)
    unfold checkBlock
    change (_, releaseDeadBorrows _ _ (liveAt reborrowsLive 0 1)) = _
    rw [show (reborrows.stmtsAt 0).length = 1 from rfl, hstmts, hterm, hrelease]
  rw [hblock]
  refine ⟨hcount, ?_, hall⟩
  rw [hcalm.borrows]
  exact List.length_set.trans ha

theorem reborrows_others {b : Nat} (hb : b ≠ 0) (ctx : Context) (hp : AllTo 1 ctx.provenance)
    (s : FlowState) :
    reborrows.successors b = [] ∧
      AllTo 1 (checkBlock reborrows structFields reborrowsLive ctx b s).1.provenance := by
  match b, hb with
  | 1, _ =>
    refine ⟨rfl, ?_⟩
    have hsucc : checkStmts reborrows reborrowsLive 1 1 (ctx, s) =
        checkStmt reborrows reborrowsLive 1 (checkStmts reborrows reborrowsLive 1 0 (ctx, s))
          (plainStmt (.assign 0 (.call (.const (.function "print")) [.copy 2])), 0) :=
      checkStmts_succ rfl
    have hprov : (transferStmt reborrows
        (plainStmt (.assign 0 (.call (.const (.function "print")) [.copy 2]))) ctx.provenance s).1 =
        ctx.provenance.remove 0 := by
      simp only [transferStmt, plainStmt]
      split <;> rfl
    change AllTo 1 (checkStmts reborrows reborrowsLive 1 1 (ctx, s)).1.provenance
    rw [hsucc]
    change AllTo 1 (transferStmt reborrows
        (plainStmt (.assign 0 (.call (.const (.function "print")) [.copy 2]))) ctx.provenance s).1
    rw [hprov]
    exact hp.remove 0
  | b + 2, _ => exact ⟨rfl, hp⟩

/-- Block 0 is queued again and again, each time with one borrow more. -/
structure Spinning (t : LoopState FlowState Context) : Prop where
  listed : ∀ b, t.inWorklist b = true → b ∈ t.worklist
  queued : 0 ∈ t.worklist
  entry : ∃ a, t.entry 0 = some a ∧ a.borrows.length = 3
  references : AllTo 1 t.ctx.provenance

theorem spinning_start : Spinning (startLoop reborrows) where
  listed b hb := by
    change Function.update (fun _ => false) 0 true b = true at hb
    by_cases h : b = 0
    · rw [h]
      exact List.mem_singleton_self 0
    · rw [Function.update_of_ne h] at hb
      exact absurd hb Bool.false_ne_true
  queued := List.mem_singleton_self 0
  entry := ⟨FlowState.init reborrows, rfl, rfl⟩
  references := fun _ hp => absurd hp List.not_mem_nil

theorem Spinning.goes_on {t : LoopState FlowState Context} (h : Spinning t) :
    ∃ t', step (flow reborrows structFields reborrowsLive) t = some t' ∧ Spinning t' := by
  have hjoins := flow_joins reborrows structFields reborrowsLive
  cases hstep : step (flow reborrows structFields reborrowsLive) t with
  | none =>
    have hqueued := h.queued
    rw [worklist_of_step_none hstep] at hqueued
    exact absurd hqueued List.not_mem_nil
  | some t' =>
    refine ⟨t', rfl, ?_⟩
    obtain ⟨b, mid, hkept, hentry, hlisted, hcase⟩ := step_cases h.listed hstep
    obtain ⟨a, ha, hlen⟩ := h.entry
    have hreferences : AllTo 1 t'.ctx.provenance := by
      rcases step_ctx hstep with ⟨c, s, hnext, hctx⟩ | ⟨-, hctx⟩
      · rw [hctx]
        by_cases hc : c = 0
        · subst hc
          obtain rfl := Option.some.inj (ha.symm.trans (next_entry hnext))
          exact (reborrows_first structFields t.ctx h.references hlen).2.2
        · exact (reborrows_others structFields hc t.ctx h.references s).2
      · rw [hctx]
        exact h.references
    by_cases hb : b = 0
    · subst hb
      rcases hcase with ⟨hnone, -⟩ | ⟨s, -, hs, rfl⟩
      · rw [ha] at hnone
        exact absurd hnone (fun h => nomatch h)
      · obtain rfl := Option.some.inj (ha.symm.trans hs)
        obtain ⟨hcount, houtlen, -⟩ := reborrows_first structFields t.ctx h.references hlen
        obtain ⟨out, hout⟩ : ∃ out, out = (checkBlock reborrows structFields reborrowsLive t.ctx 0 a).2 :=
          ⟨_, rfl⟩
        rw [← hout] at hcount houtlen
        have hjoined : (push (flow reborrows structFields reborrowsLive) out mid 0).entry 0 =
            some (a.join out).1 := by
          rw [push_entry_self, hentry, ha]
          rfl
        have hmore : (a.join out).1 ≠ a := by
          intro heq
          have hborrow := join_borrow a out 1
          rw [heq] at hborrow
          have hfirst := congrArg Prod.fst hborrow
          dsimp only at hfirst
          omega
        have hfirst := push_grown hjoins out mid 0 hlisted
        have hqueued : 0 ∈ (push (flow reborrows structFields reborrowsLive) out mid 0).worklist := by
          refine (push_queued hjoins out mid 0 hlisted hjoined).resolve_left ?_
          rw [hentry, ha]
          exact fun heq => hmore (Option.some.inj heq).symm
        have hsuccs : (flow reborrows structFields reborrowsLive).succs 0 = [0, 1] := rfl
        have hend : ((flow reborrows structFields reborrowsLive).succs 0).foldl
            (push (flow reborrows structFields reborrowsLive)
              ((flow reborrows structFields reborrowsLive).visit t.ctx 0 a).2) mid =
            push (flow reborrows structFields reborrowsLive) out
              (push (flow reborrows structFields reborrowsLive) out mid 0) 1 := by
          rw [hsuccs, hout]
          rfl
        rw [hend] at hreferences ⊢
        refine ⟨push_listed out _ 1 hfirst.listed, push_kept out _ 1 0 hqueued, ?_, hreferences⟩
        refine ⟨(a.join out).1, (push_entry_of_ne out _ (by decide)).trans hjoined, ?_⟩
        simp [FlowState.join, hlen, houtlen]
    · have hqueued : 0 ∈ mid.worklist := hkept 0 h.queued (Ne.symm hb)
      have hsame : t' = mid := by
        rcases hcase with ⟨-, hsame⟩ | ⟨s, -, -, hsame⟩
        · exact hsame
        · have hsuccs : (flow reborrows structFields reborrowsLive).succs b = [] :=
            (reborrows_others structFields hb t.ctx h.references s).1
          rw [hsame, hsuccs]
          rfl
      subst hsame
      exact ⟨hlisted, hqueued, ⟨a, by rw [hentry, ha], hlen⟩, hreferences⟩

theorem reborrows_diverges (fuel : Nat) : check reborrows structFields fuel = none := by
  unfold check
  cases hlive : computeLiveness reborrows fuel with
  | none => rfl
  | some liveAfter =>
    obtain rfl := UntilStable.untilStable_unique hlive computeLiveness_reborrows
    have hrun := run_diverges (fun t h => Spinning.goes_on structFields h) spinning_start fuel
    change ((run (flow reborrows structFields reborrowsLive) fuel (startLoop reborrows)).map _) = none
    rw [hrun]
    rfl

end Diverges

end BorrowChecker

end Olive
