import Olive.BorrowPaths

/-! A function that the borrow checker accepts is borrow safe. -/

namespace Olive

namespace BorrowChecker

open Worklist

section States

variable {f : MirFunction} {fate : Local → Fate} {s s' t : FlowState}

/-- The states of the locals are right. -/
structure FateAgrees (f : MirFunction) (fate : Local → Fate) (s : FlowState) : Prop where
  locals : f.locals.length ≤ s.locals.length
  borrows : f.locals.length ≤ s.borrows.length
  valued : ∀ l : Nat, l < f.locals.length → fate l = .valued → s.get l ≠ .dead
  gone : ∀ l : Nat, fate l = .gone → s.get l = .moved

/-- The borrows counted are still counted. -/
structure Grows (s s' : FlowState) : Prop where
  shared : ∀ l, (s.borrow l).1 ≤ (s'.borrow l).1
  mutable : ∀ l, (s.borrow l).2 = true → (s'.borrow l).2 = true

theorem Grows.refl (s : FlowState) : Grows s s := ⟨fun _ => Nat.le_refl _, fun _ h => h⟩

theorem Grows.trans (h : Grows s s') (h' : Grows s' t) : Grows s t :=
  ⟨fun l => (h.shared l).trans (h'.shared l), fun l hl => h'.mutable l (h.mutable l hl)⟩

theorem Grows.unborrowed (h : Grows s s') {l : Local} (hl : s'.borrow l = (0, false)) :
    s.borrow l = (0, false) := by
  have hshared := h.shared l
  have hmutable := h.mutable l
  rw [hl] at hshared hmutable
  refine Prod.ext (Nat.le_zero.mp hshared) ?_
  cases hb : (s.borrow l).2 with
  | false => rfl
  | true => exact (hmutable hb).symm

/-- The borrow of the reference is counted. -/
def Counts (s : FlowState) (r : Reference) : Prop :=
  if r.mutable then (s.borrow r.target).2 = true else 0 < (s.borrow r.target).1

theorem Counts.grows {r : Reference} (h : Counts s r) (hg : Grows s s') : Counts s' r := by
  unfold Counts at h ⊢
  split at h
  next hm => rw [if_pos hm]; exact hg.mutable _ h
  next hm => rw [if_neg hm]; exact Nat.lt_of_lt_of_le h (hg.shared _)

theorem Counts.borrowed {r : Reference} (h : Counts s r) : s.borrow r.target ≠ (0, false) := by
  intro hb
  unfold Counts at h
  rw [hb] at h
  split at h
  · cases h
  · exact Nat.lt_irrefl 0 h

theorem get_set {l x : Local} {state : LocalState} (hset : s.set l state = .ok s') (hl : l < s.locals.length) :
    s'.get x = if x = l then state else s.get x := by
  unfold FlowState.set at hset
  rw [if_pos hl] at hset
  split at hset
  next => cases hset
  next =>
    obtain rfl := Except.ok.inj hset
    rw [FlowState.get, List.getD_eq_getElem?_getD, List.getElem?_set]
    by_cases hx : l = x
    · rw [if_pos hx, if_pos hl, if_pos hx.symm]
      rfl
    · rw [if_neg hx, if_neg (Ne.symm hx), ← List.getD_eq_getElem?_getD]
      rfl

/-- Setting a state succeeds only on a variable that is not borrowed, and keeps all borrows. -/
theorem set_ok {l : Local} {state : LocalState} (hset : s.set l state = .ok s') :
    (l < s.locals.length → s.borrow l = (0, false)) ∧ (∀ x, s'.borrow x = s.borrow x) ∧
      s'.locals.length = s.locals.length ∧ s'.borrows.length = s.borrows.length := by
  unfold FlowState.set at hset
  split at hset
  next hl =>
    split at hset
    next => cases hset
    next hfree =>
      obtain rfl := Except.ok.inj hset
      rw [not_or, Nat.not_lt, Nat.le_zero, Bool.not_eq_true] at hfree
      have hzero : s.borrow l = (0, false) := Prod.ext hfree.1 hfree.2
      refine ⟨fun _ => hzero, fun x => ?_, List.length_set, ?_⟩
      · simp only [FlowState.borrow]
        split
        next =>
          rw [List.getD_eq_getElem?_getD, List.getElem?_set]
          by_cases hx : l = x
          · subst hx
            rw [if_pos rfl]
            have hzero' : (s.borrows[l]?).getD (0, false) = (0, false) := by
              rw [← List.getD_eq_getElem?_getD]
              exact hzero
            rw [List.getD_eq_getElem?_getD, hzero']
            split <;> rfl
          · rw [if_neg hx, List.getD_eq_getElem?_getD]
        next => rfl
      · split
        · exact List.length_set
        · rfl
  next hl =>
    obtain rfl := Except.ok.inj hset
    exact ⟨fun h => absurd h hl, fun _ => rfl, rfl, rfl⟩

end States

section Operands

variable {f : MirFunction} {fate : Local → Fate} {s : FlowState} {span : Span}

theorem lt_of_isMoveLocal {l : Local} (h : isMoveLocal f l = true) : l < f.locals.length := by
  unfold isMoveLocal at h
  split at h
  next decl hdecl => exact (List.getElem?_eq_some_iff.mp hdecl).1
  next => cases h

/-- What a check without errors has made of a state. -/
structure Checked (f : MirFunction) (fate : Local → Fate) (ops : List Operand) (s s' : FlowState) :
    Prop where
  agrees : FateAgrees f (ops.foldl (moveOut f) fate) s'
  borrow : ∀ x, s'.borrow x = s.borrow x
  reads : ReadsFine f fate ops
  moved : ∀ x, .move x ∈ ops → isMoveLocal f x = true → s.borrow x = (0, false)

theorem moveOut_blank {op : Operand} {l : Local} (h : fate l ≠ .blank) :
    moveOut f fate op l ≠ .blank := by
  unfold moveOut
  split
  next x =>
    split
    · by_cases hl : l = x
      · rw [hl, Function.update_self]
        exact fun h => by cases h
      · rwa [Function.update_of_ne hl]
    · exact h
  next => exact h

theorem checked_unmoved (hs : FateAgrees f fate s) {op : Operand}
    (hmove : moveOut f fate op = fate) (hgone : ∀ l, op.local? = some l → fate l ≠ .gone)
    (hmoved : ∀ x, op = .move x → isMoveLocal f x = false) : Checked f fate [op] s s where
  agrees := by
    rw [List.foldl_cons, List.foldl_nil, hmove]
    exact hs
  borrow _ := rfl
  reads := ⟨hgone, trivial⟩
  moved x hx hmv := by
    rw [hmoved x (List.mem_singleton.mp hx).symm] at hmv
    cases hmv

theorem checkOperand_ok (hs : FateAgrees f fate s) {op : Operand}
    (hok : (checkOperand f op s span).2 = [])
    (hblank : ∀ l, op.local? = some l → fate l ≠ .blank) :
    Checked f fate [op] s (checkOperand f op s span).1 := by
  have hgone : ∀ l, fate l = .gone → s.get l = .moved := hs.gone
  cases op with
  | const c =>
    exact checked_unmoved hs rfl (fun l hl => by cases hl) (fun x hx => by cases hx)
  | copy l =>
    cases hget : s.get l with
    | moved =>
      simp only [checkOperand, hget] at hok
      cases hok
    | dead | initialized =>
      simp only [checkOperand, hget]
      refine checked_unmoved hs rfl (fun x hx hg => ?_) (fun x hx => by cases hx)
      obtain rfl := Option.some.inj hx
      rw [hgone _ hg] at hget
      cases hget
  | move l =>
    have hvalued : s.get l ≠ .moved → fate l = .valued := by
      intro hget
      cases hf : fate l with
      | valued => rfl
      | blank => exact absurd hf (hblank l rfl)
      | gone => exact absurd (hgone l hf) hget
    have hread : s.get l ≠ .moved → ∀ x, Operand.local? (.move l) = some x → fate x ≠ .gone := by
      intro hget x hx hg
      obtain rfl := Option.some.inj hx
      rw [hvalued hget] at hg
      cases hg
    have hfixed : isMoveLocal f l = false → s.get l ≠ .moved → Checked f fate [.move l] s s := by
      intro hmv hget
      refine checked_unmoved hs ?_ (hread hget) fun x hx => ?_
      · rw [moveOut, hmv]
        exact if_neg fun h => by cases h.1
      · obtain rfl := Operand.move.inj hx
        exact hmv
    cases hget : s.get l with
    | moved =>
      simp only [checkOperand, hget] at hok
      cases hok
    | dead =>
      simp only [checkOperand, hget]
      have hne : s.get l ≠ .moved := by rw [hget]; exact fun h => by cases h
      refine hfixed ?_ hne
      cases hmv : isMoveLocal f l with
      | false => rfl
      | true => exact absurd hget (hs.valued l (lt_of_isMoveLocal hmv) (hvalued hne))
    | initialized =>
      have hne : s.get l ≠ .moved := by rw [hget]; exact fun h => by cases h
      simp only [checkOperand, hget] at hok ⊢
      cases hmv : isMoveLocal f l with
      | false =>
        rw [if_neg Bool.false_ne_true]
        exact hfixed hmv hne
      | true =>
        rw [hmv, if_pos rfl] at hok
        rw [if_pos rfl]
        have hlt : l < s.locals.length := Nat.lt_of_lt_of_le (lt_of_isMoveLocal hmv) hs.locals
        cases hset : s.set l .moved with
        | error msg =>
          rw [hset] at hok
          cases hok
        | ok s' =>
          obtain ⟨hfree, hborrow, hlocals, hborrows⟩ := set_ok hset
          have hmoveOut : moveOut f fate (.move l) = Function.update fate l .gone :=
            if_pos ⟨hmv, hvalued hne⟩
          have hfate : ∀ x, x ≠ l → s'.get x = s.get x := fun x hx =>
            (get_set hset hlt).trans (if_neg hx)
          have hself : s'.get l = .moved := (get_set hset hlt).trans (if_pos rfl)
          refine ⟨?_, hborrow, ⟨hread hne, trivial⟩, fun x hx _ => ?_⟩
          · rw [List.foldl_cons, List.foldl_nil, hmoveOut]
            refine ⟨by rw [hlocals]; exact hs.locals, by rw [hborrows]; exact hs.borrows,
              fun x hx hv => ?_, fun x hg => ?_⟩
            · by_cases hxl : x = l
              · rw [hxl, Function.update_self] at hv
                cases hv
              · rw [Function.update_of_ne hxl] at hv
                rw [hfate x hxl]
                exact hs.valued x hx hv
            · by_cases hxl : x = l
              · rw [hxl]
                exact hself
              · rw [Function.update_of_ne hxl] at hg
                rw [hfate x hxl]
                exact hgone x hg
          · obtain rfl := Operand.move.inj (List.mem_singleton.mp hx)
            exact hfree hlt

theorem checked_nil (hs : FateAgrees f fate s) : Checked f fate [] s s :=
  ⟨hs, fun _ => rfl, trivial, fun _ h => by cases h⟩

theorem Checked.append {s' t : FlowState} {ops ops' : List Operand} (h : Checked f fate ops s s')
    (h' : Checked f (ops.foldl (moveOut f) fate) ops' s' t) : Checked f fate (ops ++ ops') s t where
  agrees := by
    rw [List.foldl_append]
    exact h'.agrees
  borrow x := (h'.borrow x).trans (h.borrow x)
  reads := by
    have hreads : ∀ (ops : List Operand) (fate : Local → Fate), ReadsFine f fate ops →
        ReadsFine f (ops.foldl (moveOut f) fate) ops' → ReadsFine f fate (ops ++ ops') := by
      intro ops
      induction ops with
      | nil => exact fun _ _ h => h
      | cons op ops ih => exact fun fate h h' => ⟨h.1, ih _ h.2 h'⟩
    exact hreads ops fate h.reads h'.reads
  moved x hx hmv := by
    obtain hx | hx := List.mem_append.mp hx
    · exact h.moved x hx hmv
    · rw [← h.borrow x]
      exact h'.moved x hx hmv

theorem foldl_moveOut_blank {ops : List Operand} {l : Local} (h : fate l ≠ .blank) :
    ops.foldl (moveOut f) fate l ≠ .blank := by
  induction ops generalizing fate with
  | nil => exact h
  | cons op ops ih => exact ih (moveOut_blank h)

theorem checkOperands_ok {ops : List Operand} (hs : FateAgrees f fate s)
    (hok : (checkOperands f span ops s).2 = [])
    (hblank : ∀ l ∈ ops.filterMap Operand.local?, fate l ≠ .blank) :
    Checked f fate ops s (checkOperands f span ops s).1 := by
  induction ops generalizing fate s with
  | nil => exact checked_nil hs
  | cons op ops ih =>
    obtain ⟨hfirst, hrest⟩ := List.append_eq_nil_iff.mp hok
    have hop := checkOperand_ok hs hfirst fun l hl => hblank l
      (List.mem_filterMap.mpr ⟨op, List.mem_cons_self, hl⟩)
    refine hop.append (ih hop.agrees hrest fun l hl => moveOut_blank (hblank l ?_))
    obtain ⟨op', hop', hlocal⟩ := List.mem_filterMap.mp hl
    exact List.mem_filterMap.mpr ⟨op', List.mem_cons_of_mem _ hop', hlocal⟩

end Operands

section Statements

variable {f : MirFunction} {fate : Local → Fate} {s : FlowState} {span : Span}

/-- The rvalue makes a reference to `x`. -/
inductive Makes : Rvalue → Local → Bool → Prop
  | ref (x : Local) : Makes (.ref x) x false
  | mutRef (x : Local) : Makes (.mutRef x) x true

/-- What a statement without errors has found and made of a state. -/
structure StmtOk (f : MirFunction) (fate : Local → Fate) (kind : StatementKind) (s s' : FlowState) :
    Prop where
  agrees : FateAgrees f (fateAfter f fate kind) s'
  grows : Grows s s'
  reads : ReadsFine f fate kind.evaluated
  moved : ∀ x, .move x ∈ kind.evaluated → isMoveLocal f x = true → s.borrow x = (0, false)
  mutated : ∀ x, mutated kind = some x → (s.borrow x).1 = 0
  assigned : ∀ dst rval, kind = .assign dst rval → s.borrow dst = (0, false)
  dropped : ∀ x, kind = .drop x → s.get x = .initialized → s.borrow x = (0, false)
  made : ∀ dst rval (r : Reference), kind = .assign dst rval → Makes rval r.target r.mutable →
    Counts s' r
  exclusive : ∀ dst rval (r r' : Reference), kind = .assign dst rval → Makes rval r'.target r'.mutable →
    r.target = r'.target → r.mutable = true ∨ r'.mutable = true → ¬Counts s r

theorem FateAgrees.borrows_only {s' : FlowState} (h : FateAgrees f fate s)
    (hlocals : s'.locals = s.locals) (hlen : s'.borrows.length = s.borrows.length) :
    FateAgrees f fate s' where
  locals := hlocals ▸ h.locals
  borrows := hlen ▸ h.borrows
  valued l hl hv := by
    rw [FlowState.get, hlocals]
    exact h.valued l hl hv
  gone l hg := by
    rw [FlowState.get, hlocals]
    exact h.gone l hg

theorem borrow_setBorrow {l x : Local} {borrow : Nat × Bool} (hl : l < s.borrows.length) :
    (s.setBorrow l borrow).borrow x = if x = l then borrow else s.borrow x := by
  rw [FlowState.borrow, FlowState.setBorrow, List.getD_eq_getElem?_getD, List.getElem?_set]
  by_cases hx : l = x
  · rw [if_pos hx, if_pos hl, if_pos hx.symm]
    rfl
  · rw [if_neg hx, if_neg (Ne.symm hx), ← List.getD_eq_getElem?_getD]
    rfl

theorem checkMutation_ok {op : Operand} (hok : checkMutation f op s span = []) {x : Local}
    (hx : op.local? = some x) : (s.borrow x).1 = 0 := by
  unfold checkMutation at hok
  rw [hx] at hok
  dsimp only at hok
  split at hok
  next => cases hok
  next h => exact Nat.eq_zero_of_not_pos h

/-- What the check of an rvalue has found and made. -/
structure RvalueOk (f : MirFunction) (fate : Local → Fate) (rval : Rvalue) (s s' : FlowState) :
    Prop where
  agrees : FateAgrees f (rval.inputs.foldl (moveOut f) fate) s'
  grows : Grows s s'
  reads : ReadsFine f fate rval.inputs
  moved : ∀ x, .move x ∈ rval.inputs → isMoveLocal f x = true → s.borrow x = (0, false)
  mutated : ∀ dst x, mutated (.assign dst rval) = some x → (s.borrow x).1 = 0
  made : ∀ r : Reference, Makes rval r.target r.mutable → Counts s' r
  exclusive : ∀ r r' : Reference, Makes rval r'.target r'.mutable → r.target = r'.target →
    r.mutable = true ∨ r'.mutable = true → ¬Counts s r

theorem Checked.grows {ops : List Operand} {s' : FlowState} (h : Checked f fate ops s s') :
    Grows s s' where
  shared l := by rw [h.borrow l]
  mutable l hl := by rwa [h.borrow l]

theorem rvalueOk_of_checked {rval : Rvalue} {s' : FlowState} (h : Checked f fate rval.inputs s s')
    (hmutated : ∀ dst x, mutated (.assign dst rval) = some x → (s.borrow x).1 = 0)
    (hmakes : ∀ x m, ¬Makes rval x m) : RvalueOk f fate rval s s' where
  agrees := h.agrees
  grows := h.grows
  reads := h.reads
  moved := h.moved
  mutated := hmutated
  made _ hr := absurd hr (hmakes _ _)
  exclusive _ _ hr' := absurd hr' (hmakes _ _)

/-- A borrow counts for the new reference, and found none that excludes it. -/
theorem rvalueOk_of_borrow {rval : Rvalue} {x : Local} {m : Bool} {borrow : Nat × Bool}
    (hs : FateAgrees f fate s) (hx : x < f.locals.length) (hinputs : rval.inputs = [.copy x])
    (hmutated : ∀ dst, mutated (.assign dst rval) = none)
    (hmakes : ∀ y m', Makes rval y m' → y = x ∧ m' = m)
    (hget : s.get x = .initialized)
    (hshared : (s.borrow x).1 ≤ borrow.1) (hmutable : (s.borrow x).2 = true → borrow.2 = true)
    (hcounts : if m then borrow.2 = true else 0 < borrow.1)
    (hfree : (s.borrow x).2 = false ∧ (m = true → (s.borrow x).1 = 0)) :
    RvalueOk f fate rval s (s.setBorrow x borrow) := by
  have hlt : x < s.borrows.length := Nat.lt_of_lt_of_le hx hs.borrows
  have hread : Checked f fate [.copy x] s s := by
    refine checked_unmoved hs rfl (fun l hl hg => ?_) (fun l hl => by cases hl)
    obtain rfl := Option.some.inj hl
    rw [hs.gone _ hg] at hget
    cases hget
  refine ⟨?_, ⟨fun l => ?_, fun l hl => ?_⟩, ?_, ?_, ?_, fun r hr => ?_, fun r r' hr' htarget hm hc => ?_⟩
  · rw [hinputs]
    exact hread.agrees.borrows_only rfl List.length_set
  · rw [borrow_setBorrow hlt]
    split
    next hl => rwa [hl]
    next => exact Nat.le_refl _
  · rw [borrow_setBorrow hlt]
    split
    next hlx =>
      rw [hlx] at hl
      exact hmutable hl
    next => exact hl
  · rw [hinputs]
    exact hread.reads
  · rw [hinputs]
    exact hread.moved
  · intro dst y hy
    rw [hmutated dst] at hy
    cases hy
  · obtain ⟨htarget, hmut⟩ := hmakes _ _ hr
    unfold Counts
    rw [htarget, hmut, borrow_setBorrow hlt, if_pos rfl]
    exact hcounts
  · obtain ⟨htarget', hmut⟩ := hmakes _ _ hr'
    unfold Counts at hc
    rw [htarget, htarget'] at hc
    split at hc
    next =>
      rw [hfree.1] at hc
      cases hc
    next hne =>
      have hmutable' : m = true := by
        rw [← hmut]
        exact hm.resolve_left hne
      rw [hfree.2 hmutable'] at hc
      exact Nat.lt_irrefl 0 hc

theorem checkRvalue_ok {rval : Rvalue} (hs : FateAgrees f fate s)
    (hok : (checkRvalue f rval s span).2 = [])
    (hblank : ∀ l ∈ rval.inputs.filterMap Operand.local?, fate l ≠ .blank)
    (hdecl : ∀ l ∈ rval.inputs.filterMap Operand.local?, l < f.locals.length) :
    RvalueOk f fate rval s (checkRvalue f rval s span).1 := by
  cases rval with
  | ref x =>
    obtain ⟨hget, hfree⟩ := List.append_eq_nil_iff.mp hok
    split at hget
    next => cases hget
    next hinit =>
      split at hfree
      next => cases hfree
      next hmut =>
        refine rvalueOk_of_borrow (m := false) hs (hdecl x (List.mem_singleton_self x)) rfl
          (fun _ => rfl) (fun y m h => by cases h; exact ⟨rfl, rfl⟩) (not_not.mp hinit)
          (Nat.le_succ _) (fun h => h) (Nat.succ_pos _) ⟨by simpa using hmut, fun h => by cases h⟩
  | mutRef x =>
    obtain ⟨hrest, hfree⟩ := List.append_eq_nil_iff.mp hok
    obtain ⟨hget, _⟩ := List.append_eq_nil_iff.mp hrest
    split at hget
    next => cases hget
    next hinit =>
      split at hfree
      next => cases hfree
      next hnone =>
        rw [not_or, Nat.not_lt, Nat.le_zero, Bool.not_eq_true] at hnone
        refine rvalueOk_of_borrow (m := true) hs (hdecl x (List.mem_singleton_self x)) rfl
          (fun _ => rfl) (fun y m h => by cases h; exact ⟨rfl, rfl⟩) (not_not.mp hinit)
          (Nat.le_refl _) (fun _ => rfl) rfl ⟨hnone.2, fun _ => hnone.1⟩
  | call func args =>
    obtain ⟨hfirst, hrest⟩ := List.append_eq_nil_iff.mp hok
    obtain ⟨hcallee, hreceiver⟩ := List.append_eq_nil_iff.mp hfirst
    have hfunc := checkOperand_ok hs hcallee fun l hl => hblank l
      (List.mem_filterMap.mpr ⟨func, List.mem_cons_self, hl⟩)
    have hargs := checkOperands_ok hfunc.agrees hrest fun l hl => foldl_moveOut_blank (hblank l (by
      obtain ⟨op, hop, hlocal⟩ := List.mem_filterMap.mp hl
      exact List.mem_filterMap.mpr ⟨op, List.mem_cons_of_mem _ hop, hlocal⟩))
    refine rvalueOk_of_checked (hfunc.append hargs) (fun dst x hx => ?_) (fun _ _ h => by cases h)
    obtain ⟨receiver, hrec, hlocal⟩ := Option.bind_eq_some_iff.mp hx
    rw [hrec] at hreceiver
    rw [← hfunc.borrow x]
    exact checkMutation_ok hreceiver hlocal
  | _ =>
    refine rvalueOk_of_checked (checkOperands_ok hs hok hblank) (fun dst x hx => by cases hx)
      (fun _ _ h => by cases h)

theorem fateAgrees_update (hs : FateAgrees f fate s) {s' : FlowState} {l : Local} {v : Fate}
    {state : LocalState} (hset : s.set l state = .ok s') (hl : l < f.locals.length)
    (hvalued : v = .valued → state ≠ .dead) (hgone : v = .gone → state = .moved) :
    FateAgrees f (Function.update fate l v) s' := by
  obtain ⟨_, _, hlocals, hborrows⟩ := set_ok hset
  have hlt : l < s.locals.length := Nat.lt_of_lt_of_le hl hs.locals
  refine ⟨by rw [hlocals]; exact hs.locals, by rw [hborrows]; exact hs.borrows, ?_, ?_⟩
  · intro x hx hv
    rw [get_set hset hlt]
    by_cases hxl : x = l
    · rw [hxl, Function.update_self] at hv
      rw [if_pos hxl]
      exact hvalued hv
    · rw [Function.update_of_ne hxl] at hv
      rw [if_neg hxl]
      exact hs.valued x hx hv
  · intro x hg
    rw [get_set hset hlt]
    by_cases hxl : x = l
    · rw [hxl, Function.update_self] at hg
      rw [if_pos hxl]
      exact hgone hg
    · rw [Function.update_of_ne hxl] at hg
      rw [if_neg hxl]
      exact hs.gone x hg

/-- A blank local may have any state. -/
theorem fateAgrees_blank (hs : FateAgrees f fate s) {s' : FlowState} {l : Local}
    (hget : ∀ x, x ≠ l → s'.get x = s.get x) (hlocals : s'.locals.length = s.locals.length)
    (hborrows : s'.borrows.length = s.borrows.length) :
    FateAgrees f (Function.update fate l .blank) s' := by
  refine ⟨by rw [hlocals]; exact hs.locals, by rw [hborrows]; exact hs.borrows, ?_, ?_⟩
  · intro x hx hv
    by_cases hxl : x = l
    · rw [hxl, Function.update_self] at hv
      cases hv
    · rw [Function.update_of_ne hxl] at hv
      rw [hget x hxl]
      exact hs.valued x hx hv
  · intro x hg
    by_cases hxl : x = l
    · rw [hxl, Function.update_self] at hg
      cases hg
    · rw [Function.update_of_ne hxl] at hg
      rw [hget x hxl]
      exact hs.gone x hg

theorem get_set_of_ne {s' : FlowState} {l x : Local} {state : LocalState}
    (hset : s.set l state = .ok s') (hx : x ≠ l) : s'.get x = s.get x := by
  by_cases hl : l < s.locals.length
  · exact (get_set hset hl).trans (if_neg hx)
  · rw [FlowState.set, if_neg hl] at hset
    rw [Except.ok.inj hset]

theorem Grows.of_eq {s' : FlowState} (h : ∀ x, s'.borrow x = s.borrow x) : Grows s s' :=
  ⟨fun x => by rw [h x], fun x hx => by rwa [h x]⟩

/-- A statement that only evaluates operands, and may mutate the first. -/
theorem stmtOk_of_checked {kind : StatementKind} {s' : FlowState}
    (h : Checked f fate kind.evaluated s s')
    (hfate : fateAfter f fate kind = kind.evaluated.foldl (moveOut f) fate)
    (hmutated : ∀ x, mutated kind = some x → (s.borrow x).1 = 0)
    (hassign : ∀ dst rval, kind ≠ .assign dst rval) (hdrop : ∀ x, kind ≠ .drop x) :
    StmtOk f fate kind s s' where
  agrees := by
    rw [hfate]
    exact h.agrees
  grows := h.grows
  reads := h.reads
  moved := h.moved
  mutated := hmutated
  assigned dst rval hk := absurd hk (hassign dst rval)
  dropped x hk := absurd hk (hdrop x)
  made dst rval _ hk := absurd hk (hassign dst rval)
  exclusive dst rval _ _ hk := absurd hk (hassign dst rval)

/-- A storage statement, or a drop that does nothing. -/
theorem stmtOk_of_same {kind : StatementKind} {s' : FlowState}
    (hagrees : FateAgrees f (fateAfter f fate kind) s') (hborrow : ∀ x, s'.borrow x = s.borrow x)
    (hops : kind.evaluated = []) (hmutated : mutated kind = none)
    (hassign : ∀ dst rval, kind ≠ .assign dst rval)
    (hdrop : ∀ x, kind = .drop x → s.get x = .initialized → s.borrow x = (0, false)) :
    StmtOk f fate kind s s' where
  agrees := hagrees
  grows := Grows.of_eq hborrow
  reads := by
    rw [hops]
    trivial
  moved x hx := by
    rw [hops] at hx
    cases hx
  mutated x hx := by
    rw [hmutated] at hx
    cases hx
  assigned dst rval hk := absurd hk (hassign dst rval)
  dropped := hdrop
  made dst rval _ hk := absurd hk (hassign dst rval)
  exclusive dst rval _ _ hk := absurd hk (hassign dst rval)

/-- A storage statement sets a state, unless the local is borrowed. -/
theorem storage_ok (hs : FateAgrees f fate s) (l : Local) (state : LocalState) :
    FateAgrees f (Function.update fate l .blank) ((s.set l state).toOption.getD s) ∧
      ∀ x, ((s.set l state).toOption.getD s).borrow x = s.borrow x := by
  cases hset : s.set l state with
  | error msg => exact ⟨fateAgrees_blank hs (fun _ _ => rfl) rfl rfl, fun _ => rfl⟩
  | ok s' =>
    obtain ⟨_, hborrow, hlocals, hborrows⟩ := set_ok hset
    exact ⟨fateAgrees_blank hs (fun _ hx => get_set_of_ne hset hx) hlocals hborrows, hborrow⟩

theorem transferStmt_ok {stmt : Statement} {prov : Provenance} (hs : FateAgrees f fate s)
    (hok : (transferStmt f stmt prov s).2.2 = [])
    (hblank : ∀ l ∈ stmt.kind.evaluated.filterMap Operand.local?, fate l ≠ .blank)
    (hreads : ∀ l : Nat, l ∈ stmt.kind.evaluated.filterMap Operand.local? → l < f.locals.length)
    (hdst : ∀ l : Nat, stmt.dst? = some l → l < f.locals.length)
    (hdrop : ∀ l : Nat, stmt.kind = .drop l → l < f.locals.length)
    (hcheck : ∀ value generation, stmt.kind ≠ .genCheck value generation) :
    StmtOk f fate stmt.kind s (transferStmt f stmt prov s).2.1 := by
  obtain ⟨kind, span⟩ := stmt
  cases kind with
  | genCheck value generation => exact absurd rfl (hcheck value generation)
  | storageLive l =>
    obtain ⟨hagrees, hborrow⟩ := storage_ok hs l .initialized
    exact stmtOk_of_same hagrees hborrow rfl rfl (fun _ _ h => by cases h) (fun _ h => by cases h)
  | storageDead l =>
    obtain ⟨hagrees, hborrow⟩ := storage_ok hs l .dead
    exact stmtOk_of_same hagrees hborrow rfl rfl (fun _ _ h => by cases h) (fun _ h => by cases h)
  | setIndex obj idx val unchecked | vectorStore obj idx val =>
    obtain ⟨hmutation, hops⟩ := List.append_eq_nil_iff.mp hok
    exact stmtOk_of_checked (checkOperands_ok hs hops hblank) rfl
      (fun x hx => checkMutation_ok hmutation hx) (fun _ _ h => by cases h) (fun _ h => by cases h)
  | setAttr obj attr val =>
    obtain ⟨hmutation, hops⟩ := List.append_eq_nil_iff.mp hok
    have h := checkOperands_ok hs hops hblank
    have hsame : Checked f fate [obj, val] s
        (transferStmt f ⟨.setAttr obj attr val, span⟩ prov s).2.1 :=
      ⟨h.agrees.borrows_only rfl rfl, h.borrow, h.reads, h.moved⟩
    exact stmtOk_of_checked hsame rfl (fun x hx => checkMutation_ok hmutation hx)
      (fun _ _ h => by cases h) (fun _ h => by cases h)
  | ptrStore ptr val =>
    exact stmtOk_of_checked (checkOperands_ok hs hok hblank) rfl (fun x hx => by cases hx)
      (fun _ _ h => by cases h) (fun _ h => by cases h)
  | drop l =>
    have hlt := hdrop l rfl
    simp only [transferStmt] at hok ⊢
    split at hok
    next hinit =>
      rw [if_pos hinit]
      cases hset : s.set l .moved with
      | error msg =>
        rw [hset] at hok
        cases hok
      | ok s' =>
        obtain ⟨hfree, hborrow, hlocals, hborrows⟩ := set_ok hset
        have hzero := hfree (Nat.lt_of_lt_of_le hlt hs.locals)
        refine stmtOk_of_same ?_ hborrow rfl rfl (fun _ _ h => by cases h) fun x hx _ => ?_
        · change FateAgrees f (if fate l = .valued then Function.update fate l .gone else fate) s'
          split
          next => exact fateAgrees_update hs hset hlt (fun h => by cases h) (fun _ => rfl)
          next hv =>
            have hblank : fate = Function.update fate l .blank := by
              cases hf : fate l with
              | valued => exact absurd hf hv
              | blank => rw [← hf, Function.update_eq_self]
              | gone =>
                have hm := hs.gone l hf
                rw [hinit] at hm
                cases hm
            rw [hblank]
            exact fateAgrees_blank hs (fun _ hx => get_set_of_ne hset hx) hlocals hborrows
        · cases hx
          exact hzero
    next hinit =>
      rw [if_neg hinit]
      refine stmtOk_of_same ?_ (fun _ => rfl) rfl rfl (fun _ _ h => by cases h) fun x hx hget => ?_
      · change FateAgrees f (if fate l = .valued then Function.update fate l .gone else fate) s
        split
        next hv =>
          have hmoved : s.get l = .moved := by
            cases hget : s.get l with
            | moved => rfl
            | dead => exact absurd hget (hs.valued l hlt hv)
            | initialized => exact absurd hget hinit
          refine ⟨hs.locals, hs.borrows, fun x hx hval => ?_, fun x hg => ?_⟩
          · by_cases hxl : x = l
            · rw [hxl, Function.update_self] at hval
              cases hval
            · rw [Function.update_of_ne hxl] at hval
              exact hs.valued x hx hval
          · by_cases hxl : x = l
            · rw [hxl]
              exact hmoved
            · rw [Function.update_of_ne hxl] at hg
              exact hs.gone x hg
        next => exact hs
      · cases hx
        exact absurd hget hinit
  | assign dst rval =>
    have hlt := hdst dst rfl
    simp only [transferStmt] at hok ⊢
    cases hset : (checkRvalue f rval s span).1.set dst .initialized with
    | error msg =>
      rw [hset] at hok
      exact absurd hok (by simp)
    | ok s' =>
      rw [hset] at hok
      have h := checkRvalue_ok hs hok hblank hreads
      obtain ⟨hfree, hborrow, _, _⟩ := set_ok hset
      have hzero := hfree (Nat.lt_of_lt_of_le hlt h.agrees.locals)
      have hgrows := h.grows.trans (Grows.of_eq hborrow)
      exact {
        agrees := fateAgrees_update h.agrees hset hlt (fun _ h => by cases h) (fun h => by cases h)
        grows := hgrows
        reads := h.reads
        moved := h.moved
        mutated := h.mutated dst
        assigned := fun dst' rval' hk => by
          cases hk
          exact h.grows.unborrowed hzero
        dropped := fun x hx => by cases hx
        made := fun dst' rval' r hk hr => by
          cases hk
          exact (h.made r hr).grows (Grows.of_eq hborrow)
        exclusive := fun dst' rval' r r' hk => by
          cases hk
          exact h.exclusive r r' }

end Statements

section Releases

variable {s : FlowState} {prov : Provenance} {live : Finset Local}

theorem release_borrow {l x : Local} (hx : x ≠ l) : (s.release l).borrow x = s.borrow x := by
  rw [FlowState.release, FlowState.borrow, FlowState.setBorrow, List.getD_eq_getElem?_getD,
    List.getElem?_set_ne (Ne.symm hx), ← List.getD_eq_getElem?_getD]
  rfl

theorem releases_kept (dead : Provenance) (s : FlowState) :
    (dead.foldl (fun s p => s.release p.2) s).locals = s.locals ∧
      (dead.foldl (fun s p => s.release p.2) s).borrows.length = s.borrows.length ∧
      ∀ x, (∀ p ∈ dead, p.2 ≠ x) →
        (dead.foldl (fun s p => s.release p.2) s).borrow x = s.borrow x := by
  induction dead generalizing s with
  | nil => exact ⟨rfl, rfl, fun _ _ => rfl⟩
  | cons p dead ih =>
    obtain ⟨hlocals, hlen, hborrow⟩ := ih (s.release p.2)
    refine ⟨hlocals, hlen.trans List.length_set, fun x hx => ?_⟩
    rw [List.foldl_cons, hborrow x fun q hq => hx q (List.mem_cons_of_mem _ hq)]
    exact release_borrow (Ne.symm (hx p List.mem_cons_self))

/-- The end of borrows changes no state, and keeps the borrows of what is not released. -/
theorem releaseDeadBorrows_kept (prov : Provenance) (s : FlowState) (live : Finset Local) :
    (releaseDeadBorrows prov s live).locals = s.locals ∧
      (releaseDeadBorrows prov s live).borrows.length = s.borrows.length ∧
      ∀ x, ¬Releases prov live x → (releaseDeadBorrows prov s live).borrow x = s.borrow x := by
  obtain ⟨hlocals, hlen, hborrow⟩ := releases_kept (prov.filter fun p =>
    p.1 ∉ live ∧ p.2 ∉ (prov.filter fun p => p.1 ∈ live).map Prod.snd) s
  refine ⟨hlocals, hlen, fun x hx => hborrow x fun p hp hpx => hx ?_⟩
  obtain ⟨hmem, hdead⟩ := List.mem_filter.mp hp
  obtain ⟨hlive, hstill⟩ := of_decide_eq_true hdead
  refine ⟨⟨p.1, by rwa [← hpx], hlive⟩, fun l hl hlive' => hstill ?_⟩
  rw [hpx]
  exact List.mem_map.mpr ⟨(l, x), List.mem_filter.mpr ⟨hl, decide_eq_true hlive'⟩, rfl⟩

end Releases

section Joins

/-- The second state allows no more than the first. -/
structure Le (s t : FlowState) : Prop where
  locals : s.locals.length ≤ t.locals.length
  borrows : s.borrows.length ≤ t.borrows.length
  assigned : ∀ l, s.get l ≠ .dead → t.get l ≠ .dead
  moved : ∀ l, s.get l = .moved → t.get l = .moved
  grows : Grows s t

theorem getD_range_map {α : Type} (g : Nat → α) (n l : Nat) (d : α) (h : n ≤ l → g l = d) :
    ((List.range n).map g).getD l d = g l := by
  rw [List.getD_eq_getElem?_getD, List.getElem?_map]
  obtain hl | hl := Nat.lt_or_ge l n
  · rw [List.getElem?_range hl]
    rfl
  · rw [List.getElem?_eq_none (by rwa [List.length_range]), h hl]
    rfl

theorem getD_of_length_le {α : Type} {xs : List α} {l : Nat} {d : α} (h : xs.length ≤ l) :
    xs.getD l d = d := by
  rw [List.getD_eq_getElem?_getD, List.getElem?_eq_none h]
  rfl

theorem join_get (s t : FlowState) (l : Local) :
    (s.join t).1.get l = mergeStates (s.get l) (t.get l) := by
  refine getD_range_map _ _ l _ fun hl => ?_
  rw [FlowState.get, FlowState.get, getD_of_length_le ((Nat.le_max_left _ _).trans hl),
    getD_of_length_le ((Nat.le_max_right _ _).trans hl)]
  rfl

theorem join_borrow (s t : FlowState) (l : Local) :
    (s.join t).1.borrow l =
      (max (s.borrow l).1 (t.borrow l).1, (s.borrow l).2 || (t.borrow l).2) := by
  refine getD_range_map _ _ l _ fun hl => ?_
  rw [FlowState.borrow, FlowState.borrow, getD_of_length_le ((Nat.le_max_left _ _).trans hl),
    getD_of_length_le ((Nat.le_max_right _ _).trans hl)]
  rfl

theorem mergeStates_above (a b : LocalState) :
    (a ≠ .dead → mergeStates a b ≠ .dead) ∧ (b ≠ .dead → mergeStates a b ≠ .dead) ∧
      (a = .moved → mergeStates a b = .moved) ∧ (b = .moved → mergeStates a b = .moved) := by
  cases a <;> cases b <;> decide

theorem flow_joins (f : MirFunction) (structFields : FxHashMap String (List String))
    (liveAfter : List (List (Finset Local))) : Joins (flow f structFields liveAfter) Le where
  refl s := ⟨Nat.le_refl _, Nat.le_refl _, fun _ h => h, fun _ h => h, Grows.refl s⟩
  trans s t u h h' := ⟨h.locals.trans h'.locals, h.borrows.trans h'.borrows,
    fun l hl => h'.assigned l (h.assigned l hl), fun l hl => h'.moved l (h.moved l hl),
    h.grows.trans h'.grows⟩
  left s t := by
    change Le s (s.join t).1
    refine ⟨by simp [FlowState.join], by simp [FlowState.join], fun l hl => ?_, fun l hl => ?_,
      fun l => ?_, fun l hl => ?_⟩
    · rw [join_get]
      exact (mergeStates_above _ _).1 hl
    · rw [join_get]
      exact (mergeStates_above _ _).2.2.1 hl
    · rw [join_borrow]
      exact Nat.le_max_left _ _
    · rw [join_borrow, hl]
      rfl
  right s t := by
    change Le t (s.join t).1
    refine ⟨by simp [FlowState.join], by simp [FlowState.join], fun l hl => ?_, fun l hl => ?_,
      fun l => ?_, fun l hl => ?_⟩
    · rw [join_get]
      exact (mergeStates_above _ _).2.1 hl
    · rw [join_get]
      exact (mergeStates_above _ _).2.2.2 hl
    · rw [join_borrow]
      exact Nat.le_max_right _ _
    · rw [join_borrow, hl]
      exact Bool.or_true _
  same s t h := by
    have hne := of_decide_eq_false h
    exact not_not.mp hne

end Joins

section Blocks

variable {f : MirFunction} {structFields : FxHashMap String (List String)}
  {liveAfter : List (List (Finset Local))} {bb : BasicBlockId} {c : Context × FlowState}

theorem checkStmts_succ {idx : Nat} {stmt : Statement} (hs : (f.stmtsAt bb)[idx]? = some stmt) :
    checkStmts f liveAfter bb (idx + 1) c =
      checkStmt f liveAfter bb (checkStmts f liveAfter bb idx c) (stmt, idx) := by
  have hlt : idx < (f.stmtsAt bb).length := (List.getElem?_eq_some_iff.mp hs).1
  have htake : (f.stmtsAt bb).take (idx + 1) = (f.stmtsAt bb).take idx ++ [stmt] := by
    rw [List.take_add_one, hs]
    rfl
  rw [checkStmts, htake, List.zipIdx_append, List.foldl_append, List.length_take,
    Nat.min_eq_left (Nat.le_of_lt hlt), Nat.zero_add]
  rfl

/-- Errors stay: a block without errors has none before any of its statements. -/
theorem errors_nil_of_le {idx n : Nat} (hle : idx ≤ n) (hn : n ≤ (f.stmtsAt bb).length)
    (h : (checkStmts f liveAfter bb n c).1.errors = []) :
    (checkStmts f liveAfter bb idx c).1.errors = [] := by
  induction n with
  | zero =>
    obtain rfl := Nat.le_zero.mp hle
    exact h
  | succ n ih =>
    obtain rfl | hlt := Nat.eq_or_lt_of_le hle
    · exact h
    · have hs := List.getElem?_eq_getElem (Nat.lt_of_succ_le hn)
      rw [checkStmts_succ hs] at h
      exact ih (Nat.le_of_lt_succ hlt) (Nat.le_of_succ_le hn) (List.append_eq_nil_iff.mp h).1

/-- The point's fates and the references of its live locals are known to the state. -/
structure Agrees (f : MirFunction) (liveAfter : List (List (Finset Local))) (p : PathPoint)
    (s : FlowState) : Prop where
  fates : FateAgrees f p.fate s
  borrowed : ∀ l ∈ liveAt liveAfter p.bb p.idx, ∀ r, p.holds l = some r → Counts s r

theorem Agrees.above {p : PathPoint} {s t : FlowState} (h : Agrees f liveAfter p s) (hle : Le s t) :
    Agrees f liveAfter p t where
  fates := {
    locals := h.fates.locals.trans hle.locals
    borrows := h.fates.borrows.trans hle.borrows
    valued := fun l hl hv => hle.assigned l (h.fates.valued l hl hv)
    gone := fun l hg => hle.moved l (h.fates.gone l hg) }
  borrowed l hl r hr := (h.borrowed l hl r hr).grows hle.grows

theorem Agrees.released {p : PathPoint} {s : FlowState} (h : Agrees f liveAfter p s)
    {prov : Provenance} (hkept : ∀ l ∈ liveAt liveAfter p.bb p.idx, ∀ r, p.holds l = some r →
      ¬Releases prov (liveAt liveAfter p.bb p.idx) r.target) :
    Agrees f liveAfter p (releaseDeadBorrows prov s (liveAt liveAfter p.bb p.idx)) := by
  obtain ⟨hlocals, hlen, hborrow⟩ :=
    releaseDeadBorrows_kept prov s (liveAt liveAfter p.bb p.idx)
  refine ⟨h.fates.borrows_only hlocals hlen, fun l hl r hr => ?_⟩
  have hcounts := h.borrowed l hl r hr
  unfold Counts at hcounts ⊢
  rwa [hborrow r.target (hkept l hl r hr)]

theorem readAt_stmt {idx : Nat} {stmt : Statement} (hs : (f.stmtsAt bb)[idx]? = some stmt)
    (hcheck : ∀ value generation, stmt.kind ≠ .genCheck value generation) :
    f.readAt bb idx = stmt.kind.evaluated := by
  unfold MirFunction.readAt
  split
  next value generation span hs' =>
    cases hs.symm.trans hs'
    exact absurd rfl (hcheck value generation)
  next => simp only [MirFunction.operandsAt, hs]

theorem readAt_end {idx : Nat} (hs : (f.stmtsAt bb)[idx]? = none) :
    f.readAt bb idx = f.operandsAt bb idx := by
  simp only [MirFunction.readAt, hs]

theorem checkTerminator_ok {fate : Local → Fate} {s : FlowState} {idx : Nat}
    (hs : FateAgrees f fate s) (hend : (f.stmtsAt bb)[idx]? = none)
    (hok : (checkTerminator f structFields (f.terminatorAt bb) s).2 = [])
    (hblank : ∀ l ∈ (f.operandsAt bb idx).filterMap Operand.local?, fate l ≠ .blank) :
    Checked f fate (f.operandsAt bb idx) s
      (checkTerminator f structFields (f.terminatorAt bb) s).1 := by
  simp only [MirFunction.operandsAt, hend] at hblank ⊢
  cases hterm : f.terminatorAt bb with
  | none => exact checked_nil hs
  | some term =>
    obtain ⟨kind, span⟩ := term
    rw [hterm] at hok hblank
    cases kind with
    | switchInt discr targets otherwise =>
      exact checkOperand_ok hs hok fun l hl => hblank l
        (List.mem_filterMap.mpr ⟨discr, List.mem_singleton_self discr, hl⟩)
    | ret =>
      have hsame : (checkTerminator f structFields (some ⟨.ret, span⟩) s).1 = s := by
        simp only [checkTerminator]
        split <;> rfl
      rw [hsame]
      exact checked_nil hs
    | goto _ | unreachable => exact checked_nil hs

end Blocks

end BorrowChecker

end Olive
